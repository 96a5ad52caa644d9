import Mathlib.Algebra.BigOperators.Ring.List
import Mathlib.Algebra.Ring.Nat
import Warlib.Pipeline.Isolation
import Warlib.Pipeline.LocalPromise

/-!
# Shutting down comes to an end

`Isolation.lean` shows that the worker gets on as long as nobody calls `Close`.
This file is about the rest of its life. After `Close` the worker can block
for good in one way: a task calls `PostSynchronously` on its own pipeline,
whose `Dispatch` dismisses the lambda that would satisfy the promise — the
worker then waits for itself (`worker_blocks`), and nothing any thread does
ever wakes it (`stranded_steps`).

Apart from that it comes to an end. `effort` is the rank of the worker's stack
and one for the loop itself; each step of the pipeline's own code comes out of
it, whatever `closing_` says (`Stepped.effort`), and nothing is taken behind
the shutdown handler (`taken_bound`). So once the handler is in the queue, the
worker has a bounded number of steps of its own left, and takes them
(`shutdown_terminates`). The same bound says when any other handler in the
queue is reached (`no_handler_starves`).
-/

namespace Warlib.Pipeline

open Warlib.Machine

variable {name : String} {cap : BitVec 64} {n : Nat} {ok : State → Step → Prop}
  {s s' : State} {l : Step} {i : Nat} {m m' : Mem} {a : Act} {ctl : Ctl Exn} {f g : Frame}
  {rest : List Frame} {nx : Next Frame Exn}

/-! ## What the worker waits for -/

/-- The promise of call `id` is satisfied, or its lambda has been dismissed. -/
def Resolved (m : Mem) (id : Nat) : Prop :=
  m.promises (.sync id) ≠ none ∨ ∃ site, .dismissed site (.sync id) ∈ m.trace

theorem Stepped.resolved (hs : Stepped s l s') {id : Nat} (h : Resolved s.mem id) :
    Resolved s'.mem id := by
  rcases h with hp | ⟨site, hmem⟩
  · exact Or.inl (hs.promises hp)
  · exact Or.inr ⟨site, hs.later.trace.subset hmem⟩

theorem Move.resolved {id : Nat} (h : Move i m a ctl f m' nx) (hr : Resolved m id) :
    Resolved m' id := by
  rcases hr with hp | ⟨site, hmem⟩
  · exact Or.inl (h.promises hp)
  · exact Or.inr ⟨site, h.later.trace.subset hmem⟩

/-- The worker's stack, closing or not: what it is going to wait for is decided,
and it never queued the lambda. -/
structure Decided (m : Mem) (th : Thread Frame Exn) : Prop where
  resolved : ∀ f rest, th.frames = f :: rest → ∀ id, settles th.ctl f = some id → Resolved m id
  inline : ∀ pc id, .post pc (.sync id) ∉ th.frames

/-- What the frame below is told, its promise is decided by then. -/
theorem Move.decides (h : Move 0 m a ctl f m' nx) (hend : nx.frames = []) (hover : Over f g)
    (hD : Decided m ⟨ctl, f :: rest⟩) {id : Nat}
    (hg : Pipeline.settles (nx.resume (g :: rest)).ctl g = some id) : Resolved m' id := by
  rcases settles_awaits hg hover.awaits with ⟨-, rfl⟩ | ⟨counting, ac, rfl⟩
  · rcases over_dispatching hover with rfl | ⟨pc, rfl⟩ | ⟨pc, rfl⟩
    · cases h
      case dispatch_dismissed hc => exact Or.inr ⟨.dispatch, by simp⟩
      case dispatch_post hi => exact absurd rfl hi
      all_goals simp at hend
    · exact absurd (List.mem_cons_self ..) (hD.inline pc id)
    · have hstays : Pipeline.settles ctl (.execTask pc (.sync id) false true) = some id →
          Resolved m' id := fun hset => h.resolved (hD.resolved _ rest rfl id hset)
      cases h
      case exec_dismissed hc => exact Or.inr ⟨.exec, by simp⟩
      case exec_ret => exact hstays rfl
      case exec_caught e => exact hstays rfl
      all_goals simp at hend
  · obtain ⟨pc, rfl⟩ := over_sync hover
    exact Or.inl (h.carried hend)

/-- The step of the worker. -/
theorem Move.decided (h : Move 0 m a ctl f m' nx) (hground : Grounded Over .run (f :: rest))
    (hD : Decided m ⟨ctl, f :: rest⟩) : Decided m' (nx.resume rest) := by
  refine ⟨fun f' rest' hframes id hid => ?_, fun pc id hmem => ?_⟩
  · cases nx with
    | goto f₁ =>
      obtain ⟨rfl, -⟩ := List.cons.inj hframes
      obtain ⟨rfl, rfl⟩ := h.waits hid
      exact h.resolved (hD.resolved _ rest rfl id rfl)
    | call f₁ c =>
      obtain ⟨rfl, -⟩ := List.cons.inj hframes
      exact absurd (h.calls.symm.trans hid) (by simp)
    | ret =>
      have hrest : rest = f' :: rest' := hframes
      subst hrest
      exact h.decides rfl hground.1 hD hid
    | thr e =>
      have hrest : rest = f' :: rest' := hframes
      subst hrest
      exact h.decides rfl hground.1 hD hid
  · rw [Next.resume_frames] at hmem
    rcases List.mem_append.mp hmem with hmem | hmem
    · exact h.inline (fun pc id he => hD.inline pc id (he ▸ List.mem_cons_self ..)) pc id hmem
    · exact hD.inline pc id (List.mem_cons_of_mem _ hmem)

theorem reach_decided (h : (machine name cap n).Reach ok s) :
    ∀ th, s.threads[0]? = some th → Decided s.mem th := by
  refine reach_invariant
    (I := fun s => ∀ th, s.threads[0]? = some th → Decided s.mem th) h ?_ ?_
  · intro th hth
    obtain rfl := initial_thread hth
    refine ⟨fun f rest hframes id hid => ?_, by simp⟩
    obtain ⟨rfl, -⟩ := List.cons.inj hframes
    exact absurd hid (by simp [settles])
  · intro s l s' hr _ hs _ hI th hth
    have hkeep : ∀ id, Resolved s.mem id → Resolved s'.mem id := fun _ hres => hs.resolved hres
    cases hs with
    | @move i a ctl f rest m nx hth' hm =>
      by_cases hi : i = 0
      · subst hi
        obtain ⟨_, _, rfl⟩ := Option.map_eq_some_iff.mp (List.getElem?_set_self' ▸ hth)
        exact hm.decided (reach_grounded hr hth') (hI _ hth')
      · rw [List.getElem?_set_ne hi] at hth
        obtain ⟨hres, hinline⟩ := hI th hth
        exact ⟨fun f' rest' hframes id hid => hkeep id (hres f' rest' hframes id hid), hinline⟩
    | expire ht =>
      obtain ⟨hres, hinline⟩ := hI th hth
      exact ⟨fun f' rest' hframes id hid => hkeep id (hres f' rest' hframes id hid), hinline⟩

/-! ## The worker blocks -/

/-- The worker waits in `PostSynchronously`, call `id`, and the lambda that would
wake it has been dismissed. -/
def Stranded (s : State) (id : Nat) : Prop :=
  (∃ ctl rest, s.threads[0]? = some ⟨ctl, .postSynchronously .waiting id :: rest⟩) ∧
    s.mem.promises (.sync id) = none ∧ ∃ site, .dismissed site (.sync id) ∈ s.mem.trace

/-- The worker is in `run()` with nothing to do, and no shutdown handler was ever
queued. -/
def AtRest (s : State) : Prop :=
  s.top? 0 = some .run ∧ s.mem.queue = [] ∧ .enqueued .stop ∉ s.mem.trace

/-- The worker has a next step. -/
def Able (s : State) : Prop :=
  ∃ ctl f rest a r, s.threads[0]? = some ⟨ctl, f :: rest⟩ ∧ frameStep 0 a ctl s.mem f = some r

/-- A dismissed lambda satisfies no promise. -/
theorem dismissed_unkept (h : (machine name cap n).Reach ok s) {id : Nat} {site : Site}
    (hmem : .dismissed site (.sync id) ∈ s.mem.trace) : s.mem.promises (.sync id) = none := by
  have hshipped := reach_shipped h id
  have horders := orders_le h id
  unfold Mem.shipped at hshipped
  have hpos : 0 < s.mem.trace.countP (Event.loses id) :=
    List.countP_pos_iff.mpr ⟨_, hmem, by simp⟩
  by_contra hp
  have hkept : s.mem.kept id = 1 := by
    rw [Mem.kept, if_pos (Option.isSome_iff_ne_none.mpr hp)]
  omega

/-- The worker has a next step just when its top frame has one. -/
theorem able_iff (hth : s.threads[0]? = some ⟨ctl, f :: rest⟩) :
    Able s ↔ ∃ a r, frameStep 0 a ctl s.mem f = some r := by
  constructor
  · rintro ⟨ctl', f', rest', a, r, hth', hstep⟩
    obtain ⟨rfl, rfl, rfl⟩ := Thread.top_inj hth hth'
    exact ⟨a, r, hstep⟩
  · rintro ⟨a, r, hstep⟩
    exact ⟨ctl, f, rest, a, r, hth, hstep⟩

/-- `run()` on the worker: it has a next step, or the worker is at rest. -/
theorem run_able (h : (machine name cap n).Reach ok s)
    (hth : s.threads[0]? = some ⟨ctl, .run :: rest⟩) : AtRest s ↔ ¬Able s := by
  have hrec := reach_top h hth
  have hnothrow : ∀ e, ctl ≠ .thr e := by
    intro e he
    rw [he] at hrec
    exact absurd hrec (by simp [Receptive, Frame.takesThrow])
  -- no exception reaches the loop, and what a handler returns is not looked at
  have hrun : run s.mem ctl = run s.mem .go := by
    cases ctl with
    | thr e => exact absurd rfl (hnothrow e)
    | go => rfl
    | ret => rfl
  have hable : Able s ↔ ∃ r, run s.mem ctl = some r := by
    rw [able_iff hth]
    constructor
    · rintro ⟨a, r, hstep⟩
      cases a with
      | code => exact ⟨r, hstep⟩
      | _ => exact absurd hstep (by simp [frameStep])
    · rintro ⟨r, hr⟩
      exact ⟨.code, r, hr⟩
  rw [hable, hrun]
  have hfifo := reach_fifo h
  cases reach_phase h _ hth with
  | working hfs hstop htaken hclosed hguard hstopped hends =>
    cases hq : s.mem.queue with
    | cons hd q =>
      constructor
      · rintro ⟨-, hnil, -⟩
        exact absurd (hq.symm.trans hnil) (by simp)
      · intro hno
        exact absurd (by simp [run, hstopped, hq]) hno
    | nil =>
      rw [hq, List.append_nil] at hfifo
      have hrest : AtRest s := by
        refine ⟨top_of_thread hth, hq, fun hmem => htaken ?_⟩
        rw [← hfifo]
        exact mem_enqueued.mpr hmem
      simpa [run, hstopped, hq, hguard] using hrest
  | stopped hlast hstopped hends =>
    have hmem : .enqueued .stop ∈ s.mem.trace := by
      obtain ⟨before, htaken, -⟩ := hlast
      refine mem_enqueued.mp ?_
      show .stop ∈ s.mem.enqueued
      rw [hfifo, htaken]
      simp
    -- told to stop, `run()` returns, and the handler was queued
    constructor
    · rintro ⟨-, -, hno⟩
      exact absurd hmem hno
    · intro hno
      exact absurd (by simp [run, hstopped]) hno

/-- A worker that has not ended is without a next step if and only if it is at rest
or stranded. -/
theorem blocked_iff (h : (machine name cap n).Reach ok s)
    (halive : s.threads[0]?.map Thread.frames ≠ some []) :
    ¬Able s ↔ AtRest s ∨ ∃ id, Stranded s id := by
  obtain ⟨⟨ctl, fs⟩, hth⟩ := reach_thread_zero h
  cases fs with
  | nil => exact absurd (by rw [hth]; rfl) halive
  | cons f rest =>
    have hdecided := reach_decided h _ hth
    by_cases hf : f = .run
    · subst hf
      rw [← run_able h hth]
      constructor
      · exact Or.inl
      · rintro (hrest | ⟨id, ⟨ctl', rest', hth'⟩, -⟩)
        · exact hrest
        · exact absurd (Thread.top_inj hth hth').2.1 (by simp)
    constructor
    · intro hno
      by_cases hwait : ∃ id, f = .postSynchronously .waiting id ∧ s.mem.promises (.sync id) = none
      · obtain ⟨id, rfl, hnone⟩ := hwait
        refine Or.inr ⟨id, ⟨ctl, rest, hth⟩, hnone, ?_⟩
        have hresolved := hdecided.resolved _ rest rfl id (by cases ctl <;> rfl)
        exact hresolved.resolve_left fun hp => hp hnone
      · exfalso
        obtain ⟨a, r, hstep⟩ := frame_enabled (reach_top h hth) hf
          fun id hid hnone => hwait ⟨id, hid, hnone⟩
        exact hno ((able_iff hth).mpr ⟨a, r, hstep⟩)
    · rintro (⟨htop, -⟩ | ⟨id, ⟨ctl', rest', hth'⟩, hnone, -⟩)
      · rw [top_of_thread hth, Option.some.injEq] at htop
        exact absurd htop hf
      · obtain ⟨rfl, rfl, rfl⟩ := Thread.top_inj hth hth'
        rw [able_iff hth]
        rintro ⟨a, r, hstep⟩
        cases a with
        | code =>
          have hwait : postSynchronously s.mem id ctl .waiting = some r := hstep
          rw [postSynchronously, hnone] at hwait
          exact absurd hwait (by simp)
        | _ => exact absurd hstep (by simp [frameStep])

/-- Nothing wakes a stranded worker. -/
theorem stranded_step (h : (machine name cap n).Reach (fun _ _ => True) s) {id : Nat}
    (hstranded : Stranded s id) (hnext : (machine name cap n).next s l = some s') :
    Stranded s' id ∧ s'.threads[0]? = s.threads[0]? := by
  obtain ⟨⟨ctl, rest, hth⟩, hnone, site, hmem⟩ := hstranded
  have hs := (stepped_of_next hnext).1
  have hmem' := hs.later.trace.subset hmem
  have hnone' := dismissed_unkept (.step h trivial hnext) hmem'
  have hsame : s'.threads[0]? = s.threads[0]? := by
    cases hs with
    | @move i a ctl' f rest' m nx hth' hm =>
      by_cases hi : i = 0
      · -- the worker's own step would have to find the promise satisfied
        subst hi
        obtain ⟨rfl, rfl, rfl⟩ := Thread.top_inj hth hth'
        cases hm
        case postSynchronously_value hp => exact absurd (hnone.symm.trans hp) (by simp)
        case postSynchronously_exn e hp => exact absurd (hnone.symm.trans hp) (by simp)
        case user_set p o hp hf | user_set_again p o hp hf =>
          exact absurd hf (by simp [Frame.userCode])
      · exact List.getElem?_set_ne hi
    | expire _ => rfl
  exact ⟨⟨⟨ctl, rest, hsame.trans hth⟩, hnone', site, hmem'⟩, hsame⟩

/-- Not in any number of steps. -/
theorem stranded_steps (h : (machine name cap n).Reach (fun _ _ => True) s) {id : Nat}
    (hstranded : Stranded s id) (hs : (machine name cap n).Steps s s') :
    Stranded s' id ∧ s'.threads[0]? = s.threads[0]? := by
  induction hs with
  | refl => exact ⟨hstranded, rfl⟩
  | @tail s₁ s₂ l hsteps hnext ih =>
    obtain ⟨hstranded₁, hsame₁⟩ := ih
    have hr₁ := h.steps (fun _ _ => trivial) hsteps
    obtain ⟨hstranded₂, hsame₂⟩ := stranded_step hr₁ hstranded₁ hnext
    exact ⟨hstranded₂, hsame₂.trans hsame₁⟩

/-- **How the worker blocks.** A worker that has not ended is without a next step
if and only if it is at rest — in `run()`, with nothing queued and no shutdown
handler ever queued — or it is stranded: in `PostSynchronously`, called by a
task of its own, for a lambda that was dismissed because of `Close`. And a
stranded worker stays stranded, whatever anybody does. -/
theorem worker_blocks (h : (machine name cap n).Reach (fun _ _ => True) s)
    (halive : s.threads[0]?.map Thread.frames ≠ some []) :
    (¬Able s ↔ AtRest s ∨ ∃ id, Stranded s id) ∧
      ∀ id, Stranded s id → ∀ s', (machine name cap n).Steps s s' → Stranded s' id :=
  ⟨blocked_iff h halive, fun _ hstranded _ hs => (stranded_steps h hstranded hs).1⟩

/-- A task closes its pipeline and then calls `PostSynchronously` on it. -/
theorem worker_blocks_itself : ∃ s, (machine "tasks" 1 1).Reach (fun _ _ => True) s ∧
    Stranded s 2 ∧ ¬Able s := by
  let worker : Nat → List Step := fun k => List.replicate k (.thread 0 .code)
  let client : Nat → List Step := fun k => List.replicate k (.thread 1 .code)
  let steps : List Step := [.thread 1 (.call .post)] ++ client 3 ++ worker 4 ++
    [.thread 0 (.call .close)] ++ worker 3 ++ [.thread 0 (.call .postSynchronously)] ++ worker 3
  have hrun : ∃ s, (machine "tasks" 1 1).guardedRun (fun _ _ => True) (initial "tasks" 1 1) steps =
      some s ∧ s.mem.promises (.sync 2) = none ∧ .dismissed .dispatch (.sync 2) ∈ s.mem.trace ∧
      s.threads[0]? = some ⟨.go, .postSynchronously .waiting 2 ::
        [.fn 0, .execTask .running (.user 0) true true, .run]⟩ :=
    ⟨_, rfl, rfl, by decide, rfl⟩
  obtain ⟨s, hs, hnone, hdismissed, hth⟩ := hrun
  have hreach := reach_schedule (by decide) hs
  have hstranded : Stranded s 2 := ⟨⟨_, _, hth⟩, hnone, .dispatch, hdismissed⟩
  have hblocks := (worker_blocks hreach (by rw [hth]; simp)).1
  exact ⟨s, hreach, hstranded, hblocks.mpr (Or.inr ⟨2, hstranded⟩)⟩

/-! ## The worker gets through -/

/-- Whether the worker's loop is still there. -/
def looping (s : State) : Nat :=
  match s.threads[0]? with
  | some th => if th.frames = [] then 0 else 1
  | none => 0

/-- What the worker has to do, user code and handlers still queued apart: its stack,
and leaving the loop. -/
def effort (s : State) : Nat := workerRank s + looping s

theorem effort_eq {th : Thread Frame Exn} (hth : s.threads[0]? = some th) :
    effort s = weigh Frame.rank th.frames + if th.frames = [] then 0 else 1 := by
  rw [effort, workerRank, looping, hth]

/-- A step of the worker comes out of its effort, closing or not. -/
theorem Move.effort (hr : (machine name cap n).Reach ok s)
    (hth : s.threads[0]? = some ⟨ctl, f :: rest⟩) (hm : Move 0 s.mem a ctl f m nx) :
    weigh Frame.rank (nx.resume rest).frames + (if (nx.resume rest).frames = [] then 0 else 1) +
        ownCode (.thread 0 a) + 14 * s.mem.taken.length ≤
      f.rank + weigh Frame.rank rest + 1 + 14 * userCode (.thread 0 a) + 14 * m.taken.length := by
  have hrec := reach_top hr hth
  have hground := reach_grounded hr hth
  have hone : (if (nx.resume rest).frames = [] then 0 else 1) ≤ 1 := by split <;> omega
  have hframes : weigh Frame.rank (nx.resume rest).frames =
      weigh Frame.rank nx.frames + weigh Frame.rank rest := by
    rw [Next.resume_frames, weigh_append]
  by_cases hf : f = .run
  · subst hf
    obtain rfl := Grounded.run_rest hground
    cases reach_phase hr _ hth with
    | working hfs hstop htaken hclosed hguard hstopped hends =>
      have hpaid := hm.rank hrec fun _ => ⟨hstopped, hguard⟩
      omega
    | stopped hlast hstopped hends =>
      -- nothing but leaving the loop
      cases hm
      case run_exn e => exact absurd hrec (by simp [Receptive, Frame.takesThrow])
      case run_take hd q hrun hq hctl => exact absurd (hrun.symm.trans hstopped) (by simp)
      case run_outOfWork hrun hq hg ht hctl => exact absurd (hrun.symm.trans hstopped) (by simp)
      case run_stopped hrun hctl =>
        simp [ownCode, userCode, Mem.taken, List.filterMap_cons]
      case user_set p o hp hu | user_set_again p o hp hu =>
        exact absurd hu (by simp [Frame.userCode])
  · have hpaid := hm.rank hrec fun he => absurd he hf
    omega

/-- One step of any thread. -/
theorem Stepped.effort (hr : (machine name cap n).Reach ok s) (hs : Stepped s l s') :
    effort s' + ownCode l + 14 * s.mem.taken.length ≤
      effort s + 14 * userCode l + 14 * s'.mem.taken.length := by
  have hmono : s.mem.taken.length ≤ s'.mem.taken.length :=
    (hs.later.trace.sublist.filterMap Event.taken?).length_le
  cases hs with
  | @move i a ctl f rest m nx hth hm =>
    cases i with
    | zero =>
      have hpaid := hm.effort hr hth
      have hset : (s.threads.set 0 (nx.resume rest))[0]? = some (nx.resume rest) :=
        List.getElem?_set_self (List.getElem?_eq_some_iff.mp hth).1
      have hbefore : Pipeline.effort s = f.rank + weigh Frame.rank rest + 1 := effort_eq hth
      have hafter := effort_eq (s := ⟨m, s.threads.set 0 (nx.resume rest)⟩) hset
      rw [hbefore, hafter]
      exact hpaid
    | succ j =>
      have hsame : Pipeline.effort ⟨m, s.threads.set (j + 1) (nx.resume rest)⟩ =
          Pipeline.effort s := by
        rw [Pipeline.effort, Pipeline.effort, workerRank, workerRank, looping, looping,
          List.getElem?_set_ne (Nat.succ_ne_zero j)]
      rw [hsame]
      have hown : ownCode (.thread (j + 1) a) = 0 := rfl
      rw [hown]
      omega
  | @expire k ec t ht =>
    have hsame : Pipeline.effort ⟨s.mem.expire k t ec, s.threads⟩ = Pipeline.effort s := rfl
    have hown : ownCode (.env (k, ec)) = 0 := rfl
    rw [hsame, hown]
    omega

/-- **The effort of a run.** Along any schedule the steps of the pipeline's own code
on the worker are paid for by the effort it starts with, the steps of user
code on it, and the handlers it takes. -/
theorem run_effort (h : (machine name cap n).Reach (fun _ _ => True) s) {as : List Step}
    (hrun : (machine name cap n).guardedRun (fun _ _ => True) s as = some s') :
    (as.map ownCode).sum + 14 * s.mem.taken.length ≤
      effort s + 14 * (as.map userCode).sum + 14 * s'.mem.taken.length := by
  obtain ⟨-, hle⟩ := Lts.guardedRun_potential
    (I := fun s => (machine name cap n).Reach (fun _ _ => True) s) (Φ := effort)
    (Γ := fun s => 14 * s.mem.taken.length) ownCode (fun l => 14 * userCode l)
    (fun s l s' hr _ hn => ⟨.step hr trivial hn, (stepped_of_next hn).1.effort hr⟩) h hrun
  rw [List.sum_map_mul_left as userCode] at hle
  omega

/-- The history goes on. -/
theorem run_later {as : List Step}
    (hrun : (machine name cap n).guardedRun (fun _ _ => True) s as = some s') :
    s.mem.trace <+: s'.mem.trace :=
  Lts.guardedRun_invariant (I := fun s₁ => s.mem.trace <+: s₁.mem.trace)
    (fun _ _ _ hI _ hn => hI.trans (stepped_of_next hn).1.later.trace) (List.prefix_refl _) hrun

/-- A list that goes on behind `x` does not end with `x` for the first time. -/
theorem strict_after {α : Type} {as bs before : List α} {x : α} (h : as ++ [x] <+: bs)
    (hlast : bs = before ++ [x]) (hnot : x ∉ before) : bs.length ≤ as.length + 1 := by
  by_contra hlong
  apply hnot
  have hbefore : before <+: bs := hlast ▸ List.prefix_append _ _
  have hlength : bs.length = before.length + 1 := by rw [hlast, List.length_append]; rfl
  have hinside : as ++ [x] <+: before := by
    refine List.prefix_of_prefix_length_le h hbefore ?_
    rw [List.length_append, List.length_singleton]
    omega
  exact hinside.subset (List.mem_append_right _ (List.mem_singleton.mpr rfl))

/-- The worker takes what stands before a shutdown handler, the handler, and no
more. -/
theorem taken_bound (h : (machine name cap n).Reach (fun _ _ => True) s) {as : List Step}
    (hrun : (machine name cap n).guardedRun (fun _ _ => True) s as = some s')
    {ahead behind : List Handler} (hq : s.mem.queue = ahead ++ .stop :: behind) :
    s'.mem.taken.length ≤ s.mem.taken.length + ahead.length + 1 := by
  have hr' : (machine name cap n).Reach (fun _ _ => True) s' := Lts.reach_of_guardedRun h hrun
  have hlater := run_later hrun
  have henqueued : s.mem.taken ++ ahead ++ [.stop] <+: s'.mem.enqueued := by
    refine List.IsPrefix.trans ⟨behind, ?_⟩ (hlater.filterMap Event.enqueued?)
    show _ = s.mem.enqueued
    rw [reach_fifo h, hq]
    simp
  have htaken : s'.mem.taken <+: s'.mem.enqueued := by
    rw [reach_fifo hr']
    exact List.prefix_append _ _
  rw [← List.length_append]
  -- as soon as the worker has taken more, the shutdown handler is the last it takes
  let known := s.mem.taken ++ ahead ++ [Handler.stop]
  have hlast : known.length = (s.mem.taken ++ ahead).length + 1 := List.length_append
  rcases Nat.le_total s'.mem.taken.length known.length with hle | hle
  · rwa [hlast] at hle
  · have hinside := List.prefix_of_prefix_length_le henqueued htaken hle
    have hstop : .stop ∈ s'.mem.taken :=
      hinside.subset (List.mem_append_right _ (List.mem_singleton.mpr rfl))
    obtain ⟨⟨ctl, fs⟩, hth⟩ := reach_thread_zero hr'
    have hlast : LastStop s'.mem := by
      cases reach_phase hr' _ hth with
      | working hfs hno hnot => exact absurd hstop hnot
      | stopping hlast => exact hlast
      | stopped hlast => exact hlast
      | ended hlast => exact hlast
    obtain ⟨before, hbefore, hnot⟩ := hlast
    exact strict_after hinside hbefore hnot

/-- **Shutting down terminates.** Once a shutdown handler is in the queue, behind
`ahead`, every schedule leaves the worker only so many steps of the pipeline's
own code: the effort of its stack, 14 for each handler up to the shutdown
handler, and 14 for each step user code makes on it. And at the end of every
schedule the worker's loop has ended, or the worker has a next step, or it is
stranded in a `PostSynchronously` of its own. -/
theorem shutdown_terminates (h : (machine name cap n).Reach (fun _ _ => True) s)
    {ahead behind : List Handler} (hq : s.mem.queue = ahead ++ .stop :: behind) {as : List Step}
    (hrun : (machine name cap n).guardedRun (fun _ _ => True) s as = some s') :
    (as.map ownCode).sum ≤
        effort s + 14 * (ahead.length + 1) + 14 * (as.map userCode).sum ∧
      (s'.threads[0]?.map Thread.frames = some [] ∨ Able s' ∨ ∃ id, Stranded s' id) := by
  have hr' : (machine name cap n).Reach (fun _ _ => True) s' := Lts.reach_of_guardedRun h hrun
  refine ⟨?_, ?_⟩
  · have hpaid := run_effort h hrun
    have hbound := taken_bound h hrun hq
    omega
  · by_cases hend : s'.threads[0]?.map Thread.frames = some []
    · exact Or.inl hend
    by_cases hable : Able s'
    · exact Or.inr (Or.inl hable)
    rcases (blocked_iff hr' hend).mp hable with ⟨-, -, hno⟩ | hstranded
    · exfalso
      have hin : .enqueued .stop ∈ s.mem.trace := by
        refine mem_enqueued.mp ?_
        show .stop ∈ s.mem.enqueued
        rw [reach_fifo h, hq]
        simp
      exact hno ((run_later hrun).subset hin)
    · exact Or.inr (Or.inr hstranded)

/-- A task and a shutdown handler are queued; the worker dismisses the one, takes the
other, and ends. -/
theorem shutdown_terminates_one : ∃ s s' : State,
    (machine "tasks" 1 1).Reach (fun _ _ => True) s ∧
    s.mem.queue = [.execTask (.user 0)] ++ .stop :: [] ∧
    s'.threads[0]?.map Thread.frames = some [] ∧
    9 ≤ effort s + 14 * ([Handler.execTask (.user 0)].length + 1) + 14 * 0 := by
  let client : Nat → List Step := fun k => List.replicate k (.thread 1 .code)
  let steps : List Step := [.thread 1 (.call .post)] ++ client 3 ++ [.thread 1 (.call .close)] ++
    client 3
  have hrun : ∃ s s' : State, (machine "tasks" 1 1).guardedRun (fun _ _ => True)
      (initial "tasks" 1 1) steps = some s ∧ s.mem.queue = [.execTask (.user 0)] ++ .stop :: [] ∧
      (machine "tasks" 1 1).guardedRun (fun _ _ => True) s (List.replicate 9 (.thread 0 .code)) =
        some s' ∧ s'.threads[0]?.map Thread.frames = some [] := ⟨_, _, rfl, rfl, rfl, rfl⟩
  obtain ⟨s, s', hs, hq, hs', hend⟩ := hrun
  have hreach := reach_schedule (by decide) hs
  exact ⟨s, s', hreach, hq, hend, (shutdown_terminates hreach hq hs').1⟩

/-! ## No handler starves -/

/-- Whatever the worker takes, it takes in the order of the queue: it has taken no more
than was ahead of `x`, or it has taken `x`. -/
theorem taken_or_few (h : (machine name cap n).Reach (fun _ _ => True) s) {as : List Step}
    (hrun : (machine name cap n).guardedRun (fun _ _ => True) s as = some s') {x : Handler}
    {ahead behind : List Handler} (hq : s.mem.queue = ahead ++ x :: behind) :
    s.mem.taken ++ ahead ++ [x] <+: s'.mem.taken ∨
      s'.mem.taken.length ≤ s.mem.taken.length + ahead.length := by
  have hr' : (machine name cap n).Reach (fun _ _ => True) s' := Lts.reach_of_guardedRun h hrun
  have henqueued : s.mem.taken ++ ahead ++ [x] <+: s'.mem.enqueued := by
    refine List.IsPrefix.trans ⟨behind, ?_⟩ ((run_later hrun).filterMap Event.enqueued?)
    show _ = s.mem.enqueued
    rw [reach_fifo h, hq]
    simp
  have htaken : s'.mem.taken <+: s'.mem.enqueued := by
    rw [reach_fifo hr']
    exact List.prefix_append _ _
  have hlength : (s.mem.taken ++ ahead ++ [x]).length =
      s.mem.taken.length + ahead.length + 1 := by
    rw [List.length_append, List.length_append, List.length_singleton]
  by_cases hfew : s'.mem.taken.length ≤ s.mem.taken.length + ahead.length
  · exact Or.inr hfew
  · refine Or.inl (List.prefix_of_prefix_length_le henqueued htaken ?_)
    omega

/-- **No handler starves.** A handler in the queue, behind `ahead`, has been taken at the
end of a schedule, after all that was ahead of it; or the worker has made only so
many steps of the pipeline's own code: the effort of its stack, 14 for each
handler ahead, and 14 for each step user code made on it. And then the worker
has a next step, unless its loop has ended or it is stranded in a
`PostSynchronously` of its own. -/
theorem no_handler_starves (h : (machine name cap n).Reach (fun _ _ => True) s) {x : Handler}
    {ahead behind : List Handler} (hq : s.mem.queue = ahead ++ x :: behind) {as : List Step}
    (hrun : (machine name cap n).guardedRun (fun _ _ => True) s as = some s') :
    s.mem.taken ++ ahead ++ [x] <+: s'.mem.taken ∨
      (as.map ownCode).sum ≤ effort s + 14 * ahead.length + 14 * (as.map userCode).sum ∧
        (s'.threads[0]?.map Thread.frames = some [] ∨ Able s' ∨ ∃ id, Stranded s' id) := by
  have hr' : (machine name cap n).Reach (fun _ _ => True) s' := Lts.reach_of_guardedRun h hrun
  rcases taken_or_few h hrun hq with htaken | hfew
  · exact Or.inl htaken
  refine Or.inr ⟨?_, ?_⟩
  · have hpaid := run_effort h hrun
    omega
  · by_cases hend : s'.threads[0]?.map Thread.frames = some []
    · exact Or.inl hend
    by_cases hable : Able s'
    · exact Or.inr (Or.inl hable)
    rcases (blocked_iff hr' hend).mp hable with ⟨-, hempty, -⟩ | hstranded
    · -- an empty queue: `x` has left it
      exfalso
      have hall : s.mem.enqueued <+: s'.mem.taken := by
        have hlater := (run_later hrun).filterMap Event.enqueued?
        have hfifo := reach_fifo hr'
        rw [hempty, List.append_nil] at hfifo
        rw [← hfifo]
        exact hlater
      have hlong := hall.length_le
      rw [reach_fifo h, hq, List.length_append, List.length_append, List.length_cons] at hlong
      omega
    · exact Or.inr (Or.inr hstranded)

/-- Two tasks are queued. After its first step the worker has the second before it and
can go on; when it has run both it is at rest, so it has taken the second. -/
theorem no_handler_starves_two : ∃ s s₁ s₂ : State,
    (machine "tasks" 2 1).Reach (fun _ _ => True) s ∧
    s.mem.queue = [.execTask (.user 0)] ++ .execTask (.user 1) :: [] ∧
    (1 ≤ effort s + 14 * [Handler.execTask (.user 0)].length + 14 * 0 ∧
      (s₁.threads[0]?.map Thread.frames = some [] ∨ Able s₁ ∨ ∃ id, Stranded s₁ id)) ∧
    s₂.mem.queue = [] ∧
    s.mem.taken ++ [.execTask (.user 0)] ++ [.execTask (.user 1)] <+: s₂.mem.taken := by
  let client : Nat → List Step := fun k => List.replicate k (.thread 1 .code)
  let worker : Nat → List Step := fun k => List.replicate k (.thread 0 .code)
  let posting : List Step := [.thread 1 (.call .post)] ++ client 3 ++ [.thread 1 (.call .post)] ++
    client 3
  let running : List Step := worker 4 ++ [.thread 0 .ret] ++ worker 5 ++ [.thread 0 .ret] ++
    worker 1
  have hrun : ∃ s s₁ s₂ : State, (machine "tasks" 2 1).guardedRun (fun _ _ => True)
      (initial "tasks" 2 1) posting = some s ∧
      s.mem.queue = [.execTask (.user 0)] ++ .execTask (.user 1) :: [] ∧
      (machine "tasks" 2 1).guardedRun (fun _ _ => True) s [.thread 0 .code] = some s₁ ∧
      s₁.mem.taken = [.execTask (.user 0)] ∧
      (machine "tasks" 2 1).guardedRun (fun _ _ => True) s running = some s₂ ∧
      s₂.threads[0]? = some ⟨.ret, [.run]⟩ ∧ s₂.mem.queue = [] ∧
      .enqueued .stop ∉ s₂.mem.trace :=
    ⟨_, _, _, rfl, rfl, rfl, rfl, rfl, rfl, rfl, by decide⟩
  obtain ⟨s, s₁, s₂, hs, hq, hs₁, htaken₁, hs₂, hth, hempty, hno⟩ := hrun
  have hreach := reach_schedule (by decide) hs
  have hreach₂ := Lts.reach_of_guardedRun hreach hs₂
  have halive : s₂.threads[0]?.map Thread.frames ≠ some [] := by rw [hth]; simp
  have hrest : AtRest s₂ := ⟨top_of_thread hth, hempty, hno⟩
  refine ⟨s, s₁, s₂, hreach, hq, ?_, hempty, ?_⟩
  · refine (no_handler_starves hreach hq hs₁).resolve_left fun hprefix => ?_
    have hlong := hprefix.length_le
    rw [htaken₁] at hlong
    simp at hlong
  · refine (no_handler_starves hreach hq hs₂).resolve_right fun ⟨_, hlast⟩ => ?_
    rcases hlast with hend | hable | ⟨id, ⟨ctl, rest, hth'⟩, -⟩
    · exact halive hend
    · exact (blocked_iff hreach₂ halive).mpr (Or.inl hrest) hable
    · exact absurd (Thread.top_inj hth hth').2.1 (by simp)

end Warlib.Pipeline
