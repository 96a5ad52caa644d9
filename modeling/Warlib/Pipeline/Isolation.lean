import Warlib.Pipeline.Shutdown

/-!
# Fault isolation

Whatever the tasks throw, the worker goes on. That no exception reaches
`io_context::run()` is a fact about stacks (`reach_top`): the frames below
`run()` in the call graph are handlers, and what they call they call with
`autoCatch` set, `WAR_CATCH_ALL_E` ends in `catch(...)`, and the carriers that
call with it unset stand on an `ExecTask_` that has it set — `set_exception`
throwing in their `catch` block included. That `run()` then returns only for
the shutdown handler is `reach_phase`.

What remains is that the worker is never stuck before it has emptied the
queue, as long as `Close` is not called:

* it never blocks: `future.get()` on the worker finds the promise satisfied,
  since `Dispatch` ran the carrier before it returned (`Kept`);
* it does not dawdle: each step of the pipeline's own code comes out of the
  `rank` of the worker's stack, which only a new handler or user code refills
  (`Stepped.rank`). So the position of a handler in the queue bounds how many
  steps of the worker's own code come before it (`queued_is_taken`).
-/

namespace Warlib.Pipeline

open Warlib.Machine

variable {name : String} {cap : BitVec 64} {n : Nat} {ok : State → Step → Prop}
  {s s' : State} {l : Step} {i : Nat} {m m' : Mem} {a : Act} {ctl : Ctl Exn} {f g : Frame}
  {rest : List Frame} {nx : Next Frame Exn}

/-! ## The worker never blocks -/

/-- The call of `PostSynchronously` whose promise must be satisfied by now,
when this is the top frame of the worker and what it is told. -/
def settles : Ctl Exn → Frame → Option Nat
  | _, .postSynchronously .waiting id => some id
  | .ret, .postSynchronously .dispatching id => some id
  | .ret, .execTask .running (.sync id) _ _ => some id
  | .thr _, .execTask .running (.sync id) _ _ => some id
  | _, _ => none

/-- The worker's stack, while `closing_` is false: promises it is going to
wait for are satisfied, and it never queued their carriers. -/
structure Kept (m : Mem) (th : Thread Frame Exn) : Prop where
  satisfied : ∀ f rest, th.frames = f :: rest → ∀ id, settles th.ctl f = some id →
    m.promises (.sync id) ≠ none
  inline : ∀ pc id, .post pc (.sync id) ∉ th.frames

/-- A carrier returns with the promise satisfied. -/
theorem Move.carried {pc : CallPc} {id : Nat} (h : Move i m a ctl (.syncCarrier pc id) m' nx)
    (hend : nx.frames = []) : m'.promises (.sync id) ≠ none := by
  cases h
  case user_set p o hp hf | user_set_again p o hp hf => exact absurd hf (by simp [Frame.userCode])
  case sync_start => exact absurd hend (by simp)
  case sync_value hp => simp
  case sync_value_again hp => exact hp
  case sync_exn e hp => simp
  case sync_exn_again e hp => exact hp

/-- On the worker, `Dispatch` does not queue. -/
theorem Move.inline (h : Move 0 m a ctl f m' nx) (hf : ∀ pc id, f ≠ .post pc (.sync id)) :
    ∀ pc id, .post pc (.sync id) ∉ nx.frames := by
  intro pc id
  cases h
  case client_enter c | fn_enter c | completion_enter c => cases c <;> simp [Call.frame]
  case exec_call t c ac => cases t <;> simp [Task.body]
  case run_take h q hs hq hctl => cases h <;> simp [Handler.frame]
  case dispatch_post hi => exact absurd rfl hi
  case post_open t hc => simpa using fun _ ht => hf .closing id (by rw [ht])
  case post_full t hc => simpa using fun _ ht => hf .adding id (by rw [ht])
  case post_room t hc => simpa using fun _ ht => hf .adding id (by rw [ht])
  case user_set p o hp hu | user_set_again p o hp hu => simpa using fun he => hf pc id he.symm
  all_goals simp

/-- `PostSynchronously` goes on to wait when its `Dispatch` has returned. -/
theorem Move.waits {f' : Frame} {id : Nat} (h : Move i m a ctl f m' (.goto f'))
    (hf' : settles .go f' = some id) : ctl = .ret ∧ f = .postSynchronously .dispatching id := by
  cases h
  case postSynchronously_ret id' =>
    obtain rfl : id' = id := by simpa [settles] using hf'
    exact ⟨rfl, rfl⟩
  case user_set p o hp hf | user_set_again p o hp hf =>
    cases f <;> simp_all [settles, Frame.userCode]
  all_goals simp [settles] at hf'

/-- A callee has settled nothing yet. -/
theorem Move.calls {f' c : Frame} (h : Move i m a ctl f m' (.call f' c)) :
    settles .go c = none := by
  cases h
  case client_enter c | fn_enter c | completion_enter c => cases c <;> rfl
  case exec_call t _ _ => cases t <;> rfl
  case run_take h q hs hq hctl => cases h <;> rfl
  all_goals rfl

/-- The frames a callee can return to that have something to settle. -/
theorem settles_awaits {c : Ctl Exn} {id : Nat} (hg : settles c g = some id)
    (hawaits : g.awaits = true) :
    (c = .ret ∧ g = .postSynchronously .dispatching id) ∨
      ∃ counting ac, g = .execTask .running (.sync id) counting ac := by
  unfold settles at hg
  split at hg
  next => exact absurd hawaits (by simp [Frame.awaits, Frame.waits, Frame.userCode])
  next => exact Or.inl ⟨rfl, by rw [Option.some.inj hg]⟩
  next => exact Or.inr ⟨_, _, by rw [Option.some.inj hg]⟩
  next => exact Or.inr ⟨_, _, by rw [Option.some.inj hg]⟩
  next => exact absurd hg (by simp)

/-- What the frame below is told, its promise is satisfied by then. -/
theorem Move.returns (h : Move 0 m a ctl f m' nx) (hend : nx.frames = []) (hover : Over f g)
    (hopen : m.closing = false) (hK : Kept m ⟨ctl, f :: rest⟩) {id : Nat}
    (hg : settles (nx.resume (g :: rest)).ctl g = some id) : m'.promises (.sync id) ≠ none := by
  rcases settles_awaits hg hover.awaits with ⟨hret, rfl⟩ | ⟨counting, ac, rfl⟩
  · -- the `Dispatch` of `PostSynchronously` has returned: it ran the carrier
    have hsat : ∀ id', settles ctl f = some id' → m.promises (.sync id') ≠ none :=
      fun id' h' => hK.satisfied f rest rfl id' h'
    rcases over_dispatching hover with rfl | ⟨pc, rfl⟩ | ⟨pc, rfl⟩
    · cases h
      case dispatch_dismissed hc => exact absurd (hopen.symm.trans hc) (by simp)
      case dispatch_post hi => exact absurd rfl hi
      all_goals simp at hend
    · exact absurd (List.mem_cons_self ..) (hK.inline pc id)
    · have hstays : ∀ id', m.promises (.sync id') ≠ none → m'.promises (.sync id') ≠ none :=
        fun _ hp => h.promises hp
      cases h
      case exec_dismissed hc => exact absurd (hopen.symm.trans hc) (by simp)
      case exec_ret => exact hstays id (hsat id rfl)
      case exec_caught e => exact hstays id (hsat id rfl)
      all_goals simp at hend
  · obtain ⟨pc, rfl⟩ := over_sync hover
    exact h.carried hend

/-- The step of the worker. -/
theorem Move.kept (h : Move 0 m a ctl f m' nx) (hground : Grounded Over .run (f :: rest))
    (hopen : m.closing = false) (hK : Kept m ⟨ctl, f :: rest⟩) : Kept m' (nx.resume rest) := by
  refine ⟨fun f' rest' hframes id hid => ?_, fun pc id hmem => ?_⟩
  · cases nx with
    | goto f₁ =>
      obtain ⟨rfl, -⟩ := List.cons.inj hframes
      obtain ⟨rfl, rfl⟩ := h.waits hid
      exact h.promises (hK.satisfied _ rest rfl id rfl)
    | call f₁ c =>
      obtain ⟨rfl, -⟩ := List.cons.inj hframes
      exact absurd (h.calls.symm.trans hid) (by simp)
    | ret =>
      have hrest : rest = f' :: rest' := hframes
      subst hrest
      exact h.returns rfl hground.1 hopen hK hid
    | thr e =>
      have hrest : rest = f' :: rest' := hframes
      subst hrest
      exact h.returns rfl hground.1 hopen hK hid
  · rw [Next.resume_frames] at hmem
    rcases List.mem_append.mp hmem with hmem | hmem
    · exact h.inline (fun pc id he => hK.inline pc id (he ▸ List.mem_cons_self ..)) pc id hmem
    · exact hK.inline pc id (List.mem_cons_of_mem _ hmem)

theorem reach_kept (h : (machine name cap n).Reach ok s) (hno : Unclosed s.mem) :
    ∀ th, s.threads[0]? = some th → Kept s.mem th := by
  refine reach_invariant
    (I := fun s => Unclosed s.mem → ∀ th, s.threads[0]? = some th → Kept s.mem th) h ?_ ?_ hno
  · intro _ th hth
    obtain rfl := initial_thread hth
    refine ⟨fun f rest hframes id hid => ?_, by simp⟩
    obtain ⟨rfl, -⟩ := List.cons.inj hframes
    exact absurd hid (by simp [settles])
  · intro s l s' hr _ hs _ hI hno' th hth
    have hno : Unclosed s.mem := hs.later.unclosed hno'
    cases hs with
    | @move i a ctl f rest m nx hth' hm =>
      by_cases hi : i = 0
      · subst hi
        obtain ⟨_, _, rfl⟩ := Option.map_eq_some_iff.mp (List.getElem?_set_self' ▸ hth)
        exact hm.kept (reach_grounded hr hth') (reach_untouched hr hno).closing (hI hno _ hth')
      · rw [List.getElem?_set_ne hi] at hth
        obtain ⟨hsat, hinline⟩ := hI hno th hth
        exact ⟨fun f' rest' hframes id hid => hm.promises (hsat f' rest' hframes id hid), hinline⟩
    | expire ht => exact ⟨(hI hno th hth).satisfied, (hI hno th hth).inline⟩

/-! ## The worker can always go on -/

/-- A frame above `run()` has a next step, unless it waits for a promise. -/
theorem frame_enabled (hrec : Receptive ctl f) (hf : f ≠ .run)
    (hsat : ∀ id, f = .postSynchronously .waiting id → m.promises (.sync id) ≠ none) :
    ∃ a r, frameStep i a ctl m f = some r := by
  have hback : f.waits = true → ctl = .ret ∨ ∃ e, ctl = .thr e := by
    intro hw
    cases ctl with
    | go => exact absurd (hw.symm.trans hrec) (by simp)
    | ret => exact Or.inl rfl
    | thr e => exact Or.inr ⟨e, rfl⟩
  cases f with
  | run => exact absurd rfl hf
  | client => exact ⟨.setPromise 0 .value, _, rfl⟩
  | fn id => exact ⟨.ret, _, rfl⟩
  | completion tok => exact ⟨.ret, _, rfl⟩
  | post pc t => exact ⟨.code, _, rfl⟩
  | postToken t tok => exact ⟨.code, _, rfl⟩
  | postWithPromise pc id p =>
    cases pc with
    | start => exact ⟨.code, _, rfl⟩
    | after => rcases hback rfl with rfl | ⟨e, rfl⟩ <;> exact ⟨.code, _, rfl⟩
  | postSynchronously pc id =>
    cases pc with
    | start => exact ⟨.code, _, rfl⟩
    | dispatching => rcases hback rfl with rfl | ⟨e, rfl⟩ <;> exact ⟨.code, _, rfl⟩
    | waiting =>
      have hp := hsat id rfl
      refine ⟨.code, ?_⟩
      show ∃ r, postSynchronously m id ctl .waiting = some r
      rw [postSynchronously]
      split
      next hnone => exact absurd hnone hp
      next => exact ⟨_, rfl⟩
      next => exact ⟨_, rfl⟩
  | dispatch t => exact ⟨.code, _, rfl⟩
  | postWithTimer pc t => exact ⟨.code, _, rfl⟩
  | postWithTimerToken t tok => exact ⟨.code, _, rfl⟩
  | close pc => exact ⟨.code, _, rfl⟩
  | execTask pc t c ac =>
    refine ⟨.code, ?_⟩
    show ∃ r, execTask m t c ac ctl pc = some r
    cases pc with
    | entry => exact ⟨_, rfl⟩
    | closing =>
      rw [execTask]
      split <;> exact ⟨_, rfl⟩
    | call => exact ⟨_, rfl⟩
    | running =>
      rcases hback rfl with rfl | ⟨e, rfl⟩
      · exact ⟨_, rfl⟩
      · rw [execTask]
        split <;> exact ⟨_, rfl⟩
  | syncCarrier pc id =>
    refine ⟨.code, ?_⟩
    show ∃ r, syncCarrier m id ctl pc = some r
    cases pc with
    | start => exact ⟨_, rfl⟩
    | after =>
      rcases hback rfl with rfl | ⟨e, rfl⟩ <;> rw [syncCarrier] <;> split <;> exact ⟨_, rfl⟩
  | promiseCarrier pc id p =>
    refine ⟨.code, ?_⟩
    show ∃ r, promiseCarrier m id p ctl pc = some r
    cases pc with
    | start => exact ⟨_, rfl⟩
    | after =>
      rcases hback rfl with rfl | ⟨e, rfl⟩
      · exact ⟨_, rfl⟩
      · rw [promiseCarrier]
        split <;> exact ⟨_, rfl⟩
  | tokenHandler pc t tok =>
    cases pc with
    | start => exact ⟨.code, _, rfl⟩
    | after => rcases hback rfl with rfl | ⟨e, rfl⟩ <;> exact ⟨.code, _, rfl⟩
  | onTimer t ec => exact ⟨.code, _, rfl⟩
  | tokenTimer pc t tok ec =>
    cases pc with
    | start => exact ⟨.code, _, rfl⟩
    | after => rcases hback rfl with rfl | ⟨e, rfl⟩ <;> exact ⟨.code, _, rfl⟩
  | stopHandler pc => exact ⟨.code, _, rfl⟩

/-- Until `Close` is called, the worker works. -/
structure Working (s : State) : Prop where
  there : ∃ ctl f rest, s.threads[0]? = some ⟨ctl, f :: rest⟩
  guarded : s.mem.workGuard = true
  running : s.mem.stopped = false

theorem reach_working (h : (machine name cap n).Reach ok s) (hno : Unclosed s.mem) :
    Working s := by
  obtain ⟨th, hth⟩ := reach_thread_zero h
  have hstop : .stop ∉ s.mem.taken := by
    intro hmem
    have hin : .stop ∈ s.mem.enqueued := by
      rw [reach_fifo h]
      exact List.mem_append_left _ hmem
    exact (reach_untouched h hno).stop (mem_enqueued.mp hin)
  have hlast : ¬LastStop s.mem := fun ⟨before, ht, _⟩ => hstop (ht ▸ by simp)
  have hphase := reach_phase h th hth
  obtain ⟨ctl, fs⟩ := th
  cases hphase with
  | working hfs _ _ _ hguard hrun _ =>
    cases fs with
    | nil => exact absurd rfl hfs
    | cons f rest => exact ⟨⟨ctl, f, rest, hth⟩, hguard, hrun⟩
  | stopping hl => exact absurd hl hlast
  | stopped hl => exact absurd hl hlast
  | ended hl => exact absurd hl hlast

/-- The worker is at rest in `run()` with nothing queued, or it has a next
step. -/
def CanStep (s : State) : Prop :=
  ∃ ctl f rest, s.threads[0]? = some ⟨ctl, f :: rest⟩ ∧
    ((f = .run ∧ s.mem.queue = []) ∨ ∃ a r, frameStep 0 a ctl s.mem f = some r)

theorem reach_canStep (h : (machine name cap n).Reach ok s) (hno : Unclosed s.mem) :
    CanStep s := by
  obtain ⟨⟨ctl, f, rest, hth⟩, -, hrun⟩ := reach_working h hno
  have hrec := reach_top h hth
  refine ⟨ctl, f, rest, hth, ?_⟩
  by_cases hf : f = .run
  · subst hf
    by_cases hq : s.mem.queue = []
    · exact Or.inl ⟨rfl, hq⟩
    · obtain ⟨hd, q, hq⟩ := List.exists_cons_of_ne_nil hq
      refine Or.inr ⟨.code, ?_⟩
      show ∃ r, run s.mem ctl = some r
      cases ctl with
      | thr e => exact absurd hrec (by simp [Receptive, Frame.takesThrow])
      | go => exact ⟨_, by simp only [run, hrun, hq]; rfl⟩
      | ret => exact ⟨_, by simp only [run, hrun, hq]; rfl⟩
  · refine Or.inr (frame_enabled hrec hf fun id hwait => ?_)
    have hkept := reach_kept h hno _ hth
    exact hkept.satisfied f rest rfl id (by rw [hwait]; cases ctl <;> rfl)

/-! ## The worker gets on -/

/-- How many steps of the pipeline's own code the function of a task takes. -/
def Task.rank : Task → Nat
  | .user _ => 0
  | .sync _ => 6
  | .promise _ _ => 6

@[simp] theorem rank_user (id : Nat) : (Task.user id).rank = 0 := rfl

/-- How many steps of the pipeline's own code are left until the frame and
what it calls are done, user code apart. -/
@[simp] def Frame.rank : Frame → Nat
  | .run => 0
  | .client => 0
  | .fn _ => 0
  | .completion _ => 0
  | .post .closing _ => 3
  | .post .adding _ => 2
  | .post .undo _ => 1
  | .post .enqueue _ => 1
  | .postToken _ _ => 1
  | .postWithPromise .start _ _ => 5
  | .postWithPromise .after _ _ => 1
  | .postSynchronously .start _ => 14
  | .postSynchronously .dispatching _ => 2
  | .postSynchronously .waiting _ => 1
  | .dispatch _ => 11
  | .postWithTimer .closing _ => 2
  | .postWithTimer .start _ => 1
  | .postWithTimerToken _ _ => 1
  | .close .test => 3
  | .close .enqueue => 2
  | .close .set => 1
  | .execTask .entry t _ _ => t.rank + 4
  | .execTask .closing t _ _ => t.rank + 3
  | .execTask .call t _ _ => t.rank + 2
  | .execTask .running _ _ _ => 1
  | .syncCarrier .start _ => 6
  | .syncCarrier .after _ => 1
  | .promiseCarrier .start _ _ => 6
  | .promiseCarrier .after _ _ => 1
  | .tokenHandler .start _ _ => 12
  | .tokenHandler .after _ _ => 1
  | .onTimer _ _ => 11
  | .tokenTimer .start _ _ _ => 13
  | .tokenTimer .after _ _ _ => 1
  | .stopHandler .test => 4
  | .stopHandler .closed => 3
  | .stopHandler .guard => 2
  | .stopHandler .stop => 1

/-- A step of the pipeline's own code on the worker. -/
def ownCode : Step → Nat
  | .thread 0 .code => 1
  | _ => 0

/-- A step of user code on the worker. -/
def userCode : Step → Nat
  | .thread 0 .code => 0
  | .thread 0 _ => 1
  | _ => 0

theorem task_rank_le (t : Task) : t.rank ≤ 6 := by
  cases t <;> simp [Task.rank]

/-- Every step of the pipeline's own code comes out of the rank; a call from
user code, and a new handler, put at most 14 into it. -/
theorem Move.rank (h : Move 0 m a ctl f m' nx) (hrec : Receptive ctl f)
    (hrun : f = .run → m.stopped = false ∧ m.workGuard = true) :
    weigh Frame.rank nx.frames + ownCode (.thread 0 a) + 14 * m.taken.length ≤
      f.rank + 14 * userCode (.thread 0 a) + 14 * m'.taken.length := by
  rcases h.taken with hsame | ⟨hd, q, rfl, -, -, rfl, rfl⟩
  · rw [hsame]
    cases h
    case client_enter c | fn_enter c | completion_enter c =>
      cases c <;> simp [ownCode, userCode, Call.frame]
    case exec_call t c ac => cases t <;> simp [ownCode, userCode, Task.rank, Task.body]
    case run_take hd q hs hq hctl => exact absurd hsame (by simp [Mem.taken])
    case run_exn e => exact absurd hrec (by simp [Receptive, Frame.takesThrow])
    case run_stopped hs hctl => exact absurd ((hrun rfl).1.symm.trans hs) (by simp)
    case run_outOfWork hs hq hg ht hctl => exact absurd ((hrun rfl).2.symm.trans hg) (by simp)
    case dispatch_inline t hc hi =>
      have hle := task_rank_le t
      simp [ownCode, userCode]
      omega
    case token_start t tok =>
      have hle := task_rank_le t
      simp [ownCode, userCode]
      omega
    case timer_expired t =>
      have hle := task_rank_le t
      simp [ownCode, userCode]
      omega
    all_goals simp [ownCode, userCode]
  · -- the loop takes a handler: that pays for what it brings
    have hown : ownCode (.thread 0 a) + userCode (.thread 0 a) = 1 := by
      cases a <;> rfl
    cases hd with
    | execTask t =>
      have hle := task_rank_le t
      simp [Handler.frame, Mem.taken]
      omega
    | _ =>
      simp [Handler.frame, Mem.taken]
      omega

/-- The rank of the worker's stack. -/
def workerRank (s : State) : Nat :=
  match s.threads[0]? with
  | some th => weigh Frame.rank th.frames
  | none => 0

/-- One step of any thread, before `Close` is called. -/
theorem Stepped.rank (hr : (machine name cap n).Reach ok s) (hno : Unclosed s.mem)
    (hs : Stepped s l s') :
    workerRank s' + ownCode l + 14 * s.mem.taken.length ≤
      workerRank s + 14 * userCode l + 14 * s'.mem.taken.length := by
  have hmono : s.mem.taken.length ≤ s'.mem.taken.length :=
    (hs.later.trace.sublist.filterMap Event.taken?).length_le
  cases hs with
  | @move i a ctl f rest m nx hth hm =>
    cases i with
    | zero =>
      have hworking := reach_working hr hno
      have hpaid := hm.rank (reach_top hr hth) fun _ => ⟨hworking.running, hworking.guarded⟩
      have hbefore : workerRank s = f.rank + weigh Frame.rank rest := by
        rw [workerRank, hth]
        exact weigh_cons Frame.rank f rest
      have hafter : workerRank ⟨m, s.threads.set 0 (nx.resume rest)⟩ =
          weigh Frame.rank nx.frames + weigh Frame.rank rest := by
        rw [workerRank, List.getElem?_set_self', hth]
        show weigh Frame.rank (nx.resume rest).frames = _
        rw [Next.resume_frames, weigh_append]
      rw [hbefore, hafter]
      dsimp only
      omega
    | succ j =>
      have hsame : workerRank ⟨m, s.threads.set (j + 1) (nx.resume rest)⟩ = workerRank s := by
        rw [workerRank, workerRank, List.getElem?_set_ne (Nat.succ_ne_zero j)]
      rw [hsame]
      have hown : ownCode (.thread (j + 1) a) = 0 := rfl
      rw [hown]
      omega
  | @expire k ec t ht =>
    have hsame : workerRank ⟨s.mem.expire k t ec, s.threads⟩ = workerRank s := rfl
    have hown : ownCode (.env (k, ec)) = 0 := rfl
    rw [hsame, hown]
    omega

/-- **Progress.** Along any schedule without `Close`, the steps of the
pipeline's own code on the worker are bounded by the rank of its stack, the
steps of user code on it, and the handlers it takes. -/
theorem worker_progress (h : (machine name cap n).Reach ok s) (hno : Unclosed s.mem)
    {as : List Step} (hrun : (machine name cap n).guardedRun NoClose s as = some s') :
    (machine name cap n).Reach (fun _ _ => True) s' ∧
      (as.map ownCode).sum + 14 * s.mem.taken.length ≤
        workerRank s + 14 * (as.map userCode).sum + 14 * s'.mem.taken.length := by
  have hfree : (machine name cap n).Reach (fun _ _ => True) s := h.mono fun _ _ _ => trivial
  have hcredit : ∀ as : List Step,
      (as.map fun l => 14 * userCode l).sum = 14 * (as.map userCode).sum := by
    intro as
    induction as with
    | nil => rfl
    | cons l as ih =>
      rw [List.map_cons, List.map_cons, List.sum_cons, List.sum_cons, ih, Nat.mul_add]
  obtain ⟨⟨hfree', -⟩, hle⟩ := Lts.guardedRun_potential
    (I := fun s => (machine name cap n).Reach (fun _ _ => True) s ∧ Unclosed s.mem)
    (Φ := workerRank) (Γ := fun s => 14 * s.mem.taken.length) ownCode (fun l => 14 * userCode l)
    (fun s l s' hI hok hn => by
      obtain ⟨hr, hno⟩ := hI
      have hs := (stepped_of_next hn).1
      exact ⟨⟨.step hr trivial hn, hs.unclosed hok hno⟩, hs.rank hr hno⟩) ⟨hfree, hno⟩ hrun
  refine ⟨hfree', ?_⟩
  rw [hcredit] at hle
  omega

/-- A handler in the run queue is taken after those before it, once the worker
has made enough steps of its own. -/
theorem queued_is_taken (h : (machine name cap n).Reach ok s) (hno : Unclosed s.mem)
    {as : List Step} (hrun : (machine name cap n).guardedRun NoClose s as = some s')
    {ahead behind : List Handler} {hd : Handler} (hq : s.mem.queue = ahead ++ hd :: behind)
    (hsteps : workerRank s + 14 * ((as.map userCode).sum + ahead.length) < (as.map ownCode).sum) :
    s.mem.taken ++ ahead ++ [hd] <+: s'.mem.taken := by
  obtain ⟨hfree', hle⟩ := worker_progress h hno hrun
  have hlater : s.mem.trace <+: s'.mem.trace :=
    Lts.guardedRun_invariant (I := fun s₁ => s.mem.trace <+: s₁.mem.trace)
      (fun s₁ l s₂ hI _ hn => hI.trans (stepped_of_next hn).1.later.trace) (List.prefix_refl _) hrun
  have henq : s.mem.taken ++ ahead ++ [hd] <+: s'.mem.enqueued := by
    refine List.IsPrefix.trans ?_ (hlater.filterMap Event.enqueued?)
    refine ⟨behind, ?_⟩
    show _ = s.mem.enqueued
    rw [reach_fifo h, hq]
    simp
  have hfifo : s'.mem.taken <+: s'.mem.enqueued := by
    rw [reach_fifo hfree']
    exact List.prefix_append _ _
  refine List.prefix_of_prefix_length_le henq hfifo ?_
  simp only [List.length_append, List.length_cons, List.length_nil]
  omega

/-! ## Fault isolation -/

/-- **Fault isolation.** In every run, whatever user code throws: no exception
reaches `io_context::run()`, and the loop ends for no other reason than the
shutdown handler, taken from the queue. As long as `Close` is not called,
no task is dismissed, handlers are taken in queue order, the worker is never
stuck, and a handler in the queue is taken, after those ahead of it, as soon
as the worker has made so many steps of its own as the rank of its stack,
14 for each step of user code on it, and 14 for each handler ahead. -/
theorem fault_isolation (h : (machine name cap n).Reach ok s) :
    (∀ ctl rest, s.threads[0]? = some ⟨ctl, .run :: rest⟩ → ∀ e, ctl ≠ .thr e) ∧
      (∀ why, .ended why ∈ s.mem.trace → why = .stopped ∧ .taken .stop ∈ s.mem.trace) ∧
      (Unclosed s.mem →
        (∀ site t, .dismissed site t ∉ s.mem.trace) ∧
        s.mem.enqueued = s.mem.taken ++ s.mem.queue ∧ CanStep s ∧
        ∀ as s' ahead hd behind,
          (machine name cap n).guardedRun NoClose s as = some s' →
          s.mem.queue = ahead ++ hd :: behind →
          workerRank s + 14 * ((as.map userCode).sum + ahead.length) < (as.map ownCode).sum →
          s.mem.taken ++ ahead ++ [hd] <+: s'.mem.taken) := by
  refine ⟨fun ctl rest hth e he => ?_, fun why hwhy => ?_, fun hno => ?_⟩
  · have hrec := reach_top h hth
    rw [he] at hrec
    exact absurd hrec (by simp [Receptive, Frame.takesThrow])
  · obtain ⟨th, hth⟩ := reach_thread_zero h
    have hends : why ∈ s.mem.ends := List.mem_filterMap.mpr ⟨_, hwhy, rfl⟩
    have hphase := reach_phase h th hth
    obtain ⟨ctl, fs⟩ := th
    cases hphase with
    | working _ _ _ _ _ _ hnone => exact absurd (hnone ▸ hends) (by simp)
    | stopping _ _ _ _ hnone => exact absurd (hnone ▸ hends) (by simp)
    | stopped _ _ hnone => exact absurd (hnone ▸ hends) (by simp)
    | ended hlast hone =>
      obtain ⟨before, ht, -⟩ := hlast
      refine ⟨by simpa [hone] using hends, ?_⟩
      have hin : .stop ∈ s.mem.taken := by rw [ht]; simp
      obtain ⟨e, he, heq⟩ := List.mem_filterMap.mp hin
      have hstop : e = .taken .stop := by cases e <;> simp_all
      exact hstop ▸ he
  · exact ⟨reach_undismissed h hno, reach_fifo h, reach_canStep h hno,
      fun as s' ahead hd behind hrun hq hsteps => queued_is_taken h hno hrun hq hsteps⟩

/-- A task of `PostWithPromise` satisfies its promise and then throws, so that
`set_exception` throws in the `catch` block; the next task runs all the same. -/
theorem fault_isolation_promise : ∃ s, (machine "tasks" 2 1).Reach NoClose s ∧
    .finished (.promise 0 0) true (.exn .futureError) ∈ s.mem.trace ∧
    .began (.user 1) true ∈ s.mem.trace ∧ (∀ site t, .dismissed site t ∉ s.mem.trace) ∧
    CanStep s := by
  let worker : Nat → List Step := fun k => List.replicate k (.thread 0 .code)
  let steps : List Step := [.thread 1 (.call (.postWithPromise 0)), .thread 1 .code,
    .thread 1 .code, .thread 1 .code, .thread 1 .code, .thread 1 .code, .thread 1 (.call .post),
    .thread 1 .code, .thread 1 .code, .thread 1 .code] ++ worker 8 ++
    [.thread 0 (.setPromise 0 .value), .thread 0 (.throw (.user .other 7))] ++ worker 7
  have hrun : ∃ s, (machine "tasks" 2 1).guardedRun NoClose (initial "tasks" 2 1) steps = some s ∧
      .finished (.promise 0 0) true (.exn .futureError) ∈ s.mem.trace ∧
      .began (.user 1) true ∈ s.mem.trace := ⟨_, rfl, by decide, by decide⟩
  obtain ⟨s, hs, hfutureError, hnext⟩ := hrun
  have hreach := reach_schedule (by decide) hs
  obtain ⟨hkept, -, hcan, -⟩ := (fault_isolation hreach).2.2 (reach_unclosed hreach)
  exact ⟨s, hreach, hfutureError, hnext, hkept, hcan⟩

end Warlib.Pipeline
