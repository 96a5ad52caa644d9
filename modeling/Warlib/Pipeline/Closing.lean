import Warlib.Machine.History
import Warlib.Pipeline.Stack

/-!
# What still begins after `Close`

`ExecTask_` reads `closing_` and calls the task in two steps, and `Close` can
set the flag in between. A frame past the test is `committed`. There is at
most one at any time: it is the top frame of the worker (`committed_le`), and
nobody becomes committed once the flag is set. So after a `Close` has
returned at most one function begins; and none when that `Close` was called
on the worker, whose top frame was then inside `Close`.

`Since` is the invariant, for each moment a `Close` returned: what has begun
since, plus who is still committed, is at most one.
-/

namespace Warlib.Pipeline

open Warlib.Machine

variable {name : String} {cap : BitVec 64} {n : Nat} {ok : State → Step → Prop}
  {s s' : State} {l : Step} {i : Nat} {m m' : Mem} {a : Act} {ctl : Ctl Exn} {f : Frame}
  {rest : List Frame} {nx : Next Frame Exn}

/-- `ExecTask_` has read `closing_` as false and not yet called the task. -/
@[simp] def committed : Frame → Nat
  | .execTask .call _ _ _ => 1
  | _ => 0

@[simp] def Event.isBegan : Event → Bool
  | .began _ _ => true
  | _ => false

/-- The events this module counts. -/
@[simp] def Event.ofClosing : Event → Bool
  | .began _ _ => true
  | .admitted _ _ => true
  | .closeReturned _ => true
  | _ => false

/-! ## One step -/

/-- A step with respect to closing: a function begins, a task is admitted, a
`Close` returns, or none of these. -/
inductive ClosingStep (i : Nat) (m : Mem) (f : Frame) (m' : Mem) (nx : Next Frame Exn) : Prop
  | begins (t : Task) (c ac : Bool) (hf : f = .execTask .call t c ac)
      (htrace : m'.trace = m.trace ++ [.began t c]) (hnx : weigh committed nx.frames = 0)
  | admits (t : Task) (c ac : Bool) (hclosing : m.closing = false)
      (htrace : m'.trace = m.trace ++ [.admitted t c])
      (hnx : nx = .goto (.execTask .call t c ac)) (hf : committed f = 0)
  | returns (pc : ClosePc) (hf : f = .close pc) (hclosing : m'.closing = true)
      (htrace : m'.trace = m.trace ++ [.closeReturned (isPipelineThread i)]) (hnx : nx = .ret)
  | other (es : List Event) (htrace : m'.trace = m.trace ++ es)
      (hes : ∀ e ∈ es, e.ofClosing = false) (hf : committed f = 0)
      (hnx : ∀ g ∈ nx.frames, committed g = 0)

theorem Move.closing (h : Move i m a ctl f m' nx) : ClosingStep i m f m' nx := by
  cases h
  case exec_call t c ac =>
    refine .begins t c ac rfl rfl ?_
    cases t <;> simp [Task.body]
  case exec_admitted t c ac hc => exact .admits t c ac hc rfl rfl rfl
  case close_again hc => exact .returns _ rfl hc rfl rfl
  case close_set => exact .returns _ rfl rfl rfl rfl
  case client_enter c | fn_enter c | completion_enter c =>
    refine .other _ rfl (by simp) rfl ?_
    cases c <;> exact Next.forall_call rfl rfl
  case run_take h q hs hq hctl =>
    refine .other _ rfl (by simp) rfl ?_
    cases h <;> exact Next.forall_call rfl rfl
  case user_set p o hp hf | user_set_again p o hp hf =>
    have hnone : committed f = 0 :=
      Frame.of_userCode (P := fun g => committed g = 0) hf rfl (fun _ => rfl) fun _ => rfl
    exact .other [] (List.append_nil _).symm (by simp) hnone (Next.forall_goto hnone)
  all_goals first
    | refine .other [] (List.append_nil _).symm (by simp) rfl ?_
    | refine .other _ rfl (by simp) rfl ?_
  all_goals first
    | exact fun g hg => absurd hg List.not_mem_nil
    | exact Next.forall_goto rfl
    | exact Next.forall_call rfl rfl

/-! ## Who is committed -/

/-- Only the top frame of the worker can be committed. -/
theorem tally_committed (h : (machine name cap n).Reach ok s)
    (hth : s.threads[0]? = some ⟨ctl, f :: rest⟩) : tally committed s.threads = committed f := by
  refine tally_alone hth (fun g hg => ?_) (fun j th hj hjth g hg => ?_)
  · have hawaits := reach_below h hth hg
    cases g with
    | execTask pc t c ac =>
      cases pc <;> first | rfl | simp [Frame.awaits, Frame.waits, Frame.userCode] at hawaits
    | _ => rfl
  · have hclient := reach_onClient h j th hjth hj g hg
    cases g <;> simp_all [Frame.onClient]

/-- At most one frame is committed. -/
theorem committed_le (h : (machine name cap n).Reach ok s) : tally committed s.threads ≤ 1 := by
  have hone : ∀ g : Frame, committed g ≤ 1 := by
    intro g
    cases g with
    | execTask pc t c ac => cases pc <;> simp
    | _ => simp
  by_cases hworker : ∃ ctl f rest, s.threads[0]? = some ⟨ctl, f :: rest⟩
  · obtain ⟨ctl, f, rest, hth⟩ := hworker
    rw [tally_committed h hth]
    exact hone f
  · have hzero : tally committed s.threads = 0 := by
      refine tally_eq_zero fun th hmem g hg => ?_
      obtain ⟨j, hj⟩ := List.getElem?_of_mem hmem
      have hj0 : j ≠ 0 := by
        rintro rfl
        obtain ⟨ctl, fs⟩ := th
        cases fs with
        | nil => exact absurd hg (by simp)
        | cons f rest => exact hworker ⟨ctl, f, rest, hj⟩
      have hclient := reach_onClient h j th hj hj0 g hg
      cases g <;> simp_all [Frame.onClient]
    omega

/-! ## The invariant -/

/-- How many functions may still begin after a `Close` that returned on the
worker (`onWorker`), or on another thread. -/
def stragglers (onWorker : Bool) : Nat := if onWorker then 0 else 1

/-- At each moment a `Close` returned: the flag is set, nobody was admitted
since, and what began since and who is still committed are at most the
stragglers. -/
def Since (s : State) : Prop :=
  ∀ pre post w, s.mem.trace = pre ++ .closeReturned w :: post →
    s.mem.closing = true ∧ (∀ t c, .admitted t c ∉ post) ∧
      post.countP Event.isBegan + tally committed s.threads ≤ stragglers w

theorem Stepped.since (hr : (machine name cap n).Reach ok s) (hs : Stepped s l s')
    (hI : Since s) : Since s' := by
  intro pre post w hsplit
  have hflag := hs.later.closing
  cases hs with
  | @move i a ctl f rest m nx hth hm =>
    obtain ⟨r, hr₁, hr₂⟩ := tally_resume committed hth nx
    cases hm.closing with
    | begins t c ac hf htrace hnx =>
      -- the one committed frame begins its function
      dsimp only at hsplit ⊢
      rw [htrace] at hsplit
      obtain ⟨post', rfl, hold⟩ := split_append hsplit (by simp)
      obtain ⟨hclosing, hadm, hle⟩ := hI pre post' w hold
      refine ⟨hflag hclosing, by simpa using hadm, ?_⟩
      have hf1 : committed f = 1 := by rw [hf]; rfl
      have hone : List.countP Event.isBegan [.began t c] = 1 := rfl
      rw [List.countP_append, hone, hr₂, hnx]
      omega
    | admits t c ac hclosing htrace hnx hf =>
      dsimp only at hsplit
      rw [htrace] at hsplit
      obtain ⟨post', rfl, hold⟩ := split_append hsplit (by simp)
      exact absurd (hclosing.symm.trans (hI pre post' w hold).1) (by simp)
    | returns pc hf hclosing htrace hnx =>
      dsimp only at hsplit ⊢
      rw [htrace] at hsplit
      have htally : tally committed (s.threads.set i (nx.resume rest)) =
          tally committed s.threads := by
        rw [hr₁, hr₂, hnx, hf]
        rfl
      rw [htally]
      rcases split_append_one hsplit with ⟨-, hw, rfl⟩ | ⟨post', rfl, hold⟩
      · refine ⟨hclosing, by simp, ?_⟩
        obtain rfl : w = isPipelineThread i := by simpa using hw
        rw [List.countP_nil, Nat.zero_add]
        by_cases hi : i = 0
        · -- the worker itself is in `Close`, and so not committed
          subst hi
          rw [tally_committed hr hth, hf]
          exact Nat.zero_le _
        · have hw : isPipelineThread i = false := by simpa [isPipelineThread] using hi
          rw [hw]
          exact committed_le hr
      · obtain ⟨-, hadm, hle⟩ := hI pre post' w hold
        refine ⟨hclosing, by simpa using hadm, ?_⟩
        rw [List.countP_append]
        simpa using hle
    | other es htrace hes hf hnx =>
      dsimp only at hsplit ⊢
      rw [htrace] at hsplit
      obtain ⟨post', rfl, hold⟩ :=
        split_append hsplit fun hmem => absurd (hes _ hmem) (by simp)
      obtain ⟨hclosing, hadm, hle⟩ := hI pre post' w hold
      refine ⟨hflag hclosing, fun t c hmem => ?_, ?_⟩
      · rcases List.mem_append.mp hmem with hmem | hmem
        · exact hadm t c hmem
        · exact absurd (hes _ hmem) (by simp)
      · have hzero : es.countP Event.isBegan = 0 := by
          refine List.countP_eq_zero.mpr fun e he hbegan => ?_
          have hno := hes e he
          cases e <;> simp at hbegan hno
        rw [List.countP_append, hzero, hr₂, weigh_eq_zero hnx]
        omega
  | @expire k ec t ht =>
    dsimp only [Mem.expire, Mem.asioPost] at hsplit ⊢
    obtain ⟨post', rfl, hold⟩ := split_append hsplit (by simp)
    obtain ⟨hclosing, hadm, hle⟩ := hI pre post' w hold
    refine ⟨hclosing, by simpa using hadm, ?_⟩
    rw [List.countP_append]
    simpa using hle

theorem reach_since (h : (machine name cap n).Reach ok s) : Since s :=
  reach_invariant (I := Since) h
    (fun pre post w hsplit => absurd hsplit (by simp [initial]))
    fun _ _ _ hr _ hs _ hI => hs.since hr hI

/-! ## After `Close` has returned -/

/-- **One straggler at most.** After the moment some `Close` returned, at most
one function handed to `ExecTask_` begins, and it is one for which `closing_`
had been read as false before; when that `Close` was called on the worker,
none begins. -/
theorem closing_stops (h : (machine name cap n).Reach ok s) {pre post : List Event}
    {onWorker : Bool} (hclose : s.mem.trace = pre ++ .closeReturned onWorker :: post) :
    post.countP Event.isBegan ≤ (if onWorker then 0 else 1) ∧
      ∀ t c, .began t c ∈ post → .admitted t c ∈ pre := by
  obtain ⟨-, hnone, hle⟩ := reach_since h pre post onWorker hclose
  refine ⟨Nat.le_trans (Nat.le_add_right _ _) hle, fun t c hmem => ?_⟩
  obtain ⟨before, after, rfl⟩ := List.append_of_mem hmem
  have hadm : .admitted t c ∈ pre ++ .closeReturned onWorker :: before := by
    refine reach_followed h _ (.began t c) after ?_ _ rfl
    rw [hclose, List.append_assoc, List.cons_append]
  rcases List.mem_append.mp hadm with hpre | hbefore
  · exact hpre
  · rcases List.mem_cons.mp hbefore with heq | hbefore
    · exact absurd heq (by simp)
    · exact absurd (List.mem_append_left _ hbefore) (hnone t c)

/-- The straggler exists: the worker is past the test when the client's `Close`
returns, and the task begins. -/
theorem closing_stops_straggler : ∃ s pre post, (machine "tasks" 1 1).Reach (fun _ _ => True) s ∧
    s.mem.trace = pre ++ .closeReturned false :: post ∧ .began (.user 0) true ∈ post ∧
    post.countP Event.isBegan ≤ 1 := by
  let steps : List Step := [.thread 1 (.call .post), .thread 1 .code, .thread 1 .code,
    .thread 1 .code, .thread 0 .code, .thread 0 .code, .thread 0 .code, .thread 1 (.call .close),
    .thread 1 .code, .thread 1 .code, .thread 1 .code, .thread 0 .code]
  have hrun : ∃ s, (machine "tasks" 1 1).guardedRun (fun _ _ => True) (initial "tasks" 1 1) steps =
      some s ∧ s.mem.trace = [.called none 0 .post 0, .enqueued (.execTask (.user 0)),
        .taken (.execTask (.user 0)), .entered (.user 0) true, .admitted (.user 0) true,
        .called none 1 .close 0, .enqueued .stop] ++
        .closeReturned false :: [.began (.user 0) true] := ⟨_, rfl, rfl⟩
  obtain ⟨s, hs, htrace⟩ := hrun
  have hreach := reach_schedule (by decide) hs
  exact ⟨s, _, _, hreach, htrace, List.mem_singleton.mpr rfl, (closing_stops hreach htrace).1⟩

end Warlib.Pipeline
