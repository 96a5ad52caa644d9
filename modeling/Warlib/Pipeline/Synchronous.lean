import Warlib.Pipeline.Stack
import Warlib.Pipeline.Submissions

/-!
# What `PostSynchronously` reports

The outcome of `PostSynchronously` travels from the task's function through
`ExecTask_`, the lambda, the promise and `future.get()`. `Truthful` says what
stands behind it at each stage: what the lambda is told by its `ExecTask_`,
what the promise holds, and what the call ended with is how the function
ended; an exception the `Dispatch` ends with is the rejection of the lambda.

One step breaks the chain: the lambda cannot tell an `ExecTask_` that ran the
task from one that dismissed it, both return normally. `InnerOpen` excludes
just that step; it is the guard of the runs this module is about. That the
function is called at most once, and not at all after a rejection, needs no
guard (`spent_once`).
-/

namespace Warlib.Pipeline

open Warlib.Machine

variable {name : String} {cap : BitVec 64} {n : Nat} {ok : State → Step → Prop}
  {s s' : State} {l : Step} {i : Nat} {m m' : Mem} {a : Act} {ctl : Ctl Exn} {f g : Frame}
  {rest : List Frame} {nx : Next Frame Exn}

/-- `ExecTask_`, called from the lambda of `PostSynchronously`, is about to
test `closing_`. -/
def innerTest : List Frame → Bool
  | .execTask .closing _ _ _ :: .syncCarrier .after _ :: _ => true
  | _ => false

/-- The test of `closing_` inside the lambda of `PostSynchronously` comes out
as the one outside did: the flag is not set in between. -/
def InnerOpen (s : State) : Step → Prop
  | .thread i .code => ∀ th ∈ s.threads[i]?, innerTest th.frames = true → s.mem.closing = false
  | _ => True

instance (s : State) (l : Step) : Decidable (InnerOpen s l) :=
  match l with
  | .thread i .code =>
    inferInstanceAs
      (Decidable (∀ th ∈ s.threads[i]?, innerTest th.frames = true → s.mem.closing = false))
  | .thread _ (.call _) => inferInstanceAs (Decidable True)
  | .thread _ (.setPromise _ _) => inferInstanceAs (Decidable True)
  | .thread _ .ret => inferInstanceAs (Decidable True)
  | .thread _ (.throw _) => inferInstanceAs (Decidable True)
  | .env _ => inferInstanceAs (Decidable True)

/-! ## What stands behind an outcome -/

/-- What a frame is told, in the light of the history; `full` is the
exception of a rejection. -/
def Heard (full : Exn) (tr : List Event) : Ctl Exn → Frame → Prop
  | .ret, .syncCarrier .after id => .finished (.user id) false .value ∈ tr
  | .thr e, .syncCarrier .after id => .finished (.user id) false (.exn e) ∈ tr
  | .thr e, .postSynchronously .dispatching id => e = full ∧ .rejected (.sync id) ∈ tr
  | _, _ => True

/-- What an outcome of the call with number `id` means. -/
def Told (full : Exn) (tr : List Event) (id : Nat) (o : Outcome) : Prop :=
  .finished (.user id) false o ∈ tr ∨ (o = .exn full ∧ .rejected (.sync id) ∈ tr)

/-- Every call so far has ended with the truth. -/
def ToldTruth (full : Exn) (tr : List Event) : Prop :=
  Each (fun pre e => ∀ id o, e = .syncEnded id o → Told full pre id o) tr

/-- The promises of `PostSynchronously` hold how the functions ended. -/
def Promised (m : Mem) : Prop :=
  ∀ id o, m.promises (.sync id) = some o → .finished (.user id) false o ∈ m.trace

theorem heard_go {full : Exn} {tr : List Event} : Heard full tr .go f := by
  unfold Heard
  split <;> simp_all

theorem Heard.mono {full : Exn} {tr tr' : List Event} {c : Ctl Exn} (h : Heard full tr c f)
    (hsub : tr <+: tr') : Heard full tr' c f := by
  unfold Heard at h ⊢
  split
  next => exact hsub.subset h
  next => exact hsub.subset h
  next => exact ⟨h.1, hsub.subset h.2⟩
  next => trivial

/-- Other frames are not told an outcome. -/
theorem heard_other {full : Exn} {tr : List Event} {c : Ctl Exn}
    (hcarrier : ∀ id, f ≠ .syncCarrier .after id)
    (hdispatching : ∀ id, f ≠ .postSynchronously .dispatching id) : Heard full tr c f := by
  unfold Heard
  split <;> simp_all

/-- `ExecTask_` tells the lambda how the function ended. -/
theorem Move.heard_carrier {pc : ExecPc} {id : Nat}
    (h : Move i m a ctl (.execTask pc (.user id) false false) m' nx) (hend : nx.frames = [])
    (hguard : innerTest (.execTask pc (.user id) false false :: .syncCarrier .after id :: rest) =
      true → a = .code → m.closing = false) (full : Exn) :
    Heard full m'.trace (nx.resume (.syncCarrier .after id :: rest)).ctl
      (.syncCarrier .after id) := by
  cases h
  case user_set p o hp hf | user_set_again p o hp hf => exact absurd hf (by simp [Frame.userCode])
  case exec_entry => exact absurd hend (by simp)
  case exec_dismissed hc => exact absurd ((hguard rfl rfl).symm.trans hc) (by simp)
  case exec_admitted => exact absurd hend (by simp)
  case exec_call => exact absurd hend (by simp)
  case exec_ret => exact List.mem_append_right _ (List.mem_singleton.mpr rfl)
  case exec_thrown e => exact List.mem_append_right _ (List.mem_singleton.mpr rfl)

/-- The `Dispatch` of `PostSynchronously` ends by an exception only when the
lambda is rejected. -/
theorem Move.heard_dispatching {id : Nat} (h : Move i m a ctl f m' nx) (hend : nx.frames = [])
    (hover : Over f (.postSynchronously .dispatching id)) :
    Heard m'.outOfCapacity m'.trace (nx.resume (.postSynchronously .dispatching id :: rest)).ctl
      (.postSynchronously .dispatching id) := by
  rcases over_dispatching hover with rfl | ⟨pc, rfl⟩ | ⟨pc, rfl⟩
  · cases h
    case user_set p o hp hf | user_set_again p o hp hf => exact absurd hf (by simp [Frame.userCode])
    case dispatch_dismissed => trivial
    all_goals exact absurd hend (by simp)
  · cases h
    case user_set p o hp hf | user_set_again p o hp hf => exact absurd hf (by simp [Frame.userCode])
    case post_dismissed => trivial
    case post_enqueue => trivial
    case post_undo => exact ⟨rfl, List.mem_append_right _ (List.mem_singleton.mpr rfl)⟩
    all_goals exact absurd hend (by simp)
  · cases h
    case user_set p o hp hf | user_set_again p o hp hf => exact absurd hf (by simp [Frame.userCode])
    case exec_dismissed => trivial
    case exec_ret => trivial
    case exec_caught => trivial
    all_goals exact absurd hend (by simp)

/-- What a frame that ends tells the frame below. -/
theorem Move.heard (h : Move i m a ctl f m' nx) (hend : nx.frames = []) (hover : Over f g)
    (hguard : innerTest (f :: g :: rest) = true → a = .code → m.closing = false) :
    Heard m'.outOfCapacity m'.trace (nx.resume (g :: rest)).ctl g := by
  by_cases hcarrier : ∃ id, g = .syncCarrier .after id
  · obtain ⟨id, rfl⟩ := hcarrier
    obtain ⟨pc, rfl⟩ := over_syncCarrier hover
    exact h.heard_carrier hend hguard _
  · by_cases hdispatching : ∃ id, g = .postSynchronously .dispatching id
    · obtain ⟨id, rfl⟩ := hdispatching
      exact h.heard_dispatching hend hover
    · exact heard_other (fun id he => hcarrier ⟨id, he⟩) fun id he => hdispatching ⟨id, he⟩

/-- The promises: only the lambda sets them, to what it was told. -/
theorem Move.promised {full : Exn} (h : Move i m a ctl f m' nx) (hheard : Heard full m.trace ctl f)
    (hp : Promised m) : Promised m' := by
  have hlater := h.later.trace
  have hset : ∀ (id : Nat) (o : Outcome), .finished (.user id) false o ∈ m.trace →
      Promised (m.fulfil (.sync id) o) := by
    intro id o hfin id' o' ho'
    dsimp only [Mem.fulfil] at ho'
    split at ho'
    next heq =>
      obtain rfl := Promise.sync.inj heq
      obtain rfl := Option.some.inj ho'
      exact hfin
    next => exact hp id' o' ho'
  have hgiven : ∀ (p : Nat) (o : Outcome), Promised (m.fulfil (.given p) o) := by
    intro p o id' o' ho'
    dsimp only [Mem.fulfil] at ho'
    rw [if_neg (by simp)] at ho'
    exact hp id' o' ho'
  cases h
  case sync_value id hn => exact hset id .value hheard
  case sync_exn id e hn => exact hset id (.exn e) hheard
  case promise_exn => exact hgiven _ _
  case user_set => exact hgiven _ _
  all_goals exact fun id o ho => hlater.subset (hp id o ho)

/-- The call ends with what it was told, or with what its promise holds. -/
theorem Move.told {full : Exn} (h : Move i m a ctl f m' nx) (hheard : Heard full m.trace ctl f)
    (hp : Promised m) {id : Nat} {o : Outcome} (he : m'.trace = m.trace ++ [.syncEnded id o]) :
    Told full m.trace id o := by
  cases h
  case postSynchronously_thr id' e =>
    have heq : id' = id ∧ Outcome.exn e = o := by simpa using he
    obtain ⟨rfl, rfl⟩ := heq
    obtain ⟨rfl, hrej⟩ := hheard
    exact Or.inr ⟨rfl, hrej⟩
  case postSynchronously_value id' hpv =>
    have heq : id' = id ∧ Outcome.value = o := by simpa using he
    obtain ⟨rfl, rfl⟩ := heq
    exact Or.inl (hp _ _ hpv)
  case postSynchronously_exn id' e hpe =>
    have heq : id' = id ∧ Outcome.exn e = o := by simpa using he
    obtain ⟨rfl, rfl⟩ := heq
    exact Or.inl (hp _ _ hpe)
  all_goals simp at he

/-! ## Runs -/

/-- The chain from the function to the caller, in one state. -/
structure Truthful (s : State) : Prop where
  heard : ∀ (i : Nat) (th : Thread Frame Exn), s.threads[i]? = some th →
    ∀ f rest, th.frames = f :: rest → Heard s.mem.outOfCapacity s.mem.trace th.ctl f
  promised : Promised s.mem
  told : ToldTruth s.mem.outOfCapacity s.mem.trace

theorem Stepped.truthful (hr : (machine name cap n).Reach ok s) (hok : InnerOpen s l)
    (hs : Stepped s l s') (hI : Truthful s) : Truthful s' := by
  obtain ⟨hheard, hpromised, htold⟩ := hI
  have hfull : s'.mem.outOfCapacity = s.mem.outOfCapacity := by
    rw [Mem.outOfCapacity, Mem.outOfCapacity, hs.later.name]
  have hlater := hs.later.trace
  refine ⟨?_, ?_, ?_⟩
  · rw [hfull]
    cases hs with
    | @move i a ctl f rest m nx hth hm =>
      refine forall_set (T := fun _ th => ∀ f rest, th.frames = f :: rest →
        Heard s.mem.outOfCapacity m.trace th.ctl f) ?_ fun j th _ hj f rest hf =>
          (hheard j th hj f rest hf).mono hlater
      intro f' rest' hframes
      have hreturn : nx.frames = [] →
          Heard s.mem.outOfCapacity m.trace (nx.resume rest).ctl f' := by
        intro hend
        have hrest : rest = f' :: rest' := by
          rw [Next.resume_frames, hend] at hframes
          exact hframes
        subst hrest
        have hguard : innerTest (f :: f' :: rest') = true → a = .code → s.mem.closing = false := by
          rintro htest rfl
          exact hok _ hth htest
        rw [← hfull]
        exact hm.heard hend (reach_grounded hr hth).1 hguard
      cases nx with
      | goto f₁ => exact heard_go
      | call f₁ c => exact heard_go
      | ret => exact hreturn rfl
      | thr e => exact hreturn rfl
    | expire ht => exact fun i th hth f rest hf => (hheard i th hth f rest hf).mono hlater
  · cases hs with
    | move hth hm => exact hm.promised (hheard _ _ hth _ _ rfl) hpromised
    | expire ht => exact fun id o ho => hlater.subset (hpromised id o ho)
  · rw [hfull]
    refine hs.each ?_ ?_ htold
    · intro i a ctl f rest m nx e _ hth hm htrace id o he
      exact hm.told (hheard i _ hth f rest rfl) hpromised (he ▸ htrace)
    · intro timer ec id o he
      exact absurd he (by simp)

theorem reach_truthful (h : (machine name cap n).Reach InnerOpen s) : Truthful s := by
  refine reach_invariant (I := Truthful) h ⟨?_, ?_, each_nil _⟩
    fun s l s' hr hok hs _ hI => hs.truthful hr hok hI
  · intro i th hth f rest hf
    obtain rfl := initial_thread hth
    exact heard_go
  · intro id o ho
    exact absurd ho (by simp [initial])

/-- **The truth about a synchronous call.** In a run in which no `Close` sets
`closing_` between the two tests of a lambda of `PostSynchronously`, a call
that has ended by return or by an exception ended with the outcome of the
task's function, called exactly once and before the call ended; or it ended
with the exception of a full queue, and the function is never called. -/
theorem synchronous_truth (h : (machine name cap n).Reach InnerOpen s) {pre post : List Event}
    {id : Nat} {o : Outcome} (hend : s.mem.trace = pre ++ .syncEnded id o :: post) :
    (.finished (.user id) false o ∈ pre ∧ pre.countP (Event.invoked id) = 1 ∧
      post.countP (Event.invoked id) = 0) ∨
    (o = .exn s.mem.outOfCapacity ∧ s.mem.trace.countP (Event.invoked id) = 0) := by
  have honce := spent_once h id
  unfold Mem.spent at honce
  rcases (reach_truthful h).told pre _ post hend id o rfl with hfin | ⟨rfl, hrej⟩
  · left
    obtain ⟨before, after, hpre⟩ := List.append_of_mem hfin
    have hbegan : .began (.user id) false ∈ pre := by
      have hmem := reach_followed h before _ (after ++ .syncEnded id o :: post)
        (by rw [hend, hpre, List.append_assoc, List.cons_append]) _ rfl
      rw [hpre]
      exact List.mem_append_left _ hmem
    have hpos : 0 < pre.countP (Event.invoked id) :=
      List.countP_pos_iff.mpr ⟨_, hbegan, by simp⟩
    rw [hend, List.countP_append, List.countP_cons] at honce
    exact ⟨hfin, by omega, by omega⟩
  · right
    have hpos : 0 < s.mem.trace.countP (Event.refused id) := by
      refine List.countP_pos_iff.mpr ⟨.rejected (.sync id), ?_, by simp⟩
      rw [hend]
      exact List.mem_append_left _ hrej
    exact ⟨rfl, by omega⟩

/-- A client calls `PostSynchronously` and the worker runs the task. -/
theorem synchronous_truth_value : ∃ s pre, (machine "tasks" 1 1).Reach InnerOpen s ∧
    s.mem.trace = pre ++ .syncEnded 0 .value :: [] ∧
    .finished (.user 0) false .value ∈ pre ∧ pre.countP (Event.invoked 0) = 1 := by
  let worker : Nat → List Step := fun k => List.replicate k (.thread 0 .code)
  let client : Nat → List Step := fun k => List.replicate k (.thread 1 .code)
  let steps : List Step := [.thread 1 (.call .postSynchronously)] ++ client 6 ++ worker 8 ++
    [.thread 0 .ret] ++ worker 3 ++ client 1
  have hrun : ∃ s, (machine "tasks" 1 1).guardedRun InnerOpen (initial "tasks" 1 1) steps = some s ∧
      s.mem.trace = s.mem.trace.dropLast ++ .syncEnded 0 .value :: [] := ⟨_, rfl, rfl⟩
  obtain ⟨s, hs, htrace⟩ := hrun
  have hreach := reach_schedule (by decide) hs
  rcases synchronous_truth hreach htrace with ⟨hfinished, hcount, -⟩ | ⟨hfull, -⟩
  · exact ⟨s, _, hreach, htrace, hfinished, hcount⟩
  · exact absurd hfull (by simp)

/-- `Close` sets `closing_` between the two tests: the lambda is admitted, its
own `ExecTask_` dismisses the task, and `PostSynchronously` returns normally
though the task was never called. -/
theorem synchronous_unrun : ∃ s, (machine "tasks" 1 2).Reach (fun _ _ => True) s ∧
    .syncEnded 0 .value ∈ s.mem.trace ∧ s.mem.trace.countP (Event.invoked 0) = 0 := by
  let worker : Nat → List Step := fun k => List.replicate k (.thread 0 .code)
  let client : Nat → List Step := fun k => List.replicate k (.thread 1 .code)
  let steps : List Step := [.thread 1 (.call .postSynchronously)] ++ client 6 ++ worker 6 ++
    [.thread 2 (.call .close), .thread 2 .code, .thread 2 .code, .thread 2 .code] ++ worker 3 ++
    client 1
  have hrun : ∃ s, (machine "tasks" 1 2).guardedRun (fun _ _ => True) (initial "tasks" 1 2) steps =
      some s ∧ .syncEnded 0 .value ∈ s.mem.trace ∧ s.mem.trace.countP (Event.invoked 0) = 0 :=
    ⟨_, rfl, by decide, rfl⟩
  obtain ⟨s, hs, hrest⟩ := hrun
  exact ⟨s, reach_schedule (by decide) hs, hrest⟩

end Warlib.Pipeline
