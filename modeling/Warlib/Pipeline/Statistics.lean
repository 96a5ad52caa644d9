import Warlib.Pipeline.Shutdown

/-!
# The number of tasks the worker ran

`ExecTask_` increments `tasks_run_` when `task.first()` has returned, and
`Pipeline::Run` logs it in the end. A task that comes through
`PostSynchronously` or `PostWithPromise` meets `ExecTask_` twice: the queue has
the lambda of the entry point, which calls `ExecTask_` for the user's task.
Both count, and the lambda returns also when the user's task has thrown or was
dismissed.

`State.returned` counts the functions of users that have returned normally, by
the steps in which they do (`Stepped.returned`); `reach_tasksRun` is what
`tasks_run_` counts. It is a number without bounds here; an `int64_t` holds the
same number in a history of less than `2 ^ 63` events (`tasksRun_fits`).
-/

namespace Warlib.Pipeline

open Warlib.Machine

variable {name : String} {cap : BitVec 64} {n : Nat} {ok : State → Step → Prop}
  {s s' : State} {l : Step} {i : Nat} {m m' : Mem} {a : Act} {ctl : Ctl Exn} {f g : Frame}
  {rest : List Frame} {nx : Next Frame Exn}

/-! ## What has returned -/

/-- `ExecTask_` has counted a function of a user. -/
def Event.countsUser : Event → Bool
  | .finished (.user _) _ .value => true
  | _ => false

/-- It has counted the lambda of `PostSynchronously` or `PostWithPromise`. -/
def Event.countsCarrier : Event → Bool
  | .finished (.sync _) _ .value => true
  | .finished (.promise _ _) _ .value => true
  | _ => false

/-- `ExecTask_` has called a function of a user. -/
def Frame.inUser : Frame → Nat
  | .execTask .running (.user _) _ _ => 1
  | _ => 0

/-- It is about to count the function, which has just returned. -/
def back : Thread Frame Exn → Nat
  | ⟨.ret, f :: _⟩ => f.inUser
  | _ => 0

/-- The worker's `ExecTask_` is at this point. -/
def State.aboutToCount (s : State) : Nat := (s.threads[0]?.map back).getD 0

/-- The functions of users that have returned normally. -/
def State.returned (s : State) : Nat := s.mem.trace.countP Event.countsUser + s.aboutToCount

/-- A function of a user returns normally. -/
def returning : Act → Frame → Nat
  | .ret, .fn _ => 1
  | _, _ => 0

/-- The functions of users that return normally in a step. -/
def returns (s : State) : Step → Nat
  | .thread i a => ((s.top? i).map (returning a)).getD 0
  | .env _ => 0

/-- `tasks_run_` is the number of functions that have returned, save one that
`ExecTask_` is about to count. -/
def State.CountsTasks (s : State) : Prop := s.mem.tasksRun + s.aboutToCount = s.returned

/-- `ExecTask_` is about to count a lambda of `PostSynchronously` or
`PostWithPromise`, which has just returned. -/
def countsCarrier : Thread Frame Exn → Bool
  | ⟨.ret, .execTask .running (.sync _) _ _ :: _⟩ => true
  | ⟨.ret, .execTask .running (.promise _ _) _ _ :: _⟩ => true
  | _ => false

/-- No lambda is counted. -/
def NoCarrierCounted (s : State) : Step → Prop
  | .thread i _ => ∀ th ∈ s.threads[i]?, countsCarrier th = false
  | .env _ => True

instance (s : State) (l : Step) : Decidable (NoCarrierCounted s l) :=
  match l with
  | .thread i _ => inferInstanceAs (Decidable (∀ th ∈ s.threads[i]?, countsCarrier th = false))
  | .env _ => inferInstanceAs (Decidable True)

/-! ## What `tasks_run_` counts -/

/-- **What is counted.** `tasks_run_` is the number of functions of users and of
lambdas that `ExecTask_` has seen return. -/
theorem reach_tasksRun (h : (machine name cap n).Reach ok s) :
    s.mem.tasksRun =
      s.mem.trace.countP Event.countsUser + s.mem.trace.countP Event.countsCarrier := by
  refine reach_mem (I := fun m => m.tasksRun =
    m.trace.countP Event.countsUser + m.trace.countP Event.countsCarrier) h rfl ?_ ?_
  · intro i a ctl f m m' nx hm hI
    cases hm
    case exec_ret t c ac =>
      simp only [Mem.emit, List.countP_append, hI]
      cases t <;> simp [Event.countsUser, Event.countsCarrier] <;> omega
    case exec_caught t c e | exec_thrown t c e =>
      simpa [List.countP_append, Event.countsUser, Event.countsCarrier] using hI
    all_goals simpa [List.countP_append, Event.countsUser, Event.countsCarrier] using hI
  · intro m k t ec hI
    simpa [List.countP_append, Event.countsUser, Event.countsCarrier] using hI

/-- Each of them has an event of its own, so the number fits an `int64_t` in any history
that is not too long for one. -/
theorem tasksRun_fits (h : (machine name cap n).Reach ok s) :
    (0 ≤ s.mem.tasksRun ∧ s.mem.tasksRun ≤ s.mem.trace.length) ∧
      (s.mem.trace.length < 2 ^ 63 →
        (BitVec.ofInt 64 s.mem.tasksRun).toInt = s.mem.tasksRun) := by
  have hcounts := reach_tasksRun h
  have hother : s.mem.trace.countP Event.countsCarrier ≤
      s.mem.trace.countP fun e => ¬e.countsUser = true := by
    refine List.countP_mono_left fun e _ hcarrier => ?_
    cases e with
    | finished t c o => cases t <;> simp_all [Event.countsUser, Event.countsCarrier]
    | _ => exact absurd hcarrier (by simp [Event.countsCarrier])
  have hlength := List.length_eq_countP_add_countP Event.countsUser (l := s.mem.trace)
  have hle : s.mem.tasksRun ≤ s.mem.trace.length := by omega
  refine ⟨⟨by omega, hle⟩, fun hshort => ?_⟩
  exact BitVec.toInt_ofInt_eq_self (by decide) (by omega) (by omega)

/-! ## What has returned, step by step -/

/-- Nobody is back in another function. -/
theorem back_eq_zero (hf : f.inUser = 0) : back ⟨ctl, f :: rest⟩ = 0 := by
  cases ctl with
  | ret => exact hf
  | go | thr e => rfl

/-- Whoever stands on `ExecTask_` that has called a function of a user is this function. -/
theorem over_inUser {id : Nat} {c ac : Bool} (h : Over f (.execTask .running (.user id) c ac)) :
    f = .fn id := by
  unfold Over Frame.mayCall at h
  cases f <;> simp_all

/-- Only `ExecTask_` counts, and only when it is back. -/
theorem Move.counted (h : Move i m a ctl f m' nx) (rest : List Frame) :
    m'.trace.countP Event.countsUser =
      m.trace.countP Event.countsUser + back ⟨ctl, f :: rest⟩ := by
  cases h
  case exec_ret t c ac =>
    rw [Mem.emit, List.countP_append]
    cases t <;> rfl
  case exec_caught t c e | exec_thrown t c e =>
    rw [Mem.emit, List.countP_append]
    cases t <;> rfl
  case user_set p o hp hu | user_set_again p o hp hu =>
    rw [back_eq_zero]
    · rfl
    · exact Frame.of_userCode (P := fun g => g.inUser = 0) hu rfl (fun _ => rfl) fun _ => rfl
  all_goals
    rw [back_eq_zero rfl]
    simp [List.countP_append, Event.countsUser]

/-- A thread is back from a function of a user after the step in which it returns, and
after no other. -/
theorem Move.back (h : Move i m a ctl f m' nx) (hg : Grounded Over (bottom i) (f :: rest)) :
    Pipeline.back (nx.resume rest) = returning a f := by
  by_cases hfn : ∃ id, f = .fn id
  · obtain ⟨id, rfl⟩ := hfn
    cases rest with
    | nil =>
      have hbottom : Frame.fn id = bottom i := hg
      cases i <;> simp at hbottom
    | cons g rest =>
      obtain ⟨c, ac, rfl⟩ := over_fn hg.1
      cases h <;> rfl
  · have hnot : returning a f = 0 := by
      cases f with
      | fn id => exact absurd ⟨id, rfl⟩ hfn
      | _ => cases a <;> rfl
    rw [hnot]
    cases nx with
    | goto f' | call f' g | thr e => rfl
    | ret =>
      cases rest with
      | nil => rfl
      | cons g rest =>
        refine back_eq_zero ?_
        unfold Frame.inUser
        split
        next id c ac => exact absurd ⟨id, over_inUser hg.1⟩ hfn
        next => rfl

/-- **What has returned.** `State.returned` goes up by one in the steps in which a
function of a user returns normally. -/
theorem Stepped.returned (hr : (machine name cap n).Reach ok s) (hs : Stepped s l s') :
    s'.returned = s.returned + returns s l := by
  cases hs with
  | @move i a ctl f rest m nx hth hm =>
    have hg := reach_grounded hr hth
    have hcounted := hm.counted rest
    have hback := hm.back hg
    have hreturns : returns s (.thread i a) = returning a f := by
      rw [returns, top_of_thread hth]
      rfl
    have hlt : i < s.threads.length := (List.getElem?_eq_some_iff.mp hth).1
    unfold State.returned State.aboutToCount
    dsimp only
    rw [hcounted, hreturns]
    by_cases hi : i = 0
    · subst hi
      rw [List.getElem?_set_self hlt, hth, ← hback]
      rfl
    · -- `ExecTask_` and what it calls are on the worker
      have hclient : f.onClient = true := by
        by_contra hworker
        exact hi (reach_worker hr hth (by simpa using hworker))
      have hnone : Pipeline.back ⟨ctl, f :: rest⟩ = 0 := by
        refine back_eq_zero ?_
        cases f <;> first | rfl | simp [Frame.onClient] at hclient
      have hnot : returning a f = 0 := by
        cases f <;> first | simp [Frame.onClient] at hclient; done | cases a <;> rfl
      rw [List.getElem?_set_ne hi, hnone, hnot]
      rfl
  | expire ht =>
    unfold State.returned State.aboutToCount
    simp [List.countP_append, Event.countsUser, Pipeline.returns]

/-! ## Runs without the two entry points' lambdas -/

/-- A lambda is counted in the steps that the condition excludes. -/
theorem Move.countsCarrier (h : Move i m a ctl f m' nx) (rest : List Frame)
    (hnot : Pipeline.countsCarrier ⟨ctl, f :: rest⟩ = false) :
    m'.trace.countP Event.countsCarrier = m.trace.countP Event.countsCarrier := by
  cases h
  case exec_ret t c ac =>
    rw [Mem.emit, List.countP_append]
    cases t with
    | user id => rfl
    | sync id | promise id p => exact absurd hnot (by simp [Pipeline.countsCarrier])
  all_goals simp [List.countP_append, Event.countsCarrier]

theorem reach_noCarrier (h : (machine name cap n).Reach NoCarrierCounted s) :
    s.mem.trace.countP Event.countsCarrier = 0 := by
  refine reach_invariant (I := fun s => s.mem.trace.countP Event.countsCarrier = 0) h rfl ?_
  intro s l s' _ hok hs _ hI
  cases hs with
  | move hth hm => exact (hm.countsCarrier _ (hok _ hth)).trans hI
  | expire ht => simpa [List.countP_append, Event.countsCarrier] using hI

/-- When `Pipeline::Run` has left its loop, nothing is about to be counted. -/
theorem aboutToCount_of_ended (h : (machine name cap n).Reach ok s) {why : RunEnd}
    (hended : .ended why ∈ s.mem.trace) : s.aboutToCount = 0 := by
  obtain ⟨th, hth⟩ := reach_thread_zero h
  have hends : why ∈ s.mem.ends := List.mem_filterMap.mpr ⟨.ended why, hended, rfl⟩
  have hframes : th.frames = [] := by
    have hphase := reach_phase h th hth
    generalize th.frames = fs at hphase
    cases hphase with
    | working _ _ _ _ _ _ hnone | stopping _ _ _ _ hnone | stopped _ _ hnone =>
      rw [hnone] at hends
      exact absurd hends List.not_mem_nil
    | ended => rfl
  obtain ⟨ctl, frames⟩ := th
  obtain rfl : frames = [] := hframes
  rw [State.aboutToCount, hth]
  cases ctl <;> rfl

/-! ## The statistic -/

/-- **The number of tasks.** In a run in which no lambda of `PostSynchronously` or
`PostWithPromise` returns to the `ExecTask_` that runs it, `tasks_run_` is, in every
state, the number of functions of users that have returned normally; and a state
of any run is so if and only if no such lambda has been counted. What has
returned is counted by the steps in which it does, and when `Run` logs the number
no function is between its return and the increment. And as long as the history
has less than `2 ^ 63` events, a word of 64 bits is the number itself. -/
theorem tasks_run_counts (name : String) (cap : BitVec 64) (n : Nat) :
    (∀ s, (machine name cap n).Reach NoCarrierCounted s → s.CountsTasks) ∧
    (∀ s, (machine name cap n).Reach (fun _ _ => True) s →
      (s.CountsTasks ↔ ∀ e ∈ s.mem.trace, e.countsCarrier = false)) ∧
    ((initial name cap n).returned = 0 ∧
      ∀ s l s', (machine name cap n).Reach (fun _ _ => True) s →
        (machine name cap n).next s l = some s' → s'.returned = s.returned + returns s l) ∧
    (∀ s why, (machine name cap n).Reach (fun _ _ => True) s → .ended why ∈ s.mem.trace →
      s.aboutToCount = 0) ∧
    ∀ s, (machine name cap n).Reach (fun _ _ => True) s → s.mem.trace.length < 2 ^ 63 →
      (BitVec.ofInt 64 s.mem.tasksRun).toInt = s.mem.tasksRun := by
  have hiff : ∀ s ok, (machine name cap n).Reach ok s →
      (s.CountsTasks ↔ s.mem.trace.countP Event.countsCarrier = 0) := by
    intro s ok h
    unfold State.CountsTasks State.returned
    rw [reach_tasksRun h]
    omega
  refine ⟨fun s h => (hiff s _ h).mpr (reach_noCarrier h), fun s h => ?_, ⟨rfl, ?_⟩, ?_,
    fun s h => (tasksRun_fits h).2⟩
  · rw [hiff s _ h, List.countP_eq_zero]
    simp
  · exact fun s l s' h hn => (stepped_of_next hn).1.returned h
  · exact fun s why h hended => aboutToCount_of_ended h hended

/-- A client posts a task, and the worker runs it. -/
theorem tasks_run_counts_post : ∃ s, (machine "tasks" 1 1).Reach NoCarrierCounted s ∧
    s.mem.tasksRun = 1 ∧ s.aboutToCount = 0 ∧ s.returned = 1 := by
  let steps : List Step := [.thread 1 (.call .post), .thread 1 .code, .thread 1 .code,
    .thread 1 .code, .thread 0 .code, .thread 0 .code, .thread 0 .code, .thread 0 .code,
    .thread 0 .ret, .thread 0 .code]
  have hrun : ∃ s, (machine "tasks" 1 1).guardedRun NoCarrierCounted (initial "tasks" 1 1) steps =
      some s ∧ s.mem.tasksRun = 1 ∧ s.aboutToCount = 0 := ⟨_, rfl, rfl, rfl⟩
  obtain ⟨s, hs, htasks, hback⟩ := hrun
  have hreach := reach_schedule (by decide) hs
  have hcounts : s.mem.tasksRun + s.aboutToCount = s.returned :=
    (tasks_run_counts "tasks" 1 1).1 s hreach
  rw [htasks, hback] at hcounts
  exact ⟨s, hreach, htasks, hback, by omega⟩

/-- One task through `PostSynchronously` counts as two. One through `PostWithPromise`
that throws counts as one. -/
theorem tasks_counted_too_often :
    (∃ s, (machine "tasks" 1 1).Reach (fun _ _ => True) s ∧ s.mem.tasksRun = 2 ∧
      s.returned = 1 ∧ ¬s.CountsTasks) ∧
    ∃ s, (machine "tasks" 1 1).Reach (fun _ _ => True) s ∧ s.mem.tasksRun = 1 ∧
      s.returned = 0 ∧ ¬s.CountsTasks := by
  let worker : Nat → List Step := fun k => List.replicate k (.thread 0 .code)
  let client : Nat → List Step := fun k => List.replicate k (.thread 1 .code)
  let synchronously : List Step := [.thread 1 (.call .postSynchronously)] ++ client 5 ++ worker 8 ++
    [.thread 0 .ret] ++ worker 3
  let promised : List Step := [.thread 1 (.call (.postWithPromise 3))] ++ client 4 ++ worker 8 ++
    [.thread 0 (.throw (.user .std 7))] ++ worker 3
  have htwo : ∃ s, (machine "tasks" 1 1).guardedRun (fun _ _ => True) (initial "tasks" 1 1)
      synchronously = some s ∧ s.mem.tasksRun = 2 ∧ s.aboutToCount = 0 ∧ s.returned = 1 :=
    ⟨_, rfl, rfl, rfl, rfl⟩
  have hone : ∃ s, (machine "tasks" 1 1).guardedRun (fun _ _ => True) (initial "tasks" 1 1)
      promised = some s ∧ s.mem.tasksRun = 1 ∧ s.aboutToCount = 0 ∧ s.returned = 0 :=
    ⟨_, rfl, rfl, rfl, rfl⟩
  obtain ⟨s, hs, htasks, hback, hreturned⟩ := htwo
  obtain ⟨s', hs', htasks', hback', hreturned'⟩ := hone
  refine ⟨⟨s, reach_schedule (by decide) hs, htasks, hreturned, fun hcounts => ?_⟩,
    s', reach_schedule (by decide) hs', htasks', hreturned', fun hcounts => ?_⟩
  · rw [State.CountsTasks, htasks, hback, hreturned] at hcounts
    exact absurd hcounts (by decide)
  · rw [State.CountsTasks, htasks', hback', hreturned'] at hcounts
    exact absurd hcounts (by decide)

end Warlib.Pipeline
