import Mathlib.Data.List.Perm.Basic
import Warlib.Machine.History
import Warlib.Pipeline.Runs

/-!
# What becomes of a submission

A call of an entry point hands over one task once. `posting t` weighs the
frames that are going to queue task `t`; every move passes that weight on to
at most one successor and spends it on the enqueue, and a call gets its
weight together with its number. So no task is queued twice
(`posted_nodup`). With `invoking id` for the frames, handlers and timers that
may still call the function of submission `id`, the same argument says that
the function is called at most once, and not at all when the submission was
rejected (`spent_once`).

The projections of the history used all over the development are defined
here: the handlers enqueued, the handlers taken, and the tasks of those that
queue a task for immediate processing.
-/

namespace Warlib.Pipeline

open Warlib.Machine

/-! ## Sequences of events -/

@[simp] def Event.enqueued? : Event → Option Handler
  | .enqueued h => some h
  | _ => none

@[simp] def Event.taken? : Event → Option Handler
  | .taken h => some h
  | _ => none

/-- The task a handler queues for immediate processing. -/
@[simp] def Handler.posted? : Handler → Option Task
  | .execTask t => some t
  | .token t _ => some t
  | _ => none

/-- Everything that was put on the run queue, in order. -/
def Mem.enqueued (m : Mem) : List Handler := m.trace.filterMap Event.enqueued?

/-- Everything the worker took from the run queue, in order. -/
def Mem.taken (m : Mem) : List Handler := m.trace.filterMap Event.taken?

/-- The tasks posted, in the order in which they were enqueued. -/
def Mem.posted (m : Mem) : List Task := m.enqueued.filterMap Handler.posted?

variable {name : String} {cap : BitVec 64} {n : Nat} {ok : State → Step → Prop}
  {s s' : State} {l : Step} {i : Nat} {m m' : Mem} {a : Act} {ctl : Ctl Exn} {f : Frame}
  {nx : Next Frame Exn}

theorem mem_enqueued {hd : Handler} {tr : List Event} :
    hd ∈ tr.filterMap Event.enqueued? ↔ .enqueued hd ∈ tr := by
  rw [List.mem_filterMap]
  constructor
  · rintro ⟨e, he, heq⟩
    cases e <;> simp_all
  · exact fun he => ⟨_, he, rfl⟩

/-- What a move takes from the run queue: nothing, but in the loop of `run()`. -/
theorem Move.taken (h : Move i m a ctl f m' nx) :
    m'.taken = m.taken ∨ ∃ hd q, f = .run ∧ m.stopped = false ∧ m.queue = hd :: q ∧
      m' = { m with queue := q }.emit [.taken hd] ∧ nx = .call .run hd.frame := by
  cases h
  case run_take hd q hs hq hctl => exact Or.inr ⟨hd, q, rfl, hs, hq, rfl, rfl⟩
  all_goals first
    | exact Or.inl rfl
    | exact Or.inl (filterMap_of_trace rfl rfl)

/-- Every other move puts a handler at the end of the run queue, or leaves it alone. -/
theorem Move.queues (h : Move i m a ctl f m' nx) (htaken : m'.taken = m.taken) :
    (m'.enqueued = m.enqueued ∧ m'.queue = m.queue) ∨
      ∃ hd, m'.enqueued = m.enqueued ++ [hd] ∧ m'.queue = m.queue ++ [hd] := by
  cases h
  case run_take hd q hs hq hctl => exact absurd htaken (by simp [Mem.taken])
  case post_enqueue t | postToken t tok | close_enqueue =>
    exact Or.inr ⟨_, by simp [Mem.enqueued], rfl⟩
  all_goals first
    | exact Or.inl ⟨rfl, rfl⟩
    | exact Or.inl ⟨filterMap_of_trace rfl rfl, rfl⟩

/-- The run queue is first in, first out: what was enqueued is what was taken
and what is still there. -/
theorem reach_fifo (h : (machine name cap n).Reach ok s) :
    s.mem.enqueued = s.mem.taken ++ s.mem.queue := by
  refine reach_mem (I := fun m => m.enqueued = m.taken ++ m.queue) h rfl ?_ ?_
  · intro i a ctl f m m' nx hm hI
    rcases hm.taken with hsame | ⟨hd, q, -, -, hq, rfl, -⟩
    · rcases hm.queues hsame with ⟨henqueued, hqueue⟩ | ⟨hd, henqueued, hqueue⟩
      · rw [henqueued, hsame, hqueue]
        exact hI
      · rw [henqueued, hsame, hqueue, hI, List.append_assoc]
    · rw [hq] at hI
      unfold Mem.enqueued Mem.taken at hI ⊢
      simp [hI, List.filterMap_cons]
  · intro m k t ec hI
    unfold Mem.enqueued Mem.taken at hI ⊢
    simp [hI, List.filterMap_cons]

/-! ## Posted once -/

/-- The frames that are going to queue task `t`. -/
@[simp] def posting (t : Task) : Frame → Nat
  | .post .closing t' => if t' = t then 1 else 0
  | .post .adding t' => if t' = t then 1 else 0
  | .post .enqueue t' => if t' = t then 1 else 0
  | .postToken t' _ => if t' = t then 1 else 0
  | .dispatch t' => if t' = t then 1 else 0
  | .postWithPromise .start id p => if Task.promise id p = t then 1 else 0
  | .postSynchronously .start id => if Task.sync id = t then 1 else 0
  | _ => 0

/-- The number `id` is still to be given, when `next` is the next one. -/
def unnumbered (next id : Nat) : Nat := if next ≤ id then 1 else 0

/-- Giving a number uses up just that number. -/
theorem unnumbered_succ (next id : Nat) :
    unnumbered (next + 1) id + (if id = next then 1 else 0) = unnumbered next id := by
  unfold unnumbered
  by_cases h : id = next
  · rw [if_neg (by omega), if_pos h, if_pos (by omega)]
  · rw [if_neg h, Nat.add_zero]
    by_cases hle : next ≤ id
    · rw [if_pos hle, if_pos (by omega)]
    · rw [if_neg hle, if_neg (by omega)]

/-- A call hands over only a task of its own number. -/
theorem posting_call (t : Task) (next : Nat) (c : Call) :
    posting t (c.frame next) ≤ if t.id = next then 1 else 0 := by
  have howner : ∀ t' : Task, t'.id = next →
      (if t' = t then 1 else 0) ≤ if t.id = next then 1 else 0 := by
    intro t' ht'
    by_cases h : t' = t
    · rw [if_pos h, if_pos (h ▸ ht')]
    · rw [if_neg h]
      exact Nat.zero_le _
  cases c with
  | post => exact howner _ rfl
  | postToken tok => exact howner _ rfl
  | postWithPromise p => exact howner _ rfl
  | postSynchronously => exact howner _ rfl
  | dispatch => exact howner _ rfl
  | _ => exact Nat.zero_le _

/-- No move lets a task be queued more often than before. -/
theorem Move.posts (h : Move i m a ctl f m' nx) (t : Task) :
    m'.posted.count t + unnumbered m'.nextId t.id + weigh (posting t) nx.frames ≤
      m.posted.count t + unnumbered m.nextId t.id + posting t f := by
  cases h
  case client_enter c =>
    have hcall := posting_call t m.nextId c
    have hnumber := unnumbered_succ m.nextId t.id
    simp [-posting, Mem.posted, Mem.enqueued, List.filterMap_cons]
    omega
  case fn_enter id c =>
    have hcall := posting_call t m.nextId c
    have hnumber := unnumbered_succ m.nextId t.id
    simp [-posting, Mem.posted, Mem.enqueued, List.filterMap_cons]
    omega
  case completion_enter tok c =>
    have hcall := posting_call t m.nextId c
    have hnumber := unnumbered_succ m.nextId t.id
    simp [-posting, Mem.posted, Mem.enqueued, List.filterMap_cons]
    omega
  case exec_call t' c ac =>
    cases t' <;>
      simp [Mem.posted, Mem.enqueued, Task.body, List.filterMap_cons]
  case run_take h q hs hq hctl =>
    cases h <;>
      simp [Mem.posted, Mem.enqueued, Handler.frame, List.filterMap_cons]
  case post_enqueue t' =>
    simp [Mem.posted, Mem.enqueued, List.count_cons]
    omega
  case postToken t' tok =>
    simp [Mem.posted, Mem.enqueued, List.count_cons]
    omega
  all_goals simp [Mem.posted, Mem.enqueued, List.filterMap_cons]

/-- **Posted once.** No task is queued for immediate processing twice. -/
theorem posted_nodup (h : (machine name cap n).Reach ok s) : s.mem.posted.Nodup := by
  refine List.nodup_iff_count.mpr fun t => ?_
  have hle : s.mem.posted.count t + unnumbered s.mem.nextId t.id +
      tally (posting t) s.threads ≤ 1 := by
    refine reach_invariant
      (I := fun s => s.mem.posted.count t + unnumbered s.mem.nextId t.id +
        tally (posting t) s.threads ≤ 1) h ?_ ?_
    · rw [tally_initial rfl rfl]
      exact Nat.le_refl _
    · intro s l s' _ _ hs _ hI
      refine Nat.le_trans (conserved_le
        (R := fun m => m.posted.count t + unnumbered m.nextId t.id) hs ?_ ?_) hI
      · intro i a ctl f m nx _ hm
        exact hm.posts t
      · intro k ec t' _
        cases t' with
        | mk task tok =>
          cases tok <;>
            simp [Mem.posted, Mem.enqueued, Timer.handler, List.filterMap_cons]
  omega

/-! ## Invoked once -/

/-- The frames that may still call the function of submission `id`. -/
@[simp] def invoking (id : Nat) : Frame → Nat
  | .post _ t => if t.id = id then 1 else 0
  | .postToken t _ => if t.id = id then 1 else 0
  | .postWithPromise .start id' _ => if id' = id then 1 else 0
  | .postSynchronously .start id' => if id' = id then 1 else 0
  | .dispatch t => if t.id = id then 1 else 0
  | .postWithTimer _ t => if t.id = id then 1 else 0
  | .postWithTimerToken t _ => if t.id = id then 1 else 0
  | .execTask .entry t _ _ => if t.id = id then 1 else 0
  | .execTask .closing t _ _ => if t.id = id then 1 else 0
  | .execTask .call t _ _ => if t.id = id then 1 else 0
  | .syncCarrier .start id' => if id' = id then 1 else 0
  | .promiseCarrier .start id' _ => if id' = id then 1 else 0
  | .tokenHandler .start t _ => if t.id = id then 1 else 0
  | .onTimer t _ => if t.id = id then 1 else 0
  | .tokenTimer .start t _ _ => if t.id = id then 1 else 0
  | _ => 0

/-- The handlers that may. -/
@[simp] def Handler.invokes (id : Nat) : Handler → Bool
  | .execTask t => t.id == id
  | .token t _ => t.id == id
  | .timer t _ => t.id == id
  | .tokenTimer t _ _ => t.id == id
  | .stop => false

/-- The pending timers that may. -/
@[simp] def Timer.invokes (id : Nat) (t : Timer) : Bool := t.task.id == id

/-- The function of submission `id` is called. -/
@[simp] def Event.invoked (id : Nat) : Event → Bool
  | .began (.user id') _ => id' == id
  | _ => false

/-- Submission `id` is rejected. -/
@[simp] def Event.refused (id : Nat) : Event → Bool
  | .rejected t => t.id == id
  | _ => false

/-- How often the function of submission `id` was called, or the submission
rejected. -/
def Mem.spent (m : Mem) (id : Nat) : Nat :=
  m.trace.countP (Event.invoked id) + m.trace.countP (Event.refused id)

/-- What may still become of submission `id`, frames apart. -/
def Mem.held (m : Mem) (id : Nat) : Nat :=
  unnumbered m.nextId id + m.queue.countP (Handler.invokes id) +
    m.timers.countP (Timer.invokes id)

/-- A call has only the function of its own number to invoke. -/
theorem invoking_call (id next : Nat) (c : Call) :
    invoking id (c.frame next) ≤ if id = next then 1 else 0 := by
  have howner : (if next = id then 1 else 0) ≤ if id = next then 1 else 0 := by
    by_cases h : next = id
    · rw [if_pos h, if_pos h.symm]
    · rw [if_neg h]
      exact Nat.zero_le _
  cases c with
  | close => exact Nat.zero_le _
  | _ => exact howner

/-- Calling the function, or rejecting it, uses the submission up. -/
theorem Move.spends (h : Move i m a ctl f m' nx) (id : Nat) :
    m'.spent id + m'.held id + weigh (invoking id) nx.frames ≤
      m.spent id + m.held id + invoking id f := by
  unfold Mem.spent Mem.held
  cases h
  case client_enter c =>
    have hcall := invoking_call id m.nextId c
    have hnumber := unnumbered_succ m.nextId id
    simp [-invoking]
    omega
  case fn_enter id' c =>
    have hcall := invoking_call id m.nextId c
    have hnumber := unnumbered_succ m.nextId id
    simp [-invoking]
    omega
  case completion_enter tok c =>
    have hcall := invoking_call id m.nextId c
    have hnumber := unnumbered_succ m.nextId id
    simp [-invoking]
    omega
  case exec_call t c ac => cases t <;> simp [Task.body] <;> grind
  case run_take h q hs hq hctl =>
    cases h <;> simp [Handler.frame, hq, List.countP_cons] <;> omega
  case post_undo t | post_enqueue t | postToken t _ | postWithTimer_start t |
      postWithTimerToken t _ =>
    simp [List.countP_cons]
    omega
  all_goals
    simp
    try grind

/-- A timer that is over passes the submission on to its handler. -/
theorem expire_held (m : Mem) {k : Nat} {ec : Bool} {t : Timer} (ht : m.timers[k]? = some t)
    (id : Nat) : (m.expire k t ec).held id = m.held id := by
  obtain ⟨hk, rfl⟩ := List.getElem?_eq_some_iff.mp ht
  have hperm := (List.getElem_cons_eraseIdx_perm hk).countP_eq (Timer.invokes id)
  rw [List.countP_cons] at hperm
  have hhandler : Handler.invokes id (m.timers[k].handler ec) = Timer.invokes id m.timers[k] := by
    unfold Timer.handler
    split <;> rfl
  unfold Mem.held
  simp only [Mem.expire, Mem.asioPost, List.countP_append, List.countP_singleton, hhandler]
  omega

/-- **Invoked once.** The function of a submission is called at most once, and
not at all when the submission was rejected. -/
theorem spent_once (h : (machine name cap n).Reach ok s) (id : Nat) : s.mem.spent id ≤ 1 := by
  have hle : s.mem.spent id + s.mem.held id + tally (invoking id) s.threads ≤ 1 := by
    refine reach_invariant
      (I := fun s => s.mem.spent id + s.mem.held id + tally (invoking id) s.threads ≤ 1) h ?_ ?_
    · rw [tally_initial rfl rfl]
      exact Nat.le_refl _
    · intro s l s' _ _ hs _ hI
      refine Nat.le_trans (conserved_le (R := fun m => m.spent id + m.held id) hs ?_ ?_) hI
      · intro i a ctl f m nx _ hm
        exact hm.spends id
      · intro k ec t ht
        rw [expire_held s.mem ht]
        simp [Mem.spent]
  omega

/-! ## Handed over -/

/-- A call of `Post` with number `id`; with `dispatched` also one of `Dispatch`. -/
@[simp] def Event.hands (dispatched : Bool) (id : Nat) : Event → Bool
  | .called _ id' .post _ => id' == id
  | .called _ id' .dispatch _ => dispatched && id' == id
  | _ => false

/-- What becomes of the task of such a call: it is queued, rejected or dismissed. What
`Dispatch` does not hand on to `Post` or dismiss goes through `ExecTask_` at once. -/
@[simp] def Event.receives (dispatched : Bool) (id : Nat) : Event → Bool
  | .enqueued (.execTask (.user id')) => id' == id
  | .rejected (.user id') => id' == id
  | .dismissed .post (.user id') => id' == id
  | .dismissed .dispatch (.user id') => dispatched && id' == id
  | .entered (.user id') false => dispatched && id' == id
  | _ => false

/-- The frames that have it in hand. -/
@[simp] def handing (dispatched : Bool) (id : Nat) : Frame → Nat
  | .post _ (.user id') => if id' = id then 1 else 0
  | .dispatch (.user id') => if dispatched = true ∧ id' = id then 1 else 0
  | .execTask .entry (.user id') false _ => if dispatched = true ∧ id' = id then 1 else 0
  | _ => 0

/-- No move loses a task that was handed over. -/
theorem Move.hands (h : Move i m a ctl f m' nx) (dispatched : Bool) (id : Nat) :
    m'.trace.countP (Event.hands dispatched id) +
        (m.trace.countP (Event.receives dispatched id) + handing dispatched id f) ≤
      m.trace.countP (Event.hands dispatched id) +
        (m'.trace.countP (Event.receives dispatched id) +
          weigh (handing dispatched id) nx.frames) := by
  cases h
  case client_enter c | fn_enter c | completion_enter c =>
    cases c <;> simp [Call.frame, List.countP_cons]
    all_goals grind
  case exec_call t c ac => cases t <;> simp [Task.body]
  case run_take h q hs hq hctl => cases h <;> simp [Handler.frame]
  case post_dismissed t _ | post_open t _ | post_full t _ | post_room t _ | post_undo t |
      post_enqueue t | dispatch_dismissed t _ | dispatch_inline t _ _ | dispatch_post t _ _ |
      exec_entry t _ | timer_expired t =>
    cases t <;> simp
    all_goals grind
  all_goals simp

/-- **Handed over.** Every call of `Post` or `Dispatch` still has its task in hand, or
something has become of it. -/
theorem reach_handed (h : (machine name cap n).Reach ok s) (dispatched : Bool) (id : Nat) :
    s.mem.trace.countP (Event.hands dispatched id) ≤
      s.mem.trace.countP (Event.receives dispatched id) +
        tally (handing dispatched id) s.threads := by
  refine reach_invariant
    (I := fun s => s.mem.trace.countP (Event.hands dispatched id) ≤
      s.mem.trace.countP (Event.receives dispatched id) +
        tally (handing dispatched id) s.threads) h (Nat.zero_le _) ?_
  intro s l s' _ _ hs _ hI
  refine covered (A := fun m => m.trace.countP (Event.hands dispatched id))
    (B := fun m => m.trace.countP (Event.receives dispatched id)) hs ?_ ?_ hI
  · intro i a ctl f m nx _ hm
    exact hm.hands dispatched id
  · intro k ec t _
    simp [List.countP_cons]

end Warlib.Pipeline
