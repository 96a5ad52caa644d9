import Warlib.Pipeline.Shutdown

/-!
# The fate of every submission

What `Submissions.lean` bounds, this file counts. A call of an entry point
other than `Close` gives a task a number; from then on the task is in exactly
one place: in the call, in the run queue, in a pending timer or on its way on
the worker — or it has met one fate. It was invoked, rejected for want of
capacity, dismissed at one of the four tests of `closing_`, or its timer
ended with an error (`one_fate`).

`awaiting` is `invoking` without the handlers of timers that ended with an
error: those have met their fate when the loop takes them. Every move keeps
the account (`Move.fates`), with no case left over; so nothing the code does
with a task can lose it silently or do it twice. What remains without a fate
when all is over is what stands behind the shutdown handler, or in a timer
nobody waits for any more (`left_without_fate`).
-/

namespace Warlib.Pipeline

open Warlib.Machine

variable {name : String} {cap : BitVec 64} {n : Nat} {ok : State → Step → Prop}
  {s s' : State} {l : Step} {i : Nat} {m m' : Mem} {a : Act} {ctl : Ctl Exn} {f : Frame}
  {nx : Next Frame Exn}

/-! ## Fates -/

/-- How a submission can end: its function was called, `AddingTask` threw,
`closing_` was set, or the wait for its timer ended with an error. -/
inductive Fate
  | invoked
  | rejected
  | dismissed (site : Site)
  | failed
  deriving DecidableEq, Repr

/-- A handler that will not execute the task of submission `id`: `OnTimer_` is
told of an error. -/
@[simp] def Handler.fails (id : Nat) : Handler → Bool
  | .timer t ec => ec && t.id == id
  | .tokenTimer t _ ec => ec && t.id == id
  | _ => false

/-- The fate an event is for submission `id`. -/
@[simp] def Event.fate? (id : Nat) : Event → Option Fate
  | .began (.user id') _ => if id' = id then some .invoked else none
  | .rejected t => if t.id = id then some .rejected else none
  | .dismissed site t => if t.id = id then some (.dismissed site) else none
  | .taken h => if h.fails id = true then some .failed else none
  | _ => none

/-- The fates submission `id` has met. -/
def Mem.fates (m : Mem) (id : Nat) : List Fate := m.trace.filterMap (Event.fate? id)

/-- The call with number `id` is one of `Close`, which submits nothing. -/
@[simp] def Event.closes (id : Nat) : Event → Bool
  | .called _ id' .close _ => id' == id
  | _ => false

/-- The call with number `id`. -/
@[simp] def Event.numbered (id : Nat) : Event → Bool
  | .called _ id' _ _ => id' == id
  | _ => false

/-- The frames that have submission `id` in hand and have not decided its fate. -/
@[simp] def awaiting (id : Nat) : Frame → Nat
  | .onTimer _ true => 0
  | .tokenTimer .start _ _ true => 0
  | f => invoking id f

/-! ## The account of one submission -/

/-- The parts of the account: the fates, the calls of `Close`, and what is not
in a frame. -/
def Mem.account (m : Mem) (id : Nat) : Nat :=
  (m.fates id).length + m.trace.countP (Event.closes id) + m.held id

/-- A call has just its own number in hand, or is one of `Close`. -/
theorem awaiting_call (id next : Nat) (c : Call) :
    awaiting id (c.frame next) + (if c = .close ∧ next = id then 1 else 0) =
      if id = next then 1 else 0 := by
  by_cases h : next = id
  · subst h
    cases c <;> simp [Call.frame]
  · have h' : id ≠ next := fun he => h he.symm
    cases c <;> simp [Call.frame, h, h']

/-- Entering an entry point hands its number over to the call. -/
theorem enter_account (caller : Option Nat) (c : Call) (id : Nat) :
    (m.enter caller c).account id + awaiting id (c.frame m.nextId) = m.account id := by
  have hcall := awaiting_call id m.nextId c
  have hnumber := unnumbered_succ m.nextId id
  have hcloses : (m.enter caller c).trace.countP (Event.closes id) =
      m.trace.countP (Event.closes id) + if c = .close ∧ m.nextId = id then 1 else 0 := by
    cases c <;> simp [List.countP_append, List.countP_cons]
  have hfates : (m.enter caller c).fates id = m.fates id := by
    simp [Mem.fates, List.filterMap_cons]
  have hheld : (m.enter caller c).held id + (if id = m.nextId then 1 else 0) = m.held id := by
    simp only [Mem.held, Mem.enter]
    omega
  rw [Mem.account, Mem.account, hcloses, hfates]
  omega

/-- **The account of a move.** Whatever a step does with a submission is one of:
handing it on, or its fate. -/
theorem Move.fates (h : Move i m a ctl f m' nx) (id : Nat) :
    m'.account id + weigh (awaiting id) nx.frames = m.account id + awaiting id f := by
  cases h
  case client_enter c =>
    exact enter_account none c id
  case fn_enter id' c =>
    exact enter_account (some id') c id
  case completion_enter tok c =>
    exact enter_account none c id
  -- being called is the fate of a task
  case exec_call t c ac =>
    cases t <;> simp [Mem.account, Mem.fates, Mem.held, Task.body, List.filterMap_cons]
    all_goals grind
  case run_take h q hs hq hctl =>
    cases h <;>
      simp [Mem.account, Mem.fates, Mem.held, Handler.frame, hq, List.filterMap_cons,
        List.countP_cons]
    all_goals grind
  all_goals
    simp [Mem.account, Mem.fates, Mem.held, List.filterMap_cons, List.countP_cons]
    try grind

/-- A timer that is over stays with its submission. -/
theorem expire_account (m : Mem) {k : Nat} {ec : Bool} {t : Timer} (ht : m.timers[k]? = some t)
    (id : Nat) : (m.expire k t ec).account id = m.account id := by
  rw [Mem.account, Mem.account, expire_held m ht]
  simp [Mem.fates]

/-- Every number is at every moment in one place, or has met one fate. -/
theorem reach_fates (h : (machine name cap n).Reach ok s) (id : Nat) :
    s.mem.account id + tally (awaiting id) s.threads = 1 := by
  have hbooks : (fun _ : Mem => 1) s.mem =
      s.mem.account id + tally (awaiting id) s.threads := by
    refine reach_invariant
      (I := fun s => 1 = s.mem.account id + tally (awaiting id) s.threads) h ?_ ?_
    · rw [tally_initial rfl rfl]
      rfl
    · intro s l s' _ _ hs _ hI
      refine balanced (A := fun _ => 1) (B := fun m => m.account id) hs ?_ ?_ hI
      · intro i a ctl f m nx _ hm
        rw [hm.fates id]
      · intro k ec t ht
        rw [expire_account s.mem ht]
  exact hbooks.symm

/-! ## Numbers -/

/-- A number is given to one call. -/
theorem Move.numbers (h : Move i m a ctl f m' nx) (id : Nat) :
    m'.trace.countP (Event.numbered id) + unnumbered m'.nextId id =
      m.trace.countP (Event.numbered id) + unnumbered m.nextId id := by
  have hnumber := unnumbered_succ m.nextId id
  cases h
  case client_enter c | fn_enter c | completion_enter c =>
    simp [List.countP_cons]
    grind
  all_goals simp

theorem reach_numbered (h : (machine name cap n).Reach ok s) (id : Nat) :
    s.mem.trace.countP (Event.numbered id) + unnumbered s.mem.nextId id = 1 := by
  refine reach_mem (I := fun m => m.trace.countP (Event.numbered id) + unnumbered m.nextId id = 1)
    h rfl ?_ ?_
  · intro i a ctl f m m' nx hm hI
    exact (hm.numbers id).trans hI
  · intro m k t ec hI
    simpa using hI

/-- A call that is not one of `Close` leaves no call of `Close` its number. -/
theorem not_closes (h : (machine name cap n).Reach ok s) {caller : Option Nat} {id q : Nat}
    {c : Call} (hcall : .called caller id c q ∈ s.mem.trace) (hc : c ≠ .close) :
    s.mem.trace.countP (Event.closes id) = 0 := by
  have hone := reach_numbered h id
  obtain ⟨pre, post, hsplit⟩ := List.append_of_mem hcall
  have hle : ∀ tr : List Event, tr.countP (Event.closes id) ≤ tr.countP (Event.numbered id) := by
    intro tr
    refine List.countP_mono_left fun e _ he => ?_
    cases e with
    | called caller id' c q => cases c <;> simp_all
    | _ => simp at he
  have hpre := hle pre
  have hpost := hle post
  -- this call has the number, so no other one does
  have hthis : Event.closes id (.called caller id c q) = false := by
    cases c <;> simp_all
  rw [hsplit] at hone ⊢
  rw [List.countP_append, List.countP_cons_of_pos (by simp)] at hone
  rw [List.countP_append, List.countP_cons_of_neg (by rw [hthis]; simp)]
  omega

/-! ## One fate -/

/-- **One fate.** Under any interleaving of clients, worker, timers and `Close`,
every call of an entry point other than `Close` has at every moment met one
fate — invoked, rejected, dismissed, failed — or none yet, and then it is in
one place: on its way in some frame, in the run queue, or in a pending timer. -/
theorem one_fate (h : (machine name cap n).Reach ok s) {caller : Option Nat} {id q : Nat}
    {c : Call} (hcall : .called caller id c q ∈ s.mem.trace) (hc : c ≠ .close) :
    (s.mem.fates id).length + s.mem.queue.countP (Handler.invokes id) +
      s.mem.timers.countP (Timer.invokes id) + tally (awaiting id) s.threads = 1 := by
  have haccount := reach_fates h id
  have hcloses := not_closes h hcall hc
  have hgiven : unnumbered s.mem.nextId id = 0 := by
    have hone := reach_numbered h id
    have hpos : 0 < s.mem.trace.countP (Event.numbered id) :=
      List.countP_pos_iff.mpr ⟨_, hcall, by simp⟩
    omega
  rw [Mem.account, Mem.held, hcloses, hgiven] at haccount
  omega

/-- A task is dismissed by `Post`, another one's timer fails, and a third is invoked:
one fate each. -/
theorem one_fate_three : ∃ s, (machine "tasks" 1 1).Reach (fun _ _ => True) s ∧
    s.mem.fates 0 = [.failed] ∧ s.mem.fates 1 = [.invoked] ∧ s.mem.fates 3 = [.dismissed .post] ∧
    s.mem.queue.countP (Handler.invokes 0) = 0 := by
  let worker : Nat → List Step := fun k => List.replicate k (.thread 0 .code)
  let client : Nat → List Step := fun k => List.replicate k (.thread 1 .code)
  let steps : List Step := [.thread 1 (.call .postWithTimer)] ++ client 2 ++ [.env (0, true)] ++
    [.thread 1 (.call .dispatch)] ++ client 4 ++ worker 6 ++ [.thread 1 (.call .close)] ++
    client 3 ++ [.thread 1 (.call .post)] ++ client 1
  have hrun : ∃ s, (machine "tasks" 1 1).guardedRun (fun _ _ => True) (initial "tasks" 1 1) steps =
      some s ∧ s.mem.fates 0 = [.failed] ∧ s.mem.fates 1 = [.invoked] ∧
      s.mem.fates 3 = [.dismissed .post] ∧ .called none 0 .postWithTimer 0 ∈ s.mem.trace :=
    ⟨_, rfl, by decide, by decide, by decide, by decide⟩
  obtain ⟨s, hs, hfailed, hinvoked, hdismissed, hcall⟩ := hrun
  have hreach := reach_schedule (by decide) hs
  have hone := one_fate hreach hcall (by simp)
  rw [hfailed, List.length_singleton] at hone
  exact ⟨s, hreach, hfailed, hinvoked, hdismissed, by omega⟩

/-! ## When all is over -/

/-- The worker's loop has ended, and every other thread is in user code, or waits
in `PostSynchronously` for its promise. -/
structure Finished (s : State) : Prop where
  ended : s.threads[0]?.map Thread.frames = some []
  idle : ∀ th ∈ s.threads, ∀ f ∈ th.frames, f = .client ∨ ∃ id, f = .postSynchronously .waiting id

/-- Nobody has a submission in hand then. -/
theorem Finished.awaiting_zero (hend : Finished s) (id : Nat) :
    tally (awaiting id) s.threads = 0 := by
  refine tally_eq_zero fun th hth f hf => ?_
  rcases hend.idle th hth f hf with rfl | ⟨id', rfl⟩
  · rfl
  · rfl

/-- **Without a fate.** When the worker's loop has ended and no call is under way,
a submission that has met no fate is in just one place: in a handler queued
behind a shutdown handler, or in a pending timer; and one that has met its fate
is in neither. -/
theorem left_without_fate (h : (machine name cap n).Reach ok s) (hend : Finished s)
    {caller : Option Nat} {id q : Nat} {c : Call} (hcall : .called caller id c q ∈ s.mem.trace)
    (hc : c ≠ .close) :
    (∃ fate, s.mem.fates id = [fate] ∧ (∀ hd ∈ s.mem.queue, hd.invokes id = false) ∧
        ∀ t ∈ s.mem.timers, t.invokes id = false) ∨
      s.mem.fates id = [] ∧
        s.mem.queue.countP (Handler.invokes id) + s.mem.timers.countP (Timer.invokes id) = 1 ∧
        ((∃ hd ∈ s.mem.queue, hd.invokes id = true ∧
            ∃ pre post, s.mem.trace = pre ++ .enqueued hd :: post ∧ .enqueued .stop ∈ pre) ∨
          ∃ t ∈ s.mem.timers, t.invokes id = true) := by
  have hone := one_fate h hcall hc
  rw [hend.awaiting_zero id, Nat.add_zero] at hone
  cases hfates : s.mem.fates id with
  | cons fate fates =>
    rw [hfates, List.length_cons] at hone
    have hnil : fates = [] := List.length_eq_zero_iff.mp (by omega)
    have hqueue : s.mem.queue.countP (Handler.invokes id) = 0 := by omega
    have htimers : s.mem.timers.countP (Timer.invokes id) = 0 := by omega
    refine Or.inl ⟨fate, by rw [hnil], fun hd hmem => ?_, fun t hmem => ?_⟩
    · simpa using List.countP_eq_zero.mp hqueue hd hmem
    · simpa using List.countP_eq_zero.mp htimers t hmem
  | nil =>
    rw [hfates, List.length_nil, Nat.zero_add] at hone
    refine Or.inr ⟨rfl, hone, ?_⟩
    by_cases hqueue : 0 < s.mem.queue.countP (Handler.invokes id)
    · obtain ⟨hd, hmem, hinvokes⟩ := List.countP_pos_iff.mp hqueue
      exact Or.inl ⟨hd, hmem, hinvokes, behind_stop h (fun hl => hl.2 hend.ended) hmem⟩
    · have htimers : 0 < s.mem.timers.countP (Timer.invokes id) := by omega
      exact Or.inr (List.countP_pos_iff.mp htimers)

/-- A task on a timer, then `Close`: the timer is all that is left of it. -/
theorem left_without_fate_timer : ∃ s, (machine "tasks" 1 1).Reach (fun _ _ => True) s ∧
    Finished s ∧ s.mem.queue = [] ∧ s.mem.fates 0 = [] ∧
    s.mem.timers.countP (Timer.invokes 0) = 1 ∧ ∃ t ∈ s.mem.timers, t.invokes 0 = true := by
  let worker : Nat → List Step := fun k => List.replicate k (.thread 0 .code)
  let client : Nat → List Step := fun k => List.replicate k (.thread 1 .code)
  let steps : List Step := [.thread 1 (.call .postWithTimer)] ++ client 2 ++
    [.thread 1 (.call .close)] ++ client 3 ++ worker 6
  have hrun : ∃ s, (machine "tasks" 1 1).guardedRun (fun _ _ => True) (initial "tasks" 1 1) steps =
      some s ∧ s.threads = [⟨.ret, []⟩, ⟨.ret, [.client]⟩] ∧ s.mem.queue = [] ∧
      s.mem.fates 0 = [] ∧ .called none 0 .postWithTimer 0 ∈ s.mem.trace :=
    ⟨_, rfl, rfl, rfl, by decide, by decide⟩
  obtain ⟨s, hs, hthreads, hqueue, hnone, hcall⟩ := hrun
  have hreach := reach_schedule (by decide) hs
  have hend : Finished s := by
    refine ⟨by rw [hthreads]; rfl, fun th hth f hf => Or.inl ?_⟩
    rw [hthreads] at hth
    rcases List.mem_pair.mp hth with rfl | rfl
    · exact absurd hf List.not_mem_nil
    · exact List.mem_singleton.mp hf
  refine ⟨s, hreach, hend, hqueue, hnone, ?_⟩
  rcases left_without_fate hreach hend hcall (by simp) with ⟨fate, hfate, -⟩ | ⟨-, hone, hleft⟩
  · exact absurd (hnone.symm.trans hfate) (by simp)
  · rw [hqueue, List.countP_nil, Nat.zero_add] at hone
    refine ⟨hone, ?_⟩
    rcases hleft with ⟨hd, hmem, -⟩ | htimer
    · rw [hqueue] at hmem
      exact absurd hmem List.not_mem_nil
    · exact htimer

end Warlib.Pipeline
