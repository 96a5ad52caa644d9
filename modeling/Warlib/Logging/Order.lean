import Mathlib.Data.List.Nodup
import Warlib.Logging.Locking
import Warlib.Machine.History

/-!
# The order of log events

Events get their place in the order when `DoSubmit` takes the lock, not when
they are built. A thread has at most one event that is built and not yet in
the order (`Frame.pending`), so its own events are in the order it submitted
them (`reach_calls`); and since every call of `Submit` has a number of its
own, no event is in the order twice (`order_nodup`).
-/

namespace Warlib.Logging

open Warlib.Machine

variable {set : Setting} {n i : Nat} {a : Act} {m m' : Shared} {f : Frame} {nx : Next Frame Empty}
  {ok : State → Step → Prop} {s s' : State} {l : Step}

/-! ## Submissions -/

/-- One call of `Submit`: the thread, the number of the call, and the event. -/
structure Submission where
  thread : Nat
  id : Nat
  log : Log
  deriving DecidableEq, Repr

/-- The event the handlers are told of, without the time. -/
def SubmitInfo.log (si : SubmitInfo) : Log := ⟨si.level, si.filter, si.buf⟩

@[simp] def Event.called? : Event → Option Submission
  | .called i id log => some ⟨i, id, log⟩
  | _ => none

@[simp] def Event.locked? : Event → Option Submission
  | .locked i id si => some ⟨i, id, si.log⟩
  | _ => none

/-- The calls of `Submit`, as they were made. -/
def Shared.calls (m : Shared) : List Submission := m.trace.filterMap Event.called?

/-- The order of the events: as `DoSubmit` took the lock for them. -/
def Shared.order (m : Shared) : List Submission := m.trace.filterMap Event.locked?

/-- The submission of a thread that has not got the lock yet. -/
def Frame.pending (i : Nat) : Frame → List Submission
  | .doSubmit (.build log) id => [⟨i, id, log⟩]
  | .doSubmit (.lock si) id => [⟨i, id, si.log⟩]
  | _ => []

/-- A frame under another one is not waiting for the lock. -/
theorem Frame.StandsOn.pending {g : Frame} (h : f.StandsOn g) (j : Nat) : g.pending j = [] := by
  cases g with
  | doSubmit pc id =>
    cases pc with
    | build log | lock si =>
      cases f <;> simp [Frame.StandsOn, Frame.Logs] at h
    | _ => rfl
  | _ => rfl

/-- Nothing pends below the top of a stack. -/
theorem pending_below (h : (machine set n).Reach ok s) {ctl : Ctl Empty} {rest : List Frame}
    (hth : s.threads[i]? = some ⟨ctl, f :: rest⟩) (j : Nat) :
    rest.flatMap (Frame.pending j) = [] := by
  rw [List.flatMap_eq_nil_iff]
  intro g hg
  obtain ⟨f', hf'⟩ := reach_below h hth hg
  exact hf'.pending j

/-- What a step does about the submissions of its thread. -/
inductive Submits (i : Nat) (m m' : Shared) (f : Frame) (nx : Next Frame Empty) : Prop
  | called (x : Submission) (hx : x.thread = i ∧ x.id = m.nextId)
      (hcalls : m'.calls = m.calls ++ [x]) (horder : m'.order = m.order)
      (hnext : m'.nextId = m.nextId + 1) (hf : f.pending i = [])
      (hnx : nx.frames.flatMap (Frame.pending i) = [x])
  | locked (x : Submission) (hx : x.thread = i) (hcalls : m'.calls = m.calls)
      (horder : m'.order = m.order ++ [x]) (hnext : m'.nextId = m.nextId)
      (hf : f.pending i = [x]) (hnx : nx.frames.flatMap (Frame.pending i) = [])
  | neither (hcalls : m'.calls = m.calls) (horder : m'.order = m.order)
      (hnext : m'.nextId = m.nextId) (hsame : nx.frames.flatMap (Frame.pending i) = f.pending i)

theorem Move.submits (h : Move set i m a f m' nx) : Submits i m m' f nx := by
  cases h with
  | client_submit log =>
    refine .called ⟨i, m.nextId, log⟩ ⟨rfl, rfl⟩ ?_ ?_ rfl rfl rfl
    · simp [Shared.calls, submitCall]
    · simp [Shared.order, submitCall]
  | statement_text buf =>
    refine .called ⟨i, m.nextId, _⟩ ⟨rfl, rfl⟩ ?_ ?_ rfl rfl rfl
    · simp [Shared.calls, submitCall]
    · simp [Shared.order, submitCall]
  | doSubmit_lock si id hfree =>
    refine .locked ⟨i, id, si.log⟩ rfl ?_ ?_ rfl rfl rfl
    · simp [Shared.calls]
    · simp [Shared.order]
  | doSubmit_deliver si k p id hp hlevel | handler_end entry | add_push p =>
    refine .neither ?_ ?_ rfl rfl
    · simp [Shared.calls]
    · simp [Shared.order]
  | _ => exact .neither rfl rfl rfl rfl

/-! ## Each thread's own order -/

/-- The submissions of one thread. -/
def ofThread (i : Nat) (xs : List Submission) : List Submission := xs.filter (·.thread = i)

theorem ofThread_append (xs : List Submission) (x : Submission) :
    ofThread i (xs ++ [x]) = ofThread i xs ++ if x.thread = i then [x] else [] := by
  rw [ofThread, List.filter_append, ofThread, List.filter_singleton]
  simp

/-- **A thread's own order.** The events of a thread are in the order it submitted
them; only the last may still be without a place. -/
theorem reach_calls (h : (machine set n).Reach ok s) {th : Thread Frame Empty}
    (hth : s.threads[i]? = some th) :
    ofThread i s.mem.calls = ofThread i s.mem.order ++ th.frames.flatMap (Frame.pending i) := by
  refine reach_invariant (I := fun s => ∀ i th, s.threads[i]? = some th →
    ofThread i s.mem.calls = ofThread i s.mem.order ++ th.frames.flatMap (Frame.pending i))
    h ?_ ?_ i th hth
  · intro i th hth
    rw [initial_thread hth]
    rfl
  · intro s l s' hr hs hI
    cases hs with
    | clock now => exact hI
    | @move i a ctl f rest m nx hth hm =>
      have hmine := hI i _ hth
      have hrest := pending_below hr hth i
      rw [List.flatMap_cons, hrest, List.append_nil] at hmine
      refine forall_set (T := fun j th => ofThread j m.calls = ofThread j m.order ++
        th.frames.flatMap (Frame.pending j)) ?_ ?_
      · rw [Next.resume_frames, List.flatMap_append, hrest, List.append_nil]
        cases hm.submits with
        | called x hx hcalls horder hnext hf hnx =>
          rw [hcalls, horder, hnx, ofThread_append, if_pos hx.1, hmine, hf, List.append_nil]
        | locked x hx hcalls horder hnext hf hnx =>
          rw [hcalls, horder, hnx, ofThread_append, if_pos hx, hmine, hf, List.append_nil]
        | neither hcalls horder hnext hsame => rw [hcalls, horder, hsame, hmine]
      · intro j th hj hthj
        have hother := hI j th hthj
        cases hm.submits with
        | called x hx hcalls horder hnext hf hnx =>
          rw [hcalls, horder, ofThread_append, hx.1, if_neg (Ne.symm hj), List.append_nil, hother]
        | locked x hx hcalls horder hnext hf hnx =>
          rw [hcalls, horder, ofThread_append, hx, if_neg (Ne.symm hj), List.append_nil, hother]
        | neither hcalls horder hnext hsame => rw [hcalls, horder, hother]

/-! ## Every event once -/

/-- The numbers of the calls go up. -/
theorem reach_ids (h : (machine set n).Reach ok s) :
    (∀ x ∈ s.mem.calls, x.id < s.mem.nextId) ∧ (s.mem.calls.map Submission.id).Nodup := by
  refine reach_invariant (I := fun s => (∀ x ∈ s.mem.calls, x.id < s.mem.nextId) ∧
    (s.mem.calls.map Submission.id).Nodup) h ⟨by simp [Shared.calls, initial], by
      simp [Shared.calls, initial]⟩ ?_
  intro s l s' _ hs hI
  cases hs with
  | clock now => exact hI
  | @move i a ctl f rest m nx hth hm =>
    obtain ⟨hbelow, hnodup⟩ := hI
    show (∀ x ∈ m.calls, x.id < m.nextId) ∧ (m.calls.map Submission.id).Nodup
    cases hm.submits with
    | called x hx hcalls horder hnext hf hnx =>
      rw [hcalls, hnext]
      constructor
      · intro y hy
        rcases List.mem_append.mp hy with hy | hy
        · exact Nat.lt_succ_of_lt (hbelow y hy)
        · rw [List.mem_singleton.mp hy, hx.2]
          exact Nat.lt_succ_self _
      · rw [List.map_append, List.nodup_append]
        refine ⟨hnodup, List.nodup_singleton _, ?_⟩
        intro y hy z hz
        obtain ⟨w, hw, rfl⟩ := List.mem_map.mp hy
        rw [List.map_singleton, List.mem_singleton] at hz
        rw [hz, hx.2]
        exact Nat.ne_of_lt (hbelow w hw)
    | locked x hx hcalls horder hnext hf hnx =>
      rw [hcalls, hnext]
      exact ⟨hbelow, hnodup⟩
    | neither hcalls horder hnext hsame =>
      rw [hcalls, hnext]
      exact ⟨hbelow, hnodup⟩

/-- How often the call `id` waits at a frame. -/
def Frame.waiting (id : Nat) (f : Frame) : Nat := ((f.pending 0).map Submission.id).count id

/-- Whose submission it is makes no difference. -/
theorem pending_ids (i : Nat) (fs : List Frame) (id : Nat) :
    ((fs.flatMap (Frame.pending i)).map Submission.id).count id = weigh (Frame.waiting id) fs := by
  have hframe : ∀ f : Frame, (f.pending i).map Submission.id = (f.pending 0).map Submission.id := by
    intro f
    cases f with
    | doSubmit pc id => cases pc <;> rfl
    | _ => rfl
  induction fs with
  | nil => rfl
  | cons f fs ih =>
    rw [List.flatMap_cons, List.map_append, List.count_append, ih, hframe, weigh_cons]
    rfl

/-- A call is made, and waits or has its place. -/
theorem reach_placed (h : (machine set n).Reach ok s) (id : Nat) :
    (s.mem.calls.map Submission.id).count id =
      (s.mem.order.map Submission.id).count id + tally (Frame.waiting id) s.threads := by
  refine reach_invariant (I := fun s => (s.mem.calls.map Submission.id).count id =
    (s.mem.order.map Submission.id).count id + tally (Frame.waiting id) s.threads) h ?_ ?_
  · have hzero : tally (Frame.waiting id) (initial set n).threads = 0 := by
      refine tally_eq_zero fun th hth f hf => ?_
      obtain ⟨i, hi⟩ := List.getElem?_of_mem hth
      rw [initial_thread hi] at hf
      rw [List.mem_singleton.mp hf]
      rfl
    rw [hzero]
    rfl
  · intro s l s' hr hs hI
    cases hs with
    | clock now => exact hI
    | @move i a ctl f rest m nx hth hm =>
      obtain ⟨r, hbefore, hafter⟩ := tally_resume (Frame.waiting id) hth nx
      have hf := pending_ids i [f] id
      have hnx := pending_ids i nx.frames id
      rw [List.flatMap_singleton, weigh_cons, weigh_nil, Nat.add_zero] at hf
      show (m.calls.map Submission.id).count id = (m.order.map Submission.id).count id + _
      rw [hafter]
      rw [hbefore] at hI
      cases hm.submits with
      | called x hx hcalls horder hnext hpending hpending' =>
        rw [hpending] at hf
        rw [hpending'] at hnx
        rw [hcalls, horder, List.map_append, List.count_append, hI, ← hf, ← hnx]
        simp only [List.map_nil, List.count_nil, List.map_singleton]
        omega
      | locked x hx hcalls horder hnext hpending hpending' =>
        rw [hpending] at hf
        rw [hpending'] at hnx
        rw [hcalls, horder, List.map_append, List.count_append, hI, ← hf, ← hnx]
        simp only [List.map_nil, List.count_nil, List.map_singleton]
        omega
      | neither hcalls horder hnext hsame =>
        rw [hsame] at hnx
        rw [hcalls, horder, hI, ← hnx, hf]

/-- **No event is in the order twice.** -/
theorem order_nodup (h : (machine set n).Reach ok s) :
    (s.mem.order.map Submission.id).Nodup := by
  rw [List.nodup_iff_count_le_one]
  intro id
  have hcalled := List.nodup_iff_count_le_one.mp (reach_ids h).2 id
  rw [reach_placed h id] at hcalled
  omega

end Warlib.Logging
