import Warlib.ErrorHandling
import Warlib.Machine.Compensation
import Warlib.Machine.Lts

/-!
# `transaction.h` — undo in a destructor

A `Transaction` collects functions that undo what has been done so far, and
calls them when it is destroyed without a `Commit`. `AddUndo` inserts at the
front, so the loop of the destructor goes backwards through what was
registered; each undo finds the state its own step left, and gives back the
one before it (`transaction_rolls_back`).

The class exists to run while the stack is unwound. There is no `catch` around
the call in the loop, and a destructor is `noexcept`: an undo that throws
ends the process, and those registered before it are never called
(`rollback_calls_all`).

Mirroring notes:

* An `undo_func_t` is what a call of it does to the state and the exception it
  ends by, if it does. `auto undo` copies the function object, which does not
  throw here.
* A `pair` is a step of the program and the `AddUndo` right after it; `history`
  exists for the statements only.
* The log statement has no effect here.
-/

namespace Warlib.Rollback

open Warlib.Machine

universe u

variable {σ : Type u}

/-! ## The class -/

/-- `Transaction`. -/
structure Transaction (σ : Type u) where
  undoers : List (Undo σ Exn) := []
  committed : Bool := false

/-- `Commit()`. -/
def Transaction.commit (t : Transaction σ) : Transaction σ := { t with committed := true }

/-- `AddUndo(undo)`: `undoers_.insert(undoers_.begin(), undo)`. -/
def Transaction.addUndo (t : Transaction σ) (undo : Undo σ Exn) : Transaction σ :=
  { t with undoers := undo :: t.undoers }

/-- How a destructor ends: it is done, and an exception that was unwinding the stack
goes on; or an exception met its `noexcept`, and the process is terminated. -/
inductive Ending
  | done (uncaught : Option Exn)
  | terminated (e : Exn)
  deriving DecidableEq, Repr

/-- What a destructor did. -/
structure Destruction (σ : Type u) where
  invoked : List (Undo σ Exn)
  state : σ
  ending : Ending

/-- `~Transaction()`, while `uncaught` is unwinding the stack, if something is. -/
def Transaction.destroy (t : Transaction σ) (uncaught : Option Exn) (st : σ) : Destruction σ :=
  if t.committed then ⟨[], st, .done uncaught⟩
  else
    let loop := unwind t.undoers st
    match loop.failed with
    | none => ⟨loop.called, loop.state, .done uncaught⟩
    | some e => ⟨loop.called, loop.state, .terminated e⟩

/-! ## A program that uses it -/

/-- A step with its undo, or `Commit`. -/
inductive Op (σ : Type u)
  | pair (step : σ → σ) (undo : Undo σ Exn)
  | commit

/-- The undo that is registered. -/
def Op.undo? : Op σ → Option (Undo σ Exn)
  | .pair _ undo => some undo
  | .commit => none

/-- The state of the program, its transaction, and what it has done. -/
structure Program (σ : Type u) where
  state : σ
  transaction : Transaction σ := {}
  history : List (Op σ) := []

/-- The undos, in the order they were registered. -/
def Program.registered (p : Program σ) : List (Undo σ Exn) := p.history.filterMap Op.undo?

/-- One operation. -/
def Program.perform (p : Program σ) : Op σ → Program σ
  | .pair step undo =>
    { state := step p.state
      transaction := p.transaction.addUndo undo
      history := p.history ++ [.pair step undo] }
  | .commit =>
    { p with transaction := p.transaction.commit, history := p.history ++ [.commit] }

/-- Any operations, one after the other, from the state `st`. -/
def usage (st : σ) : Lts (Program σ) (Op σ) where
  init p := p = { state := st }
  next p op := some (p.perform op)

/-- The undo of a step, called right after it, gives back the state before it. -/
def Undoes (p : Program σ) : Op σ → Prop
  | .pair step undo => undo (step p.state) = (p.state, none)
  | .commit => True

variable {st : σ} {ok : Program σ → Op σ → Prop} {p : Program σ}

/-- One step more, and its undo. -/
theorem reach_pair (h : (usage st).Reach ok p) (step : σ → σ) (undo : Undo σ Exn)
    (hok : ok p (.pair step undo)) : (usage st).Reach ok (p.perform (.pair step undo)) :=
  h.step hok rfl

/-! ## What the transaction knows -/

/-- The transaction has the undos in reverse order, and knows of a commit. -/
structure Books (p : Program σ) : Prop where
  undoers : p.transaction.undoers = p.registered.reverse
  committed : p.transaction.committed = true ↔ Op.commit ∈ p.history

theorem Books.perform (h : Books p) (op : Op σ) : Books (p.perform op) := by
  cases op with
  | pair step undo =>
    refine ⟨?_, ?_⟩
    · have hlast : (p.perform (.pair step undo)).registered = p.registered ++ [undo] := by
        simp [Program.registered, Program.perform, Op.undo?]
      rw [hlast, List.reverse_append]
      show undo :: p.transaction.undoers = undo :: p.registered.reverse
      rw [h.undoers]
    · show p.transaction.committed = true ↔ Op.commit ∈ p.history ++ [.pair step undo]
      rw [h.committed]
      simp
  | commit =>
    refine ⟨?_, ?_⟩
    · have hsame : (p.perform .commit).registered = p.registered := by
        simp [Program.registered, Program.perform, Op.undo?]
      rw [hsame]
      exact h.undoers
    · show true = true ↔ Op.commit ∈ p.history ++ [.commit]
      simp

theorem reach_books (h : (usage st).Reach ok p) : Books p := by
  refine h.invariant ?_ ?_
  · rintro p rfl
    exact ⟨rfl, by simp⟩
  · intro p op p' _ _ hnext hI
    rw [← Option.some.inj hnext]
    exact hI.perform op

/-- What has been registered leads back to the beginning. -/
theorem reach_restores (h : (usage st).Reach Undoes p) :
    Restores p.transaction.undoers p.state st := by
  refine h.invariant (I := fun p => Restores p.transaction.undoers p.state st) ?_ ?_
  · rintro p rfl
    exact .nil st
  · intro p op p' _ hok hnext hI
    rw [← Option.some.inj hnext]
    cases op with
    | pair step undo => exact hI.push hok
    | commit => exact hI

/-! ## The destructor -/

theorem destroy_committed (h : p.transaction.committed = true) (uncaught : Option Exn) :
    p.transaction.destroy uncaught p.state = ⟨[], p.state, .done uncaught⟩ := by
  rw [Transaction.destroy, if_pos h]

/-- **A transaction rolls back to where it started.** After any steps, each followed by
the `AddUndo` of what takes it back: without a `Commit`, the destructor leaves
the state the steps began with; with one, the state they left. -/
theorem transaction_rolls_back (h : (usage st).Reach Undoes p) (uncaught : Option Exn) :
    (Op.commit ∉ p.history →
      (p.transaction.destroy uncaught p.state).state = st ∧
        (p.transaction.destroy uncaught p.state).ending = .done uncaught) ∧
    (Op.commit ∈ p.history →
      (p.transaction.destroy uncaught p.state).state = p.state ∧
        (p.transaction.destroy uncaught p.state).ending = .done uncaught) := by
  have hbooks := reach_books h
  constructor
  · intro hno
    have hopen : ¬p.transaction.committed = true := fun hc => hno (hbooks.committed.mp hc)
    obtain ⟨hstate, hfailed⟩ := reach_restores h
    rw [Transaction.destroy, if_neg hopen]
    dsimp only
    rw [hfailed]
    exact ⟨hstate, rfl⟩
  · intro hcommit
    rw [destroy_committed (hbooks.committed.mpr hcommit)]
    exact ⟨rfl, rfl⟩

/-- Two steps that do not commute, and a third: the undos take them back. -/
theorem transaction_rolls_back_three :
    ∃ p : Program Nat, (usage 5).Reach Undoes p ∧ p.state = 21 ∧
      (p.transaction.destroy none p.state).state = 5 := by
  have hfirst : (usage (5 : Nat)).Reach Undoes { state := 5 } := .start rfl
  have hsecond := reach_pair hfirst (· * 2) (fun n => (n / 2, none)) (by simp [Undoes])
  have hthird := reach_pair hsecond (· * 2) (fun n => (n / 2, none)) (by simp [Undoes])
  have hlast := reach_pair hthird (· + 1) (fun n => (n - 1, none)) (by simp [Undoes])
  exact ⟨_, hlast, rfl, ((transaction_rolls_back hlast none).1 (by simp [Program.perform])).1⟩

/-- **Failing undos.** Without a `Commit`, the destructor calls every registered undo,
the last one first, and ends normally, if and only if none of them throws in
the state those called before it leave. -/
theorem rollback_calls_all (h : (usage st).Reach ok p) (hno : Op.commit ∉ p.history)
    (uncaught : Option Exn) :
    (p.transaction.destroy uncaught p.state).invoked = p.registered.reverse ∧
        (p.transaction.destroy uncaught p.state).ending = .done uncaught ↔
      Quiet p.registered.reverse p.state := by
  have hbooks := reach_books h
  have hopen : ¬p.transaction.committed = true := fun hc => hno (hbooks.committed.mp hc)
  rw [← unwind_complete_iff, Transaction.destroy, if_neg hopen, hbooks.undoers]
  dsimp only
  cases (unwind p.registered.reverse p.state).failed with
  | none => simp
  | some e => simp

/-- Two undos that do not throw, while an exception is unwinding the stack. -/
theorem rollback_calls_all_two :
    ∃ p : Program Nat, (usage 0).Reach (fun _ _ => True) p ∧
      (p.transaction.destroy (some .futureError) p.state).invoked = p.registered.reverse ∧
      (p.transaction.destroy (some .futureError) p.state).ending = .done (some .futureError) ∧
      p.registered.length = 2 := by
  have hfirst : (usage (0 : Nat)).Reach (fun _ _ => True) { state := 0 } := .start rfl
  have hsecond := reach_pair hfirst (· + 1) (fun n => (n - 1, none)) trivial
  have hlast := reach_pair hsecond (· + 1) (fun n => (n - 1, none)) trivial
  obtain ⟨hall, hdone⟩ := (rollback_calls_all hlast (by simp [Program.perform])
    (some .futureError)).mpr ⟨rfl, rfl, trivial⟩
  exact ⟨_, hlast, hall, hdone, rfl⟩

/-- The undo of the second step throws: the first step is never undone, and the process
is terminated. -/
theorem rollback_stops_at_failure :
    ∃ p : Program Nat, (usage 0).Reach (fun _ _ => True) p ∧ Op.commit ∉ p.history ∧
      p.registered.length = 2 ∧
      (p.transaction.destroy none p.state).invoked.length = 1 ∧
      (p.transaction.destroy none p.state).state = 2 ∧
      (p.transaction.destroy none p.state).ending = .terminated (.user .std 0) := by
  have hfirst : (usage (0 : Nat)).Reach (fun _ _ => True) { state := 0 } := .start rfl
  have hsecond := reach_pair hfirst (· + 1) (fun n => (n - 1, none)) trivial
  have hlast := reach_pair hsecond (· + 1) (fun n => (n, some (.user .std 0))) trivial
  exact ⟨_, hlast, by simp [Program.perform], rfl, rfl, rfl, rfl⟩

end Warlib.Rollback
