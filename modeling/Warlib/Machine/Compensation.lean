/-!
# Compensations

A library module: operations on a state that are taken back by a list of
compensations, the last one first. A compensation may fail, and the first one
that does ends the unwinding (`unwind`).

`Restores us st goal` says that unwinding leads back to `goal`. A compensation
of one more operation goes in front (`Restores.push`), and this is the whole
argument for taking back any number of them. `unwind_complete_iff` says when
an unwinding gets to its end.
-/

namespace Warlib.Machine

universe u v

variable {σ : Type u} {ε : Type v}

/-- A compensation: the state it leaves, and how it failed, if it did. -/
abbrev Undo (σ : Type u) (ε : Type v) := σ → σ × Option ε

/-- What an unwinding did. -/
structure Unwound (σ : Type u) (ε : Type v) where
  called : List (Undo σ ε)
  state : σ
  failed : Option ε

/-- Call one compensation after the other, until one fails. -/
def unwind : List (Undo σ ε) → σ → Unwound σ ε
  | [], st => ⟨[], st, none⟩
  | u :: us, st =>
    match u st with
    | (st', none) => { unwind us st' with called := u :: (unwind us st').called }
    | (st', some e) => ⟨[u], st', some e⟩

/-- None of the compensations fails, each in the state those before it leave. -/
def Quiet : List (Undo σ ε) → σ → Prop
  | [], _ => True
  | u :: us, st => (u st).2 = none ∧ Quiet us (u st).1

theorem unwind_cons_none {u : Undo σ ε} {us : List (Undo σ ε)} {st st' : σ}
    (h : u st = (st', none)) :
    unwind (u :: us) st = { unwind us st' with called := u :: (unwind us st').called } := by
  rw [unwind, h]

theorem unwind_cons_some {u : Undo σ ε} {us : List (Undo σ ε)} {st st' : σ} {e : ε}
    (h : u st = (st', some e)) : unwind (u :: us) st = ⟨[u], st', some e⟩ := by
  rw [unwind, h]

/-- An unwinding gets to its end if and only if no compensation fails. -/
theorem unwind_complete_iff (us : List (Undo σ ε)) (st : σ) :
    (unwind us st).called = us ∧ (unwind us st).failed = none ↔ Quiet us st := by
  induction us generalizing st with
  | nil => exact iff_of_true ⟨rfl, rfl⟩ trivial
  | cons u us ih =>
    obtain ⟨st', failed, hu⟩ : ∃ st' failed, u st = (st', failed) := ⟨_, _, rfl⟩
    have hquiet : Quiet (u :: us) st ↔ failed = none ∧ Quiet us st' := by
      rw [Quiet, hu]
    cases failed with
    | none =>
      rw [unwind_cons_none hu, hquiet, ← ih st', List.cons.injEq]
      simp
    | some e =>
      rw [unwind_cons_some hu, hquiet]
      simp

/-- Unwinding leads back to `goal`, without a failure. -/
def Restores (us : List (Undo σ ε)) (st goal : σ) : Prop :=
  (unwind us st).state = goal ∧ (unwind us st).failed = none

theorem Restores.nil (st : σ) : Restores ([] : List (Undo σ ε)) st st := ⟨rfl, rfl⟩

/-- One more operation, from `st` to `st'`, and what takes it back. -/
theorem Restores.push {u : Undo σ ε} {us : List (Undo σ ε)} {st st' goal : σ}
    (h : Restores us st goal) (hu : u st' = (st, none)) : Restores (u :: us) st' goal := by
  unfold Restores
  rw [unwind_cons_none hu]
  exact h

end Warlib.Machine
