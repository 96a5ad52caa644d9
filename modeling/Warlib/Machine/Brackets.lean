import Mathlib.Data.List.Basic

/-!
# What happens inside what

A library module. A `Forest` is a nesting: each node has a label, what is
inside it, and what comes after it. `flatten` puts an opening mark before and a
closing mark behind what is inside, and `readMarks` reads the nesting back with
a stack of the nodes that are open.
-/

namespace Warlib.Machine

variable {α : Type}

/-- Something begins or ends. -/
inductive Mark (α : Type)
  | opens (a : α)
  | closes (a : α)
  deriving DecidableEq, Repr

/-- Trees, one after the other. -/
inductive Forest (α : Type)
  | nil
  | node (a : α) (inside after : Forest α)
  deriving DecidableEq, Repr

namespace Forest

/-- One forest after the other. -/
def append : Forest α → Forest α → Forest α
  | .nil, g => g
  | .node a inside after, g => .node a inside (after.append g)

@[simp] theorem append_nil (f : Forest α) : f.append .nil = f := by
  induction f with
  | nil => rfl
  | node a inside after _ ih => rw [append, ih]

theorem append_assoc (f g h : Forest α) : (f.append g).append h = f.append (g.append h) := by
  induction f with
  | nil => rfl
  | node a inside after _ ih => rw [append, append, append, ih]

/-- The marks of a forest. -/
def flatten : Forest α → List (Mark α)
  | .nil => []
  | .node a inside after => .opens a :: (inside.flatten ++ .closes a :: after.flatten)

theorem flatten_append (f g : Forest α) : (f.append g).flatten = f.flatten ++ g.flatten := by
  induction f with
  | nil => rfl
  | node a inside after _ ih => simp [append, flatten, ih]

end Forest

variable [DecidableEq α]

/-- Read the nesting back. For each node that is open, `above` has what came before it
and its label; `here` is what has been read on this level. -/
def readMarks : List (Mark α) → List (Forest α × α) → Forest α → Option (Forest α)
  | [], [], here => some here
  | [], _ :: _, _ => none
  | .opens a :: ms, above, here => readMarks ms ((here, a) :: above) .nil
  | .closes _ :: _, [], _ => none
  | .closes a :: ms, (before, b) :: above, here =>
    if a = b then readMarks ms above (before.append (.node b here .nil)) else none

/-- The marks of a forest are read, and what follows them is read on the same level. -/
theorem readMarks_append (f : Forest α) (ms : List (Mark α)) (above : List (Forest α × α))
    (here : Forest α) :
    readMarks (f.flatten ++ ms) above here = readMarks ms above (here.append f) := by
  induction f generalizing ms above here with
  | nil => rw [Forest.append_nil]; rfl
  | node a inside after ihinside ihafter =>
    rw [Forest.flatten, List.cons_append, readMarks, List.append_assoc, ihinside,
      List.cons_append, readMarks, if_pos rfl, ihafter, Forest.append_assoc]
    rfl

/-- **The nesting is read back.** -/
theorem readMarks_flatten (f : Forest α) : readMarks f.flatten [] .nil = some f := by
  have hread := readMarks_append f [] [] .nil
  rw [List.append_nil] at hread
  rw [hread]
  rfl

end Warlib.Machine
