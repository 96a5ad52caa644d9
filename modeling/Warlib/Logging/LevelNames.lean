import Warlib.Logging.Model

/-!
# Levels by their names

`GetLevelFromName` looks for a name in the table of `GetLevelName`, from
`LL_FATAL` to `LL_TRACE4`, and throws when it is not there. The loop inverts
the table (`getLevelFromNameBody_ok`, `getLevelFromNameBody_error`); but the
function is declared `noexcept`, so what it throws never gets to the caller
(`level_from_name`).

Mirroring notes:

* A `std::string` is compared with a `const char*` up to the end of both; no
  name of a level has a zero byte in it.
* `LogEngine::Exception` is its `exception_expl`.
-/

namespace Warlib.Logging

variable {name : String} {level : LogLevel}

/-! ## The function -/

/-- `LogEngine::Exception`. -/
structure Exception where
  expl : String
  deriving DecidableEq, Repr

/-- How a call ends for its caller. -/
inductive CallEnd (ε α : Type)
  | returned (a : α)
  | threw (e : ε)
  | terminated
  deriving DecidableEq, Repr

/-- The end of a function declared `noexcept`: an exception that is about to leave it
ends the process. -/
def endNoexcept {ε α : Type} : Except ε α → CallEnd ε α
  | .ok a => .returned a
  | .error _ => .terminated

/-- `(LogLevel)ll`; the loop casts the values of the enumerators only. -/
def LogLevel.cast : Nat → LogLevel
  | 0 => .fatal
  | 1 => .error
  | 2 => .warning
  | 3 => .info
  | 4 => .notice
  | 5 => .debug
  | 6 => .trace1
  | 7 => .trace2
  | 8 => .trace3
  | _ => .trace4

/-- The loop of `GetLevelFromName`; the list is what `ll` is going to be. -/
def findLevel (name : String) : List Nat → Option LogLevel
  | [] => none
  | ll :: rest =>
    if name = getLevelName (LogLevel.cast ll) then some (LogLevel.cast ll) else findLevel name rest

/-- `for(int ll = LL_FATAL; ll <= LL_TRACE4; ++ll)`. -/
def levelValues : List Nat :=
  List.range' LogLevel.fatal.val (LogLevel.trace4.val + 1 - LogLevel.fatal.val)

/-- The body of `GetLevelFromName(name)`. -/
def getLevelFromNameBody (name : String) : Except Exception LogLevel :=
  match findLevel name levelValues with
  | some level => .ok level
  | none => .error ⟨"No such log-level: " ++ "\"" ++ name ++ "\""⟩

/-- `GetLevelFromName(name)`, which is `noexcept`. -/
def getLevelFromName (name : String) : CallEnd Exception LogLevel :=
  endNoexcept (getLevelFromNameBody name)

/-! ## The table and the loop -/

theorem LogLevel.cast_val (level : LogLevel) : LogLevel.cast level.val = level := by
  cases level <;> rfl

theorem LogLevel.val_mem_levelValues (level : LogLevel) : level.val ∈ levelValues := by
  rw [levelValues, List.mem_range'_1]
  cases level <;> decide

/-- No two levels have the same name. -/
theorem getLevelName_injective : Function.Injective getLevelName := by
  intro a b h
  cases a <;> cases b <;> first | rfl | exact absurd h (by decide)

/-- What the loop finds has the name. -/
theorem getLevelName_of_findLevel {lls : List Nat} (h : findLevel name lls = some level) :
    getLevelName level = name := by
  induction lls with
  | nil => exact absurd h (by simp [findLevel])
  | cons ll rest ih =>
    rw [findLevel] at h
    split at h
    next hname =>
      rw [← Option.some.inj h]
      exact hname.symm
    next => exact ih h

/-- It passes over nothing that has it. -/
theorem findLevel_ne_none {lls : List Nat} (hmem : level.val ∈ lls) :
    findLevel (getLevelName level) lls ≠ none := by
  induction lls with
  | nil => exact absurd hmem List.not_mem_nil
  | cons ll rest ih =>
    rw [findLevel]
    split
    next => simp
    next hname =>
      rcases List.mem_cons.mp hmem with rfl | hrest
      · rw [LogLevel.cast_val] at hname
        exact absurd rfl hname
      · exact ih hrest

/-- The loop inverts the table. -/
theorem findLevel_eq_some_iff :
    findLevel name levelValues = some level ↔ getLevelName level = name := by
  constructor
  · exact getLevelName_of_findLevel
  · rintro rfl
    cases hfind : findLevel (getLevelName level) levelValues with
    | none => exact absurd hfind (findLevel_ne_none level.val_mem_levelValues)
    | some found => rw [getLevelName_injective (getLevelName_of_findLevel hfind)]

theorem findLevel_eq_none_iff : findLevel name levelValues = none ↔ ∀ l, getLevelName l ≠ name := by
  constructor
  · intro hnone l hl
    rw [findLevel_eq_some_iff.mpr hl] at hnone
    exact absurd hnone (by simp)
  · intro hall
    cases hfind : findLevel name levelValues with
    | none => rfl
    | some found => exact absurd (findLevel_eq_some_iff.mp hfind) (hall found)

/-- The body gives the level that has the name. -/
theorem getLevelFromNameBody_ok :
    getLevelFromNameBody name = .ok level ↔ getLevelName level = name := by
  rw [← findLevel_eq_some_iff, getLevelFromNameBody]
  cases findLevel name levelValues <;> simp

/-- It throws when there is none, and the exception has the name in it. -/
theorem getLevelFromNameBody_error :
    getLevelFromNameBody name = .error ⟨"No such log-level: " ++ "\"" ++ name ++ "\""⟩ ↔
      ∀ l, getLevelName l ≠ name := by
  rw [← findLevel_eq_none_iff, getLevelFromNameBody]
  cases findLevel name levelValues <;> simp

/-! ## The caller -/

/-- What the comment in `WarLog.h` says of a call: it returns the one level that has
the name, or throws when none has it; and the process goes on. -/
def LooksUp (name : String) : Prop :=
  ((∃ l, getLevelFromName name = .returned l ∧ getLevelName l = name ∧
      ∀ l', getLevelName l' = name → l' = l) ∨
    ((∀ l, getLevelName l ≠ name) ∧ ∃ e, getLevelFromName name = .threw e)) ∧
  getLevelFromName name ≠ .terminated

/-- Nothing is thrown to the caller. -/
theorem getLevelFromName_ne_threw (e : Exception) : getLevelFromName name ≠ .threw e := by
  unfold getLevelFromName endNoexcept
  split <;> simp

theorem getLevelFromName_returned_iff :
    getLevelFromName name = .returned level ↔ getLevelName level = name := by
  rw [← getLevelFromNameBody_ok, getLevelFromName]
  cases getLevelFromNameBody name <;> simp [endNoexcept]

/-- **Names of levels.** `GetLevelFromName` does what its comment says if and only if
some level has the name. For every other string its exception ends the process. -/
theorem level_from_name (name : String) :
    (LooksUp name ↔ ∃ l, getLevelName l = name) ∧
      (getLevelFromName name = .terminated ↔ ∀ l, getLevelName l ≠ name) := by
  have hends : getLevelFromName name = .terminated ↔ ∀ l, getLevelName l ≠ name := by
    rw [← findLevel_eq_none_iff, getLevelFromName, getLevelFromNameBody]
    cases findLevel name levelValues <;> simp [endNoexcept]
  refine ⟨?_, hends⟩
  constructor
  · rintro ⟨⟨l, -, hl, -⟩ | ⟨-, e, he⟩, -⟩
    · exact ⟨l, hl⟩
    · exact absurd he (getLevelFromName_ne_threw e)
  · rintro ⟨l, hl⟩
    have hunique : ∀ l', getLevelName l' = name → l' = l := by
      intro l' hl'
      exact getLevelName_injective (hl'.trans hl.symm)
    exact ⟨Or.inl ⟨l, getLevelFromName_returned_iff.mpr hl, hl, hunique⟩,
      fun hterminated => hends.mp hterminated l hl⟩

/-- The name of a level in lower case is no name: the call does not return, and throws
nothing that could be caught. -/
theorem level_from_name_lower_case :
    getLevelFromName "debug" = .terminated ∧ ¬LooksUp "debug" := by
  have hends : getLevelFromName "debug" = .terminated := by decide
  exact ⟨hends, fun hlooks => hlooks.2 hends⟩

end Warlib.Logging
