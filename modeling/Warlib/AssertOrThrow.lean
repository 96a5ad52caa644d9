import Warlib.Machine.Expressions

/-!
# `error_handling.h` — the assert-or-throw macros

`WAR_ASSERT_OR_THROW` and `WAR_ASSERT_OR_THROW_T` paste the text of their
argument: `if (!expr)` in place of `assert(expr)`. The `!` then belongs to the
first operand of the text, and to nothing that follows it.

`Spared` says for which expressions this makes no difference, and
`assert_or_throw` that it makes one everywhere else. What that is for each of the
operators is in `StrictOp.Splits` (`spared_strict`, `spared_operator`).

Mirroring notes:

* `Build` is `_DEBUG`. `debugger` is `WAR_IS_DEBUGGING()`: `false` but for MSVC,
  where it is `::IsDebuggerPresent()`.
* `assert` is the standard one of a build without `NDEBUG`: it tests its
  argument in brackets.
* `WAR_THROW(expl)` and `WAR_THROW_T(type, expl)` are one block each, so that the
  `if` in front governs all of it; of the exception its type and text are kept.
* Variables have type `int`, of `bits` bits. A statement that comes upon an
  undefined value has no outcome.
-/

namespace Warlib

open Warlib.Machine

/-- What a macro gets for `expr`. -/
abbrev Text := List (Token String)

/-- The two builds. -/
inductive Build
  | debug
  | release
  deriving DecidableEq, Repr

/-- What the macros are made of. -/
inductive Stmt
  | assert (expr : Text)
  | ifThen (cond : Text) (body : Stmt)
  | ifDebugging (body : Stmt)
  | throw (type expl : String)
  | seq (a b : Stmt)
  deriving DecidableEq, Repr

/-- How a statement ends. -/
inductive Outcome
  | passed
  | failed
  | threw (type expl : String)
  deriving DecidableEq, Repr

/-! ## The macros -/

/-- `WAR_THROW_T(exception_type, expl)`. -/
def warThrowT (type expl : String) : Stmt := .throw type expl

/-- `WAR_THROW(expl)`. -/
def warThrow (expl : String) : Stmt := warThrowT "Exception" expl

/-- `WAR_ASSERT_OR_THROW(expr, expl)`. -/
def warAssertOrThrow (expr : Text) (expl : String) : Build → Stmt
  | .debug => .assert expr
  | .release => .ifThen (.bang :: expr) (warThrow expl)

/-- `WAR_ASSERT_OR_THROW_T(expr, exception_type, expl)`. -/
def warAssertOrThrowT (expr : Text) (type expl : String) : Build → Stmt
  | .debug => .ifThen (.bang :: expr) (.seq (.ifDebugging (.assert expr)) (warThrowT type expl))
  | .release => .ifThen (.bang :: expr) (warThrowT type expl)

/-! ## What they do -/

section Exec

variable (debugger : Bool) (bits : Nat) (ρ : String → Int)

/-- The value of a text. -/
def valueOf (text : Text) : Option Int := (parse text).bind fun e => e.eval bits ρ

/-- A statement. -/
def Stmt.exec : Stmt → Option Outcome
  | .assert expr =>
    (valueOf bits ρ (.lparen :: (expr ++ [.rparen]))).map fun v =>
      if v = 0 then .failed else .passed
  | .ifThen cond body =>
    (valueOf bits ρ cond).bind fun v => if v = 0 then some .passed else body.exec
  | .ifDebugging body => if debugger then body.exec else some .passed
  | .throw type expl => some (.threw type expl)
  | .seq a b => a.exec.bind fun o => if o = .passed then b.exec else some o

/-- Exactly one of two values is true. -/
def Opposite (a b : Option Int) : Prop := ∃ x y, a = some x ∧ b = some y ∧ (x = 0 ↔ y ≠ 0)

/-- The expression does not suffer from a `!` that is meant for all of it and gets
only the first operand: it has no other; or the right operand of `&&` is true, and of
`||` false, and the left one does not suffer; or it is arithmetic or a comparison, which
is true for just one of the first operand and its negation. -/
def Spared : Expr String → Prop
  | .binary .and l r => Spared l ∧ ∃ y, r.eval bits ρ = some y ∧ y ≠ 0
  | .binary .or l r => Spared l ∧ r.eval bits ρ = some 0
  | .binary (.strict op) l r =>
    ∃ x, l.first.eval bits ρ = some x ∧
      Opposite (Expr.evalFrom bits ρ (some x) (.binary (.strict op) l r))
        (Expr.evalFrom bits ρ (some (truth (x == 0))) (.binary (.strict op) l r))
  | _ => True

end Exec

/-! ## The condition -/

section Spared

variable {debugger : Bool} {bits : Nat} {ρ : String → Int} {v x y : Int} {l l' r o : Option Int}
  {e : Expr String} {expr : Text} {t : Outcome}

theorem opposite_some : Opposite (some x) o ↔ ∃ y, o = some y ∧ (x = 0 ↔ y ≠ 0) := by
  constructor
  · rintro ⟨x', y, hx, ho, hxy⟩
    obtain rfl := Option.some.inj hx
    exact ⟨y, ho, hxy⟩
  · rintro ⟨y, ho, hxy⟩
    exact ⟨x, y, rfl, ho, hxy⟩

theorem opposite_not : Opposite (some x) (some (truth (x == 0))) := by
  refine opposite_some.mpr ⟨_, rfl, ?_⟩
  by_cases hx : x = 0 <;> simp [truth, hx]

/-- `l && r` and `l' && r` are opposite when `l` and `l'` are, and `r` is true. -/
theorem opposite_and (hv : BinaryOp.and.apply bits l r = some v) :
    Opposite (some v) (BinaryOp.and.apply bits l' r) ↔
      Opposite l l' ∧ ∃ y, r = some y ∧ y ≠ 0 := by
  -- the truth table, where an operand may have no value
  rcases l with - | x <;> rcases l' with - | x' <;> rcases r with - | y
  all_goals simp_all [BinaryOp.apply, Opposite, truth]
  all_goals grind

/-- `l || r` and `l' || r` are opposite when `l` and `l'` are, and `r` is false. -/
theorem opposite_or (hv : BinaryOp.or.apply bits l r = some v) :
    Opposite (some v) (BinaryOp.or.apply bits l' r) ↔ Opposite l l' ∧ r = some 0 := by
  rcases l with - | x <;> rcases l' with - | x' <;> rcases r with - | y
  all_goals simp_all [BinaryOp.apply, Opposite, truth]
  all_goals grind

/-- Without its first operand an expression has no value. -/
theorem evalFrom_none (bits : Nat) (ρ : String → Int) (e : Expr String) :
    e.evalFrom bits ρ none = none := by
  induction e with
  | binary o l r ihl ihr =>
    rw [Expr.evalFrom, ihl]
    cases o <;> rfl
  | _ => rfl

theorem first_eval_isSome (hv : e.eval bits ρ = some v) :
    ∃ x, e.first.eval bits ρ = some x := by
  rw [← Option.isSome_iff_exists, ← Option.ne_none_iff_isSome]
  intro hnone
  rw [← Expr.evalFrom_first, hnone, evalFrom_none] at hv
  exact absurd hv (by simp)

/-- The expression and the one with a `!` in front are opposite just when it is spared. -/
theorem opposite_onFirst_iff (hv : e.eval bits ρ = some v) :
    Opposite (some v) ((e.onFirst .not).eval bits ρ) ↔ Spared bits ρ e := by
  induction e generalizing v with
  | binary o l r ihl ihr =>
    cases o with
    | and =>
      obtain ⟨x, hx, -⟩ := Option.bind_eq_some_iff.mp hv
      rw [Expr.onFirst, Expr.eval, Spared, opposite_and hv, hx, ihl hx]
    | or =>
      obtain ⟨x, hx, -⟩ := Option.bind_eq_some_iff.mp hv
      rw [Expr.onFirst, Expr.eval, Spared, opposite_or hv, hx, ihl hx]
    | strict op =>
      obtain ⟨x, hx⟩ := first_eval_isSome hv
      have hfirst : l.first.eval bits ρ = some x := hx
      have hwhole := Expr.evalFrom_first bits ρ (.binary (.strict op) l r)
      rw [hx, hv] at hwhole
      have hnegated : ((Expr.binary (.strict op) l r).onFirst .not).eval bits ρ =
          Expr.evalFrom bits ρ (some (truth (x == 0))) (.binary (.strict op) l r) := by
        rw [Expr.eval_onFirst, hx]
        rfl
      rw [Spared, hnegated, ← hwhole]
      constructor
      · intro hopp
        exact ⟨x, hfirst, hopp⟩
      · rintro ⟨x', hx', hopp⟩
        obtain rfl := Option.some.inj (hfirst.symm.trans hx')
        exact hopp
  | _ =>
    show Opposite (some v) (Option.bind (Expr.eval bits ρ _) (UnaryOp.not.apply bits)) ↔ True
    rw [hv]
    exact iff_of_true opposite_not trivial

/-- No operand is equal to its negation. -/
theorem ne_truth_not (x : Int) : x ≠ truth (x == 0) := by
  by_cases hx : x = 0 <;> simp [truth, hx]

/-- An operator is spared when its right operand tells the left one from what that is worth
with a `!` in front, and the result has a value there too. -/
theorem spared_strict {op : StrictOp} {u w : Expr String} (hx : u.eval bits ρ = some x)
    (hy : w.eval bits ρ = some y) (hv : op.apply bits x y = some v) :
    Spared bits ρ (.binary (.strict op) u w) ↔
      ∃ z v', (u.onFirst .not).eval bits ρ = some z ∧ op.apply bits z y = some v' ∧
        op.Splits x z y := by
  have hwhole : (Expr.binary (.strict op) u w).eval bits ρ = some v := by
    rw [Expr.eval, hx, hy]
    exact hv
  have hnegated : ((Expr.binary (.strict op) u w).onFirst .not).eval bits ρ =
      ((u.onFirst .not).eval bits ρ).bind fun z => op.apply bits z y := by
    rw [Expr.onFirst, Expr.eval, hy]
    rfl
  rw [← opposite_onFirst_iff hwhole, opposite_some, hnegated]
  constructor
  · rintro ⟨v', hbind, hopp⟩
    obtain ⟨z, hz, hv'⟩ := Option.bind_eq_some_iff.mp hbind
    exact ⟨z, v', hz, hv', (StrictOp.opposite_iff_splits hv hv').mp hopp⟩
  · rintro ⟨z, v', hz, hv', hsplits⟩
    refine ⟨v', ?_, (StrictOp.opposite_iff_splits hv hv').mpr hsplits⟩
    rw [hz]
    exact hv'

/-- One operator alone: the left operand is the first one, and worth 0 or 1 with the `!`. -/
theorem spared_operator {op : StrictOp} {u w : Expr String} (hu : unaryLevel ≤ u.level)
    (hx : u.eval bits ρ = some x) (hy : w.eval bits ρ = some y)
    (hv : op.apply bits x y = some v) :
    Spared bits ρ (.binary (.strict op) u w) ↔
      (op.apply bits (truth (x == 0)) y).isSome = true ∧ op.Splits x (truth (x == 0)) y := by
  have hnot : (u.onFirst .not).eval bits ρ = some (truth (x == 0)) := by
    rw [Expr.eval_onFirst, Expr.evalFrom_of_unaryLevel bits ρ hu, Expr.first_of_unaryLevel hu, hx]
    rfl
  rw [spared_strict hx hy hv, hnot, Option.isSome_iff_exists]
  constructor
  · rintro ⟨z, v', hz, hv', hsplits⟩
    obtain rfl := Option.some.inj hz
    exact ⟨⟨v', hv'⟩, hsplits⟩
  · rintro ⟨⟨v', hv'⟩, hsplits⟩
    exact ⟨_, v', rfl, hv', hsplits⟩

/-- What is compared is spared when the right operand lies between the first one and its
negation: `StrictOp.Splits` says with which of the two. -/
theorem spared_comparison {op : StrictOp} (hop : op ∈ [.lt, .gt, .le, .ge]) {u w : Expr String}
    (hu : unaryLevel ≤ u.level) (hx : u.eval bits ρ = some x) (hy : w.eval bits ρ = some y) :
    Spared bits ρ (.binary (.strict op) u w) ↔ op.Splits x (truth (x == 0)) y := by
  have hall : ∀ z, (op.apply bits z y).isSome = true := by
    intro z
    cases op <;> first | rfl | exact absurd hop (by decide)
  obtain ⟨v, hv⟩ := Option.isSome_iff_exists.mp (hall x)
  rw [spared_operator hu hx hy hv]
  exact and_iff_right (hall _)

/-- What is compared for equality is spared when it is worth as much as the first operand
or as its negation. -/
theorem spared_equality {op : StrictOp} (hop : op = .eq ∨ op = .ne) {u w : Expr String}
    (hu : unaryLevel ≤ u.level) (hx : u.eval bits ρ = some x) (hy : w.eval bits ρ = some y) :
    Spared bits ρ (.binary (.strict op) u w) ↔ y = x ∨ y = truth (x == 0) := by
  have hne := ne_truth_not x
  rcases hop with rfl | rfl
  all_goals
    rw [spared_operator hu hx hy rfl]
    exact (and_iff_right rfl).trans (and_iff_right hne)

/-! ## The macros -/

theorem valueOf_bang (hparse : parse expr = some e) :
    valueOf bits ρ (.bang :: expr) = (e.onFirst .not).eval bits ρ := by
  have hbang : parse (.bang :: expr) = some (e.onFirst .not) := parse_token_cons .not hparse
  rw [valueOf, hbang, Option.bind_some]

theorem valueOf_paren (hparse : parse expr = some e) :
    valueOf bits ρ (.lparen :: (expr ++ [.rparen])) = e.eval bits ρ := by
  rw [valueOf, parse_paren hparse, Option.bind_some, Expr.eval]

/-- `if (!expr) body` does what it is meant to just when `expr` is spared. -/
theorem exec_ifThen_bang {body : Stmt} (hparse : parse expr = some e)
    (hv : e.eval bits ρ = some v) (hbody : body.exec debugger bits ρ = some t)
    (ht : t ≠ .passed) :
    (Stmt.ifThen (.bang :: expr) body).exec debugger bits ρ =
      some (if v = 0 then t else .passed) ↔ Spared bits ρ e := by
  rw [← opposite_onFirst_iff hv, opposite_some, Stmt.exec, valueOf_bang hparse, hbody]
  constructor
  · intro hexec
    obtain ⟨w, hw, hexec⟩ := Option.bind_eq_some_iff.mp hexec
    refine ⟨w, hw, ?_⟩
    by_cases hvz : v = 0 <;> by_cases hwz : w = 0
    · rw [if_pos hwz, if_pos hvz, Option.some.injEq] at hexec
      exact absurd hexec.symm ht
    · exact iff_of_true hvz hwz
    · exact iff_of_false hvz (not_not.mpr hwz)
    · rw [if_neg hwz, if_neg hvz, Option.some.injEq] at hexec
      exact absurd hexec ht
  · rintro ⟨w, hw, hvw⟩
    rw [hw, Option.bind_some]
    by_cases hvz : v = 0
    · rw [if_pos hvz, if_neg (hvw.mp hvz)]
    · rw [if_neg hvz, if_pos (not_not.mp fun hwz => hvz (hvw.mpr hwz))]

/-- The two builds of `WAR_ASSERT_OR_THROW_T` test the same, and outside a debugger do the
same. -/
theorem warAssertOrThrowT_builds (bits : Nat) (ρ : String → Int) (expr : Text)
    (type expl : String) :
    (warAssertOrThrowT expr type expl .debug).exec false bits ρ =
      (warAssertOrThrowT expr type expl .release).exec false bits ρ := rfl

/-- **The assert-or-throw macros.** For an expression that has a value, the debug build of
`WAR_ASSERT_OR_THROW` fails just when it is false; and the release builds of both macros
throw just then if and only if the expression is spared. -/
theorem assert_or_throw (debugger : Bool) (bits : Nat) (ρ : String → Int) {expr : Text}
    {e : Expr String} {v : Int} (type expl : String) (hparse : parse expr = some e)
    (hv : e.eval bits ρ = some v) :
    (warAssertOrThrow expr expl .debug).exec debugger bits ρ =
      some (if v = 0 then .failed else .passed) ∧
    ((warAssertOrThrow expr expl .release).exec debugger bits ρ =
      some (if v = 0 then .threw "Exception" expl else .passed) ↔ Spared bits ρ e) ∧
    ((warAssertOrThrowT expr type expl .release).exec debugger bits ρ =
      some (if v = 0 then .threw type expl else .passed) ↔ Spared bits ρ e) := by
  refine ⟨?_, exec_ifThen_bang hparse hv rfl (by simp), exec_ifThen_bang hparse hv rfl (by simp)⟩
  rw [warAssertOrThrow, Stmt.exec, valueOf_paren hparse, hv, Option.map_some]

end Spared

/-- `n == 3`. -/
def isThree : Text := [.name "n", .op (.strict .eq), .number 3]

/-- With `(n == 3)` for `expr`, and `n` 2, all three throw or fail. -/
theorem assert_or_throw_bracketed :
    (warAssertOrThrow (.lparen :: (isThree ++ [.rparen])) "not 3" .debug).exec false 32
      (fun _ => 2) = some .failed ∧
    (warAssertOrThrow (.lparen :: (isThree ++ [.rparen])) "not 3" .release).exec false 32
      (fun _ => 2) = some (.threw "Exception" "not 3") ∧
    (warAssertOrThrowT (.lparen :: (isThree ++ [.rparen])) "ExceptionBadState" "not 3"
      .release).exec false 32 (fun _ => 2) = some (.threw "ExceptionBadState" "not 3") := by
  have hparse : parse (.lparen :: (isThree ++ [.rparen])) =
      some (.paren (.binary (.strict .eq) (.var "n") (.lit 3))) := rfl
  obtain ⟨hdebug, hrelease, hreleaseT⟩ :=
    assert_or_throw false 32 (fun _ => 2) "ExceptionBadState" "not 3" hparse rfl
  exact ⟨hdebug, hrelease.mpr trivial, hreleaseT.mpr trivial⟩

/-- With `n == 3`, and `n` 2, the debug build fails, and the release builds let it pass:
`!n == 3` is false. -/
theorem assert_or_throw_bare :
    valueOf 32 (fun _ => 2) isThree = some 0 ∧
    (warAssertOrThrow isThree "not 3" .debug).exec false 32 (fun _ => 2) = some .failed ∧
    (warAssertOrThrow isThree "not 3" .release).exec false 32 (fun _ => 2) = some .passed ∧
    (warAssertOrThrowT isThree "ExceptionBadState" "not 3" .release).exec false 32 (fun _ => 2) =
      some .passed :=
  ⟨rfl, rfl, rfl, rfl⟩

end Warlib
