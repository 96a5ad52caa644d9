import Mathlib.Algebra.Group.Int.Defs
import Mathlib.Data.List.Basic

/-!
# Expressions and their text

A library module: C++ expressions of type `int` over variables and integer
literals, as sequences of tokens and as trees, and what they are worth.

`parse` is the operator-precedence parser, one token after the other. It reads
just the texts of the grammar (`parse_eq_some_iff`), and in one way. An operator
put in front of a text applies to its first operand alone, whatever comes after
(`parse_token_cons`).

A value is `none` where the language leaves it undefined: an overflow, or a
division by zero. `bits` is the width of `int`; truth values are 0 and 1. Literals
are taken to fit into an `int`.
-/

namespace Warlib.Machine

universe u

/-! ## Operators -/

/-- The unary operators `!`, `-` and `+`. -/
inductive UnaryOp
  | not
  | neg
  | pos
  deriving DecidableEq, Repr

/-- The binary operators that evaluate both operands. -/
inductive StrictOp
  | mul
  | div
  | mod
  | add
  | sub
  | lt
  | gt
  | le
  | ge
  | eq
  | ne
  deriving DecidableEq, Repr

/-- The binary operators; `&&` and `||` may do without the right operand. -/
inductive BinaryOp
  | strict (op : StrictOp)
  | and
  | or
  deriving DecidableEq, Repr

/-- How strongly an operator binds. -/
def BinaryOp.level : BinaryOp → Nat
  | .strict .mul | .strict .div | .strict .mod => 6
  | .strict .add | .strict .sub => 5
  | .strict .lt | .strict .gt | .strict .le | .strict .ge => 4
  | .strict .eq | .strict .ne => 3
  | .and => 2
  | .or => 1

/-- The level of unary operators. -/
def unaryLevel : Nat := 7

theorem BinaryOp.level_lt (o : BinaryOp) : o.level < unaryLevel := by
  unfold level unaryLevel
  split <;> omega

/-! ## Tokens and trees -/

/-- The tokens. `-` and `+` are binary operators or unary ones. -/
inductive Token (ν : Type u)
  | name (x : ν)
  | number (n : Nat)
  | lparen
  | rparen
  | bang
  | op (o : BinaryOp)
  deriving DecidableEq, Repr

/-- An expression, as it is written. -/
inductive Expr (ν : Type u)
  | var (x : ν)
  | lit (n : Nat)
  | paren (e : Expr ν)
  | unary (op : UnaryOp) (e : Expr ν)
  | binary (o : BinaryOp) (l r : Expr ν)
  deriving DecidableEq, Repr

variable {ν : Type u}

/-- The token of a unary operator. -/
def UnaryOp.token : UnaryOp → Token ν
  | .not => .bang
  | .neg => .op (.strict .sub)
  | .pos => .op (.strict .add)

/-- The unary operator that a token is where an operand is wanted. -/
def Token.unary? : Token ν → Option UnaryOp
  | .bang => some .not
  | .op (.strict .sub) => some .neg
  | .op (.strict .add) => some .pos
  | _ => none

theorem Token.eq_of_unary? {t : Token ν} {op : UnaryOp} (h : t.unary? = some op) :
    t = op.token := by
  unfold Token.unary? at h
  split at h
  next => exact Option.some.inj h ▸ rfl
  next => exact Option.some.inj h ▸ rfl
  next => exact Option.some.inj h ▸ rfl
  next => exact absurd h (by simp)

namespace Expr

/-- The text of an expression. -/
def text : Expr ν → List (Token ν)
  | var x => [.name x]
  | lit n => [.number n]
  | paren e => .lparen :: (e.text ++ [.rparen])
  | unary op e => op.token :: e.text
  | binary o l r => l.text ++ .op o :: r.text

/-- The level of an expression in the grammar. -/
def level : Expr ν → Nat
  | binary o _ _ => o.level
  | _ => unaryLevel

/-- The grammar: the operand of a unary operator is no binary expression, the left
operand of a binary operator binds as strongly as the operator, and the right one
more strongly. -/
def Grammatical : Expr ν → Prop
  | var _ | lit _ => True
  | paren e => e.Grammatical
  | unary _ e => unaryLevel ≤ e.level ∧ e.Grammatical
  | binary o l r => (o.level ≤ l.level ∧ l.Grammatical) ∧ o.level < r.level ∧ r.Grammatical

end Expr

/-! ## The parser -/

/-- What has been read and waits for an operand: an operator, or an open bracket. -/
inductive Pending (ν : Type u)
  | unary (op : UnaryOp)
  | paren
  | left (l : Expr ν) (o : BinaryOp)
  deriving DecidableEq, Repr

/-- The state of the parser: an operand is wanted, or one has been read. -/
inductive Reading (ν : Type u)
  | wanted (stack : List (Pending ν))
  | read (e : Expr ν) (stack : List (Pending ν))
  deriving DecidableEq, Repr

/-- The unary operators in front of an operand are applied to it. -/
def finish : Expr ν → List (Pending ν) → Reading ν
  | e, .unary op :: stack => finish (.unary op e) stack
  | e, stack => .read e stack

/-- The operators of level `p` and above are applied to their operands. -/
def reduce (p : Nat) : Expr ν → List (Pending ν) → Expr ν × List (Pending ν)
  | e, .left l o :: stack =>
    if p ≤ o.level then reduce p (.binary o l e) stack else (e, .left l o :: stack)
  | e, stack => (e, stack)

/-- One token. -/
def Reading.next : Reading ν → Token ν → Option (Reading ν)
  | .wanted stack, .name x => some (finish (.var x) stack)
  | .wanted stack, .number n => some (finish (.lit n) stack)
  | .wanted stack, .lparen => some (.wanted (.paren :: stack))
  | .wanted stack, t => t.unary?.map fun op => .wanted (.unary op :: stack)
  | .read e stack, .op o =>
    let (l, stack) := reduce o.level e stack
    some (.wanted (.left l o :: stack))
  | .read e stack, .rparen =>
    match reduce 0 e stack with
    | (e, .paren :: stack) => some (finish (.paren e) stack)
    | _ => none
  | .read _ _, _ => none

/-- The end of the text. -/
def Reading.result : Reading ν → Option (Expr ν)
  | .wanted _ => none
  | .read e stack =>
    match reduce 0 e stack with
    | (e, []) => some e
    | _ => none

/-- Several tokens. -/
def Reading.run (s : Reading ν) (ts : List (Token ν)) : Option (Reading ν) :=
  ts.foldlM Reading.next s

/-- The expression with this text. -/
def parse (ts : List (Token ν)) : Option (Expr ν) :=
  (Reading.run (.wanted []) ts).bind Reading.result

theorem Reading.run_cons (s : Reading ν) (t : Token ν) (ts : List (Token ν)) :
    s.run (t :: ts) = (s.next t).bind fun s => s.run ts := rfl

theorem Reading.run_append (s : Reading ν) (ts us : List (Token ν)) :
    s.run (ts ++ us) = (s.run ts).bind fun s => s.run us := by
  rw [run, List.foldlM_append]
  rfl

theorem Reading.run_concat {s s' : Reading ν} {ts us : List (Token ν)}
    (h : s.run ts = some s') : s.run (ts ++ us) = s'.run us := by
  rw [run_append, h, Option.bind_some]

@[simp] theorem Reading.next_unary (stack : List (Pending ν)) (op : UnaryOp) :
    (Reading.wanted stack).next op.token = some (.wanted (.unary op :: stack)) := by
  cases op <;> rfl

/-- An operand of level `k` can stand here. -/
def Binds : List (Pending ν) → Nat → Prop
  | [], _ => True
  | .paren :: _, _ => True
  | .unary _ :: _, k => unaryLevel ≤ k
  | .left _ o :: _, k => o.level < k

/-- No unary operator is waiting. -/
def Settled : List (Pending ν) → Prop
  | [] => True
  | .paren :: _ => True
  | .unary _ :: _ => False
  | .left _ _ :: _ => True

section Completeness

variable {stack : List (Pending ν)} {e : Expr ν} {p k : Nat}

theorem Binds.mono (h : Binds stack p) (hle : p ≤ k) : Binds stack k := by
  match stack, h with
  | [], _ => trivial
  | .paren :: _, _ => trivial
  | .unary _ :: _, h => exact Nat.le_trans h hle
  | .left _ o :: _, h => exact Nat.lt_of_lt_of_le h hle

theorem Binds.settled (h : Binds stack k) (hk : k < unaryLevel) : Settled stack := by
  match stack, h with
  | [], _ => trivial
  | .paren :: _, _ => trivial
  | .unary _ :: _, h => exact absurd h (Nat.not_le.mpr hk)
  | .left _ o :: _, _ => trivial

theorem finish_of_settled (h : Settled stack) : finish e stack = .read e stack := by
  match stack, h with
  | [], _ => rfl
  | .paren :: _, _ => rfl
  | .left _ o :: _, _ => rfl

theorem reduce_of_binds (h : Binds stack p) : reduce p e stack = (e, stack) := by
  match stack, h with
  | [], _ => rfl
  | .paren :: _, _ => rfl
  | .unary _ :: _, _ => rfl
  | .left _ o :: _, h => exact if_neg (Nat.not_le.mpr h)

/-- The state after an operand. -/
def after : Expr ν → List (Pending ν) → Reading ν
  | .binary o l r, stack => after r (.left l o :: stack)
  | e, stack => finish e stack

theorem after_of_unaryLevel (h : unaryLevel ≤ e.level) : after e stack = finish e stack := by
  cases e with
  | binary o l r => exact absurd h (Nat.not_le.mpr o.level_lt)
  | _ => rfl

/-- Nothing is lost: to reduce after the last operand is to reduce the whole. -/
theorem after_reads (he : e.Grammatical) (hs : Settled stack) :
    ∃ e₁ stack₁, after e stack = .read e₁ stack₁ ∧
      ∀ p, p ≤ e.level → reduce p e₁ stack₁ = reduce p e stack := by
  induction e generalizing stack with
  | binary o l r ihl ihr =>
    obtain ⟨-, hlevel, hr⟩ := he
    have hleft : Settled (.left l o :: stack) := trivial
    obtain ⟨e₁, stack₁, hafter, hreduce⟩ := ihr hr hleft
    refine ⟨e₁, stack₁, hafter, fun p hp => ?_⟩
    have hp : p ≤ o.level := hp
    rw [hreduce p (Nat.le_trans hp (Nat.le_of_lt hlevel)), reduce, if_pos hp]
  | _ => exact ⟨_, stack, finish_of_settled hs, fun _ _ => rfl⟩

/-- The text of an operand is read as that operand, where it can stand. -/
theorem run_text (he : e.Grammatical) (hb : Binds stack e.level) :
    Reading.run (.wanted stack) e.text = some (after e stack) := by
  induction e generalizing stack with
  | var x => rfl
  | lit n => rfl
  | paren e ih =>
    have he : e.Grammatical := he
    have hopen : Settled (.paren :: stack) := trivial
    have hanything : ∀ k, Binds (.paren :: stack) k := fun _ => trivial
    obtain ⟨e₁, stack₁, hafter, hreduce⟩ := after_reads he hopen
    have hread : Reading.run (.wanted (.paren :: stack)) e.text = some (.read e₁ stack₁) := by
      rw [← hafter]
      exact ih he (hanything _)
    have hwhole : reduce 0 e₁ stack₁ = (e, .paren :: stack) :=
      (hreduce 0 (Nat.zero_le _)).trans (reduce_of_binds (hanything _))
    show Reading.run (.wanted (.paren :: stack)) (e.text ++ [.rparen]) = _
    rw [Reading.run_concat hread, Reading.run_cons, Reading.next, hwhole]
    rfl
  | unary op e ih =>
    obtain ⟨hlevel, he⟩ := he
    have hbinds : Binds (.unary op :: stack) e.level := hlevel
    rw [Expr.text, Reading.run_cons, Reading.next_unary, Option.bind_some, ih he hbinds,
      after_of_unaryLevel hlevel]
    rfl
  | binary o l r ihl ihr =>
    obtain ⟨⟨hlevel, hl⟩, hlt, hr⟩ := he
    have hbinds : Binds stack o.level := hb
    obtain ⟨e₁, stack₁, hafter, hreduce⟩ := after_reads hl (hbinds.settled o.level_lt)
    have hread : Reading.run (.wanted stack) l.text = some (.read e₁ stack₁) := by
      rw [← hafter]
      exact ihl hl (hbinds.mono hlevel)
    have hwhole : reduce o.level e₁ stack₁ = (l, stack) :=
      (hreduce o.level hlevel).trans (reduce_of_binds hbinds)
    rw [Expr.text, Reading.run_concat hread, Reading.run_cons, Reading.next, hwhole,
      Option.bind_some]
    have hright : Binds (.left l o :: stack) r.level := hlt
    exact ihr hr hright

/-- What the grammar makes is read back. -/
theorem parse_text (he : e.Grammatical) : parse e.text = some e := by
  have hsettled : Settled ([] : List (Pending ν)) := trivial
  have hanything : ∀ k, Binds ([] : List (Pending ν)) k := fun _ => trivial
  obtain ⟨e₁, stack₁, hafter, hreduce⟩ := after_reads he hsettled
  have hwhole : reduce 0 e₁ stack₁ = (e, []) :=
    (hreduce 0 (Nat.zero_le _)).trans (reduce_of_binds (hanything _))
  rw [parse, run_text he (hanything _), hafter, Option.bind_some, Reading.result, hwhole]

end Completeness

section Soundness

/-- The text that is waiting. -/
def stackText : List (Pending ν) → List (Token ν)
  | [] => []
  | .unary op :: stack => stackText stack ++ [op.token]
  | .paren :: stack => stackText stack ++ [.lparen]
  | .left l o :: stack => stackText stack ++ (l.text ++ [.op o])

/-- Every left operand that is waiting can stand where it does. -/
def Sound : List (Pending ν) → Prop
  | [] => True
  | .unary _ :: stack => Sound stack
  | .paren :: stack => Sound stack
  | .left l o :: stack => (o.level ≤ l.level ∧ l.Grammatical) ∧ Binds stack o.level ∧ Sound stack

/-- `e` is an operand of level `k` at least, and one of level `k` can stand here. -/
structure Operand (k : Nat) (e : Expr ν) (stack : List (Pending ν)) : Prop where
  sound : Sound stack
  settled : Settled stack
  binds : Binds stack k
  grammatical : e.Grammatical
  level : k ≤ e.level

/-- The state of the parser, all in order, when it has read the text `ts`. -/
inductive Reading.Reads (ts : List (Token ν)) : Reading ν → Prop
  | wanted (stack : List (Pending ν)) (hstack : Sound stack) (htext : stackText stack = ts) :
    Reads ts (.wanted stack)
  | read (e : Expr ν) (stack : List (Pending ν)) (he : Operand unaryLevel e stack)
      (htext : stackText stack ++ e.text = ts) : Reads ts (.read e stack)

variable {stack stack' : List (Pending ν)} {e e' : Expr ν} {k p : Nat} {t : Token ν}
  {s s' : Reading ν} {ts us : List (Token ν)}

theorem finish_reads (hstack : Sound stack) (he : e.Grammatical) (hlevel : unaryLevel ≤ e.level)
    (htext : stackText stack ++ e.text = ts) : (finish e stack).Reads ts := by
  induction stack generalizing e with
  | nil => exact .read e [] ⟨hstack, trivial, trivial, he, hlevel⟩ htext
  | cons f stack ih =>
    cases f with
    | unary op =>
      refine ih hstack ⟨hlevel, he⟩ (Nat.le_refl _) ?_
      rw [← htext, stackText, List.append_assoc]
      rfl
    | paren => exact .read e _ ⟨hstack, trivial, trivial, he, hlevel⟩ htext
    | left l o => exact .read e _ ⟨hstack, trivial, o.level_lt, he, hlevel⟩ htext

/-- Reducing keeps the text and the grammar, and leaves nothing of level `p` behind. -/
theorem Operand.reduce (he : Operand k e stack) (hp : p ≤ k)
    (h : reduce p e stack = (e', stack')) :
    Operand p e' stack' ∧ stackText stack' ++ e'.text = stackText stack ++ e.text := by
  induction stack generalizing e k with
  | nil =>
    obtain ⟨rfl, rfl⟩ := Prod.mk.inj h
    exact ⟨⟨he.sound, he.settled, trivial, he.grammatical, Nat.le_trans hp he.level⟩, rfl⟩
  | cons f stack ih =>
    cases f with
    | unary op => exact he.settled.elim
    | paren =>
      obtain ⟨rfl, rfl⟩ := Prod.mk.inj h
      exact ⟨⟨he.sound, he.settled, trivial, he.grammatical, Nat.le_trans hp he.level⟩, rfl⟩
    | left l o =>
      obtain ⟨hl, hbelow, hstack⟩ := he.sound
      have hright : o.level < e.level := Nat.lt_of_lt_of_le he.binds he.level
      by_cases hle : p ≤ o.level
      · have happlied : Operand o.level (.binary o l e) stack :=
          ⟨hstack, hbelow.settled o.level_lt, hbelow, ⟨hl, hright, he.grammatical⟩, Nat.le_refl _⟩
        rw [Machine.reduce, if_pos hle] at h
        obtain ⟨hoperand, htext⟩ := ih happlied hle h
        refine ⟨hoperand, ?_⟩
        rw [htext, stackText, Expr.text]
        simp
      · rw [Machine.reduce, if_neg hle] at h
        obtain ⟨rfl, rfl⟩ := Prod.mk.inj h
        have hbinds : o.level < p := Nat.not_le.mp hle
        exact ⟨⟨he.sound, trivial, hbinds, he.grammatical, Nat.le_trans hp he.level⟩, rfl⟩

/-- One token more. -/
theorem Reading.Reads.next (h : s.Reads ts) (hn : s.next t = some s') : s'.Reads (ts ++ [t]) := by
  cases h with
  | wanted stack hstack htext =>
    subst htext
    have hunary : ∀ t : Token ν,
        (t.unary?.map fun op => Reading.wanted (.unary op :: stack)) = some s' →
          s'.Reads (stackText stack ++ [t]) := by
      intro t ht
      obtain ⟨op, hop, rfl⟩ := Option.map_eq_some_iff.mp ht
      rw [Token.eq_of_unary? hop]
      exact .wanted _ hstack rfl
    cases t with
    | name x =>
      obtain rfl := Option.some.inj hn
      exact finish_reads hstack trivial (Nat.le_refl _) rfl
    | number n =>
      obtain rfl := Option.some.inj hn
      exact finish_reads hstack trivial (Nat.le_refl _) rfl
    | lparen =>
      obtain rfl := Option.some.inj hn
      exact .wanted _ hstack rfl
    | rparen | bang | op o => exact hunary _ hn
  | read e stack he htext =>
    subst htext
    cases t with
    | op o =>
      obtain rfl := Option.some.inj hn
      obtain ⟨hleft, htext⟩ := he.reduce (Nat.le_of_lt o.level_lt) rfl
      refine .wanted _ ⟨⟨hleft.level, hleft.grammatical⟩, hleft.binds, hleft.sound⟩ ?_
      rw [← htext, List.append_assoc]
      rfl
    | rparen =>
      simp only [Reading.next] at hn
      split at hn
      next e' stack' hred =>
        obtain rfl := Option.some.inj hn
        obtain ⟨hinner, htext⟩ := he.reduce (Nat.zero_le _) hred
        refine finish_reads hinner.sound hinner.grammatical (Nat.le_refl _) ?_
        rw [← htext, stackText, Expr.text]
        simp
      next => exact absurd hn (by simp)
    | name x | number n | lparen | bang => exact absurd hn (by simp [Reading.next])

theorem Reading.Reads.run (h : s.Reads ts) (hn : s.run us = some s') : s'.Reads (ts ++ us) := by
  induction us generalizing s ts with
  | nil =>
    obtain rfl := Option.some.inj hn
    rw [List.append_nil]
    exact h
  | cons u us ih =>
    rw [Reading.run_cons] at hn
    obtain ⟨s₁, hs₁, hn⟩ := Option.bind_eq_some_iff.mp hn
    have hrest := ih (h.next hs₁) hn
    rw [List.append_assoc] at hrest
    exact hrest

/-- What is read is in the grammar, and is what is written. -/
theorem text_of_parse (h : parse ts = some e) : e.Grammatical ∧ e.text = ts := by
  obtain ⟨s, hs, hresult⟩ := Option.bind_eq_some_iff.mp h
  have hinitial : (Reading.wanted ([] : List (Pending ν))).Reads [] := .wanted [] trivial rfl
  have hreads := hinitial.run hs
  rw [List.nil_append] at hreads
  cases hreads with
  | wanted stack hstack htext => exact absurd hresult (by simp [Reading.result])
  | read e₁ stack he htext =>
    simp only [Reading.result] at hresult
    split at hresult
    next e' hred =>
      obtain rfl := Option.some.inj hresult
      obtain ⟨hwhole, htext'⟩ := he.reduce (Nat.zero_le _) hred
      exact ⟨hwhole.grammatical, htext'.trans htext⟩
    next => exact absurd hresult (by simp)

end Soundness

/-- The parser reads the texts of the grammar, each as the expression it is the text of. -/
theorem parse_eq_some_iff {ts : List (Token ν)} {e : Expr ν} :
    parse ts = some e ↔ e.Grammatical ∧ e.text = ts := by
  constructor
  · exact text_of_parse
  · rintro ⟨he, rfl⟩
    exact parse_text he

/-! ## The first operand -/

namespace Expr

/-- The operand the text begins with. -/
def first : Expr ν → Expr ν
  | binary _ l _ => l.first
  | e => e

/-- A unary operator before the first operand. -/
def onFirst (op : UnaryOp) : Expr ν → Expr ν
  | binary o l r => binary o (l.onFirst op) r
  | e => unary op e

theorem text_onFirst (op : UnaryOp) (e : Expr ν) : (e.onFirst op).text = op.token :: e.text := by
  induction e with
  | binary o l r ihl ihr =>
    rw [onFirst, text, ihl]
    rfl
  | _ => rfl

theorem le_level_onFirst {e : Expr ν} {o : BinaryOp} (op : UnaryOp) (h : o.level ≤ e.level) :
    o.level ≤ (e.onFirst op).level := by
  cases e with
  | binary o l r => exact h
  | _ => exact Nat.le_of_lt o.level_lt

theorem Grammatical.onFirst {e : Expr ν} (h : e.Grammatical) (op : UnaryOp) :
    (e.onFirst op).Grammatical := by
  induction e with
  | binary o l r ihl ihr =>
    obtain ⟨⟨hlevel, hl⟩, hr⟩ := h
    exact ⟨⟨le_level_onFirst op hlevel, ihl hl⟩, hr⟩
  | _ => exact ⟨Nat.le_refl _, h⟩

end Expr

/-- A unary operator before a text applies to its first operand. -/
theorem parse_token_cons {ts : List (Token ν)} {e : Expr ν} (op : UnaryOp)
    (h : parse ts = some e) : parse (op.token :: ts) = some (e.onFirst op) := by
  obtain ⟨he, rfl⟩ := parse_eq_some_iff.mp h
  exact parse_eq_some_iff.mpr ⟨he.onFirst op, Expr.text_onFirst op e⟩

/-- Brackets keep a text together. -/
theorem parse_paren {ts : List (Token ν)} {e : Expr ν} (h : parse ts = some e) :
    parse (.lparen :: (ts ++ [.rparen])) = some (.paren e) := by
  obtain ⟨he, rfl⟩ := parse_eq_some_iff.mp h
  exact parse_eq_some_iff.mpr ⟨he, rfl⟩

/-! ## Values -/

/-- A result that is an `int` of so many bits, or an overflow. -/
def toInt (bits : Nat) (x : Int) : Option Int :=
  if -(2 ^ (bits - 1)) ≤ x ∧ x < 2 ^ (bits - 1) then some x else none

/-- The value of a condition. -/
def truth (b : Bool) : Int := if b then 1 else 0

/-- `!`, `-` and `+`. -/
def UnaryOp.apply (bits : Nat) : UnaryOp → Int → Option Int
  | .not, x => some (truth (x == 0))
  | .neg, x => toInt bits (-x)
  | .pos, x => some x

/-- The binary operators on two values; division truncates towards zero. -/
def StrictOp.apply (bits : Nat) : StrictOp → Int → Int → Option Int
  | .mul, x, y => toInt bits (x * y)
  | .div, x, y => if y = 0 then none else toInt bits (x.tdiv y)
  | .mod, x, y => if y = 0 then none else (toInt bits (x.tdiv y)).map fun _ => x.tmod y
  | .add, x, y => toInt bits (x + y)
  | .sub, x, y => toInt bits (x - y)
  | .lt, x, y => some (truth (x < y))
  | .gt, x, y => some (truth (x > y))
  | .le, x, y => some (truth (x ≤ y))
  | .ge, x, y => some (truth (x ≥ y))
  | .eq, x, y => some (truth (x == y))
  | .ne, x, y => some (truth (x != y))

/-- A binary operator on two operands, the right one of which need not have a value
where it is not evaluated. -/
def BinaryOp.apply (bits : Nat) : BinaryOp → Option Int → Option Int → Option Int
  | .strict op, l, r => l.bind fun x => r.bind fun y => op.apply bits x y
  | .and, l, r => l.bind fun x => if x = 0 then some 0 else r.map fun y => truth (y != 0)
  | .or, l, r => l.bind fun x => if x = 0 then r.map fun y => truth (y != 0) else some 1

/-- What comes out is 0. -/
def StrictOp.Vanishes : StrictOp → Int → Int → Prop
  | .mul, x, y => x = 0 ∨ y = 0
  | .div, x, y => x.natAbs < y.natAbs
  | .mod, x, y => y ∣ x
  | .add, x, y => y = -x
  | .sub, x, y | .ne, x, y => y = x
  | .eq, x, y => y ≠ x
  | .lt, x, y => y ≤ x
  | .gt, x, y => x ≤ y
  | .le, x, y => y < x
  | .ge, x, y => x < y

/-- The right operand `y` tells the left operands `x` and `z` apart: one of the results is
0, and the other is not. -/
def StrictOp.Splits : StrictOp → Int → Int → Int → Prop
  | .mul, x, z, y => y ≠ 0 ∧ (x = 0 ↔ z ≠ 0)
  | .div, x, z, y => min x.natAbs z.natAbs < y.natAbs ∧ y.natAbs ≤ max x.natAbs z.natAbs
  | .mod, x, z, y => y ∣ x ↔ ¬y ∣ z
  | .add, x, z, y => x ≠ z ∧ (y = -x ∨ y = -z)
  | .sub, x, z, y | .eq, x, z, y | .ne, x, z, y => x ≠ z ∧ (y = x ∨ y = z)
  | .lt, x, z, y | .ge, x, z, y => min x z < y ∧ y ≤ max x z
  | .gt, x, z, y | .le, x, z, y => min x z ≤ y ∧ y < max x z

theorem toInt_eq_some {bits : Nat} {x v : Int} (h : toInt bits x = some v) : x = v := by
  rw [toInt] at h
  split at h
  · exact Option.some.inj h
  · exact absurd h (by simp)

theorem truth_eq_zero_iff {b : Bool} : truth b = 0 ↔ b = false := by
  cases b <;> simp [truth]

/-- A quotient is 0 when the divisor is the larger one. -/
theorem tdiv_eq_zero_iff {x y : Int} (hy : y ≠ 0) : x.tdiv y = 0 ↔ x.natAbs < y.natAbs := by
  have habs : x.tdiv y = 0 ↔ x.natAbs / y.natAbs = 0 := by
    rw [← Int.natAbs_eq_zero, Int.natAbs_tdiv]
    rfl
  rw [habs, Nat.div_eq_zero_iff]
  have hpos : y.natAbs ≠ 0 := Int.natAbs_ne_zero.mpr hy
  omega

theorem StrictOp.apply_eq_zero_iff {op : StrictOp} {bits : Nat} {x y v : Int}
    (h : op.apply bits x y = some v) : v = 0 ↔ op.Vanishes x y := by
  cases op with
  | mul =>
    rw [← toInt_eq_some h]
    exact Int.mul_eq_zero
  | add =>
    rw [← toInt_eq_some h, Vanishes]
    omega
  | sub =>
    rw [← toInt_eq_some h, Vanishes]
    omega
  | div =>
    by_cases hy : y = 0
    · exact absurd h (by simp [apply, hy])
    · rw [apply, if_neg hy] at h
      rw [← toInt_eq_some h]
      exact tdiv_eq_zero_iff hy
  | mod =>
    by_cases hy : y = 0
    · exact absurd h (by simp [apply, hy])
    · rw [apply, if_neg hy, Option.map_eq_some_iff] at h
      obtain ⟨_, -, rfl⟩ := h
      exact Int.dvd_iff_tmod_eq_zero.symm
  | eq =>
    rw [← Option.some.inj h, truth_eq_zero_iff, beq_eq_false_iff_ne]
    exact ne_comm
  | ne =>
    rw [← Option.some.inj h, truth_eq_zero_iff, bne_eq_false_iff_eq]
    exact eq_comm
  | lt | gt | le | ge =>
    rw [← Option.some.inj h, truth_eq_zero_iff]
    simp [Vanishes]

theorem StrictOp.splits_iff (op : StrictOp) (x z y : Int) :
    (op.Vanishes x y ↔ ¬op.Vanishes z y) ↔ op.Splits x z y := by
  cases op with
  | mod => exact Iff.rfl
  | mul =>
    unfold Vanishes Splits
    grind
  | _ =>
    unfold Vanishes Splits
    omega

/-- Two results are opposite when the right operand tells the left ones apart. -/
theorem StrictOp.opposite_iff_splits {op : StrictOp} {bits : Nat} {x z y v w : Int}
    (hv : op.apply bits x y = some v) (hw : op.apply bits z y = some w) :
    (v = 0 ↔ w ≠ 0) ↔ op.Splits x z y := by
  rw [← op.splits_iff x z y, ← apply_eq_zero_iff hv, ← apply_eq_zero_iff hw]

namespace Expr

variable (bits : Nat) (ρ : ν → Int)

/-- The value of an expression. -/
def eval : Expr ν → Option Int
  | var x => some (ρ x)
  | lit n => some n
  | paren e => e.eval
  | unary op e => e.eval.bind (op.apply bits)
  | binary o l r => o.apply bits l.eval r.eval

/-- The value of an expression whose first operand has the value `x`. -/
def evalFrom (x : Option Int) : Expr ν → Option Int
  | binary o l r => o.apply bits (l.evalFrom x) (r.eval bits ρ)
  | _ => x

theorem first_of_unaryLevel {e : Expr ν} (h : unaryLevel ≤ e.level) : e.first = e := by
  cases e with
  | binary o l r => exact absurd h (Nat.not_le.mpr o.level_lt)
  | _ => rfl

theorem evalFrom_of_unaryLevel {e : Expr ν} (h : unaryLevel ≤ e.level) (x : Option Int) :
    e.evalFrom bits ρ x = x := by
  cases e with
  | binary o l r => exact absurd h (Nat.not_le.mpr o.level_lt)
  | _ => rfl

theorem evalFrom_first (e : Expr ν) : e.evalFrom bits ρ (e.first.eval bits ρ) = e.eval bits ρ := by
  induction e with
  | binary o l r ihl ihr => rw [first, evalFrom, ihl, eval]
  | _ => rfl

theorem eval_onFirst (op : UnaryOp) (e : Expr ν) :
    (e.onFirst op).eval bits ρ =
      e.evalFrom bits ρ ((e.first.eval bits ρ).bind (op.apply bits)) := by
  induction e with
  | binary o l r ihl ihr => rw [onFirst, eval, ihl, first, evalFrom]
  | _ => rfl

end Expr

end Warlib.Machine
