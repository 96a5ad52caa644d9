import Mathlib.Algebra.Group.Int.Defs
import Mathlib.Algebra.Group.Nat.Defs

/-!
# Formatted output streams

A library module: what `operator<<` and the manipulators do to a
`std::ostream`. A stream is the text written to it and its formatting state.
Every formatted insertion pads to the field width with the fill character and
resets the width; the fill and the flags stay as they are set.

`Plain` is the state in which characters and strings go out as they are. The
second half is about numbers in a field of fixed width, padded with zeros:
`zeroPadded_lt_iff` compares such texts like the numbers, and
`append_lt_append_iff` compares texts made of such fields field by field.
-/

namespace Warlib.Machine

/-! ## Streams -/

/-- `std::ios_base::basefield`. -/
inductive Base
  | dec
  | oct
  | hex
  deriving DecidableEq, Repr

/-- `std::ios_base::adjustfield`. -/
inductive Adjust
  | right
  | left
  | internal
  deriving DecidableEq, Repr

/-- `std::ios_base::fmtflags`, as far as integers and strings are concerned. -/
structure Flags where
  base : Base := .dec
  adjust : Adjust := .right
  showbase : Bool := false
  showpos : Bool := false
  uppercase : Bool := false
  deriving DecidableEq, Repr

/-- A stream: what has been written, and how the next insertion is formatted. -/
structure Ostream where
  text : List Char := []
  flags : Flags := {}
  fill : Char := ' '
  width : Nat := 0
  deriving DecidableEq, Repr

namespace Ostream

variable (o : Ostream)

/-- `out << std::setw(n)`. -/
def setw (n : Nat) : Ostream := { o with width := n }

/-- `out << std::setfill(c)`. -/
def setfill (c : Char) : Ostream := { o with fill := c }

/-- `out << std::hex`. -/
def hex : Ostream := { o with flags := { o.flags with base := .hex } }

/-- `out.flags(f)`. -/
def setFlags (f : Flags) : Ostream := { o with flags := f }

/-- `head` (a sign or a mark of the base) and `body` in a field. -/
def padded (head body : List Char) : List Char :=
  let fillers := List.replicate (o.width - (head.length + body.length)) o.fill
  match o.flags.adjust with
  | .right => fillers ++ (head ++ body)
  | .left => head ++ body ++ fillers
  | .internal => head ++ fillers ++ body

/-- Insert a field. -/
def insert (head body : List Char) : Ostream :=
  { o with text := o.text ++ o.padded head body, width := 0 }

/-- `out << s` for a string. -/
def putString (s : List Char) : Ostream := o.insert [] s

/-- `out << c` for a character. -/
def putChar (c : Char) : Ostream := o.putString [c]

/-- `out << std::endl`: the newline is not formatted. -/
def endl : Ostream := { o with text := o.text ++ ['\n'] }

/-- The digits of a number under the flags. -/
def digits (n : Nat) : List Char :=
  let ds := match o.flags.base with
    | .dec => Nat.toDigits 10 n
    | .oct => if o.flags.showbase && n != 0 then '0' :: Nat.toDigits 8 n else Nat.toDigits 8 n
    | .hex => Nat.toDigits 16 n
  if o.flags.uppercase then ds.map Char.toUpper else ds

/-- The mark of the base in front of a number. -/
def baseMark (n : Nat) : List Char :=
  if o.flags.base = .hex && o.flags.showbase && n != 0 then
    if o.flags.uppercase then ['0', 'X'] else ['0', 'x']
  else []

/-- `out << n` for an `unsigned int`. -/
def putUnsigned (n : Nat) : Ostream := o.insert (o.baseMark n) (o.digits n)

/-- `out << n` for an `int`; other bases than ten show it as `unsigned`. -/
def putInt (n : Int) : Ostream :=
  match o.flags.base with
  | .dec =>
    let sign := if n < 0 then ['-'] else if o.flags.showpos then ['+'] else []
    o.insert sign (o.digits n.natAbs)
  | _ => o.putUnsigned (n % 2 ^ 32).toNat

/-- The formatting state: how the next insertion is formatted. -/
structure Formatting where
  flags : Flags
  fill : Char
  width : Nat
  deriving DecidableEq, Repr

/-- The formatting state of the stream. -/
def formatting : Formatting := ⟨o.flags, o.fill, o.width⟩

@[simp] theorem formatting_setw (n : Nat) :
    (o.setw n).formatting = { o.formatting with width := n } := rfl

@[simp] theorem formatting_setfill (c : Char) :
    (o.setfill c).formatting = { o.formatting with fill := c } := rfl

@[simp] theorem formatting_hex :
    o.hex.formatting = { o.formatting with flags := { o.flags with base := .hex } } := rfl

@[simp] theorem formatting_setFlags (f : Flags) :
    (o.setFlags f).formatting = { o.formatting with flags := f } := rfl

@[simp] theorem formatting_endl : o.endl.formatting = o.formatting := rfl

/-- An insertion uses the width up, and nothing else. -/
@[simp] theorem formatting_putString (s : List Char) :
    (o.putString s).formatting = { o.formatting with width := 0 } := rfl

@[simp] theorem formatting_putChar (c : Char) :
    (o.putChar c).formatting = { o.formatting with width := 0 } := rfl

@[simp] theorem formatting_putUnsigned (n : Nat) :
    (o.putUnsigned n).formatting = { o.formatting with width := 0 } := rfl

@[simp] theorem formatting_putInt (n : Int) :
    (o.putInt n).formatting = { o.formatting with width := 0 } := by
  unfold putInt
  split <;> rfl

/-- No field width, and the default flags; any fill. -/
structure Plain : Prop where
  flags : o.flags = {}
  width : o.width = 0

variable {o}

/-- A plain stream takes a string as it is. -/
theorem Plain.putString (h : o.Plain) (s : List Char) :
    o.putString s = { o with text := o.text ++ s } := by
  have hpad : o.padded [] s = s := by
    show (match o.flags.adjust with
      | .right => _
      | .left => _
      | .internal => _) = s
    rw [h.flags, h.width]
    simp
  show { o with text := o.text ++ o.padded [] s, width := 0 } = _
  rw [hpad, ← h.width]

/-- A plain stream takes a character as it is. -/
theorem Plain.putChar (h : o.Plain) (c : Char) :
    o.putChar c = { o with text := o.text ++ [c] } := h.putString [c]

/-- Text and fill are not part of being plain. -/
theorem Plain.of_eq (h : o.Plain) {o' : Ostream} (hflags : o'.flags = o.flags)
    (hwidth : o'.width = o.width) : o'.Plain :=
  ⟨hflags.trans h.flags, hwidth.trans h.width⟩

end Ostream

/-! ## Fields of digits -/

/-- A number in a field of at least `k` characters, filled with zeros. -/
def zeroPadded (k n : Nat) : List Char :=
  List.replicate (k - (Nat.toDigits 10 n).length) '0' ++ Nat.toDigits 10 n

/-- An integer in such a field; the zeros stand before the sign. -/
def zeroFilled (k : Nat) (n : Int) : List Char :=
  let shown := (if n < 0 then ['-'] else []) ++ Nat.toDigits 10 n.natAbs
  List.replicate (k - shown.length) '0' ++ shown

theorem zeroFilled_natCast (k n : Nat) : zeroFilled k (n : Int) = zeroPadded k n := by
  have hnotneg : ¬((n : Int) < 0) := by omega
  simp [zeroFilled, zeroPadded, hnotneg]

/-- `setw(k)` and an integer, on a plain stream that fills with zeros. -/
theorem Ostream.Plain.putFilled {o : Ostream} (h : o.Plain) (hfill : o.fill = '0') (k : Nat)
    (n : Int) : (o.setw k).putInt n = { o with text := o.text ++ zeroFilled k n } := by
  have hflags := h.flags
  have hwidth := h.width
  obtain ⟨text, flags, fill, width⟩ := o
  dsimp only at hflags hwidth hfill
  subst hflags hwidth hfill
  by_cases hneg : n < 0
  · simp [Ostream.putInt, Ostream.insert, Ostream.padded, Ostream.digits, Ostream.setw, zeroFilled,
      hneg, Nat.add_comm]
  · simp [Ostream.putInt, Ostream.insert, Ostream.padded, Ostream.digits, Ostream.setw, zeroFilled,
      hneg]

theorem zeroPadded_length {k n : Nat} (hk : 0 < k) (hn : n < 10 ^ k) :
    (zeroPadded k n).length = k := by
  have hle : (Nat.toDigits 10 n).length ≤ k := (Nat.length_toDigits_le_iff (by decide) hk).mpr hn
  rw [zeroPadded, List.length_append, List.length_replicate]
  omega

/-- A field one wider has one more digit at the end. -/
theorem zeroPadded_succ {k : Nat} (hk : 0 < k) (n : Nat) :
    zeroPadded (k + 1) n = zeroPadded k (n / 10) ++ [Nat.digitChar (n % 10)] := by
  unfold zeroPadded
  by_cases hsmall : n < 10
  · have hdiv : n / 10 = 0 := by omega
    have hmod : n % 10 = n := by omega
    rw [hdiv, hmod, Nat.toDigits_of_lt_base hsmall, Nat.toDigits_zero]
    have hrep : List.replicate k '0' = List.replicate (k - 1) '0' ++ ['0'] := by
      rw [← List.replicate_succ', Nat.sub_add_cancel hk]
    rw [List.length_singleton, List.length_singleton, Nat.add_sub_cancel, hrep]
  · have hsplit := Nat.toDigits_of_base_le (b := 10) (by decide) (Nat.le_of_not_lt hsmall)
    rw [hsplit, List.length_append, List.length_singleton, Nat.add_sub_add_right,
      List.append_assoc]

/-- A field holds digits and perhaps a sign. -/
theorem mem_zeroFilled {k : Nat} {n : Int} {c : Char} (h : c ∈ zeroFilled k n) :
    c.isDigit = true ∨ c = '-' := by
  rcases List.mem_append.mp h with h | h
  · rw [(List.mem_replicate.mp h).2]
    exact Or.inl rfl
  · rcases List.mem_append.mp h with h | h
    · split at h
      · exact Or.inr (List.mem_singleton.mp h)
      · exact absurd h (by simp)
    · exact Or.inl (Nat.isDigit_of_mem_toDigits (by decide) (by decide) h)

theorem zeroFilled_ne_nil (k : Nat) (n : Int) : zeroFilled k n ≠ [] := by
  intro h
  have hdigits := (List.append_eq_nil_iff.mp (List.append_eq_nil_iff.mp h).2).2
  exact absurd hdigits Nat.toDigits_ne_nil

/-! ## Comparing texts -/

/-- Texts whose first fields have the same length are compared by these first. -/
theorem append_lt_append_iff {a b c d : List Char} (h : a.length = b.length) :
    a ++ c < b ++ d ↔ a < b ∨ a = b ∧ c < d := by
  induction a generalizing b with
  | nil =>
    obtain rfl : b = [] := List.length_eq_zero_iff.mp h.symm
    simp
  | cons x a ih =>
    cases b with
    | nil => exact absurd h (by simp)
    | cons y b =>
      have hlen : a.length = b.length := by simpa using h
      rw [List.cons_append, List.cons_append, List.cons_lt_cons_iff, List.cons_lt_cons_iff, ih hlen,
        List.cons.injEq]
      constructor
      · intro hlt
        rcases hlt with hxy | ⟨hxy, hab | ⟨hab, hcd⟩⟩
        · exact Or.inl (Or.inl hxy)
        · exact Or.inl (Or.inr ⟨hxy, hab⟩)
        · exact Or.inr ⟨⟨hxy, hab⟩, hcd⟩
      · intro hlt
        rcases hlt with (hxy | ⟨hxy, hab⟩) | ⟨⟨hxy, hab⟩, hcd⟩
        · exact Or.inl hxy
        · exact Or.inr ⟨hxy, Or.inl hab⟩
        · exact Or.inr ⟨hxy, Or.inr ⟨hab, hcd⟩⟩

/-- One digit is compared like its value. -/
theorem digit_lt_iff {a b : Nat} (ha : a < 10) (hb : b < 10) :
    [Nat.digitChar a] < [Nat.digitChar b] ↔ a < b := by
  rw [List.cons_lt_cons_iff, Char.lt_def, UInt32.lt_iff_toNat_lt]
  show (Nat.digitChar a).toNat < (Nat.digitChar b).toNat ∨ _ ↔ _
  rw [Nat.toNat_digitChar_of_lt_ten ha, Nat.toNat_digitChar_of_lt_ten hb]
  simp

/-- Texts that are compared like the numbers in them are equal when these are. -/
theorem eq_iff_of_lt_iff {s t : List Char} {a b : Nat} (hlt : s < t ↔ a < b)
    (hgt : t < s ↔ b < a) (hsame : a = b → s = t) : s = t ↔ a = b := by
  constructor
  · intro heq
    subst heq
    have hnlt := mt hlt.mpr (List.lt_irrefl s)
    have hngt := mt hgt.mpr (List.lt_irrefl s)
    omega
  · exact hsame

/-- Fields of the same width are compared like the numbers in them. -/
theorem zeroPadded_lt_iff {k a b : Nat} (hk : 0 < k) (ha : a < 10 ^ k) (hb : b < 10 ^ k) :
    zeroPadded k a < zeroPadded k b ↔ a < b := by
  induction k generalizing a b with
  | zero => exact absurd hk (by decide)
  | succ k ih =>
    by_cases hone : k = 0
    · subst hone
      have hdigit : ∀ n, n < 10 ^ (0 + 1) → zeroPadded (0 + 1) n = [Nat.digitChar n] := by
        intro n hn
        rw [zeroPadded, Nat.toDigits_of_lt_base (by simpa using hn)]
        rfl
      rw [hdigit a ha, hdigit b hb]
      exact digit_lt_iff (by simpa using ha) (by simpa using hb)
    · have hk' : 0 < k := Nat.pos_of_ne_zero hone
      have ha' : a / 10 < 10 ^ k := by
        rw [Nat.pow_succ] at ha
        omega
      have hb' : b / 10 < 10 ^ k := by
        rw [Nat.pow_succ] at hb
        omega
      have hlen : (zeroPadded k (a / 10)).length = (zeroPadded k (b / 10)).length := by
        rw [zeroPadded_length hk' ha', zeroPadded_length hk' hb']
      have hfront := eq_iff_of_lt_iff (ih hk' ha' hb') (ih hk' hb' ha') fun heq => by rw [heq]
      have hlast := digit_lt_iff (Nat.mod_lt a (by decide)) (Nat.mod_lt b (by decide))
      rw [zeroPadded_succ hk' a, zeroPadded_succ hk' b, append_lt_append_iff hlen,
        ih hk' ha' hb', hfront, hlast]
      omega

/-- Fields of the same width are equal when the numbers are. -/
theorem zeroPadded_inj {k a b : Nat} (hk : 0 < k) (ha : a < 10 ^ k) (hb : b < 10 ^ k) :
    zeroPadded k a = zeroPadded k b ↔ a = b :=
  eq_iff_of_lt_iff (zeroPadded_lt_iff hk ha hb) (zeroPadded_lt_iff hk hb ha) fun heq => by rw [heq]

/-- A field with a separator behind it is compared before what follows. -/
theorem field_lt_iff {k a b : Nat} {c : Char} {s t : List Char} (hk : 0 < k) (ha : a < 10 ^ k)
    (hb : b < 10 ^ k) :
    zeroPadded k a ++ c :: s < zeroPadded k b ++ c :: t ↔ a < b ∨ a = b ∧ s < t := by
  have hlen : (zeroPadded k a).length = (zeroPadded k b).length := by
    rw [zeroPadded_length hk ha, zeroPadded_length hk hb]
  have hcons : c :: s < c :: t ↔ s < t := by
    rw [List.cons_lt_cons_iff]
    constructor
    · rintro (hlt | ⟨-, hst⟩)
      · exact absurd hlt (Char.lt_irrefl c)
      · exact hst
    · exact fun hst => Or.inr ⟨rfl, hst⟩
  rw [append_lt_append_iff hlen, zeroPadded_lt_iff hk ha hb, zeroPadded_inj hk ha hb, hcons]

/-- A field with a separator behind it is part of what the text says. -/
theorem field_inj {k a b : Nat} {c : Char} {s t : List Char} (hk : 0 < k) (ha : a < 10 ^ k)
    (hb : b < 10 ^ k) :
    zeroPadded k a ++ c :: s = zeroPadded k b ++ c :: t ↔ a = b ∧ s = t := by
  have hlen : (zeroPadded k a).length = (zeroPadded k b).length := by
    rw [zeroPadded_length hk ha, zeroPadded_length hk hb]
  constructor
  · intro h
    obtain ⟨hfield, hrest⟩ := List.append_inj h hlen
    exact ⟨(zeroPadded_inj hk ha hb).mp hfield, (List.cons.inj hrest).2⟩
  · rintro ⟨rfl, rfl⟩
    rfl

end Warlib.Machine
