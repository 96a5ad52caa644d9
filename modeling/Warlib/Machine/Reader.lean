import Mathlib.Data.List.Basic

/-!
# Reading a text back

A library module: the parts of a reader for texts made of lines and words, each
with the text it inverts. `word_append` takes a word off, `readFlags_chosen`
reads the flags of a set back from their names, and `paragraphs_flatMap` puts
the lines of a paragraph together again.
-/

namespace Warlib.Machine

variable {α β : Type}

/-! ## Words -/

section Words

variable [DecidableEq α] {sep : α}

/-- The text up to the first separator, and what comes after it. -/
def word (sep : α) (text : List α) : List α × List α :=
  (text.takeWhile (· ≠ sep), (text.dropWhile (· ≠ sep)).drop 1)

/-- A word comes off. -/
theorem word_append {first : List α} (h : sep ∉ first) (rest : List α) :
    word sep (first ++ sep :: rest) = (first, rest) := by
  have hfirst : ∀ c ∈ first, decide (c ≠ sep) = true := by
    intro c hc
    rw [decide_eq_true_eq]
    rintro rfl
    exact h hc
  unfold word
  rw [List.takeWhile_append_of_pos hfirst, List.dropWhile_append_of_pos hfirst,
    List.takeWhile_cons_of_neg (by simp), List.dropWhile_cons_of_neg (by simp), List.append_nil]
  rfl

/-- What comes after a separator is shorter. -/
theorem length_word {text : List α} (h : sep ∈ text) :
    (word sep text).2.length < text.length := by
  have hdrop : (text.dropWhile (· ≠ sep)).length ≤ text.length :=
    (List.dropWhile_sublist _).length_le
  have hpos : 0 < text.length := List.length_pos_of_mem h
  show ((text.dropWhile (· ≠ sep)).drop 1).length < text.length
  rw [List.length_drop]
  omega

end Words

/-- A list with separators between its parts begins with its first part. -/
theorem intercalate_cons (sep : α) (first : List α) (rest : List (List α)) :
    [sep].intercalate (first :: rest) = first ++ rest.flatMap (sep :: ·) := by
  induction rest generalizing first with
  | nil => simp
  | cons next rest ih =>
    rw [List.intercalate_cons_cons, ih]
    simp

/-- Nothing is in it but the separator and what is in its parts. -/
theorem not_mem_intercalate {sep c : α} {parts : List (List α)} (hsep : c ≠ sep)
    (hparts : ∀ part ∈ parts, c ∉ part) : c ∉ [sep].intercalate parts := by
  cases parts with
  | nil => exact List.not_mem_nil
  | cons first rest =>
    rw [intercalate_cons, List.mem_append, not_or]
    refine ⟨hparts first List.mem_cons_self, fun hmem => ?_⟩
    obtain ⟨part, hpart, hc⟩ := List.mem_flatMap.mp hmem
    rcases List.mem_cons.mp hc with hc | hc
    · exact hsep hc
    · exact hparts part (List.mem_cons_of_mem _ hpart) hc

/-! ## Flags by name -/

section Flags

variable {w : Nat}

/-- All flags of a list. -/
def union (flags : List (BitVec w)) : BitVec w := flags.foldr (· ||| ·) 0

@[simp] theorem union_nil : union ([] : List (BitVec w)) = 0 := rfl

@[simp] theorem union_cons (flag : BitVec w) (flags : List (BitVec w)) :
    union (flag :: flags) = flag ||| union flags := rfl

/-- The entries whose flag is set. -/
def chosen (x : BitVec w) (table : List (β × BitVec w)) : List (β × BitVec w) :=
  table.filter fun entry => x &&& entry.2 == entry.2

/-- Where each flag is set or not, those that are set are all that `x` has of them. -/
theorem union_chosen {x : BitVec w} {table : List (β × BitVec w)}
    (h : ∀ entry ∈ table, x &&& entry.2 = entry.2 ∨ x &&& entry.2 = 0) :
    union ((chosen x table).map Prod.snd) = x &&& union (table.map Prod.snd) := by
  induction table with
  | nil => simp [chosen]
  | cons entry table ih =>
    have ih := ih fun other hother => h other (List.mem_cons_of_mem _ hother)
    rw [List.map_cons, union_cons, BitVec.and_or_distrib_left, ← ih]
    by_cases hset : x &&& entry.2 = entry.2
    · simp [chosen, hset]
    · have hzero : x &&& entry.2 = 0#w := (h entry List.mem_cons_self).resolve_left hset
      rw [hzero, BitVec.zero_or]
      simp [chosen, hset]

/-- None is set just when `x` has nothing of them. -/
theorem chosen_eq_nil_iff {x : BitVec w} {table : List (β × BitVec w)}
    (h : ∀ entry ∈ table, x &&& entry.2 = entry.2 ∨ x &&& entry.2 = 0)
    (hne : ∀ entry ∈ table, entry.2 ≠ 0) :
    chosen x table = [] ↔ x &&& union (table.map Prod.snd) = 0 := by
  rw [← union_chosen h]
  constructor
  · intro hnone
    rw [hnone]
    rfl
  · intro hzero
    cases hchosen : chosen x table with
    | nil => rfl
    | cons entry rest =>
      have hmem : entry ∈ chosen x table := by
        rw [hchosen]
        exact List.mem_cons_self
      rw [hchosen, List.map_cons, union_cons] at hzero
      exact absurd (BitVec.or_eq_zero_iff.mp hzero).1 (hne entry (List.mem_filter.mp hmem).1)

variable [DecidableEq α] {sep : α} {table : List (List α × BitVec w)}

/-- The flags named in a text, the names with separators between them. -/
def readFlags (sep : α) (table : List (List α × BitVec w)) (text : List α) : Option (BitVec w) :=
  ((text.splitOn sep).mapM fun name => table.lookup name).map union

/-- An entry is found under its name. -/
theorem lookup_of_mem (hnames : (table.map Prod.fst).Nodup) {entry : List α × BitVec w}
    (h : entry ∈ table) : table.lookup entry.1 = some entry.2 := by
  induction table with
  | nil => exact absurd h List.not_mem_nil
  | cons other table ih =>
    obtain ⟨name, flag⟩ := other
    rw [List.map_cons, List.nodup_cons] at hnames
    rcases List.mem_cons.mp h with rfl | h
    · exact List.lookup_cons_self
    -- another entry has another name
    · have hne : (entry.1 == name) = false := by
        rw [beq_eq_false_iff_ne]
        intro heq
        have hmem : entry.1 ∈ table.map Prod.fst := List.mem_map_of_mem h
        rw [heq] at hmem
        exact hnames.1 hmem
      rw [List.lookup_cons, hne]
      exact ih hnames.2 h

/-- All names of a part of the table are found. -/
theorem mapM_lookup (hnames : (table.map Prod.fst).Nodup) {part : List (List α × BitVec w)}
    (hpart : part ⊆ table) :
    (part.map Prod.fst).mapM (fun name => table.lookup name) = some (part.map Prod.snd) := by
  induction part with
  | nil => rfl
  | cons entry part ih =>
    obtain ⟨hentry, hpart⟩ := List.cons_subset.mp hpart
    rw [List.map_cons, List.mapM_cons, lookup_of_mem hnames hentry, ih hpart]
    rfl

/-- **Flags are read back from their names.** -/
theorem readFlags_chosen (hnames : (table.map Prod.fst).Nodup)
    (hsep : ∀ entry ∈ table, sep ∉ entry.1) {x : BitVec w}
    (hflags : ∀ entry ∈ table, x &&& entry.2 = entry.2 ∨ x &&& entry.2 = 0)
    (hsome : chosen x table ≠ []) :
    readFlags sep table ([sep].intercalate ((chosen x table).map Prod.fst)) =
      some (x &&& union (table.map Prod.snd)) := by
  have hpart : chosen x table ⊆ table := List.filter_subset_self _
  have hsplit : ([sep].intercalate ((chosen x table).map Prod.fst)).splitOn sep =
      (chosen x table).map Prod.fst := by
    refine List.splitOn_intercalate sep ?_ (by simpa using hsome)
    intro name hname
    obtain ⟨entry, hentry, rfl⟩ := List.mem_map.mp hname
    exact hsep entry (hpart hentry)
  rw [readFlags, hsplit, mapM_lookup hnames hpart, Option.map_some, union_chosen hflags]

end Flags

/-! ## Paragraphs -/

section Paragraphs

variable (continues : β → Bool)

/-- One line more at the top: it continues what stands above it, or a paragraph
begins with it. -/
def onTop (line : β) (below : List β × List (β × List β)) : List β × List (β × List β) :=
  if continues line then (line :: below.1, below.2) else ([], (line, below.1) :: below.2)

/-- The paragraphs of a text: the line each begins with, and those that continue it. -/
def paragraphs (lines : List β) : List (β × List β) :=
  (lines.foldr (onTop continues) ([], [])).2

variable {continues}

/-- Lines that continue a paragraph wait for its first line. -/
theorem foldr_continues {lines : List β} (h : ∀ line ∈ lines, continues line = true)
    (below : List β × List (β × List β)) :
    lines.foldr (onTop continues) below = (lines ++ below.1, below.2) := by
  induction lines with
  | nil => rfl
  | cons line lines ih =>
    have hline := h line List.mem_cons_self
    rw [List.foldr_cons, ih fun other hother => h other (List.mem_cons_of_mem _ hother), onTop,
      if_pos hline]
    rfl

/-- **Paragraphs are read back from their lines.** -/
theorem paragraphs_flatMap {ps : List (β × List β)} (hfirst : ∀ p ∈ ps, continues p.1 = false)
    (hrest : ∀ p ∈ ps, ∀ line ∈ p.2, continues line = true) :
    paragraphs continues (ps.flatMap fun p => p.1 :: p.2) = ps := by
  have hall : (ps.flatMap fun p => p.1 :: p.2).foldr (onTop continues) ([], []) = ([], ps) := by
    induction ps with
    | nil => rfl
    | cons p ps ih =>
      have ih := ih (fun q hq => hfirst q (List.mem_cons_of_mem _ hq))
        fun q hq => hrest q (List.mem_cons_of_mem _ hq)
      have hp : ¬continues p.1 = true := by
        rw [hfirst p List.mem_cons_self]
        exact Bool.false_ne_true
      rw [List.flatMap_cons, List.foldr_append, ih, List.foldr_cons,
        foldr_continues (hrest p List.mem_cons_self), onTop, if_neg hp, List.append_nil]
  rw [paragraphs, hall]

end Paragraphs

end Warlib.Machine
