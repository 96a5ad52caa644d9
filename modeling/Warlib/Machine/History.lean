/-!
# Histories

The third library module: what can be said about a list of events that is
only appended to. A property of the moment an event happens is a property of
the events before it (`Each`), a property of what follows an event is a
property of the rest; `split_append_one` says how both grow by one event.
The sequence of the events of one kind is a `filterMap` of the history, and
`split_of_filterMap` finds the moment one of them happened.
-/

namespace Warlib.Machine

variable {ε δ : Type}

/-- The ways to split a history at an event, after one more event. -/
theorem split_append_one {tr pre post : List ε} {e x : ε} (h : tr ++ [e] = pre ++ x :: post) :
    (pre = tr ∧ x = e ∧ post = []) ∨ ∃ post', post = post' ++ [e] ∧ tr = pre ++ x :: post' := by
  rcases List.eq_nil_or_concat post with rfl | ⟨post', e', rfl⟩
  · obtain ⟨hpre, hx⟩ := List.append_inj' h rfl
    exact Or.inl ⟨hpre.symm, (List.cons.inj hx).1.symm, rfl⟩
  · have h' : tr ++ [e] = (pre ++ x :: post') ++ [e'] := by
      rw [h, List.concat_eq_append, List.append_assoc, List.cons_append]
    obtain ⟨hpre, hx⟩ := List.append_inj' h' rfl
    obtain rfl := (List.cons.inj hx).1
    exact Or.inr ⟨post', List.concat_eq_append, hpre⟩

/-- Events other than `x` leave the splits at `x` what they were. -/
theorem split_append {tr es pre post : List ε} {x : ε} (h : tr ++ es = pre ++ x :: post)
    (hx : x ∉ es) : ∃ post', post = post' ++ es ∧ tr = pre ++ x :: post' := by
  rcases List.append_eq_append_iff.mp h with ⟨as, -, hes⟩ | ⟨bs, htr, hbs⟩
  · exact absurd (hes ▸ List.mem_append_right as (List.mem_cons_self ..)) hx
  · cases bs with
    | nil =>
      have hes : x :: post = es := hbs
      exact absurd (hes ▸ List.mem_cons_self ..) hx
    | cons b bs =>
      obtain ⟨rfl, hpost⟩ := List.cons.inj hbs
      exact ⟨bs, hpost, htr⟩

/-- Every event of the history happened at a moment when `P` held of the
history so far. -/
def Each (P : List ε → ε → Prop) (tr : List ε) : Prop :=
  ∀ pre e post, tr = pre ++ e :: post → P pre e

theorem each_nil (P : List ε → ε → Prop) : Each P [] :=
  fun pre e post h => absurd h.symm (by simp)

/-- One more event, at a moment when `P` held. -/
theorem Each.append_one {P : List ε → ε → Prop} {tr : List ε} (h : Each P tr) {e : ε}
    (he : P tr e) : Each P (tr ++ [e]) := by
  intro pre x post hsplit
  rcases split_append_one hsplit with ⟨rfl, rfl, -⟩ | ⟨post', -, htr⟩
  · exact he
  · exact h pre x post' htr

/-- The moment an event of a kind happened, in the sequence of its kind. -/
theorem split_of_filterMap {g : ε → Option δ} {tr : List ε} {as bs : List δ} {b : δ}
    (h : tr.filterMap g = as ++ b :: bs) :
    ∃ pre e post, tr = pre ++ e :: post ∧ g e = some b ∧ pre.filterMap g = as := by
  obtain ⟨pre, rest, rfl, hpre, hrest⟩ := List.filterMap_eq_append_iff.mp h
  obtain ⟨skip, e, post, rfl, hskip, he, -⟩ := List.filterMap_eq_cons_iff.mp hrest
  refine ⟨pre ++ skip, e, post, by rw [List.append_assoc], he, ?_⟩
  rw [List.filterMap_append, hpre, List.filterMap_eq_nil_iff.mpr hskip, List.append_nil]

/-- A narrower selection is a subsequence of a wider one. -/
theorem filterMap_sublist {g g' : ε → Option δ} (h : ∀ e x, g e = some x → g' e = some x)
    (tr : List ε) : (tr.filterMap g).Sublist (tr.filterMap g') := by
  induction tr with
  | nil => exact List.Sublist.slnil
  | cons e tr ih =>
    cases hg : g e with
    | none =>
      rw [List.filterMap_cons_none hg]
      cases hg' : g' e with
      | none => rw [List.filterMap_cons_none hg']; exact ih
      | some x => rw [List.filterMap_cons_some hg']; exact ih.cons x
    | some x =>
      rw [List.filterMap_cons_some hg, List.filterMap_cons_some (h e x hg)]
      exact ih.cons_cons x

/-- What stands behind the first `x` of a sequence stands behind every part
of it that contains an `x`. -/
theorem mem_behind {x y : δ} {before rest as bs : List δ}
    (h : before ++ x :: rest = as ++ y :: bs) (hfirst : x ∉ before) (hx : x ∈ as) : y ∈ rest := by
  rcases List.append_eq_append_iff.mp h with ⟨cs, has, hcs⟩ | ⟨cs, hbefore, -⟩
  · cases cs with
    | nil =>
      rw [List.append_nil] at has
      exact absurd (has ▸ hx) hfirst
    | cons c cs =>
      obtain ⟨-, hrest⟩ := List.cons.inj hcs
      rw [hrest]
      exact List.mem_append_right _ (List.mem_cons_self ..)
  · exact absurd (hbefore ▸ List.mem_append_left cs hx) hfirst

end Warlib.Machine
