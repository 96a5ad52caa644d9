import Mathlib.Algebra.BigOperators.Group.List.Basic
import Warlib.Machine.Lts

/-!
# Machines side by side

A library module: a list of machines, `M k` the `k`th of them, of which at most
one takes a step at a time. Every component then has a run of its own
(`Beside.component`), so what is known about the runs of each machine holds
in the composition, whatever it is that chooses who steps.
-/

namespace Warlib.Machine

open Lts

universe u v

variable {σ : Type u} {α : Type v} {M : Nat → Lts σ α} {ps ps' ps'' : List σ} {k : Nat} {p p' : σ}

/-- No component takes a step, or one of them does. -/
inductive Beside (M : Nat → Lts σ α) (ps : List σ) : List σ → Prop
  | still : Beside M ps ps
  | step {k : Nat} {a : α} {p p' : σ} (hp : ps[k]? = some p) (hn : (M k).next p a = some p') :
    Beside M ps (ps.set k p')

theorem Beside.length (h : Beside M ps ps') : ps'.length = ps.length := by
  cases h with
  | still => rfl
  | step hp hn => exact List.length_set ..

/-- Where the step is taken, and where it is not. -/
theorem getElem?_set_some {q : σ} (hp : ps[k]? = some p) {j : Nat} {r : σ}
    (hr : (ps.set k q)[j]? = some r) : (j = k ∧ r = q) ∨ (j ≠ k ∧ ps[j]? = some r) := by
  by_cases hj : k = j
  · subst hj
    rw [List.getElem?_set_self (List.getElem?_eq_some_iff.mp hp).1, Option.some.injEq] at hr
    exact Or.inl ⟨rfl, hr.symm⟩
  · rw [List.getElem?_set_ne hj] at hr
    exact Or.inr ⟨fun he => hj he.symm, hr⟩

/-- What holds of every component, and is kept by a component's own steps. -/
theorem Beside.forall {I : Nat → σ → Prop} (h : Beside M ps ps')
    (hI : ∀ k p, ps[k]? = some p → I k p)
    (hstep : ∀ k p a p', ps[k]? = some p → (M k).next p a = some p' → I k p → I k p') :
    ∀ k p, ps'[k]? = some p → I k p := by
  intro j r hr
  cases h with
  | still => exact hI j r hr
  | @step k a p p' hp hn =>
    rcases getElem?_set_some hp hr with ⟨rfl, rfl⟩ | ⟨-, hr⟩
    · exact hstep j p a r hp hn (hI j p hp)
    · exact hI j r hr

/-- A component of the composition goes on by steps of its own. -/
theorem Beside.component (h : Beside M ps ps') (hp : ps[k]? = some p) :
    ∃ p', ps'[k]? = some p' ∧ (M k).Steps p p' := by
  cases h with
  | still => exact ⟨p, hp, .refl p⟩
  | @step j a q q' hq hn =>
    by_cases hj : j = k
    · subst hj
      rw [hq, Option.some.injEq] at hp
      subst hp
      have hlt : j < ps.length := (List.getElem?_eq_some_iff.mp hq).1
      exact ⟨q', List.getElem?_set_self hlt, Steps.one hn⟩
    · rw [List.getElem?_set_ne hj]
      exact ⟨p, hp, .refl p⟩

/-- A weight of the whole changes by the component that is replaced. -/
theorem sum_component (w : σ → Nat) (hp : ps[k]? = some p) :
    ∃ r, (ps.map w).sum = w p + r ∧ ∀ q, ((ps.set k q).map w).sum = w q + r := by
  induction ps generalizing k with
  | nil => exact absurd hp (by simp)
  | cons p₀ ps ih =>
    cases k with
    | zero =>
      obtain rfl := Option.some.inj hp
      exact ⟨(ps.map w).sum, by simp, fun q => by simp⟩
    | succ k =>
      obtain ⟨r, hsum, hset⟩ := ih hp
      refine ⟨w p₀ + r, ?_, fun q => ?_⟩
      · rw [List.map_cons, List.sum_cons, hsum]
        omega
      · rw [List.set_cons_succ, List.map_cons, List.sum_cons, hset]
        omega

/-- The runs of the components go on with their steps. -/
theorem Beside.reach (h : Beside M ps ps')
    (hI : ∀ k p, ps[k]? = some p → (M k).Reach (fun _ _ => True) p) :
    ∀ k p, ps'[k]? = some p → (M k).Reach (fun _ _ => True) p :=
  h.forall hI fun _ _ _ _ _ hn hr => hr.step trivial hn

/-- Any finite number of steps of a component, one after the other. -/
theorem Lts.Steps.trans {N : Lts σ α} {p₁ p₂ p₃ : σ} (h₁ : N.Steps p₁ p₂) (h₂ : N.Steps p₂ p₃) :
    N.Steps p₁ p₃ := by
  induction h₂ with
  | refl => exact h₁
  | tail _ hn ih => exact .tail ih hn

end Warlib.Machine
