import Mathlib.Algebra.GroupWithZero.Nat

/-!
# Labelled transition systems with guarded runs

The bottom of the library half of this development: nothing in `Machine`
names a program. An `Lts` is a set of initial states and an *executable*
partial step — the label says which of the possible moves is taken, so a
schedule is a list of labels and a run can be computed.

`Reach M ok s` says that some run of `M`, every step of which meets the
guard `ok`, ends in `s`. The guard reads the state *before* the step and
the label, which is exactly the shape of a usage condition ("nobody calls
this while that"). Three rules are what the developments above need:

* `Reach.invariant` — an invariant of the initial states that every
  guarded step preserves holds in every reached state.
* `reach_of_guardedRun` — computing a schedule produces a `Reach`; concrete
  runs are exhibited this way.
* `Simulation.reach` — forward simulation, where one concrete step is
  matched by any finite number of abstract ones.
-/

namespace Warlib.Machine

universe u v w x

/-- Initial states and one labelled step. `next s a = none` when the move
`a` is not possible in `s`. -/
structure Lts (σ : Type u) (α : Type v) where
  init : σ → Prop
  next : σ → α → Option σ

namespace Lts

variable {σ : Type u} {α : Type v} {τ : Type w} {β : Type x}

/-- States reached by a run all of whose steps meet `ok`. -/
inductive Reach (M : Lts σ α) (ok : σ → α → Prop) : σ → Prop
  | start {s : σ} : M.init s → Reach M ok s
  | step {s s' : σ} {a : α} : Reach M ok s → ok s a → M.next s a = some s' → Reach M ok s'

variable {M : Lts σ α} {ok ok' : σ → α → Prop}

/-- A weaker guard reaches at least as much. -/
theorem Reach.mono {s : σ} (hok : ∀ s a, ok s a → ok' s a) (h : Reach M ok s) :
    Reach M ok' s := by
  induction h with
  | start hi => exact .start hi
  | step _ ha hn ih => exact .step ih (hok _ _ ha) hn

/-- The invariant rule. The step may use that its source is reachable, so
invariants can be proved one on top of the other. -/
theorem Reach.invariant {I : σ → Prop} {s : σ} (h : Reach M ok s)
    (hinit : ∀ s, M.init s → I s)
    (hstep : ∀ s a s', Reach M ok s → ok s a → M.next s a = some s' → I s → I s') :
    I s := by
  induction h with
  | start hi => exact hinit _ hi
  | step hr ha hn ih => exact hstep _ _ _ hr ha hn ih

/-- Run a schedule, refusing every step that does not meet the guard. -/
def guardedRun (M : Lts σ α) (ok : σ → α → Prop) [∀ s a, Decidable (ok s a)] (s : σ) :
    List α → Option σ
  | [] => some s
  | a :: as => if ok s a then (M.next s a).bind fun s' => M.guardedRun ok s' as else none

/-- The first step of a schedule, and the rest. -/
theorem guardedRun_cons [∀ s a, Decidable (ok s a)] {s s' : σ} {a : α} {as : List α}
    (hrun : M.guardedRun ok s (a :: as) = some s') :
    ok s a ∧ ∃ s₁, M.next s a = some s₁ ∧ M.guardedRun ok s₁ as = some s' := by
  rw [guardedRun] at hrun
  split at hrun
  next ha => exact ⟨ha, Option.bind_eq_some_iff.mp hrun⟩
  next => exact absurd hrun (by simp)

/-- A computed schedule is a run. -/
theorem reach_of_guardedRun [∀ s a, Decidable (ok s a)] {s s' : σ} {as : List α}
    (h : Reach M ok s) (hrun : M.guardedRun ok s as = some s') : Reach M ok s' := by
  induction as generalizing s with
  | nil =>
    rw [guardedRun, Option.some.injEq] at hrun
    exact hrun ▸ h
  | cons a as ih =>
    obtain ⟨ha, s₁, hs₁, hrest⟩ := guardedRun_cons hrun
    exact ih (.step h ha hs₁) hrest

/-- The potential argument. Each guarded step from a state in `I` stays in `I`
and is paid for: what it costs comes out of the potential `Φ`, the step's own
credit, or progress in `Γ`. Then so is every schedule. -/
theorem guardedRun_potential [∀ s a, Decidable (ok s a)] {I : σ → Prop} {Φ Γ : σ → Nat}
    (cost credit : α → Nat)
    (hstep : ∀ s a s', I s → ok s a → M.next s a = some s' →
      I s' ∧ Φ s' + cost a + Γ s ≤ Φ s + credit a + Γ s')
    {s s' : σ} {as : List α} (hI : I s) (hrun : M.guardedRun ok s as = some s') :
    I s' ∧ Φ s' + (as.map cost).sum + Γ s ≤ Φ s + (as.map credit).sum + Γ s' := by
  induction as generalizing s with
  | nil =>
    rw [guardedRun, Option.some.injEq] at hrun
    subst hrun
    exact ⟨hI, Nat.le_refl _⟩
  | cons a as ih =>
    obtain ⟨ha, s₁, hs₁, hrest⟩ := guardedRun_cons hrun
    obtain ⟨hI₁, hle₁⟩ := hstep s a s₁ hI ha hs₁
    obtain ⟨hI', hle⟩ := ih hI₁ hrest
    refine ⟨hI', ?_⟩
    rw [List.map_cons, List.map_cons, List.sum_cons, List.sum_cons]
    omega

/-- What every guarded step preserves, every schedule preserves. -/
theorem guardedRun_invariant [∀ s a, Decidable (ok s a)] {I : σ → Prop}
    (hstep : ∀ s a s', I s → ok s a → M.next s a = some s' → I s') {s s' : σ} {as : List α}
    (hI : I s) (hrun : M.guardedRun ok s as = some s') : I s' :=
  (guardedRun_potential (Φ := fun _ => 0) (Γ := fun _ => 0) (fun _ => 0) (fun _ => 0)
    (fun s a s' hs ha hn => ⟨hstep s a s' hs ha hn, Nat.le_refl _⟩) hI hrun).1

/-- Any finite number of steps. -/
inductive Steps (M : Lts σ α) : σ → σ → Prop
  | refl (s : σ) : Steps M s s
  | tail {s s₁ s₂ : σ} {a : α} : Steps M s s₁ → M.next s₁ a = some s₂ → Steps M s s₂

/-- One step, as a finite number of them. -/
theorem Steps.one {s s' : σ} {a : α} (h : M.next s a = some s') : Steps M s s' :=
  .tail (.refl s) h

/-- Following steps from a reached state reaches a state. -/
theorem Reach.steps {s s' : σ} (hok : ∀ s a, ok s a) (h : Reach M ok s) (hs : Steps M s s') :
    Reach M ok s' := by
  induction hs with
  | refl => exact h
  | tail _ hn ih => exact .step ih (hok _ _) hn

/-- Forward simulation of the guarded runs of `M` by `N` along `R`: each
concrete step is matched by finitely many abstract ones. -/
structure Simulation (M : Lts σ α) (ok : σ → α → Prop) (N : Lts τ β) (R : σ → τ → Prop) :
    Prop where
  init : ∀ s, M.init s → ∃ t, N.init t ∧ R s t
  step : ∀ s a s' t, Reach M ok s → ok s a → M.next s a = some s' → R s t →
    ∃ t', Steps N t t' ∧ R s' t'

/-- Every state a guarded run of `M` reaches is related to one `N` reaches. -/
theorem Simulation.reach {N : Lts τ β} {R : σ → τ → Prop} (S : Simulation M ok N R)
    {s : σ} (h : Reach M ok s) : ∃ t, Reach N (fun _ _ => True) t ∧ R s t := by
  induction h with
  | start hi =>
    obtain ⟨t, ht, hR⟩ := S.init _ hi
    exact ⟨t, .start ht, hR⟩
  | step hr ha hn ih =>
    obtain ⟨t, ht, hR⟩ := ih
    obtain ⟨t', hsteps, hR'⟩ := S.step _ _ _ _ hr ha hn hR
    exact ⟨t', ht.steps (fun _ _ => trivial) hsteps, hR'⟩

end Lts

end Warlib.Machine
