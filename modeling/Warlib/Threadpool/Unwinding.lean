import Warlib.Threadpool.Construction

/-!
# When a pool cannot be constructed

The exception of a constructor is on its way to the caller. On the way `pool_`
is destroyed, and each `~Pipeline` in it joins a worker that was never told to
stop. With one pipeline built this join does not return: the exception stays
where it is (`Sound.threw`). So it gets through only if the first pipeline is
the one that fails, and only if it fails before its thread is there
(`failing_constructor`).
-/

namespace Warlib.Threadpool

open Warlib.Machine Warlib.Pipeline

variable {S : Setting} {pinning : Option (List Int)} {c c' : Construction} {d : Doing}
  {w w' : Worker} {ok : Construction → Doing → Prop}

/-- The destruction of `pool_` has come to the join of a pipeline on which `Close` has
not been called. -/
def Construction.JoinsOpen (c : Construction) : Prop :=
  ∃ k w, c.stage = .joining k ∧ c.pool[k]? = some w ∧ Unclosed w.lifetime.state.mem

/-! ## What has failed stays so -/

theorem Sound.failed {failure : Nat × Failure} (h : Sound S pinning c)
    (hs : Built S pinning c d c') (hf : c.failed = some failure) : c'.failed = some failure := by
  have hprogress := h.progress
  have hloop : ∀ i, c.stage ≠ .loop i := by
    intro i hi
    rw [hi, hf] at hprogress
    cases hprogress
  have hmaking : ∀ i w, c.stage ≠ .making i w := by
    intro i w hi
    rw [hi, hf] at hprogress
    cases hprogress
  cases hs
  case rethrew i w p hs hp hc => exact absurd hs (hmaking i w)
  case refused i hs hi => exact absurd hs (hloop i)
  case refused_inside i w hs hc => exact absurd hs (hmaking i w)
  all_goals exact hf

theorem steps_failed {failure : Nat × Failure} (h : (construction S pinning).Reach (fun _ _ => True) c)
    (hf : c.failed = some failure) (hs : (construction S pinning).Steps c c') :
    (construction S pinning).Reach (fun _ _ => True) c' ∧ c'.failed = some failure := by
  induction hs with
  | refl => exact ⟨h, hf⟩
  | tail _ hn ih =>
    obtain ⟨hreach, hfailed⟩ := ih
    exact ⟨.step hreach trivial hn, (reach_sound hreach).failed (built_of_next hn) hfailed⟩

/-- The exception gets through only if no pipeline had been built. -/
theorem Sound.threw {k : Nat} {f : Failure} (h : Sound S pinning c) (hthrew : c.stage = .threw)
    (hf : c.failed = some (k, f)) : k = 0 ∧ f = .early := by
  have hprogress := h.progress
  rw [hthrew, hf] at hprogress
  generalize c.pool.length = n at hprogress
  cases hprogress
  exact ⟨rfl, rfl⟩

/-- Otherwise it never does. -/
theorem steps_not_threw {k : Nat} {f : Failure}
    (h : (construction S pinning).Reach (fun _ _ => True) c) (hf : c.failed = some (k, f))
    (hlate : ¬(k = 0 ∧ f = .early)) (hs : (construction S pinning).Steps c c') :
    c'.stage ≠ .threw := by
  intro hthrew
  obtain ⟨hreach, hfailed⟩ := steps_failed h hf hs
  exact hlate ((reach_sound hreach).threw hthrew hfailed)

/-! ## How the constructor gets there -/

/-- After any number of pipelines the next one can fail, either way. -/
theorem reach_failed (pinning : Option (List Int)) {k : Nat} (hk : k < S.capacity.toNat)
    (f : Failure) :
    ∃ c, (construction S pinning).Reach (fun _ _ => True) c ∧ c.failed = some (k, f) ∧
      c.pool.length = k ∧ (f = .early → c.stage = .unwinding) := by
  obtain ⟨c, h, hs, hlength⟩ := reach_loop pinning (Nat.le_of_lt hk)
  have hi := ofNat_lt_capacity hk
  cases f with
  | early =>
    have hrefused : (construction S pinning).next c .refuse =
        some { c with stage := .unwinding, failed := some (c.pool.length, .early) } := by
      show c.refuse S = _
      unfold Construction.refuse
      rw [hs]
      exact if_pos hi
    refine ⟨_, h.step trivial hrefused, ?_, hlength, fun _ => rfl⟩
    rw [hlength]
  | guard =>
    have hlock := (reach_started h hs hi).step trivial (next_turn (t := .run false) rfl rfl)
    have hguard := hlock.step trivial (next_turn (t := .run true) rfl rfl)
    have hexception := hguard.step trivial (next_turn (t := .run false) rfl rfl)
    have hrethrew := hexception.step (a := .construct) trivial rfl
    refine ⟨_, hrethrew, ?_, hlength, fun he => absurd he (by simp)⟩
    rw [← hlength]

/-! ## The promise -/

/-- **A failing constructor.** When the construction of the `k`th pipeline fails: the
destruction of those before it never comes to the join of a pipeline on which
`Close` has not been called, and the exception can get to the caller, if and
only if there are none and the pipeline has no thread yet. Otherwise it never
gets there. -/
theorem failing_constructor (S : Setting) (pinning : Option (List Int)) {k : Nat}
    (hk : k < S.capacity.toNat) (f : Failure) :
    ((∀ c, (construction S pinning).Reach (fun _ _ => True) c → c.failed = some (k, f) →
        ¬c.JoinsOpen ∧ ∃ c', (construction S pinning).Steps c c' ∧ c'.stage = .threw) ↔
      k = 0 ∧ f = .early) ∧
    (¬(k = 0 ∧ f = .early) →
      ∀ c, (construction S pinning).Reach (fun _ _ => True) c → c.failed = some (k, f) →
        ∀ c', (construction S pinning).Steps c c' → c'.stage ≠ .threw) := by
  refine ⟨⟨fun hall => ?_, ?_⟩, fun hlate c h hf c' hs => steps_not_threw h hf hlate hs⟩
  · by_contra hlate
    obtain ⟨c, h, hf, -, -⟩ := reach_failed pinning hk f
    obtain ⟨-, c', hs, hthrew⟩ := hall c h hf
    exact steps_not_threw h hf hlate hs hthrew
  · rintro ⟨rfl, rfl⟩ c h hf
    have hprogress := (reach_sound h).progress
    rw [hf] at hprogress
    obtain ⟨stage, pool, failed⟩ := c
    dsimp only at hf hprogress
    generalize hlength : pool.length = n at hprogress
    cases hprogress with
    | unwinding =>
      obtain rfl : pool = [] := List.length_eq_zero_iff.mp hlength
      refine ⟨fun hjoins => ?_, _, Lts.Steps.one (a := .construct) rfl, rfl⟩
      obtain ⟨k, w, hjoining, -⟩ := hjoins
      exact absurd hjoining (by simp)
    | joining hk _ => exact absurd hk (by simp)
    | threw =>
      refine ⟨fun hjoins => ?_, _, .refl _, rfl⟩
      obtain ⟨k, w, hjoining, -⟩ := hjoins
      exact absurd hjoining (by simp)

/-- A pool of two threads of which the operating system refuses the first. -/
theorem failing_constructor_first :
    ∃ c, (construction { numThreads := 2, users := 1 } none).Reach (fun _ _ => True) c ∧
      c.failed = some (0, .early) ∧ ¬c.JoinsOpen ∧
      ∃ c', (construction { numThreads := 2, users := 1 } none).Steps c c' ∧ c'.stage = .threw := by
  obtain ⟨c, h, hf, -, -⟩ := reach_failed (S := { numThreads := 2, users := 1 }) none (k := 0)
    (by decide) .early
  obtain ⟨hopen, hgets⟩ := (failing_constructor { numThreads := 2, users := 1 } none (k := 0)
    (by decide) .early).1.mpr ⟨rfl, rfl⟩ c h hf
  exact ⟨c, h, hf, hopen, hgets⟩

/-- A pool of two threads of which it refuses the second: the constructor joins the
first, which has not been told to stop, and its caller never hears of it. -/
theorem constructor_hangs :
    ∃ c, (construction { numThreads := 2, users := 1 } none).Reach (fun _ _ => True) c ∧
      c.failed = some (1, .early) ∧ c.JoinsOpen ∧
      ∀ c', (construction { numThreads := 2, users := 1 } none).Steps c c' → c'.stage ≠ .threw := by
  obtain ⟨c, h, hf, hlength, hstage⟩ := reach_failed (S := { numThreads := 2, users := 1 })
    none (k := 1) (by decide) .early
  have hdestroy : (construction { numThreads := 2, users := 1 } none).next c (.destroy 0) =
      some { c with stage := .joining 0 } := by
    show c.destroy 0 = _
    unfold Construction.destroy
    rw [hstage rfl, hlength]
    rfl
  have hjoining := h.step trivial hdestroy
  obtain ⟨w, hw⟩ : ∃ w, c.pool[0]? = some w := ⟨_, List.getElem?_eq_getElem (by omega)⟩
  refine ⟨_, hjoining, hf, ⟨0, w, rfl, hw, ?_⟩, fun c' hs => ?_⟩
  · rw [((reach_sound h).up 0 w hw).state]
    intro caller id q hmem
    exact absurd hmem (by simp [Arguments.state, Pipeline.initial])
  · exact steps_not_threw hjoining hf (by simp) hs

end Warlib.Threadpool
