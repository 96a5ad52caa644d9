import Warlib.Threadpool.Construction
import Warlib.Threadpool.RoundRobin

/-!
# How many threads

`capacity_` as the constructor computes it, in 32-bit words, against the
numbers the documentation speaks of: `max(2, cores - 1)`. They are the same
unless `hardware_concurrency()` is 0, which means that it does not know:
`0 - 1` is the largest `unsigned`, and a pool of 4294967295 threads is asked
for (`unknown_hardware`).

Whatever `capacity_` is, the constructor builds so many pipelines, and
`GetAnyPipeline` never divides by zero and never leaves the pool.
-/

namespace Warlib.Threadpool

open Warlib.Machine Warlib.Pipeline

variable {S : Setting} {s : State} {ok : State → Step → Prop}

/-- `numThreads`, or `max(2, cores - 1)` over the integers. -/
def Setting.wanted (S : Setting) : Int :=
  if S.numThreads > 0 then S.numThreads.toNat else max 2 ((S.hardwareConcurrency.toNat : Int) - 1)

/-! ## The words and the integers -/

/-- One less, when there is one. -/
theorem toNat_pred {x : BitVec 32} (h : x ≠ 0) : (x - 1).toNat = x.toNat - 1 := by
  have hpos := BitVec.toNat_pos_of_ne_zero h
  have hsmall := x.isLt
  rw [BitVec.toNat_sub]
  show (2 ^ 32 - 1 + x.toNat) % 2 ^ 32 = _
  omega

/-- `numThreads` is taken as it is. -/
theorem capacity_given (h : S.numThreads > 0) : (S.capacity.toNat : Int) = S.wanted := by
  unfold Setting.capacity Setting.wanted
  rw [if_pos h, if_pos h]

/-- The maximum, when the number of cores is known. -/
theorem capacity_known (hn : ¬S.numThreads > 0) (hc : S.hardwareConcurrency ≠ 0) :
    (S.capacity.toNat : Int) = S.wanted := by
  have hpred := toNat_pred hc
  have hpos := BitVec.toNat_pos_of_ne_zero hc
  unfold Setting.capacity Setting.wanted
  rw [if_neg hn, if_neg hn]
  split
  next hmany =>
    have hmany' : 2 < (S.hardwareConcurrency - 1).toNat := hmany
    omega
  next hfew =>
    have hfew' : ¬2 < (S.hardwareConcurrency - 1).toNat := hfew
    show (2 : Int) = _
    omega

/-- The maximum, when it is not. -/
theorem capacity_unknown (hn : ¬S.numThreads > 0) (hc : S.hardwareConcurrency = 0) :
    S.capacity.toNat = 2 ^ 32 - 1 ∧ S.wanted = 2 := by
  unfold Setting.capacity Setting.wanted
  rw [if_neg hn, if_neg hn, hc]
  exact ⟨rfl, rfl⟩

theorem capacity_wanted_iff (S : Setting) :
    (S.capacity.toNat : Int) = S.wanted ↔ S.numThreads > 0 ∨ S.hardwareConcurrency ≠ 0 := by
  by_cases hn : S.numThreads > 0
  · exact iff_of_true (capacity_given hn) (Or.inl hn)
  · by_cases hc : S.hardwareConcurrency = 0
    · obtain ⟨hcapacity, hwanted⟩ := capacity_unknown hn hc
      refine iff_of_false ?_ fun hor => ?_
      · rw [hcapacity, hwanted]
        omega
      · exact hor.elim hn fun hne => hne hc
    · exact iff_of_true (capacity_known hn hc) (Or.inr hc)

/-! ## The index -/

/-- The modulus is `pool_.size()`, and there is something in the pool. -/
theorem chosen_lt (h : (machine S).Reach ok s) : s.mem.chosen S < s.mem.pool.length := by
  rw [reach_length h, Mem.chosen, BitVec.toNat_umod]
  exact Nat.mod_lt _ (capacity_pos S)

/-- So have all been. -/
theorem selected_lt (h : (machine S).Reach ok s) : ∀ k ∈ s.mem.selected, k < s.mem.pool.length := by
  refine h.invariant (I := fun s => ∀ k ∈ s.mem.selected, k < s.mem.pool.length) ?_ ?_
  · intro s hinit k hk
    rw [hinit.1] at hk
    exact absurd hk (by simp [initial])
  · intro s l s' hr _ hnext hI k hk
    have hs := stepped_of_next hnext
    rw [hs.pool.length]
    cases hs with
    | move _ hm =>
      rcases hm.chooses with rfl | ⟨-, hselected⟩
      · rcases List.mem_append.mp hk with hold | hnew
        · exact hI k hold
        · rw [List.mem_singleton.mp hnew]
          exact chosen_lt hr
      · rw [hselected] at hk
        exact hI k hk
    | alone ht =>
      obtain ⟨p, p', -, -, rfl⟩ := turn_some ht
      exact hI k hk

/-! ## The promise -/

/-- **Sizes and indices.** `capacity_` is the documented number if and only if
`numThreads` is not 0 or `hardware_concurrency()` is not. The constructor
builds `capacity_` pipelines; in every run after it the modulus is not 0, and
every index that has been used and the one that comes next are in the pool. -/
theorem pool_sizes (S : Setting) :
    ((S.capacity.toNat : Int) = S.wanted ↔ S.numThreads > 0 ∨ S.hardwareConcurrency ≠ 0) ∧
    (∀ pinning c, (construction S pinning).Reach (fun _ _ => True) c → c.stage = .returned →
      c.pool.length = S.capacity.toNat) ∧
    (∀ s, (machine S).Reach (fun _ _ => True) s →
      S.capacity ≠ 0 ∧ (∀ k ∈ s.mem.selected, k < s.mem.pool.length) ∧
        s.mem.chosen S < s.mem.pool.length) := by
  refine ⟨capacity_wanted_iff S, fun pinning c h hs => (reach_sound h).length_returned hs, ?_⟩
  intro s h
  refine ⟨fun hzero => ?_, selected_lt h, chosen_lt h⟩
  have hpos := capacity_pos S
  rw [hzero] at hpos
  exact absurd hpos (by decide)

/-- A pool that is not told how many threads, on a machine with four cores. -/
theorem pool_sizes_four :
    (Setting.capacity { numThreads := 0, hardwareConcurrency := 4, users := 1 }).toNat = 3 ∧
    ∃ c, (construction { numThreads := 0, hardwareConcurrency := 4, users := 1 } none).Reach
      (fun _ _ => True) c ∧ c.stage = .returned ∧ c.pool.length = 3 := by
  obtain ⟨hwanted, hbuilt, -⟩ := pool_sizes { numThreads := 0, hardwareConcurrency := 4, users := 1 }
  have hthree := Int.ofNat.inj (hwanted.mpr (Or.inr (by decide)))
  obtain ⟨c, h, hs, -⟩ := reach_loop (S := { numThreads := 0, hardwareConcurrency := 4, users := 1 })
    none (k := 3) (by decide)
  have hreturned : (construction { numThreads := 0, hardwareConcurrency := 4, users := 1 } none).next
      c .construct = some { c with stage := .returned } := by
    show c.construct _ none = _
    unfold Construction.construct
    rw [hs]
    exact if_neg (by decide)
  have hreach := h.step trivial hreturned
  exact ⟨hthree, _, hreach, rfl, (hbuilt none _ hreach rfl).trans hthree⟩

/-- On a machine that does not say how many it has. -/
theorem unknown_hardware :
    (Setting.capacity { numThreads := 0, hardwareConcurrency := 0, users := 1 }).toNat = 4294967295 ∧
    Setting.wanted { numThreads := 0, hardwareConcurrency := 0, users := 1 } = 2 :=
  capacity_unknown (by decide) rfl

end Warlib.Threadpool
