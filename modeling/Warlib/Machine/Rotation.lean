import Mathlib.Order.Interval.Finset.Nat
import Mathlib.Data.List.Nodup

/-!
# Taking turns by a counter that wraps around

A library module: `n` parties are served in turn, the `c`th time the one with
number `c % n`, where the counter itself is only kept modulo `W`. `InTurn`
says that any `n` consecutive times everybody is served once; `inTurn_iff` is
when a wrapping counter achieves it.
-/

namespace Warlib.Machine

/-- Any `n` consecutive elements are the numbers below `n`, each once. -/
def InTurn (n : Nat) (xs : List Nat) : Prop :=
  ∀ i, i + n ≤ xs.length → ((xs.drop i).take n).Perm (List.range n)

/-- The first `L` values of a counter, counted from one modulo `W`, taken modulo
`n`. -/
def counted (W n L : Nat) : List Nat := (List.range L).map fun c => (c + 1) % W % n

variable {W n L : Nat}

theorem counted_succ : counted W n (L + 1) = counted W n L ++ [(L + 1) % W % n] := by
  rw [counted, List.range_succ, List.map_append]
  rfl

@[simp] theorem counted_length : (counted W n L).length = L := by
  rw [counted, List.length_map, List.length_range]

/-- A stretch of the values. -/
theorem counted_window {i : Nat} (h : i + n ≤ L) :
    ((counted W n L).drop i).take n = (List.range' i n).map fun c => (c + 1) % W % n := by
  rw [counted, ← List.map_drop, ← List.map_take, List.range_eq_range', List.drop_range',
    List.take_range'_of_length_ge (by omega)]
  simp

/-- Any `n` consecutive numbers leave each remainder once. -/
theorem range'_mod_perm (a n : Nat) : ((List.range' a n).map (· % n)).Perm (List.range n) := by
  rw [← Multiset.coe_eq_coe, ← Multiset.map_coe, ← Multiset.range]
  have hIco : Multiset.Ico a (a + n) = (List.range' a n : Multiset Nat) := by
    show ((List.range' a (a + n - a) : List Nat) : Multiset Nat) = _
    rw [Nat.add_sub_cancel_left]
  rw [← hIco]
  exact Nat.multiset_Ico_map_mod a n

/-- Where the counter's own modulus does not show, the values take turns. -/
theorem inTurn_counted (h : ∀ c, c ≤ L → c % W % n = c % n) : InTurn n (counted W n L) := by
  intro i hi
  rw [counted_length] at hi
  rw [counted_window hi]
  have hplain : ((List.range' i n).map fun c => (c + 1) % W % n) =
      (List.range' (i + 1) n).map (· % n) := by
    rw [Nat.add_comm i 1, ← List.map_add_range', List.map_map]
    refine List.map_congr_left fun c hc => ?_
    have hlt : c < i + n := (List.mem_range'_1.mp hc).2
    show (c + 1) % W % n = (1 + c) % n
    rw [Nat.add_comm 1 c]
    exact h (c + 1) (by omega)
  rw [hplain]
  exact range'_mod_perm (i + 1) n

/-- Where it shows, they do not: the wrap comes after the value `0`, and the last
multiple of `n` before it is less than `n` values away. -/
theorem not_inTurn_counted (hn : 0 < n) (hW : n < W) (hdvd : ¬n ∣ W) (hL : W ≤ L) :
    ¬InTurn n (counted W n L) := by
  intro hturn
  have hpos : 0 < W % n := Nat.emod_pos_of_not_dvd hdvd
  have hlt : W % n < n := Nat.mod_lt W hn
  -- the last `n` values before the wrap, and the wrap
  have hwindow : W - n + n ≤ L := by omega
  have hperm := hturn (W - n) (by rw [counted_length]; exact hwindow)
  rw [counted_window hwindow] at hperm
  have hnodup := hperm.nodup_iff.mpr List.nodup_range
  have hzero : (W - W % n - 1 + 1) % W % n = 0 := by
    have hmul : W - W % n = n * (W / n) := by
      have hdiv := Nat.div_add_mod W n
      omega
    have hbelow : W - W % n < W := by omega
    rw [Nat.sub_add_cancel (by omega), Nat.mod_eq_of_lt hbelow, hmul, Nat.mul_mod_right]
  have hwrap : (W - 1 + 1) % W % n = 0 := by
    rw [Nat.sub_add_cancel (by omega), Nat.mod_self, Nat.zero_mod]
  have hmultiple : W - W % n - 1 ∈ List.range' (W - n) n := List.mem_range'_1.mpr (by omega)
  have hlast : W - 1 ∈ List.range' (W - n) n := List.mem_range'_1.mpr (by omega)
  have heq := List.inj_on_of_nodup_map hnodup hmultiple hlast (hzero.trans hwrap.symm)
  omega

/-- **Taking turns**: a counter modulo `W` serves `n` parties in turn for as long
as it has not wrapped around, and for ever only when `n` divides `W`. -/
theorem inTurn_counted_iff (hn : 0 < n) (hW : n < W) :
    InTurn n (counted W n L) ↔ n ∣ W ∨ L < W := by
  constructor
  · intro hturn
    by_contra hno
    rw [not_or, Nat.not_lt] at hno
    exact not_inTurn_counted hn hW hno.1 hno.2 hturn
  · rintro (hdvd | hL)
    · exact inTurn_counted fun c _ => Nat.mod_mod_of_dvd c hdvd
    · refine inTurn_counted fun c hc => ?_
      have hbelow : c < W := by omega
      rw [Nat.mod_eq_of_lt hbelow]

end Warlib.Machine
