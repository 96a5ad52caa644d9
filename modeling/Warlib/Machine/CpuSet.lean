/-!
# Sets of processors

A library module: `cpu_set_t` of `sched.h`, a bit mask of 1024 bits in words of
64, and what the operating system makes of its first bytes. `CPU_SET` of a
number outside the mask does nothing.

The mask is passed by its address and a number of bytes, so what is asked for
is the part of the set that these bytes hold (`requested_bytes_take`).
-/

namespace Warlib.Machine

/-- `CPU_SETSIZE`. -/
def cpuSetSize : Nat := 1024

/-- `cpu_set_t`. -/
structure CpuSet where
  bits : Vector (BitVec 64) 16
  deriving DecidableEq, Repr

namespace CpuSet

/-- `cpu_set_t cs{}`. -/
def empty : CpuSet := ⟨Vector.replicate 16 0#64⟩

/-- `CPU_SET(cpu, &cs)`: `__cpu / 8 < 128 ? __bits[__cpu / 64] |= 1UL << (__cpu % 64) : 0`. -/
def add (cs : CpuSet) (cpu : BitVec 64) : CpuSet :=
  if h : cpu.toNat / 8 < 128 then
    ⟨cs.bits.set (cpu.toNat / 64) (cs.bits[cpu.toNat / 64] ||| 1#64 <<< (cpu.toNat % 64))⟩
  else cs

/-- `CPU_ISSET(cpu, &cs)`. -/
def has (cs : CpuSet) (cpu : Nat) : Bool := (cs.bits[cpu / 64]?.getD 0).getLsbD (cpu % 64)

/-- The bytes in memory, the lowest of each word first. -/
def bytes (cs : CpuSet) : List (BitVec 8) :=
  (List.range 128).map fun k => ((cs.bits[k / 8]?.getD 0) >>> (8 * (k % 8))).setWidth 8

end CpuSet

/-- Whether a mask that is given by these bytes asks for a processor. -/
def requested (mask : List (BitVec 8)) (cpu : Nat) : Bool :=
  (mask[cpu / 8]?.getD 0).getLsbD (cpu % 8)

/-- The first bytes ask for the part of the set that is in them. -/
theorem requested_bytes_take (cs : CpuSet) {n : Nat} (hn : n ≤ 128) (cpu : Nat) :
    requested (cs.bytes.take n) cpu = (decide (cpu / 8 < n) && cs.has cpu) := by
  unfold requested CpuSet.has
  by_cases hin : cpu / 8 < n
  · have hbyte : (cs.bytes.take n)[cpu / 8]? =
        some (((cs.bits[cpu / 8 / 8]?.getD 0) >>> (8 * (cpu / 8 % 8))).setWidth 8) := by
      rw [List.getElem?_take_of_lt hin, CpuSet.bytes, List.getElem?_map,
        List.getElem?_range (by omega)]
      rfl
    have hword : cpu / 8 / 8 = cpu / 64 := by omega
    have hbit : 8 * (cpu / 8 % 8) + cpu % 8 = cpu % 64 := by omega
    have hlow : cpu % 8 < 8 := by omega
    rw [hbyte, Option.getD_some, BitVec.getLsbD_setWidth, BitVec.getLsbD_ushiftRight, hword, hbit]
    simp [hin, hlow]
  · have hnone : (cs.bytes.take n)[cpu / 8]? = none := by
      rw [List.getElem?_eq_none_iff, List.length_take]
      omega
    rw [hnone]
    simp [hin]

/-- The set of one processor. -/
theorem has_add_empty {cpu : BitVec 64} (h : cpu.toNat < cpuSetSize) (other : Nat) :
    (CpuSet.empty.add cpu).has other = true ↔ other = cpu.toNat := by
  have hin : cpu.toNat / 8 < 128 := by
    unfold cpuSetSize at h
    omega
  unfold CpuSet.add CpuSet.has
  rw [dif_pos hin]
  dsimp only
  rw [Vector.getElem?_set]
  by_cases hword : cpu.toNat / 64 = other / 64
  · have hzero : CpuSet.empty.bits[cpu.toNat / 64] = 0#64 := Vector.getElem_replicate ..
    rw [if_pos hword, hzero]
    have hbit : (1#64 <<< (cpu.toNat % 64)).getLsbD (other % 64) =
        decide (other % 64 = cpu.toNat % 64) := by
      rw [BitVec.getLsbD_shiftLeft, BitVec.getLsbD_one]
      grind
    rw [Option.getD_some, BitVec.zero_or, hbit, decide_eq_true_eq]
    omega
  · rw [if_neg hword]
    have hnone : (CpuSet.empty.bits[other / 64]?.getD 0).getLsbD (other % 64) = false := by
      unfold CpuSet.empty
      rw [Vector.getElem?_replicate]
      split
      · exact BitVec.getLsbD_zero
      · exact BitVec.getLsbD_zero
    rw [hnone]
    refine iff_of_false (by simp) fun he => hword ?_
    rw [he]

/-- The first `n` bytes of it ask for exactly this processor, if it is in them. -/
theorem requested_add_empty {cpu : BitVec 64} (h : cpu.toNat < cpuSetSize) {n : Nat} (hn : n ≤ 128) :
    (∀ other, requested ((CpuSet.empty.add cpu).bytes.take n) other = true ↔ other = cpu.toNat) ↔
      cpu.toNat < 8 * n := by
  constructor
  · intro hall
    have hself := (hall cpu.toNat).mpr rfl
    rw [requested_bytes_take _ hn] at hself
    simp at hself
    omega
  · intro hin other
    rw [requested_bytes_take _ hn, Bool.and_eq_true, has_add_empty h]
    simp
    omega

end Warlib.Machine
