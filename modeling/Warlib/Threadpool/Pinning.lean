import Warlib.Machine.CpuSet
import Warlib.Threadpool.Construction

/-!
# Pinning the workers to processors

What `Run` asks the operating system for after it has the lock on `waiter_`,
and how the number gets there from the array of the pool's constructor. The
mask is right. The length that goes with it is 1, and it is in bytes: the
operating system sees processors 0 to 7 (`pinned_worker`).
-/

namespace Warlib.Threadpool

open Warlib.Machine Warlib.Pipeline

variable {S : Setting} {pinning : Option (List Int)} {c : Construction} {w : Worker}
  {ok : Construction → Doing → Prop}

/-! ## `Run` -/

/-- The arguments of `pthread_setaffinity_np`. -/
structure Affinity where
  cpusetsize : Nat
  cpuset : CpuSet
  deriving DecidableEq, Repr

/-- What the operating system reads. -/
def Affinity.mask (a : Affinity) : List (BitVec 8) := a.cpuset.bytes.take a.cpusetsize

/-- `if (pinTo != -1) { cpu_set_t cs{}; CPU_SET(pinTo, &cs); pthread_setaffinity_np(.., 1, &cs) }`. -/
def affinity (pinTo : Int) : Option Affinity :=
  if pinTo ≠ -1 then some ⟨1, CpuSet.empty.add (.ofInt 64 pinTo)⟩ else none

/-- What a worker asks for. -/
def Worker.affinity (w : Worker) : Option Affinity := Threadpool.affinity w.arguments.pinTo

/-- It asks for this processor and no other. -/
def Worker.AsksFor (w : Worker) (cpu : Nat) : Prop :=
  ∃ a, w.affinity = some a ∧ ∀ other, requested a.mask other = true ↔ other = cpu

/-- The array has nothing for the `i`th worker. -/
def Unpinned (pinning : Option (List Int)) (i : Nat) : Prop :=
  ∀ cpus, pinning = some cpus → cpus.length ≤ i ∨ cpus[i]? = some (-1)

/-- The `i`th worker, in `pool_` or on its way there. -/
def Construction.Has (c : Construction) (i : Nat) (w : Worker) : Prop :=
  c.pool[i]? = some w ∨ (i = c.pool.length ∧ ∃ k, c.stage = .making k w)

/-! ## From the array to `Run` -/

theorem pinTo_eq {cpus : List Int} {i : BitVec 32} {cpu : Int} (h : cpus[i.toNat]? = some cpu) :
    pinTo (some cpus) i = cpu := by
  obtain ⟨hlt, hget⟩ := List.getElem?_eq_some_iff.mp h
  show (if h : i.toNat < cpus.length then cpus[i.toNat] else -1) = cpu
  rw [dif_pos hlt]
  exact hget

theorem pinTo_unpinned {i : BitVec 32} (h : Unpinned pinning i.toNat) : pinTo pinning i = -1 := by
  cases pinning with
  | none => rfl
  | some cpus =>
    rcases h cpus rfl with hshort | hfree
    · show (if h : i.toNat < cpus.length then cpus[i.toNat] else -1) = -1
      rw [dif_neg (by omega)]
    · exact pinTo_eq hfree

/-- The argument is the one of its own round. -/
theorem Sound.has_arguments {i : Nat} (h : Sound S pinning c) (hw : c.Has i w) :
    w.arguments = S.arguments pinning (.ofNat 32 i) ∧ (BitVec.ofNat 32 i).toNat = i := by
  rcases hw with hw | ⟨hi, k, hk⟩
  · exact h.arguments hw
  · have hprogress := h.progress
    rw [hk] at hprogress
    generalize c.failed = failed, c.pool.length = n at hprogress hi
    cases hprogress with
    | making hkey _ hw =>
      have hround : BitVec.ofNat 32 i = k := by
        rw [hi, ← hkey, BitVec.ofNat_toNat, BitVec.setWidth_eq]
      rw [hround]
      exact ⟨hw.arguments, by omega⟩

/-! ## What is asked for -/

theorem affinity_ne {pinTo : Int} (h : pinTo ≠ -1) :
    affinity pinTo = some ⟨1, CpuSet.empty.add (.ofInt 64 pinTo)⟩ := by
  unfold affinity
  rw [if_pos h]

/-- `CPU_SET` gets the number as it is. -/
theorem toNat_ofInt {cpu : Nat} (h : cpu < cpuSetSize) : (BitVec.ofInt 64 (cpu : Int)).toNat = cpu := by
  unfold cpuSetSize at h
  rw [BitVec.ofInt_natCast, BitVec.toNat_ofNat, Nat.mod_eq_of_lt (by omega)]

theorem asksFor_iff {cpu : Nat} (h : cpu < cpuSetSize) (hw : w.arguments.pinTo = (cpu : Int)) :
    w.AsksFor cpu ↔ cpu < 8 := by
  have hasks : w.affinity = some ⟨1, CpuSet.empty.add (.ofInt 64 (cpu : Int))⟩ := by
    unfold Worker.affinity
    rw [hw]
    exact affinity_ne (by omega)
  have hnumber := toNat_ofInt h
  have hone := requested_add_empty (n := 1) (hnumber.symm ▸ h) (by omega)
  rw [hnumber] at hone
  constructor
  · intro ⟨a, ha, hall⟩
    obtain rfl := Option.some.inj (hasks.symm.trans ha)
    exact hone.mp hall
  · intro hsmall
    exact ⟨_, hasks, hone.mpr hsmall⟩

/-- **Pinning.** The `i`th worker of a pool whose array has a processor for it asks for
exactly that one if and only if its number is below 8; a worker the array has
nothing for asks for nothing. -/
theorem pinned_worker (S : Setting) (pinning : Option (List Int)) {c : Construction}
    (h : (construction S pinning).Reach (fun _ _ => True) c) {i : Nat} {w : Worker}
    (hw : c.Has i w) :
    (∀ (cpus : List Int) (cpu : Nat), pinning = some cpus → cpus[i]? = some (cpu : Int) →
      cpu < cpuSetSize → (w.AsksFor cpu ↔ cpu < 8)) ∧
    (Unpinned pinning i → w.affinity = none) := by
  obtain ⟨hargs, hround⟩ := (reach_sound h).has_arguments hw
  have hpinTo : w.arguments.pinTo = pinTo pinning (.ofNat 32 i) := by
    rw [hargs]
    rfl
  constructor
  · intro cpus cpu hpinning hcpu hin
    subst hpinning
    rw [← hround] at hcpu
    exact asksFor_iff hin (hpinTo.trans (pinTo_eq hcpu))
  · intro hfree
    rw [← hround] at hfree
    unfold Worker.affinity
    rw [hpinTo, pinTo_unpinned hfree]
    rfl

/-- The first worker of a pool, when the array has this processor for it. -/
theorem has_first (cpu : Nat) :
    ∃ c w, (construction { numThreads := 1, users := 1 } (some [(cpu : Int)])).Reach
      (fun _ _ => True) c ∧ c.Has 0 w := by
  have hstarted := reach_started (S := { numThreads := 1, users := 1 }) (i := 0)
    (.start (M := construction _ (some [(cpu : Int)])) rfl) rfl (by decide)
  exact ⟨_, _, hstarted, Or.inr ⟨rfl, _, rfl⟩⟩

/-- The first worker on processor 7. -/
theorem pinned_worker_seven :
    ∃ c w, (construction { numThreads := 1, users := 1 } (some [7])).Reach (fun _ _ => True) c ∧
      c.Has 0 w ∧ w.AsksFor 7 := by
  obtain ⟨c, w, h, hw⟩ := has_first 7
  exact ⟨c, w, h, hw, ((pinned_worker _ _ h hw).1 [7] 7 rfl rfl (by decide)).mpr (by decide)⟩

/-- On processor 8: the bit is in the second byte, which is not handed over. -/
theorem pinned_worker_eight :
    ∃ c w, (construction { numThreads := 1, users := 1 } (some [8])).Reach (fun _ _ => True) c ∧
      c.Has 0 w ∧ ¬w.AsksFor 8 := by
  obtain ⟨c, w, h, hw⟩ := has_first 8
  have hpinTo : w.arguments.pinTo = ((8 : Nat) : Int) := by
    obtain ⟨hargs, -⟩ := (reach_sound h).has_arguments hw
    rw [hargs]
    rfl
  refine ⟨c, w, h, hw, fun hasks => ?_⟩
  exact absurd ((asksFor_iff (by decide) hpinTo).mp hasks) (by decide)

end Warlib.Threadpool
