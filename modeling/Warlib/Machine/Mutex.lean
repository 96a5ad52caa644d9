import Mathlib.Data.Fintype.EquivFin
import Mathlib.Logic.Relation
import Mathlib.Order.WellFounded
import Warlib.Machine.Threads

/-!
# A mutex

A library module: threads that share a mutex, given as the thread that owns
it. `holds` says which program points are inside the critical section.
`LockMove` is what one step may do: leave the mutex alone, take it when it is
free, or give it back; `Owned.move` is the mutual exclusion that follows, for
any number of threads. `inHand` is what the owner has still to do, and
`Owned.inHand_step` how a step changes it.

Where threads wait for one another and not for a mutex, `exists_circle` says
how that can go wrong: if everybody who is waited for waits himself, they wait
in a circle.
-/

namespace Warlib.Machine

variable {φ ε : Type} {holds : φ → Nat}

/-- The owner is inside once, and everybody else outside. -/
def Owned (holds : φ → Nat) (lock : Option Nat) (ths : List (Thread φ ε)) : Prop :=
  ∀ i th, ths[i]? = some th → weigh holds th.frames = if lock = some i then 1 else 0

/-- What a step of the frame `f` of thread `i` may do to the mutex. -/
inductive LockMove (holds : φ → Nat) (i : Nat) (f : φ) (nx : Next φ ε) :
    Option Nat → Option Nat → Prop
  | alone {lock : Option Nat} (hsame : weigh holds nx.frames = holds f) :
    LockMove holds i f nx lock lock
  | acquire (hmore : weigh holds nx.frames = holds f + 1) : LockMove holds i f nx none (some i)
  | release {lock : Option Nat} (hless : weigh holds nx.frames + 1 = holds f) :
    LockMove holds i f nx lock none

variable {ths : List (Thread φ ε)} {lock lock' : Option Nat} {i : Nat} {ctl : Ctl ε} {f : φ}
  {rest : List φ} {nx : Next φ ε}

/-- A frame inside the critical section belongs to the owner. -/
theorem Owned.owner (h : Owned holds lock ths) {j : Nat} {th : Thread φ ε}
    (hth : ths[j]? = some th) {g : φ} (hg : g ∈ th.frames) (hholds : 0 < holds g) :
    lock = some j := by
  have hweigh := h j th hth
  have hle := le_weigh holds hg
  by_cases howner : lock = some j
  · exact howner
  · rw [if_neg howner] at hweigh
    omega

/-- When the mutex is free, nobody is inside. -/
theorem Owned.free (h : Owned holds none ths) {j : Nat} {th : Thread φ ε}
    (hth : ths[j]? = some th) {g : φ} (hg : g ∈ th.frames) : holds g = 0 := by
  by_cases hholds : 0 < holds g
  · exact absurd (h.owner hth hg hholds) (by simp)
  · omega

/-- When the moving frame is inside, every other frame is outside. -/
theorem Owned.others (h : Owned holds lock ths) (hth : ths[i]? = some ⟨ctl, f :: rest⟩)
    (hf : 0 < holds f) :
    (∀ g ∈ rest, holds g = 0) ∧
      ∀ j th, j ≠ i → ths[j]? = some th → ∀ g ∈ th.frames, holds g = 0 := by
  have howner := h.owner hth (List.mem_cons_self ..) hf
  refine ⟨fun g hg => ?_, fun j th hj hthj g hg => ?_⟩
  · have hweigh := h i _ hth
    rw [weigh_cons, if_pos howner] at hweigh
    have hle := le_weigh holds hg
    omega
  · by_cases hholds : 0 < holds g
    · have hother := h.owner hthj hg hholds
      rw [howner, Option.some.injEq] at hother
      exact absurd hother.symm hj
    · omega

/-- When the moving frame is inside, it is the only one. -/
theorem Owned.alone (h : Owned holds lock ths) (hth : ths[i]? = some ⟨ctl, f :: rest⟩)
    (hf : 0 < holds f) {g : φ} (hg : g ∈ framesOf ths) (hholds : 0 < holds g) : g = f := by
  obtain ⟨hrest, hothers⟩ := h.others hth hf
  obtain ⟨j, th, hj, hg⟩ := mem_framesOf.mp hg
  by_cases hij : j = i
  · subst hij
    obtain rfl := Option.some.inj (hth.symm.trans hj)
    rcases List.mem_cons.mp hg with rfl | hg
    · rfl
    · have hout := hrest g hg
      omega
  · have hout := hothers j th hij hj g hg
    omega

/-- What holds of every frame, and is only about what the mutex protects: frames that
are outside have it anyway, and those inside are disturbed by nobody. -/
theorem Owned.forall_frames {F F' : Nat → φ → Prop} (h : Owned holds lock ths)
    (hth : ths[i]? = some ⟨ctl, f :: rest⟩)
    (hold : ∀ j th, ths[j]? = some th → ∀ g ∈ th.frames, F j g)
    (hkeep : holds f = 0 → ∀ j g, F j g → F' j g)
    (hout : 0 < holds f → ∀ j g, holds g = 0 → F' j g)
    (hnew : F i f → ∀ g ∈ nx.frames, F' i g) :
    ∀ j th, (ths.set i (nx.resume rest))[j]? = some th → ∀ g ∈ th.frames, F' j g := by
  by_cases hf : 0 < holds f
  · obtain ⟨hrest, hothers⟩ := h.others hth hf
    refine forall_set (T := fun j th => ∀ g ∈ th.frames, F' j g) ?_
      fun j th hj hthj g hg => hout hf j g (hothers j th hj hthj g hg)
    intro g hg
    rw [Next.resume_frames] at hg
    rcases List.mem_append.mp hg with hg | hg
    · exact hnew (hold i _ hth f (List.mem_cons_self ..)) g hg
    · exact hout hf i g (hrest g hg)
  · exact forall_frames_set hth hold (hkeep (by omega)) hnew

/-- **Mutual exclusion** is kept by every step that handles the mutex properly. -/
theorem Owned.move (h : Owned holds lock ths) (hth : ths[i]? = some ⟨ctl, f :: rest⟩)
    (hmove : LockMove holds i f nx lock lock') :
    Owned holds lock' (ths.set i (nx.resume rest)) := by
  have hmine := h i _ hth
  have howner := h.owner hth (List.mem_cons_self ..)
  rw [weigh_cons] at hmine
  unfold Owned
  refine forall_set ?_ ?_
  · rw [Next.resume_frames, weigh_append]
    cases hmove with
    | alone hsame =>
      rw [hsame]
      exact hmine
    | acquire hmore =>
      rw [hmore, if_pos rfl]
      rw [if_neg (by simp)] at hmine
      omega
    | release hless =>
      rw [howner (by omega), if_pos rfl] at hmine
      rw [if_neg (by simp)]
      omega
  · intro j th hj hthj
    have hother := h j th hthj
    rw [hother]
    cases hmove with
    | alone hsame => rfl
    | acquire hmore =>
      rw [if_neg (by simp), if_neg (by simpa using Ne.symm hj)]
    | release hless =>
      rw [howner (by omega), if_neg (by simpa using Ne.symm hj), if_neg (by simp)]

/-- The owner is one of `N` threads, when they are the ones that move. -/
theorem LockMove.owner_lt (h : LockMove holds i f nx lock lock') {N : Nat}
    (hold : ∀ j, lock = some j → j < N) (hi : i < N) : ∀ j, lock' = some j → j < N := by
  intro j hj
  cases h with
  | alone hsame => exact hold j hj
  | acquire hmore =>
    obtain rfl := Option.some.inj hj
    exact hi
  | release hless => exact absurd hj (by simp)

/-! ## What the owner has in hand -/

variable {δ : Type} {debt : Nat → φ → List δ}

/-- What the frames of the owner still have to do, in some account in which frames
outside the critical section have nothing. -/
def inHand (debt : Nat → φ → List δ) (lock : Option Nat) (ths : List (Thread φ ε)) : List δ :=
  lock.toList.flatMap fun i => ths[i]?.toList.flatMap fun th => th.frames.flatMap (debt i)

@[simp] theorem inHand_free : inHand debt none ths = [] := rfl

theorem inHand_owner {th : Thread φ ε} (hth : ths[i]? = some th) :
    inHand debt (some i) ths = th.frames.flatMap (debt i) := by
  simp [inHand, hth]

theorem debt_outside (hout : ∀ j g, holds g = 0 → debt j g = []) {fs : List φ}
    (h : ∀ g ∈ fs, holds g = 0) : fs.flatMap (debt i) = [] := by
  rw [List.flatMap_eq_nil_iff]
  exact fun g hg => hout i g (h g hg)

/-- Whoever is inside once has at most one thing in hand. -/
theorem Owned.inHand_length (h : Owned holds lock ths)
    (hone : ∀ j g, (debt j g).length ≤ holds g) : (inHand debt lock ths).length ≤ 1 := by
  have hweigh : ∀ j fs, (fs.flatMap (debt j)).length ≤ weigh holds fs := by
    intro j fs
    induction fs with
    | nil => exact Nat.le_refl _
    | cons g fs ih =>
      rw [List.flatMap_cons, List.length_append, weigh_cons]
      exact Nat.add_le_add (hone j g) ih
  cases lock with
  | none => exact Nat.zero_le _
  | some j =>
    cases hj : ths[j]? with
    | none => simp [inHand, hj]
    | some th =>
      rw [inHand_owner hj]
      have howned := h j th hj
      rw [if_pos rfl] at howned
      rw [← howned]
      exact hweigh j th.frames

/-- A step of the owner: what it adds to its account and what it takes off. -/
theorem Owned.inHand_inside (h : Owned holds lock ths) (hth : ths[i]? = some ⟨ctl, f :: rest⟩)
    (hmove : LockMove holds i f nx lock lock') (hout : ∀ j g, holds g = 0 → debt j g = [])
    {more done : List δ} (hbalance : debt i f ++ more = done ++ nx.frames.flatMap (debt i))
    (hf : 0 < holds f) :
    inHand debt lock ths ++ more = done ++ inHand debt lock' (ths.set i (nx.resume rest)) := by
  have hi : i < ths.length := (List.getElem?_eq_some_iff.mp hth).1
  have hmine : (ths.set i (nx.resume rest))[i]? = some (nx.resume rest) := by
    rw [List.getElem?_set_self hi]
  have hlock := h.owner hth (List.mem_cons_self ..) hf
  have hrest : rest.flatMap (debt i) = [] := debt_outside hout (h.others hth hf).1
  have hbefore : inHand debt lock ths = debt i f := by
    rw [hlock, inHand_owner hth, List.flatMap_cons, hrest, List.append_nil]
  rw [hbefore, hbalance]
  congr 1
  cases hmove with
  | alone hsame =>
    rw [hlock, inHand_owner hmine, Next.resume_frames, List.flatMap_append, hrest, List.append_nil]
  | acquire hmore => exact absurd hlock (by simp)
  | release hless =>
    rw [inHand_free]
    refine debt_outside hout fun g hg => ?_
    have hle := le_weigh holds hg
    have hweigh := h i _ hth
    rw [weigh_cons, if_pos hlock] at hweigh
    omega

/-- A step outside the critical section: only taking the mutex opens an account. -/
theorem Owned.inHand_outside (h : Owned holds lock ths) (hth : ths[i]? = some ⟨ctl, f :: rest⟩)
    (hmove : LockMove holds i f nx lock lock') (hout : ∀ j g, holds g = 0 → debt j g = [])
    {more : List δ} (hbalance : more = nx.frames.flatMap (debt i)) (hf : holds f = 0)
    (hmore : lock' = lock → more = []) :
    inHand debt lock ths ++ more = inHand debt lock' (ths.set i (nx.resume rest)) := by
  have hi : i < ths.length := (List.getElem?_eq_some_iff.mp hth).1
  have hmine : (ths.set i (nx.resume rest))[i]? = some (nx.resume rest) := by
    rw [List.getElem?_set_self hi]
  cases hmove with
  | alone hsame =>
    have hnone := hmore rfl
    rw [hnone, List.append_nil]
    rw [hnone] at hbalance
    cases lock with
    | none => rfl
    | some j =>
      by_cases hji : j = i
      · subst hji
        rw [inHand_owner hth, inHand_owner hmine, Next.resume_frames, List.flatMap_append,
          ← hbalance, List.flatMap_cons, hout j f hf]
      · rw [inHand, inHand, Option.toList_some, List.flatMap_singleton, List.flatMap_singleton,
          List.getElem?_set_ne (Ne.symm hji)]
  | acquire hacquire =>
    have hrest : rest.flatMap (debt i) = [] :=
      debt_outside hout fun g hg => h.free hth (List.mem_cons_of_mem _ hg)
    rw [inHand_free, List.nil_append, inHand_owner hmine, Next.resume_frames, List.flatMap_append,
      hrest, List.append_nil, hbalance]
  | release hless => omega

/-- **The account of the owner.** A step changes it by what the moving frame adds and
takes off, when frames outside the critical section take nothing off and add
something only in taking the mutex. -/
theorem Owned.inHand_step (h : Owned holds lock ths) (hth : ths[i]? = some ⟨ctl, f :: rest⟩)
    (hmove : LockMove holds i f nx lock lock') (hout : ∀ j g, holds g = 0 → debt j g = [])
    {more done : List δ} (hbalance : debt i f ++ more = done ++ nx.frames.flatMap (debt i))
    (hdone : holds f = 0 → done = []) (hmore : holds f = 0 → lock' = lock → more = []) :
    inHand debt lock ths ++ more = done ++ inHand debt lock' (ths.set i (nx.resume rest)) := by
  by_cases hf : holds f = 0
  · rw [hdone hf, List.nil_append]
    rw [hdone hf, hout i f hf, List.nil_append, List.nil_append] at hbalance
    exact h.inHand_outside hth hmove hout hbalance hf (hmore hf)
  · exact h.inHand_inside hth hmove hout hbalance (by omega)

/-! ## Waiting in a circle -/

/-- A relation in which everything that is reached goes on, on a finite type, goes round
in a circle. -/
theorem exists_circle {α : Type} [Finite α] {r : α → α → Prop} {a b : α} (hab : r a b)
    (hnext : ∀ x y, r x y → ∃ z, r y z) : ∃ c, Relation.TransGen r c c := by
  by_contra hnone
  -- without a circle there is a last one, from which nothing is reached
  have hirrefl : Std.Irrefl fun x y => Relation.TransGen r y x :=
    ⟨fun c hc => hnone ⟨c, hc⟩⟩
  have htrans : IsTrans α fun x y => Relation.TransGen r y x :=
    ⟨fun _ _ _ hxy hyz => hyz.trans hxy⟩
  have hwf := Finite.wellFounded_of_trans_of_irrefl fun x y => Relation.TransGen r y x
  obtain ⟨last, ⟨x, hx⟩, hlast⟩ := hwf.has_min {y | ∃ x, r x y} ⟨b, a, hab⟩
  obtain ⟨z, hz⟩ := hnext x last hx
  exact hlast z ⟨last, hz⟩ (.single hz)

/-- The same when it is numbers below `N` that are reached. -/
theorem exists_circle_lt {N : Nat} {r : Nat → Nat → Prop} {a b : Nat} (hab : r a b)
    (hlt : ∀ x y, r x y → y < N) (hnext : ∀ x y, r x y → ∃ z, r y z) :
    ∃ c, Relation.TransGen r c c := by
  obtain ⟨z, hbz⟩ := hnext a b hab
  obtain ⟨c, hc⟩ := exists_circle (α := Fin N) (r := fun x y => r x y) (a := ⟨b, hlt a b hab⟩)
    (b := ⟨z, hlt b z hbz⟩) hbz fun x y hxy => by
      obtain ⟨z, hz⟩ := hnext x y hxy
      exact ⟨⟨z, hlt y z hz⟩, hz⟩
  exact ⟨c, hc.lift Fin.val fun _ _ hxy => hxy⟩

end Warlib.Machine
