import Mathlib.Algebra.BigOperators.Group.List.Basic
import Mathlib.Algebra.Group.Nat.Defs
import Mathlib.Algebra.Order.Monoid.Defs
import Warlib.Machine.Lts

/-!
# Threads over a shared memory, one atomic step at a time

The second library module. A thread is a stack of frames (top first); a
frame is a program point of some function together with its live
variables. One step of one thread lets the *top* frame perform one atomic
action on the shared memory and say what becomes of it:

* `goto f` — the function goes on at another program point;
* `call f g` — it calls `g` and will go on at `f`;
* `ret` / `thr e` — it returns, or ends by an exception, to the frame below.

What the callee gave back is the thread's control `Ctl`, read by the frame
that is on top again. A frame therefore never sees the frames below it,
so a fact about one step of one frame lifts to the whole pool by general
rules, proved here once:

* `tally_resume` — the sum of a weight over all frames of all threads
  changes exactly by the moving frame's own balance (weights in any
  commutative monoid: natural numbers, machine words);
* `Next.grounded` — a relation between each frame and the one it returns to
  is kept when the move keeps it locally;
* `forall_set`, `forall_frames_set` — a per-thread (per-frame) invariant is
  kept when the moving thread re-establishes its own and nobody else's is
  disturbed.
-/

namespace Warlib.Machine

variable {μ φ ε α β M : Type}

/-- What the top frame of a thread is about to see: nothing yet, a callee
that returned, or a callee that ended by an exception. -/
inductive Ctl (ε : Type)
  | go
  | ret
  | thr (e : ε)
  deriving DecidableEq, Repr

/-- What a step does to the frame that took it. -/
inductive Next (φ ε : Type)
  | goto (f : φ)
  | call (f callee : φ)
  | ret
  | thr (e : ε)

/-- A thread: its control and its frames, innermost first. -/
structure Thread (φ ε : Type) where
  ctl : Ctl ε
  frames : List φ
  deriving DecidableEq, Repr

/-- What a thread is doing. -/
theorem Thread.top_inj {o : Option (Thread φ ε)} {ctl ctl' : Ctl ε} {f f' : φ} {rest rest' : List φ}
    (h : o = some ⟨ctl, f :: rest⟩) (h' : o = some ⟨ctl', f' :: rest'⟩) :
    ctl = ctl' ∧ f = f' ∧ rest = rest' := by
  rw [h, Option.some.injEq, Thread.mk.injEq, List.cons.injEq] at h'
  exact h'

/-- The thread after its top frame moved; `rest` are the frames below. -/
def Next.resume (rest : List φ) : Next φ ε → Thread φ ε
  | .goto f => ⟨.go, f :: rest⟩
  | .call f g => ⟨.go, g :: f :: rest⟩
  | .ret => ⟨.ret, rest⟩
  | .thr e => ⟨.thr e, rest⟩

@[simp] theorem Next.resume_goto (f : φ) (rest : List φ) :
    (Next.goto f : Next φ ε).resume rest = ⟨.go, f :: rest⟩ := rfl

@[simp] theorem Next.resume_call (f g : φ) (rest : List φ) :
    (Next.call f g : Next φ ε).resume rest = ⟨.go, g :: f :: rest⟩ := rfl

@[simp] theorem Next.resume_ret (rest : List φ) :
    (Next.ret : Next φ ε).resume rest = ⟨.ret, rest⟩ := rfl

@[simp] theorem Next.resume_thr (e : ε) (rest : List φ) :
    (Next.thr e : Next φ ε).resume rest = ⟨.thr e, rest⟩ := rfl

/-- The frames a move leaves in place of the one that moved. -/
@[simp] def Next.frames : Next φ ε → List φ
  | .goto f => [f]
  | .call f g => [g, f]
  | .ret => []
  | .thr _ => []

theorem Next.resume_frames (rest : List φ) (nx : Next φ ε) :
    (nx.resume rest).frames = nx.frames ++ rest := by
  cases nx <;> rfl

/-- The one frame of a move that goes on. -/
theorem Next.forall_goto {P : φ → Prop} {f : φ} (hf : P f) :
    ∀ g ∈ (Next.goto f : Next φ ε).frames, P g := by
  intro g hg
  rw [List.mem_singleton.mp hg]
  exact hf

/-- The two frames of a call. -/
theorem Next.forall_call {P : φ → Prop} {f f' : φ} (hf' : P f') (hf : P f) :
    ∀ g ∈ (Next.call f f' : Next φ ε).frames, P g := by
  intro g hg
  rcases List.mem_pair.mp hg with rfl | rfl
  · exact hf'
  · exact hf

/-- A shared memory and the threads that work on it. -/
structure Pool (μ φ ε : Type) where
  mem : μ
  threads : List (Thread φ ε)

/-- Thread `i` takes a step with choice `a`, or the environment acts. -/
inductive Label (α β : Type)
  | thread (i : Nat) (a : α)
  | env (b : β)
  deriving DecidableEq, Repr

/-- A program: what the top frame of thread `i` does, given the choice `a`
(the resolution of whatever is not determined by the code) and what its
callee gave back; and what the environment may do to the memory. -/
structure Program (μ φ ε α β : Type) where
  step : Nat → α → Ctl ε → μ → φ → Option (μ × Next φ ε)
  env : β → μ → Option μ

/-- One step of the pool. A thread without frames has ended. -/
def Program.next (P : Program μ φ ε α β) (s : Pool μ φ ε) :
    Label α β → Option (Pool μ φ ε)
  | .thread i a =>
    match s.threads[i]? with
    | some ⟨ctl, f :: rest⟩ =>
      (P.step i a ctl s.mem f).map fun r => ⟨r.1, s.threads.set i (r.2.resume rest)⟩
    | _ => none
  | .env b => (P.env b s.mem).map fun m => ⟨m, s.threads⟩

/-- `Program.next`, inverted: everything a step of the pool can be. -/
inductive Program.Stepped (P : Program μ φ ε α β) (s : Pool μ φ ε) :
    Label α β → Pool μ φ ε → Prop
  | thread {i : Nat} {a : α} {ctl : Ctl ε} {f : φ} {rest : List φ} {m : μ} {nx : Next φ ε}
      (hth : s.threads[i]? = some ⟨ctl, f :: rest⟩)
      (hstep : P.step i a ctl s.mem f = some (m, nx)) :
      Stepped P s (.thread i a) ⟨m, s.threads.set i (nx.resume rest)⟩
  | env {b : β} {m : μ} (henv : P.env b s.mem = some m) : Stepped P s (.env b) ⟨m, s.threads⟩

theorem Program.stepped_of_next {P : Program μ φ ε α β} {s s' : Pool μ φ ε} {l : Label α β}
    (h : P.next s l = some s') : P.Stepped s l s' := by
  cases l with
  | thread i a =>
    simp only [Program.next] at h
    split at h
    next ctl f rest hth =>
      obtain ⟨⟨m, nx⟩, hstep, rfl⟩ := Option.map_eq_some_iff.mp h
      exact .thread hth hstep
    next => exact absurd h (by simp)
  | env b =>
    simp only [Program.next] at h
    obtain ⟨m, henv, rfl⟩ := Option.map_eq_some_iff.mp h
    exact .env henv

/-! ## Per-thread facts -/

/-- A fact about every thread survives the replacement of thread `i` when
the new thread has it and every other thread still does. -/
theorem forall_set {ths : List (Thread φ ε)} {i : Nat} {th' : Thread φ ε}
    {T : Nat → Thread φ ε → Prop} (hself : T i th')
    (hother : ∀ j th, j ≠ i → ths[j]? = some th → T j th) :
    ∀ j th, (ths.set i th')[j]? = some th → T j th := by
  intro j th hj
  by_cases hij : i = j
  · subst hij
    rw [List.getElem?_set_self'] at hj
    obtain ⟨_, _, rfl⟩ := Option.map_eq_some_iff.mp hj
    exact hself
  · rw [List.getElem?_set_ne hij] at hj
    exact hother j th (fun he => hij he.symm) hj

/-- A fact about every frame survives a move that brings only frames which have
it, when no frame that stays loses it. -/
theorem forall_frames_set {ths : List (Thread φ ε)} {i : Nat} {ctl : Ctl ε} {f : φ}
    {rest : List φ} {nx : Next φ ε} {F F' : Nat → φ → Prop}
    (hth : ths[i]? = some ⟨ctl, f :: rest⟩)
    (hold : ∀ j th, ths[j]? = some th → ∀ g ∈ th.frames, F j g) (hkeep : ∀ j g, F j g → F' j g)
    (hnew : F i f → ∀ g ∈ nx.frames, F' i g) :
    ∀ j th, (ths.set i (nx.resume rest))[j]? = some th → ∀ g ∈ th.frames, F' j g := by
  refine forall_set (T := fun j th => ∀ g ∈ th.frames, F' j g) ?_
    fun j th _ hj g hg => hkeep j g (hold j th hj g hg)
  intro g hg
  have hmine : ∀ g ∈ f :: rest, F i g := hold i _ hth
  rw [Next.resume_frames] at hg
  rcases List.mem_append.mp hg with hg | hg
  · exact hnew (hmine f (List.mem_cons_self ..)) g hg
  · exact hkeep i g (hmine g (List.mem_cons_of_mem _ hg))

/-- The frames of all threads. -/
def framesOf (ths : List (Thread φ ε)) : List φ := ths.flatMap Thread.frames

theorem mem_framesOf {ths : List (Thread φ ε)} {g : φ} :
    g ∈ framesOf ths ↔
      ∃ (i : Nat) (th : Thread φ ε), ths[i]? = some th ∧ g ∈ th.frames := by
  rw [framesOf, List.mem_flatMap]
  constructor
  · rintro ⟨th, hth, hg⟩
    obtain ⟨i, hi⟩ := List.getElem?_of_mem hth
    exact ⟨i, th, hi, hg⟩
  · rintro ⟨i, th, hi, hg⟩
    exact ⟨th, List.mem_of_getElem? hi, hg⟩

/-- After a move there are the frames it brings, and old ones. -/
theorem mem_framesOf_set {ths : List (Thread φ ε)} {i : Nat} {ctl : Ctl ε} {f g : φ}
    {rest : List φ} {nx : Next φ ε} (hth : ths[i]? = some ⟨ctl, f :: rest⟩)
    (hg : g ∈ framesOf (ths.set i (nx.resume rest))) : g ∈ nx.frames ∨ g ∈ framesOf ths := by
  obtain ⟨j, th, hj, hg⟩ := mem_framesOf.mp hg
  refine forall_set (T := fun _ th => ∀ g ∈ th.frames, g ∈ nx.frames ∨ g ∈ framesOf ths)
    ?_ ?_ j th hj g hg
  · intro g hg
    rw [Next.resume_frames] at hg
    rcases List.mem_append.mp hg with hg | hg
    · exact Or.inl hg
    · exact Or.inr (mem_framesOf.mpr ⟨i, _, hth, List.mem_cons_of_mem _ hg⟩)
  · exact fun j th _ hj g hg => Or.inr (mem_framesOf.mpr ⟨j, th, hj, hg⟩)

/-- All old frames are there, but the one that has moved. -/
theorem framesOf_set_of_mem {ths : List (Thread φ ε)} {i : Nat} {ctl : Ctl ε} {f g : φ}
    {rest : List φ} {nx : Next φ ε} (hth : ths[i]? = some ⟨ctl, f :: rest⟩)
    (hg : g ∈ framesOf ths) : g = f ∨ g ∈ framesOf (ths.set i (nx.resume rest)) := by
  have hi : i < ths.length := (List.getElem?_eq_some_iff.mp hth).1
  obtain ⟨j, th, hj, hg⟩ := mem_framesOf.mp hg
  by_cases hij : i = j
  · subst hij
    obtain rfl := Option.some.inj (hth.symm.trans hj)
    rcases List.mem_cons.mp hg with rfl | hg
    · exact Or.inl rfl
    · refine Or.inr (mem_framesOf.mpr ⟨i, _, List.getElem?_set_self hi, ?_⟩)
      rw [Next.resume_frames]
      exact List.mem_append_right _ hg
  · exact Or.inr (mem_framesOf.mpr ⟨j, th, by rw [List.getElem?_set_ne hij, hj], hg⟩)

/-! ## Tallies -/

/-- The weight of a list of frames. -/
def weigh [AddCommMonoid M] (w : φ → M) (fs : List φ) : M := (fs.map w).sum

@[simp] theorem weigh_nil [AddCommMonoid M] (w : φ → M) : weigh w [] = 0 := rfl

@[simp] theorem weigh_cons [AddCommMonoid M] (w : φ → M) (f : φ) (fs : List φ) :
    weigh w (f :: fs) = w f + weigh w fs := by
  simp [weigh]

theorem weigh_append [AddCommMonoid M] (w : φ → M) (fs gs : List φ) :
    weigh w (fs ++ gs) = weigh w fs + weigh w gs := by
  simp [weigh]

/-- The weight of all frames of all threads. -/
def tally [AddCommMonoid M] (w : φ → M) (ths : List (Thread φ ε)) : M :=
  (ths.map fun th => weigh w th.frames).sum

/-- Replacing one thread exchanges its own weight and nothing else. -/
theorem tally_set [AddCommMonoid M] (w : φ → M) {ths : List (Thread φ ε)} {i : Nat}
    {th : Thread φ ε} (h : ths[i]? = some th) :
    ∃ r, tally w ths = weigh w th.frames + r ∧
      ∀ th', tally w (ths.set i th') = weigh w th'.frames + r := by
  induction ths generalizing i with
  | nil => exact absurd h (by simp)
  | cons t ths ih =>
    cases i with
    | zero =>
      rw [List.getElem?_cons_zero, Option.some.injEq] at h
      subst h
      exact ⟨tally w ths, by simp [tally], fun th' => by simp [tally]⟩
    | succ i =>
      obtain ⟨r, hr, hset⟩ := ih (i := i) (by simpa using h)
      refine ⟨weigh w t.frames + r, ?_, fun th' => ?_⟩
      · have : tally w (t :: ths) = weigh w t.frames + tally w ths := by simp [tally]
        rw [this, hr, add_left_comm]
      · have : tally w ((t :: ths).set (i + 1) th') =
            weigh w t.frames + tally w (ths.set i th') := by simp [tally]
        rw [this, hset, add_left_comm]

/-- One move exchanges the weight of the frame that moved for the weight of
the frames it leaves; `r` is the weight of everything else. -/
theorem tally_resume [AddCommMonoid M] (w : φ → M) {ths : List (Thread φ ε)} {i : Nat}
    {ctl : Ctl ε} {f : φ} {rest : List φ} (h : ths[i]? = some ⟨ctl, f :: rest⟩)
    (nx : Next φ ε) :
    ∃ r, tally w ths = w f + r ∧
      tally w (ths.set i (nx.resume rest)) = weigh w nx.frames + r := by
  obtain ⟨r, hr, hset⟩ := tally_set w h
  refine ⟨weigh w rest + r, ?_, ?_⟩
  · rw [hr, weigh_cons, add_assoc]
  · rw [hset, Next.resume_frames, weigh_append, add_assoc]

/-- Tallies add up frame by frame. -/
theorem tally_add [AddCommMonoid M] (w₁ w₂ : φ → M) (ths : List (Thread φ ε)) :
    tally (fun f => w₁ f + w₂ f) ths = tally w₁ ths + tally w₂ ths := by
  have hweigh : ∀ fs : List φ, weigh (fun f => w₁ f + w₂ f) fs = weigh w₁ fs + weigh w₂ fs := by
    intro fs
    induction fs with
    | nil => simp
    | cons f fs ih => rw [weigh_cons, weigh_cons, weigh_cons, ih, add_add_add_comm]
  induction ths with
  | nil => simp [tally]
  | cons th ths ih =>
    simp only [tally, List.map_cons, List.sum_cons] at ih ⊢
    rw [ih, hweigh, add_add_add_comm]

/-- Frame by frame at most means at most in total. -/
theorem tally_le {w₁ w₂ : φ → Nat} (h : ∀ f, w₁ f ≤ w₂ f) (ths : List (Thread φ ε)) :
    tally w₁ ths ≤ tally w₂ ths := by
  have hweigh : ∀ fs : List φ, weigh w₁ fs ≤ weigh w₂ fs := by
    intro fs
    induction fs with
    | nil => exact Nat.le_refl _
    | cons f fs ih =>
      rw [weigh_cons, weigh_cons]
      exact Nat.add_le_add (h f) ih
  induction ths with
  | nil => exact Nat.le_refl _
  | cons th ths ih =>
    simp only [tally, List.map_cons, List.sum_cons] at ih ⊢
    exact Nat.add_le_add (hweigh _) ih

/-- A frame of a stack weighs at most the stack. -/
theorem le_weigh (w : φ → Nat) {f : φ} {fs : List φ} (h : f ∈ fs) : w f ≤ weigh w fs := by
  induction fs with
  | nil => exact absurd h (by simp)
  | cons g fs ih =>
    rw [weigh_cons]
    rcases List.mem_cons.mp h with rfl | hmem
    · exact Nat.le_add_right _ _
    · exact Nat.le_trans (ih hmem) (Nat.le_add_left _ _)

/-- A stack of frames that weigh nothing weighs nothing. -/
theorem weigh_eq_zero [AddCommMonoid M] {w : φ → M} {fs : List φ} (h : ∀ f ∈ fs, w f = 0) :
    weigh w fs = 0 := by
  induction fs with
  | nil => rfl
  | cons g fs ih =>
    rw [weigh_cons, h g (List.mem_cons_self ..), zero_add]
    exact ih fun f hf => h f (List.mem_cons_of_mem _ hf)

/-- A frame of some thread weighs at most the tally. -/
theorem le_tally (w : φ → Nat) {ths : List (Thread φ ε)} {i : Nat} {th : Thread φ ε} {f : φ}
    (h : ths[i]? = some th) (hf : f ∈ th.frames) : w f ≤ tally w ths := by
  obtain ⟨r, hr, _⟩ := tally_set w h
  rw [hr]
  exact Nat.le_trans (le_weigh w hf) (Nat.le_add_right _ _)

/-- A tally is zero when every frame weighs nothing. -/
theorem tally_eq_zero [AddCommMonoid M] {w : φ → M} {ths : List (Thread φ ε)}
    (h : ∀ th ∈ ths, ∀ f ∈ th.frames, w f = 0) : tally w ths = 0 := by
  induction ths with
  | nil => rfl
  | cons th ths ih =>
    simp only [tally, List.map_cons, List.sum_cons] at ih ⊢
    rw [weigh_eq_zero (h th (List.mem_cons_self ..)), zero_add]
    exact ih fun t ht => h t (List.mem_cons_of_mem _ ht)

/-- When nothing but the top frame of thread `i` weighs anything, it is the
tally. -/
theorem tally_alone [AddCommMonoid M] {w : φ → M} {ths : List (Thread φ ε)} {i : Nat}
    {ctl : Ctl ε} {f : φ} {rest : List φ} (hi : ths[i]? = some ⟨ctl, f :: rest⟩)
    (hrest : ∀ g ∈ rest, w g = 0)
    (hothers : ∀ j th, j ≠ i → ths[j]? = some th → ∀ g ∈ th.frames, w g = 0) :
    tally w ths = w f := by
  obtain ⟨r, hr, hset⟩ := tally_set w hi
  have hzero : tally w (ths.set i ⟨.go, []⟩) = 0 := by
    refine tally_eq_zero fun th hth => ?_
    obtain ⟨j, hj⟩ := List.getElem?_of_mem hth
    exact forall_set (T := fun _ th => ∀ g ∈ th.frames, w g = 0) (by simp) hothers j th hj
  rw [hset, weigh_nil, zero_add] at hzero
  rw [hr, hzero, add_zero, weigh_cons, weigh_eq_zero hrest, add_zero]

/-! ## Linked stacks -/

/-- A stack on the ground frame `base`, in which each frame stands in relation
`R` to the one below it, which waits for it. -/
def Grounded (R : φ → φ → Prop) (base : φ) : List φ → Prop
  | [] => False
  | [f] => f = base
  | f :: g :: rest => R f g ∧ Grounded R base (g :: rest)

/-- Below the top of a grounded stack is a grounded stack, or nothing. -/
theorem Grounded.tail {R : φ → φ → Prop} {base f : φ} {rest : List φ}
    (h : Grounded R base (f :: rest)) : rest = [] ∨ Grounded R base rest := by
  cases rest with
  | nil => exact Or.inl rfl
  | cons g rest => exact Or.inr h.2

/-- In a grounded stack every frame but the top one waits for another. -/
theorem Grounded.below {R : φ → φ → Prop} {base f g : φ} {rest : List φ}
    (h : Grounded R base (f :: rest)) (hg : g ∈ rest) : ∃ f', R f' g := by
  induction rest generalizing f with
  | nil => exact absurd hg (by simp)
  | cons g' rest ih =>
    rcases List.mem_cons.mp hg with rfl | hmem
    · exact ⟨f, h.1⟩
    · exact ih h.2 hmem

/-- And what it waits for is a frame of the stack. -/
theorem Grounded.above {R : φ → φ → Prop} {base f g : φ} {rest : List φ}
    (h : Grounded R base (f :: rest)) (hg : g ∈ rest) : ∃ f' ∈ f :: rest, R f' g := by
  induction rest generalizing f with
  | nil => exact absurd hg (by simp)
  | cons g' rest ih =>
    rcases List.mem_cons.mp hg with rfl | hmem
    · exact ⟨f, List.mem_cons_self .., h.1⟩
    · obtain ⟨f', hf', hR⟩ := ih h.2 hmem
      exact ⟨f', List.mem_cons_of_mem _ hf', hR⟩

/-- Every frame but the ground frame stands on another one. -/
theorem Grounded.under {R : φ → φ → Prop} {base g : φ} {fs : List φ} (h : Grounded R base fs)
    (hg : g ∈ fs) (hbase : g ≠ base) : ∃ g' ∈ fs, R g g' := by
  induction fs with
  | nil => exact absurd hg (by simp)
  | cons f fs ih =>
    cases fs with
    | nil =>
      rw [List.mem_singleton.mp hg] at hbase
      exact absurd h hbase
    | cons f' fs =>
      rcases List.mem_cons.mp hg with rfl | hmem
      · exact ⟨f', List.mem_cons_of_mem _ (List.mem_cons_self ..), h.1⟩
      · obtain ⟨g', hg', hR⟩ := ih h.2 hmem
        exact ⟨g', List.mem_cons_of_mem _ hg', hR⟩

/-- Where the moving frame goes on, if it does. -/
@[simp] def Next.succ? : Next φ ε → Option φ
  | .goto f => some f
  | .call f _ => some f
  | .ret => none
  | .thr _ => none

/-- The frame a move leaves running on top, if it leaves one. -/
@[simp] def Next.top? : Next φ ε → Option φ
  | .goto f => some f
  | .call _ g => some g
  | .ret => none
  | .thr _ => none

/-- A move of `f` keeps `R` when whatever `f` may stand on, its successor may
too, and a callee may stand on its caller. -/
@[simp] def Next.Keeps (R : φ → φ → Prop) (f : φ) : Next φ ε → Prop
  | .goto f' => ∀ g, R f g → R f' g
  | .call f' c => R c f' ∧ ∀ g, R f g → R f' g
  | .ret => True
  | .thr _ => True

/-- A move that keeps `R`, and the ground frame where it is, keeps the stack
grounded — unless it was the ground frame that ended. -/
theorem Next.grounded {R : φ → φ → Prop} {base f : φ} {rest : List φ} {nx : Next φ ε}
    (hk : nx.Keeps R f) (hb : f = base → ∀ f', nx.succ? = some f' → f' = base)
    (h : Grounded R base (f :: rest)) :
    Grounded R base (nx.resume rest).frames ∨ (f = base ∧ (nx.resume rest).frames = []) := by
  have hreplace : ∀ f', nx.succ? = some f' → (∀ g, R f g → R f' g) →
      Grounded R base (f' :: rest) := by
    intro f' hsucc hf'
    cases rest with
    | nil => exact hb h f' hsucc
    | cons g rest => exact ⟨hf' g h.1, h.2⟩
  have hend : Grounded R base rest ∨ (f = base ∧ rest = []) := by
    cases rest with
    | nil => exact Or.inr ⟨h, rfl⟩
    | cons g rest => exact Or.inl h.2
  cases nx with
  | goto f' => exact Or.inl (hreplace f' rfl hk)
  | call f' c => exact Or.inl ⟨hk.1, hreplace f' rfl hk.2⟩
  | ret => exact hend
  | thr e => exact hend

end Warlib.Machine
