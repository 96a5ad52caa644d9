import Warlib.Pipeline.Capacity

/-!
# When submitting throws

`Pipeline/Step.lean` has one exception of `Post`, the one `AddingTask` throws.
Here are the others: a copy of the task is made when `Post` or `Dispatch` is
called, another when `bind` takes it, and `boost::asio::post` allocates. Each may
throw at any time.

`AddingTask` undoes its own increment before it throws. Nobody undoes it for
`bind` and `boost::asio::post`, which come after it: the slot is taken and no
handler will ever give it back. All other exceptions leave `count_` and the run
queue as they were (`failing_post`).

Mirroring notes:

* An exception takes the frame of `Post` or `Dispatch` off the stack and is told
  to the caller. `boost::asio::post` that throws has queued nothing.
* `bind` and `boost::asio::post` are one program point of `Post`, `.enqueue`.
* `lost` exists for the statements only: how often one of the two has thrown.
-/

namespace Warlib.Pipeline

open Warlib.Machine

/-! ## The machine -/

/-- What throws: the copy of the argument, the copy `bind` makes, the allocation of
`boost::asio::post`, or that of the token overload. -/
inductive Fault
  | argument
  | bind
  | asioPost
  | initiation
  deriving DecidableEq, Repr

/-- Where it can happen. -/
def Fault.hits : Fault → Frame → Bool
  | .argument, .post .closing _ => true
  | .argument, .dispatch _ => true
  | .bind, .post .enqueue _ => true
  | .asioPost, .post .enqueue _ => true
  | .initiation, .postToken _ _ => true
  | _, _ => false

/-- It comes after `AddingTask`. -/
def Fault.late : Fault → Bool
  | .bind => true
  | .asioPost => true
  | _ => false

/-- A pipeline and its clients, and the exceptions that came too late. -/
structure Faulted where
  state : State
  lost : Nat := 0

/-- A step, or an exception on thread `i`. -/
inductive FaultedStep
  | step (l : Step)
  | fault (i : Nat) (x : Fault) (e : Exn)
  deriving DecidableEq, Repr

/-- Exception `e` ends the top frame of thread `i`. -/
def Faulted.fault (s : Faulted) (i : Nat) (x : Fault) (e : Exn) : Option Faulted :=
  match s.state.threads[i]? with
  | some ⟨_, f :: rest⟩ =>
    if x.hits f then
      some ⟨⟨s.state.mem, s.state.threads.set i (Next.resume rest (.thr e))⟩,
        s.lost + if x.late then 1 else 0⟩
    else none
  | _ => none

/-- The pipeline of `machine`, where submitting may throw. -/
def faulted (name : String) (cap : BitVec 64) (n : Nat) : Lts Faulted FaultedStep where
  init s := (machine name cap n).init s.state ∧ s.lost = 0
  next s
    | .step l => ((machine name cap n).next s.state l).map fun t => { s with state := t }
    | .fault i x e => s.fault i x e

/-- An exception that comes after `AddingTask`. -/
def FaultedStep.late : FaultedStep → Bool
  | .step _ => false
  | .fault _ x _ => x.late

/-- Nothing throws after `AddingTask`. -/
def NothingLate (_ : Faulted) (l : FaultedStep) : Prop := l.late = false

instance (s : Faulted) (l : FaultedStep) : Decidable (NothingLate s l) :=
  inferInstanceAs (Decidable (l.late = false))

variable {name : String} {cap : BitVec 64} {n : Nat} {ok : Faulted → FaultedStep → Prop}
  {s s' : Faulted} {l : FaultedStep} {i : Nat} {m m' : Mem} {a : Act} {ctl : Ctl Exn} {f : Frame}
  {rest : List Frame} {x : Fault} {e : Exn}

/-- `Faulted.fault`, inverted. -/
theorem fault_some (h : s.fault i x e = some s') :
    ∃ ctl f rest, s.state.threads[i]? = some ⟨ctl, f :: rest⟩ ∧ x.hits f = true ∧
      s' = ⟨⟨s.state.mem, s.state.threads.set i (Next.resume rest (.thr e))⟩,
        s.lost + if x.late then 1 else 0⟩ := by
  unfold Faulted.fault at h
  split at h
  next ctl f rest hth =>
    split at h
    next hf => exact ⟨ctl, f, rest, hth, hf, (Option.some.inj h).symm⟩
    next => exact absurd h (by simp)
  next => exact absurd h (by simp)

/-- Everything a step can be. -/
theorem faulted_next (h : (faulted name cap n).next s l = some s') :
    (∃ l', l = .step l' ∧ Stepped s.state l' s'.state ∧ Fits s'.state ∧ s'.lost = s.lost) ∨
      ∃ i x e, l = .fault i x e ∧ s.fault i x e = some s' := by
  cases l with
  | step l =>
    obtain ⟨t, ht, rfl⟩ := Option.map_eq_some_iff.mp h
    obtain ⟨hs, hfits⟩ := stepped_of_next ht
    exact Or.inl ⟨l, rfl, hs, hfits, rfl⟩
  | fault i x e => exact Or.inr ⟨i, x, e, rfl, h⟩

/-! ## The slots -/

/-- A frame that is hit holds a slot just when it is hit too late. -/
theorem hits_holding (h : x.hits f = true) : holding f = if x.late then 1 else 0 := by
  unfold Fault.hits at h
  split at h
  next => rfl
  next => rfl
  next => rfl
  next => rfl
  next => rfl
  next => exact absurd h (by simp)

/-- What holds all the time: `count_` counts the queued tasks, the frames that hold a
slot, and the slots that are lost. -/
structure Account (cap : BitVec 64) (s : Faulted) : Prop where
  capacity : s.state.mem.capacity = cap
  fits : Fits s.state
  slots : (s.state.mem.count.toNat + tokenPosts s.state.mem) % 2 ^ 64 =
    (s.state.mem.queued + tally holding s.state.threads + s.lost) % 2 ^ 64

/-- A step of the pipeline keeps the account, as it does without faults. -/
theorem Account.step {l : Step} (h : Account cap s) (hs : Stepped s.state l s'.state)
    (hfits : Fits s'.state) (hlost : s'.lost = s.lost) : Account cap s' := by
  refine ⟨hs.later.capacity.trans h.capacity, hfits, ?_⟩
  have hslots := h.slots
  rw [Nat.add_assoc] at hslots
  rw [hlost, Nat.add_assoc]
  exact hs.slots s.lost hslots

/-- An exception keeps it too: a slot that is no longer held is lost. -/
theorem Account.fault (h : Account cap s) (hf : s.fault i x e = some s') : Account cap s' := by
  obtain ⟨ctl, f, rest, hth, hhits, rfl⟩ := fault_some hf
  obtain ⟨hcapacity, hfits, hslots⟩ := h
  refine ⟨hcapacity, ?_, ?_⟩
  · obtain ⟨r, hr, hr'⟩ := tally_resume (fun _ => 1) hth (.thr e)
    unfold Fits objects at hfits ⊢
    rw [hr] at hfits
    dsimp only
    rw [hr', Next.frames, weigh_nil]
    omega
  · obtain ⟨r, hr, hr'⟩ := tally_resume holding hth (.thr e)
    rw [hr, hits_holding hhits] at hslots
    dsimp only
    rw [hr', Next.frames, weigh_nil, hslots]
    congr 1
    omega

theorem reach_account (h : (faulted name cap n).Reach ok s) : Account cap s := by
  refine h.invariant (I := Account cap) ?_ ?_
  · intro s hinit
    obtain ⟨⟨hstate, hfits⟩, hlost⟩ := hinit
    refine ⟨by rw [hstate]; rfl, hfits, ?_⟩
    rw [hstate, hlost, tally_initial rfl rfl]
    rfl
  · intro s l s' _ _ hn hI
    rcases faulted_next hn with ⟨l', -, hs, hfits, hlost⟩ | ⟨i, x, e, -, hf⟩
    · exact hI.step hs hfits hlost
    · exact hI.fault hf

/-- Nothing is lost when nothing throws too late. -/
theorem reach_lost (h : (faulted name cap n).Reach NothingLate s) : s.lost = 0 := by
  refine h.invariant (I := fun s => s.lost = 0) (fun s hinit => hinit.2) ?_
  intro s l s' _ hl hn hI
  rcases faulted_next hn with ⟨l', -, -, -, hlost⟩ | ⟨i, x, e, rfl, hf⟩
  · rw [hlost]
    exact hI
  · have hlate : x.late = false := hl
    obtain ⟨_, _, _, -, -, rfl⟩ := fault_some hf
    dsimp only
    rw [hlate, hI]
    rfl

/-! ## One call -/

/-- What thread `i` does by itself inside what it has called. -/
def FaultedStep.alone (i : Nat) : FaultedStep → Bool
  | .step (.thread j .code) => j == i
  | .fault j _ _ => j == i
  | _ => false

/-- `count_` and the run queue are what they were. -/
def Undisturbed (m₀ m : Mem) : Prop := m.count = m₀.count ∧ m.queue = m₀.queue

/-- A slot more is taken. -/
def Reserved (m₀ m : Mem) : Prop := m.count = m₀.count + 1 ∧ m.queue = m₀.queue

/-- How far thread `i` has got with its call of `Post` or `Dispatch`; `base` are the
frames below it, `late` whether something threw after `AddingTask`. -/
inductive Submitting (i : Nat) (m₀ : Mem) (base : List Frame) :
    Thread Frame Exn → Mem → Bool → Prop
  | dispatch {t : Task} {m : Mem} (hi : i ≠ 0) (hm : Undisturbed m₀ m) :
    Submitting i m₀ base ⟨.go, .dispatch t :: base⟩ m false
  | before {pc : PostPc} {t : Task} {m : Mem} (hpc : pc = .closing ∨ pc = .adding)
      (hm : Undisturbed m₀ m) : Submitting i m₀ base ⟨.go, .post pc t :: base⟩ m false
  | after {pc : PostPc} {t : Task} {m : Mem} (hpc : pc = .undo ∨ pc = .enqueue)
      (hm : Reserved m₀ m) : Submitting i m₀ base ⟨.go, .post pc t :: base⟩ m false
  | returned {m : Mem} : Submitting i m₀ base ⟨.ret, base⟩ m false
  | threw {m : Mem} (e : Exn) (hm : Undisturbed m₀ m) : Submitting i m₀ base ⟨.thr e, base⟩ m false
  | lost {m : Mem} (e : Exn) (hm : Reserved m₀ m) : Submitting i m₀ base ⟨.thr e, base⟩ m true

variable {m₀ : Mem} {late : Bool} {fs : List Frame}

/-- User code does not go on by itself. -/
theorem Move.not_userCode {nx : Next Frame Exn} (h : Move i m .code ctl f m' nx)
    (hf : f.userCode.isSome = true) : False := by
  cases h <;> exact absurd hf (by simp [Frame.userCode])

theorem hits_userCode (h : x.hits f = true) : f.userCode = none := by
  unfold Fault.hits at h
  split at h <;> first | rfl | exact absurd h (by simp)

theorem Submitting.move {nx : Next Frame Exn} {base : Frame} {below : List Frame}
    (h : Submitting i m₀ (base :: below) ⟨ctl, f :: rest⟩ m late)
    (hbase : base.userCode.isSome = true) (hm : Move i m .code ctl f m' nx) :
    Submitting i m₀ (base :: below) (nx.resume rest) m' late := by
  cases h with
  | dispatch hi hkept =>
    cases hm with
    | dispatch_dismissed => exact .returned
    | dispatch_inline t hc h0 => exact absurd h0 hi
    | dispatch_post => exact .before (Or.inl rfl) hkept
  | before hpc hkept =>
    have htaken : Reserved m₀ { m with count := m.count + 1 } := by
      obtain ⟨hcount, hqueue⟩ := hkept
      exact ⟨congrArg (· + 1) hcount, hqueue⟩
    cases hm with
    | post_dismissed => exact .returned
    | post_open => exact .before (Or.inr rfl) hkept
    | post_full => exact .after (Or.inl rfl) htaken
    | post_room => exact .after (Or.inr rfl) htaken
    | post_undo => exact absurd hpc (by simp)
    | post_enqueue => exact absurd hpc (by simp)
  | after hpc htaken =>
    cases hm with
    | post_dismissed => exact absurd hpc (by simp)
    | post_open => exact absurd hpc (by simp)
    | post_full => exact absurd hpc (by simp)
    | post_room => exact absurd hpc (by simp)
    | post_undo =>
      obtain ⟨hcount, hqueue⟩ := htaken
      refine .threw _ ⟨?_, hqueue⟩
      dsimp only [Mem.emit]
      rw [hcount, BitVec.add_sub_cancel]
    | post_enqueue => exact .returned
  | returned => exact (hm.not_userCode hbase).elim
  | threw e hkept => exact (hm.not_userCode hbase).elim
  | lost e htaken => exact (hm.not_userCode hbase).elim

theorem Submitting.fault {base : Frame} {below : List Frame}
    (h : Submitting i m₀ (base :: below) ⟨ctl, f :: rest⟩ m late)
    (hbase : base.userCode.isSome = true) (hx : x.hits f = true) (e : Exn) :
    Submitting i m₀ (base :: below) (Next.resume rest (.thr e)) m (late || x.late) := by
  have huser : base.userCode ≠ none := by
    intro hnone
    rw [hnone] at hbase
    exact absurd hbase (by simp)
  cases h with
  | dispatch hi hkept =>
    obtain rfl : x = .argument := by
      cases x <;> first | rfl | exact absurd hx (by simp [Fault.hits])
    exact .threw e hkept
  | before hpc hkept =>
    obtain rfl : x = .argument := by
      rcases hpc with rfl | rfl <;> cases x <;> first | rfl | exact absurd hx (by simp [Fault.hits])
    exact .threw e hkept
  | after hpc htaken =>
    have hlate : x.late = true := by
      rcases hpc with rfl | rfl <;> cases x <;> first | rfl | exact absurd hx (by simp [Fault.hits])
    rw [hlate]
    exact .lost e htaken
  | returned => exact absurd (hits_userCode hx) huser
  | threw e hkept => exact absurd (hits_userCode hx) huser
  | lost e htaken => exact absurd (hits_userCode hx) huser

/-- `Post`, or `Dispatch` on a thread other than the worker. -/
def Call.mayPost (i : Nat) : Call → Bool
  | .post => true
  | .dispatch => i != 0
  | _ => false

/-- The call itself changes neither. -/
theorem Move.submitting {c : Call} {nx : Next Frame Exn} (h : Move i m (.call c) ctl f m' nx)
    (hc : c.mayPost i = true) :
    f.userCode.isSome = true ∧ Submitting i m (f :: rest) (nx.resume rest) m' false := by
  have hstart : ∀ caller, Submitting i m (f :: rest) ⟨.go, c.frame m.nextId :: f :: rest⟩
      (m.enter caller c) false := by
    intro caller
    cases c with
    | post => exact .before (Or.inl rfl) ⟨rfl, rfl⟩
    | dispatch => exact .dispatch (by simpa [Call.mayPost] using hc) ⟨rfl, rfl⟩
    | _ => exact absurd hc (by simp [Call.mayPost])
  cases h with
  | client_enter => exact ⟨rfl, hstart none⟩
  | fn_enter id => exact ⟨rfl, hstart (some id)⟩
  | completion_enter tok => exact ⟨rfl, hstart none⟩

/-- One step of thread `i`. -/
theorem Submitting.step {base : Frame} {below : List Frame} {th : Thread Frame Exn}
    (h : Submitting i m₀ (base :: below) th s.state.mem late)
    (hbase : base.userCode.isSome = true) (hth : s.state.threads[i]? = some th)
    (hl : l.alone i = true) (hn : (faulted name cap n).next s l = some s') :
    ∃ th', s'.state.threads[i]? = some th' ∧
      Submitting i m₀ (base :: below) th' s'.state.mem (late || l.late) := by
  have hlt : i < s.state.threads.length := (List.getElem?_eq_some_iff.mp hth).1
  rcases faulted_next hn with ⟨l', rfl, hs, -, -⟩ | ⟨j, x, e, rfl, hf⟩
  · obtain ⟨state', lost'⟩ := s'
    dsimp only at hs ⊢
    cases hs with
    | @move j a ctl f rest m nx hth' hm =>
      obtain ⟨rfl, rfl⟩ : a = .code ∧ j = i := by
        cases a <;> simp_all [FaultedStep.alone]
      obtain rfl := Option.some.inj (hth.symm.trans hth')
      refine ⟨nx.resume rest, List.getElem?_set_self hlt, ?_⟩
      rw [FaultedStep.late, Bool.or_false]
      exact h.move hbase hm
    | expire ht => exact absurd hl (by simp [FaultedStep.alone])
  · obtain rfl : j = i := by simpa [FaultedStep.alone] using hl
    obtain ⟨ctl, f, rest, hth', hx, rfl⟩ := fault_some hf
    obtain rfl := Option.some.inj (hth.symm.trans hth')
    exact ⟨Next.resume rest (.thr e), List.getElem?_set_self hlt, h.fault hbase hx e⟩

/-- And any number of them. -/
theorem Submitting.run {base : Frame} {below : List Frame} {th : Thread Frame Exn}
    {ls : List FaultedStep} (h : Submitting i m₀ (base :: below) th s.state.mem late)
    (hbase : base.userCode.isSome = true) (hth : s.state.threads[i]? = some th)
    (hls : ∀ l ∈ ls, l.alone i = true)
    (hrun : (faulted name cap n).guardedRun (fun _ _ => True) s ls = some s') :
    ∃ th', s'.state.threads[i]? = some th' ∧
      Submitting i m₀ (base :: below) th' s'.state.mem (late || ls.any FaultedStep.late) := by
  induction ls generalizing s th late with
  | nil =>
    obtain rfl := Option.some.inj hrun
    refine ⟨th, hth, ?_⟩
    rw [List.any_nil, Bool.or_false]
    exact h
  | cons l ls ih =>
    obtain ⟨-, s₁, hn, hrest⟩ := Lts.guardedRun_cons hrun
    obtain ⟨th₁, hth₁, h₁⟩ := h.step hbase hth (hls l (List.mem_cons_self ..)) hn
    obtain ⟨th', hth', h'⟩ := ih h₁ hth₁ (fun l' hl' => hls l' (List.mem_cons_of_mem _ hl')) hrest
    refine ⟨th', hth', ?_⟩
    rw [List.any_cons, ← Bool.or_assoc]
    exact h'

/-- A call that has ended by an exception has kept a slot just when the exception came
too late. -/
theorem Submitting.thrown {base : Frame} {below : List Frame} {e : Exn}
    (h : Submitting i m₀ (base :: below) ⟨.thr e, base :: below⟩ m late) :
    Undisturbed m₀ m ↔ late = false := by
  cases h with
  | threw _ hkept => exact iff_of_true hkept rfl
  | lost _ htaken =>
    refine iff_of_false (fun hkept => ?_) (by simp)
    have hone : m₀.count + 1 = m₀.count := htaken.1.symm.trans hkept.1
    bv_omega

/-! ## All calls -/

/-- The next step is `++count_`. -/
@[simp] def adding : Frame → Nat
  | .post .adding _ => 1
  | _ => 0

/-- All of `capacity_` is available: `AddingTask` finds the pipeline full just when so
many slots are taken, by tasks that are queued and by calls that hold one. -/
def Available (cap : BitVec 64) (s : State) : Prop :=
  ∀ (i : Nat) (ctl : Ctl Exn) (t : Task) (rest : List Frame),
    s.threads[i]? = some ⟨ctl, .post .adding t :: rest⟩ →
      (s.mem.count + 1 > s.mem.capacity ↔ cap.toNat ≤ s.mem.queued + tally holding s.threads)

/-- Without losses `count_` is exact, and all of `capacity_` is available. -/
theorem Account.exact (h : Account cap s) (hlost : s.lost = 0)
    (htok : tokenPosts s.state.mem = 0) :
    s.state.mem.count.toNat = s.state.mem.queued + tally holding s.state.threads ∧
      Available cap s.state := by
  obtain ⟨hcapacity, hfits, hslots⟩ := h
  rw [hlost] at hslots
  have hcount := count_of_slots hfits htok hslots
  refine ⟨hcount, fun i ctl t rest hth => ?_⟩
  -- the frame that is about to increment is an object too
  have hone : ∀ f : Frame, holding f + adding f ≤ 1 := by
    intro f
    by_cases hf : ∃ t, f = .post .adding t
    · obtain ⟨t, rfl⟩ := hf
      exact Nat.le_refl _
    · have hzero : adding f = 0 := by
        unfold adding
        split
        next t => exact absurd ⟨t, rfl⟩ hf
        next => rfl
      rw [hzero]
      exact holding_le f
  have htally := tally_le (ε := Exn) hone s.state.threads
  rw [tally_add] at htally
  have hadding : 1 ≤ tally adding s.state.threads := le_tally adding hth (List.mem_cons_self ..)
  have hqueue : s.state.mem.queued ≤ s.state.mem.queue.length := List.countP_le_length
  unfold Fits objects at hfits
  have hnext : (s.state.mem.count + 1).toNat = s.state.mem.count.toNat + 1 := by
    rw [BitVec.toNat_add]
    exact Nat.mod_eq_of_lt (by simp; omega)
  show s.state.mem.capacity.toNat < (s.state.mem.count + 1).toNat ↔ _
  rw [hcapacity, hnext, hcount]
  omega

/-- **A `Post` that throws.** A call of `Post`, or of `Dispatch` on a client, that
ends by an exception with nobody else at work leaves `count_` and the run queue as
they were if and only if neither `bind` nor `boost::asio::post` has thrown. In
every run `count_` (with the uses of the token overload) is the number of the tasks
queued, of the slots held, and of those lost in this way; and while none is lost, all
of `capacity_` is available. -/
theorem failing_post (name : String) (cap : BitVec 64) (n : Nat) :
    (∀ (s s' : Faulted) (i : Nat) (ctl : Ctl Exn) (f : Frame) (rest : List Frame) (c : Call)
      (ls : List FaultedStep) (e : Exn), s.state.threads[i]? = some ⟨ctl, f :: rest⟩ →
      c.mayPost i = true → (∀ l ∈ ls, l.alone i = true) →
      (faulted name cap n).guardedRun (fun _ _ => True) s
        (.step (.thread i (.call c)) :: ls) = some s' →
      s'.state.threads[i]? = some ⟨.thr e, f :: rest⟩ →
      (Undisturbed s.state.mem s'.state.mem ↔ ∀ l ∈ ls, l.late = false)) ∧
    (∀ s, (faulted name cap n).Reach (fun _ _ => True) s →
      (s.state.mem.count.toNat + tokenPosts s.state.mem) % 2 ^ 64 =
        (s.state.mem.queued + tally holding s.state.threads + s.lost) % 2 ^ 64) ∧
    (∀ s, (faulted name cap n).Reach NothingLate s → tokenPosts s.state.mem = 0 →
      s.state.mem.count.toNat = s.state.mem.queued + tally holding s.state.threads ∧
        Available cap s.state) := by
  refine ⟨?_, fun s h => (reach_account h).slots, fun s h htok =>
    (reach_account h).exact (reach_lost h) htok⟩
  intro s s' i ctl f rest c ls e hth hc hls hrun hthrew
  obtain ⟨-, s₁, hn, hrest⟩ := Lts.guardedRun_cons hrun
  obtain ⟨hbase, th₁, hth₁, h₁⟩ : f.userCode.isSome = true ∧ ∃ th₁, s₁.state.threads[i]? = some th₁ ∧
      Submitting i s.state.mem (f :: rest) th₁ s₁.state.mem false := by
    rcases faulted_next hn with ⟨l', hl', hs, -, -⟩ | ⟨j, x, e, hl', -⟩
    · obtain rfl := FaultedStep.step.inj hl'
      obtain ⟨state₁, lost₁⟩ := s₁
      dsimp only at hs ⊢
      cases hs with
      | move hth' hm =>
        obtain ⟨rfl, hframes⟩ := Thread.mk.inj (Option.some.inj (hth.symm.trans hth'))
        obtain ⟨rfl, rfl⟩ := List.cons.inj hframes
        obtain ⟨hbase, hstart⟩ : f.userCode.isSome = true ∧
            Submitting i s.state.mem (f :: rest) _ _ false := hm.submitting hc
        have hlt : i < s.state.threads.length := (List.getElem?_eq_some_iff.mp hth).1
        exact ⟨hbase, _, List.getElem?_set_self hlt, hstart⟩
    · exact absurd hl' (by simp)
  obtain ⟨th', hth', h'⟩ := h₁.run hbase hth₁ hls hrest
  obtain rfl := Option.some.inj (hthrew.symm.trans hth')
  rw [h'.thrown, Bool.false_or]
  simp

/-- A client posts a second task to a pipeline with room for one. -/
theorem failing_post_full : ∃ s s' : Faulted, (faulted "tasks" 1 1).Reach NothingLate s ∧
    s.state.mem.queue = [.execTask (.user 0)] ∧
    s'.state.threads[1]? = some ⟨.thr s.state.mem.outOfCapacity, [.client]⟩ ∧
    Undisturbed s.state.mem s'.state.mem := by
  let post : List FaultedStep :=
    .step (.thread 1 (.call .post)) :: List.replicate 3 (.step (.thread 1 .code))
  have hrun : ∃ s s' : Faulted, (faulted "tasks" 1 1).guardedRun NothingLate ⟨initial "tasks" 1 1, 0⟩ post =
      some s ∧ (faulted "tasks" 1 1).guardedRun (fun _ _ => True) s post = some s' ∧
      s.state.mem.queue = [.execTask (.user 0)] ∧ s.state.threads[1]? = some ⟨.ret, [.client]⟩ ∧
      s'.state.threads[1]? = some ⟨.thr s.state.mem.outOfCapacity, [.client]⟩ :=
    ⟨_, _, rfl, rfl, rfl, rfl, rfl⟩
  obtain ⟨s, s', hs, hs', hqueue, hth, hthrew⟩ := hrun
  have hinit : (faulted "tasks" 1 1).Reach NothingLate ⟨initial "tasks" 1 1, 0⟩ :=
    .start ⟨⟨rfl, by decide⟩, rfl⟩
  have hreach := Lts.reach_of_guardedRun hinit hs
  have hkept := (failing_post "tasks" 1 1).1 s s' 1 .ret .client [] .post
    (List.replicate 3 (.step (.thread 1 .code))) _ hth rfl (by decide) hs' hthrew
  exact ⟨s, s', hreach, hqueue, hthrew, hkept.mpr (by decide)⟩

/-- `bind` throws in a pipeline with room for one task: nothing is queued, and the room
is gone. -/
theorem failing_post_loses : ∃ s s' : Faulted, (faulted "tasks" 1 1).Reach (fun _ _ => True) s ∧
    s.state.threads[1]? = some ⟨.go, [.client]⟩ ∧
    (faulted "tasks" 1 1).guardedRun (fun _ _ => True) s [.step (.thread 1 (.call .post)),
      .step (.thread 1 .code), .step (.thread 1 .code), .fault 1 .bind (.user .std 7)] = some s' ∧
    s'.state.threads[1]? = some ⟨.thr (.user .std 7), [.client]⟩ ∧
    s.state.mem.count = 0 ∧ s'.state.mem.count = 1 ∧ s'.state.mem.queue = [] ∧
    ¬Undisturbed s.state.mem s'.state.mem := by
  have hrun : ∃ s' : Faulted, (faulted "tasks" 1 1).guardedRun (fun _ _ => True) ⟨initial "tasks" 1 1, 0⟩
      [.step (.thread 1 (.call .post)), .step (.thread 1 .code), .step (.thread 1 .code),
        .fault 1 .bind (.user .std 7)] = some s' ∧
      s'.state.threads[1]? = some ⟨.thr (.user .std 7), [.client]⟩ ∧
      s'.state.mem.count = 1 ∧ s'.state.mem.queue = [] := ⟨_, rfl, rfl, rfl, rfl⟩
  obtain ⟨s', hs', hthrew, hcount, hqueue⟩ := hrun
  refine ⟨⟨initial "tasks" 1 1, 0⟩, s', .start ⟨⟨rfl, by decide⟩, rfl⟩, rfl, hs', hthrew, rfl, hcount,
    hqueue, fun hkept => ?_⟩
  have hzero : s'.state.mem.count = 0 := hkept.1
  rw [hcount] at hzero
  exact absurd hzero (by decide)

end Warlib.Pipeline
