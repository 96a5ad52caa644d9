import Warlib.Machine.Rotation
import Warlib.Threadpool.Moves

/-!
# Round robin

`GetAnyPipeline` takes the pipelines in turn: `++round_robin_next_thread_ %
capacity_`. Whoever calls it, directly or from `Post` and `PostWithTimer`,
the `c`th increment yields `c` modulo `2^32` and so the pipeline with that
number modulo `capacity_` (`reach_selected`).

That is a rotation until the counter wraps around. When `capacity_` divides
`2^32` nobody sees the wrap; otherwise the counter goes back to zero too
early, and pipeline 0 is chosen again before the others have had their turn.
`round_robin` says exactly this, and `round_robin_skips` shows it for three
pipelines.
-/

namespace Warlib.Threadpool

open Warlib.Machine Warlib.Pipeline

variable {S : Setting} {i : Nat} {a : Act} {ctl : Ctl Exn} {m m' : Mem} {f : Frame}
  {nx : Next Frame Exn} {s : State} {ok : State → Step → Prop}

/-- A pool has at least one pipeline. -/
theorem capacity_pos (S : Setting) : 0 < S.capacity.toNat := by
  unfold Setting.capacity
  split
  next h => exact h
  next =>
    split
    next h => exact Nat.lt_trans (by decide) h
    next => decide

/-! ## What has been selected -/

/-- A step chooses the next pipeline, or leaves the rotation alone. -/
theorem Move.chooses (h : Move S i m a ctl f m' nx) :
    m' = m.choose S ∨
      (m'.roundRobinNextThread = m.roundRobinNextThread ∧ m'.selected = m.selected) := by
  cases h
  case choose => exact Or.inl rfl
  case choose_call c => exact Or.inl rfl
  case enter hc hd he =>
    rcases entry_some he with rfl | rfl
    · exact Or.inr ⟨rfl, rfl⟩
    · exact Or.inr ⟨rfl, rfl⟩
  case calling ht =>
    obtain ⟨p, p', -, -, rfl⟩ := turn_some ht
    exact Or.inr ⟨rfl, rfl⟩
  case join_call ht =>
    obtain ⟨p, p', -, -, rfl⟩ := turn_some ht
    exact Or.inr ⟨rfl, rfl⟩
  all_goals exact Or.inr ⟨rfl, rfl⟩

/-- The counter counts the selections, and the selections are what it counted. -/
structure Counts (S : Setting) (m : Mem) : Prop where
  counter : m.roundRobinNextThread.toNat = m.selected.length % 2 ^ 32
  selected : m.selected = counted (2 ^ 32) S.capacity.toNat m.selected.length

theorem Counts.choose (h : Counts S m) : Counts S (m.choose S) := by
  have hnext : (m.roundRobinNextThread + 1).toNat = (m.selected.length + 1) % 2 ^ 32 := by
    rw [BitVec.toNat_add, h.counter]
    simp
  refine ⟨?_, ?_⟩
  · simpa using hnext
  · simp only [Mem.choose, List.length_append, List.length_singleton]
    rw [counted_succ, ← h.selected, Mem.chosen, BitVec.toNat_umod, hnext]

/-- **The selections**: the `c`th is `c % 2^32 % capacity_`. -/
theorem reach_selected (h : (machine S).Reach ok s) : Counts S s.mem := by
  refine reach_invariant (I := fun s => Counts S s.mem) h ⟨rfl, rfl⟩ ?_
  intro s l s' _ _ hs hI
  cases hs with
  | move _ hm =>
    rcases hm.chooses with rfl | ⟨hcounter, hselected⟩
    · exact hI.choose
    · exact ⟨by rw [hcounter, hselected]; exact hI.counter, by rw [hselected]; exact hI.selected⟩
  | alone ht =>
    obtain ⟨p, p', -, -, rfl⟩ := turn_some ht
    exact ⟨hI.counter, hI.selected⟩

/-! ## Any number of calls -/

/-- The pool is constructed, and the first thread of the program is in user code. -/
structure Usable (s : State) : Prop where
  constructed : s.mem.constructed = true
  alive : s.mem.destroying = false
  idle : ∃ ctl, s.threads[0]? = some ⟨ctl, [.client]⟩

/-- It can call `GetAnyPipeline` once. -/
theorem Usable.call (hu : Usable s) (h : (machine S).Reach (fun _ _ => True) s) :
    ∃ s', (machine S).Reach (fun _ _ => True) s' ∧ Usable s' ∧
      s'.mem.selected.length = s.mem.selected.length + 1 := by
  obtain ⟨hc, hd, ctl, hth⟩ := hu
  have hlt : 0 < s.threads.length := (List.getElem?_eq_some_iff.mp hth).1
  have henter : frameStep S 0 .getAnyPipeline ctl s.mem .client =
      some (s.mem, .call .client (.getAnyPipeline none)) := by
    simp [frameStep, client, entry, hc, hd]
  have h₁ := h.step trivial (next_thread rfl hth henter)
  have hth₁ : (s.threads.set 0 ((Next.call .client (.getAnyPipeline none) :
      Next Frame Exn).resume []))[0]? = some ⟨.go, [.getAnyPipeline none, .client]⟩ := by
    rw [List.getElem?_set_self hlt]
    rfl
  have h₂ := h₁.step trivial (next_thread (a := .code) rfl hth₁ rfl)
  refine ⟨_, h₂, ⟨hc, hd, .ret, ?_⟩, ?_⟩
  · rw [List.getElem?_set_self (by rw [List.length_set]; exact hlt)]
    rfl
  · simp

/-- And any number of times. -/
theorem Usable.calls (hu : Usable s) (h : (machine S).Reach (fun _ _ => True) s) (c : Nat) :
    ∃ s', (machine S).Reach (fun _ _ => True) s' ∧
      s'.mem.selected.length = s.mem.selected.length + c := by
  have hcalls : ∃ s', (machine S).Reach (fun _ _ => True) s' ∧ Usable s' ∧
      s'.mem.selected.length = s.mem.selected.length + c := by
    induction c with
    | zero => exact ⟨s, h, hu, rfl⟩
    | succ c ih =>
      obtain ⟨s₁, h₁, hu₁, hlen₁⟩ := ih
      obtain ⟨s₂, h₂, hu₂, hlen₂⟩ := hu₁.call h₁
      exact ⟨s₂, h₂, hu₂, by rw [hlen₂, hlen₁, Nat.add_assoc]⟩
  obtain ⟨s', h', -, hlen⟩ := hcalls
  exact ⟨s', h', hlen⟩

/-- A pool whose constructor has run can be called any number of times. -/
theorem any_calls (steps : List Step) (hfits : ∀ p ∈ (initial S).mem.pool, Fits p.state)
    (hrun : ((machine S).guardedRun (fun _ _ => True) (initial S) steps).map
      (fun s => (s.mem.constructed, s.mem.destroying, s.threads[0]?, s.mem.selected)) =
        some (true, false, some ⟨.go, [.client]⟩, [])) (c : Nat) :
    ∃ s, (machine S).Reach (fun _ _ => True) s ∧ s.mem.selected.length = c := by
  obtain ⟨s, hs, hstate⟩ := Option.map_eq_some_iff.mp hrun
  simp only [Prod.mk.injEq] at hstate
  obtain ⟨hc, hd, hth, hnone⟩ := hstate
  have hinit : (machine S).Reach (fun _ _ => True) (initial S) := .start ⟨rfl, hfits⟩
  have hreach := Lts.reach_of_guardedRun hinit hs
  have husable : Usable s := ⟨hc, hd, .go, hth⟩
  obtain ⟨s', h', hlen⟩ := husable.calls hreach c
  exact ⟨s', h', by rw [hlen, hnone, List.length_nil, Nat.zero_add]⟩

/-! ## Fairness -/

/-- **Round robin.** In every reachable state of a pool of any size, any `capacity_`
consecutive selections are every pipeline exactly once, if and only if
`capacity_` divides `2^32` or the counter has not wrapped around. -/
theorem round_robin (h : (machine S).Reach ok s) :
    InTurn S.capacity.toNat s.mem.selected ↔
      S.capacity.toNat ∣ 2 ^ 32 ∨ s.mem.selected.length < 2 ^ 32 := by
  rw [(reach_selected h).selected, counted_length]
  exact inTurn_counted_iff (capacity_pos S) S.capacity.isLt

/-- Two pipelines have taken turns for longer than the counter could count. -/
theorem round_robin_two : ∃ s, (machine { numThreads := 2, users := 1 }).Reach (fun _ _ => True) s ∧
    2 ^ 32 < s.mem.selected.length ∧ InTurn 2 s.mem.selected := by
  obtain ⟨s, h, hlen⟩ := any_calls (S := { numThreads := 2, users := 1 })
    (along 0 constructing ++ along 1 constructing) (by decide) rfl (2 ^ 32 + 1)
  exact ⟨s, h, by omega, (round_robin h).mpr (Or.inl (by decide))⟩

/-- Of three pipelines, the one with number 0 is chosen twice in a row when the
counter wraps around, and the one with number 1 is passed over. -/
theorem round_robin_skips : ∃ s,
    (machine { numThreads := 3, users := 1 }).Reach (fun _ _ => True) s ∧
    (s.mem.selected.drop (2 ^ 32 - 3)).take 3 = [2, 0, 0] ∧ ¬InTurn 3 s.mem.selected := by
  obtain ⟨s, h, hlen⟩ := any_calls (S := { numThreads := 3, users := 1 })
    (along 0 constructing ++ along 1 constructing ++ along 2 constructing) (by decide) rfl (2 ^ 32)
  have hselected : s.mem.selected = counted (2 ^ 32) 3 (2 ^ 32) := by
    have hcounts := (reach_selected h).selected
    rw [hlen] at hcounts
    exact hcounts
  refine ⟨s, h, ?_, ?_⟩
  · rw [hselected, counted_window (by omega)]
    rfl
  · rw [hselected]
    exact not_inTurn_counted (by decide) (by decide) (by decide) (Nat.le_refl _)

end Warlib.Threadpool
