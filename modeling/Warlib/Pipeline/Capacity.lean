import Warlib.Pipeline.Stack

/-!
# `count_` and `capacity_`

`AddingTask` increments `count_`, compares, and undoes the increment when it
throws; `Post` enqueues afterwards; `ExecTask_` decrements on the worker. The
four are separate steps, so between them the word counts more than the queue
holds. What it counts is said by three weights — a caller about to undo
(`undoing`), a caller about to enqueue (`reserved`), a handler taken from the
queue and not yet uncounted (`dequeued`) — and one identity over all of them:

* `reach_slots` — in every reachable state, modulo `2 ^ 64`, `count_` plus the
  uses of the completion-token overload of `Post` is the number of queued tasks
  plus the holders. That overload decrements without having incremented;
  everything else balances.
* `count_exact` — while the overload is unused, there is no wrap-around: all
  of these are distinct objects, and fewer than `2 ^ 64` fit into memory.
* `reach_bounded` — a holder that is not about to undo has seen room, so the
  queue never outgrows `capacity_`.
-/

namespace Warlib.Pipeline

open Warlib.Machine

/-! ## Who holds a slot of `count_` -/

/-- A caller that incremented `count_`, found it over capacity, and has not
undone it yet. -/
@[simp] def undoing : Frame → Nat
  | .post .undo _ => 1
  | _ => 0

/-- A caller that incremented `count_`, found room, and has not enqueued yet. -/
@[simp] def reserved : Frame → Nat
  | .post .enqueue _ => 1
  | _ => 0

/-- A handler taken from the queue whose `--count_` is still to come. -/
@[simp] def dequeued : Frame → Nat
  | .execTask .entry _ true _ => 1
  | .tokenHandler .start _ _ => 1
  | _ => 0

/-- The frames that hold a slot. -/
def holding (f : Frame) : Nat := undoing f + reserved f + dequeued f

/-- A handler the completion-token overload of `Post` enqueued. -/
@[simp] def Event.isTokenPost : Event → Bool
  | .enqueued (.token _ _) => true
  | _ => false

/-- How often the completion-token overload of `Post` has been used. -/
def tokenPosts (m : Mem) : Nat := m.trace.countP Event.isTokenPost

variable {name : String} {cap : BitVec 64} {n : Nat} {ok : State → Step → Prop}
  {s s' : State} {l : Step} {i : Nat} {m m' : Mem} {a : Act} {ctl : Ctl Exn} {f : Frame}
  {nx : Next Frame Exn}

/-- A call of the completion-token overload. -/
@[simp] def Call.usesToken : Call → Bool
  | .postToken _ => true
  | _ => false

/-- A run in which the completion-token overload of `Post` is not called. -/
def NoTokenPost (_ : State) (l : Step) : Prop := ∀ c ∈ enters l, c.usesToken = false

instance (s : State) (l : Step) : Decidable (NoTokenPost s l) :=
  inferInstanceAs (Decidable (∀ c ∈ enters l, c.usesToken = false))

/-- A call of the overload, as an event. -/
@[simp] def Event.isTokenCall : Event → Bool
  | .called _ _ c _ => c.usesToken
  | _ => false

/-- How often the overload has been called. -/
def tokenCalls (m : Mem) : Nat := m.trace.countP Event.isTokenCall

/-- A call of the overload that has not enqueued yet. -/
@[simp] def tokenPosting : Frame → Nat
  | .postToken .. => 1
  | _ => 0

/-- Every call of the overload has enqueued, or is about to. -/
theorem reach_tokenCalls (h : (machine name cap n).Reach ok s) :
    tokenCalls s.mem = tokenPosts s.mem + tally tokenPosting s.threads := by
  refine reach_invariant
    (I := fun s => tokenCalls s.mem = tokenPosts s.mem + tally tokenPosting s.threads) h ?_ ?_
  · rw [tally_initial rfl rfl]
    rfl
  · intro s l s' hr hok hs hfits hI
    refine balanced hs (fun i a ctl f m nx hl hm => ?_) (fun k ec t ht => ?_) hI
    · cases hm
      case client_enter c | fn_enter c | completion_enter c =>
        cases c <;> simp [tokenCalls, tokenPosts, Call.frame]
        omega
      case exec_call t c ac => cases t <;> simp [tokenCalls, tokenPosts, Task.body]
      case run_take h q _ _ _ => cases h <;> simp [tokenCalls, tokenPosts, Handler.frame]
      all_goals
        simp [tokenCalls, tokenPosts]
        try omega
    · cases t with
      | mk task tok => cases tok <;> simp [tokenCalls, tokenPosts, Timer.handler]

/-- A run without calls of the overload has no uses of it. -/
theorem tokenPosts_eq_zero (h : (machine name cap n).Reach NoTokenPost s) :
    tokenPosts s.mem = 0 := by
  have huncalled := reach_uncalled (p := Call.usesToken) (fun _ _ hok c hc => hok c hc) h
  have hcalls : tokenCalls s.mem = 0 := by
    refine List.countP_eq_zero.mpr fun e he => ?_
    cases e with
    | called caller id c q =>
      show ¬c.usesToken = true
      rw [huncalled caller id c q he]
      exact Bool.false_ne_true
    | _ => exact Bool.false_ne_true
  have hall := reach_tokenCalls h
  omega

/-- What one move does to the word `count_`, up to wrap-around: a slot more or
less for every holder more or less, except that the token overload adds a
holder without taking a slot. -/
theorem Move.slots (h : Move i m a ctl f m' nx) (r : Nat)
    (hinv : (m.count.toNat + tokenPosts m) % 2 ^ 64 = (m.queued + (holding f + r)) % 2 ^ 64) :
    (m'.count.toNat + tokenPosts m') % 2 ^ 64 =
      (m'.queued + (weigh holding nx.frames + r)) % 2 ^ 64 := by
  cases h
  case client_enter c | fn_enter c | completion_enter c =>
    cases c <;> simpa [holding, tokenPosts, Mem.queued, Call.frame] using hinv
  case exec_call t c ac =>
    cases t <;> simpa [holding, tokenPosts, Mem.queued, Task.body] using hinv
  case run_take h q _ hq _ =>
    cases h <;>
      simp [holding, tokenPosts, Mem.queued, Handler.frame, hq, List.countP_cons] at hinv ⊢ <;>
      omega
  all_goals
    simp [holding, tokenPosts, Mem.queued] at hinv ⊢
    omega

/-- The handler of a timer is no task queued for immediate processing. -/
theorem expire_queued (m : Mem) (k : Nat) (t : Timer) (ec : Bool) :
    (m.expire k t ec).queued = m.queued := by
  cases t with
  | mk task tok => cases tok <;> simp [Mem.queued, Timer.handler]

theorem expire_tokenPosts (m : Mem) (k : Nat) (t : Timer) (ec : Bool) :
    tokenPosts (m.expire k t ec) = tokenPosts m := by
  cases t with
  | mk task tok => cases tok <;> simp [tokenPosts, Timer.handler]

/-- The same for a step of the pool; `r` slots are accounted for elsewhere. -/
theorem Stepped.slots (hs : Stepped s l s') (r : Nat)
    (hI : (s.mem.count.toNat + tokenPosts s.mem) % 2 ^ 64 =
      (s.mem.queued + (tally holding s.threads + r)) % 2 ^ 64) :
    (s'.mem.count.toNat + tokenPosts s'.mem) % 2 ^ 64 =
      (s'.mem.queued + (tally holding s'.threads + r)) % 2 ^ 64 := by
  cases hs with
  | move hth hm =>
    obtain ⟨r', hr, hr'⟩ := tally_resume holding hth _
    rw [hr, Nat.add_assoc] at hI
    have hmove := hm.slots (r' + r) hI
    dsimp only
    rw [hr', Nat.add_assoc]
    exact hmove
  | expire ht =>
    dsimp only
    rw [expire_tokenPosts, expire_queued]
    exact hI

/-- In every reachable state, up to wrap-around, `count_` and the uses of the
token overload add up to the queued tasks and the frames that hold a slot. -/
theorem reach_slots (h : (machine name cap n).Reach ok s) :
    (s.mem.count.toNat + tokenPosts s.mem) % 2 ^ 64 =
      (s.mem.queued + tally holding s.threads) % 2 ^ 64 := by
  refine reach_invariant
    (I := fun s => (s.mem.count.toNat + tokenPosts s.mem) % 2 ^ 64 =
      (s.mem.queued + tally holding s.threads) % 2 ^ 64) h ?_ ?_
  · rw [tally_initial rfl rfl]
    rfl
  · intro s l s' _ _ hs _ hI
    exact hs.slots 0 hI

/-- A frame holds at most one slot. -/
theorem holding_le (f : Frame) : holding f ≤ 1 := by
  unfold holding
  cases f with
  | post pc t => cases pc <;> simp
  | execTask pc t c ac => cases pc <;> cases c <;> simp
  | tokenHandler pc t tok => cases pc <;> simp
  | _ => simp

/-- Frames and queued handlers are objects of their own, so holders of slots
are fewer than `2 ^ 64`. -/
theorem holding_fits (h : Fits s) : s.mem.queued + tally holding s.threads < 2 ^ 64 := by
  have htally := tally_le (ε := Exn) holding_le s.threads
  have hq : s.mem.queued ≤ s.mem.queue.length := List.countP_le_length
  unfold Fits objects at h
  omega

/-- So the account is exact where the token overload has not been used. -/
theorem count_of_slots (hfits : Fits s) (htok : tokenPosts s.mem = 0)
    (hslots : (s.mem.count.toNat + tokenPosts s.mem) % 2 ^ 64 =
      (s.mem.queued + tally holding s.threads) % 2 ^ 64) :
    s.mem.count.toNat = s.mem.queued + tally holding s.threads := by
  have hroom := holding_fits hfits
  rw [htok, Nat.add_zero, Nat.mod_eq_of_lt s.mem.count.isLt, Nat.mod_eq_of_lt hroom] at hslots
  exact hslots

/-- As long as the token overload has not been used, `count_` is exact. -/
theorem count_exact (h : (machine name cap n).Reach ok s) (htok : tokenPosts s.mem = 0) :
    s.mem.count.toNat = s.mem.queued + tally holding s.threads :=
  count_of_slots (reach_fits h) htok (reach_slots h)

/-- The token overload is used for good: the number of its uses only grows. -/
theorem tokenPosts_mono (h : s.mem.Later s'.mem) : tokenPosts s.mem ≤ tokenPosts s'.mem :=
  h.trace.sublist.countP_le

/-! ## The bound -/

/-- What is on its way through the queue: it holds a slot and was not over
capacity. -/
def admittedSlots (f : Frame) : Nat := reserved f + dequeued f

theorem admittedSlots_le (f : Frame) : admittedSlots f ≤ holding f := by
  unfold admittedSlots holding
  omega

/-- A move that takes a slot and keeps it has seen room for it. -/
theorem Move.bounded (h : Move i m a ctl f m' nx) {r r₂ : Nat}
    (hr : admittedSlots f + r₂ ≤ holding f + r)
    (hcount : m.count.toNat = m.queued + (holding f + r))
    (hfit : m'.queued + (weigh holding nx.frames + r) < 2 ^ 64) (htok : tokenPosts m' = 0)
    (hI : m.queued + (admittedSlots f + r₂) ≤ m.capacity.toNat) :
    m'.queued + (weigh admittedSlots nx.frames + r₂) ≤ m.capacity.toNat := by
  cases h
  case post_room t hc =>
    simp [holding, admittedSlots, Mem.queued, BitVec.lt_def] at *
    omega
  case postToken => simp [tokenPosts] at htok
  case client_enter c | fn_enter c | completion_enter c =>
    cases c <;> simpa [admittedSlots, Mem.queued, Call.frame] using hI
  case exec_call t c ac => cases t <;> simpa [admittedSlots, Mem.queued, Task.body] using hI
  case run_take h q _ hq _ =>
    cases h <;>
      simp [admittedSlots, Mem.queued, Handler.frame, hq, List.countP_cons] at hI ⊢ <;> omega
  all_goals
    simp [admittedSlots, Mem.queued] at hI ⊢
    omega

/-- As long as the token overload has not been used, the tasks queued, taken
but not yet uncounted, or about to be queued are at most `capacity_`. -/
theorem reach_bounded (h : (machine name cap n).Reach ok s) (htok : tokenPosts s.mem = 0) :
    s.mem.queued + tally admittedSlots s.threads ≤ cap.toNat := by
  refine reach_invariant
    (I := fun s => tokenPosts s.mem = 0 →
      s.mem.queued + tally admittedSlots s.threads ≤ cap.toNat) h ?_ ?_ htok
  · intro _
    rw [tally_initial rfl rfl]
    exact Nat.zero_le _
  · intro s l s' hreach _ hs hfits hI htok'
    have htok : tokenPosts s.mem = 0 := by
      have := tokenPosts_mono hs.later
      omega
    have hcount := count_exact hreach htok
    have hle := tally_le (ε := Exn) admittedSlots_le s.threads
    have hfit := holding_fits hfits
    have hI := hI htok
    have hcap := reach_capacity hreach
    cases hs with
    | @move i a ctl f rest m nx hth hm =>
      obtain ⟨r, hr, hr'⟩ := tally_resume holding hth nx
      obtain ⟨r₂, hr₂, hr₂'⟩ := tally_resume admittedSlots hth nx
      dsimp only at hfit htok' ⊢
      rw [hr] at hcount hle
      rw [hr₂] at hI hle
      rw [hr'] at hfit
      rw [hr₂', ← hcap]
      exact hm.bounded hle hcount hfit htok' (hcap ▸ hI)
    | expire ht =>
      dsimp only
      rw [expire_queued]
      exact hI

/-! ## Capacity safety -/

/-- The frames whose next step is a `--count_`. -/
@[simp] def Frame.decrements : Frame → Bool
  | .post .undo _ => true
  | .execTask .entry _ true _ => true
  | _ => false

theorem decrements_le (f : Frame) (hf : f.decrements = true) : 0 < holding f := by
  cases f with
  | post pc t => cases pc <;> simp_all [holding]
  | execTask pc t c ac => cases pc <;> cases c <;> simp_all [holding]
  | _ => simp at hf

/-- Where `count_` is exact, a `--count_` that is about to happen finds it
positive. -/
theorem decrement_pos (h : (machine name cap n).Reach ok s) (htok : tokenPosts s.mem = 0)
    {rest : List Frame} (hth : s.threads[i]? = some ⟨ctl, f :: rest⟩)
    (hf : f.decrements = true) : 0 < s.mem.count.toNat := by
  have hcount := count_exact h htok
  have hweight := le_tally holding hth (List.mem_cons_self ..)
  have hpos := decrements_le f hf
  omega

/-- **Capacity safety.** Whatever the threads do, short of the completion-token
overload of `Post`, and however their steps interleave: `count_` is the
number of queued counted handlers, plus the handlers taken but not yet
uncounted, plus the callers between `++count_` and the enqueue or the undo;
it is positive whenever a `--count_` comes next; and the queued handlers
never outnumber `capacity_`. -/
theorem capacity_safety (h : (machine name cap n).Reach NoTokenPost s) :
    s.mem.count.toNat = s.mem.queued + tally dequeued s.threads +
        (tally reserved s.threads + tally undoing s.threads) ∧
      (∀ (i : Nat) (ctl : Ctl Exn) (f : Frame) (rest : List Frame),
        s.threads[i]? = some ⟨ctl, f :: rest⟩ → f.decrements = true →
          0 < s.mem.count.toNat) ∧
      s.mem.queued ≤ cap.toNat := by
  have htok := tokenPosts_eq_zero h
  refine ⟨?_, fun i ctl f rest hth hf => decrement_pos h htok hth hf, ?_⟩
  · have hsplit : tally holding s.threads =
        tally undoing s.threads + tally reserved s.threads + tally dequeued s.threads := by
      unfold holding
      rw [tally_add, tally_add]
    have hcount := count_exact h htok
    omega
  · have hbound := reach_bounded h htok
    omega

/-- Two clients race for one place: the first has reserved it and not enqueued
yet, the second has incremented `count_` to 2 and is about to undo that. -/
theorem capacity_safety_race : ∃ s, (machine "race" 1 2).Reach NoTokenPost s ∧
    s.mem.count = 2 ∧ s.mem.queued ≤ (1 : BitVec 64).toNat := by
  let steps : List Step := [.thread 1 (.call .post), .thread 1 .code, .thread 1 .code,
    .thread 2 (.call .post), .thread 2 .code, .thread 2 .code]
  have hrun : ∃ s, (machine "race" 1 2).guardedRun NoTokenPost (initial "race" 1 2) steps =
      some s ∧ s.mem.count = 2 := ⟨_, rfl, rfl⟩
  obtain ⟨s, hs, hcount⟩ := hrun
  have hreach := reach_schedule (by decide) hs
  exact ⟨s, hreach, hcount, (capacity_safety hreach).2.2⟩

end Warlib.Pipeline
