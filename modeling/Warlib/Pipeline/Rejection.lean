import Warlib.Pipeline.Capacity

/-!
# Who is rejected

`AddingTask` takes its slot first and looks afterwards: `++count_`, and when
that is over capacity, `--count_` and the exception. Between the two the
rejected caller counts like a task. Another caller that comes in just then
can find the pipeline over capacity although fewer than `capacity_` tasks
wait.

`State.waiting` is what should count: the accepted tasks that are queued,
taken and not yet uncounted, or about to be enqueued. `count_` is that plus
the rejected callers who have not undone their increment (`count_waiting`).
`Unhindered` says of a step that those callers make no difference to it. Along
such runs nobody is rejected while a place is free, and the condition is
exact for every single increment.
-/

namespace Warlib.Pipeline

open Warlib.Machine

variable {name : String} {cap : BitVec 64} {n : Nat} {ok : State → Step → Prop}
  {s s' : State} {l : Step} {i : Nat} {m m' : Mem} {a : Act} {ctl : Ctl Exn} {f : Frame}
  {rest : List Frame} {nx : Next Frame Exn}

/-- The accepted tasks that wait: queued, taken from the queue and not yet
decremented, or reserved by a caller that will enqueue. -/
def State.waiting (s : State) : Nat := s.mem.queued + tally admittedSlots s.threads

/-- The rejected callers that have not undone their increment. -/
def State.undoing (s : State) : Nat := tally Pipeline.undoing s.threads

/-- The frames whose next step is `++count_`. -/
@[simp] def Frame.increments : Frame → Bool
  | .post .adding _ => true
  | _ => false

/-- The token overload is not called, and whoever increments `count_` finds
`capacity_` tasks waiting, or room for one more even with the rejected callers
that have not undone their increments. -/
def Unhindered (s : State) (l : Step) : Prop :=
  NoTokenPost s l ∧
    match l with
    | .thread i _ => (s.top? i).any Frame.increments = true →
        s.mem.capacity.toNat ≤ s.waiting ∨ s.waiting + s.undoing < s.mem.capacity.toNat
    | .env _ => True

instance (s : State) (l : Step) : Decidable (Unhindered s l) :=
  match l with
  | .thread _ _ => inferInstanceAs (Decidable (_ ∧ (_ → _ ∨ _)))
  | .env _ => inferInstanceAs (Decidable (_ ∧ True))

theorem noTokenPost_of_reach (h : (machine name cap n).Reach Unhindered s) :
    (machine name cap n).Reach NoTokenPost s := h.mono fun _ _ hl => hl.1

/-- `count_` is what waits and what is about to be undone. -/
theorem count_waiting (h : (machine name cap n).Reach NoTokenPost s) :
    s.mem.count.toNat = s.waiting + s.undoing := by
  have hsplit : tally holding s.threads = tally undoing s.threads + tally admittedSlots s.threads := by
    rw [← tally_add]
    congr 1
    funext f
    unfold holding admittedSlots
    omega
  have hcount := count_exact h (tokenPosts_eq_zero h)
  unfold State.waiting State.undoing
  omega

/-! ## One increment -/

/-- The increment has two outcomes, told apart by the word before it. -/
theorem increment (h : (machine name cap n).Reach NoTokenPost s) {t : Task}
    (hadding : s.top? i = some (.post .adding t))
    (hnext : (machine name cap n).next s (.thread i a) = some s') :
    (s'.top? i = some (.post .undo t) ∧ cap.toNat ≤ s.waiting + s.undoing) ∨
      (s'.top? i = some (.post .enqueue t) ∧ s.waiting + s.undoing < cap.toNat) := by
  obtain ⟨hstep, hfits⟩ := stepped_of_next hnext
  have hcount := count_waiting h
  have hcap := reach_capacity h
  have hexact := count_exact h (tokenPosts_eq_zero h)
  have hsmall := holding_fits hfits
  cases hstep with
  | @move _ _ ctl f rest m nx hth hm =>
    have hi : i < s.threads.length := (List.getElem?_eq_some_iff.mp hth).1
    obtain ⟨r, hr, hr'⟩ := tally_resume holding hth nx
    obtain rfl : f = .post .adding t := Option.some.inj ((top_of_thread hth).symm.trans hadding)
    -- the word does not wrap around: the slot is an object in memory
    have hplus : (s.mem.count + 1).toNat = s.waiting + s.undoing + 1 := by
      dsimp only at hsmall
      rw [hr'] at hsmall
      rw [hr] at hexact
      have hslot : weigh holding nx.frames = 1 ∧ m.queued = s.mem.queued := by
        cases hm
        case user_set hf => exact absurd hf (by simp [Frame.userCode])
        case user_set_again hf => exact absurd hf (by simp [Frame.userCode])
        all_goals exact ⟨rfl, rfl⟩
      have hnone : holding (.post .adding t) = 0 := rfl
      have hfit : s.waiting + s.undoing + 1 < 2 ^ 64 := by omega
      rw [BitVec.toNat_add, hcount]
      exact Nat.mod_eq_of_lt hfit
    cases hm
    case post_full hc =>
      simp only [GT.gt, BitVec.lt_def, hcap, hplus] at hc
      refine Or.inl ⟨?_, by omega⟩
      simp [State.top?, hi]
    case post_room hc =>
      simp only [GT.gt, BitVec.lt_def, hcap, hplus] at hc
      refine Or.inr ⟨?_, by omega⟩
      simp [State.top?, hi]
    case user_set hf => exact absurd hf (by simp [Frame.userCode])
    case user_set_again hf => exact absurd hf (by simp [Frame.userCode])

/-- A run meets the condition at an increment exactly when that increment rejects
nobody while a place is free. -/
theorem increment_exact (h : (machine name cap n).Reach NoTokenPost s) {t : Task}
    (hadding : s.top? i = some (.post .adding t))
    (hnext : (machine name cap n).next s (.thread i a) = some s') :
    (s'.top? i = some (.post .undo t) → cap.toNat ≤ s.waiting) ↔
      cap.toNat ≤ s.waiting ∨ s.waiting + s.undoing < cap.toNat := by
  rcases increment h hadding hnext with ⟨hthrows, hfull⟩ | ⟨htakes, hroom⟩
  · constructor
    · exact fun hjust => Or.inl (hjust hthrows)
    · rintro (hle | hlt) _
      · exact hle
      · omega
  · refine iff_of_true (fun hthrows => ?_) (Or.inr hroom)
    exact absurd (htakes.symm.trans hthrows) (by simp)

/-! ## The moment a rejected caller looked -/

/-- A caller is rejected by its increment, and by nothing else. -/
theorem Move.undoes (h : Move i m a ctl f m' nx) {t : Task} (ht : .post .undo t ∈ nx.frames) :
    f = .post .adding t ∧ nx = .goto (.post .undo t) := by
  cases h
  case post_full t' hc =>
    obtain rfl : t = t' := by simpa using ht
    exact ⟨rfl, rfl⟩
  case client_enter c | fn_enter c | completion_enter c => cases c <;> simp [Call.frame] at ht
  case exec_call t' c ac => cases t' <;> simp [Task.body] at ht
  case run_take h q hs hq hctl => cases h <;> simp [Handler.frame] at ht
  case user_set p o hp hf | user_set_again p o hp hf =>
    obtain rfl := List.mem_singleton.mp ht
    exact absurd hf (by simp [Frame.userCode])
  all_goals simp at ht

/-- Earlier in the run the caller incremented `count_` and found it over
capacity, and at that moment at least `capacity_` accepted tasks were waiting. -/
def Justified (name : String) (cap : BitVec 64) (n : Nat) (s : State) (t : Task) : Prop :=
  ∃ i a s₁ s₂, (machine name cap n).Reach Unhindered s₁ ∧
    s₁.top? i = some (.post .adding t) ∧
    (machine name cap n).next s₁ (.thread i a) = some s₂ ∧
    s₂.top? i = some (.post .undo t) ∧ (machine name cap n).Steps s₂ s ∧ cap.toNat ≤ s₁.waiting

theorem Justified.next {t : Task} (h : Justified name cap n s t)
    (hnext : (machine name cap n).next s l = some s') : Justified name cap n s' t := by
  obtain ⟨i, a, s₁, s₂, hreach, hadding, hmove, hthrows, hsteps, hle⟩ := h
  exact ⟨i, a, s₁, s₂, hreach, hadding, hmove, hthrows, .tail hsteps hnext, hle⟩

/-- Whoever is about to be rejected, or has been, looked when the pipeline was full. -/
structure AllJustified (name : String) (cap : BitVec 64) (n : Nat) (s : State) : Prop where
  frames : ∀ (j : Nat) (th : Thread Frame Exn), s.threads[j]? = some th → ∀ g ∈ th.frames,
    ∀ t, g = .post .undo t → Justified name cap n s t
  rejected : ∀ t, .rejected t ∈ s.mem.trace → Justified name cap n s t

theorem reach_justified (h : (machine name cap n).Reach Unhindered s) :
    AllJustified name cap n s := by
  refine h.invariant ?_ ?_
  · rintro s ⟨rfl, -⟩
    refine ⟨fun j th hth g hg t ht => ?_, fun t ht => absurd ht (by simp [initial])⟩
    obtain rfl := initial_thread hth
    rw [List.mem_singleton.mp hg] at ht
    cases j <;> simp at ht
  · intro s l s' hr hok hnext hI
    have hstep := (stepped_of_next hnext).1
    cases hstep with
    | @move i a ctl f rest m nx hth hm =>
      have hframes : ∀ (j : Nat) (th : Thread Frame Exn),
          (s.threads.set i (nx.resume rest))[j]? = some th → ∀ g ∈ th.frames,
            ∀ t, g = .post .undo t →
              Justified name cap n ⟨m, s.threads.set i (nx.resume rest)⟩ t := by
        refine forall_frames_set hth hI.frames (fun _ _ hj t ht => (hj t ht).next hnext) ?_
        rintro - g hg t rfl
        obtain ⟨rfl, rfl⟩ := hm.undoes hg
        have hi : i < s.threads.length := (List.getElem?_eq_some_iff.mp hth).1
        have hadding := top_of_thread hth
        have hthrows : State.top? ⟨m, s.threads.set i (Next.resume rest
            (.goto (.post .undo t)))⟩ i = some (.post .undo t) := by simp [State.top?, hi]
        have hle := (increment_exact (noTokenPost_of_reach hr) hadding hnext).mpr
          (reach_capacity hr ▸ hok.2 (by rw [hadding]; rfl)) hthrows
        exact ⟨i, a, s, _, hr, hadding, hnext, hthrows, .refl _, hle⟩
      refine ⟨hframes, fun t ht => ?_⟩
      rcases hm.emits with hsame | ⟨e, he⟩
      · exact (hI.rejected t (hsame ▸ ht)).next hnext
      · dsimp only at ht
        rw [he] at ht
        rcases List.mem_append.mp ht with ht | ht
        · exact (hI.rejected t ht).next hnext
        · obtain rfl := List.mem_singleton.mp ht
          have hf : f = .post .undo t := hm.source he
          exact (hI.frames i _ hth f (List.mem_cons_self ..) t hf).next hnext
    | @expire k ec tm htm =>
      refine ⟨fun j th hth g hg t ht => (hI.frames j th hth g hg t ht).next hnext, fun t ht => ?_⟩
      refine (hI.rejected t ?_).next hnext
      simpa using ht

/-- **No spurious rejection.** In every run in which whoever increments `count_`
finds `capacity_` accepted tasks waiting, or room even with the rejected
callers that have not undone their increments: a caller that is rejected had
incremented `count_` when at least `capacity_` accepted tasks were waiting.
And the next increment is of that kind if and only if it meets the
condition. -/
theorem no_spurious_rejection (h : (machine name cap n).Reach Unhindered s) :
    (∀ t, .rejected t ∈ s.mem.trace → Justified name cap n s t) ∧
      ∀ i a t s', s.top? i = some (.post .adding t) →
        (machine name cap n).next s (.thread i a) = some s' →
        ((s'.top? i = some (.post .undo t) → cap.toNat ≤ s.waiting) ↔
          cap.toNat ≤ s.waiting ∨ s.waiting + s.undoing < cap.toNat) :=
  ⟨(reach_justified h).rejected, fun _ _ _ _ hadding hnext =>
    increment_exact (noTokenPost_of_reach h) hadding hnext⟩

/-- One place, one task in the queue: the second client is rejected, rightly. -/
theorem no_spurious_rejection_full : ∃ s, (machine "race" 1 2).Reach Unhindered s ∧
    .rejected (.user 1) ∈ s.mem.trace ∧ Justified "race" 1 2 s (.user 1) := by
  let post : Nat → List Step := fun i => .thread i (.call .post) :: List.replicate 3 (.thread i .code)
  have hrun : ∃ s, (machine "race" 1 2).guardedRun Unhindered (initial "race" 1 2)
      (post 1 ++ post 2) = some s ∧ .rejected (.user 1) ∈ s.mem.trace := ⟨_, rfl, by decide⟩
  obtain ⟨s, hs, hrejected⟩ := hrun
  have hreach := reach_schedule (by decide) hs
  exact ⟨s, hreach, hrejected, (no_spurious_rejection hreach).1 _ hrejected⟩

/-- One place, and a task in it. The second client is on its way to being
rejected; the worker takes the task and uncounts it, and nothing waits any
more. Then the third client is rejected, for the sake of the second. -/
theorem rejected_by_rejected : ∃ s s' s'', (machine "race" 1 3).Reach
      (fun s l => NoTokenPost s l ∧ NoClose s l) s ∧
    s.top? 3 = some (.post .adding (.user 2)) ∧ s.waiting = 0 ∧
    (machine "race" 1 3).next s (.thread 3 .code) = some s' ∧
    (machine "race" 1 3).next s' (.thread 3 .code) = some s'' ∧
    .rejected (.user 2) ∈ s''.mem.trace := by
  let steps : List Step := [.thread 1 (.call .post), .thread 1 .code, .thread 1 .code,
    .thread 1 .code, .thread 2 (.call .post), .thread 2 .code, .thread 2 .code, .thread 0 .code,
    .thread 0 .code, .thread 3 (.call .post), .thread 3 .code]
  have hrun : ∃ s s' s'', (machine "race" 1 3).guardedRun
      (fun s l => NoTokenPost s l ∧ NoClose s l) (initial "race" 1 3) steps = some s ∧
      s.top? 3 = some (.post .adding (.user 2)) ∧ s.waiting = 0 ∧
      (machine "race" 1 3).next s (.thread 3 .code) = some s' ∧
      (machine "race" 1 3).next s' (.thread 3 .code) = some s'' ∧
      .rejected (.user 2) ∈ s''.mem.trace := ⟨_, _, _, rfl, rfl, rfl, rfl, rfl, by decide⟩
  obtain ⟨s, s', s'', hs, hadding, hnone, hnext, hnext', hrejected⟩ := hrun
  exact ⟨s, s', s'', reach_schedule (by decide) hs, hadding, hnone, hnext, hnext', hrejected⟩

end Warlib.Pipeline
