import Warlib.Pipeline.Capacity

/-!
# One call at a time

What `GetCount()` says when calls and handlers do not overlap: a thread
starts a call, and the worker takes a handler, only when nothing else is
under way (`Sequential`; a client waiting for its future inside
`PostSynchronously` is not under way). `Between` are the states in which
nothing is.

* Between calls `count_` equals the number of queued tasks exactly when the
  number of calls of the completion-token overload of `Post` is a multiple of
  `2 ^ 64`: every such call leaves the counter one short for good, since
  `ExecTask_` uncounts what nobody counted.
* Without such calls the counter never wraps, and who is rejected has seen a
  full queue. The second is an invariant about the one call under way: up to
  its increment the queue is as it was when the call was made (`Knows`), and
  after a failed increment it was full.
-/

namespace Warlib.Pipeline

open Warlib.Machine

/-- The stack of a thread that is between calls and handlers: ended, in
`run()`, in a client's own code, or waiting for a future. -/
def quiet : List Frame → Bool
  | [] => true
  | [.run] => true
  | [.client] => true
  | [.postSynchronously .waiting _, .client] => true
  | _ => false

/-- Nothing is under way. -/
def Between (s : State) : Prop := ∀ th ∈ s.threads, quiet th.frames = true

instance (s : State) : Decidable (Between s) :=
  inferInstanceAs (Decidable (∀ th ∈ s.threads, quiet th.frames = true))

/-- A client's call begins, or the worker goes for a handler. -/
def opens (th : Thread Frame Exn) : Act → Bool
  | .code => th.frames == [.run]
  | .call _ => th.frames == [.client]
  | _ => false

/-- Calls and handlers do not overlap. -/
def Sequential (s : State) : Step → Prop
  | .thread i a => ∀ th ∈ s.threads[i]?, opens th a = true → Between s
  | .env _ => True

instance (s : State) (l : Step) : Decidable (Sequential s l) :=
  match l with
  | .thread i a =>
    inferInstanceAs (Decidable (∀ th ∈ s.threads[i]?, opens th a = true → Between s))
  | .env _ => inferInstanceAs (Decidable True)

variable {name : String} {cap : BitVec 64} {n : Nat} {ok : State → Step → Prop}
  {s s' : State} {l : Step} {i : Nat} {m m' : Mem} {a : Act} {ctl : Ctl Exn} {f : Frame}
  {rest : List Frame} {nx : Next Frame Exn}

/-- The frames of a thread that is between calls. -/
theorem quiet_frames {fs : List Frame} (h : quiet fs = true) {g : Frame} (hg : g ∈ fs) :
    g = .run ∨ g = .client ∨ ∃ id, g = .postSynchronously .waiting id := by
  unfold quiet at h
  split at h
  next => exact absurd hg (by simp)
  next => exact Or.inl (List.mem_singleton.mp hg)
  next => exact Or.inr (Or.inl (List.mem_singleton.mp hg))
  next id =>
    rcases List.mem_cons.mp hg with rfl | hg
    · exact Or.inr (Or.inr ⟨id, rfl⟩)
    · exact Or.inr (Or.inl (List.mem_singleton.mp hg))
  next => exact absurd h (by simp)

/-- Between calls nobody holds a slot, and nobody is about to enqueue. -/
theorem Between.tally_eq_zero {w : Frame → Nat} (h : Between s) (hrun : w .run = 0)
    (hclient : w .client = 0) (hwait : ∀ id, w (.postSynchronously .waiting id) = 0) :
    tally w s.threads = 0 := by
  refine Machine.tally_eq_zero fun th hth g hg => ?_
  rcases quiet_frames (h th hth) hg with rfl | rfl | ⟨id, rfl⟩
  · exact hrun
  · exact hclient
  · exact hwait id

/-- The counter between calls, for any use of the token overload. -/
theorem between_count (h : (machine name cap n).Reach ok s) (hb : Between s) :
    s.mem.count.toNat = s.mem.queued ↔ 2 ^ 64 ∣ tokenCalls s.mem := by
  have hslots := reach_slots h
  have hfits := holding_fits (reach_fits h)
  have hcalls := reach_tokenCalls h
  have hcount := s.mem.count.isLt
  rw [hb.tally_eq_zero (w := holding) rfl rfl (fun _ => rfl)] at hslots hfits
  rw [hb.tally_eq_zero (w := tokenPosting) rfl rfl (fun _ => rfl)] at hcalls
  rw [Nat.add_zero] at hslots hfits hcalls
  rw [hcalls]
  omega

/-! ## The one call under way -/

/-- Nothing is under way but on thread `i`. -/
def Alone (s : State) (i : Nat) : Prop :=
  ∀ (j : Nat) (th : Thread Frame Exn), j ≠ i → s.threads[j]? = some th → quiet th.frames = true

/-- A step that neither makes a call nor rejects one. -/
structure Silent (m m' : Mem) : Prop where
  nextId : m'.nextId = m.nextId
  called : ∀ caller id c q, Event.called caller id c q ∈ m'.trace → .called caller id c q ∈ m.trace
  rejected : ∀ t, Event.rejected t ∈ m'.trace → .rejected t ∈ m.trace

/-- A step is taken while every other thread is between calls, or it is the
step of a thread that itself stays between calls. -/
theorem alone_or_idle {k : Nat} (hk : Alone s k) (hseq : Sequential s (.thread i a))
    (hth : s.threads[i]? = some ⟨ctl, f :: rest⟩) (hm : Move i s.mem a ctl f m nx) :
    Alone s i ∨ (quiet (nx.resume rest).frames = true ∧ quiet (f :: rest) = true ∧
      Silent s.mem m ∧ m.queued = s.mem.queued) := by
  have hothers : Between s → Alone s i := fun hb j th _ hj => hb th (List.mem_of_getElem? hj)
  by_cases hq : quiet (f :: rest) = true
  · unfold quiet at hq
    split at hq
    next heq => exact absurd heq (by simp)
    next heq =>
      obtain ⟨rfl, rfl⟩ := List.cons.inj heq
      left
      refine hothers (hseq _ hth ?_)
      cases hm <;> first | rfl | contradiction
    next heq =>
      obtain ⟨rfl, rfl⟩ := List.cons.inj heq
      cases hm
      case client_enter c => exact Or.inl (hothers (hseq _ hth rfl))
      case user_set =>
        exact Or.inr ⟨rfl, rfl, ⟨rfl, fun _ _ _ _ h => h, fun _ h => h⟩, rfl⟩
      case user_set_again =>
        exact Or.inr ⟨rfl, rfl, ⟨rfl, fun _ _ _ _ h => h, fun _ h => h⟩, rfl⟩
    next id heq =>
      obtain ⟨rfl, rfl⟩ := List.cons.inj heq
      right
      cases hm
      case postSynchronously_value =>
        exact ⟨rfl, rfl, ⟨rfl, by simp, by simp⟩, rfl⟩
      case postSynchronously_exn =>
        exact ⟨rfl, rfl, ⟨rfl, by simp, by simp⟩, rfl⟩
      case user_set p o hp hf | user_set_again p o hp hf =>
        exact absurd hf (by simp [Frame.userCode])
    next => exact absurd hq (by simp)
  · -- the stepping thread is the active one
    left
    have hki : k = i := by
      by_contra hne
      exact hq (hk i _ (fun he => hne he.symm) hth)
    rw [← hki]
    exact hk

/-- The submission a frame is going to increment `count_` for, if any. -/
def Frame.submits? : Frame → Option Nat
  | .post .closing t => some t.id
  | .post .adding t => some t.id
  | .dispatch t => some t.id
  | .postWithPromise .start id _ => some id
  | .postSynchronously .start id => some id
  | _ => none

/-- What a call under way knows about the queue: nothing has changed since it
was made; and when its increment has failed, the queue was full. -/
structure Knows (cap : Nat) (m : Mem) (f : Frame) : Prop where
  fresh : ∀ id, f.submits? = some id → id < m.nextId ∧
    ∀ caller c q, .called caller id c q ∈ m.trace → q = m.queued
  full : ∀ t, f = .post .undo t → t.id < m.nextId ∧
    ∀ caller c q, .called caller t.id c q ∈ m.trace → cap ≤ q

/-- Only calls that have seen a full queue are rejected. -/
structure Honest (cap : Nat) (m : Mem) : Prop where
  called : ∀ caller id c q, .called caller id c q ∈ m.trace → id < m.nextId
  rejected : ∀ t, .rejected t ∈ m.trace → t.id < m.nextId ∧
    ∀ caller c q, .called caller t.id c q ∈ m.trace → cap ≤ q

/-- A frame that waits for a callee is not about to increment. -/
theorem knows_of_awaits {room : Nat} (h : f.awaits = true) : Knows room m f := by
  refine ⟨fun id hid => ?_, fun t ht => ?_⟩
  · exfalso
    unfold Frame.submits? at hid
    split at hid <;> first
      | (simp [Frame.awaits, Frame.waits, Frame.userCode] at h; done)
      | simp at hid
  · subst ht
    simp [Frame.awaits, Frame.waits, Frame.userCode] at h

/-- Nor is a thread that is between calls. -/
theorem knows_of_quiet {room : Nat} {fs : List Frame} (h : quiet fs = true) :
    ∀ g ∈ fs, Knows room m g := by
  intro g hg
  rcases quiet_frames h hg with rfl | rfl | ⟨id, rfl⟩
  · exact knows_of_awaits rfl
  · exact knows_of_awaits rfl
  · exact ⟨fun _ hid => by simp [Frame.submits?] at hid, fun _ ht => by simp at ht⟩

/-- Nor is any other frame outside the submissions. -/
theorem knows_of_none {room : Nat} (h : f.submits? = none) (hf : ∀ t, f ≠ .post .undo t) :
    Knows room m f :=
  ⟨fun id hid => absurd (h.symm.trans hid) (by simp), fun t ht => absurd ht (hf t)⟩

/-- A step that changes nothing about calls and the queue takes no knowledge
away. -/
theorem Knows.silent {room : Nat} (h : Knows room m f) (hm : Silent m m')
    (hqueue : m'.queued = m.queued) : Knows room m' f := by
  refine ⟨fun id hid => ?_, fun t ht => ?_⟩
  · obtain ⟨hlt, hq⟩ := h.fresh id hid
    rw [hm.nextId, hqueue]
    exact ⟨hlt, fun caller c q hc => hq caller c q (hm.called caller id c q hc)⟩
  · obtain ⟨hlt, hq⟩ := h.full t ht
    rw [hm.nextId]
    exact ⟨hlt, fun caller c q hc => hq caller c q (hm.called caller t.id c q hc)⟩

theorem Honest.silent {room : Nat} (h : Honest room m) (hm : Silent m m') : Honest room m' := by
  refine ⟨fun caller id cl q hc => ?_, fun t ht => ?_⟩
  · rw [hm.nextId]
    exact h.called caller id cl q (hm.called caller id cl q hc)
  · obtain ⟨hlt, hq⟩ := h.rejected t (hm.rejected t ht)
    rw [hm.nextId]
    exact ⟨hlt, fun caller cl q hc => hq caller cl q (hm.called caller t.id cl q hc)⟩

/-- A call is made: its number is new, and it sees the queue as it is. -/
theorem Honest.enter {room : Nat} (h : Honest room m) (caller : Option Nat) (cl : Call) :
    Honest room (m.enter caller cl) ∧ Knows room (m.enter caller cl) (cl.frame m.nextId) := by
  have hold : ∀ {caller' id cl' q}, id < m.nextId →
      .called caller' id cl' q ∈ (m.enter caller cl).trace →
      Event.called caller' id cl' q ∈ m.trace := by
    intro caller' id cl' q hlt hmem
    rcases List.mem_append.mp hmem with hmem | hmem
    · exact hmem
    · simp only [List.mem_singleton, Event.called.injEq] at hmem
      omega
  have hnew : ∀ {caller' cl' q}, .called caller' m.nextId cl' q ∈ (m.enter caller cl).trace →
      q = m.queued := by
    intro caller' cl' q hmem
    rcases List.mem_append.mp hmem with hmem | hmem
    · exact absurd (h.called _ _ _ _ hmem) (by omega)
    · simp only [List.mem_singleton, Event.called.injEq] at hmem
      exact hmem.2.2.2
  refine ⟨⟨fun caller' id cl' q hmem => ?_, fun t ht => ?_⟩, ?_⟩
  · rcases List.mem_append.mp hmem with hmem | hmem
    · exact Nat.lt_succ_of_lt (h.called _ _ _ _ hmem)
    · simp only [List.mem_singleton, Event.called.injEq] at hmem
      exact hmem.2.1 ▸ Nat.lt_succ_self _
  · obtain ⟨hlt, hq⟩ := h.rejected t (by simpa using ht)
    exact ⟨Nat.lt_succ_of_lt hlt, fun caller' cl' q hmem => hq caller' cl' q (hold hlt hmem)⟩
  · have hid : ∀ id, (cl.frame m.nextId).submits? = some id → id = m.nextId := by
      intro id hid
      cases cl <;> simp [Call.frame, Frame.submits?, Task.id] at hid <;> exact hid.symm
    refine ⟨fun id hsub => ?_, fun t ht => ?_⟩
    · obtain rfl := hid id hsub
      exact ⟨Nat.lt_succ_self _, fun caller' cl' q hmem => hnew hmem⟩
    · cases cl <;> simp [Call.frame] at ht

/-- The step lemma: while thread `i` alone has something under way, its calls
are rejected for good reason. -/
theorem Move.honest {room : Nat} (h : Move i m a ctl f m' nx) (hcap : m.capacity.toNat = room)
    (hcount : m.count.toNat = m.queued + holding f) (hH : Honest room m) (hK : Knows room m f) :
    Honest room m' ∧ ∀ g ∈ nx.frames, Knows room m' g := by
  cases h
  case client_enter cl =>
    obtain ⟨hH', hK'⟩ := hH.enter none cl
    exact ⟨hH', by simpa using ⟨hK', knows_of_awaits rfl⟩⟩
  case fn_enter id cl =>
    obtain ⟨hH', hK'⟩ := hH.enter (some id) cl
    exact ⟨hH', by simpa using ⟨hK', knows_of_awaits rfl⟩⟩
  case completion_enter tok cl =>
    obtain ⟨hH', hK'⟩ := hH.enter none cl
    exact ⟨hH', by simpa using ⟨hK', knows_of_awaits rfl⟩⟩
  case post_open t hc =>
    exact ⟨hH, by simpa using ⟨hK.fresh, fun _ ht => by simp at ht⟩⟩
  case post_full t hc =>
    -- the increment failed, so the queue was full when the call was made
    obtain ⟨hlt, hq⟩ := hK.fresh t.id rfl
    refine ⟨hH.silent ⟨rfl, fun _ _ _ _ h => h, fun _ h => h⟩, ?_⟩
    have hfull : room ≤ m.queued := by
      simp only [holding, undoing, reserved, dequeued, Nat.add_zero] at hcount
      have hone : (1 : BitVec 64).toNat = 1 := rfl
      simp only [GT.gt, BitVec.lt_def, BitVec.toNat_add] at hc
      omega
    intro g hg
    rw [List.mem_singleton.mp hg]
    refine ⟨fun _ hid => by simp [Frame.submits?] at hid, fun t' ht' => ?_⟩
    obtain rfl : t = t' := by simpa using ht'
    exact ⟨hlt, fun caller cl q hc => (hq caller cl q hc) ▸ hfull⟩
  case post_undo t =>
    obtain ⟨hlt, hq⟩ := hK.full t rfl
    refine ⟨⟨fun caller id cl q hmem => ?_, fun t' ht' => ?_⟩, by simp⟩
    · exact hH.called caller id cl q (by simpa using hmem)
    · have hq' : t' = t ∨ .rejected t' ∈ m.trace := by
        rcases List.mem_append.mp ht' with h' | h'
        · exact Or.inr h'
        · exact Or.inl (by simpa using h')
      rcases hq' with rfl | hmem
      · exact ⟨hlt, fun caller cl q hc => hq caller cl q (by simpa using hc)⟩
      · obtain ⟨hlt', hq'⟩ := hH.rejected t' hmem
        exact ⟨hlt', fun caller cl q hc => hq' caller cl q (by simpa using hc)⟩
  case dispatch_post t hc hi =>
    exact ⟨hH, by simpa using ⟨hK.fresh, fun _ ht => by simp at ht⟩⟩
  case postWithPromise_start id p =>
    exact ⟨hH, by simpa using ⟨⟨hK.fresh, fun _ ht => by simp at ht⟩, knows_of_awaits rfl⟩⟩
  case postSynchronously_start id =>
    exact ⟨hH, by simpa using ⟨⟨hK.fresh, fun _ ht => by simp at ht⟩, knows_of_awaits rfl⟩⟩
  case user_set p o hp hf =>
    refine ⟨hH.silent ⟨rfl, fun _ _ _ _ h => h, fun _ h => h⟩, ?_⟩
    simpa using knows_of_awaits (by simp [Frame.awaits, hf])
  case user_set_again p o hp hf =>
    exact ⟨hH, by simpa using knows_of_awaits (by simp [Frame.awaits, hf])⟩
  case exec_call t c ac =>
    refine ⟨hH.silent ⟨rfl, by simp, by simp⟩, ?_⟩
    have hbody : Knows room (m.emit [.began t c]) t.body := by
      cases t <;> exact knows_of_none rfl (by simp [Task.body])
    simpa using ⟨hbody, knows_of_awaits rfl⟩
  case run_take h q hs hq hctl =>
    refine ⟨hH.silent ⟨rfl, by simp, by simp⟩, ?_⟩
    have hframe : Knows room ({ m with queue := q }.emit [.taken h]) h.frame := by
      cases h <;> exact knows_of_none rfl (by simp [Handler.frame])
    simpa using ⟨hframe, knows_of_awaits rfl⟩
  all_goals
    refine ⟨hH.silent ⟨rfl, by simp, by simp⟩, fun g hg => ?_⟩
    simp only [Next.frames, List.mem_cons, List.not_mem_nil, or_false] at hg
  all_goals first
    | (subst hg; exact knows_of_none rfl (by simp))
    | (rcases hg with rfl | rfl <;> exact knows_of_none rfl (by simp))

/-! ## Runs of calls that do not overlap -/

/-- What holds in every state of such a run, up to the first use of the token
overload. -/
structure OneAtATime (cap : Nat) (s : State) : Prop where
  alone : ∃ k, Alone s k
  honest : Honest cap s.mem
  knows : ∀ (j : Nat) (th : Thread Frame Exn), s.threads[j]? = some th →
    ∀ g ∈ th.frames, Knows cap s.mem g

/-- A slot is held by the top frame of a thread, if at all. -/
theorem holding_of_awaits (h : f.awaits = true) : holding f = 0 := by
  unfold holding
  cases f with
  | post pc t => cases pc <;> simp_all [Frame.awaits, Frame.waits, Frame.userCode]
  | execTask pc t c ac =>
    cases pc <;> cases c <;> simp_all [Frame.awaits, Frame.waits, Frame.userCode]
  | tokenHandler pc t tok => cases pc <;> simp_all [Frame.awaits, Frame.waits, Frame.userCode]
  | _ => rfl

/-- While thread `i` is alone, `count_` is off by what its top frame holds. -/
theorem alone_count (h : (machine name cap n).Reach ok s) (htok : tokenPosts s.mem = 0)
    (halone : Alone s i) (hth : s.threads[i]? = some ⟨ctl, f :: rest⟩) :
    s.mem.count.toNat = s.mem.queued + holding f := by
  rw [count_exact h htok, tally_alone hth]
  · intro g hg
    exact holding_of_awaits (reach_below h hth hg)
  · intro j th hne hj g hg
    rcases quiet_frames (halone j th hne hj) hg with rfl | rfl | ⟨id, rfl⟩ <;> rfl

theorem Stepped.oneAtATime (hr : (machine name cap n).Reach ok s) (hseq : Sequential s l)
    (hs : Stepped s l s') (htok : tokenPosts s.mem = 0) (hI : OneAtATime cap.toNat s) :
    OneAtATime cap.toNat s' := by
  obtain ⟨⟨k, hk⟩, hH, hK⟩ := hI
  cases hs with
  | @move i a ctl f rest m nx hth hm =>
    rcases alone_or_idle hk hseq hth hm with halone | ⟨hquiet', hquiet, hsilent, hqueue⟩
    · obtain ⟨hH', hK'⟩ := hm.honest (by rw [reach_capacity hr])
        (alone_count hr htok halone hth) hH (hK i _ hth f (List.mem_cons_self ..))
      refine ⟨⟨i, fun j th hne hj => ?_⟩, hH', ?_⟩
      · rw [List.getElem?_set_ne (fun he => hne he.symm)] at hj
        exact halone j th hne hj
      · refine forall_set (T := fun _ th => ∀ g ∈ th.frames, Knows cap.toNat m g) ?_ ?_
        · intro g hg
          rw [Next.resume_frames] at hg
          rcases List.mem_append.mp hg with hg | hg
          · exact hK' g hg
          · exact knows_of_awaits (reach_below hr hth hg)
        · exact fun j th hne hj => knows_of_quiet (halone j th hne hj)
    · refine ⟨⟨k, ?_⟩, hH.silent hsilent, ?_⟩
      · intro j th hne hj
        exact forall_set (T := fun j th => j ≠ k → quiet th.frames = true) (fun _ => hquiet')
          (fun j th _ hj hne => hk j th hne hj) j th hj hne
      · refine forall_set (T := fun _ th => ∀ g ∈ th.frames, Knows cap.toNat m g) ?_ ?_
        · exact knows_of_quiet hquiet'
        · exact fun j th _ hj g hg => (hK j th hj g hg).silent hsilent hqueue
  | @expire k' ec t ht =>
    have hsilent : Silent s.mem (s.mem.expire k' t ec) := ⟨rfl, by simp, by simp⟩
    have hqueue := expire_queued s.mem k' t ec
    exact ⟨⟨k, hk⟩, hH.silent hsilent, fun j th hj g hg => (hK j th hj g hg).silent hsilent hqueue⟩

theorem reach_oneAtATime (h : (machine name cap n).Reach Sequential s)
    (htok : tokenPosts s.mem = 0) : OneAtATime cap.toNat s := by
  refine reach_invariant (I := fun s => tokenPosts s.mem = 0 → OneAtATime cap.toNat s) h ?_ ?_ htok
  · intro _
    have hquiet : ∀ (j : Nat) (th : Thread Frame Exn), (initial name cap n).threads[j]? = some th →
        quiet th.frames = true := by
      intro j th hj
      obtain rfl := initial_thread hj
      cases j <;> rfl
    refine ⟨⟨0, fun j th _ hj => hquiet j th hj⟩, ⟨?_, ?_⟩, ?_⟩
    · intro caller id c q hmem
      exact absurd hmem (by simp [initial])
    · intro t hmem
      exact absurd hmem (by simp [initial])
    · exact fun j th hj => knows_of_quiet (hquiet j th hj)
  · intro s l s' hr hseq hs _ hI htok'
    have htok : tokenPosts s.mem = 0 := by
      have hmono := tokenPosts_mono hs.later
      omega
    exact hs.oneAtATime hr hseq htok (hI htok)

/-- **The account of non-overlapping calls.** Between calls and handlers
`count_` equals the number of queued tasks if and only if the completion-token
overload of `Post` was called a multiple of `2 ^ 64` times. When it was not
called at all, moreover, no `--count_` ever finds zero, and no submission
made while fewer than `capacity_` tasks were queued is rejected. -/
theorem sequential_account (h : (machine name cap n).Reach Sequential s) :
    (Between s → (s.mem.count.toNat = s.mem.queued ↔ 2 ^ 64 ∣ tokenCalls s.mem)) ∧
      (tokenCalls s.mem = 0 →
        (∀ (i : Nat) (ctl : Ctl Exn) (f : Frame) (rest : List Frame),
          s.threads[i]? = some ⟨ctl, f :: rest⟩ → f.decrements = true →
            0 < s.mem.count.toNat) ∧
        ∀ caller id c q t, .called caller id c q ∈ s.mem.trace → q < cap.toNat →
          .rejected t ∈ s.mem.trace → t.id ≠ id) := by
  refine ⟨between_count h, fun hcalls => ?_⟩
  have htok : tokenPosts s.mem = 0 := by
    have hall := reach_tokenCalls h
    omega
  refine ⟨fun i ctl f rest hth hf => decrement_pos h htok hth hf, ?_⟩
  intro caller id c q t hcalled hq hrej hid
  subst hid
  have hfull := ((reach_oneAtATime h htok).honest.rejected t hrej).2 caller c q hcalled
  omega

/-- A task is posted, and the worker runs it: in both states between the
calls the account is right. -/
theorem sequential_account_post : ∃ s, (machine "tasks" 1 1).Reach Sequential s ∧
    s.mem.tasksRun = 1 ∧ s.mem.count.toNat = s.mem.queued := by
  let steps : List Step := [.thread 1 (.call .post), .thread 1 .code, .thread 1 .code,
    .thread 1 .code, .thread 0 .code, .thread 0 .code, .thread 0 .code, .thread 0 .code,
    .thread 0 .ret, .thread 0 .code]
  have hrun : ∃ s, (machine "tasks" 1 1).guardedRun Sequential (initial "tasks" 1 1) steps =
      some s ∧ Between s ∧ s.mem.tasksRun = 1 ∧ tokenCalls s.mem = 0 :=
    ⟨_, rfl, by decide, rfl, rfl⟩
  obtain ⟨s, hs, hb, hran, hcalls⟩ := hrun
  have hreach := reach_schedule (by decide) hs
  exact ⟨s, hreach, hran, ((sequential_account hreach).1 hb).mpr (hcalls ▸ Nat.dvd_zero _)⟩

/-- Two tasks are posted with a completion token and run. Nothing is queued
any more, but `count_` has wrapped below zero, and the next `Post` on the idle
pipeline is rejected. -/
theorem token_post_overdraws : ∃ s,
    (machine "tasks" 1 1).Reach (fun s l => Sequential s l ∧ NoClose s l) s ∧ Between s ∧
      s.mem.queued = 0 ∧ s.mem.count.toNat = 2 ^ 64 - 2 ∧
      .called none 2 .post 0 ∈ s.mem.trace ∧ .rejected (.user 2) ∈ s.mem.trace := by
  let handler : List Step := [.thread 0 .code, .thread 0 .code, .thread 0 .code, .thread 0 .code,
    .thread 0 .code, .thread 0 .ret, .thread 0 .code, .thread 0 .code, .thread 0 .ret]
  let steps : List Step := [.thread 1 (.call (.postToken 0)), .thread 1 .code,
    .thread 1 (.call (.postToken 1)), .thread 1 .code] ++ handler ++ handler ++
    [.thread 1 (.call .post), .thread 1 .code, .thread 1 .code, .thread 1 .code]
  have hrun : ∃ s, (machine "tasks" 1 1).guardedRun (fun s l => Sequential s l ∧ NoClose s l)
      (initial "tasks" 1 1) steps = some s ∧ Between s ∧ s.mem.queued = 0 ∧
      s.mem.count.toNat = 2 ^ 64 - 2 ∧ .called none 2 .post 0 ∈ s.mem.trace ∧
      .rejected (.user 2) ∈ s.mem.trace :=
    ⟨_, rfl, by decide, rfl, rfl, by decide, by decide⟩
  obtain ⟨s, hs, hrest⟩ := hrun
  exact ⟨s, reach_schedule (by decide) hs, hrest⟩

end Warlib.Pipeline
