import Warlib.Machine.History
import Warlib.Pipeline.Moves

/-!
# Runs of the machine

The rules by which facts about one `Move` become facts about every run of
`machine`: `Stepped` is a step of the whole pool in terms of moves,
`conserved_le` / `conserved_ge` carry a resource — something counted in the
memory plus something counted in the frames — through a step, and the
monotonicity lemmas say what never goes back: flags stay set, numbers of
submissions grow, the history is only appended to.
-/

namespace Warlib.Pipeline

open Warlib.Machine

/-- A step of the pool: a move of one thread's top frame, or a timer. -/
inductive Stepped (s : State) : Step → State → Prop
  | move {i : Nat} {a : Act} {ctl : Ctl Exn} {f : Frame} {rest : List Frame} {m : Mem}
      {nx : Next Frame Exn} (hth : s.threads[i]? = some ⟨ctl, f :: rest⟩)
      (hmove : Move i s.mem a ctl f m nx) :
      Stepped s (.thread i a) ⟨m, s.threads.set i (nx.resume rest)⟩
  | expire {k : Nat} {ec : Bool} {t : Timer} (ht : s.mem.timers[k]? = some t) :
      Stepped s (.env (k, ec)) ⟨s.mem.expire k t ec, s.threads⟩

variable {name : String} {cap : BitVec 64} {n : Nat} {ok : State → Step → Prop}
  {s s' : State} {l : Step}

/-- A step of the machine is a step of the pool into a state that fits. -/
theorem stepped_of_next (h : (machine name cap n).next s l = some s') :
    Stepped s l s' ∧ Fits s' := by
  obtain ⟨hnext, hfits⟩ := Option.filter_eq_some_iff.mp h
  refine ⟨?_, by simpa using hfits⟩
  cases Program.stepped_of_next hnext with
  | thread hth hstep => exact .move hth (frameStep_move hstep)
  | @env b m henv =>
    obtain ⟨k, ec⟩ := b
    obtain ⟨t, ht, rfl⟩ := Option.map_eq_some_iff.mp henv
    exact .expire ht

/-- The invariant rule of the machine, over pool steps. -/
theorem reach_invariant {I : State → Prop} (h : (machine name cap n).Reach ok s)
    (hinit : I (initial name cap n))
    (hstep : ∀ s l s', (machine name cap n).Reach ok s → ok s l → Stepped s l s' → Fits s' →
      I s → I s') : I s :=
  h.invariant (fun _ hi => hi.1 ▸ hinit) fun s l s' hr hok hn hI =>
    hstep s l s' hr hok (stepped_of_next hn).1 (stepped_of_next hn).2 hI

/-- The invariant rule for what only the memory decides. -/
theorem reach_mem {I : Mem → Prop} (h : (machine name cap n).Reach ok s)
    (hinit : I { name, capacity := cap })
    (hmove : ∀ i a ctl f m m' nx, Move i m a ctl f m' nx → I m → I m')
    (hexpire : ∀ m k t ec, I m → I (m.expire k t ec)) : I s.mem := by
  refine reach_invariant (I := fun s => I s.mem) h hinit fun s l s' _ _ hs _ hI => ?_
  cases hs with
  | move _ hm => exact hmove _ _ _ _ _ _ _ hm hI
  | expire _ => exact hexpire _ _ _ _ hI

/-- Every reached state fits into the address space. -/
theorem reach_fits (h : (machine name cap n).Reach ok s) : Fits s :=
  h.invariant (fun _ hi => hi.2) fun _ _ _ _ _ hn _ => (stepped_of_next hn).2

/-- A computed schedule reaches the state it computes. -/
theorem reach_schedule [∀ s l, Decidable (ok s l)] {steps : List Step}
    (hfits : Fits (initial name cap n))
    (h : (machine name cap n).guardedRun ok (initial name cap n) steps = some s) :
    (machine name cap n).Reach ok s :=
  Lts.reach_of_guardedRun (.start ⟨rfl, hfits⟩) h

/-- The frame at the bottom of thread `i`. -/
def bottom : Nat → Frame
  | 0 => .run
  | _ + 1 => .client

@[simp] theorem bottom_zero : bottom 0 = .run := rfl

@[simp] theorem bottom_succ (i : Nat) : bottom (i + 1) = .client := rfl

/-- Every thread of the initial state is at its bottom frame. -/
theorem initial_thread {i : Nat} {th : Thread Frame Exn}
    (h : (initial name cap n).threads[i]? = some th) : th = ⟨.go, [bottom i]⟩ := by
  cases i with
  | zero => exact (Option.some.inj h).symm
  | succ i => exact (List.mem_replicate.mp (List.mem_of_getElem? h)).2

/-- Threads neither come nor go. -/
theorem reach_threads (h : (machine name cap n).Reach ok s) : s.threads.length = n + 1 := by
  refine reach_invariant (I := fun s => s.threads.length = n + 1) h (by simp [initial]) ?_
  intro s l s' _ _ hs _ hI
  cases hs with
  | move hth hm => exact (List.length_set ..).trans hI
  | expire ht => exact hI

/-- There is a worker. -/
theorem reach_thread_zero (h : (machine name cap n).Reach ok s) :
    ∃ th, s.threads[0]? = some th := by
  have hlen := reach_threads h
  exact ⟨_, List.getElem?_eq_getElem (by omega)⟩

/-- The top frame of a thread. -/
def State.top? (s : State) (i : Nat) : Option Frame := s.threads[i]?.bind fun th => th.frames.head?

theorem top_of_thread {i : Nat} {ctl : Ctl Exn} {f : Frame} {rest : List Frame}
    (hth : s.threads[i]? = some ⟨ctl, f :: rest⟩) : s.top? i = some f := by
  rw [State.top?, hth]
  rfl

/-! ## Resources -/

/-- What no move of a step creates, no step creates: `R` counts in the
memory, `w` in the frames. `hmove` is only asked for the moves the step can
make. -/
theorem conserved_le {R : Mem → Nat} {w : Frame → Nat} (h : Stepped s l s')
    (hmove : ∀ i a ctl f m nx, l = .thread i a → Move i s.mem a ctl f m nx →
      R m + weigh w nx.frames ≤ R s.mem + w f)
    (hexpire : ∀ (k : Nat) (ec : Bool) (t : Timer), s.mem.timers[k]? = some t →
      R (s.mem.expire k t ec) ≤ R s.mem) :
    R s'.mem + tally w s'.threads ≤ R s.mem + tally w s.threads := by
  cases h with
  | move hth hm =>
    obtain ⟨r, hr, hr'⟩ := tally_resume w hth _
    have hbal := hmove _ _ _ _ _ _ rfl hm
    rw [hr, hr']
    dsimp only
    omega
  | @expire k ec t ht =>
    have hbal := hexpire k ec t ht
    exact Nat.add_le_add_right hbal _

/-- What no move of a step destroys, no step destroys. -/
theorem conserved_ge {R : Mem → Nat} {w : Frame → Nat} (h : Stepped s l s')
    (hmove : ∀ i a ctl f rest m nx, l = .thread i a → s.threads[i]? = some ⟨ctl, f :: rest⟩ →
      Move i s.mem a ctl f m nx → s'.mem = m → R s.mem + w f ≤ R m + weigh w nx.frames)
    (hexpire : ∀ (k : Nat) (ec : Bool) (t : Timer), s.mem.timers[k]? = some t →
      R s.mem ≤ R (s.mem.expire k t ec)) :
    R s.mem + tally w s.threads ≤ R s'.mem + tally w s'.threads := by
  cases h with
  | move hth hm =>
    obtain ⟨r, hr, hr'⟩ := tally_resume w hth _
    have hbal := hmove _ _ _ _ _ _ _ rfl hth hm rfl
    rw [hr, hr']
    dsimp only
    omega
  | @expire k ec t ht =>
    have hbal := hexpire k ec t ht
    exact Nat.add_le_add_right hbal _

/-- An exact account: `A` is what `B` and the frames hold together, and every
move keeps the books. -/
theorem balanced {A B : Mem → Nat} {w : Frame → Nat} (h : Stepped s l s')
    (hmove : ∀ i a ctl f m nx, l = .thread i a → Move i s.mem a ctl f m nx →
      A m + (B s.mem + w f) = A s.mem + (B m + weigh w nx.frames))
    (hexpire : ∀ (k : Nat) (ec : Bool) (t : Timer), s.mem.timers[k]? = some t →
      A (s.mem.expire k t ec) + B s.mem = A s.mem + B (s.mem.expire k t ec))
    (hI : A s.mem = B s.mem + tally w s.threads) :
    A s'.mem = B s'.mem + tally w s'.threads := by
  cases h with
  | move hth hm =>
    obtain ⟨r, hr, hr'⟩ := tally_resume w hth _
    have hbal := hmove _ _ _ _ _ _ rfl hm
    rw [hr] at hI
    rw [hr']
    dsimp only
    omega
  | @expire k ec t ht =>
    have hbal := hexpire k ec t ht
    dsimp only
    omega

/-- What `A` counts is covered by `B` and the frames: no move uncovers anything. -/
theorem covered {A B : Mem → Nat} {w : Frame → Nat} (h : Stepped s l s')
    (hmove : ∀ i a ctl f m nx, l = .thread i a → Move i s.mem a ctl f m nx →
      A m + (B s.mem + w f) ≤ A s.mem + (B m + weigh w nx.frames))
    (hexpire : ∀ (k : Nat) (ec : Bool) (t : Timer), s.mem.timers[k]? = some t →
      A (s.mem.expire k t ec) + B s.mem ≤ A s.mem + B (s.mem.expire k t ec))
    (hI : A s.mem ≤ B s.mem + tally w s.threads) :
    A s'.mem ≤ B s'.mem + tally w s'.threads := by
  cases h with
  | move hth hm =>
    obtain ⟨r, hr, hr'⟩ := tally_resume w hth _
    have hbal := hmove _ _ _ _ _ _ rfl hm
    rw [hr] at hI
    rw [hr']
    dsimp only
    omega
  | @expire k ec t ht =>
    have hbal := hexpire k ec t ht
    dsimp only
    omega

/-- The tally of the initial state, when the loop and a client weigh nothing. -/
theorem tally_initial {w : Frame → Nat} (hrun : w .run = 0) (hclient : w .client = 0) :
    tally w (initial name cap n).threads = 0 := by
  refine tally_eq_zero fun th hth f hf => ?_
  obtain ⟨i, hi⟩ := List.getElem?_of_mem hth
  obtain rfl := initial_thread hi
  rw [List.mem_singleton.mp hf]
  cases i with
  | zero => exact hrun
  | succ i => exact hclient

/-! ## Which entry points are called -/

/-- The entry point user code enters in a step. -/
def enters : Step → Option Call
  | .thread _ (.call c) => some c
  | _ => none

/-- A run in which nobody calls `Close`. -/
def NoClose (_ : State) (l : Step) : Prop := enters l ≠ some .close

instance (s : State) (l : Step) : Decidable (NoClose s l) :=
  inferInstanceAs (Decidable (enters l ≠ some .close))

/-- No call of the history is one of those in `p`. -/
def Uncalled (p : Call → Bool) (m : Mem) : Prop :=
  ∀ caller id c q, .called caller id c q ∈ m.trace → p c = false

/-- A step adds the call it makes to the history, and no other. -/
theorem Stepped.uncalled {p : Call → Bool} (hs : Stepped s l s')
    (hl : ∀ c, enters l = some c → p c = false) (hI : Uncalled p s.mem) : Uncalled p s'.mem := by
  intro caller id c q hmem
  have hold : .called caller id c q ∈ s.mem.trace → p c = false := hI caller id c q
  cases hs with
  | @move i a ctl f rest m nx hth hm =>
    cases hm
    case client_enter c' | fn_enter c' | completion_enter c' =>
      rcases List.mem_append.mp hmem with hmem | hmem
      · exact hold hmem
      · have hc : c = c' := by simp at hmem; exact hmem.2.2.1
        exact hl c (by rw [hc]; rfl)
    all_goals exact hold (by simpa using hmem)
  | expire _ => exact hold (by simpa using hmem)

/-- A run none of whose steps enters an entry point in `p` has no such call in
its history. -/
theorem reach_uncalled {p : Call → Bool}
    (hok : ∀ s l, ok s l → ∀ c, enters l = some c → p c = false)
    (h : (machine name cap n).Reach ok s) : Uncalled p s.mem :=
  reach_invariant (I := fun s => Uncalled p s.mem) h
    (fun _ _ _ _ hmem => absurd hmem (by simp [initial]))
    fun _ _ _ _ hl hs _ hI => hs.uncalled (hok _ _ hl) hI

/-! ## What never goes back -/

/-- A memory later in a run. -/
structure Mem.Later (m m' : Mem) : Prop where
  capacity : m'.capacity = m.capacity
  name : m'.name = m.name
  closing : m.closing = true → m'.closing = true
  nextId : m.nextId ≤ m'.nextId
  trace : m.trace <+: m'.trace

theorem Mem.Later.refl (m : Mem) : m.Later m := ⟨rfl, rfl, id, Nat.le_refl _, List.prefix_refl _⟩

/-- A move only adds to the history, and never clears `closing_`. -/
theorem Move.later {i : Nat} {m m' : Mem} {a : Act} {ctl : Ctl Exn} {f : Frame}
    {nx : Next Frame Exn} (h : Move i m a ctl f m' nx) : m.Later m' := by
  cases h <;> refine ⟨rfl, rfl, ?_, ?_, ?_⟩
  case close_set.refine_1 => exact fun _ => rfl
  all_goals first
    | exact id
    | exact Nat.le_refl _
    | exact Nat.le_succ _
    | exact List.prefix_refl _
    | exact List.prefix_append _ _

/-- The same for a step of the pool. -/
theorem Stepped.later (h : Stepped s l s') : s.mem.Later s'.mem := by
  cases h with
  | move _ hm => exact hm.later
  | expire _ => exact ⟨rfl, rfl, id, Nat.le_refl _, List.prefix_append _ _⟩

/-- A satisfied promise stays satisfied. -/
theorem Move.promises {i : Nat} {m m' : Mem} {a : Act} {ctl : Ctl Exn} {f : Frame}
    {nx : Next Frame Exn} (h : Move i m a ctl f m' nx) {p : Promise} (hp : m.promises p ≠ none) :
    m'.promises p ≠ none := by
  have hset : ∀ (q : Promise) (o : Outcome), (m.fulfil q o).promises p ≠ none := by
    intro q o
    dsimp only [Mem.fulfil]
    split
    · simp
    · exact hp
  cases h
  case user_set p' o hq hf => exact hset _ _
  case sync_value => exact hset _ _
  case sync_exn => exact hset _ _
  case promise_exn => exact hset _ _
  all_goals exact hp

/-- The same for a step of the pool. -/
theorem Stepped.promises (h : Stepped s l s') {p : Promise} (hp : s.mem.promises p ≠ none) :
    s'.mem.promises p ≠ none := by
  cases h with
  | move _ hm => exact hm.promises hp
  | expire _ => exact hp

/-- `capacity_` is a constant. -/
theorem reach_capacity (h : (machine name cap n).Reach ok s) : s.mem.capacity = cap :=
  reach_mem (I := fun m => m.capacity = cap) h rfl
    (fun _ _ _ _ _ _ _ hm hI => hm.later.capacity.trans hI) fun _ _ _ _ hI => hI

/-! ## The history, event by event -/

/-- A move records at most one event. -/
theorem Move.emits {i : Nat} {m m' : Mem} {a : Act} {ctl : Ctl Exn} {f : Frame}
    {nx : Next Frame Exn} (h : Move i m a ctl f m' nx) :
    m'.trace = m.trace ∨ ∃ e, m'.trace = m.trace ++ [e] := by
  cases h <;> first
    | exact Or.inl rfl
    | exact Or.inr ⟨_, rfl⟩

/-- A projection of the history that does not see the event recorded stays as it is. -/
theorem filterMap_of_trace {β : Type} {p : Event → Option β} {m m' : Mem} {e : Event}
    (htrace : m'.trace = m.trace ++ [e]) (he : p e = none) :
    m'.trace.filterMap p = m.trace.filterMap p := by
  rw [htrace, List.filterMap_append, List.filterMap_cons_none he]
  exact List.append_nil _

/-- Which frame records an event, and at which program point. -/
def Event.Source : Event → Frame → Prop
  | .called (some caller) _ _ _, f => f = .fn caller
  | .rejected t, f => f = .post .undo t
  | .admitted t c, f => ∃ ac, f = .execTask .closing t c ac
  | .began t c, f => ∃ ac, f = .execTask .call t c ac
  | .finished t c _, f => ∃ ac, f = .execTask .running t c ac
  | _, _ => True

theorem Move.source {i : Nat} {m m' : Mem} {a : Act} {ctl : Ctl Exn} {f : Frame}
    {nx : Next Frame Exn} (h : Move i m a ctl f m' nx) {e : Event}
    (he : m'.trace = m.trace ++ [e]) : e.Source f := by
  cases h
  case fn_enter id c =>
    obtain rfl : Event.called (some id) m.nextId c m.queued = e := by simpa using he
    rfl
  case post_undo t =>
    obtain rfl : Event.rejected t = e := by simpa using he
    rfl
  case exec_admitted t c ac hc =>
    obtain rfl : Event.admitted t c = e := by simpa using he
    exact ⟨ac, rfl⟩
  case exec_call t c ac =>
    obtain rfl : Event.began t c = e := by simpa using he
    exact ⟨ac, rfl⟩
  case exec_ret t c ac =>
    obtain rfl : Event.finished t c .value = e := by simpa using he
    exact ⟨ac, rfl⟩
  case exec_caught t c x =>
    obtain rfl : Event.finished t c (.exn x) = e := by simpa using he
    exact ⟨true, rfl⟩
  case exec_thrown t c x =>
    obtain rfl : Event.finished t c (.exn x) = e := by simpa using he
    exact ⟨false, rfl⟩
  all_goals
    simp at he
    try (subst he; trivial)

/-- A step keeps the record of what held when each event happened, if it held
when the step's own event did. -/
theorem Stepped.each {P : List Event → Event → Prop} (hs : Stepped s l s')
    (hmove : ∀ i a ctl f rest m nx e, l = .thread i a → s.threads[i]? = some ⟨ctl, f :: rest⟩ →
      Move i s.mem a ctl f m nx → m.trace = s.mem.trace ++ [e] → P s.mem.trace e)
    (hexpire : ∀ (t : Timer) (ec : Bool), P s.mem.trace (.enqueued (t.handler ec)))
    (hI : Each P s.mem.trace) :
    Each P s'.mem.trace := by
  cases hs with
  | @move i a ctl f rest m nx hth hm =>
    rcases hm.emits with hsame | ⟨e, he⟩
    · exact hsame ▸ hI
    · dsimp only
      rw [he]
      exact hI.append_one (hmove i a ctl f rest m nx e rfl hth hm he)
  | expire ht => exact hI.append_one (hexpire _ _)

/-! ## What follows what -/

/-- The event a frame follows: between the test of `closing_` and the call a task
has been admitted, while it runs it has begun, and who waits for the future
has submitted the lambda. -/
@[simp] def Frame.follows? : Frame → Option Event
  | .execTask .call t c _ => some (.admitted t c)
  | .execTask .running t c _ => some (.began t c)
  | .postSynchronously .waiting id => some (.submitted (.sync id))
  | _ => none

/-- A move leaves only frames that follow what it recorded, or what the frame
that moved followed. -/
theorem Move.follows {i : Nat} {m m' : Mem} {a : Act} {ctl : Ctl Exn} {f : Frame}
    {nx : Next Frame Exn} (h : Move i m a ctl f m' nx) : ∀ g ∈ nx.frames, ∀ e,
    g.follows? = some e → e ∈ m'.trace ∨ f.follows? = some e := by
  cases h
  case client_enter c | fn_enter c | completion_enter c => cases c <;> simp [Call.frame]
  case exec_call t c ac => cases t <;> simp [Task.body]
  case run_take h q hs hq hctl => cases h <;> simp [Handler.frame]
  case exec_admitted t c ac hc | postSynchronously_ret id => simp
  case user_set p o hp hf | user_set_again p o hp hf =>
    exact Next.forall_goto fun e he => Or.inr he
  all_goals first
    | exact fun g hg => absurd hg List.not_mem_nil
    | exact Next.forall_goto fun e he => absurd he (by simp)
    | exact Next.forall_call (fun e he => absurd he (by simp)) fun e he => absurd he (by simp)

/-- The frames of a reachable state have the events they follow in the history. -/
theorem reach_follows (h : (machine name cap n).Reach ok s) :
    ∀ (i : Nat) (th : Thread Frame Exn), s.threads[i]? = some th →
      ∀ g ∈ th.frames, ∀ e, g.follows? = some e → e ∈ s.mem.trace := by
  refine reach_invariant
    (I := fun s => ∀ (i : Nat) (th : Thread Frame Exn), s.threads[i]? = some th →
      ∀ g ∈ th.frames, ∀ e, g.follows? = some e → e ∈ s.mem.trace) h ?_ ?_
  · intro i th hth g hg e he
    obtain rfl := initial_thread hth
    rw [List.mem_singleton.mp hg] at he
    cases i <;> simp at he
  · intro s l s' _ _ hs _ hI
    have hlater := hs.later.trace
    cases hs with
    | @move i a ctl f rest m nx hth hm =>
      refine forall_frames_set (F := fun _ g => ∀ e, g.follows? = some e → e ∈ s.mem.trace) hth hI
        (fun j g hold e he => hlater.subset (hold e he)) ?_
      intro hmine g hg e he
      rcases hm.follows g hg e he with hnew | hold
      · exact hnew
      · exact hlater.subset (hmine e hold)
    | expire ht => exact fun i th hth g hg e he => hlater.subset (hI i th hth g hg e he)

/-- The event an event follows. -/
@[simp] def Event.follows? : Event → Option Event
  | .began t c => some (.admitted t c)
  | .finished t c _ => some (.began t c)
  | _ => none

/-- Whatever began had been admitted, and whatever finished had begun. -/
def Followed (tr : List Event) : Prop :=
  Each (fun pre e => ∀ e', e.follows? = some e' → e' ∈ pre) tr

theorem reach_followed (h : (machine name cap n).Reach ok s) : Followed s.mem.trace := by
  refine reach_invariant (I := fun s => Followed s.mem.trace) h (each_nil _)
    fun s l s' hr _ hs _ hI => hs.each ?_ ?_ hI
  · intro i a ctl f rest m nx e _ hth hm htrace e' he'
    have hsource := hm.source htrace
    have hfollows : f.follows? = some e' := by
      cases e with
      | began t c =>
        obtain ⟨ac, rfl⟩ := hsource
        exact he'
      | finished t c o =>
        obtain ⟨ac, rfl⟩ := hsource
        exact he'
      | _ => simp at he'
    exact reach_follows hr i _ hth f (List.mem_cons_self ..) e' hfollows
  · intro timer ec e' he'
    exact absurd he' (by simp)

/-! ## Before `Close` is called -/

/-- `Close` has not been called. -/
def Unclosed (m : Mem) : Prop := ∀ caller id q, .called caller id .close q ∉ m.trace

theorem unclosed_iff {m : Mem} : Unclosed m ↔ Uncalled (fun c => c == .close) m := by
  constructor
  · intro h caller id c q hmem
    have hne : c ≠ .close := fun he => h caller id q (he ▸ hmem)
    simpa using hne
  · intro h caller id q hmem
    exact absurd (h caller id .close q hmem) (by simp)

/-- A step that does not call `Close` leaves it so. -/
theorem Stepped.unclosed (hs : Stepped s l s') (hl : NoClose s l) (h : Unclosed s.mem) :
    Unclosed s'.mem :=
  unclosed_iff.mpr (hs.uncalled (fun c hc => by simpa using fun he : c = .close => hl (he ▸ hc))
    (unclosed_iff.mp h))

theorem reach_unclosed (h : (machine name cap n).Reach NoClose s) : Unclosed s.mem :=
  reach_invariant (I := fun s => Unclosed s.mem) h
    (fun _ _ _ hmem => absurd hmem (by simp [initial]))
    fun _ _ _ _ hl hs _ hI => hs.unclosed hl hI

/-- What has not been called had not been called before. -/
theorem Mem.Later.unclosed {m m' : Mem} (h : m.Later m') (hno : Unclosed m') : Unclosed m :=
  fun caller id q hmem => hno caller id q (h.trace.subset hmem)

/-- What is untouched until then. -/
structure Untouched (s : State) : Prop where
  closing : s.mem.closing = false
  stop : .enqueued .stop ∉ s.mem.trace
  frames : ∀ (i : Nat) (th : Thread Frame Exn), s.threads[i]? = some th →
    ∀ pc, .close pc ∉ th.frames

/-- Only `Close` sets the flag and enqueues its handler. -/
theorem Move.untouched {i : Nat} {m m' : Mem} {a : Act} {ctl : Ctl Exn} {f : Frame}
    {nx : Next Frame Exn} (h : Move i m a ctl f m' nx) (hno : Unclosed m')
    (hf : ∀ pc, f ≠ .close pc) (hclosing : m.closing = false) (hstop : .enqueued .stop ∉ m.trace) :
    m'.closing = false ∧ .enqueued .stop ∉ m'.trace ∧ ∀ pc, .close pc ∉ nx.frames := by
  cases h
  case client_enter c | fn_enter c | completion_enter c =>
    refine ⟨hclosing, by simpa using hstop, fun pc hmem => ?_⟩
    cases c with
    | close => exact hno _ _ _ (List.mem_append_right _ (List.mem_singleton.mpr rfl))
    | _ => simp [Call.frame] at hmem
  case exec_call t c ac =>
    refine ⟨hclosing, by simpa using hstop, ?_⟩
    cases t <;> simp [Task.body]
  case run_take h q hs hq hctl =>
    refine ⟨hclosing, by simpa using hstop, ?_⟩
    cases h <;> simp [Handler.frame]
  case user_set p o hp hu | user_set_again p o hp hu =>
    exact ⟨hclosing, hstop, by simpa using fun pc he => hf pc he.symm⟩
  all_goals first
    | exact absurd rfl (hf _)
    | exact ⟨hclosing, by simpa using hstop, by simp⟩

theorem reach_untouched (h : (machine name cap n).Reach ok s) (hno : Unclosed s.mem) :
    Untouched s := by
  refine reach_invariant (I := fun s => Unclosed s.mem → Untouched s) h ?_ ?_ hno
  · intro _
    refine ⟨rfl, by simp [initial], fun i th hth pc hmem => ?_⟩
    obtain rfl := initial_thread hth
    cases i <;> simp at hmem
  · intro s l s' _ _ hs _ hI hno'
    have hno : Unclosed s.mem := hs.later.unclosed hno'
    obtain ⟨hclosing, hstop, hframes⟩ := hI hno
    cases hs with
    | @move i a ctl f rest m nx hth hm =>
      have hmine := hframes i _ hth
      obtain ⟨hclosing', hstop', hnew⟩ := hm.untouched hno'
        (fun pc he => hmine pc (he ▸ List.mem_cons_self ..)) hclosing hstop
      refine ⟨hclosing', hstop', forall_set (T := fun _ th => ∀ pc, .close pc ∉ th.frames) ?_
        fun j th _ hj => hframes j th hj⟩
      intro pc hmem
      rw [Next.resume_frames] at hmem
      rcases List.mem_append.mp hmem with hmem | hmem
      · exact hnew pc hmem
      · exact hmine pc (List.mem_cons_of_mem _ hmem)
    | @expire k ec t ht =>
      refine ⟨hclosing, fun hmem => ?_, hframes⟩
      rcases List.mem_append.mp hmem with hmem | hmem
      · exact hstop hmem
      · obtain ⟨task, tok⟩ := t
        cases tok <;> simp [Timer.handler] at hmem

/-- A dismissal has read `closing_` as true. -/
theorem Move.dismissed {i : Nat} {m m' : Mem} {a : Act} {ctl : Ctl Exn} {f : Frame}
    {nx : Next Frame Exn} (h : Move i m a ctl f m' nx) {site : Site} {t : Task}
    (hmem : .dismissed site t ∈ m'.trace) : .dismissed site t ∈ m.trace ∨ m.closing = true := by
  cases h
  case post_dismissed hc => exact Or.inr hc
  case dispatch_dismissed hc => exact Or.inr hc
  case postWithTimer_dismissed hc => exact Or.inr hc
  case exec_dismissed hc => exact Or.inr hc
  all_goals exact Or.inl (by simpa using hmem)

/-- Nothing is dismissed until then. -/
theorem reach_undismissed (h : (machine name cap n).Reach ok s) (hno : Unclosed s.mem) :
    ∀ site t, .dismissed site t ∉ s.mem.trace := by
  refine reach_invariant
    (I := fun s => Unclosed s.mem → ∀ site t, .dismissed site t ∉ s.mem.trace) h ?_ ?_ hno
  · intro _ site t hmem
    exact absurd hmem (by simp [initial])
  · intro s l s' hr _ hs _ hI hno' site t hmem
    have hno : Unclosed s.mem := hs.later.unclosed hno'
    have hopen := (reach_untouched hr hno).closing
    cases hs with
    | move hth hm =>
      rcases hm.dismissed hmem with hold | hclosing
      · exact hI hno site t hold
      · exact absurd (hopen.symm.trans hclosing) (by simp)
    | expire ht => exact hI hno site t (by simpa using hmem)

end Warlib.Pipeline
