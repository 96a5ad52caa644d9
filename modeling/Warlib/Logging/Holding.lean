import Warlib.Logging.Coherence
import Warlib.Logging.Deliveries

/-!
# The lock comes back

`WAR_LOCK` is taken by `DoSubmit`, `AddHandler` and `UpdateLevelAndFilter`, and
the handlers are told under it, so one slow call holds up every thread that
logs. This file says for how long. `Frame.left` counts what the program points
inside a critical section have before them, the records of the handlers still
to be told included; a step of the owner takes one off (`Move.left`), and
nobody else can change anything it depends on (`held_others`). So from any
state the owner gives the lock back with exactly so many steps of its own,
none of which has to wait for anybody (`lock_comes_back`).
-/

namespace Warlib.Logging

open Warlib.Machine

variable {set : Setting} {n i j : Nat} {a : Act} {m m' : Shared} {f : Frame}
  {nx : Next Frame Empty} {s s' s'' : State} {l : Step} {ctl : Ctl Empty} {rest : List Frame}

/-! ## What the owner has before it -/

/-- Telling these handlers of `si` on thread `i`: for one that is told, the call, its
record and the return; for one that is not, the test. -/
def LogEngine.telling (set : Setting) (e : LogEngine) (i : Nat) (si : SubmitInfo)
    (ps : List Nat) : Nat :=
  (ps.map fun p =>
    if si.level ≤ (e.object p).level then (set.record p ⟨si, set.threadId i⟩).length + 2 else 1).sum

/-- The steps a frame of thread `i` has before it until the lock is free. -/
def Frame.left (set : Setting) (e : LogEngine) (i : Nat) : Frame → Nat
  | .doSubmit (.loop si k) _ => e.telling set i si (e.handlers.drop k) + 2
  | .doSubmit .unlock _ => 1
  | .handlerSubmit _ text => text.length + 1
  | .addHandler .push _ => 2
  | .addHandler .unlock _ => 1
  | .updateLevelAndFilter (.gather k _) => (e.handlers.length - k) + 4
  | .updateLevelAndFilter (.level _) => 3
  | .updateLevelAndFilter (.filter _) => 2
  | .updateLevelAndFilter .unlock => 1
  | _ => 0

/-- The steps thread `i` has before it. -/
def State.held (set : Setting) (s : State) (i : Nat) : Nat :=
  match s.threads[i]? with
  | some th => weigh (Frame.left set s.mem.engine i) th.frames
  | none => 0

theorem held_eq {th : Thread Frame Empty} (hth : s.threads[i]? = some th) :
    s.held set i = weigh (Frame.left set s.mem.engine i) th.frames := by
  rw [State.held, hth]

/-- A frame outside has nothing before it. -/
theorem left_outside {e : LogEngine} (hf : f.holds = 0) (hbusy : ¬f.Busy) :
    f.left set e i = 0 := by
  cases f with
  | doSubmit pc id => cases pc <;> first | rfl | exact absurd hf Nat.one_ne_zero
  | addHandler pc p => cases pc <;> first | rfl | exact absurd hf Nat.one_ne_zero
  | updateLevelAndFilter pc => cases pc <;> first | rfl | exact absurd hf Nat.one_ne_zero
  | handlerSubmit entry text => exact absurd trivial hbusy
  | _ => rfl

/-- It is a matter of the handlers. -/
theorem left_congr {e e' : LogEngine} (hobject : e'.object = e.object)
    (hhandlers : e'.handlers = e.handlers) : Frame.left set e' i = Frame.left set e i := by
  funext f
  unfold Frame.left LogEngine.telling
  rw [hobject, hhandlers]

/-- One more handler has been told, or was not to be told. -/
theorem telling_drop (set : Setting) (i : Nat) {e : LogEngine} (si : SubmitInfo) {k p : Nat}
    (hp : e.handlers[k]? = some p) :
    e.telling set i si (e.handlers.drop k) =
      (if si.level ≤ (e.object p).level then (set.record p ⟨si, set.threadId i⟩).length + 2
        else 1) + e.telling set i si (e.handlers.drop (k + 1)) := by
  obtain ⟨hk, rfl⟩ := List.getElem?_eq_some_iff.mp hp
  rw [← List.getElem_cons_drop hk]
  rfl

/-- Inside is not outside. -/
theorem not_outside (hin : f.holds = 1 ∨ f.Busy) : ¬(f.holds = 0 ∧ ¬f.Busy) := by
  rintro ⟨hzero, hidle⟩
  rcases hin with hone | hbusy
  · omega
  · exact hidle hbusy

/-- A move inside takes one off. -/
theorem Move.left (h : Move set i m a f m' nx) (hin : f.holds = 1 ∨ f.Busy) :
    a = .code ∧ weigh (Frame.left set m'.engine i) nx.frames + 1 = f.left set m.engine i := by
  have hout := not_outside hin
  cases h with
  | doSubmit_deliver si k p id hp hlevel =>
    have htold := telling_drop set i si hp
    rw [if_pos hlevel] at htold
    refine ⟨rfl, ?_⟩
    show (set.record p ⟨si, set.threadId i⟩).length + 1 +
      (m.engine.telling set i si (m.engine.handlers.drop (k + 1)) + 2 + 0) + 1 = _ + 2
    rw [htold]
    omega
  | doSubmit_skip si k p id hp hlevel =>
    have htold := telling_drop set i si hp
    rw [if_neg hlevel] at htold
    refine ⟨rfl, ?_⟩
    show m.engine.telling set i si (m.engine.handlers.drop (k + 1)) + 2 + 0 + 1 = _ + 2
    rw [htold]
    omega
  | doSubmit_end si k id hend =>
    have hnone : m.engine.handlers.drop k = [] :=
      List.drop_eq_nil_iff.mpr (List.getElem?_eq_none_iff.mp hend)
    refine ⟨rfl, ?_⟩
    show 1 + 0 + 1 = m.engine.telling set i si (m.engine.handlers.drop k) + 2
    rw [hnone]
    rfl
  | update_gather k p acc hp =>
    have hk := (List.getElem?_eq_some_iff.mp hp).1
    refine ⟨rfl, ?_⟩
    show m.engine.handlers.length - (k + 1) + 4 + 0 + 1 = m.engine.handlers.length - k + 4
    omega
  | update_gathered k acc hend =>
    have hk := List.getElem?_eq_none_iff.mp hend
    refine ⟨rfl, ?_⟩
    show 3 + 0 + 1 = m.engine.handlers.length - k + 4
    omega
  | doSubmit_unlock | handler_write | handler_end | add_push | add_unlock | update_level
  | update_filter | update_unlock => exact ⟨rfl, rfl⟩
  | _ => exact absurd ⟨rfl, fun hbusy => hbusy⟩ hout

/-! ## The owner -/

/-- The owner is one of the threads. -/
theorem reach_owner (h : (machine set n).Reach (fun _ _ => True) s) :
    ∀ j, s.mem.lock = some j → j < s.threads.length := by
  refine reach_invariant (I := fun s => ∀ j, s.mem.lock = some j → j < s.threads.length) h
    (by simp [initial]) ?_
  intro s l s' _ hs hI
  cases hs with
  | clock now => exact hI
  | @move i a ctl f rest m nx hth hm =>
    show ∀ j, m.lock = some j → j < (s.threads.set i (nx.resume rest)).length
    rw [List.length_set]
    exact hm.locks.owner_lt hI (List.getElem?_eq_some_iff.mp hth).1

/-- What stands on a program point inside is the `Submit` of a handler. -/
theorem Frame.StandsOn.busy {g : Frame} (h : f.StandsOn g) (hg : g.holds = 1) : f.Busy := by
  cases f with
  | handlerSubmit entry text => exact trivial
  | client => exact h.elim
  | statement pc level filter message | doSubmit pc id =>
    rcases h with rfl | ⟨p, rfl | rfl⟩
    · exact absurd hg (by simp [Frame.holds])
    · exact absurd hg (by simp [Frame.holds])
    · exact absurd hg (by simp [Frame.holds])
  | addHandler pc p =>
    have hclient : g = .client := h
    subst hclient
    exact absurd hg (by simp [Frame.holds])
  | updateLevelAndFilter pc =>
    obtain ⟨p, rfl⟩ := h
    exact absurd hg (by simp [Frame.holds])

theorem holds_le (f : Frame) : f.holds ≤ 1 := by
  unfold Frame.holds
  split <;> omega

/-- The owner is inside a critical section, or in the `Submit` of a handler. -/
theorem owner_inside (h : (machine set n).Reach (fun _ _ => True) s) (hlock : s.mem.lock = some i) :
    ∃ ctl f rest, s.threads[i]? = some ⟨ctl, f :: rest⟩ ∧ (f.holds = 1 ∨ f.Busy) := by
  obtain ⟨⟨ctl, fs⟩, hth⟩ : ∃ th, s.threads[i]? = some th :=
    ⟨_, List.getElem?_eq_getElem (reach_owner h i hlock)⟩
  have hweigh := reach_owned h i _ hth
  rw [if_pos hlock] at hweigh
  cases fs with
  | nil => exact absurd hweigh (by simp)
  | cons f rest =>
    refine ⟨ctl, f, rest, hth, ?_⟩
    by_cases hf : f.holds = 1
    · exact Or.inl hf
    -- then a frame below is inside, and it waits for the top one
    have hzero : f.holds = 0 := by
      have hle := holds_le f
      omega
    have hrest : weigh Frame.holds rest ≠ 0 := by
      intro hnone
      have hweigh : weigh Frame.holds (f :: rest) = 1 := hweigh
      rw [weigh_cons, hnone] at hweigh
      omega
    have hbelow : ∃ g ∈ rest, g.holds = 1 := by
      by_contra hnone
      refine hrest (weigh_eq_zero fun g hg => ?_)
      have hle := holds_le g
      have hne : g.holds ≠ 1 := fun hone => hnone ⟨g, hg, hone⟩
      omega
    obtain ⟨g, hg, hone⟩ := hbelow
    obtain ⟨f', hf', hover⟩ := (reach_stacks h hth).above hg
    have hbusy := hover.busy hone
    rcases List.mem_cons.mp hf' with rfl | hf'
    · exact Or.inr hbusy
    · exact absurd hbusy (not_busy_below h hth hf')

/-- Inside there is always something left. -/
theorem left_pos (set : Setting) (i : Nat) (e : LogEngine) (hin : f.holds = 1 ∨ f.Busy) :
    0 < f.left set e i := by
  have hout : ¬(f.holds = 0 ∧ ¬f.Busy) := not_outside hin
  cases f with
  | doSubmit pc id =>
    cases pc <;> first | exact Nat.succ_pos _ | exact absurd ⟨rfl, fun hbusy => hbusy⟩ hout
  | addHandler pc p =>
    cases pc <;> first | exact Nat.succ_pos _ | exact absurd ⟨rfl, fun hbusy => hbusy⟩ hout
  | updateLevelAndFilter pc =>
    cases pc <;> first | exact Nat.succ_pos _ | exact absurd ⟨rfl, fun hbusy => hbusy⟩ hout
  | handlerSubmit entry text => exact Nat.succ_pos _
  | _ => exact absurd ⟨rfl, fun hbusy => hbusy⟩ hout

/-- A thread has something before it just when it has the lock. -/
theorem held_pos_iff (h : (machine set n).Reach (fun _ _ => True) s) :
    0 < s.held set i ↔ s.mem.lock = some i := by
  constructor
  · intro hpos
    by_contra hother
    cases hth : s.threads[i]? with
    | none =>
      rw [State.held, hth] at hpos
      exact absurd hpos (Nat.lt_irrefl 0)
    | some th =>
      have hzero : s.held set i = 0 := by
        rw [held_eq hth]
        refine weigh_eq_zero fun g hg => left_outside ?_ fun hbusy => ?_
        · by_contra hholds
          exact hother ((reach_owned h).owner hth hg (Nat.pos_of_ne_zero hholds))
        · exact hother (lock_of_busy h hth hg hbusy)
      omega
  · intro hlock
    obtain ⟨ctl, f, rest, hth, hin⟩ := owner_inside h hlock
    have hpos := left_pos set i s.mem.engine hin
    rw [held_eq hth]
    show 0 < weigh _ (f :: rest)
    rw [weigh_cons]
    omega

/-- A step of thread `i`. -/
def byThread (i : Nat) : Step → Nat
  | .thread j _ => if j = i then 1 else 0
  | .env _ => 0

/-- The others do not change what the owner has before it. -/
theorem held_others (h : (machine set n).Reach (fun _ _ => True) s) (hlock : s.mem.lock = some i)
    (hth : s.threads[j]? = some ⟨ctl, f :: rest⟩) (hm : Move set j s.mem a f m nx) (hj : j ≠ i) :
    State.held set ⟨m, s.threads.set j (nx.resume rest)⟩ i = s.held set i := by
  have hout : f.holds = 0 := by
    by_contra hholds
    have howner := (reach_owned h).owner hth (List.mem_cons_self ..) (Nat.pos_of_ne_zero hholds)
    rw [hlock, Option.some.injEq] at howner
    exact hj howner.symm
  have hleft : Frame.left set m.engine i = Frame.left set s.mem.engine i :=
    left_congr hm.object (hm.outside hout).1
  unfold State.held
  rw [List.getElem?_set_ne hj]
  show (match s.threads[i]? with
    | some th => weigh (Frame.left set m.engine i) th.frames
    | none => 0) = _
  rw [hleft]

/-- Its own step takes one off. -/
theorem held_own (h : (machine set n).Reach (fun _ _ => True) s) (hlock : s.mem.lock = some i)
    (hth : s.threads[i]? = some ⟨ctl, f :: rest⟩) (hm : Move set i s.mem a f m nx) :
    State.held set ⟨m, s.threads.set i (nx.resume rest)⟩ i + 1 = s.held set i := by
  obtain ⟨ctl', f', rest', hth', hin⟩ := owner_inside h hlock
  obtain ⟨rfl, rfl, rfl⟩ := Thread.top_inj hth hth'
  have hrest : weigh (Frame.left set m.engine i) rest =
      weigh (Frame.left set s.mem.engine i) rest := by
    -- below a frame inside nothing counts; below a `Submit` the list has not changed
    rcases hin with hone | hbusy
    · have hnone : ∀ e : LogEngine, weigh (Frame.left set e i) rest = 0 := by
        intro e
        refine weigh_eq_zero fun g hg => left_outside ?_ (not_busy_below h hth hg)
        exact ((reach_owned h).others hth (by omega)).1 g hg
      rw [hnone, hnone]
    · have hsame : m.engine.handlers = s.mem.engine.handlers := by
        cases hm with
        | handler_write | handler_end => rfl
        | _ => exact hbusy.elim
      rw [left_congr hm.object hsame]
  have hlt := (List.getElem?_eq_some_iff.mp hth).1
  have hpaid := (hm.left hin).2
  have hset : (s.threads.set i (nx.resume rest))[i]? = some (nx.resume rest) :=
    List.getElem?_set_self hlt
  rw [held_eq hth, held_eq hset]
  show weigh (Frame.left set m.engine i) (nx.resume rest).frames + 1 = weigh _ (f :: rest)
  rw [Next.resume_frames, weigh_append, weigh_cons, hrest]
  omega

/-- While thread `i` has the lock, its steps and nothing else come out of what it has
before it. -/
theorem held_step (h : (machine set n).Reach (fun _ _ => True) s) (hlock : s.mem.lock = some i)
    (hn : (machine set n).next s l = some s') : s'.held set i + byThread i l = s.held set i := by
  cases stepped_of_next hn with
  | clock now => rfl
  | @move j a ctl f rest m nx hth hm =>
    by_cases hj : j = i
    · subst hj
      rw [byThread, if_pos rfl]
      exact held_own h hlock hth hm
    · rw [byThread, if_neg hj]
      exact held_others h hlock hth hm hj

/-- Over any number of steps. -/
theorem held_run (h : (machine set n).Reach (fun _ _ => True) s) (hlock : s.mem.lock = some i)
    {steps : List Step} (hrun : (machine set n).guardedRun (fun _ _ => True) s steps = some s')
    (hfew : (steps.map (byThread i)).sum < s.held set i) :
    s'.mem.lock = some i ∧ s'.held set i + (steps.map (byThread i)).sum = s.held set i := by
  induction steps generalizing s with
  | nil =>
    rw [Lts.guardedRun, Option.some.injEq] at hrun
    subst hrun
    exact ⟨hlock, rfl⟩
  | cons l ls ih =>
    obtain ⟨-, s₁, hnext, hrest⟩ := Lts.guardedRun_cons hrun
    have hstep := held_step h hlock hnext
    have h₁ := h.step trivial hnext
    rw [List.map_cons, List.sum_cons] at hfew ⊢
    have hlock₁ : s₁.mem.lock = some i := (held_pos_iff h₁).mp (by omega)
    obtain ⟨hlock', hheld⟩ := ih h₁ hlock₁ hrest (by omega)
    exact ⟨hlock', by omega⟩

/-! ## Nobody waits for ever -/

/-- The program points of `WAR_LOCK`. -/
def Frame.locking : Frame → Bool
  | .doSubmit (.lock _) _ => true
  | .addHandler .lock _ => true
  | .updateLevelAndFilter .lock => true
  | _ => false

/-- The engine's code waits for the lock and for nothing else. -/
theorem code_enabled (hf : f ≠ .client) (hfree : f.locking = true → m.lock = none) :
    ∃ r, frameStep set i .code m f = some r := by
  have hlock : ∀ es g, f.locking = true → ∃ r, warLock m i es g = some r := by
    intro es g hlocking
    rw [warLock, hfree hlocking]
    exact ⟨_, rfl⟩
  cases f with
  | client => exact absurd rfl hf
  | statement pc level filter message => exact ⟨_, rfl⟩
  | handlerSubmit entry text => exact ⟨_, rfl⟩
  | doSubmit pc id =>
    rw [frameStep, if_pos rfl]
    cases pc with
    | lock si => exact hlock _ _ rfl
    | loop si k =>
      rw [doSubmitStep]
      split
      next p hp =>
        split
        next hlevel => exact ⟨_, rfl⟩
        next hlevel => exact ⟨_, rfl⟩
      next hend => exact ⟨_, rfl⟩
    | _ => exact ⟨_, rfl⟩
  | addHandler pc p =>
    cases pc with
    | lock => exact hlock _ _ rfl
    | _ => exact ⟨_, rfl⟩
  | updateLevelAndFilter pc =>
    rw [frameStep, if_pos rfl]
    cases pc with
    | lock => exact hlock _ _ rfl
    | gather k acc =>
      rw [updateLevelAndFilterStep]
      split
      next p hp => exact ⟨_, rfl⟩
      next hend => exact ⟨_, rfl⟩
    | _ => exact ⟨_, rfl⟩

/-- A step of the top frame is a step of the machine. -/
theorem next_of_frameStep (hth : s.threads[i]? = some ⟨ctl, f :: rest⟩)
    (hstep : ∃ r, frameStep set i .code s.mem f = some r) :
    ∃ s', (machine set n).next s (.thread i .code) = some s' := by
  obtain ⟨r, hr⟩ := hstep
  refine ⟨⟨r.1, s.threads.set i (r.2.resume rest)⟩, ?_⟩
  show (program set).next s (.thread i .code) = _
  rw [Program.next, hth]
  exact congrArg (Option.map _) hr

/-- The owner can take a step. -/
theorem owner_enabled (h : (machine set n).Reach (fun _ _ => True) s)
    (hlock : s.mem.lock = some i) : ∃ s', (machine set n).next s (.thread i .code) = some s' := by
  obtain ⟨ctl, f, rest, hth, hin⟩ := owner_inside h hlock
  have hout := not_outside hin
  refine next_of_frameStep hth (code_enabled (fun he => ?_) fun hlocking => ?_)
  · subst he
    exact hout ⟨rfl, fun hbusy => hbusy⟩
  · exfalso
    unfold Frame.locking at hlocking
    split at hlocking
    · exact hout ⟨rfl, fun hbusy => hbusy⟩
    · exact hout ⟨rfl, fun hbusy => hbusy⟩
    · exact hout ⟨rfl, fun hbusy => hbusy⟩
    · exact absurd hlocking (by simp)

/-- While some thread is in the engine, some thread in the engine can go on. -/
theorem engine_progress (h : (machine set n).Reach (fun _ _ => True) s)
    {th : Thread Frame Empty} (hth : s.threads[i]? = some th) (hin : th.frames ≠ [.client]) :
    ∃ j s', (machine set n).next s (.thread j .code) = some s' := by
  obtain ⟨ctl, fs⟩ := th
  have hstack := reach_stacks h hth
  cases fs with
  | nil => exact hstack.elim
  | cons f rest =>
    by_cases hfree : f.locking = true ∧ s.mem.lock ≠ none
    -- who waits for the lock has an owner to wait for, and the owner can go on
    · obtain ⟨j, hlock⟩ := Option.ne_none_iff_exists'.mp hfree.2
      exact ⟨j, owner_enabled h hlock⟩
    · refine ⟨i, next_of_frameStep hth (code_enabled (fun he => ?_) fun hlocking => ?_)⟩
      · -- user code stands on nothing
        subst he
        cases rest with
        | nil => exact hin rfl
        | cons g rest => exact hstack.1
      · by_contra hne
        exact hfree ⟨hlocking, hne⟩

/-- What the owner does to the lock. -/
theorem owner_keeps (hlock : s.mem.lock = some i)
    (hn : (machine set n).next s (.thread i a) = some s') :
    s'.mem.lock = some i ∨ s'.mem.lock = none := by
  cases stepped_of_next hn with
  | @move _ _ ctl f rest m nx hth hm =>
    have hlocks := hm.locks
    rw [hlock] at hlocks
    generalize hnew : m.lock = lock' at hlocks
    cases hlocks with
    | alone hsame => exact Or.inl rfl
    | release hless => exact Or.inr rfl

/-- **The lock comes back.** While some thread is in a function of the engine, some
thread can go on in one. And from any state in which thread `i` has the lock:
until it has taken as many steps as it has before it there, it keeps the lock
and can always take another one, and the step it takes next gives the lock
back exactly if it is the last of them — whatever the others do in between. -/
theorem lock_comes_back (h : (machine set n).Reach (fun _ _ => True) s) :
    (∀ (i : Nat) (th : Thread Frame Empty), s.threads[i]? = some th → th.frames ≠ [.client] →
      ∃ j s', (machine set n).next s (.thread j .code) = some s') ∧
    ∀ i, s.mem.lock = some i → ∀ (steps : List Step) (s' : State),
      (machine set n).guardedRun (fun _ _ => True) s steps = some s' →
      (steps.map (byThread i)).sum < s.held set i →
      s'.mem.lock = some i ∧
      (∃ s'', (machine set n).next s' (.thread i .code) = some s'') ∧
      ∀ a s'', (machine set n).next s' (.thread i a) = some s'' →
        (s''.mem.lock = none ↔ (steps.map (byThread i)).sum + 1 = s.held set i) := by
  refine ⟨fun i th hth hin => engine_progress h hth hin, fun i hlock steps s' hrun hfew => ?_⟩
  have h' : (machine set n).Reach (fun _ _ => True) s' := Lts.reach_of_guardedRun h hrun
  obtain ⟨hlock', hheld⟩ := held_run h hlock hrun hfew
  refine ⟨hlock', owner_enabled h' hlock', fun a s'' hnext => ?_⟩
  have hstep := held_step h' hlock' hnext
  have hpos : 0 < s''.held set i ↔ s''.mem.lock = some i := held_pos_iff (h'.step trivial hnext)
  rw [byThread, if_pos rfl] at hstep
  have hzero : s''.mem.lock = none ↔ ¬0 < s''.held set i := by
    rw [hpos]
    rcases owner_keeps hlock' hnext with hkept | hfree
    · simp [hkept]
    · simp [hfree]
  rw [hzero]
  omega

/-- Thread 0 is about to insert a handler, thread 1 submits an event and waits for the
lock; the second step of thread 0 gives it back. -/
theorem lock_comes_back_two : ∃ s s' : State, (machine oneFile 2).Reach (fun _ _ => True) s ∧
    s.mem.lock = some 0 ∧ s.held oneFile 0 = 2 ∧
    (machine oneFile 2).guardedRun (fun _ _ => True) s
      [.thread 1 (.submit ⟨.info, 1, "a"⟩), .thread 1 .code, .thread 0 .code] = some s' ∧
    s'.mem.lock = some 0 ∧
    ∀ a s'', (machine oneFile 2).next s' (.thread 0 a) = some s'' → s''.mem.lock = none := by
  have hrun : ∃ s s' : State, (machine oneFile 2).guardedRun (fun _ _ => True)
      (initial oneFile 2) [.thread 0 (.addHandler 0), .thread 0 .code] = some s ∧
      s.mem.lock = some 0 ∧ s.held oneFile 0 = 2 ∧
      (machine oneFile 2).guardedRun (fun _ _ => True) s
        [.thread 1 (.submit ⟨.info, 1, "a"⟩), .thread 1 .code, .thread 0 .code] = some s' :=
    ⟨_, _, rfl, rfl, rfl, rfl⟩
  obtain ⟨s, s', hs, hlock, hheld, hs'⟩ := hrun
  have hreach := Lts.reach_of_guardedRun (.start rfl) hs
  have hback := (lock_comes_back hreach).2 0 hlock _ s' hs' (by rw [hheld]; decide)
  exact ⟨s, s', hreach, hlock, hheld, hs', hback.1, fun a s'' hnext =>
    (hback.2.2 a s'' hnext).mpr (by rw [hheld]; rfl)⟩

end Warlib.Logging
