import Warlib.Pipeline.Waiting
import Warlib.Threadpool.Moves

/-!
# Joining the pool

`JoinAll` waits for one pipeline after the other, under `close_mutex_`, and
remembers in `finished_` that it has; whoever comes later returns at once.
Neither shortcut loses anything: `Owed` says what each program point of
`JoinAll` rests on — the pipelines before the `k`th have ended, this thread
is still inside the `k`th one's `WaitUntilClosed`, or `finished_` is set —
and `finished_` is only ever set when all have ended (`Joined`).

`closed_` plays no part: a `Close` that returns early because another one is
through, or one that was never called, makes `JoinAll` wait no less.
-/

namespace Warlib.Threadpool

open Warlib.Machine Warlib.Pipeline

variable {S : Setting} {i : Nat} {a : Act} {ctl : Ctl Exn} {m m' : Mem} {f : Frame}
  {rest : List Frame} {nx : Next Frame Exn} {s s' : State} {l : Step}

/-! ## What `JoinAll` rests on -/

/-- The pipelines before the `k`th have ended. -/
def Mem.EndedBelow (m : Mem) (k : Nat) : Prop :=
  ∀ (j : Nat) (p : Lifetime), j < k → m.pool[j]? = some p → Ended p.state

/-- All pipelines have ended. -/
def Mem.AllEnded (m : Mem) : Prop :=
  ∀ (k : Nat) (p : Lifetime), m.pool[k]? = some p → Ended p.state

/-- What a frame of thread `i` rests on. -/
def Owed (m : Mem) (i : Nat) : Frame → Prop
  | .joinAll (.loop k) => m.EndedBelow k
  | .joinAll (.waiting k) => m.EndedBelow k ∧
      ∀ p, m.pool[k]? = some p → p.waiting (i + 1) ≠ .idle ∨ Ended p.state
  | .joinAll .finish => m.AllEnded
  | .joinAll .unlock => m.finished = true
  | _ => True

/-- Every frame has what it rests on, and `finished_` tells the truth. -/
structure Joined (s : State) : Prop where
  frames : ∀ i th, s.threads[i]? = some th → ∀ f ∈ th.frames, Owed s.mem i f
  finished : s.mem.finished = true → s.mem.AllEnded

/-! ## One step -/

section Evolution

variable (hreach : ∀ k p, m.pool[k]? = some p → (S.pipeline k).Reach (fun _ _ => True) p)
  (hpool : Beside S.pipeline m.pool m'.pool)

include hreach hpool

/-- A pipeline that has ended has ended. -/
theorem Mem.EndedBelow.step {k : Nat} (h : m.EndedBelow k) : m'.EndedBelow k := by
  intro j p hj hp
  refine hpool.forall (I := fun j p => j < k → Ended (Lifetime.state p))
    (fun j p hp hj => h j p hj hp) ?_ j p hp hj
  intro j p t p' hp hn hI hj
  exact (ended_step (hreach j p hp) hn (hI hj)).1

theorem Mem.AllEnded.step (h : m.AllEnded) : m'.AllEnded := by
  refine hpool.forall (I := fun _ p => Ended (Lifetime.state p)) h ?_
  intro j p t p' hp hn hI
  exact (ended_step (hreach j p hp) hn hI).1

/-- What a frame rests on does not go away. -/
theorem Owed.step (hfinished : m.finished = true → m'.finished = true) {j : Nat} {g : Frame}
    (h : Owed m j g) : Owed m' j g := by
  unfold Owed at h ⊢
  split
  next k => exact Mem.EndedBelow.step hreach hpool h
  next k =>
    refine ⟨Mem.EndedBelow.step hreach hpool h.1, ?_⟩
    have hall := hpool.forall
      (I := fun k' p => k' = k → Lifetime.waiting p (j + 1) ≠ .idle ∨ Ended p.state)
      (fun k' p hp hk => h.2 p (hk ▸ hp))
      fun k' p t p' hp hn hI hk => waits_step (hreach k' p hp) hn (hI hk)
    exact fun p hp => hall k p hp rfl
  next => exact Mem.AllEnded.step hreach hpool h
  next => exact hfinished h
  next => trivial

end Evolution

/-- `finished_` is never cleared. -/
theorem Move.finished (h : Move S i m a ctl f m' nx) :
    m'.finished = m.finished ∨ f = .joinAll .finish := by
  cases h
  case enter hc hd he =>
    rcases entry_some he with rfl | rfl
    · exact Or.inl rfl
    · exact Or.inl rfl
  case calling ht =>
    obtain ⟨p, p', -, -, rfl⟩ := turn_some ht
    exact Or.inl rfl
  case join_call ht =>
    obtain ⟨p, p', -, -, rfl⟩ := turn_some ht
    exact Or.inl rfl
  case join_finish => exact Or.inr rfl
  all_goals exact Or.inl rfl

/-- What user code enters rests on nothing. -/
theorem entry_owed (h : entry S i m a = some (m', f)) : Owed m' i f := by
  unfold entry at h
  split at h <;> try (split at h)
  all_goals simp only [Option.some.injEq, Prod.mk.injEq, reduceCtorEq] at h
  all_goals
    obtain ⟨-, rfl⟩ := h
    trivial

/-- A frame goes on to what it has established. -/
theorem Move.owed (h : Move S i m a ctl f m' nx)
    (hreach : ∀ k p, m.pool[k]? = some p → (S.pipeline k).Reach (fun _ _ => True) p)
    (hf : Owed m i f) :
    ∀ g ∈ nx.frames, Owed m' i g := by
  have hpool := h.pool
  intro g hg
  cases h
  case enter f hc hd he =>
    rcases List.mem_pair.mp hg with rfl | rfl
    · exact entry_owed he
    · trivial
  all_goals simp only [Next.frames, List.mem_cons, List.not_mem_nil, or_false] at hg
  case close_next k hk =>
    rcases hg with rfl | rfl
    · trivial
    · trivial
  case destructor =>
    rcases hg with rfl | rfl
    · trivial
    · trivial
  case join_call k hk ht =>
    subst hg
    refine ⟨Mem.EndedBelow.step hreach hpool hf, fun p' hp' => ?_⟩
    obtain ⟨p, p₁, hp, hn, rfl⟩ := turn_some ht
    have hlt : k < m.pool.length := hk
    rw [List.getElem?_set_self hlt, Option.some.injEq] at hp'
    subst hp'
    by_cases hi : p₁.waiting (i + 1) = .idle
    · exact Or.inr (wait_returns (hreach k p hp) hn hi).1
    · exact Or.inl hi
  case join_end k hk =>
    subst hg
    intro j p hp
    have hlt : j < m.pool.length := (List.getElem?_eq_some_iff.mp hp).1
    exact hf j p (by omega) hp
  case join_waited k p hp hw =>
    subst hg
    intro j q hj hq
    rcases Nat.lt_succ_iff_lt_or_eq.mp hj with hj | rfl
    · exact hf.1 j q hj hq
    · rw [hp, Option.some.injEq] at hq
      subst hq
      rcases hf.2 p hp with hstill | hend
      · exact absurd hw hstill
      · exact hend
  case join_open hopen =>
    subst hg
    intro j p hj
    exact absurd hj (Nat.not_lt_zero j)
  case join_finished hfin => subst hg; exact hfin
  case join_finish => subst hg; rfl
  all_goals
    subst hg
    trivial

/-- **Joining**: in every reachable state. -/
theorem reach_joined {ok : State → Step → Prop} (h : (machine S).Reach ok s) : Joined s := by
  refine reach_invariant (I := Joined) h ⟨?_, ?_⟩ ?_
  · intro i th hth f hf
    obtain rfl : th = ⟨.go, [.client]⟩ := (List.mem_replicate.mp (List.mem_of_getElem? hth)).2
    obtain rfl := List.mem_singleton.mp hf
    trivial
  · intro hfin
    exact absurd hfin (by simp [initial])
  · intro s l s' hr _ hs hI
    have hreach := reach_pipeline hr
    have hpool := hs.pool
    cases hs with
    | @move i a ctl f rest m nx hth hm =>
      have hmine := hI.frames i _ hth f (List.mem_cons_self ..)
      have hmono : s.mem.finished = true → m.finished = true := by
        intro hfin
        rcases hm.finished with hsame | rfl
        · rw [hsame]
          exact hfin
        · cases hm
          rfl
      refine ⟨?_, fun hfin => ?_⟩
      · exact forall_frames_set hth hI.frames
          (fun j g hg => Owed.step hreach hpool hmono hg)
          fun hf => hm.owed hreach hf
      · rcases hm.finished with hsame | rfl
        · exact Mem.AllEnded.step hreach hpool (hI.finished (hsame ▸ hfin))
        · exact Mem.AllEnded.step hreach hpool hmine
    | @alone k t m ht =>
      have hsame : m.finished = s.mem.finished := by
        obtain ⟨p, p', -, -, rfl⟩ := turn_some ht
        rfl
      refine ⟨fun i th hth f hf => ?_, fun hfin => ?_⟩
      · exact Owed.step hreach hpool (fun hfin => hsame.trans hfin) (hI.frames i th hth f hf)
      · exact Mem.AllEnded.step hreach hpool (hI.finished (hsame ▸ hfin))

/-! ## Returning -/

/-- `JoinAll` of thread `i` returns, to `WaitUntilClosed` or to the destructor. -/
def JoinReturns (S : Setting) (s : State) (i : Nat) (s' : State) : Prop :=
  ∃ a ctl pc rest, s.threads[i]? = some ⟨ctl, .joinAll pc :: rest⟩ ∧
    (machine S).next s (.thread i a) = some s' ∧ s'.threads[i]?.map Thread.frames = some rest

/-- It returns with `finished_` set. -/
theorem joinReturns_finished (h : (machine S).Reach (fun _ _ => True) s)
    (hret : JoinReturns S s i s') : s.mem.finished = true := by
  obtain ⟨a, ctl, pc, rest, hth, hnext, hframes⟩ := hret
  have hjoined := reach_joined h
  have howed := hjoined.frames i _ hth _ (List.mem_cons_self ..)
  cases stepped_of_next hnext with
  | @move _ _ ctl' f rest' m nx hth' hm =>
    rw [hth', Option.some.injEq, Thread.mk.injEq, List.cons.injEq] at hth
    obtain ⟨rfl, rfl, rfl⟩ := hth
    have hlt : i < s.threads.length := (List.getElem?_eq_some_iff.mp hth').1
    rw [List.getElem?_set_self hlt, Option.map_some, Option.some.injEq,
      Next.resume_frames] at hframes
    -- any other move leaves a frame in place of the one that moved
    cases hm
    case join_unlock => exact howed
    all_goals exact absurd (congrArg List.length hframes) (by simp)

/-- When a `JoinAll` returns, every pipeline of the pool has ended, for good. -/
theorem joinReturns_ended (h : (machine S).Reach (fun _ _ => True) s)
    (hret : JoinReturns S s i s') {k : Nat} (hk : k < S.capacity.toNat) :
    ∃ p, s'.mem.pool[k]? = some p ∧ Ended p.state ∧
      ∀ s'', (machine S).Steps s' s'' → ∃ p'', s''.mem.pool[k]? = some p'' ∧
        Ended p''.state ∧ p''.state.mem.begun = p.state.mem.begun := by
  have hfin := joinReturns_finished h hret
  obtain ⟨a, ctl, pc, rest, hth, hnext, hframes⟩ := hret
  have hs := stepped_of_next hnext
  have h' := h.step trivial hnext
  have hall : s'.mem.AllEnded :=
    Mem.AllEnded.step (reach_pipeline h) hs.pool ((reach_joined h).finished hfin)
  have hlt : k < s'.mem.pool.length := by
    rw [reach_length h']
    exact hk
  have hp := List.getElem?_eq_getElem hlt
  refine ⟨_, hp, hall k _ hp, fun s'' hsteps => ?_⟩
  obtain ⟨p'', hp'', hsteps''⟩ := steps_pipeline hsteps hp
  exact ⟨p'', hp'', ended_steps (reach_pipeline h' k _ hp) (hall k _ hp) hsteps''⟩

/-- **Waiting for shutdown is sound.** For one constructed pipeline and any number
of clients, `WaitUntilClosed` returns only when `closed_` is set, the worker's
loop has ended and no task is running, and from then on it stays so and no
task begins. For a pool of any size, `WaitUntilClosed`, and the `JoinAll` in
the destructor, returns only when this holds of every pipeline of the pool. -/
theorem waiting_is_sound :
    (∀ name cap n p i p', (lifetime name cap n).Reach (fun _ _ => True) p →
      (lifetime name cap n).next p (.wait i) = some p' → p'.waiting i = .idle →
      Ended p'.state ∧ ∀ p'', (lifetime name cap n).Steps p' p'' →
        Ended p''.state ∧ p''.state.mem.begun = p'.state.mem.begun) ∧
    ∀ S s i s', (machine S).Reach (fun _ _ => True) s → JoinReturns S s i s' →
      ∀ k, k < S.capacity.toNat → ∃ p, s'.mem.pool[k]? = some p ∧ Ended p.state ∧
        ∀ s'', (machine S).Steps s' s'' → ∃ p'', s''.mem.pool[k]? = some p'' ∧
          Ended p''.state ∧ p''.state.mem.begun = p.state.mem.begun :=
  ⟨fun _ _ _ _ _ _ hr hnext hi => wait_returns hr hnext hi,
    fun _ _ _ _ hr hret _ hk => joinReturns_ended hr hret hk⟩

/-- A schedule: client 1 is inside `Close`. -/
def closing : List Turn := List.replicate 3 (.step (.thread 1 .code))

/-- A schedule: the worker runs the shutdown handler, and `Run` ends. -/
def stopping : List Turn := List.replicate 6 (.step (.thread 0 .code)) ++ [.run false, .run false]

/-- The only thread of a program destroys a pool of one pipeline; `JoinAll` is
about to return. -/
def destroying : List Step :=
  along 0 constructing ++ [.thread 0 .destroy] ++ List.replicate 4 (.thread 0 .code) ++
    along 0 closing ++ List.replicate 6 (.thread 0 .code) ++ along 0 stopping ++
    along 0 [.wait 1, .wait 1] ++ List.replicate 3 (.thread 0 .code)

/-- A client closes a pipeline and waits for it; the only thread of a program
destroys a pool of one pipeline. -/
theorem waiting_is_sound_closed :
    (∃ p p', (lifetime "tasks" 1 1).Reach (fun _ _ => True) p ∧
      (lifetime "tasks" 1 1).next p (.wait 1) = some p' ∧ Ended p'.state) ∧
    ∃ s s' p, (machine { numThreads := 1, users := 1 }).Reach (fun _ _ => True) s ∧
      JoinReturns { numThreads := 1, users := 1 } s 0 s' ∧ s'.mem.destroying = true ∧
      s'.mem.pool[0]? = some p ∧ Ended p.state := by
  have hone : (((lifetime "tasks" 1 1).guardedRun (fun _ _ => True)
      { state := Pipeline.initial "tasks" 1 1 } (constructing ++
        [.step (.thread 1 (.call .close))] ++ closing ++ [.wait 1] ++ stopping ++
        [.wait 1])).bind fun p =>
      ((lifetime "tasks" 1 1).next p (.wait 1)).map fun p' => p'.waiting 1) = some .idle := rfl
  have hpool : (((machine { numThreads := 1, users := 1 }).guardedRun (fun _ _ => True)
      (initial { numThreads := 1, users := 1 }) destroying).bind fun s =>
      ((machine { numThreads := 1, users := 1 }).next s (.thread 0 .code)).map fun s' =>
        (s.threads[0]?, s'.threads[0]?, s'.mem.destroying)) =
      some (some ⟨.go, [.joinAll .unlock, .client]⟩, some ⟨.ret, [.client]⟩, true) := rfl
  constructor
  · obtain ⟨p, hrun, hp⟩ := Option.bind_eq_some_iff.mp hone
    obtain ⟨p', hnext, hi⟩ := Option.map_eq_some_iff.mp hp
    have hinit : (lifetime "tasks" 1 1).Reach (fun _ _ => True)
        { state := Pipeline.initial "tasks" 1 1 } := .start ⟨rfl, by decide⟩
    have hreach := Lts.reach_of_guardedRun hinit hrun
    exact ⟨p, p', hreach, hnext, (waiting_is_sound.1 _ _ _ p 1 p' hreach hnext hi).1⟩
  · obtain ⟨s, hrun, hs⟩ := Option.bind_eq_some_iff.mp hpool
    obtain ⟨s', hnext, hs'⟩ := Option.map_eq_some_iff.mp hs
    rw [Prod.mk.injEq, Prod.mk.injEq] at hs'
    obtain ⟨hth, hth', hdestroying⟩ := hs'
    have hinit : (machine { numThreads := 1, users := 1 }).Reach (fun _ _ => True)
        (initial { numThreads := 1, users := 1 }) := .start ⟨rfl, by decide⟩
    have hreach := Lts.reach_of_guardedRun hinit hrun
    have hret : JoinReturns { numThreads := 1, users := 1 } s 0 s' :=
      ⟨.code, .go, .unlock, [.client], hth, hnext, by rw [hth']; rfl⟩
    obtain ⟨p, hp, hend, -⟩ := waiting_is_sound.2 _ s 0 s' hreach hret 0 (by decide)
    exact ⟨s, s', p, hreach, hret, hdestroying, hp, hend⟩

end Warlib.Threadpool
