import Warlib.Machine.Product
import Warlib.Threadpool.Model

/-!
# What one step of the pool can do

`Move` lists everything a step of a single frame can be, `Stepped` everything
a step of the pool can be; `frameStep_move` and `stepped_of_next` invert the
machine once and for all.

To the pipelines a step does what is called on one of them, or nothing
(`Stepped.pool`): each pipeline has a run of its own (`reach_pipeline`), and
the results about the runs of one pipeline hold of all of them.
-/

namespace Warlib.Threadpool

open Warlib.Machine Warlib.Pipeline

/-- One step of frame `f` on thread `i` in memory `m`. -/
inductive Move (S : Setting) (i : Nat) (m : Mem) :
    Act → Ctl Exn → Frame → Mem → Next Frame Exn → Prop
  | enter {a : Act} {ctl : Ctl Exn} {m' : Mem} {f : Frame} (hc : m.constructed = true)
      (hd : m.destroying = false ∨ S.users ≤ i) (he : entry S i m a = some (m', f)) :
    Move S i m a ctl .client m' (.call .client f)
  -- GetAnyPipeline
  | choose {ctl : Ctl Exn} : Move S i m .code ctl (.getAnyPipeline none) (m.choose S) .ret
  | choose_call {ctl : Ctl Exn} (c : Call) :
    Move S i m .code ctl (.getAnyPipeline (some c)) (m.choose S)
      (.goto (.calling (m.chosen S) (.call c)))
  -- an entry point of a pipeline
  | calling {ctl : Ctl Exn} {m' : Mem} (k : Nat) (a : Pipeline.Act)
      (ht : m.turn S k (.step (.thread (i + 1) a)) = some m') :
    Move S i m .code ctl (.calling k a) m' (.goto (.inside k))
  | back {ctl : Ctl Exn} (k : Nat) : Move S i m .code ctl (.inside k) m .ret
  | back_thr {ctl : Ctl Exn} (k : Nat) (e : Exn) : Move S i m .code ctl (.inside k) m (.thr e)
  -- Close
  | close_again {ctl : Ctl Exn} (hc : m.closed = true) :
    Move S i m .code ctl (.close .test) m .ret
  | close_open {ctl : Ctl Exn} (hc : m.closed = false) :
    Move S i m .code ctl (.close .test) m (.goto (.close (.loop 0)))
  | close_thr (k : Nat) (e : Exn) : Move S i m .code (.thr e) (.close (.loop k)) m (.thr e)
  | close_next {ctl : Ctl Exn} (k : Nat) (hk : k < m.pool.length) :
    Move S i m .code ctl (.close (.loop k)) m
      (.call (.close (.loop (k + 1))) (.calling k (.call .close)))
  | close_end {ctl : Ctl Exn} (k : Nat) (hk : ¬k < m.pool.length) :
    Move S i m .code ctl (.close (.loop k)) m (.goto (.close .set))
  | close_set {ctl : Ctl Exn} : Move S i m .code ctl (.close .set) { m with closed := true } .ret
  -- JoinAll
  | join_lock {ctl : Ctl Exn} (hm : m.closeMutex = none) :
    Move S i m .code ctl (.joinAll .lock) { m with closeMutex := some i } (.goto (.joinAll .test))
  | join_finished {ctl : Ctl Exn} (hf : m.finished = true) :
    Move S i m .code ctl (.joinAll .test) m (.goto (.joinAll .unlock))
  | join_open {ctl : Ctl Exn} (hf : m.finished = false) :
    Move S i m .code ctl (.joinAll .test) m (.goto (.joinAll (.loop 0)))
  | join_call {ctl : Ctl Exn} {m' : Mem} (k : Nat) (hk : k < m.pool.length)
      (ht : m.turn S k (.wait (i + 1)) = some m') :
    Move S i m .code ctl (.joinAll (.loop k)) m' (.goto (.joinAll (.waiting k)))
  | join_end {ctl : Ctl Exn} (k : Nat) (hk : ¬k < m.pool.length) :
    Move S i m .code ctl (.joinAll (.loop k)) m (.goto (.joinAll .finish))
  | join_waited {ctl : Ctl Exn} (k : Nat) (p : Lifetime) (hp : m.pool[k]? = some p)
      (hw : p.waiting (i + 1) = .idle) :
    Move S i m .code ctl (.joinAll (.waiting k)) m (.goto (.joinAll (.loop (k + 1))))
  | join_finish {ctl : Ctl Exn} :
    Move S i m .code ctl (.joinAll .finish) { m with finished := true } (.goto (.joinAll .unlock))
  | join_unlock {ctl : Ctl Exn} :
    Move S i m .code ctl (.joinAll .unlock) { m with closeMutex := none } .ret
  -- the destructor
  | destructor {ctl : Ctl Exn} :
    Move S i m .code ctl .destructor m (.call (.joinAll .lock) (.close .test))

variable {S : Setting} {i : Nat} {a : Act} {ctl : Ctl Exn} {m m' : Mem} {f : Frame}
  {nx : Next Frame Exn} {s s' : State} {l : Step} {ok : State → Step → Prop}

/-! ## The inversion, function by function -/

private theorem client_move (h : client S i m a = some (m', nx)) :
    Move S i m a ctl .client m' nx := by
  unfold client at h
  split at h
  next hg =>
    obtain ⟨⟨m₁, f⟩, he, hr⟩ := Option.map_eq_some_iff.mp h
    cases hr
    rw [Bool.and_eq_true, Bool.or_eq_true] at hg
    exact .enter hg.1 (by simpa using hg.2) he
  next => exact absurd h (by simp)

private theorem inside_move {k : Nat} (h : inside i m k = some (m', nx)) :
    Move S i m .code ctl (.inside k) m' nx := by
  unfold inside at h
  split at h
  next e _ => cases h; exact .back_thr k e
  next => cases h; exact .back k
  next => exact absurd h (by simp)

private theorem close_move {pc : ClosePc} (h : close m ctl pc = (m', nx)) :
    Move S i m .code ctl (.close pc) m' nx := by
  cases pc with
  | test =>
    rw [close] at h
    split at h
    next hc => cases h; exact .close_again hc
    next hc => cases h; exact .close_open (by simpa using hc)
  | loop k =>
    unfold close at h
    dsimp only at h
    split at h
    next e => cases h; exact .close_thr k e
    next =>
      split at h
      next hk => cases h; exact .close_next k hk
      next hk => cases h; exact .close_end k hk
  | set => cases h; exact .close_set

private theorem joinAll_move {pc : JoinPc} (h : joinAll S i m pc = some (m', nx)) :
    Move S i m .code ctl (.joinAll pc) m' nx := by
  cases pc with
  | lock =>
    rw [joinAll] at h
    split at h
    next hm => cases h; exact .join_lock hm
    next => exact absurd h (by simp)
  | test =>
    rw [joinAll] at h
    split at h
    next hf => cases h; exact .join_finished hf
    next hf => cases h; exact .join_open (by simpa using hf)
  | loop k =>
    rw [joinAll] at h
    split at h
    next hk =>
      obtain ⟨m₁, ht, hr⟩ := Option.map_eq_some_iff.mp h
      cases hr
      exact .join_call k hk ht
    next hk => cases h; exact .join_end k hk
  | waiting k =>
    rw [joinAll] at h
    split at h
    next hw =>
      cases h
      obtain ⟨p, hp, hw⟩ := Option.map_eq_some_iff.mp hw
      exact .join_waited k p hp hw
    next => exact absurd h (by simp)
  | finish => cases h; exact .join_finish
  | unlock => cases h; exact .join_unlock

/-- `frameStep`, inverted. -/
theorem frameStep_move (h : frameStep S i a ctl m f = some (m', nx)) :
    Move S i m a ctl f m' nx := by
  cases f with
  | client => exact client_move h
  | getAnyPipeline after =>
    cases a with
    | code =>
      cases after with
      | none => cases h; exact .choose
      | some c => cases h; exact .choose_call c
    | _ => exact absurd h (by simp [frameStep])
  | calling k b =>
    cases a with
    | code =>
      obtain ⟨m₁, ht, hr⟩ := Option.map_eq_some_iff.mp h
      cases hr
      exact .calling k b ht
    | _ => exact absurd h (by simp [frameStep])
  | inside k =>
    cases a with
    | code => exact inside_move h
    | _ => exact absurd h (by simp [frameStep])
  | close pc =>
    cases a with
    | code => exact close_move (Option.some.inj h)
    | _ => exact absurd h (by simp [frameStep])
  | joinAll pc =>
    cases a with
    | code => exact joinAll_move h
    | _ => exact absurd h (by simp [frameStep])
  | destructor =>
    cases a with
    | code => cases h; exact .destructor
    | _ => exact absurd h (by simp [frameStep])

/-! ## Runs -/

/-- A step of the pool: a move of one thread's top frame, or a turn of one
pipeline by itself. -/
inductive Stepped (S : Setting) (s : State) : Step → State → Prop
  | move {i : Nat} {a : Act} {ctl : Ctl Exn} {f : Frame} {rest : List Frame} {m : Mem}
      {nx : Next Frame Exn} (hth : s.threads[i]? = some ⟨ctl, f :: rest⟩)
      (hmove : Move S i s.mem a ctl f m nx) :
      Stepped S s (.thread i a) ⟨m, s.threads.set i (nx.resume rest)⟩
  | alone {k : Nat} {t : Turn} {m : Mem} (ht : s.mem.turn S k t = some m) :
      Stepped S s (.env (k, t)) ⟨m, s.threads⟩

theorem stepped_of_next (h : (machine S).next s l = some s') : Stepped S s l s' := by
  have hnext : (program S).next s l = some s' := by
    simp only [machine] at h
    split at h
    next => exact h
    next => exact absurd h (by simp)
  cases Program.stepped_of_next hnext with
  | thread hth hstep => exact .move hth (frameStep_move hstep)
  | @env b m henv =>
    simp only [program] at henv
    split at henv
    next => exact .alone henv
    next => exact absurd henv (by simp)

/-- A turn of one pipeline changes that pipeline. -/
theorem turn_some {k : Nat} {t : Turn} (h : m.turn S k t = some m') :
    ∃ p p', m.pool[k]? = some p ∧ (S.pipeline k).next p t = some p' ∧
      m' = { m with pool := m.pool.set k p' } := by
  unfold Mem.turn at h
  split at h
  next p hp =>
    obtain ⟨p', hn, rfl⟩ := Option.map_eq_some_iff.mp h
    exact ⟨p, p', hp, hn, rfl⟩
  next => exact absurd h (by simp)

/-- User code enters the pool without touching it. -/
theorem entry_some (h : entry S i m a = some (m', f)) :
    m' = m ∨ m' = { m with destroying := true } := by
  unfold entry at h
  split at h <;> try (split at h)
  all_goals simp only [Option.some.injEq, Prod.mk.injEq, reduceCtorEq] at h
  all_goals first
    | exact Or.inl h.1.symm
    | exact Or.inr h.1.symm

/-- The invariant rule of the pool. -/
theorem reach_invariant {I : State → Prop} (h : (machine S).Reach ok s) (hinit : I (initial S))
    (hstep : ∀ s l s', (machine S).Reach ok s → ok s l → Stepped S s l s' → I s → I s') : I s :=
  h.invariant (fun _ hi => hi.1 ▸ hinit) fun s l s' hr hok hn hI =>
    hstep s l s' hr hok (stepped_of_next hn) hI

/-! ## The pipelines -/

/-- What a turn is to the pipelines. -/
theorem beside_of_turn {k : Nat} {t : Turn} (h : m.turn S k t = some m') :
    Beside S.pipeline m.pool m'.pool := by
  obtain ⟨p, p', hp, hn, rfl⟩ := turn_some h
  exact .step hp hn

/-- A move calls something on one pipeline, or touches none. -/
theorem Move.pool (h : Move S i m a ctl f m' nx) : Beside S.pipeline m.pool m'.pool := by
  cases h
  case enter hc hd he =>
    rcases entry_some he with rfl | rfl
    · exact .still
    · exact .still
  case calling ht => exact beside_of_turn ht
  case join_call ht => exact beside_of_turn ht
  all_goals exact .still

theorem Stepped.pool (h : Stepped S s l s') : Beside S.pipeline s.mem.pool s'.mem.pool := by
  cases h with
  | move _ hm => exact hm.pool
  | alone ht => exact beside_of_turn ht

/-- Each pipeline of the pool has a run of its own. -/
theorem reach_pipeline (h : (machine S).Reach ok s) :
    ∀ k p, s.mem.pool[k]? = some p → (S.pipeline k).Reach (fun _ _ => True) p := by
  refine h.invariant
    (I := fun s => ∀ k p, s.mem.pool[k]? = some p → (S.pipeline k).Reach (fun _ _ => True) p)
    ?_ ?_
  · intro s hinit k p hp
    obtain ⟨rfl, hfits⟩ := hinit
    have hmem := hfits p (List.mem_of_getElem? hp)
    rw [initial, List.getElem?_map, Option.map_eq_some_iff] at hp
    obtain ⟨j, hj, rfl⟩ := hp
    obtain rfl : j = k := by
      obtain ⟨hlt, hj⟩ := List.getElem?_eq_some_iff.mp hj
      rw [List.getElem_range] at hj
      exact hj.symm
    exact .start ⟨rfl, hmem⟩
  · intro s l s' _ _ hnext hI
    exact (stepped_of_next hnext).pool.reach hI

/-- There are `capacity_` of them. -/
theorem reach_length (h : (machine S).Reach ok s) : s.mem.pool.length = S.capacity.toNat := by
  refine reach_invariant (I := fun s => s.mem.pool.length = S.capacity.toNat) h ?_ ?_
  · rw [initial, List.length_map, List.length_range]
  · intro s l s' _ _ hs hI
    rw [hs.pool.length]
    exact hI

/-- Each pipeline goes on by steps of its own. -/
theorem steps_pipeline {k : Nat} {p : Lifetime} (hs : (machine S).Steps s s')
    (hp : s.mem.pool[k]? = some p) :
    ∃ p', s'.mem.pool[k]? = some p' ∧ (S.pipeline k).Steps p p' := by
  induction hs with
  | refl => exact ⟨p, hp, .refl p⟩
  | @tail s₁ s₂ l hsteps hnext ih =>
    obtain ⟨p₁, hp₁, hsteps₁⟩ := ih
    obtain ⟨p₂, hp₂, hsteps₂⟩ := (stepped_of_next hnext).pool.component hp₁
    exact ⟨p₂, hp₂, hsteps₁.trans hsteps₂⟩

/-! ## Schedules -/

/-- A move of a thread is a step of the pool. -/
theorem next_thread {rest : List Frame} (ha : allowed S s (.thread i a) = true)
    (hth : s.threads[i]? = some ⟨ctl, f :: rest⟩)
    (hstep : frameStep S i a ctl s.mem f = some (m', nx)) :
    (machine S).next s (.thread i a) = some ⟨m', s.threads.set i (nx.resume rest)⟩ := by
  have hnext : (program S).next s (.thread i a) = some ⟨m', s.threads.set i (nx.resume rest)⟩ := by
    rw [Program.next, hth]
    exact congrArg (Option.map _) hstep
  show (if allowed S s (.thread i a) then (program S).next s (.thread i a) else none) = _
  rw [if_pos ha, hnext]

/-- A schedule: a pipeline is constructed. -/
def constructing : List Turn := [.construct, .run false, .run false, .run false, .construct]

/-- The `k`th pipeline of a pool follows a schedule. -/
def along (k : Nat) (ts : List Turn) : List Step := ts.map fun t => .env (k, t)

end Warlib.Threadpool
