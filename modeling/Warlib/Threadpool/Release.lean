import Mathlib.Algebra.BigOperators.Ring.List
import Mathlib.Algebra.Ring.Nat
import Warlib.Threadpool.Deadlock

/-!
# `JoinAll` comes back

`Deadlock.lean` says who can go on while somebody is in `JoinAll`; this file says
that nothing goes on for ever. `Frame.rank` bounds what the pool's own functions
have before them, and with it every schedule. So `JoinAll` comes back, unless a
worker waits for good (`join_terminates`). That happens: two tasks that wait for
each other's pipeline are enough (`tasks_cross`).
-/

namespace Warlib.Threadpool

open Warlib.Machine Warlib.Pipeline

variable {S : Setting} {i k : Nat} {a : Act} {ctl : Ctl Exn} {m m' : Mem} {f : Frame}
  {nx : Next Frame Exn} {s s' : State} {l : Step} {t : Turn} {p p' : Lifetime}
  {ok : State → Step → Prop}

/-! ## What is left to do -/

/-- What a frame has before it, in a pool of `N` pipelines; a call of
`WaitUntilClosed` brings two statements with it. -/
@[simp] def Frame.rank (N : Nat) : Frame → Nat
  | .client => 0
  | .getAnyPipeline none => 1
  | .getAnyPipeline (some _) => 3
  | .calling _ _ => 2
  | .inside _ => 1
  | .close .test => 3 * N + 3
  | .close (.loop k) => 3 * (N - k) + 2
  | .close .set => 1
  | .joinAll .lock => 4 * N + 5
  | .joinAll .test => 4 * N + 4
  | .joinAll (.loop k) => 4 * (N - k) + 3
  | .joinAll (.waiting k) => 4 * (N - (k + 1)) + 4
  | .joinAll .finish => 2
  | .joinAll .unlock => 1
  | .destructor => 7 * N + 9

/-- What `Run` and the waiters of all pipelines have before them. -/
def Mem.rank (S : Setting) (m : Mem) : Nat := (m.pool.map fun p => p.rank S.threads).sum

/-- All that is left to do of what has been called. -/
def rank (S : Setting) (s : State) : Nat :=
  tally (Frame.rank S.capacity.toNat) s.threads + s.mem.rank S

/-- A statement of the pool's own functions, of a pipeline's `Run` or of a
`WaitUntilClosed`. -/
def own : Step → Nat
  | .thread _ .code => 1
  | .env (_, .run _) => 1
  | .env (_, .wait _) => 1
  | _ => 0

/-- A statement of user code. -/
def user : Step → Nat
  | .thread _ .code => 0
  | .thread _ _ => 1
  | .env _ => 0

/-- A client calls `WaitUntilClosed`: two statements more. -/
theorem rank_wait {name : String} {cap : BitVec 64} {n c : Nat}
    (hr : (lifetime name cap n).Reach (fun _ _ => True) p)
    (hn : (lifetime name cap n).next p (.wait c) = some p') : p'.rank n ≤ p.rank n + 2 := by
  by_cases hidle : p.waiting c = .idle
  · cases turned_of_next hn with
    | call hi hc hth =>
      obtain ⟨th, hth, -⟩ := Option.map_eq_some_iff.mp hth
      have hlt := (List.getElem?_eq_some_iff.mp hth).1
      rw [reach_threads (reach_inside hr)] at hlt
      have hsum := sum_setWaiting p hlt .lock
      rw [hidle] at hsum
      show p.run.rank + _ ≤ p.run.rank + _ + 2
      simp only [WaitPc.rank] at hsum ⊢
      omega
    | acquire hi hw => exact absurd (hidle.symm.trans hi) (by simp)
    | release hi => exact absurd (hidle.symm.trans hi) (by simp)
  · have hok : NoNewWait p (.wait c) := hidle
    have hle := (turned_of_next hn).rank (reach_handshake hr) (reach_waiting hr) hok
    omega

/-- Entering costs what the longest of the functions takes. -/
theorem entry_rank (h : entry S i m a = some (m', f)) (N : Nat) :
    f.rank N ≤ (7 * N + 9) * user (.thread i a) := by
  have huser : user (.thread i a) = 1 := by
    cases a with
    | code => exact absurd h (by simp [entry])
    | _ => rfl
  rw [huser]
  rcases entry_frame h with ⟨after, rfl⟩ | ⟨_, _, rfl⟩ | rfl | rfl | rfl
  · cases after with
    | none => simp
    | some _ => simp
  all_goals simp
  all_goals omega

/-- What a turn costs, it costs the pipeline that takes it. -/
theorem turn_rank (hreach : ∀ k p, m.pool[k]? = some p → (S.pipeline k).Reach (fun _ _ => True) p)
    (ht : m.turn S k t = some m') {c d : Nat}
    (hle : ∀ p p', (S.pipeline k).Reach (fun _ _ => True) p → m.pool[k]? = some p →
      (S.pipeline k).next p t = some p' → p'.rank S.threads + c ≤ p.rank S.threads + d) :
    m'.rank S + c ≤ m.rank S + d := by
  obtain ⟨q, q', hq, hn, rfl⟩ := turn_some ht
  obtain ⟨r, hsum, hset⟩ := sum_component (fun p => p.rank S.threads) hq
  have hone := hle q q' (hreach k q hq) hq hn
  unfold Mem.rank
  rw [hsum, hset q']
  omega

/-- A turn that calls no `WaitUntilClosed` is paid for by its pipeline. -/
theorem turned_rank (hr : (S.pipeline k).Reach (fun _ _ => True) p)
    (hn : (S.pipeline k).next p t = some p') (hok : NoNewWait p t) :
    p'.rank S.threads + t.aside ≤ p.rank S.threads :=
  (turned_of_next hn).rank (reach_handshake hr) (reach_waiting hr) hok

/-- A move is paid for by its frame, and by user code when it enters. -/
theorem Move.rank (h : Move S i m a ctl f m' nx)
    (hreach : ∀ k p, m.pool[k]? = some p → (S.pipeline k).Reach (fun _ _ => True) p) {N : Nat}
    (hlen : m.pool.length = N) :
    weigh (Frame.rank N) nx.frames + m'.rank S + own (.thread i a) ≤
      f.rank N + m.rank S + (7 * N + 9) * user (.thread i a) := by
  have hsame : m'.pool = m.pool → m'.rank S = m.rank S := by
    intro hpool
    rw [Mem.rank, hpool]
    rfl
  cases h
  case enter g hc hd he =>
    have hentry := entry_rank he N
    have hpool : m'.pool = m.pool := by
      rcases entry_some he with rfl | rfl
      · rfl
      · rfl
    have hown : own (.thread i a) = 0 := by
      cases a with
      | code => exact absurd he (by simp [entry])
      | _ => rfl
    rw [hsame hpool, hown]
    have hclient : Frame.rank N .client = 0 := rfl
    rw [Next.frames, weigh_cons, weigh_cons, weigh_nil, hclient]
    omega
  case calling k b ht =>
    have hturn := turn_rank (c := 0) (d := 0) hreach ht
      fun p p' hr _ hn => turned_rank hr hn trivial
    simp only [Next.frames, weigh_cons, weigh_nil, Frame.rank, own, user]
    omega
  case join_call k hk ht =>
    -- the two statements of `WaitUntilClosed` are paid for by the loop
    have hturn := turn_rank (c := 0) (d := 2) hreach ht fun p p' hr _ hn => rank_wait hr hn
    simp only [Next.frames, weigh_cons, weigh_nil, Frame.rank, own, user]
    omega
  all_goals
    rw [hsame rfl]
    simp only [Next.frames, weigh_cons, weigh_nil, Frame.rank, own, user]
    omega

/-- A step comes out of what is left to do, or is user code. -/
theorem Stepped.rank (h : (machine S).Reach ok s)
    (hn : (machine S).next s l = some s') :
    rank S s' + own l ≤ rank S s + (7 * S.capacity.toNat + 9) * user l := by
  have hreach := reach_pipeline h
  have hlen := reach_length h
  have halone := hn
  cases stepped_of_next hn with
  | @move i a ctl f rest m nx hth hm =>
    have hpaid := hm.rank hreach hlen
    obtain ⟨r, hr, hset⟩ := tally_resume (Frame.rank S.capacity.toNat) hth nx
    unfold Threadpool.rank
    rw [hr, hset]
    show weigh _ nx.frames + r + m.rank S + own (.thread i a) ≤ _
    omega
  | @alone k t m ht =>
    obtain ⟨-, hwait⟩ := alone_quiet hn
    have hturn := turn_rank (c := t.aside) (d := 0) hreach ht fun p p' hr hp hn' => by
      refine turned_rank hr hn' ?_
      cases t with
      | wait c => exact hwait c rfl p hp
      | _ => exact trivial
    have hown : own (.env (k, t)) = t.aside := by cases t <;> rfl
    rw [hown]
    show tally _ s.threads + m.rank S + t.aside ≤ tally _ s.threads + s.mem.rank S + _
    omega

/-! ## It comes back -/

/-- **`JoinAll` comes back.** In every schedule the pool's own functions, the `Run` of
its pipelines and the `WaitUntilClosed` called on them have a bounded number of
steps for each statement of user code. And when `Close` has returned and they and
the workers can have no more of them, nobody is in `JoinAll`, neither in
`WaitUntilClosed` nor in the destructor — or a worker waits for good: stranded in a
`PostSynchronously` of its own, in one of a pipeline that has ended, or in a circle
of workers that wait for one another. -/
theorem join_terminates (home : Nat → Nat) (h : (machine S).Reach (fun _ _ => True) s)
    {steps : List Step} (hrun : (machine S).guardedRun (fun _ _ => True) s steps = some s') :
    (steps.map own).sum ≤
        rank S s + (7 * S.capacity.toNat + 9) * (steps.map user).sum ∧
      (s'.mem.closed = true → ¬CanGo S home s' →
        (∀ i, ¬InJoin s' i) ∨ SomeStranded s' ∨ SomeForsaken S home s' ∨ InCircle S home s') := by
  obtain ⟨h', hle⟩ := Lts.guardedRun_potential
    (I := fun s => (machine S).Reach (fun _ _ => True) s) (Φ := rank S) (Γ := fun _ => 0) own
    (fun l => (7 * S.capacity.toNat + 9) * user l)
    (fun s l s' hr _ hn => ⟨.step hr trivial hn, by have := Stepped.rank hr hn; omega⟩) h hrun
  rw [List.sum_map_mul_left steps user] at hle
  refine ⟨by omega, fun hc hno => ?_⟩
  by_cases hjoin : ∃ i, InJoin s' i
  · obtain ⟨i, hi⟩ := hjoin
    exact Or.inr ((join_progress h' hc hi).resolve_left hno)
  · exact Or.inl (not_exists.mp hjoin)

/-- The schedule `destroying`, and `JoinAll` returns. -/
def destroyed : List Step := destroying ++ [.thread 0 .code]

/-- The only thread of a program destroys a pool of one pipeline, and is back from
`JoinAll`: 21 statements of its own, and one of user code. Nothing is left to do. -/
theorem join_terminates_destroying : ∃ s' : State,
    (machine { numThreads := 1, users := 1 }).guardedRun (fun _ _ => True)
        (initial { numThreads := 1, users := 1 }) destroyed = some s' ∧
      s'.mem.closed = true ∧ ¬CanGo { numThreads := 1, users := 1 } id s' ∧
      (destroyed.map own).sum ≤ rank { numThreads := 1, users := 1 }
        (initial { numThreads := 1, users := 1 }) +
          16 * (destroyed.map user).sum ∧
      ∀ i, ¬InJoin s' i := by
  have hrun : ∃ s' p, (machine { numThreads := 1, users := 1 }).guardedRun (fun _ _ => True)
      (initial { numThreads := 1, users := 1 }) destroyed = some s' ∧
      s'.threads = [⟨.ret, [.client]⟩] ∧ s'.mem.pool = [p] ∧ p.run = .done ∧
      p.waiting 0 = .idle ∧ p.waiting 1 = .idle ∧ p.state.threads[0]? = some ⟨.ret, []⟩ ∧
      s'.mem.closed = true :=
    ⟨_, _, rfl, rfl, rfl, rfl, rfl, rfl, rfl, rfl⟩
  obtain ⟨s', p, hsteps, hthreads, hpool, hdone, hidle, hidle', hworker, hclosed⟩ := hrun
  have hinit : (machine { numThreads := 1, users := 1 }).Reach (fun _ _ => True)
      (initial { numThreads := 1, users := 1 }) := .start ⟨rfl, by decide⟩
  have hreach := Lts.reach_of_guardedRun hinit hsteps
  have hone : ∀ (k : Nat) q, s'.mem.pool[k]? = some q → q = p := by
    intro k q hq
    rw [hpool] at hq
    exact List.mem_singleton.mp (List.mem_of_getElem? hq)
  have hout : ∀ (i : Nat) f rest ctl, f ≠ .client → s'.threads[i]? ≠ some ⟨ctl, f :: rest⟩ := by
    intro i f rest ctl hf hth
    rw [hthreads] at hth
    have hmem := List.mem_singleton.mp (List.mem_of_getElem? hth)
    simp [hf] at hmem
  have hjoin : ∀ i, ¬InJoin s' i := by
    intro i hi
    obtain ⟨ctl, pc, rest, hth⟩ := hi
    exact hout i _ rest ctl (by simp) hth
  have hno : ¬CanGo { numThreads := 1, users := 1 } id s' := by
    refine not_canGo (fun i hi => absurd hi (hjoin i)) (fun k q hq fails => ?_)
      (fun k q hq c hc => ?_) fun k q hq hloop => ?_
    · rw [hone k q hq, Lifetime.runStep, hdone]
    · -- nobody has called `WaitUntilClosed`
      have hlt : c < 2 := reach_waiting (reach_pipeline hreach k q hq) c hc
      rw [hone k q hq] at hc
      obtain rfl | rfl : c = 0 ∨ c = 1 := by omega
      · exact absurd hidle hc
      · exact absurd hidle' hc
    · rw [hone k q hq] at hloop
      exact absurd (hdone.symm.trans hloop) (by simp)
  have hnone : ∀ k j, ¬Awaits { numThreads := 1, users := 1 } id s' k j := by
    intro k j hwaits
    obtain ⟨i, ctl, rest, -, -, -, -, hth, -⟩ := hwaits
    exact hout i _ rest ctl (by simp) hth
  obtain ⟨hbound, hend⟩ := join_terminates id hinit hsteps
  refine ⟨s', hsteps, hclosed, hno, hbound, (hend hclosed hno).resolve_right ?_⟩
  rintro (⟨k, q, id, hq, ⟨ctl, rest, hth⟩, -⟩ | ⟨k, j, _, hwaits, -⟩ | hcircle)
  · rw [hone k q hq, hworker] at hth
    simp at hth
  · exact hnone k j hwaits
  · obtain ⟨k, j, hwaits⟩ := hcircle.awaits
    exact hnone k j hwaits

/-- Two pipelines, and a task on each. -/
def twoTasks : Setting where
  numThreads := 2
  users := 1
  tasks := 2

/-- The program posts a task to the `k`th pipeline, whose worker begins it. -/
def beginning (k : Nat) : List Step :=
  [.thread 0 (.use k (.call .post)), .thread 0 .code] ++
    along k (List.replicate 3 (.step (.thread 1 .code)) ++
      List.replicate 4 (.step (.thread 0 .code))) ++ [.thread 0 .code]

/-- The task on thread `i` waits for the `k`th pipeline. -/
def crossing (i k : Nat) : List Step :=
  [.thread i (.use k (.call .postSynchronously)), .thread i .code] ++
    along k (List.replicate 6 (.step (.thread (i + 1) .code)))

/-- Two tasks begin and wait for each other's pipeline, and the program closes the
pool and waits for it. -/
def crossed : List Step :=
  along 0 constructing ++ along 1 constructing ++ beginning 0 ++ beginning 1 ++
    crossing 1 1 ++ crossing 2 0 ++ [.thread 0 .close] ++ List.replicate 3 (.thread 0 .code) ++
    along 0 closing ++ List.replicate 3 (.thread 0 .code) ++ along 1 closing ++
    List.replicate 3 (.thread 0 .code) ++ [.thread 0 .waitUntilClosed] ++
    List.replicate 3 (.thread 0 .code)

/-- `JoinAll` does not come back to a program whose tasks wait for each other: nobody
can go on, though no worker is stranded and none has ended. -/
theorem tasks_cross : ∃ s : State, (machine twoTasks).Reach (fun _ _ => True) s ∧
    s.mem.closed = true ∧ InJoin s 0 ∧ ¬CanGo twoTasks (fun i => i - 1) s ∧
      ¬SomeStranded s ∧ ¬SomeForsaken twoTasks (fun i => i - 1) s ∧
      InCircle twoTasks (fun i => i - 1) s := by
  have hrun : ∃ s p q ctl ctl₁ ctl₂, (machine twoTasks).guardedRun (fun _ _ => True)
      (initial twoTasks) crossed = some s ∧ s.mem.closed = true ∧
      s.threads = [⟨ctl, [.joinAll (.waiting 0), .client]⟩, ⟨ctl₁, [.inside 1, .client]⟩,
        ⟨ctl₂, [.inside 0, .client]⟩] ∧ s.mem.pool = [p, q] ∧ p.waiting 1 = .lock ∧
      (p.run = .loop ∧ p.state.top? 0 = some (.fn 0)) ∧
      (q.run = .loop ∧ q.state.top? 0 = some (.fn 0)) ∧
      (p.state.top? 3 = some (.postSynchronously .waiting 1) ∧
        p.state.mem.promises (.sync 1) = none) ∧
      q.state.top? 2 = some (.postSynchronously .waiting 1) ∧
      q.state.mem.promises (.sync 1) = none :=
    ⟨_, _, _, _, _, _, rfl, rfl, rfl, rfl, rfl, ⟨rfl, rfl⟩, ⟨rfl, rfl⟩, ⟨rfl, rfl⟩, rfl, rfl⟩
  obtain ⟨s, p, q, ctl, ctl₁, ctl₂, hsteps, hclosed, hthreads, hpool, hlock, hp, hq,
    ⟨htop, hnone⟩, htop', hnone'⟩ := hrun
  have hreach : (machine twoTasks).Reach (fun _ _ => True) s :=
    Lts.reach_of_guardedRun (.start ⟨rfl, by decide⟩) hsteps
  -- both workers are in user code, of a task that waits
  have hboth : ∀ (k : Nat) r, s.mem.pool[k]? = some r →
      (r.run = .loop ∧ r.state.top? 0 = some (.fn 0)) ∧
        ∃ j, Awaits twoTasks (fun i => i - 1) s k j := by
    intro k r hr
    rw [hpool] at hr
    have hk : k < 2 := (List.getElem?_eq_some_iff.mp hr).1
    obtain rfl | rfl : k = 0 ∨ k = 1 := by omega
    · cases hr
      exact ⟨hp, 1, 1, ctl₁, _, q, 1, by decide, rfl, by rw [hthreads]; rfl, by rw [hpool]; rfl,
        htop', hnone'⟩
    · cases hr
      exact ⟨hq, 0, 2, ctl₂, _, p, 1, by decide, rfl, by rw [hthreads]; rfl, by rw [hpool]; rfl,
        htop, hnone⟩
  have halive : ∀ (k : Nat) r, s.mem.pool[k]? = some r →
      r.state.threads[0]?.map Thread.frames ≠ some [] := by
    intro k r hr hend
    obtain ⟨th, hth, hnil⟩ := Option.map_eq_some_iff.mp hend
    have htop := (hboth k r hr).1.2
    rw [State.top?, hth] at htop
    simp [hnil] at htop
  have hjoin : InJoin s 0 := ⟨ctl, .waiting 0, _, by rw [hthreads]; rfl⟩
  have hno : ¬CanGo twoTasks (fun i => i - 1) s := by
    refine not_canGo_waiting hreach (fun i hi s' hnext => ?_)
      (fun k r hr => ⟨(hboth k r hr).1.1, halive k r hr⟩) fun k r hr => (hboth k r hr).2
    -- the only thread in `JoinAll` waits for the first pipeline
    obtain ⟨ctl', pc, rest, hth⟩ := hi
    obtain ⟨r, hr⟩ := step_of_next hnext hth
    have hr : joinAll twoTasks i s.mem pc = some r := hr
    rw [hthreads] at hth
    have hlt : i < 3 := (List.getElem?_eq_some_iff.mp hth).1
    obtain rfl | rfl | rfl : i = 0 ∨ i = 1 ∨ i = 2 := by omega
    · obtain ⟨-, rfl, -⟩ : ctl = ctl' ∧ .waiting 0 = pc ∧ [.client] = rest := by simpa using hth
      rw [joinAll, hpool] at hr
      simp [hlock] at hr
    · simp at hth
    · simp at hth
  have hstranded : ¬SomeStranded s := by
    rintro ⟨k, r, id, hr, ⟨ctl, rest, hth⟩, -⟩
    have htop := (hboth k r hr).1.2
    rw [top_of_thread hth] at htop
    simp at htop
  have hforsaken : ¬SomeForsaken twoTasks (fun i => i - 1) s := by
    rintro ⟨k, j, r, -, hr, hend⟩
    exact halive j r hr hend.ended
  -- so what is left of `join_progress` is the circle
  have hcircle := (((join_progress hreach hclosed hjoin).resolve_left hno).resolve_left
    hstranded).resolve_left hforsaken
  exact ⟨s, hreach, hclosed, hjoin, hno, hstranded, hforsaken, hcircle⟩

end Warlib.Threadpool
