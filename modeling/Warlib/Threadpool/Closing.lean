import Warlib.Pipeline.Aftermath
import Warlib.Threadpool.Moves

/-!
# Closing the pool

`Threadpool::Close` calls `Close` of one pipeline after the other and sets
`closed_` behind the last; whoever calls it later returns at once. So the flag
says something about every pipeline, and this file proves what: `Shutting` is
what the program points of `Close` rest on — the pipelines before the `k`th are
closing, and this thread is inside the `k`th one's `Close` or has come out of
it — and `closed_` is set when all of them are closing (`Shut`).

What that is worth to the caller is said pipeline by pipeline
(`Pipeline/Aftermath.lean`): the shutdown handler is queued, and at most one
function begins from then on.
-/

namespace Warlib.Threadpool

open Warlib.Machine Warlib.Pipeline

variable {S : Setting} {i j k : Nat} {a : Act} {ctl : Ctl Exn} {m m' : Mem} {f : Frame}
  {rest fs : List Frame} {nx : Next Frame Exn} {s s' : State} {l : Step} {t : Turn}
  {p p' : Lifetime} {b : Pipeline.Act}

/-! ## Inside the `Close` of one pipeline -/

/-- Client `c` is in `Close` of the pipeline, or has come out of it and left
`closing_` set. -/
inductive Called (s : Pipeline.State) (c : Nat) : Prop
  | inside {th : Thread Pipeline.Frame Exn} {pc : Pipeline.ClosePc}
      (hth : s.threads[c]? = some th) (hframes : th.frames = [.close pc, .client])
  | back {th : Thread Pipeline.Frame Exn} (hth : s.threads[c]? = some th)
      (hframes : th.frames = [.client]) (hc : s.mem.closing = true)

section Calls

variable {name : String} {cap : BitVec 64} {n c : Nat} {q q' : Pipeline.State}
  {l : Pipeline.Step}

/-- A client's own code is the bottom of its stack. -/
theorem over_client {g : Pipeline.Frame} (h : Over .client g) : False := by
  unfold Over Frame.mayCall at h
  split at h <;> simp at h

/-- A client enters `Close`. -/
theorem called_enter (hr : (Pipeline.machine name cap n).Reach (fun _ _ => True) q)
    (hs : Pipeline.Stepped q (.thread (c + 1) (.call .close)) q') : Called q' (c + 1) := by
  cases hs with
  | @move _ _ ctl f rest m nx hth hm =>
    have hlt := (List.getElem?_eq_some_iff.mp hth).1
    have hclient := reach_onClient hr _ _ hth (Nat.succ_ne_zero c) f (List.mem_cons_self ..)
    cases hm with
    | client_enter =>
      have hrest : rest = [] := by
        cases rest with
        | nil => rfl
        | cons g rest => exact (over_client (reach_grounded hr hth).1).elim
      subst hrest
      exact .inside (List.getElem?_set_self hlt) rfl
    | fn_enter | completion_enter => exact absurd hclient (by simp [Pipeline.Frame.onClient])

/-- It goes on inside, or comes out of it with `closing_` set; nothing else moves
it. -/
theorem Called.step (h : Called q c) (hcode : ∀ x, l = .thread c x → x = .code)
    (hs : Pipeline.Stepped q l q') : Called q' c := by
  have hlater := hs.later.closing
  cases hs with
  | expire _ =>
    cases h with
    | inside hth hframes => exact .inside hth hframes
    | back hth hframes hc => exact .back hth hframes hc
  | @move i x ctl f rest m nx hi hm =>
    by_cases hic : i = c
    · subst hic
      obtain rfl := hcode x rfl
      have hlt := (List.getElem?_eq_some_iff.mp hi).1
      cases h with
      | back hth hframes hc =>
        rw [hi, Option.some.injEq] at hth
        subst hth
        obtain ⟨rfl, -⟩ := List.cons.inj hframes
        -- user code moves by what user code does
        cases hm
      | inside hth hframes =>
        rw [hi, Option.some.injEq] at hth
        subst hth
        obtain ⟨rfl, rfl⟩ := List.cons.inj hframes
        cases hm with
        | close_again hc => exact .back (List.getElem?_set_self hlt) rfl hc
        | close_open hc => exact .inside (List.getElem?_set_self hlt) rfl
        | close_enqueue => exact .inside (List.getElem?_set_self hlt) rfl
        | close_set => exact .back (List.getElem?_set_self hlt) rfl rfl
    · cases h with
      | inside hth hframes => exact .inside ((List.getElem?_set_ne hic).trans hth) hframes
      | back hth hframes hc =>
        exact .back ((List.getElem?_set_ne hic).trans hth) hframes (hlater hc)

/-- One who is back has left `closing_` set. -/
theorem Called.closing {ctl : Ctl Exn} (h : Called q c)
    (hback : q.threads[c]? = some ⟨ctl, [.client]⟩) : q.mem.closing = true := by
  cases h with
  | inside hth hframes =>
    rw [hback, Option.some.injEq] at hth
    subst hth
    exact absurd hframes (by simp)
  | back _ _ hc => exact hc

end Calls

/-! ## What `Close` rests on -/

/-- The pipelines before the `k`th are closing. -/
def Mem.ShutBelow (m : Mem) (k : Nat) : Prop :=
  ∀ (j : Nat) (p : Lifetime), j < k → m.pool[j]? = some p → p.state.mem.closing = true

/-- All pipelines are closing. -/
def Mem.AllShut (m : Mem) : Prop :=
  ∀ (k : Nat) (p : Lifetime), m.pool[k]? = some p → p.state.mem.closing = true

/-- Thread `i` has called `Close` of the `k`th pipeline. -/
def Mem.Called (m : Mem) (i k : Nat) : Prop :=
  ∀ p, m.pool[k]? = some p → Threadpool.Called p.state (i + 1)

/-- No `Close` is under way here, but for its test. -/
def Quiet (fs : List Frame) : Prop :=
  .close .set ∉ fs ∧ ∀ k, .close (.loop k) ∉ fs

/-- What the stack of thread `i` rests on. -/
def Shutting (m : Mem) (i : Nat) : List Frame → Prop
  | .close .set :: rest => m.AllShut ∧ Quiet rest
  | .close (.loop k) :: rest => m.ShutBelow k ∧ Quiet rest
  | .calling k b :: .close (.loop k') :: rest =>
    (b = .call .close ∧ k' = k + 1 ∧ m.ShutBelow k) ∧ Quiet rest
  | .inside k :: .close (.loop k') :: rest => (k' = k + 1 ∧ m.ShutBelow k ∧ m.Called i k) ∧
    Quiet rest
  | fs => Quiet fs

/-- Every stack has what it rests on, and `closed_` tells the truth. -/
structure Shut (s : State) : Prop where
  frames : ∀ i th, s.threads[i]? = some th → Shutting s.mem i th.frames
  closed : s.mem.closed = true → s.mem.AllShut

theorem Quiet.shutting (h : Quiet fs) : Shutting m i fs := by
  unfold Shutting
  split
  next => exact absurd (List.mem_cons_self ..) h.1
  next k _ => exact absurd (List.mem_cons_self ..) (h.2 k)
  next k' _ => exact absurd (List.mem_cons_of_mem _ (List.mem_cons_self ..)) (h.2 k')
  next k' _ => exact absurd (List.mem_cons_of_mem _ (List.mem_cons_self ..)) (h.2 k')
  next => exact h

theorem Quiet.cons (h : Quiet fs) (hset : f ≠ .close .set) (hloop : ∀ k, f ≠ .close (.loop k)) :
    Quiet (f :: fs) := by
  refine ⟨fun hmem => ?_, fun k hmem => ?_⟩
  · rcases List.mem_cons.mp hmem with he | hmem
    · exact hset he.symm
    · exact h.1 hmem
  · rcases List.mem_cons.mp hmem with he | hmem
    · exact hloop k he.symm
    · exact h.2 k hmem

theorem Quiet.tail (h : Quiet (f :: fs)) : Quiet fs :=
  ⟨fun hmem => h.1 (List.mem_cons_of_mem _ hmem), fun k hmem => h.2 k (List.mem_cons_of_mem _ hmem)⟩

/-! ## One step -/

/-- A pipeline that is closing is closing. -/
theorem Mem.ShutBelow.step (hpool : Beside S.pipeline m.pool m'.pool) (h : m.ShutBelow k) :
    m'.ShutBelow k := by
  intro j p hj hp
  refine hpool.forall (I := fun j p => j < k → (Lifetime.state p).mem.closing = true)
    (fun j p hp hj => h j p hj hp) ?_ j p hp hj
  intro j p t p' _ hn hI hj
  exact closing_step hn (hI hj)

theorem Mem.AllShut.step (hpool : Beside S.pipeline m.pool m'.pool) (h : m.AllShut) :
    m'.AllShut :=
  hpool.forall (I := fun _ p => (Lifetime.state p).mem.closing = true) h
    fun _ _ _ _ _ hn hI => closing_step hn hI

/-- A turn that is not user code of thread `i` leaves its `Close` alone. -/
theorem Mem.Called.turn (h : m.Called i k) (ht : m.turn S j t = some m')
    (hcode : ∀ b, t = .step (.thread (i + 1) b) → b = .code) : m'.Called i k := by
  obtain ⟨q, q', hq, hn, rfl⟩ := turn_some ht
  intro p hp
  rcases getElem?_set_some hq hp with ⟨rfl, rfl⟩ | ⟨-, hp⟩
  · have hold := h q hq
    rcases (turned_of_next hn).inside with hsame | ⟨b, rfl, -, hn⟩
    · rw [hsame]
      exact hold
    · exact hold.step (fun x hx => hcode x (by rw [hx])) (Pipeline.stepped_of_next hn).1
  · exact h p hp

/-- What a move does to the pipelines, it does as thread `i`. -/
theorem Move.turns (h : Move S i m a ctl f m' nx) :
    m'.pool = m.pool ∨ ∃ k t, m.turn S k t = some m' ∧
      (∀ c b, t = .step (.thread c b) → c = i + 1) ∧ ∀ c, t = .wait c → c = i + 1 := by
  cases h
  case enter hc hd he =>
    rcases entry_some he with rfl | rfl
    · exact Or.inl rfl
    · exact Or.inl rfl
  case calling k b ht =>
    refine Or.inr ⟨k, _, ht, fun c x hx => ?_, by simp⟩
    cases hx
    rfl
  case join_call k hk ht =>
    refine Or.inr ⟨k, _, ht, by simp, fun c hc => ?_⟩
    cases hc
    rfl
  all_goals exact Or.inl rfl

/-- What a stack rests on does not go away. -/
theorem Shutting.step (hpool : Beside S.pipeline m.pool m'.pool)
    (hcalled : ∀ k, m.Called i k → m'.Called i k) (h : Shutting m i fs) : Shutting m' i fs := by
  unfold Shutting at h
  split at h
  next => exact ⟨h.1.step hpool, h.2⟩
  next => exact ⟨h.1.step hpool, h.2⟩
  next => exact ⟨⟨h.1.1, h.1.2.1, h.1.2.2.step hpool⟩, h.2⟩
  next => exact ⟨⟨h.1.1, h.1.2.1.step hpool, hcalled _ h.1.2.2⟩, h.2⟩
  next => exact h.shutting

/-- Where user code enters the pool's functions. -/
theorem entry_frame (h : entry S i m a = some (m', f)) :
    (∃ after, f = .getAnyPipeline after) ∨ (∃ k b, f = .calling k b) ∨ f = .close .test ∨
      f = .joinAll .lock ∨ f = .destructor := by
  unfold entry at h
  split at h <;> try (split at h)
  all_goals simp only [Option.some.injEq, Prod.mk.injEq, reduceCtorEq] at h
  all_goals
    obtain ⟨-, rfl⟩ := h
    simp

/-- User code enters `Close` at its test. -/
theorem entry_quiet (h : entry S i m a = some (m', f)) (hrest : Quiet rest) :
    Quiet (f :: rest) := by
  rcases entry_frame h with ⟨_, rfl⟩ | ⟨_, _, rfl⟩ | rfl | rfl | rfl
  all_goals exact hrest.cons (by simp) (by simp)

/-- A stack goes on to what it has established. -/
theorem Move.shutting (h : Move S i m a ctl f m' nx)
    (hreach : ∀ k p, m.pool[k]? = some p → (S.pipeline k).Reach (fun _ _ => True) p)
    (hback : ∀ k p, f = .inside k → m.pool[k]? = some p →
      ∃ ctl, p.state.threads[i + 1]? = some ⟨ctl, [.client]⟩)
    (hs : Shutting m i (f :: rest)) : Shutting m' i (nx.frames ++ rest) := by
  have hpool := h.pool
  cases h
  case enter f hc hd he =>
    have hrest : Quiet (.client :: rest) := hs
    exact (entry_quiet he hrest).shutting
  case choose =>
    have hrest : Quiet (_ :: rest) := hs
    exact hrest.tail.shutting
  case choose_call c =>
    have hrest : Quiet (_ :: rest) := hs
    exact (hrest.tail.cons (by simp) (by simp)).shutting
  case close_again hc =>
    have hrest : Quiet (_ :: rest) := hs
    exact hrest.tail.shutting
  -- the loop begins with nothing closed
  case close_open hc =>
    have hrest : Quiet (_ :: rest) := hs
    exact ⟨fun j p hj => absurd hj (Nat.not_lt_zero j), hrest.tail⟩
  case close_thr k e => exact hs.2.shutting
  case close_next k hk => exact ⟨⟨rfl, rfl, hs.1⟩, hs.2⟩
  case close_end k hk =>
    refine ⟨fun j p hp => hs.1 j p ?_ hp, hs.2⟩
    have hlt := (List.getElem?_eq_some_iff.mp hp).1
    omega
  -- what the flag stands for is no longer the frame's business
  case close_set => exact hs.2.shutting
  case destructor =>
    have hrest : Quiet (_ :: rest) := hs
    exact ((hrest.tail.cons (by simp) (by simp)).cons (by simp) (by simp)).shutting
  case calling k b ht =>
    unfold Shutting at hs
    split at hs
    next he => exact absurd he (by simp)
    next he => exact absurd he (by simp)
    next k₁ b k' rest he =>
      obtain ⟨⟨rfl, rfl⟩, rfl⟩ := by simpa using he
      obtain ⟨⟨rfl, rfl, hbelow⟩, hrest⟩ := hs
      obtain ⟨q, q', hq, hn, rfl⟩ := turn_some ht
      -- the call of `Close` has been entered, which `called_enter` remembers
      refine ⟨⟨rfl, hbelow.step hpool, fun p hp => ?_⟩, hrest⟩
      rcases getElem?_set_some hq hp with ⟨-, rfl⟩ | ⟨hne, -⟩
      · cases turned_of_next hn with
        | step hl hinner =>
          exact called_enter (reach_inside (hreach k q hq)) (Pipeline.stepped_of_next hinner).1
      · exact absurd rfl hne
    next he => exact absurd he (by simp)
    next => exact (hs.tail.cons (by simp) (by simp)).shutting
  case back k | back_thr k e =>
    unfold Shutting at hs
    split at hs
    next he => exact absurd he (by simp)
    next he => exact absurd he (by simp)
    next he => exact absurd he (by simp)
    next k₁ k' rest he =>
      obtain ⟨rfl, rfl⟩ := by simpa using he
      obtain ⟨⟨rfl, hbelow, hcalled⟩, hrest⟩ := hs
      refine ⟨fun j p hj hp => ?_, hrest⟩
      -- one pipeline more: it was called, and the client is back
      rcases Nat.lt_succ_iff_lt_or_eq.mp hj with hj | rfl
      · exact hbelow j p hj hp
      · obtain ⟨ctl, hclient⟩ := hback j p rfl hp
        exact (hcalled p hp).closing hclient
    next => exact hs.tail.shutting
  case join_unlock =>
    have hrest : Quiet (_ :: rest) := hs
    exact hrest.tail.shutting
  all_goals
    have hrest : Quiet (_ :: rest) := hs
    exact (hrest.tail.cons (by simp) (by simp)).shutting

/-- `closed_` is set behind the loop only. -/
theorem Move.closed (h : Move S i m a ctl f m' nx) : m'.closed = m.closed ∨ f = .close .set := by
  cases h
  case enter hc hd he =>
    rcases entry_some he with rfl | rfl
    · exact Or.inl rfl
    · exact Or.inl rfl
  case calling ht =>
    obtain ⟨p, p', -, -, rfl⟩ := turn_some ht
    exact Or.inl rfl
  case join_call ht =>
    obtain ⟨p, p', -, -, rfl⟩ := turn_some ht
    exact Or.inl rfl
  case close_set => exact Or.inr rfl
  all_goals exact Or.inl rfl

/-- The moving frame takes its step. -/
theorem step_of_next (h : (machine S).next s (.thread i a) = some s')
    (hth : s.threads[i]? = some ⟨ctl, f :: rest⟩) : ∃ r, frameStep S i a ctl s.mem f = some r := by
  have hnext : (program S).next s (.thread i a) = some s' := by
    simp only [machine] at h
    split at h
    next => exact h
    next => exact absurd h (by simp)
  rw [Program.next, hth] at hnext
  obtain ⟨r, hr, -⟩ := Option.map_eq_some_iff.mp hnext
  exact ⟨r, hr⟩

/-- A pipeline takes a turn by itself. -/
theorem alone_of_next (h : (machine S).next s (.env (k, t)) = some s') :
    s.mem.alone k t = true ∧ ∃ m, s.mem.turn S k t = some m := by
  have hnext : (program S).next s (.env (k, t)) = some s' := h
  obtain ⟨m, hm, -⟩ := Option.map_eq_some_iff.mp hnext
  simp only [program] at hm
  split at hm
  next halone => exact ⟨halone, m, hm⟩
  next => exact absurd hm (by simp)

/-- A call comes back when the client is back. -/
theorem back_client (h : (machine S).next s (.thread i a) = some s')
    (hth : s.threads[i]? = some ⟨ctl, .inside k :: rest⟩) (hp : s.mem.pool[k]? = some p) :
    ∃ ctl, p.state.threads[i + 1]? = some ⟨ctl, [.client]⟩ := by
  obtain ⟨r, hr⟩ := step_of_next h hth
  have hin : a = .code ∧ inside i s.mem k = some r := by
    cases a <;> first | exact ⟨rfl, hr⟩ | exact absurd hr (by simp [frameStep])
  have hin := hin.2
  unfold inside at hin
  rw [hp] at hin
  split at hin
  next hth => exact ⟨_, hth⟩
  next hth => exact ⟨_, hth⟩
  next => exact absurd hin (by simp)

/-- A pipeline lets user code of the pool's threads alone. -/
theorem alone_code (h : (machine S).next s (.env (k, .step (.thread (j + 1) b))) = some s') :
    b = .code := by
  obtain ⟨halone, -⟩ := alone_of_next h
  exact eq_of_beq halone

/-- **Closing**: in every reachable state. -/
theorem reach_shut {ok : State → Step → Prop} (h : (machine S).Reach ok s) : Shut s := by
  refine h.invariant (I := Shut) ?_ ?_
  · intro s hinit
    obtain ⟨rfl, -⟩ := hinit
    refine ⟨fun i th hth => ?_, fun hc => absurd hc (by simp [initial])⟩
    obtain rfl : th = ⟨.go, [.client]⟩ := (List.mem_replicate.mp (List.mem_of_getElem? hth)).2
    exact Quiet.shutting ⟨by simp, by simp⟩
  · intro s l s' hr _ hn hI
    have hreach := reach_pipeline hr
    have hs := stepped_of_next hn
    have hpool := hs.pool
    cases hs with
    | @move i a ctl f rest m nx hth hm =>
      have hmine := hI.frames i _ hth
      refine ⟨forall_set (T := fun j th => Shutting m j th.frames) ?_ ?_, fun hc => ?_⟩
      · rw [Next.resume_frames]
        refine hm.shutting hreach (fun k p hf hp => ?_) hmine
        subst hf
        exact back_client hn hth hp
      · intro j th hj hth
        refine (hI.frames j th hth).step hpool fun k hk => ?_
        rcases hm.turns with hsame | ⟨k', t, ht, hwho, -⟩
        · exact fun p hp => hk p (hsame ▸ hp)
        · refine hk.turn ht fun b hb => ?_
          have := hwho _ _ hb
          omega
      · rcases hm.closed with hsame | rfl
        · exact (hI.closed (hsame ▸ hc)).step hpool
        · exact hmine.1.step hpool
    | @alone k t m ht =>
      obtain ⟨p, p', hp, -, rfl⟩ := turn_some ht
      refine ⟨fun i th hth => ?_, fun hc => (hI.closed hc).step hpool⟩
      refine (hI.frames i th hth).step hpool fun k hk => hk.turn ht fun b hb => ?_
      subst hb
      exact alone_code hn

/-! ## Returning -/

/-- `Close` of thread `i` returns. -/
def CloseReturns (S : Setting) (s : State) (i : Nat) (s' : State) : Prop :=
  ∃ a ctl pc rest, s.threads[i]? = some ⟨ctl, .close pc :: rest⟩ ∧
    (machine S).next s (.thread i a) = some s' ∧ s'.threads[i]? = some ⟨.ret, rest⟩

/-- It returns with `closed_` set. -/
theorem closeReturns_closed (hret : CloseReturns S s i s') : s'.mem.closed = true := by
  obtain ⟨a, ctl, pc, rest, hth, hnext, hth'⟩ := hret
  cases stepped_of_next hnext with
  | @move _ _ ctl' f rest' m nx hi hm =>
    obtain ⟨rfl, rfl, rfl⟩ := Thread.top_inj hi hth
    have hlt : i < s.threads.length := (List.getElem?_eq_some_iff.mp hi).1
    rw [List.getElem?_set_self hlt, Option.some.injEq] at hth'
    cases hm with
    | close_again hc => exact hc
    | close_set => rfl
    | close_thr => exact absurd (congrArg Thread.ctl hth') (by simp)
    | close_open | close_next | close_end => exact absurd (congrArg Thread.ctl hth') (by simp)

/-- **Closing the pool is closing it.** Whenever `Close` of a pool returns, to
whichever thread and whether or not it is the one that closed the pipelines,
every pipeline is closing and its shutdown handler has been queued; and in
whatever happens afterwards each pipeline stays so and begins at most one more
function. -/
theorem close_is_final (h : (machine S).Reach (fun _ _ => True) s) (hret : CloseReturns S s i s')
    (hk : k < S.capacity.toNat) :
    ∃ p, s'.mem.pool[k]? = some p ∧ p.state.mem.closing = true ∧
      .enqueued .stop ∈ p.state.mem.trace ∧
      ∀ s'', (machine S).Steps s' s'' → ∃ p'', s''.mem.pool[k]? = some p'' ∧
        p''.state.mem.closing = true ∧
        p''.state.mem.begun.length ≤ p.state.mem.begun.length + 1 := by
  have hclosed := closeReturns_closed hret
  obtain ⟨a, ctl, pc, rest, hth, hnext, hth'⟩ := hret
  have h' := h.step trivial hnext
  have hlt : k < s'.mem.pool.length := by
    rw [reach_length h']
    exact hk
  have hp := List.getElem?_eq_getElem hlt
  have hreach := reach_pipeline h' k _ hp
  have hc := (reach_shut h').closed hclosed k _ hp
  refine ⟨_, hp, hc, closing_stop (reach_inside hreach) hc, fun s'' hsteps => ?_⟩
  obtain ⟨p'', hp'', hsteps''⟩ := steps_pipeline hsteps hp
  exact ⟨p'', hp'', (closing_steps hc hsteps'').1, begins_once hreach hc hsteps''⟩

/-- The only thread of a program closes a pool of one pipeline. -/
theorem close_is_final_one : ∃ s s' p,
    (machine { numThreads := 1, users := 1 }).Reach (fun _ _ => True) s ∧
      CloseReturns { numThreads := 1, users := 1 } s 0 s' ∧ s'.mem.pool[0]? = some p ∧
      p.state.mem.closing = true ∧ .enqueued .stop ∈ p.state.mem.trace := by
  let steps : List Step := along 0 constructing ++ [.thread 0 .close] ++
    List.replicate 3 (.thread 0 .code) ++ along 0 (List.replicate 3 (.step (.thread 1 .code))) ++
    List.replicate 2 (.thread 0 .code)
  have hrun : (((machine { numThreads := 1, users := 1 }).guardedRun (fun _ _ => True)
      (initial { numThreads := 1, users := 1 }) steps).bind fun s =>
      ((machine { numThreads := 1, users := 1 }).next s (.thread 0 .code)).map fun s' =>
        (s.threads[0]?, s'.threads[0]?)) =
      some (some ⟨.go, [.close .set, .client]⟩, some ⟨.ret, [.client]⟩) := rfl
  obtain ⟨s, hsteps, hs⟩ := Option.bind_eq_some_iff.mp hrun
  obtain ⟨s', hnext, hs'⟩ := Option.map_eq_some_iff.mp hs
  obtain ⟨hth, hth'⟩ := Prod.mk.inj hs'
  have hinit : (machine { numThreads := 1, users := 1 }).Reach (fun _ _ => True)
      (initial { numThreads := 1, users := 1 }) := .start ⟨rfl, by decide⟩
  have hreach := Lts.reach_of_guardedRun hinit hsteps
  have hret : CloseReturns { numThreads := 1, users := 1 } s 0 s' :=
    ⟨.code, .go, .set, [.client], hth, hnext, hth'⟩
  obtain ⟨p, hp, hc, hstop, -⟩ := close_is_final hreach hret (k := 0) (by decide)
  exact ⟨s, s', p, hreach, hret, hp, hc, hstop⟩

end Warlib.Threadpool
