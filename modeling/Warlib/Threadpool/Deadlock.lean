import Warlib.Machine.Mutex
import Warlib.Pipeline.Release
import Warlib.Threadpool.Closing
import Warlib.Threadpool.Joining

/-!
# Who waits for whom

`Joining.lean` says when `JoinAll` may return; this file says what it can wait
for. Whoever is in it waits for `close_mutex_`, whose owner is in it too and past
the lock (`reach_owned`), or for the `k`th pipeline. There its `WaitUntilClosed`
can be called, since a thread of the pool that is elsewhere is the client of
every pipeline and waits for none (`Placed`); and once called it comes back when
the worker does, since a pool that was closed has queued every shutdown handler
(`Closing.lean`, `Pipeline/Release.lean`).

What a worker waits for is another matter: a task may wait for the pipeline of
another worker (`Awaits`). Whose task a thread of the pool stands for is in `home`,
which is any function. After `Close` somebody can go on, or a task waits for a
pipeline that has ended, or the workers wait for one another in a circle
(`join_progress`).
-/

namespace Warlib.Threadpool

open Warlib.Machine Warlib.Pipeline

variable {S : Setting} {i j k : Nat} {a : Act} {ctl : Ctl Exn} {m m' : Mem} {f : Frame}
  {rest fs : List Frame} {nx : Next Frame Exn} {s s' : State} {t : Turn} {p p' : Lifetime}
  {ok : State → Step → Prop} {home : Nat → Nat}

/-! ## Where the clients of the pipelines are -/

section Clients

variable {name : String} {cap : BitVec 64} {n c : Nat}

/-- A client that calls nothing stays where it is. -/
theorem client_stays (hnext : (lifetime name cap n).next p t = some p')
    (hcode : ∀ b, t = .step (.thread c b) → b = .code)
    (hclient : p.state.threads[c]?.map Thread.frames = some [.client]) :
    p'.state.threads[c]?.map Thread.frames = some [.client] := by
  rcases (turned_of_next hnext).inside with hsame | ⟨l, rfl, -, hn⟩
  · rw [hsame]
    exact hclient
  · have hs := (Pipeline.stepped_of_next hn).1
    revert hs
    generalize p'.state = q'
    intro hs
    cases hs with
    | expire _ => exact hclient
    | @move i x ctl f rest m nx hth hm =>
      by_cases hi : i = c
      · subst hi
        -- the client's own frame has no step that is not user code
        obtain rfl := hcode x rfl
        rw [hth, Option.map_some, Option.some.injEq] at hclient
        obtain ⟨rfl, -⟩ := List.cons.inj hclient
        cases hm
      · rw [List.getElem?_set_ne hi]
        exact hclient

/-- A client that does not wait starts to by calling `WaitUntilClosed`. -/
theorem idle_stays (hnext : (lifetime name cap n).next p t = some p') (hwait : t ≠ .wait c)
    (hidle : p.waiting c = .idle) : p'.waiting c = .idle := by
  have hset : ∀ d pc, d ≠ c → (p.setWaiting d pc).waiting c = .idle := by
    intro d pc hd
    rw [Lifetime.setWaiting]
    simpa [Ne.symm hd] using hidle
  cases turned_of_next hnext with
  | @call d hd hc hth => exact hset d .lock fun he => hwait (by rw [he])
  | @acquire d hd hw => exact hset d .unlock fun he => hwait (by rw [he])
  | @release d hd => exact hset d .idle fun he => hwait (by rw [he])
  | _ => exact hidle

end Clients

/-- The program points of `JoinAll` behind the lock. -/
@[simp] def Frame.holds : Frame → Nat
  | .joinAll .lock => 0
  | .joinAll _ => 1
  | _ => 0

/-- A thread whose stack is `fs`: client `i + 1` of every pipeline, inside the one it
has called and waiting for the one it is waiting for; and nobody calls anything
while it has the lock. -/
structure Placed (m : Mem) (i : Nat) (fs : List Frame) : Prop where
  inside : ∀ k p, m.pool[k]? = some p → fs.head? = some (.inside k) ∨
    p.state.threads[i + 1]?.map Thread.frames = some [.client]
  waiting : ∀ k p, m.pool[k]? = some p → fs.head? = some (.joinAll (.waiting k)) ∨
    p.waiting (i + 1) = .idle
  bound : ∀ k, .joinAll (.waiting k) ∈ fs → k < m.pool.length
  tail : ∀ g ∈ fs.tail, g.holds = 0

/-- A turn that thread `i` does not take leaves it in its place. -/
theorem Placed.turn (h : Placed m i fs) (ht : m.turn S k t = some m')
    (hcode : ∀ b, t = .step (.thread (i + 1) b) → b = .code)
    (hwait : t = .wait (i + 1) → ∀ p, m.pool[k]? = some p → p.waiting (i + 1) ≠ .idle) :
    Placed m' i fs := by
  obtain ⟨q, q', hq, hn, rfl⟩ := turn_some ht
  refine ⟨fun k' p hp => ?_, fun k' p hp => ?_, fun k' hk' => ?_, h.tail⟩
  · rcases getElem?_set_some hq hp with ⟨rfl, rfl⟩ | ⟨-, hp⟩
    · exact (h.inside k' q hq).imp_right (client_stays hn hcode)
    · exact h.inside k' p hp
  · rcases getElem?_set_some hq hp with ⟨rfl, rfl⟩ | ⟨-, hp⟩
    · refine (h.waiting k' q hq).imp_right fun hidle => ?_
      exact idle_stays hn (fun he => hwait he q hq hidle) hidle
    · exact h.waiting k' p hp
  · rw [List.length_set]
    exact h.bound k' hk'

/-- A thread goes on in place, when it is in no pipeline before and after. -/
theorem Placed.move (h : Placed m i (f :: rest)) (hpool : m'.pool = m.pool)
    (hinside : ∀ k, f ≠ .inside k) (hwaiting : ∀ k, f ≠ .joinAll (.waiting k))
    (hframes : ∀ k, .joinAll (.waiting k) ∉ nx.frames)
    (htail : ∀ g ∈ (nx.frames ++ rest).tail, g.holds = 0) : Placed m' i (nx.frames ++ rest) := by
  refine ⟨fun k p hp => Or.inr ?_, fun k p hp => Or.inr ?_, fun k hk => ?_, htail⟩
  · refine (h.inside k p (hpool ▸ hp)).resolve_left fun he => ?_
    exact hinside k (Option.some.inj he)
  · refine (h.waiting k p (hpool ▸ hp)).resolve_left fun he => ?_
    exact hwaiting k (Option.some.inj he)
  · rw [hpool]
    rcases List.mem_append.mp hk with hk | hk
    · exact absurd hk (hframes k)
    · exact h.bound k (List.mem_cons_of_mem _ hk)

/-- What user code enters has no lock and is in no pipeline yet. -/
theorem entry_outside (h : entry S i m a = some (m', f)) :
    f.holds = 0 ∧ ∀ k, f ≠ .joinAll (.waiting k) := by
  rcases entry_frame h with ⟨_, rfl⟩ | ⟨_, _, rfl⟩ | rfl | rfl | rfl
  all_goals exact ⟨rfl, by simp⟩

/-- A thread's own move. -/
theorem Move.placed (h : Move S i m a ctl f m' nx) (hp : Placed m i (f :: rest))
    (hback : ∀ k p, f = .inside k → m.pool[k]? = some p →
      ∃ ctl, p.state.threads[i + 1]? = some ⟨ctl, [.client]⟩) :
    Placed m' i (nx.frames ++ rest) := by
  have htail : ∀ g ∈ rest, g.holds = 0 := hp.tail
  have hrest : ∀ g ∈ rest.tail, g.holds = 0 := fun g hg => htail g (List.mem_of_mem_tail hg)
  have hcons : ∀ g : Frame, g.holds = 0 → ∀ x ∈ g :: rest, x.holds = 0 := by
    intro g hg x hx
    rcases List.mem_cons.mp hx with rfl | hx
    · exact hg
    · exact htail x hx
  cases h
  case enter g hc hd he =>
    have hpool : m'.pool = m.pool := by
      rcases entry_some he with rfl | rfl
      · rfl
      · rfl
    refine hp.move hpool (by simp) (by simp) (fun k hk => ?_) (hcons .client rfl)
    rcases List.mem_pair.mp hk with he' | he'
    · exact (entry_outside he).2 k he'.symm
    · exact absurd he' (by simp)
  -- the thread goes into the `k`th pipeline, and is a client of the others
  case calling k b ht =>
    obtain ⟨q, q', hq, hn, rfl⟩ := turn_some ht
    refine ⟨fun k' p hk' => ?_, fun k' p hk' => Or.inr ?_, fun k' hk' => ?_, htail⟩
    · rcases getElem?_set_some hq hk' with ⟨rfl, -⟩ | ⟨-, hk'⟩
      · exact Or.inl rfl
      · exact Or.inr ((hp.inside k' p hk').resolve_left (by simp))
    · rcases getElem?_set_some hq hk' with ⟨rfl, rfl⟩ | ⟨-, hk'⟩
      · exact idle_stays hn (by simp) ((hp.waiting k' q hq).resolve_left (by simp))
      · exact (hp.waiting k' p hk').resolve_left (by simp)
    · rw [List.length_set]
      exact hp.bound k' (by simpa using hk')
  -- a call comes back where the client is a client again
  case back k | back_thr k e =>
    refine ⟨fun k' p hk' => Or.inr ?_, fun k' p hk' => Or.inr ?_, fun k' hk' => ?_, hrest⟩
    · by_cases hkk : k = k'
      · subst hkk
        obtain ⟨ctl, hclient⟩ := hback k p rfl hk'
        rw [hclient]
        rfl
      · exact (hp.inside k' p hk').resolve_left (by simpa using hkk)
    · exact (hp.waiting k' p hk').resolve_left (by simp)
    · exact hp.bound k' (List.mem_cons_of_mem _ hk')
  -- it waits for the `k`th pipeline from now on, and stays its client
  case join_call k hk ht =>
    obtain ⟨q, q', hq, hn, rfl⟩ := turn_some ht
    refine ⟨fun k' p hk' => Or.inr ?_, fun k' p hk' => ?_, fun k' hk' => ?_, htail⟩
    · rcases getElem?_set_some hq hk' with ⟨rfl, rfl⟩ | ⟨-, hk'⟩
      · exact client_stays hn (by simp) ((hp.inside k' q hq).resolve_left (by simp))
      · exact (hp.inside k' p hk').resolve_left (by simp)
    · rcases getElem?_set_some hq hk' with ⟨rfl, -⟩ | ⟨-, hk'⟩
      · exact Or.inl rfl
      · exact Or.inr ((hp.waiting k' p hk').resolve_left (by simp))
    · rw [List.length_set]
      rcases List.mem_cons.mp hk' with he | hk'
      · cases he
        exact hk
      · exact hp.bound k' (List.mem_cons_of_mem _ hk')
  -- what the loop saw: nobody waits for it there any more
  case join_waited k q hq hw =>
    refine ⟨fun k' p hk' => Or.inr ?_, fun k' p hk' => Or.inr ?_, fun k' hk' => ?_, htail⟩
    · exact (hp.inside k' p hk').resolve_left (by simp)
    · by_cases hkk : k = k'
      · subst hkk
        rw [hq, Option.some.injEq] at hk'
        subst hk'
        exact hw
      · exact (hp.waiting k' p hk').resolve_left (by simpa using hkk)
    · exact hp.bound k' (List.mem_cons_of_mem _ (by simpa using hk'))
  case close_next k hk =>
    exact hp.move rfl (by simp) (by simp) (by simp) (hcons _ rfl)
  case destructor => exact hp.move rfl (by simp) (by simp) (by simp) (hcons _ rfl)
  all_goals first
    | exact hp.move rfl (by simp) (by simp) (by simp) htail
    | exact hp.move rfl (by simp) (by simp) (by simp) hrest

/-- What a pipeline does by itself is code of its clients, and `WaitUntilClosed` only
where it has been called. -/
theorem alone_quiet (h : (machine S).next s (.env (k, t)) = some s') :
    (∀ c b, t = .step (.thread (c + 1) b) → b = .code) ∧
      ∀ c, t = .wait c → ∀ p, s.mem.pool[k]? = some p → p.waiting c ≠ .idle := by
  obtain ⟨halone, -⟩ := alone_of_next h
  refine ⟨fun c b ht => ?_, fun c ht p hp hidle => ?_⟩
  · subst ht
    exact eq_of_beq halone
  · subst ht
    simp [Mem.alone, hp, hidle] at halone

/-- Every thread is in its place. -/
theorem reach_placed (h : (machine S).Reach ok s) :
    ∀ i th, s.threads[i]? = some th → Placed s.mem i th.frames := by
  refine h.invariant (I := fun s => ∀ i th, s.threads[i]? = some th → Placed s.mem i th.frames)
    ?_ ?_
  · intro s hinit i th hth
    obtain ⟨rfl, -⟩ := hinit
    obtain rfl : th = ⟨.go, [.client]⟩ := (List.mem_replicate.mp (List.mem_of_getElem? hth)).2
    have hlt : i < S.threads := by
      have hlt := (List.getElem?_eq_some_iff.mp hth).1
      rwa [initial, List.length_replicate] at hlt
    refine ⟨fun k p hp => Or.inr ?_, fun k p hp => Or.inr ?_, fun k hk => ?_, by simp⟩
    · rw [initial, List.getElem?_map, Option.map_eq_some_iff] at hp
      obtain ⟨k', -, rfl⟩ := hp
      show (List.replicate S.threads (⟨.go, [.client]⟩ : Thread Pipeline.Frame Exn))[i]?.map
        Thread.frames = _
      rw [List.getElem?_replicate, if_pos hlt]
      rfl
    · rw [initial, List.getElem?_map, Option.map_eq_some_iff] at hp
      obtain ⟨k', -, rfl⟩ := hp
      rfl
    · exact absurd hk (by simp)
  · intro s l s' hr _ hn hI
    cases stepped_of_next hn with
    | @move i a ctl f rest m nx hth hm =>
      refine forall_set (T := fun j th => Placed m j th.frames) ?_ fun j th hj hthj => ?_
      · rw [Next.resume_frames]
        refine hm.placed (hI i _ hth) fun k p hf hp => ?_
        subst hf
        exact back_client hn hth hp
      · rcases hm.turns with hsame | ⟨k, t, ht, hstep, hwait⟩
        · have hold := hI j th hthj
          refine ⟨fun k p hp => hold.inside k p (hsame ▸ hp),
            fun k p hp => hold.waiting k p (hsame ▸ hp), fun k hk => ?_, hold.tail⟩
          rw [hsame]
          exact hold.bound k hk
        · refine (hI j th hthj).turn ht (fun b hb => ?_) fun hb => ?_
          · have := hstep _ _ hb
            omega
          · have := hwait _ hb
            omega
    | @alone k t m ht =>
      obtain ⟨hcode, hwait⟩ := alone_quiet hn
      exact fun i th hth => (hI i th hth).turn ht (hcode i) (hwait (i + 1))

/-! ## Who has the lock -/

theorem Move.locks (h : Move S i m a ctl f m' nx) :
    LockMove Frame.holds i f nx m.closeMutex m'.closeMutex := by
  cases h with
  | enter hc hd he =>
    have hsame : m'.closeMutex = m.closeMutex := by
      rcases entry_some he with rfl | rfl
      · rfl
      · rfl
    rw [hsame]
    refine .alone ?_
    show weigh Frame.holds [_, .client] = 0
    rw [weigh_cons, (entry_outside he).1]
    rfl
  | calling k b ht =>
    obtain ⟨p, p', -, -, rfl⟩ := turn_some ht
    exact .alone rfl
  | join_call k hk ht =>
    obtain ⟨p, p', -, -, rfl⟩ := turn_some ht
    exact .alone rfl
  | join_lock hm =>
    rw [hm]
    exact .acquire rfl
  | join_unlock => exact .release rfl
  | _ => exact .alone rfl

/-- `close_mutex_` is held by the thread that is in `JoinAll` behind the lock. -/
theorem reach_owned (h : (machine S).Reach ok s) :
    Owned Frame.holds s.mem.closeMutex s.threads := by
  refine reach_invariant (I := fun s => Owned Frame.holds s.mem.closeMutex s.threads) h ?_ ?_
  · intro i th hth
    obtain rfl : th = ⟨.go, [.client]⟩ := (List.mem_replicate.mp (List.mem_of_getElem? hth)).2
    rfl
  · intro s l s' _ _ hs hI
    cases hs with
    | move hth hm => exact hI.move hth hm.locks
    | alone ht =>
      obtain ⟨p, p', -, -, rfl⟩ := turn_some ht
      exact hI

/-- It is one of the threads. -/
theorem reach_owner (h : (machine S).Reach ok s) :
    ∀ j, s.mem.closeMutex = some j → j < s.threads.length := by
  refine reach_invariant (I := fun s => ∀ j, s.mem.closeMutex = some j → j < s.threads.length)
    h (by simp [initial]) ?_
  intro s l s' _ _ hs hI
  cases hs with
  | @move i a ctl f rest m nx hth hm =>
    show ∀ j, m.closeMutex = some j → j < (s.threads.set i (nx.resume rest)).length
    rw [List.length_set]
    exact hm.locks.owner_lt hI (List.getElem?_eq_some_iff.mp hth).1
  | alone ht =>
    obtain ⟨p, p', -, -, rfl⟩ := turn_some ht
    exact hI

/-! ## The pool is constructed -/

/-- A pipeline whose constructor has returned keeps it that way. -/
theorem constructed_of_turn (ht : m.turn S k t = some m') (h : m.constructed = true) :
    m'.constructed = true := by
  obtain ⟨q, q', hq, hn, rfl⟩ := turn_some ht
  rw [Mem.constructed, List.all_eq_true] at h ⊢
  intro p hp
  obtain ⟨k', hp⟩ := List.mem_iff_getElem?.mp hp
  rcases getElem?_set_some hq hp with ⟨-, rfl⟩ | ⟨-, hp⟩
  · have hret : q.ctor = .returned := eq_of_beq (h q (List.mem_of_getElem? hq))
    refine beq_iff_eq.mpr ?_
    cases turned_of_next hn with
    | start hc => exact absurd (hret.symm.trans hc) (by simp)
    | returned hc => rfl
    | rethrew hc => exact absurd (hret.symm.trans hc) (by simp)
    | _ => exact hret
  · exact h p (List.mem_of_getElem? hp)

/-- Whoever uses the pool uses one that has been constructed. -/
theorem reach_constructed (h : (machine S).Reach ok s) :
    ∀ (i : Nat) (th : Thread Frame Exn), s.threads[i]? = some th → th.frames ≠ [.client] →
      s.mem.constructed = true := by
  refine reach_invariant (I := fun s => ∀ (i : Nat) (th : Thread Frame Exn),
    s.threads[i]? = some th → th.frames ≠ [.client] → s.mem.constructed = true) h ?_ ?_
  · intro i th hth hframes
    obtain rfl : th = ⟨.go, [.client]⟩ := (List.mem_replicate.mp (List.mem_of_getElem? hth)).2
    exact absurd rfl hframes
  · intro s l s' hr _ hs hI
    have hkeep : s.mem.constructed = true → s'.mem.constructed = true := by
      intro hc
      cases hs with
      | @move i a ctl f rest m nx hth hm =>
        rcases hm.turns with hsame | ⟨k, t, ht, -, -⟩
        · show m.pool.all _ = true
          rw [hsame]
          exact hc
        · exact constructed_of_turn ht hc
      | alone ht => exact constructed_of_turn ht hc
    cases hs with
    | @move i a ctl f rest m nx hth hm =>
      refine forall_set (T := fun _ th => th.frames ≠ [.client] → m.constructed = true)
        (fun _ => ?_) fun j th _ hj hframes => hkeep (hI j th hj hframes)
      cases hm with
      | enter hc hd he => exact hkeep hc
      | _ => exact hkeep (hI i _ hth (by simp))
    | alone ht => exact fun i th hth hframes => hkeep (hI i th hth hframes)

/-- Of each of its pipelines the constructor has returned. -/
theorem reach_returned (h : (machine S).Reach ok s) {th : Thread Frame Exn}
    (hth : s.threads[i]? = some th) (hframes : th.frames ≠ [.client])
    (hp : s.mem.pool[k]? = some p) : p.ctor = .returned :=
  eq_of_beq (List.all_eq_true.mp (reach_constructed h i th hth hframes) p
    (List.mem_of_getElem? hp))

/-! ## Somebody can go on -/

/-- Thread `i` is in `JoinAll`. -/
def InJoin (s : State) (i : Nat) : Prop :=
  ∃ ctl pc rest, s.threads[i]? = some ⟨ctl, .joinAll pc :: rest⟩

/-- A task of worker `k` waits for the `j`th pipeline: it is in its
`PostSynchronously`, and nobody has satisfied the promise. Its calls are made by
thread `i`, and `home i` is its worker; on its own pipeline the worker makes them. -/
def Awaits (S : Setting) (home : Nat → Nat) (s : State) (k j : Nat) : Prop :=
  ∃ i ctl rest p id, S.users ≤ i ∧ home i = k ∧
    s.threads[i]? = some ⟨ctl, .inside j :: rest⟩ ∧ s.mem.pool[j]? = some p ∧
    p.state.top? (i + 1) = some (.postSynchronously .waiting id) ∧
    p.state.mem.promises (.sync id) = none

/-- A step of a thread in `JoinAll` is possible, or one of a pipeline's `Run`, of a
`WaitUntilClosed` that has been called on it, or of its worker. A worker whose task
waits for another pipeline has none. -/
def CanGo (S : Setting) (home : Nat → Nat) (s : State) : Prop :=
  (∃ i s', InJoin s i ∧ (machine S).next s (.thread i .code) = some s') ∨
    (∃ k fails s', (machine S).next s (.env (k, .run fails)) = some s') ∨
    (∃ k c s', (machine S).next s (.env (k, .wait c)) = some s') ∨
    ∃ (k : Nat) (p : Lifetime), s.mem.pool[k]? = some p ∧ p.run = .loop ∧ Able p.state ∧
      ∀ j, ¬Awaits S home s k j

/-- Some worker waits for ever in a `PostSynchronously` of its own. -/
def SomeStranded (s : State) : Prop :=
  ∃ (k : Nat) (p : Lifetime) (id : Nat), s.mem.pool[k]? = some p ∧ Stranded p.state id

/-- Some task waits for a pipeline that has ended. -/
def SomeForsaken (S : Setting) (home : Nat → Nat) (s : State) : Prop :=
  ∃ (k j : Nat) (p : Lifetime), Awaits S home s k j ∧ s.mem.pool[j]? = some p ∧ Ended p.state

/-- Some workers wait for one another in a circle. -/
def InCircle (S : Setting) (home : Nat → Nat) (s : State) : Prop :=
  ∃ k, Relation.TransGen (Awaits S home s) k k

theorem InCircle.awaits (h : InCircle S home s) : ∃ k j, Awaits S home s k j := by
  obtain ⟨k, hk⟩ := h
  obtain ⟨j, hkj, -⟩ := Relation.TransGen.head'_iff.mp hk
  exact ⟨k, j, hkj⟩

/-- What a turn does. -/
theorem turn_of_next (hp : m.pool[k]? = some p) (hn : (S.pipeline k).next p t = some p') :
    m.turn S k t = some { m with pool := m.pool.set k p' } := by
  unfold Mem.turn
  rw [hp]
  show ((S.pipeline k).next p t).map _ = _
  rw [hn]
  rfl

/-- A turn of one pipeline by itself is a step of the pool. -/
theorem next_alone (hp : s.mem.pool[k]? = some p) (halone : s.mem.alone k t = true)
    (hn : (S.pipeline k).next p t = some p') :
    ∃ s', (machine S).next s (.env (k, t)) = some s' := by
  refine ⟨⟨{ s.mem with pool := s.mem.pool.set k p' }, s.threads⟩, ?_⟩
  show (program S).next s (.env (k, t)) = _
  rw [Program.next]
  show (if s.mem.alone k t then s.mem.turn S k t else none).map _ = _
  rw [if_pos halone, turn_of_next hp hn]
  rfl

/-- Nobody can go on when no thread can in `JoinAll`, no pipeline by itself, and every
worker in its loop has a task that waits. -/
theorem not_canGo
    (hjoin : ∀ i, InJoin s i → ∀ s', (machine S).next s (.thread i .code) ≠ some s')
    (hrun : ∀ (k : Nat) (p : Lifetime), s.mem.pool[k]? = some p → ∀ fails, p.runStep fails = none)
    (hwait : ∀ (k : Nat) (p : Lifetime), s.mem.pool[k]? = some p → ∀ c, p.waiting c ≠ .idle →
      p.waitUntilClosed c = none)
    (hworker : ∀ (k : Nat) (p : Lifetime), s.mem.pool[k]? = some p → p.run = .loop →
      ∃ j, Awaits S home s k j) :
    ¬CanGo S home s := by
  rintro (⟨i, s', hi, hnext⟩ | ⟨k, fails, s', hnext⟩ | ⟨k, c, s', hnext⟩ |
    ⟨k, p, hp, hloop, -, hnone⟩)
  · exact hjoin i hi s' hnext
  · obtain ⟨-, m, ht⟩ := alone_of_next hnext
    obtain ⟨p, p', hp, hstep, -⟩ := turn_some ht
    have hstep : p.runStep fails = some p' := hstep
    exact absurd (hstep.symm.trans (hrun k p hp fails)) (by simp)
  · obtain ⟨-, m, ht⟩ := alone_of_next hnext
    obtain ⟨p, p', hp, hstep, -⟩ := turn_some ht
    have hstep : p.waitUntilClosed c = some p' := hstep
    have hbusy := (alone_quiet hnext).2 c rfl p hp
    exact absurd (hstep.symm.trans (hwait k p hp c hbusy)) (by simp)
  · obtain ⟨j, hj⟩ := hworker k p hp hloop
    exact hnone j hj

/-- So it is when every worker is in its loop and waits. -/
theorem not_canGo_waiting (h : (machine S).Reach ok s)
    (hjoin : ∀ i, InJoin s i → ∀ s', (machine S).next s (.thread i .code) ≠ some s')
    (hloop : ∀ (k : Nat) (p : Lifetime), s.mem.pool[k]? = some p → p.run = .loop ∧
      p.state.threads[0]?.map Thread.frames ≠ some [])
    (hwaits : ∀ (k : Nat) (p : Lifetime), s.mem.pool[k]? = some p → ∃ j, Awaits S home s k j) :
    ¬CanGo S home s := by
  refine not_canGo hjoin (fun k p hp fails => ?_) (fun k p hp c hc => ?_)
    fun k p hp _ => hwaits k p hp
  · obtain ⟨hrun, halive⟩ := hloop k p hp
    rw [Lifetime.runStep, hrun]
    exact if_neg halive
  · -- a worker in its loop has `waiter_`
    have hshake := reach_handshake (reach_pipeline h k p hp)
    have hwaiter : p.waiter = some .worker := hshake.worker.mpr (by rw [(hloop k p hp).1]; rfl)
    exact hshake.held hwaiter hc

/-- A thread in `JoinAll` goes on when its program point does. -/
theorem next_join {pc : JoinPc} {r : Result} (hth : s.threads[i]? = some ⟨ctl, .joinAll pc :: rest⟩)
    (hr : joinAll S i s.mem pc = some r) : CanGo S home s :=
  Or.inl ⟨i, _, ⟨ctl, pc, rest, hth⟩, next_thread rfl hth hr⟩

/-- A worker that has a next step takes it, or a task of it waits. -/
theorem able_goes (hp : s.mem.pool[k]? = some p) (hloop : p.run = .loop) (hable : Able p.state) :
    CanGo S home s ∨ ∃ j, Awaits S home s k j := by
  by_cases hwaits : ∃ j, Awaits S home s k j
  · exact Or.inr hwaits
  · exact Or.inl (Or.inr (Or.inr (Or.inr ⟨k, p, hp, hloop, hable, not_exists.mp hwaits⟩)))

/-- Behind the lock. -/
theorem owner_progress (h : (machine S).Reach ok s) (hc : s.mem.closed = true)
    {pc : JoinPc} (hth : s.threads[i]? = some ⟨ctl, .joinAll pc :: rest⟩) (hpc : pc ≠ .lock) :
    CanGo S home s ∨ SomeStranded s ∨ ∃ k j, Awaits S home s k j := by
  have hplaced := reach_placed h i _ hth
  have hreach := reach_pipeline h
  cases pc with
  | lock => exact absurd rfl hpc
  | test =>
    by_cases hf : s.mem.finished = true
    · exact Or.inl (next_join hth (if_pos hf))
    · exact Or.inl (next_join hth (if_neg hf))
  | finish => exact Or.inl (next_join hth rfl)
  | unlock => exact Or.inl (next_join hth rfl)
  | loop k =>
    by_cases hk : k < s.mem.pool.length
    · -- `WaitUntilClosed` of the `k`th pipeline can be called
      obtain ⟨q, hq⟩ : ∃ q, s.mem.pool[k]? = some q := ⟨_, List.getElem?_eq_getElem hk⟩
      have hidle := (hplaced.waiting k q hq).resolve_left (by simp)
      have hclient := (hplaced.inside k q hq).resolve_left (by simp)
      have hreturned := reach_returned h hth (by simp) hq
      have hcall : (S.pipeline k).next q (.wait (i + 1)) = some (q.setWaiting (i + 1) .lock) := by
        show q.waitUntilClosed (i + 1) = _
        rw [Lifetime.waitUntilClosed, hidle]
        exact if_pos ⟨hreturned, hclient⟩
      have hjoin : joinAll S i s.mem (.loop k) =
          some ({ s.mem with pool := s.mem.pool.set k (q.setWaiting (i + 1) .lock) },
            .goto (.joinAll (.waiting k))) := by
        rw [joinAll, if_pos hk, turn_of_next hq hcall]
        rfl
      exact Or.inl (next_join hth hjoin)
    · exact Or.inl (next_join hth (if_neg hk))
  | waiting k =>
    have hk := hplaced.bound k (List.mem_cons_self ..)
    obtain ⟨q, hq⟩ : ∃ q, s.mem.pool[k]? = some q := ⟨_, List.getElem?_eq_getElem hk⟩
    by_cases hidle : q.waiting (i + 1) = .idle
    · refine Or.inl (next_join hth (if_pos ?_))
      rw [hq, Option.map_some, hidle]
    · have hstop := closing_stop (reach_inside (hreach k q hq)) ((reach_shut h).closed hc k q hq)
      rcases wait_progress (hreach k q hq) hidle hstop with hgo | ⟨id, hid⟩
      · rcases hgo with ⟨fails, p', hn⟩ | ⟨c, p', hbusy, hn⟩ | ⟨hloop, hable⟩
        · obtain ⟨s', hs'⟩ := next_alone hq rfl hn
          exact Or.inl (Or.inr (Or.inl ⟨k, fails, s', hs'⟩))
        · have halone : s.mem.alone k (.wait c) = true := by
            rw [Mem.alone, hq, Option.map_some]
            simpa using hbusy
          obtain ⟨s', hs'⟩ := next_alone hq halone hn
          exact Or.inl (Or.inr (Or.inr (Or.inl ⟨k, c, s', hs'⟩)))
        · exact (able_goes hq hloop hable).imp_right fun hwaits => Or.inr ⟨k, hwaits⟩
      · exact Or.inr (Or.inl ⟨k, q, id, hq, hid⟩)

/-- The owner of `close_mutex_` is in `JoinAll` behind the lock, and calls nothing. -/
theorem owner_top (h : (machine S).Reach ok s) (hlock : s.mem.closeMutex = some j)
    {th : Thread Frame Exn} (hth : s.threads[j]? = some th) :
    ∃ ctl pc rest, th = ⟨ctl, .joinAll pc :: rest⟩ ∧ pc ≠ .lock := by
  obtain ⟨ctl, fs⟩ := th
  have hweigh := reach_owned h j _ hth
  have hplaced := reach_placed h j _ hth
  rw [if_pos hlock] at hweigh
  cases fs with
  | nil => exact absurd hweigh (by simp)
  | cons f rest =>
    -- nothing below the top frame is inside, so the top frame is
    have hrest : weigh Frame.holds rest = 0 := weigh_eq_zero hplaced.tail
    have hweigh : weigh Frame.holds (f :: rest) = 1 := hweigh
    rw [weigh_cons, hrest] at hweigh
    cases f with
    | joinAll pc =>
      refine ⟨ctl, pc, rest, rfl, fun he => ?_⟩
      subst he
      exact absurd hweigh (by simp)
    | _ => exact absurd hweigh (by simp)

/-- Nobody in `JoinAll` waits for nothing. -/
theorem joiner_progress (h : (machine S).Reach ok s) (hc : s.mem.closed = true)
    (hjoin : InJoin s i) : CanGo S home s ∨ SomeStranded s ∨ ∃ k j, Awaits S home s k j := by
  obtain ⟨ctl, pc, rest, hth⟩ := hjoin
  by_cases hpc : pc = .lock
  -- waiting for the lock is waiting for its owner
  · subst hpc
    cases hlock : s.mem.closeMutex with
    | none =>
      have hjoin : joinAll S i s.mem .lock =
          some ({ s.mem with closeMutex := some i }, .goto (.joinAll .test)) := by
        rw [joinAll, hlock]
      exact Or.inl (next_join hth hjoin)
    | some j =>
      obtain ⟨th, hj⟩ : ∃ th, s.threads[j]? = some th :=
        ⟨_, List.getElem?_eq_getElem (reach_owner h j hlock)⟩
      obtain ⟨ctl', pc, rest', rfl, hpc⟩ := owner_top h hlock hj
      exact owner_progress h hc hj hpc
  · exact owner_progress h hc hth hpc

/-! ## Workers that wait for one another -/

/-- Whoever is waited for can go on, or will not, or waits in turn. -/
theorem awaited_progress (h : (machine S).Reach ok s) (hc : s.mem.closed = true)
    (hwaits : Awaits S home s k j) :
    (CanGo S home s ∨ SomeStranded s ∨ SomeForsaken S home s) ∨ ∃ j', Awaits S home s j j' := by
  obtain ⟨i, ctl, rest, p, -, -, -, hth, hp, -, -⟩ := id hwaits
  have hreach := reach_pipeline h j p hp
  have hinside := reach_inside hreach
  by_cases hend : p.state.threads[0]?.map Thread.frames = some []
  · exact Or.inl (Or.inr (Or.inr ⟨k, j, p, hwaits, hp, reach_ended hinside hend⟩))
  have hloop := (reach_handshake hreach).loop (reach_returned h hth (by simp) hp) hend
  by_cases hable : Able p.state
  · exact (able_goes hp hloop hable).imp_left Or.inl
  -- it was told to close, so it is not at rest
  have hstop := closing_stop hinside ((reach_shut h).closed hc j p hp)
  rcases (blocked_iff hinside hend).mp hable with ⟨-, -, hno⟩ | ⟨id, hstranded⟩
  · exact absurd hstop hno
  · exact Or.inl (Or.inr (Or.inl ⟨j, p, id, hp, hstranded⟩))

/-- **What `JoinAll` can wait for.** When `Close` of the pool has returned and some
thread is in `JoinAll`, somebody can go on: a thread in `JoinAll`, a pipeline's
`Run`, a `WaitUntilClosed` or a worker — or a worker is stranded, or a task waits
for a pipeline that has ended, or workers wait for one another in a circle. -/
theorem join_progress (h : (machine S).Reach ok s) (hc : s.mem.closed = true)
    (hjoin : InJoin s i) :
    CanGo S home s ∨ SomeStranded s ∨ SomeForsaken S home s ∨ InCircle S home s := by
  by_cases hout : CanGo S home s ∨ SomeStranded s ∨ SomeForsaken S home s
  · rcases hout with hgo | hstranded | hforsaken
    · exact Or.inl hgo
    · exact Or.inr (Or.inl hstranded)
    · exact Or.inr (Or.inr (Or.inl hforsaken))
  · have hfirst : ∃ k j, Awaits S home s k j := by
      rcases joiner_progress h hc hjoin with hgo | hstranded | hwaits
      · exact absurd (Or.inl hgo) hout
      · exact absurd (Or.inr (Or.inl hstranded)) hout
      · exact hwaits
    obtain ⟨k, j, hkj⟩ := hfirst
    have hlt : ∀ x y, Awaits S home s x y → y < s.mem.pool.length := by
      rintro x y ⟨-, -, -, p, -, -, -, -, hp, -, -⟩
      exact (List.getElem?_eq_some_iff.mp hp).1
    have hnext : ∀ x y, Awaits S home s x y → ∃ z, Awaits S home s y z :=
      fun x y hxy => (awaited_progress h hc hxy).resolve_left hout
    exact Or.inr (Or.inr (Or.inr (exists_circle_lt hkj hlt hnext)))

end Warlib.Threadpool
