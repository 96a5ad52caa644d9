import Warlib.Pipeline.Fates
import Warlib.Pipeline.Synchronous

/-!
# The promise on the stack of `PostSynchronously`

`PostSynchronously` hands a reference to a promise on its own stack to a lambda
that another thread executes later, if at all. The lambda writes through that
reference; were the call to return first, it would write into a dead stack
frame.

Three accounts of one call, number `id`, show that it does not. The lambda
and its outcomes: it is in one place at most, and nowhere once the promise is
satisfied, or the lambda was rejected or dismissed (`reach_shipped`). The
callers: the call is under way in one frame, or it has ended
(`reach_callers`). And it ends only with a satisfied promise or a rejected
lambda (`reach_concluded`). So whoever still has the lambda has a promise to
write to, and writes it once (`promise_alive`).
-/

namespace Warlib.Pipeline

open Warlib.Machine

variable {name : String} {cap : BitVec 64} {n : Nat} {ok : State → Step → Prop}
  {s s' : State} {l : Step} {i : Nat} {m m' : Mem} {a : Act} {ctl : Ctl Exn} {f : Frame}
  {rest : List Frame} {nx : Next Frame Exn}

/-! ## Where the lambda is -/

/-- The frames that have the lambda of call `id` in hand. -/
@[simp] def shipping (id : Nat) : Frame → Nat
  | .postSynchronously .start id' => if id' = id then 1 else 0
  | .dispatch t => if t = .sync id then 1 else 0
  | .post _ t => if t = .sync id then 1 else 0
  | .postToken t _ => if t = .sync id then 1 else 0
  | .postWithTimer _ t => if t = .sync id then 1 else 0
  | .postWithTimerToken t _ => if t = .sync id then 1 else 0
  | .execTask .entry t _ _ => if t = .sync id then 1 else 0
  | .execTask .closing t _ _ => if t = .sync id then 1 else 0
  | .execTask .call t _ _ => if t = .sync id then 1 else 0
  | .syncCarrier _ id' => if id' = id then 1 else 0
  | .tokenHandler .start t _ => if t = .sync id then 1 else 0
  | .onTimer t _ => if t = .sync id then 1 else 0
  | .tokenTimer .start t _ _ => if t = .sync id then 1 else 0
  | _ => 0

/-- The handlers that have it. -/
@[simp] def Handler.ships (id : Nat) : Handler → Bool
  | .execTask t => t == .sync id
  | .token t _ => t == .sync id
  | .timer t _ => t == .sync id
  | .tokenTimer t _ _ => t == .sync id
  | .stop => false

/-- The pending timers that have it. -/
@[simp] def Timer.ships (id : Nat) (t : Timer) : Bool := t.task == .sync id

/-- The lambda of call `id` is rejected or dismissed. -/
@[simp] def Event.loses (id : Nat) : Event → Bool
  | .rejected t => t == .sync id
  | .dismissed _ t => t == .sync id
  | _ => false

/-- `PostSynchronously` is called with number `id`. -/
@[simp] def Event.orders (id : Nat) : Event → Bool
  | .called _ id' .postSynchronously _ => id' == id
  | _ => false

/-- The call with number `id` has ended. -/
@[simp] def Event.concludes (id : Nat) : Event → Bool
  | .syncEnded id' _ => id' == id
  | _ => false

/-- The promise of call `id` is satisfied. -/
def Mem.kept (m : Mem) (id : Nat) : Nat := if (m.promises (.sync id)).isSome then 1 else 0

/-- What there is of the lambda of call `id` outside the frames, and what it has come to. -/
def Mem.shipped (m : Mem) (id : Nat) : Nat :=
  m.trace.countP (Event.loses id) + m.kept id + m.queue.countP (Handler.ships id) +
    m.timers.countP (Timer.ships id)

/-- What the memory and the frames hold together stays within what `A` allows, when no
move makes more of it than it allows. -/
theorem bounded {A B : Mem → Nat} {w : Frame → Nat} (h : Stepped s l s')
    (hmove : ∀ i a ctl f m nx, Move i s.mem a ctl f m nx →
      B m + weigh w nx.frames + A s.mem ≤ B s.mem + w f + A m)
    (hexpire : ∀ (k : Nat) (ec : Bool) (t : Timer), s.mem.timers[k]? = some t →
      B (s.mem.expire k t ec) + A s.mem ≤ B s.mem + A (s.mem.expire k t ec))
    (hI : B s.mem + tally w s.threads ≤ A s.mem) : B s'.mem + tally w s'.threads ≤ A s'.mem := by
  cases h with
  | move hth hm =>
    obtain ⟨r, hr, hr'⟩ := tally_resume w hth _
    have hbal := hmove _ _ _ _ _ _ hm
    rw [hr] at hI
    rw [hr']
    dsimp only
    omega
  | @expire k ec t ht =>
    have hbal := hexpire k ec t ht
    dsimp only
    omega

/-- The lambda is made by the call, handed on, and uses itself up. -/
theorem Move.ships (h : Move i m a ctl f m' nx) (id : Nat) :
    m'.shipped id + weigh (shipping id) nx.frames + m.trace.countP (Event.orders id) ≤
      m.shipped id + shipping id f + m'.trace.countP (Event.orders id) := by
  unfold Mem.shipped Mem.kept
  cases h
  case client_enter c | fn_enter c | completion_enter c =>
    cases c <;> simp [Call.frame, List.countP_cons] <;> grind
  -- the lambda goes from the handler to the frame that executes it
  case exec_call t c ac => cases t <;> simp [Task.body] <;> grind
  case run_take h q hs hq hctl =>
    cases h <;> simp [Handler.frame, hq, List.countP_cons] <;> grind
  all_goals
    simp [List.countP_cons]
    try grind

/-- A timer that is over keeps what it has. -/
theorem expire_shipped (m : Mem) {k : Nat} {ec : Bool} {t : Timer} (ht : m.timers[k]? = some t)
    (id : Nat) : (m.expire k t ec).shipped id = m.shipped id := by
  obtain ⟨hk, rfl⟩ := List.getElem?_eq_some_iff.mp ht
  have hperm := (List.getElem_cons_eraseIdx_perm hk).countP_eq (Timer.ships id)
  rw [List.countP_cons] at hperm
  have hhandler : Handler.ships id (m.timers[k].handler ec) = Timer.ships id m.timers[k] := by
    unfold Timer.handler
    split <;> rfl
  have hloses : (m.expire k m.timers[k] ec).trace.countP (Event.loses id) =
      m.trace.countP (Event.loses id) := by simp
  have hkept : (m.expire k m.timers[k] ec).kept id = m.kept id := rfl
  rw [Mem.shipped, Mem.shipped, hloses, hkept]
  simp only [Mem.expire, Mem.asioPost, List.countP_append, List.countP_singleton, hhandler]
  omega

/-- The lambda of a call is in one place at most, and none once it has come to something. -/
theorem reach_shipped (h : (machine name cap n).Reach ok s) (id : Nat) :
    s.mem.shipped id + tally (shipping id) s.threads ≤ s.mem.trace.countP (Event.orders id) := by
  refine reach_invariant (I := fun s => s.mem.shipped id + tally (shipping id) s.threads ≤
    s.mem.trace.countP (Event.orders id)) h ?_ ?_
  · rw [tally_initial rfl rfl]
    exact Nat.le_refl _
  · intro s l s' _ _ hs _ hI
    refine bounded (A := fun m => m.trace.countP (Event.orders id))
      (B := fun m => m.shipped id) hs ?_ ?_ hI
    · intro i a ctl f m nx hm
      exact hm.ships id
    · intro k ec t ht
      rw [expire_shipped s.mem ht]
      simp

/-- A number is the number of one call. -/
theorem orders_le (h : (machine name cap n).Reach ok s) (id : Nat) :
    s.mem.trace.countP (Event.orders id) ≤ 1 := by
  have hone := reach_numbered h id
  have hle : s.mem.trace.countP (Event.orders id) ≤ s.mem.trace.countP (Event.numbered id) := by
    refine List.countP_mono_left fun e _ he => ?_
    cases e with
    | called caller id' c q => cases c <;> simp_all
    | _ => simp at he
  omega

/-! ## Where the caller is -/

/-- The frames that are call `id`. -/
@[simp] def calling? (id : Nat) : Frame → Nat
  | .postSynchronously _ id' => if id' = id then 1 else 0
  | _ => 0

/-- A call is under way until it ends. -/
theorem Move.callers (h : Move i m a ctl f m' nx) (id : Nat) :
    m'.trace.countP (Event.orders id) + (m.trace.countP (Event.concludes id) + calling? id f) =
      m.trace.countP (Event.orders id) +
        (m'.trace.countP (Event.concludes id) + weigh (calling? id) nx.frames) := by
  cases h
  case client_enter c | fn_enter c | completion_enter c =>
    cases c <;> simp [Call.frame, List.countP_cons]
    grind
  case exec_call t c ac => cases t <;> simp [Task.body]
  case run_take h q hs hq hctl => cases h <;> simp [Handler.frame]
  all_goals
    simp [List.countP_cons]
    try grind

theorem reach_callers (h : (machine name cap n).Reach ok s) (id : Nat) :
    s.mem.trace.countP (Event.orders id) =
      s.mem.trace.countP (Event.concludes id) + tally (calling? id) s.threads := by
  refine reach_invariant (I := fun s => s.mem.trace.countP (Event.orders id) =
    s.mem.trace.countP (Event.concludes id) + tally (calling? id) s.threads) h ?_ ?_
  · rw [tally_initial rfl rfl]
    rfl
  · intro s l s' _ _ hs _ hI
    refine balanced (A := fun m => m.trace.countP (Event.orders id))
      (B := fun m => m.trace.countP (Event.concludes id)) hs ?_ ?_ hI
    · intro i a ctl f m nx _ hm
      exact hm.callers id
    · intro k ec t _
      simp

/-! ## How a call ends -/

/-- A `Dispatch` of `PostSynchronously` that ends by an exception has rejected the
lambda. -/
theorem Move.refuses {id : Nat} {e : Exn} (h : Move i m a ctl f m' (.thr e))
    (hover : Over f (.postSynchronously .dispatching id)) : .rejected (.sync id) ∈ m'.trace :=
  have hheard : Heard m'.outOfCapacity m'.trace
      ((Next.thr e).resume [Frame.postSynchronously .dispatching id]).ctl
      (.postSynchronously .dispatching id) := h.heard_dispatching rfl hover
  hheard.2

/-- Whoever is told of that exception has been rejected. -/
theorem reach_refused (h : (machine name cap n).Reach ok s) :
    ∀ (i : Nat) (th : Thread Frame Exn), s.threads[i]? = some th → ∀ id rest e,
      th = ⟨.thr e, .postSynchronously .dispatching id :: rest⟩ →
      .rejected (.sync id) ∈ s.mem.trace := by
  refine reach_invariant
    (I := fun s => ∀ (i : Nat) (th : Thread Frame Exn), s.threads[i]? = some th → ∀ id rest e,
      th = ⟨.thr e, .postSynchronously .dispatching id :: rest⟩ →
      .rejected (.sync id) ∈ s.mem.trace) h ?_ ?_
  · intro i th hth id rest e he
    obtain rfl := initial_thread hth
    exact absurd (congrArg Thread.ctl he) (by simp)
  · intro s l s' hr _ hs _ hI
    have hlater := hs.later.trace
    cases hs with
    | @move i a ctl f rest m nx hth hm =>
      refine forall_set (T := fun _ th => ∀ id rest e,
        th = ⟨.thr e, .postSynchronously .dispatching id :: rest⟩ →
        .rejected (.sync id) ∈ m.trace) ?_ fun j th _ hj id rest e he =>
          hlater.subset (hI j th hj id rest e he)
      intro id rest' e he
      cases nx with
      | thr e' =>
        have hrest : rest = .postSynchronously .dispatching id :: rest' :=
          congrArg Thread.frames he
        subst hrest
        exact hm.refuses (reach_grounded hr hth).1
      | goto f' => exact absurd (congrArg Thread.ctl he) (by simp)
      | call f' c => exact absurd (congrArg Thread.ctl he) (by simp)
      | ret => exact absurd (congrArg Thread.ctl he) (by simp)
    | expire _ => exact fun j th hj id rest e he => hlater.subset (hI j th hj id rest e he)

/-- A call that ends has been told of a rejection, or has got its promise. -/
theorem Move.concludes {id : Nat} {o : Outcome} (h : Move i m a ctl f m' nx)
    (he : m'.trace = m.trace ++ [.syncEnded id o]) :
    (f = .postSynchronously .dispatching id ∧ ∃ e, ctl = .thr e) ∨
      m'.promises (.sync id) ≠ none := by
  cases h
  case postSynchronously_thr id' e =>
    have heq : id' = id ∧ Outcome.exn e = o := by simpa using he
    obtain ⟨rfl, -⟩ := heq
    exact Or.inl ⟨rfl, e, rfl⟩
  case postSynchronously_value id' hp =>
    have heq : id' = id ∧ Outcome.value = o := by simpa using he
    obtain ⟨rfl, -⟩ := heq
    refine Or.inr ?_
    show m.promises (.sync id') ≠ none
    rw [hp]
    simp
  case postSynchronously_exn id' e hp =>
    have heq : id' = id ∧ Outcome.exn e = o := by simpa using he
    obtain ⟨rfl, -⟩ := heq
    refine Or.inr ?_
    show m.promises (.sync id') ≠ none
    rw [hp]
    simp
  all_goals simp at he

/-- A call that has ended was rejected, or its promise is satisfied. -/
theorem reach_concluded (h : (machine name cap n).Reach ok s) :
    ∀ id o, .syncEnded id o ∈ s.mem.trace →
      .rejected (.sync id) ∈ s.mem.trace ∨ s.mem.promises (.sync id) ≠ none := by
  refine reach_invariant (I := fun s => ∀ id o, .syncEnded id o ∈ s.mem.trace →
    .rejected (.sync id) ∈ s.mem.trace ∨ s.mem.promises (.sync id) ≠ none) h ?_ ?_
  · intro id o hmem
    exact absurd hmem List.not_mem_nil
  · intro s l s' hr _ hs _ hI id o hmem
    have hold : .syncEnded id o ∈ s.mem.trace →
        .rejected (.sync id) ∈ s'.mem.trace ∨ s'.mem.promises (.sync id) ≠ none := by
      intro hmem
      rcases hI id o hmem with hrejected | hkept
      · exact Or.inl (hs.later.trace.subset hrejected)
      · exact Or.inr (hs.promises hkept)
    cases hs with
    | @move i a ctl f rest m nx hth hm =>
      rcases hm.emits with hsame | ⟨e, he⟩
      · exact hold (hsame ▸ hmem)
      · have hmem' : .syncEnded id o ∈ s.mem.trace ++ [e] := he ▸ hmem
        rcases List.mem_append.mp hmem' with hmem' | hmem'
        · exact hold hmem'
        · obtain rfl := List.mem_singleton.mp hmem'
          rcases hm.concludes he with ⟨rfl, e, rfl⟩ | hkept
          · refine Or.inl (hm.later.trace.subset ?_)
            exact reach_refused hr i _ hth id rest e rfl
          · exact Or.inr hkept
    | expire _ => exact hold (by simpa using hmem)

/-! ## The promise is there -/

/-- Whoever has the lambda of call `id` and has not satisfied its promise. -/
def Lambda (s : State) (id : Nat) : Prop :=
  .execTask (.sync id) ∈ s.mem.queue ∨ ∃ pc, Frame.syncCarrier pc id ∈ framesOf s.threads

/-- The call is under way on some thread. -/
def UnderWay (s : State) (id : Nat) : Prop :=
  ∃ pc, Frame.postSynchronously pc id ∈ framesOf s.threads

/-- **The promise outlives the lambda.** Under any interleaving with other
submitters and with `Close`: as long as the lambda of a `PostSynchronously` is
in the run queue or in execution, the call that owns the promise is still on
some thread's stack, and the promise is not satisfied — so the lambda writes
to a live promise, and `std::future_error` is never thrown there. -/
theorem promise_alive (h : (machine name cap n).Reach ok s) {id : Nat} (hlambda : Lambda s id) :
    UnderWay s id ∧ s.mem.promises (.sync id) = none := by
  have hshipped := reach_shipped h id
  have horders := orders_le h id
  have hcallers := reach_callers h id
  unfold Mem.shipped at hshipped
  have hheld : 1 ≤ s.mem.queue.countP (Handler.ships id) + tally (shipping id) s.threads := by
    rcases hlambda with hqueue | ⟨pc, hframe⟩
    · have hpos : 0 < s.mem.queue.countP (Handler.ships id) :=
        List.countP_pos_iff.mpr ⟨_, hqueue, by simp⟩
      omega
    · obtain ⟨i, th, hth, hmem⟩ := mem_framesOf.mp hframe
      have hle := le_tally (shipping id) hth hmem
      have hone : shipping id (.syncCarrier pc id) = 1 := by simp
      omega
  have hnone : s.mem.promises (.sync id) = none := by
    by_contra hp
    have hkept : s.mem.kept id = 1 := by
      rw [Mem.kept, if_pos (Option.isSome_iff_ne_none.mpr hp)]
    omega
  refine ⟨?_, hnone⟩
  -- a call that had ended would have been rejected
  have hunended : s.mem.trace.countP (Event.concludes id) = 0 := by
    refine List.countP_eq_zero.mpr fun e he hconcludes => ?_
    obtain ⟨o, rfl⟩ : ∃ o, e = .syncEnded id o := by
      cases e <;> simp_all
    rcases reach_concluded h id o he with hrejected | hp
    · have hpos : 0 < s.mem.trace.countP (Event.loses id) :=
        List.countP_pos_iff.mpr ⟨_, hrejected, by simp⟩
      omega
    · exact hp hnone
  have hcalling : tally (calling? id) s.threads ≠ 0 := by omega
  by_contra hgone
  refine hcalling (tally_eq_zero fun th hth f hf => ?_)
  obtain ⟨i, hi⟩ := List.getElem?_of_mem hth
  cases f with
  | postSynchronously pc id' =>
    by_cases hid : id' = id
    · subst hid
      exact absurd ⟨pc, mem_framesOf.mpr ⟨i, th, hi, hf⟩⟩ hgone
    · simp [hid]
  | _ => rfl

/-- The worker is about to satisfy the promise of a client that waits. -/
theorem promise_alive_waiting : ∃ s, (machine "tasks" 1 1).Reach (fun _ _ => True) s ∧
    Frame.syncCarrier .after 0 ∈ framesOf s.threads ∧ UnderWay s 0 ∧
    s.mem.promises (.sync 0) = none := by
  let worker : Nat → List Step := fun k => List.replicate k (.thread 0 .code)
  let client : Nat → List Step := fun k => List.replicate k (.thread 1 .code)
  let steps : List Step := [.thread 1 (.call .postSynchronously)] ++ client 6 ++ worker 8 ++
    [.thread 0 .ret] ++ worker 1
  have hrun : ∃ s, (machine "tasks" 1 1).guardedRun (fun _ _ => True) (initial "tasks" 1 1) steps =
      some s ∧ Frame.syncCarrier .after 0 ∈ framesOf s.threads := ⟨_, rfl, by decide⟩
  obtain ⟨s, hs, hframe⟩ := hrun
  have hreach := reach_schedule (by decide) hs
  obtain ⟨hcall, hnone⟩ := promise_alive hreach (Or.inr ⟨.after, hframe⟩)
  exact ⟨s, hreach, hframe, hcall, hnone⟩

end Warlib.Pipeline
