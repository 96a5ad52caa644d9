import Warlib.Pipeline.Runs

/-!
# The call stacks

Which frame can run on top of which. `Frame.mayCall` is the call graph of
`WarPipeline.cpp`, with the arguments callees are called with; every stack
of a reachable state is a chain of it, from `run` on the worker and from
`client` on every other thread (`reach_stacks`). Three things follow for
every reachable state and are used all over the development:

* only the top frame of a thread is anywhere but waiting for a callee, and
  what it is told (`Ctl`) is something it can take (`Receptive`);
* `ExecTask_` and everything it calls is on the worker only
  (`reach_onClient`);
* an exception is never told to a frame that does not take one — in
  particular never to `run()`: the `autoCatch` of the frame above stops it.
-/

namespace Warlib.Pipeline

open Warlib.Machine

/-- The call graph: `f.mayCall g` when frame `g` can be running on top of
frame `f`, which waits for it. -/
def Frame.mayCall : Frame → Frame → Bool
  | .run, g =>
    match g with
    | .execTask _ _ _ ac => ac
    | .tokenHandler .. => true
    | .onTimer .. => true
    | .tokenTimer .. => true
    | .stopHandler _ => true
    | .completion _ => true
    | _ => false
  | .client, g | .fn _, g | .completion _, g =>
    match g with
    | .post _ t => t == .user t.id
    | .postToken .. => true
    | .postWithPromise .. => true
    | .postSynchronously .. => true
    | .dispatch t => t == .user t.id
    | .execTask _ t c ac => t == .user t.id && !c && ac
    | .postWithTimer .. => true
    | .postWithTimerToken .. => true
    | .close _ => true
    | _ => false
  | .postWithPromise .after id p, g =>
    match g with
    | .post _ t => t == .promise id p
    | _ => false
  | .postSynchronously .dispatching id, g =>
    match g with
    | .dispatch t => t == .sync id
    | .post _ t => t == .sync id
    | .execTask _ t c ac => t == .sync id && !c && ac
    | _ => false
  | .execTask .running t _ _, g =>
    match g with
    | .fn id => t == .user id
    | .syncCarrier _ id => t == .sync id
    | .promiseCarrier _ id p => t == .promise id p
    | _ => false
  | .syncCarrier .after id, g | .promiseCarrier .after id _, g =>
    match g with
    | .execTask _ t c ac => t == .user id && !c && !ac
    | _ => false
  | .tokenHandler .after t _, g =>
    match g with
    | .execTask _ t' c ac => t' == t && c && ac
    | _ => false
  | .tokenTimer .after t _ _, g =>
    match g with
    | .onTimer t' _ => t' == t
    | .execTask _ t' c ac => t' == t && !c && ac
    | _ => false
  | _, _ => false

/-- `f` stands on `g`. -/
def Over (f g : Frame) : Prop := g.mayCall f = true

/-- Frames that do nothing until their callee is back. -/
def Frame.waits : Frame → Bool
  | .postWithPromise .after _ _ => true
  | .postSynchronously .dispatching _ => true
  | .execTask .running _ _ _ => true
  | .syncCarrier .after _ => true
  | .promiseCarrier .after _ _ => true
  | .tokenHandler .after _ _ => true
  | .tokenTimer .after _ _ _ => true
  | _ => false

/-- Frames a callee can return to. -/
def Frame.awaits (f : Frame) : Bool := f.waits || f.userCode.isSome || f == .run

/-- Frames an exception can reach. -/
def Frame.takesThrow : Frame → Bool
  | .client => true
  | .fn _ => true
  | .completion _ => true
  | .postWithPromise .after _ _ => true
  | .postSynchronously .dispatching _ => true
  | .execTask .running _ _ _ => true
  | .syncCarrier .after _ => true
  | .promiseCarrier .after _ _ => true
  | _ => false

/-- Frames that can end by an exception. -/
def Frame.throws : Frame → Bool
  | .fn _ => true
  | .post .. => true
  | .postWithPromise .. => true
  | .postSynchronously .. => true
  | .dispatch _ => true
  | .execTask _ _ _ ac => !ac
  | .syncCarrier .. => true
  | .promiseCarrier .. => true
  | _ => false

/-- What the top frame can be told. -/
def Receptive : Ctl Exn → Frame → Prop
  | .go, f => f.waits = false
  | .ret, f => f.awaits = true
  | .thr _, f => f.takesThrow = true

variable {name : String} {cap : BitVec 64} {n : Nat} {ok : State → Step → Prop}
  {s s' : State} {l : Step} {i : Nat} {m m' : Mem} {a : Act} {ctl : Ctl Exn} {f g : Frame}
  {nx : Next Frame Exn}

/-! ## What one move does to the stack -/

theorem call_over (hf : f.userCode.isSome = true) (id : Nat) (c : Call) :
    Over (c.frame id) f := by
  refine Frame.of_userCode hf ?_ (fun _ => ?_) fun _ => ?_
  all_goals cases c <;> simp [Over, Frame.mayCall, Call.frame, Task.id]

theorem body_over (t : Task) (c ac : Bool) : Over t.body (.execTask .running t c ac) := by
  cases t <;> simp [Over, Task.body, Frame.mayCall]

theorem handler_over (h : Handler) : Over h.frame .run := by
  cases h <;> rfl

/-- Callees stand on their callers, and a frame that goes on stands where it
stood. -/
theorem Move.keeps (h : Move i m a ctl f m' nx) : nx.Keeps Over f := by
  cases h
  case client_enter c => exact ⟨call_over rfl _ c, fun g hg => hg⟩
  case fn_enter c => exact ⟨call_over rfl _ c, fun g hg => hg⟩
  case completion_enter c => exact ⟨call_over rfl _ c, fun g hg => hg⟩
  case run_take h q _ _ _ => exact ⟨handler_over h, fun g hg => hg⟩
  case exec_call t c ac =>
    refine ⟨body_over t c ac, fun g hg => ?_⟩
    revert hg
    unfold Over Frame.mayCall
    split <;> exact id
  all_goals simp only [Next.Keeps]
  -- the other calls: the callee's arguments are the caller's
  all_goals try refine ⟨by simp [Over, Frame.mayCall], ?_⟩
  -- what goes on is the same function with the same arguments
  all_goals try (unfold Over Frame.mayCall; intro g; split <;> simp)

/-- `run()` and a client's own code stay at the bottom. -/
theorem Move.ground (h : Move i m a ctl f m' nx) (hf : f = .run ∨ f = .client) :
    ∀ f', nx.succ? = some f' → f' = f := by
  intro f' hsucc
  cases h <;> simp_all

/-- What a move leaves running on top of the stack does not wait. -/
theorem Move.goes (h : Move i m a ctl f m' nx) : ∀ f', nx.top? = some f' → f'.waits = false := by
  intro f' hf'
  cases h <;> simp only [Next.top?, Option.some.injEq, reduceCtorEq] at hf' <;> subst hf'
  case client_enter c | fn_enter c | completion_enter c => cases c <;> rfl
  case exec_call t c ac => cases t <;> rfl
  case run_take h q _ _ _ => cases h <;> rfl
  case user_set p o hp hf | user_set_again p o hp hf =>
    exact Frame.of_userCode (P := fun g => g.waits = false) hf rfl (fun _ => rfl) fun _ => rfl
  all_goals rfl

/-- Only frames that can throw end by an exception. -/
theorem Move.throws (h : Move i m a ctl f m' nx) (hr : Receptive ctl f) (e : Exn)
    (he : nx = .thr e) : f.throws = true := by
  cases h <;> simp_all [Receptive, Frame.takesThrow, Frame.throws]

theorem Over.awaits (h : Over f g) : g.awaits = true := by
  unfold Over Frame.mayCall at h
  split at h <;> first | rfl | exact absurd h (by simp)

/-- What can throw stands on what takes it: `autoCatch` is set wherever the
frame below does not. -/
theorem Over.takesThrow (h : Over f g) (hf : f.throws = true) : g.takesThrow = true := by
  unfold Over Frame.mayCall at h
  split at h <;> first | rfl | (exfalso; revert h; cases f <;> simp_all [Frame.throws])

/-! ## Reachable stacks -/

/-- Thread `i` is a stack of calls that can happen, its top frame is told what
it can take; or it is the worker, and has ended. -/
structure StackOk (i : Nat) (th : Thread Frame Exn) : Prop where
  grounded : Grounded Over (bottom i) th.frames ∨ (i = 0 ∧ th.frames = [])
  receptive : ∀ f rest, th.frames = f :: rest → Receptive th.ctl f

/-- A relation between neighbours that moves keep, whole stacks keep. -/
theorem Move.linked {R : Frame → Frame → Prop} {rest : List Frame} (h : Move i m a ctl f m' nx)
    (hk : nx.Keeps R f) (hg : Grounded R (bottom i) (f :: rest)) :
    Grounded R (bottom i) (nx.resume rest).frames ∨ (i = 0 ∧ (nx.resume rest).frames = []) := by
  have hground : f = bottom i → ∀ f', nx.succ? = some f' → f' = bottom i := by
    intro hf f' hsucc
    rw [← hf]
    refine h.ground ?_ f' hsucc
    cases i with
    | zero => exact Or.inl hf
    | succ i => exact Or.inr hf
  rcases Next.grounded hk hground hg with hok | ⟨hf, hnil⟩
  · exact Or.inl hok
  · refine Or.inr ⟨?_, hnil⟩
    cases i with
    | zero => rfl
    | succ i =>
      -- a client's own code never ends
      exfalso
      subst hf
      cases h <;> simp_all [bottom]

theorem Move.stackOk {rest : List Frame} (h : Move i m a ctl f m' nx)
    (hs : StackOk i ⟨ctl, f :: rest⟩) : StackOk i (nx.resume rest) := by
  have hr : Receptive ctl f := hs.receptive f rest rfl
  have hg : Grounded Over (bottom i) (f :: rest) := by
    rcases hs.grounded with hg | ⟨_, hnil⟩
    · exact hg
    · exact absurd hnil (by simp)
  refine ⟨h.linked h.keeps hg, fun f' rest' hf' => ?_⟩
  have hover : ∀ g rest', rest = g :: rest' → Over f g := by
    intro g rest' hrest
    subst hrest
    exact hg.1
  cases nx with
  | goto f₁ =>
    obtain ⟨rfl, -⟩ := List.cons.inj hf'
    exact h.goes _ rfl
  | call f₁ c =>
    obtain ⟨rfl, -⟩ := List.cons.inj hf'
    exact h.goes _ rfl
  | ret => exact (hover f' rest' hf').awaits
  | thr e => exact (hover f' rest' hf').takesThrow (h.throws hr e rfl)

/-- **The call stacks**: every thread of a reachable state is one. -/
theorem reach_stacks (h : (machine name cap n).Reach ok s) :
    ∀ i th, s.threads[i]? = some th → StackOk i th := by
  refine reach_invariant (I := fun s => ∀ i th, s.threads[i]? = some th → StackOk i th) h ?_ ?_
  · intro i th hth
    obtain rfl := initial_thread hth
    refine ⟨Or.inl rfl, fun f rest hf => ?_⟩
    obtain ⟨rfl, -⟩ := List.cons.inj hf
    cases i <;> rfl
  · intro s l s' _ _ hs _ hI
    cases hs with
    | move hth hm =>
      exact forall_set (T := StackOk) (hm.stackOk (hI _ _ hth)) fun j th _ hj => hI j th hj
    | expire _ => exact hI

/-- The top frame of a thread is told something it can take. -/
theorem reach_top {rest : List Frame} (h : (machine name cap n).Reach ok s)
    (hth : s.threads[i]? = some ⟨ctl, f :: rest⟩) : Receptive ctl f :=
  (reach_stacks h i _ hth).receptive f rest rfl

/-- The stack of a thread that has not ended. -/
theorem reach_grounded {rest : List Frame} (h : (machine name cap n).Reach ok s)
    (hth : s.threads[i]? = some ⟨ctl, f :: rest⟩) : Grounded Over (bottom i) (f :: rest) := by
  rcases (reach_stacks h i _ hth).grounded with hg | ⟨-, hnil⟩
  · exact hg
  · exact absurd hnil (by simp)

/-- What is not on top of its thread awaits a callee. -/
theorem reach_below {rest : List Frame} (h : (machine name cap n).Reach ok s)
    (hth : s.threads[i]? = some ⟨ctl, f :: rest⟩) (hg : g ∈ rest) : g.awaits = true := by
  obtain ⟨f', hf'⟩ := (reach_grounded h hth).below hg
  exact hf'.awaits

/-- `run()` stands on nothing. -/
theorem Over.not_run (h : Over .run g) : False := by
  unfold Over Frame.mayCall at h
  split at h <;> simp at h

/-- `run()` is the bottom of its stack. -/
theorem Grounded.run_rest {b : Frame} {rest : List Frame}
    (h : Grounded Over b (.run :: rest)) : rest = [] := by
  cases rest with
  | nil => rfl
  | cons g rest => exact h.1.not_run.elim

/-! ## Who stands on whom -/

/-- `PostSynchronously` is in its `Dispatch`, which may have gone on to `Post`
or to `ExecTask_`. -/
theorem over_dispatching {id : Nat} (h : Over f (.postSynchronously .dispatching id)) :
    f = .dispatch (.sync id) ∨ (∃ pc, f = .post pc (.sync id)) ∨
      ∃ pc, f = .execTask pc (.sync id) false true := by
  unfold Over Frame.mayCall at h
  cases f <;> simp_all

/-- The lambda of `PostSynchronously` stands on the `ExecTask_` that runs it. -/
theorem over_sync {id : Nat} {counting ac : Bool}
    (h : Over f (.execTask .running (.sync id) counting ac)) : ∃ pc, f = .syncCarrier pc id := by
  unfold Over Frame.mayCall at h
  cases f <;> simp_all

/-- The lambda of `PostSynchronously` calls `ExecTask_` with both flags unset. -/
theorem over_syncCarrier {id : Nat} (h : Over f (.syncCarrier .after id)) :
    ∃ pc, f = .execTask pc (.user id) false false := by
  unfold Over Frame.mayCall at h
  cases f <;> simp_all

/-- A task's function stands on the `ExecTask_` that runs it. -/
theorem over_fn {id : Nat} (h : Over (.fn id) g) :
    ∃ counting ac, g = .execTask .running (.user id) counting ac := by
  unfold Over Frame.mayCall at h
  split at h <;> simp_all

/-- The token lambda stands on `run()`. -/
theorem over_token {t : Task} {tok : Nat} {pc : CallPc} (h : Over (.tokenHandler pc t tok) g) :
    g = .run := by
  unfold Over Frame.mayCall at h
  split at h <;> simp_all

/-- It calls `ExecTask_` with both flags set. -/
theorem over_tokenHandler {t : Task} {tok : Nat} (h : Over f (.tokenHandler .after t tok)) :
    ∃ pc, f = .execTask pc t true true := by
  unfold Over Frame.mayCall at h
  cases f <;> simp_all

/-- The token lambda of the timer calls `OnTimer_`, which may have gone on to
`ExecTask_`. -/
theorem over_tokenTimer {t : Task} {tok : Nat} {ec : Bool} (h : Over f (.tokenTimer .after t tok ec)) :
    (∃ ec', f = .onTimer t ec') ∨ ∃ pc, f = .execTask pc t false true := by
  unfold Over Frame.mayCall at h
  cases f <;> simp_all

/-! ## What stays off the clients -/

/-- The functions a thread other than the worker can be in. -/
def Frame.onClient : Frame → Bool
  | .client => true
  | .post .. => true
  | .postToken .. => true
  | .postWithPromise .. => true
  | .postSynchronously .. => true
  | .dispatch _ => true
  | .postWithTimer .. => true
  | .postWithTimerToken .. => true
  | .close _ => true
  | _ => false

/-- Only the worker's frames lead to the frames of the worker. -/
theorem Move.onClient (h : Move i m a ctl f m' nx) (hi : i ≠ 0) (hf : f.onClient = true) :
    ∀ g ∈ nx.frames, g.onClient = true := by
  cases h
  case client_enter c => cases c <;> simp [Call.frame, Frame.onClient]
  case dispatch_inline => contradiction
  case user_set | user_set_again =>
    intro g hg
    rw [List.mem_singleton.mp hg]
    exact hf
  all_goals first
    | (simp [Frame.onClient] at hf; done)
    | simp [Frame.onClient]

/-- `ExecTask_`, and everything only it leads to, is on the worker alone. -/
theorem reach_onClient (h : (machine name cap n).Reach ok s) :
    ∀ i th, s.threads[i]? = some th → i ≠ 0 → ∀ f ∈ th.frames, f.onClient = true := by
  refine reach_invariant
    (I := fun s => ∀ i th, s.threads[i]? = some th → i ≠ 0 → ∀ f ∈ th.frames,
      f.onClient = true) h ?_ ?_
  · intro i th hth hi f hf
    obtain rfl := initial_thread hth
    obtain ⟨k, rfl⟩ := Nat.exists_eq_succ_of_ne_zero hi
    rw [List.mem_singleton.mp hf]
    rfl
  · intro s l s' _ _ hs _ hI
    cases hs with
    | move hth hm =>
      have hframes := forall_frames_set (F := fun j g => j ≠ 0 → g.onClient = true) hth
        (fun j th hj g hg hne => hI j th hj hne g hg) (fun j g hold => hold)
        fun hmine g hg hne => hm.onClient hne (hmine hne) g hg
      exact fun j th hj hne g hg => hframes j th hj g hg hne
    | expire _ => exact hI

/-- Where a frame of the worker runs. -/
theorem reach_worker {rest : List Frame} (h : (machine name cap n).Reach ok s)
    (hth : s.threads[i]? = some ⟨ctl, f :: rest⟩) (hf : f.onClient = false) : i = 0 := by
  by_contra hi
  have hclient := reach_onClient h i _ hth hi f (List.mem_cons_self ..)
  exact absurd (hf.symm.trans hclient) (by simp)

end Warlib.Pipeline
