import Warlib.Logging.Moves

/-!
# Stacks and the lock

Two invariants of every run of the logging threads, each from a fact about one
`Move`. A thread's stack is a stack of calls the functions make
(`reach_stacks`), so at most its top frame, or the `DoSubmit` under the
`Submit` of a handler, is inside a critical section. And `lock_` is held by
exactly the thread that is inside one (`reach_owned`).
-/

namespace Warlib.Logging

open Warlib.Machine

variable {set : Setting} {n i : Nat} {a : Act} {m m' : Shared} {f : Frame} {nx : Next Frame Empty}
  {ok : State → Step → Prop} {s s' : State} {l : Step}

/-! ## Steps of the machine -/

/-- A step of the pool: a move of one thread's top frame, or of the clock. -/
inductive Stepped (set : Setting) (s : State) : Step → State → Prop
  | move {i : Nat} {a : Act} {ctl : Ctl Empty} {f : Frame} {rest : List Frame} {m : Shared}
      {nx : Next Frame Empty} (hth : s.threads[i]? = some ⟨ctl, f :: rest⟩)
      (hmove : Move set i s.mem a f m nx) :
      Stepped set s (.thread i a) ⟨m, s.threads.set i (nx.resume rest)⟩
  | clock (now : Int) : Stepped set s (.env now) ⟨{ s.mem with clock := now }, s.threads⟩

theorem stepped_of_next (h : (machine set n).next s l = some s') : Stepped set s l s' := by
  cases Program.stepped_of_next h with
  | thread hth hstep => exact .move hth (frameStep_move hstep)
  | @env now m henv =>
    obtain rfl := Option.some.inj henv
    exact .clock now

/-- The invariant rule of the machine, over pool steps. -/
theorem reach_invariant {I : State → Prop} (h : (machine set n).Reach ok s)
    (hinit : I (initial set n))
    (hstep : ∀ s l s', (machine set n).Reach ok s → Stepped set s l s' → I s → I s') : I s :=
  h.invariant (fun _ hi => hi ▸ hinit) fun s l s' hr _ hn hI =>
    hstep s l s' hr (stepped_of_next hn) hI

/-- Every thread of the initial state is in user code. -/
theorem initial_thread {th : Thread Frame Empty} (h : (initial set n).threads[i]? = some th) :
    th = ⟨.go, [.client]⟩ :=
  (List.mem_replicate.mp (List.mem_of_getElem? h)).2

/-! ## Stacks -/

/-- The program points at which a log statement is executed. -/
def Frame.Logs (g : Frame) : Prop :=
  g = .client ∨ ∃ p, g = .addHandler .update p ∨ g = .addHandler .done p

/-- `f.StandsOn g`: the function at `g` has called the one at `f`, or the one that
goes on as it. -/
def Frame.StandsOn (f g : Frame) : Prop :=
  match f with
  | .client => False
  | .statement .. => g.Logs
  | .doSubmit .. => g.Logs
  | .addHandler .. => g = .client
  | .updateLevelAndFilter _ => ∃ p, g = .addHandler .done p
  | .handlerSubmit entry _ => g = .doSubmit (.loop entry.info (entry.k + 1)) entry.id

theorem Move.keeps (h : Move set i m a f m' nx) : nx.Keeps Frame.StandsOn f := by
  cases h with
  | client_submit log | client_statement level filter buf =>
    exact ⟨Or.inl rfl, fun g hg => hg⟩
  | client_addHandler p => exact ⟨rfl, fun g hg => hg⟩
  | doSubmit_deliver si k p id hp hlevel => exact ⟨rfl, fun g hg => hg⟩
  | add_added p buf => exact ⟨Or.inr ⟨p, Or.inl rfl⟩, fun g hg => hg⟩
  | add_update p => exact ⟨⟨p, rfl⟩, fun g hg => hg⟩
  | update_filters filters => exact fun g ⟨p, hg⟩ => Or.inr ⟨p, Or.inr hg⟩
  | statement_over | doSubmit_unlock id | handler_end entry | add_done p => exact trivial
  | _ => exact fun g hg => hg

theorem Move.ground (h : Move set i m a f m' nx) (hf : f = .client) :
    nx.succ? = some .client := by
  subst hf
  cases h <;> rfl

/-- Every stack is a stack of calls on user code. -/
theorem reach_stacks (h : (machine set n).Reach ok s) {th : Thread Frame Empty}
    (hth : s.threads[i]? = some th) : Grounded Frame.StandsOn .client th.frames := by
  refine reach_invariant (I := fun s => ∀ i th, s.threads[i]? = some th →
    Grounded Frame.StandsOn .client th.frames) h ?_ ?_ i th hth
  · intro i th hth
    rw [initial_thread hth]
    rfl
  · intro s l s' _ hs hI
    cases hs with
    | clock now => exact hI
    | @move i a ctl f rest m nx hth hm =>
      refine forall_set ?_ fun j th _ hj => hI j th hj
      rcases Next.grounded hm.keeps (fun hf f' hf' => by
        rw [hm.ground hf] at hf'
        exact (Option.some.inj hf').symm) (hI i _ hth) with hstack | ⟨hf, hnone⟩
      · exact hstack
      · have hsucc := hm.ground hf
        rw [Next.resume_frames] at hnone
        cases nx <;> simp at hnone hsucc

/-- A frame under another one waits for it. -/
theorem reach_below (h : (machine set n).Reach ok s) {ctl : Ctl Empty} {rest : List Frame}
    (hth : s.threads[i]? = some ⟨ctl, f :: rest⟩) {g : Frame} (hg : g ∈ rest) :
    ∃ f' : Frame, f'.StandsOn g :=
  (reach_stacks h hth).below hg

/-! ## The lock -/

/-- Whether the program point is inside a critical section. -/
def Frame.holds : Frame → Nat
  | .doSubmit (.loop _ _) _ => 1
  | .doSubmit .unlock _ => 1
  | .addHandler .push _ => 1
  | .addHandler .unlock _ => 1
  | .updateLevelAndFilter (.gather _ _) => 1
  | .updateLevelAndFilter (.level _) => 1
  | .updateLevelAndFilter (.filter _) => 1
  | .updateLevelAndFilter .unlock => 1
  | _ => 0

theorem Move.locks (h : Move set i m a f m' nx) :
    LockMove Frame.holds i f nx m.lock m'.lock := by
  cases h with
  | doSubmit_lock si id hfree | add_lock p hfree | update_lock hfree =>
    rw [hfree]
    exact .acquire rfl
  | doSubmit_unlock id | add_unlock p | update_unlock => exact .release rfl
  | _ => exact .alone rfl

/-- The lock is held by the thread that is inside a critical section. -/
theorem reach_owned (h : (machine set n).Reach ok s) :
    Owned Frame.holds s.mem.lock s.threads := by
  refine reach_invariant (I := fun s => Owned Frame.holds s.mem.lock s.threads) h ?_ ?_
  · intro i th hth
    rw [initial_thread hth]
    rfl
  · intro s l s' _ hs hI
    cases hs with
    | clock now => exact hI
    | move hth hm => exact hI.move hth hm.locks

/-- A thread at a program point inside a critical section has the lock. -/
theorem lock_of_holds (h : (machine set n).Reach ok s) {ctl : Ctl Empty} {rest : List Frame}
    (hth : s.threads[i]? = some ⟨ctl, f :: rest⟩) (hf : f.holds = 1) : s.mem.lock = some i :=
  (reach_owned h).owner hth (List.mem_cons_self ..) (by omega)

/-- While a handler is told of an event, `DoSubmit` has the lock. -/
theorem lock_of_handlerSubmit (h : (machine set n).Reach ok s) {ctl : Ctl Empty} {entry : Entry}
    {text : List Char} {rest : List Frame}
    (hth : s.threads[i]? = some ⟨ctl, .handlerSubmit entry text :: rest⟩) :
    s.mem.lock = some i := by
  have hstack := reach_stacks h hth
  cases rest with
  | nil => exact absurd hstack (by simp [Grounded])
  | cons g rest =>
    have hunder : Frame.StandsOn (.handlerSubmit entry text) g := hstack.1
    refine (reach_owned h).owner hth (List.mem_cons_of_mem _ (List.mem_cons_self ..)) ?_
    rw [hunder]
    exact Nat.one_pos

/-- Nobody exchanges the handler objects. -/
theorem reach_object (h : (machine set n).Reach ok s) : s.mem.engine.object = set.object := by
  refine reach_invariant (I := fun s => s.mem.engine.object = set.object) h rfl ?_
  intro s l s' _ hs hI
  cases hs with
  | clock now => exact hI
  | move hth hm => cases hm <;> exact hI

end Warlib.Logging
