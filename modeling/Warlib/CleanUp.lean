import Warlib.ErrorHandling
import Warlib.Machine.Lts

/-!
# `WarCleanUp.h` — a cleanup handler in a destructor

A `WarCleanUp` owns a function and calls it when it is destroyed, provided
that happens on the thread that created the object: the class comment says
so, the destructor compares `thread_id_` with the running thread, and no
constructor ever gives `thread_id_` a value. A default `std::thread::id` is
the id of no thread, the defaulted move constructor copies it, and so the
comparison comes out the same way everywhere (`reach_idle`).

Mirroring notes:

* Objects are numbered in the order of their construction. The first one is
  constructed directly or by `WarCleanUpFactory` (the same constructor call);
  every other one is move-constructed from the owner before it, and a
  moved-from object is destroyed like any other.
* `F` is the type `T` of the function object; `husk` is what its own move
  constructor leaves behind, and `run` says whether a call throws.
* The log statements have no effect here.
-/

namespace Warlib.CleanUp

open Warlib.Machine

variable {F : Type}

/-- `std::thread::id`; `none` is what its default constructor makes. -/
abbrev ThreadId := Option Nat

/-- `std::this_thread::get_id()` on thread `t`. -/
def getId (t : Nat) : ThreadId := some t

/-- `WarCleanUp<T>`. -/
structure WarCleanUp (F : Type) where
  threadId : ThreadId := none
  fn : F
  name : String

/-- `WarCleanUp(fn_t &&fn, const char *name)`, on some thread: `fn_` and `name_`
are initialised, `thread_id_` is not mentioned. -/
def WarCleanUp.construct (_thread : Nat) (fn : F) (name : String) : WarCleanUp F := { fn, name }

/-- `WarCleanUpFactory(fn, name)`. -/
def warCleanUpFactory (thread : Nat) (fn : F) (name : String) : WarCleanUp F :=
  .construct thread fn name

/-- `WarCleanUp(WarCleanUp &&) = default`: the new object, and what is left of
the old one. -/
def WarCleanUp.move (husk : F → F) (o : WarCleanUp F) : WarCleanUp F × WarCleanUp F :=
  (o, { o with fn := husk o.fn })

/-- `WAR_CATCH_ERROR`: the clauses, in order. -/
def catchError : List CatchClause := [.exceptionBase, .boostException, .stdException]

/-- How a destructor ends: it did nothing; it called the function, and caught what
that threw, if it did; or the exception is none of the three kinds and the
process is terminated. -/
inductive Destruction (F : Type)
  | wrongThread
  | called (fn : F) (caught : Option Exn)
  | terminated (fn : F) (e : Exn)

/-- `~WarCleanUp()` on thread `t`. -/
def WarCleanUp.destroy (run : F → Option Exn) (t : Nat) (o : WarCleanUp F) : Destruction F :=
  if o.threadId ≠ getId t then .wrongThread
  else
    match run o.fn with
    | none => .called o.fn none
    | some e => if (handler catchError e).isSome then .called o.fn (some e) else .terminated o.fn e

/-- The functions a destructor called. -/
def Destruction.calls : Destruction F → List F
  | .wrongThread => []
  | .called fn _ => [fn]
  | .terminated fn _ => [fn]

/-! ## Chains of moves -/

/-- The objects that came to be from one construction, the destructions so far
(object and thread), and the functions called. -/
structure State (F : Type) where
  objects : List (Option (WarCleanUp F))
  destroyed : List (Nat × Nat) := []
  calls : List F := []

/-- The owner is moved into a new object; object `k` is destroyed on thread `t`. -/
inductive Op
  | move
  | destroy (k t : Nat)
  deriving DecidableEq, Repr

/-- One operation; none on an object whose lifetime has ended. -/
def State.apply (husk : F → F) (run : F → Option Exn) (s : State F) : Op → Option (State F)
  | .move =>
    match s.objects.getLast? with
    | some (some o) =>
      let (new, old) := o.move husk
      some { s with objects := s.objects.dropLast ++ [some old, some new] }
    | _ => none
  | .destroy k t =>
    match s.objects[k]? with
    | some (some o) =>
      some { objects := s.objects.set k none, destroyed := s.destroyed ++ [(k, t)],
             calls := s.calls ++ (o.destroy run t).calls }
    | _ => none

/-- What becomes of a `WarCleanUp` constructed on thread `thread`. -/
def lifetime (husk : F → F) (run : F → Option Exn) (thread : Nat) (fn : F) (name : String) :
    Lts (State F) Op where
  init s := s = { objects := [some (.construct thread fn name)] } ∨
    s = { objects := [some (warCleanUpFactory thread fn name)] }
  next s op := s.apply husk run op

/-- The final owner was destroyed on thread `t`. -/
def State.endedOn (s : State F) (t : Nat) : Prop := (s.objects.length - 1, t) ∈ s.destroyed

/-- Everything the chain of moves produced has been destroyed. -/
def State.allDestroyed (s : State F) : Prop := ∀ o ∈ s.objects, o.isNone = true

/-! ## What the destructors do -/

/-- No object knows a thread, and no function has been called. -/
structure Idle (s : State F) : Prop where
  nobody : ∀ o, some o ∈ s.objects → o.threadId = none
  silent : s.calls = []

/-- An object that knows no thread takes every thread for the wrong one. -/
theorem destroy_nobody {o : WarCleanUp F} (h : o.threadId = none) (run : F → Option Exn) (t : Nat) :
    (o.destroy run t).calls = [] := by
  have hne : o.threadId ≠ getId t := by
    rw [h]
    simp [getId]
  rw [WarCleanUp.destroy, if_pos hne]
  rfl

variable {husk : F → F} {run : F → Option Exn} {thread : Nat} {fn : F} {name : String}
  {ok : State F → Op → Prop} {s s' : State F} {op : Op}

/-- A move copies the id, a destruction compares it. -/
theorem Idle.apply (h : Idle s) (hnext : s.apply husk run op = some s') : Idle s' := by
  cases op with
  | move =>
    simp only [State.apply] at hnext
    split at hnext
    next o ho =>
      obtain rfl := Option.some.inj hnext
      have hid : o.threadId = none := h.nobody o (List.mem_of_getLast? ho)
      refine ⟨fun o' ho' => ?_, h.silent⟩
      rcases List.mem_append.mp ho' with hold | hnew
      · exact h.nobody o' (List.dropLast_subset _ hold)
      · have hcases : o' = { o with fn := husk o.fn } ∨ o' = o := by
          simpa [WarCleanUp.move] using hnew
        rcases hcases with rfl | rfl
        · exact hid
        · exact hid
    next => exact absurd hnext (by simp)
  | destroy k t =>
    simp only [State.apply] at hnext
    split at hnext
    next o ho =>
      obtain rfl := Option.some.inj hnext
      have hid : o.threadId = none := h.nobody o (List.mem_of_getElem? ho)
      refine ⟨fun o' ho' => ?_, ?_⟩
      · rcases List.mem_or_eq_of_mem_set ho' with hold | hnone
        · exact h.nobody o' hold
        · exact absurd hnone (by simp)
      · rw [h.silent, destroy_nobody hid]
        rfl
    next => exact absurd hnext (by simp)

/-- Along every chain of moves nothing is ever called. -/
theorem reach_idle (h : (lifetime husk run thread fn name).Reach ok s) : Idle s := by
  refine h.invariant ?_ fun _ _ _ _ _ hnext hI => hI.apply hnext
  rintro s (rfl | rfl) <;> refine ⟨fun o ho => ?_, rfl⟩
  all_goals
    obtain rfl := Option.some.inj (List.mem_singleton.mp ho)
    rfl

/-- **The promise of `WarCleanUp`.** When everything a chain of moves produced
has been destroyed, the calls made are those promised — the handler once if
the final owner was destroyed on the thread of the construction, none
otherwise — if and only if the final owner was destroyed on another thread. -/
theorem cleanup_promise (h : (lifetime husk run thread fn name).Reach ok s)
    (_hall : s.allDestroyed) {t : Nat} (_hend : s.endedOn t) :
    s.calls = (if t = thread then [fn] else []) ↔ t ≠ thread := by
  rw [(reach_idle h).silent]
  by_cases ht : t = thread
  · simp [ht]
  · simp [ht]

/-- Constructed on thread 1, moved once, and destroyed on thread 2: no call, as it
should be. -/
theorem cleanup_promise_elsewhere :
    ∃ s : State Nat, (lifetime id (fun _ => none) 1 7 "socket").Reach (fun _ _ => True) s ∧
      s.endedOn 2 ∧ s.calls = [] := by
  have hrun : ∃ s, (lifetime id (fun _ => none) 1 7 "socket").guardedRun (fun _ _ => True)
      { objects := [some (.construct 1 7 "socket")] } [.move, .destroy 0 1, .destroy 1 2] =
      some s ∧ (∀ o ∈ s.objects, o.isNone = true) ∧ (s.objects.length - 1, 2) ∈ s.destroyed :=
    ⟨_, rfl, by simp, by simp⟩
  obtain ⟨s, hs, hall, hend⟩ := hrun
  have hreach := Lts.reach_of_guardedRun (.start (Or.inl rfl)) hs
  exact ⟨s, hreach, hend, (cleanup_promise hreach hall hend).mpr (by decide)⟩

/-- Constructed and destroyed on thread 1: the handler is not called. -/
theorem handler_not_called :
    ∃ s : State Nat, (lifetime id (fun _ => none) 1 7 "socket").Reach (fun _ _ => True) s ∧
      s.allDestroyed ∧ s.endedOn 1 ∧ s.calls = [] := by
  have hrun : ∃ s, (lifetime id (fun _ => none) 1 7 "socket").guardedRun (fun _ _ => True)
      { objects := [some (.construct 1 7 "socket")] } [.destroy 0 1] = some s ∧
      (∀ o ∈ s.objects, o.isNone = true) ∧ (s.objects.length - 1, 1) ∈ s.destroyed ∧
      s.calls = [] := ⟨_, rfl, by simp, by simp, rfl⟩
  obtain ⟨s, hs, hall, hend, hcalls⟩ := hrun
  exact ⟨s, Lts.reach_of_guardedRun (.start (Or.inl rfl)) hs, hall, hend, hcalls⟩

end Warlib.CleanUp
