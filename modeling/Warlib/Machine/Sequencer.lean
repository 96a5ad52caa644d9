import Warlib.Machine.History
import Warlib.Machine.Lts

/-!
# A sequencer

What a single-thread task sequencer is for, with nothing in it but a queue:
tasks are accepted in some order, one at a time is taken from the front, and
it is started and later finished, or dropped. Dropping is the clean cut: from
then on nothing is started any more.

Three theorems about every reachable state: the tasks started are a prefix
of the tasks accepted (`started_prefix`); a task is started only when
everything started before has finished (`exclusive`); and when nothing was
dropped, an idle sequencer with an empty queue has started everything
(`complete`). Programs inherit them along a `Simulation`.
-/

namespace Warlib.Machine

variable {α : Type}

/-- What the sequencer has in hand: nothing, a task taken and not yet
started, or the task it runs. -/
inductive Hand (α : Type)
  | idle
  | offered (x : α)
  | running (x : α)
  deriving DecidableEq, Repr

def Hand.pending : Hand α → List α
  | .offered x => [x]
  | _ => []

def Hand.current : Hand α → List α
  | .running x => [x]
  | _ => []

/-- The history of a sequencer. -/
inductive Happening (α : Type)
  | accepted (x : α)
  | started (x : α)
  | finished (x : α)
  deriving DecidableEq, Repr

@[simp] def Happening.accepted? : Happening α → Option α
  | .accepted x => some x
  | _ => none

@[simp] def Happening.started? : Happening α → Option α
  | .started x => some x
  | _ => none

@[simp] def Happening.finished? : Happening α → Option α
  | .finished x => some x
  | _ => none

/-- The queue, the hand, whether something was dropped, and the history. -/
structure Sequencer (α : Type) where
  waiting : List α := []
  hand : Hand α := .idle
  cut : Bool := false
  hist : List (Happening α) := []

namespace Sequencer

def accepted (s : Sequencer α) : List α := s.hist.filterMap Happening.accepted?
def started (s : Sequencer α) : List α := s.hist.filterMap Happening.started?
def finished (s : Sequencer α) : List α := s.hist.filterMap Happening.finished?

inductive Op (α : Type)
  | accept (x : α)
  | take
  | start
  | drop
  | finish

def step (s : Sequencer α) : Op α → Option (Sequencer α)
  | .accept x => some { s with waiting := s.waiting ++ [x], hist := s.hist ++ [.accepted x] }
  | .take =>
    match s.hand, s.waiting with
    | .idle, x :: rest => some { s with waiting := rest, hand := .offered x }
    | _, _ => none
  | .start =>
    match s.hand, s.cut with
    | .offered x, false => some { s with hand := .running x, hist := s.hist ++ [.started x] }
    | _, _ => none
  | .drop =>
    match s.hand with
    | .offered _ => some { s with hand := .idle, cut := true }
    | _ => none
  | .finish =>
    match s.hand with
    | .running x => some { s with hand := .idle, hist := s.hist ++ [.finished x] }
    | _ => none

/-- The sequencer as a transition system. -/
def lts : Lts (Sequencer α) (Op α) where
  init s := s = {}
  next := step

/-- Everything started before a start has finished. -/
def Exclusive (hist : List (Happening α)) : Prop :=
  Each (fun pre e => ∀ x, e = .started x →
    pre.filterMap Happening.started? = pre.filterMap Happening.finished?) hist

/-- The invariant: the queue continues the tasks started, unless the cut has
come; and only the task in hand is unfinished. -/
structure Inv (s : Sequencer α) : Prop where
  order : s.started <+: s.accepted
  whole : s.cut = false → s.accepted = s.started ++ s.hand.pending ++ s.waiting
  ended : s.started = s.finished ++ s.hand.current
  exclusive : Exclusive s.hist

theorem inv_init : Inv ({} : Sequencer α) :=
  ⟨List.prefix_refl _, fun _ => rfl, rfl, each_nil _⟩

theorem step_inv {s s' : Sequencer α} {op : Op α} (h : s.step op = some s') (hI : Inv s) :
    Inv s' := by
  obtain ⟨horder, hwhole, hended, hexcl⟩ := hI
  unfold started accepted finished at *
  cases op with
  | accept x =>
    cases h
    refine ⟨?_, fun hcut => ?_, ?_, ?_⟩
    · simpa [started, accepted, List.filterMap_cons] using
        horder.trans (List.prefix_append _ [x])
    · simp [started, accepted, List.filterMap_cons, hwhole hcut]
    · simpa [started, finished, List.filterMap_cons] using hended
    · exact hexcl.append_one fun y hy => by simp at hy
  | take =>
    simp only [step] at h
    split at h
    next x rest hhand hwait =>
      cases h
      refine ⟨horder, fun hcut => ?_, ?_, hexcl⟩
      · have hw := hwhole hcut
        simp only [hhand, hwait, Hand.pending] at hw ⊢
        simpa [accepted, started] using hw
      · rw [hhand] at hended
        exact hended
    next => exact absurd h (by simp)
  | start =>
    simp only [step] at h
    split at h
    next x hhand hcut =>
      cases h
      have hw := hwhole hcut
      rw [hhand] at hw hended
      have hquiet : s.hist.filterMap Happening.started? = s.hist.filterMap Happening.finished? := by
        simpa [Hand.current] using hended
      refine ⟨⟨s.waiting, ?_⟩, fun _ => ?_, ?_, ?_⟩
      · simpa [started, accepted, List.filterMap_cons, Hand.pending] using hw.symm
      · simpa [started, accepted, List.filterMap_cons, Hand.pending] using hw
      · simpa [started, finished, List.filterMap_cons, Hand.current] using hquiet
      · exact hexcl.append_one fun y _ => hquiet
    next => exact absurd h (by simp)
  | drop =>
    simp only [step] at h
    split at h
    next x hhand =>
      cases h
      refine ⟨horder, fun hcut => absurd hcut (by simp), ?_, hexcl⟩
      rw [hhand] at hended
      exact hended
    next => exact absurd h (by simp)
  | finish =>
    simp only [step] at h
    split at h
    next x hhand =>
      cases h
      rw [hhand] at hended
      refine ⟨?_, fun hcut => ?_, ?_, ?_⟩
      · simpa [started, accepted, List.filterMap_cons] using horder
      · have hw := hwhole hcut
        rw [hhand] at hw
        simpa [started, accepted, List.filterMap_cons, Hand.pending] using hw
      · simpa [started, finished, List.filterMap_cons, Hand.current] using hended
      · exact hexcl.append_one fun y hy => by simp at hy
    next => exact absurd h (by simp)

variable {ok : Sequencer α → Op α → Prop} {s : Sequencer α}

theorem reach_inv (h : (lts (α := α)).Reach ok s) : Inv s :=
  h.invariant (fun _ hs => hs ▸ inv_init) fun _ _ _ _ _ hn hI => step_inv hn hI

/-- The tasks started are a prefix of the tasks accepted. -/
theorem started_prefix (h : (lts (α := α)).Reach ok s) : s.started <+: s.accepted :=
  (reach_inv h).order

/-- A task is started only when everything started before has finished. -/
theorem exclusive (h : (lts (α := α)).Reach ok s) : Exclusive s.hist :=
  (reach_inv h).exclusive

/-- Without a cut, an idle sequencer with an empty queue has started everything. -/
theorem complete (h : (lts (α := α)).Reach ok s) (hcut : s.cut = false) (hidle : s.hand = .idle)
    (hempty : s.waiting = []) : s.started = s.accepted := by
  have hw := (reach_inv h).whole hcut
  rw [hidle, hempty] at hw
  simpa [Hand.pending] using hw.symm

end Sequencer

end Warlib.Machine
