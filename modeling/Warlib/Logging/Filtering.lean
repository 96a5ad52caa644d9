import Mathlib.Data.List.Count
import Warlib.Logging.Model

/-!
# Who is handed an event

`DoSubmit` walks through the attached handlers and compares the event's level
with each handler's; it never looks at a handler's filter. `doSubmit_eq` is
the loop in closed form: one call for each attachment whose level admits the
event, in the order of the attachments, and nothing else changes.

What the README and `AddHandler` promise — each handler sees what its own
level *and* filter admit — is `Filtered`, and `per_handler_filtering` says for
which engines and events the loop keeps the promise.
-/

namespace Warlib.Logging

/-- The handler's level admits the event: the test `DoSubmit` makes. -/
def LogEventHandler.admits (h : LogEventHandler) (log : Log) : Bool := decide (log.level ≤ h.level)

/-- The event is relevant according to the handler's own level and filter. -/
def LogEventHandler.wants (h : LogEventHandler) (log : Log) : Bool :=
  h.admits log && Filter.meets log.filter h.filter

variable (e : LogEngine) (log : Log) (now : Int)

/-! ## The delivery loop -/

/-- The loop of `DoSubmit` over any handlers: what it does to `submitted`
depends on the handlers still to come only. -/
theorem foldl_submit (si : SubmitInfo) (ps : List Nat) :
    ps.foldl (fun e p => if si.level ≤ (e.object p).level then e.callSubmit p si else e) e =
      { e with submitted := e.submitted ++
        (ps.filter fun p => decide (si.level ≤ (e.object p).level)).map fun p => (p, si) } := by
  induction ps generalizing e with
  | nil => simp
  | cons p ps ih =>
    rw [List.foldl_cons]
    by_cases h : si.level ≤ (e.object p).level
    · rw [if_pos h, ih, List.filter_cons_of_pos (by simpa using h), List.map_cons,
        LogEngine.callSubmit]
      simp only [List.append_assoc, List.cons_append, List.nil_append]
    · rw [if_neg h, ih, List.filter_cons_of_neg (by simpa using h)]

/-- **The delivery loop.** Every attachment whose level admits the event is
called once, in order, with the event as it was submitted. -/
theorem doSubmit_eq :
    e.doSubmit log now = { e with submitted := e.submitted ++
      (e.handlers.filter fun p => (e.object p).admits log).map fun p => (p, log.info now) } :=
  foldl_submit e (log.info now) e.handlers

@[simp] theorem doSubmit_object : (e.doSubmit log now).object = e.object := by rw [doSubmit_eq]

@[simp] theorem doSubmit_handlers : (e.doSubmit log now).handlers = e.handlers := by
  rw [doSubmit_eq]

@[simp] theorem doSubmit_currentLevel : (e.doSubmit log now).currentLevel = e.currentLevel := by
  rw [doSubmit_eq]

@[simp] theorem doSubmit_currentFilter : (e.doSubmit log now).currentFilter = e.currentFilter := by
  rw [doSubmit_eq]

/-- How often a handler is called with what. -/
theorem count_submitted (p : Nat) (si : SubmitInfo) :
    (e.submit log now).submitted.count (p, si) = e.submitted.count (p, si) +
      if si = log.info now ∧ (e.object p).admits log = true then e.handlers.count p else 0 := by
  show (e.doSubmit log now).submitted.count (p, si) = _
  rw [doSubmit_eq, List.count_append]
  congr 1
  by_cases hsi : si = log.info now
  · subst hsi
    have hinj : Function.Injective fun q : Nat => (q, log.info now) :=
      fun q q' h => (Prod.mk.inj h).1
    rw [List.count_map_of_injective _ _ hinj]
    by_cases hadmits : (e.object p).admits log = true
    · rw [if_pos ⟨rfl, hadmits⟩, List.count_filter (p := fun q => (e.object q).admits log) hadmits]
    · rw [if_neg fun h => hadmits h.2, List.count_eq_zero]
      intro hmem
      exact hadmits (List.mem_filter.mp hmem).2
  · rw [if_neg fun h => hsi h.1, List.count_eq_zero]
    intro hmem
    obtain ⟨q, -, hq⟩ := List.mem_map.mp hmem
    exact hsi (Prod.mk.inj hq).2.symm

/-! ## Each handler according to its own level and filter -/

/-- Submitting the event calls each attached handler that wants it exactly once,
with this event, and calls nobody else. -/
def LogEngine.Filtered : Prop :=
  ∀ p si, (e.submit log now).submitted.count (p, si) = e.submitted.count (p, si) +
    if p ∈ e.handlers ∧ si = log.info now ∧ (e.object p).wants log = true then 1 else 0

/-- **Per-handler filtering.** An event goes to exactly the handlers that want it,
once each, if and only if every attached handler whose level admits the event
has a matter in common with it, and those that do are attached once. -/
theorem per_handler_filtering :
    e.Filtered log now ↔
      (∀ p ∈ e.handlers, log.level ≤ (e.object p).level →
        Filter.meets log.filter (e.object p).filter = true) ∧
      ∀ p ∈ e.handlers, (e.object p).wants log = true → e.handlers.count p = 1 := by
  constructor
  · intro h
    -- what the promise says about one attached handler whose level admits the event
    have hone : ∀ p ∈ e.handlers, (e.object p).admits log = true →
        (e.object p).wants log = true ∧ e.handlers.count p = 1 := by
      intro p hp hadmits
      have hcount := h p (log.info now)
      rw [count_submitted, if_pos ⟨rfl, hadmits⟩] at hcount
      have hpos : 0 < e.handlers.count p := List.count_pos_iff.mpr hp
      by_cases hwants : (e.object p).wants log = true
      · rw [if_pos ⟨hp, rfl, hwants⟩] at hcount
        exact ⟨hwants, by omega⟩
      · rw [if_neg fun hall => hwants hall.2.2] at hcount
        omega
    refine ⟨fun p hp hle => ?_, fun p hp hwants => ?_⟩
    · obtain ⟨hwants, -⟩ := hone p hp (by simpa [LogEventHandler.admits] using hle)
      unfold LogEventHandler.wants at hwants
      exact (Bool.and_eq_true_iff.mp hwants).2
    · unfold LogEventHandler.wants at hwants
      exact (hone p hp (Bool.and_eq_true_iff.mp hwants).1).2
  · rintro ⟨hmeets, honce⟩ p si
    rw [count_submitted]
    congr 1
    by_cases hcall : si = log.info now ∧ (e.object p).admits log = true
    · obtain ⟨hsi, hadmits⟩ := hcall
      rw [if_pos ⟨hsi, hadmits⟩]
      by_cases hp : p ∈ e.handlers
      · have hwants : (e.object p).wants log = true := by
          have hle : log.level ≤ (e.object p).level := by
            simpa [LogEventHandler.admits] using hadmits
          rw [LogEventHandler.wants, hadmits, hmeets p hp hle, Bool.and_self]
        rw [if_pos ⟨hp, hsi, hwants⟩]
        exact honce p hp hwants
      · rw [if_neg fun hall => hp hall.1]
        exact List.count_eq_zero.mpr hp
    · rw [if_neg hcall, if_neg]
      rintro ⟨-, hsi, hwants⟩
      unfold LogEventHandler.wants at hwants
      exact hcall ⟨hsi, (Bool.and_eq_true_iff.mp hwants).1⟩

/-- A general message goes to a log that was set up for file-system operations
alone, next to the console. -/
theorem io_log_gets_general : ¬LogEngine.Filtered
    { object := fun p => if p = 0 then ⟨"console", .notice, LogAbout.general.bit⟩
        else ⟨"io", .notice, LogAbout.io.bit⟩,
      handlers := [0, 1] }
    ⟨.error, LogAbout.general.bit, "no route to host"⟩ 0 := by
  intro h
  have hcount := h 1 (Log.info ⟨.error, LogAbout.general.bit, "no route to host"⟩ 0)
  exact absurd hcount (by decide)

end Warlib.Logging
