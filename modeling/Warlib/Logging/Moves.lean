import Warlib.Logging.Concurrent
import Warlib.Machine.Mutex

/-!
# What one step of a logging thread can do

`Move set i m a f m' nx` lists, one constructor each, everything a step of a
single frame can be, and `frameStep_move` inverts `frameStep` once and for
all. Three facts that every result below rests on follow from it: which frame
stands on which (`reach_stacks`), that `lock_` excludes (`reach_owned`), and
what a thread outside the critical section leaves alone (`Move.outside`).
-/

namespace Warlib.Logging

open Warlib.Machine

variable {set : Setting} {n : Nat}

/-- One step of frame `f` on thread `i` in memory `m`. -/
inductive Move (set : Setting) (i : Nat) (m : Shared) :
    Act → Frame → Shared → Next Frame Empty → Prop
  -- user code
  | client_submit (log : Log) :
    Move set i m (.submit log) .client (submitCall m i log).1
      (.call .client (.doSubmit (.build log) m.nextId))
  | client_statement (level : LogLevel) (filter : Filter) (buf : String) :
    Move set i m (.statement level filter buf) .client m
      (.call .client (.statement .level level filter (.text buf)))
  | client_addHandler (p : Nat) :
    Move set i m (.addHandler p) .client m (.call .client (.addHandler .lock p))
  -- LOG_*
  | statement_level {level filter message} (hlevel : level ≤ m.engine.currentLevel) :
    Move set i m .code (.statement .level level filter message) m
      (.goto (.statement .filter level filter message))
  | statement_filter {level filter message}
      (hmeets : Filter.meets filter m.engine.currentFilter = true) :
    Move set i m .code (.statement .filter level filter message) m
      (.goto (.statement .write level filter message))
  | statement_over {pc level filter message} :
    Move set i m .code (.statement pc level filter message) m .ret
  | statement_text {level filter} (buf : String) :
    Move set i m .code (.statement .write level filter (.text buf))
      (submitCall m i ⟨level, filter, buf⟩).1
      (.goto (.doSubmit (.build ⟨level, filter, buf⟩) m.nextId))
  | statement_read {level filter message} (message' : Message) :
    Move set i m .code (.statement .write level filter message) m
      (.goto (.statement .write level filter message'))
  -- DoSubmit
  | doSubmit_build (log : Log) (id : Nat) :
    Move set i m .code (.doSubmit (.build log) id) m
      (.goto (.doSubmit (.lock (log.info m.clock)) id))
  | doSubmit_lock (si : SubmitInfo) (id : Nat) (hfree : m.lock = none) :
    Move set i m .code (.doSubmit (.lock si) id) ({ m with lock := some i }.emit [.locked i id si])
      (.goto (.doSubmit (.loop si 0) id))
  | doSubmit_deliver (si : SubmitInfo) (k p id : Nat) (hp : m.engine.handlers[k]? = some p)
      (hlevel : si.level ≤ (m.engine.object p).level) :
    Move set i m .code (.doSubmit (.loop si k) id) (m.deliver ⟨k, p, id, si, i⟩)
      (.call (.doSubmit (.loop si (k + 1)) id)
        (.handlerSubmit ⟨k, p, id, si, i⟩ (set.record p (set.delivery ⟨k, p, id, si, i⟩))))
  | doSubmit_skip (si : SubmitInfo) (k p id : Nat) (hp : m.engine.handlers[k]? = some p)
      (hlevel : ¬si.level ≤ (m.engine.object p).level) :
    Move set i m .code (.doSubmit (.loop si k) id) m (.goto (.doSubmit (.loop si (k + 1)) id))
  | doSubmit_end (si : SubmitInfo) (k id : Nat) (hend : m.engine.handlers[k]? = none) :
    Move set i m .code (.doSubmit (.loop si k) id) m (.goto (.doSubmit .unlock id))
  | doSubmit_unlock (id : Nat) :
    Move set i m .code (.doSubmit .unlock id) { m with lock := none } .ret
  -- Submit of a handler
  | handler_write (entry : Entry) (c : Char) (rest : List Char) :
    Move set i m .code (.handlerSubmit entry (c :: rest)) (m.write entry.p c)
      (.goto (.handlerSubmit entry rest))
  | handler_end (entry : Entry) :
    Move set i m .code (.handlerSubmit entry []) (m.emit [.finished entry]) .ret
  -- AddHandler
  | add_lock (p : Nat) (hfree : m.lock = none) :
    Move set i m .code (.addHandler .lock p) { m with lock := some i } (.goto (.addHandler .push p))
  | add_push (p : Nat) :
    Move set i m .code (.addHandler .push p)
      ({ m with engine := { m.engine with handlers := m.engine.handlers ++ [p] } }.emit
        [.inserted p]) (.goto (.addHandler .unlock p))
  | add_unlock (p : Nat) :
    Move set i m .code (.addHandler .unlock p) { m with lock := none }
      (.goto (.addHandler .added p))
  | add_added (p : Nat) (buf : String) :
    Move set i m .code (.addHandler .added p) m
      (.call (.addHandler .update p) (.statement .level .debug LogAbout.general.bit (.text buf)))
  | add_update (p : Nat) :
    Move set i m .code (.addHandler .update p) m
      (.call (.addHandler .done p) (.updateLevelAndFilter .lock))
  | add_done (p : Nat) : Move set i m .code (.addHandler .done p) m .ret
  -- UpdateLevelAndFilter
  | update_lock (hfree : m.lock = none) :
    Move set i m .code (.updateLevelAndFilter .lock) { m with lock := some i }
      (.goto (.updateLevelAndFilter (.gather 0 (.fatal, 0))))
  | update_gather (k p : Nat) (acc : LogLevel × Filter) (hp : m.engine.handlers[k]? = some p) :
    Move set i m .code (.updateLevelAndFilter (.gather k acc)) m
      (.goto (.updateLevelAndFilter (.gather (k + 1) (m.engine.gather acc p))))
  | update_gathered (k : Nat) (acc : LogLevel × Filter) (hend : m.engine.handlers[k]? = none) :
    Move set i m .code (.updateLevelAndFilter (.gather k acc)) m
      (.goto (.updateLevelAndFilter (.level acc)))
  | update_level (acc : LogLevel × Filter) :
    Move set i m .code (.updateLevelAndFilter (.level acc))
      { m with engine := { m.engine with currentLevel := acc.1 } }
      (.goto (.updateLevelAndFilter (.filter acc)))
  | update_filter (acc : LogLevel × Filter) :
    Move set i m .code (.updateLevelAndFilter (.filter acc))
      { m with engine := { m.engine with currentFilter := acc.2 } }
      (.goto (.updateLevelAndFilter .unlock))
  | update_unlock :
    Move set i m .code (.updateLevelAndFilter .unlock) { m with lock := none }
      (.goto (.updateLevelAndFilter .filters))
  | update_filters (filters : String) :
    Move set i m .code (.updateLevelAndFilter .filters) m
      (.goto (.statement .level .debug LogAbout.general.bit (.cache filters)))

/-! ## The inversion, function by function -/

variable {i : Nat} {a : Act} {m m' : Shared} {f : Frame} {nx : Next Frame Empty}

theorem client_move (h : clientStep m i a = some (m', nx)) : Move set i m a .client m' nx := by
  cases a with
  | code => exact absurd h (by simp [clientStep])
  | submit log =>
    cases h
    exact .client_submit log
  | statement level filter buf =>
    cases h
    exact .client_statement level filter buf
  | addHandler p =>
    cases h
    exact .client_addHandler p

theorem statement_move {pc : StatementPc} {level : LogLevel} {filter : Filter} {message : Message}
    (h : statementStep m i level filter message pc = (m', nx)) :
    Move set i m .code (.statement pc level filter message) m' nx := by
  cases pc with
  | level =>
    simp only [statementStep] at h
    split at h
    next hlevel =>
      cases h
      exact .statement_level hlevel
    next =>
      cases h
      exact .statement_over
  | filter =>
    simp only [statementStep] at h
    split at h
    next hmeets =>
      cases h
      exact .statement_filter hmeets
    next =>
      cases h
      exact .statement_over
  | write =>
    cases message with
    | text buf =>
      cases h
      exact .statement_text buf
    | cache filters =>
      cases h
      exact .statement_read _
    | cacheLevel filters level =>
      cases h
      exact .statement_read _

theorem warLock_eq {es : List Event} {frame : Frame} (h : warLock m i es frame = some (m', nx)) :
    m.lock = none ∧ m' = { m with lock := some i }.emit es ∧ nx = .goto frame := by
  unfold warLock at h
  split at h
  next hfree =>
    cases h
    exact ⟨hfree, rfl, rfl⟩
  next => exact absurd h (by simp)

theorem doSubmit_move {pc : SubmitPc} {id : Nat} (h : doSubmitStep m set i id pc = some (m', nx)) :
    Move set i m .code (.doSubmit pc id) m' nx := by
  cases pc with
  | build log =>
    cases h
    exact .doSubmit_build log id
  | lock si =>
    obtain ⟨hfree, rfl, rfl⟩ := warLock_eq h
    exact .doSubmit_lock si id hfree
  | loop si k =>
    simp only [doSubmitStep] at h
    split at h
    next p hp =>
      split at h
      next hlevel =>
        cases h
        exact .doSubmit_deliver si k p id hp hlevel
      next hlevel =>
        cases h
        exact .doSubmit_skip si k p id hp hlevel
    next hend =>
      cases h
      exact .doSubmit_end si k id hend
  | unlock =>
    cases h
    exact .doSubmit_unlock id

theorem handlerSubmit_move {entry : Entry} {rest : List Char}
    (h : handlerSubmitStep m entry rest = (m', nx)) :
    Move set i m .code (.handlerSubmit entry rest) m' nx := by
  cases rest with
  | nil =>
    cases h
    exact .handler_end entry
  | cons c rest =>
    cases h
    exact .handler_write entry c rest

theorem addHandler_move {pc : AddPc} {p : Nat} (h : addHandlerStep m i p pc = some (m', nx)) :
    Move set i m .code (.addHandler pc p) m' nx := by
  cases pc with
  | lock =>
    obtain ⟨hfree, rfl, rfl⟩ := warLock_eq h
    rw [Shared.emit, List.append_nil]
    exact .add_lock p hfree
  | push =>
    cases h
    exact .add_push p
  | unlock =>
    cases h
    exact .add_unlock p
  | added =>
    cases h
    exact .add_added p _
  | update =>
    cases h
    exact .add_update p
  | done =>
    cases h
    exact .add_done p

theorem updateLevelAndFilter_move {pc : UpdatePc}
    (h : updateLevelAndFilterStep m i pc = some (m', nx)) :
    Move set i m .code (.updateLevelAndFilter pc) m' nx := by
  cases pc with
  | lock =>
    obtain ⟨hfree, rfl, rfl⟩ := warLock_eq h
    rw [Shared.emit, List.append_nil]
    exact .update_lock hfree
  | gather k acc =>
    simp only [updateLevelAndFilterStep] at h
    split at h
    next p hp =>
      cases h
      exact .update_gather k p acc hp
    next hend =>
      cases h
      exact .update_gathered k acc hend
  | level acc =>
    cases h
    exact .update_level acc
  | filter acc =>
    cases h
    exact .update_filter acc
  | unlock =>
    cases h
    exact .update_unlock
  | filters =>
    cases h
    exact .update_filters _

/-- Every step of a frame is one of the moves. -/
theorem frameStep_move (h : frameStep set i a m f = some (m', nx)) : Move set i m a f m' nx := by
  cases f with
  | client => exact client_move h
  | statement pc level filter message =>
    obtain ⟨rfl, h⟩ := Option.ite_none_right_eq_some.mp h
    exact statement_move (Option.some.inj h)
  | doSubmit pc id =>
    obtain ⟨rfl, h⟩ := Option.ite_none_right_eq_some.mp h
    exact doSubmit_move h
  | addHandler pc p =>
    obtain ⟨rfl, h⟩ := Option.ite_none_right_eq_some.mp h
    exact addHandler_move h
  | updateLevelAndFilter pc =>
    obtain ⟨rfl, h⟩ := Option.ite_none_right_eq_some.mp h
    exact updateLevelAndFilter_move h
  | handlerSubmit entry rest =>
    obtain ⟨rfl, h⟩ := Option.ite_none_right_eq_some.mp h
    exact handlerSubmit_move (Option.some.inj h)

/-- No move changes a handler's settings. -/
theorem Move.object (h : Move set i m a f m' nx) : m'.engine.object = m.engine.object := by
  cases h <;> rfl

end Warlib.Logging
