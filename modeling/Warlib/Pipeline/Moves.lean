import Warlib.Pipeline.Step

/-!
# What one step can do

`Move i m a ctl f m' nx` lists, one constructor each, everything a step of a
single frame can be: `frameStep_move` inverts `frameStep` once and for all.
Every invariant of the pipeline below is a case analysis over `Move` — none
unfolds a function of `Step.lean` again — so a change of one function of the
source shows up here and in the cases that carry its name.
-/

namespace Warlib.Pipeline

open Warlib.Machine

/-- User code: whose submission it is, if any. -/
def Frame.userCode : Frame → Option (Option Nat)
  | .client => some none
  | .fn id => some (some id)
  | .completion _ => some none
  | _ => none

/-- User code runs in three kinds of frames. -/
theorem Frame.of_userCode {P : Frame → Prop} {f : Frame} (hf : f.userCode.isSome = true)
    (hclient : P .client) (hfn : ∀ id, P (.fn id)) (hcompletion : ∀ tok, P (.completion tok)) :
    P f := by
  cases f with
  | client => exact hclient
  | fn id => exact hfn id
  | completion tok => exact hcompletion tok
  | _ => exact absurd hf (by simp [userCode])

/-- One step of frame `f` on thread `i` in memory `m`. -/
inductive Move (i : Nat) (m : Mem) : Act → Ctl Exn → Frame → Mem → Next Frame Exn → Prop
  -- user code
  | client_enter {ctl} (c : Call) :
    Move i m (.call c) ctl .client (m.enter none c) (.call .client (c.frame m.nextId))
  | fn_enter {ctl} (id : Nat) (c : Call) :
    Move i m (.call c) ctl (.fn id) (m.enter (some id) c) (.call (.fn id) (c.frame m.nextId))
  | completion_enter {ctl} (tok : Nat) (c : Call) :
    Move i m (.call c) ctl (.completion tok) (m.enter none c)
      (.call (.completion tok) (c.frame m.nextId))
  | user_set {ctl} (f : Frame) (p : Nat) (o : Outcome) (hf : f.userCode.isSome = true)
      (hp : m.promises (.given p) = none) :
    Move i m (.setPromise p o) ctl f (m.fulfil (.given p) o) (.goto f)
  | user_set_again {ctl} (f : Frame) (p : Nat) (o : Outcome) (hf : f.userCode.isSome = true)
      (hp : m.promises (.given p) ≠ none) :
    Move i m (.setPromise p o) ctl f m (.goto f)
  | fn_ret {ctl} (id : Nat) : Move i m .ret ctl (.fn id) m .ret
  | fn_throw {ctl} (id : Nat) (e : Exn) : Move i m (.throw e) ctl (.fn id) m (.thr e)
  | completion_ret {ctl} (tok : Nat) : Move i m .ret ctl (.completion tok) m .ret
  -- Post, AddingTask
  | post_dismissed {ctl} (t : Task) (hc : m.closing = true) :
    Move i m .code ctl (.post .closing t) (m.emit [.dismissed .post t]) .ret
  | post_open {ctl} (t : Task) (hc : m.closing = false) :
    Move i m .code ctl (.post .closing t) m (.goto (.post .adding t))
  | post_full {ctl} (t : Task) (hc : m.count + 1 > m.capacity) :
    Move i m .code ctl (.post .adding t) { m with count := m.count + 1 } (.goto (.post .undo t))
  | post_room {ctl} (t : Task) (hc : ¬m.count + 1 > m.capacity) :
    Move i m .code ctl (.post .adding t) { m with count := m.count + 1 }
      (.goto (.post .enqueue t))
  | post_undo {ctl} (t : Task) :
    Move i m .code ctl (.post .undo t) ({ m with count := m.count - 1 }.emit [.rejected t])
      (.thr m.outOfCapacity)
  | post_enqueue {ctl} (t : Task) :
    Move i m .code ctl (.post .enqueue t) (m.asioPost (.execTask t)) .ret
  | postToken {ctl} (t : Task) (tok : Nat) :
    Move i m .code ctl (.postToken t tok) (m.asioPost (.token t tok)) .ret
  -- PostWithPromise
  | postWithPromise_start {ctl} (id p : Nat) :
    Move i m .code ctl (.postWithPromise .start id p) m
      (.call (.postWithPromise .after id p) (.post .closing (.promise id p)))
  | postWithPromise_ret (id p : Nat) :
    Move i m .code .ret (.postWithPromise .after id p) (m.emit [.submitted (.promise id p)]) .ret
  | postWithPromise_thr (id p : Nat) (e : Exn) :
    Move i m .code (.thr e) (.postWithPromise .after id p) m (.thr e)
  -- Dispatch
  | dispatch_dismissed {ctl} (t : Task) (hc : m.closing = true) :
    Move i m .code ctl (.dispatch t) (m.emit [.dismissed .dispatch t]) .ret
  | dispatch_inline {ctl} (t : Task) (hc : m.closing = false) (hi : i = 0) :
    Move i m .code ctl (.dispatch t) (m.emit [.inlined t]) (.goto (.execTask .entry t false true))
  | dispatch_post {ctl} (t : Task) (hc : m.closing = false) (hi : i ≠ 0) :
    Move i m .code ctl (.dispatch t) m (.goto (.post .closing t))
  -- PostSynchronously
  | postSynchronously_start {ctl} (id : Nat) :
    Move i m .code ctl (.postSynchronously .start id) m
      (.call (.postSynchronously .dispatching id) (.dispatch (.sync id)))
  | postSynchronously_ret (id : Nat) :
    Move i m .code .ret (.postSynchronously .dispatching id) (m.emit [.submitted (.sync id)])
      (.goto (.postSynchronously .waiting id))
  | postSynchronously_thr (id : Nat) (e : Exn) :
    Move i m .code (.thr e) (.postSynchronously .dispatching id)
      (m.emit [.syncEnded id (.exn e)]) (.thr e)
  | postSynchronously_value {ctl} (id : Nat) (hp : m.promises (.sync id) = some .value) :
    Move i m .code ctl (.postSynchronously .waiting id) (m.emit [.syncEnded id .value]) .ret
  | postSynchronously_exn {ctl} (id : Nat) (e : Exn)
      (hp : m.promises (.sync id) = some (.exn e)) :
    Move i m .code ctl (.postSynchronously .waiting id) (m.emit [.syncEnded id (.exn e)])
      (.thr e)
  -- PostWithTimer
  | postWithTimer_dismissed {ctl} (t : Task) (hc : m.closing = true) :
    Move i m .code ctl (.postWithTimer .closing t) (m.emit [.dismissed .timer t]) .ret
  | postWithTimer_open {ctl} (t : Task) (hc : m.closing = false) :
    Move i m .code ctl (.postWithTimer .closing t) m (.goto (.postWithTimer .start t))
  | postWithTimer_start {ctl} (t : Task) :
    Move i m .code ctl (.postWithTimer .start t)
      { m with timers := m.timers ++ [⟨t, none⟩] } .ret
  | postWithTimerToken {ctl} (t : Task) (tok : Nat) :
    Move i m .code ctl (.postWithTimerToken t tok)
      { m with timers := m.timers ++ [⟨t, some tok⟩] } .ret
  -- Close
  | close_again {ctl} (hc : m.closing = true) :
    Move i m .code ctl (.close .test) (m.emit [.closeReturned (isPipelineThread i)]) .ret
  | close_open {ctl} (hc : m.closing = false) :
    Move i m .code ctl (.close .test) m (.goto (.close .enqueue))
  | close_enqueue {ctl} :
    Move i m .code ctl (.close .enqueue) (m.asioPost .stop) (.goto (.close .set))
  | close_set {ctl} :
    Move i m .code ctl (.close .set)
      ({ m with closing := true }.emit [.closeReturned (isPipelineThread i)]) .ret
  -- ExecTask_
  | exec_entry_counting {ctl} (t : Task) (ac : Bool) :
    Move i m .code ctl (.execTask .entry t true ac)
      ({ m with count := m.count - 1 }.emit [.entered t true])
      (.goto (.execTask .closing t true ac))
  | exec_entry {ctl} (t : Task) (ac : Bool) :
    Move i m .code ctl (.execTask .entry t false ac) (m.emit [.entered t false])
      (.goto (.execTask .closing t false ac))
  | exec_dismissed {ctl} (t : Task) (c ac : Bool) (hc : m.closing = true) :
    Move i m .code ctl (.execTask .closing t c ac) (m.emit [.dismissed .exec t]) .ret
  | exec_admitted {ctl} (t : Task) (c ac : Bool) (hc : m.closing = false) :
    Move i m .code ctl (.execTask .closing t c ac) (m.emit [.admitted t c])
      (.goto (.execTask .call t c ac))
  | exec_call {ctl} (t : Task) (c ac : Bool) :
    Move i m .code ctl (.execTask .call t c ac) (m.emit [.began t c])
      (.call (.execTask .running t c ac) t.body)
  | exec_ret (t : Task) (c ac : Bool) :
    Move i m .code .ret (.execTask .running t c ac)
      ({ m with tasksRun := m.tasksRun + 1 }.emit [.finished t c .value]) .ret
  | exec_caught (t : Task) (c : Bool) (e : Exn) :
    Move i m .code (.thr e) (.execTask .running t c true) (m.emit [.finished t c (.exn e)]) .ret
  | exec_thrown (t : Task) (c : Bool) (e : Exn) :
    Move i m .code (.thr e) (.execTask .running t c false) (m.emit [.finished t c (.exn e)])
      (.thr e)
  -- the lambda of PostSynchronously
  | sync_start {ctl} (id : Nat) :
    Move i m .code ctl (.syncCarrier .start id) m
      (.call (.syncCarrier .after id) (.execTask .entry (.user id) false false))
  | sync_value (id : Nat) (hp : m.promises (.sync id) = none) :
    Move i m .code .ret (.syncCarrier .after id) (m.fulfil (.sync id) .value) .ret
  | sync_value_again (id : Nat) (hp : m.promises (.sync id) ≠ none) :
    Move i m .code .ret (.syncCarrier .after id) m (.thr .futureError)
  | sync_exn (id : Nat) (e : Exn) (hp : m.promises (.sync id) = none) :
    Move i m .code (.thr e) (.syncCarrier .after id) (m.fulfil (.sync id) (.exn e)) .ret
  | sync_exn_again (id : Nat) (e : Exn) (hp : m.promises (.sync id) ≠ none) :
    Move i m .code (.thr e) (.syncCarrier .after id) m (.thr .futureError)
  -- the lambda of PostWithPromise
  | promise_start {ctl} (id p : Nat) :
    Move i m .code ctl (.promiseCarrier .start id p) m
      (.call (.promiseCarrier .after id p) (.execTask .entry (.user id) false false))
  | promise_ret (id p : Nat) : Move i m .code .ret (.promiseCarrier .after id p) m .ret
  | promise_exn (id p : Nat) (e : Exn) (hp : m.promises (.given p) = none) :
    Move i m .code (.thr e) (.promiseCarrier .after id p) (m.fulfil (.given p) (.exn e)) .ret
  | promise_exn_again (id p : Nat) (e : Exn) (hp : m.promises (.given p) ≠ none) :
    Move i m .code (.thr e) (.promiseCarrier .after id p) m (.thr .futureError)
  -- the lambdas of the token overloads, OnTimer_
  | token_start {ctl} (t : Task) (tok : Nat) :
    Move i m .code ctl (.tokenHandler .start t tok) m
      (.call (.tokenHandler .after t tok) (.execTask .entry t true true))
  | token_ret (t : Task) (tok : Nat) :
    Move i m .code .ret (.tokenHandler .after t tok) (m.emit [.completed tok false])
      (.goto (.completion tok))
  | token_thr (t : Task) (tok : Nat) (e : Exn) :
    Move i m .code (.thr e) (.tokenHandler .after t tok) m (.thr e)
  | timer_failed {ctl} (t : Task) : Move i m .code ctl (.onTimer t true) m .ret
  | timer_expired {ctl} (t : Task) :
    Move i m .code ctl (.onTimer t false) m (.goto (.execTask .entry t false true))
  | tokenTimer_start {ctl} (t : Task) (tok : Nat) (ec : Bool) :
    Move i m .code ctl (.tokenTimer .start t tok ec) m
      (.call (.tokenTimer .after t tok ec) (.onTimer t ec))
  | tokenTimer_ret (t : Task) (tok : Nat) (ec : Bool) :
    Move i m .code .ret (.tokenTimer .after t tok ec) (m.emit [.completed tok ec])
      (.goto (.completion tok))
  | tokenTimer_thr (t : Task) (tok : Nat) (ec : Bool) (e : Exn) :
    Move i m .code (.thr e) (.tokenTimer .after t tok ec) m (.thr e)
  -- the lambda of Close
  | stop_again {ctl} (hc : m.closed = true) : Move i m .code ctl (.stopHandler .test) m .ret
  | stop_test {ctl} (hc : m.closed = false) :
    Move i m .code ctl (.stopHandler .test) m (.goto (.stopHandler .closed))
  | stop_closed {ctl} :
    Move i m .code ctl (.stopHandler .closed) { m with closed := true }
      (.goto (.stopHandler .guard))
  | stop_guard {ctl} :
    Move i m .code ctl (.stopHandler .guard) { m with workGuard := false }
      (.goto (.stopHandler .stop))
  | stop_stop {ctl} :
    Move i m .code ctl (.stopHandler .stop) { m with stopped := true } .ret
  -- io_context::run() in Run
  | run_exn (e : Exn) : Move i m .code (.thr e) .run (m.emit [.ended (.exn e)]) .ret
  | run_stopped {ctl} (hctl : ∀ e, ctl ≠ .thr e) (hs : m.stopped = true) :
    Move i m .code ctl .run (m.emit [.ended .stopped]) .ret
  | run_take {ctl} (h : Handler) (q : List Handler) (hctl : ∀ e, ctl ≠ .thr e)
      (hs : m.stopped = false) (hq : m.queue = h :: q) :
    Move i m .code ctl .run ({ m with queue := q }.emit [.taken h]) (.call .run h.frame)
  | run_outOfWork {ctl} (hctl : ∀ e, ctl ≠ .thr e) (hs : m.stopped = false)
      (hq : m.queue = []) (hg : m.workGuard = false) (ht : m.timers = []) :
    Move i m .code ctl .run (m.emit [.ended .outOfWork]) .ret

/-! ## The inversion, function by function -/

variable {i : Nat} {a : Act} {ctl : Ctl Exn} {m m' : Mem} {nx : Next Frame Exn}

private theorem satisfy_some {p : Promise} {o : Outcome} (h : m.satisfy p o = some m') :
    m.promises p = none ∧ m' = m.fulfil p o := by
  unfold Mem.satisfy at h
  split at h
  next hp => exact ⟨hp, (Option.some.inj h).symm⟩
  next => exact absurd h (by simp)

private theorem satisfy_none {p : Promise} {o : Outcome} (h : m.satisfy p o = none) :
    m.promises p ≠ none := by
  unfold Mem.satisfy at h
  split at h
  next => exact absurd h (by simp)
  next hp => rw [hp]; simp

private theorem post_move {t : Task} {pc : PostPc} (h : post m t pc = (m', nx)) :
    Move i m .code ctl (.post pc t) m' nx := by
  cases pc with
  | closing =>
    rw [post] at h
    split at h
    next hc => cases h; exact .post_dismissed t hc
    next hc => cases h; exact .post_open t (by simpa using hc)
  | adding =>
    rw [post] at h
    dsimp only at h
    split at h
    next hc => cases h; exact .post_full t hc
    next hc => cases h; exact .post_room t hc
  | undo => cases h; exact .post_undo t
  | enqueue => cases h; exact .post_enqueue t

private theorem dispatch_move {t : Task} (h : dispatch i m t = (m', nx)) :
    Move i m .code ctl (.dispatch t) m' nx := by
  rw [dispatch] at h
  split at h
  next hc => cases h; exact .dispatch_dismissed t hc
  next hc =>
    have hc : m.closing = false := by simpa using hc
    split at h
    next hi => cases h; exact .dispatch_inline t hc (by simpa [isPipelineThread] using hi)
    next hi => cases h; exact .dispatch_post t hc (by simpa [isPipelineThread] using hi)

private theorem postWithPromise_move {id p : Nat} {pc : CallPc}
    (h : postWithPromise m id p ctl pc = some (m', nx)) :
    Move i m .code ctl (.postWithPromise pc id p) m' nx := by
  cases pc with
  | start => cases h; exact .postWithPromise_start id p
  | after =>
    cases ctl with
    | go => exact absurd h (by simp [postWithPromise])
    | ret => cases h; exact .postWithPromise_ret id p
    | thr e => cases h; exact .postWithPromise_thr id p e

private theorem postSynchronously_move {id : Nat} {pc : SyncPc}
    (h : postSynchronously m id ctl pc = some (m', nx)) :
    Move i m .code ctl (.postSynchronously pc id) m' nx := by
  cases pc with
  | start => cases h; exact .postSynchronously_start id
  | dispatching =>
    cases ctl with
    | go => exact absurd h (by simp [postSynchronously])
    | ret => cases h; exact .postSynchronously_ret id
    | thr e => cases h; exact .postSynchronously_thr id e
  | waiting =>
    rw [postSynchronously] at h
    split at h
    next => exact absurd h (by simp)
    next hp => cases h; exact .postSynchronously_value id hp
    next e hp => cases h; exact .postSynchronously_exn id e hp

private theorem postWithTimer_move {t : Task} {pc : TimerPc}
    (h : postWithTimer m t pc = (m', nx)) : Move i m .code ctl (.postWithTimer pc t) m' nx := by
  cases pc with
  | closing =>
    rw [postWithTimer] at h
    split at h
    next hc => cases h; exact .postWithTimer_dismissed t hc
    next hc => cases h; exact .postWithTimer_open t (by simpa using hc)
  | start => cases h; exact .postWithTimer_start t

private theorem close_move {pc : ClosePc} (h : close i m pc = (m', nx)) :
    Move i m .code ctl (.close pc) m' nx := by
  cases pc with
  | test =>
    rw [close] at h
    split at h
    next hc => cases h; exact .close_again hc
    next hc => cases h; exact .close_open (by simpa using hc)
  | enqueue => cases h; exact .close_enqueue
  | set => cases h; exact .close_set

private theorem execTask_move {t : Task} {c ac : Bool} {pc : ExecPc}
    (h : execTask m t c ac ctl pc = some (m', nx)) :
    Move i m .code ctl (.execTask pc t c ac) m' nx := by
  cases pc with
  | entry =>
    cases c with
    | true => cases h; exact .exec_entry_counting t ac
    | false => cases h; exact .exec_entry t ac
  | closing =>
    rw [execTask] at h
    split at h
    next hc => cases h; exact .exec_dismissed t c ac hc
    next hc => cases h; exact .exec_admitted t c ac (by simpa using hc)
  | call => cases h; exact .exec_call t c ac
  | running =>
    cases ctl with
    | go => exact absurd h (by simp [execTask])
    | ret => cases h; exact .exec_ret t c ac
    | thr e =>
      simp only [execTask, catchAllE_catches, Bool.and_true] at h
      cases ac with
      | true => cases h; exact .exec_caught t c e
      | false => cases h; exact .exec_thrown t c e

private theorem syncCarrier_move {id : Nat} {pc : CallPc}
    (h : syncCarrier m id ctl pc = some (m', nx)) :
    Move i m .code ctl (.syncCarrier pc id) m' nx := by
  cases pc with
  | start => cases h; exact .sync_start id
  | after =>
    cases ctl with
    | go => exact absurd h (by simp [syncCarrier])
    | ret =>
      simp only [syncCarrier] at h
      split at h
      next hp =>
        cases h
        obtain ⟨hn, rfl⟩ := satisfy_some hp
        exact .sync_value id hn
      next hp => cases h; exact .sync_value_again id (satisfy_none hp)
    | thr e =>
      simp only [syncCarrier] at h
      split at h
      next hp =>
        cases h
        obtain ⟨hn, rfl⟩ := satisfy_some hp
        exact .sync_exn id e hn
      next hp => cases h; exact .sync_exn_again id e (satisfy_none hp)

private theorem promiseCarrier_move {id p : Nat} {pc : CallPc}
    (h : promiseCarrier m id p ctl pc = some (m', nx)) :
    Move i m .code ctl (.promiseCarrier pc id p) m' nx := by
  cases pc with
  | start => cases h; exact .promise_start id p
  | after =>
    cases ctl with
    | go => exact absurd h (by simp [promiseCarrier])
    | ret => cases h; exact .promise_ret id p
    | thr e =>
      simp only [promiseCarrier] at h
      split at h
      next hp =>
        cases h
        obtain ⟨hn, rfl⟩ := satisfy_some hp
        exact .promise_exn id p e hn
      next hp => cases h; exact .promise_exn_again id p e (satisfy_none hp)

private theorem tokenHandler_move {t : Task} {tok : Nat} {pc : CallPc}
    (h : tokenHandler m t tok ctl pc = some (m', nx)) :
    Move i m .code ctl (.tokenHandler pc t tok) m' nx := by
  cases pc with
  | start => cases h; exact .token_start t tok
  | after =>
    cases ctl with
    | go => exact absurd h (by simp [tokenHandler])
    | ret => cases h; exact .token_ret t tok
    | thr e => cases h; exact .token_thr t tok e

private theorem tokenTimer_move {t : Task} {tok : Nat} {ec : Bool} {pc : CallPc}
    (h : tokenTimer m t tok ec ctl pc = some (m', nx)) :
    Move i m .code ctl (.tokenTimer pc t tok ec) m' nx := by
  cases pc with
  | start => cases h; exact .tokenTimer_start t tok ec
  | after =>
    cases ctl with
    | go => exact absurd h (by simp [tokenTimer])
    | ret => cases h; exact .tokenTimer_ret t tok ec
    | thr e => cases h; exact .tokenTimer_thr t tok ec e

private theorem stopHandler_move {pc : StopPc} (h : stopHandler m pc = (m', nx)) :
    Move i m .code ctl (.stopHandler pc) m' nx := by
  cases pc with
  | test =>
    rw [stopHandler] at h
    split at h
    next hc => cases h; exact .stop_again hc
    next hc => cases h; exact .stop_test (by simpa using hc)
  | closed => cases h; exact .stop_closed
  | guard => cases h; exact .stop_guard
  | stop => cases h; exact .stop_stop

private theorem run_move (h : run m ctl = some (m', nx)) : Move i m .code ctl .run m' nx := by
  have hloop : ∀ ctl : Ctl Exn, (∀ e, ctl ≠ .thr e) → run m .go = some (m', nx) →
      Move i m .code ctl .run m' nx := by
    intro ctl hctl h
    simp only [run] at h
    split at h
    next hs => cases h; exact .run_stopped hctl hs
    next hs =>
      have hs : m.stopped = false := by simpa using hs
      split at h
      next hd q hq => cases h; exact .run_take hd q hctl hs hq
      next hq =>
        split at h
        next => exact absurd h (by simp)
        next hw =>
          rw [Bool.or_eq_true, not_or] at hw
          cases h
          exact .run_outOfWork hctl hs hq (by simpa using hw.1) (by simpa using hw.2)
  cases ctl with
  | go => exact hloop _ (by simp) h
  | ret => exact hloop _ (by simp) h
  | thr e => cases h; exact .run_exn e

private theorem userStep_set {f : Frame} {p : Nat} {o : Outcome} (hf : f.userCode.isSome = true)
    (h : some ((m.satisfy (.given p) o).getD m, Next.goto f) = some (m', nx)) :
    Move i m (.setPromise p o) ctl f m' nx := by
  cases hs : m.satisfy (.given p) o with
  | none =>
    rw [hs] at h
    cases h
    exact .user_set_again f p o hf (satisfy_none hs)
  | some m₁ =>
    obtain ⟨hn, rfl⟩ := satisfy_some hs
    rw [hs] at h
    cases h
    exact .user_set f p o hf hn

/-- **The inversion**: every step of a frame is one of the moves. -/
theorem frameStep_move {f : Frame} (h : frameStep i a ctl m f = some (m', nx)) :
    Move i m a ctl f m' nx := by
  cases f with
  | client =>
    cases a with
    | call c => cases h; exact .client_enter c
    | setPromise p o => exact userStep_set rfl h
    | code => exact absurd h (by simp [frameStep, userStep])
    | ret => exact absurd h (by simp [frameStep, userStep])
    | throw e => exact absurd h (by simp [frameStep, userStep])
  | fn id =>
    cases a with
    | call c => cases h; exact .fn_enter id c
    | setPromise p o => exact userStep_set rfl h
    | code => exact absurd h (by simp [frameStep, userStep])
    | ret => cases h; exact .fn_ret id
    | throw e => cases h; exact .fn_throw id e
  | completion tok =>
    cases a with
    | call c => cases h; exact .completion_enter tok c
    | setPromise p o => exact userStep_set rfl h
    | code => exact absurd h (by simp [frameStep, userStep])
    | ret => cases h; exact .completion_ret tok
    | throw e => exact absurd h (by simp [frameStep, userStep])
  | _ =>
    cases a with
    | code =>
      simp only [frameStep, Option.some.injEq] at h
      first
        | exact run_move h
        | exact post_move h
        | exact postWithPromise_move h
        | exact postSynchronously_move h
        | exact dispatch_move h
        | exact postWithTimer_move h
        | exact close_move h
        | exact execTask_move h
        | exact syncCarrier_move h
        | exact promiseCarrier_move h
        | exact tokenHandler_move h
        | exact tokenTimer_move h
        | exact stopHandler_move h
        | (cases h; exact .postToken _ _)
        | (cases h; exact .postWithTimerToken _ _)
        | (rename_i t ec
           cases ec with
           | true => cases h; exact .timer_failed t
           | false => cases h; exact .timer_expired t)
    | _ => exact absurd h (by simp [frameStep])

end Warlib.Pipeline
