import Warlib.Pipeline.Capacity
import Warlib.Pipeline.Submissions

/-!
# The shutdown handler

How the worker's loop ends, and what is left behind. `Phase` follows the
worker: it is `working`, with `closed_` unset and the work guard in place;
or it has taken the first shutdown handler and is `stopping`; or the
`io_context` is `stopped`; or `run()` has returned and the worker has
`ended`. Each phase says what the flags are, so the tests in the shutdown
handler and in `run()` have one outcome (`Move.phase`).

Two results rest on it. `run()` returns for no other reason than the
shutdown handler (`reach_phase`), and when it has returned the queue is
exactly what was enqueued behind the first shutdown handler (`loop_ended`,
read both ways by `left_behind` and `behind_stop`).
-/

namespace Warlib.Pipeline

open Warlib.Machine

variable {name : String} {cap : BitVec 64} {n : Nat} {ok : State → Step → Prop}
  {s s' : State} {l : Step} {i : Nat} {m m' : Mem} {a : Act} {ctl : Ctl Exn} {f : Frame}
  {rest : List Frame} {nx : Next Frame Exn}

/-! ## The phases of the worker -/

@[simp] def Event.ended? : Event → Option RunEnd
  | .ended why => some why
  | _ => none

/-- Why `run()` returned, if it did. -/
def Mem.ends (m : Mem) : List RunEnd := m.trace.filterMap Event.ended?

/-- The shutdown handler is the last handler taken, and was not taken before. -/
def LastStop (m : Mem) : Prop := ∃ before, m.taken = before ++ [.stop] ∧ .stop ∉ before

/-- `closed_` while the shutdown handler is at `pc`. -/
def StopPc.hasClosed : StopPc → Bool
  | .test | .closed => false
  | .guard | .stop => true

/-- The work guard while the shutdown handler is at `pc`. -/
def StopPc.hasGuard : StopPc → Bool
  | .test | .closed | .guard => true
  | .stop => false

/-- Where the worker stands, from its frames and the flags. -/
inductive Phase (m : Mem) : List Frame → Prop
  | working {fs : List Frame} (hfs : fs ≠ []) (hstop : ∀ pc, .stopHandler pc ∉ fs)
      (htaken : .stop ∉ m.taken) (hclosed : m.closed = false) (hguard : m.workGuard = true)
      (hrun : m.stopped = false) (hends : m.ends = []) : Phase m fs
  | stopping {pc : StopPc} (hlast : LastStop m) (hclosed : m.closed = pc.hasClosed)
      (hguard : m.workGuard = pc.hasGuard) (hrun : m.stopped = false) (hends : m.ends = []) :
      Phase m [.stopHandler pc, .run]
  | stopped (hlast : LastStop m) (hrun : m.stopped = true) (hends : m.ends = []) :
      Phase m [.run]
  | ended (hlast : LastStop m) (hends : m.ends = [.stopped]) : Phase m []

/-- What the phases depend on in the memory. -/
structure SamePhase (m m' : Mem) : Prop where
  taken : m'.taken = m.taken
  closed : m'.closed = m.closed
  guarded : m'.workGuard = m.workGuard
  stopped : m'.stopped = m.stopped
  ends : m'.ends = m.ends

theorem Phase.same {fs : List Frame} (h : Phase m fs) (hm : SamePhase m m') : Phase m' fs := by
  have hlast : LastStop m → LastStop m' := fun ⟨before, ht, hb⟩ => ⟨before, hm.taken.trans ht, hb⟩
  cases h with
  | working hfs hstop htaken hclosed hguard hrun hends =>
    exact .working hfs hstop (hm.taken ▸ htaken) (hm.closed.trans hclosed)
      (hm.guarded.trans hguard) (hm.stopped.trans hrun) (hm.ends.trans hends)
  | stopping hl hclosed hguard hrun hends =>
    exact .stopping (hlast hl) (hm.closed.trans hclosed) (hm.guarded.trans hguard)
      (hm.stopped.trans hrun) (hm.ends.trans hends)
  | stopped hl hrun hends => exact .stopped (hlast hl) (hm.stopped.trans hrun) (hm.ends.trans hends)
  | ended hl hends => exact .ended (hlast hl) (hm.ends.trans hends)

/-- Why `run()` returned is recorded by `run()`. -/
theorem Move.ends (h : Move i m a ctl f m' nx) : m'.ends = m.ends ∨ f = .run := by
  cases h <;> first
    | exact Or.inr rfl
    | exact Or.inl rfl
    | exact Or.inl (filterMap_of_trace rfl rfl)

/-- Nothing but `run()` and the shutdown handler moves the phase. -/
theorem Move.samePhase (h : Move i m a ctl f m' nx) (hrun : f ≠ .run)
    (hstop : ∀ pc, f ≠ .stopHandler pc) :
    SamePhase m m' ∧ ∀ pc, .stopHandler pc ∉ nx.frames := by
  have htaken : m'.taken = m.taken := by
    rcases h.taken with hsame | ⟨hd, q, hf, -⟩
    · exact hsame
    · exact absurd hf hrun
  have hends : m'.ends = m.ends := h.ends.resolve_right hrun
  have hsame : SamePhase m m' := by
    cases h <;> first
      | exact absurd rfl (hstop _)
      | exact ⟨htaken, rfl, rfl, rfl, hends⟩
  refine ⟨hsame, fun pc hmem => ?_⟩
  -- the handler's frame is made by `run()`, or by the handler itself
  cases h
  case client_enter c | fn_enter c | completion_enter c =>
    cases c <;> simp [Call.frame] at hmem
  case exec_call t c ac => cases t <;> simp [Task.body] at hmem
  case user_set p o hp hf | user_set_again p o hp hf =>
    exact hstop pc (List.mem_singleton.mp hmem).symm
  all_goals first
    | exact absurd rfl hrun
    | exact absurd rfl (hstop _)
    | exact absurd hmem (by simp)

/-- One step of the worker: the tests in `run()` and in the shutdown handler
come out as the phase says. -/
theorem Move.phase (h : Move 0 m a ctl f m' nx) (hok : StackOk 0 ⟨ctl, f :: rest⟩)
    (hP : Phase m (f :: rest)) : Phase m' (nx.resume rest).frames := by
  have hrec : Receptive ctl f := hok.receptive f rest rfl
  have hground : Grounded Over .run (f :: rest) := by
    rcases hok.grounded with hg | ⟨-, hnil⟩
    · exact hg
    · exact absurd hnil (by simp)
  rw [Next.resume_frames]
  -- no exception is told to `run()`
  have hnothrow : f = .run → ∀ e, ctl ≠ .thr e := by
    rintro rfl e rfl
    exact absurd hrec (by simp [Receptive, Frame.takesThrow])
  have hbottom : f = .run → rest = [] := by
    rintro rfl
    exact Grounded.run_rest hground
  cases hP with
  | working hfs hstop htaken hclosed hguard hrun hends =>
    by_cases hf : f = .run
    · obtain rfl := hbottom hf
      subst hf
      cases h
      case run_exn e => exact absurd rfl (hnothrow rfl e)
      case run_stopped hs hctl => exact absurd (hrun.symm.trans hs) (by simp)
      case run_outOfWork hs hq hg ht hctl => exact absurd (hguard.symm.trans hg) (by simp)
      case user_set p o hp hf | user_set_again p o hp hf =>
        exact absurd hf (by simp [Frame.userCode])
      case run_take h q hs hq hctl =>
        have htaken' : ({ m with queue := q }.emit [.taken h]).taken = m.taken ++ [h] := by
          simp [Mem.taken]
        have hends' : ({ m with queue := q }.emit [.taken h]).ends = [] := by
          simpa [Mem.ends, List.filterMap_cons] using hends
        by_cases hh : h = .stop
        · subst hh
          show Phase _ [.stopHandler .test, .run]
          exact .stopping ⟨m.taken, htaken', htaken⟩ hclosed hguard hrun hends'
        · refine .working (by simp) (fun pc => ?_) ?_ hclosed hguard hrun hends'
          · cases h <;> simp_all [Handler.frame]
          · rw [htaken']
            simpa using ⟨htaken, fun he => hh he.symm⟩
    · have hstop' : ∀ pc, f ≠ .stopHandler pc :=
        fun pc he => hstop pc (he ▸ List.mem_cons_self ..)
      obtain ⟨hsame, hnew⟩ := h.samePhase hf hstop'
      refine Phase.same (.working ?_ ?_ htaken hclosed hguard hrun hends) hsame
      · -- a frame other than `run()` stands on another
        cases rest with
        | nil => exact absurd hground hf
        | cons g rest => simp
      · intro pc hmem
        rcases List.mem_append.mp hmem with hmem | hmem
        · exact hnew pc hmem
        · exact hstop pc (List.mem_cons_of_mem _ hmem)
  | @stopping pc hlast hclosed hguard hrun hends =>
    cases h
    case stop_again hc => exact absurd (hclosed.symm.trans hc) (by simp [StopPc.hasClosed])
    case stop_test hc => exact .stopping hlast hclosed hguard hrun hends
    case stop_closed => exact .stopping hlast rfl hguard hrun hends
    case stop_guard => exact .stopping hlast hclosed rfl hrun hends
    case stop_stop => exact .stopped hlast rfl hends
    case user_set p o hp hf | user_set_again p o hp hf => exact absurd hf (by simp [Frame.userCode])
  | stopped hlast hrun hends =>
    cases h
    case run_exn e => exact absurd rfl (hnothrow rfl e)
    case run_take hs hq hctl => exact absurd (hrun.symm.trans hs) (by simp)
    case run_outOfWork hs hq hg ht hctl => exact absurd (hrun.symm.trans hs) (by simp)
    case user_set p o hp hf | user_set_again p o hp hf => exact absurd hf (by simp [Frame.userCode])
    case run_stopped hs hctl =>
      obtain ⟨before, ht, hb⟩ := hlast
      refine .ended ⟨before, ?_, hb⟩ ?_
      · simpa [Mem.taken, List.filterMap_cons] using ht
      · simpa [Mem.ends] using hends

/-- **The phases**: the worker of a reachable state is in one of them. -/
theorem reach_phase (h : (machine name cap n).Reach ok s) :
    ∀ th, s.threads[0]? = some th → Phase s.mem th.frames := by
  refine reach_invariant (I := fun s => ∀ th, s.threads[0]? = some th → Phase s.mem th.frames)
    h ?_ ?_
  · intro th hth
    obtain rfl := initial_thread hth
    exact .working (by simp) (by simp) (by simp [initial, Mem.taken]) rfl rfl rfl rfl
  · intro s l s' hr _ hs _ hI th hth
    cases hs with
    | @move i a ctl f rest m nx hth' hm =>
      by_cases hi : i = 0
      · subst hi
        obtain ⟨_, _, rfl⟩ := Option.map_eq_some_iff.mp (List.getElem?_set_self' ▸ hth)
        exact hm.phase (reach_stacks hr 0 _ hth') (hI _ hth')
      · have hclient := reach_onClient hr i _ hth' hi f (List.mem_cons_self ..)
        have hsame := (hm.samePhase (by rintro rfl; simp [Frame.onClient] at hclient)
          (by rintro pc rfl; simp [Frame.onClient] at hclient)).1
        rw [List.getElem?_set_ne hi] at hth
        exact (hI th hth).same hsame
    | @expire k ec t ht =>
      refine (hI th hth).same ⟨?_, rfl, rfl, rfl, ?_⟩
      · simp [Mem.taken, List.filterMap_cons]
      · simp [Mem.ends, List.filterMap_cons]

/-- Once the worker's loop has ended, the queue holds what was enqueued behind
the first shutdown handler, and only that. -/
theorem loop_ended (h : (machine name cap n).Reach ok s)
    {th : Thread Frame Exn} (hth : s.threads[0]? = some th) (hend : th.frames = []) :
    ∃ before, s.mem.taken = before ++ [.stop] ∧ .stop ∉ before ∧
      s.mem.enqueued = before ++ .stop :: s.mem.queue := by
  have hphase := reach_phase h th hth
  rw [hend] at hphase
  cases hphase with
  | working hfs => exact absurd rfl hfs
  | ended hlast hends =>
    obtain ⟨before, ht, hb⟩ := hlast
    refine ⟨before, ht, hb, ?_⟩
    rw [reach_fifo h, ht, List.append_assoc, List.cons_append, List.nil_append]

/-- What was enqueued behind a shutdown handler is still in the queue then. -/
theorem left_behind (h : (machine name cap n).Reach ok s) {th : Thread Frame Exn}
    (hth : s.threads[0]? = some th) (hend : th.frames = []) {pre post : List Event} {hd : Handler}
    (hsplit : s.mem.trace = pre ++ .enqueued hd :: post) (hstop : .enqueued .stop ∈ pre) :
    hd ∈ s.mem.queue := by
  obtain ⟨before, -, hbefore, henq⟩ := loop_ended h hth hend
  have henq' : s.mem.enqueued =
      pre.filterMap Event.enqueued? ++ hd :: post.filterMap Event.enqueued? := by
    rw [Mem.enqueued, hsplit, List.filterMap_append, List.filterMap_cons]
    rfl
  exact mem_behind (henq.symm.trans henq') hbefore (mem_enqueued.mpr hstop)

/-- The loop goes on: the `io_context` is not stopped, `run()` has not
returned. -/
def Looping (s : State) : Prop :=
  s.mem.stopped = false ∧ s.threads[0]?.map Thread.frames ≠ some []

instance (s : State) : Decidable (Looping s) := inferInstanceAs (Decidable (_ ∧ _))

/-- When the loop does not go on, what is left in the queue was enqueued behind a
shutdown handler. -/
theorem behind_stop (h : (machine name cap n).Reach ok s) (hend : ¬Looping s) {hd : Handler}
    (hq : hd ∈ s.mem.queue) :
    ∃ pre post, s.mem.trace = pre ++ .enqueued hd :: post ∧ .enqueued .stop ∈ pre := by
  obtain ⟨th, hth⟩ := reach_thread_zero h
  have hlast : LastStop s.mem := by
    have hphase := reach_phase h th hth
    generalize hfs : th.frames = fs at hphase
    cases hphase with
    | working hne hstop htaken hclosed hguard hrun hends =>
      exact absurd ⟨hrun, by rw [hth]; simpa [hfs] using hne⟩ hend
    | stopping hlast hclosed hguard hrun hends => exact hlast
    | stopped hlast hrun hends => exact hlast
    | ended hlast hends => exact hlast
  obtain ⟨before, htaken, -⟩ := hlast
  obtain ⟨as, bs, hqueue⟩ := List.append_of_mem hq
  have henqueued : s.mem.trace.filterMap Event.enqueued? =
      (before ++ .stop :: as) ++ hd :: bs := by
    have hfifo := reach_fifo h
    rw [htaken, hqueue] at hfifo
    simpa [Mem.enqueued] using hfifo
  obtain ⟨pre, e, post, htrace, he, hpre⟩ := split_of_filterMap henqueued
  obtain rfl : e = .enqueued hd := by cases e <;> simp_all
  refine ⟨pre, post, htrace, mem_enqueued.mp ?_⟩
  rw [hpre]
  exact List.mem_append_right _ (List.mem_cons_self ..)

end Warlib.Pipeline
