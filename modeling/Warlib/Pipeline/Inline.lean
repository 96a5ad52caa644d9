import Warlib.Pipeline.Stack
import Warlib.Pipeline.Submissions

/-!
# `Dispatch` on the worker

There it is a plain call. A `Script` is what a task's function does when all it
does is call `Dispatch` and end: a finite tree, of any depth. `Runs` is what
the history says when the calls happen in depth-first order, each function once
and before its `Dispatch` returns.

The worker may be interrupted by the steps of all other threads wherever it is
inside the tree. `Doing` ties its stack to the part of the tree that is left,
by what each caller still has to do when its callee is back (`Callers`). One
step of the worker takes `Doing` to `Doing` (`Doing.step`), steps of others
leave it alone, and at the end nothing is left (`dispatch_inline`).
-/

namespace Warlib.Pipeline

open Warlib.Machine

/-! ## Scripts -/

/-- What a task's function does: it ends, normally or by an exception; or it
dispatches a task and goes on. -/
inductive Script
  | done (throws : Option Exn)
  | dispatch (callee rest : Script)
  deriving DecidableEq, Repr

/-- How it ends. -/
def Script.outcome : Script → Outcome
  | .done none => .value
  | .done (some e) => .exn e
  | .dispatch _ rest => rest.outcome

/-- The moves of the worker on the way: the call, `Dispatch`, the three steps of
`ExecTask_` before the function, and the one after it. -/
def Script.acts : Script → List Act
  | .done none => [.ret]
  | .done (some e) => [.throw e]
  | .dispatch callee rest =>
    .call .dispatch :: .code :: .code :: .code :: .code :: (callee.acts ++ .code :: rest.acts)

/-- What the frame below is told. -/
@[simp] def Outcome.ctl : Outcome → Ctl Exn
  | .value => .ret
  | .exn e => .thr e

/-- The steps of `Dispatch` and `ExecTask_` before function `id` is called. -/
@[simp] def inlining (id : Nat) : List Event :=
  [.inlined (.user id), .entered (.user id) false, .admitted (.user id) false,
    .began (.user id) false]

/-- What function `caller` leaves in the history: for each `Dispatch` the call, the
function that was named with all it does itself, its end; then the next. -/
inductive Runs : Nat → Script → List Event → Prop
  | done {caller : Nat} {throws : Option Exn} : Runs caller (.done throws) []
  | dispatch {caller id q : Nat} {callee rest : Script} {es es' : List Event}
      (hcallee : Runs id callee es) (hrest : Runs caller rest es') :
    Runs caller (.dispatch callee rest)
      (.called (some caller) id .dispatch q :: (inlining id ++ es ++
        .finished (.user id) false callee.outcome :: es'))

theorem Runs.began {caller : Nat} {script : Script} {es : List Event} (h : Runs caller script es)
    {caller' : Option Nat} {id q : Nat} (hmem : .called caller' id .dispatch q ∈ es) :
    .began (.user id) false ∈ es := by
  induction h with
  | done => exact absurd hmem (by simp)
  | @dispatch caller₁ id₁ q₁ callee rest es es' hcallee hrest ihcallee ihrest =>
    simp only [inlining, List.cons_append, List.nil_append, List.mem_cons, List.mem_append,
      reduceCtorEq, false_or] at hmem ⊢
    rcases hmem with hself | hin | hafter
    · obtain ⟨-, rfl, -⟩ := Event.called.inj hself
      exact Or.inl rfl
    · exact Or.inr (Or.inl (ihcallee hin))
    · exact Or.inr (Or.inr (ihrest hafter))

/-! ## The callers -/

/-- Who waits below the function on top: what called the task; or function
`caller`, which is inside the `Dispatch` of `callee` and has `script` left. -/
inductive Callers
  | task
  | inside (caller : Nat) (script : Script) (below : Callers) (callee : Nat)

/-- Their frames, on top of those that called the task. -/
def Callers.frames (rest : List Frame) : Callers → List Frame
  | .task => rest
  | .inside caller _ below callee =>
    .execTask .running (.user callee) false true :: .fn caller :: below.frames rest

/-- The moves they still make. -/
def Callers.acts : Callers → List Act
  | .task => []
  | .inside _ script below _ => .code :: (script.acts ++ below.acts)

/-- What they still leave in the history when the function on top ends with `o`, and
how the task ends. -/
def Callers.Leave : Callers → Outcome → List Event → Outcome → Prop
  | .task, o, es, last => es = [] ∧ last = o
  | .inside caller script below callee, o, es, last =>
    ∃ es₁ es₂, es = .finished (.user callee) false o :: (es₁ ++ es₂) ∧ Runs caller script es₁ ∧
      below.Leave script.outcome es₂ last

/-- What is still left in the history from a moment in which function `id` has `script`
left, after `heads`. -/
abbrev Callers.After (K : Callers) (heads : List Event) (id : Nat) (script : Script)
    (es : List Event) (last : Outcome) : Prop :=
  ∃ es₁ es₂, es = heads ++ (es₁ ++ es₂) ∧ Runs id script es₁ ∧ K.Leave script.outcome es₂ last

/-- What has been left in the meantime comes before it. -/
theorem Callers.After.append {K : Callers} {heads es : List Event} {id : Nat} {script : Script}
    {last : Outcome} (h : K.After heads id script es last) (front : List Event) :
    K.After (front ++ heads) id script (front ++ es) last := by
  obtain ⟨es₁, es₂, rfl, hrest⟩ := h
  exact ⟨es₁, es₂, (List.append_assoc ..).symm, hrest⟩

/-- `Dispatch` or `ExecTask_` of function `id` is on top, with these moves and
these events before the function is called. -/
inductive Entering (id : Nat) : Frame → List Act → List Event → Prop
  | dispatch : Entering id (.dispatch (.user id)) [.code, .code, .code, .code] (inlining id)
  | entry : Entering id (.execTask .entry (.user id) false true) [.code, .code, .code]
      [.entered (.user id) false, .admitted (.user id) false, .began (.user id) false]
  | closing : Entering id (.execTask .closing (.user id) false true) [.code, .code]
      [.admitted (.user id) false, .began (.user id) false]
  | call : Entering id (.execTask .call (.user id) false true) [.code] [.began (.user id) false]

/-- Where the worker is inside the tree, which moves it has left and what it will
have added to the history at the end. An exception is told to a function only
before the first of `all` moves. -/
inductive Doing (all : List Act) (rest : List Frame) :
    Ctl Exn → List Frame → List Act → (List Event → Outcome → Prop) → Prop
  | body {ctl : Ctl Exn} {id : Nat} {script : Script} {K : Callers}
      (hctl : ∀ e, ctl = .thr e → script.acts ++ K.acts = all) :
    Doing all rest ctl (.fn id :: K.frames rest) (script.acts ++ K.acts) (K.After [] id script)
  | entering {f : Frame} {as : List Act} {heads : List Event} {caller id : Nat}
      {callee script : Script} {below : Callers} (hf : Entering id f as heads) :
    Doing all rest .go (f :: .fn caller :: below.frames rest)
      (as ++ (callee.acts ++ .code :: (script.acts ++ below.acts)))
      ((Callers.inside caller script below id).After heads id callee)
  | ended {K : Callers} (o : Outcome) : Doing all rest o.ctl (K.frames rest) K.acts (K.Leave o)

variable {all left : List Act} {a : Act} {rest fs : List Frame} {ctl : Ctl Exn} {m m' : Mem}
  {F : List Event → Outcome → Prop}

/-! ## One step of the worker -/

/-- The events of task functions and of `ExecTask_`. -/
@[simp] def Event.ofTask : Event → Bool
  | .called (some _) _ _ _ => true
  | .inlined _ => true
  | .entered _ _ => true
  | .admitted _ _ => true
  | .began _ _ => true
  | .finished _ _ _ => true
  | _ => false

/-- The history of what the worker did in its tasks. -/
def Mem.ofTasks (m : Mem) : List Event := m.trace.filter Event.ofTask

/-- The worker makes the next move: it is possible, leaves the counter and the run
queue alone, and does a part of what was to be done. -/
structure Goes (all : List Act) (rest : List Frame) (a : Act) (left : List Act)
    (F : List Event → Outcome → Prop) (m : Mem) (ctl : Ctl Exn) (fs : List Frame) (f : Frame)
    (m' : Mem) (nx : Next Frame Exn) : Prop where
  step : frameStep 0 a ctl m f = some (m', nx)
  count : m'.count = m.count
  queue : m'.queue = m.queue
  doing : ∃ es F', m'.trace = m.trace ++ es ∧ es.filter Event.ofTask = es ∧
    Doing all rest (nx.resume fs).ctl (nx.resume fs).frames left F' ∧
    ∀ es' last, F' es' last → F (es ++ es') last

theorem Script.acts_ne_nil (script : Script) : script.acts ≠ [] := by
  cases script with
  | done throws => cases throws <;> simp [Script.acts]
  | dispatch callee rest => simp [Script.acts]

/-- A function ends, or calls `Dispatch`. -/
theorem goes_body {id : Nat} {script : Script} {K : Callers}
    (hacts : a :: left = script.acts ++ K.acts) :
    ∃ m' nx, Goes all rest a left (K.After [] id script) m ctl (K.frames rest) (.fn id) m' nx := by
  cases script with
  | done throws =>
    cases throws with
    | none =>
      obtain ⟨rfl, rfl⟩ := List.cons.inj hacts
      refine ⟨m, .ret, rfl, rfl, rfl, [], K.Leave .value, by simp, rfl, .ended .value, ?_⟩
      intro es' last h
      exact ⟨[], es', rfl, .done, h⟩
    | some e =>
      obtain ⟨rfl, rfl⟩ := List.cons.inj hacts
      refine ⟨m, .thr e, rfl, rfl, rfl, [], K.Leave (.exn e), by simp, rfl, .ended (.exn e), ?_⟩
      intro es' last h
      exact ⟨[], es', rfl, .done, h⟩
  | dispatch callee script =>
    rw [Script.acts, List.cons_append] at hacts
    obtain ⟨rfl, hleft⟩ := List.cons.inj hacts
    have hdoing : Doing all rest .go (.dispatch (.user m.nextId) :: .fn id :: K.frames rest) left
        ((Callers.inside id script K m.nextId).After (inlining m.nextId) m.nextId callee) := by
      have hmoves : left =
          [.code, .code, .code, .code] ++ (callee.acts ++ .code :: (script.acts ++ K.acts)) := by
        rw [hleft]
        simp
      rw [hmoves]
      exact .entering .dispatch
    refine ⟨m.enter (some id) .dispatch, .call (.fn id) (.dispatch (.user m.nextId)), rfl, rfl, rfl,
      [.called (some id) m.nextId .dispatch m.queued], _, rfl, rfl, hdoing, ?_⟩
    intro es' last h
    obtain ⟨es₁, es₂, rfl, hcallee, es₃, es₄, rfl, hscript, hbelow⟩ := h
    refine ⟨_, es₄, ?_, .dispatch (q := m.queued) hcallee hscript, hbelow⟩
    simp

/-- `Dispatch` and `ExecTask_` go on to the function. -/
theorem goes_entering {f : Frame} {as : List Act} {heads : List Event} {caller id : Nat}
    {callee script : Script} {below : Callers} (hf : Entering id f as heads)
    (hopen : m.closing = false)
    (hacts : a :: left = as ++ (callee.acts ++ .code :: (script.acts ++ below.acts))) :
    ∃ m' nx, Goes all rest a left ((Callers.inside caller script below id).After heads id callee)
      m .go (.fn caller :: below.frames rest) f m' nx := by
  cases hf with
  | dispatch =>
    obtain ⟨rfl, rfl⟩ := List.cons.inj hacts
    refine ⟨m.emit [.inlined (.user id)], .goto (.execTask .entry (.user id) false true), ?_, rfl,
      rfl, [.inlined (.user id)], _, rfl, rfl, .entering .entry, ?_⟩
    · simp [frameStep, dispatch, hopen, isPipelineThread]
    · exact fun es' last h => h.append [.inlined (.user id)]
  | entry =>
    obtain ⟨rfl, rfl⟩ := List.cons.inj hacts
    refine ⟨m.emit [.entered (.user id) false], .goto (.execTask .closing (.user id) false true), rfl,
      rfl, rfl, [.entered (.user id) false], _, rfl, rfl, .entering .closing, ?_⟩
    exact fun es' last h => h.append [.entered (.user id) false]
  | closing =>
    obtain ⟨rfl, rfl⟩ := List.cons.inj hacts
    refine ⟨m.emit [.admitted (.user id) false], .goto (.execTask .call (.user id) false true), ?_,
      rfl, rfl, [.admitted (.user id) false], _, rfl, rfl, .entering .call, ?_⟩
    · simp [frameStep, execTask, hopen]
    · exact fun es' last h => h.append [.admitted (.user id) false]
  | call =>
    obtain ⟨rfl, rfl⟩ := List.cons.inj hacts
    have hdoing : Doing all rest .go
        (.fn id :: (Callers.inside caller script below id).frames rest)
        (callee.acts ++ (Callers.inside caller script below id).acts)
        ((Callers.inside caller script below id).After [] id callee) :=
      .body fun e he => absurd he (by simp)
    refine ⟨m.emit [.began (.user id) false],
      .call (.execTask .running (.user id) false true) (.fn id), rfl, rfl, rfl,
      [.began (.user id) false], _, rfl, rfl, hdoing, ?_⟩
    exact fun es' last h => h.append [.began (.user id) false]

/-- `ExecTask_`, and so `Dispatch`, returns to the caller whatever the function did. -/
theorem goes_back {caller id : Nat} {script : Script} {below : Callers} (o : Outcome)
    (hacts : a :: left = .code :: (script.acts ++ below.acts)) :
    ∃ m' nx, Goes all rest a left ((Callers.inside caller script below id).Leave o) m o.ctl
      (.fn caller :: below.frames rest) (.execTask .running (.user id) false true) m' nx := by
  obtain ⟨rfl, rfl⟩ := List.cons.inj hacts
  have hdoing : Doing all rest .ret (.fn caller :: below.frames rest) (script.acts ++ below.acts)
      (below.After [] caller script) := .body fun e he => absurd he (by simp)
  have hgoes : ∀ es' last, below.After [] caller script es' last →
      (Callers.inside caller script below id).Leave o ([.finished (.user id) false o] ++ es') last := by
    intro es' last h
    obtain ⟨es₁, es₂, rfl, hscript, hbelow⟩ := h
    exact ⟨es₁, es₂, rfl, hscript, hbelow⟩
  cases o with
  | value =>
    exact ⟨{ m with tasksRun := m.tasksRun + 1 }.emit [.finished (.user id) false .value], .ret, rfl,
      rfl, rfl, [.finished (.user id) false .value], _, rfl, rfl, hdoing, hgoes⟩
  | exn e =>
    refine ⟨m.emit [.finished (.user id) false (.exn e)], .ret, ?_, rfl, rfl,
      [.finished (.user id) false (.exn e)], _, rfl, rfl, hdoing, hgoes⟩
    simp [frameStep, execTask]

/-- **One step of the worker** inside the tree. -/
theorem Doing.step (h : Doing all rest ctl fs (a :: left) F) (hopen : m.closing = false) :
    ∃ f fs' m' nx, fs = f :: fs' ∧ Goes all rest a left F m ctl fs' f m' nx := by
  generalize hacts : a :: left = acts at h
  cases h with
  | body _ =>
    obtain ⟨m', nx, hgoes⟩ := goes_body hacts
    exact ⟨_, _, m', nx, rfl, hgoes⟩
  | entering hf =>
    obtain ⟨m', nx, hgoes⟩ := goes_entering hf hopen hacts
    exact ⟨_, _, m', nx, rfl, hgoes⟩
  | @ended K o =>
    cases K with
    | task => exact absurd hacts (by simp [Callers.acts])
    | inside caller script below id =>
      obtain ⟨m', nx, hgoes⟩ := goes_back o hacts
      exact ⟨_, _, m', nx, rfl, hgoes⟩

/-! ## Steps of others -/

variable {name : String} {cap : BitVec 64} {n : Nat} {ok : State → Step → Prop} {s s' : State}
  {l : Step}

/-- The move of the worker in a step, if it is its step. -/
def workerAct? : Step → Option Act
  | .thread 0 a => some a
  | _ => none

/-- The moves of the worker in a schedule. -/
def workerActs (as : List Step) : List Act := as.filterMap workerAct?

theorem workerActs_other (hl : ∀ a, l ≠ .thread 0 a) : workerActs [l] = [] := by
  have hnone : workerAct? l = none := by
    unfold workerAct?
    split
    next a => exact absurd rfl (hl a)
    next => rfl
  unfold workerActs
  rw [List.filterMap_cons_none hnone, List.filterMap_nil]

/-- Elsewhere nothing is added to the history of the tasks. -/
theorem Move.ofTasks {i : Nat} {f : Frame} {nx : Next Frame Exn} (h : Move i m a ctl f m' nx)
    (hi : i ≠ 0) (hf : f.onClient = true) : m'.ofTasks = m.ofTasks := by
  unfold Mem.ofTasks
  cases h
  case dispatch_inline h0 => exact absurd h0 hi
  all_goals first
    | (simp [Frame.onClient] at hf; done)
    | simp

/-- A step of another thread, or of a timer, leaves the worker where it is. -/
theorem Stepped.elsewhere (hr : (machine name cap n).Reach ok s) (hs : Stepped s l s')
    (hl : ∀ a, l ≠ .thread 0 a) :
    s'.threads[0]? = s.threads[0]? ∧ s'.mem.ofTasks = s.mem.ofTasks := by
  cases hs with
  | @move i a ctl f rest m nx hth hm =>
    have hi : i ≠ 0 := by
      intro hzero
      exact hl a (by rw [hzero])
    have hf := reach_onClient hr i _ hth hi f (List.mem_cons_self ..)
    exact ⟨List.getElem?_set_ne hi, hm.ofTasks hi hf⟩
  | expire ht => exact ⟨rfl, by simp [Mem.ofTasks]⟩

/-- The next move of the worker is its next step. -/
theorem next_zero (hth : s.threads[0]? = some ⟨ctl, fs⟩) {f : Frame} {fs' : List Frame}
    {nx : Next Frame Exn} (hfs : fs = f :: fs')
    (hstep : frameStep 0 a ctl s.mem f = some (m', nx)) :
    program.next s (.thread 0 a) = some ⟨m', s.threads.set 0 (nx.resume fs')⟩ := by
  subst hfs
  unfold Program.next
  dsimp only
  rw [hth]
  exact congrArg (Option.map _) hstep

/-! ## Whole runs -/

/-- What is known at any time on the way through the tree. -/
structure Inside (name : String) (cap : BitVec 64) (n : Nat) (all : List Act) (rest : List Frame)
    (left : List Act) (F : List Event → Outcome → Prop) (s : State) : Prop where
  reach : (machine name cap n).Reach (fun _ _ => True) s
  unclosed : Unclosed s.mem
  doing : ∃ ctl fs, s.threads[0]? = some ⟨ctl, fs⟩ ∧ Doing all rest ctl fs left F

/-- The next move of the worker is possible. -/
theorem Inside.goes (h : Inside name cap n all rest (a :: left) F s) :
    ∃ m' th, program.next s (.thread 0 a) = some ⟨m', s.threads.set 0 th⟩ ∧
      m'.count = s.mem.count ∧ m'.queue = s.mem.queue ∧ ∃ es F', m'.ofTasks = s.mem.ofTasks ++ es ∧
        Doing all rest th.ctl th.frames left F' ∧ ∀ es' last, F' es' last → F (es ++ es') last := by
  obtain ⟨ctl, fs, hth, hdoing⟩ := h.doing
  have hopen := (reach_untouched h.reach h.unclosed).closing
  obtain ⟨f, fs', m', nx, hfs, hgoes⟩ := hdoing.step hopen
  obtain ⟨es, F', htrace, hes, hdoing', hF⟩ := hgoes.doing
  refine ⟨m', nx.resume fs', next_zero hth hfs hgoes.step, hgoes.count, hgoes.queue, es, F', ?_,
    hdoing', hF⟩
  rw [Mem.ofTasks, htrace, List.filter_append, hes]
  rfl

/-- One step, of the worker or of anybody else. -/
theorem Inside.step (h : Inside name cap n all rest (workerActs [l] ++ left) F s) (hl : NoClose s l)
    (hn : (machine name cap n).next s l = some s') :
    ∃ es F', Inside name cap n all rest left F' s' ∧ s'.mem.ofTasks = s.mem.ofTasks ++ es ∧
      ∀ es' last, F' es' last → F (es ++ es') last := by
  have hs := (stepped_of_next hn).1
  have hreach := h.reach.step trivial hn
  have hunclosed := hs.unclosed hl h.unclosed
  by_cases hmine : ∃ a, l = .thread 0 a
  · obtain ⟨a, rfl⟩ := hmine
    obtain ⟨m', th, hnext, -, -, es, F', htrace, hdoing, hF⟩ := h.goes
    obtain ⟨hnext', -⟩ := Option.filter_eq_some_iff.mp hn
    obtain rfl := Option.some.inj (hnext.symm.trans hnext')
    obtain ⟨ctl, fs, hth, -⟩ := h.doing
    refine ⟨es, F', ⟨hreach, hunclosed, th.ctl, th.frames, ?_, hdoing⟩, htrace, hF⟩
    exact List.getElem?_set_self (List.getElem?_eq_some_iff.mp hth).1
  · have hother : ∀ a, l ≠ .thread 0 a := fun a he => hmine ⟨a, he⟩
    rw [workerActs_other hother] at h
    obtain ⟨hsame, htrace⟩ := hs.elsewhere h.reach hother
    obtain ⟨ctl, fs, hth, hdoing⟩ := h.doing
    refine ⟨[], F, ⟨hreach, hunclosed, ctl, fs, hsame.trans hth, hdoing⟩, ?_, fun es' last hF => hF⟩
    rw [htrace, List.append_nil]

/-- Any number of steps. -/
theorem Inside.run {as : List Step} (h : Inside name cap n all rest (workerActs as ++ left) F s)
    (hrun : (machine name cap n).guardedRun NoClose s as = some s') :
    ∃ es F', Inside name cap n all rest left F' s' ∧ s'.mem.ofTasks = s.mem.ofTasks ++ es ∧
      ∀ es' last, F' es' last → F (es ++ es') last := by
  induction as generalizing s F with
  | nil =>
    obtain rfl := Option.some.inj hrun
    exact ⟨[], F, h, (List.append_nil _).symm, fun es' last hF => hF⟩
  | cons l as ih =>
    obtain ⟨hl, s₁, hn, hrest⟩ := Lts.guardedRun_cons hrun
    have hsplit : workerActs (l :: as) ++ left = workerActs [l] ++ (workerActs as ++ left) := by
      unfold workerActs
      rw [← List.append_assoc, ← List.filterMap_append]
      rfl
    rw [hsplit] at h
    obtain ⟨es₁, F₁, h₁, htrace₁, hF₁⟩ := h.step hl hn
    obtain ⟨es₂, F₂, h₂, htrace₂, hF₂⟩ := ih h₁ hrest
    refine ⟨es₁ ++ es₂, F₂, h₂, ?_, fun es' last hF => ?_⟩
    · rw [htrace₂, htrace₁, List.append_assoc]
    · rw [List.append_assoc]
      exact hF₁ _ _ (hF₂ _ _ hF)

/-- A function of the tree is told an exception only before the first move. -/
theorem Doing.told {e : Exn} {k : Nat} (h : Doing all rest ctl fs left F)
    (hrest : ∀ k fs, rest ≠ .fn k :: fs) (hctl : ctl = .thr e) {fs' : List Frame}
    (hfs : fs = .fn k :: fs') : left = all := by
  cases h with
  | body hfirst => exact hfirst e hctl
  | entering => exact absurd hctl (by simp)
  | @ended K o =>
    cases K with
    | task => exact absurd hfs (hrest k fs')
    | inside caller script below callee => exact absurd hfs (by simp [Callers.frames])

/-- Nothing is left when the task has ended. -/
theorem Doing.nothing (h : Doing all rest ctl fs [] F) :
    ∃ o, ctl = o.ctl ∧ fs = rest ∧ F [] o := by
  generalize hnone : ([] : List Act) = left at h
  cases h with
  | @body _ _ script K _ =>
    obtain ⟨hscript, -⟩ := List.append_eq_nil_iff.mp hnone.symm
    exact absurd hscript script.acts_ne_nil
  | @entering _ _ _ _ _ callee _ _ _ =>
    obtain ⟨-, hcallee⟩ := List.append_eq_nil_iff.mp hnone.symm
    exact absurd (List.append_eq_nil_iff.mp hcallee).1 callee.acts_ne_nil
  | @ended K o =>
    cases K with
    | task => exact ⟨o, rfl, rfl, rfl, rfl⟩
    | inside caller script below callee => exact absurd hnone (by simp [Callers.acts])

/-- **`Dispatch` on the worker.** From any moment in which a task's function is on
top of the worker's stack and `Close` has not been called, and for any tree:
however the moves of the worker through the tree mix with the steps of all
others, short of a call of `Close`, no exception reaches a function of the tree;
the next move is possible and touches neither the counter nor the run queue;
and when all moves are made, the worker is back where the task was called from,
with the task's own outcome, and has called the functions in depth-first order,
each exactly once. -/
theorem dispatch_inline (h : (machine name cap n).Reach ok s) (hopen : Unclosed s.mem) {id : Nat}
    (hth : s.threads[0]? = some ⟨ctl, .fn id :: rest⟩) (script : Script) {as : List Step}
    (hrun : (machine name cap n).guardedRun NoClose s as = some s')
    (hacts : workerActs as ++ left = script.acts) :
    (∀ e k fs, s'.threads[0]? = some ⟨.thr e, .fn k :: fs⟩ → left = script.acts) ∧
    (∀ a left', left = a :: left' → ∃ s'', program.next s' (.thread 0 a) = some s'' ∧
      s''.mem.count = s'.mem.count ∧ s''.mem.queue = s'.mem.queue) ∧
    (left = [] → s'.threads[0]? = some ⟨script.outcome.ctl, rest⟩ ∧
      ∃ es, s'.mem.ofTasks = s.mem.ofTasks ++ es ∧ Runs id script es ∧
        ∀ caller k q, .called caller k .dispatch q ∈ es →
          s'.mem.trace.countP (Event.invoked k) = 1) := by
  have hbelow : ∀ k fs, rest ≠ .fn k :: fs := by
    intro k fs hrest
    subst hrest
    obtain ⟨counting, ac, hframe⟩ := over_fn (reach_grounded h hth).1
    exact absurd hframe (by simp)
  have hstart : Inside name cap n script.acts rest (workerActs as ++ left)
      (Callers.task.After [] id script) s := by
    have hall : script.acts ++ Callers.task.acts = script.acts := List.append_nil _
    have hbody : Doing script.acts rest ctl (.fn id :: Callers.task.frames rest)
        (script.acts ++ Callers.task.acts) (Callers.task.After [] id script) := .body fun e he => hall
    rw [hall] at hbody
    rw [hacts]
    exact ⟨h.mono fun _ _ _ => trivial, hopen, ctl, _, hth, hbody⟩
  obtain ⟨es, F, hinside, htrace, hF⟩ := hstart.run hrun
  obtain ⟨ctl', fs', hth', hdoing⟩ := hinside.doing
  refine ⟨?_, ?_, ?_⟩
  · intro e k fs htold
    obtain ⟨rfl, rfl⟩ := Thread.mk.inj (Option.some.inj (hth'.symm.trans htold))
    exact hdoing.told hbelow rfl rfl
  · intro a left' hleft
    rw [hleft] at hinside
    obtain ⟨m', th, hnext, hcount, hqueue, -⟩ := hinside.goes
    exact ⟨_, hnext, hcount, hqueue⟩
  · intro hleft
    rw [hleft] at hdoing
    obtain ⟨o, rfl, rfl, hend⟩ := hdoing.nothing
    obtain ⟨es₁, es₂, hes, hruns, rfl, rfl⟩ := hF [] o hend
    obtain rfl : es = es₁ := by simpa using hes
    refine ⟨hth', es, htrace, hruns, fun caller k q hmem => ?_⟩
    have hbegan : .began (.user k) false ∈ s'.mem.trace := by
      have hin : .began (.user k) false ∈ s'.mem.ofTasks := by
        rw [htrace]
        exact List.mem_append_right _ (hruns.began hmem)
      exact (List.mem_filter.mp hin).1
    have hpos : 0 < s'.mem.trace.countP (Event.invoked k) :=
      List.countP_pos_iff.mpr ⟨_, hbegan, by simp⟩
    have honce := spent_once hinside.reach k
    unfold Mem.spent at honce
    omega

/-- A task that dispatches one that dispatches one that throws. -/
def nested : Script :=
  .dispatch (.dispatch (.done (some (.user .std 7))) (.done none)) (.done none)

/-- Two deep, in a pipeline with room for one task that is full. -/
theorem dispatch_inline_nested : ∃ s s', (machine "tasks" 1 1).Reach NoClose s ∧
    s.mem.count = s.mem.capacity ∧ s'.mem.count = s.mem.count ∧
    (machine "tasks" 1 1).guardedRun NoClose s (nested.acts.map (.thread 0)) = some s' ∧
    ∃ es, s'.mem.ofTasks = s.mem.ofTasks ++ es ∧ Runs 0 nested es := by
  let worker : Nat → List Step := fun k => List.replicate k (.thread 0 .code)
  let post : List Step := .thread 1 (.call .post) :: List.replicate 3 (.thread 1 .code)
  have hrun : ∃ s s', (machine "tasks" 1 1).guardedRun NoClose (initial "tasks" 1 1)
      (post ++ worker 4 ++ post) = some s ∧
      (machine "tasks" 1 1).guardedRun NoClose s (nested.acts.map (.thread 0)) = some s' ∧
      s.threads[0]? = some ⟨.go, [.fn 0, .execTask .running (.user 0) true true, .run]⟩ ∧
      s.mem.count = s.mem.capacity ∧ s'.mem.count = s.mem.count := ⟨_, _, rfl, rfl, rfl, rfl, rfl⟩
  obtain ⟨s, s', hs, hs', hth, hfull, hcount⟩ := hrun
  have hreach := reach_schedule (by decide) hs
  obtain ⟨-, -, hend⟩ := dispatch_inline hreach (reach_unclosed hreach) hth nested hs' rfl
  obtain ⟨-, es, htrace, hruns, -⟩ := hend rfl
  exact ⟨s, s', hreach, hfull, hcount, hs', es, htrace, hruns⟩

end Warlib.Pipeline
