import Warlib.Machine.Sequencer
import Warlib.Pipeline.Shutdown

/-!
# The pipeline is a sequencer

`Pipeline` is documented as a single-thread task sequencer. Here it is one:
with "posted" read as put on the run queue for immediate processing, the
machine with all its producers, rejections, dismissals and nested calls
simulates `Machine.Sequencer` (`sequencer_simulation`). What the sequencer has
in hand is read off the worker's stack (`hand`): `ExecTask_` with `counting`
set stands on `run()`, or on the token lambda that stands on `run()`, so there
is at most one such frame (`counting_rest`). The cut is the first posted task
`ExecTask_` dismisses: `closing_` is set then, and stays set.

From the sequencer come the order, the exclusion and the completeness of the
tasks started. One result is the pipeline's own: a task that user code posted
while it was running starts only after that code's task has finished
(`reach_answered`), wherever on the worker's stack that code ran.
-/

namespace Warlib.Pipeline

open Warlib.Machine

variable {name : String} {cap : BitVec 64} {n : Nat} {ok : State → Step → Prop}
  {s s' : State} {l : Step} {i : Nat} {m m' : Mem} {a : Act} {ctl : Ctl Exn} {f g : Frame}
  {rest : List Frame} {nx : Next Frame Exn}

/-! ## The pipeline seen as a sequencer -/

/-- The posted task whose function begins. -/
@[simp] def Event.started? : Event → Option Task
  | .began t true => some t
  | _ => none

/-- The posted task whose function has ended. -/
@[simp] def Event.finished? : Event → Option Task
  | .finished t true _ => some t
  | _ => none

/-- The history of the posted tasks. -/
@[simp] def Event.happening? : Event → Option (Happening Task)
  | .enqueued h => h.posted?.map .accepted
  | .began t true => some (.started t)
  | .finished t true _ => some (.finished t)
  | _ => none

/-- The posted tasks started, in order. -/
def Mem.started (m : Mem) : List Task := m.trace.filterMap Event.started?

def Mem.happenings (m : Mem) : List (Happening Task) := m.trace.filterMap Event.happening?

/-- The posted tasks in the run queue. -/
def Mem.waiting (m : Mem) : List Task := m.queue.filterMap Handler.posted?

/-- The posted task a frame has in hand. -/
@[simp] def Frame.hand? : Frame → Option (Hand Task)
  | .execTask .running t true _ => some (.running t)
  | .execTask .entry t true _ => some (.offered t)
  | .execTask .closing t true _ => some (.offered t)
  | .execTask .call t true _ => some (.offered t)
  | .tokenHandler .start t _ => some (.offered t)
  | _ => none

/-- What the worker has in hand, from its stack. -/
def hand (fs : List Frame) : Hand Task := (fs.findSome? Frame.hand?).getD .idle

/-- Past the test of `closing_` with a posted task. -/
@[simp] def Frame.admittedPost : Frame → Bool
  | .execTask .call _ true _ => true
  | _ => false

/-! ## One step -/

/-- A step as the sequencer sees it. -/
inductive SeqStep (m : Mem) (f : Frame) (m' : Mem) (nx : Next Frame Exn) : Prop
  | accepts (t : Task) (hf : f.hand? = none) (hwait : m'.waiting = m.waiting ++ [t])
      (hhist : m'.happenings = m.happenings ++ [.accepted t]) (hnx : nx = .ret)
  | takes (t : Task) (hf : f = .run) (hwait : m.waiting = t :: m'.waiting)
      (hhist : m'.happenings = m.happenings)
      (hhand : nx.frames.findSome? Frame.hand? = some (.offered t))
      (hopen : ∀ g ∈ nx.frames, g.admittedPost = false)
  | starts (t : Task) (ac : Bool) (hf : f = .execTask .call t true ac)
      (hwait : m'.waiting = m.waiting) (hhist : m'.happenings = m.happenings ++ [.started t])
      (hhand : nx.frames.findSome? Frame.hand? = some (.running t))
      (hopen : ∀ g ∈ nx.frames, g.admittedPost = false)
  | drops (t : Task) (hf : f.hand? = some (.offered t)) (hclosing : m.closing = true)
      (hwait : m'.waiting = m.waiting) (hhist : m'.happenings = m.happenings) (hnx : nx = .ret)
  | finishes (t : Task) (hf : f.hand? = some (.running t)) (hwait : m'.waiting = m.waiting)
      (hhist : m'.happenings = m.happenings ++ [.finished t]) (hnx : nx.frames = [])
  | keeps (hwait : m'.waiting = m.waiting) (hhist : m'.happenings = m.happenings)
      (hhand : nx.frames.findSome? Frame.hand? = f.hand?)
      (hopen : m.closing = true → ∀ g ∈ nx.frames, g.admittedPost = false)

/-- An entry point starts without a posted task in hand. -/
theorem call_empty (id : Nat) (c : Call) :
    (c.frame id).hand? = none ∧ (c.frame id).admittedPost = false := by
  cases c <;> exact ⟨rfl, rfl⟩

theorem Move.sequencing (h : Move i m a ctl f m' nx) : SeqStep m f m' nx := by
  cases h
  case client_enter c | fn_enter c | completion_enter c =>
    obtain ⟨hhand, hopen⟩ := call_empty m.nextId c
    refine .keeps rfl (by simp [Mem.happenings, List.filterMap_cons]) ?_ fun _ g hg => ?_
    · rw [Next.frames, List.findSome?_cons, hhand]
      rfl
    · rcases List.mem_pair.mp hg with rfl | rfl
      · exact hopen
      · rfl
  case post_enqueue t =>
    exact .accepts t rfl (by simp [Mem.waiting]) (by simp [Mem.happenings]) rfl
  case postToken t tok =>
    exact .accepts t rfl (by simp [Mem.waiting]) (by simp [Mem.happenings]) rfl
  case exec_dismissed t c ac hc =>
    cases c with
    | true => exact .drops t rfl hc rfl (by simp [Mem.happenings, List.filterMap_cons]) rfl
    | false => exact .keeps rfl (by simp [Mem.happenings, List.filterMap_cons]) rfl (by simp)
  case exec_admitted t c ac hc =>
    refine .keeps rfl (by simp [Mem.happenings, List.filterMap_cons]) ?_ fun hc' => ?_
    · cases c <;> rfl
    · exact absurd (hc.symm.trans hc') (by simp)
  case exec_call t c ac =>
    cases c with
    | true =>
      refine .starts t ac rfl rfl (by simp [Mem.happenings]) ?_ ?_
      · cases t <;> rfl
      · cases t <;> simp [Task.body]
    | false =>
      refine .keeps rfl (by simp [Mem.happenings, List.filterMap_cons]) ?_ fun _ => ?_
      all_goals cases t <;> simp [Task.body]
  case exec_ret t c ac =>
    cases c with
    | true => exact .finishes t rfl rfl (by simp [Mem.happenings]) rfl
    | false => exact .keeps rfl (by simp [Mem.happenings, List.filterMap_cons]) rfl (by simp)
  case exec_caught t c e | exec_thrown t c e =>
    cases c with
    | true => exact .finishes t rfl rfl (by simp [Mem.happenings]) rfl
    | false => exact .keeps rfl (by simp [Mem.happenings, List.filterMap_cons]) rfl (by simp)
  case run_take h q hs hq hctl =>
    cases h with
    | execTask t =>
      exact .takes t rfl (by simp [Mem.waiting, hq])
        (by simp [Mem.happenings, List.filterMap_cons]) rfl (by simp [Handler.frame])
    | token t tok =>
      exact .takes t rfl (by simp [Mem.waiting, hq])
        (by simp [Mem.happenings, List.filterMap_cons]) rfl (by simp [Handler.frame])
    | _ =>
      exact .keeps (by simp [Mem.waiting, hq, List.filterMap_cons])
        (by simp [Mem.happenings, List.filterMap_cons]) rfl (by simp [Handler.frame])
  case user_set p o hp hf | user_set_again p o hp hf =>
    have hempty : f.hand? = none ∧ f.admittedPost = false :=
      Frame.of_userCode (P := fun g => g.hand? = none ∧ g.admittedPost = false) hf
        ⟨rfl, rfl⟩ (fun _ => ⟨rfl, rfl⟩) fun _ => ⟨rfl, rfl⟩
    refine .keeps rfl rfl ?_ fun _ => Next.forall_goto hempty.2
    rw [Next.frames, List.findSome?_cons, hempty.1]
    rfl
  case close_enqueue =>
    exact .keeps (by simp [Mem.waiting]) (filterMap_of_trace rfl rfl) rfl (by simp)
  all_goals refine .keeps rfl ?_ rfl fun _ => ?_
  all_goals first
    | rfl
    | exact filterMap_of_trace rfl rfl
    | exact fun g hg => absurd hg List.not_mem_nil
    | exact Next.forall_goto rfl
    | exact Next.forall_call rfl rfl

/-! ## The hand -/

/-- The frames that can have a posted task in hand. -/
theorem hand_shape (hf : f.hand? ≠ none) :
    (∃ pc t ac, f = .execTask pc t true ac) ∨ ∃ t tok, f = .tokenHandler .start t tok := by
  cases f with
  | execTask pc t c ac =>
    cases c with
    | true => exact Or.inl ⟨pc, t, ac, rfl⟩
    | false => exact absurd (by cases pc <;> rfl) hf
  | tokenHandler pc t tok =>
    cases pc with
    | start => exact Or.inr ⟨t, tok, rfl⟩
    | after => exact absurd rfl hf
  | _ => exact absurd rfl hf

/-- They stand on `run()`, or on the token lambda. -/
theorem over_hand (h : Over f g) (hf : f.hand? ≠ none) :
    g = .run ∨ ∃ t tok, g = .tokenHandler .after t tok := by
  unfold Over Frame.mayCall at h
  rcases hand_shape hf with ⟨pc, t, ac, rfl⟩ | ⟨t, tok, rfl⟩
  · split at h <;> simp_all
  · split at h <;> simp_all

/-- Below a posted task in hand is nothing but `run()` and possibly the token
lambda. -/
theorem counting_rest (h : Grounded Over .run (f :: rest)) (hf : f.hand? ≠ none) :
    rest = [.run] ∨ ∃ t tok, rest = [.tokenHandler .after t tok, .run] := by
  cases rest with
  | nil =>
    have hrun : f = .run := h
    exact absurd (hrun ▸ rfl) hf
  | cons g rest =>
    rcases over_hand h.1 hf with rfl | ⟨t, tok, rfl⟩
    · obtain rfl := Grounded.run_rest h.2
      exact Or.inl rfl
    · cases rest with
      | nil => exact absurd h.2 (by simp [Grounded])
      | cons g' rest =>
        obtain rfl := over_token h.2.1
        obtain rfl := Grounded.run_rest h.2.2
        exact Or.inr ⟨t, tok, rfl⟩

theorem hand_rest (h : Grounded Over .run (f :: rest)) (hf : f.hand? ≠ none) :
    rest.findSome? Frame.hand? = none ∧ ∀ g ∈ rest, g.admittedPost = false := by
  rcases counting_rest h hf with rfl | ⟨t, tok, rfl⟩ <;> simp

/-! ## The simulation -/

/-- The pipeline in state `s` is the sequencer in state `t`. -/
structure Refines (s : State) (t : Sequencer Task) : Prop where
  waiting : s.mem.waiting = t.waiting
  hist : s.mem.happenings = t.hist
  hand : ∀ th, s.threads[0]? = some th → hand th.frames = t.hand
  cut : t.cut = true → s.mem.closing = true ∧
    ∀ th, s.threads[0]? = some th → ∀ g ∈ th.frames, g.admittedPost = false

theorem refines_initial : Refines (initial name cap n) {} := by
  refine ⟨rfl, rfl, fun th hth => ?_, fun hcut => absurd hcut (by simp)⟩
  obtain rfl := initial_thread hth
  rfl

/-- A client has nothing in hand. -/
theorem hand_client (h : f.onClient = true) : f.hand? = none ∧ f ≠ .run := by
  cases f <;> simp_all [Frame.onClient]

theorem hand_cons_none (hf : f.hand? = none) : hand (f :: rest) = hand rest := by
  rw [hand, hand, List.findSome?_cons, hf]

theorem hand_cons_some {h : Hand Task} (hf : f.hand? = some h) : hand (f :: rest) = h := by
  rw [hand, List.findSome?_cons, hf]
  rfl

theorem hand_append_some {fs : List Frame} {h : Hand Task}
    (hfs : fs.findSome? Frame.hand? = some h) : hand (fs ++ rest) = h := by
  rw [hand, List.findSome?_append, hfs]
  rfl

theorem hand_append_none {fs : List Frame} (hfs : fs.findSome? Frame.hand? = none) :
    hand (fs ++ rest) = hand rest := by
  rw [hand, List.findSome?_append, hfs]
  rfl

theorem hand_idle (h : rest.findSome? Frame.hand? = none) : hand rest = .idle := by
  rw [hand, h]
  rfl

/-- The step of the worker, on its stack. -/
theorem SeqStep.worker (h : SeqStep m f m' nx) (hground : Grounded Over .run (f :: rest))
    {t : Sequencer Task} (hwaiting : m.waiting = t.waiting) (hhist : m.happenings = t.hist)
    (hhand : hand (f :: rest) = t.hand)
    (hcut : t.cut = true → m.closing = true ∧ ∀ g ∈ f :: rest, g.admittedPost = false)
    (hlater : m.closing = true → m'.closing = true) :
    ∃ t', Lts.Steps Sequencer.lts t t' ∧ m'.waiting = t'.waiting ∧ m'.happenings = t'.hist ∧
      hand (nx.frames ++ rest) = t'.hand ∧
      (t'.cut = true → m'.closing = true ∧ ∀ g ∈ nx.frames ++ rest, g.admittedPost = false) := by
  have hbelow : t.cut = true → ∀ g ∈ rest, g.admittedPost = false :=
    fun hc g hg => (hcut hc).2 g (List.mem_cons_of_mem _ hg)
  have hframes : ∀ {gs : List Frame}, (∀ g ∈ gs, g.admittedPost = false) →
      (∀ g ∈ rest, g.admittedPost = false) → ∀ g ∈ gs ++ rest, g.admittedPost = false := by
    intro gs hgs hrest g hg
    rcases List.mem_append.mp hg with hg | hg
    · exact hgs g hg
    · exact hrest g hg
  cases h with
  | accepts x hf hwait hh hnx =>
    refine ⟨_, .one (a := .accept x) rfl, ?_, ?_, ?_, fun hc => ?_⟩
    · rw [hwait, hwaiting]
    · rw [hh, hhist]
    · rw [hnx, ← hhand, hand_cons_none hf]
      rfl
    · rw [hnx]
      exact ⟨hlater (hcut hc).1, hframes (by simp) (hbelow hc)⟩
  | takes x hf hwait hh hnew hopen =>
    subst hf
    obtain rfl := Grounded.run_rest hground
    have hidle : t.hand = .idle := hhand.symm
    have hqueue : t.waiting = x :: m'.waiting := hwaiting.symm.trans hwait
    refine ⟨{ t with waiting := m'.waiting, hand := .offered x }, .one (a := .take) ?_, rfl, ?_, ?_,
      fun hc => ⟨hlater (hcut hc).1, hframes hopen (hbelow hc)⟩⟩
    · show Sequencer.step t .take = _
      simp only [Sequencer.step, hidle, hqueue]
    · exact hh.trans hhist
    · exact hand_append_some hnew
  | starts x ac hf hwait hh hnew hopen =>
    subst hf
    have hoffered : t.hand = .offered x := hhand.symm.trans (hand_cons_some rfl)
    have hwhole : t.cut = false := by
      by_contra hc
      have hno := (hcut (by simpa using hc)).2 _ (List.mem_cons_self ..)
      exact absurd hno (by simp)
    refine ⟨{ t with hand := .running x, hist := t.hist ++ [.started x] }, .one (a := .start) ?_,
      hwait.trans hwaiting, ?_, hand_append_some hnew, fun hc => ?_⟩
    · show Sequencer.step t .start = _
      simp only [Sequencer.step, hoffered, hwhole]
    · rw [hh, hhist]
    · exact absurd hc (by simp [hwhole])
  | drops x hf hclosing hwait hh hnx =>
    obtain ⟨hrest, hnone⟩ := hand_rest hground (by rw [hf]; simp)
    have hoffered : t.hand = .offered x := hhand.symm.trans (hand_cons_some hf)
    refine ⟨{ t with hand := .idle, cut := true }, .one (a := .drop) ?_, hwait.trans hwaiting,
      hh.trans hhist, ?_, fun _ => ?_⟩
    · show Sequencer.step t .drop = _
      simp only [Sequencer.step, hoffered]
    · rw [hnx]
      exact hand_idle hrest
    · rw [hnx]
      exact ⟨hlater hclosing, hframes (by simp) hnone⟩
  | finishes x hf hwait hh hnx =>
    obtain ⟨hrest, hnone⟩ := hand_rest hground (by rw [hf]; simp)
    have hrunning : t.hand = .running x := hhand.symm.trans (hand_cons_some hf)
    refine ⟨{ t with hand := .idle, hist := t.hist ++ [.finished x] }, .one (a := .finish) ?_,
      hwait.trans hwaiting, ?_, ?_, fun hc => ?_⟩
    · show Sequencer.step t .finish = _
      simp only [Sequencer.step, hrunning]
    · rw [hh, hhist]
    · rw [hnx]
      exact hand_idle hrest
    · rw [hnx]
      exact ⟨hlater (hcut hc).1, hframes (by simp) hnone⟩
  | keeps hwait hh hnew hopen =>
    refine ⟨t, .refl t, hwait.trans hwaiting, hh.trans hhist, ?_, fun hc =>
      ⟨hlater (hcut hc).1, hframes (hopen (hcut hc).1) (hbelow hc)⟩⟩
    cases hf : f.hand? with
    | none => rw [hand_append_none (hnew.trans hf), ← hhand, hand_cons_none hf]
    | some h => rw [hand_append_some (hnew.trans hf), ← hhand, hand_cons_some hf]

/-- The sequencer's answer to a step. -/
theorem Stepped.refines (hr : (machine name cap n).Reach ok s) (hs : Stepped s l s')
    {t : Sequencer Task} (hR : Refines s t) :
    ∃ t', Lts.Steps Sequencer.lts t t' ∧ Refines s' t' := by
  obtain ⟨hwaiting, hhist, hhand, hcut⟩ := hR
  have hlater := hs.later.closing
  cases hs with
  | @move i a ctl f rest m nx hth hm =>
    by_cases hi : i = 0
    · subst hi
      obtain ⟨t', hsteps, hwaiting', hhist', hhand', hcut'⟩ :=
        hm.sequencing.worker (reach_grounded hr hth)
        hwaiting hhist (hhand _ hth) (fun hc => ⟨(hcut hc).1, (hcut hc).2 _ hth⟩) hlater
      have hthread : ∀ th, (s.threads.set 0 (nx.resume rest))[0]? = some th →
          th.frames = nx.frames ++ rest := by
        intro th hth'
        obtain ⟨_, _, rfl⟩ := Option.map_eq_some_iff.mp (List.getElem?_set_self' ▸ hth')
        exact Next.resume_frames rest nx
      refine ⟨t', hsteps, hwaiting', hhist', fun th hth' => ?_, fun hc => ?_⟩
      · rw [hthread th hth']
        exact hhand'
      · refine ⟨(hcut' hc).1, fun th hth' => ?_⟩
        rw [hthread th hth']
        exact (hcut' hc).2
    · obtain ⟨hnone, hnorun⟩ :=
        hand_client (reach_onClient hr i _ hth hi f (List.mem_cons_self ..))
      have hworker : ∀ th, (s.threads.set i (nx.resume rest))[0]? = some th →
          s.threads[0]? = some th := by
        intro th hth'
        rwa [List.getElem?_set_ne hi] at hth'
      have hframes : t.cut = true → m.closing = true ∧
          ∀ th, (s.threads.set i (nx.resume rest))[0]? = some th →
            ∀ g ∈ th.frames, g.admittedPost = false :=
        fun hc => ⟨hlater (hcut hc).1, fun th hth' => (hcut hc).2 th (hworker th hth')⟩
      cases hm.sequencing with
      | accepts x hf hwait hh hnx =>
        refine ⟨_, .one (a := .accept x) rfl, ?_, ?_, fun th hth' => hhand th (hworker th hth'),
          hframes⟩
        · exact hwait.trans (by rw [hwaiting])
        · exact hh.trans (by rw [hhist])
      | keeps hwait hh hnew hopen =>
        exact ⟨t, .refl t, hwait.trans hwaiting, hh.trans hhist,
          fun th hth' => hhand th (hworker th hth'), hframes⟩
      | takes x hf => exact absurd hf hnorun
      | starts x ac hf => exact absurd hnone (by rw [hf]; simp)
      | drops x hf => exact absurd hnone (by rw [hf]; simp)
      | finishes x hf => exact absurd hnone (by rw [hf]; simp)
  | @expire k ec tm ht =>
    refine ⟨t, .refl t, Eq.trans ?_ hwaiting, Eq.trans ?_ hhist, hhand, hcut⟩
    · obtain ⟨task, tok⟩ := tm
      cases tok <;> simp [Mem.waiting, Timer.handler, List.filterMap_cons]
    · obtain ⟨task, tok⟩ := tm
      cases tok <;> simp [Mem.happenings, Timer.handler, List.filterMap_cons]

/-- **The pipeline is a sequencer**: a forward simulation of all its runs. -/
theorem sequencer_simulation :
    Lts.Simulation (machine name cap n) ok (Sequencer.lts (α := Task)) Refines where
  init := fun _ hs => ⟨{}, rfl, hs.1 ▸ refines_initial⟩
  step := fun _ _ _ _ hr _ hn hR => (stepped_of_next hn).1.refines hr hR

/-! ## The history of the pipeline and of the sequencer -/

theorem happenings_accepted (tr : List Event) :
    (tr.filterMap Event.happening?).filterMap Happening.accepted? =
      (tr.filterMap Event.enqueued?).filterMap Handler.posted? := by
  rw [List.filterMap_filterMap, List.filterMap_filterMap]
  congr 1
  funext e
  cases e with
  | enqueued h => cases h <;> rfl
  | began t c => cases c <;> rfl
  | finished t c o => cases c <;> rfl
  | _ => rfl

theorem happenings_started (tr : List Event) :
    (tr.filterMap Event.happening?).filterMap Happening.started? = tr.filterMap Event.started? := by
  rw [List.filterMap_filterMap]
  congr 1
  funext e
  cases e with
  | enqueued h => cases h <;> rfl
  | began t c => cases c <;> rfl
  | finished t c o => cases c <;> rfl
  | _ => rfl

theorem happenings_finished (tr : List Event) :
    (tr.filterMap Event.happening?).filterMap Happening.finished? =
      tr.filterMap Event.finished? := by
  rw [List.filterMap_filterMap]
  congr 1
  funext e
  cases e with
  | enqueued h => cases h <;> rfl
  | began t c => cases c <;> rfl
  | finished t c o => cases c <;> rfl
  | _ => rfl

/-- Whenever a posted task starts, the posted tasks started before have
finished. -/
def OneByOne (tr : List Event) : Prop :=
  Each (fun pre e => ∀ t, e = .began t true →
    pre.filterMap Event.started? = pre.filterMap Event.finished?) tr

/-- The sequencer's exclusion, on the pipeline's own history. -/
theorem oneByOne_of_exclusive {tr : List Event}
    (h : Sequencer.Exclusive (tr.filterMap Event.happening?)) : OneByOne tr := by
  rintro pre e post rfl t rfl
  have hsplit : (pre ++ .began t true :: post).filterMap Event.happening? =
      pre.filterMap Event.happening? ++ .started t :: post.filterMap Event.happening? := by
    rw [List.filterMap_append, List.filterMap_cons]
    rfl
  have hall := h _ _ _ hsplit t rfl
  rwa [happenings_started, happenings_finished] at hall

/-! ## Tasks posted by running tasks -/

/-- Every call user code made from a task's function is that of a task that
has finished, or that is still running on the worker. -/
def Answered (s : State) : Prop :=
  ∀ caller id c q, .called (some caller) id c q ∈ s.mem.trace →
    (∃ counting o, .finished (.user caller) counting o ∈ s.mem.trace) ∨
      ∃ th, s.threads[0]? = some th ∧
        ∃ counting ac, .execTask .running (.user caller) counting ac ∈ th.frames

/-- A call is made from the frame of the function it is attributed to. -/
theorem Move.called (h : Move i m a ctl f m' nx) {caller id : Nat} {c : Call} {q : Nat}
    (hmem : .called (some caller) id c q ∈ m'.trace) :
    .called (some caller) id c q ∈ m.trace ∨ f = .fn caller := by
  cases h
  case fn_enter id' c' =>
    rcases List.mem_append.mp hmem with hmem | hmem
    · exact Or.inl hmem
    · have hcaller : caller = id' := by simpa using (by simpa using hmem : _ ∧ _).1
      exact Or.inr (by rw [hcaller])
  all_goals exact Or.inl (by simpa using hmem)

/-- A running task leaves the stack when it has finished. -/
theorem Move.finishes {t : Task} {counting ac : Bool}
    (h : Move i m a ctl (.execTask .running t counting ac) m' nx) :
    ∃ o, .finished t counting o ∈ m'.trace := by
  cases h
  case user_set p o hp hf | user_set_again p o hp hf => exact absurd hf (by simp [Frame.userCode])
  all_goals exact ⟨_, List.mem_append_right _ (List.mem_singleton.mpr rfl)⟩

theorem Stepped.answered (hr : (machine name cap n).Reach ok s) (hs : Stepped s l s')
    (hI : Answered s) : Answered s' := by
  intro caller id c q hmem
  have hlater := hs.later.trace
  cases hs with
  | @move i a ctl f rest m nx hth hm =>
    -- the task is on the worker's stack, below the frame that moves
    have hstays : ∀ {counting ac}, .execTask .running (.user caller) counting ac ∈ rest → i = 0 →
        ∃ th, (s.threads.set i (nx.resume rest))[0]? = some th ∧
          ∃ counting ac, .execTask .running (.user caller) counting ac ∈ th.frames := by
      rintro counting ac hin rfl
      refine ⟨nx.resume rest, ?_, counting, ac, ?_⟩
      · rw [List.getElem?_set_self', hth]
        rfl
      · rw [Next.resume_frames]
        exact List.mem_append_right _ hin
    rcases hm.called hmem with hold | rfl
    · rcases hI caller id c q hold with ⟨counting, o, hfin⟩ | ⟨th, hth0, counting, ac, hin⟩
      · exact Or.inl ⟨counting, o, hlater.subset hfin⟩
      · by_cases hi : i = 0
        · subst hi
          obtain rfl : th = ⟨ctl, f :: rest⟩ := Option.some.inj (hth0.symm.trans hth)
          rcases List.mem_cons.mp hin with rfl | hin
          · obtain ⟨o, hfin⟩ := hm.finishes
            exact Or.inl ⟨counting, o, hfin⟩
          · exact Or.inr (hstays hin rfl)
        · exact Or.inr ⟨th, by rwa [List.getElem?_set_ne hi], counting, ac, hin⟩
    · -- a new call: its caller's function is on the worker's stack right now
      obtain rfl := reach_worker hr hth rfl
      have hground := reach_grounded hr hth
      cases rest with
      | nil => exact absurd hground (by simp [Grounded, bottom])
      | cons g rest =>
        obtain ⟨counting, ac, rfl⟩ := over_fn hground.1
        exact Or.inr (hstays (List.mem_cons_self ..) rfl)
  | expire ht =>
    have hold : .called (some caller) id c q ∈ s.mem.trace := by simpa using hmem
    rcases hI caller id c q hold with ⟨counting, o, hfin⟩ | hrunning
    · exact Or.inl ⟨counting, o, hlater.subset hfin⟩
    · exact Or.inr hrunning

theorem reach_answered (h : (machine name cap n).Reach ok s) : Answered s :=
  reach_invariant (I := Answered) h
    (fun caller id c q hmem => absurd hmem (by simp [initial]))
    fun _ _ _ hr _ hs _ hI => hs.answered hr hI

/-- Whenever a posted task starts, the tasks whose functions posted it have
finished. -/
def AfterPoster (tr : List Event) : Prop :=
  Each (fun pre e => ∀ t, e = .began t true → ∀ caller c q,
    .called (some caller) t.id c q ∈ pre →
      ∃ counting o, .finished (.user caller) counting o ∈ pre) tr

theorem reach_afterPoster (h : (machine name cap n).Reach ok s) : AfterPoster s.mem.trace := by
  refine reach_invariant (I := fun s => AfterPoster s.mem.trace) h (each_nil _)
    fun s l s' hr _ hs _ hI => hs.each ?_ ?_ hI
  · intro i a ctl f rest m nx e _ hth hm htrace t he caller c q hcalled
    subst he
    obtain ⟨ac, rfl⟩ := hm.source htrace
    rcases reach_answered hr caller t.id c q hcalled with hfin | ⟨th, hth0, counting, ac', hin⟩
    · exact hfin
    · exfalso
      obtain rfl := reach_worker hr hth rfl
      obtain rfl : th = ⟨ctl, .execTask .call t true ac :: rest⟩ :=
        Option.some.inj (hth0.symm.trans hth)
      rcases counting_rest (reach_grounded hr hth) (by simp) with rfl | ⟨t', tok, rfl⟩ <;>
        simp at hin
  · intro timer ec t he
    exact absurd he (by simp)

/-! ## Ordered, exactly once, with a clean cut -/

/-- A task of `Post` is in the hands of `Post`. -/
theorem handing_post {id : Nat} (hf : handing false id f ≠ 0) : ∃ pc, f = .post pc (.user id) := by
  unfold handing at hf
  split at hf
  next pc id' =>
    obtain rfl : id' = id := by simpa using hf
    exact ⟨pc, rfl⟩
  all_goals exact absurd hf (by simp)

/-- As long as `Close` has not been called, every call of `Post` that is over has queued its
task, if it was not rejected. -/
theorem posted_of_called (h : (machine name cap n).Reach ok s) (hopen : Unclosed s.mem)
    {caller : Option Nat} {id q : Nat} (hcall : .called caller id .post q ∈ s.mem.trace)
    (hover : ∀ th ∈ s.threads, ∀ pc, .post pc (.user id) ∉ th.frames)
    (haccepted : .rejected (.user id) ∉ s.mem.trace) : .user id ∈ s.mem.posted := by
  have hhanded := reach_handed h false id
  have hhands : 0 < s.mem.trace.countP (Event.hands false id) :=
    List.countP_pos_iff.mpr ⟨_, hcall, by simp⟩
  have hzero : tally (handing false id) s.threads = 0 := by
    refine tally_eq_zero fun th hth f hf => ?_
    by_contra hne
    obtain ⟨pc, rfl⟩ := handing_post hne
    exact hover th hth pc hf
  obtain ⟨e, he, hreceives⟩ : ∃ e ∈ s.mem.trace, e.receives false id = true :=
    List.countP_pos_iff.mp (by omega)
  unfold Event.receives at hreceives
  split at hreceives
  next id' =>
    obtain rfl : id' = id := by simpa using hreceives
    exact List.mem_filterMap.mpr ⟨_, mem_enqueued.mpr he, rfl⟩
  next id' =>
    obtain rfl : id' = id := by simpa using hreceives
    exact absurd he haccepted
  next id' => exact absurd he (reach_undismissed h hopen _ _)
  all_goals exact absurd hreceives (by simp)

/-- **Sequencing.** In every reachable state the posted tasks started are a
prefix of the posted tasks enqueued, and no task occurs twice; whenever one
starts, all that started before have finished, and so has the task that
posted it. As long as `Close` has not been called, an idle worker with no
posted task in the queue has started every posted task, exactly once: the task
of every call of `Post` that is over and was not rejected. -/
theorem posted_in_sequence (h : (machine name cap n).Reach ok s) :
    s.mem.started <+: s.mem.posted ∧ s.mem.started.Nodup ∧
      OneByOne s.mem.trace ∧ AfterPoster s.mem.trace ∧
      (Unclosed s.mem → s.threads[0]?.map Thread.frames = some [.run] → s.mem.queued = 0 →
        (∀ t ∈ s.mem.posted, s.mem.started.count t = 1) ∧
        ∀ caller id q, .called caller id .post q ∈ s.mem.trace →
          (∀ th ∈ s.threads, ∀ pc, .post pc (.user id) ∉ th.frames) →
          .rejected (.user id) ∉ s.mem.trace → s.mem.started.count (.user id) = 1) := by
  obtain ⟨t, ht, hR⟩ := sequencer_simulation.reach h
  have hposted : t.accepted = s.mem.posted := by
    rw [Sequencer.accepted, ← hR.hist]
    exact happenings_accepted _
  have hstarted : t.started = s.mem.started := by
    rw [Sequencer.started, ← hR.hist]
    exact happenings_started _
  have hstarts : s.mem.started <+: s.mem.posted := by
    rw [← hposted, ← hstarted]
    exact Sequencer.started_prefix ht
  have hnodup : s.mem.started.Nodup := (posted_nodup h).sublist hstarts.sublist
  refine ⟨hstarts, hnodup, ?_, reach_afterPoster h, fun hopen hidle hempty => ?_⟩
  · have hexclusive : Sequencer.Exclusive s.mem.happenings := by
      rw [hR.hist]
      exact Sequencer.exclusive ht
    exact oneByOne_of_exclusive hexclusive
  · obtain ⟨th, hth, hframes⟩ := Option.map_eq_some_iff.mp hidle
    have hwhole : t.cut = false := by
      by_contra hc
      have hclosing := (hR.cut (by simpa using hc)).1
      exact absurd ((reach_untouched h hopen).closing.symm.trans hclosing) (by simp)
    have hhand : t.hand = .idle := by
      rw [← hR.hand th hth, hframes]
      rfl
    have hwaiting : t.waiting = [] := by
      rw [← hR.waiting]
      refine List.filterMap_eq_nil_iff.mpr fun hd hmem => ?_
      have himm := List.countP_eq_zero.mp hempty hd hmem
      cases hd <;> simp_all
    have hall := Sequencer.complete ht hwhole hhand hwaiting
    rw [hstarted, hposted] at hall
    have honce : ∀ t ∈ s.mem.posted, s.mem.started.count t = 1 := by
      intro x hx
      have hone := List.nodup_iff_count.mp (posted_nodup h) x
      have hpos := List.count_pos_iff.mpr hx
      rw [hall]
      omega
    exact ⟨honce, fun caller id q hcall hover haccepted =>
      honce _ (posted_of_called h hopen hcall hover haccepted)⟩

/-- A client posts a task, and the task posts another. -/
theorem posted_in_sequence_nested : ∃ s, (machine "tasks" 2 1).Reach NoClose s ∧
    s.mem.started = [.user 0, .user 1] ∧ (∀ t ∈ s.mem.posted, s.mem.started.count t = 1) ∧
    s.mem.started.count (.user 1) = 1 := by
  let begin : List Step := [.thread 0 .code, .thread 0 .code, .thread 0 .code, .thread 0 .code]
  let steps : List Step := [.thread 1 (.call .post), .thread 1 .code, .thread 1 .code,
    .thread 1 .code] ++ begin ++ [.thread 0 (.call .post), .thread 0 .code, .thread 0 .code,
    .thread 0 .code, .thread 0 .ret, .thread 0 .code] ++ begin ++ [.thread 0 .ret, .thread 0 .code]
  have hrun : ∃ s, (machine "tasks" 2 1).guardedRun NoClose (initial "tasks" 2 1) steps = some s ∧
      s.mem.started = [.user 0, .user 1] ∧
      s.threads = [⟨.ret, [.run]⟩, ⟨.ret, [.client]⟩] ∧ s.mem.queued = 0 ∧
      .called (some 0) 1 .post 0 ∈ s.mem.trace ∧ .rejected (.user 1) ∉ s.mem.trace :=
    ⟨_, rfl, rfl, rfl, rfl, by decide, by decide⟩
  obtain ⟨s, hs, hstarted, hthreads, hempty, hcall, haccepted⟩ := hrun
  have hreach := reach_schedule (by decide) hs
  obtain ⟨honce, hcalls⟩ := (posted_in_sequence hreach).2.2.2.2 (reach_unclosed hreach)
    (by rw [hthreads]; rfl) hempty
  refine ⟨s, hreach, hstarted, honce, hcalls _ 1 _ hcall (fun th hth pc hmem => ?_) haccepted⟩
  rw [hthreads] at hth
  rcases List.mem_pair.mp hth with rfl | rfl
  · exact absurd (List.mem_singleton.mp hmem) (by simp)
  · exact absurd (List.mem_singleton.mp hmem) (by simp)

end Warlib.Pipeline
