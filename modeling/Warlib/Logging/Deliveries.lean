import Warlib.Logging.Order
import Warlib.Logging.Records

/-!
# What each handler is told

A handler attached as the `k`th is due the events whose `DoSubmit` takes the
lock after its insertion and whose level it wants. `State.undelivered` is what
the holder of the lock has still to tell it; `reach_delivered` says that what
it has been told and that is what it is due, in this order.

`reach_calm` is about the calls of `Submit` of all handlers: one begins only
when the one before has ended, so the output of a handler is one whole record
after the other.
-/

namespace Warlib.Logging

open Warlib.Machine

variable {set : Setting} {n i k p : Nat} {a : Act} {m m' : Shared} {f : Frame}
  {nx : Next Frame Empty} {ok : State → Step → Prop} {s s' : State} {l : Step}

/-! ## What is due -/

@[simp] def Event.inserted? : Event → Option Nat
  | .inserted p => some p
  | _ => none

/-- The submission a handler is told of. -/
def Entry.submission (entry : Entry) : Submission := ⟨entry.thread, entry.id, entry.info.log⟩

/-- An event the object `p` wants, at its place in the order. -/
@[simp] def Event.due? (set : Setting) (p : Nat) : Event → Option Submission
  | .locked i id si => if si.level ≤ (set.object p).level then some ⟨i, id, si.log⟩ else none
  | _ => none

/-- The `k`th handler is told of an event. -/
@[simp] def Event.told? (k : Nat) : Event → Option Submission
  | .began entry => if entry.k = k then some entry.submission else none
  | _ => none

/-- The events the `k`th handler has been told of. -/
def Shared.told (m : Shared) (k : Nat) : List Submission := m.trace.filterMap (Event.told? k)

/-- What a frame of thread `i` has still to tell the `k`th handler, the object `p`. -/
def Frame.undelivered (set : Setting) (i k p : Nat) : Frame → List Submission
  | .doSubmit (.loop si j) id =>
    if j ≤ k ∧ si.level ≤ (set.object p).level then [⟨i, id, si.log⟩] else []
  | _ => []

/-- What the holder of the lock has still to tell it. -/
def State.undelivered (set : Setting) (s : State) (k p : Nat) : List Submission :=
  inHand (fun i => Frame.undelivered set i k p) s.mem.lock s.threads

/-- Outside the critical sections nobody has anything to tell. -/
theorem undelivered_outside (set : Setting) (k p i : Nat) (f : Frame) (h : f.holds = 0) :
    f.undelivered set i k p = [] := by
  cases f with
  | doSubmit pc id =>
    cases pc with
    | loop si j => exact absurd h Nat.one_ne_zero
    | _ => rfl
  | _ => rfl

/-- A step of `f` tells the `k`th handler something, or takes up an event for it, or
does neither; what is due and not yet told stays the same. -/
theorem Move.delivers (h : Move set i m a f m' nx) (hobject : m.engine.object = set.object)
    (hp : m.engine.handlers[k]? = some p) :
    ∃ es, m'.trace = m.trace ++ es ∧
      f.undelivered set i k p ++ es.filterMap (Event.due? set p) =
        es.filterMap (Event.told? k) ++ nx.frames.flatMap (Frame.undelivered set i k p) ∧
      (f.holds = 0 → es.filterMap (Event.told? k) = []) ∧
      (f.holds = 0 → m'.lock = m.lock → es.filterMap (Event.due? set p) = []) := by
  cases h with
  | client_submit log | statement_text buf | add_push q | handler_end entry =>
    exact ⟨[_], rfl, rfl, fun _ => rfl, fun _ _ => rfl⟩
  | doSubmit_lock si id hfree =>
    refine ⟨[_], rfl, ?_, fun _ => rfl, fun _ hlock => ?_⟩
    swap
    · have htaken : some i = m.lock := hlock
      rw [hfree] at htaken
      exact absurd htaken (by simp)
    by_cases hlevel : si.level ≤ (set.object p).level <;> simp [Frame.undelivered, hlevel]
  | doSubmit_deliver si j q id hq hlevel =>
    refine ⟨[_], rfl, ?_, fun hf => absurd hf Nat.one_ne_zero, fun hf => absurd hf Nat.one_ne_zero⟩
    by_cases hjk : j = k
    · subst hjk
      rw [hp, Option.some.injEq] at hq
      subst hq
      rw [hobject] at hlevel
      have hnext : ¬j + 1 ≤ j := by omega
      simp [Frame.undelivered, Entry.submission, hlevel, hnext, List.filterMap_cons]
    · have hle : j ≤ k ↔ j + 1 ≤ k := by omega
      simp [Frame.undelivered, hjk, hle]
  | doSubmit_skip si j q id hq hlevel =>
    refine ⟨[], (List.append_nil _).symm, ?_, fun _ => rfl, fun _ _ => rfl⟩
    by_cases hjk : j = k
    · subst hjk
      rw [hp, Option.some.injEq] at hq
      subst hq
      rw [hobject] at hlevel
      simp [Frame.undelivered, hlevel]
    · have hle : j ≤ k ↔ j + 1 ≤ k := by omega
      simp [Frame.undelivered, hle]
  | doSubmit_end si j id hend =>
    refine ⟨[], (List.append_nil _).symm, ?_, fun _ => rfl, fun _ _ => rfl⟩
    have hk := (List.getElem?_eq_some_iff.mp hp).1
    have hj := List.getElem?_eq_none_iff.mp hend
    have hle : ¬j ≤ k := by omega
    simp [Frame.undelivered, hle]
  | _ => exact ⟨[], (List.append_nil _).symm, rfl, fun _ => rfl, fun _ _ => rfl⟩

/-- The same for the state: what is due and not yet told is with the holder of the
lock. -/
theorem undelivered_step (h : (machine set n).Reach ok s) {ctl : Ctl Empty} {rest : List Frame}
    (hth : s.threads[i]? = some ⟨ctl, f :: rest⟩) (hm : Move set i s.mem a f m nx)
    (hp : s.mem.engine.handlers[k]? = some p) :
    ∃ es, m.trace = s.mem.trace ++ es ∧
      s.undelivered set k p ++ es.filterMap (Event.due? set p) =
        es.filterMap (Event.told? k) ++
          State.undelivered set ⟨m, s.threads.set i (nx.resume rest)⟩ k p := by
  obtain ⟨es, htrace, hbalance, htold, hdue⟩ := hm.delivers (reach_object h) hp
  exact ⟨es, htrace, (reach_owned h).inHand_step hth hm.locks (undelivered_outside set k p) hbalance
    htold hdue⟩

/-! ## What has been told -/

/-- The handlers are those inserted, in this order. -/
theorem reach_handlers (h : (machine set n).Reach ok s) :
    s.mem.engine.handlers = s.mem.trace.filterMap Event.inserted? := by
  refine reach_invariant (I := fun s => s.mem.engine.handlers =
    s.mem.trace.filterMap Event.inserted?) h rfl ?_
  intro s l s' _ hs hI
  cases hs with
  | clock now => exact hI
  | move hth hm =>
    cases hm with
    | client_submit log | statement_text buf | doSubmit_lock si id hfree
    | doSubmit_deliver si k p id hp hlevel | handler_end entry | add_push p =>
      simp [submitCall, LogEngine.callSubmit, hI]
    | _ => exact hI

/-- The handler inserted at a place of the history has the number of the insertions
before. -/
theorem handler_of_split (h : (machine set n).Reach ok s) {pre post : List Event}
    (hsplit : s.mem.trace = pre ++ .inserted p :: post) :
    s.mem.engine.handlers[(pre.filterMap Event.inserted?).length]? = some p := by
  rw [reach_handlers h, hsplit, List.filterMap_append]
  simp

/-- A step inserts a handler, or none. -/
theorem Move.inserts (h : Move set i m a f m' nx) :
    (∃ p, f = .addHandler .push p ∧ nx = .goto (.addHandler .unlock p) ∧
      m'.trace = m.trace ++ [.inserted p] ∧ m'.lock = m.lock) ∨
      ∃ es, m'.trace = m.trace ++ es ∧ ∀ p, .inserted p ∉ es := by
  cases h with
  | add_push p => exact Or.inl ⟨p, rfl, rfl, rfl, rfl⟩
  | client_submit log | statement_text buf | doSubmit_lock si id hfree
  | doSubmit_deliver si k p id hp hlevel | handler_end entry =>
    exact Or.inr ⟨[_], rfl, fun p => by simp⟩
  | _ => exact Or.inr ⟨[], (List.append_nil _).symm, fun p => List.not_mem_nil⟩

/-- **What a handler has been told.** After its insertion it has been told the
events it is due, in their order, except what the holder of the lock has still
to tell it. -/
theorem reach_delivered (h : (machine set n).Reach ok s) {pre post : List Event}
    (hsplit : s.mem.trace = pre ++ .inserted p :: post) :
    post.filterMap (Event.due? set p) =
      post.filterMap (Event.told? (pre.filterMap Event.inserted?).length) ++
        s.undelivered set (pre.filterMap Event.inserted?).length p := by
  refine reach_invariant (I := fun s => ∀ pre p post, s.mem.trace = pre ++ .inserted p :: post →
    post.filterMap (Event.due? set p) =
      post.filterMap (Event.told? (pre.filterMap Event.inserted?).length) ++
        s.undelivered set (pre.filterMap Event.inserted?).length p) h ?_ ?_ pre p post hsplit
  · intro pre p post hsplit
    exact absurd hsplit.symm (by simp [initial])
  · intro s l s' hr hs hI pre p post hsplit
    cases hs with
    | clock now => exact hI pre p post hsplit
    | @move i a ctl f rest m nx hth hm =>
      have hold : ∀ post' es, m.trace = s.mem.trace ++ es →
          s.mem.trace = pre ++ .inserted p :: post' →
          (post' ++ es).filterMap (Event.due? set p) =
            (post' ++ es).filterMap (Event.told? (pre.filterMap Event.inserted?).length) ++
              State.undelivered set ⟨m, s.threads.set i (nx.resume rest)⟩
                (pre.filterMap Event.inserted?).length p := by
        intro post' es htrace hsplit'
        obtain ⟨es', htrace', hbalance⟩ := undelivered_step hr hth hm (handler_of_split hr hsplit')
        obtain rfl : es' = es := List.append_cancel_left (htrace'.symm.trans htrace)
        rw [List.filterMap_append, List.filterMap_append, hI pre p post' hsplit', List.append_assoc,
          hbalance, List.append_assoc]
      rcases hm.inserts with ⟨q, rfl, rfl, htrace, hlock⟩ | ⟨es, htrace, hnone⟩
      · rcases split_append_one (htrace.symm.trans hsplit) with ⟨-, -, rfl⟩ | ⟨post', rfl, hsplit'⟩
        · -- a new handler: nothing is due to it, and its `AddHandler` has the lock
          have hholds : 0 < (Frame.addHandler .push q).holds := Nat.one_pos
          have hi : i < s.threads.length := (List.getElem?_eq_some_iff.mp hth).1
          have hmine : (s.threads.set i (Next.resume rest (.goto (.addHandler .unlock q))))[i]? =
              some (Next.resume rest (.goto (.addHandler .unlock q))) :=
            List.getElem?_set_self hi
          have howner := (reach_owned hr).owner hth (List.mem_cons_self ..) hholds
          have hrest := debt_outside (i := i)
            (undelivered_outside set (pre.filterMap Event.inserted?).length p)
            ((reach_owned hr).others hth hholds).1
          rw [State.undelivered, hlock, howner, inHand_owner hmine, Next.resume_goto,
            List.flatMap_cons, hrest]
          rfl
        · exact hold post' _ htrace hsplit'
      · obtain ⟨post', rfl, hsplit'⟩ := split_append (htrace.symm.trans hsplit) (hnone p)
        exact hold post' es htrace hsplit'

/-- A step records at most one event, and tells only a handler that is attached. -/
theorem Move.records (h : Move set i m a f m' nx) : m'.trace = m.trace ∨
    ∃ e, m'.trace = m.trace ++ [e] ∧
      ∀ entry, e = .began entry → m.engine.handlers[entry.k]? = some entry.p := by
  cases h with
  | doSubmit_deliver si k p id hp hlevel =>
    refine Or.inr ⟨_, rfl, fun entry hentry => ?_⟩
    rw [← Event.began.inj hentry]
    exact hp
  | client_submit log | statement_text buf | doSubmit_lock si id hfree | add_push p
  | handler_end entry => exact Or.inr ⟨_, rfl, fun entry hentry => by simp at hentry⟩
  | _ => exact Or.inl rfl

/-- Whenever a handler is told of an event, it is attached. -/
theorem reach_attached (h : (machine set n).Reach ok s) :
    Each (fun pre e => ∀ entry, e = .began entry →
      (pre.filterMap Event.inserted?)[entry.k]? = some entry.p) s.mem.trace := by
  refine reach_invariant (I := fun s => Each (fun pre e => ∀ entry, e = .began entry →
    (pre.filterMap Event.inserted?)[entry.k]? = some entry.p) s.mem.trace) h (each_nil _) ?_
  intro s l s' hr hs hI
  cases hs with
  | clock now => exact hI
  | @move i a ctl f rest m nx hth hm =>
    show Each _ m.trace
    rcases hm.records with htrace | ⟨e, htrace, he⟩
    · rw [htrace]
      exact hI
    · rw [htrace]
      refine hI.append_one fun entry hentry => ?_
      rw [← reach_handlers hr]
      exact he entry hentry

/-- A handler is not told anything before its insertion. -/
theorem told_before (h : (machine set n).Reach ok s) {pre post : List Event}
    (hsplit : s.mem.trace = pre ++ post) (hk : (pre.filterMap Event.inserted?).length ≤ k) :
    pre.filterMap (Event.told? k) = [] := by
  rw [List.filterMap_eq_nil_iff]
  intro e he
  obtain ⟨before, after, rfl⟩ := List.append_of_mem he
  cases e with
  | began entry =>
    have hattached := reach_attached h before (.began entry) (after ++ post)
      (by rw [hsplit, List.append_assoc, List.cons_append]) entry rfl
    have hlt := (List.getElem?_eq_some_iff.mp hattached).1
    rw [List.filterMap_append, List.length_append] at hk
    have hne : entry.k ≠ k := by omega
    rw [Event.told?, if_neg hne]
  | _ => rfl

/-- All a handler has been told, it has been told after its insertion. -/
theorem told_after (h : (machine set n).Reach ok s) {pre post : List Event}
    (hsplit : s.mem.trace = pre ++ .inserted p :: post) :
    s.mem.told (pre.filterMap Event.inserted?).length =
      post.filterMap (Event.told? (pre.filterMap Event.inserted?).length) := by
  have hnothing := told_before h hsplit (Nat.le_refl _)
  rw [Shared.told, hsplit, List.filterMap_append, hnothing]
  rfl

/-- Every handler has been inserted. -/
theorem insertion (h : (machine set n).Reach ok s) (hp : s.mem.engine.handlers[k]? = some p) :
    ∃ pre post, s.mem.trace = pre ++ .inserted p :: post ∧
      (pre.filterMap Event.inserted?).length = k := by
  obtain ⟨hk, hget⟩ := List.getElem?_eq_some_iff.mp hp
  have hhandlers : s.mem.trace.filterMap Event.inserted? =
      s.mem.engine.handlers.take k ++ p :: s.mem.engine.handlers.drop (k + 1) := by
    rw [← reach_handlers h, ← hget, List.cons_getElem_drop_succ, List.take_append_drop]
  obtain ⟨pre, e, post, hsplit, he, hpre⟩ := split_of_filterMap hhandlers
  refine ⟨pre, post, ?_, ?_⟩
  · cases e with
    | inserted q => rw [hsplit, Option.some.inj he]
    | _ => exact absurd he (by simp)
  · rw [hpre, List.length_take, Nat.min_eq_left (Nat.le_of_lt hk)]

/-- What is due has its place in the order. -/
theorem due_sublist (post : List Event) :
    (post.filterMap (Event.due? set p)).Sublist (post.filterMap Event.locked?) := by
  refine filterMap_sublist (fun e x hx => ?_) post
  cases e with
  | locked i id si =>
    rw [Event.due?] at hx
    split at hx
    · exact hx
    · exact absurd hx (by simp)
  | _ => exact absurd hx (by simp)

/-- What a handler has been told of is a subsequence of the order. -/
theorem told_sublist (h : (machine set n).Reach ok s) (k : Nat) :
    (s.mem.told k).Sublist s.mem.order := by
  cases hk : s.mem.engine.handlers[k]? with
  | none =>
    have hlength := List.getElem?_eq_none_iff.mp hk
    rw [reach_handlers h] at hlength
    rw [Shared.told, told_before h (List.append_nil _).symm hlength]
    exact List.nil_sublist _
  | some p =>
    obtain ⟨pre, post, hsplit, rfl⟩ := insertion h hk
    have htold : (s.mem.told (pre.filterMap Event.inserted?).length).Sublist
        (post.filterMap (Event.due? set p)) := by
      rw [told_after h hsplit, reach_delivered h hsplit]
      exact List.sublist_append_left _ _
    have hlater : (post.filterMap Event.locked?).Sublist s.mem.order := by
      rw [Shared.order, hsplit, List.filterMap_append]
      exact List.sublist_append_right _ _
    exact htold.trans ((due_sublist post).trans hlater)

/-- The holder of the lock has at most one event in hand. -/
theorem undelivered_length (h : (machine set n).Reach ok s) (k p : Nat) :
    (s.undelivered set k p).length ≤ 1 := by
  refine (reach_owned h).inHand_length fun j g => ?_
  by_cases hout : g.holds = 0
  · rw [undelivered_outside set k p j g hout]
    exact Nat.zero_le _
  · have hone : (g.undelivered set j k p).length ≤ 1 := by
      unfold Frame.undelivered
      split
      · split <;> simp
      · simp
    omega

/-! ## One record after the other -/

/-- The beginning or the end of a handler's `Submit`. -/
def Event.submits : Event → Bool
  | .began _ => true
  | .finished _ => true
  | _ => false

/-- A whole call of a handler's `Submit`. -/
def Entry.whole (entry : Entry) : List Event := [.began entry, .finished entry]

/-- The records of these calls in the output of the object `p`. -/
def records (set : Setting) (p : Nat) (ds : List Entry) : List Char :=
  (ds.filter (·.p = p)).flatMap fun entry => set.record entry.p (set.delivery entry)

theorem records_append (ds : List Entry) (entry : Entry) :
    records set p (ds ++ [entry]) = records set p ds ++
      if entry.p = p then set.record p (set.delivery entry) else [] := by
  unfold records
  rw [List.filter_append, List.flatMap_append]
  by_cases h : entry.p = p
  · simp [h]
  · simp [h]

/-- The frame is a handler's `Submit`. -/
def Frame.Busy : Frame → Prop
  | .handlerSubmit _ _ => True
  | _ => False

/-- What a step has to do with the `Submit` of handlers. -/
inductive Writes (set : Setting) (i : Nat) (m m' : Shared) (f : Frame) (nx : Next Frame Empty) :
    Prop
  | begins (entry : Entry) (f' : Frame) (hholds : f.holds = 1)
      (htrace : m'.trace = m.trace ++ [.began entry]) (houtput : m'.output = m.output)
      (hnx : nx = .call f' (.handlerSubmit entry (set.record entry.p (set.delivery entry))))
  | writes (entry : Entry) (c : Char) (rest : List Char) (hf : f = .handlerSubmit entry (c :: rest))
      (htrace : m'.trace = m.trace) (hlock : m'.lock = m.lock)
      (houtput : m'.output = (m.write entry.p c).output)
      (hnx : nx = .goto (.handlerSubmit entry rest))
  | ends (entry : Entry) (hf : f = .handlerSubmit entry [])
      (htrace : m'.trace = m.trace ++ [.finished entry]) (houtput : m'.output = m.output)
      (hnx : nx = .ret)
  | neither (hf : ¬f.Busy) (hnx : ∀ g ∈ nx.frames, ¬g.Busy)
      (htrace : m'.trace.filter Event.submits = m.trace.filter Event.submits)
      (houtput : m'.output = m.output)

theorem Move.writes (h : Move set i m a f m' nx) : Writes set i m m' f nx := by
  cases h with
  | doSubmit_deliver si k p id hp hlevel => exact .begins _ _ rfl rfl rfl rfl
  | handler_write entry c rest => exact .writes entry c rest rfl rfl rfl rfl rfl
  | handler_end entry => exact .ends entry rfl rfl rfl rfl
  | client_submit log | statement_text buf | doSubmit_lock si id hfree | add_push p =>
    exact .neither (fun hf => hf) (by simp [Frame.Busy]) (by simp [submitCall, Event.submits]) rfl
  | _ => exact .neither (fun hf => hf) (by simp [Frame.Busy]) rfl rfl

/-- A handler's `Submit` calls nothing. -/
theorem not_busy_below (h : (machine set n).Reach ok s) {ctl : Ctl Empty} {rest : List Frame}
    (hth : s.threads[i]? = some ⟨ctl, f :: rest⟩) {g : Frame} (hg : g ∈ rest) : ¬g.Busy := by
  obtain ⟨f', hf'⟩ := reach_below h hth hg
  cases g with
  | handlerSubmit entry text => cases f' <;> simp [Frame.StandsOn, Frame.Logs] at hf'
  | _ => exact fun hbusy => hbusy

/-- A thread in a handler's `Submit` has the lock. -/
theorem lock_of_busy (h : (machine set n).Reach ok s) {th : Thread Frame Empty}
    (hth : s.threads[i]? = some th) {g : Frame} (hg : g ∈ th.frames) (hbusy : g.Busy) :
    s.mem.lock = some i := by
  obtain ⟨ctl, frames⟩ := th
  cases frames with
  | nil => exact absurd hg List.not_mem_nil
  | cons f rest =>
    rcases List.mem_cons.mp hg with rfl | hg
    · cases g with
      | handlerSubmit entry text => exact lock_of_handlerSubmit h hth
      | _ => exact absurd hbusy fun hbusy => hbusy
    · exact absurd hbusy (not_busy_below h hth hg)

/-- No handler is at work: every call of a handler's `Submit` so far is a whole one. -/
structure Calm (set : Setting) (s : State) (ds : List Entry) : Prop where
  trace : s.mem.trace.filter Event.submits = ds.flatMap Entry.whole
  output : ∀ p, s.mem.output p = records set p ds
  frames : ∀ (i : Nat) (th : Thread Frame Empty), s.threads[i]? = some th →
    ∀ g ∈ th.frames, ¬g.Busy

/-- Thread `i` is in a handler's `Submit`, which has written `written`. -/
structure Writing (set : Setting) (s : State) (ds : List Entry) (i : Nat) (entry : Entry)
    (written : List Char) : Prop where
  trace : s.mem.trace.filter Event.submits = ds.flatMap Entry.whole ++ [.began entry]
  output : ∀ p, s.mem.output p = records set p ds ++ if entry.p = p then written else []
  frame : ∃ ctl text rest, s.threads[i]? = some ⟨ctl, .handlerSubmit entry text :: rest⟩ ∧
    written ++ text = set.record entry.p (set.delivery entry)

/-- A calm state stays calm, or a handler's `Submit` begins. -/
theorem Calm.step {ds : List Entry} (hcalm : Calm set s ds)
    {ctl : Ctl Empty} {rest : List Frame} (hth : s.threads[i]? = some ⟨ctl, f :: rest⟩)
    (hm : Move set i s.mem a f m nx) :
    Calm set ⟨m, s.threads.set i (nx.resume rest)⟩ ds ∨
      ∃ entry, Writing set ⟨m, s.threads.set i (nx.resume rest)⟩ ds i entry [] := by
  obtain ⟨htrace, houtput, hframes⟩ := hcalm
  have hi : i < s.threads.length := (List.getElem?_eq_some_iff.mp hth).1
  have hidle : ¬f.Busy := hframes i _ hth f (List.mem_cons_self ..)
  cases hm.writes with
  | begins entry f' hholds htrace' houtput' hnx =>
    refine Or.inr ⟨entry, ?_, fun p => ?_, .go, set.record entry.p (set.delivery entry), f' :: rest,
      ?_, rfl⟩
    · rw [htrace', List.filter_append, htrace]
      rfl
    · rw [houtput', houtput p]
      simp
    · rw [hnx, List.getElem?_set_self hi]
      rfl
  | writes entry c text hf | ends entry hf =>
    rw [hf] at hidle
    exact absurd trivial hidle
  | neither hf hnx htrace' houtput' =>
    refine Or.inl ⟨htrace'.trans htrace, fun p => ?_, ?_⟩
    · rw [houtput']
      exact houtput p
    · exact forall_frames_set hth hframes (fun _ _ hg => hg) fun _ => hnx

/-- While a handler's `Submit` is at work, it goes on, or ends, or another thread does
something else. -/
theorem Writing.step (h : (machine set n).Reach ok s) {ds : List Entry} {j : Nat} {entry : Entry}
    {written : List Char} (hwriting : Writing set s ds j entry written)
    {ctl : Ctl Empty} {rest : List Frame} (hth : s.threads[i]? = some ⟨ctl, f :: rest⟩)
    (hm : Move set i s.mem a f m nx) :
    Calm set ⟨m, s.threads.set i (nx.resume rest)⟩ (ds ++ [entry]) ∨
      ∃ written', Writing set ⟨m, s.threads.set i (nx.resume rest)⟩ ds j entry written' := by
  obtain ⟨htrace, houtput, ctl', text, rest', hthj, hrecord⟩ := hwriting
  have hlockj := lock_of_handlerSubmit h hthj
  have hi : i < s.threads.length := (List.getElem?_eq_some_iff.mp hth).1
  by_cases hij : i = j
  · subst hij
    rw [hthj, Option.some.injEq, Thread.mk.injEq, List.cons.injEq] at hth
    obtain ⟨rfl, rfl, rfl⟩ := hth
    cases hm.writes with
    | begins entry' f' hholds => exact absurd hholds (by simp [Frame.holds])
    | neither hf => exact absurd trivial hf
    | writes entry' c text' hf htrace' hlock houtput' hnx =>
      obtain ⟨rfl, rfl⟩ := Frame.handlerSubmit.inj hf
      refine Or.inr ⟨written ++ [c], ?_, fun p => ?_, .go, text', rest', ?_, ?_⟩
      · rw [htrace']
        exact htrace
      · rw [houtput']
        dsimp only [Shared.write]
        by_cases hp : entry.p = p
        · subst hp
          rw [if_pos rfl, houtput, if_pos rfl, if_pos rfl, List.append_assoc]
        · rw [if_neg (Ne.symm hp), houtput p, if_neg hp, if_neg hp]
      · rw [hnx, List.getElem?_set_self hi]
        rfl
      · rw [← hrecord, List.append_assoc]
        rfl
    | ends entry' hf htrace' houtput' hnx =>
      obtain ⟨rfl, rfl⟩ := Frame.handlerSubmit.inj hf
      rw [List.append_nil] at hrecord
      refine Or.inl ⟨?_, fun p => ?_, ?_⟩
      · rw [htrace', List.filter_append, htrace, List.flatMap_append, List.append_assoc]
        rfl
      · rw [houtput', houtput p, records_append]
        by_cases hp : entry.p = p
        · subst hp
          rw [if_pos rfl, if_pos rfl, hrecord]
        · rw [if_neg hp, if_neg hp]
      · subst hnx
        refine forall_set (fun g hg => not_busy_below h hthj hg) ?_
        · intro k th hk hthk g hg hbusy
          have hlockk := lock_of_busy h hthk hg hbusy
          rw [hlockj, Option.some.injEq] at hlockk
          exact hk hlockk.symm
  · have hother : (s.threads.set i (nx.resume rest))[j]? =
        some ⟨ctl', .handlerSubmit entry text :: rest'⟩ := by
      rw [List.getElem?_set_ne hij]
      exact hthj
    cases hm.writes with
    | begins entry' f' hholds =>
      have hlocki := lock_of_holds h hth hholds
      rw [hlockj, Option.some.injEq] at hlocki
      exact absurd hlocki.symm hij
    | writes entry' c text' hf | ends entry' hf =>
      subst hf
      have hlocki := lock_of_handlerSubmit h hth
      rw [hlockj, Option.some.injEq] at hlocki
      exact absurd hlocki.symm hij
    | neither hf hnx htrace' houtput' =>
      refine Or.inr ⟨written, htrace'.trans htrace, fun p => ?_, ctl', text, rest', hother, hrecord⟩
      rw [houtput']
      exact houtput p

/-- **One record after the other.** The calls of the handlers' `Submit` are whole
calls, one after the other, except perhaps the last, which is at work. -/
theorem reach_calm (h : (machine set n).Reach ok s) :
    ∃ ds, Calm set s ds ∨ ∃ i entry written, Writing set s ds i entry written := by
  refine reach_invariant (I := fun s => ∃ ds, Calm set s ds ∨
    ∃ i entry written, Writing set s ds i entry written) h ?_ ?_
  · refine ⟨[], Or.inl ⟨rfl, fun _ => rfl, fun i th hth g hg => ?_⟩⟩
    rw [initial_thread hth] at hg
    rw [List.mem_singleton.mp hg]
    exact id
  · intro s l s' hr hs hI
    obtain ⟨ds, hI⟩ := hI
    cases hs with
    | clock now =>
      rcases hI with hcalm | ⟨i, entry, written, hwriting⟩
      · exact ⟨ds, Or.inl ⟨hcalm.trace, hcalm.output, hcalm.frames⟩⟩
      · exact ⟨ds, Or.inr ⟨i, entry, written, hwriting.trace, hwriting.output, hwriting.frame⟩⟩
    | @move i a ctl f rest m nx hth hm =>
      rcases hI with hcalm | ⟨j, entry, written, hwriting⟩
      · rcases hcalm.step hth hm with hcalm | ⟨entry, hwriting⟩
        · exact ⟨ds, Or.inl hcalm⟩
        · exact ⟨ds, Or.inr ⟨i, entry, [], hwriting⟩⟩
      · rcases hwriting.step hr hth hm with hcalm | ⟨written', hwriting⟩
        · exact ⟨ds ++ [entry], Or.inl hcalm⟩
        · exact ⟨ds, Or.inr ⟨j, entry, written', hwriting⟩⟩

/-- A handler of the library has written what it would have written alone: while the
lock is free, the text is that of one `Submit` after the other. -/
theorem stream_output {env : Surroundings} (h : (machine set n).Reach ok s)
    (hfree : s.mem.lock = none) (hrecord : ∀ d, set.record p d = recordText env d) :
    ∃ ds : List Delivery, s.mem.output p = (ds.foldl (submitTo env) {}).text := by
  obtain ⟨ds, hcalm | ⟨i, entry, written, hwriting⟩⟩ := reach_calm h
  · have hplain : ({} : Ostream).Plain := ⟨rfl, rfl⟩
    refine ⟨(ds.filter (·.p = p)).map set.delivery, ?_⟩
    obtain ⟨fill, htext⟩ := foldl_submitTo_eq env hplain ((ds.filter (·.p = p)).map set.delivery)
      [] ' '
    have hrecords : records set p ds =
        ((ds.filter (·.p = p)).map set.delivery).flatMap (recordText env) := by
      rw [records, List.flatMap_map]
      refine List.flatMap_congr fun entry hentry => ?_
      have hp : entry.p = p := by simpa using (List.mem_filter.mp hentry).2
      rw [hp, hrecord]
    rw [hcalm.output p, hrecords]
    exact (congrArg Ostream.text htext).symm
  · obtain ⟨ctl, text, rest, hth, -⟩ := hwriting.frame
    have hlock := lock_of_handlerSubmit h hth
    rw [hfree] at hlock
    exact absurd hlock (by simp)

/-! ## One order for all handlers -/

/-- Everything the handlers are told is in one order. -/
structure OneOrder (set : Setting) (s : State) : Prop where
  /-- No call of `Submit` is in the order twice. -/
  once : (s.mem.order.map Submission.id).Nodup
  /-- The order is that of each thread; a call has its place, unless the thread is
  still in it. -/
  own : ∀ (i : Nat) (th : Thread Frame Empty), s.threads[i]? = some th → ∃ waiting,
    ofThread i s.mem.calls = ofThread i s.mem.order ++ waiting ∧ waiting.length ≤ 1 ∧
      ((∀ pc id, Frame.doSubmit pc id ∉ th.frames) → waiting = [])
  /-- What a handler has been told of is a subsequence of the order. -/
  part : ∀ k, (s.mem.told k).Sublist s.mem.order
  /-- It is all that came after its insertion and that it wants, except perhaps the
  event now in hand. -/
  whole : ∀ pre p post, s.mem.trace = pre ++ .inserted p :: post → ∃ late,
    post.filterMap (Event.due? set p) =
      s.mem.told (pre.filterMap Event.inserted?).length ++ late ∧
      late.length ≤ 1 ∧ (s.mem.lock = none → late = [])
  /-- One call of a handler's `Submit` begins when the one before has ended, and what
  a handler has written are whole records, but for the one now in hand. -/
  apart : ∃ ds current, s.mem.trace.filter Event.submits =
      ds.flatMap Entry.whole ++ current.map Event.began ∧ current.length ≤ 1 ∧
      (s.mem.lock = none → current = []) ∧
      ∀ p, ∃ written, s.mem.output p = records set p ds ++ written ∧
        written <+: records set p current

/-- **One order.** In every state that any number of threads reach by submitting
events and adding handlers, all handlers have been told of events in one order. -/
theorem one_order (h : (machine set n).Reach ok s) : OneOrder set s where
  once := order_nodup h
  own i th hth := by
    refine ⟨th.frames.flatMap (Frame.pending i), reach_calls h hth, ?_, fun hout => ?_⟩
    · obtain ⟨ctl, frames⟩ := th
      cases frames with
      | nil => exact Nat.zero_le _
      | cons f rest =>
        rw [List.flatMap_cons, pending_below h hth i, List.append_nil]
        unfold Frame.pending
        split <;> simp
    · rw [List.flatMap_eq_nil_iff]
      intro g hg
      cases g with
      | doSubmit pc id => exact absurd hg (hout pc id)
      | _ => rfl
  part := told_sublist h
  whole pre p post hsplit := by
    refine ⟨s.undelivered set (pre.filterMap Event.inserted?).length p, ?_,
      undelivered_length h _ p, fun hfree => ?_⟩
    · rw [told_after h hsplit]
      exact reach_delivered h hsplit
    · rw [State.undelivered, hfree, inHand_free]
  apart := by
    obtain ⟨ds, hcalm | ⟨i, entry, written, hwriting⟩⟩ := reach_calm h
    · refine ⟨ds, [], ?_, Nat.zero_le _, fun _ => rfl, fun p => ⟨[], ?_, List.nil_prefix⟩⟩
      · rw [hcalm.trace]
        simp
      · rw [hcalm.output p, List.append_nil]
    · obtain ⟨ctl, text, rest, hth, hrecord⟩ := hwriting.frame
      refine ⟨ds, [entry], hwriting.trace, Nat.le_refl _, fun hfree => ?_, fun p => ?_⟩
      · have hlock := lock_of_handlerSubmit h hth
        rw [hfree] at hlock
        exact absurd hlock (by simp)
      · refine ⟨_, hwriting.output p, ?_⟩
        have hcurrent : records set p [entry] =
            if entry.p = p then set.record p (set.delivery entry) else [] := records_append [] entry
        rw [hcurrent]
        by_cases hp : entry.p = p
        · subst hp
          rw [if_pos rfl, if_pos rfl]
          exact ⟨text, hrecord⟩
        · rw [if_neg hp]
          exact List.nil_prefix

/-- A file that takes everything, in which an event is its text. -/
def oneFile : Setting where
  object _ := ⟨"file", .trace4, 0x3ff⟩
  record _ d := d.info.buf.toList
  threadId _ := []

/-- Thread 0 builds an event, thread 1 adds the file, and thread 2 builds an event
and is the first to have the lock. -/
def threeThreads : List Step :=
  let code (i k : Nat) : List Step := List.replicate k (.thread i .code)
  .thread 0 (.submit ⟨.info, 1, "a"⟩) :: code 0 1 ++ .thread 1 (.addHandler 0) :: code 1 3 ++
    .thread 2 (.submit ⟨.info, 1, "b"⟩) :: code 2 7 ++ code 0 6

theorem one_order_three : ∃ s, (machine oneFile 3).Reach (fun _ _ => True) s ∧ OneOrder oneFile s ∧
    s.mem.calls = [⟨0, 0, ⟨.info, 1, "a"⟩⟩, ⟨2, 1, ⟨.info, 1, "b"⟩⟩] ∧
    s.mem.told 0 = [⟨2, 1, ⟨.info, 1, "b"⟩⟩, ⟨0, 0, ⟨.info, 1, "a"⟩⟩] ∧
    s.mem.output 0 = ['b', 'a'] := by
  have hrun : ∃ s, (machine oneFile 3).guardedRun (fun _ _ => True) (initial oneFile 3)
      threeThreads = some s ∧
      s.mem.calls = [⟨0, 0, ⟨.info, 1, "a"⟩⟩, ⟨2, 1, ⟨.info, 1, "b"⟩⟩] ∧
      s.mem.told 0 = [⟨2, 1, ⟨.info, 1, "b"⟩⟩, ⟨0, 0, ⟨.info, 1, "a"⟩⟩] ∧
      s.mem.output 0 = ['b', 'a'] := ⟨_, rfl, rfl, rfl, rfl⟩
  obtain ⟨s, hs, hcalls, htold, houtput⟩ := hrun
  have hreach := Lts.reach_of_guardedRun (.start rfl) hs
  exact ⟨s, hreach, one_order hreach, hcalls, htold, houtput⟩

end Warlib.Logging
