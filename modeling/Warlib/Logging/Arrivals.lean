import Warlib.Logging.Coherence
import Warlib.Logging.Deliveries

/-!
# What a handler wants arrives

From `AddHandler` to the handler's `Submit`, with any number of threads about.
When `AddHandler` returns, the handler is in the list and the cache lets
through what it wants (`Served`): the recomputation its own thread owed has
been made, by itself or by another one that had seen the insertion
(`reach_recomputed`). That lasts, since the list only grows and the cache only
moves up. So a log statement that begins later passes both tests of
`IsRelevant`, however they interleave with other calls, and `DoSubmit` does not
end its loop before the handler has been told (`OnItsWay.step`): the statement
is still on its way, or the handler has it (`wanted_arrives`).
-/

namespace Warlib.Logging

open Warlib.Machine

variable {set : Setting} {n i j k p : Nat} {a : Act} {m m' : Shared} {f : Frame}
  {nx : Next Frame Empty} {ok : State → Step → Prop} {s s' : State} {l : Step}
  {ctl : Ctl Empty} {rest fs : List Frame} {e : LogEngine} {log : Log}

/-! ## What the cache lets through -/

/-- What the handler at `p` wants. -/
def LogEngine.wish (e : LogEngine) (p : Nat) : LogLevel × Filter :=
  ((e.object p).level, (e.object p).filter)

/-- The handler at `p` is attached as the `k`th, and the cache lets through what it
wants. -/
structure Served (e : LogEngine) (k p : Nat) : Prop where
  attached : e.handlers[k]? = some p
  cached : Below (e.wish p) e.cache

theorem below_foldl_gather (ps : List Nat) (acc : LogLevel × Filter) :
    Below acc (ps.foldl e.gather acc) := by
  induction ps generalizing acc with
  | nil => exact Below.refl acc
  | cons p ps ih => exact (below_gather acc p).trans (ih _)

/-- The list asks for what each of its handlers wants. -/
theorem wish_below (hp : p ∈ e.handlers) : Below (e.wish p) e.summary := by
  obtain ⟨before, after, hsplit⟩ := List.append_of_mem hp
  rw [LogEngine.summary, hsplit, List.foldl_append, List.foldl_cons]
  refine Below.trans ?_ (below_foldl_gather after _)
  rw [gather_eq]
  refine ⟨le_max_right _ _, ?_⟩
  show (e.object p).filter ||| (_ ||| (e.object p).filter) = _ ||| (e.object p).filter
  rw [BitVec.or_comm, BitVec.or_assoc, BitVec.or_self]

/-- Handlers stay where they are. -/
theorem Move.attached (h : Move set i m a f m' nx) : m.engine.handlers <+: m'.engine.handlers := by
  cases h with
  | add_push p => exact List.prefix_append _ _
  | _ => exact List.prefix_refl _

/-- What the cache lets through once, it lets through for good. -/
theorem cached_next (h : (machine set n).Reach ok s) (hn : (machine set n).next s l = some s')
    (hcached : Below (s.mem.engine.wish p) s.mem.engine.cache) :
    Below (s'.mem.engine.wish p) s'.mem.engine.cache := by
  have hup := below_next h hn
  cases stepped_of_next hn with
  | clock now => exact hcached
  | @move i a ctl f rest m nx hth hm =>
    have hwish : m.engine.wish p = s.mem.engine.wish p := by
      rw [LogEngine.wish, LogEngine.wish, hm.object]
    show Below (m.engine.wish p) m.engine.cache
    rw [hwish]
    exact hcached.trans hup

theorem Served.next (h : (machine set n).Reach ok s) (hserved : Served s.mem.engine k p)
    (hn : (machine set n).next s l = some s') : Served s'.mem.engine k p := by
  refine ⟨?_, cached_next h hn hserved.cached⟩
  have hattached := hserved.attached
  cases stepped_of_next hn with
  | clock now => exact hattached
  | @move i a ctl f rest m nx hth hm =>
    obtain ⟨more, hmore⟩ := hm.attached
    show m.engine.handlers[k]? = some p
    rw [← hmore, List.getElem?_append_left (List.getElem?_eq_some_iff.mp hattached).1]
    exact hattached

/-! ## `AddHandler` has returned -/

/-- The handler a frame of `AddHandler` has inserted. -/
def Frame.added? : Frame → Option Nat
  | .addHandler .unlock p => some p
  | .addHandler .added p => some p
  | .addHandler .update p => some p
  | .addHandler .done p => some p
  | _ => none

/-- What a call of `AddHandler` has inserted is in the list. -/
theorem reach_inserted (h : (machine set n).Reach ok s) :
    ∀ (i : Nat) (th : Thread Frame Empty), s.threads[i]? = some th → ∀ g ∈ th.frames,
      ∀ p, g.added? = some p → p ∈ s.mem.engine.handlers := by
  refine reach_invariant (I := fun s => ∀ (i : Nat) (th : Thread Frame Empty),
    s.threads[i]? = some th → ∀ g ∈ th.frames,
      ∀ p, g.added? = some p → p ∈ s.mem.engine.handlers) h ?_ ?_
  · intro i th hth g hg p hp
    rw [initial_thread hth] at hg
    rw [List.mem_singleton.mp hg] at hp
    exact absurd hp (by simp [Frame.added?])
  · intro s l s' _ hs hI
    cases hs with
    | clock now => exact hI
    | @move i a ctl f rest m nx hth hm =>
      refine forall_frames_set (F := fun _ g => ∀ p, g.added? = some p → p ∈ s.mem.engine.handlers)
        hth hI ?_ ?_
      · exact fun _ g hg p hp => hm.attached.subset (hg p hp)
      · intro hf g hg p hp
        cases hm with
        -- the insertion
        | add_push q =>
          rw [List.mem_singleton.mp hg] at hp
          obtain rfl : q = p := Option.some.inj hp
          simp
        | add_unlock q =>
          rw [List.mem_singleton.mp hg] at hp
          exact hf p hp
        -- the call goes on below what it calls
        | add_added q buf | add_update q =>
          rcases List.mem_pair.mp hg with rfl | rfl
          · exact absurd hp (by simp [Frame.added?])
          · exact hf p hp
        | statement_over | doSubmit_unlock | handler_end | add_done =>
          exact absurd hg List.not_mem_nil
        | client_submit | client_statement | client_addHandler | doSubmit_deliver =>
          rcases List.mem_pair.mp hg with rfl | rfl
          · exact absurd hp (by simp [Frame.added?])
          · exact absurd hp (by simp [Frame.added?])
        | _ =>
          rw [List.mem_singleton.mp hg] at hp
          exact absurd hp (by simp [Frame.added?])

/-- Behind its recomputation a call of `AddHandler` has served its handler. -/
def Recomputed (e : LogEngine) (fs : List Frame) : Prop :=
  ∀ p, .addHandler .done p ∈ fs → 0 < weigh Frame.owes fs ∨ Below (e.wish p) e.cache

/-- A thread's own step. -/
theorem Move.recomputed (h : Move set i m a f m' nx) (hf : Recomputing m.engine f)
    (hup : ∀ p, Below (m.engine.wish p) m.engine.cache → Below (m'.engine.wish p) m'.engine.cache)
    (hin : ∀ p, .addHandler .done p ∈ rest → p ∈ m'.engine.handlers)
    (hI : Recomputed m.engine (f :: rest)) : Recomputed m'.engine (nx.frames ++ rest) := by
  intro p hp
  rw [weigh_append]
  rcases List.mem_append.mp hp with hnew | hrest
  · -- the call of `UpdateLevelAndFilter` is about to begin
    cases h with
    | add_update q =>
      refine Or.inl ?_
      show 0 < 1 + 0 + _
      omega
    | client_submit | client_statement | client_addHandler | doSubmit_deliver | add_added =>
      exact absurd hnew (by simp)
    | statement_over | doSubmit_unlock | handler_end | add_done =>
      exact absurd hnew List.not_mem_nil
    | _ => exact absurd hnew (by simp)
  -- the call waits below; this move may have paid what it owed
  · rcases hI p (List.mem_cons_of_mem _ hrest) with howes | hcached
    · rw [weigh_cons] at howes
      rcases h.owing hf with ⟨-, -, hsame⟩ | hpos | hdone
      · exact Or.inl (by omega)
      · exact Or.inl (by omega)
      · refine Or.inr ?_
        rw [hdone]
        exact wish_below (hin p hrest)
    · exact Or.inr (hup p hcached)

/-- Every call of `AddHandler` behind its recomputation has served its handler. -/
theorem reach_recomputed (h : (machine set n).Reach ok s) :
    ∀ (i : Nat) (th : Thread Frame Empty), s.threads[i]? = some th →
      Recomputed s.mem.engine th.frames := by
  refine h.invariant (I := fun s => ∀ (i : Nat) (th : Thread Frame Empty),
    s.threads[i]? = some th → Recomputed s.mem.engine th.frames) ?_ ?_
  · intro s hinit i th hth p hp
    subst hinit
    rw [initial_thread hth] at hp
    exact absurd hp (by simp)
  · intro s l s' hr hok hn hI
    have hinserted := reach_inserted (.step hr hok hn)
    have hlasts : ∀ p, Below (s.mem.engine.wish p) s.mem.engine.cache →
        Below (s'.mem.engine.wish p) s'.mem.engine.cache := fun _ => cached_next hr hn
    cases stepped_of_next hn with
    | clock now => exact hI
    | @move i a ctl f rest m nx hth hm =>
      have hi : i < s.threads.length := (List.getElem?_eq_some_iff.mp hth).1
      refine forall_set (T := fun _ th => Recomputed m.engine th.frames) ?_ ?_
      · rw [Next.resume_frames]
        refine hm.recomputed (reach_recomputing hr hth (List.mem_cons_self ..)) hlasts
          (fun p hp => ?_) (hI i _ hth)
        refine hinserted i _ (List.getElem?_set_self hi) (.addHandler .done p) ?_ p rfl
        rw [Next.resume_frames]
        exact List.mem_append_right _ hp
      · intro j th _ hj p hp
        exact (hI j th hj p hp).imp_right (hlasts p)

/-- The call of `AddHandler(p)` on thread `i` returns. -/
def AddReturns (set : Setting) (n : Nat) (s : State) (i p : Nat) (s' : State) : Prop :=
  ∃ ctl rest, s.threads[i]? = some ⟨ctl, .addHandler .done p :: rest⟩ ∧
    (machine set n).next s (.thread i .code) = some s'

/-- A call of `AddHandler` is one of user code. -/
theorem addHandler_rest (h : (machine set n).Reach ok s) {pc : AddPc}
    (hth : s.threads[i]? = some ⟨ctl, .addHandler pc p :: rest⟩) : rest = [.client] := by
  have hstack := reach_stacks h hth
  cases rest with
  | nil => exact absurd hstack (by simp [Grounded])
  | cons g rest =>
    obtain rfl : g = .client := hstack.1
    cases rest with
    | nil => rfl
    | cons g' rest => exact hstack.2.1.elim

/-- Then its handler is served. -/
theorem served_of_returns (h : (machine set n).Reach ok s) (hret : AddReturns set n s i p s') :
    ∃ k, Served s'.mem.engine k p := by
  obtain ⟨ctl, rest, hth, hnext⟩ := hret
  have hin := reach_inserted h i _ hth _ (List.mem_cons_self ..) p rfl
  obtain ⟨k, hk⟩ := List.getElem?_of_mem hin
  have hcached : Below (s.mem.engine.wish p) s.mem.engine.cache := by
    refine (reach_recomputed h i _ hth p (List.mem_cons_self ..)).resolve_left ?_
    rw [addHandler_rest h hth]
    exact Nat.lt_irrefl 0
  exact ⟨k, Served.next h ⟨hk, hcached⟩ hnext⟩

/-! ## On its way -/

/-- A log statement of thread `i` that has not told the `k`th handler, the object `p`,
yet: the stack above `rest`. -/
inductive OnItsWay (i k p : Nat) (log : Log) (rest : List Frame) : List Frame → Prop
  | tests (pc : StatementPc) :
    OnItsWay i k p log rest (.statement pc log.level log.filter (.text log.buf) :: rest)
  | build (id : Nat) : OnItsWay i k p log rest (.doSubmit (.build log) id :: rest)
  | lock (si : SubmitInfo) (id : Nat) (hlog : si.log = log) :
    OnItsWay i k p log rest (.doSubmit (.lock si) id :: rest)
  | loop (si : SubmitInfo) (id j : Nat) (hlog : si.log = log) (hj : j ≤ k) :
    OnItsWay i k p log rest (.doSubmit (.loop si j) id :: rest)
  | telling (entry : Entry) (text : List Char) (si : SubmitInfo) (id j : Nat) (hlog : si.log = log)
      (hj : j ≤ k) (hk : entry.k = j) (hinfo : entry.info = si) (hthread : entry.thread = i)
      (hp : j = k → entry.p = p) :
    OnItsWay i k p log rest (.handlerSubmit entry text :: .doSubmit (.loop si (j + 1)) id :: rest)

/-- The `Submit` of the `k`th handler, the object `p`, for an event of thread `i` that
is `log`. -/
def Entry.Brings (entry : Entry) (i k p : Nat) (log : Log) : Prop :=
  entry.k = k ∧ entry.p = p ∧ entry.thread = i ∧ entry.info.log = log

/-- What the engine lets through passes the tests. -/
theorem Served.relevant (h : Served e k p) (hlevel : log.level ≤ (e.object p).level)
    (hmeets : Filter.meets log.filter (e.object p).filter = true) :
    log.level ≤ e.currentLevel ∧ Filter.meets log.filter e.currentFilter = true := by
  obtain ⟨hle, hor⟩ := h.cached
  refine ⟨le_trans hlevel hle, ?_⟩
  have hor : (e.object p).filter ||| e.currentFilter = e.currentFilter := hor
  rw [← hor, Filter.meets_or]
  exact Or.inl hmeets

/-- The statement's own step: it is still on its way, or the handler has it. -/
theorem OnItsWay.move (hserved : Served m.engine k p)
    (hlevel : log.level ≤ (m.engine.object p).level)
    (hmeets : Filter.meets log.filter (m.engine.object p).filter = true)
    (h : OnItsWay i k p log rest (f :: fs)) (hstep : frameStep set i a m f = some (m', nx)) :
    OnItsWay i k p log rest (nx.frames ++ fs) ∨
      ∃ entry, entry.Brings i k p log ∧ m'.trace = m.trace ++ [.finished entry] := by
  have ha : a = .code := by
    cases h <;> exact (Option.ite_none_right_eq_some.mp hstep).1
  subst ha
  obtain ⟨hcurrent, hfilter⟩ := hserved.relevant hlevel hmeets
  cases h with
  | tests pc =>
    have hstep : statementStep m i log.level log.filter (.text log.buf) pc = (m', nx) :=
      Option.some.inj hstep
    cases pc with
    | level =>
      rw [statementStep, if_pos hcurrent] at hstep
      cases hstep
      exact Or.inl (.tests .filter)
    | filter =>
      rw [statementStep, if_pos hfilter] at hstep
      cases hstep
      exact Or.inl (.tests .write)
    | write =>
      cases hstep
      exact Or.inl (.build _)
  | build id =>
    cases hstep
    exact Or.inl (.lock _ id rfl)
  | lock si id hlog =>
    have hstep : warLock m i [.locked i id si] (.doSubmit (.loop si 0) id) = some (m', nx) := hstep
    obtain ⟨-, -, rfl⟩ := warLock_eq hstep
    exact Or.inl (.loop si id 0 hlog (Nat.zero_le k))
  | loop si id j hlog hj =>
    have hsi : si.level = log.level := by rw [← hlog]; rfl
    have hstep : doSubmitStep m set i id (.loop si j) = some (m', nx) := hstep
    cases doSubmit_move hstep with
    | doSubmit_deliver _ _ q _ hq hwants =>
      refine Or.inl (.telling _ _ si id j hlog hj rfl rfl rfl fun hjk => ?_)
      subst hjk
      exact Option.some.inj (hq.symm.trans hserved.attached)
    | doSubmit_skip _ _ q _ hq hwants =>
      refine Or.inl (.loop si id (j + 1) hlog ?_)
      -- a handler that wants the event is not skipped
      have hne : j ≠ k := by
        intro hjk
        subst hjk
        obtain rfl := Option.some.inj (hq.symm.trans hserved.attached)
        rw [hsi] at hwants
        exact hwants hlevel
      omega
    -- the loop does not end before the `k`th handler
    | doSubmit_end _ _ _ hend =>
      have hlt := (List.getElem?_eq_some_iff.mp hserved.attached).1
      have hle := List.getElem?_eq_none_iff.mp hend
      omega
  | telling entry text si id j hlog hj hk hinfo hthread hp =>
    cases text with
    | cons c text =>
      cases hstep
      exact Or.inl (.telling entry text si id j hlog hj hk hinfo hthread hp)
    | nil =>
      cases hstep
      by_cases hjk : j = k
      · exact Or.inr ⟨entry, ⟨hk.trans hjk, hp hjk, hthread, hinfo ▸ hlog⟩, rfl⟩
      · exact Or.inl (.loop si id (j + 1) hlog (by omega))

/-- What has arrived since the history was `tr`. -/
def Arrived (tr : List Event) (s : State) (i k p : Nat) (log : Log) : Prop :=
  ∃ entry, entry.Brings i k p log ∧ .finished entry ∈ s.mem.trace.drop tr.length

/-- A statement of thread `i` that began when the history was `tr`: on its way, or
arrived. -/
structure Underway (tr : List Event) (s : State) (i k p : Nat) (log : Log) (rest : List Frame) :
    Prop where
  later : tr.length ≤ s.mem.trace.length
  either : (∃ th, s.threads[i]? = some th ∧ OnItsWay i k p log rest th.frames) ∨
    Arrived tr s i k p log

/-- The history goes on. -/
theorem Stepped.trace (hs : Stepped set s l s') : s.mem.trace <+: s'.mem.trace := by
  cases hs with
  | clock now => exact List.prefix_refl _
  | move hth hm =>
    rcases hm.records with hsame | ⟨e, htrace, -⟩
    · exact ⟨[], by rw [List.append_nil]; exact hsame.symm⟩
    · exact ⟨[e], htrace.symm⟩

/-- One step of any thread. -/
theorem Underway.step (h : (machine set n).Reach ok s) (hserved : Served s.mem.engine k p)
    (hlevel : log.level ≤ (set.object p).level)
    (hmeets : Filter.meets log.filter (set.object p).filter = true) {tr : List Event}
    (hI : Underway tr s i k p log rest) (hn : (machine set n).next s l = some s') :
    Underway tr s' i k p log rest := by
  have hs := stepped_of_next hn
  obtain ⟨more, hmore⟩ := hs.trace
  have hlater : tr.length ≤ s'.mem.trace.length := by
    rw [← hmore, List.length_append]
    exact Nat.le_trans hI.later (Nat.le_add_right _ _)
  refine ⟨hlater, ?_⟩
  have hlasts : Arrived tr s i k p log → Arrived tr s' i k p log := by
    rintro ⟨entry, hbrings, hmem⟩
    refine ⟨entry, hbrings, ?_⟩
    rw [← hmore, List.drop_append_of_le_length hI.later]
    exact List.mem_append_left _ hmem
  rcases hI.either with ⟨th, hth, hway⟩ | harrived
  swap
  · exact Or.inr (hlasts harrived)
  cases Program.stepped_of_next hn with
  | env henv => exact Or.inl ⟨th, hth, hway⟩
  | @thread j a ctl f fs m nx hthj hstep =>
    by_cases hij : j = i
    · subst hij
      rw [hthj, Option.some.injEq] at hth
      subst hth
      have hlt := (List.getElem?_eq_some_iff.mp hthj).1
      have hobject := reach_object h
      rcases hway.move hserved (hobject ▸ hlevel) (hobject ▸ hmeets) hstep with
        hway' | ⟨entry, hbrings, htrace⟩
      · refine Or.inl ⟨_, List.getElem?_set_self hlt, ?_⟩
        rw [Next.resume_frames]
        exact hway'
      · refine Or.inr ⟨entry, hbrings, ?_⟩
        show .finished entry ∈ m.trace.drop tr.length
        rw [htrace, List.drop_append_of_le_length hI.later]
        exact List.mem_append_right _ (List.mem_cons_self ..)
    · exact Or.inl ⟨th, (List.getElem?_set_ne hij).trans hth, hway⟩

/-- Over any number of steps. -/
theorem Underway.steps (h : (machine set n).Reach (fun _ _ => True) s)
    (hserved : Served s.mem.engine k p) (hlevel : log.level ≤ (set.object p).level)
    (hmeets : Filter.meets log.filter (set.object p).filter = true) {tr : List Event}
    (hI : Underway tr s i k p log rest) (hs : (machine set n).Steps s s') :
    Underway tr s' i k p log rest ∧ Served s'.mem.engine k p := by
  induction hs with
  | refl => exact ⟨hI, hserved⟩
  | tail hsteps hnext ih =>
    obtain ⟨hI₁, hserved₁⟩ := ih
    have h₁ := h.steps (fun _ _ => trivial) hsteps
    exact ⟨hI₁.step h₁ hserved₁ hlevel hmeets hnext, hserved₁.next h₁ hnext⟩

theorem Served.steps (h : (machine set n).Reach (fun _ _ => True) s)
    (hserved : Served s.mem.engine k p) (hs : (machine set n).Steps s s') :
    Served s'.mem.engine k p := by
  induction hs with
  | refl => exact hserved
  | tail hsteps hnext ih => exact ih.next (h.steps (fun _ _ => trivial) hsteps) hnext

/-- **What a handler wants arrives.** Let a call of `AddHandler` have returned, and a
log statement with a level and a filter its handler wants begin on any thread
at any time after. Whatever all threads do from then on: the statement is
still on its way, or the handler has been told of its event since it began, and
its `Submit` has returned. In particular it has when the statement is over. -/
theorem wanted_arrives {s₁ s₂ s₃ : State} (h : (machine set n).Reach (fun _ _ => True) s)
    (hret : AddReturns set n s i p s₁) (hs : (machine set n).Steps s₁ s₂)
    (hth : s₂.threads[j]? =
      some ⟨ctl, .statement .level log.level log.filter (.text log.buf) :: rest⟩)
    (hlevel : log.level ≤ (set.object p).level)
    (hmeets : Filter.meets log.filter (set.object p).filter = true)
    (hs' : (machine set n).Steps s₂ s₃) :
    ∃ k, s₁.mem.engine.handlers[k]? = some p ∧
      ((∃ th, s₃.threads[j]? = some th ∧ OnItsWay j k p log rest th.frames) ∨
        Arrived s₂.mem.trace s₃ j k p log) := by
  obtain ⟨k, hserved⟩ := served_of_returns h hret
  obtain ⟨ctl', rest', -, hnext⟩ := hret
  have h₁ := h.step trivial hnext
  have h₂ := h₁.steps (fun _ _ => trivial) hs
  have hserved₂ := hserved.steps h₁ hs
  have hbegin : Underway s₂.mem.trace s₂ j k p log rest :=
    ⟨Nat.le_refl _, Or.inl ⟨_, hth, .tests .level⟩⟩
  exact ⟨k, hserved.attached, (hbegin.steps h₂ hserved₂ hlevel hmeets hs').1.either⟩

/-- Thread 0 adds the log for files and network; then thread 1 reports on the network,
and when its statement is over, the log has it. -/
theorem wanted_arrives_network : ∃ s₂ s₃ : State, (machine twoLogs 2).Steps s₂ s₃ ∧
    s₂.mem.trace = [.inserted 0] ∧ s₃.threads[1]? = some ⟨.ret, [.client]⟩ ∧
    Arrived s₂.mem.trace s₃ 1 0 0 ⟨.info, 0x020, "up"⟩ := by
  let code (i k : Nat) : List Step := List.replicate k (.thread i .code)
  have hrun : ∃ s s₁ s₂ s₃ : State, (machine twoLogs 2).guardedRun (fun _ _ => True)
      (initial twoLogs 2) (.thread 0 (.addHandler 0) :: code 0 14) = some s ∧
      s.threads[0]? = some ⟨.ret, [.addHandler .done 0, .client]⟩ ∧
      (machine twoLogs 2).next s (.thread 0 .code) = some s₁ ∧
      (machine twoLogs 2).next s₁ (.thread 1 (.statement .info 0x020 "up")) = some s₂ ∧
      (machine twoLogs 2).guardedRun (fun _ _ => True) s₂ (code 1 9) = some s₃ ∧
      s₁.mem.engine.handlers = [0] ∧ s₂.mem.trace = [.inserted 0] ∧
      s₂.threads[1]? = some ⟨.go, [.statement .level .info 0x020 (.text "up"), .client]⟩ ∧
      s₃.threads[1]? = some ⟨.ret, [.client]⟩ :=
    ⟨_, _, _, _, rfl, rfl, rfl, rfl, rfl, rfl, rfl, rfl, rfl⟩
  obtain ⟨s, s₁, s₂, s₃, hs, hdone, hs₁, hs₂, hs₃, hhandlers, htrace, hth, hover⟩ := hrun
  have hreach := Lts.reach_of_guardedRun (.start rfl) hs
  have hsteps : (machine twoLogs 2).Steps s₂ s₃ :=
    Lts.guardedRun_invariant (I := fun s => (machine twoLogs 2).Steps s₂ s)
      (fun _ _ _ hI _ hn => .tail hI hn) (.refl s₂) hs₃
  let log : Log := ⟨.info, 0x020, "up"⟩
  have hth : s₂.threads[1]? =
      some ⟨.go, [.statement .level log.level log.filter (.text log.buf), .client]⟩ := hth
  obtain ⟨k, hk, hway | harrived⟩ := wanted_arrives hreach ⟨_, _, hdone, hs₁⟩
    (Lts.Steps.one hs₂) hth (by decide) (by decide) hsteps
  · obtain ⟨th, hth', hway⟩ := hway
    rw [hover, Option.some.injEq] at hth'
    subst hth'
    exact absurd hway (fun hway => by cases hway)
  · rw [hhandlers] at hk
    obtain ⟨hlt, -⟩ := List.getElem?_eq_some_iff.mp hk
    obtain rfl : k = 0 := by simpa using hlt
    exact ⟨s₂, s₃, hsteps, htrace, hover, harrived⟩

end Warlib.Logging
