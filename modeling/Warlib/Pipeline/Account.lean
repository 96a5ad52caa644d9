import Warlib.Pipeline.Fates

/-!
# The account at the end

What has become of the tasks when the worker's loop has ended. `Close` enqueues
its handler *before* it sets `closing_`, and `Post` reads `closing_` long before
it enqueues: a task that `Post` enqueues in between is never looked at again.
`shutdown_account` says that this is all that can go wrong.

Every task that is taken goes into `ExecTask_` (`reach_entered`), and does not
come out again otherwise than finished or dismissed (`reach_passed`); and since
it meets one fate (`Fates.lean`), it goes there once.
-/

namespace Warlib.Pipeline

open Warlib.Machine

variable {name : String} {cap : BitVec 64} {n : Nat} {ok : State → Step → Prop}
  {s s' : State} {l : Step} {i : Nat} {m m' : Mem} {a : Act} {ctl : Ctl Exn} {f : Frame}
  {nx : Next Frame Exn}

/-! ## What goes through `ExecTask_` -/

/-- The frames that are going to enter `ExecTask_` with a posted task `t`. -/
@[simp] def entering (t : Task) : Frame → Nat
  | .execTask .entry t' true _ => if t' = t then 1 else 0
  | .tokenHandler .start t' _ => if t' = t then 1 else 0
  | _ => 0

/-- A move brings a task into `ExecTask_` that was on its way there; the worker's loop
sends on their way those it takes. -/
theorem Move.enters (h : Move i m a ctl f m' nx) (t : Task) :
    (m'.taken.filterMap Handler.posted?).count t +
        (m.trace.count (.entered t true) + entering t f) =
      (m.taken.filterMap Handler.posted?).count t +
        (m'.trace.count (.entered t true) + weigh (entering t) nx.frames) := by
  rcases h.taken with hsame | ⟨hd, q, rfl, -, -, rfl, rfl⟩
  · rw [hsame]
    cases h
    case client_enter c | fn_enter c | completion_enter c => cases c <;> simp [Call.frame]
    case exec_call t' c ac => cases t' <;> simp [Task.body]
    case run_take hd q hs hq hctl => exact absurd hsame (by simp [Mem.taken])
    case exec_entry_counting t' ac => simp [List.count_cons]
    all_goals simp
  · cases hd with
    | execTask t' | token t' tok =>
      simp [Mem.taken, Handler.frame, List.count_cons]
      omega
    | _ => simp [Mem.taken, Handler.frame, List.filterMap_cons]

/-- Posted tasks that were taken have entered `ExecTask_`, or are about to. -/
theorem reach_entered (h : (machine name cap n).Reach ok s) (t : Task) :
    (s.mem.taken.filterMap Handler.posted?).count t =
      s.mem.trace.count (.entered t true) + tally (entering t) s.threads := by
  refine reach_invariant
    (I := fun s => (s.mem.taken.filterMap Handler.posted?).count t =
      s.mem.trace.count (.entered t true) + tally (entering t) s.threads) h ?_ ?_
  · rw [tally_initial rfl rfl]
    rfl
  · intro s l s' hr hok hs hfits hI
    refine balanced (A := fun m => (m.taken.filterMap Handler.posted?).count t)
      (B := fun m => m.trace.count (.entered t true)) hs ?_ ?_ hI
    · intro i a ctl f m nx _ hm
      exact hm.enters t
    · intro k ec t' _
      simp [Mem.taken, List.filterMap_cons]

/-- A posted task that is not in the queue any more, and not on its way into
`ExecTask_`, has entered it once. -/
theorem entered_once (h : (machine name cap n).Reach ok s) {t : Task}
    (ht : .enqueued (.execTask t) ∈ s.mem.trace) (hqueue : .execTask t ∉ s.mem.queue)
    (hzero : tally (entering t) s.threads = 0) : s.mem.trace.count (.entered t true) = 1 := by
  have hentered := reach_entered h t
  have honce := List.nodup_iff_count.mp (posted_nodup h) t
  have htaken : .execTask t ∈ s.mem.taken := by
    have hmem : .execTask t ∈ s.mem.enqueued := mem_enqueued.mpr ht
    rw [reach_fifo h] at hmem
    rcases List.mem_append.mp hmem with hmem | hmem
    · exact hmem
    · exact absurd hmem hqueue
  have hpos : 0 < (s.mem.taken.filterMap Handler.posted?).count t :=
    List.count_pos_iff.mpr (List.mem_filterMap.mpr ⟨.execTask t, htaken, rfl⟩)
  have hle : (s.mem.taken.filterMap Handler.posted?).count t ≤ s.mem.posted.count t := by
    rw [Mem.posted, reach_fifo h, List.filterMap_append, List.count_append]
    exact Nat.le_add_right _ _
  omega

/-! ## And comes out again -/

/-- `ExecTask_` is entered for the task of submission `id`. -/
@[simp] def Event.passes (id : Nat) : Event → Bool
  | .entered (.user id') _ => id' == id
  | _ => false

/-- And left again: the function has ended, or the task was dismissed. With `called`, the
function is called. -/
@[simp] def Event.leaves (called : Bool) (id : Nat) : Event → Bool
  | .began (.user id') _ => called && id' == id
  | .finished (.user id') _ _ => !called && id' == id
  | .dismissed .exec (.user id') => id' == id
  | _ => false

/-- The frames in between. -/
@[simp] def passing (called : Bool) (id : Nat) : Frame → Nat
  | .execTask .closing (.user id') _ _ => if id' = id then 1 else 0
  | .execTask .call (.user id') _ _ => if id' = id then 1 else 0
  | .execTask .running (.user id') _ _ => if called = false ∧ id' = id then 1 else 0
  | _ => 0

/-- What is in `ExecTask_` stays there, or leaves it. -/
theorem Move.passes (h : Move i m a ctl f m' nx) (called : Bool) (id : Nat) :
    m'.trace.countP (Event.passes id) +
        (m.trace.countP (Event.leaves called id) + passing called id f) =
      m.trace.countP (Event.passes id) +
        (m'.trace.countP (Event.leaves called id) + weigh (passing called id) nx.frames) := by
  cases h
  case client_enter c | fn_enter c | completion_enter c => cases c <;> simp [Call.frame]
  case run_take h q hs hq hctl => cases h <;> simp [Handler.frame]
  case exec_entry_counting t _ | exec_entry t _ | exec_dismissed t _ _ _ |
      exec_admitted t _ _ _ | exec_ret t _ _ | exec_caught t _ _ | exec_thrown t _ _ =>
    cases t <;> simp
    all_goals grind
  case exec_call t c ac =>
    cases t <;> simp [Task.body]
    all_goals grind
  all_goals simp

/-- **In and out.** Whoever has entered `ExecTask_` is in it, or has left it. -/
theorem reach_passed (h : (machine name cap n).Reach ok s) (called : Bool) (id : Nat) :
    s.mem.trace.countP (Event.passes id) =
      s.mem.trace.countP (Event.leaves called id) + tally (passing called id) s.threads := by
  refine reach_invariant
    (I := fun s => s.mem.trace.countP (Event.passes id) =
      s.mem.trace.countP (Event.leaves called id) + tally (passing called id) s.threads) h ?_ ?_
  · rw [tally_initial rfl rfl]
    rfl
  · intro s l s' _ _ hs _ hI
    refine balanced (A := fun m => m.trace.countP (Event.passes id))
      (B := fun m => m.trace.countP (Event.leaves called id)) hs ?_ ?_ hI
    · intro i a ctl f m nx _ hm
      exact hm.passes called id
    · intro k ec t _
      simp

/-- Being called and being dismissed are fates, and there is one. -/
theorem leaves_le_one (h : (machine name cap n).Reach ok s) (id : Nat) :
    s.mem.trace.countP (Event.leaves true id) ≤ 1 := by
  have haccount := reach_fates h id
  have hfates : s.mem.trace.countP (Event.leaves true id) ≤ (s.mem.fates id).length := by
    rw [Mem.fates, List.length_filterMap_eq_countP]
    refine List.countP_mono_left fun e _ he => ?_
    unfold Event.leaves at he
    split at he <;> simp_all
  rw [Mem.account] at haccount
  omega

/-! ## The account at the end -/

/-- A `Post` or a `Dispatch` is in progress. -/
def Frame.submitting : Frame → Bool
  | .post .. => true
  | .dispatch _ => true
  | _ => false

/-- The worker's loop has ended, and nobody is in `Post` or `Dispatch`. -/
structure Settled (s : State) : Prop where
  ended : s.threads[0]?.map Thread.frames = some []
  idle : ∀ th ∈ s.threads, ∀ f ∈ th.frames, f.submitting = false

/-- Whenever `Post` enqueued a task, no shutdown handler had been enqueued. -/
def PostedInTime (m : Mem) : Prop :=
  Each (fun pre e => ∀ t, e = .enqueued (.execTask t) → .enqueued .stop ∉ pre) m.trace

/-- In a settled state no frame enters `ExecTask_` or holds a slot. -/
theorem Settled.tally_eq_zero (hend : Settled s) (h : (machine name cap n).Reach ok s)
    {w : Frame → Nat} (hw : ∀ f, f.onClient = true → f.submitting = false → w f = 0) :
    tally w s.threads = 0 := by
  refine Machine.tally_eq_zero fun th hth f hf => ?_
  obtain ⟨i, hi⟩ := List.getElem?_of_mem hth
  by_cases h0 : i = 0
  · have hnil : th.frames = [] := by
      have hended := hend.ended
      rw [← h0, hi] at hended
      exact Option.some.inj hended
    exact absurd (hnil ▸ hf) (by simp)
  · exact hw f (reach_onClient h i th hi h0 f hf) (hend.idle th hth f hf)

/-- In a settled state `count_` is the number of posted tasks left behind. -/
theorem settled_count (h : (machine name cap n).Reach NoTokenPost s) (hend : Settled s) :
    s.mem.count.toNat = s.mem.queued := by
  have hzero : tally holding s.threads = 0 := by
    refine hend.tally_eq_zero h fun f hclient hidle => ?_
    unfold holding
    cases f <;> simp_all [Frame.onClient, Frame.submitting]
  rw [count_exact h (tokenPosts_eq_zero h), hzero, Nat.add_zero]

/-- Without the token overload, what is queued for immediate processing is
`ExecTask_` bound to a task. -/
theorem queued_execTask (h : (machine name cap n).Reach NoTokenPost s) {hd : Handler}
    (hmem : hd ∈ s.mem.queue) (himm : hd.immediate = true) : ∃ t, hd = .execTask t := by
  cases hd with
  | execTask t => exact ⟨t, rfl⟩
  | token t tok =>
    exfalso
    have hin : .token t tok ∈ s.mem.enqueued := by
      rw [reach_fifo h]
      exact List.mem_append_right _ hmem
    obtain ⟨e, he, heq⟩ := List.mem_filterMap.mp hin
    have hpos : 0 < tokenPosts s.mem :=
      List.countP_pos_iff.mpr ⟨e, he, by cases e <;> simp_all⟩
    have hzero := tokenPosts_eq_zero h
    omega
  | timer t ec => exact absurd himm (by simp)
  | tokenTimer t tok ec => exact absurd himm (by simp)
  | stop => exact absurd himm (by simp)

/-- When everything was posted in time, no posted task is left in the queue. -/
theorem Settled.nothing_left (hend : Settled s) (h : (machine name cap n).Reach ok s)
    (hintime : PostedInTime s.mem) (t : Task) : .execTask t ∉ s.mem.queue := by
  intro hleft
  obtain ⟨pre, post, hsplit, hstop⟩ := behind_stop h (fun hl => hl.2 hend.ended) hleft
  exact hintime pre _ post hsplit t rfl hstop

/-- And each has been through `ExecTask_`. -/
theorem Settled.entered (hend : Settled s) (h : (machine name cap n).Reach ok s)
    (hintime : PostedInTime s.mem) {t : Task} (ht : .enqueued (.execTask t) ∈ s.mem.trace) :
    s.mem.trace.count (.entered t true) = 1 := by
  refine entered_once h ht (hend.nothing_left h hintime t) ?_
  refine hend.tally_eq_zero h fun f hclient _ => ?_
  cases f <;> simp_all [Frame.onClient]

/-- So has the task of every call of `Post` or `Dispatch` that was neither rejected nor
dismissed before: it went in and came out once. -/
theorem Settled.passed (hend : Settled s) (h : (machine name cap n).Reach ok s)
    (hintime : PostedInTime s.mem) {e : Event} {id : Nat} (he : e ∈ s.mem.trace)
    (hhands : e.hands true id = true) (haccepted : .rejected (.user id) ∉ s.mem.trace)
    (hkept : ∀ site, .dismissed site (.user id) ∈ s.mem.trace → site = .exec ∨ site = .timer) :
    s.mem.trace.countP (Event.passes id) = 1 ∧
      s.mem.trace.countP (Event.leaves false id) = 1 := by
  have hidle : ∀ called, tally (passing called id) s.threads = 0 := by
    refine fun called => hend.tally_eq_zero h fun f hclient _ => ?_
    cases f <;> simp_all [Frame.onClient]
  have hcalled := reach_passed h true id
  have hended := reach_passed h false id
  have hone := leaves_le_one h id
  rw [hidle, Nat.add_zero] at hcalled hended
  -- nobody has it in hand any more, so it is known what has become of it
  have hhanded := reach_handed h true id
  have hzero : tally (handing true id) s.threads = 0 := by
    refine hend.tally_eq_zero h fun f hclient hidle => ?_
    cases f <;> simp_all [Frame.onClient, Frame.submitting]
  have hcall : 0 < s.mem.trace.countP (Event.hands true id) :=
    List.countP_pos_iff.mpr ⟨e, he, hhands⟩
  obtain ⟨e', he', hreceives⟩ : ∃ e' ∈ s.mem.trace, e'.receives true id = true :=
    List.countP_pos_iff.mp (by omega)
  have hin : 0 < s.mem.trace.countP (Event.passes id) := by
    refine List.countP_pos_iff.mpr ?_
    unfold Event.receives at hreceives
    split at hreceives
    next id' =>
      obtain rfl : id' = id := by simpa using hreceives
      have hentered := hend.entered h hintime he'
      exact ⟨.entered (.user id') true, List.count_pos_iff.mp (by omega), by simp⟩
    next id' =>
      obtain rfl : id' = id := by simpa using hreceives
      exact absurd he' haccepted
    next id' =>
      obtain rfl : id' = id := by simpa using hreceives
      exact absurd (hkept _ he') (by simp)
    next id' =>
      obtain rfl : id' = id := by simpa using hreceives
      exact absurd (hkept _ he') (by simp)
    next id' =>
      obtain rfl : id' = id := by simpa using hreceives
      exact ⟨_, he', by simp⟩
    next => exact absurd hreceives (by simp)
  omega

/-- **The account at the end.** When the worker's loop has ended and no `Post`
or `Dispatch` is in progress, every posted task has been through `ExecTask_`
exactly once and `count_` is zero, if and only if `Post` never enqueued a
task behind a shutdown handler. Then the task of every call of `Post` or
`Dispatch` that they neither rejected nor dismissed has been in `ExecTask_` once,
and left it once: its function has ended, or it was dismissed there. -/
theorem shutdown_account (h : (machine name cap n).Reach NoTokenPost s) (hend : Settled s) :
    (((∀ t, .enqueued (.execTask t) ∈ s.mem.trace → s.mem.trace.count (.entered t true) = 1) ∧
      s.mem.count = 0) ↔ PostedInTime s.mem) ∧
    (PostedInTime s.mem → ∀ caller id c q, .called caller id c q ∈ s.mem.trace →
      c = .post ∨ c = .dispatch → .rejected (.user id) ∉ s.mem.trace →
      .dismissed .post (.user id) ∉ s.mem.trace → .dismissed .dispatch (.user id) ∉ s.mem.trace →
        s.mem.trace.countP (Event.passes id) = 1 ∧
          s.mem.trace.countP (Event.leaves false id) = 1) := by
  obtain ⟨th, hth, hnil⟩ := Option.map_eq_some_iff.mp hend.ended
  have hcount := settled_count h hend
  refine ⟨⟨?_, fun hintime => ⟨fun t ht => hend.entered h hintime ht, ?_⟩⟩, ?_⟩
  · rintro ⟨-, hzero⟩ pre e post hsplit t rfl hstop
    -- a task behind a shutdown handler is still queued, and counted
    have hleft := left_behind h hth hnil hsplit hstop
    have hpos : 0 < s.mem.queued := List.countP_pos_iff.mpr ⟨_, hleft, rfl⟩
    rw [hzero] at hcount
    simp at hcount
    omega
  · have hempty : s.mem.queued = 0 := by
      refine List.countP_eq_zero.mpr fun hd hmem himm => ?_
      obtain ⟨t, rfl⟩ := queued_execTask h hmem himm
      exact hend.nothing_left h hintime t hmem
    rw [hempty] at hcount
    exact BitVec.eq_of_toNat_eq hcount
  · intro hintime caller id c q hcall hc haccepted hpost hdispatch
    refine hend.passed h hintime hcall (by rcases hc with rfl | rfl <;> simp) haccepted ?_
    intro site hmem
    cases site with
    | post => exact absurd hmem hpost
    | dispatch => exact absurd hmem hdispatch
    | timer => exact Or.inr rfl
    | exec => exact Or.inl rfl

/-- A task is posted, the pipeline is closed, and the worker dismisses the task:
nothing was lost. -/
theorem shutdown_account_dismissed : ∃ s, (machine "tasks" 1 1).Reach NoTokenPost s ∧
    .dismissed .exec (.user 0) ∈ s.mem.trace ∧
    ((∀ t, .enqueued (.execTask t) ∈ s.mem.trace → s.mem.trace.count (.entered t true) = 1) ∧
      s.mem.count = 0) ∧
    s.mem.trace.countP (Event.passes 0) = 1 ∧ s.mem.trace.countP (Event.leaves false 0) = 1 := by
  let steps : List Step := [.thread 1 (.call .post), .thread 1 .code, .thread 1 .code,
    .thread 1 .code, .thread 1 (.call .close), .thread 1 .code, .thread 1 .code, .thread 1 .code,
    .thread 0 .code, .thread 0 .code, .thread 0 .code, .thread 0 .code, .thread 0 .code,
    .thread 0 .code, .thread 0 .code, .thread 0 .code, .thread 0 .code]
  have hrun : ∃ s, (machine "tasks" 1 1).guardedRun NoTokenPost (initial "tasks" 1 1) steps =
      some s ∧ Settled s ∧ .called none 0 .post 0 ∈ s.mem.trace ∧
      .rejected (.user 0) ∉ s.mem.trace ∧ .dismissed .post (.user 0) ∉ s.mem.trace ∧
      .dismissed .dispatch (.user 0) ∉ s.mem.trace ∧ .dismissed .exec (.user 0) ∈ s.mem.trace ∧
      s.mem.trace.filterMap Event.enqueued? = [.execTask (.user 0)] ++ .stop :: [] :=
    ⟨_, rfl, ⟨rfl, by decide⟩, by decide, by decide, by decide, by decide, by decide, rfl⟩
  obtain ⟨s, hs, hend, hcall, haccepted, hpost, hdispatch, hdismissed, henq⟩ := hrun
  have hreach := reach_schedule (by decide) hs
  have hintime : PostedInTime s.mem := by
    intro pre e post hsplit t he hstop
    have henq' : s.mem.trace.filterMap Event.enqueued? =
        pre.filterMap Event.enqueued? ++ .execTask t :: post.filterMap Event.enqueued? := by
      rw [hsplit, he, List.filterMap_append, List.filterMap_cons]
      rfl
    have hin : .stop ∈ pre.filterMap Event.enqueued? := List.mem_filterMap.mpr ⟨_, hstop, rfl⟩
    exact absurd (mem_behind (henq.symm.trans henq') (by decide) hin) (by simp)
  obtain ⟨haccount, hcalls⟩ := shutdown_account hreach hend
  exact ⟨s, hreach, hdismissed, haccount.mpr hintime,
    hcalls hintime none 0 .post 0 hcall (Or.inl rfl) haccepted hpost hdispatch⟩

/-- `Close` has enqueued its handler and not yet set `closing_`; `Post` has
already read `closing_` and enqueues behind it. The loop ends, everybody has
returned, and the accepted task is neither run nor dismissed, with `count_`
stuck at 1. -/
theorem post_behind_close : ∃ s, (machine "tasks" 1 2).Reach NoTokenPost s ∧ Settled s ∧
    .closeReturned false ∈ s.mem.trace ∧ .enqueued (.execTask (.user 1)) ∈ s.mem.trace ∧
    s.mem.trace.count (.entered (.user 1) true) = 0 ∧ s.mem.count = 1 := by
  let steps : List Step := [.thread 1 (.call .close), .thread 1 .code, .thread 1 .code,
    .thread 2 (.call .post), .thread 2 .code, .thread 2 .code, .thread 2 .code, .thread 1 .code,
    .thread 0 .code, .thread 0 .code, .thread 0 .code, .thread 0 .code, .thread 0 .code,
    .thread 0 .code]
  have hrun : ∃ s, (machine "tasks" 1 2).guardedRun NoTokenPost (initial "tasks" 1 2) steps =
      some s ∧ Settled s ∧ .closeReturned false ∈ s.mem.trace ∧
      .enqueued (.execTask (.user 1)) ∈ s.mem.trace ∧
      s.mem.trace.count (.entered (.user 1) true) = 0 ∧ s.mem.count = 1 :=
    ⟨_, rfl, ⟨rfl, by decide⟩, by decide, by decide, by decide, rfl⟩
  obtain ⟨s, hs, hrest⟩ := hrun
  exact ⟨s, reach_schedule (by decide) hs, hrest⟩

end Warlib.Pipeline
