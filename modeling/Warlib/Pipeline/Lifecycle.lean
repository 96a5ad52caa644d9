import Warlib.Pipeline.Runs

/-!
# Open, closing, closed

`IsClosing()` and `IsClosed()` read two flags that different threads write:
`Close` sets `closing_`, after it has put the shutdown handler on the queue,
and the worker sets `closed_` when it runs that handler. Nothing makes the
second wait for the first.

`ClosesFirst` is the schedule in which it does: whenever the worker is about
to set `closed_`, some `Close` has got as far as `closing_ = true`. Along
such runs the flags go up in order, and what is submitted after
`IsClosed()` has become true is dismissed at its first test; the first step
that breaks the condition is the one that breaks the order.
-/

namespace Warlib.Pipeline

open Warlib.Machine

variable {name : String} {cap : BitVec 64} {n : Nat} {ok : State → Step → Prop}
  {s s' : State} {l : Step} {i : Nat} {m m' : Mem} {a : Act} {ctl : Ctl Exn} {f : Frame}
  {rest : List Frame} {nx : Next Frame Exn}

/-- `IsClosed()` implies `IsClosing()`. -/
def Mem.InOrder (m : Mem) : Prop := m.closed = true → m.closing = true

/-- The worker does not set `closed_` before some `Close` has set `closing_`. -/
def ClosesFirst (s : State) : Step → Prop
  | .thread i _ => s.top? i = some (.stopHandler .closed) → s.mem.closing = true
  | .env _ => True

instance (s : State) (l : Step) : Decidable (ClosesFirst s l) :=
  match l with
  | .thread i _ => inferInstanceAs
      (Decidable (s.top? i = some (.stopHandler .closed) → s.mem.closing = true))
  | .env _ => inferInstanceAs (Decidable True)

/-! ## One step -/

/-- Only the shutdown handler, at its assignment, touches `closed_`. -/
theorem Move.closed (h : Move i m a ctl f m' nx) :
    (f ≠ .stopHandler .closed ∧ m'.closed = m.closed) ∨
      (f = .stopHandler .closed ∧ m' = { m with closed := true }) := by
  cases h
  case stop_closed => exact Or.inr ⟨rfl, rfl⟩
  case user_set p o hp hf | user_set_again p o hp hf =>
    exact Or.inl ⟨by rintro rfl; simp [Frame.userCode] at hf, rfl⟩
  all_goals exact Or.inl ⟨by simp, rfl⟩

/-- `closed_` is set for good. -/
theorem Stepped.closed (h : Stepped s l s') (hc : s.mem.closed = true) : s'.mem.closed = true := by
  cases h with
  | move _ hm =>
    rcases hm.closed with ⟨-, hsame⟩ | ⟨-, rfl⟩
    · exact hsame.trans hc
    · rfl
  | expire _ => exact hc

/-- A step keeps the flags in order exactly when it closes first. -/
theorem Stepped.inOrder (h : Stepped s l s') (hI : s.mem.InOrder) :
    s'.mem.InOrder ↔ ClosesFirst s l := by
  have hlater := h.later
  cases h with
  | @move i a ctl f rest m nx hth hm =>
    rcases hm.closed with ⟨hne, hsame⟩ | ⟨rfl, rfl⟩
    · refine iff_of_true (fun hc => hlater.closing (hI (hsame ▸ hc))) fun htop => ?_
      rw [top_of_thread hth] at htop
      exact absurd (Option.some.inj htop) hne
    · constructor
      · exact fun hI' _ => hI' rfl
      · exact fun hfirst _ => hfirst (top_of_thread hth)
  | expire _ => exact iff_of_true hI trivial

theorem reach_inOrder (h : (machine name cap n).Reach ClosesFirst s) : s.mem.InOrder :=
  reach_invariant (I := fun s => s.mem.InOrder) h (fun hc => absurd hc (by simp [initial]))
    fun _ _ _ _ hfirst hs _ hI => (hs.inOrder hI).mpr hfirst

/-! ## Submitting to a closed pipeline -/

/-- `Post`, `Dispatch` and `PostWithTimer` at their first program point, the
test of `closing_`, with the place a refusal is recorded at. -/
def Frame.opening? : Frame → Option (Site × Task)
  | .post .closing t => some (.post, t)
  | .dispatch t => some (.dispatch, t)
  | .postWithTimer .closing t => some (.timer, t)
  | _ => none

/-- `count_`, the run queue and the timers are the same. -/
structure Mem.SameLoad (m m' : Mem) : Prop where
  count : m'.count = m.count
  queue : m'.queue = m.queue
  timers : m'.timers = m.timers

/-- Entering one of them submits nothing yet. -/
theorem Move.opens {c : Call} (h : Move i m (.call c) ctl f m' nx)
    (hc : c = .post ∨ c = .dispatch ∨ c = .postWithTimer) :
    m.SameLoad m' ∧ ∃ g, nx = .call f g ∧ g.opening?.isSome = true := by
  cases h
  all_goals
    refine ⟨⟨rfl, rfl, rfl⟩, _, rfl, ?_⟩
    rcases hc with rfl | rfl | rfl <;> rfl

/-- Once `closing_` is set, the test dismisses the task and the call is over. -/
theorem Move.refused (h : Move i m a ctl f m' nx) (hclosing : m.closing = true) {site : Site}
    {t : Task} (hf : f.opening? = some (site, t)) :
    nx = .ret ∧ m' = m.emit [.dismissed site t] := by
  cases h
  case post_dismissed t' hc => cases hf; exact ⟨rfl, rfl⟩
  case dispatch_dismissed t' hc => cases hf; exact ⟨rfl, rfl⟩
  case postWithTimer_dismissed t' hc => cases hf; exact ⟨rfl, rfl⟩
  case post_open hc | dispatch_inline hc _ | dispatch_post hc _ | postWithTimer_open hc =>
    exact absurd (hc.symm.trans hclosing) (by simp)
  case user_set p o hp hu | user_set_again p o hp hu =>
    cases f <;> simp [Frame.opening?, Frame.userCode] at hf hu
  all_goals exact absurd hf (by simp [Frame.opening?])

/-- **Open, closing, closed.** In every run in which the worker does not set
`closed_` before some `Close` has set `closing_`: `IsClosed()` implies
`IsClosing()`, and the next step keeps it so if and only if it meets the
condition; and once `IsClosed()` is true it stays true, entering `Post`,
`Dispatch` or `PostWithTimer` leads to the test of `closing_`, and that test
dismisses the task and returns, with `count_`, the run queue and the timers
as they were at each of these steps. -/
theorem open_closing_closed (h : (machine name cap n).Reach ClosesFirst s) :
    (s.mem.closed = true → s.mem.closing = true) ∧
      (∀ l s', (machine name cap n).next s l = some s' →
        ((s'.mem.closed = true → s'.mem.closing = true) ↔ ClosesFirst s l)) ∧
      (s.mem.closed = true → ∀ l s', (machine name cap n).next s l = some s' →
        s'.mem.closed = true ∧
        (∀ i c, l = .thread i (.call c) → c = .post ∨ c = .dispatch ∨ c = .postWithTimer →
          s.mem.SameLoad s'.mem ∧ ∃ g, s'.top? i = some g ∧ g.opening?.isSome = true) ∧
        (∀ i a ctl f rest site t, l = .thread i a → s.threads[i]? = some ⟨ctl, f :: rest⟩ →
          f.opening? = some (site, t) →
          s.mem.SameLoad s'.mem ∧ s'.mem.trace = s.mem.trace ++ [.dismissed site t] ∧
          s'.threads[i]? = some ⟨.ret, rest⟩)) := by
  have horder := reach_inOrder h
  refine ⟨horder, fun l s' hnext => (stepped_of_next hnext).1.inOrder horder,
    fun hclosed l s' hnext => ?_⟩
  have hstep := (stepped_of_next hnext).1
  refine ⟨hstep.closed hclosed, ?_, ?_⟩
  · rintro i c rfl hc
    cases hstep with
    | @move _ _ ctl f rest m nx hth hm =>
      obtain ⟨hsame, g, rfl, hg⟩ := hm.opens hc
      have hi : i < s.threads.length := (List.getElem?_eq_some_iff.mp hth).1
      refine ⟨hsame, g, ?_, hg⟩
      simp [State.top?, hi]
  · rintro i a ctl f rest site t rfl hth hf
    cases hstep with
    | @move _ _ ctl' f' rest' m nx hth' hm =>
      obtain ⟨rfl, rfl, rfl⟩ : ctl' = ctl ∧ f' = f ∧ rest' = rest := by
        simpa using hth'.symm.trans hth
      obtain ⟨rfl, rfl⟩ := hm.refused (horder hclosed) hf
      have hi : i < s.threads.length := (List.getElem?_eq_some_iff.mp hth).1
      exact ⟨⟨rfl, rfl, rfl⟩, rfl, by simp [hi]⟩

/-- A client closes the pipeline, the worker runs the shutdown handler, and then a
task is posted: it is dismissed. -/
theorem open_closing_closed_post : ∃ s s', (machine "tasks" 1 1).Reach ClosesFirst s ∧
    s.mem.closed = true ∧ (machine "tasks" 1 1).next s (.thread 1 .code) = some s' ∧
    s.mem.SameLoad s'.mem ∧ s'.mem.trace = s.mem.trace ++ [.dismissed .post (.user 1)] := by
  let steps : List Step := [.thread 1 (.call .close), .thread 1 .code, .thread 1 .code,
    .thread 1 .code, .thread 0 .code, .thread 0 .code, .thread 0 .code, .thread 1 (.call .post)]
  have hrun : ∃ s s', (machine "tasks" 1 1).guardedRun ClosesFirst (initial "tasks" 1 1) steps =
      some s ∧ s.mem.closed = true ∧ s.threads[1]? = some ⟨.go, [.post .closing (.user 1), .client]⟩ ∧
      (machine "tasks" 1 1).next s (.thread 1 .code) = some s' := ⟨_, _, rfl, rfl, rfl, rfl⟩
  obtain ⟨s, s', hs, hclosed, hth, hnext⟩ := hrun
  have hreach := reach_schedule (by decide) hs
  obtain ⟨hsame, htrace, -⟩ :=
    ((open_closing_closed hreach).2.2 hclosed _ _ hnext).2.2 1 .code _ _ _ _ _ rfl hth rfl
  exact ⟨s, s', hreach, hclosed, hnext, hsame, htrace⟩

/-- `Close` has posted its handler and not set `closing_` yet; the worker runs the
handler as far as `closed_ = true`. -/
theorem closed_before_closing : ∃ s, (machine "tasks" 1 1).Reach (fun _ _ => True) s ∧
    s.mem.closed = true ∧ s.mem.closing = false := by
  let steps : List Step := [.thread 1 (.call .close), .thread 1 .code, .thread 1 .code,
    .thread 0 .code, .thread 0 .code, .thread 0 .code]
  have hrun : ∃ s, (machine "tasks" 1 1).guardedRun (fun _ _ => True) (initial "tasks" 1 1) steps =
      some s ∧ s.mem.closed = true ∧ s.mem.closing = false := ⟨_, rfl, rfl, rfl⟩
  obtain ⟨s, hs, hclosed, hclosing⟩ := hrun
  exact ⟨s, reach_schedule (by decide) hs, hclosed, hclosing⟩

end Warlib.Pipeline
