import Warlib.Pipeline.Stack

/-!
# What a completion token is told

The lambdas of the token overloads of `Post` and `PostWithTimer` complete their
token after `ExecTask_` or `OnTimer_` has returned. `OnTimer_` has an error
code, and it is passed on. `ExecTask_` has none: it returns when the function
has returned, and just so when it has dismissed the task or caught what the
function threw. The token is told success each time.

`NothingHidden` excludes just the steps in which `ExecTask_` hides something
from such a lambda; under it, success is the truth, and each step it excludes
leaves the lambda about to tell success for nothing (`token_truth`).
-/

namespace Warlib.Pipeline

open Warlib.Machine

variable {name : String} {cap : BitVec 64} {n : Nat} {ok : State → Step → Prop}
  {s s' : State} {l : Step} {i : Nat} {m m' : Mem} {a : Act} {ctl : Ctl Exn} {f g : Frame}
  {rest : List Frame} {nx : Next Frame Exn}

/-- The task and the token of a lambda that is going to tell success when its callee
returns. -/
def Frame.success? : Frame → Option (Task × Nat)
  | .tokenHandler .after t tok => some (t, tok)
  | .tokenTimer .after t tok false => some (t, tok)
  | _ => none

/-- `ExecTask_`, called for a token, is about to dismiss the task, or to catch what
its function has thrown. -/
def hides (closing : Bool) (th : Thread Frame Exn) : Bool :=
  match th.frames, th.ctl with
  | .execTask .closing _ _ _ :: g :: _, _ => g.success?.isSome && closing
  | .execTask .running _ _ _ :: g :: _, .thr _ => g.success?.isSome
  | _, _ => false

/-- `ExecTask_` hides nothing from a token. -/
def NothingHidden (s : State) : Step → Prop
  | .thread i _ => ∀ th ∈ s.threads[i]?, hides s.mem.closing th = false
  | .env _ => True

instance (s : State) (l : Step) : Decidable (NothingHidden s l) :=
  match l with
  | .thread i _ => inferInstanceAs (Decidable (∀ th ∈ s.threads[i]?, hides s.mem.closing th = false))
  | .env _ => inferInstanceAs (Decidable True)

/-! ## The error code of a timer -/

/-- Over the token lambda of a timer, `OnTimer_` has the lambda's error code. -/
def SameCode (f g : Frame) : Prop :=
  ∀ t t' tok ec ec', g = .tokenTimer .after t tok ec → f = .onTimer t' ec' → ec' = ec

theorem sameCode_of_ne (hf : ∀ t ec, f ≠ .onTimer t ec) : SameCode f g := by
  intro t t' tok ec ec' _ hf'
  exact absurd hf' (hf t' ec')

theorem Call.frame_ne (c : Call) (id : Nat) : ∀ t ec, c.frame id ≠ .onTimer t ec := by
  intro t ec
  cases c <;> simp [Call.frame]

theorem Task.body_ne (t : Task) : ∀ t' ec, t.body ≠ .onTimer t' ec := by
  intro t' ec
  cases t <;> simp [Task.body]

theorem Move.sameCode (h : Move i m a ctl f m' nx) : nx.Keeps SameCode f := by
  cases h
  case client_enter c =>
    exact ⟨sameCode_of_ne (c.frame_ne _), fun g hg => hg⟩
  case fn_enter id c =>
    exact ⟨sameCode_of_ne (c.frame_ne _), fun g hg => hg⟩
  case completion_enter tok c =>
    exact ⟨sameCode_of_ne (c.frame_ne _), fun g hg => hg⟩
  case run_take h q _ _ _ =>
    refine ⟨fun t t' tok ec ec' hg _ => absurd hg (by simp), fun g hg => hg⟩
  case exec_call t c ac =>
    exact ⟨sameCode_of_ne t.body_ne, fun g _ => sameCode_of_ne (by simp)⟩
  case tokenTimer_start t tok ec =>
    refine ⟨fun t₁ t₂ tok₁ ec₁ ec₂ hg hf => ?_, fun g _ => sameCode_of_ne (by simp)⟩
    obtain ⟨-, -, -, rfl⟩ := Frame.tokenTimer.inj hg
    obtain ⟨-, rfl⟩ := Frame.onTimer.inj hf
    rfl
  case user_set => exact fun g hg => hg
  case user_set_again => exact fun g hg => hg
  all_goals simp only [Next.Keeps]
  all_goals try exact fun g _ => sameCode_of_ne (by simp)
  all_goals exact ⟨sameCode_of_ne (by simp), fun g _ => sameCode_of_ne (by simp)⟩

theorem reach_sameCode (h : (machine name cap n).Reach ok s) :
    ∀ i th, s.threads[i]? = some th →
      Grounded SameCode (bottom i) th.frames ∨ (i = 0 ∧ th.frames = []) := by
  refine reach_invariant (I := fun s => ∀ i th, s.threads[i]? = some th →
    Grounded SameCode (bottom i) th.frames ∨ (i = 0 ∧ th.frames = [])) h ?_ ?_
  · intro i th hth
    obtain rfl := initial_thread hth
    exact Or.inl rfl
  · intro s l s' _ _ hs _ hI
    cases hs with
    | @move i a ctl f rest m nx hth hm =>
      refine forall_set (T := fun i th => Grounded SameCode (bottom i) th.frames ∨
        (i = 0 ∧ th.frames = [])) ?_ fun j th _ hj => hI j th hj
      rcases hI i _ hth with hg | ⟨-, hnil⟩
      · exact hm.linked hm.sameCode hg
      · exact absurd hnil (by simp)
    | expire _ => exact hI

/-! ## What stands behind a success -/

/-- What a lambda that is told its callee has returned can rely on. -/
def Earned (tr : List Event) (c : Ctl Exn) (f : Frame) : Prop :=
  c = .ret → ∀ t tok, f.success? = some (t, tok) → ∃ counting, .finished t counting .value ∈ tr

theorem Earned.mono {tr tr' : List Event} {c : Ctl Exn} (h : Earned tr c f) (hsub : tr <+: tr') :
    Earned tr' c f := by
  intro hret t tok hf
  obtain ⟨counting, hmem⟩ := h hret t tok hf
  exact ⟨counting, hsub.subset hmem⟩

/-- `ExecTask_` that hides nothing returns after its function has. -/
theorem Move.earned_exec {pc : ExecPc} {t : Task} {counting : Bool}
    (h : Move i m a ctl (.execTask pc t counting true) m' .ret) (hg : g.success?.isSome = true)
    (hopen : hides m.closing ⟨ctl, .execTask pc t counting true :: g :: rest⟩ = false) :
    .finished t counting .value ∈ m'.trace := by
  cases h
  case exec_dismissed hc => exact absurd hopen (by simp [hides, hg, hc])
  case exec_ret => exact List.mem_append_right _ (List.mem_singleton.mpr rfl)
  case exec_caught e => exact absurd hopen (by simp [hides, hg])

/-- So does whatever the lambda has called. -/
theorem Move.earned (h : Move i m a ctl f m' .ret) (hover : Over f g) (hcode : SameCode f g)
    (hopen : hides m.closing ⟨ctl, f :: g :: rest⟩ = false) : Earned m'.trace .ret g := by
  intro _ t tok hg
  have hsome : g.success?.isSome = true := by
    rw [hg]
    rfl
  unfold Frame.success? at hg
  split at hg
  next t' tok' =>
    obtain ⟨rfl, rfl⟩ := Prod.mk.inj (Option.some.inj hg)
    obtain ⟨pc, rfl⟩ := over_tokenHandler hover
    exact ⟨true, h.earned_exec hsome hopen⟩
  next t' tok' =>
    obtain ⟨rfl, rfl⟩ := Prod.mk.inj (Option.some.inj hg)
    rcases over_tokenTimer hover with ⟨ec, rfl⟩ | ⟨pc, rfl⟩
    · -- `OnTimer_` without an error goes on to `ExecTask_`
      obtain rfl := hcode _ _ _ _ _ rfl rfl
      cases h
    · exact ⟨false, h.earned_exec hsome hopen⟩
  next => exact absurd hg (by simp)

/-! ## Runs -/

/-- Whoever is about to tell success has earned it. -/
def AllEarned (s : State) : Prop :=
  ∀ (i : Nat) (th : Thread Frame Exn), s.threads[i]? = some th →
    ∀ f rest, th.frames = f :: rest → Earned s.mem.trace th.ctl f

theorem Stepped.allEarned (hr : (machine name cap n).Reach ok s) (hok : NothingHidden s l)
    (hs : Stepped s l s') (hI : AllEarned s) : AllEarned s' := by
  have hlater := hs.later.trace
  cases hs with
  | @move i a ctl f rest m nx hth hm =>
    refine forall_set (T := fun _ th => ∀ f rest, th.frames = f :: rest →
      Earned m.trace th.ctl f) ?_ fun j th _ hj f rest hf => (hI j th hj f rest hf).mono hlater
    intro g rest' hframes
    cases nx with
    | goto f₁ => exact fun hret => absurd hret (by simp)
    | call f₁ c => exact fun hret => absurd hret (by simp)
    | thr e => exact fun hret => absurd hret (by simp)
    | ret =>
      obtain rfl : rest = g :: rest' := hframes
      have hcode : SameCode f g := by
        rcases reach_sameCode hr i _ hth with hg | ⟨-, hnil⟩
        · exact hg.1
        · exact absurd hnil (by simp)
      exact hm.earned (reach_grounded hr hth).1 hcode (hok _ hth)
  | expire ht => exact fun i th hth f rest hf => (hI i th hth f rest hf).mono hlater

theorem reach_allEarned (h : (machine name cap n).Reach NothingHidden s) : AllEarned s := by
  refine reach_invariant (I := AllEarned) h ?_ fun s l s' hr hok hs _ hI => hs.allEarned hr hok hI
  intro i th hth f rest hf
  obtain rfl := initial_thread hth
  exact fun hret => absurd hret (by simp)

/-- Success is told by a lambda that was going to. -/
theorem Move.tells {tok : Nat} (h : Move i m a ctl f m' nx)
    (htold : m'.trace = m.trace ++ [.completed tok false]) :
    ctl = .ret ∧ ∃ t, f.success? = some (t, tok) := by
  cases h
  case token_ret t tok' =>
    obtain rfl : tok' = tok := by simpa using htold
    exact ⟨rfl, t, rfl⟩
  case tokenTimer_ret t tok' ec =>
    obtain ⟨rfl, rfl⟩ : tok' = tok ∧ ec = false := by simpa using htold
    exact ⟨rfl, t, rfl⟩
  all_goals simp at htold

/-! ## What is hidden -/

/-- `hides`, inverted. -/
theorem hides_some {closing : Bool} {th : Thread Frame Exn} (h : hides closing th = true) :
    ∃ pc t c ac g rest, th.frames = .execTask pc t c ac :: g :: rest ∧
      g.success?.isSome = true ∧
      ((pc = .closing ∧ closing = true) ∨ (pc = .running ∧ ∃ e, th.ctl = .thr e)) := by
  unfold hides at h
  split at h
  next _ _ t c ac g rest hframes =>
    obtain ⟨hg, hclosing⟩ := Bool.and_eq_true_iff.mp h
    exact ⟨_, t, c, ac, g, rest, hframes, hg, Or.inl ⟨rfl, hclosing⟩⟩
  next _ _ t c ac g rest e hframes hctl =>
    exact ⟨_, t, c, ac, g, rest, hframes, h, Or.inr ⟨rfl, e, hctl⟩⟩
  next => exact absurd h (by simp)

/-- The task is that of the lambda, and exceptions are caught. -/
theorem over_success {pc : ExecPc} {t : Task} {c ac : Bool}
    (h : Over (.execTask pc t c ac) g) (hg : g.success?.isSome = true) :
    ac = true ∧ ∃ tok, g.success? = some (t, tok) := by
  unfold Frame.success? at hg ⊢
  split at hg
  next t' tok =>
    obtain ⟨pc', heq⟩ := over_tokenHandler h
    obtain ⟨-, rfl, -, rfl⟩ := Frame.execTask.inj heq
    exact ⟨rfl, tok, rfl⟩
  next t' tok =>
    rcases over_tokenTimer h with ⟨ec, heq⟩ | ⟨pc', heq⟩
    · exact absurd heq (by simp)
    · obtain ⟨-, rfl, -, rfl⟩ := Frame.execTask.inj heq
      exact ⟨rfl, tok, rfl⟩
  next => exact absurd hg (by simp)

/-- A step that hides something leaves the lambda about to tell success. -/
def Misleads (s s' : State) : Prop :=
  ∃ (i : Nat) (g : Frame) (rest : List Frame) (t : Task) (tok : Nat),
    s'.threads[i]? = some ⟨.ret, g :: rest⟩ ∧ g.success? = some (t, tok) ∧
    (s'.mem.trace = s.mem.trace ++ [.dismissed .exec t] ∨
      ∃ counting e, s'.mem.trace = s.mem.trace ++ [.finished t counting (.exn e)])

theorem Stepped.misleads (hr : (machine name cap n).Reach ok s) (hs : Stepped s l s')
    (hhides : ¬NothingHidden s l) : Misleads s s' := by
  cases hs with
  | @move i a ctl f rest m nx hth hm =>
    have hhidden : hides s.mem.closing ⟨ctl, f :: rest⟩ = true := by
      by_contra hnot
      refine hhides fun th hth' => ?_
      obtain rfl := Option.some.inj (hth.symm.trans hth')
      exact Bool.eq_false_iff.mpr hnot
    obtain ⟨pc, t, c, ac, g, rest', hframes, hg, hwhy⟩ := hides_some hhidden
    obtain ⟨rfl, rfl⟩ := List.cons.inj hframes
    obtain ⟨rfl, tok, htok⟩ := over_success (reach_grounded hr hth).1 hg
    have hlt : i < s.threads.length := (List.getElem?_eq_some_iff.mp hth).1
    rcases hwhy with ⟨rfl, hclosing⟩ | ⟨rfl, e, hctl⟩
    · cases hm with
      | exec_dismissed => exact ⟨i, g, rest', t, tok, List.getElem?_set_self hlt, htok, Or.inl rfl⟩
      | exec_admitted _ _ _ hopen => exact absurd (hopen.symm.trans hclosing) (by simp)
      | user_set _ _ _ hf => exact absurd hf (by simp [Frame.userCode])
      | user_set_again _ _ _ hf => exact absurd hf (by simp [Frame.userCode])
    · obtain rfl : ctl = .thr e := hctl
      cases hm with
      | exec_caught =>
        exact ⟨i, g, rest', t, tok, List.getElem?_set_self hlt, htok, Or.inr ⟨c, e, rfl⟩⟩
      | user_set _ _ _ hf => exact absurd hf (by simp [Frame.userCode])
      | user_set_again _ _ _ hf => exact absurd hf (by simp [Frame.userCode])
  | expire ht => exact absurd trivial hhides

/-- **The truth about a token.** In a run in which no `ExecTask_` called for a token
dismisses its task or catches an exception of its function: a step that tells
a token success is made by the lambda of that token, and the function of the
task the lambda was made for has been called before and has returned normally.
A step of any run that is not so leaves the lambda about to tell success right
after the task was dismissed or its function has thrown. -/
theorem token_truth (name : String) (cap : BitVec 64) (n : Nat) :
    (∀ s s' l tok, (machine name cap n).Reach NothingHidden s →
      (machine name cap n).next s l = some s' →
      s'.mem.trace = s.mem.trace ++ [.completed tok false] →
      ∃ (i : Nat) (f : Frame) (rest : List Frame) (t : Task) (counting : Bool),
        s.threads[i]? = some ⟨.ret, f :: rest⟩ ∧ f.success? = some (t, tok) ∧
        .began t counting ∈ s.mem.trace ∧ .finished t counting .value ∈ s.mem.trace) ∧
    (∀ s s' l, (machine name cap n).Reach (fun _ _ => True) s →
      (machine name cap n).next s l = some s' → ¬NothingHidden s l → Misleads s s') := by
  refine ⟨?_, fun s s' l h hn hhides => (stepped_of_next hn).1.misleads h hhides⟩
  intro s s' l tok h hn htold
  cases (stepped_of_next hn).1 with
  | @move i a ctl f rest m nx hth hm =>
    obtain ⟨rfl, t, hf⟩ := hm.tells htold
    obtain ⟨counting, hfinished⟩ := reach_allEarned h i _ hth f rest rfl rfl t tok hf
    obtain ⟨pre, post, htrace⟩ := List.append_of_mem hfinished
    have hbegan := reach_followed h pre _ post htrace _ rfl
    refine ⟨i, f, rest, t, counting, hth, hf, ?_, hfinished⟩
    rw [htrace]
    exact List.mem_append_left _ hbegan
  | expire ht => exact absurd htold (by simp)

/-- A client posts a task with token 5, and the worker runs it. -/
theorem token_truth_value : ∃ s s', (machine "tasks" 1 1).Reach NothingHidden s ∧
    (machine "tasks" 1 1).next s (.thread 0 .code) = some s' ∧
    s'.mem.trace = s.mem.trace ++ [.completed 5 false] ∧
    ∃ t counting, .finished t counting .value ∈ s.mem.trace := by
  let worker : Nat → List Step := fun k => List.replicate k (.thread 0 .code)
  let steps : List Step := [.thread 1 (.call (.postToken 5)), .thread 1 .code] ++ worker 5 ++
    [.thread 0 .ret] ++ worker 1
  have hrun : ∃ s s', (machine "tasks" 1 1).guardedRun NothingHidden (initial "tasks" 1 1) steps =
      some s ∧ (machine "tasks" 1 1).next s (.thread 0 .code) = some s' ∧
      s'.mem.trace = s.mem.trace ++ [.completed 5 false] := ⟨_, _, rfl, rfl, rfl⟩
  obtain ⟨s, s', hs, hn, htold⟩ := hrun
  have hreach := reach_schedule (by decide) hs
  obtain ⟨i, f, rest, t, counting, -, -, -, hfinished⟩ :=
    (token_truth "tasks" 1 1).1 s s' _ 5 hreach hn htold
  exact ⟨s, s', hreach, hn, htold, t, counting, hfinished⟩

/-- A function that throws, and a task that is dismissed because the pipeline is
closing: token 5 is told success both times. -/
theorem token_untrue :
    (∃ s, (machine "tasks" 1 1).Reach (fun _ _ => True) s ∧ .completed 5 false ∈ s.mem.trace ∧
      .finished (.user 0) true (.exn (.user .std 7)) ∈ s.mem.trace ∧
      ∀ t counting, .finished t counting .value ∉ s.mem.trace) ∧
    ∃ s, (machine "tasks" 1 1).Reach (fun _ _ => True) s ∧ .completed 5 false ∈ s.mem.trace ∧
      .dismissed .exec (.user 0) ∈ s.mem.trace ∧
      ∀ t counting, .finished t counting .value ∉ s.mem.trace := by
  let worker : Nat → List Step := fun k => List.replicate k (.thread 0 .code)
  let client : Nat → List Step := fun k => List.replicate k (.thread 1 .code)
  let thrown : List Step := [.thread 1 (.call (.postToken 5))] ++ client 1 ++ worker 5 ++
    [.thread 0 (.throw (.user .std 7))] ++ worker 2
  let closed : List Step := [.thread 1 (.call (.postToken 5))] ++ client 1 ++
    [.thread 1 (.call .close)] ++ client 3 ++ worker 5
  have hthrown : ∃ s, (machine "tasks" 1 1).guardedRun (fun _ _ => True) (initial "tasks" 1 1)
      thrown = some s ∧ s.mem.trace = [.called none 0 (.postToken 5) 0,
        .enqueued (.token (.user 0) 5), .taken (.token (.user 0) 5), .entered (.user 0) true,
        .admitted (.user 0) true, .began (.user 0) true,
        .finished (.user 0) true (.exn (.user .std 7)), .completed 5 false] := ⟨_, rfl, rfl⟩
  have hclosed : ∃ s, (machine "tasks" 1 1).guardedRun (fun _ _ => True) (initial "tasks" 1 1)
      closed = some s ∧ s.mem.trace = [.called none 0 (.postToken 5) 0,
        .enqueued (.token (.user 0) 5), .called none 1 .close 1, .enqueued .stop,
        .closeReturned false, .taken (.token (.user 0) 5), .entered (.user 0) true,
        .dismissed .exec (.user 0), .completed 5 false] := ⟨_, rfl, rfl⟩
  obtain ⟨s₁, hs₁, htrace₁⟩ := hthrown
  obtain ⟨s₂, hs₂, htrace₂⟩ := hclosed
  refine ⟨⟨s₁, reach_schedule (by decide) hs₁, ?_⟩, s₂, reach_schedule (by decide) hs₂, ?_⟩
  · rw [htrace₁]
    simp
  · rw [htrace₂]
    simp

end Warlib.Pipeline
