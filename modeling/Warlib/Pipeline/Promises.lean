import Warlib.Pipeline.Shutdown

/-!
# Who completes a promise

`PostSynchronously` and `PostWithPromise` submit a lambda that completes a
promise: a *carrier*. There are five places where a carrier can be lost with
its promise unsatisfied: dismissed in `Dispatch`, in `Post` or in
`ExecTask_`, its function dismissed in the `ExecTask_` that the lambda of
`PostWithPromise` calls, or enqueued behind the shutdown handler. `loses`
says so of one step, and `Delivers` is the guard of the runs in which it does
not happen.

In such a run a carrier is `Assured`: its promise is satisfied, or it stands
in the run queue, or some frame is going to run it. That weight is handed on
from the queue to `ExecTask_` and to the lambda (`Move.carries`), and every
place that relies on it is in `Assures`; the shutdown handler strands nothing
because nothing unsatisfied stands behind it (`Timely`).
-/

namespace Warlib.Pipeline

open Warlib.Machine

variable {name : String} {cap : BitVec 64} {n : Nat} {ok : State → Step → Prop}
  {s s' : State} {l : Step} {i : Nat} {m m' : Mem} {a : Act} {ctl : Ctl Exn} {f g : Frame}
  {rest : List Frame} {nx : Next Frame Exn} {t : Task} {p : Promise}

/-! ## Carriers and what can happen to them -/

/-- The promise a carrier completes. -/
@[simp] def Task.promise? : Task → Option Promise
  | .user _ => none
  | .sync id => some (.sync id)
  | .promise _ p => some (.given p)

/-- `t` is a carrier, and its promise is not satisfied. -/
def Mem.awaits (m : Mem) (t : Task) : Bool :=
  match t.promise? with
  | none => false
  | some p => (m.promises p).isNone

/-- The next step of a thread with these frames loses a carrier. -/
def loses (m : Mem) : List Frame → Bool
  | .dispatch t :: _ => m.closing && m.awaits t
  | .post .closing t :: _ => m.closing && m.awaits t
  | .post .enqueue t :: _ => decide (.enqueued .stop ∈ m.trace) && m.awaits t
  | .execTask .closing (.user _) _ _ :: .promiseCarrier .after id p :: _ =>
    m.closing && m.awaits (.promise id p)
  | .execTask .closing t _ _ :: _ => m.closing && m.awaits t
  | _ => false

/-- No step loses a carrier. -/
def Delivers (s : State) : Step → Prop
  | .thread i .code => ∀ th ∈ s.threads[i]?, loses s.mem th.frames = false
  | _ => True

/-- A function handed to `PostWithPromise` is about to return, with its
promise unsatisfied. -/
def forgets (m : Mem) : List Frame → Bool
  | .fn _ :: .execTask .running _ _ _ :: .promiseCarrier .after _ p :: _ =>
    (m.promises (.given p)).isNone
  | _ => false

/-- A function handed to `PostWithPromise` sets the promise itself when it
succeeds. -/
def SetsPromise (s : State) : Step → Prop
  | .thread i .ret => ∀ th ∈ s.threads[i]?, forgets s.mem th.frames = false
  | _ => True

instance (s : State) (l : Step) : Decidable (Delivers s l) :=
  match l with
  | .thread i .code =>
    inferInstanceAs (Decidable (∀ th ∈ s.threads[i]?, loses s.mem th.frames = false))
  | .thread _ (.call _) => inferInstanceAs (Decidable True)
  | .thread _ (.setPromise _ _) => inferInstanceAs (Decidable True)
  | .thread _ .ret => inferInstanceAs (Decidable True)
  | .thread _ (.throw _) => inferInstanceAs (Decidable True)
  | .env _ => inferInstanceAs (Decidable True)

instance (s : State) (l : Step) : Decidable (SetsPromise s l) :=
  match l with
  | .thread i .ret =>
    inferInstanceAs (Decidable (∀ th ∈ s.threads[i]?, forgets s.mem th.frames = false))
  | .thread _ (.call _) => inferInstanceAs (Decidable True)
  | .thread _ (.setPromise _ _) => inferInstanceAs (Decidable True)
  | .thread _ .code => inferInstanceAs (Decidable True)
  | .thread _ (.throw _) => inferInstanceAs (Decidable True)
  | .env _ => inferInstanceAs (Decidable True)

/-- A frame that executes task `t`. -/
def Frame.executes (t : Task) : Frame → Bool
  | .execTask _ t' _ _ => t' == t
  | .syncCarrier _ id => t == .sync id
  | .promiseCarrier _ id p => t == .promise id p
  | _ => false

/-- Something is left that can complete the promise of `t`: a handler queued
on a running loop, or one that is being executed. -/
def Pending (s : State) (t : Task) : Prop :=
  (Looping s ∧ .execTask t ∈ s.mem.queue) ∨
    ∃ th ∈ s.threads, ∃ f ∈ th.frames, f.executes t = true

instance (s : State) (t : Task) : Decidable (Pending s t) := inferInstanceAs (Decidable (_ ∨ _))

/-! ## The weight of a carrier -/

/-- The frames that are going to run task `t`, or run it. -/
@[simp] def carrying (t : Task) : Frame → Nat
  | .execTask .entry t' _ _ => if t' = t then 1 else 0
  | .execTask .closing t' _ _ => if t' = t then 1 else 0
  | .execTask .call t' _ _ => if t' = t then 1 else 0
  | .syncCarrier _ id => if Task.sync id = t then 1 else 0
  | .promiseCarrier _ id p => if Task.promise id p = t then 1 else 0
  | _ => 0

/-- The promise that must be satisfied by now, given the frames of a thread and
what the top one is told. -/
def settled? : Ctl Exn → List Frame → Option Nat
  | .ret, .promiseCarrier .after _ q :: _ => some q
  | .ret, .execTask .running _ _ _ :: .promiseCarrier .after _ q :: _ => some q
  | _, _ => none

theorem settled?_go (fs : List Frame) : settled? .go fs = none := by
  unfold settled?
  split <;> simp_all

theorem settled?_thr (e : Exn) (fs : List Frame) : settled? (.thr e) fs = none := by
  unfold settled?
  split <;> simp_all

/-- The promises that must be satisfied are. -/
def Settles (s : State) : Prop :=
  ∀ (i : Nat) (th : Thread Frame Exn), s.threads[i]? = some th → ∀ q,
    settled? th.ctl th.frames = some q → s.mem.promises (.given q) ≠ none

/-- The promise is satisfied, or something is left that completes it. -/
def Assured (s : State) (t : Task) (p : Promise) : Prop :=
  s.mem.promises p ≠ none ∨ 1 ≤ s.mem.queue.count (.execTask t) + tally (carrying t) s.threads

theorem awaits_of_none (ht : t.promise? = some p) (hp : m.promises p = none) :
    m.awaits t = true := by
  unfold Mem.awaits
  rw [ht]
  simp [hp]

theorem satisfied_of_kept (ht : t.promise? = some p) (h : m.awaits t = false) :
    m.promises p ≠ none := by
  intro hp
  exact absurd (h.symm.trans (awaits_of_none ht hp)) (by simp)

/-- While the promise is not satisfied its carrier is handed on. -/
theorem Move.carries (h : Move i m a ctl f m' nx) (ht : t.promise? = some p)
    (hnone : m'.promises p = none) (hlose : a = .code → loses m (f :: rest) = false)
    (hset : ∀ id q, ctl = .ret → f = .promiseCarrier .after id q → m.promises (.given q) ≠ none) :
    m.queue.count (.execTask t) + carrying t f ≤
      m'.queue.count (.execTask t) + weigh (carrying t) nx.frames := by
  have hbefore : m.promises p = none := by
    by_contra hp
    exact h.promises hp hnone
  have hwaits := awaits_of_none ht hbefore
  -- a lambda that finds or leaves its promise satisfied is not the carrier in question
  have hother : ∀ t' q, t'.promise? = some q → m.promises q ≠ none ∨ m'.promises q ≠ none →
      t' ≠ t := by
    rintro t' q hq hsat rfl
    obtain rfl := Option.some.inj (hq.symm.trans ht)
    rcases hsat with hsat | hsat
    · exact hsat hbefore
    · exact hsat hnone
  cases h
  case client_enter c | fn_enter c | completion_enter c => cases c <;> simp [Call.frame]
  case exec_call t' c ac =>
    cases t' with
    | user id =>
      have hne : Task.user id ≠ t := by
        rintro rfl
        exact absurd ht (by simp)
      simp [hne]
    | sync id => simp [Task.body]
    | promise id q => simp [Task.body]
  case run_take h q hs hq hctl => cases h <;> simp [Handler.frame, hq, List.count_cons]
  case exec_dismissed t' c ac hc =>
    have hne : t' ≠ t := by
      rintro rfl
      have hlost : loses m (.execTask .closing t' c ac :: rest) = true := by
        cases t' with
        | user id => exact absurd ht (by simp)
        | sync id => simp [loses, hc, hwaits]
        | promise id q => simp [loses, hc, hwaits]
      exact absurd ((hlose rfl).symm.trans hlost) (by simp)
    simp [hne]
  case sync_value id hn => simp [hother (.sync id) _ rfl (Or.inr (by simp))]
  case sync_exn id e hn => simp [hother (.sync id) _ rfl (Or.inr (by simp))]
  case sync_value_again id hn => simp [hother (.sync id) _ rfl (Or.inl hn)]
  case sync_exn_again id e hn => simp [hother (.sync id) _ rfl (Or.inl hn)]
  case promise_ret id q => simp [hother (.promise id q) _ rfl (Or.inl (hset id q rfl rfl))]
  case promise_exn id q e hn => simp [hother (.promise id q) _ rfl (Or.inr (by simp))]
  case promise_exn_again id q e hn => simp [hother (.promise id q) _ rfl (Or.inl hn)]
  case user_set q o hq hf => simp
  case user_set_again q o hq hf => simp
  all_goals simp

/-- Assurance lasts. -/
theorem Stepped.assured (hs : Stepped s l s') (hok : Delivers s l) (ht : t.promise? = some p)
    (hset : Settles s) (h : Assured s t p) : Assured s' t p := by
  by_cases hnone : s'.mem.promises p = none
  · right
    have hweight : 1 ≤ s.mem.queue.count (.execTask t) + tally (carrying t) s.threads := by
      rcases h with hsat | hweight
      · exact absurd hnone (hs.promises hsat)
      · exact hweight
    refine Nat.le_trans hweight (conserved_ge (R := fun m => m.queue.count (.execTask t)) hs ?_ ?_)
    · intro i a ctl f rest m nx hl hth hm hmem
      subst hl
      have hlose : a = .code → loses s.mem (f :: rest) = false := by
        rintro rfl
        exact hok _ hth
      refine hm.carries ht (hmem ▸ hnone) hlose ?_
      rintro id q rfl rfl
      exact hset i _ hth q rfl
    · intro k ec timer _
      simp
  · exact Or.inl hnone

/-! ## Where assurance begins -/

/-- The lambda of `PostWithPromise` calls `ExecTask_` with both flags unset. -/
theorem over_promiseCarrier {id q : Nat} (h : Over f (.promiseCarrier .after id q)) :
    ∃ pc, f = .execTask pc (.user id) false false := by
  unfold Over Frame.mayCall at h
  cases f <;> simp_all

/-- A task's function runs under the `ExecTask_` of the task. -/
theorem over_user {id : Nat} {counting ac : Bool}
    (h : Over f (.execTask .running (.user id) counting ac)) : f = .fn id := by
  unfold Over Frame.mayCall at h
  cases f <;> simp_all

/-- A `PostWithPromise` is in its `Post`. -/
theorem over_postWithPromise {id q : Nat} (h : Over f (.postWithPromise .after id q)) :
    ∃ pc, f = .post pc (.promise id q) := by
  unfold Over Frame.mayCall at h
  cases f <;> simp_all

/-- What returns into the lambda of `PostWithPromise` left the promise
satisfied. -/
theorem Move.settles {b : Frame} {q : Nat} (h : Move i m a ctl f m' nx) (hnx : nx = .ret)
    (hground : Grounded Over b (f :: rest)) (hlose : a = .code → loses m (f :: rest) = false)
    (hforget : a = .ret → forgets m (f :: rest) = false)
    (hmine : ∀ q, settled? ctl (f :: rest) = some q → m.promises (.given q) ≠ none)
    (hq : settled? .ret rest = some q) : m'.promises (.given q) ≠ none := by
  refine h.promises ?_
  unfold settled? at hq
  split at hq
  next id q' below hctl =>
    obtain rfl := Option.some.inj hq
    obtain ⟨pc, rfl⟩ := over_promiseCarrier hground.1
    cases h
    case exec_dismissed hc =>
      have hkept := hlose rfl
      exact Option.isSome_iff_ne_none.mp (by simpa [loses, hc, Mem.awaits] using hkept)
    case exec_ret => exact hmine q' rfl
    case user_set p o hp hf | user_set_again p o hp hf => exact absurd hf (by simp [Frame.userCode])
    all_goals exact absurd hnx (by simp)
  next t' c ac id q' below hctl =>
    obtain rfl := Option.some.inj hq
    obtain ⟨pc, heq⟩ := over_promiseCarrier hground.2.1
    obtain ⟨rfl, rfl, rfl, rfl⟩ := Frame.execTask.inj heq
    obtain rfl := over_user hground.1
    cases h
    case fn_ret =>
      have hkept := hforget rfl
      exact Option.isSome_iff_ne_none.mp (by simpa [forgets] using hkept)
    all_goals exact absurd hnx (by simp)
  next => exact absurd hq (by simp)

/-- The carrier whose inner submission a frame waits for. -/
def Frame.handsOver? : Frame → Option Task
  | .postWithPromise .after id q => some (.promise id q)
  | .postSynchronously .dispatching id => some (.sync id)
  | _ => none

/-- A frame that executes a carrier comes with its weight. -/
theorem Move.executes (h : Move i m a ctl f m' nx) (ht : t.promise? = some p) {pc : ExecPc}
    {c ac : Bool} (hmem : .execTask pc t c ac ∈ nx.frames) : 1 ≤ weigh (carrying t) nx.frames := by
  cases h
  case client_enter c' | fn_enter c' | completion_enter c' => cases c' <;> simp [Call.frame] at hmem
  case user_set q o hq hf =>
    obtain rfl := List.mem_singleton.mp hmem
    exact absurd hf (by simp [Frame.userCode])
  case user_set_again q o hq hf =>
    obtain rfl := List.mem_singleton.mp hmem
    exact absurd hf (by simp [Frame.userCode])
  case exec_call t' c' ac' =>
    have heq : t = t' := by
      cases t' <;> (simp [Task.body] at hmem; exact hmem.2.1)
    subst heq
    cases t with
    | user id => exact absurd ht (by simp)
    | sync id => simp [Task.body]
    | promise id q => simp [Task.body]
  case run_take h q hs hq hctl =>
    cases h with
    | execTask t' =>
      have heq : pc = .entry ∧ t = t' ∧ c = true ∧ ac = true := by simpa [Handler.frame] using hmem
      simp [Handler.frame, heq.2.1]
    | _ => simp [Handler.frame] at hmem
  all_goals
    simp at hmem ⊢
    try grind

/-- `Post` returns with the carrier enqueued. -/
theorem Move.posted {pc : PostPc} (h : Move i m a ctl (.post pc t) m' nx) (hnx : nx = .ret)
    (ht : t.promise? = some p) (hlose : a = .code → loses m (.post pc t :: rest) = false) :
    m'.promises p ≠ none ∨ 1 ≤ m'.queue.count (.execTask t) := by
  cases h
  case post_dismissed hc =>
    have hkept : m.awaits t = false := by simpa [loses, hc] using hlose rfl
    exact Or.inl (satisfied_of_kept ht hkept)
  case post_enqueue => exact Or.inr (by simp)
  case user_set q o hq hf => exact absurd hf (by simp [Frame.userCode])
  case user_set_again q o hq hf => exact absurd hf (by simp [Frame.userCode])
  all_goals exact absurd hnx (by simp)

/-- The inner submission of a carrier returns with the carrier enqueued, or
from the `ExecTask_` that ran it. -/
theorem Move.handsOver (h : Move i m a ctl f m' nx) (hnx : nx = .ret) (hover : Over f g)
    (hg : g.handsOver? = some t) (ht : t.promise? = some p)
    (hlose : a = .code → loses m (f :: rest) = false) :
    m'.promises p ≠ none ∨ 1 ≤ m'.queue.count (.execTask t) ∨
      ∃ pc, f = .execTask pc t false true := by
  unfold Frame.handsOver? at hg
  split at hg
  next id q =>
    obtain rfl := Option.some.inj hg
    obtain ⟨pc, rfl⟩ := over_postWithPromise hover
    rcases h.posted hnx ht hlose with hsat | hqueued
    · exact Or.inl hsat
    · exact Or.inr (Or.inl hqueued)
  next id =>
    obtain rfl := Option.some.inj hg
    rcases over_dispatching hover with rfl | ⟨pc, rfl⟩ | ⟨pc, rfl⟩
    · cases h
      case dispatch_dismissed hc =>
        have hkept : m.awaits (.sync id) = false := by simpa [loses, hc] using hlose rfl
        exact Or.inl (satisfied_of_kept ht hkept)
      case user_set q o hq hf => exact absurd hf (by simp [Frame.userCode])
      case user_set_again q o hq hf => exact absurd hf (by simp [Frame.userCode])
      all_goals exact absurd hnx (by simp)
    · rcases h.posted hnx ht hlose with hsat | hqueued
      · exact Or.inl hsat
      · exact Or.inr (Or.inl hqueued)
    · exact Or.inr (Or.inr ⟨pc, rfl⟩)
  next => exact absurd hg (by simp)

/-- The inner submission of a carrier is over when the frame that waits for it
is told so. -/
theorem Move.submits (h : Move i m a ctl f m' nx) (he : m'.trace = m.trace ++ [.submitted t]) :
    ctl = .ret ∧ f.handsOver? = some t := by
  cases h
  case postWithPromise_ret id q =>
    obtain rfl : Task.promise id q = t := by simpa using he
    exact ⟨rfl, rfl⟩
  case postSynchronously_ret id =>
    obtain rfl : Task.sync id = t := by simpa using he
    exact ⟨rfl, rfl⟩
  all_goals exact absurd he (by simp)

/-! ## Runs -/

theorem Stepped.settles (hr : (machine name cap n).Reach ok s) (hok : Delivers s l)
    (hset : SetsPromise s l) (hs : Stepped s l s') (hI : Settles s) : Settles s' := by
  have hpromises : ∀ p, s.mem.promises p ≠ none → s'.mem.promises p ≠ none :=
    fun p hp => hs.promises hp
  cases hs with
  | @move i a ctl f rest m nx hth hm =>
    refine forall_set (T := fun _ th => ∀ q, settled? th.ctl th.frames = some q →
      m.promises (.given q) ≠ none) ?_ fun j th _ hj q hq => hpromises _ (hI j th hj q hq)
    intro q hq
    cases nx with
    | goto f' => exact absurd hq (by simp [settled?_go])
    | call f' c => exact absurd hq (by simp [settled?_go])
    | ret =>
      have hlose : a = .code → loses s.mem (f :: rest) = false := by
        rintro rfl
        exact hok _ hth
      have hforget : a = .ret → forgets s.mem (f :: rest) = false := by
        rintro rfl
        exact hset _ hth
      exact hm.settles rfl (reach_grounded hr hth) hlose hforget (hI i _ hth) hq
    | thr e => exact absurd hq (by simp [settled?_thr])
  | expire htimer => exact hI

theorem reach_settles
    (h : (machine name cap n).Reach (fun s l => SetsPromise s l ∧ Delivers s l) s) : Settles s := by
  refine reach_invariant (I := Settles) h ?_ fun s l s' hr hok hs _ hI =>
    hs.settles hr hok.2 hok.1 hI
  intro i th hth q hq
  obtain rfl := initial_thread hth
  exact absurd hq (by simp [settled?_go])

/-- Every place that relies on a carrier being run: the `ExecTask_` that runs it,
the return of its submission, and the record of that. -/
structure Assures (s : State) : Prop where
  executing : ∀ (i : Nat) (th : Thread Frame Exn), s.threads[i]? = some th → ∀ f ∈ th.frames,
    ∀ pc t c ac p, f = .execTask pc t c ac → t.promise? = some p → Assured s t p
  returned : ∀ (i : Nat) (th : Thread Frame Exn), s.threads[i]? = some th → ∀ t p,
    t.promise? = some p → th.ctl = .ret → ∀ f rest, th.frames = f :: rest →
      f.handsOver? = some t → Assured s t p
  submitted : ∀ t p, t.promise? = some p → .submitted t ∈ s.mem.trace → Assured s t p

/-- A step hands assurance on, from the queue and the frames to the record. -/
theorem Stepped.assures (hr : (machine name cap n).Reach ok s) (hok : Delivers s l)
    (hset : Settles s) (hs : Stepped s l s') (hI : Assures s) : Assures s' := by
  obtain ⟨hexecuting, hreturned, hsubmitted⟩ := hI
  have hlasts : ∀ t p, t.promise? = some p → Assured s t p → Assured s' t p :=
    fun t p ht h => hs.assured hok ht hset h
  cases hs with
  | @move i a ctl f rest m nx hth hm =>
    refine ⟨?_, ?_, ?_⟩
    · refine forall_frames_set (F := fun _ g => ∀ pc t c ac p, g = .execTask pc t c ac →
        t.promise? = some p → Assured s t p) hth hexecuting
        (fun j g hold pc t c ac p hg ht => hlasts t p ht (hold pc t c ac p hg ht)) ?_
      rintro - g hmem pc t c ac p rfl ht
      obtain ⟨r, -, hweight⟩ := tally_resume (carrying t) hth nx
      have hnew := hm.executes ht hmem
      right
      dsimp only
      omega
    · refine forall_set (T := fun _ th => ∀ t p, t.promise? = some p → th.ctl = .ret →
        ∀ f rest, th.frames = f :: rest → f.handsOver? = some t → Assured _ t p) ?_
        fun j th _ hj t p ht hctl f rest hf hg =>
          hlasts t p ht (hreturned j th hj t p ht hctl f rest hf hg)
      intro t p ht hctl g below hframes hg
      cases nx with
      | goto f' => exact absurd hctl (by simp)
      | call f' c => exact absurd hctl (by simp)
      | thr e => exact absurd hctl (by simp)
      | ret =>
        obtain rfl : rest = g :: below := hframes
        have hlose : a = .code → loses s.mem (f :: g :: below) = false := by
          rintro rfl
          exact hok _ hth
        rcases hm.handsOver rfl (reach_grounded hr hth).1 hg ht hlose with hsat | hqueued | ⟨pc, rfl⟩
        · exact Or.inl hsat
        · right
          dsimp only
          omega
        · exact hlasts t p ht
            (hexecuting i _ hth _ (List.mem_cons_self ..) pc t false true p rfl ht)
    · intro t p ht hmem
      rcases hm.emits with hsame | ⟨e, he⟩
      · exact hlasts t p ht (hsubmitted t p ht (hsame ▸ hmem))
      · have hmem : .submitted t ∈ s.mem.trace ++ [e] := he ▸ hmem
        rcases List.mem_append.mp hmem with hmem | hmem
        · exact hlasts t p ht (hsubmitted t p ht hmem)
        · obtain rfl := List.mem_singleton.mp hmem
          obtain ⟨rfl, hg⟩ := hm.submits he
          exact hlasts t p ht (hreturned i _ hth t p ht rfl f rest rfl hg)
  | @expire k ec timer htimer =>
    refine ⟨?_, ?_, ?_⟩
    · exact fun i th hth f hf pc t c ac p he ht =>
        hlasts t p ht (hexecuting i th hth f hf pc t c ac p he ht)
    · exact fun i th hth t p ht hctl f rest hf hg =>
        hlasts t p ht (hreturned i th hth t p ht hctl f rest hf hg)
    · intro t p ht hmem
      have hold : .submitted t ∈ s.mem.trace := by simpa using hmem
      exact hlasts t p ht (hsubmitted t p ht hold)

theorem reach_assures
    (h : (machine name cap n).Reach (fun s l => SetsPromise s l ∧ Delivers s l) s) : Assures s := by
  refine reach_invariant (I := Assures) h ⟨?_, ?_, fun t p _ hmem => ?_⟩
    fun s l s' hr hok hs _ hI => hs.assures hr hok.2 (reach_settles hr) hI
  · intro i th hth f hf pc t c ac p he
    obtain rfl := initial_thread hth
    rw [he] at hf
    cases i <;> simp at hf
  · intro i th hth t p _ hctl
    obtain rfl := initial_thread hth
    exact absurd hctl (by simp)
  · exact absurd hmem (by simp [initial])

/-! ## What stands behind the shutdown handler -/

/-- A carrier that was enqueued behind a shutdown handler has its promise
satisfied. -/
def Timely (m : Mem) : Prop :=
  Each (fun pre e => ∀ t p, t.promise? = some p → e = .enqueued (.execTask t) →
    .enqueued .stop ∈ pre → m.promises p ≠ none) m.trace

/-- Only `Post` enqueues `ExecTask_`. -/
theorem Move.enqueues (h : Move i m a ctl f m' nx)
    (he : m'.trace = m.trace ++ [.enqueued (.execTask t)]) : a = .code ∧ f = .post .enqueue t := by
  cases h
  case post_enqueue t' =>
    obtain rfl : t' = t := by simpa using he
    exact ⟨rfl, rfl⟩
  all_goals exact absurd he (by simp)

theorem Stepped.timely (hs : Stepped s l s') (hok : Delivers s l) (h : Timely s.mem) :
    Timely s'.mem := by
  refine hs.each ?_ ?_ fun pre e post hsplit t p ht he hstop =>
    hs.promises (h pre e post hsplit t p ht he hstop)
  · intro i a ctl f rest m nx e hl hth hm htrace t p ht he hstop
    subst he hl
    obtain ⟨rfl, rfl⟩ := hm.enqueues htrace
    have hlose : loses s.mem (.post .enqueue t :: rest) = false := hok _ hth
    have hkept : s.mem.awaits t = false := by simpa [loses, hstop] using hlose
    exact hs.promises (satisfied_of_kept ht hkept)
  · intro timer ec t p ht he
    obtain ⟨task, tok⟩ := timer
    cases tok <;> simp [Timer.handler] at he

theorem reach_timely
    (h : (machine name cap n).Reach (fun s l => SetsPromise s l ∧ Delivers s l) s) : Timely s.mem :=
  reach_invariant (I := fun s => Timely s.mem) h (each_nil _)
    fun _ _ _ _ hok hs _ hI => hs.timely hok.2 hI

/-! ## No waiter is stranded -/

theorem executes_of_carrying (h : carrying t f ≠ 0) : f.executes t = true := by
  unfold carrying at h
  split at h <;> simp_all [Frame.executes]

/-- **No waiter is stranded.** In a run in which no step loses a carrier, and the
functions handed to `PostWithPromise` set their promise when they succeed:
when the inner submission has returned normally, and nothing is left that can
complete the promise, the promise is satisfied. In particular nobody waits
for a future that nothing is left to complete. -/
theorem no_waiter_stranded
    (h : (machine name cap n).Reach (fun s l => SetsPromise s l ∧ Delivers s l) s) :
    (∀ t p, t.promise? = some p → .submitted t ∈ s.mem.trace → ¬Pending s t →
      s.mem.promises p ≠ none) ∧
    ∀ th ∈ s.threads, ∀ id, .postSynchronously .waiting id ∈ th.frames → ¬Pending s (.sync id) →
      s.mem.promises (.sync id) ≠ none := by
  have hsubmitted : ∀ t p, t.promise? = some p → .submitted t ∈ s.mem.trace → ¬Pending s t →
      s.mem.promises p ≠ none := by
    intro t p ht hsub hnone
    rcases (reach_assures h).submitted t p ht hsub with hsat | hweight
    · exact hsat
    · have hzero : tally (carrying t) s.threads = 0 := by
        refine tally_eq_zero fun th hth f hf => ?_
        by_contra hne
        exact hnone (Or.inr ⟨th, hth, f, hf, executes_of_carrying hne⟩)
      have hq : .execTask t ∈ s.mem.queue := List.count_pos_iff.mp (by omega)
      have hend : ¬Looping s := fun hl => hnone (Or.inl ⟨hl, hq⟩)
      obtain ⟨pre, post, htrace, hstop⟩ := behind_stop h hend hq
      exact reach_timely h pre _ post htrace t p ht rfl hstop
  refine ⟨hsubmitted, fun th hth id hmem hnone => ?_⟩
  obtain ⟨i, hi⟩ := List.getElem?_of_mem hth
  exact hsubmitted (.sync id) _ rfl
    (reach_follows h i th hi _ hmem _ rfl) hnone

/-- A task handed to `PostWithPromise` sets the promise and returns. -/
theorem no_waiter_stranded_value : ∃ s,
    (machine "tasks" 1 1).Reach (fun s l => SetsPromise s l ∧ Delivers s l) s ∧
    .submitted (.promise 0 0) ∈ s.mem.trace ∧ ¬Pending s (.promise 0 0) ∧
    s.mem.promises (.given 0) ≠ none := by
  let worker : Nat → List Step := fun k => List.replicate k (.thread 0 .code)
  let client : Nat → List Step := fun k => List.replicate k (.thread 1 .code)
  let steps : List Step := [.thread 1 (.call (.postWithPromise 0))] ++ client 5 ++ worker 8 ++
    [.thread 0 (.setPromise 0 .value), .thread 0 .ret] ++ worker 3
  have hrun : ∃ s, (machine "tasks" 1 1).guardedRun (fun s l => SetsPromise s l ∧ Delivers s l)
      (initial "tasks" 1 1) steps = some s ∧ .submitted (.promise 0 0) ∈ s.mem.trace ∧
      ¬Pending s (.promise 0 0) := ⟨_, rfl, by decide, by decide⟩
  obtain ⟨s, hs, hsub, hnone⟩ := hrun
  have hreach := reach_schedule (by decide) hs
  exact ⟨s, hreach, hsub, hnone, (no_waiter_stranded hreach).1 _ _ rfl hsub hnone⟩

/-- `PostSynchronously` on a closed pipeline: `Dispatch` dismisses the lambda and
returns, and the caller waits for a promise nobody is left to satisfy. -/
theorem waiter_stranded : ∃ s, (machine "tasks" 1 2).Reach SetsPromise s ∧
    .submitted (.sync 1) ∈ s.mem.trace ∧ ¬Pending s (.sync 1) ∧ s.mem.promises (.sync 1) = none ∧
    ∃ th ∈ s.threads, .postSynchronously .waiting 1 ∈ th.frames := by
  let client : Nat → Nat → List Step := fun i k => List.replicate k (.thread i .code)
  let steps : List Step := [.thread 1 (.call .close)] ++ client 1 3 ++
    [.thread 2 (.call .postSynchronously)] ++ client 2 3
  have hrun : ∃ s, (machine "tasks" 1 2).guardedRun SetsPromise (initial "tasks" 1 2) steps =
      some s ∧ .submitted (.sync 1) ∈ s.mem.trace ∧ ¬Pending s (.sync 1) ∧
      s.mem.promises (.sync 1) = none ∧
      ∃ th ∈ s.threads, .postSynchronously .waiting 1 ∈ th.frames :=
    ⟨_, rfl, by decide, by decide, rfl, by decide⟩
  obtain ⟨s, hs, hrest⟩ := hrun
  exact ⟨s, reach_schedule (by decide) hs, hrest⟩

end Warlib.Pipeline
