import Warlib.Pipeline.Closing
import Warlib.Pipeline.Waiting

/-!
# A pipeline that is closing

Two facts about a pipeline whose `closing_` is set, for those who close many of
them. Its shutdown handler has been queued, since `Close` sets the flag behind
it (`reach_ordered`). And at most one function begins from then on: each one
that begins was committed before, at most one can be, and nobody becomes
committed any more (`begins_once`).
-/

namespace Warlib.Pipeline

open Warlib.Machine

variable {name : String} {cap : BitVec 64} {n : Nat} {ok : State → Step → Prop}
  {s s' : State} {l : Step} {i : Nat} {m m' : Mem} {a : Act} {ctl : Ctl Exn} {f : Frame}
  {nx : Next Frame Exn} {p p' : Lifetime} {t : Turn}

/-! ## The handler comes first -/

/-- `Close` sets `closing_` behind its handler. -/
structure Ordered (s : State) : Prop where
  closing : s.mem.closing = true → .enqueued .stop ∈ s.mem.trace
  setting : ∀ (i : Nat) (th : Thread Frame Exn), s.threads[i]? = some th →
    .close .set ∈ th.frames → .enqueued .stop ∈ s.mem.trace

/-- The flag is set behind the handler, and the program point before is reached with
the handler. -/
theorem Move.ordered (h : Move i m a ctl f m' nx) :
    (m'.closing = m.closing ∨ f = .close .set) ∧
      (.close .set ∈ nx.frames → .enqueued .stop ∈ m'.trace ∨ f = .close .set) := by
  cases h
  case client_enter c | fn_enter c | completion_enter c =>
    exact ⟨Or.inl rfl, fun hmem => by cases c <;> simp [Call.frame] at hmem⟩
  case exec_call t c ac =>
    exact ⟨Or.inl rfl, fun hmem => by cases t <;> simp [Task.body] at hmem⟩
  case run_take h q hs hq hctl =>
    exact ⟨Or.inl rfl, fun hmem => by cases h <;> simp [Handler.frame] at hmem⟩
  case close_enqueue => exact ⟨Or.inl rfl, fun _ => Or.inl (by simp)⟩
  case close_set => exact ⟨Or.inr rfl, fun _ => Or.inr rfl⟩
  case user_set p o hp hf | user_set_again p o hp hf =>
    exact ⟨Or.inl rfl, fun hmem => Or.inr (List.mem_singleton.mp hmem).symm⟩
  all_goals exact ⟨Or.inl rfl, fun hmem => absurd hmem (by simp)⟩

theorem reach_ordered (h : (machine name cap n).Reach ok s) : Ordered s := by
  refine reach_invariant (I := Ordered) h ⟨?_, ?_⟩ ?_
  · intro hc
    exact absurd hc (by simp [initial])
  · intro i th hth hmem
    obtain rfl := initial_thread hth
    cases i <;> simp at hmem
  · intro s l s' _ _ hs _ hI
    have hlater := hs.later.trace
    cases hs with
    | @move i a ctl f rest m nx hth hm =>
      obtain ⟨hclosing, hsetting⟩ := hm.ordered
      have hmine := hI.setting i _ hth
      refine ⟨fun hc => ?_, forall_set (T := fun _ th => .close .set ∈ th.frames →
        .enqueued .stop ∈ m.trace) (fun hmem => ?_)
        fun j th _ hj hmem => hlater.subset (hI.setting j th hj hmem)⟩
      · rcases hclosing with hsame | rfl
        · exact hlater.subset (hI.closing (hsame ▸ hc))
        · exact hlater.subset (hmine (List.mem_cons_self ..))
      · rw [Next.resume_frames] at hmem
        rcases List.mem_append.mp hmem with hmem | hmem
        · rcases hsetting hmem with hnew | rfl
          · exact hnew
          · exact hlater.subset (hmine (List.mem_cons_self ..))
        · exact hlater.subset (hmine (List.mem_cons_of_mem _ hmem))
    | expire _ =>
      exact ⟨fun hc => hlater.subset (hI.closing hc),
        fun j th hj hmem => hlater.subset (hI.setting j th hj hmem)⟩

/-- The shutdown handler of a pipeline that is closing has been queued. -/
theorem closing_stop (h : (machine name cap n).Reach ok s) (hc : s.mem.closing = true) :
    .enqueued .stop ∈ s.mem.trace :=
  (reach_ordered h).closing hc

/-! ## One more function -/

/-- Once `closing_` is set, what begins comes out of what was committed. -/
theorem Stepped.straggles (hs : Stepped s l s') (hc : s.mem.closing = true) :
    s'.mem.begun.length + tally committed s'.threads ≤
      s.mem.begun.length + tally committed s.threads := by
  refine conserved_le (R := fun m => m.begun.length) hs ?_ ?_
  · intro i a ctl f m nx _ hm
    cases hm.closing with
    | begins t c ac hf htrace hnx =>
      subst hf
      rw [hnx, Mem.begun, Mem.begun, htrace, List.filter_append,
        List.filter_cons_of_pos (by rfl), List.length_append]
      exact Nat.le_refl _
    | admits t c ac hopen => exact absurd (hopen.symm.trans hc) (by simp)
    | returns pc hf hset htrace hnx =>
      subst hf hnx
      rw [Mem.begun, Mem.begun, htrace]
      simp
    | other es htrace hes hf hnx =>
      have hnone : es.filter Event.isBegan = [] := by
        refine List.filter_eq_nil_iff.mpr fun e he => ?_
        have hnot := hes e he
        cases e <;> simp_all
      rw [weigh_eq_zero hnx, hf, Mem.begun, Mem.begun, htrace, List.filter_append, hnone]
      simp
  · intro k ec t _
    simp [Mem.begun]

/-- `closing_` stays set in the life of a pipeline. -/
theorem closing_step (hnext : (lifetime name cap n).next p t = some p')
    (hc : p.state.mem.closing = true) : p'.state.mem.closing = true := by
  rcases (turned_of_next hnext).inside with hsame | ⟨l, -, -, hn⟩
  · rw [hsame]
    exact hc
  · exact (stepped_of_next hn).1.later.closing hc

/-- And with it the bound. -/
theorem closing_steps (hc : p.state.mem.closing = true) (hs : (lifetime name cap n).Steps p p') :
    p'.state.mem.closing = true ∧
      p'.state.mem.begun.length + tally committed p'.state.threads ≤
        p.state.mem.begun.length + tally committed p.state.threads := by
  induction hs with
  | refl => exact ⟨hc, Nat.le_refl _⟩
  | tail hsteps hnext ih =>
    obtain ⟨hc₁, hle₁⟩ := ih
    refine ⟨closing_step hnext hc₁, ?_⟩
    rcases (turned_of_next hnext).inside with hsame | ⟨l, -, -, hn⟩
    · rw [hsame]
      exact hle₁
    · exact Nat.le_trans ((stepped_of_next hn).1.straggles hc₁) hle₁

/-- At most one function begins on a pipeline that is closing. -/
theorem begins_once (hr : (lifetime name cap n).Reach (fun _ _ => True) p)
    (hc : p.state.mem.closing = true) (hs : (lifetime name cap n).Steps p p') :
    p'.state.mem.begun.length ≤ p.state.mem.begun.length + 1 := by
  have hle := (closing_steps hc hs).2
  have hone := committed_le (reach_inside hr)
  omega

end Warlib.Pipeline
