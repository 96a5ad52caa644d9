import Warlib.Logging.Exactness
import Warlib.Logging.Locking

/-!
# The cache under concurrent `AddHandler` calls

`AddHandler` inserts in one critical section and `UpdateLevelAndFilter`
recomputes in another; between the two the lock is free and the cache is
behind. `owes` marks the program points at which a thread still has a
recomputation before it. Whoever recomputes has seen the whole list
(`reach_recomputing`), so either the cache is what the list asks for, or
somebody owes (`reach_settled`); and what is written is never below what was
there (`reach_covered`, `below_next`).
-/

namespace Warlib.Logging

open Warlib.Machine

variable {set : Setting} {n i : Nat} {a : Act} {m m' : Shared} {f : Frame} {nx : Next Frame Empty}
  {ok : State → Step → Prop} {s s' : State} {l : Step} {e : LogEngine}

/-! ## Maximum and union -/

/-- What the loop of `UpdateLevelAndFilter` has after `k` handlers. -/
def LogEngine.gathered (e : LogEngine) (k : Nat) : LogLevel × Filter :=
  (e.handlers.take k).foldl e.gather (.fatal, 0)

/-- What it has in the end. -/
def LogEngine.summary (e : LogEngine) : LogLevel × Filter :=
  e.handlers.foldl e.gather (.fatal, 0)

theorem gathered_length : e.gathered e.handlers.length = e.summary := by
  rw [LogEngine.gathered, List.take_length, LogEngine.summary]

theorem gathered_succ {k p : Nat} (hp : e.handlers[k]? = some p) :
    e.gathered (k + 1) = e.gather (e.gathered k) p := by
  obtain ⟨hk, rfl⟩ := List.getElem?_eq_some_iff.mp hp
  rw [LogEngine.gathered, List.take_succ_eq_append_getElem hk, List.foldl_append]
  rfl

/-- One round of the loop takes the maximum and the union. -/
theorem gather_eq (acc : LogLevel × Filter) (p : Nat) :
    e.gather acc p = (max acc.1 (e.object p).level, acc.2 ||| (e.object p).filter) := by
  unfold LogEngine.gather
  by_cases h : (e.object p).level > acc.1
  · rw [if_pos h, max_eq_right (le_of_lt h)]
  · rw [if_neg h, max_eq_left (le_of_not_gt h)]

/-- The loop takes the maximum of all levels and the union of all filters. -/
theorem foldl_gather_eq (ps : List Nat) (acc : LogLevel × Filter) :
    ps.foldl e.gather acc =
      ((ps.map fun p => (e.object p).level).foldl max acc.1,
        (ps.map fun p => (e.object p).filter).foldl (· ||| ·) acc.2) := by
  induction ps generalizing acc with
  | nil => rfl
  | cons p ps ih =>
    rw [List.foldl_cons, ih, gather_eq]
    rfl

/-- Not above in the level, and a subset in the filter. -/
def Below (c c' : LogLevel × Filter) : Prop := c.1 ≤ c'.1 ∧ c.2 ||| c'.2 = c'.2

theorem Below.refl (c : LogLevel × Filter) : Below c c := ⟨le_refl _, BitVec.or_self⟩

theorem Below.trans {c c' c'' : LogLevel × Filter} (h : Below c c') (h' : Below c' c'') :
    Below c c'' := by
  refine ⟨le_trans h.1 h'.1, ?_⟩
  rw [← h'.2, ← BitVec.or_assoc, h.2]

theorem below_gather (c : LogLevel × Filter) (p : Nat) : Below c (e.gather c p) := by
  rw [gather_eq]
  refine ⟨le_max_left _ _, ?_⟩
  rw [← BitVec.or_assoc, BitVec.or_self]

/-! ## Recomputing -/

/-- The cached level and filter. -/
def LogEngine.cache (e : LogEngine) : LogLevel × Filter := (e.currentLevel, e.currentFilter)

/-- What a thread that recomputes has in hand. -/
def Recomputing (e : LogEngine) : Frame → Prop
  | .updateLevelAndFilter (.gather k acc) => acc = e.gathered k ∧ k ≤ e.handlers.length
  | .updateLevelAndFilter (.level acc) => acc = e.summary
  | .updateLevelAndFilter (.filter acc) => acc = e.summary ∧ e.currentLevel = acc.1
  | _ => True

theorem recomputing_of_outside (hf : f.holds = 0) : Recomputing e f := by
  cases f with
  | updateLevelAndFilter pc => cases pc <;> first | exact trivial | exact absurd hf Nat.one_ne_zero
  | _ => exact trivial

/-- Outside the critical sections nobody changes the handlers or the cache. -/
theorem Move.outside (h : Move set i m a f m' nx) (hf : f.holds = 0) :
    m'.engine.handlers = m.engine.handlers ∧ m'.engine.cache = m.engine.cache := by
  cases h with
  | doSubmit_deliver si k p id hp hlevel | add_push p | update_level acc | update_filter acc =>
    exact absurd hf Nat.one_ne_zero
  | _ => exact ⟨rfl, rfl⟩

theorem Recomputing.same {e' : LogEngine} (hobject : e'.object = e.object)
    (hhandlers : e'.handlers = e.handlers) (hcache : e'.cache = e.cache) (h : Recomputing e f) :
    Recomputing e' f := by
  obtain ⟨object, handlers, level, filter, submitted⟩ := e
  obtain ⟨object', handlers', level', filter', submitted'⟩ := e'
  obtain ⟨rfl, rfl⟩ := Prod.mk.inj hcache
  dsimp only at hobject hhandlers
  subst hobject hhandlers
  cases f with
  | updateLevelAndFilter pc => cases pc <;> exact h
  | _ => exact trivial

theorem Move.recomputing (h : Move set i m a f m' nx) (hf : Recomputing m.engine f) :
    ∀ g ∈ nx.frames, Recomputing m'.engine g := by
  intro g hg
  cases h with
  | update_lock hfree =>
    rw [List.mem_singleton.mp hg]
    exact ⟨rfl, Nat.zero_le _⟩
  | update_gather k p acc hp =>
    rw [List.mem_singleton.mp hg]
    refine ⟨?_, (List.getElem?_eq_some_iff.mp hp).1⟩
    rw [gathered_succ hp, ← hf.1]
  | update_gathered k acc hend =>
    rw [List.mem_singleton.mp hg]
    have hk : m.engine.handlers.length = k :=
      Nat.le_antisymm (List.getElem?_eq_none_iff.mp hend) hf.2
    show acc = m.engine.summary
    rw [← gathered_length, hk]
    exact hf.1
  | update_level acc =>
    rw [List.mem_singleton.mp hg]
    exact ⟨hf, rfl⟩
  | statement_over | doSubmit_unlock id | handler_end entry | add_done p =>
    exact absurd hg List.not_mem_nil
  | client_submit log | client_statement level filter buf | client_addHandler p
  | doSubmit_deliver si k p id hp hlevel | add_added p buf | add_update p =>
    rcases List.mem_cons.mp hg with rfl | hg
    · exact trivial
    · rw [List.mem_singleton.mp hg]
      exact trivial
  | _ =>
    rw [List.mem_singleton.mp hg]
    exact trivial

/-- Every thread that recomputes has seen the handlers up to its place in the loop. -/
theorem reach_recomputing (h : (machine set n).Reach ok s) {th : Thread Frame Empty}
    (hth : s.threads[i]? = some th) {g : Frame} (hg : g ∈ th.frames) :
    Recomputing s.mem.engine g := by
  refine reach_invariant (I := fun s => ∀ (i : Nat) (th : Thread Frame Empty),
    s.threads[i]? = some th → ∀ g ∈ th.frames, Recomputing s.mem.engine g) h ?_ ?_ i th hth g hg
  · intro i th hth g hg
    rw [initial_thread hth] at hg
    rw [List.mem_singleton.mp hg]
    exact trivial
  · intro s l s' hr hs hI
    cases hs with
    | clock now => exact hI
    | @move i a ctl f rest m nx hth hm =>
      have hobject : m.engine.object = s.mem.engine.object := by cases hm <;> rfl
      refine (reach_owned hr).forall_frames hth hI ?_ ?_ hm.recomputing
      · intro hf j g hg
        obtain ⟨hhandlers, hcache⟩ := hm.outside hf
        exact hg.same hobject hhandlers hcache
      · exact fun _ j g hg => recomputing_of_outside hg

/-! ## Nothing moves down -/

/-- What a step does to the handlers and the cache: nothing, one more handler, or
one half of the cache as the list has it. -/
theorem Move.cache (h : Move set i m a f m' nx) (hf : Recomputing m.engine f) :
    (m'.engine.summary = m.engine.summary ∧ m'.engine.cache = m.engine.cache) ∨
    (∃ p, m'.engine.summary = m.engine.gather m.engine.summary p ∧
      m'.engine.cache = m.engine.cache) ∨
    m'.engine.summary = m.engine.summary ∧
      (m'.engine.cache = (m.engine.summary.1, m.engine.currentFilter) ∨
        m'.engine.cache = m.engine.summary) := by
  cases h with
  | add_push p =>
    refine Or.inr (Or.inl ⟨p, ?_, rfl⟩)
    show (m.engine.handlers ++ [p]).foldl m.engine.gather (.fatal, 0) = _
    rw [List.foldl_append]
    rfl
  | update_level acc =>
    refine Or.inr (Or.inr ⟨rfl, Or.inl ?_⟩)
    have hacc : acc = m.engine.summary := hf
    rw [← hacc]
    rfl
  | update_filter acc =>
    refine Or.inr (Or.inr ⟨rfl, Or.inr ?_⟩)
    obtain ⟨hacc, hlevel⟩ := hf
    rw [← hacc]
    exact Prod.ext hlevel rfl
  | _ => exact Or.inl ⟨rfl, rfl⟩

/-- The cache is never above what the list asks for. -/
theorem reach_covered (h : (machine set n).Reach ok s) :
    Below s.mem.engine.cache s.mem.engine.summary := by
  refine reach_invariant (I := fun s => Below s.mem.engine.cache s.mem.engine.summary) h
    (Below.refl _) ?_
  intro s l s' hr hs hI
  cases hs with
  | clock now => exact hI
  | move hth hm =>
    have hf := reach_recomputing hr hth (List.mem_cons_self ..)
    rcases hm.cache hf with ⟨hsummary, hcache⟩ | ⟨p, hsummary, hcache⟩ | ⟨hsummary, hcache | hcache⟩
    · rw [hsummary, hcache]
      exact hI
    · rw [hsummary, hcache]
      exact hI.trans (below_gather _ p)
    · rw [hsummary, hcache]
      exact ⟨le_refl _, hI.2⟩
    · rw [hsummary, hcache]
      exact Below.refl _

/-- No step moves the cache down. -/
theorem below_next (h : (machine set n).Reach ok s) (hnext : (machine set n).next s l = some s') :
    Below s.mem.engine.cache s'.mem.engine.cache := by
  have hbelow := reach_covered h
  cases stepped_of_next hnext with
  | clock now => exact Below.refl _
  | move hth hm =>
    have hf := reach_recomputing h hth (List.mem_cons_self ..)
    rcases hm.cache hf with ⟨-, hcache⟩ | ⟨p, -, hcache⟩ | ⟨-, hcache | hcache⟩
    · rw [hcache]
      exact Below.refl _
    · rw [hcache]
      exact Below.refl _
    · rw [hcache]
      exact ⟨hbelow.1, BitVec.or_self⟩
    · rw [hcache]
      exact hbelow

/-! ## Whoever has inserted still has to recompute -/

/-- Whether the thread still has the recomputation for its insertion before it. -/
def Frame.owes : Frame → Nat
  | .addHandler .unlock _ => 1
  | .addHandler .added _ => 1
  | .addHandler .update _ => 1
  | .updateLevelAndFilter .lock => 1
  | .updateLevelAndFilter (.gather _ _) => 1
  | .updateLevelAndFilter (.level _) => 1
  | .updateLevelAndFilter (.filter _) => 1
  | _ => 0

/-- A step that changes neither handlers nor cache pays nothing off; and the last
assignment leaves the cache as it should be. -/
theorem Move.owing (h : Move set i m a f m' nx) (hf : Recomputing m.engine f) :
    (m'.engine.summary = m.engine.summary ∧ m'.engine.cache = m.engine.cache ∧
      weigh Frame.owes nx.frames = f.owes) ∨
    0 < weigh Frame.owes nx.frames ∨ m'.engine.cache = m'.engine.summary := by
  cases h with
  | add_push p | update_level acc => exact Or.inr (Or.inl Nat.one_pos)
  | update_filter acc =>
    obtain ⟨hacc, hlevel⟩ := hf
    refine Or.inr (Or.inr ?_)
    show (m.engine.currentLevel, acc.2) = m.engine.summary
    rw [← hacc]
    exact Prod.ext hlevel rfl
  | _ => exact Or.inl ⟨rfl, rfl, rfl⟩

/-- The cache is what the list asks for, or somebody owes a recomputation. -/
theorem reach_settled (h : (machine set n).Reach ok s) :
    s.mem.engine.cache = s.mem.engine.summary ∨ 0 < tally Frame.owes s.threads := by
  refine reach_invariant (I := fun s => s.mem.engine.cache = s.mem.engine.summary ∨
    0 < tally Frame.owes s.threads) h (Or.inl rfl) ?_
  intro s l s' hr hs hI
  cases hs with
  | clock now => exact hI
  | @move i a ctl f rest m nx hth hm =>
    have hf := reach_recomputing hr hth (List.mem_cons_self ..)
    obtain ⟨r, hbefore, hafter⟩ := tally_resume Frame.owes hth nx
    rcases hm.owing hf with ⟨hsummary, hcache, hweigh⟩ | hpos | hdone
    · rw [hsummary, hcache, hafter, hweigh, ← hbefore]
      exact hI
    · refine Or.inr ?_
      rw [hafter]
      exact Nat.lt_of_lt_of_le hpos (Nat.le_add_right _ _)
    · exact Or.inl hdone

/-! ## The claim of the cache -/

/-- Some thread is in a call of `AddHandler`. -/
def State.AddingHandler (s : State) : Prop :=
  ∃ th ∈ s.threads, ∃ pc p, Frame.addHandler pc p ∈ th.frames

/-- Whoever owes a recomputation is in a call of `AddHandler`. -/
theorem adding_of_owes (h : (machine set n).Reach ok s) (howes : 0 < tally Frame.owes s.threads) :
    s.AddingHandler := by
  by_cases hadding : s.AddingHandler
  · exact hadding
  have hzero : tally Frame.owes s.threads = 0 := by
    refine tally_eq_zero fun th hth g hg => ?_
    obtain ⟨i, hi⟩ := List.getElem?_of_mem hth
    cases g with
    | addHandler pc p => exact absurd ⟨th, hth, pc, p, hg⟩ hadding
    | updateLevelAndFilter pc =>
      obtain ⟨g', hg', p, rfl⟩ := (reach_stacks h hi).under hg (by simp)
      exact absurd ⟨th, hth, .done, p, hg'⟩ hadding
    | _ => rfl
  omega

/-- **The cache is coherent.** Whenever no thread is in a call of `AddHandler`, the
cached level is the maximum of `LL_FATAL` and the levels of the attached
handlers, and the cached filter is the union of their filters; and no step of
any thread lowers the level or takes a bit from the filter. -/
theorem cache_coherent (h : (machine set n).Reach ok s) :
    (¬s.AddingHandler →
      s.mem.engine.currentLevel =
        (s.mem.engine.handlers.map fun p => (set.object p).level).foldl max .fatal ∧
      s.mem.engine.currentFilter =
        (s.mem.engine.handlers.map fun p => (set.object p).filter).foldl (· ||| ·) 0) ∧
    ∀ l s', (machine set n).next s l = some s' →
      s.mem.engine.currentLevel ≤ s'.mem.engine.currentLevel ∧
      s.mem.engine.currentFilter ||| s'.mem.engine.currentFilter = s'.mem.engine.currentFilter := by
  refine ⟨fun hadding => ?_, fun l s' hnext => below_next h hnext⟩
  have hcache : s.mem.engine.cache = s.mem.engine.summary := by
    rcases reach_settled h with hcache | howes
    · exact hcache
    · exact absurd (adding_of_owes h howes) hadding
  rw [LogEngine.summary, foldl_gather_eq, reach_object h] at hcache
  exact Prod.mk.inj hcache

/-- A log for files and network, and a console for warnings about anything. -/
def twoLogs : Setting where
  object p := if p = 0 then ⟨"file", .info, 0x030⟩ else ⟨"console", .warning, 0x001⟩
  record _ _ := []
  threadId _ := []

/-- Two threads add a handler each, and both insert before either recomputes. -/
def twoAdding : List Step :=
  let code (i k : Nat) : List Step := List.replicate k (.thread i .code)
  .thread 0 (.addHandler 0) :: code 0 3 ++ .thread 1 (.addHandler 1) :: code 1 16 ++ code 0 13

theorem cache_coherent_two : ∃ s, (machine twoLogs 2).Reach (fun _ _ => True) s ∧
    s.mem.engine.handlers = [0, 1] ∧ ¬s.AddingHandler ∧
    s.mem.engine.currentLevel = [LogLevel.info, .warning].foldl max .fatal ∧
    s.mem.engine.currentFilter = [(0x030 : Filter), 0x001].foldl (· ||| ·) 0 := by
  have hrun : ∃ s, (machine twoLogs 2).guardedRun (fun _ _ => True) (initial twoLogs 2) twoAdding =
      some s ∧ s.mem.engine.handlers = [0, 1] ∧
      s.threads = [⟨.ret, [.client]⟩, ⟨.ret, [.client]⟩] := ⟨_, rfl, rfl, rfl⟩
  obtain ⟨s, hs, hhandlers, hthreads⟩ := hrun
  have hreach := Lts.reach_of_guardedRun (.start rfl) hs
  have hadding : ¬s.AddingHandler := by
    rintro ⟨th, hth, pc, p, hmem⟩
    rw [hthreads] at hth
    have hframes : th.frames = [.client] := by
      rcases List.mem_cons.mp hth with rfl | hth
      · rfl
      · rw [List.mem_singleton.mp hth]
    rw [hframes] at hmem
    exact absurd (List.mem_singleton.mp hmem) (by simp)
  have hcache := (cache_coherent hreach).1 hadding
  rw [hhandlers] at hcache
  exact ⟨s, hreach, hhandlers, hadding, hcache⟩

end Warlib.Logging
