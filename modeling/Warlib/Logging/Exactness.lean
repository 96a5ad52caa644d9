import Warlib.Logging.Relevance

/-!
# The cache is a summary

`Relevance.lean` shows that `IsRelevant` lets through whatever a handler
wants. The converse is the other half of its documentation: true means that
the event *will* be logged to at least one event-handler. The cache keeps the
greatest level and the union of the filters apart from each other, and a
handler wants an event only when its own level and its own filter do, so two
handlers can make the cache say yes to an event neither of them wants.

`Gathered` says that the cache is what the loop of `UpdateLevelAndFilter`
computes from the attached handlers; it holds along every history that leaves
the levels of attached handlers alone (`reach_gathered`). From there
`exact_iff_topped` is about one engine: no event nobody wants is let through
if and only if the handlers of the greatest level have all the filter bits.
-/

namespace Warlib.Logging

open Warlib.Machine

variable {object : Nat → LogEventHandler} {e : LogEngine}

/-! ## Filter bits -/

/-- Filters have a matter in common when they have a bit in common. -/
theorem Filter.meets_iff_bit {a b : Filter} :
    Filter.meets a b = true ↔ ∃ i, a.getLsbD i = true ∧ b.getLsbD i = true := by
  rw [Filter.meets_iff]
  constructor
  · intro hne
    by_contra hno
    refine hne (BitVec.eq_of_getLsbD_eq fun i _ => ?_)
    show _ = (0#32).getLsbD i
    rw [BitVec.getLsbD_and, BitVec.getLsbD_zero]
    by_contra hbit
    obtain ⟨ha, hb⟩ := Bool.and_eq_true_iff.mp (Bool.eq_true_of_not_eq_false hbit)
    exact hno ⟨i, ha, hb⟩
  · rintro ⟨i, ha, hb⟩ hzero
    have hbit : (a &&& b).getLsbD i = true := by rw [BitVec.getLsbD_and, ha, hb, Bool.and_self]
    rw [hzero] at hbit
    exact absurd ((BitVec.getLsbD_zero (w := 32)).symm.trans hbit) (by simp)

/-- The filter of one bit meets the filters that have it. -/
theorem Filter.meets_twoPow {a : Filter} {i : Nat} (h : a.getLsbD i = true) (b : Filter) :
    Filter.meets (BitVec.twoPow 32 i) b = true ↔ b.getLsbD i = true := by
  have hi : i < 32 := BitVec.lt_of_getLsbD h
  rw [Filter.meets_iff_bit]
  constructor
  · rintro ⟨j, hj, hb⟩
    have hij : i = j := by simpa [hi] using hj
    exact hij ▸ hb
  · intro hb
    exact ⟨i, by simp [hi], hb⟩

/-! ## What the cache holds -/

/-- `LL_FATAL` is the least level. -/
theorem LogLevel.fatal_le (level : LogLevel) : .fatal ≤ level := by
  show LogLevel.val .fatal ≤ level.val
  exact Nat.zero_le _

/-- A bound on where the loop starts and on every handler bounds the gathered level. -/
theorem gather_level_le {bound : LogLevel} (ps : List Nat) (acc : LogLevel × Filter)
    (hacc : acc.1 ≤ bound) (hps : ∀ p ∈ ps, (e.object p).level ≤ bound) :
    (ps.foldl e.gather acc).1 ≤ bound := by
  induction ps generalizing acc with
  | nil => exact hacc
  | cons q ps ih =>
    rw [List.foldl_cons]
    refine ih _ ?_ fun p hp => hps p (List.mem_cons_of_mem _ hp)
    unfold LogEngine.gather
    split
    next => exact hps q (List.mem_cons_self ..)
    next => exact hacc

/-- The cache is what `UpdateLevelAndFilter` computes. -/
def Gathered (e : LogEngine) : Prop :=
  (e.currentLevel, e.currentFilter) = e.handlers.foldl e.gather (.fatal, 0)

theorem Gathered.level (h : Gathered e) :
    e.currentLevel = (e.handlers.foldl e.gather (.fatal, 0)).1 := congrArg Prod.fst h

theorem Gathered.filter (h : Gathered e) :
    e.currentFilter = (e.handlers.foldl e.gather (.fatal, 0)).2 := congrArg Prod.snd h

/-- The cache is above every attached handler. -/
theorem Gathered.le (h : Gathered e) {p : Nat} (hp : p ∈ e.handlers) :
    (e.object p).level ≤ e.currentLevel := by
  rw [h.level]
  exact (gather_level e.handlers (.fatal, 0)).2 p hp

/-- The cache has the filter bits of the attached handlers, and no others. -/
theorem Gathered.meets (h : Gathered e) (f : Filter) :
    Filter.meets f e.currentFilter = true ↔
      ∃ p ∈ e.handlers, Filter.meets f (e.object p).filter = true := by
  rw [h.filter, gather_meets, Filter.meets_zero]
  simp

/-! ## Exactness -/

/-- What is relevant, some attached handler wants. -/
def LogEngine.Exact (e : LogEngine) : Prop :=
  ∀ level filter, e.isRelevant level filter = true → e.Wanted level filter

/-- Every filter bit of an attached handler is also a filter bit of an attached
handler of the greatest level. -/
def LogEngine.Topped (e : LogEngine) : Prop :=
  ∀ p ∈ e.handlers, ∀ i, (e.object p).filter.getLsbD i = true →
    ∃ q ∈ e.handlers, (∀ r ∈ e.handlers, (e.object r).level ≤ (e.object q).level) ∧
      (e.object q).filter.getLsbD i = true

/-- A summary of maximum and union is exact when, and only when, the maximum is
reached in every part of the union. -/
theorem exact_iff_topped (h : Gathered e) : e.Exact ↔ e.Topped := by
  constructor
  · intro hexact p hp i hi
    -- the query that tells a bit from the level: this bit alone, at the cached level
    have hmeets : Filter.meets (BitVec.twoPow 32 i) e.currentFilter = true :=
      (h.meets _).mpr ⟨p, hp, (Filter.meets_twoPow hi _).mpr hi⟩
    obtain ⟨q, hq, hlevel, hbit⟩ := hexact _ _ (isRelevant_iff.mpr ⟨le_refl _, hmeets⟩)
    exact ⟨q, hq, fun r hr => le_trans (h.le hr) hlevel, (Filter.meets_twoPow hi _).mp hbit⟩
  · intro htopped level filter hrelevant
    obtain ⟨hlevel, hmeets⟩ := isRelevant_iff.mp hrelevant
    obtain ⟨p, hp, hcommon⟩ := (h.meets filter).mp hmeets
    obtain ⟨i, hfilter, hi⟩ := Filter.meets_iff_bit.mp hcommon
    obtain ⟨q, hq, htop, hbit⟩ := htopped p hp i hi
    have hmax : e.currentLevel ≤ (e.object q).level := by
      rw [h.level]
      exact gather_level_le _ _ (LogLevel.fatal_le _) htop
    exact ⟨q, hq, le_trans hlevel hmax, Filter.meets_iff_bit.mpr ⟨i, hfilter, hbit⟩⟩

/-! ## Histories -/

/-- The operation does not change the level of an attached handler. -/
def LevelsKept (e : LogEngine) : Op → Prop
  | .setLevel p _ => p ∉ e.handlers
  | _ => True

instance (e : LogEngine) (op : Op) : Decidable (LevelsKept e op) :=
  match op with
  | .setLevel p _ => inferInstanceAs (Decidable (p ∉ e.handlers))
  | .addHandler _ _ _ => inferInstanceAs (Decidable True)
  | .statement _ _ _ _ => inferInstanceAs (Decidable True)

/-- A statement leaves the cache and the handlers alone. -/
theorem gathered_statement (h : Gathered e) (level : LogLevel) (filter : Filter) (buf : String)
    (now : Int) : Gathered (e.statement level filter buf now) := by
  obtain ⟨submitted, heq⟩ := statement_eq (e := e) level filter buf now
  rw [heq]
  exact h

/-- The level of a handler that is not attached does not count. -/
theorem gathered_setLevel (h : Gathered e) {p : Nat} (hp : p ∉ e.handlers) (level : LogLevel) :
    Gathered (e.setLevel p level) := by
  have hsame : ∀ q ∈ e.handlers, (e.setLevel p level).object q = e.object q := by
    intro q hq
    have hne : q ≠ p := fun heq => hp (heq ▸ hq)
    simp [LogEngine.setLevel, hne]
  have hfold : ∀ ps : List Nat, (∀ q ∈ ps, q ∈ e.handlers) → ∀ acc,
      ps.foldl (e.setLevel p level).gather acc = ps.foldl e.gather acc := by
    intro ps hps
    induction ps with
    | nil => exact fun _ => rfl
    | cons q ps ih =>
      intro acc
      rw [List.foldl_cons, List.foldl_cons, ih fun r hr => hps r (List.mem_cons_of_mem _ hr)]
      congr 1
      unfold LogEngine.gather
      rw [hsame q (hps q (List.mem_cons_self ..))]
  show (e.currentLevel, e.currentFilter) = e.handlers.foldl (e.setLevel p level).gather (.fatal, 0)
  rw [hfold e.handlers (fun _ hq => hq)]
  exact h

/-- The cache of every history that leaves the levels of attached handlers alone
is what the loop computes. -/
theorem reach_gathered (h : (engine object).Reach LevelsKept e) : Gathered e := by
  refine h.invariant ?_ ?_
  · rintro e rfl
    rfl
  · intro e op e' _ hkept hnext hgathered
    obtain rfl := Option.some.inj hnext
    cases op with
    | addHandler p now now' =>
      unfold LogEngine.apply LogEngine.addHandler LogEngine.updateLevelAndFilter
      exact gathered_statement (by rfl) _ _ _ _
    | setLevel p level => exact gathered_setLevel hgathered hkept level
    | statement level filter buf now => exact gathered_statement hgathered level filter buf now

/-- **Over-permissive or not.** After every history that leaves the levels of
attached handlers alone, `IsRelevant` is true only for what some attached
handler wants if and only if every filter bit of an attached handler is also
one of an attached handler of the greatest level. -/
theorem relevance_exact (h : (engine object).Reach LevelsKept e) :
    (∀ level filter, e.isRelevant level filter = true → e.Wanted level filter) ↔
      ∀ p ∈ e.handlers, ∀ i, (e.object p).filter.getLsbD i = true →
        ∃ q ∈ e.handlers, (∀ r ∈ e.handlers, (e.object r).level ≤ (e.object q).level) ∧
          (e.object q).filter.getLsbD i = true :=
  exact_iff_topped (reach_gathered h)

/-- A console for notices of any kind, and a log that traces file-system
operations. -/
def consoleAndIo (p : Nat) : LogEventHandler :=
  if p = 0 then ⟨"console", .notice, LogAbout.general.bit ||| LogAbout.io.bit⟩
  else ⟨"io", .trace4, LogAbout.io.bit⟩

/-- A console for notices of file-system operations, and a log that traces everything. -/
def consoleAndAll (p : Nat) : LogEventHandler :=
  if p = 0 then ⟨"console", .notice, LogAbout.io.bit⟩
  else ⟨"all", .trace4, LogAbout.general.bit ||| LogAbout.io.bit⟩

/-- What the console wants the log wants too: with both attached, what is relevant is
wanted. -/
theorem relevance_exact_two : ∃ e, (engine consoleAndAll).Reach LevelsKept e ∧
    e.handlers = [0, 1] ∧ e.isRelevant .trace4 LogAbout.general.bit = true ∧
    ∀ level filter, e.isRelevant level filter = true → e.Wanted level filter := by
  have hrun : ∃ e, (engine consoleAndAll).guardedRun LevelsKept { object := consoleAndAll }
      [.addHandler 0 0 0, .addHandler 1 1 1] = some e ∧
      e.isRelevant .trace4 LogAbout.general.bit = true ∧
      e.handlers = [0, 1] ∧ e.object = consoleAndAll := ⟨_, rfl, by decide, rfl, rfl⟩
  obtain ⟨e, he, hrelevant, hhandlers, hobject⟩ := hrun
  have hreach := Lts.reach_of_guardedRun (.start rfl) he
  -- the log has the greatest level, and every bit of the console
  have hgreatest : ∀ r ∈ e.handlers, (e.object r).level ≤ (e.object 1).level := by
    rw [hhandlers, hobject]
    decide
  have hbits : ∀ i, (consoleAndAll 0).filter.getLsbD i = true →
      (consoleAndAll 1).filter.getLsbD i = true := by
    intro i hi
    have hor : (consoleAndAll 1).filter = LogAbout.general.bit ||| (consoleAndAll 0).filter := rfl
    rw [hor, BitVec.getLsbD_or, hi, Bool.or_true]
  refine ⟨e, hreach, hhandlers, hrelevant, (relevance_exact hreach).mpr fun p hp i hi =>
    ⟨1, by simp [hhandlers], hgreatest, ?_⟩⟩
  rw [hhandlers] at hp
  rw [hobject] at hi ⊢
  rcases List.mem_cons.mp hp with rfl | hp
  · exact hbits i hi
  · rwa [List.mem_singleton.mp hp] at hi

/-- With both attached, a general trace message is relevant, and neither of them
wants it. -/
theorem trace_nobody_wants : ∃ e, (engine consoleAndIo).Reach LevelsKept e ∧
    e.isRelevant .trace4 LogAbout.general.bit = true ∧
    ¬e.Wanted .trace4 LogAbout.general.bit := by
  have hrun : ∃ e, (engine consoleAndIo).guardedRun LevelsKept { object := consoleAndIo }
      [.addHandler 0 0 0, .addHandler 1 1 1] = some e ∧
      e.isRelevant .trace4 LogAbout.general.bit = true ∧
      e.handlers = [0, 1] ∧ e.object = consoleAndIo := ⟨_, rfl, by decide, rfl, rfl⟩
  obtain ⟨e, he, hrelevant, hhandlers, hobject⟩ := hrun
  refine ⟨e, Lts.reach_of_guardedRun (.start rfl) he, hrelevant, ?_⟩
  rintro ⟨p, hp, hlevel, hmeets⟩
  rw [hhandlers] at hp
  rw [hobject] at hlevel hmeets
  rcases List.mem_cons.mp hp with rfl | hp
  · exact absurd hlevel (by decide)
  · rw [List.mem_singleton.mp hp] at hmeets
    exact absurd hmeets (by decide)

end Warlib.Logging
