import Warlib.Logging.Filtering

/-!
# The cache behind `LOG_*`

A `LOG_*` statement asks `IsRelevant` before it builds an event, and
`IsRelevant` reads a cache: the greatest level of the attached handlers and
the union of their filters. `UpdateLevelAndFilter` computes it
(`gather_level`, `gather_meets`), and `AddHandler` calls it; `SetLevel`
changes a level and does not.

`Cached` is what the cache must cover. `Within` says of one operation that it
does not raise an attached handler's level above the cache; it is the guard of
the histories in which no wanted event is dropped, and it is exact: the first
operation that breaks it leaves an event that some handler wants and
`IsRelevant` refuses.
-/

namespace Warlib.Logging

open Warlib.Machine

variable {object : Nat → LogEventHandler} {ok : LogEngine → Op → Prop} {e : LogEngine}

/-! ## What the macro must let through -/

/-- Some attached handler wants events of this level and filter. -/
def LogEngine.Wanted (e : LogEngine) (level : LogLevel) (filter : Filter) : Prop :=
  ∃ p ∈ e.handlers, level ≤ (e.object p).level ∧ Filter.meets filter (e.object p).filter = true

/-- Whatever some handler wants is relevant. -/
def LogEngine.Sees (e : LogEngine) : Prop :=
  ∀ level filter, e.Wanted level filter → e.isRelevant level filter = true

/-- The cached filter covers the filters of the attached handlers. -/
def LogEngine.Covers (e : LogEngine) : Prop :=
  ∀ p ∈ e.handlers, ∀ f, Filter.meets f (e.object p).filter = true →
    Filter.meets f e.currentFilter = true

/-- The cached level covers the attached handlers that want anything at all. -/
def LogEngine.Reaches (e : LogEngine) : Prop :=
  ∀ p ∈ e.handlers, (e.object p).filter ≠ 0 → (e.object p).level ≤ e.currentLevel

/-- The cache is what it should be. -/
structure Cached (e : LogEngine) : Prop where
  covers : e.Covers
  reaches : e.Reaches

theorem isRelevant_iff {level : LogLevel} {filter : Filter} :
    e.isRelevant level filter = true ↔
      level ≤ e.currentLevel ∧ Filter.meets filter e.currentFilter = true := by
  rw [LogEngine.isRelevant, Bool.and_eq_true, decide_eq_true_eq]

/-- As far as the filters go the cache is right; then what is seen is a matter of
the levels. -/
theorem sees_iff_reaches (h : e.Covers) : e.Sees ↔ e.Reaches := by
  constructor
  · intro hsees p hp hne
    have hwanted : e.Wanted (e.object p).level (e.object p).filter :=
      ⟨p, hp, le_refl _, Filter.meets_self hne⟩
    exact (isRelevant_iff.mp (hsees _ _ hwanted)).1
  · intro hreaches level filter hwanted
    obtain ⟨p, hp, hlevel, hmeets⟩ := hwanted
    have hne : (e.object p).filter ≠ 0 := by
      intro hzero
      rw [hzero, Filter.meets_zero] at hmeets
      exact absurd hmeets (by simp)
    exact isRelevant_iff.mpr ⟨le_trans hlevel (hreaches p hp hne), h p hp filter hmeets⟩

/-! ## The loop of `UpdateLevelAndFilter` -/

/-- The gathered level is above where the loop starts and above every handler. -/
theorem gather_level (ps : List Nat) (acc : LogLevel × Filter) :
    acc.1 ≤ (ps.foldl e.gather acc).1 ∧
      ∀ p ∈ ps, (e.object p).level ≤ (ps.foldl e.gather acc).1 := by
  induction ps generalizing acc with
  | nil => exact ⟨le_refl _, fun p hp => absurd hp (by simp)⟩
  | cons q ps ih =>
    rw [List.foldl_cons]
    obtain ⟨hacc, hall⟩ := ih (e.gather acc q)
    have hstep : acc.1 ≤ (e.gather acc q).1 ∧ (e.object q).level ≤ (e.gather acc q).1 := by
      unfold LogEngine.gather
      by_cases h : (e.object q).level > acc.1
      · rw [if_pos h]
        exact ⟨le_of_lt h, le_refl _⟩
      · rw [if_neg h]
        exact ⟨le_refl _, le_of_not_gt h⟩
    refine ⟨le_trans hstep.1 hacc, fun p hp => ?_⟩
    rcases List.mem_cons.mp hp with rfl | hp
    · exact le_trans hstep.2 hacc
    · exact hall p hp

/-- The gathered filter is the union. -/
theorem gather_meets (f : Filter) (ps : List Nat) (acc : LogLevel × Filter) :
    Filter.meets f (ps.foldl e.gather acc).2 = true ↔
      Filter.meets f acc.2 = true ∨ ∃ p ∈ ps, Filter.meets f (e.object p).filter = true := by
  induction ps generalizing acc with
  | nil => simp
  | cons q ps ih =>
    rw [List.foldl_cons, ih, LogEngine.gather, Filter.meets_or, or_assoc]
    simp

/-! ## What the operations do to the cache -/

/-- A statement changes nothing but what was submitted. -/
theorem statement_eq (level : LogLevel) (filter : Filter) (buf : String) (now : Int) :
    ∃ submitted, e.statement level filter buf now = { e with submitted } := by
  unfold LogEngine.statement LogEngine.submit
  split
  · exact ⟨_, doSubmit_eq e _ now⟩
  · exact ⟨e.submitted, rfl⟩

/-- The cache does not depend on what was submitted. -/
theorem Cached.submitted (h : Cached e) (submitted : List (Nat × SubmitInfo)) :
    Cached { e with submitted } := ⟨h.covers, h.reaches⟩

theorem cached_statement (h : Cached e) (level : LogLevel) (filter : Filter) (buf : String)
    (now : Int) : Cached (e.statement level filter buf now) := by
  obtain ⟨submitted, heq⟩ := statement_eq (e := e) level filter buf now
  rw [heq]
  exact h.submitted submitted

/-- `UpdateLevelAndFilter` makes the cache right, whatever it was. -/
theorem cached_update (e : LogEngine) (now : Int) : Cached (e.updateLevelAndFilter now) := by
  unfold LogEngine.updateLevelAndFilter
  refine cached_statement ⟨?_, ?_⟩ _ _ _ _
  · intro p hp f hmeets
    exact (gather_meets f e.handlers (.fatal, 0)).mpr (Or.inr ⟨p, hp, hmeets⟩)
  · intro p hp _
    exact (gather_level e.handlers (.fatal, 0)).2 p hp

theorem cached_addHandler (e : LogEngine) (p : Nat) (now now' : Int) :
    Cached (e.addHandler p now now') := cached_update _ now'

theorem setLevel_filter (e : LogEngine) (p q : Nat) (level : LogLevel) :
    ((e.setLevel p level).object q).filter = (e.object q).filter := by
  unfold LogEngine.setLevel
  by_cases h : q = p
  · rw [h]
    simp
  · simp [h]

theorem setLevel_level (e : LogEngine) (p q : Nat) (level : LogLevel) :
    ((e.setLevel p level).object q).level = if q = p then level else (e.object q).level := by
  unfold LogEngine.setLevel
  by_cases h : q = p
  · simp [h]
  · simp [h]

/-- `SetLevel` does not touch a filter. -/
theorem covers_setLevel (h : e.Covers) (p : Nat) (level : LogLevel) :
    (e.setLevel p level).Covers := by
  intro q hq f hmeets
  rw [setLevel_filter] at hmeets
  exact h q hq f hmeets

/-! ## Histories -/

/-- The operation does not raise an attached handler's level above the cached
one, or the handler's filter is empty. -/
def Within (e : LogEngine) : Op → Prop
  | .setLevel p level => p ∈ e.handlers → (e.object p).filter ≠ 0 → level ≤ e.currentLevel
  | _ => True

instance (e : LogEngine) (op : Op) : Decidable (Within e op) :=
  match op with
  | .setLevel p level => inferInstanceAs
      (Decidable (p ∈ e.handlers → (e.object p).filter ≠ 0 → level ≤ e.currentLevel))
  | .addHandler _ _ _ => inferInstanceAs (Decidable True)
  | .statement _ _ _ _ => inferInstanceAs (Decidable True)

/-- Within the cache, and only there, `SetLevel` leaves the cache right. -/
theorem reaches_setLevel (h : Cached e) (p : Nat) (level : LogLevel) :
    (e.setLevel p level).Reaches ↔ Within e (.setLevel p level) := by
  constructor
  · intro hreaches hp hne
    have hle := hreaches p hp (by rw [setLevel_filter]; exact hne)
    rw [setLevel_level, if_pos rfl] at hle
    exact hle
  · intro hwithin q hq hne
    rw [setLevel_filter] at hne
    rw [setLevel_level]
    by_cases hqp : q = p
    · subst hqp
      rw [if_pos rfl]
      exact hwithin hq hne
    · rw [if_neg hqp]
      exact h.reaches q hq hne

/-- One operation, from a right cache. -/
theorem apply_sees (h : Cached e) (op : Op) :
    ((e.apply op).Sees ↔ Within e op) ∧ (Within e op → Cached (e.apply op)) := by
  cases op with
  | addHandler p now now' =>
    have hcached := cached_addHandler e p now now'
    exact ⟨iff_of_true ((sees_iff_reaches hcached.covers).mpr hcached.reaches) trivial,
      fun _ => hcached⟩
  | setLevel p level =>
    have hcovers := covers_setLevel h.covers p level
    have hiff := reaches_setLevel h p level
    exact ⟨(sees_iff_reaches hcovers).trans hiff, fun hwithin => ⟨hcovers, hiff.mpr hwithin⟩⟩
  | statement level filter buf now =>
    have hcached := cached_statement h level filter buf now
    exact ⟨iff_of_true ((sees_iff_reaches hcached.covers).mpr hcached.reaches) trivial,
      fun _ => hcached⟩

/-- The cache of every history within it is right. -/
theorem reach_cached (h : (engine object).Reach Within e) : Cached e := by
  refine h.invariant ?_ ?_
  · rintro e rfl
    exact ⟨fun p hp => absurd hp (by simp), fun p hp => absurd hp (by simp)⟩
  · intro e op e' _ hwithin hnext hcached
    obtain rfl := Option.some.inj hnext
    exact (apply_sees hcached op).2 hwithin

/-- **The fast path.** In every history in which no `SetLevel` raises an attached
handler's level above the cached one, whatever some attached handler wants
is relevant, and a `LOG_*` statement with it reaches `DoSubmit`; and the
next operation keeps it so if and only if it meets the condition too. -/
theorem fast_path (h : (engine object).Reach Within e) :
    (∀ level filter, e.Wanted level filter → e.isRelevant level filter = true ∧
      ∀ buf now, e.statement level filter buf now = e.doSubmit ⟨level, filter, buf⟩ now) ∧
    ∀ op, (e.apply op).Sees ↔ Within e op := by
  have hcached := reach_cached h
  refine ⟨fun level filter hwanted => ?_, fun op => (apply_sees hcached op).1⟩
  have hrelevant := (sees_iff_reaches hcached.covers).mpr hcached.reaches level filter hwanted
  refine ⟨hrelevant, fun buf now => ?_⟩
  rw [LogEngine.statement, if_pos hrelevant]
  rfl

/-- A console for notices and a log for traces, both for general messages. -/
def consoleAndTrace (p : Nat) : LogEventHandler :=
  ⟨"log", if p = 0 then .notice else .trace1, LogAbout.general.bit⟩

/-- The level of the second is lowered, and that of the first raised as far as the
second's had been: a debug statement reaches `DoSubmit`. -/
theorem fast_path_lowered : ∃ e, (engine consoleAndTrace).Reach Within e ∧
    e.isRelevant .debug LogAbout.general.bit = true := by
  let ops : List Op :=
    [.addHandler 0 0 0, .addHandler 1 1 1, .setLevel 1 .error, .setLevel 0 .debug]
  have hrun : ∃ e, (engine consoleAndTrace).guardedRun Within { object := consoleAndTrace } ops =
      some e ∧ e.Wanted .debug LogAbout.general.bit :=
    ⟨_, rfl, 0, by decide, by decide, by decide⟩
  obtain ⟨e, he, hwanted⟩ := hrun
  have hreach := Lts.reach_of_guardedRun (.start rfl) he
  exact ⟨e, hreach, ((fast_path hreach).1 _ _ hwanted).1⟩

/-- The only handler's level is raised from notice to debug: it wants debug
messages now, and the macro goes on dropping them. -/
theorem raised_level_dropped : ∃ e,
    (engine fun _ => ⟨"console", .notice, LogAbout.general.bit⟩).Reach (fun _ _ => True) e ∧
      ¬e.Sees := by
  let ops : List Op := [.addHandler 0 0 0, .setLevel 0 .debug]
  have hrun : ∃ e, (engine fun _ => ⟨"console", .notice, LogAbout.general.bit⟩).guardedRun
      (fun _ _ => True) { object := fun _ => ⟨"console", .notice, LogAbout.general.bit⟩ } ops =
      some e ∧ e.Wanted .debug LogAbout.general.bit ∧
      e.isRelevant .debug LogAbout.general.bit = false :=
    ⟨_, rfl, ⟨0, by decide, by decide, by decide⟩, by decide⟩
  obtain ⟨e, he, hwanted, hdropped⟩ := hrun
  refine ⟨e, Lts.reach_of_guardedRun (.start rfl) he, fun hsees => ?_⟩
  exact absurd ((hsees _ _ hwanted).symm.trans hdropped) (by simp)

end Warlib.Logging
