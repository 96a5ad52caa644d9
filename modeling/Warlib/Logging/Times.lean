import Warlib.Logging.Locking

/-!
# The times of the records

`DoSubmit` reads the clock when it makes `si`, and takes the lock after that.
Events come to the handlers in the order of the lock, which is another one when
a thread that has its time is overtaken by one whose time is later.

`InTurn` excludes just these steps. Under it, and with a clock that never goes
back, whatever waits for the lock is not earlier than what a handler has been
told, or is being told, of (`Timed`); a step that it excludes leaves an event
behind that is (`times_in_order`).
-/

namespace Warlib.Logging

open Warlib.Machine

variable {set : Setting} {n i p : Nat} {a : Act} {m m' : Shared} {f : Frame} {nx : Next Frame Empty}
  {ok : State → Step → Prop} {s s' : State} {l : Step} {si : SubmitInfo}

/-! ## Times -/

/-- The event that has its time and waits for the lock. -/
def Frame.timed? : Frame → Option SubmitInfo
  | .doSubmit (.lock si) _ => some si
  | _ => none

/-- The event the handlers are being told of. -/
def Frame.delivering? : Frame → Option SubmitInfo
  | .doSubmit (.loop si _) _ => some si
  | _ => none

/-- The events that wait for the lock. -/
def State.waiting (s : State) : List SubmitInfo := (framesOf s.threads).filterMap Frame.timed?

/-- The events the handlers are being told of. -/
def State.delivering (s : State) : List SubmitInfo :=
  (framesOf s.threads).filterMap Frame.delivering?

/-- The event thread `i` is about to take the lock for. -/
def State.locking? (s : State) (i : Nat) : Option SubmitInfo :=
  s.threads[i]?.bind fun th => th.frames.head?.bind Frame.timed?

/-- `si` is later than `si'`, and some attached handler wants both. -/
def overtakes (e : LogEngine) (si si' : SubmitInfo) : Bool :=
  decide (si'.time < si.time) && e.handlers.any fun p =>
    decide (si.level ≤ (e.object p).level) && decide (si'.level ≤ (e.object p).level)

/-- `DoSubmit` does not take the lock for an event while an earlier one for the same
handler waits. -/
def InTurn (s : State) : Step → Prop
  | .thread i _ => ∀ si ∈ s.locking? i, ∀ si' ∈ s.waiting, overtakes s.mem.engine si si' = false
  | .env _ => True

instance (s : State) (l : Step) : Decidable (InTurn s l) :=
  match l with
  | .thread i _ => inferInstanceAs (Decidable (∀ si ∈ s.locking? i, ∀ si' ∈ s.waiting,
      overtakes s.mem.engine si si' = false))
  | .env _ => inferInstanceAs (Decidable True)

/-- The clock does not go back. -/
def ClockForward (s : State) : Step → Prop
  | .thread _ _ => True
  | .env now => s.mem.clock ≤ now

instance (s : State) (l : Step) : Decidable (ClockForward s l) :=
  match l with
  | .thread _ _ => inferInstanceAs (Decidable True)
  | .env now => inferInstanceAs (Decidable (s.mem.clock ≤ now))

/-- The time of an event the object `p` is told of. -/
def Event.timeTo? (p : Nat) : Event → Option Int
  | .began entry => if entry.p = p then some entry.info.time else none
  | _ => none

/-- The times of the events the object `p` has been told of, in this order. -/
def Shared.times (m : Shared) (p : Nat) : List Int := m.trace.filterMap (Event.timeTo? p)

/-! ## One step -/

theorem Frame.not_both (htimed : f.timed? = some si) : f.delivering? = none := by
  cases f with
  | doSubmit pc id => cases pc <;> first | rfl | exact absurd htimed (by simp [Frame.timed?])
  | _ => rfl

/-- The handlers are told inside the critical section. -/
theorem Frame.holds_of_delivering (h : f.delivering? = some si) : f.holds = 1 := by
  unfold Frame.delivering? at h
  split at h
  next => rfl
  next => exact absurd h (by simp)

/-- An event gets the time the clock shows. -/
theorem Move.timed (h : Move set i m a f m' nx) {g : Frame} (hg : g ∈ nx.frames)
    (hsi : g.timed? = some si) : si.time = m.clock := by
  cases h with
  | doSubmit_build log id =>
    rw [List.mem_singleton.mp hg] at hsi
    rw [← Option.some.inj hsi]
    rfl
  | statement_over | doSubmit_unlock id | handler_end entry | add_done p =>
    exact absurd hg List.not_mem_nil
  | client_submit log | client_statement level filter buf | client_addHandler p
  | doSubmit_deliver si k p id hp hlevel | add_added p buf | add_update p =>
    rcases List.mem_cons.mp hg with rfl | hg
    · exact absurd hsi (by simp [Frame.timed?])
    · rw [List.mem_singleton.mp hg] at hsi
      exact absurd hsi (by simp [Frame.timed?])
  | _ =>
    rw [List.mem_singleton.mp hg] at hsi
    exact absurd hsi (by simp [Frame.timed?])

/-- The handlers are told of the event the lock was taken for. -/
theorem Move.delivering (h : Move set i m a f m' nx) {g : Frame} (hg : g ∈ nx.frames)
    (hsi : g.delivering? = some si) : f.timed? = some si ∨ f.delivering? = some si := by
  cases h with
  | doSubmit_lock si' id hfree =>
    rw [List.mem_singleton.mp hg] at hsi
    exact Or.inl hsi
  | doSubmit_skip si' k p id hp hlevel =>
    rw [List.mem_singleton.mp hg] at hsi
    exact Or.inr hsi
  | doSubmit_deliver si' k p id hp hlevel =>
    rcases List.mem_cons.mp hg with rfl | hg
    · exact absurd hsi (by simp [Frame.delivering?])
    · rw [List.mem_singleton.mp hg] at hsi
      exact Or.inr hsi
  | statement_over | doSubmit_unlock id | handler_end entry | add_done p =>
    exact absurd hg List.not_mem_nil
  | client_submit log | client_statement level filter buf | client_addHandler p
  | add_added p buf | add_update p =>
    rcases List.mem_cons.mp hg with rfl | hg
    · exact absurd hsi (by simp [Frame.delivering?])
    · rw [List.mem_singleton.mp hg] at hsi
      exact absurd hsi (by simp [Frame.delivering?])
  | _ =>
    rw [List.mem_singleton.mp hg] at hsi
    exact absurd hsi (by simp [Frame.delivering?])

/-- A step tells an attached handler of the event in hand, which it wants, or none. -/
theorem Move.tells (h : Move set i m a f m' nx) :
    (∀ q, m'.times q = m.times q) ∨ ∃ p si, f.delivering? = some si ∧
      p ∈ m.engine.handlers ∧ si.level ≤ (m.engine.object p).level ∧
      ∀ q, m'.times q = m.times q ++ if p = q then [si.time] else [] := by
  cases h with
  | doSubmit_deliver si k p id hp hlevel =>
    refine Or.inr ⟨p, si, rfl, List.mem_of_getElem? hp, hlevel, fun q => ?_⟩
    by_cases hq : p = q <;> simp [Shared.times, Event.timeTo?, hq]
  | client_submit log | statement_text buf | doSubmit_lock si id hfree | handler_end entry
  | add_push p => exact Or.inl fun q => by simp [Shared.times, submitCall, Event.timeTo?]
  | _ => exact Or.inl fun q => rfl

/-- A step attaches a handler in a critical section, or none. -/
theorem Move.attaches (h : Move set i m a f m' nx) :
    m'.engine.handlers = m.engine.handlers ∨
      ∃ p, f = .addHandler .push p ∧ m'.engine.handlers = m.engine.handlers ++ [p] := by
  cases h with
  | add_push p => exact Or.inr ⟨p, rfl, rfl⟩
  | _ => exact Or.inl rfl

theorem Move.clock (h : Move set i m a f m' nx) : m'.clock = m.clock := by
  cases h <;> rfl

/-! ## The invariant -/

/-- What the object `p` has been told of is in the order of time, and nothing that is
still to come to it is earlier. -/
structure Timed (set : Setting) (p : Nat) (s : State) : Prop where
  sorted : (s.mem.times p).Pairwise (· ≤ ·)
  attached : s.mem.times p ≠ [] → p ∈ s.mem.engine.handlers
  past : ∀ t ∈ s.mem.times p, t ≤ s.mem.clock
  /-- What the handlers are being told of is not earlier than what they know. -/
  inHand : ∀ g ∈ framesOf s.threads, ∀ si, g.delivering? = some si →
    si.time ≤ s.mem.clock ∧
      (si.level ≤ (set.object p).level → ∀ t ∈ s.mem.times p, t ≤ si.time)
  /-- What waits for the lock is not earlier than either. -/
  waiting : ∀ g ∈ framesOf s.threads, ∀ si, g.timed? = some si →
    si.time ≤ s.mem.clock ∧
      (p ∈ s.mem.engine.handlers → si.level ≤ (set.object p).level →
        (∀ t ∈ s.mem.times p, t ≤ si.time) ∧
        ∀ g' ∈ framesOf s.threads, ∀ si', g'.delivering? = some si' →
          si'.level ≤ (set.object p).level → si'.time ≤ si.time)

theorem timed_initial (set : Setting) (n p : Nat) : Timed set p (initial set n) := by
  have hframes : ∀ g ∈ framesOf (initial set n).threads, g = .client := by
    intro g hg
    obtain ⟨i, th, hth, hg⟩ := mem_framesOf.mp hg
    rw [initial_thread hth] at hg
    exact List.mem_singleton.mp hg
  refine ⟨List.Pairwise.nil, fun hne => absurd rfl hne, fun t ht => absurd ht List.not_mem_nil,
    fun g hg si hsi => ?_, fun g hg si hsi => ?_⟩
  · rw [hframes g hg] at hsi
    exact absurd hsi (by simp [Frame.delivering?])
  · rw [hframes g hg] at hsi
    exact absurd hsi (by simp [Frame.timed?])

/-- The clock goes on. -/
theorem Timed.clock (h : Timed set p s) {now : Int} (hnow : s.mem.clock ≤ now) :
    Timed set p ⟨{ s.mem with clock := now }, s.threads⟩ where
  sorted := h.sorted
  attached := h.attached
  past t ht := Int.le_trans (h.past t ht) hnow
  inHand g hg si hsi := by
    obtain ⟨hclock, hlater⟩ := h.inHand g hg si hsi
    exact ⟨Int.le_trans hclock hnow, hlater⟩
  waiting g hg si hsi := by
    obtain ⟨hclock, hlater⟩ := h.waiting g hg si hsi
    exact ⟨Int.le_trans hclock hnow, hlater⟩

/-- Nobody is told of anything else while a handler is told. -/
theorem delivering_alone (h : (machine set n).Reach ok s) {ctl : Ctl Empty} {rest : List Frame}
    (hth : s.threads[i]? = some ⟨ctl, f :: rest⟩) (hf : f.holds = 1) {g : Frame}
    (hg : g ∈ framesOf s.threads) (hsi : g.delivering? = some si) : g = f := by
  have hholds := Frame.holds_of_delivering hsi
  exact (reach_owned h).alone hth (by omega) hg (by omega)

/-- What `p` is told of in a step, if anything, is the event in hand. -/
theorem Move.told (h : Move set i m a f m' nx) (hobject : m.engine.object = set.object) {t : Int}
    (ht : t ∈ m'.times p) :
    t ∈ m.times p ∨ ∃ si, f.delivering? = some si ∧ si.level ≤ (set.object p).level ∧
      p ∈ m.engine.handlers ∧ t = si.time := by
  rcases h.tells with hsame | ⟨q, si, hsi, hq, hlevel, hmore⟩
  · rw [hsame] at ht
    exact Or.inl ht
  · rw [hmore] at ht
    rcases List.mem_append.mp ht with ht | ht
    · exact Or.inl ht
    · by_cases hqp : q = p
      · subst hqp
        rw [if_pos rfl] at ht
        rw [hobject] at hlevel
        exact Or.inr ⟨si, hsi, hlevel, hq, List.mem_singleton.mp ht⟩
      · rw [if_neg hqp] at ht
        exact absurd ht List.not_mem_nil

section Step

variable {ctl : Ctl Empty} {rest : List Frame}

theorem Timed.step_sorted (h : (machine set n).Reach ok s) (hI : Timed set p s)
    (hf : f ∈ framesOf s.threads) (hm : Move set i s.mem a f m nx) :
    (m.times p).Pairwise (· ≤ ·) := by
  rcases hm.tells with hsame | ⟨q, si, hsi, -, hlevel, hmore⟩
  · rw [hsame]
    exact hI.sorted
  · rw [hmore]
    by_cases hqp : q = p
    · subst hqp
      rw [reach_object h] at hlevel
      rw [if_pos rfl, List.pairwise_append]
      refine ⟨hI.sorted, List.pairwise_singleton _ _, fun t ht t' ht' => ?_⟩
      rw [List.mem_singleton.mp ht']
      exact (hI.inHand f hf si hsi).2 hlevel t ht
    · rw [if_neg hqp, List.append_nil]
      exact hI.sorted

theorem Timed.step_attached (h : (machine set n).Reach ok s) (hI : Timed set p s)
    (hm : Move set i s.mem a f m nx) (hne : m.times p ≠ []) : p ∈ m.engine.handlers := by
  obtain ⟨t, ht⟩ := List.exists_mem_of_ne_nil _ hne
  have hp : p ∈ s.mem.engine.handlers := by
    rcases hm.told (reach_object h) ht with ht | ⟨si, -, -, hp, -⟩
    · exact hI.attached (List.ne_nil_of_mem ht)
    · exact hp
  rcases hm.attaches with hsame | ⟨q, -, hmore⟩
  · rw [hsame]
    exact hp
  · rw [hmore]
    exact List.mem_append_left _ hp

theorem Timed.step_inHand (h : (machine set n).Reach ok s) (hI : Timed set p s)
    (hth : s.threads[i]? = some ⟨ctl, f :: rest⟩) (hm : Move set i s.mem a f m nx) {g : Frame}
    (hg : g ∈ framesOf (s.threads.set i (nx.resume rest))) (hsi : g.delivering? = some si) :
    si.time ≤ s.mem.clock ∧ (si.level ≤ (set.object p).level → ∀ t ∈ m.times p, t ≤ si.time) := by
  have hf : f ∈ framesOf s.threads := mem_framesOf.mpr ⟨i, _, hth, List.mem_cons_self ..⟩
  -- the event was in hand before, or the lock has just been taken for it
  have hfrom : f.timed? = some si ∨ ∃ g' ∈ framesOf s.threads, g'.delivering? = some si := by
    rcases mem_framesOf_set hth hg with hnew | hold
    · rcases hm.delivering hnew hsi with htaken | hkept
      · exact Or.inl htaken
      · exact Or.inr ⟨f, hf, hkept⟩
    · exact Or.inr ⟨g, hold, hsi⟩
  rcases hfrom with htaken | ⟨g', hg', hsi'⟩
  · obtain ⟨hclock, hlater⟩ := hI.waiting f hf si htaken
    refine ⟨hclock, fun hlevel t ht => ?_⟩
    rcases hm.told (reach_object h) ht with ht | ⟨si', hsi', -, -, -⟩
    · exact (hlater (hI.attached (List.ne_nil_of_mem ht)) hlevel).1 t ht
    · rw [Frame.not_both htaken] at hsi'
      exact absurd hsi' (by simp)
  · obtain ⟨hclock, hlater⟩ := hI.inHand g' hg' si hsi'
    refine ⟨hclock, fun hlevel t ht => ?_⟩
    rcases hm.told (reach_object h) ht with ht | ⟨si'', hsi'', -, -, rfl⟩
    · exact hlater hlevel t ht
    · obtain rfl := delivering_alone h hth (Frame.holds_of_delivering hsi'') hg' hsi'
      rw [hsi', Option.some.injEq] at hsi''
      rw [hsi'']

theorem Timed.step_waiting (h : (machine set n).Reach ok s) (hI : Timed set p s)
    (hth : s.threads[i]? = some ⟨ctl, f :: rest⟩) (hm : Move set i s.mem a f m nx)
    (hturn : InTurn s (.thread i a)) {g : Frame} (hg : g ∈ framesOf s.threads)
    (hsi : g.timed? = some si) (hp : p ∈ m.engine.handlers)
    (hlevel : si.level ≤ (set.object p).level) :
    (∀ t ∈ m.times p, t ≤ si.time) ∧
      ∀ g' ∈ framesOf (s.threads.set i (nx.resume rest)), ∀ si', g'.delivering? = some si' →
        si'.level ≤ (set.object p).level → si'.time ≤ si.time := by
  have hf : f ∈ framesOf s.threads := mem_framesOf.mpr ⟨i, _, hth, List.mem_cons_self ..⟩
  have hlater := (hI.waiting g hg si hsi).2
  by_cases hbefore : p ∈ s.mem.engine.handlers
  · obtain ⟨htold, hinHand⟩ := hlater hbefore hlevel
    refine ⟨fun t ht => ?_, fun g' hg' si' hsi' hlevel' => ?_⟩
    · rcases hm.told (reach_object h) ht with ht | ⟨si', hsi', hlevel', -, rfl⟩
      · exact htold t ht
      · exact hinHand f hf si' hsi' hlevel'
    · rcases mem_framesOf_set hth hg' with hnew | hold
      · rcases hm.delivering hnew hsi' with htaken | hkept
        · -- the lock has been taken: nothing earlier is left behind
          have hlocking : s.locking? i = some si' := by
            rw [State.locking?, hth]
            exact htaken
          have hwaits : si ∈ s.waiting := List.mem_filterMap.mpr ⟨g, hg, hsi⟩
          have hnot := hturn si' hlocking si hwaits
          unfold overtakes at hnot
          rw [Bool.and_eq_false_iff] at hnot
          rcases hnot with hnot | hnot
          · exact Int.not_lt.mp (of_decide_eq_false hnot)
          · rw [List.any_eq_false] at hnot
            have hboth := hnot p hbefore
            rw [reach_object h] at hboth
            simp [hlevel, hlevel'] at hboth
        · exact hinHand f hf si' hkept hlevel'
      · exact hinHand g' hold si' hsi' hlevel'
  · -- a handler has just been attached, and nobody delivers
    have hnone : s.mem.times p = [] := by
      by_contra hne
      exact hbefore (hI.attached hne)
    rcases hm.attaches with hsame | ⟨q, rfl, -⟩
    · rw [hsame] at hp
      exact absurd hp hbefore
    · refine ⟨fun t ht => ?_, fun g' hg' si' hsi' _ => ?_⟩
      · rcases hm.told (reach_object h) ht with ht | ⟨si', hsi', -⟩
        · rw [hnone] at ht
          exact absurd ht List.not_mem_nil
        · exact absurd hsi' (by simp [Frame.delivering?])
      · rcases mem_framesOf_set hth hg' with hnew | hold
        · rcases hm.delivering hnew hsi' with htaken | hkept
          · exact absurd htaken (by simp [Frame.timed?])
          · exact absurd hkept (by simp [Frame.delivering?])
        · obtain rfl := delivering_alone h hth rfl hold hsi'
          exact absurd hsi' (by simp [Frame.delivering?])

/-- A step in its turn keeps the order of time. -/
theorem Timed.step (h : (machine set n).Reach ok s) (hI : Timed set p s)
    (hth : s.threads[i]? = some ⟨ctl, f :: rest⟩) (hm : Move set i s.mem a f m nx)
    (hturn : InTurn s (.thread i a)) : Timed set p ⟨m, s.threads.set i (nx.resume rest)⟩ := by
  have hf : f ∈ framesOf s.threads := mem_framesOf.mpr ⟨i, _, hth, List.mem_cons_self ..⟩
  have hclock := hm.clock
  have hpast : ∀ t ∈ m.times p, t ≤ m.clock := by
    intro t ht
    rw [hclock]
    rcases hm.told (reach_object h) ht with ht | ⟨si, hsi, -, -, rfl⟩
    · exact hI.past t ht
    · exact (hI.inHand f hf si hsi).1
  have hinHand : ∀ g ∈ framesOf (s.threads.set i (nx.resume rest)), ∀ si,
      g.delivering? = some si → si.time ≤ m.clock ∧
        (si.level ≤ (set.object p).level → ∀ t ∈ m.times p, t ≤ si.time) := by
    intro g hg si hsi
    rw [hclock]
    exact hI.step_inHand h hth hm hg hsi
  refine ⟨hI.step_sorted h hf hm, hI.step_attached h hm, hpast, hinHand, fun g hg si hsi => ?_⟩
  rcases mem_framesOf_set hth hg with hnew | hold
  · -- an event that has just got its time is not earlier than anything
    have htime : si.time = m.clock := (hm.timed hnew hsi).trans hclock.symm
    rw [htime]
    exact ⟨Int.le_refl _, fun _ _ => ⟨hpast, fun g' hg' si' hsi' _ => (hinHand g' hg' si' hsi').1⟩⟩
  · refine ⟨?_, fun hp hlevel => hI.step_waiting h hth hm hturn hold hsi hp hlevel⟩
    show si.time ≤ m.clock
    rw [hclock]
    exact (hI.waiting g hold si hsi).1

end Step

/-- A run whose clock goes forward, and in which no event is overtaken, is in time. -/
theorem reach_timed (h : (machine set n).Reach (fun s l => ClockForward s l ∧ InTurn s l) s)
    (p : Nat) : Timed set p s := by
  refine h.invariant (I := Timed set p) (fun s hs => hs ▸ timed_initial set n p) ?_
  rintro s l s' hr ⟨hforward, hturn⟩ hn hI
  cases stepped_of_next hn with
  | clock now => exact hI.clock hforward
  | move hth hm => exact hI.step hr hth hm hturn

/-! ## Out of turn -/

theorem State.mem_locking {ctl : Ctl Empty} {rest : List Frame}
    (hth : s.threads[i]? = some ⟨ctl, f :: rest⟩) : s.locking? i = f.timed? := by
  rw [State.locking?, hth]
  rfl

/-- The lock is taken, and the handlers are about to be told. -/
theorem Move.takes_lock (h : Move set i m a f m' nx) (hsi : f.timed? = some si) :
    m'.engine = m.engine ∧ ∃ g ∈ nx.frames, g.delivering? = some si := by
  cases h with
  | doSubmit_lock si' id hfree =>
    obtain rfl := Option.some.inj hsi
    exact ⟨rfl, _, List.mem_singleton.mpr rfl, rfl⟩
  | _ => exact absurd hsi (by simp [Frame.timed?])

/-- A step out of turn leaves an event behind that is earlier than the one the handlers
are now told of. -/
theorem overtaken_of_not_inTurn (hn : (machine set n).next s l = some s') (hturn : ¬InTurn s l) :
    ∃ si ∈ s'.delivering, ∃ si' ∈ s'.waiting, overtakes s'.mem.engine si si' = true := by
  cases stepped_of_next hn with
  | clock now => exact absurd trivial hturn
  | @move i a ctl f rest m nx hth hm =>
    have hover : ∃ si ∈ s.locking? i, ∃ si' ∈ s.waiting, overtakes s.mem.engine si si' = true := by
      by_contra hnot
      refine hturn fun si hsi si' hsi' => ?_
      rw [← Bool.not_eq_true]
      exact fun hov => hnot ⟨si, hsi, si', hsi', hov⟩
    obtain ⟨si, hsi, si', hsi', hov⟩ := hover
    rw [State.mem_locking hth] at hsi
    obtain ⟨hengine, g, hg, hgsi⟩ := hm.takes_lock hsi
    have hi : i < s.threads.length := (List.getElem?_eq_some_iff.mp hth).1
    have hthere : g ∈ framesOf (s.threads.set i (nx.resume rest)) := by
      refine mem_framesOf.mpr ⟨i, _, List.getElem?_set_self hi, ?_⟩
      rw [Next.resume_frames]
      exact List.mem_append_left _ hg
    obtain ⟨g', hg', hgsi'⟩ := List.mem_filterMap.mp hsi'
    have hstays : g' ∈ framesOf (s.threads.set i (nx.resume rest)) := by
      have hplaces : g' = f ∨ g' ∈ framesOf (s.threads.set i (nx.resume rest)) :=
        framesOf_set_of_mem hth hg'
      rcases hplaces with rfl | hstays
      · -- no event overtakes itself
        obtain rfl := Option.some.inj (hgsi'.symm.trans hsi)
        simp [overtakes] at hov
      · exact hstays
    refine ⟨si, List.mem_filterMap.mpr ⟨g, hthere, hgsi⟩, si',
      List.mem_filterMap.mpr ⟨g', hstays, hgsi'⟩, ?_⟩
    show overtakes m.engine si si' = true
    rw [hengine]
    exact hov

/-- **The times of the records.** With a clock that never goes back, what a handler is told
is in the order of the times in every run in which `DoSubmit` never takes the lock for an
event while an earlier one for the same handler waits. When it does, the handlers are
being told of the later event, and the earlier one still waits. -/
theorem times_in_order (set : Setting) (n : Nat) :
    (∀ s, (machine set n).Reach (fun s l => ClockForward s l ∧ InTurn s l) s →
      ∀ p, (s.mem.times p).Pairwise (· ≤ ·)) ∧
    ∀ s l s', (machine set n).Reach (fun s l => ClockForward s l) s →
      (machine set n).next s l = some s' → ¬InTurn s l →
        ∃ si ∈ s'.delivering, ∃ si' ∈ s'.waiting, overtakes s'.mem.engine si si' = true :=
  ⟨fun _ h p => (reach_timed h p).sorted, fun _ _ _ _ hn => overtaken_of_not_inTurn hn⟩

/-- One console for two threads. -/
def console : Setting where
  object _ := ⟨"console", .warning, 0x001⟩
  record _ _ := []
  threadId _ := []

/-- The console is attached; thread 0 gets its time, the clock goes on, and thread 1
gets its own: everybody waits for the lock. -/
def twoWaiting : List Step :=
  let code (i k : Nat) : List Step := List.replicate k (.thread i .code)
  let log : Log := ⟨.warning, 0x001, "disk full"⟩
  .thread 0 (.addHandler 0) :: code 0 15 ++ .thread 0 (.submit log) :: code 0 1 ++
    .env 1 :: .thread 1 (.submit log) :: code 1 1

/-- Thread `i` has its event delivered. -/
def deliverOf (i : Nat) : List Step := List.replicate 5 (.thread i .code)

/-- Whoever came first is served first; thread 1 would have been out of turn. -/
theorem times_in_order_two :
    (∃ s, (machine console 2).Reach (fun s l => ClockForward s l ∧ InTurn s l) s ∧
      s.mem.times 0 = [0, 1] ∧ (s.mem.times 0).Pairwise (· ≤ ·)) ∧
    ∃ s s', (machine console 2).next s (.thread 1 .code) = some s' ∧
      ¬InTurn s (.thread 1 .code) ∧
      ∃ si ∈ s'.delivering, ∃ si' ∈ s'.waiting, overtakes s'.mem.engine si si' = true := by
  have hinTurn : ∃ s, (machine console 2).guardedRun (fun s l => ClockForward s l ∧ InTurn s l)
      (initial console 2) (twoWaiting ++ deliverOf 0 ++ deliverOf 1) = some s ∧
      s.mem.times 0 = [0, 1] := ⟨_, rfl, rfl⟩
  have hforward : ∃ s, (machine console 2).guardedRun (fun s l => ClockForward s l)
      (initial console 2) twoWaiting = some s ∧
      ∃ s', (machine console 2).next s (.thread 1 .code) = some s' ∧
        s.locking? 1 = some ⟨.warning, 0x001, "disk full", 1⟩ ∧
        ⟨.warning, 0x001, "disk full", 0⟩ ∈ s.waiting ∧
        overtakes s.mem.engine ⟨.warning, 0x001, "disk full", 1⟩
          ⟨.warning, 0x001, "disk full", 0⟩ = true :=
    ⟨_, rfl, _, rfl, rfl, List.mem_cons_self .., rfl⟩
  obtain ⟨s, hrun, htimes⟩ := hinTurn
  obtain ⟨s₁, hrun₁, s₂, hnext, hlocking, hwaits, hov⟩ := hforward
  have hturn : ¬InTurn s₁ (.thread 1 .code) := by
    intro hturn
    rw [hturn _ hlocking _ hwaits] at hov
    exact absurd hov (by simp)
  have hreach := Lts.reach_of_guardedRun (.start rfl) hrun
  have hreach₁ := Lts.reach_of_guardedRun (.start rfl) hrun₁
  exact ⟨⟨s, hreach, htimes, (times_in_order console 2).1 s hreach 0⟩, s₁, s₂, hnext, hturn,
    (times_in_order console 2).2 s₁ _ s₂ hreach₁ hnext hturn⟩

/-- Thread 1 has its time later, and the lock earlier: the console is told of time 1
first, and of time 0 after that. -/
theorem times_not_in_order :
    ∃ s, (machine console 2).Reach (fun s l => ClockForward s l) s ∧
      s.mem.times 0 = [1, 0] ∧ ¬(s.mem.times 0).Pairwise (· ≤ ·) := by
  have hrun : ∃ s, (machine console 2).guardedRun (fun s l => ClockForward s l)
      (initial console 2) (twoWaiting ++ deliverOf 1 ++ deliverOf 0) = some s ∧
      s.mem.times 0 = [1, 0] := ⟨_, rfl, rfl⟩
  obtain ⟨s, hs, htimes⟩ := hrun
  refine ⟨s, Lts.reach_of_guardedRun (.start rfl) hs, htimes, ?_⟩
  rw [htimes]
  decide

end Warlib.Logging
