import Nifra.Durable.SagaWrites

/-! # The history of a saga

A history is made of accepted writes, each on top of the one before, and of invocations of
user code, each after its intent. What follows holds whoever issued the writes: an execution
is invoked once, attempts at compensation are numbered, and between an intent and its
invocation the record changes in few ways.
-/

namespace Nifra.Durable.SagaEngine

variable {V : Type} {definition : SagaDefinition} {log after before : List (Entry V)}
variable {stored : Option (SagaRecord V)} {base next record : SagaRecord V}
variable {was : Option (SagaRecord V)} {step : SagaStepRecord V} {wait : Wait V} {i j index : ℕ} {name effectId : JSString}

inductive History (definition : SagaDefinition) :
    Option (SagaRecord V) → List (Entry V) → Prop
  | absent : History definition none []
  | created {record : SagaRecord V} (hsteps : record.steps = []) :
      History definition (some record) []
  | wrote {log : List (Entry V)} {i : ℕ} {wait : Wait V} {base next : SagaRecord V}
      (h : History definition (some base) log) (hwrites : Writes definition log base next wait) :
      History definition (some next) (.wrote i wait base next :: log)
  | executed {log : List (Entry V)} {stored : Option (SagaRecord V)} {i : ℕ}
      {name effectId : JSString} {base next : SagaRecord V} (h : History definition stored log)
      (hintent : .wrote i (.stepIntent name effectId) base next ∈ log)
      (hfirst : ∀ entry ∈ log, ¬ entry.PastIntent effectId) :
      History definition stored (.executed i name effectId :: log)
  | compensated {log : List (Entry V)} {stored : Option (SagaRecord V)} {i index : ℕ}
      {step : SagaStepRecord V} {base next : SagaRecord V} (h : History definition stored log)
      (hintent : .wrote i (.compensateExecuting index step base) base next ∈ log)
      (hfirst : ¬ Invoked log step) :
      History definition stored (.compensated i index step.name step.attempts stored :: log)

def WasCommitted (log : List (Entry V)) (name : JSString) : Prop :=
  ∃ i wait base next, .wrote i wait base next ∈ log ∧
    ∃ step ∈ next.steps, step.name = name ∧ step.state = .committed

def Entry.executes (name : JSString) : Entry V → Bool
  | .executed _ other _ => other = name
  | _ => false

/-- The number of the attempt, when the compensator of the step is invoked. -/
def Entry.attempt (name : JSString) : Entry V → Option ℕ
  | .compensated _ _ other attempt _ => if other = name then some attempt else none
  | _ => none

namespace History

theorem suffix (h : History definition stored (after ++ before)) :
    ∃ was, History definition was before := by
  induction after generalizing stored with
  | nil => exact ⟨stored, h⟩
  | cons entry after ih =>
    cases h with
    | wrote h => exact ih h
    | executed h => exact ih h
    | compensated h => exact ih h

theorem at_write (h : History definition stored (after ++ .wrote i wait base next :: before)) :
    History definition (some base) before ∧ Writes definition before base next wait := by
  obtain ⟨was, h⟩ := h.suffix
  cases h with
  | wrote h hwrites => exact ⟨h, hwrites⟩

theorem eq_nil (h : History definition none log) : log = [] := by
  generalize hstored : (none : Option (SagaRecord V)) = stored at h
  induction h with
  | absent => rfl
  | created => rfl
  | wrote => cases hstored
  | executed h hintent _ ih => exact absurd (ih hstored ▸ hintent) List.not_mem_nil
  | compensated h hintent _ ih => exact absurd (ih hstored ▸ hintent) List.not_mem_nil

theorem stored_some (h : History definition stored (after ++ .wrote i wait base next :: before)) :
    ∃ record, stored = some record := by
  cases stored with
  | none => exact absurd h.eq_nil (by simp)
  | some record => exact ⟨record, rfl⟩

theorem nodup_names (h : History definition stored log) :
    ∀ record ∈ stored, (record.steps.map (·.name)).Nodup := by
  induction h with
  | absent => simp
  | created hsteps => simp [hsteps]
  | wrote h hwrites ih =>
    rintro record hrecord
    obtain rfl := Option.some.inj hrecord
    obtain hnames | ⟨name, hnew, hnames⟩ := hwrites.names
    · exact hnames ▸ ih _ rfl
    · rw [hnames]
      exact (ih _ rfl).append (List.nodup_singleton _) (by simpa using hnew)
  | executed h hintent hfirst ih => exact ih
  | compensated h hintent hfirst ih => exact ih

theorem intent_mem (h : History definition stored log)
    (hintent : .wrote i (.stepIntent name effectId) base next ∈ log) :
    ∀ record ∈ stored, ∃ step ∈ record.steps, step.name = name := by
  induction h with
  | absent => cases hintent
  | created => cases hintent
  | wrote h hwrites ih =>
    rintro record hrecord
    obtain rfl := Option.some.inj hrecord
    rcases List.mem_cons.mp hintent with heq | hmem
    · cases heq
      obtain ⟨-, -, step, hname, -, -, hsteps⟩ := hwrites.of_stepIntent
      exact ⟨step, by simp [hsteps], hname⟩
    · obtain ⟨old, hold, rfl⟩ := ih hmem _ rfl
      obtain ⟨k, hk⟩ := List.mem_iff_getElem?.mp hold
      obtain ⟨new, hnew, hsame, -⟩ := hwrites.kept hk
      exact ⟨new, List.mem_of_getElem? hnew, hsame.name⟩
  | executed h _ _ ih => exact ih ((List.mem_cons.mp hintent).resolve_left (by simp))
  | compensated h _ _ ih => exact ih ((List.mem_cons.mp hintent).resolve_left (by simp))

theorem intent_new {effectId' : JSString} {base' next' : SagaRecord V}
    (h : History definition (some base) log)
    (hwrites : Writes definition log base next (.stepIntent name effectId)) :
    .wrote i (.stepIntent name effectId') base' next' ∉ log := by
  intro hmem
  obtain ⟨other, hother, hname⟩ := h.intent_mem hmem _ rfl
  exact hwrites.of_stepIntent.2.1 other hother hname

theorem intent_unique {effectId' : JSString} {base' next' : SagaRecord V}
    (h : History definition stored log)
    (hi : .wrote i (.stepIntent name effectId) base next ∈ log)
    (hj : .wrote j (.stepIntent name effectId') base' next' ∈ log) : effectId = effectId' := by
  induction h with
  | absent => cases hi
  | created => cases hi
  | wrote h hwrites ih =>
    rcases List.mem_cons.mp hi with heq | hi' <;> rcases List.mem_cons.mp hj with heq' | hj'
    · cases heq
      cases heq'
      rfl
    · cases heq
      exact absurd hj' (h.intent_new hwrites)
    · cases heq'
      exact absurd hi' (h.intent_new hwrites)
    · exact ih hi' hj'
  | executed h _ _ ih =>
    exact ih ((List.mem_cons.mp hi).resolve_left (by simp))
      ((List.mem_cons.mp hj).resolve_left (by simp))
  | compensated h _ _ ih =>
    exact ih ((List.mem_cons.mp hi).resolve_left (by simp))
      ((List.mem_cons.mp hj).resolve_left (by simp))

theorem attempt_mem (h : History definition stored log)
    (hintent : .wrote i (.compensateExecuting index step record) base next ∈ log) :
    ∀ record ∈ stored, ∃ other ∈ record.steps,
      other.name = step.name ∧ step.attempts ≤ other.attempts := by
  induction h with
  | absent => cases hintent
  | created => cases hintent
  | wrote h hwrites ih =>
    rintro record hrecord
    obtain rfl := Option.some.inj hrecord
    rcases List.mem_cons.mp hintent with heq | hmem
    · cases heq
      obtain ⟨-, hattempting, hsteps, -⟩ := hwrites.of_compensateExecuting
      obtain ⟨old, hold, -⟩ := hattempting.due
      refine ⟨step, ?_, rfl, le_rfl⟩
      rw [hsteps]
      exact List.mem_set (List.getElem?_eq_some_iff.mp hold).1 _
    · obtain ⟨old, hold, hname, hle⟩ := ih hmem _ rfl
      obtain ⟨k, hk⟩ := List.mem_iff_getElem?.mp hold
      obtain ⟨new, hnew, hsame, hle'⟩ := hwrites.kept hk
      exact ⟨new, List.mem_of_getElem? hnew, hsame.name.trans hname, Nat.le_trans hle hle'⟩
  | executed h _ _ ih => exact ih ((List.mem_cons.mp hintent).resolve_left (by simp))
  | compensated h _ _ ih => exact ih ((List.mem_cons.mp hintent).resolve_left (by simp))

theorem attempt_new {k : ℕ} {other : SagaStepRecord V} {record' base' next' : SagaRecord V}
    (h : History definition (some base) log)
    (hwrites : Writes definition log base next (.compensateExecuting index step record))
    (hmem : .wrote i (.compensateExecuting k other record') base' next' ∈ log)
    (hname : other.name = step.name) : other.attempts < step.attempts := by
  obtain ⟨-, hattempting, -, -⟩ := hwrites.of_compensateExecuting
  obtain ⟨old, hold, hsame, -, hattempts⟩ := hattempting.replaces
  obtain ⟨now, hnow, hnow', hle⟩ := h.attempt_mem hmem _ rfl
  have heq : now = old := List.inj_on_of_nodup_map (h.nodup_names _ rfl) hnow
    (List.mem_of_getElem? hold) (hnow'.trans (hname.trans hsame.name))
  rw [hattempts, ← heq]
  exact Nat.lt_succ_of_le hle

theorem attempt_unique {k : ℕ} {other : SagaStepRecord V} {record' base' next' : SagaRecord V}
    (h : History definition stored log)
    (hi : .wrote i (.compensateExecuting index step record) base next ∈ log)
    (hj : .wrote j (.compensateExecuting k other record') base' next' ∈ log)
    (hname : other.name = step.name) (hattempts : other.attempts = step.attempts) : i = j := by
  induction h with
  | absent => cases hi
  | created => cases hi
  | wrote h hwrites ih =>
    rcases List.mem_cons.mp hi with heq | hi' <;> rcases List.mem_cons.mp hj with heq' | hj'
    · cases heq
      cases heq'
      rfl
    · cases heq
      exact absurd hattempts (Nat.ne_of_lt (h.attempt_new hwrites hj' hname))
    · cases heq'
      exact absurd hattempts.symm (Nat.ne_of_lt (h.attempt_new hwrites hi' hname.symm))
    · exact ih hi' hj'
  | executed h _ _ ih =>
    exact ih ((List.mem_cons.mp hi).resolve_left (by simp))
      ((List.mem_cons.mp hj).resolve_left (by simp))
  | compensated h _ _ ih =>
    exact ih ((List.mem_cons.mp hi).resolve_left (by simp))
      ((List.mem_cons.mp hj).resolve_left (by simp))

theorem intent_of_executed (h : History definition stored log)
    (hmem : .executed i name effectId ∈ log) :
    ∃ base next, .wrote i (.stepIntent name effectId) base next ∈ log := by
  obtain ⟨after, before, rfl⟩ := List.append_of_mem hmem
  obtain ⟨was, h⟩ := h.suffix
  cases h with
  | executed _ hintent =>
    exact ⟨_, _, List.mem_append_right _ (List.mem_cons_of_mem _ hintent)⟩

theorem at_compensated {attempt : ℕ}
    (h : History definition stored (after ++ .compensated i index name attempt was :: before)) :
    History definition was before ∧ ∃ step base next, step.name = name ∧ step.attempts = attempt ∧
      .wrote i (.compensateExecuting index step base) base next ∈ before ∧ ¬ Invoked before step := by
  obtain ⟨_, h⟩ := h.suffix
  cases h with
  | compensated h hintent hfirst => exact ⟨h, _, _, _, rfl, rfl, hintent, hfirst⟩

theorem executed_once (h : History definition stored log) (name : JSString) :
    log.countP (Entry.executes name) ≤ 1 := by
  induction h with
  | absent => simp
  | created => simp
  | wrote h hwrites ih => simpa [Entry.executes] using ih
  | @executed log _ i other effectId _ _ h hintent hfirst ih =>
    by_cases hname : other = name
    · subst hname
      have hnone : log.countP (Entry.executes other) = 0 := by
        rw [List.countP_eq_zero]
        intro entry hentry hexec
        cases entry with
        | executed j other' id =>
          obtain rfl : other' = other := by simpa [Entry.executes] using hexec
          obtain ⟨_, _, hother⟩ := h.intent_of_executed hentry
          obtain rfl := h.intent_unique hintent hother
          exact hfirst _ hentry rfl
        | wrote => simp [Entry.executes] at hexec
        | compensated => simp [Entry.executes] at hexec
      simp [Entry.executes, hnone]
    · simpa [Entry.executes, hname] using ih
  | compensated h hintent hfirst ih => simpa [Entry.executes] using ih

/-- The compensator of a step is invoked with every attempt number at most once, and with none
beyond the retry policy. -/
theorem attempts_nodup (h : History definition stored log) (name : JSString) :
    (log.filterMap (Entry.attempt name)).Nodup ∧
      ∀ attempt ∈ log.filterMap (Entry.attempt name), 1 ≤ attempt ∧ attempt ≤ definition.attempts := by
  induction h with
  | absent => simp
  | created => simp
  | wrote h hwrites ih =>
    rwa [List.filterMap_cons_none]
    rfl
  | executed h hintent hfirst ih =>
    rwa [List.filterMap_cons_none]
    rfl
  | @compensated log was i index step _ _ h hintent hfirst ih =>
    by_cases hname : step.name = name
    · obtain ⟨_, early, rfl⟩ := List.append_of_mem hintent
      obtain ⟨-, hattempting, -, -⟩ := h.at_write.2.of_compensateExecuting
      obtain ⟨old, -, -, -, hattempts⟩ := hattempting.replaces
      subst hname
      have hnow : Entry.attempt step.name (.compensated i index step.name step.attempts was) =
          some step.attempts := if_pos rfl
      simp only [List.filterMap_cons_some hnow, List.nodup_cons, List.mem_cons, forall_eq_or_imp]
      refine ⟨⟨fun hmem => hfirst ?_, ih.1⟩, ⟨by omega, hattempting.attempts⟩, ih.2⟩
      obtain ⟨entry, hentry, hattempt⟩ := List.mem_filterMap.mp hmem
      cases entry with
      | compensated j k other attempt was =>
        simp only [Entry.attempt, Option.ite_none_right_eq_some, Option.some.injEq] at hattempt
        obtain ⟨rfl, rfl⟩ := hattempt
        exact ⟨j, k, was, hentry⟩
      | wrote => simp [Entry.attempt] at hattempt
      | executed => simp [Entry.attempt] at hattempt
    · rwa [List.filterMap_cons_none]
      exact if_neg hname

theorem rolled (h : History definition stored
      (after ++ .wrote i (.compensateExecuting index step record) base next :: before)) :
    (∃ entry ∈ after, entry.ResolvesCommitted) ∨ ∀ record ∈ stored, record.state ≠ .running := by
  induction after generalizing stored with
  | nil =>
    right
    cases h with
    | wrote h hwrites =>
      obtain ⟨-, hattempting, -, hstate⟩ := hwrites.of_compensateExecuting
      rintro record hrecord
      obtain rfl := Option.some.inj hrecord
      simp [hstate, hattempting.state]
  | cons entry after ih =>
    cases h with
    | executed h =>
      exact (ih h).imp_left fun ⟨e, he, hr⟩ => ⟨e, List.mem_cons_of_mem _ he, hr⟩
    | compensated h =>
      exact (ih h).imp_left fun ⟨e, he, hr⟩ => ⟨e, List.mem_cons_of_mem _ he, hr⟩
    | @wrote _ _ _ _ next' h hwrites =>
      rcases ih h with ⟨e, he, hr⟩ | hstate
      · exact Or.inl ⟨e, List.mem_cons_of_mem _ he, hr⟩
      by_cases hnext : next'.state = .running
      · obtain hbase | ⟨_, _, _, rfl⟩ := hwrites.running hnext
        · exact absurd hbase (hstate _ rfl)
        · exact Or.inl ⟨_, List.mem_cons_self, trivial⟩
      · exact Or.inr fun record hrecord => Option.some.inj hrecord ▸ hnext

theorem intent_open (h : History definition stored
      (after ++ .wrote i (.stepIntent name effectId) base next :: before)) :
    (∃ entry ∈ after, entry.PastIntent effectId) ∨
      (∃ entry ∈ after, entry.ResolvesExecution effectId) ∨
      ∀ record ∈ stored, ∃ (k : ℕ) (step : SagaStepRecord V), record.steps[k]? = some step ∧
        step.effectId = effectId ∧ step.state = .executing := by
  have hcons {after : List (Entry V)} (entry : Entry V) {P : Entry V → Prop} :
      (∃ e ∈ after, P e) → ∃ e ∈ entry :: after, P e :=
    fun ⟨e, he, hp⟩ => ⟨e, List.mem_cons_of_mem _ he, hp⟩
  induction after generalizing stored with
  | nil =>
    refine Or.inr (Or.inr ?_)
    cases h with
    | wrote h hwrites =>
      obtain ⟨-, -, step, -, hid, hexecuting, hsteps⟩ := hwrites.of_stepIntent
      rintro record hrecord
      obtain rfl := Option.some.inj hrecord
      exact ⟨base.steps.length, step, by rw [hsteps, List.getElem?_concat_length], hid, hexecuting⟩
  | cons entry after ih =>
    cases h with
    | executed h => exact (ih h).imp (hcons _) (Or.imp_left (hcons _))
    | compensated h => exact (ih h).imp (hcons _) (Or.imp_left (hcons _))
    | @wrote _ k _ _ _ h hwrites =>
      rcases ih h with hp | hr | hstate
      · exact Or.inl (hcons _ hp)
      · exact Or.inr (Or.inl (hcons _ hr))
      obtain ⟨j, step, hstep, rfl, hexecuting⟩ := hstate _ rfl
      rcases hwrites.keeps_executing hstep hexecuting (i := k) with hkept | hp | hr
      · refine Or.inr (Or.inr fun record hrecord => ?_)
        obtain rfl := Option.some.inj hrecord
        exact ⟨j, step, hkept, rfl, hexecuting⟩
      · exact Or.inl ⟨_, List.mem_cons_self, hp⟩
      · exact Or.inr (Or.inl ⟨_, List.mem_cons_self, hr⟩)

theorem not_invoked (h : History definition stored
      (after ++ .wrote i (.compensateExecuting index step record) base next :: before)) :
    ¬ Invoked before step := by
  rintro ⟨j, k, was, hmem⟩
  obtain ⟨h, hwrites⟩ := h.at_write
  obtain ⟨late, early, rfl⟩ := List.append_of_mem hmem
  obtain ⟨-, other, _, _, hname, hattempts, hother, -⟩ := h.at_compensated
  have hlt := h.attempt_new hwrites
    (List.mem_append_right _ (List.mem_cons_of_mem _ hother)) hname
  exact absurd hattempts (Nat.ne_of_lt hlt)

/-- Until its user code is invoked, an attempt at compensation is the only thing under way,
unless its write was overtaken. -/
theorem attempt_open (h : History definition stored
      (after ++ .wrote i (.compensateExecuting index step record) base next :: before)) :
    Invoked after step ∨ (∃ entry ∈ after, entry.Overtakes step) ∨
      ∀ record ∈ stored, Compensating record index step ∧ record.state ≠ .running := by
  have hcons {after : List (Entry V)} (entry : Entry V) {P : Entry V → Prop} :
      (∃ e ∈ after, P e) → ∃ e ∈ entry :: after, P e :=
    fun ⟨e, he, hp⟩ => ⟨e, List.mem_cons_of_mem _ he, hp⟩
  have hcons' {after : List (Entry V)} (entry : Entry V) :
      Invoked after step → Invoked (entry :: after) step :=
    fun ⟨i, k, was, hmem⟩ => ⟨i, k, was, List.mem_cons_of_mem _ hmem⟩
  induction after generalizing stored with
  | nil =>
    refine Or.inr (Or.inr ?_)
    cases h with
    | wrote h hwrites =>
      obtain ⟨-, hattempting, hsteps, hstate⟩ := hwrites.of_compensateExecuting
      obtain ⟨old, hold, -, rfl⟩ := hattempting.due
      rintro record hrecord
      obtain rfl := Option.some.inj hrecord
      refine ⟨⟨?_, rfl, fun k other hk hother => ?_⟩, by simp [hstate, hattempting.state]⟩
      · rw [hsteps, List.getElem?_set_self (List.getElem?_eq_some_iff.mp hold).1]
      · rw [hsteps, List.getElem?_set_ne (Ne.symm hk)] at hother
        exact hattempting.quiet other (List.mem_of_getElem? hother)
  | cons entry after ih =>
    cases h with
    | executed h => exact (ih h).imp (hcons' _) (Or.imp_left (hcons _))
    | compensated h => exact (ih h).imp (hcons' _) (Or.imp_left (hcons _))
    | @wrote _ k _ _ _ h hwrites =>
      rcases ih h with hp | hr | hstate
      · exact Or.inl (hcons' _ hp)
      · exact Or.inr (Or.inl (hcons _ hr))
      obtain ⟨hshown, hrunning⟩ := hstate _ rfl
      by_cases hinvoked : Invoked (after ++ .wrote i (.compensateExecuting index step record) base
          next :: before) step
      · obtain ⟨j, l, was, hmem⟩ := hinvoked
        rcases List.mem_append.mp hmem with hmem | hmem
        · exact Or.inl ⟨j, l, was, List.mem_cons_of_mem _ hmem⟩
        · exact absurd ⟨j, l, was, (List.mem_cons.mp hmem).resolve_left (by simp)⟩ h.not_invoked
      rcases hwrites.keeps_compensating hshown hrunning hinvoked (i := k) with hkept | ho
      · refine Or.inr (Or.inr fun record hrecord => ?_)
        obtain rfl := Option.some.inj hrecord
        exact ⟨hkept, hwrites.keeps_rolling hshown hrunning⟩
      · exact Or.inr (Or.inl ⟨_, List.mem_cons_self, ho⟩)

theorem wasCommitted (h : History definition stored log) :
    ∀ record ∈ stored, ∀ step ∈ record.steps, Ran step → WasCommitted log step.name := by
  have hcons {log : List (Entry V)} {name : JSString} (entry : Entry V) :
      WasCommitted log name → WasCommitted (entry :: log) name :=
    fun ⟨i, wait, base, next, hmem, h⟩ => ⟨i, wait, base, next, List.mem_cons_of_mem _ hmem, h⟩
  induction h with
  | absent => simp
  | created hsteps => simp [hsteps]
  | wrote h hwrites ih =>
    rintro record hrecord step hstep hran
    obtain rfl := Option.some.inj hrecord
    rcases hwrites.ran hstep hran with hcommitted | ⟨old, hold, hname, hran⟩
    · exact ⟨_, _, _, _, List.mem_cons_self, step, hstep, rfl, hcommitted⟩
    · exact hcons _ (hname ▸ ih _ rfl old hold hran)
  | executed h _ _ ih => exact fun r hr s hs hran => hcons _ (ih r hr s hs hran)
  | compensated h _ _ ih => exact fun r hr s hs hran => hcons _ (ih r hr s hs hran)

theorem rolledBack (h : History definition stored log) (hmem : .wrote i wait base next ∈ log)
    (hnext : next.state = .compensated) (hbase : base.state ≠ .compensated) :
    ∀ step ∈ next.steps, RolledBack step := by
  obtain ⟨after, before, rfl⟩ := List.append_of_mem hmem
  exact h.at_write.2.rolledBack hnext hbase

theorem compensated_shows {attempt : ℕ}
    (h : History definition stored (after ++ .compensated i index name attempt was :: before)) :
    ∃ mid early step base next,
      before = mid ++ .wrote i (.compensateExecuting index step base) base next :: early ∧
      step.name = name ∧ step.attempts = attempt ∧ Attempting definition base index step ∧
      next.steps = base.steps.set index step ∧ WasCommitted early name ∧
      ((∃ entry ∈ mid, entry.Overtakes step) ∨ ∃ record ∈ was, Compensating record index step) := by
  obtain ⟨h, step, base, next, hname, hattempts, hintent, hfirst⟩ := h.at_compensated
  obtain ⟨mid, early, rfl⟩ := List.append_of_mem hintent
  obtain ⟨hbase, hwrites⟩ := h.at_write
  obtain ⟨-, hattempting, hsteps, -⟩ := hwrites.of_compensateExecuting
  obtain ⟨old, hold, hsame, hout, -⟩ := hattempting.replaces
  refine ⟨mid, early, step, base, next, rfl, hname, hattempts, hattempting, hsteps, ?_, ?_⟩
  · rw [← hname, hsame.name]
    exact hbase.wasCommitted _ rfl old (List.mem_of_getElem? hold) (Or.inl hout)
  · rcases h.attempt_open with ⟨j, k, stored, hmem⟩ | ho | hshown
    · exact absurd ⟨j, k, stored, List.mem_append_left _ hmem⟩ hfirst
    · exact Or.inl ho
    · cases was with
      | none =>
        obtain ⟨_, hrecord⟩ := h.stored_some
        cases hrecord
      | some record => exact Or.inr ⟨record, rfl, (hshown _ rfl).1⟩

/-- A callback is invoked after a compensator only when an operator confirmed the outcome of
its own execution before, or, since the intent of the compensation, an execution as
committed. -/
theorem executed_after {attempt : ℕ} {other : JSString}
    (h : History definition stored (after ++ .executed i name effectId :: before))
    (hmem : .compensated j index other attempt was ∈ before) :
    (∃ entry ∈ before, entry.ResolvesExecution effectId) ∨
      ∃ mid early step base next,
        before = mid ++ .wrote j (.compensateExecuting index step base) base next :: early ∧
        step.name = other ∧ step.attempts = attempt ∧ ∃ entry ∈ mid, entry.ResolvesCommitted := by
  obtain ⟨_, h⟩ := h.suffix
  cases h with
  | @executed _ _ _ _ _ base₀ next₀ h hintent hfirst =>
    obtain ⟨u, v, rfl⟩ := List.append_of_mem hintent
    -- the intent of the compensation
    obtain ⟨late, early, hsplit⟩ := List.append_of_mem hmem
    have hattempt := h
    rw [hsplit] at hattempt
    obtain ⟨-, step, base', next', hname, hnumber, hauth, -⟩ := hattempt.at_compensated
    have hauth' : .wrote j (.compensateExecuting index step base') base' next' ∈
        u ++ .wrote i (.stepIntent name effectId) base₀ next₀ :: v :=
      hsplit ▸ List.mem_append_right _ (List.mem_cons_of_mem _ hauth)
    rcases List.mem_append.mp hauth' with hu | hv
    · -- intended after the execution was
      obtain ⟨a, b, rfl⟩ := List.append_of_mem hu
      rw [List.append_assoc, List.cons_append] at h
      obtain ⟨hb, hwrites⟩ := h.at_write
      left
      rcases hb.intent_open with ⟨e, he, hp⟩ | ⟨e, he, hr⟩ | hopen
      · exact absurd hp (hfirst e (by simp [he]))
      · exact ⟨e, by simp [he], hr⟩
      · obtain ⟨k, executing, hk, -, hstate⟩ := hopen _ rfl
        have := hwrites.of_compensateExecuting.2.1.quiet _ (List.mem_of_getElem? hk)
        simp [busy, hstate] at this
    · -- intended before the execution was
      have hv := (List.mem_cons.mp hv).resolve_left (by simp)
      obtain ⟨a, b, rfl⟩ := List.append_of_mem hv
      obtain ⟨hb, hwrites⟩ := h.at_write
      right
      refine ⟨u ++ .wrote i (.stepIntent name effectId) base₀ next₀ :: a, b, step, base', next', by simp,
        hname, hnumber, ?_⟩
      rcases hb.rolled with ⟨e, he, hr⟩ | hstate
      · exact ⟨e, by simp [he], hr⟩
      · exact absurd hwrites.of_stepIntent.1 (hstate _ rfl)

end History

end Nifra.Durable.SagaEngine
