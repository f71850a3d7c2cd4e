import Mathlib.Data.List.Perm.Subperm
import Nifra.Durable.SagaInvariant
import Nifra.Durable.SagaOwnership

/-! # Saga effects

A step is executed at most once, and compensated in reverse order within the retry policy. An
operator who confirms the outcome of an effect that is still under way can overtake a callback
that its own intent has allowed already.
-/

namespace Nifra.Durable.SagaEngine

open Runs

variable {V : Type} {s : State V}

def NeverAfterCompensator (log : List (Entry V)) : Prop :=
  ∀ after i name effectId before, log = after ++ .executed i name effectId :: before →
    ∀ j index other attempt was, .compensated j index other attempt was ∉ before

/-- A step is executed at most once. It is executed after a compensator only when an operator
confirmed the outcome of its own execution before, or of an execution as committed since the
intent of the compensation. -/
theorem step_at_most_once (definition : SagaDefinition) (sagaId : JSString)
    (h : Reachable (step definition sagaId) {} s) :
    (∀ name, s.log.countP (Entry.executes name) ≤ 1) ∧
      ∀ after i name effectId before, s.log = after ++ .executed i name effectId :: before →
        ∀ j index other attempt was, .compensated j index other attempt was ∈ before →
          (∃ entry ∈ before, entry.ResolvesExecution effectId) ∨
            ∃ mid early step base next,
              before = mid ++ .wrote j (.compensateExecuting index step base) base next :: early ∧
              step.name = other ∧ step.attempts = attempt ∧
              ∃ entry ∈ mid, entry.ResolvesCommitted := by
  have hhistory := (inv_of_reachable h).history
  refine ⟨hhistory.executed_once, ?_⟩
  intro after i name effectId before hsplit j index other attempt was hmem
  rw [hsplit] at hhistory
  exact hhistory.executed_after hmem

/-- A compensator is invoked after an intent that was written while the step was committed or
its compensation had failed, nothing was under way and every later step was rolled back. Unless
that write was overtaken since, the record still shows the attempt and nothing else under way.
The attempts stay within the retry policy, and a saga becomes compensated when every step is
rolled back. -/
theorem compensation_ordered (definition : SagaDefinition) (sagaId : JSString)
    (h : Reachable (step definition sagaId) {} s) :
    (∀ after i index name attempt was before,
      s.log = after ++ .compensated i index name attempt was :: before →
        ∃ mid early step base next,
          before = mid ++ .wrote i (.compensateExecuting index step base) base next :: early ∧
          step.name = name ∧ step.attempts = attempt ∧ Attempting definition base index step ∧
          next.steps = base.steps.set index step ∧ WasCommitted early name ∧
          ((∃ entry ∈ mid, entry.Overtakes step) ∨
            ∃ record ∈ was, Compensating record index step)) ∧
      (∀ name, (s.log.filterMap (Entry.attempt name)).length ≤ definition.attempts) ∧
      ∀ i wait base next, .wrote i wait base next ∈ s.log → next.state = .compensated →
        base.state ≠ .compensated → ∀ step ∈ next.steps, RolledBack step := by
  have hhistory := (inv_of_reachable h).history
  refine ⟨?_, fun name => ?_, fun i wait base next hmem => hhistory.rolledBack hmem⟩
  · intro after i index name attempt was before hsplit
    rw [hsplit] at hhistory
    exact hhistory.compensated_shows
  · obtain ⟨hnodup, hbound⟩ := hhistory.attempts_nodup name
    have hsub : s.log.filterMap (Entry.attempt name) ⊆ List.range' 1 definition.attempts := by
      intro attempt hattempt
      obtain ⟨h₁, h₂⟩ := hbound attempt hattempt
      rw [List.mem_range'_1]
      omega
    simpa using (hnodup.subperm hsub).length_le

def bookingSaga : SagaDefinition where
  name := [98]
  compensators := fun _ => true

/-- The saga is executed up to its `run`, and a first step of it is committed. -/
def committedRun : List (Event ℕ) :=
  [.call (.execute 0) [49] 10 {}, .perform 0, .proceed 0 {}, .perform 0, .proceed 0 {}, .perform 0,
    .proceed 0 {},
    .step 0 [65] 0, .perform 1, .proceed 1 { effectId := [66], compensationEffectId := [67] },
    .perform 1, .proceed 1 {}, .settle 1 {} (.value 0), .perform 1, .proceed 1 {}, .perform 1]

/-- The intent of a second step is accepted. An operator confirms that step as not committed
before its callback is invoked, and once the lease has lapsed another call compensates the
first step. -/
def overtakenStepRun : List (Event ℕ) :=
  committedRun ++
    [.step 0 [68] 0, .perform 2, .proceed 2 { effectId := [69], compensationEffectId := [70] },
      .perform 2,
      .call (.resolveAmbiguity (.notCommitted [68] [69] (some [97]))) [50] 10 {}, .perform 3,
      .proceed 3 {}, .perform 3,
      .call .compensate [51] 10 {}, .perform 4, .proceed 4 { now := fun _ => 100 }, .perform 4,
      .proceed 4 { now := fun _ => 100 }, .perform 4, .proceed 4 {},
      .proceed 2 {}]

theorem overtakenStepRun_isSome :
    (run (step bookingSaga [115]) ({} : State ℕ) overtakenStepRun).isSome := by decide

def overtakenStep : State ℕ :=
  (run (step bookingSaga [115]) {} overtakenStepRun).get overtakenStepRun_isSome

theorem step_at_most_once_overtakenStep :
    overtakenStep.log.countP (Entry.executes [68]) ≤ 1 :=
  (step_at_most_once bookingSaga [115] (.of_run overtakenStepRun_isSome)).1 [68]

theorem step_after_compensator :
    ¬ ∀ (definition : SagaDefinition) (sagaId : JSString) (s : State ℕ),
      Reachable (step definition sagaId) {} s →
        (∀ name, s.log.countP (Entry.executes name) ≤ 1) ∧ NeverAfterCompensator s.log := by
  intro h
  have hlog : overtakenStep.log = [] ++ .executed 2 [68] [69] ::
      .compensated 4 0 [65] 1 overtakenStep.stored :: overtakenStep.log.drop 2 := by decide
  exact (h bookingSaga [115] overtakenStep (.of_run overtakenStepRun_isSome)).2 _ _ _ _ _ hlog
    4 0 [65] 1 overtakenStep.stored List.mem_cons_self

/-- A failed call compensates its step. An operator confirms the compensation before the
compensator is invoked. -/
def overtakenCompensationRun : List (Event ℕ) :=
  committedRun ++
    [.settle 0 {} .error, .perform 0, .proceed 0 {}, .perform 0, .proceed 0 {}, .perform 0,
      .proceed 0 {}, .perform 0,
      .call (.resolveAmbiguity (.compensation [65] [67] true)) [50] 10 {}, .perform 2,
      .proceed 2 {}, .perform 2,
      .proceed 0 {}]

theorem overtakenCompensationRun_isSome :
    (run (step bookingSaga [115]) ({} : State ℕ) overtakenCompensationRun).isSome := by decide

def overtakenCompensation : State ℕ :=
  (run (step bookingSaga [115]) {} overtakenCompensationRun).get overtakenCompensationRun_isSome

theorem compensation_ordered_overtakenCompensation :
    (overtakenCompensation.log.filterMap (Entry.attempt [65])).length ≤ 3 :=
  (compensation_ordered bookingSaga [115] (.of_run overtakenCompensationRun_isSome)).2.1 [65]

theorem compensator_after_resolution :
    ¬ ∀ (definition : SagaDefinition) (sagaId : JSString) (s : State ℕ),
      Reachable (step definition sagaId) {} s →
        ∀ i index name attempt was, .compensated i index name attempt was ∈ s.log →
          ∃ record ∈ was, ∃ (step : SagaStepRecord ℕ), record.steps[index]? = some step ∧
            Outstanding step := by
  intro h
  have hlog : overtakenCompensation.log = .compensated 0 0 [65] 1 overtakenCompensation.stored ::
      overtakenCompensation.log.drop 1 := by decide
  have hcompensated : ∀ record ∈ overtakenCompensation.stored, ∀ step ∈ record.steps[0]?,
      step.state = .compensated := by decide
  obtain ⟨record, hrecord, step, hstep, hout⟩ := h bookingSaga [115] overtakenCompensation
    (.of_run overtakenCompensationRun_isSome) 0 0 [65] 1 overtakenCompensation.stored
    (hlog ▸ List.mem_cons_self)
  have hstate := hcompensated record hrecord step hstep
  simp [Outstanding, hstate] at hout

/-! ## The lease under a resolution

An operator's resolution is written by a call that owns nothing, and still renews the lease of
whoever owns the saga. It leaves the lease alone exactly when nobody owns the saga, or when the
lease ends at the very time that a renewal gives it.
-/

open Next

variable {definition : SagaDefinition} {sagaId owner : JSString}
variable {stored after record : SagaRecord V} {input : DurableSagaTransitionInput V}
variable {resolution : Resolution V} {leaseMs now : ℕ} {o : Oracle}

/-- The record that a call of `resolveAmbiguity` leaves, `none` when it throws: the store holds
this record when the call reads it and when it writes. -/
def resolveAmbiguity (definition : SagaDefinition) (sagaId : JSString) (leaseMs : ℕ) (o : Oracle)
    (resolution : Resolution V) (stored : SagaRecord V) : Option (SagaRecord V) :=
  (start definition sagaId o (.resolveAmbiguity resolution)).bind fun first =>
    let thread : Thread V := ⟨[], leaseMs, first.wait, first.operation⟩
    match (readAnswered definition sagaId thread o (some stored)).operation with
    | .compareAndSet input => transitionSaga (some stored) input
    | _ => none

/-- A call reads this record at one clock reading, and its claim of the saga is accepted. -/
def Acquires (definition : SagaDefinition) (sagaId : JSString) (now : ℕ) (record : SagaRecord V)
    (thread : Thread V) (claim : Wait V) : Prop :=
  ∀ o : Oracle, o.now = (fun _ => now) → ∃ input taken,
    readAnswered definition sagaId thread o (some record) = ⟨claim, .compareAndSet input, none⟩ ∧
      transitionSaga (some record) input = some taken ∧ taken.owner = some thread.owner

/-- A resolution has not touched the ownership of the saga, so that a call with an owner id of
its own takes over a saga whose lease has lapsed. -/
structure Undisturbed (definition : SagaDefinition) (sagaId : JSString) (leaseMs now : ℕ)
    (stored after : SagaRecord V) : Prop where
  owner : after.owner = stored.owner
  lease : after.leaseUntil = stored.leaseUntil
  acquired : ∀ holder ∈ stored.owner, ∀ leaseUntil ∈ stored.leaseUntil, leaseUntil ≤ now →
    validRecord sagaId after = true → ∀ thread : Thread V, thread.owner ≠ holder →
      thread.leaseMs = leaseMs →
        (thread.wait = .compensateLoad →
          Acquires definition sagaId now after thread .compensateClaim) ∧
        (thread.wait = .resumeLoad → after.state = .running →
          Acquires definition sagaId now after thread .resumeClaim)

theorem resolveAmbiguity_eq_some
    (h : resolveAmbiguity definition sagaId leaseMs o resolution stored = some after) :
    stored.definition = definition.name ∧
      (stored.owner.isSome →
        isSafeInteger (o.now 1) = true ∧ isSafeInteger (o.now 1 + leaseMs) = true) ∧
      ∃ state steps updatedAt,
        (state = .running ∨ state = .compensating ∨ state = .manualReview) ∧
        after = { stored with
          state := state
          steps := steps
          updatedAt := updatedAt
          leaseUntil := renewed leaseMs (o.now 1) stored
          version := stored.version + 1 } := by
  obtain ⟨first, hfirst, h⟩ := Option.bind_eq_some_iff.mp h
  simp only [start, Option.ite_none_right_eq_some, Option.some.injEq] at hfirst
  obtain ⟨-, rfl⟩ := hfirst
  simp only [readAnswered] at h
  cases hload : loadFor definition sagaId (some stored) with
  | none => simp [hload, finished] at h
  | some record =>
    obtain rfl := Option.some.inj (loadFor_eq_some hload)
    have hname : stored.definition = definition.name := by
      simpa using (Option.filter_eq_some_iff.mp hload).2
    simp only [hload, resolutionLoaded] at h
    generalize stored.steps.findIdx (fun step => step.name = resolution.step) = index at h
    cases hcurrent : stored.steps[index]? with
    | none => simp [hcurrent, finished] at h
    | some current =>
      simp only [hcurrent] at h
      cases hresolved : resolved definition current resolution with
      | none => simp [hresolved, finished] at h
      | some found =>
        obtain ⟨step, state⟩ := found
        simp only [hresolved] at h
        cases hsave : saveStep leaseMs o 0 stored index step state with
        | none => simp [hsave, write, finished] at h
        | some input =>
          simp only [hsave, write] at h
          obtain ⟨rfl, -⟩ := transitionSaga_eq_some h
          obtain ⟨updatedAt, -, hsave⟩ := Option.bind_eq_some_iff.mp hsave
          obtain ⟨-, hsafe, rfl⟩ := save_eq_some_iff.mp hsave
          refine ⟨hname, hsafe, state, stored.steps.set index step, updatedAt, ?_, rfl⟩
          obtain ⟨-, -, ⟨_, _, -, -, -, hs⟩ | ⟨_, _, -, -, -, hs⟩ | ⟨_, _, -, -, -, -, hs⟩⟩ :=
            resolved_cases hresolved
          · exact Or.inl hs
          · exact Or.inr (Or.inl hs)
          · exact Or.inr hs

theorem claim_of_lapsed {o : Oracle} (ho : o.now = fun _ => now)
    (howner : record.owner ≠ some owner)
    (hlapsed : ∀ leaseUntil ∈ record.leaseUntil, leaseUntil ≤ now)
    (hsafe : isSafeInteger now = true) (hsafe' : isSafeInteger (now + leaseMs) = true) :
    ∃ input taken, claim leaseMs o owner record = some (some input) ∧
      transitionSaga (some record) input = some taken ∧ taken.owner = some owner := by
  have hopen : (record.owner.isSome && record.leaseUntil.any fun leaseUntil =>
      (readClock (o.now 0)).all fun now => decide (now < leaseUntil)) = false := by
    cases hlease : record.leaseUntil with
    | none => simp
    | some leaseUntil =>
      have hle := hlapsed leaseUntil hlease
      simp [ho, readClock, hsafe, hle]
  obtain ⟨taken, htaken⟩ : ∃ taken : SagaRecord V, taken = { record with
      owner := some owner
      updatedAt := now
      leaseUntil := some (now + leaseMs)
      version := record.version + 1 } := ⟨_, rfl⟩
  have hsave : save leaseMs now record
      { record with
        owner := some owner
        updatedAt := now } = some ⟨record.sagaId, record.version, taken⟩ := by
    rw [save_eq_some_iff, htaken]
    exact ⟨rfl, fun _ => ⟨hsafe, hsafe'⟩, rfl⟩
  refine ⟨⟨record.sagaId, record.version, taken⟩, taken, ?_, ?_, ?_⟩
  · rw [claim, if_neg howner, hopen, if_neg Bool.false_ne_true, ho, readClock, if_pos hsafe,
      Option.bind_some, hsave, Option.map_some]
  · rw [transitionSaga_self_iff, htaken]
    exact ⟨rfl, rfl, rfl⟩
  · rw [htaken]

theorem acquires_of_lapsed {thread : Thread V}
    (hload : loadFor definition sagaId (some record) = some record)
    (howner : record.owner ≠ some thread.owner)
    (hlapsed : ∀ leaseUntil ∈ record.leaseUntil, leaseUntil ≤ now)
    (hsafe : isSafeInteger now = true) (hsafe' : isSafeInteger (now + thread.leaseMs) = true) :
    (thread.wait = .compensateLoad → record.state ≠ .completed → record.state ≠ .compensated →
      Acquires definition sagaId now record thread .compensateClaim) ∧
    (thread.wait = .resumeLoad → record.state = .running →
      Acquires definition sagaId now record thread .resumeClaim) := by
  constructor
  · rintro hwait hcompleted hcompensated o ho
    obtain ⟨input, taken, hclaim, htaken⟩ := claim_of_lapsed ho howner hlapsed hsafe hsafe'
    refine ⟨input, taken, ?_, htaken⟩
    simp [readAnswered, hwait, hload, hcompleted, hcompensated, claimed, hclaim]
  · rintro hwait hrunning o ho
    obtain ⟨input, taken, hclaim, htaken⟩ := claim_of_lapsed ho howner hlapsed hsafe hsafe'
    refine ⟨input, taken, ?_, htaken⟩
    simp [readAnswered, hwait, hload, hrunning, claimed, hclaim]

/-- A resolution leaves the ownership of a saga alone exactly when nobody owns it or its lease
ends when a renewed one would. In a run of such resolutions only its owner renews a lease. -/
theorem resolution_undisturbed_iff (definition : SagaDefinition) (sagaId : JSString) :
    (∀ (leaseMs : ℕ) (o : Oracle) (resolution : Resolution V) (stored after : SagaRecord V),
      resolveAmbiguity definition sagaId leaseMs o resolution stored = some after →
        (Undisturbed definition sagaId leaseMs (o.now 1) stored after ↔
          keepsLease leaseMs o stored = true)) ∧
    ∀ (es : List (Event V)) (s : State V), run (step definition sagaId) {} es = some s →
      Along (step definition sagaId) (fun s e => eventKeepsLease s e = true) {} es →
        RenewedByOwner s := by
  refine ⟨?_, fun es s => renewedByOwner_of_run⟩
  rintro leaseMs o resolution stored after h
  obtain ⟨hname, hsafe, state, steps, updatedAt, hstate, hafter⟩ := resolveAmbiguity_eq_some h
  have howner : after.owner = stored.owner := by rw [hafter]
  have hrenewed : after.leaseUntil = renewed leaseMs (o.now 1) stored := by rw [hafter]
  have hdefinition : after.definition = definition.name := by rw [hafter, ← hname]
  have hafterState : after.state = state := by rw [hafter]
  constructor
  · rintro ⟨-, hlease, -⟩
    have hsame := hlease.symm.trans hrenewed
    cases hstored : stored.owner with
    | none => simp [keepsLease, hstored]
    | some holder => simp [keepsLease, hsame, renewed, hstored]
  · intro hkeeps
    have hlease : after.leaseUntil = stored.leaseUntil :=
      hrenewed.trans (renewed_of_keepsLease hkeeps)
    refine ⟨howner, hlease, ?_⟩
    rintro holder hholder leaseUntil hleaseUntil hle hvalid thread hne rfl
    obtain ⟨hnow, hsum⟩ := hsafe (Option.isSome_of_mem hholder)
    have hload : loadFor definition sagaId (some after) = some after := by
      simp [loadFor, load, Option.filter, hvalid, hdefinition]
    have hother : after.owner ≠ some thread.owner := by
      rw [howner, Option.mem_def.mp hholder]
      rintro ⟨⟩
      exact hne rfl
    have hlapsed : ∀ leaseUntil ∈ after.leaseUntil, leaseUntil ≤ o.now 1 := by
      rintro other hmem
      rw [hlease] at hmem
      exact Option.mem_unique hleaseUntil hmem ▸ hle
    obtain ⟨hcompensate, hresume⟩ := acquires_of_lapsed hload hother hlapsed hnow hsum
    refine ⟨fun hwait => hcompensate hwait ?_ ?_, hresume⟩
    · rw [hafterState]
      rcases hstate with rfl | rfl | rfl <;> decide
    · rw [hafterState]
      rcases hstate with rfl | rfl | rfl <;> decide

/-- A saga whose owner died in the middle of a step, and whose lease ended at ten. -/
def deadOwner : SagaRecord ℕ where
  sagaId := [115]
  definition := [98]
  state := .running
  input := 0
  steps := [{
    name := [65]
    effectId := [66]
    compensationEffectId := [67]
    state := .executing
    compensationArgs := 0
    attempts := 0 }]
  createdAt := 0
  updatedAt := 0
  version := 2
  owner := some [49]
  leaseUntil := some 10

def confirmed : Resolution ℕ := .committed [65] [66] 5

theorem resolution_undisturbed_iff_released :
    (∃ after, resolveAmbiguity bookingSaga [115] 10 { now := fun _ => 20 } confirmed
        { deadOwner with
          owner := none
          leaseUntil := none } = some after ∧
      Undisturbed bookingSaga [115] 10 20 { deadOwner with
        owner := none
        leaseUntil := none } after) ∧
    RenewedByOwner overtakenStep := by
  have hlaw := resolution_undisturbed_iff (V := ℕ) bookingSaga [115]
  refine ⟨⟨_, rfl, (hlaw.1 10 { now := fun _ => 20 } confirmed _ _ rfl).mpr rfl⟩, ?_⟩
  exact hlaw.2 overtakenStepRun overtakenStep (Option.some_get overtakenStepRun_isSome).symm
    (by decide)

/-- An operator confirms the step at twenty, and the dead call owns the saga until thirty. -/
theorem resolution_undisturbed_deadOwner :
    ∃ after, resolveAmbiguity bookingSaga [115] 10 { now := fun _ => 20 } confirmed
        deadOwner = some after ∧
      ¬ Undisturbed bookingSaga [115] 10 20 deadOwner after ∧
      ∀ wait ∈ [Wait.compensateLoad, .resumeLoad], readAnswered bookingSaga [115]
        ⟨[50], 10, wait, .none⟩ { now := fun _ => 20 } (some after) = release := by
  refine ⟨_, rfl, ?_, ?_⟩
  · rintro ⟨-, hlease, -⟩
    exact absurd hlease (by decide)
  · rintro wait hwait
    rcases List.mem_pair.mp hwait with rfl | rfl <;> rfl

end Nifra.Durable.SagaEngine
