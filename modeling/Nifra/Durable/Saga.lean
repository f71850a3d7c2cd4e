import Nifra.Durable.Records

/-! # The saga engine

Calls of `execute`, `resume`, `compensate` and `resolveAmbiguity` share one saga record in
a compare-and-set store. A call, or a step that user code runs under it, is a thread: it
waits for a store operation or for user code, and each answer carries it to its next wait.
-/

namespace Nifra.Durable.SagaEngine

variable {V : Type}

/-- `SagaDefinition`, once `assertSagaDefinition` passed: which names have a compensator, and
the retry policy. A custom backoff that throws answers `none`. -/
structure SagaDefinition where
  name : JSString
  compensators : JSString → Bool
  maxAttempts : Option ℕ := none
  backoffMs : Option (ℕ → Option ℕ) := none
  maxAttempts_pos : ∀ n ∈ maxAttempts, 1 ≤ n := by simp

namespace SagaDefinition

def attempts (definition : SagaDefinition) : ℕ := definition.maxAttempts.getD 3

/-- The delay after a failed attempt, `none` when it is no non-negative safe integer. -/
def backoff (definition : SagaDefinition) (attempt : ℕ) : Option ℕ :=
  match definition.backoffMs with
  | none => some (min 60000 (100 * 2 ^ (attempt - 1)))
  | some backoffMs => (backoffMs attempt).filter isSafeInteger

end SagaDefinition

/-- What a thread reads from its surroundings between two waits: clock readings, whether the
signal has fired, the identifiers that `crypto.randomUUID` gives and the error thrown. -/
structure Oracle where
  now : ℕ → ℕ := fun _ => 0
  due : ℕ → ℕ := fun _ => 0
  aborted : ℕ → Bool := fun _ => false
  abortedRun : Bool := false
  effectId : JSString := []
  compensationEffectId : JSString := []
  notCommitted : Option JSString := none

def boundedToken (value : JSString) (maxLength : ℕ) : Bool :=
  decide (1 ≤ value.length) && decide (value.length ≤ maxLength) &&
    value.all fun c => decide (33 ≤ c) && decide (c ≤ 126)

/-- `ERROR_CODE`: a lower-case letter, then up to 63 letters, digits, `_`, `.` or `-`. -/
def isErrorCode : JSString → Bool
  | [] => false
  | c :: rest => decide (97 ≤ c ∧ c ≤ 122) && decide (rest.length ≤ 63) &&
      rest.all fun d => decide (97 ≤ d ∧ d ≤ 122 ∨ 48 ≤ d ∧ d ≤ 57) || (js "_.-").contains d

/-- `readClock`, `none` when the reading throws. -/
def readClock (value : ℕ) : Option ℕ := if isSafeInteger value then some value else none

/-- `addDuration`, `none` when the sum throws. -/
def addDuration (timestamp duration : ℕ) : Option ℕ := readClock (timestamp + duration)

/-- The tests of `load` on a step. -/
def validStep (step : SagaStepRecord V) : Bool :=
  boundedToken step.name 128 && boundedToken step.effectId 64 &&
    boundedToken step.compensationEffectId 64 && isSafeInteger step.attempts &&
    step.nextAttemptAt.all isSafeInteger && step.errorCode.all isErrorCode

/-- The loop of `load` over the steps, with the names and effect ids seen so far. -/
def validSteps : List JSString → List JSString → List (SagaStepRecord V) → Bool
  | _, _, [] => true
  | names, effectIds, step :: steps =>
    validStep step && !names.contains step.name && !effectIds.contains step.effectId &&
      !effectIds.contains step.compensationEffectId &&
      validSteps (step.name :: names) (step.compensationEffectId :: step.effectId :: effectIds) steps

def validRecord (sagaId : JSString) (record : SagaRecord V) : Bool :=
  decide (record.sagaId = sagaId) && isSafeInteger record.version && decide (1 ≤ record.version) &&
    boundedToken record.definition 128 &&
    (record.owner.all fun owner => boundedToken owner 64 &&
      record.leaseUntil.any isSafeInteger) &&
    isSafeInteger record.createdAt && isSafeInteger record.updatedAt &&
    decide (record.createdAt ≤ record.updatedAt) && validSteps [] [] record.steps

def load (sagaId : JSString) (stored : Option (SagaRecord V)) : Option (SagaRecord V) :=
  stored.filter (validRecord sagaId)

def loadOwned (sagaId owner : JSString) (stored : Option (SagaRecord V)) :
    Option (SagaRecord V) :=
  (load sagaId stored).filter fun record => decide (record.owner = some owner)

/-- `loadFor` after its checks on the arguments, `none` when it throws. -/
def loadFor (definition : SagaDefinition) (sagaId : JSString) (stored : Option (SagaRecord V)) :
    Option (SagaRecord V) :=
  (load sagaId stored).filter fun record => decide (record.definition = definition.name)

/-- `save` up to its compare-and-set, `none` when it throws before. -/
def save (leaseMs reading : ℕ) (current update : SagaRecord V) :
    Option (DurableSagaTransitionInput V) :=
  let issue (record : SagaRecord V) : Option (DurableSagaTransitionInput V) :=
    let input := ⟨current.sagaId, current.version, { record with version := current.version + 1 }⟩
    (transitionSaga (some current) input).map fun next => { input with record := next }
  match update.owner with
  | none => issue update
  | some _ => (readClock reading).bind fun now => (addDuration now leaseMs).bind fun leaseUntil =>
      issue { update with leaseUntil := some leaseUntil }

/-- A save of the record in a new state, from the `k`-th clock reading on. -/
def saveState (leaseMs : ℕ) (o : Oracle) (k : ℕ) (record : SagaRecord V) (state : SagaState) :
    Option (DurableSagaTransitionInput V) :=
  (readClock (o.now k)).bind fun now =>
    save leaseMs (o.now (k + 1)) record { record with state := state, updatedAt := now }

/-- A save of the record with one step replaced, from the `k`-th clock reading on. -/
def saveStep (leaseMs : ℕ) (o : Oracle) (k : ℕ) (record : SagaRecord V) (index : ℕ)
    (step : SagaStepRecord V) (state : SagaState) : Option (DurableSagaTransitionInput V) :=
  (readClock (o.now k)).bind fun now =>
    save leaseMs (o.now (k + 1)) record (withSagaStep record index step state now)

/-- `claim`: `none` when it throws, `some none` when the owner holds the saga already, and else
the write that takes it. -/
def claim (leaseMs : ℕ) (o : Oracle) (owner : JSString) (record : SagaRecord V) :
    Option (Option (DurableSagaTransitionInput V)) :=
  if record.owner = some owner then some none
  else if record.owner.isSome && record.leaseUntil.any fun leaseUntil =>
      (readClock (o.now 0)).all fun now => decide (now < leaseUntil) then none
  else (readClock (o.now 1)).bind fun now =>
    (save leaseMs (o.now 2) record { record with owner := some owner, updatedAt := now }).map some

/-- How user code settles: with a value, or with an error that the engine may tell apart. -/
inductive Outcome (V : Type)
  | value (value : V)
  | concurrencyError
  | notCommittedError (code : JSString)
  | error
  deriving DecidableEq

inductive Resolution (V : Type)
  | committed (step effectId : JSString) (result : V)
  | notCommitted (step effectId : JSString) (errorCode : Option JSString)
  | compensation (step effectId : JSString) (compensated : Bool)
  deriving DecidableEq

def Resolution.step : Resolution V → JSString
  | .committed step _ _ | .notCommitted step _ _ | .compensation step _ _ => step

inductive Wait (V : Type)
  | created
  | resumeLoad
  | resumeClaim
  | running
  | finishLoad
  | finishSave
  | catchLoad
  | compensateLoad
  | compensateClaim
  | compensateReview
  | compensateBegin
  | compensateStop
  | compensateExecuting (index : ℕ) (step : SagaStepRecord V) (record : SagaRecord V)
  | compensating (index : ℕ) (step : SagaStepRecord V) (record : SagaRecord V)
  | compensateCommitted (index : ℕ) (step : SagaStepRecord V) (record : SagaRecord V)
  | compensateFailed (index : ℕ) (step : SagaStepRecord V) (record : SagaRecord V)
  | compensateInvalid (index : ℕ) (step : SagaStepRecord V) (record : SagaRecord V)
  | compensateDone
  | releaseLoad
  | releaseSave
  | stepLoad (name : JSString) (compensationArgs : V)
  | stepReview
  | stepIntent (name effectId : JSString)
  | executing (name effectId : JSString)
  | commitLoad (effectId : JSString) (result : V)
  | commitSave (effectId : JSString)
  | failLoad (effectId : JSString) (began : Bool) (notCommitted : Option JSString)
  | failSave (effectId : JSString)
  | resolveLoad (resolution : Resolution V)
  | resolveSave (resolution : Resolution V)
  | done
  deriving DecidableEq

inductive Answer (V : Type)
  | loaded (record : Option (SagaRecord V))
  | created (accepted : Bool)
  | saved (input : DurableSagaTransitionInput V) (accepted : Bool)
  | raised

inductive Operation (V : Type)
  | none
  | get
  | create (record : SagaRecord V)
  | compareAndSet (input : DurableSagaTransitionInput V)
  | answered (answer : Answer V)

/-- What happens beside a wait: the context of `run` exists from here on, or user code is
invoked. -/
inductive Note
  | opened
  | executed (name effectId : JSString)
  | compensated (index : ℕ) (name : JSString) (attempt : ℕ)
  deriving DecidableEq

structure Next (V : Type) where
  wait : Wait V
  operation : Operation V
  note : Option Note := Option.none

/-- A thread: a call, or a step under a call, with the call's owner id and lease. A resolution
takes no ownership, and its owner id is not read. -/
structure Thread (V : Type) where
  owner : JSString
  leaseMs : ℕ
  wait : Wait V
  operation : Operation V

namespace Next

def finished : Next V := ⟨.done, .none, none⟩

/-- The `finally` of `withFreshOwner`. -/
def release : Next V := ⟨.releaseLoad, .get, none⟩

/-- The write was issued, unless `save` threw. -/
def write (wait : Wait V) (input : Option (DurableSagaTransitionInput V)) (thrown : Next V) :
    Next V :=
  match input with
  | some input => ⟨wait, .compareAndSet input, none⟩
  | none => thrown

end Next

open Next

def busy (step : SagaStepRecord V) : Bool :=
  step.state == .ambiguous || step.state == .executing || step.state == .compensating

/-- The second write of `failed`, after the first one threw. -/
def invalidRetryPolicy (leaseMs : ℕ) (o : Oracle) (index : ℕ) (step : SagaStepRecord V)
    (record : SagaRecord V) : Next V :=
  let failed := { step with
    state := .compensationFailed
    errorCode := some (js "invalid_retry_policy") }
  write (.compensateInvalid index step record)
    (saveStep leaseMs o 6 record index failed .manualReview) release

/-- The transition `failed` of a compensation. -/
def compensationFailed (definition : SagaDefinition) (leaseMs : ℕ) (o : Oracle) (index : ℕ)
    (step : SagaStepRecord V) (record : SagaRecord V) : Next V :=
  let failed := { step with
    state := .compensationFailed
    errorCode := some (js "compensation_failed") }
  let input :=
    if definition.attempts ≤ step.attempts then
      saveStep leaseMs o 4 record index failed .manualReview
    else (definition.backoff step.attempts).bind fun delay =>
      (readClock (o.now 3)).bind fun now => (addDuration now delay).bind fun nextAttemptAt =>
        saveStep leaseMs o 4 record index { failed with nextAttemptAt := some nextAttemptAt }
          .compensating
  write (.compensateFailed index step record) input (invalidRetryPolicy leaseMs o index step record)

/-- The loop of `compensateOwned` over the steps below an index, from the last one down. -/
def compensateFrom (definition : SagaDefinition) (leaseMs : ℕ) (o : Oracle)
    (record : SagaRecord V) : ℕ → Next V
  | 0 => write .compensateDone (saveState leaseMs o 0 record .compensated) release
  | index + 1 =>
    if o.aborted index then release
    else match record.steps[index]? with
      | none => compensateFrom definition leaseMs o record index
      | some step =>
        if step.state ≠ .committed ∧ step.state ≠ .compensationFailed then
          compensateFrom definition leaseMs o record index
        else if step.nextAttemptAt.any fun nextAttemptAt =>
            (readClock (o.due index)).all fun now => decide (now < nextAttemptAt) then release
        else if !definition.compensators step.name then
          write .compensateStop (saveState leaseMs o 0 record .manualReview) release
        else if definition.attempts ≤ step.attempts then
          if record.state = .manualReview then release
          else write .compensateStop (saveState leaseMs o 0 record .manualReview) release
        else
          let step := { step with
            state := .compensating
            attempts := step.attempts + 1
            errorCode := none
            nextAttemptAt := none }
          let thrown := compensationFailed definition leaseMs o index step record
          if o.abortedRun then thrown
          else write (.compensateExecuting index step record)
            (saveStep leaseMs o 1 record index step record.state) thrown

/-- `compensateOwned` once the saga is claimed. -/
def compensateClaimed (definition : SagaDefinition) (leaseMs : ℕ) (o : Oracle)
    (record : SagaRecord V) : Next V :=
  if record.steps.any busy then
    if record.state = .manualReview then release
    else write .compensateReview (saveState leaseMs o 0 record .manualReview) release
  else if record.state = .compensating then
    compensateFrom definition leaseMs o record record.steps.length
  else write .compensateBegin (saveState leaseMs o 0 record .compensating) release

/-- The transition `failed` of an execution. -/
def executionFailed (effectId : JSString) (began : Bool) (notCommitted : Option JSString) :
    Next V :=
  ⟨.failLoad effectId began notCommitted, .get, none⟩

/-- A step once its record is loaded: it was run before, or its intent is written. -/
def stepLoaded (leaseMs : ℕ) (o : Oracle) (name : JSString) (compensationArgs : V)
    (record : SagaRecord V) : Next V :=
  if record.state ≠ .running then finished
  else match record.steps.find? fun step => step.name = name with
    | some existing =>
      if existing.state = .executing ∨ existing.state = .ambiguous then
        write .stepReview (saveState leaseMs o 0 record .manualReview) finished
      else finished
    | none =>
      let step : SagaStepRecord V := {
        name := name
        effectId := o.effectId
        compensationEffectId := o.compensationEffectId
        state := .executing
        compensationArgs := compensationArgs
        attempts := 0 }
      let thrown := executionFailed o.effectId false o.notCommitted
      if o.abortedRun then thrown
      else write (.stepIntent name o.effectId)
        ((readClock (o.now 0)).bind fun now => save leaseMs (o.now 1) record
          { record with steps := record.steps ++ [step], updatedAt := now }) thrown

/-- The transition `committed` of an execution, once the record is loaded. -/
def executionCommitted (leaseMs : ℕ) (o : Oracle) (effectId : JSString) (result : V)
    (record : SagaRecord V) : Next V :=
  let index := record.steps.findIdx fun step => step.effectId = effectId
  let thrown := executionFailed effectId true none
  match record.steps[index]? with
  | none => thrown
  | some step => write (.commitSave effectId)
      (saveStep leaseMs o 0 record index { step with state := .committed, result := some result }
        record.state) thrown

/-- The transition `failed` of an execution, once the record is loaded. -/
def failureLoaded (leaseMs : ℕ) (o : Oracle) (effectId : JSString) (began : Bool)
    (notCommitted : Option JSString) (record : SagaRecord V) : Next V :=
  let index := record.steps.findIdx fun step => step.effectId = effectId
  match record.steps[index]? with
  | none => finished
  | some step =>
    let known := notCommitted.isSome || !began
    let failed := { step with
      state := if known then .failed else .ambiguous
      errorCode := some (notCommitted.getD
        (if began then js "execution_unknown" else js "aborted_before_execution")) }
    write (.failSave effectId)
      (saveStep leaseMs o 0 record index failed (if known then .compensating else .manualReview))
      finished

/-- The step and the state that a resolution leads to, `none` when it throws. -/
def resolved (definition : SagaDefinition) (current : SagaStepRecord V) :
    Resolution V → Option (SagaStepRecord V × SagaState)
  | .committed _ effectId result =>
    if current.effectId ≠ effectId ∨ current.state ≠ .executing ∧ current.state ≠ .ambiguous then
      none
    else some ({ current with state := .committed, errorCode := none, result := some result },
      .running)
  | .notCommitted _ effectId errorCode =>
    let errorCode := errorCode.getD (js "not_committed")
    if current.effectId ≠ effectId ∨ current.state ≠ .executing ∧ current.state ≠ .ambiguous ∨
        isErrorCode errorCode = false then
      none
    else some ({ current with state := .failed, errorCode := some errorCode, result := none },
      .compensating)
  | .compensation _ effectId compensated =>
    if current.compensationEffectId ≠ effectId ∨ current.state ≠ .compensating then none
    else some ({ current with
        state := if compensated then .compensated else .compensationFailed
        errorCode := none
        nextAttemptAt := none },
      if !compensated && decide (definition.attempts ≤ current.attempts) then .manualReview
      else .compensating)

/-- `resolveAmbiguity`, once the record is loaded. -/
def resolutionLoaded (definition : SagaDefinition) (leaseMs : ℕ) (o : Oracle)
    (resolution : Resolution V) (record : SagaRecord V) : Next V :=
  let index := record.steps.findIdx fun step => step.name = resolution.step
  match record.steps[index]? with
  | none => finished
  | some current =>
    match resolved definition current resolution with
    | none => finished
    | some (step, state) =>
      write (.resolveSave resolution) (saveStep leaseMs o 0 record index step state) finished

end Nifra.Durable.SagaEngine
