import Nifra.Durable.Saga
import Nifra.Lib.Runs

/-! # Sagas as a machine

Any number of threads over the record of one saga. The store performs one operation at a
time; an operation may also raise, and then take effect later or never. A thread that is
not scheduled again has crashed, and clock readings may pass any lease.
-/

namespace Nifra.Durable.SagaEngine

open Next

variable {V : Type}

/-- `compensateOwned` up to its `loadFor`. -/
def compensateStart (o : Oracle) : Next V :=
  if o.abortedRun then release else ⟨.compensateLoad, .get, none⟩

def resumeStart (o : Oracle) : Next V :=
  if o.abortedRun then release else ⟨.resumeLoad, .get, none⟩

/-- The `try` of `resumeOwned`, up to `definition.run`. -/
def resumeClaimed (o : Oracle) : Next V :=
  if o.abortedRun then ⟨.catchLoad, .get, none⟩ else ⟨.running, .none, some .opened⟩

/-- The saga is claimed, when another owner id holds it or none, and then used. -/
def claimed (leaseMs : ℕ) (o : Oracle) (owner : JSString) (record : SagaRecord V) (wait : Wait V)
    (owned : Next V) : Next V :=
  match claim leaseMs o owner record with
  | none => release
  | some none => owned
  | some (some input) => ⟨wait, .compareAndSet input, none⟩

def readAnswered (definition : SagaDefinition) (sagaId : JSString) (thread : Thread V) (o : Oracle)
    (stored : Option (SagaRecord V)) : Next V :=
  match thread.wait with
  | .resumeLoad =>
    match loadFor definition sagaId stored with
    | none => release
    | some record =>
      if record.state ≠ .running then release
      else claimed thread.leaseMs o thread.owner record .resumeClaim (resumeClaimed o)
  | .finishLoad =>
    match load sagaId stored with
    | none => ⟨.catchLoad, .get, none⟩
    | some record =>
      if record.owner = some thread.owner ∧ record.state = .running then
        write .finishSave (saveState thread.leaseMs o 0 record .completed) ⟨.catchLoad, .get, none⟩
      else release
  | .catchLoad =>
    match loadOwned sagaId thread.owner stored with
    | none => release
    | some record => if record.state = .manualReview then release else compensateStart o
  | .compensateLoad =>
    match loadFor definition sagaId stored with
    | none => release
    | some record =>
      if record.state = .completed ∨ record.state = .compensated then release
      else claimed thread.leaseMs o thread.owner record .compensateClaim
        (compensateClaimed definition thread.leaseMs o record)
  | .releaseLoad =>
    match loadOwned sagaId thread.owner stored with
    | none => finished
    | some record =>
      let released := { record with owner := none, leaseUntil := none }
      write .releaseSave ((readClock (o.now 0)).bind fun now =>
        save thread.leaseMs (o.now 1) record { released with updatedAt := now }) finished
  | .stepLoad name compensationArgs =>
    match loadOwned sagaId thread.owner stored with
    | none => finished
    | some record => stepLoaded thread.leaseMs o name compensationArgs record
  | .commitLoad effectId result =>
    match loadOwned sagaId thread.owner stored with
    | none => executionFailed effectId true none
    | some record => executionCommitted thread.leaseMs o effectId result record
  | .failLoad effectId began notCommitted =>
    match loadOwned sagaId thread.owner stored with
    | none => finished
    | some record => failureLoaded thread.leaseMs o effectId began notCommitted record
  | .resolveLoad resolution =>
    match loadFor definition sagaId stored with
    | none => finished
    | some record => resolutionLoaded definition thread.leaseMs o resolution record
  | _ => finished

def saveAccepted (definition : SagaDefinition) (thread : Thread V) (o : Oracle)
    (saved : SagaRecord V) : Next V :=
  match thread.wait with
  | .resumeClaim => resumeClaimed o
  | .compensateClaim => compensateClaimed definition thread.leaseMs o saved
  | .compensateBegin => compensateFrom definition thread.leaseMs o saved saved.steps.length
  | .compensateExecuting index step _ =>
    ⟨.compensating index step saved, .none, some (.compensated index step.name step.attempts)⟩
  | .compensateCommitted index _ _ => compensateFrom definition thread.leaseMs o saved index
  | .stepIntent name effectId =>
    if o.abortedRun then executionFailed effectId false o.notCommitted
    else ⟨.executing name effectId, .none, some (.executed name effectId)⟩
  | .releaseSave | .stepReview | .commitSave _ | .failSave _ | .resolveSave _ => finished
  | _ => release

def saveRefused (definition : SagaDefinition) (thread : Thread V) (o : Oracle) (raised : Bool) :
    Next V :=
  match thread.wait with
  | .finishSave | .finishLoad => if raised then ⟨.catchLoad, .get, none⟩ else release
  | .compensateExecuting index step record | .compensateCommitted index step record =>
    compensationFailed definition thread.leaseMs o index step record
  | .compensateFailed index step record => invalidRetryPolicy thread.leaseMs o index step record
  | .stepIntent _ effectId => executionFailed effectId false none
  | .commitLoad effectId _ | .commitSave effectId => executionFailed effectId true none
  | .created | .releaseLoad | .releaseSave | .stepLoad _ _ | .stepReview | .failLoad _ _ _
  | .failSave _ | .resolveLoad _ | .resolveSave _ => finished
  | _ => release

def proceed (definition : SagaDefinition) (sagaId : JSString) (thread : Thread V) (o : Oracle) :
    Answer V → Next V
  | .created accepted => if accepted then resumeStart o else finished
  | .loaded stored => readAnswered definition sagaId thread o stored
  | .saved input true => saveAccepted definition thread o input.record
  | .saved _ false => saveRefused definition thread o false
  | .raised => saveRefused definition thread o true

/-- What a thread does once the user code that it waited for has settled. -/
def settle (definition : SagaDefinition) (thread : Thread V) (o : Oracle) (outcome : Outcome V) :
    Next V :=
  match thread.wait, outcome with
  | .running, .value _ => ⟨.finishLoad, .get, none⟩
  | .running, .concurrencyError => release
  | .running, _ => ⟨.catchLoad, .get, none⟩
  | .executing _ effectId, .value result => ⟨.commitLoad effectId result, .get, none⟩
  | .executing _ effectId, .notCommittedError code => executionFailed effectId true (some code)
  | .executing _ effectId, _ => executionFailed effectId true none
  | .compensating index step record, .value _ =>
    write (.compensateCommitted index step record)
      (saveStep thread.leaseMs o 0 record index { step with state := .compensated } record.state)
      (compensationFailed definition thread.leaseMs o index step record)
  | .compensating index step record, _ =>
    compensationFailed definition thread.leaseMs o index step record
  | _, _ => finished

/-- A call, up to its first operation on the store; `none` when it throws before. -/
inductive Call (V : Type)
  | execute (input : V)
  | resume
  | compensate
  | resolveAmbiguity (resolution : Resolution V)

def Resolution.effectId : Resolution V → JSString
  | .committed _ effectId _ | .notCommitted _ effectId _ | .compensation _ effectId _ => effectId

def start (definition : SagaDefinition) (sagaId : JSString) (o : Oracle) :
    Call V → Option (Next V)
  | .execute input =>
    if boundedToken sagaId 128 && !o.abortedRun then (readClock (o.now 0)).map fun now =>
      ⟨.created, .create {
        sagaId := sagaId
        definition := definition.name
        state := .running
        input := input
        steps := []
        createdAt := now
        updatedAt := now
        version := 1 }, none⟩
    else none
  | .resume => some (if boundedToken sagaId 128 then resumeStart o else release)
  | .compensate => some (if boundedToken sagaId 128 then compensateStart o else release)
  | .resolveAmbiguity resolution =>
    if boundedToken sagaId 128 && boundedToken resolution.step 128 &&
      boundedToken resolution.effectId 64 then some ⟨.resolveLoad resolution, .get, none⟩
    else none

/-- What the history records: the accepted writes, with the stored record before and after, and
the invocations of user code, a compensator with the stored record that it finds. -/
inductive Entry (V : Type)
  | wrote (thread : ℕ) (wait : Wait V) (base next : SagaRecord V)
  | executed (thread : ℕ) (name effectId : JSString)
  | compensated (thread index : ℕ) (name : JSString) (attempt : ℕ) (stored : Option (SagaRecord V))
  deriving DecidableEq

/-- The stored record, the threads, the contexts that user code holds (owner id and lease), the
operations that raised before they took effect, the identifiers drawn, and the history, latest
first. -/
structure State (V : Type) where
  stored : Option (SagaRecord V) := none
  threads : List (Thread V) := []
  contexts : List (JSString × ℕ) := []
  lost : List (ℕ × Wait V × Operation V) := []
  uuids : List JSString := []
  log : List (Entry V) := []

inductive Event (V : Type)
  | call (call : Call V) (owner : JSString) (leaseMs : ℕ) (o : Oracle)
  | step (context : ℕ) (name : JSString) (compensationArgs : V)
  | perform (thread : ℕ)
  | raise (thread : ℕ)
  | performLost (operation : ℕ)
  | proceed (thread : ℕ) (o : Oracle)
  | settle (thread : ℕ) (o : Oracle) (outcome : Outcome V)

namespace State

def compareAndSet (s : State V) (i : ℕ) (wait : Wait V) (input : DurableSagaTransitionInput V) :
    Bool × State V :=
  match s.stored with
  | none => (false, s)
  | some base =>
    match transitionSaga (some base) input with
    | none => (false, s)
    | some next => (true, { s with stored := some next, log := .wrote i wait base next :: s.log })

def perform (s : State V) (i : ℕ) (wait : Wait V) :
    Operation V → Option (Answer V × State V)
  | .get => some (.loaded s.stored, s)
  | .create record =>
    if s.stored.isSome then some (.created false, s)
    else some (.created true, { s with stored := some record })
  | .compareAndSet input =>
    let performed := s.compareAndSet i wait input
    some (.saved input performed.1, performed.2)
  | _ => none

/-- Thread `i` waits for this operation from here on. -/
def await (s : State V) (i : ℕ) (thread : Thread V) (operation : Operation V) : State V :=
  { s with threads := s.threads.set i { thread with operation := operation } }

/-- What happens beside the wait of thread `i`. -/
def note (s : State V) (i : ℕ) (thread : Thread V) : Option Note → State V
  | none => s
  | some .opened => { s with contexts := s.contexts ++ [(thread.owner, thread.leaseMs)] }
  | some (.executed name effectId) => { s with log := .executed i name effectId :: s.log }
  | some (.compensated index name attempt) =>
    { s with log := .compensated i index name attempt s.stored :: s.log }

/-- Thread `i` goes on to its next wait. -/
def advance (s : State V) (i : ℕ) (thread : Thread V) (next : Next V) : State V :=
  let thread' : Thread V := { thread with wait := next.wait, operation := next.operation }
  State.note { s with threads := s.threads.set i thread' } i thread next.note

def fork (s : State V) (owner : JSString) (leaseMs : ℕ) (next : Next V) : State V :=
  { s with threads := s.threads ++ [⟨owner, leaseMs, next.wait, next.operation⟩] }

end State

def Thread.draws (thread : Thread V) (o : Oracle) : List JSString :=
  match thread.wait with
  | .stepLoad _ _ => [o.effectId, o.compensationEffectId]
  | _ => []

/-- One event. A drawn identifier is new: `crypto.randomUUID` never repeats itself. -/
def step (definition : SagaDefinition) (sagaId : JSString) (s : State V) :
    Event V → Option (State V)
  | .call call owner leaseMs o =>
    if s.uuids.contains owner then none
    else (start definition sagaId o call).map fun next =>
      { s.fork owner leaseMs next with uuids := owner :: s.uuids }
  | .step context name compensationArgs =>
    match s.contexts[context]? with
    | none => none
    | some (owner, leaseMs) =>
      if boundedToken name 128 && definition.compensators name then
        some (s.fork owner leaseMs ⟨.stepLoad name compensationArgs, .get, none⟩)
      else none
  | .perform i => s.threads[i]?.bind fun thread =>
      (s.perform i thread.wait thread.operation).map fun performed =>
        performed.2.await i thread (.answered performed.1)
  | .raise i => s.threads[i]?.bind fun thread =>
      match thread.operation with
      | .none => none
      | operation => some { s.await i thread (.answered .raised) with
          lost := s.lost ++ [(i, thread.wait, operation)] }
  | .performLost k => s.lost[k]?.bind fun lost =>
      (s.perform lost.1 lost.2.1 lost.2.2).map (·.2)
  | .proceed i o => s.threads[i]?.bind fun thread =>
      match thread.operation with
      | .answered answer =>
        if (thread.draws o).Nodup ∧ ∀ id ∈ thread.draws o, id ∉ s.uuids then
          some { s.advance i thread (proceed definition sagaId thread o answer) with
            uuids := thread.draws o ++ s.uuids }
        else none
      | _ => none
  | .settle i o outcome => s.threads[i]?.bind fun thread =>
      match thread.operation with
      | .none => some (s.advance i thread (settle definition thread o outcome))
      | _ => none

end Nifra.Durable.SagaEngine
