import Mathlib.Algebra.Order.Ring.Int
import Mathlib.Data.List.Basic
import Nifra.Lib.Runs

/-! # The mutation store

A call of `mutate` gives way wherever code of the application runs: the listeners of a state, the
mutation function, the callbacks. Whatever happens meanwhile, the call looks whether it was
cancelled before it goes on.
-/

namespace Nifra.Query

inductive MutationStatus
  | idle
  | pending
  | success
  | error
  deriving DecidableEq

structure MutationState (V D E : Type) where
  status : MutationStatus
  data : Option D
  error : Option E
  vars : Option V
  deriving DecidableEq

variable {V D E : Type}

def MutationState.idle : MutationState V D E := ⟨.idle, none, none, none⟩

structure MutationCallbacks where
  onMutate : Bool
  onSuccess : Bool
  onError : Bool
  onSettled : Bool

inductive Rejection (E : Type)
  | cancelled
  | error (error : E)
  deriving DecidableEq

/-- Where a call gives way: while the listeners hear of its state (`pending`, `failed`,
`published`), or while the named function or callback works. -/
inductive Place (D E : Type)
  | pending
  | onMutate
  | mutationFn
  | failed (error : E)
  | onError (error : E)
  | settledError (error : E)
  | published (data : D)
  | onSuccess (data : D)
  | settledData (data : D) (failure : Option E)
  | done (result : Except (Rejection E) D)
  deriving DecidableEq

/-- A call of `mutate`, with its token and the epoch it started at, and the result it had to
publish. -/
structure MutateCall (V D E : Type) where
  vars : V
  mine : ℕ
  epoch : ℕ
  aborted : Bool
  place : Place D E
  outcome : Option (Except E D)
  deriving DecidableEq

/-- What a call does that others can see, and how its work answered. -/
inductive Deed
  | setState
  | onMutate
  | mutationFn
  | onSuccess
  | onError
  | onSettled
  | workFailed
  | fnResolved
  deriving DecidableEq

/-- The store and its document. The server rotates the epoch to a value that it never had, so its
rotations are counted. A cancellation lists the flights that it has still to stop; `recent` is the
call made last since the store was reset or cancelled. -/
structure MutationStore (V D E : Type) where
  browser : Bool
  callbacks : MutationCallbacks
  state : MutationState V D E
  latest : ℕ
  active : List ℕ
  watching : Bool
  identityEpoch : ℕ
  documentEpoch : ℕ
  calls : List (MutateCall V D E)
  cancels : List (List ℕ)
  recent : Option ℕ
  log : List (ℕ × Deed)

def MutationStore.create (browser : Bool) (callbacks : MutationCallbacks) (documentEpoch : ℕ) :
    MutationStore V D E where
  browser := browser
  callbacks := callbacks
  state := .idle
  latest := 0
  active := []
  watching := false
  identityEpoch := documentEpoch
  documentEpoch := documentEpoch
  calls := []
  cancels := []
  recent := none
  log := []

namespace MutationStore

def stopWatchingWhenIdle (s : MutationStore V D E) : MutationStore V D E :=
  if s.active = [] then { s with watching := false } else s

/-- The first half of `cancel`, up to the listeners of the idle state. -/
def cancel (s : MutationStore V D E) : MutationStore V D E :=
  { s with
    identityEpoch := s.documentEpoch
    cancels := s.active :: s.cancels
    active := []
    state := .idle
    recent := none }

/-- One more flight of a cancellation is aborted, or the cancellation is over. -/
def stop (s : MutationStore V D E) : Option (MutationStore V D E) :=
  match s.cancels with
  | [] => none
  | [] :: cancels => some { s with cancels := cancels }.stopWatchingWhenIdle
  | (i :: pending) :: cancels =>
    some { s with
      cancels := pending :: cancels
      calls := s.calls.modify i fun call => { call with aborted := true } }

def reset (s : MutationStore V D E) : MutationStore V D E :=
  { s with latest := s.latest + 1, state := .idle, recent := none }

/-- The start of `mutate`, where the store has heard of the epoch. -/
def mutate (s : MutationStore V D E) (vars : V) : MutationStore V D E :=
  { s with
    latest := s.latest + 1
    active := s.active ++ [s.calls.length]
    watching := s.watching || s.browser
    state := ⟨.pending, none, none, some vars⟩
    calls := s.calls ++ [⟨vars, s.latest + 1, s.identityEpoch, false, .pending, none⟩]
    recent := some s.calls.length
    log := s.log ++ [(s.calls.length, .setState)] }

def goto (s : MutationStore V D E) (i : ℕ) (place : Place D E) (deeds : List Deed) :
    MutationStore V D E :=
  { s with
    calls := s.calls.modify i fun call => { call with place := place }
    log := s.log ++ deeds.map fun deed => (i, deed) }

def settle (s : MutationStore V D E) (i : ℕ) (result : Except (Rejection E) D) :
    MutationStore V D E :=
  let s := s.goto i (.done result) []
  { s with active := s.active.erase i }.stopWatchingWhenIdle

def publish (s : MutationStore V D E) (i : ℕ) (call : MutateCall V D E) (place : Place D E)
    (outcome : Except E D) (state : MutationState V D E) : MutationStore V D E :=
  let s := { s with
    calls := s.calls.modify i fun call => { call with place := place, outcome := some outcome } }
  if call.mine = s.latest then { s with state := state, log := s.log ++ [(i, .setState)] } else s

def note (s : MutationStore V D E) (i : ℕ) (deed : Deed) : MutationStore V D E :=
  { s with log := s.log ++ [(i, deed)] }

def callMutationFn (s : MutationStore V D E) (i : ℕ) : MutationStore V D E :=
  s.goto i .mutationFn [.mutationFn]

def fail (s : MutationStore V D E) (i : ℕ) (call : MutateCall V D E) (error : E) :
    MutationStore V D E :=
  (s.note i .workFailed).publish i call (.failed error) (.error error)
    ⟨.error, none, some error, some call.vars⟩

def succeed (s : MutationStore V D E) (i : ℕ) (call : MutateCall V D E) (data : D) :
    MutationStore V D E :=
  (s.note i .fnResolved).publish i call (.published data) (.ok data)
    ⟨.success, some data, none, some call.vars⟩

def settleError (s : MutationStore V D E) (i : ℕ) (error : E) : MutationStore V D E :=
  if s.callbacks.onSettled then s.goto i (.settledError error) [.onSettled]
  else s.settle i (.error (.error error))

/-- A failure of `onSettled` comes before one of `onSuccess`. -/
def finish (s : MutationStore V D E) (i : ℕ) (data : D) (settled success : Option E) :
    MutationStore V D E :=
  match settled, success with
  | some error, _ => s.settle i (.error (.error error))
  | none, some error => s.settle i (.error (.error error))
  | none, none => s.settle i (.ok data)

def settleData (s : MutationStore V D E) (i : ℕ) (data : D) (failure : Option E) :
    MutationStore V D E :=
  if s.callbacks.onSettled then s.goto i (.settledData data failure) [.onSettled]
  else s.finish i data none failure

/-- How what a call waits for ends: the listeners have heard, or the function or the callback
answers. -/
inductive Answer (D E : Type)
  | heard
  | data (data : D)
  | resolved
  | failed (error : E)

/-- What a call does next that was not cancelled, or nothing when it does not wait for such an
answer. -/
def next (s : MutationStore V D E) (i : ℕ) (call : MutateCall V D E) :
    Place D E → Answer D E → Option (MutationStore V D E)
  | .pending, .heard =>
    some (if s.callbacks.onMutate then s.goto i .onMutate [.onMutate] else s.callMutationFn i)
  | .onMutate, .resolved => some (s.callMutationFn i)
  | .onMutate, .failed error => some (s.fail i call error)
  | .mutationFn, .data data => some (s.succeed i call data)
  | .mutationFn, .failed error => some (s.fail i call error)
  | .failed error, .heard =>
    some (if s.callbacks.onError then s.goto i (.onError error) [.onError]
      else s.settleError i error)
  | .onError error, .resolved => some (s.settleError i error)
  | .onError _, .failed error => some (s.settle i (.error (.error error)))
  | .settledError error, .resolved => some (s.settle i (.error (.error error)))
  | .settledError _, .failed error => some (s.settle i (.error (.error error)))
  | .published data, .heard =>
    some (if s.callbacks.onSuccess then s.goto i (.onSuccess data) [.onSuccess]
      else s.settleData i data none)
  | .onSuccess data, .resolved => some (s.settleData i data none)
  | .onSuccess data, .failed error => some (s.settleData i data (some error))
  | .settledData data failure, .resolved => some (s.finish i data none failure)
  | .settledData data failure, .failed error => some (s.finish i data (some error) failure)
  | _, _ => none

/-- A call goes on, unless a cancellation has still to stop it: one that was aborted rejects, and
one whose epoch is over cancels all of them. -/
def resume (s : MutationStore V D E) (i : ℕ) (answer : Answer D E) :
    Option (MutationStore V D E) :=
  match s.calls[i]? with
  | none => none
  | some call =>
    if i ∈ s.cancels.flatten then none
    else if call.aborted then
      match call.place with
      | .done _ => none
      | _ => some (s.settle i (.error .cancelled))
    else if call.epoch ≠ s.documentEpoch then
      match call.place with
      | .done _ => none
      | _ => some s.cancel
    else s.next i call call.place answer

end MutationStore

/-- What may happen to a store. `rotate` is a new epoch in the document's cookies, `identityChanged`
the signal that the visitor changed. -/
inductive MutationEvent (V D E : Type)
  | mutate (vars : V)
  | reset
  | cancel
  | stop
  | resume (i : ℕ) (answer : MutationStore.Answer D E)
  | rotate
  | identityChanged
  | rebind (callbacks : MutationCallbacks)

/-- Where the epoch is a new one `mutate` cancels first, in events of their own: the document reads
its cookies once in a synchronous run, so no rotation comes between. -/
def mutationStep (s : MutationStore V D E) : MutationEvent V D E → Option (MutationStore V D E)
  | .mutate vars =>
    if s.documentEpoch = s.identityEpoch then some (s.mutate vars) else none
  | .reset => some s.reset
  | .cancel => some s.cancel
  | .stop => s.stop
  | .resume i answer => s.resume i answer
  | .rotate => some { s with documentEpoch := s.documentEpoch + 1 }
  | .identityChanged =>
    if s.browser then some (if s.watching then s.cancel else s) else none
  | .rebind callbacks => some { s with callbacks := callbacks }

end Nifra.Query
