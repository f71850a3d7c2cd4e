import Mathlib.Data.Rat.Defs
import Mathlib.Algebra.Order.Ring.Unbundled.Rat
import Nifra.Lib.InsertionMap
import Nifra.Lib.Runs
import Nifra.WebMcp.Patch

/-! # The prediction store

`createPredictionStore`: predictions are overlays over an authoritative state, replayed in their
order. A store keeps a log of the events that it emits, and of the predictions that a snapshot
drops without one.
-/

namespace Nifra.WebMcp

/-- How states are patched: `applyPredictionPatch`, the checks of a patch, `deepEqual`. -/
structure Patching (S P : Type) where
  apply : S → P → Except JSError S
  validate : P → Except JSError Unit
  equal : S → S → Bool

def jsonPatching : Patching JSON.Value (List PatchOperation) :=
  ⟨applyPredictionPatch, validatePatch, deepEqual⟩

variable {S P : Type}

structure Prediction (P : Type) where
  baseVersion : JSString
  patch : P
  expiresAt : Option ℚ
  deriving DecidableEq, Repr

/-- An authoritative state as the caller passes it; one that does not clone is none. -/
structure Authoritative (S : Type) where
  state : Option S
  version : JSString
  deriving DecidableEq, Repr

inductive ReconciliationMode
  | acceptServerState
  | reload
  | manual
  deriving DecidableEq, Repr

structure Snapshot (S : Type) where
  state : S
  version : JSString
  authoritativeVersion : JSString
  activePredictionIds : List JSString
  deriving DecidableEq, Repr

inductive EventType
  | predicted
  | committed
  | rolledBack
  | conflicted
  | expired
  deriving DecidableEq, Repr

structure StoreEvent (S : Type) where
  type : EventType
  predictionId : JSString
  snapshot : Snapshot S
  deriving DecidableEq, Repr

inductive Outcome
  | predicted
  | committed
  | rolledBack
  | conflicted
  | expired
  | stale
  | invalid
  | missing
  deriving DecidableEq, Repr

structure Result (S : Type) where
  outcome : Outcome
  predictionId : JSString
  snapshot : Snapshot S
  deriving DecidableEq, Repr

inductive Entry (S : Type)
  | emitted (event : StoreEvent S)
  | dropped (id : JSString)
  deriving DecidableEq, Repr

structure Store (S P : Type) where
  state : S
  version : JSString
  active : InsertionMap JSString (Prediction P)
  conflicted : InsertionMap JSString Unit
  order : List JSString
  log : List (Entry S)

def maxActivePredictions : ℕ := 256

def validateIdentifier (id : JSString) : Except JSError Unit :=
  if id = [] ∨ 128 < id.length then
    .error (.typeError "agent surface: prediction id is invalid")
  else .ok ()

def isVersionUnit (c : ℕ) : Bool :=
  decide (48 ≤ c ∧ c ≤ 57 ∨ 65 ≤ c ∧ c ≤ 90 ∨ 97 ≤ c ∧ c ≤ 122) || (js "-._:/").contains c

def validateVersion (version : JSString) : Except JSError Unit :=
  if version ≠ [] ∧ version.length ≤ 128 ∧ version.all isVersionUnit then .ok ()
  else .error (.typeError "agent surface: version is invalid")

def isExpiry (expiresAt : ℚ) : Bool :=
  expiresAt.den = 1 && isSafeInteger expiresAt.num.natAbs

def validatePrediction (p : Patching S P) (prediction : Prediction P) : Except JSError Unit := do
  validateVersion prediction.baseVersion
  if prediction.expiresAt.any fun expiresAt => !isExpiry expiresAt then
    .error (.typeError "agent surface: prediction expiry is invalid")
  else p.validate prediction.patch

/-- `cloneValue` of an authoritative state. -/
def cloneState (state : Option S) : Except JSError S :=
  match state with
  | some state => .ok state
  | none =>
    .error (.typeError "agent surface: authoritative state must be structured-cloneable")

/-- An expiry is a safe integer: a clock that is no number reads like one below all of them. -/
def Prediction.isExpired (prediction : Prediction P) (now : ℚ) : Bool :=
  prediction.expiresAt.any fun expiresAt => expiresAt ≤ now

namespace Store
variable (p : Patching S P) (s : Store S P)

def create (initial : Authoritative S) : Except JSError (Store S P) :=
  match initial.state with
  | none => .error (.typeError "agent surface: initial state must be structured-cloneable")
  | some state => do
    validateVersion initial.version
    .ok ⟨state, initial.version, ∅, ∅, [], []⟩

def removeActive (id : JSString) : Store S P :=
  { s with active := s.active.delete id, order := s.order.erase id }

def rememberConflict (id : JSString) : Store S P :=
  let conflicted := s.conflicted.delete id
  let conflicted :=
    if maxActivePredictions ≤ conflicted.size then
      match conflicted.keys with
      | [] => conflicted
      | oldest :: _ => conflicted.delete oldest
    else conflicted
  { s with conflicted := conflicted.set id () }

def drop (id : JSString) : Store S P := (s.removeActive id).rememberConflict id

/-- The patch of an active prediction; a place without one is passed over. -/
def applyStored (state : S) (id : JSString) : Option S :=
  match s.active.get id with
  | none => some state
  | some stored => (p.apply state stored.patch).toOption

def snapshot : Store S P × Snapshot S :=
  let (state, invalid) := Replay.replay (s.applyStored p) s.state s.order
  let s := invalid.foldl (fun s id => { s.drop id with log := .dropped id :: s.log }) s
  (s, ⟨state, s.version, s.version, s.order.filter s.active.has⟩)

def emit (type : EventType) (predictionId : JSString) (snapshot : Snapshot S) : Store S P :=
  { s with log := .emitted ⟨type, predictionId, snapshot⟩ :: s.log }

/-- The values of the patch were cloned by their checks, and their clones are kept. -/
def predict (id : JSString) (prediction : Prediction P) (now : ℚ) :
    Store S P × Except JSError (Result S) :=
  match validateIdentifier id >>= fun _ => validatePrediction p prediction with
  | .error error => (s, .error error)
  | .ok _ =>
    let (s, current) := s.snapshot p
    if s.active.has id || s.conflicted.has id then (s, .ok ⟨.invalid, id, current⟩)
    else if maxActivePredictions ≤ s.active.size then (s, .ok ⟨.invalid, id, current⟩)
    else if prediction.baseVersion ≠ s.version then (s, .ok ⟨.stale, id, current⟩)
    else if prediction.isExpired now then (s, .ok ⟨.expired, id, current⟩)
    else
      match p.apply current.state prediction.patch with
      | .error error => (s, .error error)
      | .ok candidate =>
        let s := { s with active := s.active.set id prediction, order := s.order ++ [id] }
        let (s, next) := s.snapshot p
        if p.equal candidate next.state then
          (s.emit .predicted id next, .ok ⟨.predicted, id, next⟩)
        else
          let (s, left) := (s.removeActive id).snapshot p
          (s, .ok ⟨.invalid, id, left⟩)

def discardFrom (s : Store S P) (projected : S) : List JSString → Store S P × List JSString
  | [] => (s, [])
  | id :: ids =>
    match s.active.get id with
    | none => discardFrom s projected ids
    | some stored =>
      let next :=
        if stored.baseVersion ≠ s.version then none
        else (p.apply projected stored.patch).toOption
      match next with
      | some projected => discardFrom s projected ids
      | none =>
        let (s, discarded) := discardFrom (s.drop id) projected ids
        (s, id :: discarded)

def discardUnreplayablePredictions : Store S P × List JSString := discardFrom p s s.state s.order

def adopt (id : JSString) (next : Authoritative S) : Store S P × Except JSError (Result S) :=
  match validateVersion next.version >>= fun _ => cloneState next.state with
  | .error error => (s, .error error)
  | .ok nextState =>
    let s := { s.removeActive id with state := nextState, version := next.version }
    let (s, discarded) := s.discardUnreplayablePredictions p
    let (s, committed) := s.snapshot p
    let s := s.emit .committed id committed
    let s := discarded.foldl (fun s id => s.emit .conflicted id committed) s
    (s, .ok ⟨.committed, id, committed⟩)

def commit (id : JSString) (next : Authoritative S) (now : ℚ)
    (reconciliation : Option ReconciliationMode) : Store S P × Except JSError (Result S) :=
  match validateIdentifier id with
  | .error error => (s, .error error)
  | .ok _ =>
    let acceptServerState := reconciliation = some .acceptServerState
    let stored := s.active.get id
    let (s, current) := s.snapshot p
    match stored with
    | none =>
      if s.conflicted.has id then
        let s := { s with conflicted := s.conflicted.delete id }
        if acceptServerState then s.adopt p id next
        else (s, .ok ⟨.conflicted, id, current⟩)
      else (s, .ok ⟨.missing, id, current⟩)
    | some stored =>
      if stored.isExpired now then
        let (s, expired) := (s.removeActive id).snapshot p
        (s.emit .expired id expired, .ok ⟨.expired, id, expired⟩)
      else if stored.baseVersion ≠ s.version ∧ ¬ acceptServerState then
        let (s, conflicted) := (s.drop id).snapshot p
        (s.emit .conflicted id conflicted, .ok ⟨.conflicted, id, conflicted⟩)
      else s.adopt p id next

def rollback (id : JSString) : Store S P × Except JSError (Result S) :=
  match validateIdentifier id with
  | .error error => (s, .error error)
  | .ok _ =>
    if s.active.has id then
      let (s, rolledBack) := (s.removeActive id).snapshot p
      (s.emit .rolledBack id rolledBack, .ok ⟨.rolledBack, id, rolledBack⟩)
    else
      let (s, current) := s.snapshot p
      (s, .ok ⟨.missing, id, current⟩)

def expireFrom (now : ℚ) (s : Store S P) : List JSString → Store S P × List JSString
  | [] => (s, [])
  | id :: ids =>
    if (s.active.get id).any fun stored => stored.isExpired now then
      let (s, snapshot) := (s.removeActive id).snapshot p
      let (s, expired) := expireFrom now (s.emit .expired id snapshot) ids
      (s, id :: expired)
    else expireFrom now s ids

def expire (now : ℚ) : Store S P × List JSString := expireFrom p now s s.order

end Store

inductive Call (S P : Type)
  | predict (id : JSString) (prediction : Prediction P) (now : ℚ)
  | commit (id : JSString) (next : Authoritative S) (now : ℚ)
      (reconciliation : Option ReconciliationMode)
  | rollback (id : JSString)
  | expire (now : ℚ)
  | snapshot

def Store.step (p : Patching S P) (s : Store S P) : Call S P → Option (Store S P)
  | .predict id prediction now => some (s.predict p id prediction now).1
  | .commit id next now reconciliation => some (s.commit p id next now reconciliation).1
  | .rollback id => some (s.rollback p id).1
  | .expire now => some (s.expire p now).1
  | .snapshot => some (s.snapshot p).1

end Nifra.WebMcp
