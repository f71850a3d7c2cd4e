import Nifra.Idempotency.MemoryStore
import Nifra.Idempotency.StoreContract
import Nifra.Tools.IdempotencyStore

/-! # The idempotency lane

`gate` and `admit` as a machine of one request, which stops at every `await`. A store call is a
stop of its own, and what the environment does (the namespace resolver, the body, the digest, the
resumed program, the error boundary) is handed in. The effects of a program are known by the
marks it leaves on the request.
-/

namespace Nifra.Idempotency

open Tools (validIdempotencyKey validIdempotencyNamespace)

variable {T E : Type*}

/-- `createEffectEvidenceScope` -/
structure EffectScope where
  began : Bool
  committed : Bool
  uncertain : ℕ
  retryDeclared : Bool
  deriving DecidableEq, Repr

inductive EffectMark
  | began
  | committed
  | ambiguous
  | failed
  | safeToRetry
  deriving DecidableEq, Repr

def EffectScope.fresh : EffectScope := ⟨false, false, 0, false⟩

def EffectScope.mark (s : EffectScope) : EffectMark → EffectScope
  | .began => { s with began := true, retryDeclared := false, uncertain := s.uncertain + 1 }
  | .committed => { s with began := true, committed := true, uncertain := s.uncertain - 1 }
  | .ambiguous =>
    { s with began := true, retryDeclared := false, uncertain := max 1 s.uncertain }
  | .failed => { s with began := true, retryDeclared := false, uncertain := s.uncertain - 1 }
  -- A declaration after an effect began throws.
  | .safeToRetry => if s.began then s else { s with retryDeclared := true }

def EffectScope.safeToRetry (s : EffectScope) : Bool := s.retryDeclared && !s.began

/-- What the lane reads of a route. The namespace is fixed or resolved for each request; the
wrapper adds headers. -/
structure Route (T E : Type*) where
  ttlMs : T
  pendingTtlMs : Option T
  ns : Option JSString
  maxResponseBytes : ℕ
  bodyLimit : ℕ
  wrapResponse : Response E → Response E
  wrapResponse_status : ∀ response, (wrapResponse response).status = response.status

/-- What the lane reads of a prepared request: why it could not be copied, its key header, and the
length of a body that a codec has decoded. -/
structure Prepared (E : Type*) where
  failure : Option E
  key : Option JSString
  decoded : Option ℕ

def timedOut : Response E := jsonError 503 "request_timeout" false

def reservationLost : Response E := jsonError 503 "idempotency_reservation_lost" true

def refusals : List ℕ := [401, 403, 408, 409, 425, 429]

inductive Next (E : Type*)
  | begun
  | timedOut
  | rethrow (error : Failure E)
  | respond (response : Response E)
  deriving DecidableEq, Repr

/-- Why a response is serialized: it is the program's, or takes the place of one. -/
inductive Capture
  | response
  | tooLarge
  | empty
  | terminal
  deriving DecidableEq, Repr

inductive Stop (T E : Type*)
  | resolving
  | reading
  | digesting
  | calling (op : StoreOp T) (answer : Option StoreAnswer) (next : Next E)
  | running (reservation : JSString)
  | replaying
  | capturing (reservation : JSString) (response : Response E) (capture : Capture)
  | failing (error : Failure E)
  | answered (outcome : Except (Failure E) (Response E))

/-- A settlement that the lane has asked for, and whether an effect had begun then. -/
structure Settlement where
  abandons : Bool
  reservation : JSString
  began : Bool
  deriving DecidableEq, Repr

/-- `settlements` and `refused` are kept for the record. -/
structure Request (T E : Type*) where
  route : Route T E
  decoded : Option ℕ
  key : JSString
  ns : JSString
  aborted : Bool
  reservation : Option JSString
  scope : Option EffectScope
  entered : Bool
  heartbeat : Bool
  escaped : Option (Failure E)
  stop : Stop T E
  settlements : List Settlement
  refused : Bool

inductive LaneAnswer (E : Type*)
  | ns (answer : Except E JSString)
  | body (answer : Except E (Except ℕ Unit))
  | digest (answer : Except E JSString)
  | program (answer : Except E (Response E))
  | captured
  | boundary (answer : Except E (Response E))

namespace Request
variable (c : Request T E)

def entryKey : EntryKey := ⟨c.ns, c.key⟩

/-- `requestEffectEvidence(req).began` -/
def began : Bool := (c.scope.map EffectScope.began).getD false

/-- `requestIsSafeToRetry(req)` -/
def safeToRetry : Bool := (c.scope.map EffectScope.safeToRetry).getD false

def reply (response : Response E) : Request T E :=
  { c with stop := .answered (.ok (c.route.wrapResponse response)) }

/-- The `finally` of the reserved part. -/
def clearHeartbeat : Request T E := { c with heartbeat := false }

variable [DecidableEq E] in
/-- The `catch` of `gate`: what the program let escape has met its error boundary already. -/
def fail (error : Failure E) : Request T E :=
  if c.escaped = some error then { c with stop := .answered (.error error) }
  else { c with stop := .failing error }

def abandon (reservation : JSString) (next : Next E) : Request T E :=
  { c with
    stop := .calling (.abandon ⟨c.entryKey, reservation⟩) none next,
    settlements := ⟨true, reservation, c.began⟩ :: c.settlements }

def complete (reservation : JSString) (response : StoredResponse) (next : Next E) :
    Request T E :=
  { c with
    stop := .calling (.complete ⟨c.entryKey, reservation, response⟩) none next,
    settlements := ⟨false, reservation, c.began⟩ :: c.settlements }

def admitBody : Request T E :=
  if c.aborted then c.reply (jsonError 503 "request_timeout" false)
  else { c with stop := .digesting }

def readBody : Request T E :=
  match c.decoded with
  | none => { c with stop := .reading }
  | some length =>
    if c.route.bodyLimit < length then c.reply (jsonError 413 "payload_too_large" false)
    else c.admitBody

def enterNamespace (ns : JSString) : Request T E :=
  if ¬ validIdempotencyNamespace ns then
    c.reply (jsonError 500 "idempotency_namespace_invalid" false)
  else { c with ns := ns }.readBody

def afterRead : Except ℕ Unit → Request T E
  | .error status =>
    c.reply (jsonError status (if status = 413 then "payload_too_large" else "bad_request") false)
  | .ok () => c.admitBody

def afterDigest (fingerprint : JSString) : Request T E :=
  let input : BeginInput T := ⟨c.entryKey, fingerprint, c.route.ttlMs, c.route.pendingTtlMs⟩
  { c with stop := .calling (.begin input) none .begun }

def settleThrown (reservation : JSString) (error : Failure E) : Request T E :=
  if ¬ c.began then c.abandon reservation (.rethrow error)
  else { c with stop := .capturing reservation (emptyResponse 500) .terminal }

def settleResponse (reservation : JSString) (response : Response E) : Request T E :=
  if ¬ c.entered ∧ ¬ c.began then c.abandon reservation (.respond response)
  else if (response.status ∈ refusals ∨ 500 ≤ response.status ∧ c.safeToRetry) ∧ ¬ c.began then
    c.abandon reservation (.respond response)
  else { c with stop := .capturing reservation response .response }

variable [DecidableEq E]

def afterBegin : BeginResult → Request T E
  | .mismatch => c.reply (jsonError 409 "idempotency_key_reused" false)
  | .inFlight => c.reply (jsonError 409 "idempotency_in_progress" true)
  | .capacity => c.reply (jsonError 503 "idempotency_store_capacity" true)
  | .replay stored =>
    if c.aborted then c.reply timedOut
    else
      let c := { c with scope := some .fresh }
      match responseFromStored (E := E) stored c.route.maxResponseBytes with
      | .error (.failed error) => c.fail error
      | .error (.tooLarge _) =>
        c.fail (.own (.error "idempotency response exceeds the storage bound"))
      | .ok _ => { c with stop := .replaying }
  | .new reservation =>
    let c := { c with reservation := some reservation }
    if c.aborted then c.abandon reservation .timedOut
    else
      { c with
        scope := some .fresh,
        heartbeat := c.route.pendingTtlMs.isSome,
        stop := .running reservation }

def leave (error : Failure E) : Request T E := c.clearHeartbeat.fail error

def afterProgram (reservation : JSString) : Except E (Response E) → Request T E
  | .error error =>
    { c with escaped := some (.thrown error) }.settleThrown reservation (.thrown error)
  | .ok response => c.settleResponse reservation response

/-- What took the place of a response that is too large is serialized in turn, down to no body. -/
def afterCapture (reservation : JSString) (response : Response E) (capture : Capture) :
    Request T E :=
  match serializeResponse response c.route.maxResponseBytes, capture with
  | .ok stored, _ => c.complete reservation stored (.respond response)
  | .error (.tooLarge _), .response =>
    let response : Response E := jsonError 507 "idempotency_response_too_large" false
    { c with stop := .capturing reservation response .tooLarge }
  | .error (.tooLarge _), .tooLarge =>
    { c with stop := .capturing reservation (emptyResponse 507) .empty }
  | .error (.tooLarge _), _ =>
    c.leave (.own (.error "idempotency response exceeds the storage bound"))
  | .error (.failed error), .response => c.settleThrown reservation error
  | .error (.failed error), _ => c.leave error

def answer (a : LaneAnswer E) : Option (Request T E) :=
  match a, c.stop with
  | .ns (.error error), .resolving => some (c.fail (.thrown error))
  | .ns (.ok ns), .resolving => some (c.enterNamespace ns)
  | .body (.error error), .reading => some (c.fail (.thrown error))
  | .body (.ok read), .reading => some (c.afterRead read)
  | .digest (.error error), .digesting => some (c.fail (.thrown error))
  | .digest (.ok fingerprint), .digesting => some (c.afterDigest fingerprint)
  | .program result, .running reservation => some (c.afterProgram reservation result)
  | .program (.error error), .replaying =>
    some ({ c with escaped := some (.thrown error) }.fail (.thrown error))
  | .program (.ok response), .replaying => some { c with stop := .answered (.ok response) }
  | .captured, .capturing reservation response capture =>
    some (c.afterCapture reservation response capture)
  | .boundary (.error error), .failing _ =>
    some { c with stop := .answered (.error (.thrown error)) }
  | .boundary (.ok response), .failing _ => some { c with stop := .answered (.ok response) }
  | _, _ => none

def deliver : Option (Request T E) :=
  match c.stop with
  | .calling _ (some (.begun result)) .begun => some (c.afterBegin result)
  | .calling _ (some (.settled accepted)) next =>
    let c := { c with refused := c.refused || !accepted }
    match next with
    | .begun => none
    | .timedOut => some (c.reply timedOut)
    | .rethrow error => some (c.leave error)
    | .respond response =>
      some (c.clearHeartbeat.reply (if accepted then response else reservationLost))
  | _ => none

def reject (error : E) : Option (Request T E) :=
  match c.stop with
  | .calling _ _ _ => some (c.leave (.thrown error))
  | _ => none

def enter : Option (Request T E) :=
  match c.stop with
  | .running _ => if c.entered then none else some { c with entered := true }
  | _ => none

def mark (effect : EffectMark) : Option (Request T E) :=
  c.scope.map fun scope => { c with scope := some (scope.mark effect) }

end Request

def admitRequest [DecidableEq E] (route : Route T E) (prepared : Prepared E) : Request T E :=
  let c : Request T E :=
    { route := route, decoded := prepared.decoded, key := prepared.key.getD [], ns := [],
      aborted := false, reservation := none, scope := none, entered := false, heartbeat := false,
      escaped := none, stop := .resolving, settlements := [], refused := false }
  match prepared.failure with
  | some error => c.fail (.thrown error)
  | none =>
    if ¬ prepared.key.any validIdempotencyKey then
      c.reply (jsonError 400 "idempotency_key_required" false)
    else match route.ns with
      | none => c
      | some ns => c.enterNamespace ns

end Nifra.Idempotency
