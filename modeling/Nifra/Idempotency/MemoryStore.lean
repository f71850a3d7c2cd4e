import Mathlib.Order.Defs.LinearOrder
import Nifra.Lib.InsertionMap
import Nifra.Text.JSString

/-! # The in-process idempotency store

One entry for each reserved key, with a count of the entries of each namespace. An
entry past its `expiresAt` is treated as absent, and evicted when it is met or when a
sweep at capacity finds it. Each operation is handed the readings of the clock it makes,
in order, and `begin` the identifier it draws.
-/

namespace Nifra.Idempotency

structure StoredResponse where
  status : ℕ
  headers : List (JSString × JSString)
  body : JSString
  deriving DecidableEq, Repr

inductive BeginResult
  | new (reservation : JSString)
  | replay (response : StoredResponse)
  | mismatch
  | inFlight
  | capacity
  deriving DecidableEq, Repr

structure EntryKey where
  ns : JSString
  key : JSString
  deriving DecidableEq, Repr

structure BeginInput (T : Type*) extends EntryKey where
  fingerprint : JSString
  ttlMs : T
  pendingTtlMs : Option T
  deriving DecidableEq, Repr

structure CompletionInput extends EntryKey where
  reservation : JSString
  response : StoredResponse
  deriving DecidableEq, Repr

structure AbandonInput extends EntryKey where
  reservation : JSString
  deriving DecidableEq, Repr

structure RenewInput (T : Type*) extends EntryKey where
  reservation : JSString
  ttlMs : T
  deriving DecidableEq, Repr

structure MemoryEntry (T : Type*) where
  ns : JSString
  fingerprint : JSString
  reservation : JSString
  ttlMs : T
  expiresAt : T
  response : Option StoredResponse
  deriving DecidableEq, Repr

structure MemoryStoreOptions where
  maxEntries : Option ℤ
  maxEntriesPerNamespace : Option ℤ

structure MemoryStore (T : Type*) where
  entries : InsertionMap JSString (MemoryEntry T)
  perNamespace : InsertionMap JSString ℕ
  maxEntries : ℕ
  maxPerNamespace : ℕ

/-- `${namespace.length}:${namespace}${key}` -/
def storageKey (k : EntryKey) : JSString := decimal k.ns.length ++ js ":" ++ k.ns ++ k.key

theorem storageKey_injective : Function.Injective storageKey := fun k l h => by
  have hcolon : js ":" = [58] := rfl
  simp only [storageKey, hcolon, List.append_assoc, List.singleton_append] at h
  obtain ⟨hlen, hrest⟩ := decimal_append_inj (by omega) h
  obtain ⟨hns, hkey⟩ := List.append_inj hrest hlen
  cases k
  cases l
  simp_all

variable {T : Type*}

namespace MemoryStore

/-- The constructor: `maxEntries` is 10000 unless given, `maxPerNamespace` is `maxEntries`. -/
def create (options : MemoryStoreOptions) : Except JSError (MemoryStore T) :=
  let maxEntries := options.maxEntries.getD 10000
  let maxPerNamespace := options.maxEntriesPerNamespace.getD maxEntries
  if maxEntries < 1 then
    .error (.rangeError "idempotency: maxEntries must be a positive integer")
  else if maxPerNamespace < 1 then
    .error (.rangeError "idempotency: maxEntriesPerNamespace must be a positive integer")
  else .ok ⟨∅, ∅, maxEntries.toNat, maxPerNamespace.toNat⟩

def count (s : MemoryStore T) (ns : JSString) : ℕ := (s.perNamespace.get ns).getD 0

def full (s : MemoryStore T) (ns : JSString) : Bool :=
  s.maxEntries ≤ s.entries.size ∨ s.maxPerNamespace ≤ s.count ns

def drop (s : MemoryStore T) (key : JSString) (entry : MemoryEntry T) : MemoryStore T :=
  let left := (s.perNamespace.get entry.ns).getD 1 - 1
  { s with
      entries := s.entries.delete key,
      perNamespace :=
        if 0 < left then s.perNamespace.set entry.ns left else s.perNamespace.delete entry.ns }

variable [LinearOrder T]

def sweep (s : MemoryStore T) (now : T) : MemoryStore T :=
  s.entries.entries.foldl
    (fun s e => if e.2.expiresAt ≤ now then s.drop e.1 e.2 else s) s

variable [Add T]

/-- The part of `begin` that takes a free key. -/
def reserve (s : MemoryStore T) (input : BeginInput T) (uuid : JSString) (now now' : T) :
    MemoryStore T × BeginResult :=
  let s := if s.full input.ns then s.sweep now else s
  if s.full input.ns then (s, .capacity)
  else
    let entry : MemoryEntry T :=
      { ns := input.ns, fingerprint := input.fingerprint, reservation := uuid,
        ttlMs := input.ttlMs, expiresAt := now' + input.pendingTtlMs.getD input.ttlMs,
        response := none }
    ({ s with
        perNamespace := s.perNamespace.set input.ns (s.count input.ns + 1),
        entries := s.entries.set (storageKey input.toEntryKey) entry }, .new uuid)

/-- `begin`, whose clock readings are for the entry it finds, for a sweep at capacity and
for the new entry. -/
def begin (s : MemoryStore T) (input : BeginInput T) (uuid : JSString) (t₁ t₂ t₃ : T) :
    MemoryStore T × BeginResult :=
  match s.entries.get (storageKey input.toEntryKey) with
  | none => s.reserve input uuid t₂ t₃
  | some existing =>
    if t₁ < existing.expiresAt then
      if existing.fingerprint ≠ input.fingerprint then (s, .mismatch)
      else match existing.response with
        | some response => (s, .replay response)
        | none => (s, .inFlight)
    else (s.drop (storageKey input.toEntryKey) existing).reserve input uuid t₂ t₃

def complete (s : MemoryStore T) (input : CompletionInput) (t₁ t₂ : T) : MemoryStore T × Bool :=
  let key := storageKey input.toEntryKey
  match s.entries.get key with
  | none => (s, false)
  | some entry =>
    if entry.reservation ≠ input.reservation then (s, false)
    else if entry.expiresAt ≤ t₁ then (s.drop key entry, false)
    else
      let entry' := { entry with response := some input.response, expiresAt := t₂ + entry.ttlMs }
      ({ s with entries := s.entries.set key entry' }, true)

omit [Add T] in
/-- Only a still-pending reservation is dropped, never a completed response. -/
def abandon (s : MemoryStore T) (input : AbandonInput) (t₁ : T) : MemoryStore T × Bool :=
  let key := storageKey input.toEntryKey
  match s.entries.get key with
  | none => (s, false)
  | some entry =>
    if entry.expiresAt ≤ t₁ then (s.drop key entry, false)
    else if entry.response = none ∧ entry.reservation = input.reservation then
      (s.drop key entry, true)
    else (s, false)

def renew (s : MemoryStore T) (input : RenewInput T) (t₁ t₂ : T) : MemoryStore T × Bool :=
  let key := storageKey input.toEntryKey
  match s.entries.get key with
  | none => (s, false)
  | some entry =>
    if entry.reservation ≠ input.reservation ∨ entry.response ≠ none ∨ entry.expiresAt ≤ t₁ then
      (s, false)
    else
      ({ s with entries := s.entries.set key { entry with expiresAt := t₂ + input.ttlMs } }, true)

end MemoryStore

/-! ## Responses in the form a store keeps

`serializeResponse` reads a body within a bound and `responseFromStored` rebuilds a response. A
body is read to its end at one moment here: what matters is whether it fits, whether it fails,
and which octets it gives.
-/

inductive Failure (E : Type*)
  | thrown (error : E)
  | own (error : JSError)
  deriving DecidableEq, Repr

/-- A body: its chunks of octets, the failure that ends them, and whether it was read before. -/
structure Body (E : Type*) where
  chunks : List (List ℕ)
  failure : Option E
  used : Bool
  deriving DecidableEq, Repr

structure Response (E : Type*) where
  status : ℕ
  headers : List (JSString × JSString)
  body : Option (Body E)
  deriving DecidableEq, Repr

inductive CaptureError (E : Type*)
  | tooLarge (maxBytes : ℕ)
  | failed (error : Failure E)
  deriving DecidableEq, Repr

/-- A header's value, several of them joined as `Headers.get` joins them. -/
def headerValue (headers : List (JSString × JSString)) (name : JSString) : Option JSString :=
  match (headers.filter fun h => h.1 = name).map Prod.snd with
  | [] => none
  | values => some (List.intercalate (js ", ") values)

/-- `/^\d+$/` and its number -/
def digitsValue (text : JSString) : Option ℕ :=
  if text ≠ [] ∧ ∀ c ∈ text, 48 ≤ c ∧ c ≤ 57 then
    some (text.foldl (fun n c => 10 * n + (c - 48)) 0)
  else none

def replayUnsafeResponseHeaders : List JSString :=
  ["authentication-info", "connection", "keep-alive", "proxy-authenticate",
    "proxy-authentication-info", "proxy-authorization", "set-cookie", "te", "trailer",
    "transfer-encoding", "upgrade"].map js

def lowerCase (text : JSString) : JSString :=
  text.map fun c => if 65 ≤ c ∧ c ≤ 90 then c + 32 else c

def replaySafeHeaders (headers : List (JSString × JSString)) : List (JSString × JSString) :=
  headers.filter fun h => ¬ replayUnsafeResponseHeaders.contains (lowerCase h.1)

def base64Digit (n : ℕ) : ℕ :=
  if n < 26 then 65 + n
  else if n < 52 then 71 + n
  else if n < 62 then n - 4
  else if n = 62 then 43
  else 47

def bytesToBase64 : List ℕ → JSString
  | [] => []
  | [a] => [base64Digit (a / 4), base64Digit (a % 4 * 16), 61, 61]
  | [a, b] => [base64Digit (a / 4), base64Digit (a % 4 * 16 + b / 16), base64Digit (b % 16 * 4), 61]
  | a :: b :: c :: rest =>
    base64Digit (a / 4) :: base64Digit (a % 4 * 16 + b / 16) ::
      base64Digit (b % 16 * 4 + c / 64) :: base64Digit (c % 64) :: bytesToBase64 rest

def base64Value (c : ℕ) : Option ℕ :=
  if 65 ≤ c ∧ c ≤ 90 then some (c - 65)
  else if 97 ≤ c ∧ c ≤ 122 then some (c - 71)
  else if 48 ≤ c ∧ c ≤ 57 then some (c + 4)
  else if c = 43 then some 62
  else if c = 47 then some 63
  else none

def base64Octets : List ℕ → List ℕ
  | a :: b :: c :: d :: rest =>
    (a * 4 + b / 16) :: (b % 16 * 16 + c / 4) :: (c % 4 * 64 + d) :: base64Octets rest
  | [a, b, c] => [a * 4 + b / 16, b % 16 * 16 + c / 4]
  | [a, b] => [a * 4 + b / 16]
  | _ => []

def base64Padding (value : JSString) : ℕ :=
  if [61, 61] <:+ value then 2 else if [61] <:+ value then 1 else 0

def base64ToBytes (value : JSString) : List ℕ :=
  base64Octets ((value.take (value.length - base64Padding value)).filterMap base64Value)

def base64DecodedLength (value : JSString) : Except JSError ℕ :=
  if value = [] then .ok 0
  else
    let padding := base64Padding value
    let digits := value.take (value.length - padding)
    if value.length % 4 ≠ 0 ∨ ∃ c ∈ digits, base64Value c = none then
      .error (.typeError "idempotency: corrupt stored response body")
    else .ok (value.length / 4 * 3 - padding)

variable {E : Type*}

def readChunks (failure : Option E) (maxBytes : ℕ) :
    List ℕ → List (List ℕ) → Except (CaptureError E) (List ℕ)
  | bytes, [] =>
    match failure with
    | none => .ok bytes
    | some error => .error (.failed (.thrown error))
  | bytes, chunk :: chunks =>
    if maxBytes < bytes.length + chunk.length then .error (.tooLarge maxBytes)
    else readChunks failure maxBytes (bytes ++ chunk) chunks

def boundedResponseBytes (response : Response E) (maxBytes : ℕ) :
    Except (CaptureError E) (List ℕ) :=
  match response.body with
  | none => .ok []
  | some body =>
    let declared := (headerValue response.headers (js "content-length")).bind digitsValue
    if ∃ length ∈ declared, maxBytes < length then .error (.tooLarge maxBytes)
    -- `clone()` of a body that was read before throws.
    else if body.used then .error (.failed (.own (.typeError "Body is already used")))
    else readChunks body.failure maxBytes [] body.chunks

def serializeResponse (response : Response E) (maxBytes : ℕ) :
    Except (CaptureError E) StoredResponse :=
  (boundedResponseBytes response maxBytes).map fun bytes =>
    ⟨response.status, replaySafeHeaders response.headers, bytesToBase64 bytes⟩

def idempotentReplayHeader : JSString := js "x-nifra-idempotent-replay"

/-- The stored headers are ones that `Headers` takes. -/
def responseFromStored (stored : StoredResponse) (maxBytes : ℕ) :
    Except (CaptureError E) (Response E) :=
  if stored.status < 200 ∨ 599 < stored.status then
    .error (.failed (.own (.typeError "idempotency: corrupt stored response status")))
  else match base64DecodedLength stored.body with
    | .error error => .error (.failed (.own error))
    | .ok length =>
      if maxBytes < length then .error (.tooLarge maxBytes)
      else
        let headers := (replaySafeHeaders stored.headers).filter (·.1 ≠ idempotentReplayHeader)
        .ok
          { status := stored.status,
            headers := headers ++ [(idempotentReplayHeader, js "1")],
            body := if stored.body = [] then none
              else some ⟨[base64ToBytes stored.body], none, false⟩ }

/-- `Response.json({ ok: false, error })`, with a `Retry-After` of a second where asked. -/
def jsonError (status : ℕ) (error : String) (retryAfter : Bool) : Response E :=
  let text := js "\x7b\"ok\":false,\"error\":\"" ++ js error ++ js "\"\x7d"
  { status := status,
    headers := (js "content-type", js "application/json") ::
      (if retryAfter then [(js "retry-after", js "1")] else []),
    body := some ⟨[text], none, false⟩ }

/-- `new Response(null, { status })` -/
def emptyResponse (status : ℕ) : Response E := ⟨status, [], none⟩

theorem serializeResponse_emptyResponse (status maxBytes : ℕ) :
    serializeResponse (emptyResponse status : Response E) maxBytes = .ok ⟨status, [], []⟩ := rfl

theorem readChunks_ne_failed {maxBytes : ℕ} {bytes : List ℕ} {chunks : List (List ℕ)}
    {failure : Failure E} :
    readChunks none maxBytes bytes chunks ≠ .error (.failed failure) := by
  induction chunks generalizing bytes with
  | nil => nofun
  | cons chunk chunks ih =>
    rw [readChunks]
    split_ifs
    · nofun
    · exact ih

theorem serializeResponse_ne_failed {response : Response E} {chunks : List (List ℕ)}
    (hbody : response.body = some ⟨chunks, none, false⟩) {maxBytes : ℕ} {failure : Failure E} :
    serializeResponse response maxBytes ≠ .error (.failed failure) := by
  have hbytes : boundedResponseBytes response maxBytes ≠ .error (.failed failure) := by
    simp only [boundedResponseBytes, hbody, Bool.false_eq_true, if_false]
    split_ifs
    · nofun
    · exact readChunks_ne_failed
  intro h
  unfold serializeResponse at h
  cases hread : boundedResponseBytes response maxBytes with
  | error error =>
    rw [hread] at h
    exact hbytes (hread.trans (congrArg _ (Except.error.inj h)))
  | ok bytes =>
    rw [hread] at h
    cases h

end Nifra.Idempotency
