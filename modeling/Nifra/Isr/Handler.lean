import Mathlib.Data.List.DropRight
import Nifra.Idempotency.MemoryStore
import Nifra.Isr.MemoryCacheStore
import Nifra.Postgres.PlanWalk

/-! # What may be cached

A page may be shared by its request and its response: by the private state of the one, and by what the
other declares.
-/

namespace Nifra.Isr

open Idempotency (headerValue lowerCase)
open Postgres (isSpace)

/-- `authenticated` is the mark of an authentication stage. -/
structure Request where
  method : JSString
  url : JSString
  headers : List (JSString × JSString)
  authenticated : Bool
  deriving DecidableEq, Repr

structure Response (B : Type) where
  status : ℕ
  headers : List (JSString × JSString)
  body : B
  deriving DecidableEq, Repr

def swapHeader : JSString := js "x-nifra-swap"
def isrRevalidateHeader : JSString := js "x-nifra-isr-revalidate"
def isrRevalidateTagsHeader : JSString := js "x-nifra-isr-tags"
def ownerCacheableHeader : JSString := js "x-nifra-owner-cacheable"
def ownerNonceUsedHeader : JSString := js "x-nifra-owner-nonce-used"

/-- What the functions of the wrapper read of its options and of its app. `number` is a header's
number, none when it is not finite, and `revalidate` is in seconds. -/
structure IsrOptions where
  revalidate : ℚ
  number : JSString → Option ℚ
  customKey : Bool
  keyOf : Request → Option JSString
  anonymousCookies : List JSString
  privateRoute : Request → Bool
  partitionOf : Request → Option JSString

def trim (text : JSString) : JSString := (text.dropWhile isSpace).rdropWhile isSpace

section Headers
variable (headers : List (JSString × JSString))

def hasHeader (name : JSString) : Bool := (headerValue headers name).isSome

def cacheControlHas (names : List JSString) : Bool :=
  match headerValue headers (js "cache-control") with
  | none => false
  | some value =>
    let directives := ((lowerCase value).splitOn 44).map fun part =>
      ((trim part).splitOn 61).headD []
    names.any fun name => directives.contains name

def hasSetCookie : Bool := hasHeader headers (js "set-cookie")

end Headers

/-- Whether every cookie in a `Cookie` header is named in `names`. -/
def cookieNamesWithin (header : JSString) (names : List JSString) : Bool :=
  (header.splitOn 59).all fun pair =>
    let name := trim ((pair.splitOn 61).headD [])
    name = [] || names.contains name

def requestCarriesPrivateState (req : Request) : Bool :=
  hasHeader req.headers (js "authorization") || hasHeader req.headers (js "cookie") ||
    req.authenticated

section Responses
variable {B : Type} (options : IsrOptions) (req : Request) (res : Response B)

def responseIsExplicitlyPublic : Bool := cacheControlHas res.headers [js "public"]

def responseDeclaresVary : Bool :=
  match headerValue res.headers (js "vary") with
  | none => false
  | some value => (value.splitOn 44).any fun part =>
    let name := lowerCase (trim part)
    name ≠ [] && name ≠ js "x-nifra-data" && name ≠ swapHeader

def isHtml : Bool := js "text/html" <:+: (headerValue res.headers (js "content-type")).getD []

def isCacheablePage : Bool :=
  req.method = js "GET" && !hasHeader req.headers (js "x-nifra-data") &&
    !hasHeader req.headers swapHeader && res.status = 200 && isHtml res &&
    !hasSetCookie res.headers && !responseDeclaresVary res &&
    !cacheControlHas res.headers [js "private", js "no-store"] &&
    !(requestCarriesPrivateState req && !responseIsExplicitlyPublic res)

def isCacheableOwnerPage : Bool :=
  req.method = js "GET" && !hasHeader req.headers (js "x-nifra-data") &&
    !hasHeader req.headers (js "x-nifra-component") && !hasHeader req.headers swapHeader &&
    !requestCarriesPrivateState req &&
    headerValue res.headers ownerCacheableHeader = some (js "1") &&
    headerValue res.headers ownerNonceUsedHeader ≠ some (js "1") && res.status = 200 &&
    isHtml res && cacheControlHas res.headers [js "private"] &&
    cacheControlHas res.headers [js "no-store"] && !hasSetCookie res.headers &&
    ((headerValue res.headers (js "vary")).all fun value => (value.splitOn 44).all fun part =>
      [js "x-nifra-component", js "x-nifra-data"].contains (lowerCase (trim part)))

/-- A request whose cookies are all anonymous is judged as if it carried none. -/
def judged : Request :=
  if options.anonymousCookies = [] || hasHeader req.headers (js "authorization") ||
      req.authenticated then req
  else match headerValue req.headers (js "cookie") with
    | none => req
    | some cookie =>
      if cookieNamesWithin cookie options.anonymousCookies then
        { req with headers := req.headers.filter fun header => header.1 ≠ js "cookie" }
      else req

def isComponentOwnerRequest : Bool :=
  (options.partitionOf req).isSome && req.method = js "GET" &&
    !hasHeader req.headers (js "x-nifra-data") && !hasHeader req.headers (js "x-nifra-component") &&
    !hasHeader req.headers swapHeader && !requestCarriesPrivateState req

def cacheableResponse : Bool :=
  isCacheablePage (judged options req) res ||
    (isComponentOwnerRequest options req && isCacheableOwnerPage (judged options req) res)

def isInvalidationResponse : Bool :=
  res.status = 404 || res.status = 410 || (300 ≤ res.status && res.status < 400) ||
    (!requestCarriesPrivateState req && (res.status = 401 || res.status = 403 ||
      (200 ≤ res.status && res.status < 300 &&
        cacheControlHas res.headers [js "private", js "no-store"])))

def cacheableResponseHeaders : List JSString :=
  ["cache-control", "content-language", "content-security-policy", "content-type",
    "cross-origin-embedder-policy", "cross-origin-opener-policy", "cross-origin-resource-policy",
    "etag", "last-modified", "link", "origin-agent-cluster", "permissions-policy",
    "referrer-policy", "strict-transport-security", "vary", "x-content-type-options",
    "x-frame-options", "x-robots-tag"].map js

def isCacheableResponseHeader (key : JSString) : Bool :=
  let normalized := lowerCase key
  cacheableResponseHeaders.contains normalized ||
    (["content-security-policy-", "cross-origin-", "permissions-policy-"].map js).any fun start =>
      start.isPrefixOf normalized

def headersOf : List (JSString × JSString) :=
  res.headers.filter fun header => header.1 ≠ ownerCacheableHeader &&
    header.1 ≠ ownerNonceUsedHeader && isCacheableResponseHeader header.1

def tagsFromHeader (value : Option JSString) : List JSString :=
  match value with
  | none => []
  | some value =>
    if trim value = [] then []
    else match normalizeTags (some ((value.splitOn 44).map trim)) with
      | .ok tags => tags
      | .error _ => []

def tagsOf : List JSString := tagsFromHeader (headerValue res.headers isrRevalidateTagsHeader)

/-- The window of a page in milliseconds: its own, or the default one. -/
def ttlMs : ℚ :=
  let seconds := ((headerValue res.headers isrRevalidateHeader).bind options.number).filter (0 ≤ ·)
  seconds.getD options.revalidate * 1000

def withoutCacheChannel : Response B :=
  { res with headers := res.headers.filter fun header =>
      ! [isrRevalidateHeader, isrRevalidateTagsHeader, ownerCacheableHeader,
        ownerNonceUsedHeader].contains header.1 }

end Responses

/-! ## The wrapper over the store in memory

Requests, renders and purges of one wrapper. A request reads the store, renders on its own, or waits
for the cold render of its key; a stale hit is answered while the page regenerates behind it. Each
step runs from one await to the next.
-/

structure Rendered (B : Type) where
  render : ℕ
  body : B

abbrev Entry (B : Type) := CachedResponse (Rendered B) ℕ

inductive Served
  | hit
  | stale
  | miss
  deriving DecidableEq, Repr

inductive Answer (B : Type)
  | page (entry : Entry B) (status : Served)
  | response (render : ℕ) (res : Response B)

inductive VisitPhase (B : Type)
  | arrived
  | reading (key : JSString) (read : Option (Entry B))
  | rendering (render : ℕ)
  | waiting (key : JSString) (render : ℕ)
  | answered (answer : Answer B)
  | failed

/-- A request, with the number of purges that were complete when it came. -/
structure Visit (B : Type) where
  req : Request
  since : ℕ
  phase : VisitPhase B

inductive Kind
  | pass
  | own (key : JSString) (remember : Bool)
  | cold (key : JSString)
  | background (key : JSString)
  deriving DecidableEq, Repr

/-- What follows from the response of a render, once its body is read or cancelled. -/
inductive Plan
  | store
  | withdraw
  | drop
  deriving DecidableEq, Repr

inductive Stage (B : Type)
  | fetching
  | reading (plan : Plan) (res : Response B)
  | writing (entry : Option (Entry B))
  | settled (entry : Option (Entry B))
  | concluded (entry : Option (Entry B))

/-- `answered` is the request as the app left it, with its response. -/
structure Render (B : Type) where
  visit : ℕ
  req : Request
  kind : Kind
  fence : ℕ
  answered : Option (Request × Response B)
  stage : Stage B

/-- `purges` are those that were made so far, the withdrawals of pages with them. -/
structure Wrapper (B : Type) where
  store : MemoryCacheStore (Rendered B)
  purges : List Purge
  visits : List (Visit B)
  renders : List (Render B)
  regenerating : List JSString
  coldRenders : InsertionMap JSString ℕ
  uncacheable : InsertionMap JSString ℚ

def maxUncacheableKeys : ℕ := 1024

inductive Action (B : Type)
  | arrive (req : Request)
  | enter (n : ℕ) (draft : Bool) (now : ℚ)
  | resume (n : ℕ) (now : ℚ)
  | respond (m : ℕ) (res : Response B) (accepted : Bool) (now : ℚ)
  | fail (m : ℕ)
  | text (m : ℕ) (now : ℚ)
  | finish (m : ℕ)
  | conclude (m : ℕ)
  | wake (n : ℕ)
  | delete (key : JSString)
  | invalidateTag (tag uuid : JSString)

def requestKey (options : IsrOptions) (req : Request) : Option JSString :=
  if req.method = js "GET" && !hasHeader req.headers (js "x-nifra-data") &&
      !hasHeader req.headers (js "x-nifra-component") && !hasHeader req.headers swapHeader &&
      (!options.privateRoute req || isComponentOwnerRequest options req) then
    options.keyOf req
  else none

namespace Wrapper
variable {B : Type} (options : IsrOptions) (w : Wrapper B)

def create (store : MemoryCacheStore (Rendered B)) : Wrapper B := ⟨store, [], [], [], [], ∅, ∅⟩

def setPhase (n : ℕ) (phase : VisitPhase B) : Wrapper B :=
  { w with visits := w.visits.modify n fun visit => { visit with phase := phase } }

def setStage (m : ℕ) (stage : Stage B) : Wrapper B :=
  { w with renders := w.renders.modify m fun render => { render with stage := stage } }

def start (n : ℕ) (req : Request) (kind : Kind) : Wrapper B :=
  { w with renders := w.renders ++ [⟨n, req, kind, w.store.fence, none, .fetching⟩] }

def render (n : ℕ) (req : Request) (kind : Kind) : Wrapper B :=
  (w.start n req kind).setPhase n (.rendering w.renders.length)

def rememberUncacheable (key : JSString) (res : Response B) (now : ℚ) : Wrapper B :=
  if options.revalidate = 0 || res.status ≠ 200 ||
      !cacheControlHas res.headers [js "private", js "no-store"] then w
  else
    let uncacheable := if maxUncacheableKeys ≤ w.uncacheable.size then
        match w.uncacheable.keys with
        | [] => w.uncacheable
        | oldest :: _ => w.uncacheable.delete oldest
      else w.uncacheable
    { w with uncacheable := uncacheable.set key (now + options.revalidate * 1000) }

/-- Requests that share the key wait for the render that is under way. -/
def renderCold (n : ℕ) (req : Request) (key : JSString) : Wrapper B :=
  match w.coldRenders.get key with
  | some m => w.setPhase n (.waiting key m)
  | none => { w with coldRenders := w.coldRenders.set key w.renders.length }.render n req (.cold key)

def regenerate (n : ℕ) (req : Request) (key : JSString) : Wrapper B :=
  if key ∈ w.regenerating then w
  else { w with regenerating := key :: w.regenerating }.start n req (.background key)

def readStore (n : ℕ) (key : JSString) : Wrapper B :=
  let (store, read) := w.store.get key
  { w with store := store }.setPhase n (.reading key read)

/-- A personal request never reads the store, and does not mark its key. -/
def lookUp (n : ℕ) (req : Request) (key : JSString) (personal : Bool) : Wrapper B :=
  if personal then w.render n req (.own key false) else w.readStore n key

def enter (n : ℕ) (req : Request) (draft : Bool) (now : ℚ) : Wrapper B :=
  match requestKey options req with
  | none => w.render n req .pass
  | some key =>
    if draft then w.render n req .pass
    else
      let personal := !options.customKey && requestCarriesPrivateState (judged options req)
      match w.uncacheable.get key with
      | none => w.lookUp n req key personal
      | some expires =>
        if now < expires then w.render n req (.own key !personal)
        else { w with uncacheable := w.uncacheable.delete key }.lookUp n req key personal

def resume (n : ℕ) (req : Request) (key : JSString) (read : Option (Entry B)) (now : ℚ) :
    Wrapper B :=
  match read with
  | some hit =>
    if now - hit.storedAt < hit.revalidate then w.setPhase n (.answered (.page hit .hit))
    else (w.regenerate n req key).setPhase n (.answered (.page hit .stale))
  | none => w.renderCold n req key

/-- The app has answered a render of its own request: the page is read, or it is passed on. -/
def respondOwn (m n : ℕ) (key : JSString) (remember : Bool) (req : Request) (res : Response B)
    (otherwise : Stage B) (now : ℚ) : Wrapper B :=
  if cacheableResponse options req res then
    { w with uncacheable := w.uncacheable.delete key }.setStage m (.reading .store res)
  else
    let w := if remember then w.rememberUncacheable options key res now else w
    (w.setStage m otherwise).setPhase n (.answered (.response m (withoutCacheChannel res)))

def respond (m : ℕ) (render : Render B) (res : Response B) (accepted : Bool) (now : ℚ) :
    Wrapper B :=
  let req := { render.req with authenticated := render.req.authenticated || accepted }
  let w := { w with renders := w.renders.modify m fun render =>
    { render with answered := some (req, res) } }
  match render.kind with
  | .pass => (w.setStage m (.concluded none)).setPhase render.visit
      (.answered (.response m (withoutCacheChannel res)))
  | .own key remember =>
    w.respondOwn options m render.visit key remember req res (.concluded none) now
  | .cold key => w.respondOwn options m render.visit key true req res (.settled none) now
  | .background _ =>
    let plan := if cacheableResponse options req res then Plan.store
      else if isInvalidationResponse (judged options req) res then .withdraw else .drop
    w.setStage m (.reading plan res)

def doneRegenerating (key : JSString) : Wrapper B :=
  { w with regenerating := w.regenerating.filter (· ≠ key) }

def fail (m : ℕ) (render : Render B) : Wrapper B :=
  match render.kind with
  | .background key => (w.setStage m (.concluded none)).doneRegenerating key
  | .cold _ => (w.setStage m (.settled none)).setPhase render.visit .failed
  | _ => (w.setStage m (.concluded none)).setPhase render.visit .failed

def entryOf (m fence : ℕ) (res : Response B) (now : ℚ) : Entry B where
  body := ⟨m, res.body⟩
  status := res.status
  headers := headersOf res
  storedAt := now
  revalidate := ttlMs options res
  tags := if tagsOf res = [] then none else some (tagsOf res)
  fence := some fence

/-- A write that the store refuses is reported, and the page is answered all the same. -/
def write (m : ℕ) (key : JSString) (entry : Entry B) : Wrapper B :=
  let store := match w.store.set key entry with
    | .ok store => store
    | .error _ => w.store
  { w with store := store }.setStage m (.writing (some entry))

def withdraw (m : ℕ) (key : JSString) : Wrapper B :=
  { w with
    store := w.store.delete key,
    purges := w.purges ++ [Purge.path key] }.setStage m (.writing none)

def text (m : ℕ) (render : Render B) (plan : Plan) (res : Response B) (now : ℚ) : Wrapper B :=
  let entry := entryOf options m render.fence res now
  match render.kind, plan with
  | .own key _, _ => w.write m key entry
  | .cold key, _ => w.write m key entry
  | .background key, .store => w.write m key entry
  | .background key, .withdraw => w.withdraw m key
  | .background key, .drop => (w.setStage m (.concluded none)).doneRegenerating key
  | .pass, _ => w

def finish (m : ℕ) (render : Render B) (entry : Option (Entry B)) : Wrapper B :=
  match render.kind, entry with
  | .own _ _, some entry =>
    (w.setStage m (.concluded entry)).setPhase render.visit (.answered (.page entry .miss))
  | .cold _, some entry =>
    (w.setStage m (.settled entry)).setPhase render.visit (.answered (.page entry .miss))
  | .background key, _ => (w.setStage m (.concluded none)).doneRegenerating key
  | _, _ => w

def conclude (m : ℕ) (key : JSString) (entry : Option (Entry B)) : Wrapper B :=
  { w with coldRenders := w.coldRenders.delete key }.setStage m (.concluded entry)

def wake (n : ℕ) (req : Request) (key : JSString) (entry : Option (Entry B)) : Wrapper B :=
  match entry with
  | none => w.render n req (.own key true)
  | some entry => w.setPhase n (.answered (.page entry .miss))

def step : Action B → Option (Wrapper B)
  | .arrive req => some { w with visits := w.visits ++ [⟨req, w.purges.length, .arrived⟩] }
  | .enter n draft now => do
    let visit ← w.visits[n]?
    match visit.phase with
    | .arrived => some (w.enter options n visit.req draft now)
    | _ => none
  | .resume n now => do
    let visit ← w.visits[n]?
    match visit.phase with
    | .reading key read => some (w.resume n visit.req key read now)
    | _ => none
  | .respond m res accepted now => do
    let render ← w.renders[m]?
    match render.stage with
    | .fetching => some (w.respond options m render res accepted now)
    | _ => none
  | .fail m => do
    let render ← w.renders[m]?
    match render.stage with
    | .fetching | .reading _ _ => some (w.fail m render)
    | _ => none
  | .text m now => do
    let render ← w.renders[m]?
    match render.stage with
    | .reading plan res => some (w.text options m render plan res now)
    | _ => none
  | .finish m => do
    let render ← w.renders[m]?
    match render.stage with
    | .writing entry => some (w.finish m render entry)
    | _ => none
  | .conclude m => do
    let render ← w.renders[m]?
    match render.kind, render.stage with
    | .cold key, .settled entry => some (w.conclude m key entry)
    | _, _ => none
  | .wake n => do
    let visit ← w.visits[n]?
    match visit.phase with
    | .waiting key m => do
      let render ← w.renders[m]?
      match render.stage with
      | .concluded entry => some (w.wake n visit.req key entry)
      | _ => none
    | _ => none
  | .delete key => some { w with
      store := w.store.delete key,
      purges := w.purges ++ [.path key] }
  | .invalidateTag tag uuid =>
    match w.store.invalidateTag tag uuid with
    | .ok store => some { w with
        store := store,
        purges := w.purges ++ [.tag tag] }
    | .error _ => none

end Wrapper

end Nifra.Isr
