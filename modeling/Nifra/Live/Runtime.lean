import Nifra.Live.HubRuns
import Nifra.Live.RevocationSafety

/-! # Live loads

A load honors one of the grants presented to it, keeps the owners that the grant vouches for, runs
the loaders of the others, and issues the next grant.
-/

namespace Nifra.Live

def seedSid : JSString := []
def seedMaxAgeSeconds : ℤ := 60
def maxQuietRenewals : ℕ := 2

inductive LoadMode
  | load
  | renew
  deriving DecidableEq, Repr

structure LoadBody where
  sid : JSString
  frame : JSString
  mode : LoadMode
  retain : List JSString

structure LiveRouteMatch where
  routeId : JSString
  layoutIds : List JSString

/-- A request: `opened` are the claims of the tokens that open at `now`, `route` what its path
matches. -/
structure LoadRequest where
  body : LoadBody
  path : JSString
  route : Option LiveRouteMatch
  opened : List GrantClaims
  now : ℤ

def layoutOwner (layoutId : JSString) : JSString := js "L:" ++ layoutId

def pageOwner (routeId : JSString) : JSString := js "P:" ++ routeId

def holeOwner (hole routeId : JSString) : JSString := js "B:" ++ hole ++ js ":" ++ routeId

def holeOf (owner routeId : JSString) : Option JSString :=
  let suffix := js ":" ++ routeId
  if (js "B:").isPrefixOf owner && suffix.isSuffixOf owner then
    let hole := (owner.take (owner.length - suffix.length)).drop 2
    if hole.isEmpty || hole.contains 58 || hole.contains 44 then none else some hole
  else none

/-- A seed is exchanged by a load of the page it was rendered with, while it is fresh. -/
def LoadRequest.isSeed (request : LoadRequest) (claims : GrantClaims) : Bool :=
  decide (claims.sid = seedSid ∧ request.body.mode = .load ∧ claims.path = request.path ∧
    request.now - claims.iat * 1000 ≤ seedMaxAgeSeconds * 1000)

def LoadRequest.presented (request : LoadRequest) : List GrantClaims :=
  request.opened.filter fun claims =>
    (request.isSeed claims || claims.sid = request.body.sid) && claims.frame = request.body.frame &&
      !(claims.path ≠ request.path && request.body.mode = .renew)

structure Retention where
  layouts : List ℕ
  holes : List JSString
  page : Bool

structure LoadState where
  down : Bool
  body : LoadBody
  path : JSString
  seq : ℕ
  grant : Option GrantClaims
  route : Option LiveRouteMatch
  retention : Retention

section Prepare
variable (revocations : Revocations) (authorized : Bool) (request : LoadRequest)

/-- The owners that are asked for: a renewal keeps them all, unless its loaders are due. -/
def LoadRequest.requested (claims : GrantClaims) : List JSString :=
  match request.body.mode with
  | .load => request.body.retain
  | .renew => if !authorized || maxQuietRenewals ≤ claims.r then [] else claims.owners.keys

/-- An owner is kept where its data would stay, unless a key of it was revoked since issuance. -/
def retainOwner (claims : GrantClaims) (route : LiveRouteMatch) (retention : Retention)
    (owner : JSString) : Retention :=
  match claims.owners.get owner with
  | none => retention
  | some held =>
    if held.k.any fun key => revocations.keyRevoked key claims then retention
    else if (js "L:").isPrefixOf owner then
      match route.layoutIds.idxOf? (owner.drop 2) with
      | none => retention
      | some index =>
        if index ∈ retention.layouts then retention
        else { retention with layouts := retention.layouts ++ [index] }
    else if owner = pageOwner route.routeId ∧ claims.path = request.path then
      { retention with page := true }
    else if claims.path = request.path then
      match holeOf owner route.routeId with
      | none => retention
      | some hole =>
        if hole ∈ retention.holes then retention
        else { retention with holes := retention.holes ++ [hole] }
    else retention

/-- `prepareLoad`, from the answer of the check on: `authorized` when there is an `authorize`. -/
def prepareLoad (down : Bool) (seq : ℕ) : LoadState :=
  let grant := if down then none
    else request.presented.find? fun claims => !revocations.grantRevoked claims
  let retention := match grant, request.route with
    | some claims, some route =>
      (request.requested authorized claims).foldl (retainOwner revocations request claims route)
        ⟨[], [], false⟩
    | _, _ => ⟨[], [], false⟩
  ⟨down, request.body, request.path, seq, grant, request.route, retention⟩

end Prepare

/-- What happened while a load ran: the subject of the viewer, the layouts whose params let them
keep their data, the holes that the route declares, and the owners whose loaders ran with the keys
that they declared. A `componentOwner` keeps neither layouts nor the page. `authorize` is the answer
of that option, `sealed` that the keyring sealed. -/
structure LoadRun where
  subject : Option JSString
  componentOwner : Bool
  keepsLayout : ℕ → Bool
  declared : List JSString
  fresh : List (JSString × List LiveKey)
  dropped : ℕ
  authorize : Option Bool
  sealed : Bool
  now : ℤ

namespace LoadState
variable (load : LoadState) (run : LoadRun)

/-- `bind`: a grant is only honored for the subject it was issued to. -/
def bind : Bool := load.grant.all fun claims => claims.sub = run.subject

def retained : List JSString :=
  match load.route with
  | none => []
  | some route =>
    let keeps := load.bind run && !run.componentOwner
    let layouts := if keeps then
        (route.layoutIds.zipIdx.filter fun layout =>
          decide (layout.2 ∈ load.retention.layouts) && run.keepsLayout layout.2).map
            fun layout => layoutOwner layout.1
      else []
    let page := if keeps && load.retention.page then [pageOwner route.routeId] else []
    -- the holes to keep are read off the request, whatever the subject
    let holes := (load.retention.holes.filter fun hole => hole ∈ run.declared).map
      fun hole => holeOwner hole route.routeId
    layouts ++ page ++ holes

/-- A renewal that kept owners counts one more; a load that ran every loader starts over. -/
def renewals (kept : Bool) : ℕ :=
  let previous := (load.grant.map GrantClaims.r).getD 0
  if !kept then 0 else match load.body.mode with
    | .renew => previous + 1
    | .load => previous

def carried (retained : List JSString) : Option (InsertionMap JSString GrantOwner) :=
  retained.foldlM (fun owners owner => do
    let held ← load.grant.bind fun claims => claims.owners.get owner
    some (owners.set owner held)) ∅

def withFresh (owners : InsertionMap JSString GrantOwner) : InsertionMap JSString GrantOwner :=
  run.fresh.foldl (fun owners entry => owners.set entry.1 ⟨entry.2, load.seq⟩) owners

def claimsOf (ttl : ℤ) (owners : InsertionMap JSString GrantOwner) : GrantClaims where
  sid := load.body.sid
  sub := run.subject
  path := load.path
  frame := load.body.frame
  owners := owners
  s := load.seq
  r := load.renewals !(load.retained run).isEmpty
  iat := run.now / 1000
  exp := run.now / 1000 + ttl

/-- `finish`: the grant that a load issues, if any; `down` is the state of the hub by then. -/
def finish (ttl : ℤ) (down : Bool) : Option GrantClaims := do
  let carried ← if load.down || down then none else load.carried (load.retained run)
  let keys := carried.values.flatMap GrantOwner.k
  let owners := load.withFresh run carried
  let count := run.dropped + (owners.values.map fun owner => owner.k.length).sum
  if !keys.isEmpty && run.authorize = some false then none
  else if maxKeysPerFrame < count || !run.sealed then none
  else some (load.claimsOf run ttl owners)

end LoadState

/-! ## The runtime of a process

What the bus delivers waits in a queue that one drain works off, an await at a time. Loads read the
seq and the state of the hub before their loaders run, and issue their grants after.
-/

inductive Queued
  | event (event : LiveBusEvent)
  | gap (head : ℕ)
  | down

/-- Where the drain is suspended: the tags of an event are derived, an event is applied but not
settled, an event failed to apply, or the next item is due. -/
inductive Drain
  | idle
  | next
  | tagging (event : LiveBusEvent)
  | applied (event : LiveBusEvent)
  | failing (event : LiveBusEvent)

structure Reading where
  request : LoadRequest
  seq : ℕ
  down : Bool

/-- `core` exists once the keyring is derived and the bus subscribed. -/
structure Runtime where
  core : Option HubState
  queue : List Queued
  drain : Drain
  seen : ℕ
  closed : Bool
  reading : List Reading
  loads : List LoadState
  issued : List GrantClaims

/-- `authorizes` when there is an `authorize`; `ttl` in seconds. -/
structure RuntimeOptions where
  hub : HubOptions
  capacity : ℕ
  maxAgeMs : ℤ
  limit : ℕ
  ttl : ℤ
  authorizes : Bool

namespace Runtime
variable (options : RuntimeOptions) (runtime : Runtime)

def create : Runtime := ⟨none, [], .idle, 0, false, [], [], []⟩

def withCore (s : HubState) (core : LiveCore) : Runtime :=
  { runtime with core := some { s with core := core } }

def settle (seq : ℕ) : Runtime := { runtime with seen := max runtime.seen seq }

/-- Never behind what this process applied: loads already issued watermarks up to `seen`. -/
def forgetUntil (s : HubState) (head : ℕ) : Runtime :=
  (runtime.withCore s (s.core.forgetUntil (max head runtime.seen))).settle (max head runtime.seen)

def applyEvent (s : HubState) (event : LiveBusEvent) (now : ℤ) : Runtime :=
  match s.core.applyEvent options.hub event now with
  | none => { runtime with drain := .failing event }
  | some core => { runtime.withCore s core with drain := .applied event }

/-- An event up to its first await: only the revocation of no key has none before it applies. -/
def beginEvent (s : HubState) (event : LiveBusEvent) (now : ℤ) : Runtime :=
  match event.input with
  | .change _ => { runtime with drain := .tagging event }
  | input => match input.revocation? with
    | none => { runtime with drain := .failing event }
    | some ⟨_, some _⟩ => { runtime with drain := .tagging event }
    | some ⟨_, none⟩ => runtime.applyEvent options s event now

def take (s : HubState) (now : ℤ) : Runtime :=
  match runtime.queue with
  | [] => { runtime with drain := .idle }
  | item :: queue =>
    let runtime := { runtime with queue := queue, drain := .next }
    match item with
    | .down => runtime.withCore s s.core.lose
    | .gap head => runtime.forgetUntil s head
    | .event event =>
      -- at-least-once delivery: a repeat is already applied
      if !isSafeInteger event.seq || event.seq ≤ runtime.seen then runtime
      else runtime.beginEvent options s event now

def startDrain (now : ℤ) : Runtime :=
  match runtime.core, runtime.drain, runtime.closed with
  | some s, .idle, false => runtime.take options s now
  | _, _, _ => runtime

def enqueue (item : Queued) (now : ℤ) : Runtime :=
  { runtime with queue := runtime.queue ++ [item] }.startDrain options now

def resume (ok : Bool) (now : ℤ) : Option Runtime :=
  match runtime.core, runtime.drain with
  | some s, .next => some (runtime.take options s now)
  | some s, .tagging event =>
    if ok then some (runtime.applyEvent options s event now)
    else some { runtime with drain := .failing event }
  | some _, .applied event => some { runtime.settle event.seq with drain := .next }
  | some s, .failing event => some { runtime.forgetUntil s event.seq with drain := .next }
  | _, _ => none

/-- The bus is subscribed, with delivery after `head`. -/
def started (head : ℕ) : Runtime :=
  let s := HubState.create head options.capacity options.limit options.maxAgeMs (options.ttl * 1000)
  { runtime with
    core := some (s.withHub { s.core.hub with down := runtime.closed }),
    seen := head }

def start (head : ℕ) (now : ℤ) : Runtime :=
  (runtime.started options head).startDrain options now

def close : Runtime :=
  { runtime with
    closed := true,
    core := runtime.core.map fun s =>
      s.withHub ({ s.core.hub with down := true }.closeAll closeGoingAway) }

end Runtime

def HubAction.isSocket : HubAction → Bool
  | .apply _ _ | .resync _ | .lose | .restore _ _ _ => false
  | _ => true

inductive RuntimeAction
  | start (head : ℕ) (now : ℤ)
  | deliver (item : Queued) (now : ℤ)
  | resume (ok : Bool) (now : ℤ)
  | socket (action : HubAction)
  | read (request : LoadRequest)
  | prepare (n : ℕ)
  | seed (request : LoadRequest)
  | finish (n : ℕ) (run : LoadRun)
  | close

namespace Runtime
variable (options : RuntimeOptions)

def step (runtime : Runtime) : RuntimeAction → Option Runtime
  | .start head now => if runtime.core.isNone then some (runtime.start options head now) else none
  | .deliver item now => some (runtime.enqueue options item now)
  | .resume ok now => runtime.resume options ok now
  | .socket action => do
    let s ← runtime.core
    if action.isSocket then
      (s.step options.hub action).map fun t => { runtime with core := some t }
    else none
  | .read request => do
    let s ← runtime.core
    some { runtime with
      reading := runtime.reading ++ [⟨request, runtime.seen, s.core.hub.down⟩] }
  | .prepare n => do
    let s ← runtime.core
    let r ← runtime.reading[n]?
    let load := prepareLoad s.core.revocations options.authorizes r.request r.down r.seq
    some { runtime with
      reading := runtime.reading.eraseIdx n,
      loads := runtime.loads ++ [load] }
  | .seed request => do
    -- a render never waits on the bus: with no core yet, or none that could vouch, there is no seed
    let s ← runtime.core
    if runtime.closed || s.core.hub.down then none
    else some { runtime with loads := runtime.loads ++
      [⟨false, request.body, request.path, runtime.seen, none, request.route, ⟨[], [], false⟩⟩] }
  | .finish n run => do
    let load ← runtime.loads[n]?
    let down := runtime.core.any fun s => s.core.hub.down
    some { runtime with
      loads := runtime.loads.eraseIdx n,
      issued := runtime.issued ++ (load.finish run options.ttl down).toList }
  | .close => some (if runtime.closed then runtime else runtime.close)

end Runtime

end Nifra.Live
