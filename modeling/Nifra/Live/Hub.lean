import Nifra.Live.HistoryRing
import Nifra.Live.RevocationSafety

/-! # The hub

A socket subscribes to the tags of the keys that its installed grants hold, and each change goes out
as one frame per tag. What goes out is kept in `sent`, oldest first.
-/

namespace Nifra.Live

def closeBadGrant : ℕ := 4401
def closeRevoked : ℕ := 4403
def closeScope : ℕ := 4409
def closeCapacity : ℕ := 1013
def closeProtocol : ℕ := 1008
def closeGoingAway : ℕ := 1001
def closeError : ℕ := 1011
def maxWatchesPerMinute : ℕ := 20
def maxFramesPerMinute : ℕ := 60

/-- `tag` is the wire tag of a key under a listed secret. -/
structure HubOptions where
  secretCount : ℕ
  tag : LiveKey → ℕ → JSString
  hash : LiveKey → ℕ
  maxSockets : ℕ
  maxTopics : ℕ
  maxMemberships : Option ℕ

/-- `secret` is the index of the secret that decrypted the grant. -/
structure OpenedGrant where
  claims : GrantClaims
  secret : ℕ

/-- `sub` is undefined until a grant is accepted; `isOpen` when `readyState` is 1. -/
structure LiveSocket where
  sid : JSString
  sub : Option (Option JSString)
  received : ℤ
  tags : InsertionMap JSString Unit
  window : ℤ
  frames : ℕ
  watches : ℕ
  isOpen : Bool

def LiveSocket.countFrame (s : LiveSocket) (now : ℤ) : LiveSocket :=
  let s := if now - s.window ≥ 60000 then { s with
      window := now,
      frames := 0,
      watches := 0 }
    else s
  { s with frames := s.frames + 1 }

structure Pending where
  tags : List JSString
  again : Bool

/-- What leaves the hub; a `changed` frame goes to the sockets that are subscribed to its topic. -/
inductive Sent
  | welcome (ws : ℕ)
  | beat (ws : ℕ)
  | ready (ws gen : ℕ) (stale : List (List JSString))
  | changed (tag : JSString) (subscribers : List ℕ)
  | closed (ws code : ℕ)
  deriving DecidableEq, Repr

/-- `members` counts the local subscribers of a tag, `memberships` is their sum; `timer` when the
end of a coalescing window is due. -/
structure LiveHub where
  down : Bool
  sockets : InsertionMap ℕ LiveSocket
  members : InsertionMap JSString ℕ
  memberships : ℤ
  coalescing : InsertionMap LiveKey Pending
  timer : Bool
  sent : List Sent

namespace LiveHub

def create : LiveHub := ⟨false, ∅, ∅, 0, ∅, false, []⟩

variable (hub : LiveHub)

def holds (ws : ℕ) (tag : JSString) : Bool := (hub.sockets.get ws).any fun s => s.tags.has tag

def subscribers (tag : JSString) : List ℕ :=
  (hub.sockets.entries.filter fun entry => entry.2.tags.has tag).map Prod.fst

def update (ws : ℕ) (f : LiveSocket → LiveSocket) : LiveHub :=
  match hub.sockets.get ws with
  | none => hub
  | some s => { hub with sockets := hub.sockets.set ws (f s) }

def leaveTopic (tag : JSString) : LiveHub :=
  let count := (hub.members.get tag).getD 1 - 1
  { hub with
    members := if count = 0 then hub.members.delete tag else hub.members.set tag count,
    memberships := hub.memberships - 1 }

def leave (ws : ℕ) (tag : JSString) : LiveHub :=
  (hub.update ws fun s => { s with tags := s.tags.delete tag }).leaveTopic tag

def join (ws : ℕ) (tag : JSString) : LiveHub :=
  let hub := hub.update ws fun s => { s with tags := s.tags.set tag () }
  { hub with
    members := hub.members.set tag ((hub.members.get tag).getD 0 + 1),
    memberships := hub.memberships + 1 }

def forget (ws : ℕ) : LiveHub :=
  match hub.sockets.get ws with
  | none => hub
  | some s => s.tags.keys.foldl leaveTopic { hub with sockets := hub.sockets.delete ws }

/-- Leave every topic before closing: nothing published after this reaches the socket. -/
def drop (ws code : ℕ) : LiveHub :=
  let hub := hub.forget ws
  { hub with sent := hub.sent ++ [.closed ws code] }

def send (ws : ℕ) (frame : Sent) (slow : Bool) : LiveHub :=
  let hub := { hub with sent := hub.sent ++ [frame] }
  if slow then hub.drop ws closeCapacity else hub

def closeAll (code : ℕ) : LiveHub := hub.sockets.keys.foldl (fun hub ws => hub.drop ws code) hub

def publishTag (tag : JSString) : LiveHub :=
  match hub.members.get tag with
  | none => hub
  | some _ => { hub with sent := hub.sent ++ [.changed tag (hub.subscribers tag)] }

def publishTags (tags : List JSString) : LiveHub := tags.foldl publishTag hub

def changeKey (key : LiveKey) (tags : List JSString) : LiveHub :=
  if tags.any hub.members.has then
    match hub.coalescing.get key with
    | some pending =>
      { hub with coalescing := hub.coalescing.set key { pending with again := true } }
    | none => { hub with coalescing := hub.coalescing.set key ⟨tags, false⟩ }.publishTags tags
  else hub -- nobody here watches it

def arm : LiveHub := if hub.coalescing.size = 0 then hub else { hub with timer := true }

def change (keys : List (LiveKey × List JSString)) : LiveHub :=
  (keys.foldl (fun hub key => hub.changeKey key.1 key.2) hub).arm

def flushKey (key : LiveKey) (pending : Pending) : LiveHub :=
  if pending.again then
    { hub with coalescing := hub.coalescing.set key { pending with again := false } }.publishTags
      pending.tags
  else { hub with coalescing := hub.coalescing.delete key }

def flush : LiveHub :=
  (hub.coalescing.entries.foldl (fun (hub : LiveHub) entry => hub.flushKey entry.1 entry.2)
    { hub with timer := false }).arm

def concerns (sub : Option JSString) (s : LiveSocket) : Bool := sub.isNone || s.sub = some sub

def revokeSocket (sub : Option JSString) (ws : ℕ) : LiveHub :=
  if (hub.sockets.get ws).any (concerns sub) then hub.drop ws closeRevoked else hub

def leaveTags (sub : Option JSString) (tags : List JSString) (ws : ℕ) : LiveHub :=
  if (hub.sockets.get ws).any (concerns sub) then
    tags.foldl (fun hub tag => if hub.holds ws tag then hub.leave ws tag else hub) hub
  else hub

/-- `tags` are those of the key. One terminal `changed` goes to every subscriber. -/
def revoke (event : LiveRevocation) (tags : List JSString) : LiveHub :=
  match event.key with
  | none => hub.sockets.keys.foldl (fun hub ws => hub.revokeSocket event.sub ws) hub
  | some _ =>
    let hub := hub.publishTags tags
    hub.sockets.keys.foldl (fun hub ws => hub.leaveTags event.sub tags ws) hub

end LiveHub

/-- `grants` are what the tokens open to. -/
structure Watch where
  gen : ℕ
  grants : List (Option OpenedGrant)

inductive Inbound
  | heartbeat
  | watch (watch : Watch)
  | malformed

structure WatchOwner where
  id : JSString
  w : ℕ
  hashes : List ℕ

structure Prepared where
  grant : OpenedGrant
  owners : List WatchOwner
  tags : List JSString

namespace HubOptions
variable (options : HubOptions)

def tagsOf (key : LiveKey) : List JSString := (List.range options.secretCount).map (options.tag key)

def prepareGrant (grant : OpenedGrant) : Prepared where
  grant := grant
  owners := grant.claims.owners.entries.map fun entry =>
    ⟨entry.1, entry.2.w, entry.2.k.map options.hash⟩
  tags := grant.claims.owners.values.flatMap fun owner =>
    owner.k.map fun key => options.tag key grant.secret

/-- One grant per path: the page and each open boundary show different URLs. -/
def prepare (sid : JSString) : List JSString → List (Option OpenedGrant) → Except ℕ (List Prepared)
  | _, [] => .ok []
  | _, none :: _ => .error closeBadGrant
  | paths, some grant :: grants =>
    if grant.claims.sid ≠ sid then .error closeBadGrant
    else if grant.claims.path ∈ paths then .error closeProtocol
    else do
      let prepared ← prepare sid (paths ++ [grant.claims.path]) grants
      return options.prepareGrant grant :: prepared

end HubOptions

structure Installing where
  ws : ℕ
  sid : JSString
  watch : Watch

namespace LiveHub
variable (options : HubOptions) (hub : LiveHub)

def openSocket (ws : ℕ) (sid : JSString) (now : ℤ) (overRss slow : Bool) : LiveHub :=
  if hub.down || decide (options.maxSockets ≤ hub.sockets.size) || overRss then
    { hub with sent := hub.sent ++ [.closed ws closeCapacity] }
  else
    let hub := { hub with sockets := hub.sockets.set ws ⟨sid, none, -1, ∅, now, 0, 0, true⟩ }
    hub.send ws (.welcome ws) slow

def takeWatch (ws : ℕ) (s : LiveSocket) (watch : Watch) : LiveHub × Option Installing :=
  let s := { s with watches := s.watches + 1 }
  let hub := hub.update ws fun _ => s
  if maxWatchesPerMinute < s.watches then (hub.drop ws closeProtocol, none)
  else if (watch.gen : ℤ) ≤ s.received then (hub, none)
  else (hub.update ws fun s => { s with received := watch.gen }, some ⟨ws, s.sid, watch⟩)

def message (ws : ℕ) (data : Inbound) (now : ℤ) (slow : Bool) : LiveHub × Option Installing :=
  match hub.sockets.get ws with
  | none => (hub, none)
  | some s =>
    let s := s.countFrame now
    let hub := hub.update ws fun _ => s
    if maxFramesPerMinute < s.frames then (hub.drop ws closeProtocol, none)
    else
      match data with
      | .heartbeat => (hub.send ws (.beat ws) slow, none)
      | .malformed => (hub.drop ws closeProtocol, none)
      | .watch watch => hub.takeWatch ws s watch

/-- The subject that the grants bind a socket to, or the code that refuses them. -/
def scope (revocations : Revocations) :
    Option (Option JSString) → List Prepared → Except ℕ (Option (Option JSString))
  | sub, [] => .ok sub
  | sub, prepared :: rest =>
    let claims := prepared.grant.claims
    if revocations.grantRevoked claims then .error closeRevoked
    else if claims.owners.values.any fun owner =>
      owner.k.any fun key => revocations.keyRevoked key claims then .error closeBadGrant
    else if sub.any fun sub => sub ≠ claims.sub then .error closeScope
    else scope revocations (some claims.sub) rest

def tagSet (prepared : List Prepared) : InsertionMap JSString Unit :=
  (prepared.flatMap Prepared.tags).foldl (fun next tag => next.set tag ()) ∅

/-- The watch would hold more topics or subscriptions than there is room for. -/
def overfull (s : LiveSocket) (next : InsertionMap JSString Unit) : Bool :=
  let added := next.keys.countP fun tag => !hub.members.has tag
  decide (options.maxTopics < hub.members.size + added) ||
    options.maxMemberships.any fun budget =>
      (budget : ℤ) < hub.memberships - s.tags.size + next.size

/-- Leave the tags that the watch no longer holds, and join those that it holds first. -/
def rewatch (ws : ℕ) (held next : InsertionMap JSString Unit) : LiveHub :=
  let hub := held.keys.foldl (fun hub tag => if next.has tag then hub else hub.leave ws tag) hub
  next.keys.foldl (fun hub tag => if hub.holds ws tag then hub else hub.join ws tag) hub

/-- A socket whose hub lost its memory but not its connection: `s` comes without tags, and its
subject and tags as they were stored. -/
def restore (ws : ℕ) (s : LiveSocket) (stored : Option (Option JSString × List JSString)) :
    LiveHub :=
  let hub := { hub with sockets := hub.sockets.set ws { s with tags := ∅ } }
  match stored with
  | none => hub
  | some (sub, tags) =>
    tags.foldl (fun hub tag => if hub.holds ws tag then hub else hub.join ws tag)
      (hub.update ws fun s => { s with sub := some sub })

end LiveHub

def staleOf (history : History) (prepared : Prepared) : List JSString :=
  (prepared.owners.filter fun owner => !history.known owner.w ||
    owner.hashes.any fun hash => history.changedSince hash owner.w).map WatchOwner.id

structure LiveCore where
  history : History
  revocations : Revocations
  hub : LiveHub

/-- `malformed` has a type or a field that no event has. -/
inductive LiveBusInput
  | change (keys : List JSString)
  | revoke (sub key : Option JSString)
  | malformed

structure LiveBusEvent where
  seq : ℕ
  input : LiveBusInput

def toKey? (text : JSString) : Option LiveKey := if h : isKey text then some ⟨text, h⟩ else none

namespace LiveBusInput

/-- `validRevocation` -/
def revocation? : LiveBusInput → Option LiveRevocation
  | .change _ => none
  | .malformed => none
  | .revoke sub none => some ⟨sub, none⟩
  | .revoke sub (some text) => (toKey? text).map fun key => ⟨sub, some key⟩

end LiveBusInput

namespace LiveCore
variable (options : HubOptions) (core : LiveCore)

/-- The step from the last await of `install` on, over what was prepared. -/
def installPrepared (i : Installing) (prepared : List Prepared) (slow : Bool) : LiveHub :=
  match core.hub.sockets.get i.ws with
  | none => core.hub
  | some s =>
    if !s.isOpen || s.received ≠ (i.watch.gen : ℤ) then core.hub
    else if core.hub.down then core.hub.drop i.ws closeCapacity
    else
      match LiveHub.scope core.revocations s.sub prepared with
      | .error code => core.hub.drop i.ws code
      | .ok sub =>
        let next := LiveHub.tagSet prepared
        if core.hub.overfull options s next then core.hub.drop i.ws closeCapacity
        else
          let hub := core.hub.update i.ws fun s => { s with sub := sub }
          let hub := hub.rewatch i.ws s.tags next
          hub.send i.ws (.ready i.ws i.watch.gen (prepared.map (staleOf core.history))) slow

def install (i : Installing) (slow : Bool) : LiveCore :=
  { core with
    hub := match options.prepare i.sid [] i.watch.grants with
      | .error code => core.hub.drop i.ws code
      | .ok prepared => core.installPrepared options i prepared slow }

/-- The one synchronous step that applies an event; none when it cannot be applied. -/
def applyEvent (event : LiveBusEvent) (now : ℤ) : Option LiveCore :=
  match event.input with
  | .change texts =>
    let keys := texts.filterMap toKey?
    some { core with
      history := core.history.record event.seq (keys.map options.hash) now,
      hub := core.hub.change (keys.map fun key => (key, options.tagsOf key)) }
  | input => do
    let revocation ← input.revocation?
    let tags := revocation.key.elim [] options.tagsOf
    some { history := core.history.advance event.seq now,
           revocations := core.revocations.apply revocation event.seq now,
           hub := core.hub.revoke revocation tags }

/-- Everything up to `head` is unknown: refuse older grants, report all owners stale, reconnect. -/
def forgetUntil (head : ℕ) : LiveCore where
  history := core.history.reset head
  revocations := core.revocations.raise head
  hub := { core.hub with down := false }.closeAll closeCapacity

def lose : LiveCore :=
  { core with hub := { core.hub with down := true }.closeAll closeCapacity }

end LiveCore

end Nifra.Live
