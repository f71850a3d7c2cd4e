import Mathlib.Data.Int.ConditionallyCompleteOrder
import Nifra.Lib.Runs
import Nifra.Live.Hub
import Nifra.Live.HubMembers

/-! # The books of the hub

The data of a socket outlive its place in the hub, and so would a tag that was not left. Here they are
kept, with the topics that the transport delivers to the socket.
-/

namespace Nifra.Live

def closeUnwatched : ℕ := 1000
def idleMs : ℤ := 150000
def firstWatchMs : ℤ := 60000

def Sent.reaches (ws : ℕ) : Sent → Bool
  | .welcome other => other = ws
  | .beat other => other = ws
  | .ready other _ _ => other = ws
  | .changed _ subscribers => ws ∈ subscribers
  | .closed _ _ => false

/-- A socket with its data; `topics` are its subscriptions in the transport. -/
structure HubSocket extends LiveSocket where
  exp : WithTop ℤ
  unwatchedSince : Option ℤ
  lastSeen : ℤ
  topics : InsertionMap JSString Unit

def HubSocket.create (sid : JSString) (now : ℤ) : HubSocket where
  sid := sid
  sub := none
  received := -1
  tags := ∅
  window := now
  frames := 0
  watches := 0
  isOpen := true
  exp := ⊤
  unwatchedSince := some now
  lastSeen := now
  topics := ∅

structure HubBooks where
  down : Bool
  data : InsertionMap ℕ HubSocket
  sockets : InsertionMap ℕ Unit
  members : InsertionMap JSString ℕ
  memberships : ℤ
  sent : List Sent

namespace HubBooks

def create : HubBooks := ⟨false, ∅, ∅, ∅, 0, []⟩

variable (hub : HubBooks)

def holds (ws : ℕ) (tag : JSString) : Bool := (hub.data.get ws).any fun s => s.tags.has tag

def subscribers (tag : JSString) : List ℕ :=
  (hub.data.entries.filter fun entry => entry.2.topics.has tag).map Prod.fst

def update (ws : ℕ) (f : HubSocket → HubSocket) : HubBooks :=
  match hub.data.get ws with
  | none => hub
  | some s => { hub with data := hub.data.set ws (f s) }

def join (ws : ℕ) (tag : JSString) : HubBooks :=
  let hub := hub.update ws fun s =>
    { s with tags := s.tags.set tag (), topics := s.topics.set tag () }
  { hub with
    members := hub.members.set tag ((hub.members.get tag).getD 0 + 1),
    memberships := hub.memberships + 1 }

def leave (ws : ℕ) (tag : JSString) (isOpen : Bool) : HubBooks :=
  let hub := hub.update ws fun s =>
    { s with
      tags := s.tags.delete tag
      topics := if isOpen then s.topics.delete tag else s.topics }
  let count := (hub.members.get tag).getD 1 - 1
  { hub with
    members := if count = 0 then hub.members.delete tag else hub.members.set tag count,
    memberships := hub.memberships - 1 }

def forget (ws : ℕ) (isOpen : Bool) : HubBooks :=
  if hub.sockets.has ws then
    let tags := ((hub.data.get ws).map fun s => s.tags.keys).getD []
    tags.foldl (fun hub tag => hub.leave ws tag isOpen)
      { hub with sockets := hub.sockets.delete ws }
  else hub

def closeSocket (ws code : ℕ) : HubBooks :=
  let hub := hub.update ws fun s => { s with isOpen := false }
  { hub with sent := hub.sent ++ [.closed ws code] }

/-- Leave every topic before closing: nothing published after this reaches the socket. -/
def drop (ws code : ℕ) : HubBooks := (hub.forget ws true).closeSocket ws code

def send (ws : ℕ) (frame : Sent) (slow : Bool) : HubBooks :=
  let hub := { hub with sent := hub.sent ++ [frame] }
  if slow then hub.drop ws closeCapacity else hub

/-- The runtime has dropped the closed socket's topics; only the counts are left to settle. -/
def close (ws : ℕ) : HubBooks :=
  (hub.update ws fun s => { s with isOpen := false, topics := ∅ }).forget ws false

def closeAll (code : ℕ) : HubBooks := hub.sockets.keys.foldl (fun hub ws => hub.drop ws code) hub

def publishTag (tag : JSString) : HubBooks :=
  match hub.members.get tag with
  | none => hub
  | some _ => { hub with sent := hub.sent ++ [.changed tag (hub.subscribers tag)] }

def publishTags (tags : List JSString) : HubBooks := tags.foldl publishTag hub

def openSocket (options : HubOptions) (ws : ℕ) (sid : JSString) (now : ℤ) (overRss slow : Bool) :
    HubBooks :=
  let hub := { hub with data := hub.data.set ws (.create sid now) }
  if hub.down || decide (options.maxSockets ≤ hub.sockets.size) || overRss then
    hub.closeSocket ws closeCapacity
  else { hub with sockets := hub.sockets.set ws () }.send ws (.welcome ws) slow

structure Stored where
  sub : Option JSString
  exp : WithTop ℤ
  tags : List JSString

/-- A socket whose hub lost its memory but not its connection: `s` comes without tags. -/
def restore (ws : ℕ) (s : HubSocket) (stored : Option Stored) : HubBooks :=
  let hub := { hub with
    data := hub.data.set ws { s with tags := ∅, topics := ∅ }
    sockets := hub.sockets.set ws () }
  match stored with
  | none => hub
  | some stored =>
    let hub := hub.update ws fun s => { s with sub := some stored.sub, exp := stored.exp }
    let hub := stored.tags.foldl
      (fun hub tag => if hub.holds ws tag then hub else hub.join ws tag) hub
    hub.update ws fun s => if s.tags.size = 0 then s else { s with unwatchedSince := none }

def concerns (sub : Option JSString) (s : HubSocket) : Bool := sub.isNone || s.sub = some sub

def revokeSocket (sub : Option JSString) (ws : ℕ) : HubBooks :=
  if (hub.data.get ws).any (concerns sub) then hub.drop ws closeRevoked else hub

def leaveTags (sub : Option JSString) (tags : List JSString) (now : ℤ) (ws : ℕ) : HubBooks :=
  if (hub.data.get ws).any (concerns sub) then
    let left := tags.any (hub.holds ws)
    let hub := tags.foldl
      (fun hub tag => if hub.holds ws tag then hub.leave ws tag true else hub) hub
    hub.update ws fun s =>
      if left && s.tags.size = 0 then { s with unwatchedSince := s.unwatchedSince <|> some now }
      else s
  else hub

def revoke (event : LiveRevocation) (tags : List JSString) (now : ℤ) : HubBooks :=
  match event.key with
  | none => hub.sockets.keys.foldl (fun hub ws => hub.revokeSocket event.sub ws) hub
  | some _ =>
    let hub := hub.publishTags tags
    hub.sockets.keys.foldl (fun hub ws => hub.leaveTags event.sub tags now ws) hub

def takeWatch (ws : ℕ) (s : HubSocket) (watch : Watch) : HubBooks × Option Installing :=
  let s := { s with watches := s.watches + 1 }
  let hub := hub.update ws fun _ => s
  if maxWatchesPerMinute < s.watches then (hub.drop ws closeProtocol, none)
  else if (watch.gen : ℤ) ≤ s.received then (hub, none)
  else (hub.update ws fun s => { s with received := watch.gen }, some ⟨ws, s.sid, watch⟩)

def message (ws : ℕ) (data : Inbound) (now : ℤ) (slow : Bool) : HubBooks × Option Installing :=
  match hub.data.get ws with
  | none => (hub, none)
  | some s =>
    if hub.sockets.has ws then
      let s := { s with toLiveSocket := s.toLiveSocket.countFrame now, lastSeen := now }
      let hub := hub.update ws fun _ => s
      if maxFramesPerMinute < s.frames then (hub.drop ws closeProtocol, none)
      else
        match data with
        | .heartbeat => (hub.send ws (.beat ws) slow, none)
        | .malformed => (hub.drop ws closeProtocol, none)
        | .watch watch => hub.takeWatch ws s watch
    else (hub, none)

def overfull (options : HubOptions) (s : HubSocket) (next : InsertionMap JSString Unit) : Bool :=
  let added := next.keys.countP fun tag => !hub.members.has tag
  decide (options.maxTopics < hub.members.size + added) ||
    options.maxMemberships.any fun budget : ℕ =>
      (budget : ℤ) < hub.memberships - s.tags.size + next.size

/-- Leave the tags that the watch no longer holds, and join those that it holds first. -/
def rewatch (ws : ℕ) (held next : InsertionMap JSString Unit) : HubBooks :=
  let hub := held.keys.foldl
    (fun hub tag => if next.has tag then hub else hub.leave ws tag true) hub
  next.keys.foldl (fun hub tag => if hub.holds ws tag then hub else hub.join ws tag) hub

def installPrepared (options : HubOptions) (history : History) (revocations : Revocations)
    (i : Installing) (prepared : List Prepared) (now : ℤ) (slow : Bool) : HubBooks :=
  match hub.data.get i.ws with
  | none => hub
  | some s =>
    if !hub.sockets.has i.ws || !s.isOpen || s.received ≠ (i.watch.gen : ℤ) then hub
    else if hub.down then hub.drop i.ws closeCapacity
    else
      match LiveHub.scope revocations s.sub prepared with
      | .error code => hub.drop i.ws code
      | .ok sub =>
        let next := LiveHub.tagSet prepared
        if hub.overfull options s next then hub.drop i.ws closeCapacity
        else
          let hub := hub.update i.ws fun s => { s with sub := sub }
          let hub := hub.rewatch i.ws s.tags next
          let hub := hub.update i.ws fun s => { s with
            unwatchedSince := if next.size = 0 then s.unwatchedSince <|> some now else none
            exp := (prepared.map fun p => ((p.grant.claims.exp * 1000 : ℤ) : WithTop ℤ)).foldl min ⊤ }
          hub.send i.ws (.ready i.ws i.watch.gen (prepared.map (staleOf history))) slow

def install (options : HubOptions) (history : History) (revocations : Revocations) (i : Installing)
    (now : ℤ) (slow : Bool) : HubBooks :=
  match options.prepare i.sid [] i.watch.grants with
  | .error code => hub.drop i.ws code
  | .ok prepared => hub.installPrepared options history revocations i prepared now slow

instance decidableDeadlineLT : DecidableLT (WithTop ℤ) :=
  @WithTop.decidableLT ℤ Int.instLTInt Int.decLt

instance decidableDeadlineLE : DecidableLE (WithTop ℤ) :=
  @WithTop.decidableLE ℤ Int.instLEInt Int.decLe

def expired (ws : ℕ) (now : ℤ) : HubBooks :=
  match hub.data.get ws with
  | none => hub
  | some s => if (now : WithTop ℤ) < s.exp then hub else hub.drop ws closeBadGrant

/-- One socket of a sweep, with the earliest deadline so far: `beat` is when the host last answered its
heartbeat, where it keeps a store. -/
def sweepSocket (now : ℤ) (beat : ℕ → Option ℤ) (slow : ℕ → Bool)
    (swept : HubBooks × WithTop ℤ) (ws : ℕ) : HubBooks × WithTop ℤ :=
  let (hub, next) := swept
  match hub.data.get ws with
  | none => (hub, next)
  | some s =>
    let seen := (beat ws).elim s.lastSeen (max s.lastSeen)
    if s.exp ≤ (now : WithTop ℤ) then (hub.drop ws closeBadGrant, next)
    else if idleMs < now - seen then (hub.drop ws closeProtocol, next)
    else if s.unwatchedSince.any fun since => decide (firstWatchMs ≤ now - since) then
      (hub.drop ws closeUnwatched, next)
    else if slow ws then (hub.drop ws closeCapacity, next)
    else
      let due := if s.exp = ⊤ then ((seen + idleMs : ℤ) : WithTop ℤ) else s.exp
      let unwatched := s.unwatchedSince.elim due fun since => ((since + firstWatchMs : ℤ) : WithTop ℤ)
      (hub, min next (min due unwatched))

def sweep (now : ℤ) (beat : ℕ → Option ℤ) (slow : ℕ → Bool) : HubBooks × WithTop ℤ :=
  hub.sockets.keys.foldl (sweepSocket now beat slow) (hub, ⊤)

end HubBooks

structure BooksState where
  hub : HubBooks
  installing : List Installing

/-- A watch goes on over whatever history and revocations there are by then. `publish` is a change or
the end of a window, and `down` the bus lost or found again. -/
inductive BooksEvent
  | openSocket (ws : ℕ) (sid : JSString) (now : ℤ) (overRss slow : Bool)
  | restore (ws : ℕ) (s : HubSocket) (stored : Option HubBooks.Stored)
  | close (ws : ℕ)
  | closing (ws : ℕ)
  | closeAll (code : ℕ)
  | revoke (event : LiveRevocation) (tags : List JSString) (now : ℤ)
  | publish (tags : List JSString)
  | message (ws : ℕ) (data : Inbound) (now : ℤ) (slow : Bool)
  | install (n : ℕ) (history : History) (revocations : Revocations) (now : ℤ) (slow : Bool)
  | fail (n : ℕ)
  | expired (ws : ℕ) (now : ℤ)
  | sweep (now : ℤ) (beat : ℕ → Option ℤ) (slow : ℕ → Bool)
  | down (isDown : Bool)

def BooksEvent.restores : BooksEvent → Bool
  | .restore _ _ _ => true
  | _ => false

def booksStep (options : HubOptions) (s : BooksState) : BooksEvent → Option BooksState
  | .openSocket ws sid now overRss slow =>
    if s.hub.data.has ws then none
    else some { s with hub := s.hub.openSocket options ws sid now overRss slow }
  | .restore ws socket stored =>
    if s.hub.data.has ws then none else some { s with hub := s.hub.restore ws socket stored }
  | .close ws => some { s with hub := s.hub.close ws }
  | .closing ws => some { s with hub := s.hub.update ws fun s => { s with isOpen := false } }
  | .closeAll code => some { s with hub := s.hub.closeAll code }
  | .revoke event tags now => some { s with hub := s.hub.revoke event tags now }
  | .publish tags => some { s with hub := s.hub.publishTags tags }
  | .message ws data now slow =>
    let (hub, watch) := s.hub.message ws data now slow
    some ⟨hub, s.installing ++ watch.toList⟩
  | .install n history revocations now slow => do
    let i ← s.installing[n]?
    some ⟨s.hub.install options history revocations i now slow, s.installing.eraseIdx n⟩
  | .fail n => do
    let i ← s.installing[n]?
    some ⟨s.hub.drop i.ws closeError, s.installing.eraseIdx n⟩
  | .expired ws now => some { s with hub := s.hub.expired ws now }
  | .sweep now beat slow => some { s with hub := (s.hub.sweep now beat slow).1 }
  | .down isDown => some { s with hub := { s.hub with down := isDown } }

end Nifra.Live

/-! ## The books balance

A socket that moves between topics takes its counts along, and one that leaves the hub leaves all of
its topics. What is gone stays gone, and nothing is sent to it.
-/

namespace Nifra.Live.HubBooks

open LiveHub (nonzero)

variable {options : HubOptions} {hub hub' hub'' : HubBooks} {ws ws' code : ℕ}
  {tag tag' : JSString} {next : List JSString} {isOpen slow : Bool}

def tagsOf (hub : HubBooks) (ws : ℕ) : InsertionMap JSString Unit :=
  ((hub.data.get ws).map fun s => s.tags).getD ∅

def topicsOf (hub : HubBooks) (ws : ℕ) : InsertionMap JSString Unit :=
  ((hub.data.get ws).map HubSocket.topics).getD ∅

theorem holds_eq : hub.holds ws tag = (hub.tagsOf ws).has tag := by
  unfold holds tagsOf
  cases hub.data.get ws with
  | none => rfl
  | some s => rfl

theorem known_of_holds (h : hub.holds ws tag) : (hub.data.get ws).isSome := by
  unfold holds at h
  cases hs : hub.data.get ws with
  | none => rw [hs] at h; cases h
  | some s => rfl

theorem get_update {f : HubSocket → HubSocket} : (hub.update ws f).data.get ws' =
    if ws' = ws then (hub.data.get ws).map f else hub.data.get ws' := by
  unfold update
  split
  · next hnone =>
    split_ifs with hws
    · rw [hws, hnone, Option.map_none]
    · rfl
  · next s hs =>
    rw [InsertionMap.get_set, hs]
    rfl

theorem update_fields (hub : HubBooks) (ws : ℕ) (f : HubSocket → HubSocket) :
    (hub.update ws f).sockets = hub.sockets ∧ (hub.update ws f).members = hub.members ∧
      (hub.update ws f).memberships = hub.memberships ∧ (hub.update ws f).sent = hub.sent := by
  unfold update
  split
  · exact ⟨rfl, rfl, rfl, rfl⟩
  · exact ⟨rfl, rfl, rfl, rfl⟩

theorem known_update (f : HubSocket → HubSocket) :
    ((hub.update ws f).data.get ws').isSome = (hub.data.get ws').isSome := by
  rw [get_update]
  split_ifs with hws
  · rw [Option.isSome_map, hws]
  · rfl

theorem holds_update {f : HubSocket → HubSocket}
    (hf : ∀ s, hub.data.get ws = some s → (f s).tags = s.tags) :
    (hub.update ws f).holds ws' tag = hub.holds ws' tag := by
  rw [holds, holds, get_update]
  split_ifs with hsame
  · subst hsame
    cases hs : hub.data.get ws' with
    | none => rfl
    | some s => rw [Option.map_some, Option.any_some, Option.any_some, hf s hs]
  · rfl

theorem topicsOf_update (f : HubSocket → HubSocket) : (hub.update ws f).topicsOf ws' =
    if ws' = ws then ((hub.data.get ws).map fun s => (f s).topics).getD ∅
    else hub.topicsOf ws' := by
  rw [topicsOf, get_update]
  split_ifs
  · rw [Option.map_map]
    rfl
  · rfl

def count (hub : HubBooks) (tag : JSString) : ℕ := hub.data.values.countP fun s => s.tags.has tag

/-- `members` counts the holders of each tag, and `memberships` is the sum. -/
structure Counted (hub : HubBooks) : Prop where
  members : ∀ tag, hub.members.get tag = nonzero (hub.count tag)
  memberships : hub.memberships = hub.members.values.sum

theorem count_update (f : HubSocket → HubSocket) (tag : JSString)
    (h : (hub.data.get ws).isSome) :
    (hub.update ws f).count tag + (if hub.holds ws tag then 1 else 0) =
      hub.count tag + if (hub.update ws f).holds ws tag then 1 else 0 := by
  obtain ⟨s, hs⟩ := Option.isSome_iff_exists.mp h
  have hdelete := InsertionMap.countP_delete (fun s : HubSocket => s.tags.has tag) hs
  have hnew : (hub.update ws f).holds ws tag = (f s).tags.has tag := by
    rw [holds, get_update, if_pos rfl, hs]
    rfl
  have hold : hub.holds ws tag = s.tags.has tag := by
    rw [holds, hs]
    rfl
  rw [hnew, hold, update, hs]
  simp only [count, InsertionMap.countP_set]
  omega

theorem count_update_same {f : HubSocket → HubSocket}
    (hf : ∀ s, hub.data.get ws = some s → (f s).tags = s.tags) :
    (hub.update ws f).count tag = hub.count tag := by
  cases hs : hub.data.get ws with
  | none => rw [update, hs]
  | some s =>
    have hcount := count_update f tag (by rw [hs]; rfl : (hub.data.get ws).isSome)
    have hsame : (hub.update ws f).holds ws tag = hub.holds ws tag := holds_update hf
    rw [hsame] at hcount
    omega

theorem sum_delete {m : InsertionMap JSString ℕ} {n : ℕ} (h : m.get tag = nonzero n) :
    (m.delete tag).values.sum + n = m.values.sum := by
  unfold nonzero at h
  split_ifs at h with hzero
  · rw [InsertionMap.values, InsertionMap.entries_delete_of_get_none h, hzero]
    rfl
  · exact InsertionMap.sum_values_delete h

def Subscribed (hub : HubBooks) (ws : ℕ) : Prop :=
  ∀ tag, (hub.topicsOf ws).has tag → hub.holds ws tag

/-- One socket moves between topics; those that it joins are in `next`. -/
structure Moves (ws : ℕ) (next : List JSString) (hub hub' : HubBooks) : Prop where
  counted : hub.Counted → hub'.Counted
  sockets : hub'.sockets = hub.sockets
  sent : hub'.sent = hub.sent
  known : ∀ ws', (hub'.data.get ws').isSome = (hub.data.get ws').isSome
  apart : ∀ ws' ≠ ws, hub'.data.get ws' = hub.data.get ws'
  subscribed : hub.Subscribed ws → hub'.Subscribed ws
  balance : hub'.memberships - (hub'.tagsOf ws).size = hub.memberships - (hub.tagsOf ws).size
  count : ∀ tag ∉ next, hub'.count tag ≤ hub.count tag
  tags : ∀ tag, hub'.holds ws tag → hub.holds ws tag ∨ tag ∈ next

theorem Moves.refl : Moves ws next hub hub where
  counted := id
  sockets := rfl
  sent := rfl
  known _ := rfl
  apart _ _ := rfl
  subscribed := id
  balance := rfl
  count _ _ := le_rfl
  tags _ := Or.inl

theorem Moves.trans (h : Moves ws next hub hub') (h' : Moves ws next hub' hub'') :
    Moves ws next hub hub'' where
  counted := h'.counted ∘ h.counted
  sockets := h'.sockets.trans h.sockets
  sent := h'.sent.trans h.sent
  known other := (h'.known other).trans (h.known other)
  apart other hne := (h'.apart other hne).trans (h.apart other hne)
  subscribed := h'.subscribed ∘ h.subscribed
  balance := h'.balance.trans h.balance
  count tag hnew := (h'.count tag hnew).trans (h.count tag hnew)
  tags tag htag := (h'.tags tag htag).elim (h.tags tag) Or.inr

theorem Moves.foldl {α : Type*} {f : HubBooks → α → HubBooks}
    (hf : ∀ (hub : HubBooks) a, Moves ws next hub (f hub a)) (l : List α) :
    Moves ws next hub (l.foldl f hub) := by
  induction l generalizing hub with
  | nil => exact .refl
  | cons a l ih => exact (hf hub a).trans ih

theorem tagsOf_leave : (hub.leave ws tag isOpen).tagsOf ws = (hub.tagsOf ws).delete tag := by
  change (((hub.update ws _).data.get ws).map _).getD ∅ = _
  rw [get_update, if_pos rfl, tagsOf]
  cases hub.data.get ws with
  | none => rfl
  | some s => rfl

theorem topicsOf_leave : (hub.leave ws tag isOpen).topicsOf ws =
    if isOpen then (hub.topicsOf ws).delete tag else hub.topicsOf ws := by
  change (((hub.update ws _).data.get ws).map _).getD ∅ = _
  rw [get_update, if_pos rfl, topicsOf]
  cases hub.data.get ws with
  | none => cases isOpen <;> rfl
  | some s => rfl

theorem holds_leave : (hub.leave ws tag isOpen).holds ws tag' =
    (decide (tag' ≠ tag) && hub.holds ws tag') := by
  rw [holds_eq, holds_eq, tagsOf_leave, InsertionMap.has, InsertionMap.get_delete,
    InsertionMap.has]
  by_cases hsame : tag' = tag
  · simp [hsame]
  · simp [hsame]

theorem tagsOf_join (h : (hub.data.get ws).isSome) :
    (hub.join ws tag).tagsOf ws = (hub.tagsOf ws).set tag () := by
  change (((hub.update ws _).data.get ws).map _).getD ∅ = _
  obtain ⟨s, hs⟩ := Option.isSome_iff_exists.mp h
  rw [get_update, if_pos rfl, tagsOf, hs]
  rfl

theorem topicsOf_join (h : (hub.data.get ws).isSome) :
    (hub.join ws tag).topicsOf ws = (hub.topicsOf ws).set tag () := by
  change (((hub.update ws _).data.get ws).map _).getD ∅ = _
  obtain ⟨s, hs⟩ := Option.isSome_iff_exists.mp h
  rw [get_update, if_pos rfl, topicsOf, hs]
  rfl

theorem holds_join (h : (hub.data.get ws).isSome) : (hub.join ws tag).holds ws tag' =
    (decide (tag' = tag) || hub.holds ws tag') := by
  rw [holds_eq, holds_eq, tagsOf_join h, InsertionMap.has, InsertionMap.get_set,
    InsertionMap.has]
  by_cases hsame : tag' = tag
  · simp [hsame]
  · simp [hsame]

theorem count_leave (h : hub.holds ws tag) :
    (hub.leave ws tag isOpen).count tag' + (if tag' = tag then 1 else 0) = hub.count tag' := by
  have hcount := count_update (fun s => { s with
    tags := s.tags.delete tag
    topics := if isOpen then s.topics.delete tag else s.topics }) tag' (known_of_holds h)
  change (hub.leave ws tag isOpen).count tag' + _ =
    _ + (if (hub.leave ws tag isOpen).holds ws tag' then 1 else 0) at hcount
  rw [holds_leave] at hcount
  by_cases hsame : tag' = tag
  · subst hsame
    simpa [h] using hcount
  · simpa [hsame] using hcount

theorem Counted.get_members (h : hub.Counted) (hholds : hub.holds ws tag) :
    hub.members.get tag = some ((hub.leave ws tag isOpen).count tag + 1) := by
  have hcount : (hub.leave ws tag isOpen).count tag + _ = _ := count_leave hholds
  rw [if_pos rfl] at hcount
  rw [h.members tag, ← hcount, nonzero, if_neg (Nat.succ_ne_zero _)]

theorem members_leave (h : hub.Counted) (hholds : hub.holds ws tag) :
    (hub.leave ws tag isOpen).members =
      if (hub.leave ws tag isOpen).count tag = 0 then hub.members.delete tag
      else hub.members.set tag ((hub.leave ws tag isOpen).count tag) := by
  have hfields := update_fields hub ws fun s => { s with
    tags := s.tags.delete tag
    topics := if isOpen then s.topics.delete tag else s.topics }
  have hmember : _ = some ((hub.leave ws tag isOpen).count tag + 1) := h.get_members hholds
  conv_lhs => unfold leave
  simp only [hfields.2.1, hmember, Option.getD_some, Nat.add_sub_cancel]

theorem memberships_leave : (hub.leave ws tag isOpen).memberships = hub.memberships - 1 := by
  have hfields := update_fields hub ws fun s => { s with
    tags := s.tags.delete tag
    topics := if isOpen then s.topics.delete tag else s.topics }
  conv_lhs => unfold leave
  simp only [hfields.2.2.1]

theorem Counted.leave (h : hub.Counted) (hholds : hub.holds ws tag) :
    (hub.leave ws tag isOpen).Counted := by
  have hmember : _ = some ((hub.leave ws tag isOpen).count tag + 1) := h.get_members hholds
  constructor
  · intro tag'
    have hcount : (hub.leave ws tag isOpen).count tag' + _ = _ := count_leave hholds
    rw [members_leave h hholds]
    by_cases hsame : tag' = tag
    · subst hsame
      split_ifs with hzero
      · rw [InsertionMap.get_delete, if_pos rfl, nonzero, if_pos hzero]
      · rw [InsertionMap.get_set_self, nonzero, if_neg hzero]
    · rw [if_neg hsame, Nat.add_zero] at hcount
      rw [hcount, ← h.members tag']
      split_ifs
      · rw [InsertionMap.get_delete, if_neg hsame]
      · exact InsertionMap.get_set_of_ne hsame
  · have hsum := InsertionMap.sum_values_delete hmember
    rw [members_leave h hholds, memberships_leave, h.memberships]
    split_ifs with hzero
    · omega
    · rw [InsertionMap.sum_values_set]
      omega

theorem moves_leave (h : hub.holds ws tag) (hopen : isOpen = true ∨ hub.topicsOf ws = ∅) :
    Moves ws next hub (hub.leave ws tag isOpen) where
  counted hcounted := hcounted.leave h
  sockets := (update_fields hub ws _).1
  sent := (update_fields hub ws _).2.2.2
  known _ := known_update _
  apart ws' hne := by
    change (hub.update ws _).data.get ws' = _
    rw [get_update, if_neg hne]
  subscribed hsub tag' htopic := by
    rw [topicsOf_leave] at htopic
    rw [holds_leave]
    rcases hopen with rfl | hempty
    · rw [if_pos rfl, InsertionMap.has, InsertionMap.get_delete] at htopic
      split_ifs at htopic with hsame
      · cases htopic
      · simpa [hsame] using hsub tag' htopic
    · rw [hempty] at htopic
      cases isOpen <;> cases htopic
  balance := by
    obtain ⟨u, hu⟩ := Option.isSome_iff_exists.mp (holds_eq ▸ h)
    have hsize := InsertionMap.size_delete hu
    rw [tagsOf_leave, memberships_leave]
    omega
  count tag' _ := by
    have hcount : (hub.leave ws tag isOpen).count tag' + _ = _ := count_leave h
    omega
  tags tag' htag := by
    rw [holds_leave, Bool.and_eq_true] at htag
    exact Or.inl htag.2

theorem count_join (hknown : (hub.data.get ws).isSome) (h : hub.holds ws tag = false) :
    (hub.join ws tag).count tag' = hub.count tag' + if tag' = tag then 1 else 0 := by
  have hcount := count_update (fun s => { s with
    tags := s.tags.set tag ()
    topics := s.topics.set tag () }) tag' hknown
  change (hub.join ws tag).count tag' + _ =
    _ + (if (hub.join ws tag).holds ws tag' then 1 else 0) at hcount
  rw [holds_join hknown] at hcount
  by_cases hsame : tag' = tag
  · subst hsame
    simpa [h] using hcount
  · simpa [hsame] using hcount

theorem members_join : (hub.join ws tag).members =
    hub.members.set tag ((hub.members.get tag).getD 0 + 1) := by
  conv_lhs => unfold join
  simp only [(update_fields hub ws _).2.1]

theorem memberships_join : (hub.join ws tag).memberships = hub.memberships + 1 := by
  conv_lhs => unfold join
  simp only [(update_fields hub ws _).2.2.1]

theorem Counted.join (h : hub.Counted) (hknown : (hub.data.get ws).isSome)
    (hnew : hub.holds ws tag = false) : (hub.join ws tag).Counted := by
  have hcount : (hub.members.get tag).getD 0 = hub.count tag := by
    rw [h.members tag, LiveHub.getD_nonzero]
  constructor
  · intro tag'
    rw [members_join, count_join hknown hnew, InsertionMap.get_set, hcount]
    by_cases hsame : tag' = tag
    · subst hsame
      rw [if_pos rfl, if_pos rfl, nonzero, if_neg (Nat.succ_ne_zero _)]
    · rw [if_neg hsame, if_neg hsame, h.members tag', Nat.add_zero]
  · have hsum := sum_delete (h.members tag)
    rw [members_join, memberships_join, InsertionMap.sum_values_set, hcount, h.memberships]
    omega

theorem moves_join (hknown : (hub.data.get ws).isSome) (hnew : hub.holds ws tag = false)
    (hnext : tag ∈ next) : Moves ws next hub (hub.join ws tag) where
  counted hcounted := hcounted.join hknown hnew
  sockets := (update_fields hub ws _).1
  sent := (update_fields hub ws _).2.2.2
  known _ := known_update _
  apart ws' hne := by
    change (hub.update ws _).data.get ws' = _
    rw [get_update, if_neg hne]
  subscribed hsub tag' htopic := by
    rw [topicsOf_join hknown, InsertionMap.has, InsertionMap.get_set] at htopic
    rw [holds_join hknown]
    split_ifs at htopic with hsame
    · simp [hsame]
    · simpa [hsame] using hsub tag' htopic
  balance := by
    have hnone : (hub.tagsOf ws).get tag = none := by
      rwa [holds_eq, InsertionMap.has, Option.isSome_eq_false_iff, Option.isNone_iff_eq_none]
        at hnew
    have hsize := InsertionMap.size_set_of_get_none (v := ()) hnone
    rw [tagsOf_join hknown, memberships_join]
    omega
  count tag' hother := by
    rw [count_join hknown hnew, if_neg (by rintro rfl; exact hother hnext), Nat.add_zero]
  tags tag' htag := by
    rw [holds_join hknown, Bool.or_eq_true, decide_eq_true_eq] at htag
    rcases htag with rfl | htag
    · exact Or.inr hnext
    · exact Or.inl htag

theorem moves_leaveOthers (kept : JSString → Bool) {tags : List JSString} (hnodup : tags.Nodup)
    (hheld : ∀ tag ∈ tags, hub.holds ws tag) (hopen : isOpen = true ∨ hub.topicsOf ws = ∅) :
    Moves ws next hub
      (tags.foldl (fun hub tag => if kept tag then hub else hub.leave ws tag isOpen) hub) := by
  induction tags generalizing hub with
  | nil => exact .refl
  | cons tag tags ih =>
    obtain ⟨hnew, hnodup⟩ := List.nodup_cons.mp hnodup
    rw [List.foldl_cons]
    split_ifs
    · exact ih hnodup (fun tag' htag' => hheld tag' (List.mem_cons_of_mem _ htag')) hopen
    · refine (moves_leave (hheld tag List.mem_cons_self) hopen).trans (ih hnodup ?_ ?_)
      · intro tag' htag'
        rw [holds_leave, hheld tag' (List.mem_cons_of_mem _ htag'), Bool.and_true,
          decide_eq_true_eq]
        rintro rfl
        exact hnew htag'
      · refine hopen.imp_right fun hempty => ?_
        rw [topicsOf_leave, hempty]
        cases isOpen <;> rfl

theorem holds_leaveOthers (kept : JSString → Bool) (tags : List JSString) :
    (tags.foldl (fun hub tag => if kept tag then hub else hub.leave ws tag isOpen) hub).holds ws
      tag' = (hub.holds ws tag' && (kept tag' || decide (tag' ∉ tags))) := by
  induction tags generalizing hub with
  | nil => simp
  | cons tag tags ih =>
    rw [List.foldl_cons, ih]
    by_cases hsame : tag' = tag
    · subst hsame
      cases hkept : kept tag'
      · simp [holds_leave]
      · simp
    · cases hkept : kept tag
      · simp [holds_leave, hsame]
      · simp [hsame]

theorem moves_joinOthers {tags : List JSString} (hknown : (hub.data.get ws).isSome)
    (hnext : ∀ tag ∈ tags, tag ∈ next) :
    Moves ws next hub
      (tags.foldl (fun hub tag => if hub.holds ws tag then hub else hub.join ws tag) hub) := by
  induction tags generalizing hub with
  | nil => exact .refl
  | cons tag tags ih =>
    have hrest : ∀ tag' ∈ tags, tag' ∈ next := fun tag' htag' =>
      hnext tag' (List.mem_cons_of_mem _ htag')
    rw [List.foldl_cons]
    split_ifs with hheld
    · exact ih hknown hrest
    · have hjoin : Moves ws next hub (hub.join ws tag) :=
        moves_join hknown (Bool.eq_false_of_not_eq_true hheld) (hnext tag List.mem_cons_self)
      exact hjoin.trans (ih ((hjoin.known ws).trans hknown) hrest)

theorem moves_leaveHeld : Moves ws next hub
    (if hub.holds ws tag then hub.leave ws tag true else hub) := by
  split_ifs with h
  · exact moves_leave h (Or.inl rfl)
  · exact .refl

def Gone (hub : HubBooks) (ws : ℕ) : Prop :=
  (hub.data.get ws).isSome ∧ hub.sockets.has ws = false

structure Later (hub hub' : HubBooks) : Prop where
  known : ∀ ws, (hub.data.get ws).isSome → (hub'.data.get ws).isSome
  gone : ∀ ws, hub.Gone ws → hub'.Gone ws
  sent : ∃ frames, hub'.sent = hub.sent ++ frames ∧
    ∀ ws, hub.Gone ws → ∀ frame ∈ frames, frame.reaches ws = false

theorem Later.refl : hub.Later hub :=
  ⟨fun _ => id, fun _ => id, [], (List.append_nil _).symm, fun _ _ => nofun⟩

theorem Later.trans (h : hub.Later hub') (h' : hub'.Later hub'') : hub.Later hub'' := by
  obtain ⟨frames, hsent, hsilent⟩ := h.sent
  obtain ⟨frames', hsent', hsilent'⟩ := h'.sent
  refine ⟨fun ws hknown => h'.known ws (h.known ws hknown),
    fun ws hgone => h'.gone ws (h.gone ws hgone), frames ++ frames', ?_, ?_⟩
  · rw [hsent', hsent, List.append_assoc]
  · intro ws hgone frame hframe
    rcases List.mem_append.mp hframe with hframe | hframe
    · exact hsilent ws hgone frame hframe
    · exact hsilent' ws (h.gone ws hgone) frame hframe

structure Within (options : HubOptions) (hub hub' : HubBooks) : Prop where
  sockets : hub'.sockets.size ≤ max hub.sockets.size options.maxSockets
  members : hub'.members.size ≤ max hub.members.size options.maxTopics
  memberships : ∀ budget ∈ options.maxMemberships,
    hub'.memberships ≤ max hub.memberships (budget : ℕ)

structure Shrinks (hub hub' : HubBooks) : Prop where
  sockets : hub'.sockets.size ≤ hub.sockets.size
  members : hub'.members.size ≤ hub.members.size
  memberships : hub'.memberships ≤ hub.memberships

theorem Shrinks.refl : hub.Shrinks hub := ⟨le_rfl, le_rfl, le_rfl⟩

theorem Shrinks.trans (h : hub.Shrinks hub') (h' : hub'.Shrinks hub'') : hub.Shrinks hub'' :=
  ⟨h'.sockets.trans h.sockets, h'.members.trans h.members, h'.memberships.trans h.memberships⟩

theorem Shrinks.within (h : hub.Shrinks hub') : Within options hub hub' :=
  ⟨h.sockets.trans (le_max_left _ _), h.members.trans (le_max_left _ _),
    fun _ _ => h.memberships.trans (le_max_left _ _)⟩

def Silent (sent : List Sent) : Prop :=
  sent.Pairwise fun first frame => ∀ ws code, first = .closed ws code → frame.reaches ws = false

structure Balanced (hub : HubBooks) : Prop where
  counted : hub.Counted
  known : ∀ ws, hub.sockets.has ws → (hub.data.get ws).isSome
  outside : ∀ ws, hub.sockets.has ws = false → ∀ tag, hub.holds ws tag = false
  subscribed : ∀ ws, hub.Subscribed ws
  closed : ∀ ws code, .closed ws code ∈ hub.sent → hub.Gone ws
  silent : Silent hub.sent

theorem balanced_create : create.Balanced where
  counted := ⟨fun _ => rfl, rfl⟩
  known _ h := by cases h
  outside _ _ _ := rfl
  subscribed _ _ h := by cases h
  closed _ _ := nofun
  silent := List.Pairwise.nil

def Keeps (hub hub' : HubBooks) : Prop :=
  hub.Balanced → hub'.Balanced ∧ hub.Later hub' ∧ hub.Shrinks hub'

theorem Keeps.refl : hub.Keeps hub := fun h => ⟨h, .refl, .refl⟩

theorem Keeps.trans (h : hub.Keeps hub') (h' : hub'.Keeps hub'') : hub.Keeps hub'' := by
  intro hbalanced
  obtain ⟨hmid, hlater, hshrinks⟩ := h hbalanced
  obtain ⟨hend, hlater', hshrinks'⟩ := h' hmid
  exact ⟨hend, hlater.trans hlater', hshrinks.trans hshrinks'⟩

theorem Keeps.foldl {α : Type*} {f : HubBooks → α → HubBooks}
    (hf : ∀ (hub : HubBooks) a, hub.Keeps (f hub a)) (l : List α) : hub.Keeps (l.foldl f hub) := by
  induction l generalizing hub with
  | nil => exact .refl
  | cons a l ih => exact (hf hub a).trans ih

theorem Keeps.foldl_known {f : HubBooks → ℕ → HubBooks}
    (hf : ∀ (hub : HubBooks) ws, (hub.data.get ws).isSome → hub.Keeps (f hub ws)) (l : List ℕ)
    (hl : ∀ ws ∈ l, (hub.data.get ws).isSome) : hub.Keeps (l.foldl f hub) := by
  induction l generalizing hub with
  | nil => exact .refl
  | cons ws l ih =>
    intro hbalanced
    have hfirst := hf hub ws (hl ws List.mem_cons_self)
    have hlater := (hfirst hbalanced).2.1
    exact (hfirst.trans (ih fun other hmem =>
      hlater.known other (hl other (List.mem_cons_of_mem _ hmem)))) hbalanced

theorem Counted.has_iff (h : hub.Counted) : hub.members.has tag ↔ hub.count tag ≠ 0 := by
  rw [InsertionMap.has, h.members tag, nonzero]
  split_ifs with hzero
  · simp [hzero]
  · simp [hzero]

theorem Moves.has_members (h : Moves ws next hub hub') (hcounted : hub.Counted)
    (hmember : hub'.members.has tag) : hub.members.has tag ∨ tag ∈ next := by
  by_cases hnext : tag ∈ next
  · exact Or.inr hnext
  · have hle := h.count tag hnext
    rw [(h.counted hcounted).has_iff] at hmember
    rw [hcounted.has_iff]
    omega

theorem Moves.shrinks (h : Moves ws [] hub hub') (hcounted : hub.Counted) :
    hub.Shrinks hub' := by
  refine ⟨by rw [h.sockets], ?_, ?_⟩
  · rw [InsertionMap.size_eq_length_keys (m := hub.members)]
    refine InsertionMap.size_le_length fun tag hmem => ?_
    rw [← InsertionMap.has_iff_mem_keys] at hmem ⊢
    exact (h.has_members hcounted hmem).resolve_right List.not_mem_nil
  · have hsize : (hub'.tagsOf ws).size ≤ (hub.tagsOf ws).size := by
      rw [InsertionMap.size_eq_length_keys (m := hub.tagsOf ws)]
      refine InsertionMap.size_le_length fun tag hmem => ?_
      rw [← InsertionMap.has_iff_mem_keys, ← holds_eq] at hmem ⊢
      exact (h.tags tag hmem).resolve_right List.not_mem_nil
    have hbalance := h.balance
    omega

theorem Moves.gone (h : Moves ws next hub hub') : hub'.Gone ws' ↔ hub.Gone ws' := by
  rw [Gone, Gone, h.known, h.sockets]

theorem Moves.later (h : Moves ws next hub hub') : hub.Later hub' where
  known other hknown := (h.known other).trans hknown
  gone _ hgone := h.gone.mpr hgone
  sent := ⟨[], by rw [h.sent, List.append_nil], fun _ _ => nofun⟩

theorem Moves.holds_of_ne (h : Moves ws next hub hub') (hne : ws' ≠ ws) :
    hub'.holds ws' tag = hub.holds ws' tag := by
  rw [holds, holds, h.apart ws' hne]

theorem Moves.balanced (h : Moves ws next hub hub') (hin : hub.sockets.has ws ∨ next = [])
    (hbalanced : hub.Balanced) : hub'.Balanced where
  counted := h.counted hbalanced.counted
  known other hmem := by
    rw [h.known]
    exact hbalanced.known other (h.sockets ▸ hmem)
  outside other hout tag := by
    rw [h.sockets] at hout
    have hfree := hbalanced.outside other hout tag
    by_cases hsame : other = ws
    · subst hsame
      rcases hin with hin | rfl
      · rw [hin] at hout
        cases hout
      · refine Bool.eq_false_of_not_eq_true fun hheld => ?_
        rw [(h.tags tag hheld).resolve_right List.not_mem_nil] at hfree
        cases hfree
    · rw [h.holds_of_ne hsame, hfree]
  subscribed other := by
    by_cases hsame : other = ws
    · exact hsame ▸ h.subscribed (hbalanced.subscribed ws)
    · intro tag htopic
      rw [topicsOf, h.apart other hsame] at htopic
      rw [h.holds_of_ne hsame]
      exact hbalanced.subscribed other tag htopic
  closed other code hclosed := h.gone.mpr (hbalanced.closed other code (h.sent ▸ hclosed))
  silent := by
    rw [h.sent]
    exact hbalanced.silent

theorem Moves.keeps (h : Moves ws [] hub hub') : hub.Keeps hub' := fun hbalanced =>
  ⟨h.balanced (Or.inr rfl) hbalanced, h.later, h.shrinks hbalanced.counted⟩

theorem keeps_update {f : HubSocket → HubSocket} (hf : ∀ s, hub.data.get ws = some s →
    (f s).tags = s.tags ∧ ∀ tag, (f s).topics.has tag → s.topics.has tag) :
    hub.Keeps (hub.update ws f) := by
  intro hbalanced
  obtain ⟨hsockets, hmembers, hmemberships, hsent⟩ := update_fields hub ws f
  have hholds : ∀ ws' tag, (hub.update ws f).holds ws' tag = hub.holds ws' tag := fun _ _ =>
    holds_update fun s hs => (hf s hs).1
  have hgone : ∀ ws', (hub.update ws f).Gone ws' ↔ hub.Gone ws' := by
    intro ws'
    rw [Gone, Gone, known_update, hsockets]
  refine ⟨⟨⟨fun tag => ?_, ?_⟩, ?_, ?_, ?_, ?_, ?_⟩, ⟨?_, ?_, ?_⟩, ⟨?_, ?_, ?_⟩⟩
  · rw [hmembers, count_update_same fun s hs => (hf s hs).1]
    exact hbalanced.counted.members tag
  · rw [hmembers, hmemberships]
    exact hbalanced.counted.memberships
  · intro ws' hmem
    rw [known_update]
    exact hbalanced.known ws' (hsockets ▸ hmem)
  · intro ws' hout tag
    rw [hholds]
    exact hbalanced.outside ws' (hsockets ▸ hout) tag
  · intro ws' tag htopic
    rw [hholds]
    refine hbalanced.subscribed ws' tag ?_
    rw [topicsOf_update] at htopic
    split_ifs at htopic with hsame
    · rw [hsame, topicsOf]
      cases hs : hub.data.get ws with
      | none =>
        rw [hs] at htopic
        exact htopic
      | some s =>
        rw [hs] at htopic
        exact (hf s hs).2 tag htopic
    · exact htopic
  · intro ws' code hclosed
    rw [hgone]
    exact hbalanced.closed ws' code (hsent ▸ hclosed)
  · rw [hsent]
    exact hbalanced.silent
  · intro ws' hknown
    rwa [known_update]
  · exact fun ws' => (hgone ws').mpr
  · exact ⟨[], by rw [hsent, List.append_nil], fun _ _ => by rintro _ ⟨⟩⟩
  · rw [hsockets]
  · rw [hmembers]
  · rw [hmemberships]

theorem keeps_append {frame : Sent} (hin : ∀ ws, frame.reaches ws → hub.sockets.has ws)
    (hclosed : ∀ ws code, frame = .closed ws code → hub.Gone ws) :
    hub.Keeps { hub with sent := hub.sent ++ [frame] } := by
  intro hbalanced
  have hsilent : ∀ ws, hub.Gone ws → frame.reaches ws = false := by
    intro ws hgone
    refine Bool.eq_false_of_not_eq_true fun hreaches => ?_
    have hout := hgone.2
    rw [hin ws hreaches] at hout
    cases hout
  refine ⟨⟨⟨hbalanced.counted.members, hbalanced.counted.memberships⟩, hbalanced.known,
    hbalanced.outside, hbalanced.subscribed, ?_, ?_⟩, ⟨fun _ => id, fun _ => id, [frame], rfl, ?_⟩,
    ⟨le_rfl, le_rfl, le_rfl⟩⟩
  · intro ws code hmem
    rcases List.mem_append.mp hmem with hmem | hmem
    · exact hbalanced.closed ws code hmem
    · exact hclosed ws code (List.mem_singleton.mp hmem).symm
  · refine List.pairwise_append.mpr ⟨hbalanced.silent, List.pairwise_singleton _ _, ?_⟩
    rintro first hfirst last hlast ws code rfl
    rw [List.mem_singleton.mp hlast]
    exact hsilent ws (hbalanced.closed ws code hfirst)
  · intro ws hgone frame' hframe
    rw [List.mem_singleton.mp hframe]
    exact hsilent ws hgone

theorem forget_of_out (h : hub.sockets.has ws = false) : hub.forget ws isOpen = hub := by
  rw [forget, h]
  rfl

theorem has_delete_socket : (hub.sockets.delete ws).has ws' =
    (decide (ws' ≠ ws) && hub.sockets.has ws') := by
  rw [InsertionMap.has, InsertionMap.get_delete, InsertionMap.has]
  by_cases hsame : ws' = ws
  · simp [hsame]
  · simp [hsame]

theorem moves_forget (hin : hub.sockets.has ws) (hopen : isOpen = true ∨ hub.topicsOf ws = ∅) :
    Moves ws [] { hub with sockets := hub.sockets.delete ws } (hub.forget ws isOpen) ∧
      ∀ tag, (hub.forget ws isOpen).holds ws tag = false := by
  have htags : ((hub.data.get ws).map fun s => s.tags.keys).getD [] = (hub.tagsOf ws).keys := by
    unfold tagsOf
    cases hub.data.get ws with
    | none => rfl
    | some s => rfl
  have hforget : hub.forget ws isOpen = (hub.tagsOf ws).keys.foldl
      (fun hub tag => if (fun _ => false) tag then hub else hub.leave ws tag isOpen)
      { hub with sockets := hub.sockets.delete ws } := by
    rw [forget, if_pos hin, htags]
    simp only [Bool.false_eq_true, if_false]
  constructor
  · rw [hforget]
    refine moves_leaveOthers _ (hub.tagsOf ws).nodup (fun tag hmem => ?_) hopen
    rw [holds_eq]
    exact InsertionMap.has_iff_mem_keys.mpr hmem
  · intro tag
    rw [hforget, holds_leaveOthers, Bool.false_or]
    change (hub.holds ws tag && _) = false
    rw [holds_eq]
    cases htag : (hub.tagsOf ws).has tag with
    | false => rfl
    | true => simpa using InsertionMap.has_iff_mem_keys.mp htag

theorem keeps_forget (hopen : isOpen = true ∨ hub.topicsOf ws = ∅) :
    hub.Keeps (hub.forget ws isOpen) := by
  cases hin : hub.sockets.has ws with
  | false =>
    rw [forget_of_out hin]
    exact .refl
  | true =>
    intro hbalanced
    obtain ⟨hmoves, hfree⟩ := moves_forget hin hopen
    have hcounted : Counted { hub with sockets := hub.sockets.delete ws } :=
      ⟨hbalanced.counted.members, hbalanced.counted.memberships⟩
    have hgone : ∀ other, hub.Gone other → (hub.forget ws isOpen).Gone other := by
      rintro other ⟨hknown, hout⟩
      refine hmoves.gone.mpr ⟨hknown, ?_⟩
      rw [has_delete_socket, hout, Bool.and_false]
    refine ⟨⟨hmoves.counted hcounted, fun other hmem => ?_, fun other hout tag => ?_,
      fun other => ?_, fun other code hclosed => ?_, ?_⟩, ⟨fun other hknown => ?_, hgone, ?_⟩, ?_⟩
    · rw [hmoves.sockets, has_delete_socket, Bool.and_eq_true] at hmem
      rw [hmoves.known]
      exact hbalanced.known other hmem.2
    · by_cases hsame : other = ws
      · exact hsame ▸ hfree tag
      · rw [hmoves.sockets, has_delete_socket, decide_eq_true hsame, Bool.true_and] at hout
        rw [hmoves.holds_of_ne hsame]
        exact hbalanced.outside other hout tag
    · by_cases hsame : other = ws
      · exact hsame ▸ hmoves.subscribed (hbalanced.subscribed ws)
      · intro tag htopic
        rw [topicsOf, hmoves.apart other hsame] at htopic
        rw [hmoves.holds_of_ne hsame]
        exact hbalanced.subscribed other tag htopic
    · exact hgone other (hbalanced.closed other code (hmoves.sent ▸ hclosed))
    · rw [hmoves.sent]
      exact hbalanced.silent
    · exact (hmoves.known other).trans hknown
    · exact ⟨[], by rw [hmoves.sent, List.append_nil], fun _ _ => nofun⟩
    · have hdelete : hub.Shrinks { hub with sockets := hub.sockets.delete ws } :=
        ⟨List.length_filter_le _ _, le_rfl, le_rfl⟩
      exact hdelete.trans (hmoves.shrinks hcounted)

theorem out_forget (hopen : isOpen = true ∨ hub.topicsOf ws = ∅) :
    (hub.forget ws isOpen).sockets.has ws = false := by
  cases hin : hub.sockets.has ws with
  | false => rwa [forget_of_out hin]
  | true => rw [(moves_forget hin hopen).1.sockets, has_delete_socket, decide_eq_false (by simp),
      Bool.false_and]

theorem keeps_closeSocket (hgone : hub.Gone ws) : hub.Keeps (hub.closeSocket ws code) := by
  have hupdate : hub.Keeps (hub.update ws fun s => { s with isOpen := false }) :=
    keeps_update fun _ _ => ⟨rfl, fun _ => id⟩
  refine hupdate.trans (keeps_append nofun ?_)
  rintro other code ⟨⟩
  rwa [Gone, known_update, (update_fields hub ws _).1]

theorem keeps_drop (hknown : (hub.data.get ws).isSome) : hub.Keeps (hub.drop ws code) := by
  intro hbalanced
  have hforget : hub.Keeps (hub.forget ws true) := keeps_forget (Or.inl rfl)
  refine (hforget.trans (keeps_closeSocket ⟨?_, out_forget (Or.inl rfl)⟩)) hbalanced
  exact (hforget hbalanced).2.1.known ws hknown

theorem keeps_send {frame : Sent} (hin : hub.sockets.has ws)
    (hreaches : ∀ other, frame.reaches other → other = ws)
    (hclosed : ∀ other code, frame ≠ .closed other code) : hub.Keeps (hub.send ws frame slow) := by
  intro hbalanced
  have hframe : hub.Keeps { hub with sent := hub.sent ++ [frame] } :=
    keeps_append (fun other h => hreaches other h ▸ hin) fun other code h => absurd h (hclosed _ _)
  unfold send
  split_ifs
  · exact hframe.trans (keeps_drop (hbalanced.known ws hin)) hbalanced
  · exact hframe hbalanced

theorem keeps_close : hub.Keeps (hub.close ws) := by
  have hupdate : hub.Keeps (hub.update ws fun s => { s with isOpen := false, topics := ∅ }) :=
    keeps_update fun _ _ => ⟨rfl, fun _ h => by cases h⟩
  refine hupdate.trans (keeps_forget (Or.inr ?_))
  rw [topicsOf_update, if_pos rfl]
  cases hub.data.get ws with
  | none => rfl
  | some s => rfl

theorem keeps_closeAll : hub.Keeps (hub.closeAll code) := fun hbalanced =>
  Keeps.foldl_known (fun _ _ => keeps_drop) _
    (fun ws hmem => hbalanced.known ws (InsertionMap.has_iff_mem_keys.mpr hmem)) hbalanced

theorem mem_subscribers_iff : ws ∈ hub.subscribers tag ↔ (hub.topicsOf ws).has tag := by
  unfold subscribers topicsOf
  rw [List.mem_map]
  constructor
  · rintro ⟨⟨ws, s⟩, hmem, rfl⟩
    obtain ⟨hentry, htopic⟩ := List.mem_filter.mp hmem
    rw [InsertionMap.get_eq_some_iff.mpr hentry]
    exact htopic
  · intro htopic
    cases hs : hub.data.get ws with
    | none =>
      rw [hs] at htopic
      cases htopic
    | some s =>
      rw [hs] at htopic
      exact ⟨(ws, s), List.mem_filter.mpr ⟨InsertionMap.get_eq_some_iff.mp hs, htopic⟩, rfl⟩

theorem Balanced.subscriber (h : hub.Balanced) (hmem : ws ∈ hub.subscribers tag) :
    hub.sockets.has ws := by
  have hheld := h.subscribed ws tag (mem_subscribers_iff.mp hmem)
  cases hin : hub.sockets.has ws with
  | true => rfl
  | false =>
    rw [h.outside ws hin tag] at hheld
    cases hheld

theorem keeps_publishTag : hub.Keeps (hub.publishTag tag) := by
  intro hbalanced
  unfold publishTag
  split
  · exact Keeps.refl hbalanced
  · exact keeps_append (fun ws h => hbalanced.subscriber (of_decide_eq_true h)) nofun hbalanced

theorem keeps_publishTags (tags : List JSString) : hub.Keeps (hub.publishTags tags) :=
  .foldl (fun _ _ => keeps_publishTag) _

theorem keeps_revokeSocket {sub : Option JSString} : hub.Keeps (hub.revokeSocket sub ws) := by
  unfold revokeSocket
  split_ifs with h
  · obtain ⟨s, hs, -⟩ := (Option.any_eq_true _ _).mp h
    exact keeps_drop (Option.isSome_of_mem hs)
  · exact .refl

theorem keeps_leaveTags {sub : Option JSString} {tags : List JSString} {now : ℤ} :
    hub.Keeps (hub.leaveTags sub tags now ws) := by
  unfold leaveTags
  split_ifs
  · have hleave : hub.Keeps (tags.foldl
        (fun hub tag => if hub.holds ws tag then hub.leave ws tag true else hub) hub) :=
      (Moves.foldl (fun _ _ => moves_leaveHeld) tags).keeps
    refine hleave.trans (keeps_update fun s _ => ?_)
    split_ifs
    · exact ⟨rfl, fun _ => id⟩
    · exact ⟨rfl, fun _ => id⟩
  · exact .refl

theorem keeps_revoke {event : LiveRevocation} {tags : List JSString} {now : ℤ} :
    hub.Keeps (hub.revoke event tags now) := by
  unfold revoke
  split
  · exact .foldl (fun _ _ => keeps_revokeSocket) _
  · exact (keeps_publishTags tags).trans (.foldl (fun _ _ => keeps_leaveTags) _)

end Nifra.Live.HubBooks
