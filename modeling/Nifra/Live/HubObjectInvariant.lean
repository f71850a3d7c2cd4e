import Nifra.Live.Following
import Nifra.Live.HubRuns
import Nifra.Live.RevocationSafety

/-! # The hub's Durable Object

Appends run one at a time: an event is stored, applied and settled, an await after each. A crash
loses the memory at any await and keeps the storage, and a wake builds the hub from what was stored.
What is kept beside the state of the source: the seqs stored, applied and handed out, and the
revocations and floors that an answer could show.
-/

namespace Nifra.Live

open Revocations

def maxAppendKeys : ℕ := 3 * 64
def maxSubjectChars : ℕ := 1024
def deleteBatch : ℕ := 128

/-- `ttl` in seconds. -/
structure HubObjectOptions where
  hub : HubOptions
  capacity : ℕ
  limit : ℕ
  maxAgeMs : ℤ
  ttl : ℕ

def nextSeq (last : ℕ) (now : ℤ) : ℕ := max (last + 1) (now * 1000).toNat

namespace LiveBusInput

/-- What `parseAppend` lets through. -/
def appendable : LiveBusInput → Bool
  | .change keys => !keys.isEmpty && decide (keys.length ≤ maxAppendKeys) && keys.all isKey
  | .revoke sub key => sub.all (fun sub => sub.length ≤ maxSubjectChars) && key.all isKey
  | .malformed => false

/-- A revocation with a subject or a key: `revokeAll` has no entry of its own. -/
def kept? (input : LiveBusInput) : Option LiveRevocation :=
  input.revocation?.filter fun event => event.sub.isSome || event.key.isSome

end LiveBusInput

structure StoredRevocation where
  seq : ℕ
  event : LiveRevocation
  atMs : ℤ
  deriving DecidableEq, Repr

/-- `seq`, `applied` and `floor` are put together by the first wake; `revoked` is in the order of
its keys. -/
structure HubStorage where
  seq : Option ℕ
  applied : ℕ
  floor : ℕ
  revoked : List StoredRevocation

namespace HubStorage
variable (storage : HubStorage)

def create : HubStorage := ⟨none, 0, 0, []⟩

def putEvent (event : LiveBusEvent) (now : ℤ) : HubStorage :=
  { storage with
    seq := some event.seq,
    revoked := storage.revoked ++
      (event.input.kept?.map fun revocation => ⟨event.seq, revocation, now⟩).toList }

def putApplied (seq : ℕ) (floor : Option ℕ) : HubStorage :=
  { storage with
    applied := seq,
    floor := floor.getD storage.floor }

def stale (limit : ℕ) : List StoredRevocation :=
  (storage.revoked.takeWhile fun entry => entry.seq < limit).take deleteBatch

def deleteStale (limit : ℕ) : HubStorage :=
  { storage with revoked := storage.revoked.drop (storage.stale limit).length }

end HubStorage

/-- Where an append waits: for its first put, for the tags of its event, for `applyEvent` to return,
and for its second put. -/
inductive Appending
  | idle
  | storing (event : LiveBusEvent) (now : ℤ)
  | applying (event : LiveBusEvent) (now : ℤ)
  | settling (event : LiveBusEvent)
  | saving (seq : ℕ) (floor : Option ℕ)

/-- `pruning` has the ends of the prunings that have not deleted all their entries. -/
structure HubObject where
  state : HubState
  seq : ℕ
  applied : ℕ
  floor : ℕ
  chain : List LiveBusInput
  appending : Appending
  pruning : List ℕ

/-- What the runtime has of a socket: its attachment, and the record of its membership. -/
structure Attached where
  data : Option LiveSocket
  stored : Option (Option JSString × List JSString)

def Attached.survives (socket : Attached) : Bool :=
  socket.data.any fun data => decide (data.received < 0) || socket.stored.isSome

def replay (options : HubObjectOptions) (floor : ℕ) (revoked : List StoredRevocation) :
    Revocations :=
  (revoked.filter fun entry => floor ≤ entry.seq).foldl
    (fun r entry => r.apply entry.event entry.seq entry.atMs)
    (.create floor (options.ttl * 1000) options.limit)

def LiveCore.resetTo (core : LiveCore) (seq : ℕ) : LiveCore where
  history := core.history.reset seq
  revocations := core.revocations.raise seq
  hub := core.hub.closeAll closeCapacity

namespace HubObject
variable (options : HubObjectOptions) (o : HubObject)

def revocations : Revocations := o.state.core.revocations

/-- `wake` from what it has read; the sockets are those that stay open. -/
def restore (seq floor : ℕ) (revoked : List StoredRevocation)
    (sockets : List (ℕ × Attached)) : HubObject where
  state :=
    let hub := sockets.foldl (fun (hub : LiveHub) socket => match socket.2.data with
      | none => hub
      | some data => hub.restore socket.1 data socket.2.stored) .create
    ⟨⟨.create seq options.capacity options.maxAgeMs, replay options floor revoked, hub⟩, []⟩
  seq := seq
  applied := seq
  floor := floor
  chain := []
  appending := .idle
  pruning := []

/-- `applyEvent`, or what is done when it throws: the tags may not be derived. -/
def applyEvent (event : LiveBusEvent) (now : ℤ) (derived : Bool) : HubObject :=
  let core := if derived then o.state.core.applyEvent options.hub event now else none
  { o with
    state := { o.state with core := core.getD (o.state.core.resetTo event.seq) },
    appending := .settling event }

def settle (event : LiveBusEvent) : HubObject :=
  let floor := if o.floor < o.revocations.floor then some o.revocations.floor else none
  { o with
    applied := event.seq,
    floor := floor.getD o.floor,
    appending := .saving event.seq floor }

def pruneEnd (now : ℤ) : ℕ :=
  max o.floor ((now - options.ttl * 1000 - revocationSkewMs) * 1000).toNat

end HubObject

inductive HubPhase
  | asleep
  | starting (seq floor : ℕ) (lost : Bool)
  | opening (object : HubObject) (lost : Bool)
  | awake (object : HubObject)

/-- A socket that the runtime holds, and how many events had been stored when it opened. -/
structure RawSocket where
  ws : ℕ
  opened : ℕ

/-- `log`, `applied` and `handed` are the seqs that were stored, applied and returned; `shown` and
`floors` are the revocations and the floors that were applied. -/
structure HubWorld where
  storage : HubStorage
  phase : HubPhase
  raws : List RawSocket
  clock : ℤ
  log : List ℕ
  applied : List ℕ
  handed : List ℕ
  shown : List Applied
  floors : List ℕ

inductive HubObjectAction
  | wake (now : ℤ)
  | restore (attached : ℕ → Attached)
  | ready
  | append (input : LiveBusInput)
  | begin (now : ℤ)
  | stored
  | apply (now : ℤ) (derived : Bool)
  | settle
  | saved
  | alarm (now : ℤ)
  | delete (n : ℕ)
  | hub (action : HubAction)
  | crash

/-- What sockets and timers do to the hub; a socket that opens is new to the runtime. -/
def HubAction.ofSockets (raws : List RawSocket) : HubAction → Bool
  | .openSocket ws _ _ _ _ => raws.all fun raw => raw.ws ≠ ws
  | .apply _ _ | .restore _ _ _ | .resync _ | .lose => false
  | _ => true

namespace HubWorld
variable (options : HubObjectOptions) (w : HubWorld)

def create : HubWorld := ⟨.create, .asleep, [], 0, [], [], [], [], []⟩

def rawsAfter : HubAction → List RawSocket
  | .openSocket ws _ _ _ _ => w.raws ++ [⟨ws, w.log.length⟩]
  | .close ws => w.raws.filter fun raw => raw.ws ≠ ws
  | _ => w.raws

/-- A read of the clock, which does not go back; its microseconds are a safe integer. -/
def tick (now : ℤ) : Option HubWorld :=
  if w.clock ≤ now ∧ isSafeInteger (now * 1000).toNat then some { w with clock := now } else none

def awake? : Option HubObject :=
  match w.phase with
  | .awake object => some object
  | _ => none

def withObject (object : HubObject) : HubWorld := { w with phase := .awake object }

def wakeUp (now : ℤ) : HubWorld :=
  match w.storage.seq with
  | some seq => { w with
      phase := .starting seq w.storage.floor (decide (w.storage.applied ≠ seq)) }
  | none =>
    let seq := nextSeq 0 now
    { w with
      storage := { w.storage with
        seq := some seq,
        applied := seq,
        floor := seq },
      phase := .starting seq seq false }

/-- An event stored but never applied may never have reached the sockets that watch it. -/
def restore (seq floor : ℕ) (lost : Bool) (attached : ℕ → Attached) : HubWorld :=
  let raws := w.raws.filter fun raw => !lost && (attached raw.ws).survives
  let sockets := raws.map fun raw => (raw.ws, attached raw.ws)
  { w with
    raws := raws,
    phase := .opening (.restore options seq floor w.storage.revoked sockets) lost }

def ready (object : HubObject) (lost : Bool) : HubWorld :=
  { w with
    storage := if lost then w.storage.putApplied object.seq none else w.storage,
    phase := .awake object,
    shown := w.shown ++ (w.storage.revoked.filter fun entry => object.floor ≤ entry.seq).map
      fun entry => ⟨entry.event, entry.seq, entry.atMs⟩,
    floors := w.floors ++ [object.revocations.floor] }

def step : HubObjectAction → Option HubWorld
  | .wake now =>
    match w.phase with
    | .asleep => do
      let w ← w.tick now
      some (w.wakeUp now)
    | _ => none
  | .restore attached =>
    match w.phase with
    | .starting seq floor lost => some (w.restore options seq floor lost attached)
    | _ => none
  | .ready =>
    match w.phase with
    | .opening object lost => some (w.ready object lost)
    | _ => none
  | .append input => do
    let o ← w.awake?
    if input.appendable then some (w.withObject { o with chain := o.chain ++ [input] }) else none
  | .begin now => do
    let o ← w.awake?
    let w ← w.tick now
    match o.appending, o.chain with
    | .idle, input :: chain =>
      let seq := nextSeq o.seq now
      if isSafeInteger seq then
        some (w.withObject { o with
          seq := seq,
          chain := chain,
          appending := .storing ⟨seq, input⟩ now })
      else none
    | _, _ => none
  | .stored => do
    let o ← w.awake?
    match o.appending with
    | .storing event now => some { w with
        storage := w.storage.putEvent event now,
        phase := .awake { o with appending := .applying event now },
        log := w.log ++ [event.seq] }
    | _ => none
  | .apply now derived => do
    let o ← w.awake?
    let w ← w.tick now
    match o.appending with
    | .applying event atMs =>
      let o := o.applyEvent options event now derived
      some { w with
        phase := .awake o,
        applied := w.applied ++ [event.seq],
        shown := w.shown ++ (event.input.revocation?.map fun revocation =>
          ⟨revocation, event.seq, atMs⟩).toList,
        floors := w.floors ++ [o.revocations.floor] }
    | _ => none
  | .settle => do
    let o ← w.awake?
    match o.appending with
    | .settling event => some (w.withObject (o.settle event))
    | _ => none
  | .saved => do
    let o ← w.awake?
    match o.appending with
    | .saving seq floor => some { w with
        storage := w.storage.putApplied seq floor,
        phase := .awake { o with appending := .idle },
        handed := w.handed ++ [seq] }
    | _ => none
  | .alarm now => do
    let o ← w.awake?
    let w ← w.tick now
    some (w.withObject { o with pruning := o.pruning ++ [o.pruneEnd options now] })
  | .delete n => do
    let o ← w.awake?
    let limit ← o.pruning[n]?
    if w.storage.stale limit = [] then
      some (w.withObject { o with pruning := o.pruning.eraseIdx n })
    else some { w with storage := w.storage.deleteStale limit }
  | .hub action => do
    let o ← w.awake?
    if action.ofSockets w.raws then do
      let state ← o.state.step options.hub action
      some { w with
        phase := .awake { o with state := state },
        raws := w.rawsAfter action }
    else none
  | .crash => some { w with phase := .asleep }

end HubWorld

/-! ## What the hub's object keeps

A revocation that was applied is below the floor, stored, or older than the grants that it refuses,
in memory and in storage alike. A wake brings back what was stored.
-/

def StoredRevocation.toApplied (entry : StoredRevocation) : Applied :=
  ⟨entry.event, entry.seq, entry.atMs⟩

/-- The stored revocations are in the order of their seqs and times. -/
structure HubStorage.Ordered (storage : HubStorage) (clock : ℤ) : Prop where
  seqs : storage.revoked.Pairwise fun a b => a.seq < b.seq
  times : storage.revoked.Pairwise fun a b => a.atMs ≤ b.atMs
  seq : ∀ entry ∈ storage.revoked, ∀ top ∈ storage.seq, entry.seq ≤ top
  past : ∀ entry ∈ storage.revoked, entry.atMs ≤ clock ∧ entry.atMs * 1000 ≤ entry.seq

def HubStorage.unsettled (storage : HubStorage) : Option ℕ :=
  if storage.seq = some storage.applied then none else storage.seq

def Outlived (ttl : ℕ) (clock : ℤ) (a : Applied) : Prop :=
  a.now < clock - ttl * 1000 - revocationSkewMs

def Recalled (ttl : ℕ) (storage : HubStorage) (clock : ℤ) (floor : ℕ) (a : Applied) : Prop :=
  a.seq ≤ floor ∨ (∃ entry ∈ storage.revoked, entry.toApplied = a) ∨ Outlived ttl clock a

namespace HubWorld
variable (w : HubWorld)

def Remembers (ttl floor : ℕ) : Prop :=
  (∀ f ∈ w.floors, f ≤ floor) ∧ ∀ a ∈ w.shown, Recalled ttl w.storage w.clock floor a

/-- Every event stored since a socket opened was applied, but for one. -/
def Serves (pending : Option ℕ) : Prop :=
  ∀ raw ∈ w.raws, ∀ seq ∈ w.log.drop raw.opened, seq ∈ w.applied ∨ pending = some seq

/-- Where the seqs of the storage and of the memory stand while an append waits. -/
def Stands (ttl : ℕ) (o : HubObject) : Appending → Prop
  | .idle => w.storage.seq = some w.storage.applied ∧ w.storage.applied ≤ o.seq ∧ w.Serves none
  | .storing event now => w.storage.seq = some w.storage.applied ∧
      w.storage.applied < event.seq ∧ event.seq = o.seq ∧ w.Serves none ∧
        (now ≤ w.clock ∧ now * 1000 ≤ event.seq ∧
          ∀ entry ∈ w.storage.revoked, entry.atMs ≤ now)
  | .applying event now => w.storage.seq = some event.seq ∧ w.storage.applied < event.seq ∧
      event.seq = o.seq ∧ w.Serves (some event.seq) ∧
        (now ≤ w.clock ∧ ∀ revocation ∈ event.input.kept?,
          Recalled ttl w.storage w.clock o.revocations.floor ⟨revocation, event.seq, now⟩)
  | .settling event => w.storage.seq = some event.seq ∧ w.storage.applied < event.seq ∧
      event.seq = o.seq ∧ w.Serves none
  | .saving seq _ => w.storage.seq = some seq ∧ w.storage.applied < seq ∧ seq = o.seq ∧
      w.Serves none

def Recalls (ttl : ℕ) (o : HubObject) : Prop :=
  o.revocations.ttlMs = ttl * 1000 ∧
    ∃ head past raised, o.revocations.Faithful head past raised w.clock ∧
      (∀ b ∈ past, b.seq ≤ o.seq ∧ b.now ≤ w.clock) ∧
        ∀ a ∈ w.shown, a.seq ≤ o.revocations.floor ∨
          (∃ b ∈ past, b.event = a.event ∧ b.seq = a.seq ∧ a.now ≤ b.now) ∨
            Outlived ttl w.clock a

structure Keeps (ttl : ℕ) (o : HubObject) : Prop where
  remembers : w.Remembers ttl o.revocations.floor
  recalls : w.Recalls ttl o
  floor : o.floor ≤ o.revocations.floor
  pruning : ∀ limit ∈ o.pruning,
    limit ≤ max o.floor ((w.clock - ttl * 1000 - revocationSkewMs) * 1000).toNat
  stands : w.Stands ttl o o.appending

def PhaseSound (options : HubObjectOptions) : HubPhase → Prop
  | .asleep => w.Remembers options.ttl w.storage.floor ∧ w.Serves w.storage.unsettled
  | .starting seq floor lost => w.storage.seq = some seq ∧ floor = w.storage.floor ∧
      lost = decide (w.storage.applied ≠ seq) ∧
        w.Remembers options.ttl w.storage.floor ∧ w.Serves w.storage.unsettled
  | .opening o lost => w.storage.seq = some o.seq ∧ (lost = true ∨ w.storage.applied = o.seq) ∧
      (o.floor = w.storage.floor ∧ o.revocations = replay options o.floor w.storage.revoked ∧
        o.pruning = [] ∧ o.appending = .idle) ∧
        w.Remembers options.ttl w.storage.floor ∧ w.Serves none
  | .awake o => w.Keeps options.ttl o

structure Sound (options : HubObjectOptions) : Prop where
  ordered : w.storage.Ordered w.clock
  handed : w.handed.Pairwise (· < ·)
  returned : ∀ seq ∈ w.handed, seq ≤ w.storage.applied
  applied : ∀ top ∈ w.storage.seq, w.storage.applied ≤ top
  empty : w.storage.seq = none →
    w.storage.revoked = [] ∧ w.handed = [] ∧ w.shown = [] ∧ w.floors = [] ∧ w.log = []
  phase : w.PhaseSound options w.phase

end HubWorld

section Floors

variable {r : Revocations} {history : List Applied}

theorem floor_le_applyAll : r.floor ≤ (r.applyAll history).floor := by
  induction history generalizing r with
  | nil => exact le_rfl
  | cons a history ih => exact Revocations.le_apply_floor.trans ih

theorem replay_eq_applyAll (options : HubObjectOptions) (floor : ℕ)
    (revoked : List StoredRevocation) : replay options floor revoked =
      (create floor (options.ttl * 1000) options.limit).applyAll
        ((revoked.filter fun entry => floor ≤ entry.seq).map StoredRevocation.toApplied) := by
  rw [Revocations.applyAll, List.foldl_map]
  rfl

end Floors

section Clock

variable {options : HubObjectOptions} {ttl floor : ℕ} {storage : HubStorage} {clock now : ℤ}
  {a : Applied} {w : HubWorld} {o : HubObject}

theorem Outlived.tick (h : Outlived ttl clock a) (hle : clock ≤ now) : Outlived ttl now a := by
  unfold Outlived at *
  omega

theorem Recalled.tick (h : Recalled ttl storage clock floor a) (hle : clock ≤ now) :
    Recalled ttl storage now floor a := h.imp_right (Or.imp_right fun hold => hold.tick hle)

theorem Recalled.mono {higher : ℕ} (h : Recalled ttl storage clock floor a)
    (hle : floor ≤ higher) : Recalled ttl storage clock higher a :=
  h.imp_left fun hfloor => hfloor.trans hle

namespace HubWorld

theorem Remembers.tick (h : w.Remembers ttl floor) (hle : w.clock ≤ now) :
    Remembers { w with clock := now } ttl floor :=
  ⟨h.1, fun a ha => (h.2 a ha).tick hle⟩

theorem Remembers.mono {higher : ℕ} (h : w.Remembers ttl floor) (hle : floor ≤ higher) :
    w.Remembers ttl higher :=
  ⟨fun f hf => (h.1 f hf).trans hle, fun a ha => (h.2 a ha).mono hle⟩

theorem Recalls.tick (h : w.Recalls ttl o) (hle : w.clock ≤ now) :
    Recalls { w with clock := now } ttl o := by
  obtain ⟨httl, head, past, raised, hfaithful, hpast, hshown⟩ := h
  refine ⟨httl, head, past, raised, hfaithful.tick hle, ?_, ?_⟩
  · exact fun b hb => ⟨(hpast b hb).1, (hpast b hb).2.trans hle⟩
  · exact fun a ha => (hshown a ha).imp_right (Or.imp_right fun hold => hold.tick hle)

theorem Stands.tick {appending : Appending} (h : w.Stands ttl o appending)
    (hle : w.clock ≤ now) : Stands { w with clock := now } ttl o appending := by
  cases appending with
  | storing event atMs =>
    obtain ⟨hseq, happlied, hevent, hserves, hclock, hrest⟩ := h
    exact ⟨hseq, happlied, hevent, hserves, hclock.trans hle, hrest⟩
  | applying event atMs =>
    obtain ⟨hseq, happlied, hevent, hserves, hclock, hkept⟩ := h
    exact ⟨hseq, happlied, hevent, hserves, hclock.trans hle,
      fun revocation hmem => (hkept revocation hmem).tick hle⟩
  | idle => exact h
  | settling event => exact h
  | saving seq floor => exact h

theorem Keeps.tick (h : w.Keeps ttl o) (hle : w.clock ≤ now) :
    Keeps { w with clock := now } ttl o where
  remembers := h.remembers.tick hle
  recalls := h.recalls.tick hle
  floor := h.floor
  pruning := by
    intro limit hlimit
    refine (h.pruning limit hlimit).trans (max_le_max le_rfl (Int.toNat_le_toNat ?_))
    change (w.clock - ttl * 1000 - revocationSkewMs) * 1000 ≤
      (now - ttl * 1000 - revocationSkewMs) * 1000
    omega
  stands := h.stands.tick hle

theorem Sound.tick (h : w.Sound options) (hle : w.clock ≤ now) :
    Sound { w with clock := now } options where
  ordered := ⟨h.ordered.seqs, h.ordered.times, h.ordered.seq,
    fun entry hentry => ⟨(h.ordered.past entry hentry).1.trans hle,
      (h.ordered.past entry hentry).2⟩⟩
  handed := h.handed
  returned := h.returned
  applied := h.applied
  empty := h.empty
  phase := by
    have hphase := h.phase
    change PhaseSound _ options w.phase
    cases hw : w.phase with
    | asleep =>
      rw [hw] at hphase
      exact ⟨hphase.1.tick hle, hphase.2⟩
    | starting seq floor lost =>
      rw [hw] at hphase
      obtain ⟨hseq, hfloor, hlost, hremembers, hserves⟩ := hphase
      exact ⟨hseq, hfloor, hlost, hremembers.tick hle, hserves⟩
    | opening object lost =>
      rw [hw] at hphase
      obtain ⟨hseq, hlost, hobject, hremembers, hserves⟩ := hphase
      exact ⟨hseq, hlost, hobject, hremembers.tick hle, hserves⟩
    | awake object =>
      rw [hw] at hphase
      exact { Keeps.tick hphase hle with }

theorem of_tick {next : HubWorld} (h : w.tick now = some next) :
    w.clock ≤ now ∧ next = { w with clock := now } := by
  unfold HubWorld.tick at h
  split at h
  · next hle => exact ⟨hle.1, (Option.some.inj h).symm⟩
  · cases h

theorem of_awake (h : w.awake? = some o) : w.phase = .awake o := by
  unfold HubWorld.awake? at h
  split at h
  · next hphase => rw [hphase, Option.some.inj h]
  · cases h

end HubWorld

end Clock

section Wake

variable {options : HubObjectOptions} {w : HubWorld} {o : HubObject} {now : ℤ}

theorem HubStorage.unsettled_of_applied {storage : HubStorage}
    (h : storage.seq = some storage.applied) : storage.unsettled = none := if_pos h

namespace HubWorld

theorem Sound.wakeUp (h : w.Sound options) (hphase : w.phase = .asleep) :
    (w.wakeUp now).Sound options := by
  have hasleep := h.phase
  rw [hphase] at hasleep
  obtain ⟨hremembers, hserves⟩ := hasleep
  unfold HubWorld.wakeUp
  split
  · next seq hseq => exact { h with phase := ⟨hseq, rfl, rfl, hremembers, hserves⟩ }
  · next hseq =>
    obtain ⟨hrevoked, hhanded, hshown, hfloors, hlog⟩ := h.empty hseq
    dsimp only
    constructor
    · constructor
      · rw [hrevoked]
        exact .nil
      · rw [hrevoked]
        exact .nil
      · intro entry hentry
        rw [hrevoked] at hentry
        cases hentry
      · exact h.ordered.past
    · exact h.handed
    · intro seq hmem
      rw [hhanded] at hmem
      cases hmem
    · intro top htop
      exact (Option.some.inj htop).le
    · exact nofun
    · refine ⟨rfl, rfl, (decide_eq_false (not_not.mpr rfl)).symm, ⟨?_, ?_⟩, ?_⟩
      · intro f hf
        rw [hfloors] at hf
        cases hf
      · intro a ha
        rw [hshown] at ha
        cases ha
      · intro raw _ seq hmem
        rw [hlog, List.drop_nil] at hmem
        cases hmem

theorem Sound.restore {seq floor : ℕ} {lost : Bool} {attached : ℕ → Attached}
    (h : w.Sound options) (hphase : w.phase = .starting seq floor lost) :
    (w.restore options seq floor lost attached).Sound options := by
  have hstarting := h.phase
  rw [hphase] at hstarting
  obtain ⟨hseq, rfl, rfl, hremembers, hserves⟩ := hstarting
  refine { h with phase := ⟨hseq, ?_, ⟨rfl, rfl, rfl, rfl⟩, hremembers, ?_⟩ }
  · by_cases happlied : w.storage.applied = seq
    · exact Or.inr happlied
    · exact Or.inl (decide_eq_true happlied)
  · -- a wake that finds an event unsettled keeps no socket
    intro raw hraw logged hmem
    obtain ⟨hraw, hkept⟩ := List.mem_filter.mp hraw
    have happlied : w.storage.applied = seq := by
      by_contra hne
      simp [hne] at hkept
    have hsettled := HubStorage.unsettled_of_applied (hseq.trans (congrArg some happlied.symm))
    rw [hsettled] at hserves
    exact hserves raw hraw logged hmem

theorem recalls_replay {seq : ℕ} (h : w.storage.Ordered w.clock) (hseq : w.storage.seq = some seq)
    (floor : ℕ) : ∃ past raised,
      (replay options floor w.storage.revoked).Faithful floor past raised w.clock ∧
        (∀ b ∈ past, b.seq ≤ seq ∧ b.now ≤ w.clock) ∧
          ∀ entry ∈ w.storage.revoked, floor ≤ entry.seq → entry.toApplied ∈ past := by
  have hpast : ∀ b ∈ (w.storage.revoked.filter fun entry => floor ≤ entry.seq).map
      StoredRevocation.toApplied, b.seq ≤ seq ∧ b.now ≤ w.clock := by
    intro b hb
    obtain ⟨entry, hentry, rfl⟩ := List.mem_map.mp hb
    have hmem := List.mem_of_mem_filter hentry
    exact ⟨h.seq entry hmem seq hseq, (h.past entry hmem).1⟩
  rw [replay_eq_applyAll]
  refine ⟨_, _, faithful_run (List.pairwise_map.mpr (h.seqs.filter _))
    (List.pairwise_map.mpr (h.times.filter _)) fun b hb => (hpast b hb).2, hpast, ?_⟩
  intro entry hentry hle
  exact List.mem_map_of_mem (List.mem_filter.mpr ⟨hentry, decide_eq_true hle⟩)

theorem Sound.ready {lost : Bool} (h : w.Sound options) (hphase : w.phase = .opening o lost) :
    (w.ready o lost).Sound options := by
  have hopening := h.phase
  rw [hphase] at hopening
  obtain ⟨hseq, hlost, ⟨hfloor, hreplay, hpruning, hidle⟩, hremembers, hserves⟩ := hopening
  have happlied := h.applied o.seq hseq
  have hrises : o.floor ≤ o.revocations.floor := by
    rw [hreplay, replay_eq_applyAll]
    exact floor_le_applyAll (r := .create o.floor (options.ttl * 1000) options.limit)
  have hmem {a : Applied} (ha : a ∈ (w.ready o lost).shown) : a ∈ w.shown ∨
      ∃ entry ∈ w.storage.revoked, o.floor ≤ entry.seq ∧ entry.toApplied = a := by
    rcases List.mem_append.mp ha with ha | ha
    · exact Or.inl ha
    · obtain ⟨entry, hentry, rfl⟩ := List.mem_map.mp ha
      obtain ⟨hentry, hle⟩ := List.mem_filter.mp hentry
      exact Or.inr ⟨entry, hentry, of_decide_eq_true hle, rfl⟩
  have hstorage : (w.ready o lost).storage.seq = some o.seq ∧
      (w.ready o lost).storage.revoked = w.storage.revoked ∧
        (w.ready o lost).storage.applied = o.seq := by
    cases lost with
    | true => exact ⟨hseq, rfl, rfl⟩
    | false => exact ⟨hseq, rfl, hlost.resolve_left Bool.false_ne_true⟩
  obtain ⟨hseq', hrevoked', happlied'⟩ := hstorage
  have hremembers' : (w.ready o lost).Remembers options.ttl o.revocations.floor := by
    constructor
    · intro f hf
      rcases List.mem_append.mp hf with hf | hf
      · exact (hremembers.1 f hf).trans (hfloor.ge.trans hrises)
      · exact (List.mem_singleton.mp hf).le
    · intro a ha
      rw [Recalled, hrevoked']
      rcases hmem ha with ha | ⟨entry, hentry, -, rfl⟩
      · exact (hremembers.2 a ha).mono (hfloor.ge.trans hrises)
      · exact Or.inr (Or.inl ⟨entry, hentry, rfl⟩)
  have hrecalls : (w.ready o lost).Recalls options.ttl o := by
    obtain ⟨past, raised, hfaithful, hpast, hall⟩ := recalls_replay h.ordered hseq o.floor
    rw [← hreplay] at hfaithful
    refine ⟨?_, _, past, raised, hfaithful, hpast, ?_⟩
    · rw [hreplay, replay_eq_applyAll]
      exact applyAll_ttlMs
    · intro a ha
      have hheld (entry : StoredRevocation) (hentry : entry ∈ w.storage.revoked) :
          entry.seq ≤ o.revocations.floor ∨ entry.toApplied ∈ past := by
        rcases le_total o.floor entry.seq with hle | hle
        · exact Or.inr (hall entry hentry hle)
        · exact Or.inl (hle.trans hrises)
      have hrecalled : Recalled options.ttl w.storage w.clock o.revocations.floor a := by
        rcases hmem ha with ha | ⟨entry, hentry, -, rfl⟩
        · exact (hremembers.2 a ha).mono (hfloor.ge.trans hrises)
        · exact Or.inr (Or.inl ⟨entry, hentry, rfl⟩)
      rcases hrecalled with hle | ⟨entry, hentry, rfl⟩ | hold
      · exact Or.inl hle
      · exact (hheld entry hentry).imp_right fun hpast =>
          Or.inl ⟨_, hpast, rfl, rfl, le_rfl⟩
      · exact Or.inr (Or.inr hold)
  constructor
  · exact ⟨hrevoked' ▸ h.ordered.seqs, hrevoked' ▸ h.ordered.times, fun entry hentry top htop =>
      h.ordered.seq entry (hrevoked' ▸ hentry) top (by rw [hseq]; rwa [hseq'] at htop),
      fun entry hentry => h.ordered.past entry (hrevoked' ▸ hentry)⟩
  · exact h.handed
  · intro seq hmem
    rw [happlied']
    exact (h.returned seq hmem).trans happlied
  · intro top htop
    rw [hseq'] at htop
    rw [happlied', Option.some.inj htop]
  · intro hnone
    rw [hseq'] at hnone
    cases hnone
  · refine ⟨hremembers', hrecalls, hrises, ?_, ?_⟩
    · intro limit hlimit
      rw [hpruning] at hlimit
      cases hlimit
    · rw [hidle]
      exact ⟨by rw [hseq', happlied'], happlied'.le, hserves⟩

end HubWorld

end Wake

end Nifra.Live
