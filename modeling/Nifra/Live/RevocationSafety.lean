import Mathlib.Algebra.Order.Ring.Int
import Nifra.Lib.InsertionMap
import Nifra.Text.JSONValue
import Nifra.Text.JSString

/-! # Grants

What a grant says: its owners with the keys their loaders declared, the seq read at its issuance, and
how long it is valid.
-/

namespace Nifra.Live

def maxKeysPerFrame : ℕ := 64

def isLetter (c : ℕ) : Bool := decide (65 ≤ c ∧ c ≤ 90 ∨ 97 ≤ c ∧ c ≤ 122)

def isKeyUnit (c : ℕ) : Bool :=
  isLetter c || decide (48 ≤ c ∧ c ≤ 57) || (js "._:/-").contains c

/-- `KEY_PATTERN` -/
def isKey : JSString → Bool
  | [] => false
  | c :: rest => isLetter c && rest.all isKeyUnit && decide (rest.length ≤ 127)

@[ext] structure LiveKey where
  text : JSString
  valid : isKey text
  deriving DecidableEq, Repr

structure GrantOwner where
  k : List LiveKey
  w : ℕ
  deriving DecidableEq, Repr

/-- Of a grant that is authentic: version and audience are those of the app. -/
structure GrantClaims where
  sid : JSString
  sub : Option JSString
  path : JSString
  frame : JSString
  owners : InsertionMap JSString GrantOwner
  s : ℕ
  r : ℕ
  iat : ℤ
  exp : ℤ

def iatSkewSeconds : ℤ := 60

/-- The checks of `validClaims` on times; `now` is in milliseconds. -/
def GrantClaims.validAt (claims : GrantClaims) (ttl : ℤ) (now : ℤ) : Bool :=
  decide (claims.iat ≤ now / 1000 + iatSkewSeconds ∧ claims.exp - claims.iat = ttl ∧
    now / 1000 < claims.exp)

theorem LiveKey.ne_zero {key : LiveKey} {c : ℕ} (hc : c ∈ key.text) : c ≠ 0 := by
  rintro rfl
  obtain ⟨text, hvalid⟩ := key
  cases text with
  | nil => cases hc
  | cons c rest =>
    rw [isKey, Bool.and_eq_true, Bool.and_eq_true] at hvalid
    obtain ⟨⟨hc', hrest⟩, -⟩ := hvalid
    rcases List.mem_cons.mp hc with rfl | hc
    · cases hc'
    · exact Bool.noConfusion (List.all_eq_true.mp hrest 0 hc)

/-! ## Stored revocations

`Revocations` keeps the revocations of one grant lifetime, by subject, by key and by both, above a
floor. `RevocationView` answers from a snapshot of it, also when the snapshot came as JSON.
-/

open JSON (Value)

def revocationSkewMs : ℤ := 120000

structure Stamp where
  seq : ℕ
  atMs : ℤ
  deriving DecidableEq, Repr

/-- `sub` and `key` are null for everyone and for every key. -/
structure LiveRevocation where
  sub : Option JSString
  key : Option LiveKey
  deriving DecidableEq, Repr

structure Revocations where
  floor : ℕ
  subjects : InsertionMap JSString Stamp
  keys : InsertionMap JSString Stamp
  subjectKeys : InsertionMap JSString Stamp
  ttlMs : ℤ
  limit : ℕ

def pairName (key : LiveKey) (sub : JSString) : JSString := key.text ++ 0 :: sub

def renew (map : InsertionMap JSString Stamp) (name : JSString) (stamp : Stamp) :
    InsertionMap JSString Stamp :=
  (map.delete name).set name stamp

def pruneMap (horizon : ℤ) (map : InsertionMap JSString Stamp) : InsertionMap JSString Stamp :=
  ⟨map.entries.dropWhile fun entry => entry.2.atMs < horizon,
    map.nodup.sublist ((List.dropWhile_sublist _).map _)⟩

def above (stamp : Option Stamp) (s : ℕ) : Bool := stamp.any fun stamp => s < stamp.seq

namespace Revocations

def create (head : ℕ) (ttlMs : ℤ) (limit : ℕ) : Revocations := ⟨head, ∅, ∅, ∅, ttlMs, limit⟩

variable (r : Revocations)

/-- Refuse every grant issued below `seq`; the stored entries are all older, so they go. -/
def raise (seq : ℕ) : Revocations :=
  { r with
    floor := if r.floor < seq then seq else r.floor,
    subjects := ∅,
    keys := ∅,
    subjectKeys := ∅ }

def prune (now : ℤ) : Revocations :=
  let horizon := now - r.ttlMs - revocationSkewMs
  { r with
    subjects := pruneMap horizon r.subjects,
    keys := pruneMap horizon r.keys,
    subjectKeys := pruneMap horizon r.subjectKeys }

def store (event : LiveRevocation) (stamp : Stamp) : Revocations :=
  match event.key, event.sub with
  | none, none => r.raise stamp.seq
  | none, some sub => { r with subjects := renew r.subjects sub stamp }
  | some key, none => { r with keys := renew r.keys key.text stamp }
  | some key, some sub => { r with subjectKeys := renew r.subjectKeys (pairName key sub) stamp }

def overflows : Bool :=
  decide (r.limit < r.subjects.size + r.keys.size + r.subjectKeys.size)

def apply (event : LiveRevocation) (seq : ℕ) (now : ℤ) : Revocations :=
  let r := (r.prune now).store event ⟨seq, now⟩
  if r.overflows then r.raise seq else r

def grantRevoked (claims : GrantClaims) : Bool :=
  decide (claims.s < r.floor) || claims.sub.any fun sub => above (r.subjects.get sub) claims.s

def keyRevoked (key : LiveKey) (claims : GrantClaims) : Bool :=
  above (r.keys.get key.text) claims.s ||
    claims.sub.any fun sub => above (r.subjectKeys.get (pairName key sub)) claims.s

end Revocations

structure RevocationSnapshot where
  floor : ℕ
  subjects : InsertionMap JSString ℕ
  keys : InsertionMap JSString ℕ
  subjectKeys : InsertionMap JSString ℕ

/-- `Object.fromEntries`: every entry is an own property, whatever its name. -/
def fromEntries (entries : List (JSString × ℕ)) : InsertionMap JSString ℕ :=
  entries.foldl (fun record entry => record.set entry.1 entry.2) ∅

def pick (map : InsertionMap JSString Stamp) (names : List JSString) : InsertionMap JSString ℕ :=
  fromEntries (names.filterMap fun name => (map.get name).map fun stamp => (name, stamp.seq))

def Revocations.snapshot (r : Revocations) (subjects : List JSString) (keys : List LiveKey) :
    RevocationSnapshot where
  floor := r.floor
  subjects := pick r.subjects subjects
  keys := pick r.keys (keys.map LiveKey.text)
  subjectKeys := pick r.subjectKeys (keys.flatMap fun key => subjects.map (pairName key))

def stampAbove (stamps : InsertionMap JSString ℕ) (name : JSString) (s : ℕ) : Bool :=
  (stamps.get name).any fun seq => s < seq

namespace RevocationSnapshot

/-- `RevocationView` over the snapshot. -/
def grantRevoked (snapshot : RevocationSnapshot) (claims : GrantClaims) : Bool :=
  decide (claims.s < snapshot.floor) ||
    claims.sub.any fun sub => stampAbove snapshot.subjects sub claims.s

def keyRevoked (snapshot : RevocationSnapshot) (key : LiveKey) (claims : GrantClaims) : Bool :=
  stampAbove snapshot.keys key.text claims.s ||
    claims.sub.any fun sub => stampAbove snapshot.subjectKeys (pairName key sub) claims.s

end RevocationSnapshot

structure AuthorityReply where
  seq : ℕ
  snapshot : RevocationSnapshot

def recordValue (record : InsertionMap JSString ℕ) : Value :=
  .object (record.entries.map fun entry => (entry.1, .number (decimal entry.2)))

def AuthorityReply.toValue (reply : AuthorityReply) : Value :=
  .object [(js "seq", .number (decimal reply.seq)),
    (js "floor", .number (decimal reply.snapshot.floor)),
    (js "subjects", recordValue reply.snapshot.subjects),
    (js "keys", recordValue reply.snapshot.keys),
    (js "subjectKeys", recordValue reply.snapshot.subjectKeys)]

def naturalOf (numeral : JSON.Numeral) : Option ℕ :=
  let mantissa := JSON.natOfDigits (numeral.integer ++ numeral.fraction)
  let exponent := numeral.exponent - numeral.fraction.length
  if mantissa = 0 then some 0
  else if numeral.negative then none
  else if 0 ≤ exponent then some (mantissa * 10 ^ exponent.toNat)
  else if 10 ^ (-exponent).toNat ∣ mantissa then some (mantissa / 10 ^ (-exponent).toNat)
  else none

def seqLike : Value → Option ℕ
  | .number text => do
    let (numeral, _) ← JSON.readNumeral text
    let seq ← naturalOf numeral
    if isSafeInteger seq then some seq else none
  | _ => none

def property (value : Value) (name : JSString) : Option Value :=
  match value with
  | .object fields => (fields.find? fun field => field.1 = name).map Prod.snd
  | _ => none

def stampsOf : Value → Option (InsertionMap JSString ℕ)
  | .object fields =>
    (fields.mapM fun field => (seqLike field.2).map fun seq => (field.1, seq)).map fromEntries
  | _ => none

def parseAuthorityReply (value : Value) : Option AuthorityReply := do
  let seq ← (property value (js "seq")).bind seqLike
  let floor ← (property value (js "floor")).bind seqLike
  let subjects ← (property value (js "subjects")).bind stampsOf
  let keys ← (property value (js "keys")).bind stampsOf
  let subjectKeys ← (property value (js "subjectKeys")).bind stampsOf
  some ⟨seq, floor, subjects, keys, subjectKeys⟩

/-! ## Revocations outlive grants

Every applied revocation is below the floor, stored, or older than any grant that it refuses. A
snapshot answers as the revocations do, also after it has travelled as JSON.
-/

variable {map : InsertionMap JSString Stamp} {name name' : JSString} {stamp stamp' : Stamp}
  {horizon : ℤ}

theorem get_renew : (renew map name stamp).get name' =
    if name' = name then some stamp else map.get name' := by
  rw [renew, InsertionMap.get_set, InsertionMap.get_delete]
  split_ifs <;> rfl

theorem get_of_pruneMap (h : (pruneMap horizon map).get name = some stamp) :
    map.get name = some stamp := by
  rw [InsertionMap.get_eq_some_iff] at h ⊢
  exact (List.dropWhile_sublist _).subset h

theorem get_pruneMap (h : map.get name = some stamp) :
    (pruneMap horizon map).get name = some stamp ∨ stamp.atMs < horizon := by
  rw [InsertionMap.get_eq_some_iff] at h ⊢
  rw [← List.takeWhile_append_dropWhile (p := fun entry => entry.2.atMs < horizon)
    (l := map.entries), List.mem_append] at h
  rcases h with h | h
  · have hstale := List.mem_takeWhile_imp h
    exact Or.inr (by simpa using hstale)
  · exact Or.inl h

theorem pairName_inj {key key' : LiveKey} {sub sub' : JSString} :
    pairName key sub = pairName key' sub' ↔ sub = sub' ∧ key = key' := by
  refine ⟨fun h => ?_, by rintro ⟨rfl, rfl⟩; rfl⟩
  have hfront := congrArg (List.takeWhile (· != 0)) h
  rw [pairName, pairName, Double.takeWhile_append_cons fun hmem => LiveKey.ne_zero hmem rfl,
    Double.takeWhile_append_cons fun hmem => LiveKey.ne_zero hmem rfl] at hfront
  rw [pairName, pairName, hfront, List.append_cancel_left_eq, List.cons.injEq] at h
  exact ⟨h.2, LiveKey.ext hfront⟩

namespace Revocations
variable {r : Revocations} {event event' : LiveRevocation}

def entry (r : Revocations) (event : LiveRevocation) : Option Stamp :=
  match event.key, event.sub with
  | none, none => none
  | none, some sub => r.subjects.get sub
  | some key, none => r.keys.get key.text
  | some key, some sub => r.subjectKeys.get (pairName key sub)

def Whole (event : LiveRevocation) : Prop := event.key = none ∧ event.sub = none

theorem entry_of_prune {now : ℤ} (h : (r.prune now).entry event = some stamp) :
    r.entry event = some stamp := by
  unfold entry at h ⊢
  split at h
  · exact h
  · exact get_of_pruneMap h
  · exact get_of_pruneMap h
  · exact get_of_pruneMap h

theorem entry_prune {now : ℤ} (h : r.entry event = some stamp) :
    (r.prune now).entry event = some stamp ∨ stamp.atMs < now - r.ttlMs - revocationSkewMs := by
  unfold entry at h ⊢
  split at h
  · cases h
  · exact get_pruneMap h
  · exact get_pruneMap h
  · exact get_pruneMap h

theorem entry_raise {seq : ℕ} : (r.raise seq).entry event = none := by
  unfold entry
  split
  all_goals rfl

theorem entry_store (h : ¬ Whole event) : (r.store event stamp).entry event' =
    if event' = event then some stamp else r.entry event' := by
  obtain ⟨sub, key⟩ := event
  obtain ⟨sub', key'⟩ := event'
  unfold entry store
  rcases key with _ | key <;> rcases sub with _ | sub
  · exact absurd ⟨rfl, rfl⟩ h
  all_goals
    rcases key' with _ | key' <;> rcases sub' with _ | sub'
  all_goals simp [get_renew, pairName_inj, LiveKey.ext_iff]

theorem store_whole (h : Whole event) : r.store event stamp = r.raise stamp.seq := by
  obtain ⟨sub, key⟩ := event
  obtain ⟨rfl, rfl⟩ := h
  rfl

theorem store_floor (r : Revocations) (stamp : Stamp) (h : ¬ Whole event) :
    (r.store event stamp).floor = r.floor ∧ (r.store event stamp).ttlMs = r.ttlMs := by
  obtain ⟨sub, key⟩ := event
  rcases key with _ | key <;> rcases sub with _ | sub
  · exact absurd ⟨rfl, rfl⟩ h
  all_goals exact ⟨rfl, rfl⟩

theorem le_raise_floor {seq : ℕ} : seq ≤ (r.raise seq).floor ∧ r.floor ≤ (r.raise seq).floor := by
  simp only [raise]
  split_ifs <;> omega

structure Applied where
  event : LiveRevocation
  seq : ℕ
  now : ℤ
  deriving DecidableEq, Repr

def Held (r : Revocations) (a : Applied) : Prop :=
  ∃ stamp, r.entry a.event = some stamp ∧ a.seq ≤ stamp.seq ∧ a.now ≤ stamp.atMs

/-- Every revocation is refused by the floor, is held, or is older than the grants it refuses; what
is refused was revoked, or gave way to the floor. -/
structure Faithful (head : ℕ) (past : List Applied) (raised : List ℕ) (clock : ℤ)
    (r : Revocations) : Prop where
  kept : ∀ a ∈ past, a.seq ≤ r.floor ∨ r.Held a ∨ a.now < clock - r.ttlMs - revocationSkewMs
  genuine : ∀ event stamp, r.entry event = some stamp → ⟨event, stamp.seq, stamp.atMs⟩ ∈ past
  floor : r.floor = head ∨ r.floor ∈ raised ∨ ∃ a ∈ past, Whole a.event ∧ a.seq = r.floor

variable {head seq : ℕ} {past : List Applied} {raised : List ℕ} {clock now : ℤ}

theorem Faithful.create (limit : ℕ) (ttlMs : ℤ) :
    Faithful head [] [] clock (create head ttlMs limit) := by
  constructor
  · exact nofun
  · intro event stamp h
    unfold entry at h
    split at h
    all_goals cases h
  · exact Or.inl rfl

theorem Faithful.tick (h : r.Faithful head past raised clock) (hclock : clock ≤ now) :
    r.Faithful head past raised now := by
  refine ⟨fun a ha => ?_, h.genuine, h.floor⟩
  rcases h.kept a ha with hfloor | hheld | hold
  · exact Or.inl hfloor
  · exact Or.inr (Or.inl hheld)
  · exact Or.inr (Or.inr (by omega))

theorem Faithful.prune (h : r.Faithful head past raised now) :
    (r.prune now).Faithful head past raised now := by
  refine ⟨fun a ha => ?_, fun event stamp hstamp => h.genuine _ _ (entry_of_prune hstamp),
    h.floor⟩
  rcases h.kept a ha with hfloor | ⟨stamp, hentry, hseq, hat⟩ | hold
  · exact Or.inl hfloor
  · rcases entry_prune hentry with hentry | hstale
    · exact Or.inr (Or.inl ⟨stamp, hentry, hseq, hat⟩)
    · exact Or.inr (Or.inr (by
        change a.now < now - r.ttlMs - revocationSkewMs
        omega))
  · exact Or.inr (Or.inr hold)

theorem Faithful.raise (h : r.Faithful head past raised clock) (hseq : ∀ a ∈ past, a.seq ≤ seq) :
    (r.raise seq).Faithful head past (raised ++ [seq]) clock := by
  refine ⟨fun a ha => Or.inl ?_, fun event stamp hstamp => ?_, ?_⟩
  · exact (hseq a ha).trans le_raise_floor.1
  · rw [entry_raise] at hstamp
    cases hstamp
  · simp only [Revocations.raise]
    split_ifs
    · exact Or.inr (Or.inl (by simp))
    · exact h.floor.imp_right fun hraised => hraised.imp_left (List.mem_append_left _)

theorem Faithful.store (h : r.Faithful head past raised now) (event : LiveRevocation)
    (hseq : ∀ a ∈ past, a.seq ≤ seq)
    (hnow : ∀ a ∈ past, a.now ≤ now) :
    (r.store event ⟨seq, now⟩).Faithful head (past ++ [⟨event, seq, now⟩]) raised now := by
  have hlast (a : Applied) (ha : a ∈ past ++ [⟨event, seq, now⟩]) :
      a.seq ≤ seq ∧ a.now ≤ now := by
    rcases List.mem_append.mp ha with ha | ha
    · exact ⟨hseq a ha, hnow a ha⟩
    · rw [List.mem_singleton.mp ha]
      exact ⟨le_rfl, le_rfl⟩
  have hnew : ⟨event, seq, now⟩ ∈ past ++ [⟨event, seq, now⟩] := by simp
  by_cases hwhole : Whole event
  · rw [store_whole hwhole]
    refine ⟨fun a ha => Or.inl ?_, fun event stamp hstamp => ?_, ?_⟩
    · exact (hlast a ha).1.trans le_raise_floor.1
    · rw [entry_raise] at hstamp
      cases hstamp
    · simp only [Revocations.raise]
      split_ifs
      · exact Or.inr (Or.inr ⟨_, hnew, hwhole, rfl⟩)
      · refine h.floor.imp_right (Or.imp_right ?_)
        rintro ⟨a, ha, hall⟩
        exact ⟨a, List.mem_append_left _ ha, hall⟩
  · obtain ⟨hfloor, httl⟩ := store_floor r ⟨seq, now⟩ hwhole
    refine ⟨fun a ha => ?_, fun event' stamp hstamp => ?_, ?_⟩
    · rw [hfloor, httl]
      by_cases hevent : a.event = event
      · have hheld : (r.store event ⟨seq, now⟩).Held a := by
          refine ⟨⟨seq, now⟩, ?_, (hlast a ha).1, (hlast a ha).2⟩
          rw [entry_store hwhole, if_pos hevent]
        exact Or.inr (Or.inl hheld)
      · have hpast : a ∈ past := by
          rcases List.mem_append.mp ha with ha | ha
          · exact ha
          · exact absurd (by rw [List.mem_singleton.mp ha]) hevent
        refine (h.kept a hpast).imp_right (Or.imp_left ?_)
        rintro ⟨stamp, hentry, hle⟩
        exact ⟨stamp, by rw [entry_store hwhole, if_neg hevent, hentry], hle⟩
    · rw [entry_store hwhole] at hstamp
      split_ifs at hstamp with hevent
      · obtain rfl := Option.some.inj hstamp
        rw [hevent]
        exact hnew
      · exact List.mem_append_left _ (h.genuine _ _ hstamp)
    · rw [hfloor]
      refine h.floor.imp_right (Or.imp_right ?_)
      rintro ⟨a, ha, hall⟩
      exact ⟨a, List.mem_append_left _ ha, hall⟩

def raisedBy (r : Revocations) (a : Applied) : List ℕ :=
  if ((r.prune a.now).store a.event ⟨a.seq, a.now⟩).overflows then [a.seq] else []

theorem Faithful.apply (h : r.Faithful head past raised clock) {a : Applied}
    (hseq : ∀ b ∈ past, b.seq ≤ a.seq) (hnow : ∀ b ∈ past, b.now ≤ a.now)
    (hclock : clock ≤ a.now) :
    (r.apply a.event a.seq a.now).Faithful head (past ++ [a]) (raised ++ r.raisedBy a) a.now := by
  have hstored := (h.tick hclock).prune.store a.event hseq hnow
  unfold Revocations.apply raisedBy
  simp only
  split_ifs
  · refine hstored.raise fun b hb => ?_
    rcases List.mem_append.mp hb with hb | hb
    · exact hseq b hb
    · rw [List.mem_singleton.mp hb]
  · rw [List.append_nil]
    exact hstored

def Concerns (event : LiveRevocation) (claims : GrantClaims) : Prop :=
  event.sub = none ∨ event.sub = claims.sub

/-- The grant was issued before the revocation, by a clock that is not too far ahead. -/
def InTime (claims : GrantClaims) (a : Applied) : Prop :=
  claims.s < a.seq → claims.iat * 1000 ≤ a.now + revocationSkewMs

/-- Not expired, with a lifetime of at most `ttl` seconds. -/
def Unexpired (claims : GrantClaims) (ttl now : ℤ) : Prop :=
  claims.exp - claims.iat ≤ ttl ∧ now / 1000 < claims.exp

theorem Unexpired.of_validAt {claims : GrantClaims} {ttl now : ℤ} (h : claims.validAt ttl now) :
    Unexpired claims ttl now := by
  simp only [GrantClaims.validAt, decide_eq_true_eq] at h
  exact ⟨h.2.1.le, h.2.2⟩

variable {claims : GrantClaims} {ttl : ℤ} {a : Applied} {key : LiveKey}

theorem above_of_lt (h : claims.s < stamp.seq) : above (some stamp) claims.s = true :=
  decide_eq_true h

theorem grantRevoked_of_floor (h : claims.s < r.floor) : r.grantRevoked claims = true := by
  rw [Revocations.grantRevoked, decide_eq_true h, Bool.true_or]

theorem Faithful.refused (h : r.Faithful head past raised now) (ha : a ∈ past)
    (hs : claims.s < a.seq) (hvalid : Unexpired claims ttl now) (httl : r.ttlMs = ttl * 1000)
    (htime : InTime claims a) : claims.s < r.floor ∨ r.Held a := by
  rcases h.kept a ha with hfloor | hheld | hold
  · exact Or.inl (by omega)
  · exact Or.inr hheld
  · exfalso
    have hissued := htime hs
    obtain ⟨hlife, hexp⟩ := hvalid
    omega

theorem Faithful.grantRevoked (h : r.Faithful head past raised now) (ha : a ∈ past)
    (hs : claims.s < a.seq) (hvalid : Unexpired claims ttl now) (httl : r.ttlMs = ttl * 1000)
    (htime : InTime claims a) (hkey : a.event.key = none) (hsub : Concerns a.event claims) :
    r.grantRevoked claims = true := by
  rcases h.refused ha hs hvalid httl htime with hfloor | ⟨stamp, hentry, hseq, -⟩
  · exact grantRevoked_of_floor hfloor
  · unfold entry at hentry
    rw [hkey] at hentry
    cases hevent : a.event.sub with
    | none =>
      rw [hevent] at hentry
      cases hentry
    | some sub =>
      rw [hevent] at hentry
      have hclaims : claims.sub = some sub := by
        rcases hsub with hsub | hsub
        · rw [hevent] at hsub
          cases hsub
        · rw [← hsub, hevent]
      rw [Revocations.grantRevoked, hclaims, Option.any_some]
      simp only at hentry
      rw [hentry, above_of_lt (by omega), Bool.or_true]

theorem Faithful.keyRevoked (h : r.Faithful head past raised now) (ha : a ∈ past)
    (hs : claims.s < a.seq) (hvalid : Unexpired claims ttl now) (httl : r.ttlMs = ttl * 1000)
    (htime : InTime claims a) (hkey : a.event.key = some key) (hsub : Concerns a.event claims) :
    r.keyRevoked key claims = true ∨ r.grantRevoked claims = true := by
  rcases h.refused ha hs hvalid httl htime with hfloor | ⟨stamp, hentry, hseq, -⟩
  · exact Or.inr (grantRevoked_of_floor hfloor)
  · left
    unfold entry at hentry
    rw [hkey] at hentry
    cases hevent : a.event.sub with
    | none =>
      rw [hevent] at hentry
      simp only at hentry
      rw [Revocations.keyRevoked, hentry, above_of_lt (by omega), Bool.true_or]
    | some sub =>
      rw [hevent] at hentry
      have hclaims : claims.sub = some sub := by
        rcases hsub with hsub | hsub
        · rw [hevent] at hsub
          cases hsub
        · rw [← hsub, hevent]
      simp only at hentry
      rw [Revocations.keyRevoked, hclaims, Option.any_some, hentry, above_of_lt (by omega),
        Bool.or_true]

theorem Faithful.of_grantRevoked (h : r.Faithful head past raised now)
    (hrevoked : r.grantRevoked claims = true) (hhead : head ≤ claims.s) :
    (∃ seq ∈ raised, claims.s < seq) ∨
      ∃ a ∈ past, claims.s < a.seq ∧ a.event.key = none ∧ Concerns a.event claims := by
  rw [Revocations.grantRevoked, Bool.or_eq_true, decide_eq_true_eq] at hrevoked
  rcases hrevoked with hfloor | hentry
  · rcases h.floor with hhead' | hraised | ⟨a, ha, hwhole, hseq⟩
    · omega
    · exact Or.inl ⟨_, hraised, hfloor⟩
    · exact Or.inr ⟨a, ha, by omega, hwhole.1, Or.inl hwhole.2⟩
  · obtain ⟨sub, hsub, habove⟩ := Option.any_eq_true _ _ |>.mp hentry
    obtain ⟨stamp, hstamp, hlt⟩ := Option.any_eq_true _ _ |>.mp habove
    have hmem := h.genuine ⟨some sub, none⟩ stamp hstamp
    exact Or.inr ⟨_, hmem, of_decide_eq_true hlt, rfl, Or.inr hsub.symm⟩

theorem Faithful.of_keyRevoked (h : r.Faithful head past raised now)
    (hrevoked : r.keyRevoked key claims = true) :
    ∃ a ∈ past, claims.s < a.seq ∧ a.event.key = some key ∧ Concerns a.event claims := by
  rw [Revocations.keyRevoked, Bool.or_eq_true] at hrevoked
  rcases hrevoked with habove | hentry
  · obtain ⟨stamp, hstamp, hlt⟩ := Option.any_eq_true _ _ |>.mp habove
    have hmem := h.genuine ⟨none, some key⟩ stamp hstamp
    exact ⟨_, hmem, of_decide_eq_true hlt, rfl, Or.inl rfl⟩
  · obtain ⟨sub, hsub, habove⟩ := Option.any_eq_true _ _ |>.mp hentry
    obtain ⟨stamp, hstamp, hlt⟩ := Option.any_eq_true _ _ |>.mp habove
    have hmem := h.genuine ⟨some sub, some key⟩ stamp hstamp
    exact ⟨_, hmem, of_decide_eq_true hlt, rfl, Or.inr hsub.symm⟩

end Revocations

theorem get_pick {names : List JSString} (h : name ∈ names) :
    (pick map names).get name = (map.get name).map Stamp.seq := by
  unfold pick fromEntries
  cases hget : map.get name with
  | none =>
    rw [Option.map_none, ← Option.not_isSome_iff_eq_none]
    intro hsome
    obtain ⟨seq, hseq⟩ := Option.isSome_iff_exists.mp hsome
    rcases InsertionMap.of_get_foldl_set hseq with hempty | ⟨entry, hentry, hname, -⟩
    · cases hempty
    · obtain ⟨name', -, hname'⟩ := List.mem_filterMap.mp hentry
      obtain ⟨stamp, hstamp, rfl⟩ := Option.map_eq_some_iff.mp hname'
      simp only at hname
      rw [hname, hget] at hstamp
      cases hstamp
  | some stamp =>
    have hmem : (name, stamp.seq) ∈ names.filterMap fun name =>
        (map.get name).map fun stamp => (name, stamp.seq) :=
      List.mem_filterMap.mpr ⟨name, h, by rw [hget]; rfl⟩
    refine InsertionMap.get_foldl_set_of_mem hmem fun entry hentry hname => ?_
    obtain ⟨name', -, hname'⟩ := List.mem_filterMap.mp hentry
    obtain ⟨stamp', hstamp', rfl⟩ := Option.map_eq_some_iff.mp hname'
    simp only at hname ⊢
    rw [hname, hget] at hstamp'
    rw [Option.some.inj hstamp']

theorem mem_pick {names : List JSString} {picked : JSString × ℕ}
    (h : picked ∈ (pick map names).entries) :
    picked.1 ∈ names ∧ ∃ stamp, map.get picked.1 = some stamp ∧ stamp.seq = picked.2 := by
  have hget : (pick map names).get picked.1 = some picked.2 := InsertionMap.get_eq_some_iff.mpr h
  rcases InsertionMap.of_get_foldl_set hget with hempty | ⟨entry, hentry, hname, hseq⟩
  · cases hempty
  · obtain ⟨name, hmem, hname'⟩ := List.mem_filterMap.mp hentry
    obtain ⟨stamp, hstamp, rfl⟩ := Option.map_eq_some_iff.mp hname'
    simp only at hname hseq
    subst hname
    exact ⟨hmem, stamp, hstamp, hseq⟩

theorem stampAbove_pick {names : List JSString} (h : name ∈ names) (s : ℕ) :
    stampAbove (pick map names) name s = above (map.get name) s := by
  rw [stampAbove, get_pick h, Option.any_map]
  rfl

namespace Revocations
variable {r : Revocations} {claims : GrantClaims} {subjects : List JSString} {keys : List LiveKey}
  {key : LiveKey}

theorem grantRevoked_snapshot (hsub : ∀ sub ∈ claims.sub, sub ∈ subjects) :
    (r.snapshot subjects keys).grantRevoked claims = r.grantRevoked claims := by
  unfold RevocationSnapshot.grantRevoked Revocations.grantRevoked
  congr 1
  cases hclaims : claims.sub with
  | none => rfl
  | some sub => exact stampAbove_pick (hsub sub hclaims) _

theorem keyRevoked_snapshot (hsub : ∀ sub ∈ claims.sub, sub ∈ subjects) (hkey : key ∈ keys) :
    (r.snapshot subjects keys).keyRevoked key claims = r.keyRevoked key claims := by
  unfold RevocationSnapshot.keyRevoked Revocations.keyRevoked
  congr 1
  · exact stampAbove_pick (List.mem_map_of_mem hkey) _
  · cases hclaims : claims.sub with
    | none => rfl
    | some sub =>
      refine stampAbove_pick (List.mem_flatMap.mpr ⟨key, hkey, ?_⟩) _
      exact List.mem_map_of_mem (hsub sub hclaims)

end Revocations

def RevocationSnapshot.Safe (snapshot : RevocationSnapshot) : Prop :=
  isSafeInteger snapshot.floor ∧
    ∀ record ∈ [snapshot.subjects, snapshot.keys, snapshot.subjectKeys],
      ∀ entry ∈ record.entries, isSafeInteger entry.2

theorem seqLike_decimal {n : ℕ} (h : isSafeInteger n) :
    seqLike (.number (decimal n)) = some n := by
  have hread : JSON.readNumeral (decimal n ++ []) = some (⟨false, decimal n, [], 0⟩, []) :=
    JSON.readNumeral_decimal n nofun
  have hnatural : naturalOf ⟨false, decimal n, [], 0⟩ = some n := by
    by_cases hzero : n = 0
    · simp [naturalOf, JSON.natOfDigits_decimal, hzero]
    · simp [naturalOf, JSON.natOfDigits_decimal, hzero]
  rw [List.append_nil] at hread
  simp only [seqLike, hread, Option.bind_eq_bind, Option.bind_some, hnatural, if_pos h]

theorem fromEntries_entries (record : InsertionMap JSString ℕ) :
    fromEntries record.entries = record := by
  ext1
  exact InsertionMap.entries_foldl_set record.nodup

theorem stampsOf_recordValue {record : InsertionMap JSString ℕ}
    (h : ∀ entry ∈ record.entries, isSafeInteger entry.2) :
    stampsOf (recordValue record) = some record := by
  have hfields (entries : List (JSString × ℕ)) (h : ∀ entry ∈ entries, isSafeInteger entry.2) :
      (entries.map fun entry => (entry.1, Value.number (decimal entry.2))).mapM
        (fun field => (seqLike field.2).map fun seq => (field.1, seq)) = some entries := by
    induction entries with
    | nil => rfl
    | cons entry entries ih =>
      rw [List.map_cons, List.mapM_cons, ih fun e he => h e (List.mem_cons_of_mem _ he)]
      simp [seqLike_decimal (h entry List.mem_cons_self)]
  rw [recordValue, stampsOf, hfields record.entries h, Option.map_some, fromEntries_entries]

theorem plain_recordValue (record : InsertionMap JSString ℕ) :
    JSON.Plain (recordValue record) := by
  have hfields (entries : List (JSString × ℕ)) :
      JSON.PlainFields (entries.map fun entry => (entry.1, Value.number (decimal entry.2))) := by
    induction entries with
    | nil => exact .nil
    | cons entry entries ih => exact .cons (.number entry.2) ih
  refine .object (hfields record.entries) ?_
  rw [List.map_map]
  exact record.nodup

theorem plain_toValue (reply : AuthorityReply) : JSON.Plain reply.toValue := by
  have hnames : [js "seq", js "floor", js "subjects", js "keys", js "subjectKeys"].Nodup := by
    decide
  refine .object ?_ hnames
  exact .cons (.number _) (.cons (.number _) (.cons (plain_recordValue _)
    (.cons (plain_recordValue _) (.cons (plain_recordValue _) .nil))))

theorem parseAuthorityReply_stringify {reply : AuthorityReply} (hseq : isSafeInteger reply.seq)
    (h : reply.snapshot.Safe) :
    (JSON.parse reply.toValue.stringify).bind parseAuthorityReply = some reply := by
  obtain ⟨hfloor, hrecords⟩ := h
  have hseq' : property reply.toValue (js "seq") = some (.number (decimal reply.seq)) := rfl
  have hfloor' : property reply.toValue (js "floor") =
    some (.number (decimal reply.snapshot.floor)) := rfl
  have hsubjects : property reply.toValue (js "subjects") =
    some (recordValue reply.snapshot.subjects) := rfl
  have hkeys : property reply.toValue (js "keys") =
    some (recordValue reply.snapshot.keys) := rfl
  have hpairs : property reply.toValue (js "subjectKeys") =
    some (recordValue reply.snapshot.subjectKeys) := rfl
  rw [JSON.parse_stringify (plain_toValue reply), Option.bind_some]
  simp only [parseAuthorityReply, hseq', hfloor', hsubjects, hkeys, hpairs, Option.bind_some,
    Option.bind_eq_bind, seqLike_decimal hseq, seqLike_decimal hfloor,
    stampsOf_recordValue (hrecords reply.snapshot.subjects (by simp)),
    stampsOf_recordValue (hrecords reply.snapshot.keys (by simp)),
    stampsOf_recordValue (hrecords reply.snapshot.subjectKeys (by simp))]

namespace Revocations
variable {r : Revocations} {head limit : ℕ} {ttl clock : ℤ} {past history : List Applied}
  {raised : List ℕ}

def applyAll (r : Revocations) (history : List Applied) : Revocations :=
  history.foldl (fun r a => r.apply a.event a.seq a.now) r

def raisedIn (r : Revocations) : List Applied → List ℕ
  | [] => []
  | a :: history => r.raisedBy a ++ raisedIn (r.apply a.event a.seq a.now) history

theorem apply_ttlMs {event : LiveRevocation} {seq : ℕ} {now : ℤ} :
    (r.apply event seq now).ttlMs = r.ttlMs := by
  have hstore : ((r.prune now).store event ⟨seq, now⟩).ttlMs = r.ttlMs := by
    by_cases hwhole : Whole event
    · rw [store_whole hwhole]
      rfl
    · exact (store_floor _ _ hwhole).2
  unfold Revocations.apply
  simp only
  split_ifs
  · exact hstore
  · exact hstore

theorem applyAll_ttlMs : (r.applyAll history).ttlMs = r.ttlMs := by
  induction history generalizing r with
  | nil => rfl
  | cons a history ih =>
    rw [applyAll, List.foldl_cons]
    exact ih.trans apply_ttlMs

theorem Faithful.applyAll (h : r.Faithful head past raised clock)
    (hseq : (past ++ history).Pairwise (·.seq < ·.seq))
    (hnow : (past ++ history).Pairwise (·.now ≤ ·.now)) (hclock : ∀ a ∈ history, clock ≤ a.now) :
    ∃ clock', (∀ now, clock ≤ now → (∀ a ∈ history, a.now ≤ now) → clock' ≤ now) ∧
      (r.applyAll history).Faithful head (past ++ history) (raised ++ r.raisedIn history)
        clock' := by
  induction history generalizing r past raised clock with
  | nil => exact ⟨clock, fun _ hle _ => hle, by simpa [Revocations.applyAll, raisedIn] using h⟩
  | cons a history ih =>
    have hpast (b : Applied) (hb : b ∈ past) : b.seq < a.seq ∧ b.now ≤ a.now :=
      ⟨(List.pairwise_append.mp hseq).2.2 b hb a List.mem_cons_self,
        (List.pairwise_append.mp hnow).2.2 b hb a List.mem_cons_self⟩
    have hstep := h.apply (fun b hb => (hpast b hb).1.le) (fun b hb => (hpast b hb).2)
      (hclock a List.mem_cons_self)
    have hrest (b : Applied) (hb : b ∈ history) : a.now ≤ b.now :=
      (List.pairwise_cons.mp (List.pairwise_append.mp hnow).2.1).1 b hb
    obtain ⟨clock', hle, hall⟩ := ih hstep (by simpa using hseq) (by simpa using hnow) hrest
    refine ⟨clock', fun now _ hlast => ?_, ?_⟩
    · exact hle now (hlast a List.mem_cons_self) fun b hb => hlast b (List.mem_cons_of_mem _ hb)
    · simpa [Revocations.applyAll, raisedIn] using hall

theorem faithful_run (hseq : history.Pairwise (·.seq < ·.seq))
    (hnow : history.Pairwise (·.now ≤ ·.now)) {now : ℤ} (hlast : ∀ a ∈ history, a.now ≤ now) :
    ((create head (ttl * 1000) limit).applyAll history).Faithful head history
      ((create head (ttl * 1000) limit).raisedIn history) now := by
  cases history with
  | nil => exact .create limit _
  | cons a history =>
    have hle : ∀ b ∈ a :: history, a.now ≤ b.now := by
      intro b hb
      rcases List.mem_cons.mp hb with rfl | hb
      · exact le_rfl
      · exact (List.pairwise_cons.mp hnow).1 b hb
    have hcreate : (create head (ttl * 1000) limit).Faithful head [] [] a.now := .create limit _
    obtain ⟨clock, hclock, hall⟩ := hcreate.applyAll hseq hnow hle
    exact hall.tick (hclock now (hlast a List.mem_cons_self) hlast)

theorem mem_raisedIn {seq : ℕ} (h : seq ∈ r.raisedIn history) : ∃ a ∈ history, a.seq = seq := by
  induction history generalizing r with
  | nil => cases h
  | cons a history ih =>
    rcases List.mem_append.mp h with h | h
    · unfold raisedBy at h
      split_ifs at h
      · exact ⟨a, List.mem_cons_self, (List.mem_singleton.mp h).symm⟩
      · cases h
    · obtain ⟨b, hb, hseq⟩ := ih h
      exact ⟨b, List.mem_cons_of_mem _ hb, hseq⟩

theorem Faithful.safe (h : r.Faithful head past raised clock) (hhead : isSafeInteger head)
    (hpast : ∀ a ∈ past, isSafeInteger a.seq) (hraised : ∀ seq ∈ raised, ∃ a ∈ past, a.seq = seq)
    (subjects : List JSString) (keys : List LiveKey) : (r.snapshot subjects keys).Safe := by
  have hstored (event : LiveRevocation) {stamp : Stamp} (hentry : r.entry event = some stamp) :
      isSafeInteger stamp.seq := hpast _ (h.genuine event stamp hentry)
  constructor
  · change isSafeInteger r.floor = true
    rcases h.floor with hfloor | hfloor | ⟨a, ha, -, hfloor⟩
    · exact hfloor ▸ hhead
    · obtain ⟨a, ha, hseq⟩ := hraised _ hfloor
      exact hseq ▸ hpast a ha
    · exact hfloor ▸ hpast a ha
  · intro record hrecord picked hpicked
    simp only [List.mem_cons, List.not_mem_nil, or_false] at hrecord
    rcases hrecord with rfl | rfl | rfl
    · obtain ⟨-, stamp, hstamp, hseq⟩ := mem_pick hpicked
      exact hseq ▸ hstored ⟨some picked.1, none⟩ hstamp
    · obtain ⟨hname, stamp, hstamp, hseq⟩ := mem_pick hpicked
      obtain ⟨key, -, hkey⟩ := List.mem_map.mp hname
      rw [← hkey] at hstamp
      exact hseq ▸ hstored ⟨none, some key⟩ hstamp
    · obtain ⟨hname, stamp, hstamp, hseq⟩ := mem_pick hpicked
      obtain ⟨key, -, hsub⟩ := List.mem_flatMap.mp hname
      obtain ⟨sub, -, hpair⟩ := List.mem_map.mp hsub
      rw [← hpair] at hstamp
      exact hseq ▸ hstored ⟨some sub, some key⟩ hstamp

end Revocations

open Revocations

def CoversGrant (a : Applied) (claims : GrantClaims) : Prop :=
  claims.s < a.seq ∧ a.event.key = none ∧ Concerns a.event claims

def CoversKey (a : Applied) (key : LiveKey) (claims : GrantClaims) : Prop :=
  claims.s < a.seq ∧ a.event.key = some key ∧ Concerns a.event claims

/-- What the stored revocations answer at `now`, after the revocations of the history. -/
structure Outlives (head : ℕ) (ttl now : ℤ) (history : List Applied) (raised : List ℕ)
    (r : Revocations) : Prop where
  grant : ∀ claims : GrantClaims, Unexpired claims ttl now → (∀ a ∈ history, InTime claims a) →
    (∃ a ∈ history, CoversGrant a claims) → r.grantRevoked claims = true
  key : ∀ (claims : GrantClaims) (key : LiveKey), Unexpired claims ttl now →
    (∀ a ∈ history, InTime claims a) → (∃ a ∈ history, CoversKey a key claims) →
    r.keyRevoked key claims = true ∨ r.grantRevoked claims = true
  keptGrant : ∀ claims : GrantClaims, head ≤ claims.s → (∀ a ∈ history, ¬ CoversGrant a claims) →
    (∀ seq ∈ raised, seq ≤ claims.s) → r.grantRevoked claims = false
  keptKey : ∀ (claims : GrantClaims) (key : LiveKey),
    (∀ a ∈ history, ¬ CoversKey a key claims) → r.keyRevoked key claims = false
  viewed : ∀ (subjects : List JSString) (keys : List LiveKey) (claims : GrantClaims),
    (∀ sub ∈ claims.sub, sub ∈ subjects) →
    (r.snapshot subjects keys).grantRevoked claims = r.grantRevoked claims ∧
      ∀ key ∈ keys, (r.snapshot subjects keys).keyRevoked key claims = r.keyRevoked key claims
  printed : isSafeInteger head → (∀ a ∈ history, isSafeInteger a.seq) →
    ∀ (seq : ℕ) (subjects : List JSString) (keys : List LiveKey), isSafeInteger seq →
    (JSON.parse (AuthorityReply.mk seq (r.snapshot subjects keys)).toValue.stringify).bind
      parseAuthorityReply = some ⟨seq, r.snapshot subjects keys⟩

/-- The revocations that a process applied from its start on. -/
theorem revocations_outlive_grants (head limit : ℕ) (ttl now : ℤ) (history : List Applied)
    (hseq : history.Pairwise (·.seq < ·.seq)) (hnow : history.Pairwise (·.now ≤ ·.now))
    (hlast : ∀ a ∈ history, a.now ≤ now) :
    Outlives head ttl now history ((create head (ttl * 1000) limit).raisedIn history)
      ((create head (ttl * 1000) limit).applyAll history) := by
  have hrun : ((create head (ttl * 1000) limit).applyAll history).Faithful head history
      ((create head (ttl * 1000) limit).raisedIn history) now := faithful_run hseq hnow hlast
  have httl : ((create head (ttl * 1000) limit).applyAll history).ttlMs = ttl * 1000 :=
    applyAll_ttlMs
  constructor
  · rintro claims hlives htime ⟨a, ha, hs, hkey, hsub⟩
    exact hrun.grantRevoked ha hs hlives httl (htime a ha) hkey hsub
  · rintro claims key hlives htime ⟨a, ha, hs, hkey, hsub⟩
    exact hrun.keyRevoked ha hs hlives httl (htime a ha) hkey hsub
  · intro claims hhead hnone hraised
    by_contra hrevoked
    rcases hrun.of_grantRevoked (Bool.eq_true_of_not_eq_false hrevoked) hhead with
      ⟨seq, hmem, hlt⟩ | ⟨a, ha, hcovers⟩
    · exact absurd (hraised seq hmem) (by omega)
    · exact hnone a ha hcovers
  · intro claims key hnone
    by_contra hrevoked
    obtain ⟨a, ha, hcovers⟩ := hrun.of_keyRevoked (Bool.eq_true_of_not_eq_false hrevoked)
    exact hnone a ha hcovers
  · intro subjects keys claims hsub
    exact ⟨grantRevoked_snapshot hsub, fun key hkey => keyRevoked_snapshot hsub hkey⟩
  · intro hhead hsafe seq subjects keys hseq
    exact parseAuthorityReply_stringify hseq
      (hrun.safe hhead hsafe (fun seq hraised => mem_raisedIn hraised) subjects keys)

/-- Two stored revocations past a limit of one, and one of everything. -/
theorem revocations_outlive_grants_proto :
    let history : List Applied :=
      [⟨⟨some (js "__proto__"), none⟩, 1, 0⟩, ⟨⟨none, some ⟨js "cart", by decide⟩⟩, 2, 1000⟩,
        ⟨⟨none, none⟩, 3, 1000⟩]
    Outlives 0 60 2000 history ((create 0 (60 * 1000) 1).raisedIn history)
      ((create 0 (60 * 1000) 1).applyAll history) :=
  revocations_outlive_grants 0 1 60 2000 _ (by decide) (by decide) (by decide)

/-- A process that starts at seq 5 refuses a grant of seq 3 that nothing revoked. -/
theorem refused_below_head : ¬ ∀ (head limit : ℕ) (ttl now : ℤ) (history : List Applied),
    history.Pairwise (·.seq < ·.seq) → history.Pairwise (·.now ≤ ·.now) →
    (∀ a ∈ history, a.now ≤ now) → ∀ claims : GrantClaims, Unexpired claims ttl now →
    (∀ a ∈ history, InTime claims a) → (∀ a ∈ history, ¬ CoversGrant a claims) →
    (∀ seq ∈ (create head (ttl * 1000) limit).raisedIn history, seq ≤ claims.s) →
    ((create head (ttl * 1000) limit).applyAll history).grantRevoked claims = false := by
  intro h
  have hkept := h 5 100000 60 0 [] .nil .nil nofun
    ⟨js "s", none, js "/", js "f", ∅, 3, 0, 0, 60⟩ ⟨by decide, by decide⟩ nofun nofun nofun
  exact absurd hkept (by decide)

end Nifra.Live
