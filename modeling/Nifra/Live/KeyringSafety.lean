import Nifra.Lib.Runs
import Nifra.Live.GrantTokens

/-! # Keyrings

What `seal` and `open` do to the subkeys of a keyring before and after their awaits, and a fleet of
keyrings whose calls take their steps in any order.
-/

namespace Nifra.Live

open JSON (Value)

def subkeyCacheSize : ℕ := 1024

variable {crypto : WebCrypto}

structure Keyring (crypto : WebCrypto) where
  config : KeyringConfig
  subkeys : InsertionMap (List ℕ) crypto.Key
  sealHour : Option ℕ
  seals : ℕ

structure Sealing (crypto : WebCrypto) where
  config : KeyringConfig
  input : GrantInput
  now : TimeValue
  nonce : List ℕ
  key : crypto.Key

namespace Sealing
variable (sealing : Sealing crypto)

def kid : List ℕ :=
  sealing.config.first.id ++ sealing.config.processId ++ writeU32 sealing.now.hour

def claims : Value :=
  sealing.input.claims sealing.now.seconds sealing.config.ttl sealing.config.appId

def plain : List ℕ := encodeUtf8 sealing.claims.stringify

def encrypted : List ℕ := crypto.encrypt sealing.key sealing.nonce sealing.kid sealing.plain

def token : Option JSString :=
  let encoded := toBase64Url (sealing.kid ++ sealing.nonce ++ sealing.encrypted)
  if maxGrantChars < encoded.length then none else some encoded

end Sealing

structure OpenedValue where
  claims : Value
  secret : ℕ

/-- An `open` that has its key; `remembered` is whether it was cached. -/
structure Opening (crypto : WebCrypto) where
  config : KeyringConfig
  token : JSString
  now : TimeValue
  entry : SecretEntry
  bytes : List ℕ
  key : crypto.Key
  remembered : Bool

namespace Opening
variable (opening : Opening crypto)

def kid : List ℕ := opening.bytes.take kidBytes
def nonce : List ℕ := (opening.bytes.drop kidBytes).take nonceBytes
def encrypted : List ℕ := opening.bytes.drop (kidBytes + nonceBytes)

def decrypted : Option (List ℕ) :=
  crypto.decrypt opening.key opening.nonce opening.kid opening.encrypted

def grantOf (plain : List ℕ) : Option OpenedValue := do
  let text ← decodeUtf8Fatal plain
  let claims ← JSON.parse text
  if validClaims claims opening.config.appId opening.config.ttl (readU32 opening.bytes 12)
      opening.now.seconds then
    some ⟨claims, opening.entry.index⟩
  else none

end Opening

def KeyringConfig.admitted (config : KeyringConfig) (token : JSString) (now : TimeValue) :
    Option (SecretEntry × List ℕ) :=
  if maxGrantChars < token.length then none
  else do
    let bytes ← fromBase64Url token
    if bytes.length < kidBytes + nonceBytes + gcmTagBytes then none
    else
      let entry ← config.byId (readU32 bytes 0)
      let hour := readU32 bytes 12
      if hour ≠ now.hour ∧ hour + 1 ≠ now.hour then none else some (entry, bytes)

namespace Keyring
variable (keyring : Keyring crypto)

def create (config : KeyringConfig) : Keyring crypto := ⟨config, ∅, none, 0⟩

def cachedSubkey (name : List ℕ) : Keyring crypto × Option crypto.Key :=
  match keyring.subkeys.get name with
  | some cached =>
    ({ keyring with subkeys := (keyring.subkeys.delete name).set name cached }, cached)
  | none => (keyring, none)

def remember (name : List ℕ) (key : crypto.Key) : Keyring crypto :=
  if keyring.subkeys.has name then keyring
  else
    let subkeys := if subkeyCacheSize ≤ keyring.subkeys.size then
        match keyring.subkeys.keys.head? with
        | some oldest => keyring.subkeys.delete oldest
        | none => keyring.subkeys
      else keyring.subkeys
    { keyring with subkeys := subkeys.set name key }

def inHour (hour : ℕ) : Keyring crypto :=
  if keyring.sealHour = some hour then keyring
  else { keyring with
    sealHour := some hour,
    seals := 0 }

def sealingKey (kid : List ℕ) : Keyring crypto × crypto.Key :=
  match keyring.cachedSubkey kid with
  | (keyring, some key) => (keyring, key)
  | (keyring, none) =>
    let key := crypto.deriveSubkey keyring.config.first kid
    (keyring.remember kid key, key)

def sealInput (input : GrantInput) (now : TimeValue) (nonce : List ℕ) :
    Keyring crypto × Option (Sealing crypto) :=
  let keyring := keyring.inHour now.hour
  if keyring.config.maxSeals ≤ keyring.seals then (keyring, none)
  else
    let kid := keyring.config.first.id ++ keyring.config.processId ++ writeU32 now.hour
    let (keyring, key) := sealingKey { keyring with seals := keyring.seals + 1 } kid
    (keyring, some ⟨keyring.config, input, now, nonce, key⟩)

def openToken (token : JSString) (now : TimeValue) : Keyring crypto × Option (Opening crypto) :=
  match keyring.config.admitted token now with
  | none => (keyring, none)
  | some (entry, bytes) =>
    let kid := bytes.take kidBytes
    let (keyring, cached) := keyring.cachedSubkey kid
    (keyring, some ⟨keyring.config, token, now, entry, bytes,
      cached.getD (crypto.deriveSubkey entry kid), cached.isSome⟩)

/-- What `open` does to the subkeys after it has decrypted. -/
def decryptedUnder (opening : Opening crypto) : Keyring crypto :=
  if opening.remembered then keyring else keyring.remember opening.kid opening.key

end Keyring

structure OpenAnswer where
  config : KeyringConfig
  token : JSString
  now : TimeValue
  opened : Option OpenedValue

/-- Beside the keyrings and the calls in flight: the seals that ended, and the answers. -/
structure Fleet (crypto : WebCrypto) where
  keyrings : List (Keyring crypto)
  sealing : List (Sealing crypto)
  opening : List (ℕ × Opening crypto)
  sealed : List (Sealing crypto)
  answers : List OpenAnswer

inductive FleetAction
  | create (options : KeyringOptions)
  | issue (i : ℕ) (input : GrantInput) (now : TimeValue) (nonce : List ℕ)
  | encrypt (j : ℕ)
  | present (i : ℕ) (token : JSString) (now : TimeValue)
  | decrypt (j : ℕ)

namespace Fleet
variable (w : Fleet crypto)

def empty : Fleet crypto := ⟨[], [], [], [], []⟩

def step (w : Fleet crypto) : FleetAction → Option (Fleet crypto)
  | .create options =>
    match createKeyring crypto options with
    | .error _ => none
    | .ok config => some { w with keyrings := w.keyrings ++ [.create config] }
  | .issue i input now nonce => do
    let keyring ← w.keyrings[i]?
    if nonce.length = nonceBytes ∧ ∀ b ∈ nonce, b < 256 then
      let (keyring, sealing) := keyring.sealInput input now nonce
      some { w with
        keyrings := w.keyrings.set i keyring,
        sealing := w.sealing ++ sealing.toList }
    else none
  | .encrypt j => do
    let sealing ← w.sealing[j]?
    some { w with
      sealing := w.sealing.eraseIdx j,
      sealed := w.sealed ++ [sealing] }
  | .present i token now => do
    let keyring ← w.keyrings[i]?
    match keyring.openToken token now with
    | (keyring, some opening) => some { w with
        keyrings := w.keyrings.set i keyring,
        opening := w.opening ++ [(i, opening)] }
    | (_, none) => some { w with
        answers := w.answers ++ [⟨keyring.config, token, now, none⟩] }
  | .decrypt j => do
    let (i, opening) ← w.opening[j]?
    let w := { w with opening := w.opening.eraseIdx j }
    match opening.decrypted with
    | none => some { w with
        answers := w.answers ++ [⟨opening.config, opening.token, opening.now, none⟩] }
    | some plain => do
      let keyring ← w.keyrings[i]?
      some { w with
        keyrings := w.keyrings.set i (keyring.decryptedUnder opening),
        answers := w.answers ++ [⟨opening.config, opening.token, opening.now,
          opening.grantOf plain⟩] }

end Fleet

/-! ## Keyrings and their subkeys

A cached subkey is the one that would be derived, so that what `open` returns depends on the token
and the clock alone.
-/

structure KeyringConfig.Derived (crypto : WebCrypto) (config : KeyringConfig) : Prop where
  id : ∀ e ∈ config.entries, e.id =
    (crypto.deriveBits e.base [] (encodeUtf8 (js "nifra live secret id v1")) 32).take 4
  index : ∀ (i : ℕ) (e : SecretEntry), config.entries[i]? = some e → e.index = i
  distinct : (config.entries.map SecretEntry.idKey).Nodup
  processId : config.processId.length = 8
  octets : ∀ b ∈ config.processId, b < 256
  units : ∀ c ∈ config.appId, c < 0x10000

theorem derived_createKeyring {options : KeyringOptions} {config : KeyringConfig}
    (h : createKeyring crypto options = .ok config) : config.Derived crypto := by
  simp only [createKeyring, bind, Except.bind] at h
  split at h
  · cases h
  split at h
  · cases h
  next hprocess =>
  split at h
  · next hdistinct =>
    cases h
    have hentry (i : ℕ) (e : SecretEntry) (he : (crypto.deriveEntry options.secret 0 ::
        options.rotated.mapIdx fun i secret => crypto.deriveEntry secret (i + 1))[i]? = some e) :
        ∃ secret, e = crypto.deriveEntry secret i := by
      cases i with
      | zero => exact ⟨_, (Option.some.inj he).symm⟩
      | succ i =>
        rw [List.getElem?_cons_succ, List.getElem?_mapIdx] at he
        obtain ⟨secret, -, rfl⟩ := Option.map_eq_some_iff.mp he
        exact ⟨secret, rfl⟩
    refine ⟨?_, ?_, hdistinct, not_not.mp hprocess, options.octets, options.units⟩
    · intro e he
      obtain ⟨i, hi⟩ := List.getElem?_of_mem he
      obtain ⟨secret, rfl⟩ := hentry i e hi
      rfl
    · intro i e he
      obtain ⟨secret, rfl⟩ := hentry i e he
      rfl
  · cases h

namespace KeyringConfig.Derived
variable {config : KeyringConfig}

theorem length_id (h : config.Derived crypto) (hcrypto : crypto.Lawful) {e : SecretEntry}
    (he : e ∈ config.entries) : e.id.length = 4 := by
  rw [h.id e he, List.length_take, hcrypto.length_deriveBits]
  rfl

theorem id_lt (h : config.Derived crypto) (hcrypto : crypto.Lawful) {e : SecretEntry}
    (he : e ∈ config.entries) : ∀ b ∈ e.id, b < 256 := by
  rw [h.id e he]
  exact fun b hb => hcrypto.deriveBits_lt _ _ _ _ b (List.mem_of_mem_take hb)

theorem byId_idKey (h : config.Derived crypto) {e : SecretEntry} (he : e ∈ config.entries) :
    config.byId e.idKey = some e := by
  have hdistinct := h.distinct
  unfold KeyringConfig.byId
  generalize config.entries = entries at he hdistinct
  induction entries with
  | nil => cases he
  | cons first rest ih =>
    rw [List.map_cons, List.nodup_cons] at hdistinct
    rw [List.find?_cons]
    rcases List.mem_cons.mp he with rfl | he
    · simp
    · have hne : first.idKey ≠ e.idKey := fun heq =>
        hdistinct.1 (heq ▸ List.mem_map_of_mem he)
      simp only [hne, decide_false]
      exact ih he hdistinct.2

theorem of_byId {id : ℕ} {e : SecretEntry} (h : config.byId id = some e) :
    e ∈ config.entries ∧ e.idKey = id :=
  have hid := List.find?_some (p := fun entry : SecretEntry => decide (entry.idKey = id)) h
  ⟨List.mem_of_find?_eq_some h, of_decide_eq_true hid⟩

theorem eq_of_idKey (h : config.Derived crypto) {e f : SecretEntry} (he : e ∈ config.entries)
    (hf : f ∈ config.entries) (heq : e.idKey = f.idKey) : e = f := by
  have hfind := h.byId_idKey he
  rw [heq, h.byId_idKey hf] at hfind
  exact (Option.some.inj hfind).symm

end KeyringConfig.Derived

theorem admitted_iff {config : KeyringConfig} {token : JSString} {now : TimeValue}
    {entry : SecretEntry} {bytes : List ℕ} :
    config.admitted token now = some (entry, bytes) ↔
      token.length ≤ maxGrantChars ∧ fromBase64Url token = some bytes ∧
        kidBytes + nonceBytes + gcmTagBytes ≤ bytes.length ∧
        config.byId (readU32 bytes 0) = some entry ∧
        (readU32 bytes 12 = now.hour ∨ readU32 bytes 12 + 1 = now.hour) := by
  unfold KeyringConfig.admitted
  constructor
  · intro h
    split at h
    · cases h
    next hlength =>
    obtain ⟨read, hread, h⟩ := Option.bind_eq_some_iff.mp h
    split at h
    · cases h
    next hbytes =>
    obtain ⟨found, hfound, h⟩ := Option.bind_eq_some_iff.mp h
    dsimp only at h
    split at h
    · cases h
    next hhour =>
    obtain ⟨rfl, rfl⟩ := Prod.mk.inj (Option.some.inj h)
    refine ⟨not_lt.mp hlength, hread, not_lt.mp hbytes, hfound, ?_⟩
    omega
  · rintro ⟨hlength, hread, hbytes, hfound, hhour⟩
    have hadmitted : ¬ (readU32 bytes 12 ≠ now.hour ∧ readU32 bytes 12 + 1 ≠ now.hour) := by omega
    simp only [if_neg (not_lt.mpr hlength), hread, Option.bind_eq_bind, Option.bind_some,
      if_neg (not_lt.mpr hbytes), hfound, if_neg hadmitted]

namespace Keyring
variable {keyring : Keyring crypto} {name kid : List ℕ} {key : crypto.Key}

def Holds (keyring : Keyring crypto) (name : List ℕ) (key : crypto.Key) : Prop :=
  ∃ e ∈ keyring.config.entries, e.idKey = readU32 name 0 ∧ key = crypto.deriveSubkey e name

structure Lawful (keyring : Keyring crypto) : Prop where
  derived : keyring.config.Derived crypto
  cached : ∀ name key, keyring.subkeys.get name = some key → keyring.Holds name key

theorem lawful_create {config : KeyringConfig} (h : config.Derived crypto) :
    (create config : Keyring crypto).Lawful := ⟨h, nofun⟩

theorem config_cachedSubkey (keyring : Keyring crypto) (name : List ℕ) :
    (keyring.cachedSubkey name).1.config = keyring.config := by
  unfold cachedSubkey
  split <;> rfl

theorem config_remember : (keyring.remember name key).config = keyring.config := by
  unfold remember
  split <;> rfl

theorem Lawful.cachedSubkey (h : keyring.Lawful) : (keyring.cachedSubkey name).1.Lawful := by
  unfold Keyring.cachedSubkey
  split
  · next cached hcached =>
    refine ⟨h.derived, fun other key hget => ?_⟩
    rw [InsertionMap.get_set_delete] at hget
    split at hget
    · next heq =>
      rw [heq, ← Option.some.inj hget]
      exact h.cached name cached hcached
    · exact h.cached other key hget
  · exact h

theorem Lawful.of_cachedSubkey (h : keyring.Lawful)
    (hcached : (keyring.cachedSubkey name).2 = some key) : keyring.Holds name key := by
  unfold Keyring.cachedSubkey at hcached
  split at hcached
  · next cached hget => exact h.cached name key (hcached ▸ hget)
  · cases hcached

theorem Lawful.remember (h : keyring.Lawful) (hkey : keyring.Holds name key) :
    (keyring.remember name key).Lawful := by
  unfold Keyring.remember
  split
  · exact h
  · refine ⟨h.derived, fun other key' hget => ?_⟩
    rw [InsertionMap.get_set] at hget
    split at hget
    · next heq =>
      rw [heq, ← Option.some.inj hget]
      exact hkey
    · have hold : keyring.subkeys.get other = some key' := by
        split at hget
        · split at hget
          · rw [InsertionMap.get_delete] at hget
            split at hget
            · cases hget
            · exact hget
          · exact hget
        · exact hget
      exact h.cached other key' hold

theorem config_inHour (keyring : Keyring crypto) (hour : ℕ) :
    (keyring.inHour hour).config = keyring.config := by
  unfold inHour
  split <;> rfl

theorem Lawful.inHour (h : keyring.Lawful) (hour : ℕ) : (keyring.inHour hour).Lawful := by
  unfold Keyring.inHour
  split
  · exact h
  · exact ⟨h.derived, h.cached⟩

theorem Lawful.sealingKey (h : keyring.Lawful)
    (hkid : readU32 kid 0 = keyring.config.first.idKey) :
    (keyring.sealingKey kid).1.Lawful ∧ (keyring.sealingKey kid).1.config = keyring.config ∧
      (keyring.sealingKey kid).2 = crypto.deriveSubkey keyring.config.first kid := by
  have hfirst : keyring.config.first ∈ keyring.config.entries := List.mem_cons_self
  have hlawful : (keyring.cachedSubkey kid).1.Lawful := h.cachedSubkey
  have hconfig := config_cachedSubkey keyring kid
  unfold Keyring.sealingKey
  split
  · next next key heq =>
    rw [heq] at hlawful hconfig
    obtain ⟨e, he, hid, rfl⟩ := h.of_cachedSubkey (congrArg Prod.snd heq)
    rw [h.derived.eq_of_idKey he hfirst (hid.trans hkid)]
    exact ⟨hlawful, hconfig, rfl⟩
  · next next heq =>
    rw [heq] at hlawful hconfig
    simp only at hlawful hconfig
    refine ⟨hlawful.remember ⟨next.config.first, List.mem_cons_self, ?_, rfl⟩,
      config_remember.trans hconfig, by rw [hconfig]⟩
    rw [hconfig, hkid]

end Keyring

structure Sealing.Lawful (sealing : Sealing crypto) : Prop where
  derived : sealing.config.Derived crypto
  key : sealing.key = crypto.deriveSubkey sealing.config.first sealing.kid
  length_nonce : sealing.nonce.length = nonceBytes
  nonce_lt : ∀ b ∈ sealing.nonce, b < 256

structure Opening.Lawful (opening : Opening crypto) : Prop where
  derived : opening.config.Derived crypto
  admitted : opening.config.admitted opening.token opening.now =
    some (opening.entry, opening.bytes)
  key : opening.key = crypto.deriveSubkey opening.entry opening.kid

theorem readU32_kid {config : KeyringConfig} (h : config.Derived crypto) (hcrypto : crypto.Lawful)
    (rest : List ℕ) : readU32 (config.first.id ++ rest) 0 = config.first.idKey := by
  have hlength : config.first.id.length = 4 := h.length_id hcrypto List.mem_cons_self
  unfold SecretEntry.idKey readU32
  rw [List.drop_zero, List.drop_zero, List.take_append_of_le_length hlength.ge]

namespace Keyring
variable {keyring : Keyring crypto} {nonce : List ℕ} {opening : Opening crypto}

theorem Lawful.sealInput (h : keyring.Lawful) (hcrypto : crypto.Lawful) (input : GrantInput)
    (now : TimeValue) (hlength : nonce.length = nonceBytes) (hlt : ∀ b ∈ nonce, b < 256) :
    (keyring.sealInput input now nonce).1.Lawful ∧
      (keyring.sealInput input now nonce).1.config = keyring.config ∧
      ∀ sealing, (keyring.sealInput input now nonce).2 = some sealing →
        sealing.Lawful ∧ sealing.config = keyring.config := by
  have hhour := h.inHour now.hour
  have hconfig := config_inHour keyring now.hour
  unfold Keyring.sealInput
  simp only
  split
  · exact ⟨hhour, hconfig, nofun⟩
  · have hcounted : Lawful { keyring.inHour now.hour with
        seals := (keyring.inHour now.hour).seals + 1 } := ⟨hhour.derived, hhour.cached⟩
    have hkid : readU32 ((keyring.inHour now.hour).config.first.id ++
        (keyring.inHour now.hour).config.processId ++ writeU32 now.hour) 0 =
          (keyring.inHour now.hour).config.first.idKey := by
      rw [List.append_assoc]
      exact readU32_kid hhour.derived hcrypto _
    obtain ⟨hlawful, hkept, hkey⟩ := hcounted.sealingKey hkid
    refine ⟨hlawful, hkept.trans hconfig, ?_⟩
    rintro sealing hsealing
    obtain rfl := (Option.some.inj hsealing).symm
    refine ⟨⟨hlawful.derived, ?_, hlength, hlt⟩, hkept.trans hconfig⟩
    simp only [Sealing.kid, hkept]
    exact hkey

theorem Lawful.openToken (h : keyring.Lawful) (token : JSString) (now : TimeValue) :
    (keyring.openToken token now).1.Lawful ∧
      (keyring.openToken token now).1.config = keyring.config ∧
      match (keyring.openToken token now).2 with
      | none => keyring.config.admitted token now = none
      | some opening => opening.Lawful ∧ opening.config = keyring.config ∧
          opening.token = token ∧ opening.now = now := by
  have hlawful (name : List ℕ) : (keyring.cachedSubkey name).1.Lawful := h.cachedSubkey
  have hconfig (name : List ℕ) := config_cachedSubkey keyring name
  unfold Keyring.openToken
  split
  · next hnone => exact ⟨h, rfl, hnone⟩
  · next entry bytes hadmitted =>
    refine ⟨hlawful _, hconfig _, ⟨(hlawful _).derived, ?_, ?_⟩, hconfig _, rfl, rfl⟩
    · simp only [hconfig, hadmitted]
    · obtain ⟨-, -, -, hfound, -⟩ := admitted_iff.mp hadmitted
      obtain ⟨hentry, hid⟩ := KeyringConfig.Derived.of_byId hfound
      cases hcached : (keyring.cachedSubkey (bytes.take kidBytes)).2 with
      | none => rfl
      | some key =>
        obtain ⟨e, he, heid, rfl⟩ := h.of_cachedSubkey hcached
        rw [readU32_take (by decide)] at heid
        rw [h.derived.eq_of_idKey he hentry (heid.trans hid.symm)]
        rfl

theorem Lawful.decryptedUnder (h : keyring.Lawful) (hopening : opening.Lawful)
    (hconfig : opening.config = keyring.config) :
    (keyring.decryptedUnder opening).Lawful ∧
      (keyring.decryptedUnder opening).config = keyring.config := by
  obtain ⟨-, -, -, hfound, -⟩ := admitted_iff.mp hopening.admitted
  obtain ⟨hentry, hid⟩ := KeyringConfig.Derived.of_byId hfound
  unfold Keyring.decryptedUnder
  split
  · exact ⟨h, rfl⟩
  · refine ⟨h.remember ⟨opening.entry, hconfig ▸ hentry, ?_, hopening.key⟩, config_remember⟩
    rw [hid, Opening.kid, readU32_take (by decide)]

end Keyring

end Nifra.Live
