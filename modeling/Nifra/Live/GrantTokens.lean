import Nifra.Live.RevocationSafety
import Nifra.Text.Base64Url
import Nifra.Text.JSONUtf8
import Nifra.Text.Number

/-! # Grant tokens

`base64url(kid || nonce || AES-256-GCM(JSON claims))`: the first 16 octets name the secret, the
process and the hour, and are authenticated with the claims. What WebCrypto derives, encrypts and
decrypts is a parameter.
-/

namespace Nifra.Live

open JSON (Value)

def minSecretBytes : ℕ := 32
def maxSecrets : ℕ := 3
def maxGrantChars : ℕ := 10240
def kidBytes : ℕ := 16
def nonceBytes : ℕ := 12
def gcmTagBytes : ℕ := 16

/-- What a `Date` can hold from 1970 on, in milliseconds. -/
structure TimeValue where
  ms : ℕ
  le : ms ≤ 8640000000000000
  deriving DecidableEq, Repr

def TimeValue.seconds (t : TimeValue) : ℕ := t.ms / 1000
def TimeValue.hour (t : TimeValue) : ℕ := t.ms / 3600000

/-- HKDF over a base key, and AES-GCM with its key, nonce and associated data. -/
structure WebCrypto where
  Key : Type
  deriveBits : List ℕ → List ℕ → List ℕ → ℕ → List ℕ
  deriveKey : List ℕ → List ℕ → List ℕ → Key
  encrypt : Key → List ℕ → List ℕ → List ℕ → List ℕ
  decrypt : Key → List ℕ → List ℕ → List ℕ → Option (List ℕ)

structure WebCrypto.Lawful (crypto : WebCrypto) : Prop where
  length_deriveBits : ∀ base salt info n, (crypto.deriveBits base salt info n).length = n
  deriveBits_lt : ∀ base salt info n, ∀ b ∈ crypto.deriveBits base salt info n, b < 256
  decrypt_encrypt : ∀ key nonce data plain, (∀ b ∈ plain, b < 256) →
    crypto.decrypt key nonce data (crypto.encrypt key nonce data plain) = some plain
  length_encrypt : ∀ key nonce data plain,
    (crypto.encrypt key nonce data plain).length = plain.length + gcmTagBytes
  encrypt_lt : ∀ key nonce data plain, (∀ b ∈ plain, b < 256) →
    ∀ b ∈ crypto.encrypt key nonce data plain, b < 256

structure GrantInput where
  sid : JSString
  sub : Option JSString
  path : JSString
  frame : JSString
  owners : InsertionMap JSString GrantOwner
  s : ℕ
  r : ℕ
  units : ∀ text ∈ sid :: path :: frame :: (sub.toList ++ owners.keys), ∀ c ∈ text, c < 0x10000

/-- A hexadecimal digit of `SID_PATTERN`. -/
def isSidUnit (c : ℕ) : Bool := decide (48 ≤ c ∧ c ≤ 57 ∨ 97 ≤ c ∧ c ≤ 102)

def isSid (sid : JSString) : Bool := sid.isEmpty || decide (sid.length = 32) && sid.all isSidUnit

namespace GrantInput
variable (input : GrantInput)

def keyCount : ℕ := (input.owners.values.map fun owner => owner.k.length).sum

def valid : Bool :=
  isSid input.sid && isSafeInteger input.s && isSafeInteger input.r &&
    input.owners.values.all (fun owner => isSafeInteger owner.w) &&
    decide (input.keyCount ≤ maxKeysPerFrame)

end GrantInput

def GrantOwner.toValue (owner : GrantOwner) : Value :=
  .object [(js "k", .array (owner.k.map fun key => .string key.text)),
    (js "w", .number (decimal owner.w))]

def subjectValue : Option JSString → Value
  | none => .null
  | some sub => .string sub

def ownersValue (owners : InsertionMap JSString GrantOwner) : Value :=
  .object (owners.entries.map fun entry => (entry.1, entry.2.toValue))

def GrantInput.claims (input : GrantInput) (iat ttl : ℕ) (appId : JSString) : Value :=
  .object [(js "v", .number (decimal 1)), (js "sid", .string input.sid),
    (js "sub", subjectValue input.sub), (js "path", .string input.path),
    (js "frame", .string input.frame), (js "owners", ownersValue input.owners),
    (js "s", .number (decimal input.s)), (js "r", .number (decimal input.r)),
    (js "iat", .number (decimal iat)), (js "exp", .number (decimal (iat + ttl))),
    (js "aud", .string appId)]

def roundsToZero (p q : ℕ) : Bool := decide (2 ^ 1075 * p ≤ q)

def safeIntegerOf : Value → Option ℤ
  | .number text => do
    let (numeral, _) ← JSON.readNumeral text
    let digits := JSON.natOfDigits (numeral.integer ++ numeral.fraction)
    let exponent := numeral.exponent - numeral.fraction.length
    let p := digits * 10 ^ exponent.toNat
    let q := 10 ^ (-exponent).toNat
    if roundsToZero p q then some 0
    else match countOfQuotient p q with
      | 0 => none
      | n => some (if numeral.negative then -n else n)
  | _ => none

def textOf : Value → Option JSString
  | .string s => some s
  | _ => none

def isNullOrText : Value → Bool
  | .null => true
  | .string _ => true
  | _ => false

def isKeyText : Value → Bool
  | .string s => isKey s
  | _ => false

def keyCountOf (owner : Value) : Option ℕ :=
  match (property owner (js "w")).bind safeIntegerOf, property owner (js "k") with
  | some w, some (.array keys) => if 0 ≤ w ∧ keys.all isKeyText then some keys.length else none
  | _, _ => none

/-- `now` is in seconds. -/
def validClaims (value : Value) (appId : JSString) (ttl hour now : ℕ) : Bool :=
  let text name := (property value (js name)).bind textOf
  let number name := (property value (js name)).bind safeIntegerOf
  decide (number "v" = some 1) && decide (text "aud" = some appId) &&
    (text "sid").any isSid && (property value (js "sub")).any isNullOrText &&
    (text "path").isSome && (text "frame").isSome &&
    (number "s").any (fun s => decide (0 ≤ s)) && (number "r").any (fun r => decide (0 ≤ r)) &&
    match number "iat", number "exp", property value (js "owners") with
    | some iat, some exp, some (.object owners) =>
      decide (iat ≤ now + iatSkewSeconds) && decide (iat / 3600 = hour) &&
        decide (exp - iat = ttl ∧ now < exp) &&
        (owners.mapM fun owner => keyCountOf owner.2).any fun counts =>
          decide (counts.sum ≤ maxKeysPerFrame)
    | _, _, _ => false

def readU32 (bytes : List ℕ) (offset : ℕ) : ℕ :=
  ((bytes.drop offset).take 4).foldl (fun n b => 256 * n + b) 0

def writeU32 (value : ℕ) : List ℕ :=
  [value / 2 ^ 24 % 256, value / 2 ^ 16 % 256, value / 2 ^ 8 % 256, value % 256]

structure SecretEntry where
  index : ℕ
  base : List ℕ
  id : List ℕ
  deriving DecidableEq, Repr

def SecretEntry.idKey (entry : SecretEntry) : ℕ := readU32 entry.id 0

structure KeyringOptions where
  secret : JSString
  rotated : List JSString
  appId : JSString
  ttl : ℕ
  processId : List ℕ
  maxSealsPerSubkey : ℕ
  units : ∀ c ∈ appId, c < 0x10000
  octets : ∀ b ∈ processId, b < 256

structure KeyringConfig where
  first : SecretEntry
  rest : List SecretEntry
  appId : JSString
  ttl : ℕ
  processId : List ℕ
  maxSeals : ℕ
  deriving DecidableEq, Repr

namespace KeyringConfig
variable (config : KeyringConfig)

def entries : List SecretEntry := config.first :: config.rest

def byId (id : ℕ) : Option SecretEntry := config.entries.find? fun entry => entry.idKey = id

end KeyringConfig

def assertLiveSecrets (secrets : List JSString) : Except JSError Unit :=
  if secrets.length = 0 then throw (.typeError "[nifra/web] live: `secret` lists no secret")
  else if maxSecrets < secrets.length then
    throw (.typeError ("[nifra/web] live: `secret` lists " ++ toString secrets.length ++
      " secrets; at most 3 are allowed, since every publish goes out under each one. " ++
      "Remove a demoted secret once grantTtl plus the renewal window has passed."))
  else if secrets.any fun secret => (encodeUtf8 secret).length < minSecretBytes then
    throw (.typeError ("[nifra/web] live: every secret must be a string of at least 32 bytes " ++
      "(256-bit). Generate one with: openssl rand -base64 32"))
  else pure ()

def WebCrypto.deriveEntry (crypto : WebCrypto) (secret : JSString) (index : ℕ) : SecretEntry :=
  let base := encodeUtf8 secret
  ⟨index, base, (crypto.deriveBits base [] (encodeUtf8 (js "nifra live secret id v1")) 32).take 4⟩

def WebCrypto.deriveSubkey (crypto : WebCrypto) (entry : SecretEntry) (kid : List ℕ) : crypto.Key :=
  crypto.deriveKey entry.base kid (encodeUtf8 (js "nifra live grant v1"))

def createKeyring (crypto : WebCrypto) (options : KeyringOptions) :
    Except JSError KeyringConfig := do
  assertLiveSecrets (options.secret :: options.rotated)
  if options.processId.length ≠ 8 then
    throw (.typeError "[nifra/web] live: processId must be 8 bytes")
  let first := crypto.deriveEntry options.secret 0
  let rest := options.rotated.mapIdx fun i secret => crypto.deriveEntry secret (i + 1)
  if ((first :: rest).map SecretEntry.idKey).Nodup then
    pure ⟨first, rest, options.appId, options.ttl, options.processId, options.maxSealsPerSubkey⟩
  else
    throw (.typeError ("[nifra/web] live: two configured secrets share a secret id; " ++
      "replace one of them (a repeated secret does this too)"))

theorem readU32_append {front : List ℕ} {offset : ℕ} (h : front.length = offset) (rest : List ℕ)
    {value : ℕ} (hvalue : value < 2 ^ 32) :
    readU32 (front ++ writeU32 value ++ rest) offset = value := by
  subst h
  have htake : (writeU32 value ++ rest).take 4 = writeU32 value := by simp [writeU32]
  rw [readU32, List.append_assoc, List.drop_left, htake]
  simp only [writeU32, List.foldl_cons, List.foldl_nil]
  omega

theorem readU32_take {bytes : List ℕ} {n : ℕ} (h : 4 ≤ n) :
    readU32 (bytes.take n) 0 = readU32 bytes 0 := by
  rw [readU32, readU32, List.drop_zero, List.drop_zero, List.take_take, Nat.min_eq_left h]

theorem writeU32_lt (value : ℕ) : ∀ b ∈ writeU32 value, b < 256 := by
  intro b hb
  simp only [writeU32, List.mem_cons, List.not_mem_nil, or_false] at hb
  omega

theorem plainItems_of_forall {α : Type*} {f : α → Value} (h : ∀ x, JSON.Plain (f x)) (l : List α) :
    JSON.PlainItems (l.map f) := by
  induction l with
  | nil => exact .nil
  | cons x l ih => exact .cons (h x) ih

theorem plainFields_of_forall {α : Type*} {f : α → Value} (h : ∀ x, JSON.Plain (f x))
    (l : List (JSString × α)) : JSON.PlainFields (l.map fun entry => (entry.1, f entry.2)) := by
  induction l with
  | nil => exact .nil
  | cons entry l ih => exact .cons (h entry.2) ih

theorem plain_owner (owner : GrantOwner) : JSON.Plain owner.toValue := by
  have hnames : [js "k", js "w"].Nodup := by decide
  have hkeys := plainItems_of_forall (f := fun key : LiveKey => .string key.text) (fun _ => .string _)
    owner.k
  exact .object (.cons (.array hkeys) (.cons (.number _) .nil)) hnames

theorem plain_owners (owners : InsertionMap JSString GrantOwner) :
    JSON.Plain (ownersValue owners) := by
  refine .object (plainFields_of_forall plain_owner _) ?_
  rw [List.map_map]
  exact owners.nodup

theorem plain_subject (sub : Option JSString) : JSON.Plain (subjectValue sub) := by
  cases sub with
  | none => exact .null
  | some sub => exact .string sub

def claimNames : List JSString :=
  [js "v", js "sid", js "sub", js "path", js "frame", js "owners", js "s", js "r", js "iat",
    js "exp", js "aud"]

theorem plain_claims (input : GrantInput) (iat ttl : ℕ) (appId : JSString) :
    JSON.Plain (input.claims iat ttl appId) := by
  have hnames : claimNames.Nodup := by decide
  exact .object (.cons (.number 1) (.cons (.string _) (.cons (plain_subject _) (.cons (.string _)
    (.cons (.string _) (.cons (plain_owners _) (.cons (.number _) (.cons (.number _)
      (.cons (.number _) (.cons (.number _) (.cons (.string _) .nil))))))))))) hnames

theorem LiveKey.unit_lt {key : LiveKey} {c : ℕ} (hc : c ∈ key.text) : c < 0x10000 := by
  have hletter {c : ℕ} (h : isLetter c) : c < 0x10000 := by
    have := of_decide_eq_true h
    omega
  have hunit {c : ℕ} (h : isKeyUnit c) : c < 0x10000 := by
    rw [isKeyUnit, Bool.or_eq_true, Bool.or_eq_true] at h
    rcases h with (h | h) | h
    · exact hletter h
    · have := of_decide_eq_true h
      omega
    · have hall : ∀ c ∈ js "._:/-", c < 0x10000 := by decide
      exact hall c (List.contains_iff_mem.mp h)
  obtain ⟨text, hvalid⟩ := key
  cases text with
  | nil => cases hc
  | cons c rest =>
    rw [isKey, Bool.and_eq_true, Bool.and_eq_true] at hvalid
    obtain ⟨⟨hc', hrest⟩, -⟩ := hvalid
    rcases List.mem_cons.mp hc with rfl | hc
    · exact hletter hc'
    · exact hunit (List.all_eq_true.mp hrest _ hc)

theorem decimal_unit_lt {n c : ℕ} (h : c ∈ decimal n) : c < 0x10000 := by
  have := digit_of_mem_decimal h
  omega

open JSON (Units)

theorem units_cons {text : JSString} {texts : List JSString} (h : ∀ c ∈ text, c < 0x10000)
    (hs : Units texts) : Units (text :: texts) := List.forall_mem_cons.mpr ⟨h, hs⟩

theorem units_field {name : JSString} {value : Value} {fields : List (JSString × Value)}
    (hname : ∀ c ∈ name, c < 0x10000) (hvalue : Units value.texts)
    (hfields : Units (Value.textsOfFields fields)) :
    Units (Value.textsOfFields ((name, value) :: fields)) :=
  units_cons hname (JSON.units_append.mpr ⟨hvalue, hfields⟩)

theorem units_text {text : JSString} (h : ∀ c ∈ text, c < 0x10000) : Units [text] :=
  units_cons h nofun

theorem units_decimal (n : ℕ) : Units [decimal n] := units_text fun _ => decimal_unit_lt

theorem units_owner (owner : GrantOwner) : Units owner.toValue.texts := by
  have hkeys : Units (Value.textsOfItems (owner.k.map fun key => .string key.text)) := by
    induction owner.k with
    | nil => exact nofun
    | cons key keys ih => exact units_cons (fun _ => LiveKey.unit_lt) ih
  have hk : ∀ c ∈ js "k", c < 0x10000 := by decide
  have hw : ∀ c ∈ js "w", c < 0x10000 := by decide
  exact units_field hk hkeys (units_field hw (units_decimal _) nofun)

theorem units_owners {entries : List (JSString × GrantOwner)}
    (h : ∀ entry ∈ entries, ∀ c ∈ entry.1, c < 0x10000) :
    Units (Value.textsOfFields (entries.map fun entry => (entry.1, entry.2.toValue))) := by
  induction entries with
  | nil => exact nofun
  | cons entry entries ih =>
    obtain ⟨hentry, hentries⟩ := List.forall_mem_cons.mp h
    exact units_field hentry (units_owner entry.2) (ih hentries)

theorem units_claims (input : GrantInput) (iat ttl : ℕ) {appId : JSString}
    (happ : ∀ c ∈ appId, c < 0x10000) : Units (input.claims iat ttl appId).texts := by
  have hnames : ∀ name ∈ claimNames, ∀ c ∈ name, c < 0x10000 := by decide
  have hunits := input.units
  simp only [List.forall_mem_cons, List.forall_mem_append] at hunits
  obtain ⟨hsid, hpath, hframe, hsub, howners⟩ := hunits
  have hsubject : Units (subjectValue input.sub).texts := by
    cases heq : input.sub with
    | none => exact nofun
    | some sub => exact units_text (hsub sub (by simp [heq]))
  have hentries := units_owners (fun entry (hentry : entry ∈ input.owners.entries) =>
    howners entry.1 (List.mem_map_of_mem hentry))
  simp only [claimNames, List.forall_mem_cons] at hnames
  obtain ⟨hv, hsid', hsub', hpath', hframe', howners', hs, hr, hiat, hexp, haud, -⟩ := hnames
  exact units_field hv (units_decimal _) (units_field hsid' (units_text hsid)
    (units_field hsub' hsubject (units_field hpath' (units_text hpath)
      (units_field hframe' (units_text hframe) (units_field howners' hentries
        (units_field hs (units_decimal _) (units_field hr (units_decimal _)
          (units_field hiat (units_decimal _) (units_field hexp (units_decimal _)
            (units_field haud (units_text happ) nofun))))))))))

theorem read_claims (input : GrantInput) (iat ttl : ℕ) {appId : JSString}
    (happ : ∀ c ∈ appId, c < 0x10000) :
    (decodeUtf8Fatal (encodeUtf8 (input.claims iat ttl appId).stringify)).bind JSON.parse =
      some (input.claims iat ttl appId) := by
  have hplain := plain_claims input iat ttl appId
  have hwell := JSON.wellFormed_stringify hplain.printed (units_claims input iat ttl happ)
  have hhead : (input.claims iat ttl appId).stringify.head? = some 123 := rfl
  have hmark : (input.claims iat ttl appId).stringify.head? ≠ some 0xFEFF := by
    rw [hhead]
    decide
  rw [decodeUtf8Fatal_encodeUtf8 hwell hmark, Option.bind_some, JSON.parse_stringify hplain]

theorem roundsToZero_one (n : ℕ) : roundsToZero n 1 = decide (n = 0) := by
  have hscale (scale : ℕ) (h : 1 < scale) : scale * n ≤ 1 ↔ n = 0 := by
    constructor
    · intro hle
      by_contra hn
      have hge : scale ≤ scale * n := Nat.le_mul_of_pos_right scale (Nat.pos_of_ne_zero hn)
      omega
    · rintro rfl
      omega
  have hpow (e : ℕ) (he : e ≠ 0) : 1 < 2 ^ e := Nat.one_lt_two_pow he
  exact decide_eq_decide.mpr (hscale _ (hpow _ (by decide)))

theorem safeIntegerOf_decimal (n : ℕ) :
    safeIntegerOf (.number (decimal n)) = if isSafeInteger n then some (n : ℤ) else none := by
  have hread : JSON.readNumeral (decimal n ++ []) = some (⟨false, decimal n, [], 0⟩, []) :=
    JSON.readNumeral_decimal n nofun
  rw [List.append_nil] at hread
  have hcount : countOfQuotient n 1 = if isSafeInteger n then n else 0 := by
    simp [countOfQuotient, countOfNat]
  simp only [safeIntegerOf, hread, Option.bind_eq_bind, Option.bind_some, List.append_nil,
    JSON.natOfDigits_decimal, List.length_nil, Nat.cast_zero, Int.sub_zero, neg_zero,
    Int.toNat_zero, pow_zero, Nat.mul_one, hcount, roundsToZero_one]
  cases n with
  | zero => rfl
  | succ n =>
    rw [decide_eq_false n.succ_ne_zero]
    cases isSafeInteger (n + 1) <;> rfl

theorem keyCountOf_owner (owner : GrantOwner) : keyCountOf owner.toValue =
    if isSafeInteger owner.w then some owner.k.length else none := by
  have hw : property owner.toValue (js "w") = some (.number (decimal owner.w)) := rfl
  have hk : property owner.toValue (js "k") =
    some (.array (owner.k.map fun key => .string key.text)) := rfl
  have hkeys : (owner.k.map fun key => Value.string key.text).all isKeyText := by
    rw [List.all_map, List.all_eq_true]
    exact fun key _ => key.valid
  simp only [keyCountOf, hw, hk, Option.bind_some, safeIntegerOf_decimal]
  cases isSafeInteger owner.w with
  | false => rfl
  | true =>
    rw [if_pos rfl, if_pos rfl]
    simp only
    rw [if_pos ⟨Int.natCast_nonneg _, hkeys⟩, List.length_map]

theorem mapM_keyCountOf (entries : List (JSString × GrantOwner)) :
    ((entries.map fun entry => (entry.1, entry.2.toValue)).mapM fun owner => keyCountOf owner.2) =
      if entries.all fun entry => isSafeInteger entry.2.w then
        some (entries.map fun entry => entry.2.k.length) else none := by
  induction entries with
  | nil => rfl
  | cons entry entries ih =>
    simp only [List.map_cons, List.mapM_cons, keyCountOf_owner, ih, List.all_cons]
    cases isSafeInteger entry.2.w <;>
      cases entries.all fun entry => isSafeInteger entry.2.w <;> rfl

theorem validClaims_claims (input : GrantInput) (iat ttl : ℕ) (appId : JSString)
    (appId' : JSString) (ttl' hour now : ℕ) :
    validClaims (input.claims iat ttl appId) appId' ttl' hour now ↔
      appId = appId' ∧ ttl = ttl' ∧ input.valid ∧ isSafeInteger iat ∧ isSafeInteger (iat + ttl) ∧
        iat ≤ now + 60 ∧ iat / 3600 = hour ∧ now < iat + ttl := by
  have hv : property (input.claims iat ttl appId) (js "v") = some (.number (decimal 1)) := rfl
  have hsid : property (input.claims iat ttl appId) (js "sid") = some (.string input.sid) := rfl
  have hsub : property (input.claims iat ttl appId) (js "sub") =
    some (subjectValue input.sub) := rfl
  have hpath : property (input.claims iat ttl appId) (js "path") =
    some (.string input.path) := rfl
  have hframe : property (input.claims iat ttl appId) (js "frame") =
    some (.string input.frame) := rfl
  have howners : property (input.claims iat ttl appId) (js "owners") =
    some (ownersValue input.owners) := rfl
  have hs : property (input.claims iat ttl appId) (js "s") =
    some (.number (decimal input.s)) := rfl
  have hr : property (input.claims iat ttl appId) (js "r") =
    some (.number (decimal input.r)) := rfl
  have hiat : property (input.claims iat ttl appId) (js "iat") = some (.number (decimal iat)) := rfl
  have hexp : property (input.claims iat ttl appId) (js "exp") =
    some (.number (decimal (iat + ttl))) := rfl
  have haud : property (input.claims iat ttl appId) (js "aud") = some (.string appId) := rfl
  have hnull : isNullOrText (subjectValue input.sub) := by
    cases input.sub <;> rfl
  have hone : (if isSafeInteger 1 then some ((1 : ℕ) : ℤ) else none) = some 1 := rfl
  simp only [validClaims, hv, hsid, hsub, hpath, hframe, howners, hs, hr, hiat, hexp, haud,
    Option.bind_some, safeIntegerOf_decimal, hone, textOf, Option.any_some, hnull, ownersValue,
    Option.isSome_some, Bool.and_true, GrantInput.valid]
  have hw : input.owners.values.all (fun owner => isSafeInteger owner.w) =
      input.owners.entries.all fun entry => isSafeInteger entry.2.w := by
    rw [InsertionMap.values, List.all_map]
    rfl
  have hkeys : input.keyCount = (input.owners.entries.map fun entry => entry.2.k.length).sum := by
    rw [GrantInput.keyCount, InsertionMap.values, List.map_map]
    rfl
  rw [hw, hkeys]
  cases hs' : isSafeInteger input.s
  · simp
  cases hr' : isSafeInteger input.r
  · simp
  cases hiat' : isSafeInteger iat
  · simp
  cases hexp' : isSafeInteger (iat + ttl)
  · simp
  simp only [if_true, mapM_keyCountOf]
  cases hall : input.owners.entries.all fun entry => isSafeInteger entry.2.w
  · simp
  have hskew : (iat : ℤ) ≤ now + iatSkewSeconds ↔ iat ≤ now + 60 := by
    unfold iatSkewSeconds
    omega
  have hhour : (iat : ℤ) / 3600 = hour ↔ iat / 3600 = hour := by omega
  have httl : ((iat + ttl : ℕ) : ℤ) - iat = ttl' ∧ (now : ℤ) < (iat + ttl : ℕ) ↔
      ttl = ttl' ∧ now < iat + ttl := by omega
  simp only [if_true, Option.any_some, Bool.and_eq_true, decide_eq_true_eq, Option.some.injEq,
    hskew, hhour, httl, Int.natCast_nonneg, true_and, and_true]
  tauto

end Nifra.Live
