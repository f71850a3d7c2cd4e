import Nifra.Live.KeyringSafety

/-! # Grants open as they were sealed

Under an ideal cipher a token that opens was sealed, with the claims that it opens to. A token is
open for its whole life, except on a clock that is still in an earlier hour than the one of its
seal.
-/

namespace Nifra.Live

open JSON (Value)
open Runs

variable {crypto : WebCrypto}

/-- What `open` returns when every subkey is derived. -/
def KeyringConfig.answer (crypto : WebCrypto) (config : KeyringConfig) (token : JSString)
    (now : TimeValue) : Option OpenedValue :=
  (config.admitted token now).bind fun (entry, bytes) =>
    let key := crypto.deriveSubkey entry (bytes.take kidBytes)
    let opening : Opening crypto := ⟨config, token, now, entry, bytes, key, false⟩
    opening.decrypted.bind opening.grantOf

theorem Opening.Lawful.answer {opening : Opening crypto} (h : opening.Lawful) :
    opening.config.answer crypto opening.token opening.now =
      opening.decrypted.bind opening.grantOf := by
  have hkey : crypto.deriveSubkey opening.entry (opening.bytes.take kidBytes) = opening.key :=
    h.key.symm
  simp only [KeyringConfig.answer, h.admitted, Option.bind_some, hkey]
  rfl

theorem fromBase64Url_injective {x y : JSString} {bytes : List ℕ}
    (hx : fromBase64Url x = some bytes) (hy : fromBase64Url y = some bytes) : x = y := by
  rw [← toBase64Url_fromBase64Url hx, toBase64Url_fromBase64Url hy]

namespace Sealing
variable {sealing other : Sealing crypto} {token : JSString}

def bytes (sealing : Sealing crypto) : List ℕ :=
  sealing.kid ++ sealing.nonce ++ sealing.encrypted

theorem token_eq_some : sealing.token = some token ↔
    toBase64Url sealing.bytes = token ∧ token.length ≤ maxGrantChars := by
  unfold Sealing.token
  simp only
  split
  · next hlong =>
    constructor
    · intro h
      cases h
    · rintro ⟨rfl, hlength⟩
      exact absurd hlong (not_lt.mpr hlength)
  · next hlength =>
    constructor
    · intro h
      obtain rfl := Option.some.inj h
      exact ⟨rfl, not_lt.mp hlength⟩
    · rintro ⟨rfl, -⟩
      rfl

theorem Lawful.length_kid (h : sealing.Lawful) (hcrypto : crypto.Lawful) :
    sealing.kid.length = kidBytes := by
  have hid := h.derived.length_id hcrypto List.mem_cons_self
  have hprocess := h.derived.processId
  simp only [Sealing.kid, List.length_append, hid, hprocess]
  rfl

theorem Lawful.bytes_lt (h : sealing.Lawful) (hcrypto : crypto.Lawful) :
    ∀ b ∈ sealing.bytes, b < 256 := by
  simp only [Sealing.bytes, Sealing.kid, List.forall_mem_append]
  exact ⟨⟨⟨⟨h.derived.id_lt hcrypto List.mem_cons_self, h.derived.octets⟩, writeU32_lt _⟩,
    h.nonce_lt⟩, hcrypto.encrypt_lt _ _ _ _ (encodeUtf8_lt _)⟩

theorem Lawful.length_bytes (h : sealing.Lawful) (hcrypto : crypto.Lawful) :
    kidBytes + nonceBytes + gcmTagBytes ≤ sealing.bytes.length := by
  simp only [Sealing.bytes, List.length_append, h.length_kid hcrypto, h.length_nonce,
    Sealing.encrypted, hcrypto.length_encrypt]
  omega

theorem Lawful.fromBase64Url_token (h : sealing.Lawful) (hcrypto : crypto.Lawful)
    (htoken : sealing.token = some token) : fromBase64Url token = some sealing.bytes := by
  obtain ⟨rfl, -⟩ := token_eq_some.mp htoken
  refine fromBase64Url_toBase64Url (h.bytes_lt hcrypto) fun hnil => ?_
  have hlength := h.length_bytes hcrypto
  rw [hnil] at hlength
  exact absurd hlength (by decide)

theorem Lawful.take_bytes (h : sealing.Lawful) (hcrypto : crypto.Lawful) :
    sealing.bytes.take kidBytes = sealing.kid := by
  rw [Sealing.bytes, List.append_assoc, List.take_left' (h.length_kid hcrypto)]

theorem Lawful.nonce_bytes (h : sealing.Lawful) (hcrypto : crypto.Lawful) :
    (sealing.bytes.drop kidBytes).take nonceBytes = sealing.nonce := by
  rw [Sealing.bytes, List.append_assoc, List.drop_left' (h.length_kid hcrypto),
    List.take_left' h.length_nonce]

theorem Lawful.encrypted_bytes (h : sealing.Lawful) (hcrypto : crypto.Lawful) :
    sealing.bytes.drop (kidBytes + nonceBytes) = sealing.encrypted := by
  have hlength : (sealing.kid ++ sealing.nonce).length = kidBytes + nonceBytes := by
    rw [List.length_append, h.length_kid hcrypto, h.length_nonce]
  rw [Sealing.bytes, List.drop_left' hlength]

theorem Lawful.id_bytes (h : sealing.Lawful) (hcrypto : crypto.Lawful) :
    readU32 sealing.bytes 0 = sealing.config.first.idKey := by
  rw [Sealing.bytes, Sealing.kid, List.append_assoc, List.append_assoc, List.append_assoc]
  exact readU32_kid h.derived hcrypto _

theorem Lawful.hour_bytes (h : sealing.Lawful) (hcrypto : crypto.Lawful) :
    readU32 sealing.bytes 12 = sealing.now.hour := by
  have hid := h.derived.length_id hcrypto List.mem_cons_self
  have hfront : (sealing.config.first.id ++ sealing.config.processId).length = 12 := by
    rw [List.length_append, hid, h.derived.processId]
  have hhour : sealing.now.hour < 2 ^ 32 := by
    have := sealing.now.le
    unfold TimeValue.hour
    omega
  rw [Sealing.bytes, Sealing.kid, List.append_assoc]
  exact readU32_append hfront _ hhour

theorem deriveSubkey_congr {e f : SecretEntry} (h : e.base = f.base) (kid : List ℕ) :
    crypto.deriveSubkey e kid = crypto.deriveSubkey f kid := by
  rw [WebCrypto.deriveSubkey, WebCrypto.deriveSubkey, h]

theorem Lawful.grantOf_plain (h : sealing.Lawful) (opening : Opening crypto) :
    opening.grantOf sealing.plain =
      if validClaims sealing.claims opening.config.appId opening.config.ttl
          (readU32 opening.bytes 12) opening.now.seconds then
        some ⟨sealing.claims, opening.entry.index⟩ else none := by
  have hread : (decodeUtf8Fatal sealing.plain).bind JSON.parse = some sealing.claims :=
    read_claims sealing.input sealing.now.seconds sealing.config.ttl h.derived.units
  obtain ⟨text, htext, hparse⟩ := Option.bind_eq_some_iff.mp hread
  simp only [Opening.grantOf, htext, hparse, Option.bind_eq_bind, Option.bind_some]

theorem Lawful.answer (h : sealing.Lawful) (hcrypto : crypto.Lawful)
    (htoken : sealing.token = some token) {config : KeyringConfig} (hconfig : config.Derived crypto)
    {e : SecretEntry} (he : e ∈ config.entries) (hbase : e.base = sealing.config.first.base)
    (now : TimeValue) : config.answer crypto token now =
      if (sealing.now.hour = now.hour ∨ sealing.now.hour + 1 = now.hour) ∧
          validClaims sealing.claims config.appId config.ttl sealing.now.hour now.seconds then
        some ⟨sealing.claims, e.index⟩ else none := by
  have hid : e.idKey = sealing.config.first.idKey := by
    rw [SecretEntry.idKey, SecretEntry.idKey, hconfig.id e he,
      h.derived.id _ List.mem_cons_self, hbase]
  have hfound := hconfig.byId_idKey he
  rw [hid] at hfound
  by_cases hhour : sealing.now.hour = now.hour ∨ sealing.now.hour + 1 = now.hour
  · have hadmitted : config.admitted token now = some (e, sealing.bytes) := by
      rw [admitted_iff, h.id_bytes hcrypto, h.hour_bytes hcrypto]
      exact ⟨(token_eq_some.mp htoken).2, h.fromBase64Url_token hcrypto htoken,
        h.length_bytes hcrypto, hfound, hhour⟩
    simp only [KeyringConfig.answer, hadmitted, Option.bind_some, Opening.decrypted, Opening.kid,
      Opening.nonce, Opening.encrypted, h.take_bytes hcrypto, h.nonce_bytes hcrypto,
      h.encrypted_bytes hcrypto, deriveSubkey_congr hbase, ← h.key]
    have hoctets : ∀ b ∈ sealing.plain, b < 256 := encodeUtf8_lt _
    rw [Sealing.encrypted, hcrypto.decrypt_encrypt _ _ _ _ hoctets, Option.bind_some,
      h.grantOf_plain]
    simp only [hhour, true_and, h.hour_bytes hcrypto]
  · rw [if_neg fun hcond => hhour hcond.1]
    cases hadmitted : config.admitted token now with
    | none => rw [KeyringConfig.answer, hadmitted, Option.bind_none]
    | some admitted =>
      obtain ⟨-, hread, -, -, hadmittedHour⟩ := admitted_iff.mp hadmitted
      rw [h.fromBase64Url_token hcrypto htoken] at hread
      rw [← Option.some.inj hread, h.hour_bytes hcrypto] at hadmittedHour
      exact absurd hadmittedHour hhour

theorem Lawful.answer_iff (h : sealing.Lawful) (hcrypto : crypto.Lawful)
    (htoken : sealing.token = some token) (hvalid : sealing.input.valid) {config : KeyringConfig}
    (hconfig : config.Derived crypto) {e : SecretEntry} (he : e ∈ config.entries)
    (hbase : e.base = sealing.config.first.base) (happ : config.appId = sealing.config.appId)
    (httl : config.ttl = sealing.config.ttl) (hhour : sealing.config.ttl ≤ 3600) {now : TimeValue}
    (hskew : sealing.now.seconds ≤ now.seconds + 60)
    (halive : now.seconds < sealing.now.seconds + sealing.config.ttl) :
    config.answer crypto token now = some ⟨sealing.claims, e.index⟩ ↔
      sealing.now.hour ≤ now.hour := by
  have hle := sealing.now.le
  have hsafe {n : ℕ} (hn : n ≤ 2 ^ 53 - 1) : isSafeInteger n := decide_eq_true hn
  have hclaims : validClaims sealing.claims config.appId config.ttl sealing.now.hour
      now.seconds := by
    refine (validClaims_claims _ _ _ _ _ _ _ _).mpr
      ⟨happ.symm, httl.symm, hvalid, hsafe ?_, hsafe ?_, hskew, ?_, halive⟩
    · unfold TimeValue.seconds
      omega
    · unfold TimeValue.seconds
      omega
    · unfold TimeValue.seconds TimeValue.hour
      omega
  have hhours : sealing.now.hour = now.hour ∨ sealing.now.hour + 1 = now.hour ↔
      sealing.now.hour ≤ now.hour := by
    unfold TimeValue.seconds at halive
    unfold TimeValue.hour
    omega
  rw [h.answer hcrypto htoken hconfig he hbase]
  simp only [hclaims, and_true, hhours]
  constructor
  · intro hopened
    by_contra hlate
    rw [if_neg hlate] at hopened
    cases hopened
  · intro hlate
    rw [if_pos hlate]

end Sealing

/-- What decrypts was encrypted, under the same subkey and with the same nonce and kid. -/
def Opening.Encrypted (opening : Opening crypto) (sealed : List (Sealing crypto)) : Prop :=
  opening.decrypted.isSome → ∃ sealing ∈ sealed, sealing.key = opening.key ∧
    sealing.nonce = opening.nonce ∧ sealing.kid = opening.kid ∧
      sealing.encrypted = opening.encrypted

/-- An ideal cipher: nobody comes up with what was never encrypted. -/
def Fleet.Ideal (w : Fleet crypto) : FleetAction → Prop
  | .decrypt j => ∀ opening ∈ w.opening[j]?, opening.2.Encrypted w.sealed
  | _ => True

def OpenAnswer.Sealed (answer : OpenAnswer) (sealed : List (Sealing crypto)) : Prop :=
  answer.opened.isSome → ∃ sealing ∈ sealed, sealing.token = some answer.token

theorem OpenAnswer.Sealed.mono {answer : OpenAnswer} {sealed more : List (Sealing crypto)}
    (h : answer.Sealed sealed) (hsub : ∀ sealing ∈ sealed, sealing ∈ more) :
    answer.Sealed more := by
  intro hopened
  obtain ⟨sealing, hmem, htoken⟩ := h hopened
  exact ⟨sealing, hsub sealing hmem, htoken⟩

theorem Opening.Lawful.sealed {opening : Opening crypto} (h : opening.Lawful)
    {sealed : List (Sealing crypto)} (hencrypted : opening.Encrypted sealed)
    (hdecrypted : opening.decrypted.isSome) :
    ∃ sealing ∈ sealed, sealing.token = some opening.token := by
  obtain ⟨sealing, hmem, -, hnonce, hkid, htext⟩ := hencrypted hdecrypted
  obtain ⟨hlength, hread, -⟩ := admitted_iff.mp h.admitted
  have hbytes : sealing.bytes = opening.bytes := by
    rw [Sealing.bytes, hnonce, hkid, htext, Opening.kid, Opening.nonce, Opening.encrypted,
      List.append_assoc, ← List.drop_drop, List.take_append_drop, List.take_append_drop]
  refine ⟨sealing, hmem, Sealing.token_eq_some.mpr ⟨?_, hlength⟩⟩
  rw [hbytes]
  exact toBase64Url_fromBase64Url hread

namespace Fleet
variable {w next : Fleet crypto}

/-- Calls belong to keyrings, and answers are what the configuration makes of the token. -/
structure Sound (w : Fleet crypto) : Prop where
  keyrings : ∀ keyring ∈ w.keyrings, keyring.Lawful
  sealing : ∀ sealing ∈ w.sealing ++ w.sealed, sealing.Lawful ∧
    sealing.config ∈ w.keyrings.map Keyring.config
  opening : ∀ opening ∈ w.opening, opening.2.Lawful ∧
    (w.keyrings.map Keyring.config)[opening.1]? = some opening.2.config
  answers : ∀ answer ∈ w.answers, answer.config ∈ w.keyrings.map Keyring.config ∧
    answer.opened = answer.config.answer crypto answer.token answer.now ∧ answer.Sealed w.sealed

theorem sound_empty : (empty : Fleet crypto).Sound := ⟨nofun, nofun, nofun, nofun⟩

theorem configs_set {i : ℕ} {keyring after : Keyring crypto} (h : w.keyrings[i]? = some keyring)
    (hconfig : after.config = keyring.config) :
    (w.keyrings.set i after).map Keyring.config = w.keyrings.map Keyring.config := by
  rw [List.map_set, hconfig]
  refine List.ext_getElem? fun j => ?_
  rw [List.getElem?_set]
  split
  · next heq =>
    subst heq
    have hlt : i < w.keyrings.length := (List.getElem?_eq_some_iff.mp h).1
    rw [List.length_map, if_pos hlt, List.getElem?_map, h]
    rfl
  · rfl

theorem Sound.set (h : w.Sound) {i : ℕ} {keyring after : Keyring crypto}
    (hkeyring : w.keyrings[i]? = some keyring) (hlawful : after.Lawful)
    (hconfig : after.config = keyring.config) :
    Sound { w with keyrings := w.keyrings.set i after } where
  keyrings := by
    intro other hother
    rcases List.mem_or_eq_of_mem_set hother with hother | rfl
    · exact h.keyrings other hother
    · exact hlawful
  sealing := by
    simp only [configs_set hkeyring hconfig]
    exact h.sealing
  opening := by
    simp only [configs_set hkeyring hconfig]
    exact h.opening
  answers := by
    simp only [configs_set hkeyring hconfig]
    exact h.answers

theorem Sound.issue (h : w.Sound) {sealing : List (Sealing crypto)}
    (hsealing : ∀ s ∈ sealing, s.Lawful ∧ s.config ∈ w.keyrings.map Keyring.config) :
    Sound { w with sealing := w.sealing ++ sealing } where
  keyrings := h.keyrings
  sealing := by
    intro s hs
    rcases List.mem_append.mp hs with hs | hs
    · rcases List.mem_append.mp hs with hs | hs
      · exact h.sealing s (List.mem_append_left _ hs)
      · exact hsealing s hs
    · exact h.sealing s (List.mem_append_right _ hs)
  opening := h.opening
  answers := h.answers

theorem Sound.encrypt (h : w.Sound) {j : ℕ} {sealing : Sealing crypto}
    (hsealing : w.sealing[j]? = some sealing) :
    Sound { w with
      sealing := w.sealing.eraseIdx j,
      sealed := w.sealed ++ [sealing] } where
  keyrings := h.keyrings
  sealing := by
    intro s hs
    rcases List.mem_append.mp hs with hs | hs
    · exact h.sealing s (List.mem_append_left _ (List.mem_of_mem_eraseIdx hs))
    · rcases List.mem_append.mp hs with hs | hs
      · exact h.sealing s (List.mem_append_right _ hs)
      · rw [List.mem_singleton.mp hs]
        exact h.sealing sealing (List.mem_append_left _ (List.mem_of_getElem? hsealing))
  opening := h.opening
  answers := by
    intro answer hanswer
    obtain ⟨hconfig, hopened, hsealed⟩ := h.answers answer hanswer
    exact ⟨hconfig, hopened, hsealed.mono fun s hs => List.mem_append_left _ hs⟩

theorem Sound.answer (h : w.Sound) {answer : OpenAnswer}
    (hconfig : answer.config ∈ w.keyrings.map Keyring.config)
    (hopened : answer.opened = answer.config.answer crypto answer.token answer.now)
    (hsealed : answer.Sealed w.sealed) : Sound { w with answers := w.answers ++ [answer] } where
  keyrings := h.keyrings
  sealing := h.sealing
  opening := h.opening
  answers := by
    intro other hother
    rcases List.mem_append.mp hother with hother | hother
    · exact h.answers other hother
    · rw [List.mem_singleton.mp hother]
      exact ⟨hconfig, hopened, hsealed⟩

theorem Sound.create (h : w.Sound) {config : KeyringConfig} (hconfig : config.Derived crypto) :
    Sound { w with keyrings := w.keyrings ++ [.create config] } where
  keyrings := by
    intro keyring hkeyring
    rcases List.mem_append.mp hkeyring with hkeyring | hkeyring
    · exact h.keyrings keyring hkeyring
    · rw [List.mem_singleton.mp hkeyring]
      exact Keyring.lawful_create hconfig
  sealing := by
    intro sealing hsealing
    obtain ⟨hlawful, hmem⟩ := h.sealing sealing hsealing
    rw [List.map_append]
    exact ⟨hlawful, List.mem_append_left _ hmem⟩
  opening := by
    intro opening hopening
    obtain ⟨hlawful, hget⟩ := h.opening opening hopening
    rw [List.map_append, List.getElem?_append_left (List.getElem?_eq_some_iff.mp hget).1]
    exact ⟨hlawful, hget⟩
  answers := by
    intro answer hanswer
    obtain ⟨hmem, hanswered⟩ := h.answers answer hanswer
    rw [List.map_append]
    exact ⟨List.mem_append_left _ hmem, hanswered⟩

theorem Sound.present (h : w.Sound) {i : ℕ} {opening : Opening crypto}
    (hlawful : opening.Lawful)
    (hget : (w.keyrings.map Keyring.config)[i]? = some opening.config) :
    Sound { w with opening := w.opening ++ [(i, opening)] } where
  keyrings := h.keyrings
  sealing := h.sealing
  opening := by
    intro other hother
    rcases List.mem_append.mp hother with hother | hother
    · exact h.opening other hother
    · rw [List.mem_singleton.mp hother]
      exact ⟨hlawful, hget⟩
  answers := h.answers

theorem Sound.erase (h : w.Sound) (j : ℕ) :
    Sound { w with opening := w.opening.eraseIdx j } where
  keyrings := h.keyrings
  sealing := h.sealing
  opening := fun other hother => h.opening other (List.mem_of_mem_eraseIdx hother)
  answers := h.answers

theorem config_mem {i : ℕ} {keyring : Keyring crypto} (h : w.keyrings[i]? = some keyring) :
    keyring.config ∈ w.keyrings.map Keyring.config :=
  List.mem_map_of_mem (List.mem_of_getElem? h)

theorem config_get {i : ℕ} {keyring : Keyring crypto} (h : w.keyrings[i]? = some keyring) :
    (w.keyrings.map Keyring.config)[i]? = some keyring.config := by
  rw [List.getElem?_map, h]
  rfl

theorem Sound.step (hcrypto : crypto.Lawful) (h : w.Sound) {action : FleetAction}
    (hideal : w.Ideal action) (hstep : w.step action = some next) : next.Sound := by
  cases action with
  | create options =>
    simp only [Fleet.step] at hstep
    split at hstep
    · cases hstep
    · next config hconfig =>
      obtain rfl := Option.some.inj hstep
      exact h.create (derived_createKeyring hconfig)
  | issue i input now nonce =>
    obtain ⟨keyring, hkeyring, hstep⟩ := Option.bind_eq_some_iff.mp hstep
    split at hstep
    · next hnonce =>
      obtain rfl := Option.some.inj hstep
      have hlawful := h.keyrings keyring (List.mem_of_getElem? hkeyring)
      obtain ⟨hafter, hconfig, hsealing⟩ :=
        hlawful.sealInput hcrypto input now hnonce.1 hnonce.2
      refine (h.set hkeyring hafter hconfig).issue fun s hs => ?_
      obtain ⟨hs, hsconfig⟩ := hsealing s (Option.mem_toList.mp hs)
      rw [configs_set hkeyring hconfig, hsconfig]
      exact ⟨hs, config_mem hkeyring⟩
    · cases hstep
  | encrypt j =>
    obtain ⟨sealing, hsealing, hstep⟩ := Option.bind_eq_some_iff.mp hstep
    obtain rfl := Option.some.inj hstep
    exact h.encrypt hsealing
  | present i token now =>
    obtain ⟨keyring, hkeyring, hstep⟩ := Option.bind_eq_some_iff.mp hstep
    have hlawful := h.keyrings keyring (List.mem_of_getElem? hkeyring)
    obtain ⟨hafter, hconfig, hopening⟩ := hlawful.openToken token now
    split at hstep
    · next after opening heq =>
      obtain rfl := Option.some.inj hstep
      rw [heq] at hafter hconfig hopening
      obtain ⟨hopened, hsame, -⟩ := hopening
      refine (h.set hkeyring hafter hconfig).present hopened ?_
      rw [configs_set hkeyring hconfig, hsame]
      exact config_get hkeyring
    · next after heq =>
      obtain rfl := Option.some.inj hstep
      rw [heq] at hopening
      refine h.answer (config_mem hkeyring) ?_ nofun
      simp only [KeyringConfig.answer]
      rw [hopening, Option.bind_none]
  | decrypt j =>
    obtain ⟨⟨i, opening⟩, hopening, hstep⟩ := Option.bind_eq_some_iff.mp hstep
    obtain ⟨hlawful, hget⟩ := h.opening _ (List.mem_of_getElem? hopening)
    have hanswer := hlawful.answer
    have herased := h.erase j
    simp only at hstep
    split at hstep
    · next hnone =>
      obtain rfl := Option.some.inj hstep
      refine herased.answer (List.mem_of_getElem? hget) ?_ nofun
      rw [hanswer, hnone, Option.bind_none]
    · next plain hplain =>
      obtain ⟨keyring, hkeyring, hstep⟩ := Option.bind_eq_some_iff.mp hstep
      obtain rfl := Option.some.inj hstep
      have hconfig : opening.config = keyring.config := by
        rw [config_get hkeyring] at hget
        exact (Option.some.inj hget).symm
      obtain ⟨hafter, hsame⟩ := (h.keyrings keyring (List.mem_of_getElem? hkeyring)).decryptedUnder
        hlawful hconfig
      refine (herased.set hkeyring hafter hsame).answer ?_ ?_ ?_
      · rw [configs_set (w := { w with opening := w.opening.eraseIdx j }) hkeyring hsame]
        exact List.mem_of_getElem? hget
      · rw [hanswer, hplain, Option.bind_some]
      · intro _
        exact hlawful.sealed (hideal _ hopening) (by rw [hplain]; rfl)

theorem Sound.run (hcrypto : crypto.Lawful) {acts : List FleetAction}
    (hrun : run Fleet.step .empty acts = some w)
    (hideal : Along Fleet.step Ideal (empty : Fleet crypto) acts) : w.Sound :=
  run_invariant_along (fun _ _ _ h hideal hstep => h.step hcrypto hideal hstep) hrun hideal
    sound_empty

def DistinctIds (w : Fleet crypto) : Prop :=
  ∀ c ∈ w.keyrings.map Keyring.config, ∀ d ∈ w.keyrings.map Keyring.config,
    ∀ e ∈ c.entries, ∀ f ∈ d.entries, e.idKey = f.idKey → e.base = f.base

theorem alive_of_opened (hcrypto : crypto.Lawful) (h : w.Sound) (hids : w.DistinctIds)
    {answer : OpenAnswer} (hanswer : answer ∈ w.answers) (hopened : answer.opened.isSome)
    {s : Sealing crypto} (hs : s ∈ w.sealed) (htoken : s.token = some answer.token) :
    answer.config.appId = s.config.appId ∧ answer.config.ttl = s.config.ttl ∧
      answer.now.seconds < s.now.seconds + s.config.ttl := by
  obtain ⟨hconfig, hanswered, -⟩ := h.answers answer hanswer
  obtain ⟨keyring, hkeyring, hsame⟩ := List.mem_map.mp hconfig
  have hderived : answer.config.Derived crypto := hsame ▸ (h.keyrings keyring hkeyring).derived
  obtain ⟨hlawful, hsconfig⟩ := h.sealing s (List.mem_append_right _ hs)
  obtain ⟨grant, hgrant⟩ := Option.isSome_iff_exists.mp hopened
  rw [hgrant] at hanswered
  obtain ⟨⟨e, bytes⟩, hadmitted, -⟩ := Option.bind_eq_some_iff.mp hanswered.symm
  obtain ⟨-, hread, -, hfound, -⟩ := admitted_iff.mp hadmitted
  rw [hlawful.fromBase64Url_token hcrypto htoken] at hread
  rw [← Option.some.inj hread, hlawful.id_bytes hcrypto] at hfound
  obtain ⟨he, hid⟩ := KeyringConfig.Derived.of_byId hfound
  have hbase := hids _ hconfig _ hsconfig e he _ List.mem_cons_self hid
  rw [hlawful.answer hcrypto htoken hderived he hbase] at hanswered
  split at hanswered
  · next hvalid =>
    obtain ⟨happ, httl, -, -, -, -, -, halive⟩ :=
      (validClaims_claims _ _ _ _ _ _ _ _).mp hvalid.2
    exact ⟨happ.symm, httl.symm, halive⟩
  · cases hanswered

/-- Every token is read as it was sealed, from the hour of its seal on and as long as it lives, and
nothing else is read. -/
theorem grants_open_as_sealed (hcrypto : crypto.Lawful) {acts : List FleetAction}
    (hrun : run step empty acts = some w) (hideal : Along step Ideal (empty : Fleet crypto) acts)
    (hids : w.DistinctIds) :
    (∀ answer ∈ w.answers, ∀ s ∈ w.sealed, s.token = some answer.token → s.input.valid →
      answer.config.appId = s.config.appId → answer.config.ttl = s.config.ttl →
      1 ≤ s.config.ttl ∧ s.config.ttl ≤ 3600 →
      ∀ (i : ℕ) (e : SecretEntry), answer.config.entries[i]? = some e →
        e.base = s.config.first.base → s.now.seconds ≤ answer.now.seconds + 60 →
        answer.now.seconds < s.now.seconds + s.config.ttl →
        (answer.opened = some ⟨s.claims, i⟩ ↔ s.now.hour ≤ answer.now.hour)) ∧
    (∀ answer ∈ w.answers, ∀ s ∈ w.sealed, s.token = some answer.token →
      s.now.seconds + s.config.ttl ≤ answer.now.seconds ∨
        answer.config.appId ≠ s.config.appId ∨ answer.config.ttl ≠ s.config.ttl →
      answer.opened = none) ∧
    (∀ answer ∈ w.answers, (∀ s ∈ w.sealed, s.token ≠ some answer.token) →
      answer.opened = none) ∧
    ∀ x y bytes, fromBase64Url x = some bytes → fromBase64Url y = some bytes → x = y := by
  have h := Sound.run hcrypto hrun hideal
  refine ⟨?_, ?_, ?_, fun x y bytes => fromBase64Url_injective⟩
  · rintro answer hanswer s hs htoken hvalid happ httl ⟨-, hhour⟩ i e he hbase hskew halive
    obtain ⟨hconfig, hopened, -⟩ := h.answers answer hanswer
    obtain ⟨keyring, hkeyring, hsame⟩ := List.mem_map.mp hconfig
    have hderived : answer.config.Derived crypto := hsame ▸ (h.keyrings keyring hkeyring).derived
    have hlawful := (h.sealing s (List.mem_append_right _ hs)).1
    rw [hopened, ← hderived.index i e he]
    exact hlawful.answer_iff hcrypto htoken hvalid hderived (List.mem_of_getElem? he) hbase happ
      httl hhour hskew halive
  · intro answer hanswer s hs htoken hdead
    by_contra hopened
    have hsome := Option.isSome_iff_ne_none.mpr hopened
    obtain ⟨happ, httl, halive⟩ := alive_of_opened hcrypto h hids hanswer hsome hs htoken
    rcases hdead with hlate | hne | hne
    · exact absurd halive (not_lt.mpr hlate)
    · exact hne happ
    · exact hne httl
  · intro answer hanswer hforged
    by_contra hopened
    obtain ⟨s, hs, htoken⟩ := (h.answers answer hanswer).2.2 (Option.isSome_iff_ne_none.mpr hopened)
    exact hforged s hs htoken

def plainCrypto : WebCrypto where
  Key := Unit
  deriveBits base _ _ n := ((base ++ List.replicate n 0).take n).map (· % 256)
  deriveKey _ _ _ := ()
  encrypt _ _ _ plain := plain ++ List.replicate gcmTagBytes 0
  decrypt _ _ _ bytes := some (bytes.take (bytes.length - gcmTagBytes))

theorem plainCrypto_lawful : plainCrypto.Lawful where
  length_deriveBits base salt info n := by simp [plainCrypto]
  deriveBits_lt base salt info n := by
    intro b hb
    obtain ⟨a, -, rfl⟩ := List.mem_map.mp hb
    exact Nat.mod_lt _ (by decide)
  decrypt_encrypt key nonce data plain _ := by simp [plainCrypto]
  length_encrypt key nonce data plain := by simp [plainCrypto]
  encrypt_lt key nonce data plain h := by
    simp only [plainCrypto, List.forall_mem_append, List.mem_replicate]
    exact ⟨h, fun b hb => by omega⟩

def seedOptions : KeyringOptions where
  secret := js "0123456789abcdef0123456789abcdef"
  rotated := []
  appId := js "app"
  ttl := 600
  processId := [1, 2, 3, 4, 5, 6, 7, 8]
  maxSealsPerSubkey := 2 ^ 31
  units := by decide
  octets := by decide

def seedInput : GrantInput where
  sid := []
  sub := none
  path := js "/"
  frame := js "f"
  owners := ∅
  s := 1
  r := 0
  units := by decide

def oneOClock : TimeValue := ⟨3600000, by decide⟩
def aSecondBefore : TimeValue := ⟨3599000, by decide⟩
def aSecondAfter : TimeValue := ⟨3601000, by decide⟩

def seedRun : List FleetAction :=
  [.create seedOptions, .issue 0 seedInput oneOClock (List.replicate 12 0), .encrypt 0]

def seedToken : JSString :=
  match run step (empty : Fleet plainCrypto) seedRun with
  | some w => (w.sealed.head?.bind Sealing.token).getD []
  | none => []

instance decidableEncrypted [DecidableEq crypto.Key] (opening : Opening crypto)
    (sealed : List (Sealing crypto)) : Decidable (opening.Encrypted sealed) :=
  inferInstanceAs (Decidable (_ → ∃ sealing ∈ sealed, _))

instance decidableIdeal [DecidableEq crypto.Key] (w : Fleet crypto) :
    ∀ action, Decidable (w.Ideal action)
  | .decrypt j => inferInstanceAs (Decidable (∀ opening ∈ w.opening[j]?, _))
  | .create _ | .issue _ _ _ _ | .encrypt _ | .present _ _ _ => inferInstanceAs (Decidable True)

instance decidableDistinctIds (w : Fleet crypto) : Decidable w.DistinctIds :=
  inferInstanceAs (Decidable (∀ c ∈ _, ∀ d ∈ _, ∀ e ∈ _, ∀ f ∈ _, _))

instance : DecidableEq plainCrypto.Key := inferInstanceAs (DecidableEq Unit)

theorem grants_open_as_sealed_seed : ∃ w : Fleet plainCrypto,
    run step empty (seedRun ++ [.present 0 seedToken aSecondAfter, .decrypt 0]) = some w ∧
      ∃ answer ∈ w.answers, ∃ s ∈ w.sealed, answer.opened = some ⟨s.claims, 0⟩ := by
  have hfacts : (run step (empty : Fleet plainCrypto)
      (seedRun ++ [.present 0 seedToken aSecondAfter, .decrypt 0])).any (fun w =>
        decide w.DistinctIds && w.answers.any fun answer => w.sealed.any fun s =>
          decide (s.token = some answer.token ∧ s.input.valid ∧ answer.config = s.config ∧
            s.config.ttl = 600 ∧ s.now = oneOClock ∧ answer.now = aSecondAfter)) := by
    decide +kernel
  have hideal : Along step Ideal (empty : Fleet plainCrypto)
      (seedRun ++ [.present 0 seedToken aSecondAfter, .decrypt 0]) := by decide +kernel
  obtain ⟨w, hrun, hfacts⟩ := (Option.any_eq_true _ _).mp hfacts
  rw [Bool.and_eq_true] at hfacts
  obtain ⟨hids, hfacts⟩ := hfacts
  obtain ⟨answer, hanswer, hfacts⟩ := List.any_eq_true.mp hfacts
  obtain ⟨s, hs, hfacts⟩ := List.any_eq_true.mp hfacts
  obtain ⟨htoken, hvalid, hconfig, httl, hsealed, hnow⟩ := of_decide_eq_true hfacts
  have hopen := (grants_open_as_sealed plainCrypto_lawful hrun hideal (of_decide_eq_true hids)).1
    answer hanswer s hs htoken hvalid (by rw [hconfig]) (by rw [hconfig]) (by rw [httl]; decide) 0
    s.config.first (by rw [hconfig]; rfl) rfl (by rw [hsealed, hnow]; decide)
    (by rw [hsealed, hnow, httl]; decide)
  refine ⟨w, hrun, answer, hanswer, s, hs, hopen.mpr ?_⟩
  rw [hsealed, hnow]
  decide

/-- A clock that is two seconds behind, in the hour before, refuses the token. -/
theorem open_refused_in_earlier_hour :
    (run step (empty : Fleet plainCrypto)
      (seedRun ++ [.present 0 seedToken aSecondBefore])).any fun w =>
        w.answers.any fun answer => w.sealed.any fun s =>
          decide (s.token = some answer.token ∧ s.input.valid ∧ answer.config = s.config ∧
            1 ≤ s.config.ttl ∧ s.config.ttl ≤ 3600 ∧
            s.now.seconds ≤ answer.now.seconds + 60 ∧
            answer.now.seconds < s.now.seconds + s.config.ttl ∧ answer.opened.isNone) := by
  decide +kernel

end Fleet

end Nifra.Live
