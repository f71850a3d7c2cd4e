import Nifra.Middleware.IpTexts

/-! # Buckets and ranges

Which addresses share a bucket, what the fast path for literals answers, and which addresses a
range holds.
-/

namespace Nifra.Ip

theorem bucket_v4_inj {m n : ℕ} (hm : m < 2 ^ 32) (hn : n < 2 ^ 32)
    (h : bucketParsedIp ⟨.v4, m⟩ = bucketParsedIp ⟨.v4, n⟩) : m = n := by
  have hdot (n : ℕ) : 46 ∉ decimal n := fun hmem => by
    have := digit_of_mem_decimal hmem
    omega
  have hoctets (a b c d : ℕ) : ∀ text ∈ [decimal a, decimal b, decimal c, decimal d], 46 ∉ text := by
    rintro text htext
    simp only [List.mem_cons, List.not_mem_nil, or_false] at htext
    rcases htext with rfl | rfl | rfl | rfl <;> exact hdot _
  have htexts := List.intercalate_inj (hoctets _ _ _ _) (hoctets _ _ _ _) (List.cons_ne_nil _ _)
    (List.cons_ne_nil _ _) h
  have hbyte (n : ℕ) : n &&& 255 = n % 256 := Nat.and_two_pow_sub_one_eq_mod n 8
  simp only [List.cons.injEq, decimal_injective.eq_iff, and_true, hbyte,
    Nat.shiftRight_eq_div_pow] at htexts
  omega

theorem parseHex_padStart (n : ℕ) : parseHex (padStart (hexText n)) = n := by
  have hzero : (hexValue 48).getD 0 = 0 := by decide
  rw [padStart, parseHex, List.map_append, List.map_replicate, hzero, positional_zeros]
  exact parseHex_hexText n

theorem no_colon_padStart (n : ℕ) : 58 ∉ padStart (hexText n) := by
  have hdigit : ∀ d < 16, JSON.hexDigit d ≠ 58 := by decide
  rintro hmem
  rcases List.mem_append.mp hmem with hmem | hmem
  · cases List.eq_of_mem_replicate hmem
  · unfold hexText at hmem
    split_ifs at hmem with hzero
    · simp at hmem
    · obtain ⟨d, hd, hcolon⟩ := List.mem_map.mp hmem
      exact hdigit d (Nat.digits_lt_base (by decide) (List.mem_reverse.mp hd)) hcolon

theorem filter_slices {network : JSString} (h : 58 ∉ network) :
    ([58].intercalate [network.take 4, (network.drop 4).take 4, (network.drop 8).take 4,
      network.drop 12]).filter (· ≠ 58) = network := by
  have hself {piece : JSString} (hpiece : piece ⊆ network) : piece.filter (· ≠ 58) = piece :=
    List.filter_eq_self.mpr fun c hc => decide_eq_true (ne_of_mem_of_not_mem (hpiece hc) h)
  have hcolon : ([58] : JSString).filter (· ≠ 58) = [] := by decide
  have hmiddle (n : ℕ) : (network.drop n).take 4 ⊆ network :=
    List.Subset.trans (List.take_prefix 4 _).subset (List.drop_subset n network)
  have hjoin : network.take 4 ++ ((network.drop 4).take 4 ++ ((network.drop 8).take 4
      ++ network.drop 12)) = network := by
    have h8 : network.drop 8 = (network.drop 4).drop 4 := by rw [List.drop_drop]
    have h12 : network.drop 12 = (network.drop 8).drop 4 := by rw [List.drop_drop]
    rw [h12, List.take_append_drop, h8, List.take_append_drop, List.take_append_drop]
  simp only [List.intercalate_cons_cons, List.intercalate_singleton, List.filter_append, hcolon,
    hself (List.take_prefix 4 network).subset, hself (hmiddle 4), hself (hmiddle 8),
    hself (List.drop_subset 12 network), List.append_assoc]
  exact hjoin

theorem bucket_v6_iff {m n : ℕ} :
    bucketParsedIp ⟨.v6, m⟩ = bucketParsedIp ⟨.v6, n⟩ ↔ m / 2 ^ 64 = n / 2 ^ 64 := by
  simp only [bucketParsedIp, Nat.shiftRight_eq_div_pow]
  constructor
  · rintro h
    have hfilter := congrArg (List.filter (· ≠ 58)) (List.append_cancel_right h)
    rw [filter_slices (no_colon_padStart _), filter_slices (no_colon_padStart _)] at hfilter
    rw [← parseHex_padStart (m / 2 ^ 64), hfilter, parseHex_padStart]
  · rintro h
    rw [h]

theorem decimal_concat {n d : ℕ} (hn : n ≠ 0) (hd : d < 10) :
    decimal (n * 10 + d) = decimal n ++ [48 + d] := by
  have hdigits : Nat.digits 10 (d + 10 * n) = d :: Nat.digits 10 n :=
    Nat.digits_add 10 (by decide) d n hd (Or.inr hn)
  have hne : d + 10 * n ≠ 0 := by omega
  rw [Nat.mul_comm, Nat.add_comm, decimal, decimal, Double.digits, Double.digits, if_neg hne,
    if_neg hn, hdigits, List.reverse_cons, List.map_append]
  rfl

theorem decimal_digit {d : ℕ} (hd : d < 10) : decimal d = [48 + d] := by
  have hall : ∀ d < 10, decimal d = [48 + d] := by decide
  exact hall d hd

/-- The loop after the text that it has passed: whole octets, and the digits of the one it is in. -/
structure Read (seen : JSString) (s : Literal) (whole : List ℕ) (part : JSString) : Prop where
  seen : seen = whole.flatMap (fun octet => decimal octet ++ [46]) ++ part
  octets : s.octets = whole.length
  digits : s.digits = part.length
  le : ∀ octet ∈ whole, octet ≤ 255
  current : part = [] ∧ s.value = 0 ∨
    part = decimal s.value ∧ s.value ≤ 255 ∧ part.head? = some s.firstDigit

theorem Read.numeral {seen part : JSString} {s : Literal} {whole : List ℕ} (h : Read seen s whole part)
    (hopen : ¬s.isOpen) : part = decimal s.value ∧ s.value ≤ 255 := by
  rcases h.current with ⟨rfl, -⟩ | ⟨hpart, hle, -⟩
  · exact absurd (Or.inl h.digits) hopen
  · exact ⟨hpart, hle⟩

theorem Read.turn {seen part : JSString} {s s' : Literal} {whole : List ℕ} {code : ℕ}
    (h : Read seen s whole part) (hturn : s.turn code = some s') :
    ∃ whole' part', Read (seen ++ [code]) s' whole' part' := by
  unfold Literal.turn at hturn
  by_cases hdot : code = 46
  · -- a dot ends the octet
    rw [if_pos hdot] at hturn
    split_ifs at hturn with hend
    subst hdot
    obtain ⟨hpart, hle⟩ := h.numeral fun hopen => hend (Or.inl hopen)
    cases hturn
    refine ⟨whole ++ [s.value], [], ?_, ?_, rfl, ?_, Or.inl ⟨rfl, rfl⟩⟩
    · rw [h.seen, hpart, List.flatMap_append]
      simp
    · simp [h.octets]
    · exact List.forall_mem_append.mpr ⟨h.le, by simpa using hle⟩
  · -- a digit goes on with it
    rw [if_neg hdot] at hturn
    by_cases hdigit : code < 48 ∨ 57 < code ∨ s.digits = 3
    · rw [if_pos hdigit] at hturn
      cases hturn
    rw [if_neg hdigit] at hturn
    by_cases hzero : s.digits = 1 ∧ s.firstDigit = 48
    · rw [if_pos hzero] at hturn
      cases hturn
    rw [if_neg hzero] at hturn
    by_cases hlarge : 255 < s.value * 10 + code - 48
    · rw [if_pos hlarge] at hturn
      cases hturn
    rw [if_neg hlarge] at hturn
    cases hturn
    have hrange : 48 ≤ code ∧ code ≤ 57 ∧ s.digits ≠ 3 := by omega
    refine ⟨whole, part ++ [code], ?_, h.octets, ?_, h.le, Or.inr ?_⟩
    · rw [h.seen, List.append_assoc]
    · simp [h.digits]
    · rcases h.current with ⟨rfl, hvalue⟩ | ⟨hpart, hle, hhead⟩
      · have hnone : s.digits = 0 := h.digits
        have hcode : s.value * 10 + code - 48 = code - 48 := by omega
        refine ⟨?_, Nat.not_lt.mp hlarge, ?_⟩
        · simp only [hcode, decimal_digit (show code - 48 < 10 by omega)]
          rw [Nat.add_sub_cancel' hrange.1]
          rfl
        · simp [hnone]
      · have hlength : s.digits ≠ 0 := by
          rw [h.digits, hpart]
          exact fun hnil => decimal_ne_nil _ (List.length_eq_zero_iff.mp hnil)
        have hne : s.value ≠ 0 := by
          rintro hvalue
          rw [hvalue] at hpart
          subst hpart
          exact hzero ⟨h.digits, (Option.some.inj hhead).symm⟩
        have hcode : s.value * 10 + code - 48 = s.value * 10 + (code - 48) := by omega
        refine ⟨?_, Nat.not_lt.mp hlarge, ?_⟩
        · simp only [hcode, decimal_concat hne (show code - 48 < 10 by omega)]
          rw [Nat.add_sub_cancel' hrange.1, hpart]
        · rw [if_neg hlength, List.head?_append, hhead]
          rfl

theorem Read.run {rest seen part : JSString} {s s' : Literal} {whole : List ℕ}
    (h : Read seen s whole part) (hrun : rest.foldlM Literal.turn s = some s') :
    ∃ whole' part', Read (seen ++ rest) s' whole' part' := by
  induction rest generalizing seen s whole part with
  | nil =>
    obtain rfl : s = s' := Option.some.inj hrun
    exact ⟨whole, part, by simpa using h⟩
  | cons code rest ih =>
    obtain ⟨t, hturn, hrun⟩ := Option.bind_eq_some_iff.mp hrun
    obtain ⟨whole', part', h'⟩ := h.turn hturn
    simpa using ih h' hrun

theorem canonicalIPv4Literal_spelled {input s : JSString} (h : canonicalIPv4Literal input = some s) :
    s = input ∧ ∃ octets : List ℕ, octets.length = 4 ∧ (∀ octet ∈ octets, octet ≤ 255) ∧
      input = [46].intercalate (octets.map decimal) := by
  obtain ⟨last, hrun, hend⟩ := Option.bind_eq_some_iff.mp h
  split_ifs at hend with hdone
  rw [not_or, not_not] at hdone
  have hstart : Read [] ⟨0, 0, 0, 0⟩ [] [] := by
    refine ⟨rfl, rfl, rfl, ?_, Or.inl ⟨rfl, rfl⟩⟩
    simp
  obtain ⟨whole, part, hread⟩ := hstart.run hrun
  obtain ⟨hpart, hle⟩ := hread.numeral hdone.2
  refine ⟨(Option.some.inj hend).symm, whole ++ [last.value], ?_, ?_, ?_⟩
  · rw [List.length_append, ← hread.octets, hdone.1]
    rfl
  · exact List.forall_mem_append.mpr ⟨hread.le, by simpa using hle⟩
  · rw [List.nil_append] at hread
    rw [hread.seen, hpart]
    match whole, hread.octets.symm.trans hdone.1 with
    | [a, b, c], _ => simp [List.intercalate_cons_cons]

theorem isOctet_decimal {n : ℕ} (h : n ≤ 255) : IsOctet (decimal n) n := by
  have hlength : (decimal n).length ≤ 3 := by
    rw [decimal, List.length_map, Double.digits]
    split_ifs
    · decide
    · rw [List.length_reverse, Nat.digits_length_le_iff (by decide)]
      omega
  refine ⟨⟨List.length_pos_iff.mpr (decimal_ne_nil n), hlength⟩, ?_, ?_, h⟩
  · exact fun c hc => JSON.isDigit_of_mem_decimal hc
  · exact (JSON.natOfDigits_decimal n).symm

theorem isQuad_decimal {octets : List ℕ} (hlength : octets.length = 4)
    (hle : ∀ octet ∈ octets, octet ≤ 255) :
    IsQuad ([46].intercalate (octets.map decimal)) (positional 256 octets) := by
  refine ⟨octets.map decimal, octets, ?_, hlength, rfl, rfl⟩
  rw [List.forall₂_map_left_iff, List.forall₂_same]
  exact fun octet hmem => isOctet_decimal (hle octet hmem)

theorem bucket_quad {octets : List ℕ} (hlength : octets.length = 4)
    (hle : ∀ octet ∈ octets, octet ≤ 255) :
    bucketParsedIp ⟨.v4, positional 256 octets⟩ = [46].intercalate (octets.map decimal) := by
  have hbyte (n : ℕ) : n &&& 255 = n % 256 := Nat.and_two_pow_sub_one_eq_mod n 8
  match octets, hlength with
  | [a, b, c, d], _ =>
    obtain ⟨ha, hb, hc, hd⟩ : a ≤ 255 ∧ b ≤ 255 ∧ c ≤ 255 ∧ d ≤ 255 := by simpa using hle
    have hvalue : positional 256 [a, b, c, d] = ((a * 256 + b) * 256 + c) * 256 + d := by
      simp [positional]
    have ha' : positional 256 [a, b, c, d] / 2 ^ 24 % 256 = a := by omega
    have hb' : positional 256 [a, b, c, d] / 2 ^ 16 % 256 = b := by omega
    have hc' : positional 256 [a, b, c, d] / 2 ^ 8 % 256 = c := by omega
    have hd' : positional 256 [a, b, c, d] % 256 = d := by omega
    simp only [bucketParsedIp, hbyte, Nat.shiftRight_eq_div_pow, ha', hb', hc', hd', List.map_cons,
      List.map_nil]

theorem SpellsAddress.denotes {text : JSString} {a : Address} (h : SpellsAddress text a) :
    Denotes text a := by
  have hplain := Denotes.plain isBlank_nil h isBlank_nil
  rwa [List.nil_append, List.append_nil] at hplain

theorem ipBucketForAddress_eq (text : JSString) :
    ipBucketForAddress text = (parseIp text).map bucketParsedIp := by
  unfold ipBucketForAddress
  cases hfast : canonicalIPv4Literal text with
  | none => rfl
  | some s =>
    obtain ⟨rfl, octets, hlength, hle, htext⟩ := canonicalIPv4Literal_spelled hfast
    have hquad := isQuad_decimal hlength hle
    have hspells : SpellsAddress s ⟨.v4, positional 256 octets, quad_lt hquad⟩ := by
      rw [htext]
      exact hquad
    rw [parseIp_denotes hspells.denotes]
    simp only [Address.normal, Option.map_some, bucket_quad hlength hle, htext]

def netmask (bits length : ℕ) : ℕ := (2 ^ bits - 1) ^^^ (2 ^ (bits - length) - 1)

theorem and_netmask {bits length x : ℕ} (h : x < 2 ^ bits) :
    x &&& netmask bits length = x / 2 ^ (bits - length) * 2 ^ (bits - length) := by
  apply Nat.eq_of_testBit_eq
  intro i
  rw [netmask, Nat.testBit_and, Nat.testBit_xor, Nat.testBit_two_pow_sub_one,
    Nat.testBit_two_pow_sub_one, Nat.testBit_mul_two_pow, Nat.testBit_div_two_pow]
  by_cases hlow : bits - length ≤ i
  · rw [Nat.sub_add_cancel hlow]
    by_cases hi : i < bits
    · simp [hlow, hi, Nat.not_lt.mpr hlow]
    · have hzero : x.testBit i = false :=
        Nat.testBit_lt_two_pow (h.trans_le (Nat.pow_le_pow_right (by decide) (Nat.not_lt.mp hi)))
      simp [hzero]
  · have hi : i < bits := by omega
    simp [hlow, hi, Nat.not_le.mp hlow]

theorem and_netmask_eq_iff {bits length x y : ℕ} (hx : x < 2 ^ bits) (hy : y < 2 ^ bits) :
    x &&& netmask bits length = y &&& netmask bits length ↔
      x / 2 ^ (bits - length) = y / 2 ^ (bits - length) := by
  rw [and_netmask hx, and_netmask hy, Nat.mul_left_inj (Nat.two_pow_pos _).ne']

theorem matchRange_iff {x y : ParsedIp} (length : ℕ) (hx : x.value < 2 ^ x.version.bits)
    (hy : y.value < 2 ^ y.version.bits) :
    matchRange x ⟨y.version, y.value &&& netmask y.version.bits length,
        netmask y.version.bits length⟩ = true ↔
      x.version = y.version ∧ x.value / 2 ^ (y.version.bits - length)
        = y.value / 2 ^ (y.version.bits - length) := by
  rw [matchRange, Bool.and_eq_true, beq_iff_eq, beq_iff_eq]
  apply and_congr_right
  rintro hversion
  rw [show x.version = y.version from hversion] at hx
  exact and_netmask_eq_iff hx hy

def suffixText : Option JSString → JSString
  | none => []
  | some digits => 47 :: digits

def Address.prefixLength (a : Address) : Option JSString → Option ℕ
  | none => some a.normal.version.bits
  | some digits =>
    let n := JSON.natOfDigits digits
    let shift := if a.version = .v6 ∧ a.normal.version = .v4 then 96 else 0
    if (digits ≠ [] ∧ digits.all JSON.isDigit) ∧ shift ≤ n ∧ n - shift ≤ a.normal.version.bits then
      some (n - shift)
    else none

theorem bits_le (version : IpVersion) : version.bits ≤ 128 := by cases version <;> decide

theorem Address.prefixLength_le {a : Address} {suffix : Option JSString} {length : ℕ}
    (h : a.prefixLength suffix = some length) : length ≤ a.normal.version.bits := by
  cases suffix with
  | none => exact (Option.some.inj h).ge
  | some digits =>
    obtain ⟨⟨-, -, hle⟩, hvalue⟩ := Option.ite_none_right_eq_some.mp h
    exact Option.some.inj hvalue ▸ hle

theorem Denotes.mem {text : JSString} {a : Address} (h : Denotes text a) :
    ∃ inner, SpellsAddress inner a ∧ ∀ c, Postgres.isSpace c = false → c ≠ 91 → c ≠ 93 →
      (c ∈ text ↔ c ∈ inner) := by
  have hblank {blanks : JSString} (h : IsBlank blanks) {c : ℕ} (hc : Postgres.isSpace c = false) :
      c ∉ blanks := fun hmem => Bool.false_ne_true (hc.symm.trans (h c hmem))
  cases h with
  | plain hfront h hback =>
    refine ⟨_, h, ?_⟩
    rintro c hc - -
    simp [hblank hfront hc, hblank hback hc]
  | bracketed hfront h hback =>
    refine ⟨_, h, ?_⟩
    rintro c hc hopen hclose
    simp [hblank hfront hc, hblank hback hc, hopen, hclose]

theorem not_slash_of_denotes {text : JSString} {a : Address} (h : Denotes text a) : 47 ∉ text := by
  obtain ⟨inner, hinner, hmem⟩ := h.mem
  rw [hmem 47 (by decide) (by decide) (by decide)]
  rintro hslash
  rcases hinner.chars hslash with heq | heq | hhex
  · cases heq
  · cases heq
  · exact absurd hhex (by decide)

theorem Denotes.colon_iff {text : JSString} {a : Address} (h : Denotes text a) :
    58 ∈ text ↔ a.version = .v6 := by
  obtain ⟨inner, hinner, hmem⟩ := h.mem
  rw [hmem 58 (by decide) (by decide) (by decide), hinner.colon_iff]

theorem idxOf?_suffix {text : JSString} (h : 47 ∉ text) (digits : JSString) :
    (text ++ suffixText (some digits)).idxOf? 47 = some text.length := by
  rw [List.idxOf?_eq_some_iff]
  refine ⟨by simp [suffixText], by simp [suffixText], ?_⟩
  rintro j hj
  rw [List.getElem_append_left hj]
  exact ne_of_mem_of_not_mem (List.getElem_mem hj) h

theorem ofNat_sub {n bits shift : ℕ} (hbits : bits + shift < 2 ^ 53) {m : ℕ}
    (h : Double.ofNat n = (m : WithTop ℕ)) (hn : ¬(shift ≤ n ∧ n - shift ≤ bits)) :
    (m : ℤ) - shift < 0 ∨ (bits : ℤ) < (m : ℤ) - shift := by
  by_cases hlarge : n < 2 ^ 53
  · rw [Double.ofNat, if_pos hlarge, Nat.cast_inj] at h
    omega
  · have hle := Double.le_ofNat (Nat.not_lt.mp hlarge)
    rw [h, Nat.cast_le] at hle
    omega

theorem prefixOf_spec {text : JSString} {a : Address} (h : Denotes text a)
    (suffix : Option JSString) {shift : ℕ}
    (hshift : shift = if a.version = .v6 ∧ a.normal.version = .v4 then 96 else 0) :
    match a.prefixLength suffix with
    | some length => prefixOf (text ++ suffixText suffix)
        ((text ++ suffixText suffix).idxOf? 47) a.normal.version.bits shift = some (length : ℤ)
    | none => ∀ length, prefixOf (text ++ suffixText suffix)
        ((text ++ suffixText suffix).idxOf? 47) a.normal.version.bits shift = some length →
          length < 0 ∨ (a.normal.version.bits : ℤ) < length := by
  have hbits := bits_le a.normal.version
  have hle : shift ≤ 96 := by
    rw [hshift]
    split_ifs <;> decide
  have hslash := not_slash_of_denotes h
  cases suffix with
  | none =>
    have hnone : (text ++ suffixText none).idxOf? 47 = none := by
      rw [List.idxOf?_eq_none_iff]
      simpa [suffixText] using hslash
    rw [hnone]
    rfl
  | some digits =>
    have hdrop : (text ++ suffixText (some digits)).drop (text.length + 1) = digits := by
      simp [suffixText]
    simp only [idxOf?_suffix hslash, prefixOf, hdrop, Address.prefixLength, ← hshift]
    by_cases hdigits : digits ≠ [] ∧ digits.all JSON.isDigit = true
    · by_cases hfits : shift ≤ JSON.natOfDigits digits ∧
          JSON.natOfDigits digits - shift ≤ a.normal.version.bits
      · have hsmall : JSON.natOfDigits digits < 2 ^ 53 := by omega
        rw [if_pos ⟨hdigits, hfits⟩, if_pos hdigits, Double.ofNat, if_pos hsmall]
        exact congrArg some (Int.ofNat_sub hfits.1).symm
      · rw [if_neg fun h => hfits h.2, if_pos hdigits]
        rintro length hlength
        cases hread : Double.ofNat (JSON.natOfDigits digits) with
        | top =>
          rw [hread] at hlength
          cases hlength
        | coe m =>
          rw [hread] at hlength
          obtain rfl := Option.some.inj hlength
          exact ofNat_sub (by omega) hread hfits
    · rw [if_neg fun h => hdigits h.1, if_neg hdigits]
      rintro length hlength
      obtain rfl := Option.some.inj hlength
      exact Or.inl (by decide)

theorem parseRange_address {input address : JSString} {ip : ParsedIp}
    (haddress : (match input.idxOf? 47 with
      | none => input
      | some slash => input.take slash) = address) (hip : parseIp address = some ip) :
    parseRange input =
      match prefixOf input (input.idxOf? 47) ip.version.bits
        (if ip.version = .v4 ∧ 58 ∈ address then 96 else 0) with
      | none => .error (js "ipRestriction: invalid CIDR prefix " ++ JSON.ofString input)
      | some length =>
        if length < 0 ∨ ip.version.bits < length then
          .error (js "ipRestriction: invalid CIDR prefix " ++ JSON.ofString input)
        else
          .ok ⟨ip.version,
            ip.value &&& (if length = 0 then 0 else
              ((1 <<< ip.version.bits) - 1) ^^^ ((1 <<< (ip.version.bits - length.toNat)) - 1)),
            if length = 0 then 0 else
              ((1 <<< ip.version.bits) - 1) ^^^ ((1 <<< (ip.version.bits - length.toNat)) - 1)⟩ := by
  subst haddress
  unfold parseRange
  generalize input.idxOf? 47 = slash at hip ⊢
  cases slash with
  | none =>
    dsimp only at hip
    simp only [hip] <;> rfl
  | some slash =>
    dsimp only at hip
    simp only [hip] <;> rfl

theorem parseRange_eq {text : JSString} {a : Address} (h : Denotes text a)
    (suffix : Option JSString) :
    parseRange (text ++ suffixText suffix) = match a.prefixLength suffix with
      | some length => .ok ⟨a.normal.version,
          a.normal.value &&& netmask a.normal.version.bits length,
          netmask a.normal.version.bits length⟩
      | none => .error (js "ipRestriction: invalid CIDR prefix "
          ++ JSON.ofString (text ++ suffixText suffix)) := by
  have haddress : (match (text ++ suffixText suffix).idxOf? 47 with
      | none => text ++ suffixText suffix
      | some slash => (text ++ suffixText suffix).take slash) = text := by
    cases suffix with
    | none =>
      have hnone : (text ++ suffixText none).idxOf? 47 = none := by
        rw [List.idxOf?_eq_none_iff]
        simpa [suffixText] using not_slash_of_denotes h
      rw [hnone]
      exact List.append_nil text
    | some digits =>
      rw [idxOf?_suffix (not_slash_of_denotes h)]
      exact List.take_left
  have hmapped : (if a.normal.version = .v4 ∧ 58 ∈ text then 96 else 0)
      = if a.version = .v6 ∧ a.normal.version = .v4 then 96 else 0 := by
    simp only [h.colon_iff, and_comm]
  have hspec := prefixOf_spec h suffix hmapped
  rw [parseRange_address haddress (parseIp_denotes h)]
  cases hlength : a.prefixLength suffix with
  | none =>
    rw [hlength] at hspec
    cases hprefix : prefixOf (text ++ suffixText suffix)
        ((text ++ suffixText suffix).idxOf? 47) a.normal.version.bits
        (if a.normal.version = .v4 ∧ 58 ∈ text then 96 else 0) with
    | none => rfl
    | some length => exact if_pos (hspec length hprefix)
  | some length =>
    rw [hlength] at hspec
    have hfits := Address.prefixLength_le hlength
    rw [hspec]
    dsimp only
    have hmask : (if (length : ℤ) = 0 then 0 else (1 <<< a.normal.version.bits) - 1 ^^^
        ((1 <<< (a.normal.version.bits - (length : ℤ).toNat)) - 1))
          = netmask a.normal.version.bits length := by
      rw [Nat.one_shiftLeft, Nat.one_shiftLeft, Int.toNat_natCast, netmask]
      split_ifs with hzero
      · rw [Int.natCast_eq_zero.mp hzero, Nat.sub_zero, Nat.xor_self]
      · rfl
    rw [if_neg (by omega), hmask]

/-- Addresses that share a bucket: the same IPv4 address, or IPv6 addresses of one /64. -/
def SameBucket (x y : ParsedIp) : Prop :=
  match x.version, y.version with
  | .v4, .v4 => x.value = y.value
  | .v6, .v6 => x.value / 2 ^ 64 = y.value / 2 ^ 64
  | _, _ => False

theorem colon_mem_bucket_iff (x : ParsedIp) : 58 ∈ bucketParsedIp x ↔ x.version = .v6 := by
  obtain ⟨version, value⟩ := x
  cases version with
  | v4 =>
    simp only [bucketParsedIp, reduceCtorEq, iff_false]
    rintro hmem
    rcases List.eq_or_mem_of_mem_intercalate hmem with heq | ⟨text, htext, hmem⟩
    · cases heq
    · simp only [List.mem_cons, List.not_mem_nil, or_false] at htext
      rcases htext with rfl | rfl | rfl | rfl <;>
        exact absurd (digit_of_mem_decimal hmem) (by decide)
  | v6 =>
    have hsuffix : 58 ∈ js "::/64" := by decide
    simp [bucketParsedIp, hsuffix]

theorem bucket_iff {x y : ParsedIp} (hx : x.value < 2 ^ x.version.bits)
    (hy : y.value < 2 ^ y.version.bits) :
    bucketParsedIp x = bucketParsedIp y ↔ SameBucket x y := by
  have hversions (h : bucketParsedIp x = bucketParsedIp y) : x.version = .v6 ↔ y.version = .v6 := by
    rw [← colon_mem_bucket_iff, ← colon_mem_bucket_iff, h]
  obtain ⟨version, m⟩ := x
  obtain ⟨version', n⟩ := y
  cases version with
  | v4 =>
    cases version' with
    | v4 => exact ⟨bucket_v4_inj hx hy, fun h => congrArg (bucketParsedIp ⟨.v4, ·⟩) h⟩
    | v6 => exact ⟨fun h => by simpa using hversions h, False.elim⟩
  | v6 =>
    cases version' with
    | v4 => exact ⟨fun h => by simpa using hversions h, False.elim⟩
    | v6 => exact bucket_v6_iff

/-- Parsing, buckets and ranges see the address and not the text that it is written in. -/
theorem addresses_sound {s t : JSString} {a b : Address} (hs : Denotes s a) (ht : Denotes t b) :
    (a = b → parseIp s = parseIp t ∧ ipBucketForAddress s = ipBucketForAddress t) ∧
      (ipBucketForAddress s = ipBucketForAddress t ↔ SameBucket a.normal b.normal) ∧
      (∀ suffix, match a.prefixLength suffix with
        | none => ∃ message, parseRange (s ++ suffixText suffix) = .error message
        | some length => ∃ range, parseRange (s ++ suffixText suffix) = .ok range ∧
            ∀ ip, parseIp t = some ip → (matchRange ip range = true ↔
              b.normal.version = a.normal.version ∧
                b.normal.value / 2 ^ (a.normal.version.bits - length)
                  = a.normal.value / 2 ^ (a.normal.version.bits - length))) ∧
      ∀ text, ipBucketForAddress text = (parseIp text).map bucketParsedIp := by
  have hsip := parseIp_denotes hs
  have htip := parseIp_denotes ht
  refine ⟨?_, ?_, ?_, ipBucketForAddress_eq⟩
  · rintro rfl
    rw [ipBucketForAddress_eq, ipBucketForAddress_eq, hsip, htip]
    exact ⟨rfl, rfl⟩
  · rw [ipBucketForAddress_eq, ipBucketForAddress_eq, hsip, htip, Option.map_some, Option.map_some,
      Option.some_inj]
    exact bucket_iff a.normal_lt b.normal_lt
  · rintro suffix
    have hrange := parseRange_eq hs suffix
    cases hlength : a.prefixLength suffix with
    | none =>
      rw [hlength] at hrange
      exact ⟨_, hrange⟩
    | some length =>
      rw [hlength] at hrange
      refine ⟨_, hrange, ?_⟩
      rintro ip hip
      obtain rfl := Option.some.inj (htip.symm.trans hip)
      exact matchRange_iff length b.normal_lt a.normal_lt

theorem addresses_sound_mapped :
    ipBucketForAddress (js "::ffff:10.0.0.1") = ipBucketForAddress (js "10.0.0.1") := by
  have hquad : IsQuad (js "10.0.0.1") 0x0a000001 := @isQuad_decimal [10, 0, 0, 1] rfl (by decide)
  have hgroup : List.Forall₂ IsGroup [js "ffff"] [0xffff] :=
    .cons ⟨by decide, by decide, by decide⟩ .nil
  have hgroups := SpellsGroups.compressed .nil (.quad hgroup hquad) (by decide)
  have htext : [58].intercalate [] ++ [58, 58] ++ [58].intercalate ([js "ffff"] ++ [js "10.0.0.1"])
      = js "::ffff:10.0.0.1" := by decide
  rw [htext] at hgroups
  have hplain : SpellsAddress (js "10.0.0.1") ⟨.v4, 0x0a000001, by decide⟩ := hquad
  have hmapped : SpellsAddress (js "::ffff:10.0.0.1") ⟨.v6, 0xffff0a000001, by decide⟩ :=
    ⟨_, hgroups, by decide⟩
  exact (addresses_sound hmapped.denotes hplain.denotes).2.1.mpr rfl

end Nifra.Ip
