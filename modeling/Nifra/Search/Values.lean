import Nifra.Lib.InsertionMap
import Nifra.Search.RouteSlots
import Nifra.Server.Query

/-! # The codec of search objects

A query value is JSON where it can be, and a string where it cannot. A key that comes again holds the
list of its values; keys that could reach a prototype are dropped at every level.
-/

namespace Nifra.Search

open JSON (Value isBlank parse readNumeral stripPrefix)
open Server (valuesOf)

/-- A decoded value, with numbers of type `N`. -/
inductive SearchValue (N : Type)
  | null
  | bool (b : Bool)
  | number (n : N)
  | string (s : JSString)
  | array (items : List (SearchValue N))
  | object (fields : List (JSString × SearchValue N))

abbrev SearchObject (N : Type) := InsertionMap JSString (SearchValue N)

structure NumberText (N : Type) where
  print : N → JSString
  read : JSString → N

variable {N : Type} (numbers : NumberText N)

mutual

def toJSON : SearchValue N → Value
  | .null => .null
  | .bool b => .bool b
  | .number n => .number (numbers.print n)
  | .string s => .string s
  | .array items => .array (toJSONItems items)
  | .object fields => .object (toJSONFields fields)

def toJSONItems : List (SearchValue N) → List Value
  | [] => []
  | item :: items => toJSON item :: toJSONItems items

def toJSONFields : List (JSString × SearchValue N) → List (JSString × Value)
  | [] => []
  | (key, item) :: fields => (key, toJSON item) :: toJSONFields fields

end

mutual

def ofJSON : Value → SearchValue N
  | .null => .null
  | .bool b => .bool b
  | .number text => .number (numbers.read text)
  | .string s => .string s
  | .array items => .array (ofJSONItems items)
  | .object fields => .object (ofJSONFields fields)

def ofJSONItems : List Value → List (SearchValue N)
  | [] => []
  | item :: items => ofJSON item :: ofJSONItems items

def ofJSONFields : List (JSString × Value) → List (JSString × SearchValue N)
  | [] => []
  | (key, item) :: fields => (key, ofJSON item) :: ofJSONFields fields

end

structure SearchLimits where
  maxLength : ℕ
  maxKeys : ℕ
  maxDepth : ℕ
  deriving DecidableEq

def defaultSearchLimits : SearchLimits := ⟨4096, 64, 6⟩

def forbiddenKeys : List JSString := [js "__proto__", js "prototype", js "constructor"]

mutual

def exceedsDepth : ℕ → SearchValue N → Bool
  | 0, .array _ => true
  | 0, .object _ => true
  | remaining + 1, .array items => exceedsDepthItems remaining items
  | remaining + 1, .object fields => exceedsDepthFields remaining fields
  | _, _ => false

def exceedsDepthItems (remaining : ℕ) : List (SearchValue N) → Bool
  | [] => false
  | item :: items => exceedsDepth remaining item || exceedsDepthItems remaining items

def exceedsDepthFields (remaining : ℕ) : List (JSString × SearchValue N) → Bool
  | [] => false
  | (_, item) :: fields => exceedsDepth remaining item || exceedsDepthFields remaining fields

end

mutual

def sanitize : SearchValue N → SearchValue N
  | .array items => .array (sanitizeItems items)
  | .object fields => .object (sanitizeFields fields)
  | value => value

def sanitizeItems : List (SearchValue N) → List (SearchValue N)
  | [] => []
  | item :: items => sanitize item :: sanitizeItems items

def sanitizeFields : List (JSString × SearchValue N) → List (JSString × SearchValue N)
  | [] => []
  | (key, item) :: fields =>
    if key ∈ forbiddenKeys then sanitizeFields fields
    else (key, sanitize item) :: sanitizeFields fields

end

/-- `JSON_LITERAL`: a literal, and blanks behind it. -/
def isJsonLiteral (raw : JSString) : Bool :=
  [js "true", js "false", js "null"].any fun word =>
    match stripPrefix word raw with
    | some rest => rest.all isBlank
    | none => false

/-- `JSON_NUMBER`: a number as JSON spells it, and blanks behind it. -/
def isJsonNumber (raw : JSString) : Bool :=
  match readNumeral raw with
  | some (_, rest) => rest.all isBlank
  | none => false

/-- By the first unit: a quote, a bracket or a blank, a letter of a literal, a sign or a digit. -/
def mayBeJson : JSString → Bool
  | [] => false
  | c :: rest =>
    if c = 34 ∨ c = 91 ∨ c = 123 ∨ c = 32 ∨ c = 9 ∨ c = 10 ∨ c = 13 then true
    else if c = 116 ∨ c = 102 ∨ c = 110 then isJsonLiteral (c :: rest)
    else if c = 45 ∨ 48 ≤ c ∧ c ≤ 57 then isJsonNumber (c :: rest)
    else false

/-- A value that is no JSON, or nests too deep, stays the string it is. -/
def decodeValue (limits : SearchLimits) (raw : JSString) : SearchValue N :=
  if !mayBeJson raw then .string raw
  else
    match parse raw with
    | none => .string raw
    | some value =>
      let parsed := ofJSON numbers value
      if exceedsDepth limits.maxDepth parsed then .string raw else sanitize parsed

/-- A string that reads as JSON is quoted, any other is written as it is. -/
def encodeValue : SearchValue N → JSString
  | .string s => if (parse s).isSome then JSON.ofString s else s
  | value => (toJSON numbers value).stringify

/-- The object so far, the keys it keeps, and the values of the keys that came again. -/
structure ParseState (N : Type) where
  out : SearchObject N
  kept : List JSString
  repeated : InsertionMap JSString (List (SearchValue N))

def parsePair (limits : SearchLimits) (state : ParseState N) (pair : JSString × JSString) :
    ParseState N :=
  let (key, value) := pair
  if key ∈ forbiddenKeys then state
  else if key ∈ state.kept then
    match state.repeated.get key with
    | none =>
      let first := (state.out.get key).toList
      { state with repeated := state.repeated.set key (first ++ [decodeValue numbers limits value]) }
    | some values =>
      { state with repeated := state.repeated.set key (values ++ [decodeValue numbers limits value]) }
  else if state.kept.length < limits.maxKeys then
    { state with
      kept := state.kept ++ [key],
      out := state.out.set key (decodeValue numbers limits value) }
  else state

/-- The parameters that the codec reads: of two question marks, both go. -/
def paramsOf (raw : JSString) : List (JSString × JSString) :=
  urlSearchParams (if js "??" <+: raw then raw.drop 1 else raw)

def parseQuery (limits : SearchLimits) (raw : JSString) : SearchObject N :=
  if raw = [] ∨ raw = js "?" then ∅
  else
    let state := (paramsOf raw).foldl (parsePair numbers limits) ⟨∅, [], ∅⟩
    state.repeated.entries.foldl (fun out entry => out.set entry.1 (.array entry.2)) state.out

/-- The parameters of one key: an array of two items or more is written item by item. -/
def itemPairs : JSString × SearchValue N → List (JSString × JSString)
  | (key, .array (first :: second :: rest)) =>
    (first :: second :: rest).map fun item => (key, encodeValue numbers item)
  | (key, value) => [(key, encodeValue numbers value)]

/-- The codec's `serialize`. The keys of an object are distinct, so `set` and `append` do the same. -/
def serializeSearch (value : SearchObject N) : JSString :=
  let query := formText (value.entries.flatMap (itemPairs numbers))
  if query = [] then [] else js "?" ++ query

/-- The query without the framework's own parameters, as it is where it has none. -/
def withoutSlots (raw : JSString) : JSString :=
  let query := if raw.head? = some 63 then raw.tail else raw
  let stripped := stripRouteSlotsSearch query
  if stripped ≠ query then stripped else raw

def parseSearch (limits : SearchLimits) (raw : JSString) : SearchObject N :=
  let raw := withoutSlots raw
  if limits.maxLength < raw.length then ∅ else parseQuery numbers limits raw

/-! ## Values in a query

A value that the codec carries is read back from its text. What the codec reads holds no forbidden key
at any level.
-/

open JSON (Value Printed PrintedItems PrintedFields IsNumeral Units isBlank parse readNumeral stripPrefix
  skipBlank)

variable {N : Type} {numbers : NumberText N}

variable (numbers) in
mutual

/-- Numbers are printed and read back, strings are well formed, and the keys of an object are distinct
and none of them forbidden. -/
inductive Carried : SearchValue N → Prop
  | null : Carried .null
  | bool (b : Bool) : Carried (.bool b)
  | number {n : N} (h : IsNumeral (numbers.print n)) (hread : numbers.read (numbers.print n) = n) :
      Carried (.number n)
  | string {s : JSString} (h : WellFormed s) : Carried (.string s)
  | array {items : List (SearchValue N)} (h : CarriedItems items) : Carried (.array items)
  | object {fields : List (JSString × SearchValue N)} (h : CarriedFields fields)
      (hnodup : (fields.map Prod.fst).Nodup) : Carried (.object fields)

inductive CarriedItems : List (SearchValue N) → Prop
  | nil : CarriedItems []
  | cons {item : SearchValue N} {items : List (SearchValue N)} (h : Carried item)
      (hs : CarriedItems items) : CarriedItems (item :: items)

inductive CarriedFields : List (JSString × SearchValue N) → Prop
  | nil : CarriedFields []
  | cons {key : JSString} {item : SearchValue N} {fields : List (JSString × SearchValue N)}
      (hkey : WellFormed key) (hallowed : key ∉ forbiddenKeys) (h : Carried item)
      (hs : CarriedFields fields) : CarriedFields ((key, item) :: fields)

end

theorem keys_toJSONFields (fields : List (JSString × SearchValue N)) :
    (toJSONFields numbers fields).map Prod.fst = fields.map Prod.fst := by
  induction fields with
  | nil => rfl
  | cons field fields ih =>
    rw [toJSONFields, List.map_cons, List.map_cons, ih]

mutual

theorem Carried.printed {v : SearchValue N} (h : Carried numbers v) : Printed (toJSON numbers v) := by
  match h with
  | .null => exact .null
  | .bool b => exact .bool b
  | .number h _ => exact .number h
  | .string h => exact .string _
  | .array h => exact .array h.printed
  | .object h hnodup => exact .object h.printed (keys_toJSONFields _ ▸ hnodup)

theorem CarriedItems.printed {items : List (SearchValue N)} (h : CarriedItems numbers items) :
    PrintedItems (toJSONItems numbers items) := by
  match h with
  | .nil => exact .nil
  | .cons h hs => exact .cons h.printed hs.printed

theorem CarriedFields.printed {fields : List (JSString × SearchValue N)}
    (h : CarriedFields numbers fields) : PrintedFields (toJSONFields numbers fields) := by
  match h with
  | .nil => exact .nil
  | .cons _ _ h hs => exact .cons h.printed hs.printed

end

theorem units_of_wellFormed {s : JSString} (h : WellFormed s) : ∀ c ∈ s, c < 0x10000 := by
  obtain ⟨points, hpoints⟩ := Option.isSome_iff_exists.mp h
  obtain ⟨rfl, hscalar⟩ := codePoints_scalar_units hpoints
  intro c hc
  obtain ⟨point, hpoint, hc⟩ := List.mem_flatMap.mp hc
  have hrange := hscalar point hpoint
  unfold JSString.utf16 at hc
  unfold IsScalar at hrange
  split_ifs at hc <;> simp only [List.mem_cons, List.not_mem_nil, or_false] at hc <;> omega

mutual

theorem Carried.units {v : SearchValue N} (h : Carried numbers v) :
    Units (toJSON numbers v).texts := by
  match h with
  | .null => exact nofun
  | .bool b => exact nofun
  | .number h _ => exact List.forall_mem_singleton.mpr (units_of_wellFormed h.wellFormed)
  | .string h => exact List.forall_mem_singleton.mpr (units_of_wellFormed h)
  | .array h => exact h.units
  | .object h _ => exact h.units

theorem CarriedItems.units {items : List (SearchValue N)} (h : CarriedItems numbers items) :
    Units (Value.textsOfItems (toJSONItems numbers items)) := by
  match h with
  | .nil => exact nofun
  | .cons h hs => exact JSON.units_append.mpr ⟨h.units, hs.units⟩

theorem CarriedFields.units {fields : List (JSString × SearchValue N)}
    (h : CarriedFields numbers fields) :
    Units (Value.textsOfFields (toJSONFields numbers fields)) := by
  match h with
  | .nil => exact nofun
  | .cons hkey _ h hs =>
    exact List.forall_mem_cons.mpr ⟨units_of_wellFormed hkey, JSON.units_append.mpr ⟨h.units, hs.units⟩⟩

end

mutual

theorem Carried.ofJSON_toJSON {v : SearchValue N} (h : Carried numbers v) :
    ofJSON numbers (toJSON numbers v) = v := by
  match h with
  | .null => rfl
  | .bool b => rfl
  | .number _ hread => rw [toJSON, ofJSON, hread]
  | .string _ => rfl
  | .array h => rw [toJSON, ofJSON, h.ofJSON_toJSON]
  | .object h _ => rw [toJSON, ofJSON, h.ofJSON_toJSON]

theorem CarriedItems.ofJSON_toJSON {items : List (SearchValue N)} (h : CarriedItems numbers items) :
    ofJSONItems numbers (toJSONItems numbers items) = items := by
  match h with
  | .nil => rfl
  | .cons h hs => rw [toJSONItems, ofJSONItems, h.ofJSON_toJSON, hs.ofJSON_toJSON]

theorem CarriedFields.ofJSON_toJSON {fields : List (JSString × SearchValue N)}
    (h : CarriedFields numbers fields) :
    ofJSONFields numbers (toJSONFields numbers fields) = fields := by
  match h with
  | .nil => rfl
  | .cons _ _ h hs => rw [toJSONFields, ofJSONFields, h.ofJSON_toJSON, hs.ofJSON_toJSON]

end

mutual

theorem Carried.sanitize {v : SearchValue N} (h : Carried numbers v) : Search.sanitize v = v := by
  match h with
  | .null => rfl
  | .bool b => rfl
  | .number _ _ => rfl
  | .string _ => rfl
  | .array h => rw [Search.sanitize, h.sanitize]
  | .object h _ => rw [Search.sanitize, h.sanitize]

theorem CarriedItems.sanitize {items : List (SearchValue N)} (h : CarriedItems numbers items) :
    sanitizeItems items = items := by
  match h with
  | .nil => rfl
  | .cons h hs => rw [sanitizeItems, h.sanitize, hs.sanitize]

theorem CarriedFields.sanitize {fields : List (JSString × SearchValue N)}
    (h : CarriedFields numbers fields) : sanitizeFields fields = fields := by
  match h with
  | .nil => rfl
  | .cons _ hallowed h hs => rw [sanitizeFields, if_neg hallowed, h.sanitize, hs.sanitize]

end

theorem head_of_readNumeral {c : ℕ} {rest left : JSString} {numeral : JSON.Numeral}
    (h : readNumeral (c :: rest) = some (numeral, left)) : c = 45 ∨ 48 ≤ c ∧ c ≤ 57 := by
  obtain ⟨negative, digits, integer, tail, fraction, tail', exponent, hsign, hinteger, -⟩ :=
    JSON.readNumeral_eq_some_iff.mp h
  by_cases hminus : c = 45
  · exact Or.inl hminus
  · rw [if_neg (by simpa using hminus)] at hsign
    obtain ⟨-, rfl⟩ := Prod.mk.inj hsign
    rw [JSON.readInteger] at hinteger
    split_ifs at hinteger with hzero hdigit
    · omega
    · have := of_decide_eq_true hdigit
      omega

theorem all_isBlank_of_skipBlank {s : JSString} (h : (skipBlank s).isEmpty = true) :
    s.all isBlank = true := by
  rw [List.isEmpty_iff, skipBlank, List.dropWhile_eq_nil_iff] at h
  exact List.all_eq_true.mpr h

theorem isJsonLiteral_of_stripPrefix {word raw rest : JSString}
    (hword : word ∈ [js "true", js "false", js "null"]) (h : stripPrefix word raw = some rest)
    (hrest : rest.all isBlank = true) : isJsonLiteral raw = true := by
  refine List.any_eq_true.mpr ⟨word, hword, ?_⟩
  rw [h]
  exact hrest

theorem stripPrefix_cons {c : ℕ} {word raw rest : JSString} (h : stripPrefix word raw = some rest) :
    stripPrefix (c :: word) (c :: raw) = some rest := by
  unfold stripPrefix at h ⊢
  simpa using h

theorem mayBeJson_of_parse {raw : JSString} (h : (parse raw).isSome) : mayBeJson raw = true := by
  obtain ⟨value, h⟩ := Option.isSome_iff_exists.mp h
  rw [parse, Option.bind_eq_some_iff] at h
  obtain ⟨⟨value', rest'⟩, hread, h⟩ := h
  have hrest : rest'.all isBlank = true := by
    by_contra hne
    simp only at h
    rw [if_neg fun hempty => hne (all_isBlank_of_skipBlank hempty)] at h
    cases h
  clear h
  cases raw with
  | nil => cases hread
  | cons c raw =>
    rw [mayBeJson]
    by_cases hopen : c = 34 ∨ c = 91 ∨ c = 123 ∨ c = 32 ∨ c = 9 ∨ c = 10 ∨ c = 13
    · rw [if_pos hopen]
    · rw [if_neg hopen]
      have hblank : isBlank c = false := by
        rw [← Bool.not_eq_true, JSON.isBlank_iff]
        omega
      rw [JSON.readValue, JSON.skipBlank_cons hblank] at hread
      simp only at hread
      rw [if_neg (by omega), if_neg (by omega), if_neg (by omega)] at hread
      by_cases hletter : c = 116 ∨ c = 102 ∨ c = 110
      · rw [if_pos hletter]
        rcases hletter with rfl | rfl | rfl
        · rw [if_neg (by decide), if_pos rfl, Option.map_eq_some_iff] at hread
          obtain ⟨left, hstrip, heq⟩ := hread
          obtain ⟨-, rfl⟩ := Prod.mk.inj heq
          have hword : stripPrefix (js "true") (116 :: raw) = some left := stripPrefix_cons hstrip
          exact isJsonLiteral_of_stripPrefix (by simp) hword hrest
        · rw [if_neg (by decide), if_neg (by decide), if_pos rfl, Option.map_eq_some_iff] at hread
          obtain ⟨left, hstrip, heq⟩ := hread
          obtain ⟨-, rfl⟩ := Prod.mk.inj heq
          have hword : stripPrefix (js "false") (102 :: raw) = some left := stripPrefix_cons hstrip
          exact isJsonLiteral_of_stripPrefix (by simp) hword hrest
        · rw [if_pos rfl, Option.map_eq_some_iff] at hread
          obtain ⟨left, hstrip, heq⟩ := hread
          obtain ⟨-, rfl⟩ := Prod.mk.inj heq
          have hword : stripPrefix (js "null") (110 :: raw) = some left := stripPrefix_cons hstrip
          exact isJsonLiteral_of_stripPrefix (by simp) hword hrest
      · rw [if_neg hletter]
        rw [if_neg (by omega), if_neg (by omega), if_neg (by omega), JSON.readNumber,
          Option.map_eq_some_iff] at hread
        obtain ⟨⟨numeral, left⟩, hnumeral, heq⟩ := hread
        obtain ⟨-, rfl⟩ := Prod.mk.inj heq
        rw [if_pos (head_of_readNumeral hnumeral), isJsonNumber, hnumeral]
        exact hrest

variable {limits : SearchLimits}

theorem Carried.parse_stringify {v : SearchValue N} (h : Carried numbers v) :
    parse (toJSON numbers v).stringify = some (toJSON numbers v) := h.printed.parse_stringify

theorem Carried.decodeValue_stringify {v : SearchValue N} (h : Carried numbers v)
    (hdepth : exceedsDepth limits.maxDepth v = false) :
    decodeValue numbers limits (toJSON numbers v).stringify = v := by
  have hparse := h.parse_stringify
  have hmay : mayBeJson (toJSON numbers v).stringify = true :=
    mayBeJson_of_parse (hparse ▸ rfl)
  rw [decodeValue, hmay, hparse]
  simp only [Bool.not_true, Bool.false_eq_true, if_false, h.ofJSON_toJSON, hdepth]
  exact h.sanitize

theorem decodeValue_of_parse_eq_none {raw : JSString} (h : parse raw = none) :
    decodeValue numbers limits raw = .string raw := by
  unfold decodeValue
  split_ifs
  · rfl
  · rw [h]

theorem Carried.decodeValue_encodeValue {v : SearchValue N} (h : Carried numbers v)
    (hdepth : exceedsDepth limits.maxDepth v = false) :
    decodeValue numbers limits (encodeValue numbers v) = v := by
  have hprinted := h.decodeValue_stringify hdepth
  cases v with
  | string s =>
    rw [encodeValue]
    split_ifs with hjson
    · exact hprinted
    · exact decodeValue_of_parse_eq_none (Option.not_isSome_iff_eq_none.mp hjson)
  | null | bool b | number n | array items | object fields => exact hprinted

theorem Carried.wellFormed_encodeValue {v : SearchValue N} (h : Carried numbers v) :
    WellFormed (encodeValue numbers v) := by
  have hprinted : WellFormed (toJSON numbers v).stringify :=
    JSON.wellFormed_stringify h.printed h.units
  cases h with
  | @string s hs =>
    rw [encodeValue]
    split_ifs
    · exact hprinted
    · exact hs
  | null | bool b | number _ _ | array _ | object _ _ => exact hprinted

mutual

def SearchValue.keys : SearchValue N → List JSString
  | .array items => SearchValue.keysOfItems items
  | .object fields => SearchValue.keysOfFields fields
  | _ => []

def SearchValue.keysOfItems : List (SearchValue N) → List JSString
  | [] => []
  | item :: items => item.keys ++ SearchValue.keysOfItems items

def SearchValue.keysOfFields : List (JSString × SearchValue N) → List JSString
  | [] => []
  | (key, item) :: fields => key :: item.keys ++ SearchValue.keysOfFields fields

end

mutual

theorem not_mem_forbiddenKeys_sanitize (v : SearchValue N) :
    ∀ key ∈ (sanitize v).keys, key ∉ forbiddenKeys := by
  match v with
  | .null | .bool b | .number n | .string s => exact nofun
  | .array items => exact not_mem_forbiddenKeys_sanitizeItems items
  | .object fields => exact not_mem_forbiddenKeys_sanitizeFields fields

theorem not_mem_forbiddenKeys_sanitizeItems (items : List (SearchValue N)) :
    ∀ key ∈ SearchValue.keysOfItems (sanitizeItems items), key ∉ forbiddenKeys := by
  match items with
  | [] => exact nofun
  | item :: items =>
    exact List.forall_mem_append.mpr
      ⟨not_mem_forbiddenKeys_sanitize item, not_mem_forbiddenKeys_sanitizeItems items⟩

theorem not_mem_forbiddenKeys_sanitizeFields (fields : List (JSString × SearchValue N)) :
    ∀ key ∈ SearchValue.keysOfFields (sanitizeFields fields), key ∉ forbiddenKeys := by
  match fields with
  | [] => exact nofun
  | (key, item) :: fields =>
    rw [sanitizeFields]
    split_ifs with hkey
    · exact not_mem_forbiddenKeys_sanitizeFields fields
    · exact List.forall_mem_cons.mpr ⟨hkey, List.forall_mem_append.mpr
        ⟨not_mem_forbiddenKeys_sanitize item, not_mem_forbiddenKeys_sanitizeFields fields⟩⟩

end

theorem not_mem_forbiddenKeys_decodeValue (raw : JSString) :
    ∀ key ∈ (decodeValue numbers limits raw).keys, key ∉ forbiddenKeys := by
  unfold decodeValue
  split_ifs
  · exact nofun
  · split
    · exact nofun
    · simp only
      split_ifs
      · exact nofun
      · exact not_mem_forbiddenKeys_sanitize _

end Nifra.Search
