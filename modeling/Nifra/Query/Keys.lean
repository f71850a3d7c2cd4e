import Nifra.Lib.StableSort
import Nifra.Text.CanonicalJSON

/-! # Query keys

The hash of a key is the text of its JSON value with the keys of every object sorted. Keys have one
hash exactly when JSON makes values of them that are equal up to the order of keys.
-/

namespace Nifra.Query

open JSON (NumberFormat Unknown Value sortByKey canonicalForm formItems formFields IsData Printed
  natOfDigits)

/-- What a query key may hold. An object is known by its own enumerable properties, and `toJSON` is
a value with a method of that name, which gives the answer; a function, a symbol, a bigint and a
cycle cannot be printed. -/
inductive KeyValue (N : Type)
  | undefined
  | null
  | bool (b : Bool)
  | number (n : N)
  | string (s : JSString)
  | array (items : List (KeyValue N))
  | object (fields : List (JSString × KeyValue N))
  | toJSON (self answer : KeyValue N)
  | unprintable

mutual

def KeyValue.Distinct {N : Type} : KeyValue N → Prop
  | .array items => DistinctItems items
  | .object fields => (fields.map Prod.fst).Nodup ∧ DistinctFields fields
  | .toJSON self answer => self.Distinct ∧ answer.Distinct
  | _ => True

def DistinctItems {N : Type} : List (KeyValue N) → Prop
  | [] => True
  | item :: items => item.Distinct ∧ DistinctItems items

def DistinctFields {N : Type} : List (JSString × KeyValue N) → Prop
  | [] => True
  | (_, field) :: fields => field.Distinct ∧ DistinctFields fields

end

structure QueryKey (N : Type) where
  value : KeyValue N
  distinct : value.Distinct

def arrayIndex (key : JSString) : Option ℕ :=
  let n := natOfDigits key
  if decimal n = key ∧ n < 4294967295 then some n else none

/-- The order of own properties that came in sorted: indices first, from the least. -/
def ownOrder {V : Type} (fields : List (JSString × V)) : List (JSString × V) :=
  (fields.filter fun field => (arrayIndex field.1).isSome).sortOn
      (fun field => (arrayIndex field.1).getD 0) ++
    fields.filter fun field => (arrayIndex field.1).isNone

section Hash
variable {N : Type} (format : NumberFormat N)

mutual

/-- What `JSON.stringify` prints with `queryKeyReplacer`, where that does not throw, and no value
for `undefined`. A `toJSON` is called once. -/
def replaced (called : Bool) : KeyValue N → Option (Option Value)
  | .toJSON self answer => if called then replaced true self else replaced true answer
  | .undefined => some none
  | .null => some (some .null)
  | .bool b => some (some (.bool b))
  | .number n => some (some (if format.isFinite n then .number (format.print n) else .null))
  | .string s => some (some (.string s))
  | .array items => (replacedItems items).map fun items => some (.array items)
  | .object fields =>
    (replacedFields fields).map fun fields => some (.object (ownOrder (sortByKey fields)))
  | .unprintable => none

def replacedItems : List (KeyValue N) → Option (List Value)
  | [] => some []
  | item :: items => do
    let item ← replaced false item
    let items ← replacedItems items
    return item.getD .null :: items

def replacedFields : List (JSString × KeyValue N) → Option (List (JSString × Value))
  | [] => some []
  | (key, field) :: fields => do
    let field ← replaced false field
    let fields ← replacedFields fields
    return match field with
      | some field => (key, field) :: fields
      | none => fields

end

def hashQueryKey (key : KeyValue N) : Option JSString :=
  (replaced format false key).map fun value =>
    match value with
    | some value => value.stringify
    | none => js "null"

def hashQueryKeyPart : KeyValue N → Option JSString
  | .undefined => hashQueryKey format .null
  | part => hashQueryKey format part

/-- The items of what `Array.isArray` accepts. -/
def KeyValue.elements : KeyValue N → Option (List (KeyValue N))
  | .array items => some items
  | .toJSON self _ => self.elements
  | _ => none

def hashParts : List (KeyValue N) → Option (List JSString)
  | [] => some []
  | part :: parts => do
    let part ← hashQueryKeyPart format part
    let parts ← hashParts parts
    return part :: parts

def hashQueryKeyParts (key : KeyValue N) : Option (Option (List JSString)) :=
  match key.elements with
  | none => some none
  | some items => (hashParts format items).map some

/-- A structural match of the front of an array; a key or a prefix that is none matches by its hash.
-/
def keyMatchesPrefix (keyHash : JSString) (keyParts : Option (List JSString))
    (prefixHash : JSString) (prefixParts : Option (List JSString)) : Bool :=
  match keyParts, prefixParts with
  | some keyParts, some prefixParts => prefixParts.isPrefixOf keyParts
  | _, _ => keyHash == prefixHash

mutual

def KeyValue.json (called : Bool) : KeyValue N → Option (Unknown N)
  | .toJSON self answer => if called then self.json true else answer.json true
  | .undefined => some .undefined
  | .null => some .null
  | .bool b => some (.bool b)
  | .number n => some (if format.isFinite n then .number n else .null)
  | .string s => some (.string s)
  | .array items => (jsonItems items).map .array
  | .object fields => (jsonFields fields).map .object
  | .unprintable => none

def jsonItems : List (KeyValue N) → Option (List (Unknown N))
  | [] => some []
  | item :: items => do
    let item ← item.json false
    let items ← jsonItems items
    return (if item.isDefined then item else .null) :: items

def jsonFields : List (JSString × KeyValue N) → Option (List (JSString × Unknown N))
  | [] => some []
  | (key, field) :: fields => do
    let field ← field.json false
    let fields ← jsonFields fields
    return (key, field) :: fields

end

/-- A value in the place of a key or of an item, where there is no `undefined`. -/
def orNull (value : Unknown N) : Unknown N := if value.isDefined then value else .null

def SameKey (a b : KeyValue N) : Prop :=
  ∃ v w, a.json format false = some v ∧ b.json format false = some w ∧
    JSON.Same format (orNull v) (orNull w)

/-- A key begins with the parts of an array, where it is an array too, and else it is the same. -/
def Matches (key keyOrPrefix : KeyValue N) : Prop :=
  match key.elements, keyOrPrefix.elements with
  | some items, some parts => ∃ front, front <+: items ∧ List.Forall₂ (SameKey format) front parts
  | _, _ => SameKey format key keyOrPrefix

end Hash

section Order
variable {V : Type} {fields fields' : List (JSString × V)}

theorem ownOrder_perm (fields : List (JSString × V)) : (ownOrder fields).Perm fields := by
  have hnone : (fields.filter fun field => (arrayIndex field.1).isNone) =
      fields.filter fun field => !(arrayIndex field.1).isSome := by
    simp only [Option.not_isSome]
  rw [ownOrder, hnone]
  exact ((List.sortOn_perm _ _).append_right _).trans (List.filter_append_perm _ _)

theorem nodup_keys_ownOrder_iff : ((ownOrder fields).map Prod.fst).Nodup ↔
    (fields.map Prod.fst).Nodup :=
  ((ownOrder_perm fields).map Prod.fst).nodup_iff

theorem sortByKey_ownOrder (hnodup : (fields.map Prod.fst).Nodup) :
    sortByKey (ownOrder fields) = sortByKey fields :=
  JSON.eq_sortByKey hnodup ((JSON.sortByKey_perm _).trans (ownOrder_perm fields))
    (JSON.pairwise_sortByKey _)

theorem sortByKey_sortByKey (hnodup : (fields.map Prod.fst).Nodup) :
    sortByKey (sortByKey fields) = sortByKey fields :=
  JSON.eq_sortByKey hnodup ((JSON.sortByKey_perm _).trans (JSON.sortByKey_perm fields))
    (JSON.pairwise_sortByKey _)

end Order

mutual

def ordered : Value → Value
  | .array items => .array (orderedItems items)
  | .object fields => .object (ownOrder (orderedFields fields))
  | v => v

def orderedItems : List Value → List Value
  | [] => []
  | item :: items => ordered item :: orderedItems items

def orderedFields : List (JSString × Value) → List (JSString × Value)
  | [] => []
  | (key, field) :: fields => (key, ordered field) :: orderedFields fields

end

mutual

def sorted : Value → Value
  | .array items => .array (sortedItems items)
  | .object fields => .object (sortByKey (sortedFields fields))
  | v => v

def sortedItems : List Value → List Value
  | [] => []
  | item :: items => sorted item :: sortedItems items

def sortedFields : List (JSString × Value) → List (JSString × Value)
  | [] => []
  | (key, field) :: fields => (key, sorted field) :: sortedFields fields

end

theorem orderedItems_eq_map (items : List Value) : orderedItems items = items.map ordered := by
  induction items with
  | nil => rfl
  | cons item items ih => rw [orderedItems, ih, List.map_cons]

theorem sortedItems_eq_map (items : List Value) : sortedItems items = items.map sorted := by
  induction items with
  | nil => rfl
  | cons item items ih => rw [sortedItems, ih, List.map_cons]

theorem orderedFields_eq_map (fields : List (JSString × Value)) :
    orderedFields fields = fields.map fun field => (field.1, ordered field.2) := by
  induction fields with
  | nil => rfl
  | cons field fields ih => rw [orderedFields, ih, List.map_cons]

theorem sortedFields_eq_map (fields : List (JSString × Value)) :
    sortedFields fields = fields.map fun field => (field.1, sorted field.2) := by
  induction fields with
  | nil => rfl
  | cons field fields ih => rw [sortedFields, ih, List.map_cons]

theorem keys_orderedFields (fields : List (JSString × Value)) :
    (orderedFields fields).map Prod.fst = fields.map Prod.fst := by
  rw [orderedFields_eq_map, List.map_map]
  rfl

variable {N : Type} {format : NumberFormat N}

theorem sorted_ordered_canonicalForm {v : Unknown N} (h : IsData format v) :
    sorted (ordered (canonicalForm format v)) = canonicalForm format v := by
  induction h with
  | null => rfl
  | bool b => rfl
  | number h => rfl
  | string s => rfl
  | array _ ih =>
    rw [canonicalForm, ordered, sorted, orderedItems_eq_map, sortedItems_eq_map,
      JSON.formItems_eq_map, List.map_map, List.map_map]
    congr 1
    exact List.map_congr_left ih
  | @object fields hnodup _ ih =>
    have hkeys : ((orderedFields (sortByKey (formFields format fields))).map Prod.fst).Nodup := by
      rw [keys_orderedFields]
      exact JSON.nodup_keys_sortByKey_iff.mpr (JSON.nodup_keys_formFields hnodup)
    have hsame : (orderedFields (sortByKey (formFields format fields))).map
        (fun field => (field.1, sorted field.2)) = sortByKey (formFields format fields) := by
      rw [orderedFields_eq_map, List.map_map]
      refine (List.map_congr_left ?_).trans (List.map_id _)
      rintro ⟨key, v⟩ hv
      obtain ⟨field, hmem, hdefined, rfl⟩ :=
        JSON.mem_formFields_iff.mp (JSON.mem_sortByKey_iff.mp hv)
      exact congrArg (Prod.mk key) (ih (key, field) hmem hdefined)
    rw [canonicalForm, ordered, sorted, sortedFields_eq_map,
      JSON.sortByKey_map (fun field => (field.1, sorted field.2)) fun _ => rfl,
      sortByKey_ownOrder hkeys,
      ← JSON.sortByKey_map (fun field => (field.1, sorted field.2)) fun _ => rfl, hsame,
      sortByKey_sortByKey (JSON.nodup_keys_formFields hnodup)]

theorem printed_ordered_canonicalForm {v : Unknown N} (h : IsData format v) :
    Printed (ordered (canonicalForm format v)) := by
  induction h with
  | null => exact .null
  | bool b => exact .bool b
  | number h => exact .number (format.numeral _ h)
  | string s => exact .string s
  | array _ ih =>
    rw [canonicalForm, ordered, orderedItems_eq_map, JSON.formItems_eq_map, List.map_map,
      JSON.printed_array_iff]
    intro v hv
    obtain ⟨item, hitem, rfl⟩ := List.mem_map.mp hv
    exact ih item hitem
  | @object fields hnodup _ ih =>
    rw [canonicalForm, ordered, JSON.printed_object_iff, nodup_keys_ownOrder_iff,
      keys_orderedFields, JSON.nodup_keys_sortByKey_iff, orderedFields_eq_map]
    refine ⟨fun field hfield => ?_, JSON.nodup_keys_formFields hnodup⟩
    obtain ⟨⟨key, v⟩, hv, rfl⟩ := List.mem_map.mp ((ownOrder_perm _).mem_iff.mp hfield)
    obtain ⟨field, hmem, hdefined, rfl⟩ :=
      JSON.mem_formFields_iff.mp (JSON.mem_sortByKey_iff.mp hv)
    exact ih (key, field) hmem hdefined

theorem orderedFields_sortByKey (fields : List (JSString × Value)) :
    orderedFields (sortByKey fields) = sortByKey (orderedFields fields) := by
  rw [orderedFields_eq_map, orderedFields_eq_map,
    JSON.sortByKey_map (fun field => (field.1, ordered field.2)) fun _ => rfl]

mutual

theorem KeyValue.Distinct.isData {key : KeyValue N} (h : key.Distinct) {called : Bool}
    {v : Unknown N} (hjson : key.json format called = some v) (hdefined : v.isDefined) :
    IsData format v := by
  cases key with
  | undefined =>
    obtain rfl := Option.some.inj hjson
    cases hdefined
  | null => exact Option.some.inj hjson ▸ .null
  | bool b => exact Option.some.inj hjson ▸ .bool b
  | number n =>
    obtain rfl := Option.some.inj hjson
    split_ifs with hfinite
    · exact .number hfinite
    · exact .null
  | string s => exact Option.some.inj hjson ▸ .string s
  | array items =>
    obtain ⟨vs, hvs, rfl⟩ := Option.map_eq_some_iff.mp hjson
    exact .array (DistinctItems.isData h hvs)
  | object fields =>
    obtain ⟨vs, hvs, rfl⟩ := Option.map_eq_some_iff.mp hjson
    obtain ⟨hkeys, hfields⟩ := DistinctFields.isData h.2 hvs
    exact .object (hkeys ▸ h.1) hfields
  | toJSON self answer =>
    rw [KeyValue.json] at hjson
    split_ifs at hjson
    · exact KeyValue.Distinct.isData h.1 hjson hdefined
    · exact KeyValue.Distinct.isData h.2 hjson hdefined
  | unprintable => cases hjson

theorem DistinctItems.isData {items : List (KeyValue N)} (h : DistinctItems items)
    {vs : List (Unknown N)} (hjson : jsonItems format items = some vs) :
    ∀ v ∈ vs, IsData format v := by
  cases items with
  | nil =>
    obtain rfl := Option.some.inj hjson
    nofun
  | cons item items =>
    obtain ⟨v, hv, hjson⟩ := Option.bind_eq_some_iff.mp hjson
    obtain ⟨rest, hrest, hjson⟩ := Option.bind_eq_some_iff.mp hjson
    obtain rfl := Option.some.inj hjson
    rw [List.forall_mem_cons]
    refine ⟨?_, DistinctItems.isData h.2 hrest⟩
    split_ifs with hdefined
    · exact KeyValue.Distinct.isData h.1 hv hdefined
    · exact .null

theorem DistinctFields.isData {fields : List (JSString × KeyValue N)} (h : DistinctFields fields)
    {vs : List (JSString × Unknown N)} (hjson : jsonFields format fields = some vs) :
    fields.map Prod.fst = vs.map Prod.fst ∧
      ∀ field ∈ vs, field.2.isDefined → IsData format field.2 := by
  cases fields with
  | nil =>
    obtain rfl := Option.some.inj hjson
    exact ⟨rfl, nofun⟩
  | cons field fields =>
    obtain ⟨v, hv, hjson⟩ := Option.bind_eq_some_iff.mp hjson
    obtain ⟨rest, hrest, hjson⟩ := Option.bind_eq_some_iff.mp hjson
    obtain rfl := Option.some.inj hjson
    obtain ⟨hkeys, hfields⟩ := DistinctFields.isData h.2 hrest
    rw [List.forall_mem_cons]
    exact ⟨congrArg (List.cons field.1) hkeys,
      fun hdefined => KeyValue.Distinct.isData h.1 hv hdefined, hfields⟩

end

def printedForm (format : NumberFormat N) (v : Unknown N) : Option Value :=
  if v.isDefined then some (ordered (canonicalForm format v)) else none

theorem getD_printedForm (v : Unknown N) :
    (printedForm format v).getD .null = ordered (canonicalForm format (orNull v)) := by
  unfold printedForm orNull
  split_ifs
  · rfl
  · rfl

mutual

theorem replaced_eq (called : Bool) (key : KeyValue N) :
    replaced format called key = (key.json format called).map (printedForm format) := by
  cases key with
  | undefined => rfl
  | null => rfl
  | bool b => rfl
  | number n =>
    rw [replaced, KeyValue.json]
    split_ifs
    · rfl
    · rfl
  | string s => rfl
  | array items =>
    rw [replaced, replacedItems_eq, KeyValue.json, Option.map_map, Option.map_map]
    congr 1
    funext vs
    simp only [Function.comp_apply, printedForm, Unknown.isDefined, if_true, canonicalForm, ordered,
      orderedItems_eq_map, JSON.formItems_eq_map, List.map_map]
    rfl
  | object fields =>
    rw [replaced, replacedFields_eq, KeyValue.json, Option.map_map, Option.map_map]
    congr 1
    funext vs
    simp only [Function.comp_apply, printedForm, Unknown.isDefined, if_true, canonicalForm, ordered,
      orderedFields_sortByKey]
  | toJSON self answer =>
    rw [replaced, KeyValue.json]
    split_ifs
    · exact replaced_eq true self
    · exact replaced_eq true answer
  | unprintable => rfl

theorem replacedItems_eq (items : List (KeyValue N)) : replacedItems format items =
    (jsonItems format items).map (List.map fun v => ordered (canonicalForm format v)) := by
  cases items with
  | nil => rfl
  | cons item items =>
    rw [replacedItems, jsonItems, replaced_eq, replacedItems_eq]
    cases item.json format false with
    | none => rfl
    | some v =>
      cases jsonItems format items with
      | none => rfl
      | some vs =>
        have hv : (printedForm format v).getD .null =
            ordered (canonicalForm format (if v.isDefined then v else .null)) := getD_printedForm v
        simp [hv]

theorem replacedFields_eq (fields : List (JSString × KeyValue N)) : replacedFields format fields =
    (jsonFields format fields).map fun vs => orderedFields (formFields format vs) := by
  cases fields with
  | nil => rfl
  | cons field fields =>
    rw [replacedFields, jsonFields, replaced_eq, replacedFields_eq]
    cases field.2.json format false with
    | none => rfl
    | some v =>
      cases jsonFields format fields with
      | none => rfl
      | some vs =>
        simp only [Option.map_some, Option.bind_eq_bind, Option.bind_some, Option.pure_def,
          formFields, printedForm]
        split_ifs
        · rfl
        · rfl

end

theorem hashQueryKey_eq (key : KeyValue N) : hashQueryKey format key =
    (key.json format false).map fun v => (ordered (canonicalForm format (orNull v))).stringify := by
  rw [hashQueryKey, replaced_eq, Option.map_map]
  congr 1
  funext v
  simp only [Function.comp_apply, printedForm, orNull]
  split_ifs
  · rfl
  · rfl

theorem isData_orNull {key : KeyValue N} (h : key.Distinct) {called : Bool} {v : Unknown N}
    (hjson : key.json format called = some v) : IsData format (orNull v) := by
  unfold orNull
  split_ifs with hdefined
  · exact h.isData hjson hdefined
  · exact .null

theorem hashQueryKey_eq_iff {a b : KeyValue N} (ha : a.Distinct) (hb : b.Distinct) {s t : JSString}
    (hs : hashQueryKey format a = some s) (ht : hashQueryKey format b = some t) :
    s = t ↔ SameKey format a b := by
  rw [hashQueryKey_eq, Option.map_eq_some_iff] at hs ht
  obtain ⟨v, hv, rfl⟩ := hs
  obtain ⟨w, hw, rfl⟩ := ht
  have hvdata := isData_orNull ha hv
  have hwdata := isData_orNull hb hw
  constructor
  · intro h
    refine ⟨v, w, hv, hw, JSON.same_of_canonicalForm_eq hvdata hwdata ?_⟩
    have htree := (printed_ordered_canonicalForm hvdata).stringify_injective
      (printed_ordered_canonicalForm hwdata) h
    rw [← sorted_ordered_canonicalForm hvdata, htree, sorted_ordered_canonicalForm hwdata]
  · rintro ⟨v', w', hv', hw', hsame⟩
    obtain rfl := Option.some.inj (hv.symm.trans hv')
    obtain rfl := Option.some.inj (hw.symm.trans hw')
    rw [hsame.canonicalForm_eq hvdata hwdata]

theorem hashQueryKeyPart_eq (part : KeyValue N) :
    hashQueryKeyPart format part = hashQueryKey format part := by
  cases part <;> rfl

theorem forall₂_of_hashParts {items : List (KeyValue N)} {hashes : List JSString}
    (h : hashParts format items = some hashes) :
    List.Forall₂ (fun item hash => hashQueryKey format item = some hash) items hashes := by
  induction items generalizing hashes with
  | nil =>
    obtain rfl := Option.some.inj h
    exact .nil
  | cons item items ih =>
    obtain ⟨hash, hhash, h⟩ := Option.bind_eq_some_iff.mp h
    obtain ⟨rest, hrest, h⟩ := Option.bind_eq_some_iff.mp h
    obtain rfl := Option.some.inj h
    rw [hashQueryKeyPart_eq] at hhash
    exact .cons hhash (ih hrest)

theorem DistinctItems.of_mem {items : List (KeyValue N)} (h : DistinctItems items)
    {item : KeyValue N} (hitem : item ∈ items) : item.Distinct := by
  induction items with
  | nil => cases hitem
  | cons head items ih =>
    rcases List.mem_cons.mp hitem with rfl | hitem
    · exact h.1
    · exact ih h.2 hitem

theorem KeyValue.Distinct.elements {key : KeyValue N} (h : key.Distinct)
    {items : List (KeyValue N)} (hitems : key.elements = some items) : DistinctItems items := by
  cases key with
  | array items => exact Option.some.inj hitems ▸ h
  | toJSON self answer => exact KeyValue.Distinct.elements h.1 hitems
  | _ => cases hitems

theorem hashes_isPrefix_iff {items parts : List (KeyValue N)} {hashes others : List JSString}
    (hitems : ∀ item ∈ items, item.Distinct) (hparts : ∀ part ∈ parts, part.Distinct)
    (hhashes : List.Forall₂ (fun item hash => hashQueryKey format item = some hash) items hashes)
    (hothers : List.Forall₂ (fun part hash => hashQueryKey format part = some hash) parts others) :
    others <+: hashes ↔ ∃ front, front <+: items ∧ List.Forall₂ (SameKey format) front parts := by
  induction hothers generalizing items hashes with
  | nil => exact iff_of_true List.nil_prefix ⟨[], List.nil_prefix, .nil⟩
  | @cons part other parts others hother _ ih =>
    rw [List.forall_mem_cons] at hparts
    cases hhashes with
    | nil =>
      refine iff_of_false (fun h => List.cons_ne_nil _ _ (List.prefix_nil.mp h)) ?_
      rintro ⟨front, hfront, hsame⟩
      rw [List.prefix_nil.mp hfront] at hsame
      cases hsame
    | @cons item hash items hashes hhash hhashes =>
      rw [List.forall_mem_cons] at hitems
      have hhead := hashQueryKey_eq_iff hitems.1 hparts.1 hhash hother
      rw [List.cons_prefix_cons, ih hitems.2 hparts.2 hhashes, eq_comm, hhead]
      constructor
      · rintro ⟨hsame, front, hfront, hrest⟩
        exact ⟨item :: front, List.cons_prefix_cons.mpr ⟨rfl, hfront⟩, .cons hsame hrest⟩
      · rintro ⟨front, hfront, hsame⟩
        cases hsame with
        | cons hsame hrest =>
          obtain ⟨rfl, hrestfront⟩ := List.cons_prefix_cons.mp hfront
          exact ⟨hsame, _, hrestfront, hrest⟩

theorem hashQueryKeyParts_cases {key : KeyValue N} {parts : Option (List JSString)}
    (h : hashQueryKeyParts format key = some parts) :
    key.elements = none ∧ parts = none ∨ ∃ items hashes, key.elements = some items ∧
      hashParts format items = some hashes ∧ parts = some hashes := by
  unfold hashQueryKeyParts at h
  split at h
  · rename_i hnone
    exact Or.inl ⟨hnone, (Option.some.inj h).symm⟩
  · rename_i items hitems
    obtain ⟨hashes, hhashes, rfl⟩ := Option.map_eq_some_iff.mp h
    exact Or.inr ⟨items, hashes, hitems, hhashes, rfl⟩

theorem keyMatchesPrefix_iff {key keyOrPrefix : KeyValue N} (hkey : key.Distinct)
    (hfront : keyOrPrefix.Distinct) {keyHash prefixHash : JSString}
    {keyParts prefixParts : Option (List JSString)}
    (hkeyHash : hashQueryKey format key = some keyHash)
    (hkeyParts : hashQueryKeyParts format key = some keyParts)
    (hprefixHash : hashQueryKey format keyOrPrefix = some prefixHash)
    (hprefixParts : hashQueryKeyParts format keyOrPrefix = some prefixParts) :
    keyMatchesPrefix keyHash keyParts prefixHash prefixParts ↔ Matches format key keyOrPrefix := by
  have hsame := hashQueryKey_eq_iff hkey hfront hkeyHash hprefixHash
  rcases hashQueryKeyParts_cases hkeyParts with ⟨hnone, rfl⟩ | ⟨items, hashes, hitems, hhashes, rfl⟩
  · simp only [keyMatchesPrefix, Matches, hnone, beq_iff_eq, hsame]
  · rcases hashQueryKeyParts_cases hprefixParts with
      ⟨hnone, rfl⟩ | ⟨parts, others, hparts, hothers, rfl⟩
    · simp only [keyMatchesPrefix, Matches, hnone, hitems, beq_iff_eq, hsame]
    · simp only [keyMatchesPrefix, Matches, hitems, hparts, List.isPrefixOf_iff_prefix]
      exact hashes_isPrefix_iff (fun _ => (hkey.elements hitems).of_mem)
        (fun _ => (hfront.elements hparts).of_mem) (forall₂_of_hashParts hhashes)
        (forall₂_of_hashParts hothers)

end Nifra.Query
