import Nifra.Lib.InsertionMap
import Nifra.Text.JSONValue

/-! # Canonical JSON

Object keys sorted by UTF-16 code unit, no whitespace, `undefined` members left out. Two JSON data
values have one canonical text exactly when they are equal up to the order of keys.
-/

namespace Nifra.JSON

/-- Numbers and their texts. A finite number is printed as a numeral, which is read as a number that
is printed the same. -/
structure NumberFormat (N : Type) where
  isFinite : N → Bool
  print : N → JSString
  read : JSString → N
  numeral : ∀ n, isFinite n → IsNumeral (print n)
  print_read : ∀ n, isFinite n → print (read (print n)) = print n

/-- A value of type `unknown`. An object here has a plain or null prototype, with its own string
keys; a missing item of an array is `undefined`. -/
inductive Unknown (N : Type)
  | undefined
  | null
  | bool (b : Bool)
  | number (n : N)
  | string (s : JSString)
  | array (items : List (Unknown N))
  | object (fields : List (JSString × Unknown N))
  | rawJson (text : JSString)
  | nonPlain
  | function
  | symbol
  | bigint

section Encoding
variable {N : Type} (format : NumberFormat N)

def Unknown.isDefined : Unknown N → Bool
  | .undefined => false
  | _ => true

def cannotEncode (what : JSString) : JSString := js "canonical JSON cannot encode " ++ what

/-- The loop over the sorted keys: an `undefined` member is left out. -/
def joinMembers : List (JSString × Option (Except JSString JSString)) →
    Except JSString (List JSString)
  | [] => .ok []
  | (_, none) :: rest => joinMembers rest
  | (key, some field) :: rest => do
    let field ← field
    let members ← joinMembers rest
    return (ofString key ++ js ":" ++ field) :: members

/-- `Object.keys(record).sort()`, with what belongs to each key. -/
def sortByKey {V : Type} (fields : List (JSString × V)) : List (JSString × V) :=
  fields.mergeSort fun a b => decide (a.1 ≤ b.1)

mutual

def canonicalJson : Unknown N → Except JSString JSString
  | .null => .ok (js "null")
  | .bool true => .ok (js "true")
  | .bool false => .ok (js "false")
  | .string s => .ok (ofString s)
  | .number n =>
    if format.isFinite n then .ok (format.print n) else .error (cannotEncode (format.print n))
  | .array items => do
    let items ← canonicalItems items
    return js "[" ++ [44].intercalate items ++ js "]"
  | .rawJson text => .ok text
  | .object fields => do
    let members ← joinMembers (sortByKey (canonicalFields fields))
    return js "\x7b" ++ [44].intercalate members ++ js "\x7d"
  | .nonPlain => .error (cannotEncode (js "a non-plain object"))
  | .undefined => .error (cannotEncode (js "undefined"))
  | .function => .error (cannotEncode (js "function"))
  | .symbol => .error (cannotEncode (js "symbol"))
  | .bigint => .error (cannotEncode (js "bigint"))

def canonicalItems : List (Unknown N) → Except JSString (List JSString)
  | [] => .ok []
  | item :: items => do
    let item ← canonicalJson item
    let items ← canonicalItems items
    return item :: items

/-- The keys of a record with the texts of their members, `none` for `undefined`. -/
def canonicalFields :
    List (JSString × Unknown N) → List (JSString × Option (Except JSString JSString))
  | [] => []
  | (key, field) :: fields =>
    (key, if field.isDefined then some (canonicalJson field) else none) :: canonicalFields fields

end

mutual

def ofValue : Value → Unknown N
  | .null => .null
  | .bool b => .bool b
  | .number text => .number (format.read text)
  | .string s => .string s
  | .array items => .array (ofItems items)
  | .object fields => .object (ofFields fields)

def ofItems : List Value → List (Unknown N)
  | [] => []
  | item :: items => ofValue item :: ofItems items

def ofFields : List (JSString × Value) → List (JSString × Unknown N)
  | [] => []
  | (key, field) :: fields => (key, ofValue field) :: ofFields fields

end

def jsonParse (text : JSString) : Option (Unknown N) := (parse text).map (ofValue format)

/-- The member under a key, `none` also when it is `undefined`. -/
def member (fields : List (JSString × Unknown N)) (key : JSString) : Option (Unknown N) :=
  ((fields.find? fun field => field.1 = key).map Prod.snd).filter Unknown.isDefined

/-- JSON data: finite numbers, no `undefined` but as a member, distinct keys. -/
inductive IsData : Unknown N → Prop
  | null : IsData .null
  | bool (b : Bool) : IsData (.bool b)
  | number {n : N} (h : format.isFinite n) : IsData (.number n)
  | string (s : JSString) : IsData (.string s)
  | array {items : List (Unknown N)} (h : ∀ item ∈ items, IsData item) : IsData (.array items)
  | object {fields : List (JSString × Unknown N)} (hnodup : (fields.map Prod.fst).Nodup)
      (h : ∀ field ∈ fields, field.2.isDefined → IsData field.2) : IsData (.object fields)

/-- Equality up to the order of keys, of numbers as they are printed. -/
inductive Same : Unknown N → Unknown N → Prop
  | null : Same .null .null
  | bool (b : Bool) : Same (.bool b) (.bool b)
  | number {m n : N} (h : format.print m = format.print n) : Same (.number m) (.number n)
  | string (s : JSString) : Same (.string s) (.string s)
  | array {items items' : List (Unknown N)} (hlength : items.length = items'.length)
      (h : ∀ (i : ℕ) a b, items[i]? = some a → items'[i]? = some b → Same a b) :
      Same (.array items) (.array items')
  | object {fields fields' : List (JSString × Unknown N)}
      (hkeys : ∀ key, (member fields key).isSome = (member fields' key).isSome)
      (h : ∀ key a b, member fields key = some a → member fields' key = some b → Same a b) :
      Same (.object fields) (.object fields')

end Encoding

/-! ## Canonical forms

The canonical text of JSON data is the text of a tree, its canonical form, in which keys are sorted,
`undefined` members are gone and numbers are printed. Data have one form exactly when they are equal
up to the order of keys.
-/

variable {N : Type} {format : NumberFormat N}

section Sorted

variable {V : Type} {fields fields' : List (JSString × V)}

theorem sortByKey_perm (fields : List (JSString × V)) : (sortByKey fields).Perm fields :=
  List.mergeSort_perm _ _

theorem mem_sortByKey_iff {field : JSString × V} :
    field ∈ sortByKey fields ↔ field ∈ fields :=
  (sortByKey_perm fields).mem_iff

theorem nodup_keys_sortByKey_iff :
    ((sortByKey fields).map Prod.fst).Nodup ↔ (fields.map Prod.fst).Nodup :=
  ((sortByKey_perm fields).map Prod.fst).nodup_iff

theorem pairwise_sortByKey (fields : List (JSString × V)) :
    (sortByKey fields).Pairwise fun a b => a.1 ≤ b.1 := by
  have hsorted : (sortByKey fields).Pairwise fun a b => decide (a.1 ≤ b.1) = true := by
    apply List.pairwise_mergeSort
    · intro a b c hab hbc
      rw [decide_eq_true_eq] at hab hbc ⊢
      exact hab.trans hbc
    · intro a b
      rw [Bool.or_eq_true, decide_eq_true_eq, decide_eq_true_eq]
      exact le_total a.1 b.1
  exact hsorted.imp fun h => of_decide_eq_true h

theorem eq_sortByKey (hnodup : (fields.map Prod.fst).Nodup) (hperm : fields'.Perm fields)
    (hsorted : fields'.Pairwise fun a b => a.1 ≤ b.1) : fields' = sortByKey fields := by
  apply (hperm.trans (sortByKey_perm fields).symm).eq_of_pairwise _ hsorted
    (pairwise_sortByKey fields)
  intro a b ha hb hab hba
  have hkey : a.1 = b.1 := le_antisymm hab hba
  exact List.inj_on_of_nodup_map hnodup (hperm.mem_iff.mp ha) (mem_sortByKey_iff.mp hb) hkey

theorem sortByKey_eq_iff (hnodup : (fields.map Prod.fst).Nodup)
    (hnodup' : (fields'.map Prod.fst).Nodup) :
    sortByKey fields = sortByKey fields' ↔ ∀ field, field ∈ fields ↔ field ∈ fields' := by
  constructor
  · intro h field
    rw [← mem_sortByKey_iff, h, mem_sortByKey_iff]
  · intro h
    have hperm : fields.Perm fields' :=
      (List.perm_ext_iff_of_nodup hnodup.of_map hnodup'.of_map).mpr h
    exact eq_sortByKey hnodup' ((sortByKey_perm fields).trans hperm) (pairwise_sortByKey fields)

theorem sortByKey_map {W : Type} (f : JSString × V → JSString × W) (hf : ∀ a, (f a).1 = a.1)
    (fields : List (JSString × V)) : sortByKey (fields.map f) = (sortByKey fields).map f := by
  rw [sortByKey, sortByKey, List.map_mergeSort]
  intro a _ b _
  rw [hf, hf]

end Sorted

variable {fields : List (JSString × Unknown N)} {key : JSString} {field : Unknown N}

theorem member_eq_some_iff (hnodup : (fields.map Prod.fst).Nodup) :
    member fields key = some field ↔ (key, field) ∈ fields ∧ field.isDefined := by
  rw [member, Option.filter_eq_some_iff, Option.map_eq_some_iff]
  constructor
  · rintro ⟨⟨⟨key', field'⟩, hfind, rfl⟩, hdefined⟩
    obtain ⟨hmem, rfl⟩ := (InsertionMap.find?_eq_some_iff hnodup).mp hfind
    exact ⟨hmem, hdefined⟩
  · rintro ⟨hmem, hdefined⟩
    exact ⟨⟨(key, field), (InsertionMap.find?_eq_some_iff hnodup).mpr ⟨hmem, rfl⟩, rfl⟩, hdefined⟩

mutual

def canonicalForm (format : NumberFormat N) : Unknown N → Value
  | .bool b => .bool b
  | .number n => .number (format.print n)
  | .string s => .string s
  | .array items => .array (formItems format items)
  | .object fields => .object (sortByKey (formFields format fields))
  | _ => .null

def formItems (format : NumberFormat N) : List (Unknown N) → List Value
  | [] => []
  | item :: items => canonicalForm format item :: formItems format items

def formFields (format : NumberFormat N) : List (JSString × Unknown N) → List (JSString × Value)
  | [] => []
  | (key, field) :: fields =>
    if field.isDefined then (key, canonicalForm format field) :: formFields format fields
    else formFields format fields

end

theorem formItems_eq_map (items : List (Unknown N)) :
    formItems format items = items.map (canonicalForm format) := by
  induction items with
  | nil => rfl
  | cons item items ih => rw [formItems, ih, List.map_cons]

theorem formFields_eq_filterMap (fields : List (JSString × Unknown N)) :
    formFields format fields = fields.filterMap fun field =>
      if field.2.isDefined then some (field.1, canonicalForm format field.2) else none := by
  induction fields with
  | nil => rfl
  | cons field fields ih =>
    rw [formFields, List.filterMap_cons]
    split_ifs
    · rw [ih]
    · exact ih

theorem mem_formFields_iff {v : Value} : (key, v) ∈ formFields format fields ↔
    ∃ field, (key, field) ∈ fields ∧ field.isDefined ∧ canonicalForm format field = v := by
  rw [formFields_eq_filterMap, List.mem_filterMap]
  constructor
  · rintro ⟨⟨key', field⟩, hmem, h⟩
    split_ifs at h with hdefined
    obtain ⟨rfl, rfl⟩ := Prod.mk.inj (Option.some.inj h)
    exact ⟨field, hmem, hdefined, rfl⟩
  · rintro ⟨field, hmem, hdefined, rfl⟩
    exact ⟨(key, field), hmem, if_pos hdefined⟩

theorem keys_formFields_sublist (fields : List (JSString × Unknown N)) :
    ((formFields format fields).map Prod.fst).Sublist (fields.map Prod.fst) := by
  induction fields with
  | nil => exact List.Sublist.slnil
  | cons head fields ih =>
    obtain ⟨key, field⟩ := head
    rw [formFields]
    split_ifs
    · exact ih.cons_cons key
    · exact ih.cons key

theorem formFields_sortByKey (hnodup : (fields.map Prod.fst).Nodup) :
    formFields format (sortByKey fields) = sortByKey (formFields format fields) := by
  apply eq_sortByKey (hnodup.sublist (keys_formFields_sublist fields))
  · rw [formFields_eq_filterMap, formFields_eq_filterMap]
    exact (sortByKey_perm fields).filterMap _
  · rw [formFields_eq_filterMap]
    apply (pairwise_sortByKey fields).filterMap
    intro a a' h b hb b' hb'
    split_ifs at hb hb'
    · obtain rfl := Option.some.inj hb
      obtain rfl := Option.some.inj hb'
      exact h
    
def memberText (field : JSString × Value) : JSString :=
  ofString field.1 ++ js ":" ++ field.2.stringify

theorem stringifyItems_eq (item : Value) (items : List Value) :
    item.stringify ++ Value.stringifyItems items =
      [44].intercalate ((item :: items).map Value.stringify) ++ js "]" := by
  induction items generalizing item with
  | nil => simp [Value.stringifyItems]
  | cons next items ih =>
    rw [List.map_cons, List.map_cons, List.intercalate_cons_cons, ← List.map_cons,
      List.append_assoc, ← ih, Value.stringifyItems]
    simp [show js "," = [44] from rfl]

theorem stringify_array (items : List Value) : (Value.array items).stringify =
    js "[" ++ [44].intercalate (items.map Value.stringify) ++ js "]" := by
  cases items with
  | nil => rfl
  | cons item items =>
    rw [Value.stringify, List.append_assoc, stringifyItems_eq, List.append_assoc]

theorem stringifyFields_eq (field : JSString × Value) (fields : List (JSString × Value)) :
    memberText field ++ Value.stringifyFields fields =
      [44].intercalate ((field :: fields).map memberText) ++ js "\x7d" := by
  induction fields generalizing field with
  | nil => simp [Value.stringifyFields]
  | cons next fields ih =>
    rw [List.map_cons, List.map_cons, List.intercalate_cons_cons, ← List.map_cons,
      List.append_assoc, ← ih, Value.stringifyFields]
    simp [show js "," = [44] from rfl, memberText]

theorem stringify_object (fields : List (JSString × Value)) : (Value.object fields).stringify =
    js "\x7b" ++ [44].intercalate (fields.map memberText) ++ js "\x7d" := by
  cases fields with
  | nil => rfl
  | cons field fields =>
    rw [List.append_assoc, ← stringifyFields_eq, memberText, Value.stringify]
    simp only [List.append_assoc]

theorem printed_canonicalForm {v : Unknown N} (h : IsData format v) :
    Printed (canonicalForm format v) := by
  induction h with
  | null => exact .null
  | bool b => exact .bool b
  | number h => exact .number (format.numeral _ h)
  | string s => exact .string s
  | array _ ih =>
    rw [canonicalForm, formItems_eq_map, printed_array_iff]
    intro v hv
    obtain ⟨item, hitem, rfl⟩ := List.mem_map.mp hv
    exact ih item hitem
  | object hnodup _ ih =>
    rw [canonicalForm, printed_object_iff]
    constructor
    · rintro ⟨key, v⟩ hv
      obtain ⟨field, hmem, hdefined, rfl⟩ := mem_formFields_iff.mp (mem_sortByKey_iff.mp hv)
      exact ih (key, field) hmem hdefined
    · rw [nodup_keys_sortByKey_iff]
      exact hnodup.sublist (keys_formFields_sublist _)

theorem canonicalItems_eq {items : List (Unknown N)}
    (h : ∀ item ∈ items,
      canonicalJson format item = .ok (canonicalForm format item).stringify) :
    canonicalItems format items =
      .ok (items.map fun item => (canonicalForm format item).stringify) := by
  induction items with
  | nil => rfl
  | cons item items ih =>
    rw [List.forall_mem_cons] at h
    rw [canonicalItems, h.1, ih h.2]
    rfl

theorem joinMembers_canonicalFields
    (h : ∀ field ∈ fields, field.2.isDefined →
      canonicalJson format field.2 = .ok (canonicalForm format field.2).stringify) :
    joinMembers (canonicalFields format fields) =
      .ok ((formFields format fields).map memberText) := by
  induction fields with
  | nil => rfl
  | cons field fields ih =>
    rw [List.forall_mem_cons] at h
    rw [canonicalFields, formFields]
    split_ifs with hdefined
    · rw [joinMembers, h.1 hdefined, ih h.2]
      rfl
    · rw [joinMembers, ih h.2]

theorem canonicalFields_eq_map (fields : List (JSString × Unknown N)) :
    canonicalFields format fields = fields.map fun field =>
      (field.1, if field.2.isDefined then some (canonicalJson format field.2) else none) := by
  induction fields with
  | nil => rfl
  | cons field fields ih => rw [canonicalFields, ih, List.map_cons]

theorem joinMembers_eq (hnodup : (fields.map Prod.fst).Nodup)
    (h : ∀ field ∈ fields, field.2.isDefined →
      canonicalJson format field.2 = .ok (canonicalForm format field.2).stringify) :
    joinMembers (sortByKey (canonicalFields format fields)) =
      .ok ((sortByKey (formFields format fields)).map memberText) := by
  have hsorted : sortByKey (canonicalFields format fields) =
      canonicalFields format (sortByKey fields) := by
    rw [canonicalFields_eq_map, canonicalFields_eq_map]
    apply sortByKey_map
    intro field
    rfl
  rw [hsorted, ← formFields_sortByKey hnodup]
  exact joinMembers_canonicalFields fun field hfield => h field (mem_sortByKey_iff.mp hfield)

theorem canonicalJson_eq {v : Unknown N} (h : IsData format v) :
    canonicalJson format v = .ok (canonicalForm format v).stringify := by
  induction h with
  | null => rfl
  | bool b => cases b <;> rfl
  | number h => rw [canonicalJson, if_pos h]; rfl
  | string s => rfl
  | @array items _ ih =>
    rw [canonicalJson, canonicalItems_eq ih, canonicalForm, formItems_eq_map, stringify_array,
      List.map_map]
    rfl
  | @object fields hnodup _ ih =>
    rw [canonicalJson, joinMembers_eq hnodup ih, canonicalForm, stringify_object]
    rfl

theorem mem_formFields_iff_member (hnodup : (fields.map Prod.fst).Nodup) {v : Value} :
    (key, v) ∈ formFields format fields ↔
      ∃ field, member fields key = some field ∧ canonicalForm format field = v := by
  simp only [mem_formFields_iff, member_eq_some_iff hnodup, and_assoc]

theorem nodup_keys_formFields (hnodup : (fields.map Prod.fst).Nodup) :
    ((formFields format fields).map Prod.fst).Nodup :=
  hnodup.sublist (keys_formFields_sublist fields)

theorem formFields_sub {fields' : List (JSString × Unknown N)}
    (hnodup : (fields.map Prod.fst).Nodup) (hnodup' : (fields'.map Prod.fst).Nodup)
    (hkeys : ∀ key, (member fields key).isSome = (member fields' key).isSome)
    (h : ∀ key a b, member fields key = some a → member fields' key = some b →
      canonicalForm format a = canonicalForm format b) (field : JSString × Value) :
    field ∈ formFields format fields ↔ field ∈ formFields format fields' := by
  obtain ⟨key, v⟩ := field
  rw [mem_formFields_iff_member hnodup, mem_formFields_iff_member hnodup']
  constructor
  · rintro ⟨a, ha, rfl⟩
    have hsome : (member fields' key).isSome := by rw [← hkeys, ha]; rfl
    obtain ⟨b, hb⟩ := Option.isSome_iff_exists.mp hsome
    exact ⟨b, hb, (h key a b ha hb).symm⟩
  · rintro ⟨b, hb, rfl⟩
    have hsome : (member fields key).isSome := by rw [hkeys, hb]; rfl
    obtain ⟨a, ha⟩ := Option.isSome_iff_exists.mp hsome
    exact ⟨a, ha, h key a b ha hb⟩

theorem IsData.of_member {a : Unknown N} (h : IsData format (.object fields))
    (ha : member fields key = some a) : IsData format a := by
  cases h with
  | object hnodup h =>
    obtain ⟨hmem, hdefined⟩ := (member_eq_some_iff hnodup).mp ha
    exact h (key, a) hmem hdefined

theorem IsData.of_item {items : List (Unknown N)} {i : ℕ} {a : Unknown N}
    (h : IsData format (.array items)) (ha : items[i]? = some a) : IsData format a := by
  cases h with
  | array h => exact h a (List.mem_of_getElem? ha)

theorem IsData.nodup (h : IsData format (.object fields)) : (fields.map Prod.fst).Nodup := by
  cases h with
  | object hnodup _ => exact hnodup

theorem Same.canonicalForm_eq {v w : Unknown N} (h : Same format v w) (hv : IsData format v)
    (hw : IsData format w) : canonicalForm format v = canonicalForm format w := by
  induction h with
  | null => rfl
  | bool b => rfl
  | number h => rw [canonicalForm, canonicalForm, h]
  | string s => rfl
  | @array items items' hlength _ ih =>
    rw [canonicalForm, canonicalForm, formItems_eq_map, formItems_eq_map]
    congr 1
    apply List.ext_getElem?
    intro i
    rw [List.getElem?_map, List.getElem?_map]
    cases ha : items[i]? with
    | none =>
      have hb : items'[i]? = none := by
        rw [List.getElem?_eq_none_iff] at ha ⊢
        omega
      rw [hb]
    | some a =>
      obtain ⟨hi, -⟩ := List.getElem?_eq_some_iff.mp ha
      obtain ⟨b, hb⟩ : ∃ b, items'[i]? = some b := by
        rw [← Option.isSome_iff_exists, List.getElem?_eq_getElem (hlength ▸ hi)]
        rfl
      rw [hb, Option.map_some, Option.map_some, ih i a _ ha hb (hv.of_item ha) (hw.of_item hb)]
  | @object fields fields' hkeys _ ih =>
    rw [canonicalForm, canonicalForm, (sortByKey_eq_iff (nodup_keys_formFields hv.nodup)
      (nodup_keys_formFields hw.nodup)).mpr]
    apply formFields_sub hv.nodup hw.nodup hkeys
    intro key a b ha hb
    exact ih key a b ha hb (hv.of_member ha) (hw.of_member hb)

theorem exists_member {fields' : List (JSString × Unknown N)} {a : Unknown N}
    (hnodup : (fields.map Prod.fst).Nodup) (hnodup' : (fields'.map Prod.fst).Nodup)
    (hsub : ∀ field, field ∈ formFields format fields → field ∈ formFields format fields')
    (ha : member fields key = some a) :
    ∃ b, member fields' key = some b ∧ canonicalForm format b = canonicalForm format a :=
  (mem_formFields_iff_member hnodup').mp
    (hsub _ ((mem_formFields_iff_member hnodup).mpr ⟨a, ha, rfl⟩))

theorem same_of_canonicalForm_eq {v w : Unknown N} (hv : IsData format v) (hw : IsData format w)
    (h : canonicalForm format v = canonicalForm format w) : Same format v w := by
  induction hv generalizing w with
  | null =>
    cases hw <;> cases h
    exact .null
  | bool b =>
    cases hw <;> cases h
    exact .bool b
  | number hm =>
    cases hw with
    | number hn => exact .number (Value.number.inj h)
    | _ => cases h
  | string s =>
    cases hw <;> cases h
    exact .string s
  | @array items hitems ih =>
    cases hw with
    | @array items' hitems' =>
      rw [canonicalForm, canonicalForm, formItems_eq_map, formItems_eq_map] at h
      have hmap := Value.array.inj h
      constructor
      · have hlength := congrArg List.length hmap
        simpa using hlength
      · intro i a b ha hb
        apply ih a (List.mem_of_getElem? ha) (hitems' b (List.mem_of_getElem? hb))
        have hi := congrArg (fun l => l[i]?) hmap
        simp only [List.getElem?_map, ha, hb, Option.map_some] at hi
        exact Option.some.inj hi
    | _ => cases h
  | @object fields hnodup hfields ih =>
    cases hw with
    | @object fields' hnodup' hfields' =>
      have hmem := (sortByKey_eq_iff (nodup_keys_formFields hnodup)
        (nodup_keys_formFields hnodup')).mp (Value.object.inj h)
      constructor
      · intro key
        rw [Bool.eq_iff_iff, Option.isSome_iff_exists, Option.isSome_iff_exists]
        constructor
        · rintro ⟨a, ha⟩
          obtain ⟨b, hb, -⟩ := exists_member hnodup hnodup' (fun field => (hmem field).mp) ha
          exact ⟨b, hb⟩
        · rintro ⟨b, hb⟩
          obtain ⟨a, ha, -⟩ := exists_member hnodup' hnodup (fun field => (hmem field).mpr) hb
          exact ⟨a, ha⟩
      · intro key a b ha hb
        obtain ⟨b', hb', heq⟩ := exists_member hnodup hnodup' (fun field => (hmem field).mp) ha
        obtain rfl : b' = b := Option.some.inj (hb'.symm.trans hb)
        obtain ⟨hafield, hadefined⟩ := (member_eq_some_iff hnodup).mp ha
        obtain ⟨hbfield, hbdefined⟩ := (member_eq_some_iff hnodup').mp hb
        exact ih (key, a) hafield hadefined (hfields' (key, b') hbfield hbdefined) heq.symm
    | _ => cases h

theorem ofItems_eq_map (items : List Value) :
    ofItems format items = items.map (ofValue format) := by
  induction items with
  | nil => rfl
  | cons item items ih => rw [ofItems, ih, List.map_cons]

theorem ofFields_eq_map (fields : List (JSString × Value)) :
    ofFields format fields = fields.map fun field => (field.1, ofValue format field.2) := by
  induction fields with
  | nil => rfl
  | cons field fields ih => rw [ofFields, ih, List.map_cons]

theorem isDefined_ofValue (v : Value) : (ofValue format v).isDefined := by
  cases v <;> rfl

theorem member_ofFields_iff {fields : List (JSString × Value)}
    (hnodup : (fields.map Prod.fst).Nodup) {a : Unknown N} :
    member (ofFields format fields) key = some a ↔
      ∃ v, (key, v) ∈ fields ∧ ofValue format v = a := by
  have hkeys : ((ofFields format fields).map Prod.fst) = fields.map Prod.fst := by
    rw [ofFields_eq_map, List.map_map]
    rfl
  rw [member_eq_some_iff (hkeys ▸ hnodup), ofFields_eq_map, List.mem_map]
  constructor
  · rintro ⟨⟨⟨key', v⟩, hmem, heq⟩, -⟩
    obtain ⟨rfl, rfl⟩ := Prod.mk.inj heq
    exact ⟨v, hmem, rfl⟩
  · rintro ⟨v, hmem, rfl⟩
    exact ⟨⟨(key, v), hmem, rfl⟩, isDefined_ofValue v⟩

theorem same_ofValue_canonicalForm {v : Unknown N} (h : IsData format v) :
    Same format (ofValue format (canonicalForm format v)) v := by
  induction h with
  | null => exact .null
  | bool b => exact .bool b
  | number h => exact .number (format.print_read _ h)
  | string s => exact .string s
  | @array items _ ih =>
    rw [canonicalForm, ofValue, ofItems_eq_map, formItems_eq_map, List.map_map]
    constructor
    · rw [List.length_map]
    · intro i a b ha hb
      rw [List.getElem?_map, hb, Option.map_some] at ha
      obtain rfl := Option.some.inj ha
      exact ih b (List.mem_of_getElem? hb)
  | @object fields hnodup _ ih =>
    rw [canonicalForm, ofValue]
    have hmember (key : JSString) (a : Unknown N) :
        member (ofFields format (sortByKey (formFields format fields))) key = some a ↔
          ∃ field, member fields key = some field ∧
            ofValue format (canonicalForm format field) = a := by
      rw [member_ofFields_iff (nodup_keys_sortByKey_iff.mpr (nodup_keys_formFields hnodup))]
      simp only [mem_sortByKey_iff, mem_formFields_iff_member hnodup]
      constructor
      · rintro ⟨v, ⟨field, hfield, rfl⟩, rfl⟩
        exact ⟨field, hfield, rfl⟩
      · rintro ⟨field, hfield, rfl⟩
        exact ⟨_, ⟨field, hfield, rfl⟩, rfl⟩
    constructor
    · intro key
      rw [Bool.eq_iff_iff, Option.isSome_iff_exists, Option.isSome_iff_exists]
      constructor
      · rintro ⟨a, ha⟩
        obtain ⟨field, hfield, -⟩ := (hmember key a).mp ha
        exact ⟨field, hfield⟩
      · rintro ⟨field, hfield⟩
        exact ⟨_, (hmember key _).mpr ⟨field, hfield, rfl⟩⟩
    · intro key a b ha hb
      obtain ⟨field, hfield, rfl⟩ := (hmember key a).mp ha
      obtain rfl : field = b := Option.some.inj (hfield.symm.trans hb)
      obtain ⟨hmem, hdefined⟩ := (member_eq_some_iff hnodup).mp hb
      exact ih (key, field) hmem hdefined

/-- Two data have one canonical text exactly when they are equal up to the order of keys, and the
text is read as data equal to them. -/
theorem canonicalJson_complete {a b : Unknown N} (ha : IsData format a) (hb : IsData format b) :
    (canonicalJson format a = canonicalJson format b ↔ Same format a b) ∧
      ∃ text v, canonicalJson format a = .ok text ∧ jsonParse format text = some v ∧
        Same format v a := by
  constructor
  · rw [canonicalJson_eq ha, canonicalJson_eq hb]
    constructor
    · intro h
      apply same_of_canonicalForm_eq ha hb
      exact (printed_canonicalForm ha).stringify_injective (printed_canonicalForm hb)
        (Except.ok.inj h)
    · intro h
      rw [h.canonicalForm_eq ha hb]
  · have hparse : jsonParse format (canonicalForm format a).stringify =
        some (ofValue format (canonicalForm format a)) := by
      rw [jsonParse, (printed_canonicalForm ha).parse_stringify, Option.map_some]
    exact ⟨_, _, canonicalJson_eq ha, hparse, same_ofValue_canonicalForm ha⟩

def counters : NumberFormat ℕ where
  isFinite _ := true
  print := decimal
  read := natOfDigits
  numeral n _ := isNumeral_decimal n
  print_read n _ := by rw [natOfDigits_decimal]

/-- Records that differ in the order of keys and in an `undefined` member. -/
theorem canonicalJson_complete_counters :
    (canonicalJson counters (.object [(js "b", .number 1), (js "u", .undefined),
        (js "a", .array [.null])]) =
      canonicalJson counters (.object [(js "a", .array [.null]), (js "b", .number 1)]) ↔
        Same counters (.object [(js "b", .number 1), (js "u", .undefined),
          (js "a", .array [.null])]) (.object [(js "a", .array [.null]), (js "b", .number 1)])) ∧
      ∃ text v, canonicalJson counters (.object [(js "b", .number 1), (js "u", .undefined),
        (js "a", .array [.null])]) = .ok text ∧ jsonParse counters text = some v ∧
          Same counters v (.object [(js "b", .number 1), (js "u", .undefined),
            (js "a", .array [.null])]) := by
  have hnull : IsData counters (.array [.null]) := .array (by simpa using .null)
  have hone : IsData counters (.number 1) := .number rfl
  apply canonicalJson_complete
  · apply IsData.object (by decide)
    simp [hnull, hone, Unknown.isDefined]
  · apply IsData.object (by decide)
    simp [hnull, hone, Unknown.isDefined]

end Nifra.JSON
