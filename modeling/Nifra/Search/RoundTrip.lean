import Nifra.Search.Parse
import Nifra.Search.Values

/-! # Search objects come back

An object that keeps to the bounds is read back from the query it is written as.
-/

namespace Nifra.Search

open JSON (parse)
open Server (valuesOf)

variable {N : Type} {numbers : NumberText N} {limits : SearchLimits}

def writtenItems : SearchValue N → List (SearchValue N)
  | .array (first :: second :: rest) => first :: second :: rest
  | value => [value]

theorem itemPairs_eq (entry : JSString × SearchValue N) : itemPairs numbers entry =
    (writtenItems entry.2).map fun item => (entry.1, encodeValue numbers item) := by
  obtain ⟨key, value⟩ := entry
  match value with
  | .array (first :: second :: rest) => rfl
  | .array [] | .array [item] | .null | .bool b | .number n | .string s | .object fields => rfl

theorem group_writtenItems (value : SearchValue N) : group (writtenItems value) = some value := by
  match value with
  | .array (first :: second :: rest) => rfl
  | .array [] | .array [item] | .null | .bool b | .number n | .string s | .object fields => rfl

theorem writtenItems_ne_nil (value : SearchValue N) : writtenItems value ≠ [] := by
  intro hnil
  have hgroup := group_writtenItems value
  rw [hnil] at hgroup
  cases hgroup

theorem carriedItems_iff {items : List (SearchValue N)} :
    CarriedItems numbers items ↔ ∀ item ∈ items, Carried numbers item := by
  induction items with
  | nil => exact ⟨fun _ => nofun, fun _ => .nil⟩
  | cons item items ih =>
    rw [List.forall_mem_cons, ← ih]
    constructor
    · rintro (_ | ⟨h, hs⟩)
      exact ⟨h, hs⟩
    · rintro ⟨h, hs⟩
      exact .cons h hs

theorem Carried.writtenItems {value : SearchValue N} (h : Carried numbers value) :
    ∀ item ∈ writtenItems value, Carried numbers item := by
  match value, h with
  | .array (first :: second :: rest), .array h => exact carriedItems_iff.mp h
  | .array [], h | .array [item], h | .null, h | .bool b, h | .number n, h | .string s, h
  | .object fields, h => exact List.forall_mem_singleton.mpr h

variable (numbers limits) in
/-- Data that the codec carries, under names of the page's own, within the limits. -/
structure WithinLimits (v : SearchObject N) : Prop where
  keys : ∀ key ∈ v.keys, WellFormed key ∧ key ∉ forbiddenKeys ∧ ¬ routeSlotQueryPrefix <+: key
  carried : ∀ entry ∈ v.entries, Carried numbers entry.2
  depth : ∀ entry ∈ v.entries, ∀ item ∈ writtenItems entry.2,
    exceedsDepth limits.maxDepth item = false
  size : v.size ≤ limits.maxKeys
  length : (serializeSearch numbers v).length ≤ limits.maxLength

variable {entries : List (JSString × SearchValue N)}

theorem mem_pairs {pair : JSString × JSString} (h : pair ∈ entries.flatMap (itemPairs numbers)) :
    ∃ entry ∈ entries, ∃ item ∈ writtenItems entry.2, pair = (entry.1, encodeValue numbers item) := by
  obtain ⟨entry, hentry, h⟩ := List.mem_flatMap.mp h
  rw [itemPairs_eq] at h
  obtain ⟨item, hitem, rfl⟩ := List.mem_map.mp h
  exact ⟨entry, hentry, item, hitem, rfl⟩

theorem valuesOf_append {key : JSString} {pairs others : List (JSString × JSString)} :
    valuesOf key (pairs ++ others) = valuesOf key pairs ++ valuesOf key others := by
  rw [valuesOf, List.filter_append, List.map_append]
  rfl

theorem valuesOf_itemPairs_self (entry : JSString × SearchValue N) :
    valuesOf entry.1 (itemPairs numbers entry) =
      (writtenItems entry.2).map (encodeValue numbers) := by
  rw [itemPairs_eq, valuesOf, List.filter_eq_self.mpr]
  · rw [List.map_map]
    rfl
  · intro pair hpair
    obtain ⟨item, -, rfl⟩ := List.mem_map.mp hpair
    exact decide_eq_true rfl

theorem valuesOf_eq_nil {key : JSString} (h : key ∉ entries.map Prod.fst) :
    valuesOf key (entries.flatMap (itemPairs numbers)) = [] := by
  rw [valuesOf, List.map_eq_nil_iff, List.filter_eq_nil_iff]
  intro pair hpair heq
  obtain ⟨entry, hentry, item, -, rfl⟩ := mem_pairs hpair
  exact h (of_decide_eq_true heq ▸ List.mem_map_of_mem hentry)

theorem valuesOf_pairs (hnodup : (entries.map Prod.fst).Nodup) {entry : JSString × SearchValue N}
    (h : entry ∈ entries) : valuesOf entry.1 (entries.flatMap (itemPairs numbers)) =
      (writtenItems entry.2).map (encodeValue numbers) := by
  induction entries with
  | nil => cases h
  | cons first entries ih =>
    obtain ⟨hfirst, hnodup⟩ := List.nodup_cons.mp hnodup
    rw [List.flatMap_cons, valuesOf_append]
    rcases List.mem_cons.mp h with rfl | h
    · rw [valuesOf_itemPairs_self, valuesOf_eq_nil hfirst, List.append_nil]
    · have hne : entry.1 ∉ [first].map Prod.fst := by
        intro hmem
        exact hfirst (List.mem_singleton.mp hmem ▸ List.mem_map_of_mem h)
      have hother : valuesOf entry.1 ([first].flatMap (itemPairs numbers)) = [] :=
        valuesOf_eq_nil hne
      rw [List.flatMap_singleton] at hother
      rw [hother, List.nil_append, ih hnodup h]

theorem eraseDups_map_const {α : Type} {items : List α} (hne : items ≠ []) (key : JSString) :
    (items.map fun _ => key).eraseDups = [key] := by
  cases items with
  | nil => exact (hne rfl).elim
  | cons item items =>
    have hnone : (items.map fun _ => key).filter (fun other => !(other == key)) = [] := by
      rw [List.filter_eq_nil_iff]
      intro other hother
      obtain ⟨_, -, rfl⟩ := List.mem_map.mp hother
      simp
    rw [List.map_cons, List.eraseDups_cons, hnone, List.eraseDups_nil]

theorem eraseDups_keys_pairs (hnodup : (entries.map Prod.fst).Nodup) :
    ((entries.flatMap (itemPairs numbers)).map Prod.fst).eraseDups = entries.map Prod.fst := by
  induction entries with
  | nil => rfl
  | cons first entries ih =>
    obtain ⟨hfirst, hnodup⟩ := List.nodup_cons.mp hnodup
    have hkeys : (itemPairs numbers first).map Prod.fst = (writtenItems first.2).map fun _ => first.1 := by
      rw [itemPairs_eq, List.map_map]
      rfl
    have hkeep : ((entries.flatMap (itemPairs numbers)).map Prod.fst).removeAll
        ((writtenItems first.2).map fun _ => first.1) =
          (entries.flatMap (itemPairs numbers)).map Prod.fst := by
      rw [List.removeAll, List.filter_eq_self]
      intro key hkey
      obtain ⟨pair, hpair, rfl⟩ := List.mem_map.mp hkey
      obtain ⟨entry, hentry, item, -, rfl⟩ := mem_pairs hpair
      have hne : entry.1 ≠ first.1 := by
        intro heq
        exact hfirst (heq ▸ List.mem_map_of_mem hentry)
      simp [hne]
    rw [List.flatMap_cons, List.map_append, hkeys, List.eraseDups_append, hkeep, ih hnodup,
      eraseDups_map_const (writtenItems_ne_nil _)]
    rfl

variable {v : SearchObject N}

theorem WithinLimits.wellFormed (h : WithinLimits numbers limits v) :
    ∀ pair ∈ v.entries.flatMap (itemPairs numbers), WellFormed pair.1 ∧ WellFormed pair.2 := by
  intro pair hpair
  obtain ⟨entry, hentry, item, hitem, rfl⟩ := mem_pairs hpair
  exact ⟨(h.keys entry.1 (List.mem_map_of_mem hentry)).1,
    ((h.carried entry hentry).writtenItems item hitem).wellFormed_encodeValue⟩

theorem WithinLimits.keptKeys (h : WithinLimits numbers limits v) :
    keptKeys limits (v.entries.flatMap (itemPairs numbers)) = v.keys := by
  have hallowed : ((v.entries.flatMap (itemPairs numbers)).map Prod.fst).filter
      (fun key => key ∉ forbiddenKeys) = (v.entries.flatMap (itemPairs numbers)).map Prod.fst := by
    rw [List.filter_eq_self]
    intro key hkey
    obtain ⟨pair, hpair, rfl⟩ := List.mem_map.mp hkey
    obtain ⟨entry, hentry, item, -, rfl⟩ := mem_pairs hpair
    exact decide_eq_true (h.keys entry.1 (List.mem_map_of_mem hentry)).2.1
  rw [Search.keptKeys, hallowed, eraseDups_keys_pairs v.nodup]
  refine List.take_of_length_le ?_
  rw [List.length_map]
  exact h.size

theorem WithinLimits.decodedValues (h : WithinLimits numbers limits v)
    {entry : JSString × SearchValue N} (hentry : entry ∈ v.entries) :
    decodedValues numbers limits entry.1 (v.entries.flatMap (itemPairs numbers)) =
      writtenItems entry.2 := by
  rw [Search.decodedValues, valuesOf_pairs v.nodup hentry, List.map_map]
  refine (List.map_congr_left fun item hitem => ?_).trans (List.map_id _)
  exact ((h.carried entry hentry).writtenItems item hitem).decodeValue_encodeValue
    (h.depth entry hentry item hitem)

theorem WithinLimits.withoutSlots (h : WithinLimits numbers limits v) (front : JSString)
    (hfront : front = [] ∨ front = [63]) :
    withoutSlots (front ++ formText (v.entries.flatMap (itemPairs numbers))) =
      front ++ formText (v.entries.flatMap (itemPairs numbers)) := by
  have hkept : stripRouteSlotsSearch (formText (v.entries.flatMap (itemPairs numbers))) =
      formText (v.entries.flatMap (itemPairs numbers)) := by
    apply stripRouteSlotsSearch_formText
    intro pair hpair
    obtain ⟨entry, hentry, item, -, rfl⟩ := mem_pairs hpair
    have hkey := h.keys entry.1 (List.mem_map_of_mem hentry)
    exact ⟨hkey.1, hkey.2.2⟩
  have hmark : (formText (v.entries.flatMap (itemPairs numbers))).head? ≠ some 63 :=
    fun hhead => (mem_formText (List.mem_of_head? hhead)).2 rfl
  rcases hfront with rfl | rfl
  · simp only [Search.withoutSlots, List.nil_append, if_neg hmark, hkept, ne_eq, not_true_eq_false,
      if_false]
  · simp only [Search.withoutSlots, List.cons_append, List.nil_append, List.head?_cons,
      List.tail_cons, hkept, ne_eq, not_true_eq_false, if_false, if_true]

theorem WithinLimits.paramsOf (h : WithinLimits numbers limits v) :
    paramsOf (63 :: formText (v.entries.flatMap (itemPairs numbers))) =
      v.entries.flatMap (itemPairs numbers) := by
  have hmark : (formText (v.entries.flatMap (itemPairs numbers))).head? ≠ some 63 :=
    fun hhead => (mem_formText (List.mem_of_head? hhead)).2 rfl
  have hsingle : ¬ js "??" <+: 63 :: formText (v.entries.flatMap (itemPairs numbers)) := by
    rintro ⟨rest, heq⟩
    have htail : 63 :: rest = formText (v.entries.flatMap (itemPairs numbers)) :=
      (List.cons.inj heq).2
    rw [← htail] at hmark
    exact hmark rfl
  have hread := urlSearchParams_formText h.wellFormed
  rw [urlSearchParams, if_neg hmark] at hread
  rw [Search.paramsOf, if_neg hsingle, urlSearchParams, List.head?_cons, if_pos rfl, List.tail_cons,
    hread]

theorem WithinLimits.parseSearch (h : WithinLimits numbers limits v) :
    parseSearch numbers limits (serializeSearch numbers v) = v := by
  have hlength := h.length
  rw [serializeSearch] at hlength ⊢
  split_ifs at hlength ⊢ with hempty
  · have hpairs : v.entries.flatMap (itemPairs numbers) = [] :=
      formText_injective h.wellFormed (fun _ hpair => nomatch hpair) hempty
    obtain rfl : v = ∅ := by
      apply InsertionMap.ext
      rw [List.flatMap_eq_nil_iff] at hpairs
      refine List.eq_nil_iff_forall_not_mem.mpr fun entry hentry => ?_
      have hnil := hpairs entry hentry
      rw [itemPairs_eq, List.map_eq_nil_iff] at hnil
      exact writtenItems_ne_nil _ hnil
    have hraw : Search.withoutSlots [] = [] := h.withoutSlots [] (Or.inl rfl)
    simp only [Search.parseSearch, hraw, List.length_nil, Nat.not_lt_zero, if_false]
    rfl
  · have hraw := h.withoutSlots [63] (Or.inr rfl)
    have hmark : js "?" ++ formText (v.entries.flatMap (itemPairs numbers)) =
        63 :: formText (v.entries.flatMap (itemPairs numbers)) := rfl
    rw [hmark] at hlength ⊢
    rw [List.singleton_append] at hraw
    simp only [Search.parseSearch, hraw, if_neg (not_lt.mpr hlength)]
    obtain ⟨hkeys, hget⟩ := parseQuery_spec numbers limits
      (63 :: formText (v.entries.flatMap (itemPairs numbers)))
    rw [h.paramsOf, h.keptKeys] at hkeys
    refine InsertionMap.eq_of_keys_get hkeys fun key => ?_
    rw [hget, h.paramsOf, h.keptKeys]
    split_ifs with hkey
    · obtain ⟨entry, hentry, rfl⟩ := List.mem_map.mp hkey
      rw [h.decodedValues hentry, group_writtenItems, InsertionMap.get_eq_some_iff.mpr hentry]
    · exact (InsertionMap.get_eq_none_iff.mpr hkey).symm

theorem keysOfItems_eq (items : List (SearchValue N)) :
    SearchValue.keysOfItems items = items.flatMap SearchValue.keys := by
  induction items with
  | nil => rfl
  | cons item items ih => rw [SearchValue.keysOfItems, ih, List.flatMap_cons]

theorem keys_of_group {values : List (SearchValue N)} {value : SearchValue N}
    (h : group values = some value) : value.keys = values.flatMap SearchValue.keys := by
  match values, h with
  | [item], h =>
    obtain rfl := Option.some.inj h
    rw [List.flatMap_singleton]
  | first :: second :: rest, h =>
    obtain rfl := Option.some.inj h
    exact keysOfItems_eq _

theorem not_mem_forbiddenKeys_of_group {key : JSString} {pairs : List (JSString × JSString)}
    {value : SearchValue N} (h : group (decodedValues numbers limits key pairs) = some value) :
    ∀ other ∈ value.keys, other ∉ forbiddenKeys := by
  intro other hother
  rw [keys_of_group h] at hother
  obtain ⟨item, hitem, hother⟩ := List.mem_flatMap.mp hother
  obtain ⟨raw, -, rfl⟩ := List.mem_map.mp hitem
  exact not_mem_forbiddenKeys_decodeValue raw other hother

theorem parseQuery_clean (raw : JSString) : (parseQuery numbers limits raw).size ≤ limits.maxKeys ∧
    ∀ entry ∈ (parseQuery numbers limits raw).entries,
      entry.1 ∉ forbiddenKeys ∧ ∀ key ∈ entry.2.keys, key ∉ forbiddenKeys := by
  obtain ⟨hkeys, hget⟩ := parseQuery_spec numbers limits raw
  constructor
  · rw [InsertionMap.size_eq_length_keys, hkeys, keptKeys, List.length_take]
    exact min_le_left _ _
  · rintro ⟨key, value⟩ hentry
    have hvalue := hget key
    rw [InsertionMap.get_eq_some_iff.mpr hentry] at hvalue
    split_ifs at hvalue with hkey
    exact ⟨(mem_of_mem_keptKeys hkey).2, not_mem_forbiddenKeys_of_group hvalue.symm⟩

/-- Search params round-trip: an object within the limits is read back from its query, no text that
`JSON.parse` reads is held back from it, and no query gives a forbidden key or too many. -/
theorem search_roundTrip (numbers : NumberText N) (limits : SearchLimits) :
    (∀ v, WithinLimits numbers limits v →
      parseSearch numbers limits (serializeSearch numbers v) = v) ∧
    (∀ raw, (parse raw).isSome → mayBeJson raw = true) ∧
    ∀ raw, (parseSearch numbers limits raw).size ≤ limits.maxKeys ∧
      ∀ entry ∈ (parseSearch numbers limits raw).entries,
        entry.1 ∉ forbiddenKeys ∧ ∀ key ∈ entry.2.keys, key ∉ forbiddenKeys := by
  refine ⟨fun v h => h.parseSearch, fun raw => mayBeJson_of_parse, fun raw => ?_⟩
  rw [parseSearch]
  split_ifs
  · exact ⟨Nat.zero_le _, nofun⟩
  · exact parseQuery_clean _

def naturals : NumberText ℕ := ⟨decimal, JSON.natOfDigits⟩

/-- Strings that look like JSON, lists of two items and of one, and an object. -/
def sampleSearch : SearchObject ℕ where
  entries := [(js "page", .number 20), (js "tags", .array [.string (js "2"), .string (js "a b")]),
    (js "in", .array [.object [(js "x", .null)]])]
  nodup := by decide

theorem withinLimits_sampleSearch : WithinLimits naturals defaultSearchLimits sampleSearch where
  keys := by decide
  carried := by
    simp only [sampleSearch, List.forall_mem_cons]
    refine ⟨.number (JSON.isNumeral_decimal 20) (JSON.natOfDigits_decimal 20), ?_, ?_, ?_⟩
    · exact .array (.cons (.string rfl) (.cons (.string rfl) .nil))
    · exact .array (.cons (.object (.cons rfl (by decide) .null .nil) (by decide)) .nil)
    · rintro _ ⟨⟩
  depth := by decide
  size := by decide
  length := by decide

theorem search_roundTrip_sampleSearch :
    serializeSearch naturals sampleSearch =
        js "?page=20&tags=%222%22&tags=a+b&in=%5B%7B%22x%22%3Anull%7D%5D" ∧
      parseSearch naturals defaultSearchLimits (serializeSearch naturals sampleSearch) =
        sampleSearch :=
  ⟨by decide, (search_roundTrip naturals defaultSearchLimits).1 _ withinLimits_sampleSearch⟩

end Nifra.Search
