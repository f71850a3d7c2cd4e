import Nifra.Search.Values

/-! # Values that are the same

Two values are the same when they differ in the order of fields at most. `deepEqual` decides that for
values whose objects name every field once, and decoded values are such.
-/

namespace Nifra.Search

open JSON (Value parse readValue readItems readField readFields setProperty skipBlank)

variable {N : Type}

section DeepEqual
variable [DecidableEq N]

mutual

def deepEqual : SearchValue N → SearchValue N → Bool
  | .null, .null => true
  | .bool b, .bool c => b == c
  | .number n, .number m => decide (n = m)
  | .string s, .string t => s == t
  | .array items, .array others => deepEqualItems items others
  | .object fields, .object others =>
    fields.length == others.length && deepEqualFields fields others
  | _, _ => false

def deepEqualItems : List (SearchValue N) → List (SearchValue N) → Bool
  | [], [] => true
  | item :: items, other :: others => deepEqual item other && deepEqualItems items others
  | _, _ => false

def deepEqualFields : List (JSString × SearchValue N) → List (JSString × SearchValue N) → Bool
  | [], _ => true
  | (key, item) :: fields, others =>
    (match others.lookup key with
      | some other => deepEqual item other
      | none => false) && deepEqualFields fields others

end

end DeepEqual

mutual

inductive Same : SearchValue N → SearchValue N → Prop
  | null : Same .null .null
  | bool (b : Bool) : Same (.bool b) (.bool b)
  | number (n : N) : Same (.number n) (.number n)
  | string (s : JSString) : Same (.string s) (.string s)
  | array {items others : List (SearchValue N)} (h : SameItems items others) :
      Same (.array items) (.array others)
  | object {fields fields' others : List (JSString × SearchValue N)} (h : SameFields fields fields')
      (hperm : fields'.Perm others) : Same (.object fields) (.object others)

inductive SameItems : List (SearchValue N) → List (SearchValue N) → Prop
  | nil : SameItems [] []
  | cons {item other : SearchValue N} {items others : List (SearchValue N)} (h : Same item other)
      (hs : SameItems items others) : SameItems (item :: items) (other :: others)

inductive SameFields : List (JSString × SearchValue N) → List (JSString × SearchValue N) → Prop
  | nil : SameFields [] []
  | cons {key : JSString} {item other : SearchValue N}
      {fields others : List (JSString × SearchValue N)} (h : Same item other)
      (hs : SameFields fields others) : SameFields ((key, item) :: fields) ((key, other) :: others)

end

mutual

inductive Distinct : SearchValue N → Prop
  | null : Distinct .null
  | bool (b : Bool) : Distinct (.bool b)
  | number (n : N) : Distinct (.number n)
  | string (s : JSString) : Distinct (.string s)
  | array {items : List (SearchValue N)} (h : DistinctItems items) : Distinct (.array items)
  | object {fields : List (JSString × SearchValue N)} (h : DistinctFields fields)
      (hnodup : (fields.map Prod.fst).Nodup) : Distinct (.object fields)

inductive DistinctItems : List (SearchValue N) → Prop
  | nil : DistinctItems []
  | cons {item : SearchValue N} {items : List (SearchValue N)} (h : Distinct item)
      (hs : DistinctItems items) : DistinctItems (item :: items)

inductive DistinctFields : List (JSString × SearchValue N) → Prop
  | nil : DistinctFields []
  | cons {key : JSString} {item : SearchValue N} {fields : List (JSString × SearchValue N)}
      (h : Distinct item) (hs : DistinctFields fields) : DistinctFields ((key, item) :: fields)

end

variable {fields others : List (JSString × SearchValue N)}

theorem lookup_eq_some_iff (hnodup : (others.map Prod.fst).Nodup) {key : JSString}
    {other : SearchValue N} : others.lookup key = some other ↔ (key, other) ∈ others := by
  induction others with
  | nil => simp
  | cons field others ih =>
    obtain ⟨hfield, hnodup⟩ := List.nodup_cons.mp hnodup
    rw [List.lookup_cons, List.mem_cons]
    by_cases hkey : key = field.1
    · subst hkey
      rw [beq_self_eq_true]
      constructor
      · rintro ⟨⟩
        exact Or.inl rfl
      · rintro (heq | hmem)
        · rw [← heq]
        · exact absurd (List.mem_map_of_mem hmem) hfield
    · rw [beq_false_of_ne hkey, ih hnodup]
      refine ⟨Or.inr, fun h => h.resolve_left ?_⟩
      rintro rfl
      exact hkey rfl

theorem distinctFields_iff : DistinctFields fields ↔ ∀ field ∈ fields, Distinct field.2 := by
  induction fields with
  | nil => exact ⟨fun _ => nofun, fun _ => .nil⟩
  | cons field fields ih =>
    rw [List.forall_mem_cons, ← ih]
    constructor
    · rintro (_ | ⟨h, hs⟩)
      exact ⟨h, hs⟩
    · rintro ⟨h, hs⟩
      exact .cons h hs

theorem SameFields.keys (h : SameFields fields others) :
    fields.map Prod.fst = others.map Prod.fst := by
  induction others generalizing fields with
  | nil =>
    cases h
    rfl
  | cons other others ih =>
    cases h with
    | cons h hs => rw [List.map_cons, List.map_cons, ih hs]

variable [DecidableEq N]

mutual

theorem Same.deepEqual {v w : SearchValue N} (h : Same v w) (hw : Distinct w) :
    deepEqual v w = true := by
  match h with
  | .null => rfl
  | .bool b => exact beq_self_eq_true b
  | .number n => exact decide_eq_true rfl
  | .string s => exact beq_self_eq_true s
  | .array h =>
    cases hw with
    | array hw => exact h.deepEqualItems hw
  | .object h hperm =>
    cases hw with
    | object hw hnodup =>
      have hlength := congrArg List.length h.keys
      rw [List.length_map, List.length_map, hperm.length_eq] at hlength
      rw [Search.deepEqual, hlength, beq_self_eq_true, Bool.true_and]
      exact h.deepEqualFields hw hnodup fun field hfield => hperm.mem_iff.mp hfield

theorem SameItems.deepEqualItems {items others : List (SearchValue N)} (h : SameItems items others)
    (hw : DistinctItems others) : deepEqualItems items others = true := by
  match h with
  | .nil => rfl
  | .cons h hs =>
    cases hw with
    | cons hw hws =>
      rw [Search.deepEqualItems, h.deepEqual hw, Bool.true_and]
      exact hs.deepEqualItems hws

theorem SameFields.deepEqualFields {fields fields' others : List (JSString × SearchValue N)}
    (h : SameFields fields fields') (hw : DistinctFields others)
    (hnodup : (others.map Prod.fst).Nodup) (hsub : ∀ field ∈ fields', field ∈ others) :
    deepEqualFields fields others = true := by
  match h with
  | .nil => rfl
  | @SameFields.cons _ key item other _ _ h hs =>
    obtain ⟨hfirst, hrest⟩ := List.forall_mem_cons.mp hsub
    have hlookup := (lookup_eq_some_iff hnodup).mpr hfirst
    have hdistinct := distinctFields_iff.mp hw _ hfirst
    rw [Search.deepEqualFields, hlookup, Bool.and_eq_true]
    exact ⟨h.deepEqual hdistinct, hs.deepEqualFields hw hnodup hrest⟩

end

mutual

theorem same_of_deepEqual {v w : SearchValue N} (hv : Distinct v) (h : deepEqual v w = true) :
    Same v w := by
  match hv, w, h with
  | .null, .null, _ => exact .null
  | .bool b, .bool c, h =>
    obtain rfl := beq_iff_eq.mp h
    exact .bool b
  | .number n, .number m, h =>
    obtain rfl := of_decide_eq_true h
    exact .number n
  | .string s, .string t, h =>
    obtain rfl := beq_iff_eq.mp h
    exact .string s
  | .array hv, .array others, h => exact .array (sameItems_of_deepEqual hv h)
  | .object hv hnodup, .object others, h =>
    rw [deepEqual, Bool.and_eq_true, beq_iff_eq] at h
    obtain ⟨fields', hsame, hsub⟩ := sameFields_of_deepEqual hv h.2
    have hkeys : (fields'.map Prod.fst).Nodup := hsame.keys ▸ hnodup
    have hlength := congrArg List.length hsame.keys
    rw [List.length_map, List.length_map, h.1] at hlength
    exact .object hsame ((List.subperm_of_subset hkeys.of_map hsub).perm_of_length_le hlength.le)

theorem sameItems_of_deepEqual {items others : List (SearchValue N)} (hv : DistinctItems items)
    (h : deepEqualItems items others = true) : SameItems items others := by
  match hv, others, h with
  | .nil, [], _ => exact .nil
  | .cons hv hvs, other :: others, h =>
    rw [deepEqualItems, Bool.and_eq_true] at h
    exact .cons (same_of_deepEqual hv h.1) (sameItems_of_deepEqual hvs h.2)

theorem sameFields_of_deepEqual {fields others : List (JSString × SearchValue N)}
    (hv : DistinctFields fields) (h : deepEqualFields fields others = true) :
    ∃ fields', SameFields fields fields' ∧ fields' ⊆ others := by
  match hv, h with
  | .nil, _ => exact ⟨[], .nil, List.nil_subset _⟩
  | @DistinctFields.cons _ key item fields hv hvs, h =>
    rw [deepEqualFields, Bool.and_eq_true] at h
    obtain ⟨hfirst, hrest⟩ := h
    obtain ⟨fields', hsame, hsub⟩ := sameFields_of_deepEqual hvs hrest
    split at hfirst
    · rename_i other hlookup
      obtain ⟨before, after, rfl, -⟩ := List.lookup_eq_some_iff.mp hlookup
      exact ⟨(key, other) :: fields', .cons (same_of_deepEqual hv hfirst) hsame,
        List.cons_subset.mpr ⟨List.mem_append_right _ List.mem_cons_self, hsub⟩⟩
    · cases hfirst

end

omit [DecidableEq N]

variable {numbers : NumberText N}

variable (numbers) in
structure ReadFields (fields : List (JSString × Value)) : Prop where
  nodup : (fields.map Prod.fst).Nodup
  values : ∀ field ∈ fields, Distinct (ofJSON numbers field.2)

theorem ReadFields.setProperty {fields : List (JSString × Value)} (h : ReadFields numbers fields)
    {name : JSString} {value : Value} (hvalue : Distinct (ofJSON numbers value)) :
    ReadFields numbers (setProperty fields name value) := by
  unfold JSON.setProperty
  split_ifs with hany
  · constructor
    · have hkeys : (fields.map fun field => if field.1 = name then (name, value) else field).map
          Prod.fst = fields.map Prod.fst := by
        rw [List.map_map]
        refine List.map_congr_left fun field _ => ?_
        rw [Function.comp_apply]
        split_ifs with heq
        · exact heq.symm
        · rfl
      exact hkeys ▸ h.nodup
    · intro field hfield
      obtain ⟨old, hold, rfl⟩ := List.mem_map.mp hfield
      split_ifs
      · exact hvalue
      · exact h.values old hold
  · constructor
    · rw [List.map_append, List.nodup_append']
      refine ⟨h.nodup, List.nodup_singleton _, ?_⟩
      rw [List.map_singleton, List.disjoint_singleton]
      intro hmem
      obtain ⟨field, hfield, heq⟩ := List.mem_map.mp hmem
      exact hany (List.any_eq_true.mpr ⟨field, hfield, decide_eq_true heq⟩)
    · exact List.forall_mem_append.mpr ⟨h.values, List.forall_mem_singleton.mpr hvalue⟩

theorem ReadFields.foldl {read written : List (JSString × Value)}
    (h : ReadFields numbers written) (hread : ∀ field ∈ read, Distinct (ofJSON numbers field.2)) :
    ReadFields numbers
      (read.foldl (fun fields field => JSON.setProperty fields field.1 field.2) written) := by
  induction read generalizing written with
  | nil => exact h
  | cons field read ih =>
    obtain ⟨hfield, hread⟩ := List.forall_mem_cons.mp hread
    exact ih (h.setProperty hfield) hread

theorem ReadFields.distinct {fields : List (JSString × Value)} (h : ReadFields numbers fields) :
    Distinct (ofJSON numbers (.object fields)) := by
  have hkeys : ∀ fields : List (JSString × Value),
      (ofJSONFields numbers fields).map Prod.fst = fields.map Prod.fst := by
    intro fields
    induction fields with
    | nil => rfl
    | cons field fields ih => rw [ofJSONFields, List.map_cons, List.map_cons, ih]
  have hvalues : ∀ fields : List (JSString × Value),
      (∀ field ∈ fields, Distinct (ofJSON numbers field.2)) →
        DistinctFields (ofJSONFields numbers fields) := by
    intro fields
    induction fields with
    | nil => exact fun _ => .nil
    | cons field fields ih =>
      intro hfields
      obtain ⟨hfield, hfields⟩ := List.forall_mem_cons.mp hfields
      exact .cons hfield (ih hfields)
  exact .object (hvalues fields h.values) (hkeys fields ▸ h.nodup)

theorem keys_sanitizeFields (fields : List (JSString × SearchValue N)) :
    ((sanitizeFields fields).map Prod.fst).Sublist (fields.map Prod.fst) := by
  induction fields with
  | nil => exact List.Sublist.slnil
  | cons field fields ih =>
    rw [sanitizeFields, List.map_cons]
    split_ifs
    · exact ih.cons _
    · exact ih.cons_cons _

mutual

theorem Distinct.sanitize {v : SearchValue N} (h : Distinct v) : Distinct (sanitize v) := by
  match h with
  | .null => exact .null
  | .bool b => exact .bool b
  | .number n => exact .number n
  | .string s => exact .string s
  | .array h => exact .array h.sanitize
  | .object h hnodup => exact .object h.sanitize (hnodup.sublist (keys_sanitizeFields _))

theorem DistinctItems.sanitize {items : List (SearchValue N)} (h : DistinctItems items) :
    DistinctItems (sanitizeItems items) := by
  match h with
  | .nil => exact .nil
  | .cons h hs => exact .cons h.sanitize hs.sanitize

theorem DistinctFields.sanitize {fields : List (JSString × SearchValue N)}
    (h : DistinctFields fields) : DistinctFields (sanitizeFields fields) := by
  match h with
  | .nil => exact .nil
  | .cons h hs =>
    rw [sanitizeFields]
    split_ifs
    · exact hs.sanitize
    · exact .cons h.sanitize hs.sanitize

end

end Nifra.Search
