import Mathlib.Algebra.BigOperators.Group.List.Basic
import Mathlib.Data.List.Nodup
import Mathlib.Data.List.Perm.Subperm
import Mathlib.Data.Finset.Basic

/-! # Maps in insertion order

A map lists its entries in the order in which their keys were first inserted. Writing
a present key keeps its place; a deleted key that is written again goes to the end.
-/

namespace Nifra

structure InsertionMap (K V : Type*) where
  entries : List (K × V)
  nodup : (entries.map Prod.fst).Nodup

namespace InsertionMap

variable {K V : Type*}

@[ext] theorem ext {m m' : InsertionMap K V} (h : m.entries = m'.entries) : m = m' := by
  cases m; cases m'; congr

def empty : InsertionMap K V := ⟨[], .nil⟩

instance : EmptyCollection (InsertionMap K V) := ⟨empty⟩

def keys (m : InsertionMap K V) : List K := m.entries.map Prod.fst

def values (m : InsertionMap K V) : List V := m.entries.map Prod.snd

def size (m : InsertionMap K V) : ℕ := m.entries.length

variable [DecidableEq K]

def get (m : InsertionMap K V) (k : K) : Option V :=
  (m.entries.find? fun e => e.1 = k).map Prod.snd

def has (m : InsertionMap K V) (k : K) : Bool := (m.get k).isSome

theorem keys_overwrite (l : List (K × V)) (k : K) (v : V) :
    (l.map fun e => if e.1 = k then (k, v) else e).map Prod.fst = l.map Prod.fst := by
  rw [List.map_map]
  refine List.map_congr_left fun e _ => ?_
  rw [Function.comp_apply]
  split_ifs with h
  · exact h.symm
  · rfl

def set (m : InsertionMap K V) (k : K) (v : V) : InsertionMap K V :=
  if h : k ∈ m.entries.map Prod.fst then
    ⟨m.entries.map fun e => if e.1 = k then (k, v) else e, by
      rw [keys_overwrite]; exact m.nodup⟩
  else
    ⟨m.entries ++ [(k, v)], by
      rw [List.map_append, List.nodup_append']
      refine ⟨m.nodup, List.nodup_singleton _, ?_⟩
      simpa using h⟩

def delete (m : InsertionMap K V) (k : K) : InsertionMap K V :=
  ⟨m.entries.filter fun e => e.1 ≠ k, m.nodup.sublist (List.filter_sublist.map _)⟩

def filter (m : InsertionMap K V) (p : K → V → Bool) : InsertionMap K V :=
  ⟨m.entries.filter fun e => p e.1 e.2, m.nodup.sublist (List.filter_sublist.map _)⟩

variable {m : InsertionMap K V} {k l : K} {v w : V}

theorem find?_eq_some_iff {es : List (K × V)} (h : (es.map Prod.fst).Nodup) {e : K × V} :
    (es.find? fun e => e.1 = k) = some e ↔ e ∈ es ∧ e.1 = k := by
  induction es with
  | nil => simp
  | cons d es ih =>
    rw [List.map_cons, List.nodup_cons] at h
    by_cases hd : d.1 = k
    · rw [List.find?_cons_of_pos (by simpa using hd)]
      constructor
      · rintro ⟨⟩
        exact ⟨List.mem_cons_self, hd⟩
      · rintro ⟨hm, he⟩
        rcases List.mem_cons.mp hm with rfl | hm
        · rfl
        · exact absurd (hd.trans he.symm ▸ List.mem_map_of_mem hm) h.1
    · rw [List.find?_cons_of_neg (by simpa using hd), ih h.2, List.mem_cons]
      constructor
      · rintro ⟨hm, he⟩
        exact ⟨Or.inr hm, he⟩
      · rintro ⟨rfl | hm, he⟩
        · exact absurd he hd
        · exact ⟨hm, he⟩

theorem get_eq_some_iff : m.get k = some v ↔ (k, v) ∈ m.entries := by
  rw [get, Option.map_eq_some_iff]
  constructor
  · rintro ⟨⟨k', v'⟩, he, rfl⟩
    obtain ⟨hm, rfl⟩ := (find?_eq_some_iff m.nodup).mp he
    exact hm
  · exact fun h => ⟨(k, v), (find?_eq_some_iff m.nodup).mpr ⟨h, rfl⟩, rfl⟩

theorem mem_keys_iff : k ∈ m.keys ↔ ∃ v, m.get k = some v := by
  simp [keys, get_eq_some_iff]

theorem get_eq_none_iff : m.get k = none ↔ k ∉ m.keys := by
  rw [Option.eq_none_iff_forall_ne_some, mem_keys_iff, not_exists]

theorem mem_values_iff : v ∈ m.values ↔ ∃ k, m.get k = some v := by
  simp [values, get_eq_some_iff]

omit [DecidableEq K] in
@[simp] theorem keys_empty : (∅ : InsertionMap K V).keys = [] := rfl

@[simp] theorem get_empty : (∅ : InsertionMap K V).get k = none := rfl

theorem mem_entries_set_iff {e : K × V} :
    e ∈ (m.set k v).entries ↔ e = (k, v) ∨ e.1 ≠ k ∧ e ∈ m.entries := by
  unfold set
  split_ifs with h
  · rw [List.mem_map]
    constructor
    · rintro ⟨d, hd, rfl⟩
      split_ifs with hk
      · exact Or.inl rfl
      · exact Or.inr ⟨hk, hd⟩
    · rintro (rfl | ⟨hk, he⟩)
      · obtain ⟨d, hd, hk⟩ := List.mem_map.mp h
        exact ⟨d, hd, if_pos hk⟩
      · exact ⟨e, he, if_neg hk⟩
  · rw [List.mem_append, List.mem_singleton, or_comm]
    refine or_congr_right ⟨fun he => ⟨?_, he⟩, And.right⟩
    rintro rfl
    exact h (List.mem_map_of_mem he)

theorem get_set : (m.set k v).get l = if l = k then some v else m.get l := by
  apply Option.ext
  intro w
  rw [get_eq_some_iff, mem_entries_set_iff, Prod.mk.injEq]
  split_ifs with h
  · simp [h, eq_comm]
  · simp [h, get_eq_some_iff]

@[simp] theorem get_set_self : (m.set k v).get k = some v := by simp [get_set]

theorem get_set_of_ne (h : l ≠ k) : (m.set k v).get l = m.get l := by simp [get_set, h]

theorem get_delete : (m.delete k).get l = if l = k then none else m.get l := by
  apply Option.ext
  intro w
  rw [get_eq_some_iff]
  split_ifs with h
  · simp [delete, h]
  · simp [delete, h, get_eq_some_iff]

theorem get_filter_eq_some_iff {p : K → V → Bool} :
    (m.filter p).get k = some v ↔ m.get k = some v ∧ p k v = true := by
  rw [get_eq_some_iff, get_eq_some_iff, filter, List.mem_filter]

omit [DecidableEq K] in
theorem size_filter_le (m : InsertionMap K V) (p : K → V → Bool) : (m.filter p).size ≤ m.size :=
  List.length_filter_le _ _

section Fold
variable {α : Type*} {f : α → K} {g : α → V} {l : List α} {x : α}

theorem get_foldl_set_of_mem (h : x ∈ l) (heq : ∀ y ∈ l, f y = f x → g y = g x) :
    (l.foldl (fun m y => m.set (f y) (g y)) m).get (f x) = some (g x) := by
  induction l using List.reverseRecOn with
  | nil => cases h
  | append_singleton l y ih =>
    rw [List.foldl_append, List.foldl_cons, List.foldl_nil, get_set]
    split_ifs with hkey
    · rw [heq y (List.mem_append_right _ List.mem_cons_self) hkey.symm]
    · rcases List.mem_append.mp h with hmem | hmem
      · exact ih hmem fun z hz => heq z (List.mem_append_left _ hz)
      · exact absurd (congrArg f (List.mem_singleton.mp hmem)) hkey

theorem of_get_foldl_set (h : (l.foldl (fun m y => m.set (f y) (g y)) m).get k = some v) :
    m.get k = some v ∨ ∃ y ∈ l, f y = k ∧ g y = v := by
  induction l using List.reverseRecOn with
  | nil => exact Or.inl h
  | append_singleton l y ih =>
    rw [List.foldl_append, List.foldl_cons, List.foldl_nil, get_set] at h
    split_ifs at h with hkey
    · exact Or.inr ⟨y, List.mem_append_right _ List.mem_cons_self, hkey.symm, Option.some.inj h⟩
    · exact (ih h).imp_right fun ⟨z, hz, hf⟩ => ⟨z, List.mem_append_left _ hz, hf⟩

end Fold

theorem entries_foldl_set {l : List (K × V)} (h : ((m.entries ++ l).map Prod.fst).Nodup) :
    (l.foldl (fun m e => m.set e.1 e.2) m).entries = m.entries ++ l := by
  induction l generalizing m with
  | nil => simp
  | cons e l ih =>
    have hnew : e.1 ∉ m.entries.map Prod.fst := by
      rw [List.map_append, List.nodup_append'] at h
      exact fun hmem => h.2.2 hmem (by simp)
    have hset : (m.set e.1 e.2).entries = m.entries ++ [e] := by
      rw [set, dif_neg hnew]
    rw [List.foldl_cons, ih (by rw [hset]; simpa using h), hset, List.append_assoc]
    rfl

theorem mem_keys_set : l ∈ (m.set k v).keys ↔ l = k ∨ l ∈ m.keys := by
  rw [mem_keys_iff, mem_keys_iff, get_set]
  split_ifs with h
  · simp [h]
  · simp [h]

omit [DecidableEq K] in
theorem size_eq_length_keys : m.size = m.keys.length := by
  rw [size, keys, List.length_map]

theorem keys_set : (m.set k v).keys = if k ∈ m.keys then m.keys else m.keys ++ [k] := by
  unfold set
  split_ifs with hmem hkeys hkeys
  · exact keys_overwrite m.entries k v
  · exact absurd hmem hkeys
  · exact absurd hkeys hmem
  · exact List.map_append

theorem keys_delete : (m.delete k).keys = m.keys.filter (· ≠ k) := by
  rw [keys, keys, delete, List.filter_map]
  rfl

theorem mem_keys_delete : l ∈ (m.delete k).keys ↔ l ≠ k ∧ l ∈ m.keys := by
  rw [keys_delete, List.mem_filter, decide_eq_true_eq, and_comm]

theorem has_iff_mem_keys : m.has k ↔ k ∈ m.keys := by
  rw [has, Option.isSome_iff_exists, mem_keys_iff]

omit [DecidableEq K] in
theorem size_le_length {keys : List K} (h : m.keys ⊆ keys) : m.size ≤ keys.length := by
  rw [size_eq_length_keys]
  exact (m.nodup.subperm h).length_le

omit [DecidableEq K] in
theorem keys_eq_nil_iff : m.keys = [] ↔ m.size = 0 := by
  rw [size_eq_length_keys, List.length_eq_zero_iff]

omit [DecidableEq K] in
theorem nodup_entries (m : InsertionMap K V) : m.entries.Nodup := m.nodup.of_map

theorem mem_entries_delete_iff {e : K × V} :
    e ∈ (m.delete k).entries ↔ e.1 ≠ k ∧ e ∈ m.entries := by
  simp [delete, and_comm]

theorem entries_perm_of_get (h : m.get k = some v) :
    m.entries.Perm ((k, v) :: (m.delete k).entries) := by
  have hnot : (k, v) ∉ (m.delete k).entries := fun hmem => (mem_entries_delete_iff.mp hmem).1 rfl
  rw [List.perm_ext_iff_of_nodup m.nodup_entries
    (List.nodup_cons.mpr ⟨hnot, (m.delete k).nodup_entries⟩)]
  rintro ⟨l, w⟩
  rw [List.mem_cons, mem_entries_delete_iff, ← get_eq_some_iff]
  by_cases hl : l = k
  · simp [hl, h, eq_comm]
  · simp [hl]

theorem entries_set_perm : (m.set k v).entries.Perm ((k, v) :: (m.delete k).entries) := by
  have hnot : (k, v) ∉ (m.delete k).entries := fun hmem => (mem_entries_delete_iff.mp hmem).1 rfl
  rw [List.perm_ext_iff_of_nodup (m.set k v).nodup_entries
    (List.nodup_cons.mpr ⟨hnot, (m.delete k).nodup_entries⟩)]
  intro e
  rw [mem_entries_set_iff, List.mem_cons, mem_entries_delete_iff]

theorem entries_delete_of_get_none (h : m.get k = none) : (m.delete k).entries = m.entries := by
  rw [delete, List.filter_eq_self]
  intro e he
  have hne : e.1 ≠ k := fun hk => by
    have hmem : k ∈ m.keys := hk ▸ List.mem_map_of_mem he
    exact get_eq_none_iff.mp h hmem
  simpa using hne

theorem delete_set_of_get_none (h : m.get k = none) : (m.set k v).delete k = m := by
  have hk : k ∉ m.entries.map Prod.fst := get_eq_none_iff.mp h
  ext1
  rw [set, dif_neg hk]
  change (m.entries ++ [(k, v)]).filter (fun e => e.1 ≠ k) = m.entries
  rw [List.filter_append]
  have hsame := entries_delete_of_get_none h
  rw [delete] at hsame
  simpa using hsame

theorem entries_set_delete : ((m.delete k).set k v).entries = (m.delete k).entries ++ [(k, v)] := by
  have hnot : k ∉ (m.delete k).entries.map Prod.fst := by
    intro hmem
    obtain ⟨e, he, hk⟩ := List.mem_map.mp hmem
    exact (mem_entries_delete_iff.mp he).1 hk
  rw [set, dif_neg hnot]

theorem get_set_delete : ((m.delete k).set k v).get l = if l = k then some v else m.get l := by
  rw [get_set, get_delete]
  split_ifs <;> rfl

theorem entries_delete_append {front rest : List (K × V)} (h : m.entries = front ++ (k, v) :: rest) :
    (m.delete k).entries = front ++ rest := by
  have hnodup := m.nodup
  rw [h, List.map_append, List.map_cons, List.nodup_middle, List.nodup_cons,
    ← List.map_append] at hnodup
  have hkept : (front ++ rest).filter (·.1 ≠ k) = front ++ rest := by
    rw [List.filter_eq_self]
    intro e he
    have hne : e.1 ≠ k := by
      rintro rfl
      exact hnodup.1 (List.mem_map.mpr ⟨e, he, rfl⟩)
    simpa using hne
  change m.entries.filter _ = front ++ rest
  rw [h, List.filter_append, List.filter_cons_of_neg (by simp), ← List.filter_append, hkept]

theorem get_of_entries_append {front rest : List (K × V)}
    (h : m.entries = front ++ (k, v) :: rest) : m.get k = some v := by
  rw [get_eq_some_iff, h]
  exact List.mem_append_right _ List.mem_cons_self

theorem entries_delete_head {rest : List (K × V)} (h : m.entries = (k, v) :: rest) :
    (m.delete k).entries = rest :=
  entries_delete_append (show m.entries = [] ++ (k, v) :: rest from h)

theorem keys_delete_head {rest : List K} (h : m.keys = k :: rest) : (m.delete k).keys = rest := by
  obtain ⟨⟨key, value⟩, entries, hentries, hkey, rfl⟩ := List.map_eq_cons_iff.mp h
  subst hkey
  rw [keys, entries_delete_head hentries]

theorem get_foldl_delete {α : Type*} {f : α → K} {l : List α} :
    (l.foldl (fun m x => m.delete (f x)) m).get k =
      if ∃ x ∈ l, f x = k then none else m.get k := by
  induction l generalizing m with
  | nil => simp
  | cons x l ih =>
    rw [List.foldl_cons, ih, get_delete]
    by_cases hx : f x = k
    · simp [hx]
    · simp [hx, Ne.symm hx]

variable (p : V → Bool)

theorem countP_delete (h : m.get k = some v) :
    (m.delete k).values.countP p + (if p v then 1 else 0) = m.values.countP p := by
  rw [values, values, List.Perm.countP_eq p ((entries_perm_of_get h).map Prod.snd), List.map_cons,
    List.countP_cons]

theorem countP_set : (m.set k v).values.countP p =
    (m.delete k).values.countP p + if p v then 1 else 0 := by
  rw [values, values, List.Perm.countP_eq p (entries_set_perm.map Prod.snd), List.map_cons,
    List.countP_cons]

theorem sum_values_delete {M : Type*} [AddCommMonoid M] {m : InsertionMap K M} {n : M}
    (h : m.get k = some n) : (m.delete k).values.sum + n = m.values.sum := by
  rw [values, values, ((entries_perm_of_get h).map Prod.snd).sum_eq, List.map_cons, List.sum_cons,
    add_comm]

theorem sum_values_set {M : Type*} [AddCommMonoid M] {m : InsertionMap K M} {n : M} :
    (m.set k n).values.sum = (m.delete k).values.sum + n := by
  rw [values, values, (entries_set_perm.map Prod.snd).sum_eq, List.map_cons, List.sum_cons,
    add_comm]

theorem size_delete (h : m.get k = some v) : (m.delete k).size + 1 = m.size := by
  rw [size, size, (entries_perm_of_get h).length_eq, List.length_cons]

theorem size_set : (m.set k v).size = (m.delete k).size + 1 := by
  rw [size, size, entries_set_perm.length_eq, List.length_cons]

theorem size_set_of_get_none (h : m.get k = none) : (m.set k v).size = m.size + 1 := by
  rw [size_set, size, entries_delete_of_get_none h]
  rfl

theorem entries_eq_filterMap (m : InsertionMap K V) :
    m.entries = m.keys.filterMap fun k => (m.get k).map (Prod.mk k) := by
  have hmem : ∀ e ∈ m.entries, (m.get e.1).map (Prod.mk e.1) = some e := by
    rintro ⟨k, v⟩ he
    rw [get_eq_some_iff.mpr he, Option.map_some]
  rw [keys, List.filterMap_map]
  exact (List.filterMap_some.symm).trans (List.filterMap_congr fun e he => (hmem e he).symm)

theorem eq_of_keys_get {m' : InsertionMap K V} (hkeys : m.keys = m'.keys)
    (hget : ∀ k, m.get k = m'.get k) : m = m' := by
  apply ext
  rw [entries_eq_filterMap m, entries_eq_filterMap m', hkeys]
  exact List.filterMap_congr fun k _ => by rw [hget]

end InsertionMap

end Nifra
