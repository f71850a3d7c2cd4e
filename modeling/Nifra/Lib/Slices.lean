import Mathlib.Data.List.DropRight
import Mathlib.Tactic.Common
import Nifra.Lib.Split

/-! # Slices

A list walked by positions: where an element stands next, what lies between two positions,
and the pieces of a split list as such a walk finds them.
-/

namespace List

variable {α : Type*} {l : List α} {start stop i : ℕ}

def slice (l : List α) (start stop : ℕ) : List α := (l.drop start).take (stop - start)

theorem slice_self (l : List α) (i : ℕ) : l.slice i i = [] := by simp [slice]

theorem slice_length (l : List α) (start : ℕ) : l.slice start l.length = l.drop start :=
  take_of_length_le (by simp)

theorem length_slice (hstop : stop ≤ l.length) : (l.slice start stop).length = stop - start := by
  simp only [slice, length_take, length_drop]
  omega

theorem slice_append_slice {m : ℕ} (h : start ≤ m) (h' : m ≤ stop) :
    l.slice start m ++ l.slice m stop = l.slice start stop := by
  have hm : l.drop m = (l.drop start).drop (m - start) := by
    rw [drop_drop, Nat.add_sub_cancel' h]
  have hstop : stop - start = (m - start) + (stop - m) := by omega
  rw [slice, slice, slice, hm, hstop, take_add]

theorem slice_succ (h : start < stop) (hstop : stop ≤ l.length) :
    l.slice start stop = l[start] :: l.slice (start + 1) stop := by
  have hone : stop - start = (stop - (start + 1)) + 1 := by omega
  rw [slice, slice, drop_eq_getElem_cons (by omega), hone, take_succ_cons]

theorem slice_concat (h : start ≤ i) (hi : i < l.length) :
    l.slice start (i + 1) = l.slice start i ++ [l[i]] := by
  rw [← slice_append_slice h (Nat.le_succ i), slice_succ (Nat.lt_succ_self i) hi, slice_self]

theorem drop_eq_slice_append (h : start ≤ i) : l.drop start = l.slice start i ++ l.drop i := by
  rw [slice, ← Nat.add_sub_cancel' h, ← drop_drop, Nat.add_sub_cancel' h, take_append_drop]

theorem getElem?_slice (h : i < stop - start) : (l.slice start stop)[i]? = l[start + i]? := by
  rw [slice, getElem?_take_of_lt h, getElem?_drop]

theorem slice_slice {i' : ℕ} (h : start + i' ≤ stop) :
    (l.slice start stop).slice i i' = l.slice (start + i) (start + i') := by
  simp only [slice, drop_take, take_take, drop_drop]
  congr 1
  omega

theorem slice_eq_nil_iff (hstop : stop ≤ l.length) : l.slice start stop = [] ↔ stop ≤ start := by
  rw [← length_eq_zero_iff, length_slice hstop]
  omega

theorem slice_subset {start' stop' : ℕ} (h : start' ≤ start) (h' : stop ≤ stop') :
    l.slice start stop ⊆ l.slice start' stop' := by
  rintro x hx
  obtain ⟨j, hj, rfl⟩ := mem_take_iff_getElem.mp hx
  rw [length_drop] at hj
  refine mem_take_iff_getElem.mpr ⟨start + j - start', by rw [length_drop]; omega, ?_⟩
  simp only [getElem_drop]
  congr 1
  omega

section Index

variable [DecidableEq α] {a : α}

def indexFrom (a : α) (l : List α) (start : ℕ) : Option ℕ :=
  ((l.drop start).idxOf? a).map (start + ·)

theorem indexFrom_eq_none_iff : indexFrom a l start = none ↔ a ∉ l.drop start := by
  rw [indexFrom, Option.map_eq_none_iff, idxOf?_eq_none_iff]

theorem indexFrom_eq_some_iff : indexFrom a l start = some i ↔
    start ≤ i ∧ l[i]? = some a ∧ a ∉ l.slice start i := by
  rw [indexFrom, Option.map_eq_some_iff]
  constructor
  · rintro ⟨k, hk, rfl⟩
    obtain ⟨hlt, hget, hfirst⟩ := idxOf?_eq_some_iff.mp hk
    rw [length_drop] at hlt
    rw [getElem_drop] at hget
    refine ⟨Nat.le_add_right _ _, getElem?_eq_some_iff.mpr ⟨by omega, hget⟩, ?_⟩
    intro hmem
    rw [slice, Nat.add_sub_cancel_left] at hmem
    obtain ⟨j, hj, hja⟩ := mem_take_iff_getElem.mp hmem
    exact absurd hja (by simpa using hfirst j (by omega))
  · rintro ⟨hstart, hget, hnot⟩
    obtain ⟨hlt, hget⟩ := getElem?_eq_some_iff.mp hget
    refine ⟨i - start, idxOf?_eq_some_iff.mpr ⟨by rw [length_drop]; omega, ?_, ?_⟩, by omega⟩
    · simp [Nat.add_sub_cancel' hstart, hget]
    · intro j hj heq
      refine hnot (mem_take_iff_getElem.mpr ⟨j, by simp; omega, by simpa using heq⟩)

theorem indexFrom_of_le {start' : ℕ} (h : indexFrom a l start = some i) (hstart : start ≤ start')
    (hi : start' ≤ i) : indexFrom a l start' = some i := by
  obtain ⟨-, hget, hnot⟩ := indexFrom_eq_some_iff.mp h
  exact indexFrom_eq_some_iff.mpr ⟨hi, hget, fun hmem => hnot (slice_subset hstart le_rfl hmem)⟩

theorem indexFrom_none_of_le {start' : ℕ} (h : indexFrom a l start = none) (hstart : start ≤ start') :
    indexFrom a l start' = none := by
  rw [indexFrom_eq_none_iff] at h ⊢
  exact fun hmem => h (drop_subset_drop_left l hstart hmem)

theorem slice_of_indexFrom (h : indexFrom a l start = some i) (hstop : i < stop)
    (hlength : stop ≤ l.length) :
    l.slice start stop = l.slice start i ++ a :: l.slice (i + 1) stop := by
  obtain ⟨hstart, hget, -⟩ := indexFrom_eq_some_iff.mp h
  obtain ⟨hlt, rfl⟩ := getElem?_eq_some_iff.mp hget
  rw [← slice_succ hstop hlength, slice_append_slice hstart hstop.le]

theorem drop_of_indexFrom (h : indexFrom a l start = some i) :
    l.drop start = l.slice start i ++ a :: l.drop (i + 1) := by
  obtain ⟨hstart, hget, -⟩ := indexFrom_eq_some_iff.mp h
  obtain ⟨hlt, rfl⟩ := getElem?_eq_some_iff.mp hget
  rw [drop_eq_slice_append hstart, drop_eq_getElem_cons hlt]

theorem splitOn_drop_of_indexFrom_none (h : indexFrom a l start = none) :
    (l.drop start).splitOn a = [l.drop start] :=
  splitOn_eq_singleton (indexFrom_eq_none_iff.mp h)

theorem splitOn_drop_of_indexFrom (h : indexFrom a l start = some i) :
    (l.drop start).splitOn a = l.slice start i :: (l.drop (i + 1)).splitOn a := by
  rw [drop_of_indexFrom h, splitOn_append_cons_self_of_not_mem (indexFrom_eq_some_iff.mp h).2.2]

end Index

variable (p : α → Bool)

def skipTurns (l : List α) : ℕ → ℕ → ℕ
  | 0, i => i
  | turns + 1, i => if l[i]?.any p then skipTurns l turns (i + 1) else i

/-- The loop `while (i < stop && p(l[i])) i++` from a position on. -/
def skipWhile (l : List α) (stop start : ℕ) : ℕ := skipTurns p l (stop - start) start

def retreatTurns (l : List α) : ℕ → ℕ → ℕ
  | 0, i => i
  | turns + 1, i => if l[i - 1]?.any p then retreatTurns l turns (i - 1) else i

/-- The loop `while (i > start && p(l[i - 1])) i--` from a position on. -/
def retreatWhile (l : List α) (start stop : ℕ) : ℕ := retreatTurns p l (stop - start) stop

structure Skipped (l : List α) (start stop next : ℕ) : Prop where
  le : start ≤ next
  le_stop : next ≤ stop
  passed : l.slice start next = (l.slice start stop).takeWhile p
  left : l.slice next stop = (l.slice start stop).dropWhile p

theorem skipped_skipWhile (h : start ≤ stop) (hstop : stop ≤ l.length) :
    Skipped p l start stop (skipWhile p l stop start) := by
  unfold skipWhile
  generalize hturns : stop - start = turns
  induction turns generalizing start with
  | zero =>
    obtain rfl : start = stop := by omega
    exact ⟨le_rfl, le_rfl, by simp [skipTurns, slice_self], by simp [skipTurns, slice_self]⟩
  | succ turns ih =>
    have hlt : start < stop := by omega
    have hslice := slice_succ hlt hstop
    have hget : l[start]? = some l[start] := getElem?_eq_getElem (by omega)
    rw [skipTurns, hget, Option.any_some]
    by_cases hp : p l[start]
    · have hrest := @ih (start + 1) hlt (by omega)
      rw [if_pos hp]
      have hnext : start < skipTurns p l turns (start + 1) := hrest.le
      refine ⟨hnext.le, hrest.le_stop, ?_, ?_⟩
      · rw [slice_succ hnext (hrest.le_stop.trans hstop), hslice, takeWhile_cons_of_pos hp,
          hrest.passed]
      · rw [hslice, dropWhile_cons_of_pos hp, hrest.left]
    · rw [if_neg hp]
      refine ⟨le_rfl, h, ?_, ?_⟩
      · rw [hslice, takeWhile_cons_of_neg hp, slice_self]
      · rw [hslice, dropWhile_cons_of_neg hp]

structure Retreated (l : List α) (start stop next : ℕ) : Prop where
  le : start ≤ next
  le_stop : next ≤ stop
  kept : l.slice start next = (l.slice start stop).rdropWhile p

theorem retreated_retreatWhile (h : start ≤ stop) (hstop : stop ≤ l.length) :
    Retreated p l start stop (retreatWhile p l start stop) := by
  unfold retreatWhile
  generalize hturns : stop - start = turns
  induction turns generalizing stop with
  | zero =>
    obtain rfl : start = stop := by omega
    exact ⟨le_rfl, le_rfl, by simp [retreatTurns, slice_self]⟩
  | succ turns ih =>
    obtain ⟨last, rfl⟩ : ∃ last, stop = last + 1 := ⟨stop - 1, by omega⟩
    have hget : l[last]? = some l[last] := getElem?_eq_getElem hstop
    have hslice : l.slice start (last + 1) = l.slice start last ++ [l[last]] :=
      slice_concat (by omega) hstop
    rw [retreatTurns, Nat.add_sub_cancel, hget, Option.any_some]
    by_cases hp : p l[last]
    · have hrest := @ih last (by omega) (by omega) (by omega)
      rw [if_pos hp]
      exact ⟨hrest.le, hrest.le_stop.trans (Nat.le_succ _), by
        rw [hslice, rdropWhile_concat_pos _ _ _ hp, hrest.kept]⟩
    · rw [if_neg hp]
      exact ⟨h, le_rfl, by rw [hslice, rdropWhile_concat_neg _ _ _ hp]⟩

end List
