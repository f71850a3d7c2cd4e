import Mathlib.Data.List.Sort
import Mathlib.Order.Basic

/-! # Stable sorting by a key

A stable sort keeps, key by key, the order of what has the key; sorted lists that agree key by key
are the same.
-/

namespace List

variable {α κ : Type*} [LinearOrder κ] {key : α → κ} {l l' : List α}

/-- The sort of `l` by `key`, equal keys in the order they came in. -/
def sortOn (key : α → κ) (l : List α) : List α := l.mergeSort fun a b => decide (key a ≤ key b)

theorem sortOn_perm (key : α → κ) (l : List α) : (l.sortOn key).Perm l := mergeSort_perm _ _

theorem mem_sortOn_iff {a : α} : a ∈ l.sortOn key ↔ a ∈ l := (sortOn_perm key l).mem_iff

theorem pairwise_sortOn (key : α → κ) (l : List α) :
    (l.sortOn key).Pairwise fun a b => key a ≤ key b := by
  have hsorted : (l.sortOn key).Pairwise fun a b => decide (key a ≤ key b) = true := by
    apply pairwise_mergeSort
    · intro a b c hab hbc
      rw [decide_eq_true_eq] at hab hbc ⊢
      exact hab.trans hbc
    · intro a b
      rw [Bool.or_eq_true, decide_eq_true_eq, decide_eq_true_eq]
      exact le_total (key a) (key b)
  exact hsorted.imp fun h => of_decide_eq_true h

variable [DecidableEq κ]

theorem filter_sortOn (key : α → κ) (l : List α) (k : κ) :
    (l.sortOn key).filter (key · = k) = l.filter (key · = k) := by
  have htrans (a b c : α) (hab : decide (key a ≤ key b)) (hbc : decide (key b ≤ key c)) :
      decide (key a ≤ key c) := by
    rw [decide_eq_true_eq] at hab hbc ⊢
    exact hab.trans hbc
  have htotal (a b : α) : decide (key a ≤ key b) || decide (key b ≤ key a) := by
    rw [Bool.or_eq_true, decide_eq_true_eq, decide_eq_true_eq]
    exact le_total (key a) (key b)
  have hsame : (l.filter (key · = k)).Pairwise fun a b => decide (key a ≤ key b) := by
    apply pairwise_of_forall_mem_list
    intro a ha b hb
    have hka : key a = k := by simpa using of_mem_filter ha
    have hkb : key b = k := by simpa using of_mem_filter hb
    rw [hka, hkb, decide_eq_true_eq]
  have hsub : l.filter (key · = k) <+ l.sortOn key :=
    sublist_mergeSort htrans htotal hsame filter_sublist
  have hfilter := hsub.filter (key · = k)
  simp only [filter_filter, Bool.and_self] at hfilter
  exact (hfilter.eq_of_length ((sortOn_perm key l).filter _).length_eq.symm).symm

theorem eq_of_filter_eq (hl : l.Pairwise fun a b => key a ≤ key b)
    (hl' : l'.Pairwise fun a b => key a ≤ key b)
    (h : ∀ k, l.filter (key · = k) = l'.filter (key · = k)) : l = l' := by
  induction l generalizing l' with
  | nil =>
    cases l' with
    | nil => rfl
    | cons b l' => simpa using h (key b)
  | cons a l ih =>
    cases l' with
    | nil => simpa using h (key a)
    | cons b l' =>
      rw [pairwise_cons] at hl hl'
      -- each head is in the other list, and so not before it
      have hba : key b ≤ key a := by
        have ha : a ∈ (b :: l').filter (key · = key a) := by
          rw [← h]
          simp
        rcases mem_cons.mp (mem_of_mem_filter ha) with rfl | ha
        · rfl
        · exact hl'.1 a ha
      have hab : key a ≤ key b := by
        have hb : b ∈ (a :: l).filter (key · = key b) := by
          rw [h]
          simp
        rcases mem_cons.mp (mem_of_mem_filter hb) with rfl | hb
        · rfl
        · exact hl.1 b hb
      have hkey : key a = key b := le_antisymm hab hba
      have hhead := h (key a)
      rw [filter_cons_of_pos (by simp), filter_cons_of_pos (by simp [hkey]), cons.injEq] at hhead
      obtain ⟨rfl, -⟩ := hhead
      rw [ih hl.2 hl'.2 fun k => ?_]
      have hk := h k
      rw [filter_cons, filter_cons] at hk
      split_ifs at hk
      · exact (cons.inj hk).2
      · exact hk

theorem sortOn_eq_iff : l.sortOn key = l'.sortOn key ↔
    ∀ k, l.filter (key · = k) = l'.filter (key · = k) := by
  constructor
  · intro h k
    rw [← filter_sortOn, h, filter_sortOn]
  · intro h
    refine eq_of_filter_eq (pairwise_sortOn key l) (pairwise_sortOn key l') fun k => ?_
    rw [filter_sortOn, filter_sortOn, h]

/-! ## The first of the least

A sort puts in front what a single pass finds that keeps the first of the least it met.
-/

variable {β : Type*} {f : α → Option β} {x : α} {y y' : β} {k k' : κ}

/-- The least key of what `f` takes, and the value of the first element with that key. -/
structure FirstLeast (key : α → κ) (f : α → Option β) (l : List α) (k : κ) (y : β) : Prop where
  least : ∀ x ∈ l, (f x).isSome → k ≤ key x
  first : (l.filter (key · = k)).findSome? f = some y

theorem FirstLeast.le (h : FirstLeast key f l k y) (h' : FirstLeast key f l k' y') : k ≤ k' := by
  obtain ⟨x, hx, hfx⟩ := exists_of_findSome?_eq_some h'.first
  obtain ⟨hmem, hkey⟩ := mem_filter.mp hx
  rw [← of_decide_eq_true hkey]
  exact h.least x hmem (by rw [hfx, Option.isSome_some])

theorem FirstLeast.unique (h : FirstLeast key f l k y) (h' : FirstLeast key f l k' y') : y = y' := by
  obtain rfl := le_antisymm (h.le h') (h'.le h)
  exact Option.some.inj (h.first.symm.trans h'.first)

theorem FirstLeast.concat (h : FirstLeast key f l k y) (hx : f x = none ∨ k ≤ key x) :
    FirstLeast key f (l ++ [x]) k y := by
  constructor
  · intro z hz hsome
    rcases mem_append.mp hz with hz | hz
    · exact h.least z hz hsome
    · obtain rfl := mem_singleton.mp hz
      rcases hx with hnone | hle
      · rw [hnone] at hsome
        cases hsome
      · exact hle
  · rw [filter_append, findSome?_append, h.first, Option.some_or]

theorem FirstLeast.concat_lt (hx : f x = some y) (hlt : ∀ z ∈ l, (f z).isSome → key x < key z) :
    FirstLeast key f (l ++ [x]) (key x) y := by
  constructor
  · intro z hz hsome
    rcases mem_append.mp hz with hz | hz
    · exact (hlt z hz hsome).le
    · rw [mem_singleton.mp hz]
  · have hnone : (l.filter (key · = key x)).findSome? f = none := by
      rw [findSome?_eq_none_iff]
      intro z hz
      obtain ⟨hmem, hkey⟩ := mem_filter.mp hz
      by_contra hne
      have hgt := hlt z hmem (Option.isSome_iff_ne_none.mpr hne)
      exact hgt.ne' (of_decide_eq_true hkey)
    rw [filter_append, findSome?_append, hnone, Option.none_or]
    simp [hx]

theorem firstLeast_of_sortOn (h : (l.sortOn key).findSome? f = some y) :
    ∃ k, FirstLeast key f l k y := by
  obtain ⟨front, x, back, hsplit, hx, hfront⟩ := findSome?_eq_some_iff.mp h
  have hsorted := pairwise_sortOn key l
  rw [hsplit, pairwise_append] at hsorted
  refine ⟨key x, fun z hz hsome => ?_, ?_⟩
  · have hz : z ∈ l.sortOn key := mem_sortOn_iff.mpr hz
    rw [hsplit] at hz
    rcases mem_append.mp hz with hz | hz
    · rw [hfront z hz] at hsome
      cases hsome
    · rcases mem_cons.mp hz with rfl | hz
      · exact le_rfl
      · exact rel_of_pairwise_cons hsorted.2.1 hz
  · have hnone : (front.filter (key · = key x)).findSome? f = none := by
      rw [findSome?_eq_none_iff]
      exact fun z hz => hfront z (mem_of_mem_filter hz)
    rw [← filter_sortOn, hsplit, filter_append, findSome?_append, hnone, Option.none_or,
      filter_cons_of_pos (by simp), findSome?_cons, hx]

theorem findSome?_sortOn_eq_none_iff :
    (l.sortOn key).findSome? f = none ↔ ∀ x ∈ l, f x = none := by
  simp only [findSome?_eq_none_iff, mem_sortOn_iff]

end List
