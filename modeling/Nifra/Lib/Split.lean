import Mathlib.Data.List.Basic

/-! # Splitting and joining

What the pieces of a list split at a separator hold, and when joined lists are equal.
-/

namespace List

variable {α : Type*} [DecidableEq α] {a x : α} {l piece : List α}

theorem mem_of_mem_splitOn (hpiece : piece ∈ l.splitOn a) (hx : x ∈ piece) : x ∈ l ∧ x ≠ a := by
  induction l generalizing piece with
  | nil =>
    obtain rfl : piece = [] := by simpa using hpiece
    cases hx
  | cons y l ih =>
    rw [splitOn_cons_eq_if_modifyHead] at hpiece
    split_ifs at hpiece with hy
    · rcases mem_cons.mp hpiece with rfl | hpiece
      · cases hx
      · exact (ih hpiece hx).imp_left (mem_cons_of_mem _)
    · cases hs : l.splitOn a with
      | nil => exact absurd hs (splitOn_ne_nil a l)
      | cons first pieces =>
        rw [hs] at ih hpiece
        rcases mem_cons.mp hpiece with rfl | hpiece
        · rcases mem_cons.mp hx with rfl | hx
          · exact ⟨mem_cons_self, by simpa using hy⟩
          · exact (ih mem_cons_self hx).imp_left (mem_cons_of_mem _)
        · exact (ih (mem_cons_of_mem _ hpiece) hx).imp_left (mem_cons_of_mem _)

theorem length_splitOn (a : α) (l : List α) : (l.splitOn a).length = l.count a + 1 := by
  induction l with
  | nil => simp
  | cons y l ih =>
    rw [splitOn_cons_eq_if_modifyHead, count_cons]
    split_ifs with hy
    · rw [length_cons, ih]
    · rw [length_modifyHead, ih]

theorem exists_splitOn (a : α) (l : List α) :
    ∃ pieces, l.splitOn a = l.takeWhile (· ≠ a) :: pieces := by
  induction l with
  | nil => exact ⟨[], by simp⟩
  | cons y l ih =>
    obtain ⟨pieces, ih⟩ := ih
    rw [splitOn_cons_eq_if_modifyHead, ih]
    by_cases hy : y = a
    · exact ⟨l.takeWhile (· ≠ a) :: pieces, by simp [hy]⟩
    · exact ⟨pieces, by simp [hy]⟩

omit [DecidableEq α] in
theorem eq_or_mem_of_mem_intercalate {ls : List (List α)} (h : x ∈ [a].intercalate ls) :
    x = a ∨ ∃ l ∈ ls, x ∈ l := by
  induction ls with
  | nil => simp at h
  | cons l ls ih =>
    cases ls with
    | nil => exact Or.inr ⟨l, mem_cons_self, by simpa using h⟩
    | cons m ls =>
      rw [intercalate_cons_cons, mem_append, mem_append, mem_singleton] at h
      rcases h with (hl | rfl) | hls
      · exact Or.inr ⟨l, mem_cons_self, hl⟩
      · exact Or.inl rfl
      · exact (ih hls).imp_right fun ⟨k, hk, hx⟩ => ⟨k, mem_cons_of_mem _ hk, hx⟩

omit [DecidableEq α] in
theorem mem_intercalate_of_mem {ls : List (List α)} (hl : l ∈ ls) (hx : x ∈ l) :
    x ∈ [a].intercalate ls := by
  induction ls with
  | nil => cases hl
  | cons m ls ih =>
    cases ls with
    | nil =>
      obtain rfl := mem_singleton.mp hl
      simpa using hx
    | cons k ls =>
      rw [intercalate_cons_cons, mem_append, mem_append]
      rcases mem_cons.mp hl with rfl | hl
      · exact Or.inl (Or.inl hx)
      · exact Or.inr (ih hl)

omit [DecidableEq α] in
theorem intercalate_ne_nil {ls : List (List α)} (hl : l ≠ []) : [a].intercalate (l :: ls) ≠ [] := by
  cases ls with
  | nil => simpa using hl
  | cons m ls =>
    rw [intercalate_cons_cons]
    exact append_ne_nil_of_left_ne_nil (append_ne_nil_of_left_ne_nil hl _) _

omit [DecidableEq α] in
theorem intercalate_concat {ls : List (List α)} (hls : ls ≠ []) (l : List α) :
    [a].intercalate (ls ++ [l]) = [a].intercalate ls ++ a :: l := by
  induction ls with
  | nil => exact absurd rfl hls
  | cons m ls ih =>
    cases ls with
    | nil => simp
    | cons k ls =>
      have ih := ih (cons_ne_nil _ _)
      rw [cons_append] at ih
      rw [cons_append, cons_append, intercalate_cons_cons, ih, intercalate_cons_cons, append_assoc,
        append_assoc, append_assoc]

theorem intercalate_inj {ls ms : List (List α)} (hls : ∀ l ∈ ls, a ∉ l) (hms : ∀ l ∈ ms, a ∉ l)
    (hls' : ls ≠ []) (hms' : ms ≠ []) (h : [a].intercalate ls = [a].intercalate ms) : ls = ms := by
  rw [← splitOn_intercalate a hls hls', h, splitOn_intercalate a hms hms']

/-! ## Splitting an encoded list

A code writes the separator as one sign, and that sign stands in no other word of it.
-/

theorem splitOn_append_of_not_mem {k : List α} (h : a ∉ k) :
    (k ++ l).splitOn a = (l.splitOn a).modifyHead (k ++ ·) := by
  induction k with
  | nil =>
    rw [nil_append]
    cases l.splitOn a <;> rfl
  | cons x k ih =>
    have hx : ¬(x == a) = true := by
      rintro hxa
      exact h (by simp [eq_of_beq hxa])
    rw [cons_append, splitOn_cons_eq_if_modifyHead, if_neg hx, ih (mt (mem_cons_of_mem _) h)]
    cases l.splitOn a <;> simp

variable {β : Type*} [DecidableEq β] {b : β} {f : α → List β}

theorem splitOn_flatMap (hsep : f a = [b]) (hother : ∀ x ∈ l, x ≠ a → b ∉ f x) :
    (l.flatMap f).splitOn b = (l.splitOn a).map fun piece => piece.flatMap f := by
  induction l with
  | nil => simp
  | cons x l ih =>
    obtain ⟨hx, hl⟩ := forall_mem_cons.mp hother
    rw [flatMap_cons, splitOn_cons_eq_if_modifyHead]
    by_cases hxa : x = a
    · subst hxa
      rw [hsep, singleton_append, splitOn_cons_eq_if_modifyHead, ih hl]
      simp
    · have hword : (f x ++ l.flatMap f).splitOn b
          = ((l.flatMap f).splitOn b).modifyHead (f x ++ ·) :=
        splitOn_append_of_not_mem (hx hxa)
      rw [hword, ih hl, if_neg (by simpa using hxa)]
      cases hs : l.splitOn a with
      | nil => exact absurd hs (splitOn_ne_nil a l)
      | cons first pieces => simp

theorem takeWhile_flatMap (hsep : f a = [b]) (hother : ∀ x ∈ l, x ≠ a → b ∉ f x) :
    (l.flatMap f).takeWhile (fun y => decide (y ≠ b))
      = (l.takeWhile fun x => decide (x ≠ a)).flatMap f := by
  induction l with
  | nil => rfl
  | cons x l ih =>
    obtain ⟨hx, hl⟩ := forall_mem_cons.mp hother
    rw [flatMap_cons]
    by_cases hxa : x = a
    · subst hxa
      simp [hsep]
    · rw [takeWhile_append_of_pos fun y hy => decide_eq_true (ne_of_mem_of_not_mem hy (hx hxa)),
        ih hl, takeWhile_cons_of_pos (by simpa using hxa), flatMap_cons]

theorem dropWhile_flatMap (hsep : f a = [b]) (hother : ∀ x ∈ l, x ≠ a → b ∉ f x) :
    (l.flatMap f).dropWhile (fun y => decide (y ≠ b))
      = (l.dropWhile fun x => decide (x ≠ a)).flatMap f := by
  induction l with
  | nil => rfl
  | cons x l ih =>
    obtain ⟨hx, hl⟩ := forall_mem_cons.mp hother
    rw [flatMap_cons]
    by_cases hxa : x = a
    · subst hxa
      simp [hsep]
    · rw [dropWhile_append_of_pos fun y hy => decide_eq_true (ne_of_mem_of_not_mem hy (hx hxa)),
        ih hl, dropWhile_cons_of_pos (by simpa using hxa)]

end List
