import Mathlib.Data.List.Infix
import Mathlib.Tactic.Common

/-! # Searching a text for a pattern

The occurrences of a pattern that a scan from left to right meets, when it goes on behind
each of them; and the matcher that reads every symbol of the text once, with the table of
the borders of the pattern.
-/

namespace Nifra.Search

variable {α : Type*} {pattern text : List α}

def OccursAt (pattern text : List α) (i : ℕ) : Prop := pattern <+: text.drop i

instance [DecidableEq α] (i : ℕ) : Decidable (OccursAt pattern text i) :=
  inferInstanceAs (Decidable (_ <+: _))

/-- The occurrences from a place on, each behind the one before it. -/
inductive Scanned (pattern text : List α) : ℕ → List ℕ → Prop
  | none {s : ℕ} (h : ∀ i, s ≤ i → ¬ OccursAt pattern text i) : Scanned pattern text s []
  | next {s i : ℕ} {found : List ℕ} (hle : s ≤ i) (h : OccursAt pattern text i)
    (hfirst : ∀ j, s ≤ j → j < i → ¬ OccursAt pattern text j)
    (hrest : Scanned pattern text (i + pattern.length) found) :
    Scanned pattern text s (i :: found)

theorem OccursAt.add_length_le {i : ℕ} (h : OccursAt pattern text i) (hne : pattern ≠ []) :
    i + pattern.length ≤ text.length := by
  have hle := h.length_le
  have hpos := List.length_pos_of_ne_nil hne
  rw [List.length_drop] at hle
  omega

theorem Scanned.of_le {s t : ℕ} {found : List ℕ} (h : Scanned pattern text t found) (hst : s ≤ t)
    (hnone : ∀ i, s ≤ i → i < t → ¬ OccursAt pattern text i) : Scanned pattern text s found := by
  cases h with
  | none h =>
    refine .none fun i hi => ?_
    by_cases hit : i < t
    · exact hnone i hi hit
    · exact h i (not_lt.mp hit)
  | next hle h hfirst hrest =>
    refine .next (hst.trans hle) h (fun j hj hji => ?_) hrest
    by_cases hjt : j < t
    · exact hnone j hj hjt
    · exact hfirst j (not_lt.mp hjt) hji

theorem Scanned.occursAt {s i : ℕ} {found : List ℕ} (h : Scanned pattern text s found)
    (hi : i ∈ found) : s ≤ i ∧ OccursAt pattern text i := by
  induction h with
  | none => cases hi
  | next hle hocc _ _ ih =>
    rcases List.mem_cons.mp hi with rfl | hi
    · exact ⟨hle, hocc⟩
    · obtain ⟨hle', hocc'⟩ := ih hi
      exact ⟨by omega, hocc'⟩

theorem Scanned.unique {s : ℕ} {found found' : List ℕ} (h : Scanned pattern text s found)
    (h' : Scanned pattern text s found') : found = found' := by
  induction h generalizing found' with
  | none hnone =>
    cases h' with
    | none => rfl
    | next hle hocc => exact absurd hocc (hnone _ hle)
  | next hle hocc hfirst _ ih =>
    cases h' with
    | none hnone => exact absurd hocc (hnone _ hle)
    | next hle' hocc' hfirst' hrest' =>
      obtain rfl : _ = _ := le_antisymm
        (not_lt.mp fun hlt => hfirst _ hle' hlt hocc') (not_lt.mp fun hlt => hfirst' _ hle hlt hocc)
      rw [ih hrest']

theorem Scanned.split {s i : ℕ} {found : List ℕ} (h : Scanned pattern text s found) (hsi : s ≤ i)
    (hocc : OccursAt pattern text i)
    (halone : ∀ j < i, OccursAt pattern text j → j + pattern.length ≤ i) :
    ∃ before after, found = before ++ i :: after ∧ (∀ j ∈ before, j < i) ∧
      Scanned pattern text (i + pattern.length) after := by
  induction h with
  | none hnone => exact absurd hocc (hnone i hsi)
  | @next s k found hle hocc' hfirst hrest ih =>
    rcases Nat.lt_trichotomy k i with hlt | rfl | hgt
    · obtain ⟨before, after, rfl, hbefore, hafter⟩ := ih (halone k hlt hocc')
      refine ⟨k :: before, after, rfl, ?_, hafter⟩
      rintro j (_ | ⟨_, hj⟩)
      · exact hlt
      · exact hbefore j hj
    · exact ⟨[], found, rfl, nofun, hrest⟩
    · exact absurd hocc (hfirst i hsi hgt)

/-- The longest beginning of the pattern that the word ends with, of those not longer than
the word. -/
structure Longest (pattern word : List α) (k : ℕ) : Prop where
  le : k ≤ pattern.length
  suffix : pattern.take k <:+ word
  max : ∀ j ≤ pattern.length, pattern.take j <:+ word → j ≤ k

theorem Longest.nil : Longest pattern ([] : List α) 0 := by
  refine ⟨Nat.zero_le _, by simp, fun j hj h => ?_⟩
  have hlen := h.length_le
  rw [List.length_take, Nat.min_eq_left hj] at hlen
  exact hlen

theorem take_succ_suffix_iff {word : List α} {j : ℕ} {c : α} (hj : j < pattern.length) :
    pattern.take (j + 1) <:+ word ++ [c] ↔ pattern[j]? = some c ∧ pattern.take j <:+ word := by
  have htake : pattern.take (j + 1) = pattern.take j ++ [pattern[j]] :=
    List.take_succ_eq_append_getElem hj
  rw [htake, List.getElem?_eq_getElem hj, Option.some.injEq]
  constructor
  · rintro ⟨front, h⟩
    rw [← List.append_assoc] at h
    obtain ⟨hfront, hlast⟩ := List.append_inj' h rfl
    exact ⟨List.singleton_inj.mp hlast, front, hfront⟩
  · rintro ⟨hc, front, h⟩
    exact ⟨front, by rw [← List.append_assoc, h, hc]⟩

theorem take_suffix_take {word : List α} {j k : ℕ} (hj : pattern.take j <:+ word)
    (hk : pattern.take k <:+ word) (hjk : j ≤ k) (hle : k ≤ pattern.length) :
    pattern.take j <:+ pattern.take k := by
  refine List.suffix_of_suffix_length_le hj hk ?_
  rw [List.length_take, List.length_take]
  omega

theorem suffix_tail_iff {j k : ℕ} (hjk : j < k) (hk : k ≤ pattern.length) :
    pattern.take j <:+ (pattern.take k).tail ↔ pattern.take j <:+ pattern.take k := by
  constructor
  · exact fun h => h.trans (List.tail_suffix _)
  · intro h
    refine List.suffix_of_suffix_length_le h (List.tail_suffix _) ?_
    rw [List.length_take, List.length_tail, List.length_take]
    omega

section Matcher
variable [DecidableEq α]

/-- The table tells, up to a length, the longest border of each beginning. -/
def Failure (pattern : List α) (table : List ℕ) (n : ℕ) : Prop :=
  ∀ i < n, Longest pattern (pattern.take (i + 1)).tail (table.getD i 0)

/-- `while (k > 0 && c !== pattern[k]) k = table[k - 1]`, so many times at most. -/
def fallBack (pattern : List α) (table : List ℕ) (c : α) : ℕ → ℕ → ℕ
  | 0, k => k
  | fuel + 1, k =>
    if 0 < k ∧ pattern[k]? ≠ some c then fallBack pattern table c fuel (table.getD (k - 1) 0)
    else k

def advance (pattern : List α) (table : List ℕ) (k : ℕ) (c : α) : ℕ :=
  let k := fallBack pattern table c k k
  if pattern[k]? = some c then k + 1 else k

theorem fallBack_spec {table : List ℕ} {c : α} {word : List α} {fuel k : ℕ} (hfuel : k ≤ fuel)
    (hk : k < pattern.length) (htable : Failure pattern table k)
    (hsuffix : pattern.take k <:+ word)
    (hmax : ∀ j < pattern.length, pattern.take j <:+ word → pattern[j]? = some c → j ≤ k) :
    let k' := fallBack pattern table c fuel k
    k' ≤ k ∧ pattern.take k' <:+ word ∧ (k' = 0 ∨ pattern[k']? = some c) ∧
      ∀ j < pattern.length, pattern.take j <:+ word → pattern[j]? = some c → j ≤ k' := by
  induction fuel generalizing k with
  | zero =>
    obtain rfl : k = 0 := by omega
    exact ⟨le_rfl, hsuffix, Or.inl rfl, hmax⟩
  | succ fuel ih =>
    rw [fallBack]
    split_ifs with h
    · have hborder := htable (k - 1) (by omega)
      rw [Nat.sub_add_cancel h.1] at hborder
      have hlt : table.getD (k - 1) 0 < k := by
        have hlen := hborder.suffix.length_le
        have hle := hborder.le
        rw [List.length_take, List.length_tail, List.length_take] at hlen
        omega
      have hsuffix' : pattern.take (table.getD (k - 1) 0) <:+ word :=
        ((suffix_tail_iff hlt hk.le).mp hborder.suffix).trans hsuffix
      obtain ⟨hle, h₁, h₂, h₃⟩ := ih (by omega) (by omega) (fun i hi => htable i (by omega)) hsuffix'
        fun j hj hjw hjc => by
          have hjk : j < k := by
            refine lt_of_le_of_ne (hmax j hj hjw hjc) ?_
            rintro rfl
            exact h.2 hjc
          refine hborder.max j hj.le ((suffix_tail_iff hjk hk.le).mpr ?_)
          exact take_suffix_take hjw hsuffix hjk.le hk.le
      exact ⟨hle.trans hlt.le, h₁, h₂, h₃⟩
    · rw [not_and_or, not_not, Nat.not_lt, Nat.le_zero] at h
      exact ⟨le_rfl, hsuffix, h, hmax⟩

theorem Longest.advance {table : List ℕ} {word : List α} {k : ℕ} {c : α}
    (h : Longest pattern word k) (hk : k < pattern.length) (htable : Failure pattern table k) :
    Longest pattern (word ++ [c]) (advance pattern table k c) := by
  obtain ⟨hle, hsuffix, hstop, hmax⟩ := fallBack_spec le_rfl hk htable h.suffix
    (c := c) fun j hj hjw _ => h.max j hj.le hjw
  unfold Search.advance
  simp only
  generalize fallBack pattern table c k k = k' at *
  split_ifs with hc
  · refine ⟨by omega, (take_succ_suffix_iff (by omega)).mpr ⟨hc, hsuffix⟩, fun j hj hjw => ?_⟩
    cases j with
    | zero => exact Nat.zero_le _
    | succ j =>
      obtain ⟨hjc, hjw⟩ := (take_succ_suffix_iff (by omega)).mp hjw
      exact Nat.succ_le_succ (hmax j (by omega) hjw hjc)
  · obtain rfl := hstop.resolve_right hc
    refine ⟨Nat.zero_le _, by simp, fun j hj hjw => ?_⟩
    cases j with
    | zero => exact le_rfl
    | succ j =>
      obtain ⟨hjc, hjw⟩ := (take_succ_suffix_iff (by omega)).mp hjw
      obtain rfl := Nat.le_zero.mp (hmax j (by omega) hjw hjc)
      exact absurd hjc hc

/-- One more entry of the table, as it is stored, and the state it was read off. -/
def extendTable (store : ℕ → ℕ) (pattern : List α) (state : List ℕ × ℕ) (c : α) : List ℕ × ℕ :=
  let k := advance pattern state.1 state.2 c
  (state.1 ++ [store k], k)

def borderTable (store : ℕ → ℕ) (pattern : List α) : List ℕ :=
  match pattern with
  | [] => []
  | _ :: rest => (rest.foldl (extendTable store pattern) ([0], 0)).1

omit [DecidableEq α] in
theorem Failure.append {table : List ℕ} {n k : ℕ} (h : Failure pattern table n)
    (hn : n ≤ table.length) : Failure pattern (table ++ [k]) n := by
  intro i hi
  rw [List.getD_eq_getElem?_getD, List.getElem?_append_left (by omega),
    ← List.getD_eq_getElem?_getD]
  exact h i hi

omit [DecidableEq α] in
theorem Failure.append_longest {table : List ℕ} {n : ℕ} (h : Failure pattern table n)
    (hn : n = table.length) {k : ℕ} (hk : Longest pattern (pattern.take (n + 1)).tail k) :
    Failure pattern (table ++ [k]) (n + 1) := by
  intro i hi
  rcases Nat.lt_succ_iff_lt_or_eq.mp hi with hlt | rfl
  · exact h.append hn.le i hlt
  · rw [List.getD_eq_getElem?_getD, List.getElem?_append_right (by omega)]
    simpa [hn] using hk

omit [DecidableEq α] in
theorem Failure.mono {table : List ℕ} {m n : ℕ} (h : Failure pattern table n) (hmn : m ≤ n) :
    Failure pattern table m :=
  fun i hi => h i (hi.trans_le hmn)

theorem failure_foldl {store : ℕ → ℕ} (hstore : ∀ k, k + 1 < pattern.length → store k = k)
    {front rest : List α} (hpattern : pattern = front ++ rest) (hfront : front ≠ [])
    {table : List ℕ} {k : ℕ} (hlen : table.length = front.length)
    (htable : Failure pattern table front.length) (hk : Longest pattern front.tail k) :
    Failure pattern (rest.foldl (extendTable store pattern) (table, k)).1 (pattern.length - 1) := by
  induction rest generalizing front table k with
  | nil =>
    rw [List.append_nil] at hpattern
    rw [hpattern] at htable ⊢
    exact htable.mono (Nat.sub_le _ 1)
  | cons c rest ih =>
    have hkfront : k < front.length := by
      have hle := hk.suffix.length_le
      have := hk.le
      have := List.length_pos_of_ne_nil hfront
      rw [List.length_take, List.length_tail] at hle
      omega
    have hlength : pattern.length = front.length + 1 + rest.length := by
      rw [hpattern, List.length_append, List.length_cons]
      omega
    rcases rest with _ | ⟨d, rest⟩
    · rw [hlength]
      exact htable.append hlen.ge
    have hstep := hk.advance (c := c) (by omega) fun i hi => htable i (hi.trans hkfront)
    have htail : front.tail ++ [c] = (pattern.take (front.length + 1)).tail := by
      rw [hpattern, List.take_append, List.take_of_length_le (Nat.le_succ _),
        Nat.add_sub_cancel_left]
      cases front with
      | nil => exact absurd rfl hfront
      | cons a front => simp
    rw [htail] at hstep
    have happend : pattern = (front ++ [c]) ++ d :: rest := by simp [hpattern]
    refine ih happend (by simp) ?_ ?_ ?_
    · rw [List.length_append, List.length_append, hlen]
      rfl
    · have hlt : advance pattern table k c + 1 < pattern.length := by
        have hle := hstep.suffix.length_le
        have := hstep.le
        rw [List.length_take, List.length_tail, List.length_take] at hle
        rw [List.length_cons] at hlength
        omega
      rw [List.length_append, hstore _ hlt]
      exact htable.append_longest hlen.symm hstep
    · rw [List.tail_append_of_ne_nil hfront, htail]
      exact hstep

theorem failure_borderTable {store : ℕ → ℕ} (hstore : ∀ k, k + 1 < pattern.length → store k = k) :
    Failure pattern (borderTable store pattern) (pattern.length - 1) := by
  cases pattern with
  | nil => exact fun i hi => absurd hi (Nat.not_lt_zero i)
  | cons a rest =>
    refine @failure_foldl _ _ _ _ hstore [a] rest rfl (by simp) _ _ rfl (fun i hi => ?_) .nil
    obtain rfl : i = 0 := by simpa using hi
    exact .nil

omit [DecidableEq α] in
theorem occursAt_iff_suffix {s j e : ℕ} (hsj : s ≤ j) (he : j + pattern.length = e)
    (hle : e ≤ text.length) :
    OccursAt pattern text j ↔ pattern <:+ (text.drop s).take (e - s) := by
  have hsplit : (text.drop s).take (e - s) =
      (text.drop s).take (j - s) ++ (text.drop j).take pattern.length := by
    rw [show e - s = (j - s) + pattern.length by omega, List.take_add, List.drop_drop,
      Nat.add_sub_cancel' hsj]
  have hlen : ((text.drop j).take pattern.length).length = pattern.length := by
    rw [List.length_take, List.length_drop]
    omega
  rw [hsplit, OccursAt, List.prefix_iff_eq_take]
  constructor
  · intro h
    rw [← h]
    exact List.suffix_append _ _
  · rintro ⟨front, h⟩
    exact (List.append_inj' h hlen.symm).2

/-- The state of a scan at a place: what the text since the last occurrence ends with, and no
occurrence in it. -/
structure Reading (pattern text : List α) (s i k : ℕ) : Prop where
  le : s ≤ i
  longest : Longest pattern ((text.drop s).take (i - s)) k
  lt : k < pattern.length
  none : ∀ j, s ≤ j → j + pattern.length ≤ i → ¬ OccursAt pattern text j

omit [DecidableEq α] in
theorem Reading.init (hne : pattern ≠ []) (s : ℕ) : Reading pattern text s s 0 := by
  have hpos := List.length_pos_of_ne_nil hne
  refine ⟨le_rfl, ?_, hpos, fun j hj hle => by omega⟩
  rw [Nat.sub_self, List.take_zero]
  exact .nil

theorem Reading.advance {table : List ℕ} (htable : Failure pattern table (pattern.length - 1))
    {s i k : ℕ} (h : Reading pattern text s i k) {c : α} (hc : text[i]? = some c) :
    (Search.advance pattern table k c = pattern.length ∧
      s ≤ i + 1 - pattern.length ∧ i + 1 - pattern.length + pattern.length = i + 1 ∧
      OccursAt pattern text (i + 1 - pattern.length) ∧
      ∀ j, s ≤ j → j < i + 1 - pattern.length → ¬ OccursAt pattern text j) ∨
    (Search.advance pattern table k c ≠ pattern.length ∧
      Reading pattern text s (i + 1) (Search.advance pattern table k c)) := by
  obtain ⟨hlt, hget⟩ := List.getElem?_eq_some_iff.mp hc
  have hsi := h.le
  have hword : (text.drop s).take (i - s) ++ [c] = (text.drop s).take (i + 1 - s) := by
    rw [show i + 1 - s = (i - s) + 1 by omega, List.take_add_one, List.getElem?_drop,
      Nat.add_sub_cancel' hsi, hc]
    rfl
  have hstep := h.longest.advance (c := c) h.lt
    (htable.mono (Nat.le_sub_one_of_lt h.lt))
  rw [hword] at hstep
  by_cases hk : Search.advance pattern table k c = pattern.length
  · refine Or.inl ⟨hk, ?_⟩
    have hsuffix := hstep.suffix
    rw [hk, List.take_length] at hsuffix
    have hlen := hsuffix.length_le
    rw [List.length_take, List.length_drop] at hlen
    refine ⟨by omega, by omega, ?_, fun j hj hji => h.none j hj (by omega)⟩
    exact (occursAt_iff_suffix (by omega) (by omega) (by omega)).mpr hsuffix
  · refine Or.inr ⟨hk, hsi.trans (Nat.le_succ i), hstep, lt_of_le_of_ne hstep.le hk, ?_⟩
    intro j hj hji hocc
    rcases Nat.le_succ_iff.mp hji with hle | heq
    · exact h.none j hj hle hocc
    · have hsuffix := (occursAt_iff_suffix hj heq (by omega)).mp hocc
      have hmax := hstep.max pattern.length le_rfl (by rwa [List.take_length])
      exact hk (le_antisymm hstep.le hmax)

end Matcher

end Nifra.Search
