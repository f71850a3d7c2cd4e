import Nifra.Lib.StringSearch

/-! # The delimiters of a multipart body

`scanDelimiters` looks for `--boundary` by its first dash, and goes over to the linear
matcher once it has read as many bytes again as the body has. Unless a limit stops it, it
finds the occurrences that a scan from the start of the body meets, as long as the borders of the
delimiter fit the bytes of the table of the matcher.
-/

namespace Nifra.Multipart

open Search

/-- Where the delimiters start, and how many close an empty part. -/
structure Delimiters where
  starts : List ℕ
  empty : ℕ
  deriving DecidableEq, Repr

structure DelimiterLimits where
  filled : ℕ
  empty : ℕ
  deriving DecidableEq, Repr

def startsWith (bytes : List ℕ) (start : ℕ) (front : List ℕ) : Bool :=
  front.isPrefixOf (bytes.drop start)

/-- The delimiter follows at once the blank line that ends the headers of a part. -/
def closesEmptyPart (bytes : List ℕ) (start : ℕ) : Bool :=
  decide (6 ≤ start) && startsWith bytes (start - 6) [13, 10, 13, 10, 13, 10]

namespace Delimiters

def overLimits (found : Delimiters) (limits : DelimiterLimits) : Prop :=
  limits.filled < found.starts.length - found.empty ∨ limits.empty < found.empty

instance (found : Delimiters) (limits : DelimiterLimits) : Decidable (found.overLimits limits) :=
  inferInstanceAs (Decidable (_ ∨ _))

/-- One more delimiter, counted as the close of an empty part unless it is the first. -/
def push (found : Delimiters) (bytes : List ℕ) (start : ℕ) : Delimiters :=
  { starts := found.starts ++ [start],
    empty :=
      if 0 < found.starts.length ∧ closesEmptyPart bytes start then found.empty + 1
      else found.empty }

end Delimiters

/-- `failureTable`: the table is a `Uint8Array`. -/
def failureTable (pattern : List ℕ) : List ℕ := borderTable (· % 256) pattern

/-- The loop of `scanFrom`, with the bytes that are left. -/
def scanWith (bytes pattern table : List ℕ) (limits : DelimiterLimits) :
    List ℕ → ℕ → ℕ → Delimiters → Delimiters
  | [], _, _, found => found
  | byte :: rest, i, k, found =>
    let k := advance pattern table k byte
    if k = pattern.length then
      let found := found.push bytes (i + 1 - pattern.length)
      if found.overLimits limits then found
      else scanWith bytes pattern table limits rest (i + 1) 0 found
    else scanWith bytes pattern table limits rest (i + 1) k found

def scanFrom (bytes pattern : List ℕ) (start : ℕ) (found : Delimiters) (limits : DelimiterLimits) :
    Delimiters :=
  scanWith bytes pattern (failureTable pattern) limits (bytes.drop start) start 0 found

def commonLength : List ℕ → List ℕ → ℕ
  | a :: as, b :: bs => if a = b then commonLength as bs + 1 else 0
  | _, _ => 0

def indexOfDash (bytes : List ℕ) (i : ℕ) : ℕ :=
  i + (bytes.drop i).findIdx (· = 45)

def scanLoop (bytes pattern : List ℕ) (limits : DelimiterLimits) :
    ℕ → ℕ → ℕ → Delimiters → Delimiters
  | 0, _, _, found => found
  | fuel + 1, i, work, found =>
    if bytes.length < i + pattern.length then found
    else
      let i := indexOfDash bytes i
      if bytes.length < i + pattern.length then found
      else
        let k := 1 + commonLength pattern.tail (bytes.drop (i + 1))
        if k = pattern.length then
          let found := found.push bytes i
          if found.overLimits limits then found
          else scanLoop bytes pattern limits fuel (i + pattern.length) work found
        else if bytes.length < work + k then
          scanFrom bytes pattern i found limits
        else scanLoop bytes pattern limits fuel (i + 1) (work + k) found

def scanDelimiters (bytes pattern : List ℕ) (limits : DelimiterLimits) : Delimiters :=
  scanLoop bytes pattern limits (bytes.length + 1) 0 0 ⟨[], 0⟩

section Spec
variable {bytes pattern : List ℕ} {limits : DelimiterLimits}

theorem failure_failureTable (hsize : pattern.length ≤ 257) :
    Failure pattern (failureTable pattern) (pattern.length - 1) :=
  failure_borderTable fun k hk => Nat.mod_eq_of_lt (by omega)

theorem scanWith_spec {table : List ℕ} (htable : Failure pattern table (pattern.length - 1))
    {s i k : ℕ} {found : Delimiters} (h : Reading pattern bytes s i k)
    (hwithin : ¬ (scanWith bytes pattern table limits (bytes.drop i) i k found).overLimits limits) :
    ∃ more, (scanWith bytes pattern table limits (bytes.drop i) i k found).starts =
      found.starts ++ more ∧ Scanned pattern bytes s more := by
  generalize hrest : bytes.drop i = rest at hwithin ⊢
  induction rest generalizing s i k found with
  | nil =>
    refine ⟨[], (List.append_nil _).symm, .none fun j hj hocc => ?_⟩
    have hle := hocc.add_length_le (List.ne_nil_of_length_pos (Nat.zero_lt_of_lt h.lt))
    have := List.drop_eq_nil_iff.mp hrest
    exact h.none j hj (by omega) hocc
  | cons byte rest ih =>
    have hbyte : bytes[i]? = some byte := by
      rw [← Nat.add_zero i, ← List.getElem?_drop, hrest]
      rfl
    have hrest' : bytes.drop (i + 1) = rest := by rw [← List.drop_drop, hrest]; rfl
    rw [scanWith] at hwithin ⊢
    simp only at hwithin ⊢
    rcases h.advance htable hbyte with ⟨hk, hsi, hend, hocc, hfirst⟩ | ⟨hk, hreading⟩
    · rw [if_pos hk] at hwithin ⊢
      have hne : pattern ≠ [] := List.ne_nil_of_length_pos (Nat.zero_lt_of_lt h.lt)
      by_cases hover : (found.push bytes (i + 1 - pattern.length)).overLimits limits
      · rw [if_pos hover] at hwithin
        exact absurd hover hwithin
      rw [if_neg hover] at hwithin ⊢
      obtain ⟨more, hmore, hscanned⟩ := ih (.init hne (i + 1)) hrest' hwithin
      refine ⟨(i + 1 - pattern.length) :: more, ?_, .next hsi hocc hfirst ?_⟩
      · rw [hmore, Delimiters.push, List.append_assoc]
        rfl
      · rwa [hend]
    · rw [if_neg hk] at hwithin ⊢
      exact ih hreading hrest' hwithin

theorem commonLength_eq_length_iff {as bs : List ℕ} :
    commonLength as bs = as.length ↔ as <+: bs := by
  induction as generalizing bs with
  | nil => simp [commonLength]
  | cons a as ih =>
    cases bs with
    | nil => simp [commonLength]
    | cons b bs =>
      rw [commonLength, List.cons_prefix_cons, List.length_cons]
      split_ifs with hab
      · rw [Nat.succ_inj, ih]
        simp [hab]
      · simp [hab]

theorem not_occursAt_before_dash {front : List ℕ} {i j : ℕ} (hij : i ≤ j)
    (hj : j < indexOfDash bytes i) : ¬ OccursAt (45 :: front) bytes j := by
  intro hocc
  have hhead : bytes[j]? = some 45 := by
    obtain ⟨rest, hrest⟩ := hocc
    rw [← Nat.add_zero j, ← List.getElem?_drop, ← hrest]
    rfl
  unfold indexOfDash at hj
  have hlt : j - i < (bytes.drop i).findIdx (· = 45) := by omega
  have hnot := List.not_of_lt_findIdx hlt
  obtain ⟨_, hget⟩ := List.getElem?_eq_some_iff.mp hhead
  simp only [List.getElem_drop, Nat.add_sub_cancel' hij, hget] at hnot
  exact absurd hnot (by decide)

theorem getElem_indexOfDash {i : ℕ} (h : indexOfDash bytes i < bytes.length) :
    bytes[indexOfDash bytes i] = 45 := by
  unfold indexOfDash at h
  have hlt : (bytes.drop i).findIdx (· = 45) < (bytes.drop i).length := by
    rw [List.length_drop]
    omega
  have hdash := List.findIdx_getElem (w := hlt)
  simp only [List.getElem_drop, decide_eq_true_eq] at hdash
  exact hdash

theorem scanLoop_spec {front : List ℕ} (hpattern : pattern = 45 :: front)
    (hsize : pattern.length ≤ 257) {fuel i work : ℕ} {found : Delimiters}
    (hfuel : bytes.length ≤ i + fuel)
    (hwithin : ¬ (scanLoop bytes pattern limits fuel i work found).overLimits limits) :
    ∃ more, (scanLoop bytes pattern limits fuel i work found).starts = found.starts ++ more ∧
      Scanned pattern bytes i more := by
  have hne : pattern ≠ [] := by simp [hpattern]
  have hpos := List.length_pos_of_ne_nil hne
  have hnone {i : ℕ} (h : bytes.length < i + pattern.length) : Scanned pattern bytes i [] :=
    .none fun j hj hocc => by
      have := hocc.add_length_le hne
      omega
  induction fuel generalizing i work found with
  | zero => exact ⟨[], (List.append_nil _).symm, hnone (by omega)⟩
  | succ fuel ih =>
    rw [scanLoop] at hwithin ⊢
    simp only at hwithin ⊢
    have hle : i ≤ indexOfDash bytes i := Nat.le_add_right _ _
    have hbefore (j : ℕ) (hij : i ≤ j) (hj : j < indexOfDash bytes i) :
        ¬ OccursAt pattern bytes j := hpattern ▸ not_occursAt_before_dash hij hj
    generalize hi : indexOfDash bytes i = i' at hwithin hle hbefore ⊢
    by_cases hlast : bytes.length < i + pattern.length
    · rw [if_pos hlast]
      exact ⟨[], (List.append_nil _).symm, hnone hlast⟩
    rw [if_neg hlast] at hwithin ⊢
    by_cases hdash : bytes.length < i' + pattern.length
    · rw [if_pos hdash]
      exact ⟨[], (List.append_nil _).symm, (hnone hdash).of_le hle hbefore⟩
    rw [if_neg hdash] at hwithin ⊢
    have hocc : OccursAt pattern bytes i' ↔
        1 + commonLength pattern.tail (bytes.drop (i' + 1)) = pattern.length := by
      have hlt : i' < bytes.length := by omega
      have hget : bytes[i'] = 45 := by
        subst hi
        exact getElem_indexOfDash hlt
      rw [OccursAt, List.drop_eq_getElem_cons hlt, hget, hpattern, List.cons_prefix_cons,
        List.tail_cons, List.length_cons, ← commonLength_eq_length_iff, Nat.add_comm 1,
        Nat.succ_inj]
      simp
    by_cases hk : 1 + commonLength pattern.tail (bytes.drop (i' + 1)) = pattern.length
    · rw [if_pos hk] at hwithin ⊢
      by_cases hover : (found.push bytes i').overLimits limits
      · rw [if_pos hover] at hwithin
        exact absurd hover hwithin
      rw [if_neg hover] at hwithin ⊢
      obtain ⟨more, hmore, hscanned⟩ := ih (by omega) hwithin
      refine ⟨i' :: more, ?_, .next hle (hocc.mpr hk) hbefore hscanned⟩
      rw [hmore, Delimiters.push, List.append_assoc]
      rfl
    · rw [if_neg hk] at hwithin ⊢
      by_cases hwork : bytes.length < work + (1 + commonLength pattern.tail (bytes.drop (i' + 1)))
      · rw [if_pos hwork] at hwithin ⊢
        obtain ⟨more, hmore, hscanned⟩ :=
          scanWith_spec (failure_failureTable hsize) (.init hne i') hwithin
        exact ⟨more, hmore, hscanned.of_le hle hbefore⟩
      · rw [if_neg hwork] at hwithin ⊢
        obtain ⟨more, hmore, hscanned⟩ := ih (by omega) hwithin
        refine ⟨more, hmore, hscanned.of_le (by omega) fun j hij hj => ?_⟩
        rcases Nat.lt_succ_iff_lt_or_eq.mp hj with hlt | rfl
        · exact hbefore j hij hlt
        · exact mt hocc.mp hk

theorem scanned_scanLoop {front : List ℕ} (hpattern : pattern = 45 :: front)
    (hsize : pattern.length ≤ 257) {work : ℕ}
    (hwithin : ¬ (scanLoop bytes pattern limits (bytes.length + 1) 0 work ⟨[], 0⟩).overLimits
      limits) :
    Scanned pattern bytes 0
      (scanLoop bytes pattern limits (bytes.length + 1) 0 work ⟨[], 0⟩).starts := by
  obtain ⟨more, hmore, hscanned⟩ := scanLoop_spec hpattern hsize (by omega) hwithin
  rw [hmore]
  exact hscanned

theorem scanned_scanDelimiters {front : List ℕ} (hpattern : pattern = 45 :: front)
    (hsize : pattern.length ≤ 257)
    (hwithin : ¬ (scanDelimiters bytes pattern limits).overLimits limits) :
    Scanned pattern bytes 0 (scanDelimiters bytes pattern limits).starts :=
  scanned_scanLoop hpattern hsize hwithin

def Delimiters.Counted (bytes : List ℕ) (found : Delimiters) : Prop :=
  found.empty = found.starts.tail.countP (closesEmptyPart bytes)

theorem Delimiters.Counted.push {found : Delimiters} (h : found.Counted bytes) (start : ℕ) :
    (found.push bytes start).Counted bytes := by
  unfold Counted at h ⊢
  rcases found with ⟨_ | ⟨first, starts⟩, empty⟩
  · simpa [Delimiters.push] using h
  · simp only [Delimiters.push, List.length_cons, Nat.succ_pos, true_and, List.cons_append,
      List.tail_cons, List.countP_append, List.countP_singleton] at h ⊢
    rw [h]
    split_ifs <;> rfl

theorem counted_scanWith {table rest : List ℕ} {i k : ℕ} {found : Delimiters}
    (h : found.Counted bytes) :
    (scanWith bytes pattern table limits rest i k found).Counted bytes := by
  induction rest generalizing i k found with
  | nil => exact h
  | cons byte rest ih =>
    simp only [scanWith]
    split_ifs
    · exact h.push _
    · exact ih (h.push _)
    · exact ih h

theorem counted_scanLoop {fuel i work : ℕ} {found : Delimiters} (h : found.Counted bytes) :
    (scanLoop bytes pattern limits fuel i work found).Counted bytes := by
  induction fuel generalizing i work found with
  | zero => exact h
  | succ fuel ih =>
    simp only [scanLoop]
    split_ifs
    · exact h
    · exact h
    · exact h.push _
    · exact ih (h.push _)
    · exact counted_scanWith h
    · exact ih h

def StartsLine (bytes : List ℕ) (i : ℕ) : Prop :=
  i = 0 ∨ 2 ≤ i ∧ [13, 10] <+: bytes.drop (i - 2)

theorem add_length_le_of_line {i j : ℕ} (hline : 10 ∉ pattern) (hlf : bytes[i - 1]? = some 10)
    (hj : j < i) (hocc : OccursAt pattern bytes j) : j + pattern.length ≤ i := by
  by_contra hover
  obtain ⟨more, hmore⟩ := hocc
  obtain ⟨q, hq⟩ := Nat.exists_eq_add_of_le (show j ≤ i - 1 by omega)
  rw [hq, ← List.getElem?_drop, ← hmore, List.getElem?_append_left (by omega)] at hlf
  exact hline (List.mem_of_getElem? hlf)

theorem mem_of_startsLine {starts : List ℕ} {i : ℕ} (hline : 10 ∉ pattern)
    (hscanned : Scanned pattern bytes 0 starts) (hocc : OccursAt pattern bytes i)
    (hstart : StartsLine bytes i) : i ∈ starts := by
  have halone : ∀ j < i, OccursAt pattern bytes j → j + pattern.length ≤ i := by
    intro j hj hoccj
    rcases hstart with rfl | ⟨hi, rest, hrest⟩
    · exact absurd hj (Nat.not_lt_zero j)
    · have hlf : bytes[i - 1]? = some 10 := by
        rw [show i - 1 = (i - 2) + 1 by omega, ← List.getElem?_drop, ← hrest]
        rfl
      exact add_length_le_of_line hline hlf hj hoccj
  obtain ⟨before, after, rfl, -⟩ := hscanned.split (Nat.zero_le i) hocc halone
  exact List.mem_append_right before List.mem_cons_self

end Spec

/-- The scan is the naive one, whatever is left of the budget when it begins. -/
theorem scanDelimiters_naive (bytes front : List ℕ) (limits : DelimiterLimits)
    (hsize : (45 :: front).length ≤ 257)
    (hwithin : ¬ (scanDelimiters bytes (45 :: front) limits).overLimits limits) :
    let found := scanDelimiters bytes (45 :: front) limits
    Scanned (45 :: front) bytes 0 found.starts ∧
      found.empty = found.starts.tail.countP (closesEmptyPart bytes) ∧
      (∀ work, let other := scanLoop bytes (45 :: front) limits (bytes.length + 1) 0 work ⟨[], 0⟩
        ¬ other.overLimits limits → other = found) ∧
      (13 ∉ 45 :: front → 10 ∉ 45 :: front → ∀ i, OccursAt (45 :: front) bytes i →
        StartsLine bytes i → i ∈ found.starts) := by
  have hscanned := scanned_scanDelimiters rfl hsize hwithin
  have hcounted (work : ℕ) :
      (scanLoop bytes (45 :: front) limits (bytes.length + 1) 0 work ⟨[], 0⟩).Counted bytes :=
    counted_scanLoop rfl
  have hfound : (scanDelimiters bytes (45 :: front) limits).Counted bytes := hcounted 0
  refine ⟨hscanned, hfound, fun work hother => ?_, fun _ hline i hocc hstart => ?_⟩
  · have hstarts := (scanned_scanLoop rfl hsize hother).unique hscanned
    have hempty := hcounted work
    rw [Delimiters.Counted, hstarts, ← hfound] at hempty
    rcases hfound : scanLoop bytes (45 :: front) limits (bytes.length + 1) 0 work ⟨[], 0⟩ with
      ⟨starts, empty⟩
    rw [hfound] at hstarts hempty
    subst hstarts hempty
    rfl
  · exact mem_of_startsLine hline hscanned hocc hstart

theorem scanDelimiters_naive_dashes :
    let bytes := List.replicate 9 45 ++ [120]
    let found := scanDelimiters bytes [45, 45, 120] ⟨10, 10⟩
    found.starts = [7] ∧ found.empty = found.starts.tail.countP (closesEmptyPart bytes) := by
  have h := scanDelimiters_naive (List.replicate 9 45 ++ [120]) [45, 120] ⟨10, 10⟩ (by decide)
    (by decide)
  exact ⟨by decide, h.2.1⟩

/-- The border of 256 bytes is stored as 0, and the delimiter behind more dashes is missed. -/
theorem scanDelimiters_dashes : ¬ ∀ (bytes front : List ℕ) (limits : DelimiterLimits),
    ¬ (scanDelimiters bytes (45 :: front) limits).overLimits limits →
      Scanned (45 :: front) bytes 0 (scanDelimiters bytes (45 :: front) limits).starts := by
  intro h
  have hscan : scanDelimiters (List.replicate 260 45 ++ [120])
      (45 :: (List.replicate 256 45 ++ [120])) ⟨10, 10⟩ = ⟨[], 0⟩ := by decide +kernel
  have hocc : OccursAt (45 :: (List.replicate 256 45 ++ [120])) (List.replicate 260 45 ++ [120])
      3 := by decide +kernel
  have hscanned := h (List.replicate 260 45 ++ [120]) (List.replicate 256 45 ++ [120]) ⟨10, 10⟩
  rw [hscan] at hscanned
  cases hscanned (by decide) with
  | none hnone => exact hnone 3 (Nat.zero_le _) hocc

end Nifra.Multipart
