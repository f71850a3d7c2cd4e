import Mathlib.Data.Finset.Card
import Mathlib.Order.Defs.LinearOrder
import Nifra.Lib.Runs

/-! # Keyset paging

A walk reads a changing store page by page, each page resuming after the cursor of
the one before. Identifiers are ordered by a key. When every page holds exactly the
matching identifiers between its two cursors, the walk returns no identifier twice,
misses none that matches throughout, and outlasts the identifiers by at most one page.
-/

namespace Nifra.Keyset

variable {I K : Type*} [LinearOrder K] (key : I → K)

/-- The identifier comes after the cursor, as every identifier comes after none. -/
def After (cursor : Option I) (i : I) : Prop := ∀ c ∈ cursor, key c < key i

/-- The identifier does not come after the cursor, where there is one. -/
def UpTo (cursor : Option I) (i : I) : Prop := ∀ c ∈ cursor, key i ≤ key c

/-- A page: what the store held and what matched when it was read, and the answer. -/
structure Page (I : Type*) where
  present : Finset I
  matching : Set I
  returned : List I
  next : Option I

structure Page.Follows (p : Page I) (cursor : Option I) : Prop where
  nodup : p.returned.Nodup
  mem_iff : ∀ i, i ∈ p.returned ↔ i ∈ p.matching ∧ After key cursor i ∧ UpTo key p.next i
  next_mem : ∀ c ∈ p.next, c ∈ p.present ∧ After key cursor c

/-- The pages of a walk so far, with the cursor it resumes from unless it has ended. -/
inductive Walk : List (Page I) → Option (Option I) → Prop
  | start : Walk [] (some none)
  | page {ps : List (Page I)} {cursor : Option I} {p : Page I} (h : Walk ps (some cursor))
      (hp : p.Follows key cursor) : Walk (ps ++ [p]) (p.next.map some)

def returned (ps : List (Page I)) : List I := ps.flatMap (·.returned)

variable {key} {ps : List (Page I)} {resume : Option (Option I)}

@[simp] theorem returned_nil : returned ([] : List (Page I)) = [] := rfl

@[simp] theorem returned_snoc (ps : List (Page I)) (p : Page I) :
    returned (ps ++ [p]) = returned ps ++ p.returned := by
  simp [returned]

@[simp] theorem After.none (i : I) : After key none i := by
  rintro c ⟨⟩

@[simp] theorem after_some {c i : I} : After key (some c) i ↔ key c < key i := by
  simp [After]

theorem not_after_iff {c : Option I} {i : I} : ¬ After key c i ↔ ∃ d ∈ c, key i ≤ key d := by
  simp [After]

theorem not_after_of_after {cursor : Option I} {c i : I} (hc : After key cursor c)
    (hi : ¬ After key cursor i) : ¬ After key (some c) i := by
  obtain ⟨d, hd, hle⟩ := not_after_iff.mp hi
  rw [after_some]
  exact fun h => absurd (lt_trans (hc d hd) h) (not_lt.mpr hle)

theorem Walk.not_after_cursor (h : Walk key ps resume) :
    ∀ c ∈ resume, ∀ i ∈ returned ps, ¬ After key c i := by
  induction h with
  | start => simp
  | @page ps cursor p h hp ih =>
    rintro c hc i hi
    obtain ⟨d, hd, rfl⟩ := Option.map_eq_some_iff.mp hc
    rw [returned_snoc, List.mem_append] at hi
    rcases hi with hi | hi
    · exact not_after_of_after (hp.next_mem d hd).2 (ih cursor rfl i hi)
    · rw [after_some, not_lt]
      exact ((hp.mem_iff i).mp hi).2.2 d hd

theorem Walk.nodup (h : Walk key ps resume) : (returned ps).Nodup := by
  induction h with
  | start => simp
  | @page ps cursor p h hp ih =>
    rw [returned_snoc, List.nodup_append']
    refine ⟨ih, hp.nodup, fun i hi hi' => ?_⟩
    exact h.not_after_cursor cursor rfl i hi ((hp.mem_iff i).mp hi').2.1

theorem Walk.returned_or_after (h : Walk key ps resume) {i : I}
    (hi : ∀ p ∈ ps, i ∈ p.matching) : i ∈ returned ps ∨ ∃ c ∈ resume, After key c i := by
  induction h with
  | start => exact Or.inr ⟨none, rfl, After.none i⟩
  | @page ps cursor p h hp ih =>
    rw [returned_snoc, List.mem_append]
    rcases ih fun q hq => hi q (List.mem_append_left _ hq) with hr | ⟨c, hc, ha⟩
    · exact Or.inl (Or.inl hr)
    · obtain rfl : cursor = c := Option.some.inj hc
      by_cases hu : UpTo key p.next i
      · exact Or.inl (Or.inr ((hp.mem_iff i).mpr ⟨hi p (by simp), ha, hu⟩))
      · simp only [UpTo, not_forall, not_le] at hu
        obtain ⟨d, hd, hlt⟩ := hu
        exact Or.inr ⟨some d, Option.map_eq_some_iff.mpr ⟨d, hd, rfl⟩, after_some.mpr hlt⟩

theorem Walk.matched (h : Walk key ps resume) :
    ∀ i ∈ returned ps, ∃ p ∈ ps, i ∈ p.returned ∧ i ∈ p.matching := by
  induction h with
  | start => simp
  | @page ps cursor p h hp ih =>
    intro i hi
    rw [returned_snoc, List.mem_append] at hi
    rcases hi with hi | hi
    · obtain ⟨q, hq, hm⟩ := ih i hi
      exact ⟨q, List.mem_append_left _ hq, hm⟩
    · exact ⟨p, by simp, hi, ((hp.mem_iff i).mp hi).1⟩

open Classical in
theorem Walk.length_le_behind (h : Walk key ps resume) {all : Finset I}
    (hall : ∀ p ∈ ps, p.present ⊆ all) :
    ∀ c ∈ resume, ps.length ≤ (all.filter fun i => ¬ After key c i).card := by
  induction h with
  | start => simp
  | @page ps cursor p h hp ih =>
    rintro c hc
    obtain ⟨d, hd, rfl⟩ := Option.map_eq_some_iff.mp hc
    obtain ⟨hmem, hafter⟩ := hp.next_mem d hd
    have hd' : d ∈ all := hall p (by simp) hmem
    have hlt : (all.filter fun i => ¬ After key cursor i).card <
        (all.filter fun i => ¬ After key (some d) i).card := by
      refine Finset.card_lt_card (Finset.ssubset_iff_of_subset ?_ |>.mpr ⟨d, ?_, ?_⟩)
      · intro i hi
        obtain ⟨hi, hn⟩ := Finset.mem_filter.mp hi
        exact Finset.mem_filter.mpr ⟨hi, not_after_of_after hafter hn⟩
      · simp [hd']
      · simp [hafter]
    have := ih (fun q hq => hall q (List.mem_append_left _ hq)) cursor rfl
    rw [List.length_append, List.length_singleton]
    omega

theorem Walk.length_le (h : Walk key ps resume) {all : Finset I}
    (hall : ∀ p ∈ ps, p.present ⊆ all) : ps.length ≤ all.card + 1 := by
  classical
  cases h with
  | start => simp
  | @page ps cursor p h hp =>
    have hle := h.length_le_behind (fun q hq => hall q (List.mem_append_left _ hq)) cursor rfl
    have hcard := Finset.card_filter_le all fun i => ¬ After key cursor i
    rw [List.length_append, List.length_singleton]
    omega

section Cut

variable {present : Finset I} {matching : Set I} {cursor : Option I}

/-- Reading a front part of the candidates in key order, a page returns what matches in it
and resumes after its last identifier, unless nothing is left. -/
theorem Page.follows_front (candidates : Set I) (front back : List I) {returned : List I}
    {next : Option I}
    (hsorted : (front ++ back).Pairwise fun i j => key i < key j)
    (hmem : ∀ i, i ∈ front ++ back ↔ i ∈ candidates ∧ After key cursor i)
    (hpresent : ∀ i ∈ front, i ∈ present) (hmatching : matching ⊆ candidates)
    (hreturned : returned.Nodup) (hreturned_iff : ∀ i, i ∈ returned ↔ i ∈ front ∧ i ∈ matching)
    (hnext : next = none ∧ back = [] ∨ ∃ init last, front = init ++ [last] ∧ next = some last) :
    Page.Follows key ⟨present, matching, returned, next⟩ cursor := by
  rcases hnext with ⟨rfl, rfl⟩ | ⟨init, last, rfl, rfl⟩
  · refine ⟨hreturned, fun i => ?_, by rintro c ⟨⟩⟩
    rw [hreturned_iff]
    rw [List.append_nil] at hmem
    constructor
    · rintro ⟨hi, hm⟩
      exact ⟨hm, ((hmem i).mp hi).2, by rintro c ⟨⟩⟩
    · rintro ⟨hm, ha, -⟩
      exact ⟨(hmem i).mpr ⟨hmatching hm, ha⟩, hm⟩
  · have hlast : last ∈ init ++ [last] := by simp
    obtain ⟨hfront, -, hcross⟩ := List.pairwise_append.mp hsorted
    refine ⟨hreturned, fun i => ?_, ?_⟩
    · have hup : UpTo key (some last) i ↔ key i ≤ key last := by simp [UpTo]
      rw [hreturned_iff, hup]
      constructor
      · rintro ⟨hi, hm⟩
        refine ⟨hm, ((hmem i).mp (List.mem_append_left _ hi)).2, ?_⟩
        rcases List.mem_append.mp hi with hi | hi
        · exact ((List.pairwise_append.mp hfront).2.2 i hi last (by simp)).le
        · exact (congrArg key (List.mem_singleton.mp hi)).le
      · rintro ⟨hm, ha, hle⟩
        rcases List.mem_append.mp ((hmem i).mpr ⟨hmatching hm, ha⟩) with hi | hi
        · exact ⟨hi, hm⟩
        · exact absurd (hcross last hlast i hi) (not_lt.mpr hle)
    · rintro c ⟨⟩
      exact ⟨hpresent _ hlast, ((hmem _).mp (List.mem_append_left _ hlast)).2⟩

theorem exists_concat_take {l : List I} {n : ℕ} (hn : 1 ≤ n) (hl : l ≠ []) :
    ∃ init last, l.take n = init ++ [last] ∧ (l.take n).getLast? = some last := by
  have hne : l.take n ≠ [] := by
    intro h
    rcases List.take_eq_nil_iff.mp h with h | h
    · omega
    · exact hl h
  refine ⟨_, _, (List.dropLast_append_getLast hne).symm, ?_⟩
  exact List.getLast?_eq_some_getLast hne

theorem Page.follows_take {l : List I} {limit : ℕ} (hlimit : 1 ≤ limit)
    (hsorted : l.Pairwise fun i j => key i < key j)
    (hmem : ∀ i, i ∈ l ↔ i ∈ matching ∧ After key cursor i) (hpresent : ∀ i ∈ l, i ∈ present) :
    Page.Follows key ⟨present, matching, l.take limit,
      if l.length ≤ limit then none else (l.take limit).getLast?⟩ cursor := by
  have hnodup : l.Nodup := hsorted.imp fun h he => absurd (he ▸ h) (lt_irrefl _)
  have hsplit := List.take_append_drop limit l
  have hin (i : I) (hi : i ∈ l.take limit) : i ∈ l := List.mem_of_mem_take hi
  refine Page.follows_front matching (l.take limit) (l.drop limit)
    (hsplit.symm ▸ hsorted) (hsplit.symm ▸ hmem) (fun i hi => hpresent i (hin i hi)) subset_rfl
    (hnodup.sublist (List.take_sublist _ _))
    (fun i => ⟨fun hi => ⟨hi, ((hmem i).mp (hin i hi)).1⟩, And.left⟩) ?_
  split_ifs with hle
  · exact Or.inl ⟨rfl, List.drop_eq_nil_of_le hle⟩
  · have hl : l ≠ [] := by
      rintro rfl
      simp at hle
    obtain ⟨init, last, h, hlast⟩ := exists_concat_take hlimit hl
    exact Or.inr ⟨init, last, h, hlast⟩

end Cut

section Entries

variable {V : Type*}

def sortByKey (entries : List (K × V)) : List (K × V) :=
  entries.mergeSort fun a b => decide (a.1 ≤ b.1)

theorem sortByKey_perm (entries : List (K × V)) : (sortByKey entries).Perm entries :=
  List.mergeSort_perm _ _

@[simp] theorem mem_sortByKey {entries : List (K × V)} {e : K × V} :
    e ∈ sortByKey entries ↔ e ∈ entries := (sortByKey_perm entries).mem_iff

theorem pairwise_sortByKey {entries : List (K × V)} (h : (entries.map Prod.fst).Nodup) :
    (sortByKey entries).Pairwise fun a b => a.1 < b.1 := by
  have hle : (sortByKey entries).Pairwise fun a b => a.1 ≤ b.1 := by
    refine (List.pairwise_mergeSort ?_ ?_ entries).imp of_decide_eq_true
    · intro a b c hab hbc
      exact decide_eq_true (le_trans (of_decide_eq_true hab) (of_decide_eq_true hbc))
    · intro a b
      simpa using le_total a.1 b.1
  have hne : (sortByKey entries).Pairwise fun a b => a.1 ≠ b.1 :=
    List.pairwise_map.mp (((sortByKey_perm entries).map Prod.fst).nodup_iff.mpr h)
  exact (hle.and hne).imp fun h => lt_of_le_of_ne h.1 h.2

end Entries

/-- A store that changes by operations, never drops an identifier, and answers a scan from
any cursor it holds with a page that follows it. A scan may also throw. -/
structure Store (I K : Type) [LinearOrder K] where
  key : I → K
  State : Type
  Op : Type
  Query : Type
  init : State
  apply : State → Op → State
  present : State → Finset I
  matching : State → Query → Set I
  scan : State → Query → Option I → Option (List I × Option I)
  Inv : State → Prop
  inv_init : Inv init
  inv_apply : ∀ s o, Inv s → Inv (apply s o)
  present_subset : ∀ s o, Inv s → present s ⊆ present (apply s o)
  scan_follows : ∀ s q c, Inv s → (∀ i ∈ c, i ∈ present s) → ∃ answer,
    scan s q c = some answer ∧
      Page.Follows key ⟨present s, matching s q, answer.1, answer.2⟩ c

namespace Store

variable {I K : Type} [LinearOrder K] (S : Store I K)

def page (s : S.State) (q : S.Query) (c : Option I) : Option (Page I) :=
  (S.scan s q c).map fun answer => ⟨S.present s, S.matching s q, answer.1, answer.2⟩

inductive Event
  | change (op : S.Op)
  | scan (query : S.Query)

/-- The store, the cursor the walk resumes from unless it has ended, and its pages. -/
structure Walking where
  state : S.State
  resume : Option (Option I)
  pages : List (Page I)

def start : S.Walking := ⟨S.init, some none, []⟩

def step (w : S.Walking) : S.Event → Option S.Walking
  | .change op => some { w with state := S.apply w.state op }
  | .scan query => w.resume.bind fun cursor => (S.page w.state query cursor).map fun p =>
      { w with resume := p.next.map some, pages := w.pages ++ [p] }

/-- What every walk keeps: its pages follow one another, and the store still holds what they
found, the cursor included. -/
structure Walking.Valid (w : S.Walking) : Prop where
  inv : S.Inv w.state
  walk : Walk S.key w.pages w.resume
  present : ∀ p ∈ w.pages, p.present ⊆ S.present w.state
  cursor : ∀ c ∈ w.resume, ∀ i ∈ c, i ∈ S.present w.state

variable {S}

theorem Walking.Valid.page_follows {w : S.Walking} {c : Option I} (h : w.Valid)
    (hc : w.resume = some c) (query : S.Query) :
    ∃ p, S.page w.state query c = some p ∧ p.present = S.present w.state ∧
      p.Follows S.key c := by
  obtain ⟨answer, ha, hf⟩ := S.scan_follows w.state query c h.inv (h.cursor c hc)
  exact ⟨_, by rw [page, ha]; rfl, rfl, hf⟩

theorem Walking.Valid.step {w w' : S.Walking} {e : S.Event} (h : w.Valid)
    (hs : S.step w e = some w') : w'.Valid := by
  cases e with
  | change op =>
    obtain rfl := Option.some.inj hs
    have hsub := S.present_subset w.state op h.inv
    exact ⟨S.inv_apply _ op h.inv, h.walk, fun p hp => (h.present p hp).trans hsub,
      fun c hc i hi => hsub (h.cursor c hc i hi)⟩
  | scan query =>
    obtain ⟨c, hc, hp⟩ := Option.bind_eq_some_iff.mp hs
    obtain ⟨p, hpage, hpres, hf⟩ := h.page_follows hc query
    rw [hpage] at hp
    obtain rfl := Option.some.inj hp
    refine ⟨h.inv, .page (hc ▸ h.walk) hf, fun q hq => ?_, fun d hd i hi => ?_⟩
    · rcases List.mem_append.mp hq with hq | hq
      · exact h.present q hq
      · rw [List.mem_singleton.mp hq, hpres]
    · obtain ⟨j, hj, rfl⟩ := Option.map_eq_some_iff.mp hd
      obtain rfl := Option.some.inj hi
      exact hpres ▸ (hf.next_mem j hj).1

theorem valid_of_reachable {w : S.Walking} (h : Runs.Reachable S.step S.start w) : w.Valid :=
  h.invariant ⟨S.inv_init, .start, by simp [start], by simp [start]⟩
    fun _ _ _ hv hs => hv.step hs

theorem Walking.Valid.exists_step {w : S.Walking} {c : Option I} (h : w.Valid)
    (hc : w.resume = some c) (query : S.Query) :
    ∃ w', S.step w (.scan query) = some w' ∧ w'.state = w.state ∧
      w'.pages.length = w.pages.length + 1 := by
  obtain ⟨p, hp, -, -⟩ := h.page_follows hc query
  refine ⟨{ w with resume := p.next.map some, pages := w.pages ++ [p] }, ?_, rfl, by simp⟩
  simp [Store.step, hc, hp]

theorem exists_run_ended {w : S.Walking} (h : w.Valid) (query : S.Query) :
    ∃ n ≤ (S.present w.state).card + 1, ∃ w',
      Runs.run S.step w (List.replicate n (.scan query)) = some w' ∧ w'.resume = none := by
  suffices hn : ∀ n, (S.present w.state).card + 1 - w.pages.length ≤ n →
      ∃ m ≤ n, ∃ w', Runs.run S.step w (List.replicate m (.scan query)) = some w' ∧
        w'.resume = none by
    obtain ⟨m, hm, hw⟩ := hn _ (Nat.sub_le _ _)
    exact ⟨m, hm, hw⟩
  intro n
  induction n generalizing w with
  | zero =>
    intro hle
    rcases hr : w.resume with _ | c
    · exact ⟨0, le_rfl, w, rfl, hr⟩
    · obtain ⟨w', hw', hstate, hlen⟩ := h.exists_step hr query
      have hb := (h.step hw').walk.length_le (h.step hw').present
      rw [hstate] at hb
      omega
  | succ n ih =>
    intro hle
    rcases hr : w.resume with _ | c
    · exact ⟨0, by omega, w, rfl, hr⟩
    · obtain ⟨w', hw', hstate, hlen⟩ := h.exists_step hr query
      obtain ⟨m, hm, w'', hrun, hend⟩ := ih (h.step hw') (by rw [hstate, hlen]; omega)
      refine ⟨m + 1, by omega, w'', ?_, hend⟩
      rw [List.replicate_succ]
      exact Runs.run_cons_iff.mpr ⟨w', hw', hrun⟩

variable (S)

/-- What a caller may rely on when it reads the store page by page, whatever changes in
between: nothing is returned twice, what matches throughout is returned, what is returned
matched, and the walk ends. -/
structure ExactlyOnce : Prop where
  nodup : ∀ w, Runs.Reachable S.step S.start w → (returned w.pages).Nodup
  complete : ∀ w, Runs.Reachable S.step S.start w → w.resume = none →
    ∀ i, (∀ p ∈ w.pages, i ∈ p.matching) → i ∈ returned w.pages
  matched : ∀ w, Runs.Reachable S.step S.start w →
    ∀ i ∈ returned w.pages, ∃ p ∈ w.pages, i ∈ p.returned ∧ i ∈ p.matching
  bounded : ∀ w, Runs.Reachable S.step S.start w →
    w.pages.length ≤ (S.present w.state).card + 1
  ends : ∀ w, Runs.Reachable S.step S.start w → ∀ query,
    ∃ n ≤ (S.present w.state).card + 1, ∃ w',
      Runs.run S.step w (List.replicate n (.scan query)) = some w' ∧ w'.resume = none

theorem exactlyOnce : S.ExactlyOnce where
  nodup _ h := (valid_of_reachable h).walk.nodup
  complete w h hend i hi := by
    rcases (valid_of_reachable h).walk.returned_or_after hi with hr | ⟨c, hc, -⟩
    · exact hr
    · rw [hend] at hc
      cases hc
  matched _ h := (valid_of_reachable h).walk.matched
  bounded _ h := (valid_of_reachable h).walk.length_le (valid_of_reachable h).present
  ends _ h := exists_run_ended (valid_of_reachable h)

end Store

end Nifra.Keyset
