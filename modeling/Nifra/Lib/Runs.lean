import Mathlib.Data.List.Basic
import Mathlib.Data.List.Range
import Mathlib.Data.Nat.Notation
import Mathlib.Tactic.SplitIfs

/-! # Runs of a machine

A machine answers an event with its next state, or refuses it. A run is a list
of accepted events, and a property that every accepted event preserves holds in
every state that a run reaches. A machine of many parties keeps them in a list.
-/

namespace Nifra.Runs

variable {σ ε : Type*}

/-- The state after a list of events, when each of them is accepted in turn. -/
def run (step : σ → ε → Option σ) : σ → List ε → Option σ
  | s, [] => some s
  | s, e :: es => (step s e).bind fun t => run step t es

def Reachable (step : σ → ε → Option σ) (init s : σ) : Prop :=
  ∃ es, run step init es = some s

variable {step : σ → ε → Option σ} {init s t : σ}

@[simp] theorem run_nil : run step s [] = some s := rfl

theorem run_cons_iff {e : ε} {es : List ε} :
    run step s (e :: es) = some t ↔ ∃ u, step s e = some u ∧ run step u es = some t := by
  simp [run, Option.bind_eq_some_iff]

theorem run_append_iff {es fs : List ε} :
    run step s (es ++ fs) = some t ↔ ∃ u, run step s es = some u ∧ run step u fs = some t := by
  induction es generalizing s with
  | nil => simp
  | cons e es ih =>
    simp only [List.cons_append, run_cons_iff, ih]
    constructor
    · rintro ⟨u, hu, v, hv, ht⟩; exact ⟨v, ⟨u, hu, hv⟩, ht⟩
    · rintro ⟨v, ⟨u, hu, hv⟩, ht⟩; exact ⟨u, hu, v, hv, ht⟩

theorem run_invariant {I : σ → Prop}
    (hstep : ∀ s e t, I s → step s e = some t → I t) {es : List ε}
    (h : run step s es = some t) (hs : I s) : I t := by
  induction es generalizing s with
  | nil => exact Option.some.inj h ▸ hs
  | cons e es ih =>
    obtain ⟨u, hu, ht⟩ := run_cons_iff.mp h
    exact ih ht (hstep s e u hs hu)

/-- Every event of a run meets a condition on the state that it is accepted in. -/
def Along (step : σ → ε → Option σ) (P : σ → ε → Prop) : σ → List ε → Prop
  | _, [] => True
  | s, e :: es => P s e ∧ match step s e with
    | none => True
    | some t => Along step P t es

instance Along.decidable (step : σ → ε → Option σ) (P : σ → ε → Prop)
    [∀ s e, Decidable (P s e)] : ∀ s es, Decidable (Along step P s es)
  | _, [] => inferInstanceAs (Decidable True)
  | s, e :: es =>
    have : Decidable (match step s e with
        | none => True
        | some t => Along step P t es) :=
      match step s e with
      | none => inferInstanceAs (Decidable True)
      | some t => Along.decidable step P t es
    inferInstanceAs (Decidable (_ ∧ _))

theorem Along.and {P Q : σ → ε → Prop} {es : List ε} (hP : Along step P s es)
    (hQ : Along step Q s es) : Along step (fun s e => P s e ∧ Q s e) s es := by
  induction es generalizing s with
  | nil => trivial
  | cons e es ih =>
    obtain ⟨hPe, hP⟩ := hP
    obtain ⟨hQe, hQ⟩ := hQ
    refine ⟨⟨hPe, hQe⟩, ?_⟩
    split
    · trivial
    · next t ht =>
      rw [ht] at hP hQ
      exact ih hP hQ

theorem along_of_forall {P : σ → ε → Prop} {es : List ε} (h : ∀ e ∈ es, ∀ s, P s e) (s : σ) :
    Along step P s es := by
  induction es generalizing s with
  | nil => trivial
  | cons e es ih =>
    refine ⟨h e List.mem_cons_self s, ?_⟩
    split
    · trivial
    · exact ih (fun e he => h e (List.mem_cons_of_mem _ he)) _

theorem Along.at {P : σ → ε → Prop} {es fs : List ε} {e : ε}
    (h : Along step P s (es ++ e :: fs)) (hrun : run step s es = some t) : P t e := by
  induction es generalizing s with
  | nil =>
    obtain rfl := Option.some.inj hrun
    exact h.1
  | cons first es ih =>
    obtain ⟨u, hu, hrun⟩ := run_cons_iff.mp hrun
    obtain ⟨-, hrest⟩ := h
    rw [hu] at hrest
    exact ih hrest hrun

/-- Two conditions that agree wherever an invariant holds are met along the same runs, when the events
that meet them preserve the invariant. -/
theorem along_congr {I : σ → Prop} {P Q : σ → ε → Prop}
    (hstep : ∀ s e t, I s → P s e → step s e = some t → I t) (hiff : ∀ s e, I s → (P s e ↔ Q s e))
    (hs : I s) (es : List ε) : Along step P s es ↔ Along step Q s es := by
  induction es generalizing s with
  | nil => exact Iff.rfl
  | cons e es ih =>
    simp only [Along]
    cases ht : step s e with
    | none => exact and_congr_left fun _ => hiff s e hs
    | some t =>
      rw [hiff s e hs]
      exact and_congr_right fun hQ => ih (hstep s e t hs ((hiff s e hs).mpr hQ) ht)

theorem run_invariant_along {I : σ → Prop} {P : σ → ε → Prop}
    (hstep : ∀ s e t, I s → P s e → step s e = some t → I t) {es : List ε}
    (h : run step s es = some t) (hP : Along step P s es) (hs : I s) : I t := by
  induction es generalizing s with
  | nil => exact Option.some.inj h ▸ hs
  | cons e es ih =>
    obtain ⟨u, hu, ht⟩ := run_cons_iff.mp h
    obtain ⟨hPe, hrest⟩ := hP
    rw [hu] at hrest
    exact ih ht hrest (hstep s e u hs hPe hu)

/-- Where an event that fails a condition leads out of a property, and no other event does, the runs
that keep the property in every state they reach are the runs along the condition. -/
theorem forall_reached_iff_along {I J : σ → Prop} {P : σ → ε → Prop}
    (hstep : ∀ s e t, I s → step s e = some t → I t)
    (hkeeps : ∀ s e t, I s → J s → P s e → step s e = some t → J t)
    (hleaves : ∀ s e, I s → ¬ P s e → ∃ t, step s e = some t ∧ ¬ J t) (hI : I s) (hJ : J s)
    (es : List ε) :
    (∀ front, front <+: es → ∀ t, run step s front = some t → J t) ↔ Along step P s es := by
  induction es generalizing s with
  | nil =>
    refine iff_of_true ?_ trivial
    rintro front hfront t ht
    rw [List.prefix_nil.mp hfront] at ht
    exact Option.some.inj ht ▸ hJ
  | cons e es ih =>
    constructor
    · intro hreached
      have hP : P s e := by
        by_contra hP
        obtain ⟨t, ht, hout⟩ := hleaves s e hI hP
        exact hout (hreached [e] (by simp) t (run_cons_iff.mpr ⟨t, ht, rfl⟩))
      refine ⟨hP, ?_⟩
      cases ht : step s e with
      | none => trivial
      | some t =>
        refine (ih (hstep s e t hI ht) (hkeeps s e t hI hJ hP ht)).mp fun front hfront u hu => ?_
        exact hreached (e :: front) (List.cons_prefix_cons.mpr ⟨rfl, hfront⟩) u
          (run_cons_iff.mpr ⟨t, ht, hu⟩)
    · rintro ⟨hP, hrest⟩ front hfront u hu
      cases front with
      | nil => exact Option.some.inj hu ▸ hJ
      | cons first front =>
        obtain ⟨rfl, hes⟩ := List.cons_prefix_cons.mp hfront
        obtain ⟨t, ht, hu⟩ := run_cons_iff.mp hu
        rw [ht] at hrest
        exact (ih (hstep s first t hI ht) (hkeeps s first t hI hJ hP ht)).mpr hrest front hes u hu

theorem Reachable.invariant {I : σ → Prop} (hinit : I init)
    (hstep : ∀ s e t, I s → step s e = some t → I t)
    (h : Reachable step init s) : I s := by
  obtain ⟨es, hes⟩ := h
  exact run_invariant hstep hes hinit

theorem Reachable.refl : Reachable step s s := ⟨[], rfl⟩

theorem Reachable.of_run {es : List ε} (h : (run step init es).isSome) :
    Reachable step init ((run step init es).get h) :=
  ⟨es, (Option.some_get h).symm⟩

theorem getElem?_set_cases {parties : List σ} {i j : ℕ}
    (h : (parties.set i s)[j]? = some t) : j = i ∧ t = s ∨ j ≠ i ∧ parties[j]? = some t := by
  rw [List.getElem?_set] at h
  split_ifs at h with hj
  · exact Or.inl ⟨hj.symm, (Option.some.inj h).symm⟩
  · exact Or.inr ⟨Ne.symm hj, h⟩

theorem getElem?_modify_cases {parties : List σ} {f : σ → σ} {i j : ℕ}
    (h : (parties.modify i f)[j]? = some t) :
    j = i ∧ (∃ s, parties[i]? = some s ∧ t = f s) ∨ j ≠ i ∧ parties[j]? = some t := by
  rw [List.getElem?_modify] at h
  obtain ⟨s, hs, ht⟩ := Option.map_eq_some_iff.mp h
  split_ifs at ht with hj
  · subst hj
    exact Or.inl ⟨rfl, s, hs, ht.symm⟩
  · exact Or.inr ⟨Ne.symm hj, ht ▸ hs⟩

theorem forall_mem_modify {P : σ → Prop} {parties : List σ} {f : σ → σ} {i : ℕ}
    (h : ∀ s ∈ parties, P s) (hf : ∀ s, parties[i]? = some s → P (f s)) :
    ∀ s ∈ parties.modify i f, P s := by
  intro t ht
  obtain ⟨j, hj⟩ := List.mem_iff_getElem?.mp ht
  rcases getElem?_modify_cases hj with ⟨rfl, s, hs, rfl⟩ | ⟨-, hs⟩
  · exact hf s hs
  · exact h t (List.mem_of_getElem? hs)

theorem countP_modify {parties : List σ} {i : ℕ} (h : parties[i]? = some s) (f : σ → σ)
    (p : σ → Bool) : (parties.modify i f).countP p + (p s).toNat = parties.countP p + (p (f s)).toNat := by
  induction parties generalizing i with
  | nil => cases h
  | cons first parties ih =>
    cases i with
    | zero =>
      obtain rfl := Option.some.inj h
      simp only [List.modify_zero_cons, List.countP_cons]
      cases p first <;> cases p (f first) <;> simp
    | succ i =>
      have ih := ih h
      simp only [List.modify_succ_cons, List.countP_cons]
      omega

theorem countP_modify_same {parties : List σ} {i : ℕ} {f : σ → σ} {p : σ → Bool}
    (hp : ∀ s, p (f s) = p s) : (parties.modify i f).countP p = parties.countP p := by
  induction parties generalizing i with
  | nil => simp
  | cons first parties ih => cases i <;> simp [List.countP_cons, hp, ih]

end Nifra.Runs

/-! ## Replaying changes

A list of changes is applied in turn, and a change that does not apply is skipped. What is not
skipped applies in turn without a skip, and ends in the same state.
-/

namespace Nifra.Replay

variable {σ ι : Type*} (f : σ → ι → Option σ)

/-- The state after the changes that apply, and the changes that are skipped. -/
def replay : σ → List ι → σ × List ι
  | s, [] => (s, [])
  | s, i :: is =>
    match f s i with
    | some t => replay t is
    | none => ((replay s is).1, i :: (replay s is).2)

variable {f} {s t : σ} {i : ι} {is js : List ι}

theorem replay_cons_some (h : f s i = some t) :
    replay f s (i :: is) = replay f t is := by
  simp only [replay, h]

theorem replay_cons_none (h : f s i = none) :
    replay f s (i :: is) = ((replay f s is).1, i :: (replay f s is).2) := by
  simp only [replay, h]

theorem skipped_sublist : (replay f s is).2.Sublist is := by
  induction is generalizing s with
  | nil => exact List.nil_sublist _
  | cons i is ih =>
    cases h : f s i with
    | some t =>
      rw [replay_cons_some h]
      exact ih.cons i
    | none =>
      rw [replay_cons_none h]
      exact ih.cons_cons i

theorem replay_of_foldlM (h : is.foldlM f s = some t) : replay f s is = (t, []) := by
  induction is generalizing s with
  | nil =>
    obtain rfl := Option.some.inj h
    rfl
  | cons i is ih =>
    rw [List.foldlM_cons] at h
    obtain ⟨u, hu, hrest⟩ := Option.bind_eq_some_iff.mp h
    rw [replay_cons_some hu]
    exact ih hrest

theorem foldlM_kept [BEq ι] [LawfulBEq ι] (hnodup : is.Nodup) :
    (is.filter fun i => i ∉ (replay f s is).2).foldlM f s =
      some (replay f s is).1 := by
  induction is generalizing s with
  | nil => rfl
  | cons i is ih =>
    obtain ⟨hi, hnodup⟩ := List.nodup_cons.mp hnodup
    cases h : f s i with
    | some t =>
      have hkept : i ∉ (replay f t is).2 := fun hmem => hi (skipped_sublist.subset hmem)
      rw [replay_cons_some h, List.filter_cons_of_pos (by simpa using hkept), List.foldlM_cons, h]
      exact ih hnodup
    | none =>
      rw [replay_cons_none h, List.filter_cons_of_neg (by simp)]
      have hsame : (is.filter fun j => j ∉ i :: (replay f s is).2) =
          is.filter fun j => j ∉ (replay f s is).2 := by
        refine List.filter_congr fun j hj => ?_
        have hne : j ≠ i := fun heq => hi (heq ▸ hj)
        simp [hne]
      rw [hsame]
      exact ih hnodup

theorem replay_congr {g : σ → ι → Option σ} (h : ∀ i ∈ is, ∀ s, f s i = g s i) :
    replay f s is = replay g s is := by
  induction is generalizing s with
  | nil => rfl
  | cons i is ih =>
    have hi := h i List.mem_cons_self s
    have hrest (t : σ) := ih (s := t) fun j hj => h j (List.mem_cons_of_mem _ hj)
    cases hj : f s i with
    | some t => rw [replay_cons_some hj, replay_cons_some (hi ▸ hj), hrest]
    | none => rw [replay_cons_none hj, replay_cons_none (hi ▸ hj), hrest]

theorem foldlM_mono {g : σ → ι → Option σ}
    (h : ∀ i ∈ is, ∀ s t, f s i = some t → g s i = some t)
    (hs : is.foldlM f s = some t) : is.foldlM g s = some t := by
  induction is generalizing s with
  | nil => exact hs
  | cons i is ih =>
    rw [List.foldlM_cons] at hs ⊢
    obtain ⟨u, hu, hrest⟩ := Option.bind_eq_some_iff.mp hs
    rw [h i List.mem_cons_self s u hu]
    exact ih (fun j hj => h j (List.mem_cons_of_mem _ hj)) hrest

end Nifra.Replay

/-! ## Calls of an asynchronous iterator

Each call of `next` waits, gets an item, or is told the end. The calls of an iterator that hands out
its items in the order of the calls are those that got items, then the others.
-/

namespace Nifra.NextCalls

variable {α : Type*}

/-- What calls have come to: as many as there are items got one, and `n` more wait or are told the
end. -/
def results (items : List α) (n : ℕ) (isDone : Bool) : List (Option (Option α)) :=
  items.map (fun item => some (some item)) ++ List.replicate n (if isDone then some none else none)

def finish (calls : List (Option (Option α))) (waiters : List ℕ) : List (Option (Option α)) :=
  waiters.foldl (fun calls call => calls.set call (some none)) calls

@[simp] theorem results_nil : results ([] : List α) 0 false = [] := rfl

theorem length_results (items : List α) (n : ℕ) (isDone : Bool) :
    (results items n isDone).length = items.length + n := by
  rw [results, List.length_append, List.length_map, List.length_replicate]

theorem set_results (items : List α) (n : ℕ) (item : α) :
    (results items (n + 1) false).set items.length (some (some item)) =
      results (items ++ [item]) n false := by
  rw [results, results, List.set_append_right _ _ (by simp), List.length_map, Nat.sub_self,
    List.replicate_succ, List.set_cons_zero, List.map_append, List.append_assoc]
  rfl

theorem results_append_item (items : List α) (isDone : Bool) (item : α) :
    results items 0 isDone ++ [some (some item)] = results (items ++ [item]) 0 isDone := by
  rw [results, results, List.replicate_zero, List.append_nil, List.map_append, List.append_nil]
  rfl

theorem results_append_rest (items : List α) (n : ℕ) (isDone : Bool) :
    results items n isDone ++ [if isDone then some none else none] =
      results items (n + 1) isDone := by
  rw [results, results, List.replicate_succ', List.append_assoc]

theorem finish_results (items : List α) (n : ℕ) :
    finish (results items n false) (List.range' items.length n) = results items n true := by
  have hgeneral : ∀ (front : List (Option (Option α))) (n : ℕ),
      finish (front ++ List.replicate n none) (List.range' front.length n) =
        front ++ List.replicate n (some none) := by
    intro front n
    induction n generalizing front with
    | zero => rfl
    | succ n ih =>
      have hstep := ih (front ++ [some none])
      rw [List.length_append, List.length_singleton, List.append_assoc, List.append_assoc,
        List.singleton_append, List.singleton_append] at hstep
      rw [List.range'_succ, List.replicate_succ, List.replicate_succ, finish, List.foldl_cons,
        List.set_append_right _ _ (Nat.le_refl _), Nat.sub_self, List.set_cons_zero]
      exact hstep
  have hresults := hgeneral (items.map fun item => some (some item)) n
  rwa [List.length_map] at hresults

end Nifra.NextCalls
