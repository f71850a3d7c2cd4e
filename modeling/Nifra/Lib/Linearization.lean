import Mathlib.Data.List.Nodup
import Mathlib.Data.Nat.Notation

/-! # Linearization

Calls on a shared object take time between their invocation and their answer. An order
of the answered calls that keeps every call behind those answered before its invocation
is a linearization, and a sequential object run in that order gives each call an answer.
-/

namespace Nifra.Linearization

variable {Op Answer σ : Type*}

/-- A call: when it was invoked and, once it is answered, with what and when. -/
structure Call (Op Answer : Type*) where
  op : Op
  invokedAt : ℕ
  answered : Option (Answer × ℕ) := none
  deriving DecidableEq

def Precedes (calls : List (Call Op Answer)) (i j : ℕ) : Prop :=
  ∃ c d a, calls[i]? = some c ∧ calls[j]? = some d ∧ c.answered = some a ∧ a.2 < d.invokedAt

/-- An order of the answered calls that respects which of them were over before others began. -/
structure IsLinearization (calls : List (Call Op Answer)) (order : List ℕ) : Prop where
  nodup : order.Nodup
  mem_iff : ∀ i, i ∈ order ↔ ∃ c, calls[i]? = some c ∧ c.answered.isSome
  respects : order.Pairwise fun i j => ¬ Precedes calls j i

def perform (step : σ → Op → Answer × σ) (calls : List (Call Op Answer)) (s : σ)
    (order : List ℕ) : σ :=
  order.foldl (fun s i => match calls[i]? with
    | none => s
    | some c => (step s c.op).2) s

/-- The sequential object gives the call this answer in some linearization. -/
def CouldAnswer (step : σ → Op → Answer × σ) (init : σ) (calls : List (Call Op Answer)) (i : ℕ)
    (answer : Answer) : Prop :=
  ∃ before after, IsLinearization calls (before ++ i :: after) ∧
    ∃ c, calls[i]? = some c ∧ (step (perform step calls init before) c.op).1 = answer

/-- A schedule gives every answered call a moment between its invocation and its answer. -/
structure Schedules (calls : List (Call Op Answer)) (schedule : List (ℕ × ℕ)) : Prop where
  sorted : schedule.Pairwise fun a b => a.1 ≤ b.1
  nodup : (schedule.map Prod.snd).Nodup
  mem_iff : ∀ i, i ∈ schedule.map Prod.snd ↔ ∃ c, calls[i]? = some c ∧ c.answered.isSome
  within : ∀ e ∈ schedule, ∀ c, calls[e.2]? = some c →
    c.invokedAt ≤ e.1 ∧ ∀ a ∈ c.answered, e.1 ≤ a.2

variable {calls : List (Call Op Answer)} {schedule before after : List (ℕ × ℕ)}

theorem Schedules.isLinearization (h : Schedules calls schedule) :
    IsLinearization calls (schedule.map Prod.snd) := by
  refine ⟨h.nodup, h.mem_iff, List.pairwise_map.mpr (h.sorted.imp_of_mem ?_)⟩
  rintro a b ha hb hle ⟨c, d, e, hc, hd, he, hlt⟩
  have h₁ := (h.within b hb c hc).2 e he
  have h₂ := (h.within a ha d hd).1
  omega

theorem Schedules.nil : Schedules ([] : List (Call Op Answer)) [] :=
  ⟨.nil, .nil, by simp, by simp⟩

theorem Schedules.invoke (h : Schedules calls schedule) (op : Op) (now : ℕ) :
    Schedules (calls ++ [⟨op, now, none⟩]) schedule := by
  have hold (i : ℕ) (hi : i ∈ schedule.map Prod.snd) :
      (calls ++ [⟨op, now, none⟩])[i]? = calls[i]? := by
    obtain ⟨c, hc, -⟩ := (h.mem_iff i).mp hi
    exact List.getElem?_append_left (List.getElem?_eq_some_iff.mp hc).1
  refine ⟨h.sorted, h.nodup, fun i => ?_, fun e he c hc => ?_⟩
  · constructor
    · intro hi
      rw [hold i hi]
      exact (h.mem_iff i).mp hi
    · rintro ⟨c, hc, ha⟩
      rw [List.getElem?_append] at hc
      split_ifs at hc with hlt
      · exact (h.mem_iff i).mpr ⟨c, hc, ha⟩
      · rw [List.getElem?_singleton] at hc
        split_ifs at hc
        obtain rfl := Option.some.inj hc
        cases ha
  · rw [hold e.2 (List.mem_map_of_mem he)] at hc
    exact h.within e he c hc

def answer (calls : List (Call Op Answer)) (i : ℕ) (a : Answer) (now : ℕ) :
    List (Call Op Answer) :=
  calls.modify i fun c => { c with answered := some (a, now) }

theorem getElem?_answer (calls : List (Call Op Answer)) (i j : ℕ) (a : Answer) (now : ℕ) :
    (answer calls i a now)[j]? =
      (calls[j]?).map fun c => if i = j then { c with answered := some (a, now) } else c := by
  rw [answer, List.getElem?_modify]
  rfl

theorem Schedules.answer (h : Schedules calls (before ++ after)) {i : ℕ} {c : Call Op Answer}
    (hc : calls[i]? = some c) (hopen : c.answered = none) (a : Answer) {moment now : ℕ}
    (hinvoked : c.invokedAt ≤ moment) (hnow : moment ≤ now)
    (hbefore : ∀ e ∈ before, e.1 ≤ moment) (hafter : ∀ e ∈ after, moment ≤ e.1) :
    Schedules (answer calls i a now) (before ++ (moment, i) :: after) := by
  have hnew : i ∉ (before ++ after).map Prod.snd := by
    rw [h.mem_iff]
    rintro ⟨d, hd, hs⟩
    obtain rfl := Option.some.inj (hc.symm.trans hd)
    simp [hopen] at hs
  have hperm : List.Perm (before ++ (moment, i) :: after) ((moment, i) :: (before ++ after)) :=
    List.perm_middle
  refine ⟨?_, ?_, fun j => ?_, fun e he d hd => ?_⟩
  · rw [List.pairwise_append, List.pairwise_cons]
    obtain ⟨hb, ha, hcross⟩ := List.pairwise_append.mp h.sorted
    refine ⟨hb, ⟨hafter, ha⟩, fun x hx y hy => ?_⟩
    rcases List.mem_cons.mp hy with rfl | hy
    · exact hbefore x hx
    · exact hcross x hx y hy
  · rw [(hperm.map Prod.snd).nodup_iff, List.map_cons, List.nodup_cons]
    exact ⟨hnew, h.nodup⟩
  · rw [(hperm.map Prod.snd).mem_iff, List.map_cons, List.mem_cons, h.mem_iff, getElem?_answer]
    by_cases hij : i = j
    · subst hij
      simp [hc]
    · simp [hij, Ne.symm hij]
  · rw [getElem?_answer, Option.map_eq_some_iff] at hd
    obtain ⟨d', hd', rfl⟩ := hd
    rcases List.mem_cons.mp (hperm.mem_iff.mp he) with rfl | hold
    · obtain rfl := Option.some.inj (hc.symm.trans hd')
      simp [hinvoked, hnow]
    · have hne : i ≠ e.2 := by
        rintro rfl
        exact hnew (List.mem_map_of_mem hold)
      rw [if_neg hne]
      exact h.within e hold d' hd'

variable {step : σ → Op → Answer × σ} {s : σ}

theorem perform_append (l l' : List ℕ) :
    perform step calls s (l ++ l') = perform step calls (perform step calls s l) l' :=
  List.foldl_append

theorem perform_congr {calls' : List (Call Op Answer)} {order : List ℕ}
    (h : ∀ i ∈ order, (calls'[i]?).map (·.op) = (calls[i]?).map (·.op)) :
    perform step calls' s order = perform step calls s order := by
  induction order generalizing s with
  | nil => rfl
  | cons i order ih =>
    obtain ⟨hi, ho⟩ := List.forall_mem_cons.mp h
    simp only [perform, List.foldl_cons]
    have he : (match calls'[i]? with | none => s | some c => (step s c.op).2) =
        (match calls[i]? with | none => s | some c => (step s c.op).2) := by
      cases hc : calls[i]? <;> cases hc' : calls'[i]? <;> simp_all
    rw [he]
    exact ih ho

theorem perform_singleton {i : ℕ} {c : Call Op Answer} (hc : calls[i]? = some c) :
    perform step calls s [i] = (step s c.op).2 := by
  simp [perform, hc]

theorem perform_fixed {order : List ℕ} (h : ∀ i ∈ order, ∀ c, calls[i]? = some c →
    (step s c.op).2 = s) : perform step calls s order = s := by
  induction order with
  | nil => rfl
  | cons i order ih =>
    obtain ⟨hi, ho⟩ := List.forall_mem_cons.mp h
    have hfirst : perform step calls s [i] = s := by
      cases hc : calls[i]? with
      | none => simp [perform, hc]
      | some c => rw [perform_singleton hc, hi c hc]
    rw [← List.singleton_append, perform_append, hfirst]
    exact ih ho

end Nifra.Linearization
