import Mathlib.Data.List.Basic

/-! # Conditions on states

A computation with a state that may throw. A precondition and a postcondition on states are kept
by it when every run that returns leads from the one to the other; a run that throws leaves no
state behind.
-/

namespace Nifra

variable {σ ε α β : Type}

theorem except_bind_eq_ok_iff {x : Except ε α} {f : α → Except ε β} {b : β} :
    (x >>= f) = .ok b ↔ ∃ a, x = .ok a ∧ f a = .ok b := by
  cases x with
  | error error =>
    constructor
    · rintro ⟨⟩
    · rintro ⟨a, ⟨⟩, -⟩
  | ok a =>
    constructor
    · exact fun h => ⟨a, rfl, h⟩
    · rintro ⟨_, ⟨⟩, h⟩
      exact h

section Bind

variable {x : StateT σ (Except ε) α} {f : α → StateT σ (Except ε) β} {s s' : σ} {b : β} {e : ε}

theorem bind_eq_ok_iff : (x >>= f) s = .ok (b, s') ↔
    ∃ a t, x s = .ok (a, t) ∧ f a t = .ok (b, s') := by
  change ((x s).bind fun r => f r.1 r.2) = _ ↔ _
  cases x s with
  | error thrown => simp [Except.bind]
  | ok r =>
    obtain ⟨a, t⟩ := r
    simp [Except.bind]

theorem bind_eq_error_iff : (x >>= f) s = .error e ↔
    x s = .error e ∨ ∃ a t, x s = .ok (a, t) ∧ f a t = .error e := by
  change ((x s).bind fun r => f r.1 r.2) = _ ↔ _
  cases x s with
  | error thrown => simp [Except.bind]
  | ok r =>
    obtain ⟨a, t⟩ := r
    simp [Except.bind]

end Bind

/-- Every run from the precondition that returns ends in the postcondition. -/
structure Keeps (P : σ → Prop) (x : StateT σ (Except ε) α) (Q : σ → Prop) : Prop where
  post : ∀ s a s', P s → x s = .ok (a, s') → Q s'

namespace Keeps

variable {P Q R : σ → Prop} {x y : StateT σ (Except ε) α} {f : α → StateT σ (Except ε) β} {e : ε}

theorem pure (a : α) : Keeps P (Pure.pure a : StateT σ (Except ε) α) P := by
  constructor
  rintro s b s' hP ⟨⟩
  exact hP

theorem bind (hx : Keeps P x R) (hf : ∀ a, Keeps R (f a) Q) : Keeps P (x >>= f) Q := by
  constructor
  intro s b s' hP h
  obtain ⟨a, t, ha, hb⟩ := bind_eq_ok_iff.mp h
  exact (hf a).post t b s' (hx.post s a t hP ha) hb

theorem throw : Keeps P (MonadExcept.throw e : StateT σ (Except ε) α) Q := by
  constructor
  rintro s a s' - ⟨⟩

theorem modify {g : σ → σ} (h : ∀ s, P s → Q (g s)) :
    Keeps P (MonadState.modifyGet fun s => (PUnit.unit, g s) : StateT σ (Except ε) PUnit) Q := by
  constructor
  rintro s a s' hP ⟨⟩
  exact h s hP

theorem forM {P : ℕ → σ → Prop} {items : List β} {body : β → StateT σ (Except ε) PUnit}
    (h : ∀ n item, Keeps (P (n + 1)) (body item) (P n)) (n : ℕ) :
    Keeps (P (n + items.length)) (items.forM body) (P n) := by
  induction items with
  | nil => exact pure _
  | cons item items ih => exact (h (n + items.length) item).bind fun _ => ih

end Keeps

end Nifra
