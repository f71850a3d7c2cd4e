import Mathlib.Logic.Relation
import Mathlib.Data.Nat.Basic

/-! # Tree expansions

How many nodes a list of nodes of a graph expands to when it is walked as trees: a node counts
once for each path to it. A node on a cycle has no expansion.
-/

namespace Nifra

variable {α : Type*} {kids : α → List α}

inductive ForestSize (kids : α → List α) : List α → ℕ → Prop
  | nil : ForestSize kids [] 0
  | cons {x : α} {l : List α} {m n : ℕ} (tree : ForestSize kids (kids x) m)
      (rest : ForestSize kids l n) : ForestSize kids (x :: l) (m + 1 + n)

def TreeSize (kids : α → List α) (x : α) (n : ℕ) : Prop :=
  ∃ m, ForestSize kids (kids x) m ∧ n = m + 1

def Child (kids : α → List α) (x y : α) : Prop := y ∈ kids x

def Reaches (kids : α → List α) : α → α → Prop := Relation.ReflTransGen (Child kids)

namespace ForestSize

theorem unique {l : List α} {m n : ℕ} (hm : ForestSize kids l m) (hn : ForestSize kids l n) :
    m = n := by
  induction hm generalizing n with
  | nil =>
    cases hn
    rfl
  | cons _ _ ihtree ihrest =>
    cases hn with
    | cons tree rest => rw [ihtree tree, ihrest rest]

theorem concat {l : List α} {x : α} {m n : ℕ} (h : ForestSize kids l m)
    (hx : TreeSize kids x n) : ForestSize kids (l ++ [x]) (m + n) := by
  obtain ⟨k, hk, rfl⟩ := hx
  induction h with
  | nil =>
    have hsingle := ForestSize.cons hk .nil
    rwa [Nat.add_comm] at hsingle
  | cons tree _ _ ih =>
    have hrest := ForestSize.cons tree ih
    rwa [← Nat.add_assoc] at hrest

theorem of_mem {l : List α} {x : α} {n : ℕ} (h : ForestSize kids l n) (hx : x ∈ l) :
    ∃ m < n, ForestSize kids (kids x) m := by
  induction h with
  | nil => cases hx
  | cons tree _ _ ih =>
    rcases List.mem_cons.mp hx with rfl | hx
    · exact ⟨_, by omega, tree⟩
    · obtain ⟨m, hm, htree⟩ := ih hx
      exact ⟨m, by omega, htree⟩

theorem of_transGen {x y : α} {n : ℕ} (h : ForestSize kids (kids x) n)
    (hy : Relation.TransGen (Child kids) x y) : ∃ m < n, ForestSize kids (kids y) m := by
  induction hy with
  | single hchild => exact h.of_mem hchild
  | tail _ hchild ih =>
    obtain ⟨m, hm, htree⟩ := ih
    obtain ⟨k, hk, htree⟩ := htree.of_mem hchild
    exact ⟨k, Nat.lt_trans hk hm, htree⟩

end ForestSize

theorem TreeSize.unique {x : α} {m n : ℕ} (hm : TreeSize kids x m) (hn : TreeSize kids x n) :
    m = n := by
  obtain ⟨m, hm, rfl⟩ := hm
  obtain ⟨n, hn, rfl⟩ := hn
  rw [hm.unique hn]

theorem TreeSize.acyclic {x : α} {n : ℕ} (h : TreeSize kids x n) {y : α} (hy : Reaches kids x y) :
    ¬Relation.TransGen (Child kids) y y := by
  obtain ⟨m, hm, rfl⟩ := h
  have htree : ∃ k, ForestSize kids (kids y) k := by
    rcases Relation.reflTransGen_iff_eq_or_transGen.mp hy with rfl | hy
    · exact ⟨m, hm⟩
    · obtain ⟨k, -, hk⟩ := hm.of_transGen hy
      exact ⟨k, hk⟩
  obtain ⟨k, hk⟩ := htree
  rintro hcycle
  obtain ⟨k', hlt, hk'⟩ := hk.of_transGen hcycle
  have := hk.unique hk'
  omega

end Nifra
