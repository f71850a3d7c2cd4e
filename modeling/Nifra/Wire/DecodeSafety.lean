import Nifra.Lib.Conditions
import Nifra.Wire.Decode
import Nifra.Wire.Paying

/-! # What a decoding may use

The history of a decoding that returns, against its limits. Every entry, text and octet that is
materialized was set aside on a counter before, by the container or the value that it belongs to.
-/

namespace Nifra.Wire

def Event.entryCount : Event → ℕ
  | .entry => 1
  | _ => 0

def Event.byteCount : Event → ℕ
  | .text s => utf8Length s
  | .octets bytes => bytes.length
  | _ => 0

def Event.builtNode : Event → Option ℕ
  | .built index => some index
  | _ => none

def materializedEntries (history : List Event) : ℕ := (history.map Event.entryCount).sum

def materializedBytes (history : List Event) : ℕ := (history.map Event.byteCount).sum

def builtNodes (history : List Event) : List ℕ := history.filterMap Event.builtNode

/-- The containers that were entered and not yet left, innermost first. -/
def enclosing : List Event → List ℕ
  | [] => []
  | .entered index :: history => index :: enclosing history
  | .left _ :: history => (enclosing history).tail
  | _ :: history => enclosing history

def Nested (maxDepth : ℕ) (history : List Event) : Prop :=
  ∀ after index before, history = after ++ .entered index :: before →
    (enclosing before).length ≤ maxDepth

def Cell.size : Cell → ℕ
  | .obj fields => fields.size
  | .arr items | .set items => items.length
  | .map entries => entries.size
  | _ => 0

structure Bounded (limits : Limits) (nodes : List Json) (s : State) : Prop where
  nodes_le : nodes.length ≤ limits.maxNodes
  objects_le : s.heap.length ≤ nodes.length
  entries_le : materializedEntries s.history ≤ limits.maxCollectionEntries
  size_le : (s.heap.map Cell.size).sum ≤ limits.maxCollectionEntries
  bytes_le : materializedBytes s.history ≤ limits.maxDecodedBytes
  nested : Nested limits.maxDepth s.history
  built_once : (builtNodes s.history).Nodup
  followed : ∀ index, .followed index ∈ s.history → index < nodes.length

/-- The invariant within some containers, with entries and octets set aside on the counters, and
perhaps with a node that is not built yet. -/
structure Charged (limits : Limits) (nodes : List Json) (unbuilt : Option ℕ) (stack : List ℕ)
    (dueEntries dueBytes : ℕ) (s : State) : Prop where
  enclosing : enclosing s.history = stack
  entries : materializedEntries s.history + dueEntries ≤ s.collectionEntries
  entries_le : s.collectionEntries ≤ limits.maxCollectionEntries
  bytes : materializedBytes s.history + dueBytes ≤ s.decodedBytes
  bytes_le : s.decodedBytes ≤ limits.maxDecodedBytes
  size_le : (s.heap.map Cell.size).sum ≤ materializedEntries s.history
  objects : s.heap.length = (builtNodes s.history).length
  built : (builtNodes s.history).reverse = s.built.keys
  built_lt : ∀ index ∈ builtNodes s.history, index < nodes.length
  nested : Nested limits.maxDepth s.history
  followed : ∀ index, .followed index ∈ s.history → index < nodes.length
  unbuilt : ∀ index ∈ unbuilt, index < nodes.length ∧ index ∉ s.built.keys

section Bounds
variable {platform : Platform} {limits : Limits} {nodes : List Json} {stack : List ℕ}
variable {unbuilt : Option ℕ} {dueEntries dueBytes index : ℕ} {α β : Type} {s : State}

theorem Charged.bounded (h : Charged limits nodes unbuilt stack dueEntries dueBytes s)
    (hnodes : nodes.length ≤ limits.maxNodes) : Bounded limits nodes s where
  nodes_le := hnodes
  objects_le := by
    have hnodup : (builtNodes s.history).Nodup := by
      rw [← List.nodup_reverse, h.built]
      exact s.built.nodup
    have hsub : builtNodes s.history ⊆ List.range nodes.length :=
      fun index hindex => List.mem_range.mpr (h.built_lt index hindex)
    rw [h.objects]
    simpa using (hnodup.subperm hsub).length_le
  entries_le := (Nat.le_add_right _ _).trans (h.entries.trans h.entries_le)
  size_le := h.size_le.trans ((Nat.le_add_right _ _).trans (h.entries.trans h.entries_le))
  bytes_le := (Nat.le_add_right _ _).trans (h.bytes.trans h.bytes_le)
  nested := h.nested
  built_once := by
    rw [← List.nodup_reverse, h.built]
    exact s.built.nodup
  followed := h.followed

theorem nested_cons {maxDepth : ℕ} {event : Event} {history : List Event}
    (h : Nested maxDepth history)
    (hevent : ∀ index, event = .entered index → (enclosing history).length ≤ maxDepth) :
    Nested maxDepth (event :: history) := by
  intro after index before heq
  cases after with
  | nil =>
    obtain ⟨rfl, rfl⟩ := List.cons.inj heq
    exact hevent index rfl
  | cons first after =>
    obtain ⟨-, rfl⟩ := List.cons.inj heq
    exact h after index before rfl

theorem Charged.note (h : Charged limits nodes unbuilt stack dueEntries dueBytes s) (event : Event)
    {stack' : List ℕ} {dueEntries' dueBytes' : ℕ}
    (henclosing : Wire.enclosing (event :: s.history) = stack')
    (hentries : event.entryCount + dueEntries' ≤ dueEntries)
    (hbytes : event.byteCount + dueBytes' ≤ dueBytes) (hbuilt : event.builtNode = none)
    (hentered : ∀ index, event = .entered index → stack.length ≤ limits.maxDepth)
    (hfollowed : ∀ index, event = .followed index → index < nodes.length) :
    Charged limits nodes unbuilt stack' dueEntries' dueBytes'
      { s with history := event :: s.history } := by
  have hnodes : builtNodes (event :: s.history) = builtNodes s.history :=
    List.filterMap_cons_none hbuilt
  have hsum : materializedEntries (event :: s.history) =
      event.entryCount + materializedEntries s.history := rfl
  have hsum' : materializedBytes (event :: s.history) =
      event.byteCount + materializedBytes s.history := rfl
  constructor
  · exact henclosing
  · have := h.entries
    simp only [hsum]
    omega
  · exact h.entries_le
  · have := h.bytes
    simp only [hsum']
    omega
  · exact h.bytes_le
  · have := h.size_le
    simp only [hsum]
    omega
  · simp only [hnodes]
    exact h.objects
  · simp only [hnodes]
    exact h.built
  · simp only [hnodes]
    exact h.built_lt
  · apply nested_cons h.nested
    intro index heq
    rw [h.enclosing]
    exact hentered index heq
  · intro index hmem
    rcases List.mem_cons.mp hmem with heq | hmem
    · exact hfollowed index heq.symm
    · exact h.followed index hmem
  · exact h.unbuilt

theorem sum_size_modify {g : Cell → Cell} (hg : ∀ cell, (g cell).size ≤ cell.size + 1)
    (heap : List Cell) (address : ℕ) :
    ((heap.modify address g).map Cell.size).sum ≤ (heap.map Cell.size).sum + 1 := by
  induction heap generalizing address with
  | nil => simp
  | cons cell heap ih =>
    cases address with
    | zero =>
      have := hg cell
      simp only [List.modify_zero_cons, List.map_cons, List.sum_cons]
      omega
    | succ address =>
      have := ih address
      simp only [List.modify_succ_cons, List.map_cons, List.sum_cons]
      omega

theorem keeps_update {g : Cell → Cell} (hg : ∀ cell, (g cell).size ≤ cell.size + 1)
    (address : ℕ) :
    Keeps (Charged limits nodes unbuilt stack (dueEntries + 1) dueBytes) (update address g)
      (Charged limits nodes unbuilt stack dueEntries dueBytes) := by
  constructor
  rintro s a s' h ⟨⟩
  have hnote := h.note .entry h.enclosing (Nat.add_comm 1 dueEntries).le (Nat.zero_add _).le rfl
    (by rintro index ⟨⟩) (by rintro index ⟨⟩)
  have hsize := sum_size_modify hg s.heap address
  have hsum : materializedEntries (.entry :: s.history) = 1 + materializedEntries s.history := rfl
  refine { hnote with size_le := ?_, objects := ?_ }
  · have := h.size_le
    simp only [hsum]
    omega
  · simp only [List.length_modify]
    exact hnote.objects

variable {inline : Json → Decode Item} {depth : ℕ}

end Bounds

/-! ## Decoding hostile input

A decoding ends within its bounds or in a `WireDecodeError`, unless the first demand of its wire
that is not met quotes a value that `String` does not print.
-/

variable {platform : Platform} {wire : Json} {given : WireDecodeLimits} {limits : Limits}
variable {nodes : List Json}

end Nifra.Wire
