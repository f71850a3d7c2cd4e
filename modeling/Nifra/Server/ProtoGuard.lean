import Mathlib.Data.Fintype.Card
import Nifra.Lib.Double
import Nifra.Lib.InsertionMap
import Nifra.Text.JSString

/-! # The guard on decoded values

What a transport codec decodes may share nodes and hold cycles. The guard walks it once: it
refuses or removes the members that poison prototypes, refuses cycles and patterns, and bounds
what sharing adds to the tree that everything downstream walks.
-/

namespace Nifra.ProtoGuard

inductive ProtoPoisoning
  | reject
  | strip
  | ignore
  deriving DecidableEq

inductive GuardError
  | poisoned
  | notATree
  deriving DecidableEq

/-- A value in the heap of objects `ι`; only objects are walked. -/
inductive Value (ι : Type*)
  | scalar
  | object (id : ι)

structure Member (ι : Type*) where
  key : JSString
  enumerable : Bool
  value : Value ι

/-- An object. `leaf` stands for the binary and scalar wrappers, `pattern` for a `RegExp`. -/
inductive Node (ι : Type*)
  | array (items : List (Value ι))
  | map (entries : List (Value ι × Value ι))
  | set (items : List (Value ι))
  | leaf
  | pattern
  | plain (members : List (Member ι))

variable {ι : Type*}

def Value.ids : List (Value ι) → List ι
  | [] => []
  | .scalar :: values => ids values
  | .object id :: values => id :: ids values

def Node.hasOwn (key : JSString) : Node ι → Bool
  | .plain members => members.any fun m => m.key = key
  | _ => false

abbrev Heap (ι : Type*) := ι → Node ι

/-- The objects of a program. A `Map` that holds them all counts them exactly. -/
structure Objects (ι : Type*) [Fintype ι] where
  heap : Heap ι
  few : Fintype.card ι ≤ 2 ^ 52

def Member.isPoison (heap : Heap ι) (m : Member ι) : Bool :=
  m.key = js "__proto__" ||
    m.key = js "constructor" && match m.value with
      | .scalar => false
      | .object id => (heap id).hasOwn (js "prototype")

/-- The members that the loop over a node keeps, with the objects it adds. -/
def scanMembers (heap : Heap ι) (policy : ProtoPoisoning) :
    List (Member ι) → Except GuardError (List ι × List (Member ι))
  | [] => .ok ([], [])
  | m :: members =>
    if !m.enumerable then
      (scanMembers heap policy members).map fun (children, kept) => (children, m :: kept)
    else if policy ≠ .ignore ∧ m.isPoison heap then
      if policy = .reject then .error .poisoned else scanMembers heap policy members
    else
      (scanMembers heap policy members).map fun (children, kept) =>
        (Value.ids [m.value] ++ children, m :: kept)

/-- The children of a node, with the node as the loop over it leaves it. -/
def decodedChildren (heap : Heap ι) (policy : ProtoPoisoning) :
    Node ι → Except GuardError (List ι × Node ι)
  | .array items => .ok (Value.ids items, .array items)
  | .map entries => .ok (Value.ids (entries.flatMap fun e => [e.1, e.2]), .map entries)
  | .set items => .ok (Value.ids items, .set items)
  | .leaf => .ok ([], .leaf)
  | .pattern => .ok ([], .pattern)
  | .plain members =>
    (scanMembers heap policy members).map fun (children, kept) => (children, .plain kept)

/-- `ON_PATH`, or the size of a subtree that has been walked. -/
inductive Mark
  | onPath
  | size (n : WithTop ℕ)

structure Frame (ι : Type*) where
  node : ι
  children : List ι
  next : ℕ
  size : WithTop ℕ

structure Walk (ι : Type*) where
  heap : Heap ι
  sizes : InsertionMap ι Mark
  frames : List (Frame ι)
  expanded : WithTop ℕ

def maxSharedExpansion : ℕ := 100000

variable [DecidableEq ι]

/-- `openDecoded`, its frame pushed. -/
def Walk.openDecoded (s : Walk ι) (policy : ProtoPoisoning) (patterns : Bool) (node : ι) :
    Except GuardError (Walk ι) :=
  match patterns, s.heap node with
  | false, .pattern => .error .notATree
  | _, object =>
    (decodedChildren s.heap policy object).map fun (children, object) =>
      { s with
        heap := Function.update s.heap node object
        sizes := s.sizes.set node .onPath
        frames := ⟨node, children, 0, 1⟩ :: s.frames }

def Walk.turn (s : Walk ι) (policy : ProtoPoisoning) (patterns : Bool) (frame : Frame ι)
    (below : List (Frame ι)) : Except GuardError (Walk ι) :=
  match frame.children[frame.next]? with
  | some child =>
    let frame := { frame with next := frame.next + 1 }
    match s.sizes.get child with
    | none => { s with frames := frame :: below }.openDecoded policy patterns child
    | some .onPath => .error .notATree
    | some (.size known) =>
      .ok { s with frames := { frame with size := Double.add frame.size known } :: below }
  | none =>
    let sizes := s.sizes.set frame.node (.size frame.size)
    match below with
    | [] => .ok { s with sizes, frames := [], expanded := frame.size }
    | parent :: below =>
      .ok { s with
        sizes
        frames := { parent with size := Double.add parent.size frame.size } :: below }

theorem Walk.openDecoded_eq_ok {s s' : Walk ι} {policy : ProtoPoisoning} {patterns : Bool}
    {node : ι} (h : s.openDecoded policy patterns node = .ok s') :
    ∃ children object, decodedChildren s.heap policy (s.heap node) = .ok (children, object) ∧
      s' = { s with
        heap := Function.update s.heap node object
        sizes := s.sizes.set node .onPath
        frames := ⟨node, children, 0, 1⟩ :: s.frames } := by
  unfold openDecoded at h
  split at h
  · cases h
  · cases hchildren : decodedChildren s.heap policy (s.heap node) with
    | error e =>
      rw [hchildren] at h
      cases h
    | ok result =>
      rw [hchildren] at h
      cases h
      exact ⟨result.1, result.2, rfl, rfl⟩

inductive Walk.Turned (s : Walk ι) (policy : ProtoPoisoning) (patterns : Bool) (frame : Frame ι)
    (below : List (Frame ι)) : Except GuardError (Walk ι) → Prop
  | opened {child : ι} (hchild : frame.children[frame.next]? = some child)
      (hget : s.sizes.get child = none) :
      Turned s policy patterns frame below
        ({ s with frames := { frame with next := frame.next + 1 } :: below }.openDecoded policy
          patterns child)
  | cycle {child : ι} (hchild : frame.children[frame.next]? = some child)
      (hget : s.sizes.get child = some .onPath) :
      Turned s policy patterns frame below (.error .notATree)
  | shared {child : ι} {known : WithTop ℕ} (hchild : frame.children[frame.next]? = some child)
      (hget : s.sizes.get child = some (.size known)) :
      Turned s policy patterns frame below (.ok { s with
        frames := { frame with next := frame.next + 1, size := Double.add frame.size known }
          :: below })
  | root (hend : frame.children[frame.next]? = none) (hbelow : below = []) :
      Turned s policy patterns frame below (.ok { s with
        sizes := s.sizes.set frame.node (.size frame.size)
        frames := []
        expanded := frame.size })
  | left {parent : Frame ι} {rest : List (Frame ι)}
      (hend : frame.children[frame.next]? = none) (hbelow : below = parent :: rest) :
      Turned s policy patterns frame below (.ok { s with
        sizes := s.sizes.set frame.node (.size frame.size)
        frames := { parent with size := Double.add parent.size frame.size } :: rest })

theorem Walk.turned (s : Walk ι) (policy : ProtoPoisoning) (patterns : Bool) (frame : Frame ι)
    (below : List (Frame ι)) :
    s.Turned policy patterns frame below (s.turn policy patterns frame below) := by
  unfold turn
  cases hchild : frame.children[frame.next]? with
  | none =>
    cases below with
    | nil => exact .root hchild rfl
    | cons parent rest => exact .left hchild rfl
  | some child =>
    dsimp only
    cases hget : s.sizes.get child with
    | none => exact .opened hchild hget
    | some mark =>
      cases mark with
      | onPath => exact .cycle hchild hget
      | size known => exact .shared hchild hget

/-- What is left of a walk: the objects it has not met, then the turns its frames still take. -/
def Walk.left [Fintype ι] (s : Walk ι) : ℕ × ℕ :=
  ((Finset.univ.filter fun x => s.sizes.get x = none).card,
    (s.frames.map fun f => f.children.length - f.next + 1).sum)

theorem card_unmarked_set_le [Fintype ι] (sizes : InsertionMap ι Mark) (x : ι) (mark : Mark) :
    (Finset.univ.filter fun y => (sizes.set x mark).get y = none).card
      ≤ (Finset.univ.filter fun y => sizes.get y = none).card := by
  apply Finset.card_le_card
  intro y hy
  rw [Finset.mem_filter, InsertionMap.get_set] at hy
  split_ifs at hy with heq
  · cases hy.2
  · exact Finset.mem_filter.mpr ⟨Finset.mem_univ y, hy.2⟩

theorem card_unmarked_set_lt [Fintype ι] {sizes : InsertionMap ι Mark} {x : ι} (h : sizes.get x = none)
    (mark : Mark) :
    (Finset.univ.filter fun y => (sizes.set x mark).get y = none).card
      < (Finset.univ.filter fun y => sizes.get y = none).card := by
  apply Finset.card_lt_card
  rw [Finset.ssubset_iff_of_subset]
  · refine ⟨x, Finset.mem_filter.mpr ⟨Finset.mem_univ x, h⟩, ?_⟩
    simp [InsertionMap.get_set]
  · intro y hy
    rw [Finset.mem_filter, InsertionMap.get_set] at hy
    split_ifs at hy with heq
    · cases hy.2
    · exact Finset.mem_filter.mpr ⟨Finset.mem_univ y, hy.2⟩

theorem Walk.left_turn [Fintype ι] {s s' : Walk ι} {policy : ProtoPoisoning} {patterns : Bool}
    {frame : Frame ι} {below : List (Frame ι)} (hframes : s.frames = frame :: below)
    (hturn : s.turn policy patterns frame below = .ok s') :
    Prod.Lex (· < ·) (· < ·) s'.left s.left := by
  have hpop (mark : Mark) {n : ℕ} (hn : n < (s.frames.map fun f => f.children.length - f.next + 1).sum) :
      Prod.Lex (· < ·) (· < ·)
        ((Finset.univ.filter fun x => (s.sizes.set frame.node mark).get x = none).card, n) s.left := by
    rcases (card_unmarked_set_le s.sizes frame.node mark).lt_or_eq with hlt | heq
    · exact Prod.Lex.left _ _ hlt
    · rw [heq]
      exact Prod.Lex.right _ hn
  have hturned := s.turned policy patterns frame below
  rw [hturn] at hturned
  generalize hresult : (Except.ok s' : Except GuardError (Walk ι)) = result at hturned
  cases hturned with
  | opened hchild hget =>
    obtain ⟨children, object, -, rfl⟩ := openDecoded_eq_ok hresult.symm
    exact Prod.Lex.left _ _ (card_unmarked_set_lt hget .onPath)
  | cycle => cases hresult
  | shared hchild hget =>
    cases hresult
    have hlt := (List.getElem?_eq_some_iff.mp hchild).1
    unfold left
    rw [hframes]
    apply Prod.Lex.right
    simp only [List.map_cons, List.sum_cons]
    omega
  | root hend hbelow =>
    cases hresult
    apply hpop
    rw [hframes]
    simp
  | left hend hbelow =>
    cases hresult
    apply hpop
    rw [hframes, hbelow]
    simp

inductive Outcome (ι : Type*)
  | returned (heap : Heap ι)
  | thrown (e : GuardError) (heap : Heap ι)

/-- The check behind the loop. The difference is compared as the doubles compare it. -/
def Walk.finish (s : Walk ι) : Outcome ι :=
  if ((s.sizes.size + maxSharedExpansion : ℕ) : WithTop ℕ) < s.expanded then
    .thrown .notATree s.heap
  else .returned s.heap

def Walk.run [Fintype ι] (policy : ProtoPoisoning) (patterns : Bool) (s : Walk ι) : Outcome ι :=
  match _ : s.frames with
  | [] => s.finish
  | frame :: below =>
    match _ : s.turn policy patterns frame below with
    | .error e => .thrown e s.heap
    | .ok s' => s'.run policy patterns
termination_by s.left
decreasing_by exact Walk.left_turn ‹_› ‹_›

def guardDecodedValue [Fintype ι] (objects : Objects ι) (value : Value ι) (policy : ProtoPoisoning)
    (patterns : Bool) : Outcome ι :=
  match value with
  | .scalar => .returned objects.heap
  | .object id =>
    match Walk.openDecoded ⟨objects.heap, ∅, [], 0⟩ policy patterns id with
    | .error e => .thrown e objects.heap
    | .ok s => s.run policy patterns

end Nifra.ProtoGuard
