import Mathlib.Data.Set.Card
import Nifra.Lib.TreeSize
import Nifra.Server.ProtoGuard

/-! # What the guard on decoded values accepts

The walk returns on the graphs without a cycle, a refused object or too much sharing, with the
objects that it reached stripped and no others touched.
-/

namespace Nifra.ProtoGuard

variable {ι : Type*}

/-- A member that the walk does not keep under `"strip"`. -/
def Member.isStripped (heap : Heap ι) (m : Member ι) : Bool := m.enumerable && m.isPoison heap

def Node.strip (heap : Heap ι) : Node ι → Node ι
  | .plain members => .plain (members.filter fun m => !m.isStripped heap)
  | node => node

def Node.IsPoisoned (heap : Heap ι) : Node ι → Prop
  | .plain members => ∃ m ∈ members, m.isStripped heap = true
  | _ => False

def Node.children : Node ι → List ι
  | .array items => Value.ids items
  | .map entries => Value.ids (entries.flatMap fun e => [e.1, e.2])
  | .set items => Value.ids items
  | .leaf => []
  | .pattern => []
  | .plain members => Value.ids ((members.filter Member.enumerable).map Member.value)

def cleaned (heap : Heap ι) (policy : ProtoPoisoning) (x : ι) : Node ι :=
  if policy = .strip then (heap x).strip heap else heap x

def kids (heap : Heap ι) (policy : ProtoPoisoning) (x : ι) : List ι :=
  (cleaned heap policy x).children

theorem scanMembers_keep {heap : Heap ι} {policy : ProtoPoisoning} {members : List (Member ι)}
    (h : policy = .ignore ∨ ∀ m ∈ members, m.isStripped heap = false) :
    scanMembers heap policy members =
      .ok (Value.ids ((members.filter Member.enumerable).map Member.value), members) := by
  induction members with
  | nil => rfl
  | cons m members ih =>
    have htail := ih (h.imp_right fun h => (List.forall_mem_cons.mp h).2)
    unfold scanMembers
    rw [htail]
    cases henum : m.enumerable with
    | false => simp [henum, Except.map]
    | true =>
      have hkept : ¬(policy ≠ .ignore ∧ m.isPoison heap = true) := by
        rintro ⟨hpolicy, hpoison⟩
        rcases h with h | h
        · exact hpolicy h
        · have hm := h m (List.mem_cons_self ..)
          simp [Member.isStripped, henum, hpoison] at hm
      rw [if_neg (by simp), if_neg hkept]
      cases hvalue : m.value <;> simp [henum, hvalue, Value.ids, Except.map]

theorem scanMembers_strip (heap : Heap ι) (members : List (Member ι)) :
    scanMembers heap .strip members =
      .ok (Value.ids (((members.filter fun m => !m.isStripped heap).filter Member.enumerable).map
        Member.value), members.filter fun m => !m.isStripped heap) := by
  induction members with
  | nil => rfl
  | cons m members ih =>
    unfold scanMembers
    rw [ih]
    cases henum : m.enumerable with
    | false => simp [Member.isStripped, henum, Except.map]
    | true =>
      cases hpoison : m.isPoison heap with
      | true => simp [Member.isStripped, henum, hpoison]
      | false =>
        cases hvalue : m.value <;>
          simp [Member.isStripped, henum, hpoison, hvalue, Value.ids, Except.map]

theorem scanMembers_reject {heap : Heap ι} {members : List (Member ι)}
    (h : ∃ m ∈ members, m.isStripped heap = true) :
    scanMembers heap .reject members = .error .poisoned := by
  induction members with
  | nil => simp at h
  | cons m members ih =>
    unfold scanMembers
    cases hm : m.isStripped heap with
    | true =>
      obtain ⟨henum, hpoison⟩ := Bool.and_eq_true_iff.mp hm
      rw [if_neg (by simp [henum]), if_pos ⟨by decide, hpoison⟩, if_pos rfl]
    | false =>
      have htail := ih (by simpa [hm] using h)
      rw [htail]
      cases henum : m.enumerable with
      | false => rfl
      | true =>
        have hpoison : m.isPoison heap = false := by simpa [Member.isStripped, henum] using hm
        rw [if_neg (by simp), if_neg (by simp [hpoison])]
        rfl

theorem decodedChildren_eq {heap : Heap ι} {policy : ProtoPoisoning} {node : Node ι}
    (h : ¬(policy = .reject ∧ node.IsPoisoned heap)) :
    decodedChildren heap policy node =
      .ok ((if policy = .strip then node.strip heap else node).children,
        if policy = .strip then node.strip heap else node) := by
  cases node with
  | plain members =>
    dsimp only [decodedChildren]
    by_cases hstrip : policy = .strip
    · rw [hstrip, scanMembers_strip]
      rfl
    · rw [if_neg hstrip, scanMembers_keep]
      · rfl
      · cases policy with
        | reject =>
          right
          intro m hm
          exact Bool.eq_false_iff.mpr fun htrue => h ⟨rfl, m, hm, htrue⟩
        | strip => exact absurd rfl hstrip
        | ignore => exact Or.inl rfl
  | _ => simp [decodedChildren, Node.strip, Node.children]

theorem decodedChildren_poisoned {heap : Heap ι} {node : Node ι} (h : node.IsPoisoned heap) :
    decodedChildren heap .reject node = .error .poisoned := by
  cases node with
  | plain members =>
    dsimp only [decodedChildren]
    rw [scanMembers_reject h]
    rfl
  | _ => exact h.elim

/-- A heap in which the same objects have a `prototype` of their own. -/
def SamePrototypes (heap heap' : Heap ι) : Prop :=
  ∀ x, (heap' x).hasOwn (js "prototype") = (heap x).hasOwn (js "prototype")

section SamePrototypes

variable {heap heap' : Heap ι}

theorem SamePrototypes.isPoison (h : SamePrototypes heap heap') :
    Member.isPoison heap' = Member.isPoison heap := by
  funext m
  unfold Member.isPoison
  cases m.value with
  | scalar => rfl
  | object id => simp only [h id]

theorem SamePrototypes.isStripped (h : SamePrototypes heap heap') :
    Member.isStripped heap' = Member.isStripped heap := by
  funext m
  rw [Member.isStripped, h.isPoison, Member.isStripped]

theorem SamePrototypes.strip (h : SamePrototypes heap heap') :
    Node.strip heap' = Node.strip heap := by
  funext node
  cases node <;> simp only [Node.strip, h.isStripped]

theorem SamePrototypes.isPoisoned (h : SamePrototypes heap heap') :
    Node.IsPoisoned heap' = Node.IsPoisoned heap := by
  funext node
  cases node <;> simp only [Node.IsPoisoned, h.isStripped]

theorem hasOwn_strip (node : Node ι) :
    (node.strip heap).hasOwn (js "prototype") = node.hasOwn (js "prototype") := by
  cases node with
  | plain members =>
    have hkept (m : Member ι) (hkey : m.key = js "prototype") : m.isStripped heap = false := by
      have hproto : ¬js "prototype" = js "__proto__" := by decide
      have hconstructor : ¬js "prototype" = js "constructor" := by decide
      simp [Member.isStripped, Member.isPoison, hkey, hproto, hconstructor]
    rw [Bool.eq_iff_iff]
    simp only [Node.strip, Node.hasOwn, List.any_eq_true, List.mem_filter, decide_eq_true_eq]
    constructor
    · rintro ⟨m, ⟨hm, -⟩, hkey⟩
      exact ⟨m, hm, hkey⟩
    · rintro ⟨m, hm, hkey⟩
      exact ⟨m, ⟨hm, by rw [hkept m hkey]; rfl⟩, hkey⟩
  | _ => rfl

end SamePrototypes

variable (heap : Heap ι) (policy : ProtoPoisoning) (patterns : Bool) (root : ι)

def Refused (x : ι) : Prop :=
  policy = .reject ∧ (heap x).IsPoisoned heap ∨ patterns = false ∧ heap x = .pattern

variable {heap policy patterns root}

variable [DecidableEq ι]

theorem openDecoded_refused {s : Walk ι} {x : ι} (hprototypes : SamePrototypes heap s.heap)
    (hx : s.heap x = heap x) (h : Refused heap policy patterns x) :
    ∃ e, s.openDecoded policy patterns x = .error e := by
  unfold Walk.openDecoded
  split
  · exact ⟨_, rfl⟩
  · next hmatch =>
    rcases h with ⟨rfl, h⟩ | ⟨rfl, h⟩
    · rw [← hx, ← hprototypes.isPoisoned] at h
      rw [decodedChildren_poisoned h]
      exact ⟨_, rfl⟩
    · exact absurd (hx.trans h) (hmatch rfl)

theorem openDecoded_allowed {s : Walk ι} {x : ι} (hprototypes : SamePrototypes heap s.heap)
    (hx : s.heap x = heap x) (h : ¬Refused heap policy patterns x) :
    s.openDecoded policy patterns x = .ok { s with
      heap := Function.update s.heap x (cleaned heap policy x)
      sizes := s.sizes.set x .onPath
      frames := ⟨x, kids heap policy x, 0, 1⟩ :: s.frames } := by
  obtain ⟨hpoison, hpattern⟩ := not_or.mp h
  unfold Walk.openDecoded
  split
  · next hmatch => exact absurd ⟨rfl, hx.symm.trans hmatch⟩ hpattern
  · rw [← hx, ← hprototypes.isPoisoned] at hpoison
    rw [decodedChildren_eq hpoison, hprototypes.strip, hx]
    rfl

def Done (sizes : InsertionMap ι Mark) (x : ι) : Prop := ∃ d, sizes.get x = some (.size d)

variable (heap policy)

/-- A frame that has passed some of its children: they are done, and counted. -/
structure FrameOk (sizes : InsertionMap ι Mark) (f : Frame ι) (passed : List ι) : Prop where
  children : f.children = kids heap policy f.node
  done : ∀ y ∈ passed, Done sizes y
  counts : ∃ n, ForestSize (kids heap policy) passed n ∧ Double.Counts f.size (n + 1)

/-- The frames below an object: each has met, as its last child, the object of the next. -/
inductive Below (sizes : InsertionMap ι Mark) (root : ι) : ι → List (Frame ι) → Prop
  | root : Below sizes root root []
  | child {x : ι} {f : Frame ι} {frames : List (Frame ι)} {passed : List ι}
      (hnext : f.children.take f.next = passed ++ [x]) (hframe : FrameOk heap policy sizes f passed)
      (hbelow : Below sizes root f.node frames) : Below sizes root x (f :: frames)

/-- The top of the stack: a frame in its children, or the whole tree counted. -/
def TopOk (s : Walk ι) (root : ι) : List (Frame ι) → Prop
  | [] => Done s.sizes root ∧ ∃ n, TreeSize (kids heap policy) root n ∧ Double.Counts s.expanded n
  | f :: below => FrameOk heap policy s.sizes f (f.children.take f.next) ∧
      Below heap policy s.sizes root f.node below

structure Inv (patterns : Bool) (root : ι) (s : Walk ι) : Prop where
  objects : ∀ x, s.heap x = if (s.sizes.get x).isSome then cleaned heap policy x else heap x
  reached : ∀ x ∈ s.sizes.keys, Reaches (kids heap policy) root x
  allowed : ∀ x ∈ s.sizes.keys, ¬Refused heap policy patterns x
  path : ∀ x, s.sizes.get x = some .onPath ↔ x ∈ s.frames.map Frame.node
  nodup : (s.frames.map Frame.node).Nodup
  done : ∀ x d, s.sizes.get x = some (.size d) →
    (∀ y ∈ kids heap policy x, Done s.sizes y) ∧
      ∃ n, TreeSize (kids heap policy) x n ∧ Double.Counts d n
  top : TopOk heap policy s root s.frames

variable {heap policy}

theorem FrameOk.mono {sizes sizes' : InsertionMap ι Mark} {f : Frame ι} {passed : List ι}
    (h : FrameOk heap policy sizes f passed) (hle : ∀ x, Done sizes x → Done sizes' x) :
    FrameOk heap policy sizes' f passed :=
  ⟨h.children, fun y hy => hle y (h.done y hy), h.counts⟩

theorem Below.mono {sizes sizes' : InsertionMap ι Mark} {x : ι} {frames : List (Frame ι)}
    (h : Below heap policy sizes root x frames) (hle : ∀ x, Done sizes x → Done sizes' x) :
    Below heap policy sizes' root x frames := by
  induction h with
  | root => exact .root
  | child hnext hframe _ ih => exact .child hnext (hframe.mono hle) ih

theorem FrameOk.child {sizes : InsertionMap ι Mark} {f : Frame ι} {passed : List ι} {x : ι}
    (h : FrameOk heap policy sizes f passed) (hx : x ∈ f.children) :
    Child (kids heap policy) f.node x := by
  unfold Child
  rwa [← h.children]

theorem Below.transGen {sizes : InsertionMap ι Mark} {x : ι} {frames : List (Frame ι)}
    (h : Below heap policy sizes root x frames) {y : ι} (hy : y ∈ frames.map Frame.node) :
    Relation.TransGen (Child (kids heap policy)) y x := by
  induction h with
  | root => cases hy
  | @child x f frames passed hnext hframe _ ih =>
    have hchild : Child (kids heap policy) f.node x := by
      have hmem : x ∈ f.children.take f.next := hnext ▸ List.mem_append_right _ (by simp)
      exact hframe.child (List.mem_of_mem_take hmem)
    rcases List.mem_cons.mp hy with rfl | hy
    · exact .single hchild
    · exact (ih hy).tail hchild

theorem Done.set {sizes : InsertionMap ι Mark} {x y : ι} {mark : Mark}
    (hx : sizes.get x = none ∨ sizes.get x = some .onPath) (h : Done sizes y) :
    Done (sizes.set x mark) y := by
  obtain ⟨d, hd⟩ := h
  have hne : y ≠ x := by
    rintro rfl
    rcases hx with hx | hx <;> cases hx.symm.trans hd
  exact ⟨d, (InsertionMap.get_set_of_ne hne).trans hd⟩

theorem Inv.samePrototypes {s : Walk ι} (h : Inv heap policy patterns root s) :
    SamePrototypes heap s.heap := by
  intro x
  rw [h.objects x]
  unfold cleaned
  split_ifs
  · exact hasOwn_strip _
  · rfl
  · rfl

theorem Inv.changed {s : Walk ι} (h : Inv heap policy patterns root s) (x : ι) :
    s.heap x = heap x ∨ Reaches (kids heap policy) root x ∧ s.heap x = cleaned heap policy x := by
  rw [h.objects x]
  split_ifs with hsome
  · obtain ⟨mark, hmark⟩ := Option.isSome_iff_exists.mp hsome
    exact Or.inr ⟨h.reached x (InsertionMap.mem_keys_iff.mpr ⟨mark, hmark⟩), rfl⟩
  · exact Or.inl rfl

section Turns

variable {s : Walk ι} {frame : Frame ι} {below : List (Frame ι)}

omit [DecidableEq ι] in
theorem take_next {child : ι} (hchild : frame.children[frame.next]? = some child) :
    frame.children.take (frame.next + 1) = frame.children.take frame.next ++ [child] := by
  rw [List.take_add_one, hchild]
  rfl

theorem Inv.push (h : Inv heap policy patterns root s) (hframes : s.frames = frame :: below)
    {child : ι} (hchild : frame.children[frame.next]? = some child)
    (hget : s.sizes.get child = none) (hallowed : ¬Refused heap policy patterns child) :
    Inv heap policy patterns root
      { s with
        heap := Function.update s.heap child (cleaned heap policy child)
        sizes := s.sizes.set child .onPath
        frames := ⟨child, kids heap policy child, 0, 1⟩ ::
          { frame with next := frame.next + 1 } :: below } := by
  have htop := h.top
  rw [hframes] at htop
  obtain ⟨hframe, hbelow⟩ := htop
  have hmono (x : ι) (hx : Done s.sizes x) : Done (s.sizes.set child .onPath) x :=
    hx.set (Or.inl hget)
  have hedge : Child (kids heap policy) frame.node child :=
    hframe.child (List.mem_of_getElem? hchild)
  have hnode : frame.node ∈ s.sizes.keys := by
    have hpath : s.sizes.get frame.node = some .onPath := (h.path _).mpr (by simp [hframes])
    exact InsertionMap.mem_keys_iff.mpr ⟨_, hpath⟩
  have hnew : child ∉ s.frames.map Frame.node := fun hmem => by
    cases hget.symm.trans ((h.path child).mpr hmem)
  constructor
  · intro x
    rw [InsertionMap.get_set]
    by_cases hx : x = child
    · subst hx
      simp
    · simp only [Function.update_of_ne hx, if_neg hx]
      exact h.objects x
  · intro x hx
    rcases InsertionMap.mem_keys_set.mp hx with rfl | hx
    · exact (h.reached _ hnode).tail hedge
    · exact h.reached x hx
  · intro x hx
    rcases InsertionMap.mem_keys_set.mp hx with rfl | hx
    · exact hallowed
    · exact h.allowed x hx
  · intro x
    have hpath := h.path x
    rw [hframes] at hpath
    rw [InsertionMap.get_set]
    by_cases hx : x = child
    · subst hx
      simp
    · simpa [hx] using hpath
  · have hnodup := h.nodup
    rw [hframes] at hnodup hnew
    exact List.nodup_cons.mpr ⟨hnew, hnodup⟩
  · intro x d hx
    have hne : x ≠ child := by
      rintro rfl
      simp at hx
    rw [InsertionMap.get_set_of_ne hne] at hx
    obtain ⟨hkids, hcounts⟩ := h.done x d hx
    exact ⟨fun y hy => hmono y (hkids y hy), hcounts⟩
  · refine ⟨⟨rfl, by simp, 0, .nil, Double.counts_one⟩, ?_⟩
    refine .child (take_next hchild) ?_ (hbelow.mono hmono)
    exact ⟨hframe.children, fun y hy => hmono y (hframe.done y hy), hframe.counts⟩

theorem Inv.share (h : Inv heap policy patterns root s) (hframes : s.frames = frame :: below)
    {child : ι} {known : WithTop ℕ} (hchild : frame.children[frame.next]? = some child)
    (hget : s.sizes.get child = some (.size known)) :
    Inv heap policy patterns root
      { s with frames :=
        { frame with next := frame.next + 1, size := Double.add frame.size known } :: below } := by
  have htop := h.top
  rw [hframes] at htop
  obtain ⟨hframe, hbelow⟩ := htop
  obtain ⟨-, m, htree, hm⟩ := h.done child known hget
  obtain ⟨n, hforest, hn⟩ := hframe.counts
  refine { h with path := ?_, nodup := ?_, top := ⟨⟨hframe.children, ?_, n + m, ?_, ?_⟩, hbelow⟩ }
  · simpa [hframes] using h.path
  · simpa [hframes] using h.nodup
  · intro y hy
    rw [take_next hchild] at hy
    rcases List.mem_append.mp hy with hy | hy
    · exact hframe.done y hy
    · obtain rfl := List.mem_singleton.mp hy
      exact ⟨known, hget⟩
  · rw [take_next hchild]
    exact hforest.concat htree
  · have hsum := hn.add hm
    rwa [Nat.add_right_comm] at hsum

theorem Inv.counted (h : Inv heap policy patterns root s) (hframes : s.frames = frame :: below)
    (hend : frame.children[frame.next]? = none) :
    (∀ y ∈ kids heap policy frame.node, Done s.sizes y) ∧
      ∃ n, TreeSize (kids heap policy) frame.node n ∧ Double.Counts frame.size n := by
  have htop := h.top
  rw [hframes] at htop
  obtain ⟨hframe, -⟩ := htop
  have htake : frame.children.take frame.next = kids heap policy frame.node := by
    rw [List.take_of_length_le (List.getElem?_eq_none_iff.mp hend), hframe.children]
  obtain ⟨n, hforest, hn⟩ := hframe.counts
  rw [htake] at hforest
  exact ⟨fun y hy => hframe.done y (by rwa [htake]), n + 1, ⟨n, hforest, rfl⟩, hn⟩

theorem Inv.pop (h : Inv heap policy patterns root s) (hframes : s.frames = frame :: below)
    (hend : frame.children[frame.next]? = none) {expanded : WithTop ℕ} {frames : List (Frame ι)}
    (hnodes : frames.map Frame.node = below.map Frame.node)
    (htop : TopOk heap policy
      { s with sizes := s.sizes.set frame.node (.size frame.size), frames, expanded } root frames) :
    Inv heap policy patterns root
      { s with sizes := s.sizes.set frame.node (.size frame.size), frames, expanded } := by
  have hpath : s.sizes.get frame.node = some .onPath := (h.path _).mpr (by simp [hframes])
  have hkey : frame.node ∈ s.sizes.keys := InsertionMap.mem_keys_iff.mpr ⟨_, hpath⟩
  have hkeys {x : ι} (hx : x ∈ (s.sizes.set frame.node (.size frame.size)).keys) :
      x ∈ s.sizes.keys := by
    rcases InsertionMap.mem_keys_set.mp hx with rfl | hx
    · exact hkey
    · exact hx
  have hmono (x : ι) (hx : Done s.sizes x) : Done (s.sizes.set frame.node (.size frame.size)) x :=
    hx.set (Or.inr hpath)
  have hnodup := h.nodup
  rw [hframes, List.map_cons, List.nodup_cons] at hnodup
  refine ⟨?_, fun x hx => h.reached x (hkeys hx), fun x hx => h.allowed x (hkeys hx), ?_, ?_, ?_,
    htop⟩
  · intro x
    rw [InsertionMap.get_set]
    by_cases hx : x = frame.node
    · subst hx
      rw [if_pos rfl, h.objects, hpath]
      rfl
    · rw [if_neg hx]
      exact h.objects x
  · intro x
    have hx := h.path x
    rw [hframes] at hx
    rw [InsertionMap.get_set, hnodes]
    by_cases heq : x = frame.node
    · subst heq
      simpa using hnodup.1
    · simpa [heq] using hx
  · rw [hnodes]
    exact hnodup.2
  · intro x d hx
    rw [InsertionMap.get_set] at hx
    split_ifs at hx with heq
    · subst heq
      cases hx
      obtain ⟨hkids, hcounts⟩ := h.counted hframes hend
      exact ⟨fun y hy => hmono y (hkids y hy), hcounts⟩
    · obtain ⟨hkids, hcounts⟩ := h.done x d hx
      exact ⟨fun y hy => hmono y (hkids y hy), hcounts⟩

theorem Inv.popRoot (h : Inv heap policy patterns root s) (hframes : s.frames = frame :: below)
    (hend : frame.children[frame.next]? = none) (hbelow : below = []) :
    Inv heap policy patterns root
      { s with
        sizes := s.sizes.set frame.node (.size frame.size)
        frames := []
        expanded := frame.size } := by
  apply h.pop hframes hend (by rw [hbelow])
  have htop := h.top
  rw [hframes, hbelow] at htop
  obtain ⟨-, hroot⟩ := htop
  cases hroot
  exact ⟨⟨frame.size, by simp⟩, (h.counted hframes hend).2⟩

theorem Inv.popLeft (h : Inv heap policy patterns root s) (hframes : s.frames = frame :: below)
    (hend : frame.children[frame.next]? = none) {parent : Frame ι} {rest : List (Frame ι)}
    (hbelow : below = parent :: rest) :
    Inv heap policy patterns root
      { s with
        sizes := s.sizes.set frame.node (.size frame.size)
        frames := { parent with size := Double.add parent.size frame.size } :: rest } := by
  apply h.pop hframes hend (by rw [hbelow]; rfl)
  have hpath : s.sizes.get frame.node = some .onPath := (h.path _).mpr (by simp [hframes])
  have hmono (x : ι) (hx : Done s.sizes x) : Done (s.sizes.set frame.node (.size frame.size)) x :=
    hx.set (Or.inr hpath)
  have htop := h.top
  rw [hframes, hbelow] at htop
  obtain ⟨-, hparent⟩ := htop
  cases hparent with
  | @child _ _ _ passed hnext hframe hrest =>
    obtain ⟨-, m, htree, hm⟩ := h.counted hframes hend
    obtain ⟨n, hforest, hn⟩ := hframe.counts
    refine ⟨⟨hframe.children, ?_, n + m, ?_, ?_⟩, hrest.mono hmono⟩
    · intro y hy
      rw [hnext] at hy
      rcases List.mem_append.mp hy with hy | hy
      · exact hmono y (hframe.done y hy)
      · obtain rfl := List.mem_singleton.mp hy
        exact ⟨frame.size, by simp⟩
    · rw [hnext]
      exact hforest.concat htree
    · have hsum := hn.add hm
      rwa [Nat.add_right_comm] at hsum

end Turns

variable (heap policy patterns root)

/-- The shape of a graph that the guard accepts: no cycle, and at most so many nodes in its tree
beyond the distinct ones. -/
structure TreeLike : Prop where
  acyclic : ∀ x, Reaches (kids heap policy) root x →
    ¬Relation.TransGen (Child (kids heap policy)) x x
  bounded : ∃ n, TreeSize (kids heap policy) root n ∧
    n ≤ {x | Reaches (kids heap policy) root x}.ncard + maxSharedExpansion

structure Accepted : Prop where
  unpoisoned : policy = .reject →
    ∀ x, Reaches (kids heap policy) root x → ¬(heap x).IsPoisoned heap
  plain : patterns = true ∨ ∀ x, Reaches (kids heap policy) root x → heap x ≠ .pattern
  treeLike : TreeLike heap policy root

/-- What an outcome says of the graph, and what it leaves of the objects. -/
def Outcome.Sound : Outcome ι → Prop
  | .returned heap' => Accepted heap policy patterns root ∧
      ∀ x, (Reaches (kids heap policy) root x → heap' x = cleaned heap policy x) ∧
        (¬Reaches (kids heap policy) root x → heap' x = heap x)
  | .thrown _ heap' => ¬Accepted heap policy patterns root ∧
      ∀ x, heap' x = heap x ∨ Reaches (kids heap policy) root x ∧ heap' x = cleaned heap policy x

variable {heap policy patterns root}

omit [DecidableEq ι] in
theorem allowed_iff : (∀ x, Reaches (kids heap policy) root x → ¬Refused heap policy patterns x) ↔
    (policy = .reject → ∀ x, Reaches (kids heap policy) root x → ¬(heap x).IsPoisoned heap) ∧
      (patterns = true ∨ ∀ x, Reaches (kids heap policy) root x → heap x ≠ .pattern) := by
  simp only [Refused, not_or, not_and]
  constructor
  · rintro h
    refine ⟨fun hpolicy x hx => (h x hx).1 hpolicy, ?_⟩
    cases patterns with
    | true => exact Or.inl rfl
    | false => exact Or.inr fun x hx => (h x hx).2 rfl
  · rintro ⟨hpoison, hpattern⟩ x hx
    refine ⟨fun hpolicy => hpoison hpolicy x hx, ?_⟩
    rintro rfl
    rcases hpattern with hpattern | hpattern
    · cases hpattern
    · exact hpattern x hx

omit [DecidableEq ι] in
theorem Accepted.allowed (h : Accepted heap policy patterns root) {x : ι}
    (hx : Reaches (kids heap policy) root x) : ¬Refused heap policy patterns x :=
  allowed_iff.mpr ⟨h.unpoisoned, h.plain⟩ x hx

theorem Inv.mem_keys_iff {s : Walk ι} (h : Inv heap policy patterns root s) (hframes : s.frames = [])
    {x : ι} : x ∈ s.sizes.keys ↔ Reaches (kids heap policy) root x := by
  have hdone {x : ι} (hx : x ∈ s.sizes.keys) : Done s.sizes x := by
    obtain ⟨mark, hmark⟩ := InsertionMap.mem_keys_iff.mp hx
    cases mark with
    | onPath => simpa [hframes] using (h.path x).mp hmark
    | size d => exact ⟨d, hmark⟩
  have hkey {x : ι} (hx : Done s.sizes x) : x ∈ s.sizes.keys :=
    InsertionMap.mem_keys_iff.mpr ⟨_, hx.choose_spec⟩
  have htop := h.top
  rw [hframes] at htop
  constructor
  · exact h.reached x
  · rintro hreach
    induction hreach with
    | refl => exact hkey htop.1
    | tail _ hchild ih =>
      obtain ⟨d, hd⟩ := hdone ih
      exact hkey ((h.done _ d hd).1 _ hchild)

theorem Inv.size_eq {s : Walk ι} (h : Inv heap policy patterns root s) (hframes : s.frames = []) :
    s.sizes.size = {x | Reaches (kids heap policy) root x}.ncard := by
  have hset : {x | Reaches (kids heap policy) root x} = (s.sizes.keys.toFinset : Set ι) := by
    ext x
    rw [Set.mem_ofPred_eq, ← h.mem_keys_iff hframes, Finset.mem_coe, List.mem_toFinset]
  have hnodup : s.sizes.keys.Nodup := s.sizes.nodup
  rw [hset, Set.ncard_coe_finset, List.toFinset_card_of_nodup hnodup,
    InsertionMap.size_eq_length_keys]

theorem Inv.finish [Fintype ι] {s : Walk ι} (h : Inv heap policy patterns root s)
    (hframes : s.frames = []) (hfew : Fintype.card ι ≤ 2 ^ 52) :
    s.finish.Sound heap policy patterns root := by
  have htop := h.top
  rw [hframes] at htop
  obtain ⟨-, n, htree, hn⟩ := htop
  have hsize : s.sizes.size ≤ Fintype.card ι := by
    rw [InsertionMap.size_eq_length_keys]
    exact s.sizes.nodup.length_le_card
  have hbound : s.sizes.size + maxSharedExpansion < 2 ^ 53 := by
    unfold maxSharedExpansion
    omega
  have hcompare := hn.lt_iff hbound
  unfold Walk.finish
  split_ifs with hlarge
  · refine ⟨fun hacc => ?_, h.changed⟩
    obtain ⟨m, hm, hle⟩ := hacc.treeLike.bounded
    rw [← h.size_eq hframes, hm.unique htree] at hle
    exact absurd (hcompare.mp hlarge) (Nat.not_lt.mpr hle)
  · obtain ⟨hpoison, hpattern⟩ :=
      allowed_iff.mp fun x hx => h.allowed x ((h.mem_keys_iff hframes).mpr hx)
    refine ⟨⟨hpoison, hpattern, fun x hx => htree.acyclic hx, n, htree, ?_⟩, fun x => ?_⟩
    · rw [← h.size_eq hframes]
      exact Nat.not_lt.mp (mt hcompare.mpr hlarge)
    · rw [← h.mem_keys_iff hframes, h.objects x, InsertionMap.mem_keys_iff,
        ← Option.isSome_iff_exists]
      exact ⟨fun hsome => if_pos hsome, fun hnone => if_neg hnone⟩

theorem Inv.turn {s : Walk ι} {frame : Frame ι} {below : List (Frame ι)}
    (h : Inv heap policy patterns root s) (hframes : s.frames = frame :: below) :
    match s.turn policy patterns frame below with
    | .ok s' => Inv heap policy patterns root s'
    | .error _ => ¬Accepted heap policy patterns root := by
  have htop := h.top
  rw [hframes] at htop
  obtain ⟨hframe, hbelow⟩ := htop
  have hnode : Reaches (kids heap policy) root frame.node := by
    have hpath : s.sizes.get frame.node = some .onPath := (h.path _).mpr (by simp [hframes])
    exact h.reached _ (InsertionMap.mem_keys_iff.mpr ⟨_, hpath⟩)
  have hturned := s.turned policy patterns frame below
  generalize s.turn policy patterns frame below = result at hturned
  cases hturned with
  | @opened child hchild hget =>
    have hedge := hframe.child (List.mem_of_getElem? hchild)
    have hx : s.heap child = heap child := by rw [h.objects, hget]; rfl
    by_cases hrefused : Refused heap policy patterns child
    · obtain ⟨e, he⟩ := openDecoded_refused
        (s := { s with frames := { frame with next := frame.next + 1 } :: below })
        h.samePrototypes hx hrefused
      rw [he]
      exact fun hacc => hacc.allowed (hnode.tail hedge) hrefused
    · have hopen := openDecoded_allowed
        (s := { s with frames := { frame with next := frame.next + 1 } :: below })
        h.samePrototypes hx hrefused
      rw [hopen]
      exact h.push hframes hchild hget hrefused
  | @cycle child hchild hget =>
    have hedge := hframe.child (List.mem_of_getElem? hchild)
    have hmem := (h.path child).mp hget
    rw [hframes] at hmem
    refine fun hacc => hacc.treeLike.acyclic child (hnode.tail hedge) ?_
    rcases List.mem_cons.mp hmem with heq | hmem
    · rw [← heq] at hedge
      exact .single hedge
    · exact (hbelow.transGen hmem).tail hedge
  | shared hchild hget => exact h.share hframes hchild hget
  | root hend hnil => exact h.popRoot hframes hend hnil
  | left hend hcons => exact h.popLeft hframes hend hcons

theorem run_nil [Fintype ι] {s : Walk ι} (hframes : s.frames = []) :
    s.run policy patterns = s.finish := by
  unfold Walk.run
  split
  · rfl
  · next hcons => cases hframes.symm.trans hcons

theorem run_cons [Fintype ι] {s : Walk ι} {frame : Frame ι} {below : List (Frame ι)}
    (hframes : s.frames = frame :: below) :
    s.run policy patterns = match s.turn policy patterns frame below with
      | .error e => .thrown e s.heap
      | .ok s' => s'.run policy patterns := by
  conv_lhs => unfold Walk.run
  split
  · next hnil => cases hframes.symm.trans hnil
  · next hcons =>
    cases hframes.symm.trans hcons
    split
    · next hturn => rw [hturn]
    · next hturn => rw [hturn]

theorem Inv.run [Fintype ι] {s : Walk ι} (h : Inv heap policy patterns root s)
    (hfew : Fintype.card ι ≤ 2 ^ 52) :
    (s.run policy patterns).Sound heap policy patterns root := by
  revert h
  apply Walk.run.induct policy patterns fun s =>
    Inv heap policy patterns root s → (s.run policy patterns).Sound heap policy patterns root
  · intro s hframes h
    rw [run_nil hframes]
    exact h.finish hframes hfew
  · intro s frame below hframes e hturn h
    have hthrow := h.turn hframes
    rw [hturn] at hthrow
    rw [run_cons hframes, hturn]
    exact ⟨hthrow, h.changed⟩
  · intro s frame below hframes s' hturn ih h
    have hnext := h.turn hframes
    rw [hturn] at hnext
    rw [run_cons hframes, hturn]
    exact ih hnext

theorem Inv.start (hallowed : ¬Refused heap policy patterns root) :
    Inv heap policy patterns root
      { heap := Function.update heap root (cleaned heap policy root)
        sizes := InsertionMap.set ∅ root .onPath
        frames := [⟨root, kids heap policy root, 0, 1⟩]
        expanded := 0 } := by
  have hnone (x : ι) : InsertionMap.get (∅ : InsertionMap ι Mark) x = none := rfl
  have hkeys {x : ι} (hx : x ∈ (InsertionMap.set ∅ root Mark.onPath).keys) : x = root := by
    simpa [InsertionMap.mem_keys_iff, InsertionMap.get_set, hnone] using hx
  refine ⟨?_, ?_, ?_, ?_, List.nodup_singleton _, ?_, ?_⟩
  · intro x
    rw [InsertionMap.get_set]
    by_cases hx : x = root
    · subst hx
      simp
    · simp [hx, hnone]
  · rintro x hx
    obtain rfl := hkeys hx
    exact .refl
  · rintro x hx
    obtain rfl := hkeys hx
    exact hallowed
  · intro x
    simp [InsertionMap.get_set, hnone]
  · intro x d hx
    rw [InsertionMap.get_set] at hx
    split_ifs at hx
    · cases hx
    · cases (hnone x).symm.trans hx
  · exact ⟨⟨rfl, by simp, 0, .nil, Double.counts_one⟩, .root⟩

theorem guardDecodedValue_sound [Fintype ι] (objects : Objects ι) (root : ι)
    (policy : ProtoPoisoning) (patterns : Bool) :
    (guardDecodedValue objects (.object root) policy patterns).Sound objects.heap policy patterns
      root := by
  have hsame : SamePrototypes objects.heap objects.heap := fun _ => rfl
  unfold guardDecodedValue
  by_cases hrefused : Refused objects.heap policy patterns root
  · obtain ⟨e, he⟩ := openDecoded_refused (s := ⟨objects.heap, ∅, [], 0⟩) hsame rfl hrefused
    simp only [he]
    exact ⟨fun hacc => hacc.allowed .refl hrefused, fun x => Or.inl rfl⟩
  · have hopen := openDecoded_allowed (s := ⟨objects.heap, ∅, [], 0⟩) hsame rfl hrefused
    simp only [hopen]
    exact (Inv.start hrefused).run objects.few

/-- The guard returns on the graphs that it accepts and on no others, whatever their cycles; it
strips the objects that it reached, and changes nothing else. -/
theorem guardDecodedValue_spec [Fintype ι] (objects : Objects ι) (root : ι) (patterns : Bool) :
    ((∃ e heap', guardDecodedValue objects (.object root) .reject patterns = .thrown e heap') ↔
      (∃ x, Reaches (kids objects.heap .reject) root x ∧ (objects.heap x).IsPoisoned objects.heap) ∨
        (patterns = false ∧ ∃ x, Reaches (kids objects.heap .reject) root x ∧
          objects.heap x = .pattern) ∨ ¬TreeLike objects.heap .reject root) ∧
    (∀ policy, (∃ heap', guardDecodedValue objects (.object root) policy patterns =
        .returned heap') ↔ Accepted objects.heap policy patterns root) ∧
    (∀ policy heap', guardDecodedValue objects (.object root) policy patterns = .returned heap' →
      ∀ x, (policy = .strip ∧ Reaches (kids objects.heap .strip) root x →
          heap' x = (objects.heap x).strip objects.heap) ∧
        (¬(policy = .strip ∧ Reaches (kids objects.heap .strip) root x) →
          heap' x = objects.heap x)) ∧
    ∀ policy, guardDecodedValue objects .scalar policy patterns = .returned objects.heap := by
  have hreturns (policy : ProtoPoisoning) :
      (∃ heap', guardDecodedValue objects (.object root) policy patterns = .returned heap') ↔
        Accepted objects.heap policy patterns root := by
    have hsound := guardDecodedValue_sound objects root policy patterns
    cases houtcome : guardDecodedValue objects (.object root) policy patterns with
    | returned heap' =>
      rw [houtcome] at hsound
      exact ⟨fun _ => hsound.1, fun _ => ⟨heap', rfl⟩⟩
    | thrown e heap' =>
      rw [houtcome] at hsound
      refine ⟨?_, fun hacc => absurd hacc hsound.1⟩
      rintro ⟨_, ⟨⟩⟩
  refine ⟨?_, hreturns, ?_, fun _ => rfl⟩
  · have hthrows : (∃ e heap', guardDecodedValue objects (.object root) .reject patterns =
        .thrown e heap') ↔ ¬Accepted objects.heap .reject patterns root := by
      rw [← hreturns .reject]
      cases guardDecodedValue objects (.object root) .reject patterns <;> simp
    rw [hthrows]
    constructor
    · rintro hnot
      by_contra hother
      simp only [not_or, not_exists, not_and, not_not] at hother
      obtain ⟨hpoison, hpattern, htree⟩ := hother
      refine hnot ⟨fun _ => hpoison, ?_, htree⟩
      cases patterns with
      | true => exact Or.inl rfl
      | false => exact Or.inr (hpattern rfl)
    · rintro (⟨x, hx, hpoison⟩ | ⟨rfl, x, hx, hpattern⟩ | htree) hacc
      · exact hacc.unpoisoned rfl x hx hpoison
      · exact hacc.plain.elim (by simp) fun hplain => hplain x hx hpattern
      · exact htree hacc.treeLike
  · rintro policy heap' houtcome x
    have hsound := guardDecodedValue_sound objects root policy patterns
    rw [houtcome] at hsound
    obtain ⟨hin, hout⟩ := hsound.2 x
    constructor
    · rintro ⟨rfl, hx⟩
      exact hin hx
    · rintro hnot
      by_cases hx : Reaches (kids objects.heap policy) root x
      · have hpolicy : policy ≠ .strip := by
          rintro rfl
          exact hnot ⟨rfl, hx⟩
        exact (hin hx).trans (if_neg hpolicy)
      · exact hout hx

/-- A pattern is refused even where the graph has no cycle and shares nothing. -/
theorem guardDecodedValue_pattern :
    ∃ objects : Objects Unit, TreeLike objects.heap .ignore () ∧
      ¬∃ heap', guardDecodedValue objects (.object ()) .ignore false = .returned heap' := by
  have htree : TreeSize (kids (fun _ : Unit => .pattern) .ignore) () 1 := ⟨0, .nil, rfl⟩
  refine ⟨⟨fun _ => .pattern, by decide⟩, ⟨fun x hx => htree.acyclic hx, 1, htree, ?_⟩, ?_⟩
  · exact (by decide : 1 ≤ maxSharedExpansion).trans (Nat.le_add_left ..)
  · rintro ⟨heap', ⟨⟩⟩

end Nifra.ProtoGuard
