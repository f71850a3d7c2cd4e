import Nifra.Lib.Conditions
import Nifra.Lib.Slices
import Nifra.Lib.StableSort
import Nifra.Ppr.ScriptJSON
import Nifra.Router.MixedMatch

/-! # Hole frames and fallbacks

A frame carries the outcome of a hole in an inert script element, and is read back from it. A shell
holds the host of every hole, empty, and the fallbacks are inserted into the hosts.
-/

namespace Nifra.Ppr

open JSON Search

inductive FrameError
  | typeError (message : JSString)
  | rangeError (message : JSString)
  deriving DecidableEq, Repr

def isLowerAlnum (c : ℕ) : Bool := decide (97 ≤ c ∧ c < 123 ∨ 48 ≤ c ∧ c < 58)

/-- `(?:-?[a-z0-9])*$` -/
def isHoleTail : JSString → Bool
  | [] => true
  | [c] => isLowerAlnum c
  | c :: d :: rest =>
    if c = 45 then isLowerAlnum d && isHoleTail rest else isLowerAlnum c && isHoleTail (d :: rest)

def isHoleName : JSString → Bool
  | [] => false
  | c :: rest => decide (rest.length < 32) && decide (97 ≤ c ∧ c < 123) && isHoleTail rest

/-- The values are JSON, as they are after `toJSON`. -/
inductive HoleOutcome
  | rendered (html : JSString) (props component : Option Value)
  | failed (html : JSString)
  deriving Repr

def HoleOutcome.body : HoleOutcome → Value
  | .failed html =>
    .object [(js "v", .number (decimal 1)), (js "error", .bool true), (js "html", .string html)]
  | .rendered html _ (some component) =>
    .object [(js "v", .number (decimal 1)), (js "html", .string html), (js "component", component)]
  | .rendered html none none =>
    .object [(js "v", .number (decimal 1)), (js "html", .string html)]
  | .rendered html (some props) none =>
    .object [(js "v", .number (decimal 1)), (js "html", .string html), (js "props", props)]

def holeInvoker (name : JSString) : JSString := js "__nifraPpr(" ++ ofString name ++ js ")"

def openingTag (name : JSString) : JSString :=
  js "<script type=\"application/json\" id=\"nifra-ppr:" ++ name ++ js "\">"

def holeFrame (name : JSString) (outcome : HoleOutcome) : JSString :=
  openingTag name ++ scriptJson outcome.body ++ js "</script>" ++
    (js "<script>" ++ holeInvoker name ++ js "</script>")

/-- `n > maxBytes`, with no bound for `Number.POSITIVE_INFINITY`. -/
def exceeds (n : ℕ) (maxBytes : Option ℕ) : Bool := maxBytes.any (· < n)

def encodeHoleFrame (name : JSString) (outcome : HoleOutcome) (maxBytes : Option ℕ) :
    Except FrameError JSString :=
  let frame := holeFrame name outcome
  if exceeds frame.length maxBytes ∨
      exceeds (frame.length * 3) maxBytes ∧ exceeds (encodeUtf8 frame).length maxBytes then
    .error (.rangeError (js "[nifra/web] ppr: hole \"" ++ name ++ js "\" frame exceeds " ++
      maxBytes.elim (js "Infinity") decimal ++ js " bytes"))
  else .ok frame

def frameBodyOf (frame : JSString) : Option Value :=
  let start := (Router.indexOf (js ">") frame 0).elim 0 (· + 1)
  let stop := (Router.indexOf (js "</script>") frame start).getD (frame.length - 1)
  parse (frame.slice start stop)

def host : JSString := js "data-nifra-hole=\""

structure Insert where
  place : ℕ
  html : JSString
  deriving DecidableEq, Repr

/-- The hosts found so far, each as the place after its name's closing quote; `some none` where the
source has `-1`. -/
abbrev Hosts := JSString → Option (Option ℕ)

def recordHost (names : List JSString) (hosts : Hosts) (name : JSString) (after : ℕ) : Hosts :=
  if name ∈ names then
    Function.update hosts name (some (if (hosts name).isSome then none else some after))
  else hosts

/-- The loop over the occurrences of `HOST`, so many times at most. -/
def hostsFrom (names : List JSString) (shell : JSString) : ℕ → ℕ → Hosts → Hosts
  | 0, _, hosts => hosts
  | turns + 1, place, hosts =>
    match Router.indexOf host shell place with
    | none => hosts
    | some found =>
      match Router.indexOf (js "\"") shell (found + host.length) with
      | none => hosts
      | some stop =>
        hostsFrom names shell turns (found + host.length)
          (recordHost names hosts (shell.slice (found + host.length) stop) (stop + 1))

def fallbackInsert (shell : JSString) (hosts : Hosts) (fallback : JSString × JSString) :
    Except FrameError Insert :=
  let hole := js "[nifra/web] ppr: hole \"" ++ fallback.1
  match hosts fallback.1 with
  | none => .error (.typeError (hole ++ js "\" has no host in the shell"))
  | some none => .error (.typeError (hole ++ js "\" has more than one host in the shell"))
  | some (some after) =>
    match Router.indexOf (js ">") shell after with
    | none => .error (.typeError (hole ++ js "\"'s host must render empty"))
    | some close =>
      if (js "</").isPrefixOf (shell.drop (close + 1)) then .ok ⟨close + 1, fallback.2⟩
      else .error (.typeError (hole ++ js "\"'s host must render empty"))

def holeFallbackInserts (shell : JSString) (fallbacks : List (JSString × JSString)) :
    Except FrameError (List Insert) := do
  let hosts := hostsFrom (fallbacks.map Prod.fst) shell shell.length 0 fun _ => none
  let inserts ← fallbacks.mapM (fallbackInsert shell hosts)
  pure (inserts.sortOn Insert.place)

/-- One turn of the loop of `injectHoleFallbacks`, on `out` and `from`. -/
def weaveInsert (shell : JSString) (state : JSString × ℕ) (insert : Insert) : JSString × ℕ :=
  (state.1 ++ shell.slice state.2 insert.place ++ insert.html, insert.place)

def weave (shell : JSString) (inserts : List Insert) : JSString :=
  let state := inserts.foldl (weaveInsert shell) ([], 0)
  state.1 ++ shell.drop state.2

def injectHoleFallbacks (shell : JSString) (fallbacks : List (JSString × JSString)) :
    Except FrameError JSString := do
  let inserts ← holeFallbackInserts shell fallbacks
  pure (weave shell inserts)

theorem indexOf_eq_some_iff {pattern text : JSString} {start i : ℕ} :
    Router.indexOf pattern text start = some i ↔ start ≤ i ∧ OccursAt pattern text i ∧
      ∀ j, start ≤ j → j < i → ¬ OccursAt pattern text j := by
  constructor
  · intro h
    obtain ⟨hle, hocc⟩ := Router.indexOf_spec h
    refine ⟨hle, hocc, fun j hj hji hoccj => ?_⟩
    obtain ⟨k, hk, heq⟩ := Router.exists_indexOf hj hoccj
    rw [h] at heq
    have := Option.some.inj heq
    omega
  · rintro ⟨hle, hocc, hfirst⟩
    obtain ⟨k, hk, heq⟩ := Router.exists_indexOf hle hocc
    obtain ⟨hstart, hocck⟩ := Router.indexOf_spec heq
    obtain rfl | hlt := Nat.eq_or_lt_of_le hk
    · exact heq
    · exact absurd hocck (hfirst k hstart hlt)

theorem indexOf_eq_none_iff {pattern text : JSString} {start : ℕ} :
    Router.indexOf pattern text start = none ↔ ∀ j, start ≤ j → ¬ OccursAt pattern text j := by
  constructor
  · intro h j hj hocc
    obtain ⟨k, -, heq⟩ := Router.exists_indexOf hj hocc
    rw [h] at heq
    cases heq
  · intro h
    cases heq : Router.indexOf pattern text start with
    | none => rfl
    | some i =>
      obtain ⟨hle, hocc⟩ := Router.indexOf_spec heq
      exact absurd hocc (h i hle)

theorem occursAt_append_iff {pattern front text : JSString} {i : ℕ} :
    OccursAt pattern (front ++ text) (front.length + i) ↔ OccursAt pattern text i := by
  rw [OccursAt, List.drop_append, OccursAt, Nat.add_sub_cancel_left,
    List.drop_eq_nil_of_le (Nat.le_add_right _ i), List.nil_append]

theorem lowerAlnum_of_isHoleTail {rest : JSString} (h : isHoleTail rest = true) :
    ∀ c ∈ rest, isLowerAlnum c = true ∨ c = 45 := by
  induction rest using isHoleTail.induct with
  | case1 => exact nofun
  | case2 c =>
    rintro d (_ | ⟨_, ⟨⟩⟩)
    exact Or.inl h
  | case3 d rest ih =>
    rw [isHoleTail, if_pos rfl, Bool.and_eq_true] at h
    rintro e (_ | ⟨_, _ | ⟨_, he⟩⟩)
    · exact Or.inr rfl
    · exact Or.inl h.1
    · exact ih h.2 e he
  | case4 c d rest hdash ih =>
    rw [isHoleTail, if_neg hdash, Bool.and_eq_true] at h
    rintro e (_ | ⟨_, he⟩)
    · exact Or.inl h.1
    · exact ih h.2 e he

theorem ascii_of_isHoleName {name : JSString} (h : isHoleName name = true) :
    ∀ c ∈ name, 45 ≤ c ∧ c < 123 ∧ c ≠ 62 := by
  cases name with
  | nil => exact nofun
  | cons c rest =>
    simp only [isHoleName, Bool.and_eq_true, decide_eq_true_eq] at h
    rintro d (_ | ⟨_, hd⟩)
    · omega
    · rcases lowerAlnum_of_isHoleTail h.2 d hd with hd | rfl
      · have := of_decide_eq_true hd
        omega
      · omega

/-- The strings of the outcome are sequences of code units, and its values are JSON. -/
structure HoleOutcome.Valid (outcome : HoleOutcome) : Prop where
  printed : Printed outcome.body
  units : Units outcome.body.texts

/-- The JSON of a frame can neither end its element nor open a comment, and is read back. -/
structure Inert (name : JSString) (outcome : HoleOutcome) (frame json : JSString) : Prop where
  text : frame = openingTag name ++ json ++ js "</script>" ++
    (js "<script>" ++ holeInvoker name ++ js "</script>")
  closing : ¬ js "</" <:+: json
  comment : ¬ js "<!--" <:+: json
  first : Router.indexOf (js "</script>") frame (openingTag name).length =
    some (openingTag name ++ json).length
  parsed : parse json = some outcome.body
  read : frameBodyOf frame = some outcome.body

theorem occursAt_length (pattern front rest : JSString) :
    OccursAt pattern (front ++ (pattern ++ rest)) front.length := by
  rw [OccursAt, List.drop_left]
  exact List.prefix_append pattern rest

theorem indexOf_openingTag {name : JSString} (hname : isHoleName name = true) (rest : JSString) :
    (Router.indexOf (js ">") (openingTag name ++ rest) 0).elim 0 (· + 1) =
      (openingTag name).length := by
  have hopening : openingTag name =
      js "<script type=\"application/json\" id=\"nifra-ppr:" ++ name ++ js "\"" ++ [62] := by
    rw [openingTag, List.append_assoc (_ ++ _)]
    rfl
  have hfront : 62 ∉ js "<script type=\"application/json\" id=\"nifra-ppr:" ++ name ++ js "\"" := by
    rw [List.mem_append, List.mem_append, not_or, not_or]
    exact ⟨⟨by decide, fun hmem => (ascii_of_isHoleName hname 62 hmem).2.2 rfl⟩, by decide⟩
  rw [hopening]
  generalize js "<script type=\"application/json\" id=\"nifra-ppr:" ++ name ++ js "\"" = front at *
  have hindex : Router.indexOf (js ">") (front ++ [62] ++ rest) 0 = some front.length := by
    rw [indexOf_eq_some_iff, List.append_assoc]
    refine ⟨Nat.zero_le _, occursAt_length [62] front rest, fun j _ hj hocc => hfront ?_⟩
    rw [OccursAt, List.drop_append_of_le_length hj.le, List.drop_eq_getElem_cons hj,
      List.cons_append] at hocc
    have hget : 62 = front[j] := (List.cons_prefix_cons.mp hocc).1
    exact hget ▸ List.getElem_mem hj
  rw [hindex, List.length_append]
  rfl

theorem not_occursAt_closing {json : JSString} (h : ¬ js "</" <:+: json) (rest : JSString) {i : ℕ}
    (hi : i < json.length) : ¬ OccursAt (js "</script>") (json ++ (js "</script>" ++ rest)) i := by
  have hclosing : js "</script>" = 60 :: 47 :: js "script>" := by decide
  rw [OccursAt, List.drop_append_of_le_length hi.le, List.drop_eq_getElem_cons hi, hclosing,
    List.cons_append, List.cons_prefix_cons]
  rintro ⟨hopen, hrest⟩
  rcases hdrop : json.drop (i + 1) with _ | ⟨d, tail⟩
  · rw [hdrop, List.nil_append, List.cons_append, List.cons_prefix_cons] at hrest
    exact absurd hrest.1 (by decide)
  · rw [hdrop, List.cons_append, List.cons_prefix_cons] at hrest
    refine h ⟨json.take i, tail, ?_⟩
    have hsplit : json = json.take i ++ json[i] :: d :: tail := by
      rw [← hdrop, ← List.drop_eq_getElem_cons hi, List.take_append_drop]
    have hpair : js "</" = [60, 47] := by decide
    rw [hpair, hrest.1, hopen, List.append_assoc]
    exact hsplit.symm

theorem length_utf8 {c : ℕ} (h : c < 0x10000) : 1 ≤ (utf8 c).length ∧ (utf8 c).length ≤ 3 := by
  unfold utf8
  split_ifs <;> simp

theorem length_encodeUtf8 {s : JSString} (h : ∀ c ∈ s, c < 0x10000) :
    s.length ≤ (encodeUtf8 s).length ∧ (encodeUtf8 s).length ≤ s.length * 3 := by
  have hscalar {c : ℕ} (hc : c < 0x10000) : unitScalar c < 0x10000 := by
    unfold unitScalar
    split_ifs
    · exact hc
    · decide
  induction s using characters.induct with
  | case1 => exact ⟨le_rfl, le_rfl⟩
  | case2 c =>
    have hc := length_utf8 (hscalar (h c List.mem_cons_self))
    simpa [encodeUtf8, characters, scalarOf] using hc
  | case3 c d rest hpair ih =>
    obtain ⟨hle, hge⟩ := ih fun e he => h e (by simp [he])
    have hlength : (utf8 (pairScalar c d)).length = 4 := by
      unfold utf8 pairScalar
      rw [if_neg (by omega), if_neg (by omega), if_neg (by omega)]
      rfl
    rw [encodeUtf8, characters, if_pos hpair, List.flatMap_cons, ← encodeUtf8, List.length_append,
      scalarOf, hlength, List.length_cons, List.length_cons]
    omega
  | case4 c d rest hpair ih =>
    obtain ⟨hle, hge⟩ := ih fun e he => h e (List.mem_cons_of_mem c he)
    have hc := length_utf8 (hscalar (h c List.mem_cons_self))
    rw [encodeUtf8, characters, if_neg hpair, List.flatMap_cons, ← encodeUtf8, List.length_append,
      scalarOf, List.length_cons]
    omega

theorem unit_lt_of_wellFormed {s : JSString} (h : WellFormed s) : ∀ c ∈ s, c < 0x10000 := by
  obtain ⟨ps, hps⟩ := Option.isSome_iff_exists.mp h
  obtain ⟨rfl, hscalars⟩ := codePoints_scalar_units hps
  intro c hc
  obtain ⟨p, hp, hmem⟩ := List.mem_flatMap.mp hc
  have hscalar := hscalars p hp
  unfold JSString.utf16 at hmem
  unfold IsScalar at hscalar
  split_ifs at hmem with hlt
  · obtain rfl := List.mem_singleton.mp hmem
    exact hlt
  · simp only [List.mem_cons, List.not_mem_nil, or_false] at hmem
    omega

theorem unit_lt_holeFrame {name : JSString} {outcome : HoleOutcome} (hname : isHoleName name = true)
    (h : outcome.Valid) : ∀ c ∈ holeFrame name outcome, c < 0x10000 := by
  have hnames : ∀ c ∈ name, c < 0x10000 := fun c hc => by
    have := ascii_of_isHoleName hname c hc
    omega
  have hjson : ∀ c ∈ scriptJson outcome.body, c < 0x10000 := by
    intro c hc
    rcases mem_escapeScript hc with hc | hc | hc
    · exact unit_lt_of_wellFormed (wellFormed_stringify h.printed h.units) c hc
    · exact (by decide : ∀ c ∈ js "<\\/", c < 0x10000) c hc
    · exact (by decide : ∀ c ∈ js "<\\u0021--", c < 0x10000) c hc
  have hquoted := unit_lt_of_wellFormed (wellFormed_ofString hnames)
  have hplain : ∀ text ∈ [js "<script type=\"application/json\" id=\"nifra-ppr:", js "\">",
      js "</script>", js "<script>", js "__nifraPpr(", js ")"], ∀ c ∈ text, c < 0x10000 := by
    decide
  simp only [List.forall_mem_cons] at hplain
  obtain ⟨h₁, h₂, h₃, h₄, h₅, h₆, -⟩ := hplain
  simp only [holeFrame, openingTag, holeInvoker, List.forall_mem_append]
  exact ⟨⟨⟨⟨⟨h₁, hnames⟩, h₂⟩, hjson⟩, h₃⟩, ⟨h₄, ⟨h₅, hquoted⟩, h₆⟩, h₃⟩

theorem inert_holeFrame {name : JSString} {outcome : HoleOutcome}
    (hname : isHoleName name = true) (h : outcome.Valid) :
    Inert name outcome (holeFrame name outcome) (scriptJson outcome.body) := by
  have hinert : ¬ js "</" <:+: scriptJson outcome.body ∧ ¬ js "<!--" <:+: scriptJson outcome.body :=
    escapeScript_inert outcome.body.stringify
  have hfirst : Router.indexOf (js "</script>") (holeFrame name outcome) (openingTag name).length =
      some (openingTag name ++ scriptJson outcome.body).length := by
    rw [indexOf_eq_some_iff, holeFrame, List.append_assoc (_ ++ _)]
    refine ⟨by simp, occursAt_length _ _ _, fun j hj hlt => ?_⟩
    obtain ⟨i, rfl⟩ := Nat.exists_eq_add_of_le hj
    rw [List.length_append] at hlt
    rw [List.append_assoc, occursAt_append_iff]
    exact not_occursAt_closing hinert.1 _ (by omega)
  have hparsed := parse_scriptJson h.printed
  refine ⟨rfl, hinert.1, hinert.2, hfirst, hparsed, ?_⟩
  have hstart : (Router.indexOf (js ">") (holeFrame name outcome) 0).elim 0 (· + 1) =
      (openingTag name).length := by
    rw [holeFrame, List.append_assoc, List.append_assoc]
    exact indexOf_openingTag hname _
  rw [frameBodyOf, hstart]
  simp only [hfirst, Option.getD_some]
  rw [List.slice, holeFrame, List.append_assoc, List.append_assoc, List.drop_left,
    List.length_append, Nat.add_sub_cancel_left, List.take_left]
  exact hparsed

theorem exceeds_of_le {m n : ℕ} {maxBytes : Option ℕ} (h : m ≤ n) (hm : exceeds m maxBytes = true) :
    exceeds n maxBytes = true := by
  cases maxBytes with
  | none => cases hm
  | some bound => exact decide_eq_true ((of_decide_eq_true hm).trans_le h)

theorem exceeds_frame_iff {name : JSString} {outcome : HoleOutcome} (maxBytes : Option ℕ)
    (hname : isHoleName name = true) (h : outcome.Valid) :
    (exceeds (holeFrame name outcome).length maxBytes ∨
      exceeds ((holeFrame name outcome).length * 3) maxBytes ∧
        exceeds (encodeUtf8 (holeFrame name outcome)).length maxBytes) ↔
      exceeds (encodeUtf8 (holeFrame name outcome)).length maxBytes := by
  obtain ⟨hle, hge⟩ := length_encodeUtf8 (unit_lt_holeFrame hname h)
  constructor
  · rintro (hlength | ⟨-, hoctets⟩)
    · exact exceeds_of_le hle hlength
    · exact hoctets
  · exact fun hoctets => Or.inr ⟨exceeds_of_le hge hoctets, hoctets⟩

def HostAt (shell name : JSString) (i : ℕ) : Prop :=
  34 ∉ name ∧ OccursAt (host ++ (name ++ [34])) shell i

def afterHost (name : JSString) (i : ℕ) : ℕ := i + host.length + (name.length + 1)

def Tells (name : JSString) (P : ℕ → Prop) : Option (Option ℕ) → Prop
  | none => ∀ i, ¬ P i
  | some (some after) => ∃ i, P i ∧ after = afterHost name i ∧ ∀ j, P j → j = i
  | some none => ∃ i j, P i ∧ P j ∧ i ≠ j

theorem Tells.congr {name : JSString} {P Q : ℕ → Prop} {o : Option (Option ℕ)} (h : Tells name P o)
    (hPQ : ∀ i, Q i ↔ P i) : Tells name Q o := by
  have heq : Q = P := funext fun i => propext (hPQ i)
  rw [heq]
  exact h

theorem Tells.record {name : JSString} {P : ℕ → Prop} {o : Option (Option ℕ)} {i : ℕ}
    (h : Tells name P o) (hi : ¬ P i) :
    Tells name (fun j => P j ∨ j = i)
      (some (if o.isSome then none else some (afterHost name i))) := by
  rcases o with _ | _ | after
  · exact ⟨i, Or.inr rfl, rfl, fun j hj => hj.resolve_left (h j)⟩
  · obtain ⟨j, k, hj, hk, hne⟩ := h
    exact ⟨j, k, Or.inl hj, Or.inl hk, hne⟩
  · obtain ⟨j, hj, -, -⟩ := h
    refine ⟨j, i, Or.inl hj, Or.inr rfl, ?_⟩
    rintro rfl
    exact hi hj

theorem OccursAt.getElem? {pattern text : JSString} {i d : ℕ} (h : Search.OccursAt pattern text i)
    (hd : d < pattern.length) : text[i + d]? = pattern[d]? := by
  obtain ⟨rest, hrest⟩ := h
  rw [← List.getElem?_drop, ← hrest, List.getElem?_append_left hd]

theorem host_disjoint {shell : JSString} {i j : ℕ} (hi : OccursAt host shell i)
    (hj : OccursAt host shell j) (hij : i < j) : i + host.length ≤ j := by
  by_contra hlt
  obtain ⟨d, rfl⟩ := Nat.exists_eq_add_of_lt hij
  have hd : d + 1 < host.length := by omega
  have hfirst := OccursAt.getElem? hj (d := 0) (by decide)
  have hinner := OccursAt.getElem? hi hd
  have hnone : ∀ d < host.length - 1, host[d + 1]? ≠ host[0]? := by decide
  refine hnone d (by omega) ?_
  rw [← hinner, ← hfirst]
  rfl

theorem HostAt.occursAt {shell name : JSString} {i : ℕ} (h : HostAt shell name i) :
    OccursAt host shell i := (List.prefix_append _ _).trans h.2

theorem drop_of_occursAt {pattern text : JSString} {i : ℕ} (h : OccursAt pattern text i) :
    text.drop i = pattern ++ text.drop (i + pattern.length) := by
  obtain ⟨rest, hrest⟩ := h
  rw [← List.drop_drop, ← hrest, List.drop_left]

theorem take_firstIndexOf {c k : ℕ} {text name : JSString}
    (h : Router.firstIndexOf [c] text = some k) :
    (c ∉ name ∧ name ++ [c] <+: text) ↔ text.take k = name := by
  induction text generalizing k name with
  | nil => cases h
  | cons d text ih =>
    rw [Router.firstIndexOf] at h
    split_ifs at h with hprefix
    · obtain rfl := Option.some.inj h
      obtain ⟨rfl, -⟩ := List.cons_prefix_cons.mp (List.isPrefixOf_iff_prefix.mp hprefix)
      rw [List.take_zero]
      constructor
      · rintro ⟨hc, hname⟩
        cases name with
        | nil => rfl
        | cons e name =>
          rw [(List.cons_prefix_cons.mp hname).1] at hc
          exact absurd List.mem_cons_self hc
      · rintro rfl
        exact ⟨List.not_mem_nil, List.isPrefixOf_iff_prefix.mp hprefix⟩
    · obtain ⟨k, hk, rfl⟩ := Option.map_eq_some_iff.mp h
      have hne : c ≠ d := by
        rintro rfl
        exact hprefix (List.isPrefixOf_iff_prefix.mpr
          (List.cons_prefix_cons.mpr ⟨rfl, List.nil_prefix⟩))
      rw [List.take_succ_cons]
      cases name with
      | nil => simp [hne]
      | cons e name =>
        rw [List.mem_cons, not_or, List.cons_append, List.cons_prefix_cons, List.cons.injEq,
          ← ih hk]
        constructor
        · rintro ⟨⟨-, hc⟩, rfl, hname⟩
          exact ⟨rfl, hc, hname⟩
        · rintro ⟨rfl, hc, hname⟩
          exact ⟨⟨hne, hc⟩, rfl, hname⟩

theorem hostAt_iff {shell : JSString} {i stop : ℕ} (hi : OccursAt host shell i)
    (hstop : Router.indexOf (js "\"") shell (i + host.length) = some stop) (name : JSString) :
    HostAt shell name i ↔ shell.slice (i + host.length) stop = name := by
  obtain ⟨k, hk, rfl⟩ := Option.map_eq_some_iff.mp hstop
  rw [HostAt, OccursAt, drop_of_occursAt hi, List.prefix_append_right_inj, List.slice,
    Nat.add_sub_cancel_left]
  exact take_firstIndexOf hk

theorem HostAt.quote {shell name : JSString} {i : ℕ} (h : HostAt shell name i) :
    OccursAt (js "\"") shell (i + host.length + name.length) := by
  obtain ⟨rest, hrest⟩ := h.2
  have hquote : shell.drop (i + host.length + name.length) = 34 :: rest := by
    have hlength : i + host.length + name.length = i + (host ++ name).length := by
      rw [List.length_append]
      omega
    rw [hlength, ← List.drop_drop, ← hrest, ← List.append_assoc, List.append_assoc (host ++ name),
      List.drop_left]
    rfl
  rw [OccursAt, hquote]
  exact List.cons_prefix_cons.mpr ⟨rfl, List.nil_prefix⟩

theorem hostAt_before {shell name : JSString} {place found i : ℕ}
    (hfound : Router.indexOf host shell place = some found) (h : HostAt shell name i) :
    i < found + host.length ↔ i < place ∨ i = found := by
  obtain ⟨hle, hocc, hfirst⟩ := indexOf_eq_some_iff.mp hfound
  have hpos : 0 < host.length := by decide
  constructor
  · intro hlt
    rcases Nat.lt_or_ge i place with hbefore | hge
    · exact Or.inl hbefore
    · rcases Nat.lt_trichotomy i found with hbefore | rfl | hafter
      · exact absurd h.occursAt (hfirst i hge hbefore)
      · exact Or.inr rfl
      · have := host_disjoint hocc h.occursAt hafter
        omega
  · omega

theorem HostAt.lt_length {shell name : JSString} {i : ℕ} (h : HostAt shell name i) :
    i < shell.length := by
  have hle := h.occursAt.add_length_le (by decide)
  have hpos : 0 < host.length := by decide
  omega

theorem Tells.all {shell name : JSString} {place : ℕ} {o : Option (Option ℕ)}
    (h : Tells name (fun i => i < place ∧ HostAt shell name i) o)
    (hnone : ∀ i, place ≤ i → ¬ HostAt shell name i) : Tells name (HostAt shell name) o :=
  h.congr fun i => ⟨fun hi => ⟨Nat.lt_of_not_le fun hle => hnone i hle hi, hi⟩, And.right⟩

theorem tells_recordHost {names : List JSString} {shell : JSString} {place found stop : ℕ}
    {hosts : Hosts} (hfound : Router.indexOf host shell place = some found)
    (hquote : Router.indexOf (js "\"") shell (found + host.length) = some stop) {name : JSString}
    (hname : name ∈ names)
    (h : Tells name (fun i => i < place ∧ HostAt shell name i) (hosts name)) :
    Tells name (fun i => i < found + host.length ∧ HostAt shell name i)
      (recordHost names hosts (shell.slice (found + host.length) stop) (stop + 1) name) := by
  obtain ⟨hle, hocc, -⟩ := indexOf_eq_some_iff.mp hfound
  have hslice := hostAt_iff hocc hquote name
  have hbefore (i : ℕ) : i < found + host.length ∧ HostAt shell name i ↔
      (i < place ∨ i = found) ∧ HostAt shell name i :=
    and_congr_left fun hi => hostAt_before hfound hi
  by_cases hhost : HostAt shell name found
  · have heq := hslice.mp hhost
    have hstop : stop + 1 = afterHost name found := by
      have hstart := (indexOf_eq_some_iff.mp hquote).1
      have hlast := (indexOf_eq_some_iff.mp hquote).2.1.add_length_le (by decide)
      have hone : (js "\"").length = 1 := by decide
      have hlength := congrArg List.length heq
      rw [List.length_slice (by omega)] at hlength
      rw [afterHost, ← hlength]
      omega
    rw [recordHost, heq, if_pos hname, Function.update_self, hstop]
    refine (h.record (i := found) (by omega)).congr fun i => ?_
    rw [hbefore]
    constructor
    · rintro ⟨hi | rfl, hi'⟩
      · exact Or.inl ⟨hi, hi'⟩
      · exact Or.inr rfl
    · rintro (⟨hi, hi'⟩ | rfl)
      · exact ⟨Or.inl hi, hi'⟩
      · exact ⟨Or.inr rfl, hhost⟩
  · have hkeep : recordHost names hosts (shell.slice (found + host.length) stop) (stop + 1) name =
        hosts name := by
      unfold recordHost
      by_cases hknown : shell.slice (found + host.length) stop ∈ names
      · rw [if_pos hknown]
        exact Function.update_of_ne (fun heq => hhost (hslice.mpr heq.symm)) _ _
      · rw [if_neg hknown]
    rw [hkeep]
    refine h.congr fun i => ?_
    rw [hbefore]
    constructor
    · rintro ⟨hi | rfl, hi'⟩
      · exact ⟨hi, hi'⟩
      · exact absurd hi' hhost
    · exact fun ⟨hi, hi'⟩ => ⟨Or.inl hi, hi'⟩

theorem hostsFrom_spec {names : List JSString} {shell : JSString} {turns place : ℕ} {hosts : Hosts}
    (hturns : shell.length ≤ place + turns) {name : JSString} (hname : name ∈ names)
    (h : Tells name (fun i => i < place ∧ HostAt shell name i) (hosts name)) :
    Tells name (HostAt shell name) (hostsFrom names shell turns place hosts name) := by
  induction turns generalizing place hosts with
  | zero =>
    refine h.all fun i hle hhost => ?_
    have hlt := hhost.lt_length
    omega
  | succ turns ih =>
    rw [hostsFrom]
    cases hfound : Router.indexOf host shell place with
    | none => exact h.all fun i hle hhost => indexOf_eq_none_iff.mp hfound i hle hhost.occursAt
    | some found =>
      obtain ⟨hle, -, hfirst⟩ := indexOf_eq_some_iff.mp hfound
      cases hquote : Router.indexOf (js "\"") shell (found + host.length) with
      | none =>
        simp only [hquote]
        refine h.all fun i hplace hhost => indexOf_eq_none_iff.mp hquote _ ?_ hhost.quote
        rcases Nat.lt_or_ge i found with hlt | hge
        · exact absurd hhost.occursAt (hfirst i hplace hlt)
        · omega
      | some stop =>
        have hpos : 0 < host.length := by decide
        simp only [hquote]
        exact ih (by omega) (tells_recordHost hfound hquote hname h)

inductive Woven (shell : JSString) : ℕ → List Insert → JSString → Prop
  | done (start : ℕ) : Woven shell start [] (shell.drop start)
  | insert {start : ℕ} {insert : Insert} {inserts : List Insert} {out : JSString}
      (hle : start ≤ insert.place) (hlength : insert.place ≤ shell.length)
      (h : Woven shell insert.place inserts out) :
      Woven shell start (insert :: inserts) (shell.slice start insert.place ++ insert.html ++ out)

theorem Woven.unique {shell : JSString} {start : ℕ} {inserts : List Insert} {out out' : JSString}
    (h : Woven shell start inserts out) (h' : Woven shell start inserts out') : out = out' := by
  induction h generalizing out' with
  | done =>
    cases h'
    rfl
  | insert _ _ _ ih =>
    cases h' with
    | insert _ _ h' => rw [ih h']

theorem foldl_woven {shell : JSString} {start : ℕ} {inserts : List Insert} (out : JSString)
    (hsorted : inserts.Pairwise fun a b => a.place ≤ b.place)
    (hle : ∀ insert ∈ inserts, start ≤ insert.place ∧ insert.place ≤ shell.length) :
    ∃ rest, Woven shell start inserts rest ∧
      (inserts.foldl (weaveInsert shell) (out, start)).1 ++
        shell.drop (inserts.foldl (weaveInsert shell) (out, start)).2 = out ++ rest := by
  induction inserts generalizing start out with
  | nil => exact ⟨_, .done start, rfl⟩
  | cons insert inserts ih =>
    rw [List.pairwise_cons] at hsorted
    rw [List.forall_mem_cons] at hle
    obtain ⟨rest, hrest, heq⟩ := ih (out ++ shell.slice start insert.place ++ insert.html)
      hsorted.2 fun other hother => ⟨hsorted.1 other hother, (hle.2 other hother).2⟩
    refine ⟨_, .insert hle.1.1 hle.1.2 hrest, ?_⟩
    rw [List.foldl_cons, weaveInsert, heq]
    simp only [List.append_assoc]

theorem woven_weave {shell : JSString} {inserts : List Insert}
    (hsorted : inserts.Pairwise fun a b => a.place ≤ b.place)
    (hle : ∀ insert ∈ inserts, insert.place ≤ shell.length) :
    Woven shell 0 inserts (weave shell inserts) := by
  obtain ⟨rest, hrest, heq⟩ := foldl_woven [] hsorted fun insert hinsert =>
    ⟨Nat.zero_le _, hle insert hinsert⟩
  rw [weave, heq]
  exact hrest

/-- The name has one host, and its tag is closed, at this place, in front of an end tag. -/
def EmptyHost (shell name : JSString) (place : ℕ) : Prop :=
  ∃ i, HostAt shell name i ∧ (∀ j, HostAt shell name j → j = i) ∧
    ∃ attributes, 62 ∉ attributes ∧ OccursAt (attributes ++ js "></") shell (afterHost name i) ∧
      place = afterHost name i + attributes.length + 1

theorem EmptyHost.le_length {shell name : JSString} {place : ℕ} (h : EmptyHost shell name place) :
    place ≤ shell.length := by
  obtain ⟨i, -, -, attributes, -, hocc, rfl⟩ := h
  have hthree : (js "></").length = 3 := by decide
  have hne : attributes ++ js "></" ≠ [] := by
    intro hnil
    have := congrArg List.length hnil
    rw [List.length_append, hthree] at this
    exact absurd this (by simp)
  have hle := hocc.add_length_le hne
  rw [List.length_append, hthree] at hle
  omega

theorem closes_iff {shell : JSString} {after place : ℕ} :
    (∃ close, Router.indexOf (js ">") shell after = some close ∧
      (js "</").isPrefixOf (shell.drop (close + 1)) = true ∧ place = close + 1) ↔
    ∃ attributes, 62 ∉ attributes ∧ OccursAt (attributes ++ js "></") shell after ∧
      place = after + attributes.length + 1 := by
  have htag : js "></" = 62 :: js "</" := by decide
  have hgt : js ">" = [62] := by decide
  rw [hgt]
  constructor
  · rintro ⟨close, hclose, hend, rfl⟩
    obtain ⟨k, hk, rfl⟩ := Option.map_eq_some_iff.mp hclose
    obtain ⟨hnot, rest, hrest⟩ := (take_firstIndexOf hk).mpr rfl
    have hlength : ((shell.drop after).take k).length = k := by
      have hocc := (Router.firstIndexOf_spec hk).1.add_length_le (by decide)
      rw [List.length_take]
      omega
    refine ⟨(shell.drop after).take k, hnot, ?_, by rw [hlength]⟩
    have hdrop : shell.drop (after + k + 1) = rest := by
      rw [Nat.add_assoc, ← List.drop_drop, ← hrest, List.drop_left' (by simp [hlength])]
    rw [hdrop, List.isPrefixOf_iff_prefix] at hend
    have hafter : shell.drop after = (shell.drop after).take k ++ 62 :: rest := by
      rw [List.append_cons, hrest]
    rw [OccursAt, htag, hafter, List.take_left' hlength, List.prefix_append_right_inj]
    exact List.cons_prefix_cons.mpr ⟨rfl, hend⟩
  · rintro ⟨attributes, hnot, ⟨rest, hrest⟩, rfl⟩
    have hdrop : shell.drop after = attributes ++ 62 :: (js "</" ++ rest) := by
      rw [← hrest, htag, List.append_assoc, List.cons_append]
    have hocc : OccursAt [62] (shell.drop after) attributes.length := by
      rw [hdrop]
      exact occursAt_length [62] attributes _
    obtain ⟨k, -, hk⟩ := Router.exists_firstIndexOf hocc
    have htake : (shell.drop after).take k = attributes := (take_firstIndexOf hk).mp
      ⟨hnot, js "</" ++ rest, (List.append_cons ..).symm.trans hdrop.symm⟩
    have hlength : k = attributes.length := by
      have hle := (Router.firstIndexOf_spec hk).1.add_length_le (by decide)
      have heq := congrArg List.length htake
      rw [List.length_take] at heq
      omega
    refine ⟨after + k, by rw [Router.indexOf, hk, Option.map_some], ?_, by rw [hlength]⟩
    rw [List.isPrefixOf_iff_prefix, Nat.add_assoc, ← List.drop_drop, hdrop, hlength,
      List.append_cons, List.drop_left' (by simp)]
    exact List.prefix_append _ _

theorem fallbackInsert_eq_ok_iff {shell : JSString} {hosts : Hosts} {fallback : JSString × JSString}
    {insert : Insert} (h : Tells fallback.1 (HostAt shell fallback.1) (hosts fallback.1)) :
    fallbackInsert shell hosts fallback = .ok insert ↔
      EmptyHost shell fallback.1 insert.place ∧ insert.html = fallback.2 := by
  unfold fallbackInsert
  rcases hfound : hosts fallback.1 with _ | _ | after
  · rw [hfound] at h
    simp only [reduceCtorEq, false_iff]
    rintro ⟨⟨i, hi, -⟩, -⟩
    exact h i hi
  · rw [hfound] at h
    obtain ⟨i, j, hi, hj, hne⟩ := h
    simp only [reduceCtorEq, false_iff]
    rintro ⟨⟨k, hk, hone, -⟩, -⟩
    exact hne ((hone i hi).trans (hone j hj).symm)
  · rw [hfound] at h
    obtain ⟨i, hi, rfl, hone⟩ := h
    have hempty : EmptyHost shell fallback.1 insert.place ↔ ∃ close,
        Router.indexOf (js ">") shell (afterHost fallback.1 i) = some close ∧
          (js "</").isPrefixOf (shell.drop (close + 1)) = true ∧ insert.place = close + 1 := by
      rw [closes_iff]
      constructor
      · rintro ⟨k, hk, -, hplace⟩
        rwa [← hone k hk]
      · exact fun hplace => ⟨i, hi, hone, hplace⟩
    rw [hempty]
    obtain ⟨place, html⟩ := insert
    cases hclose : Router.indexOf (js ">") shell (afterHost fallback.1 i) with
    | none => simp [hclose]
    | some close =>
      simp only [hclose]
      by_cases hend : (js "</").isPrefixOf (shell.drop (close + 1)) = true
      · simp only [if_pos hend, Except.ok.injEq, Insert.mk.injEq, Option.some.injEq]
        constructor
        · rintro ⟨rfl, rfl⟩
          exact ⟨⟨close, rfl, hend, rfl⟩, rfl⟩
        · rintro ⟨⟨_, rfl, -, rfl⟩, rfl⟩
          exact ⟨rfl, rfl⟩
      · simp only [if_neg hend, Option.some.injEq, reduceCtorEq, false_iff]
        rintro ⟨⟨_, rfl, hend', -⟩, -⟩
        exact hend hend'

theorem mapM_eq_ok_iff {α β ε : Type} {f : α → Except ε β} {l : List α} {l' : List β} :
    l.mapM f = .ok l' ↔ List.Forall₂ (fun a b => f a = .ok b) l l' := by
  induction l generalizing l' with
  | nil =>
    constructor
    · rintro ⟨⟩
      exact .nil
    · rintro ⟨⟩
      rfl
  | cons a l ih =>
    rw [List.mapM_cons, except_bind_eq_ok_iff]
    constructor
    · rintro ⟨b, hb, h⟩
      obtain ⟨bs, hbs, h⟩ := except_bind_eq_ok_iff.mp h
      cases h
      exact .cons hb (ih.mp hbs)
    · rintro (_ | ⟨hb, hbs⟩)
      exact ⟨_, hb, except_bind_eq_ok_iff.mpr ⟨_, ih.mpr hbs, rfl⟩⟩

theorem mapM_fallbackInsert_iff {shell : JSString} {fallbacks : List (JSString × JSString)}
    {inserts : List Insert} : fallbacks.mapM (fallbackInsert shell
      (hostsFrom (fallbacks.map Prod.fst) shell shell.length 0 fun _ => none)) = .ok inserts ↔
      List.Forall₂ (fun fallback insert =>
        EmptyHost shell fallback.1 insert.place ∧ insert.html = fallback.2) fallbacks inserts := by
  have htells : ∀ name ∈ fallbacks.map Prod.fst, Tells name (HostAt shell name)
      (hostsFrom (fallbacks.map Prod.fst) shell shell.length 0 (fun _ => none) name) :=
    fun name hname => hostsFrom_spec (by omega) hname fun i hi => by omega
  rw [mapM_eq_ok_iff]
  generalize hostsFrom (fallbacks.map Prod.fst) shell shell.length 0 (fun _ => none) = hosts at *
  induction fallbacks generalizing inserts with
  | nil => simp
  | cons fallback fallbacks ih =>
    rw [List.map_cons, List.forall_mem_cons] at htells
    cases inserts with
    | nil => simp
    | cons insert inserts =>
      rw [List.forall₂_cons, List.forall₂_cons]
      exact and_congr (fallbackInsert_eq_ok_iff htells.1) (ih htells.2)

theorem place_le_of_empty {shell : JSString} {fallbacks : List (JSString × JSString)}
    {inserts : List Insert} (h : List.Forall₂ (fun fallback insert =>
      EmptyHost shell fallback.1 insert.place ∧ insert.html = fallback.2) fallbacks inserts)
    {insert : Insert} (hinsert : insert ∈ inserts) : insert.place ≤ shell.length := by
  induction h with
  | nil => cases hinsert
  | cons hempty _ ih =>
    rcases List.mem_cons.mp hinsert with rfl | hinsert
    · exact hempty.1.le_length
    · exact ih hinsert

/-- An inert frame is read back, and the fallbacks stand in the empty hosts of an unchanged shell.
-/
theorem holeFrames_inert_and_fallbacks_woven :
    (∀ (name : JSString) (outcome : HoleOutcome) (maxBytes : Option ℕ), isHoleName name = true →
      outcome.Valid →
      (∀ frame, encodeHoleFrame name outcome maxBytes = .ok frame →
        Inert name outcome frame (scriptJson outcome.body)) ∧
      ((∃ message, encodeHoleFrame name outcome maxBytes = .error (.rangeError message)) ↔
        exceeds (encodeUtf8 (holeFrame name outcome)).length maxBytes)) ∧
    ∀ (shell : JSString) (fallbacks : List (JSString × JSString)) (out : JSString),
      injectHoleFallbacks shell fallbacks = .ok out ↔
        ∃ inserts, List.Forall₂ (fun fallback insert =>
          EmptyHost shell fallback.1 insert.place ∧ insert.html = fallback.2) fallbacks inserts ∧
          Woven shell 0 (inserts.sortOn Insert.place) out := by
  constructor
  · intro name outcome maxBytes hname hvalid
    have hexceeds := exceeds_frame_iff maxBytes hname hvalid
    by_cases hlarge : exceeds (encodeUtf8 (holeFrame name outcome)).length maxBytes = true
    · have herror : ∃ message,
          encodeHoleFrame name outcome maxBytes = .error (.rangeError message) := by
        rw [encodeHoleFrame]
        exact ⟨_, if_pos (hexceeds.mpr hlarge)⟩
      obtain ⟨message, hmessage⟩ := herror
      refine ⟨fun frame hframe => ?_, fun _ => hlarge, fun _ => ⟨message, hmessage⟩⟩
      rw [hmessage] at hframe
      cases hframe
    · have hok : encodeHoleFrame name outcome maxBytes = .ok (holeFrame name outcome) := by
        rw [encodeHoleFrame]
        exact if_neg (hexceeds.not.mpr hlarge)
      rw [hok]
      refine ⟨fun frame hframe => ?_, nofun, fun h => absurd h hlarge⟩
      cases hframe
      exact inert_holeFrame hname hvalid
  · intro shell fallbacks out
    rw [injectHoleFallbacks, except_bind_eq_ok_iff]
    constructor
    · rintro ⟨sorted, hsorted, h⟩
      obtain ⟨inserts, hinserts, heq⟩ := except_bind_eq_ok_iff.mp hsorted
      cases heq
      cases h
      have hempty := mapM_fallbackInsert_iff.mp hinserts
      refine ⟨inserts, hempty, woven_weave (List.pairwise_sortOn _ _) fun insert hinsert => ?_⟩
      exact place_le_of_empty hempty (List.mem_sortOn_iff.mp hinsert)
    · rintro ⟨inserts, hempty, hwoven⟩
      refine ⟨inserts.sortOn Insert.place,
        except_bind_eq_ok_iff.mpr ⟨inserts, mapM_fallbackInsert_iff.mpr hempty, rfl⟩, ?_⟩
      have hweave := woven_weave (List.pairwise_sortOn Insert.place inserts) fun insert hinsert =>
        place_le_of_empty hempty (List.mem_sortOn_iff.mp hinsert)
      rw [hwoven.unique hweave]
      rfl

end Nifra.Ppr
