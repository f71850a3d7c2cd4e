import Mathlib.Data.List.Lex
import Nifra.Lib.Double
import Nifra.Lib.Split
import Nifra.Text.URI

/-! # Parameter constraints

What a constrained route parameter accepts: a run of a class of characters within a count, or
one of a list of values. Constraints that accept the same have the same key.
-/

namespace Nifra.Router

/-- `\w` -/
def isWord (c : ℕ) : Bool := isAlphanumeric c || c == 95

def isClassChar (c : ℕ) : Bool := isWord c || (js ".~!$&'()+,;=@-").contains c

def isValueChar (c : ℕ) : Bool := isWord c || (js ".~-").contains c

def isDigit (c : ℕ) : Bool := decide (48 ≤ c ∧ c ≤ 57)

def number (digits : JSString) : WithTop ℕ :=
  Double.ofNat (digits.foldl (fun n d => 10 * n + (d - 48)) 0)

def classItems : JSString → JSString × JSString
  | [] => ([], [])
  | 92 :: d :: rest =>
    if d = 100 ∨ d = 119 then (92 :: d :: (classItems rest).1, (classItems rest).2)
    else ([], 92 :: d :: rest)
  | c :: rest =>
    if isClassChar c then (c :: (classItems rest).1, (classItems rest).2) else ([], c :: rest)

/-- Group 1 of `CONSTRAINT`: a bracketed class, or a bare `\d` or `\w`. -/
def constraintClass : JSString → Option (JSString × JSString)
  | 91 :: rest =>
    match classItems rest with
    | (item :: items, 93 :: rest) => some (91 :: item :: items ++ [93], rest)
    | _ => none
  | 92 :: d :: rest => if d = 100 ∨ d = 119 then some ([92, d], rest) else none
  | _ => none

/-- Group 2 of `CONSTRAINT`: the bounds of a count, both one without it. -/
def constraintCount : JSString → Option ((WithTop ℕ × WithTop ℕ) × JSString)
  | 43 :: rest => some ((1, ⊤), rest)
  | 123 :: rest =>
    let low := rest.takeWhile isDigit
    if low = [] then none
    else match rest.dropWhile isDigit with
      | 125 :: rest => some ((number low, number low), rest)
      | 44 :: rest =>
        let high := rest.takeWhile isDigit
        match rest.dropWhile isDigit with
        | 125 :: rest => some ((number low, if high = [] then ⊤ else number high), rest)
        | _ => none
      | _ => none
  | rest => some ((1, 1), rest)

/-- Group 5 of `CONSTRAINT`: two or more values. -/
def constraintList (body : JSString) : Option (List JSString × JSString) :=
  let run := body.takeWhile fun c => isValueChar c || c == 124
  let values := run.splitOn 124
  if [] ∈ values ∨ values.length < 2 then none else some (values, body.drop run.length)

abbrev Table := ℕ → Bool

/-- `table.fill(1, from, to + 1)` -/
def Table.fill (table : Table) (low high : ℕ) : Table :=
  fun c => decide (low ≤ c ∧ c ≤ high) || table c

/-- The loop of `paramConstraint` over the members of a class. -/
def classTable (table : Table) : JSString → Option Table
  | [] => some table
  | [92] => some (table.fill 48 57)
  | 92 :: d :: rest =>
    let table := if d = 119 then ((table.fill 65 90).fill 95 95).fill 97 122 else table
    classTable (table.fill 48 57) rest
  | low :: 45 :: high :: rest =>
    if high = 92 ∨ high < low ∨ low < 37 ∧ 37 < high then none
    else classTable (table.fill low high) rest
  | c :: rest => classTable (table.fill c c) rest

/-- `ParamConstraint`. The value list of `oneOf` is also its index. -/
structure ParamConstraint where
  source : JSString
  oneOf : Option (List JSString) := none
  mask : JSString
  min : WithTop ℕ := 1
  max : WithTop ℕ := 1
  deriving DecidableEq

namespace ParamConstraint

def size (c : ParamConstraint) : ℕ :=
  match c.oneOf with
  | some values => values.length
  | none => c.mask.count 49

def key (c : ParamConstraint) : JSString :=
  match c.oneOf with
  | some values => [124].intercalate (values.mergeSort fun a b => decide (a ≤ b))
  | none => c.mask ++ 44 :: Double.text c.min ++ 44 :: Double.text c.max

end ParamConstraint

def maskOf (table : Table) : JSString := (List.range 128).map fun c => if table c then 49 else 48

def paramConstraint (text : JSString) : Option ParamConstraint :=
  match text with
  | 123 :: body =>
    let closed (rest : JSString) : Option JSString :=
      match rest with
      | 125 :: _ => some (body.take (body.length - rest.length))
      | _ => none
    match constraintClass body with
    | some (cls, rest) =>
      (constraintCount rest).bind fun ((min, max), rest) => (closed rest).bind fun source =>
        let members := if 2 < cls.length then cls.tail.dropLast else cls
        (classTable (fun _ => false) members).bind fun table =>
          if min < 1 ∨ max < min then none
          else some { source := source, mask := maskOf table, min := min, max := max }
    | none =>
      (constraintList body).bind fun (values, rest) => (closed rest).bind fun source =>
        some { source := source, oneOf := some values, mask := maskOf fun _ => false }
  | _ => none

def satisfies (constraint : Option ParamConstraint) (value : JSString) : Bool :=
  match constraint with
  | none => true
  | some constraint =>
    match constraint.oneOf with
    | some values => values.contains value
    | none =>
      decide (constraint.min ≤ value.length ∧ (value.length : WithTop ℕ) ≤ constraint.max) &&
        value.all fun c => constraint.mask[c]? == some 49

namespace ParamConstraint

variable {c d : ParamConstraint}

/-- What `paramConstraint` ensures. -/
structure Valid (c : ParamConstraint) : Prop where
  isDouble_min : Double.IsDouble c.min
  isDouble_max : Double.IsDouble c.max
  one_le_min : 1 ≤ c.min
  min_le_max : c.min ≤ c.max
  length_mask : c.mask.length = 128
  values : ∀ values ∈ c.oneOf, values ≠ [] ∧ ∀ v ∈ values, v ≠ [] ∧ ∀ x ∈ v, isValueChar x = true
  mask : ∀ x ∈ c.mask, x = 48 ∨ x = 49

def Same (c d : ParamConstraint) : Prop :=
  match c.oneOf, d.oneOf with
  | some values, some values' => values.Perm values'
  | none, none => c.mask = d.mask ∧ c.min = d.min ∧ c.max = d.max
  | _, _ => False

end ParamConstraint

theorem isValueChar_ne {x : ℕ} (h : isValueChar x = true) : x ≠ 44 ∧ x ≠ 47 ∧ x ≠ 124 := by
  refine ⟨?_, ?_, ?_⟩ <;> rintro rfl <;> revert h <;> decide

theorem number_isDouble (digits : JSString) : Double.IsDouble (number digits) :=
  Double.isDouble_ofNat _

theorem isDouble_top : Double.IsDouble ⊤ := by
  rintro n ⟨⟩

theorem isDouble_one : Double.IsDouble 1 := by
  intro n hn
  obtain rfl : n = 1 := by exact_mod_cast hn.symm
  rfl

theorem constraintCount_isDouble {text rest : JSString} {min max : WithTop ℕ}
    (h : constraintCount text = some ((min, max), rest)) :
    Double.IsDouble min ∧ Double.IsDouble max := by
  unfold constraintCount at h
  split at h
  · cases h
    exact ⟨isDouble_one, isDouble_top⟩
  · dsimp only at h
    split_ifs at h
    split at h
    · cases h
      exact ⟨number_isDouble _, number_isDouble _⟩
    · split at h
      · cases h
        refine ⟨number_isDouble _, ?_⟩
        split_ifs
        · exact isDouble_top
        · exact number_isDouble _
      · cases h
    · cases h
  · cases h
    exact ⟨isDouble_one, isDouble_one⟩

theorem constraintList_values {body rest : JSString} {values : List JSString}
    (h : constraintList body = some (values, rest)) :
    values ≠ [] ∧ ∀ v ∈ values, v ≠ [] ∧ ∀ x ∈ v, isValueChar x = true := by
  unfold constraintList at h
  dsimp only at h
  split_ifs at h with hbad
  obtain ⟨hempty, hlength⟩ := not_or.mp hbad
  cases h
  refine ⟨by rintro heq; simp [heq] at hlength, fun v hv => ⟨fun heq => hempty (heq ▸ hv), ?_⟩⟩
  intro x hx
  obtain ⟨hx, hne⟩ := List.mem_of_mem_splitOn hv hx
  simpa [hne] using List.mem_takeWhile_imp hx

theorem paramConstraint_valid {text : JSString} {c : ParamConstraint}
    (h : paramConstraint text = some c) : c.Valid := by
  have hmask (table : Table) : ∀ x ∈ maskOf table, x = 48 ∨ x = 49 := by
    intro x hx
    obtain ⟨i, -, rfl⟩ := List.mem_map.mp hx
    split_ifs <;> simp
  unfold paramConstraint at h
  split at h
  · dsimp only at h
    split at h
    · obtain ⟨⟨⟨min, max⟩, rest⟩, hcount, h⟩ := Option.bind_eq_some_iff.mp h
      obtain ⟨source, -, h⟩ := Option.bind_eq_some_iff.mp h
      obtain ⟨table, -, h⟩ := Option.bind_eq_some_iff.mp h
      split_ifs at h with hbounds
      obtain ⟨hmin, hmax⟩ := not_or.mp hbounds
      obtain rfl := Option.some.inj h
      obtain ⟨hdmin, hdmax⟩ := constraintCount_isDouble hcount
      exact ⟨hdmin, hdmax, not_lt.mp hmin, not_lt.mp hmax, by simp [maskOf], by simp, hmask _⟩
    · obtain ⟨⟨values, rest⟩, hlist, h⟩ := Option.bind_eq_some_iff.mp h
      obtain ⟨source, -, h⟩ := Option.bind_eq_some_iff.mp h
      obtain rfl := Option.some.inj h
      refine ⟨isDouble_one, isDouble_one, le_rfl, le_rfl, by simp [maskOf], ?_,
        hmask fun _ => false⟩
      rintro _ ⟨⟩
      exact constraintList_values hlist
  · cases h

theorem isDecimalChar_of_mem_text {m : WithTop ℕ} {x : ℕ} (h : x ∈ Double.text m) :
    Double.IsDecimalChar x ∨ x ∈ Double.text ⊤ := by
  cases m with
  | top => exact Or.inr h
  | coe m => exact Or.inl (Double.isDecimalChar_of_mem_render h)

theorem ne_of_mem_text {m : WithTop ℕ} {x : ℕ} (h : x ∈ Double.text m) : x ≠ 44 ∧ x ≠ 47 := by
  rcases isDecimalChar_of_mem_text h with h | h
  · unfold Double.IsDecimalChar at h
    omega
  · simp only [Double.text, List.mem_cons, List.not_mem_nil, or_false] at h
    omega

namespace ParamConstraint

variable {c d : ParamConstraint}

theorem Valid.mem_key_list (h : c.Valid) {values : List JSString} (hvalues : c.oneOf = some values)
    {x : ℕ} (hx : x ∈ c.key) : x = 124 ∨ isValueChar x = true := by
  simp only [key, hvalues] at hx
  refine (List.eq_or_mem_of_mem_intercalate hx).imp_right ?_
  rintro ⟨v, hv, hx⟩
  exact ((h.values values hvalues).2 v (List.mem_mergeSort.mp hv)).2 x hx

theorem Valid.slash_not_mem_key (h : c.Valid) : 47 ∉ c.key := by
  intro hmem
  cases hvalues : c.oneOf with
  | some values =>
    rcases h.mem_key_list hvalues hmem with heq | hchar
    · omega
    · exact (isValueChar_ne hchar).2.1 rfl
  | none =>
    simp only [key, hvalues, List.mem_append, List.mem_cons] at hmem
    rcases hmem with (hmem | hmem | hmem) | hmem | hmem
    · have := h.mask 47 hmem
      omega
    · omega
    · exact (ne_of_mem_text hmem).2 rfl
    · omega
    · exact (ne_of_mem_text hmem).2 rfl

theorem comma_mem_key (h : c.oneOf = none) : 44 ∈ c.key := by simp [key, h]

theorem same_of_key_eq (hc : c.Valid) (hd : d.Valid) (h : c.key = d.key) : c.Same d := by
  -- only the key of a class holds a comma
  have hcomma {c : ParamConstraint} (hc : c.Valid) {values : List JSString}
      (hvalues : c.oneOf = some values) : 44 ∉ c.key := by
    intro hmem
    rcases hc.mem_key_list hvalues hmem with heq | hchar
    · omega
    · exact (isValueChar_ne hchar).1 rfl
  unfold Same
  split
  · rename_i values values' hcv hdv
    have hpieces {c : ParamConstraint} (hc : c.Valid) {values : List JSString}
        (hv : c.oneOf = some values) :
        (∀ v ∈ values.mergeSort fun a b => decide (a ≤ b), 124 ∉ v) ∧
          (values.mergeSort fun a b => decide (a ≤ b)) ≠ [] := by
      refine ⟨fun v hmem h124 => ?_, fun hnil => ?_⟩
      · exact (isValueChar_ne (((hc.values values hv).2 v (List.mem_mergeSort.mp hmem)).2 _ h124)).2.2
          rfl
      · have hlength := (List.mergeSort_perm values fun a b => decide (a ≤ b)).length_eq
        rw [hnil] at hlength
        exact (hc.values values hv).1 (List.eq_nil_of_length_eq_zero hlength.symm)
    simp only [key, hcv, hdv] at h
    have hsorted := List.intercalate_inj (hpieces hc hcv).1 (hpieces hd hdv).1 (hpieces hc hcv).2
      (hpieces hd hdv).2 h
    exact (List.mergeSort_perm values _).symm.trans
      (hsorted ▸ List.mergeSort_perm values' _)
  · rename_i hcn hdn
    simp only [key, hcn, hdn, List.append_assoc, List.cons_append] at h
    obtain ⟨hmask, hbounds⟩ := List.append_inj h (hc.length_mask.trans hd.length_mask.symm)
    have hsplit (m n : WithTop ℕ) :
        (Double.text m ++ 44 :: Double.text n).splitOn 44 = [Double.text m, Double.text n] := by
      rw [List.splitOn_append_cons_self_of_not_mem fun hmem => (ne_of_mem_text hmem).1 rfl,
        List.splitOn_eq_singleton fun hmem => (ne_of_mem_text hmem).1 rfl]
    have htexts := congrArg (List.splitOn 44) (List.cons.inj hbounds).2
    rw [hsplit, hsplit] at htexts
    obtain ⟨hmin, hmax⟩ : _ ∧ _ := by simpa using htexts
    exact ⟨hmask, Double.text_injective hc.isDouble_min hd.isDouble_min hmin,
      Double.text_injective hc.isDouble_max hd.isDouble_max hmax⟩
  · rename_i hne hne'
    cases hcv : c.oneOf with
    | none =>
      cases hdv : d.oneOf with
      | none => exact hne' hcv hdv
      | some values => exact hcomma hd hdv (h ▸ comma_mem_key hcv)
    | some values =>
      cases hdv : d.oneOf with
      | none => exact hcomma hc hcv (h ▸ comma_mem_key hdv)
      | some values' => exact hne values values' hcv hdv

end ParamConstraint

/-! ## Route patterns

The route grammar: a pattern is split into segments, each static, a parameter, a wildcard or a
mix of literals and parameters. A mixed segment is matched in one pass from left to right.
-/

inductive MixedPart
  | lit (value : JSString)
  | param (name : JSString) (c : Option ParamConstraint)
  deriving DecidableEq

inductive RoutePatternSegment
  | static (value : JSString)
  | param (name : JSString)
  | wildcard (name : JSString)
  | mixed (parts : List MixedPart)
  deriving DecidableEq

structure CompiledRoutePattern where
  pattern : JSString
  segments : List RoutePatternSegment
  paramNames : List JSString
  deriving DecidableEq

inductive RouteErrorCode
  | invalidPath | invalidParamName | duplicateParam | wildcardNotLast | invalidMethod
  | paramNameConflict | duplicateRoute
  deriving DecidableEq

inductive RouteError
  | config (code : RouteErrorCode) (message : JSString)
  | uriError
  deriving DecidableEq

def isNameStart (c : ℕ) : Bool := decide (65 ≤ c ∧ c ≤ 90 ∨ 97 ≤ c ∧ c ≤ 122) || c == 95

def isParamName : JSString → Bool
  | [] => false
  | c :: rest => isNameStart c && rest.all isWord

def reservedParamNames : List JSString := [js "__proto__", js "constructor", js "prototype"]

def validParamName (name : JSString) : Bool := isParamName name && !reservedParamNames.contains name

def paramNameHint (name : JSString) : JSString :=
  if reservedParamNames.contains name then
    js " - \"" ++ name ++ js "\" is reserved (prototype key)"
  else if name = [] then js " - \":\" needs a name after it"
  else js " - a name must match ^[A-Za-z_][A-Za-z0-9_]*$"

/-- The longest parameter name that a text starts with, empty when it starts with none. -/
def paramNameRun : JSString → JSString
  | [] => []
  | c :: rest => if isNameStart c then c :: rest.takeWhile isWord else []

/-- The loop of `splitMixed`: `skip` characters were consumed already, `previous` is the
character before, and `literal` is the literal under construction. -/
def splitMixedFrom : ℕ → Option ℕ → JSString → List MixedPart → JSString → List MixedPart
  | _, _, literal, parts, [] => if literal = [] then parts else parts ++ [.lit literal]
  | skip + 1, _, literal, parts, c :: rest => splitMixedFrom skip (some c) literal parts rest
  | 0, previous, literal, parts, c :: rest =>
    if c ≠ 58 then splitMixedFrom 0 (some c) (literal ++ [c]) parts rest
    else
      let name := paramNameRun rest
      if name = [] then splitMixedFrom 0 (some c) (literal ++ [58]) parts rest
      else
        let after := rest.drop name.length
        if previous.any isWord && after.isEmpty then
          splitMixedFrom name.length (some c) (literal ++ 58 :: name) parts rest
        else
          let parts := if literal = [] then parts else parts ++ [.lit literal]
          let constraint := paramConstraint after
          let taken := match constraint with
            | none => 0
            | some constraint => constraint.source.length + 2
          splitMixedFrom (name.length + taken) (some c) [] (parts ++ [.param name constraint]) rest

def MixedPart.isParam : MixedPart → Bool
  | .param _ _ => true
  | .lit _ => false

/-- `splitMixed`: `none` when the segment holds no parameter. -/
def splitMixed (value : JSString) : Option (List MixedPart) :=
  let parts := splitMixedFrom 0 none [] [] value
  if parts.any MixedPart.isParam then some parts else none

/-- The checks of `compileRoutePattern` on the parameters of a mixed segment. -/
def mixedNames (pattern : JSString) (paramNames : List JSString) :
    List MixedPart → Except RouteError (List JSString)
  | [] => .ok paramNames
  | .lit _ :: parts => mixedNames pattern paramNames parts
  | .param name _ :: parts =>
    if !validParamName name then
      .error (.config .invalidParamName (js "invalid parameter \":" ++ name ++ js "\" in \"" ++
        pattern ++ js "\"" ++ paramNameHint name))
    else if paramNames.contains name then
      .error (.config .duplicateParam
        (js "duplicate parameter \":" ++ name ++ js "\" in \"" ++ pattern ++ js "\""))
    else mixedNames pattern (paramNames ++ [name]) parts

/-- One round of the loop of `compileRoutePattern`: the segment, and the names so far. -/
def compileSegment (pattern : JSString) (paramNames : List JSString) (value : JSString)
    (last : Bool) : Except RouteError (RoutePatternSegment × List JSString) :=
  let name := value.tail
  let split : Except RouteError (RoutePatternSegment × List JSString) :=
    match splitMixed value with
    | some parts => (mixedNames pattern paramNames parts).map fun names => (.mixed parts, names)
    | none => .ok (.static value, paramNames)
  if value.head? = some 58 then
    if !validParamName name then
      if splitMixed value = none then
        .error (.config .invalidParamName (js "invalid parameter \":" ++ name ++ js "\" in \"" ++
          pattern ++ js "\"" ++ paramNameHint name))
      else split
    else if paramNames.contains name then
      .error (.config .duplicateParam
        (js "duplicate parameter \":" ++ name ++ js "\" in \"" ++ pattern ++ js "\""))
    else .ok (.param name, paramNames ++ [name])
  else if value.head? = some 42 then
    let name := if value.length = 1 then [42] else name
    if !last then
      .error (.config .wildcardNotLast
        (js "wildcard must be the final segment in \"" ++ pattern ++ js "\""))
    else if name ≠ [42] ∧ !validParamName name then
      .error (.config .invalidParamName
        (js "invalid wildcard \"*" ++ name ++ js "\" in \"" ++ pattern ++ js "\""))
    else if paramNames.contains name then
      .error (.config .duplicateParam
        (js "duplicate parameter \"" ++ name ++ js "\" in \"" ++ pattern ++ js "\""))
    else .ok (.wildcard name, paramNames ++ [name])
  else split

def compileSegments (pattern : JSString) (paramNames : List JSString) :
    List JSString → Except RouteError (List RoutePatternSegment × List JSString)
  | [] => .ok ([], paramNames)
  | value :: rest => do
    let (segment, paramNames) ← compileSegment pattern paramNames value rest.isEmpty
    let (segments, paramNames) ← compileSegments pattern paramNames rest
    return (segment :: segments, paramNames)

def isGraphic (c : ℕ) : Bool := decide (33 ≤ c ∧ c ≤ 126)

/-- `compileRoutePattern`, for a Unicode normalization `nfc`. -/
def compileRoutePattern (nfc : JSString → JSString) (path : JSString) :
    Except RouteError CompiledRoutePattern :=
  if path.head? ≠ some 47 then
    .error (.config .invalidPath (js "path must start with \"/\": \"" ++ path ++ js "\""))
  else match percentEncode isGraphic (nfc path) with
    | none => .error .uriError
    | some pattern =>
      let raw := if pattern = [47] then [] else pattern.tail.splitOn 47
      (compileSegments pattern [] raw).map fun (segments, paramNames) =>
        { pattern := pattern, segments := segments, paramNames := paramNames }

/-- The literals around the parameters of a mixed segment, with the literal of the open slot. -/
def shapeFrom (literal : JSString) : List MixedPart → List JSString
  | [] => [literal]
  | .lit value :: parts => shapeFrom value parts
  | .param _ _ :: parts => literal :: shapeFrom [] parts

def mixedSegmentShape (parts : List MixedPart) : List JSString := shapeFrom [] parts

/-- `constrainedParts`: the parts, when a parameter among them has a constraint. -/
def constrainedParts (parts : List MixedPart) : Option (List MixedPart) :=
  let constrained : MixedPart → Bool
    | .param _ c => c.isSome
    | .lit _ => false
  if parts.any constrained then some parts else none

/-- `text.indexOf(separator)` -/
def firstIndexOf (separator : JSString) : JSString → Option ℕ
  | [] => if separator = [] then some 0 else none
  | c :: text =>
    if separator.isPrefixOf (c :: text) then some 0 else (firstIndexOf separator text).map (· + 1)

/-- `text.indexOf(separator, start)` -/
def indexOf (separator text : JSString) (start : ℕ) : Option ℕ :=
  (firstIndexOf separator (text.drop start)).map (start + ·)

/-- `text.slice(start, stop)` -/
def slice (text : JSString) (start stop : ℕ) : JSString := (text.drop start).take (stop - start)

/-- The loop of `matchMixedSegment` over the literals between two parameters: where the last
parameter starts, `none` on a miss, and `out`. -/
def scanMixed (segment : JSString) (stop base : ℕ) :
    List JSString → ℕ → List JSString → Option ℕ × List JSString
  | [], start, out => (some start, out)
  | separator :: separators, start, out =>
    match indexOf separator segment (start + 1) with
    | none => (none, out.take base)
    | some found =>
      let next := found + separator.length
      if stop ≤ next then (none, out.take base)
      else scanMixed segment stop base separators next (out ++ [slice segment start found])

/-- The loop over `checked`: the values from `out[value]` on satisfy their constraints. -/
def checkValues (out : List JSString) : List MixedPart → ℕ → Bool
  | [], _ => true
  | .lit _ :: parts, value => checkValues out parts value
  | .param _ c :: parts, value =>
    satisfies c (out.getD value []) && checkValues out parts (value + 1)

/-- `matchMixedSegment`, with `out` as the call leaves it. -/
def matchMixedSegment (shape : List JSString) (segment : JSString) (out : List JSString)
    (checked : Option (List MixedPart)) : Bool × List JSString :=
  let head := shape.headD []
  let tail := shape.getLastD []
  if segment.length ≤ head.length + tail.length then (false, out)
  else if !head.isPrefixOf segment then (false, out)
  else if !tail.isSuffixOf segment then (false, out)
  else
    let stop := segment.length - tail.length
    let base := out.length
    match scanMixed segment stop base shape.tail.dropLast head.length out with
    | (none, out) => (false, out)
    | (some start, out) =>
      let out := out ++ [slice segment start stop]
      if checked.all fun parts => checkValues out parts base then (true, out)
      else (false, out.take base)

/-! ## Specificity

Which of two patterns is tried first. The comparators return JavaScript numbers: a difference of
counts may be infinite, or `NaN` where both counts are.
-/

/-- An integer, an infinity, or `NaN`. -/
inductive Difference
  | int (n : ℤ)
  | inf
  | negInf
  | nan
  deriving DecidableEq, Repr

namespace Difference

def round : ℤ → Difference
  | .ofNat n =>
    match Double.ofNat n with
    | ⊤ => inf
    | (m : ℕ) => int m
  | .negSucc n =>
    match Double.ofNat (n + 1) with
    | ⊤ => negInf
    | (m : ℕ) => int (-m)

def ofCounts : WithTop ℕ → WithTop ℕ → Difference
  | ⊤, ⊤ => nan
  | ⊤, (_ : ℕ) => inf
  | (_ : ℕ), ⊤ => negInf
  | (x : ℕ), (y : ℕ) => round (x - y)

def sub : Difference → Difference → Difference
  | nan, _ => nan
  | _, nan => nan
  | inf, inf => nan
  | inf, _ => inf
  | negInf, negInf => nan
  | negInf, _ => negInf
  | int _, inf => negInf
  | int _, negInf => inf
  | int x, int y => round (x - y)

def truthy : Difference → Bool
  | int n => n ≠ 0
  | inf => true
  | negInf => true
  | nan => false

def or (x y : Difference) : Difference := if x.truthy then x else y

def negative : Difference → Bool
  | int n => n < 0
  | negInf => true
  | _ => false

def positive : Difference → Bool
  | int n => 0 < n
  | inf => true
  | _ => false

end Difference

/-- One more part of `literalWeight`. -/
def addLiteral (sum : ℤ) : MixedPart → ℤ
  | .lit value => sum + value.length
  | .param _ _ => sum

def literalWeight (parts : List MixedPart) : ℤ := parts.foldl addLiteral 0

def order (a b : JSString) : Difference :=
  if a < b then .int (-1) else if b < a then .int 1 else .int 0

def rank : Option ParamConstraint → ℤ
  | none => 2
  | some c => if c.oneOf.isSome then 0 else 1

/-- `x && y && (…)`, in which `undefined` counts as 0 does. -/
def compareConstraints : Option ParamConstraint → Option ParamConstraint → Difference
  | some x, some y =>
    (Difference.int (x.size - y.size)).or
      (((Difference.ofCounts x.max x.min).sub (Difference.ofCounts y.max y.min)).or
        (order x.key y.key))
  | _, _ => .int 0

def compareParts : MixedPart → MixedPart → Difference
  | .lit _, .param _ _ => .int (-1)
  | .param _ _, .lit _ => .int 1
  | .lit a, .lit b =>
    if a ≠ b then if a.length = b.length then order a b else .int (b.length - a.length)
    else .int 0
  | .param _ x, .param _ y => (Difference.int (rank x - rank y)).or (compareConstraints x y)

/-- A loop over two lists at once: the list that ends goes behind the other. -/
def compareLists {α : Type} (compare : α → α → Difference) : List α → List α → Difference
  | [], [] => .int 0
  | _ :: _, [] => .int (-1)
  | [], _ :: _ => .int 1
  | a :: left, b :: right => (compare a b).or (compareLists compare left right)

def compareMixedPartsSpecificity (left right : List MixedPart) : Difference :=
  (Difference.int (literalWeight right - literalWeight left)).or
    (compareLists compareParts left right)

def specificity : RoutePatternSegment → ℤ
  | .static _ => 4
  | .mixed _ => 3
  | .param _ => 2
  | .wildcard _ => 1

def compareSegments (a b : RoutePatternSegment) : Difference :=
  if specificity a ≠ specificity b then .int (specificity b - specificity a)
  else match a, b with
    | .mixed left, .mixed right => compareMixedPartsSpecificity left right
    | _, _ => .int 0

def compareRoutePatternSpecificity (left right : CompiledRoutePattern) : Difference :=
  compareLists compareSegments left.segments right.segments

def pieceKey : MixedPart → JSString
  | .lit value => 76 :: value
  | .param _ c => 80 :: (c.map ParamConstraint.key).getD []

def mixedKey (parts : List MixedPart) : JSString := [47].intercalate (parts.map pieceKey)

/-- `Router.add` at a mixed segment: the child with its key goes on being built, or a new child is
sorted in. -/
def addMixed {N : Type} (fresh : N) (build : N → N) (children : List (List MixedPart × N))
    (parts : List MixedPart) : List (List MixedPart × N) :=
  if children.any fun child => mixedKey child.1 == mixedKey parts then
    children.map fun child =>
      if mixedKey child.1 = mixedKey parts then (child.1, build child.2) else child
  else
    (children ++ [(parts, build fresh)]).mergeSort fun a b =>
      !(compareMixedPartsSpecificity a.1 b.1).positive

end Nifra.Router
