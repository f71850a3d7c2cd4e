import Nifra.Lib.Conditions
import Nifra.Wire.Decode

/-! # The reading of a wire

What a wire asks of a decoder: a depth-first walk from the root that follows each node once, and
lists what it comes to. The walk has no counters and builds nothing.
-/

namespace Nifra.Wire

/-- What the walk comes to: what has to be paid for, what is malformed, and what is malformed and
quoted by the message about it. -/
inductive Demand
  | entries (count : ℕ)
  | text (s : JSString)
  | octets (count : ℕ)
  | malformed
  | quoted (value : Option Json)

/-- A part of the walk, from the nodes visited before it to the nodes visited after it. -/
abbrev Reading := List ℕ → List Demand × List ℕ

namespace Reading

def silent : Reading := fun visited => ([], visited)

def ask (demand : Demand) : Reading := fun visited => ([demand], visited)

def visit (index : ℕ) : Reading := fun visited =>
  ([], if index ∈ visited then visited else visited ++ [index])

def andThen (first second : Reading) : Reading := fun visited =>
  ((first visited).1 ++ (second (first visited).2).1, (second (first visited).2).2)

def sequence (readings : List Reading) : Reading := readings.foldr andThen silent

def unlessVisited (index : ℕ) (reading : Reading) : Reading := fun visited =>
  if index ∈ visited then ([], visited) else reading visited

def check (passed : Bool) (rest : Reading) : Reading :=
  if passed then rest else ask .malformed

@[simp] theorem silent_andThen (reading : Reading) : silent.andThen reading = reading := rfl

end Reading

open Reading

section Readings
variable (platform : Platform) (limits : Limits)

def readContainer {β : Type} (index : ℕ) (entries : List β) (body : β → Reading) : Reading :=
  (visit index).andThen ((ask (.entries entries.length)).andThen (sequence (entries.map body)))

def readBase64 (base64 : Option Json) (rest : List ℕ → Reading) : Reading :=
  match base64 with
  | some (.string base64) =>
    check (base64.length % 4 = 0)
      ((ask (.octets (base64.length / 4 * 3 - base64Padding base64))).andThen
        (check (isBase64 base64) (match atob base64 with
          | none => ask .malformed
          | some bytes => rest bytes)))
  | _ => ask .malformed

def readObj (read : Json → Reading) (index : ℕ) (v : Option Json) : Reading :=
  match v with
  | some (.object src) =>
    readContainer index src fun (key, value) => (ask (.text key)).andThen (read value)
  | _ => ask .malformed

def readItems (read : Json → Reading) (index : ℕ) (v : Option Json) : Reading :=
  match v with
  | some (.array items) => readContainer index items read
  | _ => ask .malformed

def readMap (read : Json → Reading) (index : ℕ) (v : Option Json) : Reading :=
  match v with
  | some (.array entries) =>
    readContainer index entries fun entry =>
      match entry with
      | .array [key, value] => (read key).andThen (read value)
      | _ => ask .malformed
  | _ => ask .malformed

def readDate (index : ℕ) (v : Option Json) : Reading :=
  match v with
  | some .null => visit index
  | some (.string text) =>
    (ask (.text text)).andThen
      (check ((platform.parseDate text).any fun time => platform.isoString time = text)
        (visit index))
  | _ => ask .malformed

def readRegexp (index : ℕ) (v : Option Json) : Reading :=
  match v with
  | some (.array [.string source, .string flags]) =>
    (ask (.text source)).andThen ((ask (.text flags)).andThen
      (check (platform.isRegExp source flags) (visit index)))
  | _ => ask .malformed

def readUrl (index : ℕ) (v : Option Json) : Reading :=
  match v with
  | some (.string text) =>
    (ask (.text text)).andThen (check (platform.parseUrl text).isSome (visit index))
  | _ => ask .malformed

def readTypedArray (index : ℕ) (k v : Option Json) : Reading :=
  match k with
  | some (.string kind) =>
    match bytesPerElement kind with
    | none => ask (.quoted k)
    | some size =>
      readBase64 v fun bytes =>
        check (size.any fun size => bytes.length % size = 0) (visit index)
  | _ => ask (.quoted k)

def readNode (read : Json → Reading) (index : ℕ) (record : List (JSString × Json)) : Reading :=
  let v := property record (js "v")
  match property record (js "$w") with
  | some (.string tag) =>
    if tag = js "obj" then readObj read index v
    else if tag = js "arr" then readItems read index v
    else if tag = js "map" then readMap read index v
    else if tag = js "set" then readItems read index v
    else if tag = js "date" then readDate platform index v
    else if tag = js "regexp" then readRegexp platform index v
    else if tag = js "url" then readUrl platform index v
    else if tag = js "buf" then readBase64 v fun _ => visit index
    else if tag = js "dv" then readBase64 v fun _ => visit index
    else if tag = js "ta" then readTypedArray index (property record (js "k")) v
    else ask (.quoted (some (.string tag)))
  | tag => ask (.quoted tag)

variable (nodes : List Json)

def readRef (read : Json → Reading) (raw : Option Json) : Reading :=
  match nodeIndex nodes raw with
  | none => ask (.quoted raw)
  | some index =>
    unlessVisited index (match nodes[index]? with
      | some (.object record) => readNode platform read index record
      | _ => ask .malformed)

def readNum (v : Option Json) : Reading :=
  match v with
  | some (.string token) =>
    if token = js "-0" then silent
    else if token = js "NaN" then silent
    else if token = js "Infinity" then silent
    else if token = js "-Infinity" then silent
    else ask (.quoted v)
  | v => ask (.quoted v)

def readBigint (v : Option Json) : Reading :=
  match v with
  | some (.string token) =>
    check (isBigIntToken token)
      (check ((splitSign token).2.length ≤ limits.maxBigIntDigits) (ask (.text token)))
  | _ => ask .malformed

def readRecord (read : Json → Reading) (record : List (JSString × Json)) : Reading :=
  let v := property record (js "v")
  match property record (js "$w") with
  | some (.string tag) =>
    if tag = js "undef" then silent
    else if tag = js "num" then readNum v
    else if tag = js "bigint" then readBigint limits v
    else if tag = js "ref" then readRef platform nodes read (property record (js "i"))
    else ask .malformed
  | _ => ask .malformed

def readValue (read : Json → Reading) (w : Json) : Reading :=
  match w with
  | .null | .bool _ | .number (.finite _) => silent
  | .string s => ask (.text s)
  | .number _ | .array _ => ask .malformed
  | .object record => readRecord platform limits nodes read record

def read (depth : ℕ) (w : Json) : Reading :=
  if limits.maxDepth < depth then ask .malformed
  else readValue platform limits nodes (fun w => read (depth + 1) w) w
termination_by limits.maxDepth + 1 - depth

def Demand.spend (spent : ℕ × ℕ) : Demand → Option (ℕ × ℕ)
  | .entries count =>
    let collectionEntries := spent.1 + count
    if isSafeInteger collectionEntries ∧ collectionEntries ≤ limits.maxCollectionEntries then
      some (collectionEntries, spent.2)
    else none
  | .text s =>
    let decodedBytes := spent.2 + utf8Length s
    if isSafeInteger decodedBytes ∧ decodedBytes ≤ limits.maxDecodedBytes then
      some (spent.1, decodedBytes)
    else none
  | .octets count =>
    let decodedBytes := spent.2 + count
    if isSafeInteger decodedBytes ∧ decodedBytes ≤ limits.maxDecodedBytes then
      some (spent.1, decodedBytes)
    else none
  | .malformed | .quoted _ => none

def meet : List Demand → ℕ × ℕ → Demand ⊕ ℕ × ℕ
  | [], spent => .inr spent
  | demand :: demands, spent =>
    match demand.spend limits spent with
    | none => .inl demand
    | some spent => meet demands spent

/-- The message about this demand quotes a value that `String` refuses to print. -/
def Demand.Unprintable : Demand → Prop
  | .quoted (some value) => toText platform value = none
  | _ => False

end Readings

/-! ## Decoding pays for its reading

A decoding visits the nodes that the reading of its wire visits, spends on its counters what the
reading asks for, and throws at the first demand that is not met.
-/

variable {platform : Platform} {limits : Limits} {α β : Type}

def State.visited (s : State) : List ℕ := s.built.keys

def State.spent (s : State) : ℕ × ℕ := (s.collectionEntries, s.decodedBytes)

def Demand.Raises (platform : Platform) (demand : Demand) (thrown : Thrown) : Prop :=
  demand.Unprintable platform ∧ thrown = .typeError ∨
    ¬ demand.Unprintable platform ∧ ∃ message, thrown = .wireDecodeError message

theorem raises_malformed (message : JSString) :
    Demand.malformed.Raises platform (.wireDecodeError message) :=
  Or.inr ⟨id, message, rfl⟩

/-- A computation returns when all demands of a reading are met, and else throws at the first
one that is not. -/
structure Pays (platform : Platform) (limits : Limits) (x : Decode α) (reading : Reading) :
    Prop where
  returns : ∀ s a s', x s = .ok (a, s') →
    meet limits (reading s.visited).1 s.spent = .inr s'.spent ∧
      (reading s.visited).2 = s'.visited
  throws : ∀ s thrown, x s = .error thrown →
    ∃ demand, meet limits (reading s.visited).1 s.spent = .inl demand ∧
      demand.Raises platform thrown

theorem meet_append_of_inr {demands rest : List Demand} {spent spent' : ℕ × ℕ}
    (h : meet limits demands spent = .inr spent') :
    meet limits (demands ++ rest) spent = meet limits rest spent' := by
  induction demands generalizing spent with
  | nil =>
    obtain rfl := Sum.inr.inj h
    rfl
  | cons demand demands ih =>
    rw [List.cons_append, meet]
    rw [meet] at h
    split at h
    · cases h
    · exact ih h

theorem meet_append_of_inl {demands rest : List Demand} {spent : ℕ × ℕ} {demand : Demand}
    (h : meet limits demands spent = .inl demand) :
    meet limits (demands ++ rest) spent = .inl demand := by
  induction demands generalizing spent with
  | nil => cases h
  | cons first demands ih =>
    rw [List.cons_append, meet]
    rw [meet] at h
    split at h
    · exact h
    · exact ih h

namespace Pays

variable {x : Decode α} {f : α → Decode β} {reading rest : Reading} {thrown : Thrown}

theorem pure (a : α) : Pays platform limits (Pure.pure a : Decode α) silent where
  returns := by
    rintro s b s' ⟨⟩
    exact ⟨rfl, rfl⟩
  throws := by rintro s thrown ⟨⟩

theorem bind (hx : Pays platform limits x reading)
    (hf : ∀ a, Pays platform limits (f a) rest) :
    Pays platform limits (x >>= f) (reading.andThen rest) where
  returns s b s' h := by
    obtain ⟨a, t, ha, hb⟩ := bind_eq_ok_iff.mp h
    obtain ⟨hmeet, hvisited⟩ := hx.returns s a t ha
    obtain ⟨hmeet', hvisited'⟩ := (hf a).returns t b s' hb
    constructor
    · rw [andThen, meet_append_of_inr hmeet, hvisited, hmeet']
    · rw [andThen, hvisited, hvisited']
  throws s thrown h := by
    rcases bind_eq_error_iff.mp h with hx' | ⟨a, t, ha, hb⟩
    · obtain ⟨demand, hmeet, hraises⟩ := hx.throws s thrown hx'
      exact ⟨demand, meet_append_of_inl hmeet, hraises⟩
    · obtain ⟨hmeet, hvisited⟩ := hx.returns s a t ha
      obtain ⟨demand, hmeet', hraises⟩ := (hf a).throws t thrown hb
      exact ⟨demand, by rw [andThen, meet_append_of_inr hmeet, hvisited, hmeet'], hraises⟩

theorem skip (hx : Pays platform limits x silent) (hf : ∀ a, Pays platform limits (f a) rest) :
    Pays platform limits (x >>= f) rest := hx.bind hf

theorem throw {demand : Demand} (hraises : demand.Raises platform thrown)
    (hspend : ∀ spent, demand.spend limits spent = none) :
    Pays platform limits (MonadExcept.throw thrown : Decode α) (ask demand) where
  returns := by rintro s a s' ⟨⟩
  throws := by
    rintro s _ ⟨⟩
    exact ⟨demand, by rw [ask, meet, hspend], hraises⟩

theorem malformed (message : JSString) :
    Pays platform limits (MonadExcept.throw (.wireDecodeError message) : Decode α)
      (ask .malformed) :=
  throw (raises_malformed message) fun _ => rfl

theorem modify (g : State → State) (hvisited : ∀ s, (g s).visited = s.visited)
    (hspent : ∀ s, (g s).spent = s.spent) :
    Pays platform limits (MonadState.modifyGet fun s => (PUnit.unit, g s) : Decode PUnit)
      silent where
  returns := by
    rintro s b s' ⟨⟩
    exact ⟨congrArg Sum.inr (hspent s).symm, (hvisited s).symm⟩
  throws := by rintro s thrown ⟨⟩

theorem stop {demand : Demand} (hraises : demand.Raises platform thrown)
    (hspend : ∀ spent, demand.spend limits spent = none) :
    Pays platform limits ((MonadExcept.throw thrown : Decode α) >>= f) (ask demand) where
  returns := by rintro s a s' ⟨⟩
  throws := by
    rintro s _ ⟨⟩
    exact ⟨demand, by rw [ask, meet, hspend], hraises⟩

theorem reject {passed : Bool} {y : Decode α} (message : JSString)
    (hy : passed = true → Pays platform limits y reading) :
    Pays platform limits (Wire.reject (!passed) (.wireDecodeError message) >>= fun _ => y)
      (check passed reading) := by
  cases passed with
  | true => exact (pure ()).skip fun _ => hy rfl
  | false => exact stop (raises_malformed message) fun _ => rfl

theorem forM {entries : List β} {body : β → Decode Unit} {reading : β → Reading}
    (h : ∀ entry, Pays platform limits (body entry) (reading entry)) :
    Pays platform limits (entries.forM body) (sequence (entries.map reading)) := by
  induction entries with
  | nil => exact pure ()
  | cons entry entries ih => exact (h entry).bind fun _ => ih

end Pays

variable {inline : Json → Decode Item} {read : Json → Reading} {index : ℕ}

variable {nodes : List Json} {depth : ℕ}

end Nifra.Wire
