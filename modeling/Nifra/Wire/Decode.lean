import Nifra.Wire.Base64
import Nifra.Wire.Values

/-! # Decoding

`decode` reads a value from the root of a wire and follows references into the table of nodes.
Objects are built on a heap, once for each node, and charged to running counters.
-/

namespace Nifra.Wire

structure Limits where
  maxNodes : ℕ
  maxDepth : ℕ
  maxCollectionEntries : ℕ
  maxDecodedBytes : ℕ
  maxBigIntDigits : ℕ

/-- What `decode` throws; the `TypeError` is that of `String`. -/
inductive Thrown
  | wireDecodeError (message : JSString)
  | rangeError (message : JSString)
  | typeError
  deriving DecidableEq

def wireError (message : String) : Thrown := .wireDecodeError (js message)

/-- What a decoding does beside its counters: a reference is followed, a node is built, a
container is entered and left, and entries, texts and octets are materialized. -/
inductive Event
  | followed (index : ℕ)
  | built (index : ℕ)
  | entered (index : ℕ)
  | left (index : ℕ)
  | entry
  | text (s : JSString)
  | octets (bytes : List ℕ)

/-- The heap, the nodes built with their objects, the counters, and the history, latest first. -/
structure State where
  heap : List Cell := []
  built : InsertionMap ℕ Item := ∅
  collectionEntries : ℕ := 0
  decodedBytes : ℕ := 0
  history : List Event := []

abbrev Decode := StateT State (Except Thrown)

variable (platform : Platform) (limits : Limits)

def note (event : Event) : Decode Unit :=
  modify fun s => { s with history := event :: s.history }

def reject (malformed : Bool) (thrown : Thrown) : Decode Unit :=
  if malformed then throw thrown else pure ()

def depthExceeded : Thrown := wireError "wire depth limit exceeded"

def enter (depth : ℕ) : Decode Unit := reject (limits.maxDepth < depth) depthExceeded

def chargeEntries (count : ℕ) : Decode Unit := do
  let collectionEntries := (← get).collectionEntries + count
  reject (!isSafeInteger collectionEntries || limits.maxCollectionEntries < collectionEntries)
    (wireError "wire collection entry limit exceeded")
  modify fun s => { s with collectionEntries := collectionEntries }

def chargeBytes (count : ℕ) : Decode Unit := do
  let decodedBytes := (← get).decodedBytes + count
  reject (!isSafeInteger decodedBytes || limits.maxDecodedBytes < decodedBytes)
    (wireError "wire decoded byte limit exceeded")
  modify fun s => { s with decodedBytes := decodedBytes }

def chargeString (value : JSString) : Decode Unit := do
  chargeBytes limits (utf8ByteLength (limits.maxDecodedBytes - (← get).decodedBytes) value)

/-- The error whose message quotes a value, which `String` may refuse to print. -/
def quoting (message : String) (value : Option Json) : Thrown :=
  match value with
  | none => .wireDecodeError (js message ++ js "undefined")
  | some value =>
    match toText platform value with
    | some text => .wireDecodeError (js message ++ text)
    | none => .typeError

/-- `malformed … at index` -/
def malformedAt (what : String) (index : ℕ) : Thrown :=
  .wireDecodeError (js "malformed " ++ js what ++ js " at " ++ decimal index)

def publish (index : ℕ) (cell : Cell) : Decode ℕ := do
  let address := (← get).heap.length
  modify fun s => { s with
    heap := s.heap ++ [cell]
    built := s.built.set index (.object address) }
  note (.built index)
  return address

def finish (index : ℕ) (cell : Cell) : Decode Item := do
  let address ← publish index cell
  return .object address

def update (address : ℕ) (f : Cell → Cell) : Decode Unit := do
  modify fun s => { s with heap := s.heap.modify address f }
  note .entry

/-- A container: its shell is published first, so that cycles resolve to it. -/
def container {β : Type} (index : ℕ) (shell : Cell) (entries : List β)
    (body : ℕ → β → Decode Unit) : Decode Item := do
  let out ← publish index shell
  note (.entered index)
  chargeEntries limits entries.length
  entries.forM (body out)
  note (.left index)
  return .object out

/-- `base64ToBytes` with `chargeBytes` for its `reserve`. -/
def base64ToBytes (base64 : Option Json) (index : ℕ) : Decode (List ℕ) :=
  match base64 with
  | some (.string base64) => do
    reject (base64.length % 4 ≠ 0) (malformedAt "base64" index)
    chargeBytes limits (base64.length / 4 * 3 - base64Padding base64)
    reject (!isBase64 base64) (malformedAt "base64" index)
    match atob base64 with
    | none => throw (malformedAt "base64" index)
    | some bytes =>
      note (.octets bytes)
      return bytes
  | _ => throw (malformedAt "base64" index)

def objNode (inline : Json → Decode Item) (index : ℕ) (v : Option Json) : Decode Item :=
  match v with
  | some (.object src) =>
    container limits index (.obj ∅) src fun out (key, value) => do
      chargeString limits key
      note (.text key)
      let item ← inline value
      update out (.define key item)
  | _ => throw (malformedAt "obj node" index)

def arrNode (inline : Json → Decode Item) (index : ℕ) (v : Option Json) : Decode Item :=
  match v with
  | some (.array items) =>
    container limits index (.arr []) items fun out item => do
      let item ← inline item
      update out (.push item)
  | _ => throw (malformedAt "arr node" index)

def mapNode (inline : Json → Decode Item) (index : ℕ) (v : Option Json) : Decode Item :=
  match v with
  | some (.array entries) =>
    container limits index (.map ∅) entries fun out entry =>
      match entry with
      | .array [key, value] => do
        let key ← inline key
        let item ← inline value
        update out (.put key item)
      | _ => throw (malformedAt "map entry" index)
  | _ => throw (malformedAt "map node" index)

def setNode (inline : Json → Decode Item) (index : ℕ) (v : Option Json) : Decode Item :=
  match v with
  | some (.array items) =>
    container limits index (.set []) items fun out item => do
      let item ← inline item
      update out (.add item)
  | _ => throw (malformedAt "set node" index)

def dateNode (index : ℕ) (v : Option Json) : Decode Item :=
  match v with
  | some .null => finish index (.date none)
  | some (.string text) => do
    chargeString limits text
    note (.text text)
    match platform.parseDate text with
    | none => throw (malformedAt "date node" index)
    | some time =>
      reject (platform.isoString time ≠ text) (malformedAt "date node" index)
      finish index (.date (some time))
  | _ => throw (malformedAt "date node" index)

def regexpNode (index : ℕ) (v : Option Json) : Decode Item :=
  match v with
  | some (.array [.string source, .string flags]) => do
    chargeString limits source
    chargeString limits flags
    note (.text source)
    note (.text flags)
    reject (!platform.isRegExp source flags) (malformedAt "regexp node" index)
    finish index (.regexp source flags)
  | _ => throw (malformedAt "regexp node" index)

def urlNode (index : ℕ) (v : Option Json) : Decode Item :=
  match v with
  | some (.string text) => do
    chargeString limits text
    note (.text text)
    match platform.parseUrl text with
    | none => throw (malformedAt "url node" index)
    | some href => finish index (.url href)
  | _ => throw (malformedAt "url node" index)

def bufNode (index : ℕ) (v : Option Json) : Decode Item := do
  let bytes ← base64ToBytes limits v index
  finish index (.buf bytes)

def dvNode (index : ℕ) (v : Option Json) : Decode Item := do
  let bytes ← base64ToBytes limits v index
  finish index (.dv bytes)

/-- `kind in TYPED_ARRAYS` and then `BYTES_PER_ELEMENT`: an inherited name is in it, and has
none. -/
def bytesPerElement (kind : JSString) : Option (Option ℕ) :=
  match (typedArrays.find? fun entry => entry.1 = kind) with
  | some (_, size) => some (some size)
  | none => if kind ∈ inheritedNames then some none else none

def taNode (index : ℕ) (k v : Option Json) : Decode Item :=
  match k with
  | some (.string kind) =>
    match bytesPerElement kind with
    | none => throw (quoting platform "unknown typed array: " k)
    | some size => do
      let bytes ← base64ToBytes limits v index
      -- a length modulo `undefined` is `NaN`
      reject (size.all fun size => bytes.length % size ≠ 0)
        (.wireDecodeError (js "misaligned bytes for " ++ kind))
      finish index (.ta kind bytes)
  | _ => throw (quoting platform "unknown typed array: " k)

/-- The `switch` of `resolve` over the tag of a node. -/
def buildNode (inline : Json → Decode Item) (index : ℕ) (record : List (JSString × Json)) :
    Decode Item :=
  let v := property record (js "v")
  match property record (js "$w") with
  | some (.string tag) =>
    if tag = js "obj" then objNode limits inline index v
    else if tag = js "arr" then arrNode limits inline index v
    else if tag = js "map" then mapNode limits inline index v
    else if tag = js "set" then setNode limits inline index v
    else if tag = js "date" then dateNode platform limits index v
    else if tag = js "regexp" then regexpNode platform limits index v
    else if tag = js "url" then urlNode platform limits index v
    else if tag = js "buf" then bufNode limits index v
    else if tag = js "dv" then dvNode limits index v
    else if tag = js "ta" then taNode platform limits index (property record (js "k")) v
    else throw (quoting platform "unknown wire tag: " (some (.string tag)))
  | tag => throw (quoting platform "unknown wire tag: " tag)

variable (nodes : List Json)

/-- The node that a reference names: an integer from 0 on, below the number of nodes. -/
def nodeIndex (raw : Option Json) : Option ℕ :=
  match raw with
  | some (.number n) => n.toNat?.filter fun index => decide (index < nodes.length)
  | _ => none

def resolve (inline : Json → Decode Item) (depth : ℕ) (raw : Option Json) : Decode Item := do
  enter limits depth
  match nodeIndex nodes raw with
  | none => throw (quoting platform "ref out of range: " raw)
  | some index =>
    note (.followed index)
    match (← get).built.get index with
    | some cached => return cached
    | none =>
      match nodes[index]? with
      | some (.object record) => buildNode platform limits inline index record
      | _ => throw (malformedAt "node" index)

def numToken (v : Option Json) : Decode Item :=
  match v with
  | some (.string token) =>
    if token = js "-0" then return .number .negZero
    else if token = js "NaN" then return .number .nan
    else if token = js "Infinity" then return .number (.infinity false)
    else if token = js "-Infinity" then return .number (.infinity true)
    else throw (quoting platform "malformed num token: " v)
  | v => throw (quoting platform "malformed num token: " v)

def bigintToken (v : Option Json) : Decode Item :=
  match v with
  | some (.string token) => do
    reject (!isBigIntToken token) (wireError "malformed bigint token")
    reject (limits.maxBigIntDigits < (splitSign token).2.length)
      (wireError "wire bigint digit limit exceeded")
    chargeString limits token
    note (.text token)
    return .bigint (bigIntOf token)
  | _ => throw (wireError "malformed bigint token")

/-- `inline` for a value of a record type. -/
def inlineRecord (inline : Json → Decode Item) (depth : ℕ) (record : List (JSString × Json)) :
    Decode Item :=
  let v := property record (js "v")
  match property record (js "$w") with
  | some (.string tag) =>
    if tag = js "undef" then return .undefined
    else if tag = js "num" then numToken platform v
    else if tag = js "bigint" then bigintToken limits v
    else if tag = js "ref" then
      resolve platform limits nodes inline depth (property record (js "i"))
    else throw (.wireDecodeError (js "unexpected inline tag: " ++ tag))
  | _ => throw (wireError "malformed wire: object without a tag inline")

/-- `inline` below its call of `enter`, with the calls at the next depth. -/
def inlineValue (inline : Json → Decode Item) (depth : ℕ) (w : Json) : Decode Item :=
  match w with
  | .null => return .null
  | .bool b => return .bool b
  | .string s => do
    chargeString limits s
    note (.text s)
    return .string s
  | .number (.finite q) => return .number (.finite q)
  | .number _ => throw (wireError "malformed wire: non-JSON number inline")
  | .array _ => throw (wireError "malformed wire: invalid inline value")
  | .object record => inlineRecord platform limits nodes inline depth record

def inline (depth : ℕ) (w : Json) : Decode Item :=
  -- `enter(depth)`
  if limits.maxDepth < depth then throw depthExceeded
  else inlineValue platform limits nodes (fun w => inline (depth + 1) w) depth w
termination_by limits.maxDepth + 1 - depth

variable {limits : Limits}

end Nifra.Wire
