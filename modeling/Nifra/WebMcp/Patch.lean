import Nifra.Lib.Conditions
import Nifra.Lib.Split
import Nifra.Text.Fields
import Nifra.Text.JSONValue
import Nifra.Text.Utf8

/-! # Patches

The subset of JSON patches that a prediction may hold, over states of JSON: pointers are decoded
and walked as `applyPredictionPatch` does, and every value is cloned and measured.
-/

namespace Nifra.WebMcp

open JSON (Value isDigit natOfDigits setProperty)

def deepEqual (a b : Value) : Bool := a.stringify = b.stringify

/-- A value as the caller passes it: what `structuredClone` and `JSON.stringify` make of it. -/
inductive CallerValue
  | json (value : Value)
  | uncloneable
  | unserializable
  | unprintable (error : JSError)
  deriving Repr

inductive PatchOperation
  | add (path : JSString) (value : CallerValue)
  | replace (path : JSString) (value : CallerValue)
  | remove (path : JSString)
  deriving Repr

def PatchOperation.path : PatchOperation → JSString
  | .add path _ => path
  | .replace path _ => path
  | .remove path => path

def clonePatchValue : CallerValue → Except JSError Value
  | .json value =>
    if 64 * 1024 < (encodeUtf8 value.stringify).length then
      .error (.rangeError "agent surface: patch value exceeds its size limit")
    else .ok value
  | .uncloneable => .error (.typeError "agent surface: patch value must be structured-cloneable JSON")
  | .unserializable => .error (.typeError "agent surface: patch value must be JSON-serializable")
  | .unprintable error => .error error

/-- The `~` units that no `0` and no `1` follows. -/
def badEscape : JSString → Bool
  | [] => false
  | c :: rest => c = 126 && rest.head? ≠ some 48 && rest.head? ≠ some 49 || badEscape rest

/-- `replace` of `~` and a digit, everywhere. -/
def unescape (digit unit : ℕ) : JSString → JSString
  | [] => []
  | [c] => [c]
  | c :: d :: rest =>
    if c = 126 ∧ d = digit then unit :: unescape digit unit rest
    else c :: unescape digit unit (d :: rest)

def decodeSegment (segment : JSString) : Except JSError JSString :=
  if badEscape segment then .error (.typeError "agent surface: patch pointer escape is invalid")
  else .ok (unescape 48 126 (unescape 49 47 segment))

def forbiddenPathSegments : List JSString := [js "__proto__", js "constructor", js "prototype"]

def decodePointer : JSString → Except JSError (List JSString)
  | [] => .ok []
  | c :: rest =>
    if c = 47 then do
      let segments ← (rest.splitOn 47).mapM decodeSegment
      if segments.any forbiddenPathSegments.contains then
        .error (.typeError "agent surface: prototype path is forbidden")
      else .ok segments
    else .error (.typeError "agent surface: patch path must be a JSON Pointer")

def isIndex : JSString → Bool
  | [] => false
  | c :: rest => isDigit c && rest.all isDigit && (c ≠ 48 || rest.isEmpty)

def arrayIndex (segment : JSString) (length : ℕ) (allowEnd : Bool) : Except JSError ℕ :=
  if isIndex segment then
    let index := natOfDigits segment
    if !isSafeInteger index || length < index || !allowEnd && index = length then
      .error (.typeError "agent surface: array index is out of bounds")
    else .ok index
  else .error (.typeError "agent surface: array index is invalid")

def getField (fields : List (JSString × Value)) (key : JSString) : Option Value :=
  (fields.find? fun field => field.1 = key).map Prod.snd

/-- `readPointer`, and the change of what it finds. -/
def modifyAt (change : Value → Except JSError Value) :
    List JSString → Value → Except JSError Value
  | [], document => change document
  | segment :: segments, .array items => do
    let index ← arrayIndex segment items.length false
    let item ← modifyAt change segments (items.getD index .null)
    .ok (.array (items.set index item))
  | segment :: segments, .object fields =>
    match getField fields segment with
    | some field => do
      let field ← modifyAt change segments field
      .ok (.object (setProperty fields segment field))
    | none => .error (.typeError "agent surface: patch parent is missing")
  | _ :: _, _ => .error (.typeError "agent surface: patch parent is missing")

def applyToParent (operation : PatchOperation) (leaf : JSString) :
    Value → Except JSError Value
  | .array items =>
    match operation with
    | .add _ value =>
      if leaf = js "-" then do
        let value ← clonePatchValue value
        .ok (.array (items ++ [value]))
      else do
        let index ← arrayIndex leaf items.length true
        let value ← clonePatchValue value
        .ok (.array (items.insertIdx index value))
    | .replace _ value => do
      let index ← arrayIndex leaf items.length false
      let value ← clonePatchValue value
      .ok (.array (items.set index value))
    | .remove _ => do
      let index ← arrayIndex leaf items.length false
      .ok (.array (items.eraseIdx index))
  | .object fields =>
    match operation with
    | .add _ value => do
      let value ← clonePatchValue value
      .ok (.object (setProperty fields leaf value))
    | .replace _ value =>
      if (getField fields leaf).isNone then
        .error (.typeError "agent surface: replace target is missing")
      else do
        let value ← clonePatchValue value
        .ok (.object (setProperty fields leaf value))
    | .remove _ =>
      if (getField fields leaf).isNone then
        .error (.typeError "agent surface: remove target is missing")
      else .ok (.object (fields.filter fun field => field.1 ≠ leaf))
  | _ => .error (.typeError "agent surface: patch parent is not an object")

def applyPredictionOperation (document : Value) (operation : PatchOperation) :
    Except JSError Value := do
  let segments ← decodePointer operation.path
  match segments.getLast? with
  | none =>
    match operation with
    | .add _ value => clonePatchValue value
    | .replace _ value => clonePatchValue value
    | .remove _ => .error (.typeError "agent surface: root removal is forbidden")
  | some leaf => modifyAt (applyToParent operation leaf) segments.dropLast document

def applyPredictionPatch (state : Value) (operations : List PatchOperation) :
    Except JSError Value :=
  operations.foldlM applyPredictionOperation state

/-- The checks of `validatePrediction` on a patch. -/
def validatePatch (patch : List PatchOperation) : Except JSError Unit :=
  if 256 < patch.length then .error (.typeError "agent surface: prediction patch is invalid")
  else patch.forM fun operation =>
    if 256 < operation.path.length then
      .error (.typeError "agent surface: prediction path is invalid")
    else (decodePointer operation.path).map fun _ => ()

example :
    (applyPredictionPatch (.array [])
      [.add (js "/-") (.json (.string (js "a"))), .add (js "/0") (.json .null)]).map
        Value.stringify = .ok (js "[null,\"a\"]") := by
  decide +kernel

end Nifra.WebMcp
