import Mathlib.Data.Rat.Defs
import Nifra.Lib.InsertionMap
import Nifra.Text.JSONValue
import Nifra.Text.Utf8

/-! # What the wire carries, and what it is decoded to

Values as `JSON.parse` gives them, the text that `String` makes of one, and the decoded values
with the heap that their objects live in.
-/

namespace Nifra.Wire

open JSON (isDigit natOfDigits)

/-- A number: a finite double other than `-0` is a rational. -/
inductive JSNumber
  | finite (q : ℚ)
  | negZero
  | infinity (negative : Bool)
  | nan
  deriving DecidableEq

namespace JSNumber

def toNat? : JSNumber → Option ℕ
  | .finite q => if q.den = 1 ∧ 0 ≤ q then some q.num.toNat else none
  | .negZero => some 0
  | _ => none

end JSNumber

/-- A value that `JSON.parse` returns; the fields of an object stand in the order of
`Object.keys`. -/
inductive Json
  | null
  | bool (b : Bool)
  | number (n : JSNumber)
  | string (s : JSString)
  | array (items : List Json)
  | object (fields : List (JSString × Json))

/-- The value of a property, `none` when it is `undefined`. No property of the prototype has one
of the names that are read here. -/
def property (fields : List (JSString × Json)) (key : JSString) : Option Json :=
  (fields.find? fun field => field.1 = key).map Prod.snd

/-- The printing of numbers, and the constructors of dates, regular expressions and URLs: `none`
for `new Date` of a text that is no date, and when the other two throw. -/
structure Platform where
  numberText : JSNumber → JSString
  parseDate : JSString → Option ℤ
  isoString : ℤ → JSString
  isRegExp : JSString → JSString → Bool
  parseUrl : JSString → Option JSString

mutual

/-- `String(value)`, `none` when it throws: an own `toString` is no function, and `valueOf` gives
no primitive. -/
def toText (platform : Platform) : Json → Option JSString
  | .null => some (js "null")
  | .bool true => some (js "true")
  | .bool false => some (js "false")
  | .number n => some (platform.numberText n)
  | .string s => some s
  | .array items => (joined platform items).map ([44].intercalate)
  | .object fields =>
    if (property fields (js "toString")).isSome then none else some (js "[object Object]")

def joined (platform : Platform) : List Json → Option (List JSString)
  | [] => some []
  | .null :: items => (joined platform items).map ([] :: ·)
  | item :: items =>
    (toText platform item).bind fun text => (joined platform items).map (text :: ·)

end

inductive Item
  | undefined
  | null
  | bool (b : Bool)
  | number (n : JSNumber)
  | string (s : JSString)
  | bigint (n : ℤ)
  | object (address : ℕ)
  deriving DecidableEq

/-- A key of a `Map` or an item of a `Set` as it is stored. -/
def Item.normalize : Item → Item
  | .number .negZero => .number (.finite 0)
  | item => item

def typedArrays : List (JSString × ℕ) := [
  (js "Int8Array", 1), (js "Uint8Array", 1), (js "Uint8ClampedArray", 1), (js "Int16Array", 2),
  (js "Uint16Array", 2), (js "Int32Array", 4), (js "Uint32Array", 4), (js "Float32Array", 4),
  (js "Float64Array", 8), (js "BigInt64Array", 8), (js "BigUint64Array", 8)]

def inheritedNames : List JSString := [
  js "constructor", js "__defineGetter__", js "__defineSetter__", js "hasOwnProperty",
  js "__lookupGetter__", js "__lookupSetter__", js "isPrototypeOf", js "propertyIsEnumerable",
  js "toString", js "valueOf", js "__proto__", js "toLocaleString"]

inductive Cell
  | obj (fields : InsertionMap JSString Item)
  | arr (items : List Item)
  | map (entries : InsertionMap Item Item)
  | set (items : List Item)
  | date (time : Option ℤ)
  | regexp (source flags : JSString)
  | url (href : JSString)
  | buf (bytes : List ℕ)
  | dv (bytes : List ℕ)
  | ta (kind : JSString) (bytes : List ℕ)

namespace Cell

def define (key : JSString) (item : Item) : Cell → Cell
  | .obj fields => .obj (fields.set key item)
  | cell => cell

def push (item : Item) : Cell → Cell
  | .arr items => .arr (items ++ [item])
  | cell => cell

def put (key item : Item) : Cell → Cell
  | .map entries => .map (entries.set key.normalize item)
  | cell => cell

def add (item : Item) : Cell → Cell
  | .set items => .set (if item.normalize ∈ items then items else items ++ [item.normalize])
  | cell => cell

end Cell

def unitBytes (code : ℕ) : ℕ := if code < 0x80 then 1 else if code < 0x800 then 2 else 3

/-- The loop of `utf8ByteLength`, with the bytes counted so far. -/
def utf8ByteLengthFrom (stopAfter : ℕ) : ℕ → JSString → ℕ
  | bytes, [] => bytes
  | bytes, [code] => bytes + unitBytes code
  | bytes, code :: next :: rest =>
    if JSON.isLeadSurrogate code ∧ JSON.isTrailSurrogate next then
      if stopAfter < bytes + 4 then bytes + 4 else utf8ByteLengthFrom stopAfter (bytes + 4) rest
    else if stopAfter < bytes + unitBytes code then bytes + unitBytes code
    else utf8ByteLengthFrom stopAfter (bytes + unitBytes code) (next :: rest)

/-- `utf8ByteLength`, with the bound after which it stops counting. -/
def utf8ByteLength (stopAfter : ℕ) (value : JSString) : ℕ := utf8ByteLengthFrom stopAfter 0 value

def utf8Length : JSString → ℕ
  | [] => 0
  | [code] => unitBytes code
  | code :: next :: rest =>
    if JSON.isLeadSurrogate code ∧ JSON.isTrailSurrogate next then 4 + utf8Length rest
    else unitBytes code + utf8Length (next :: rest)

def splitSign : JSString → Bool × JSString
  | 45 :: digits => (true, digits)
  | digits => (false, digits)

/-- `/^-?(?:0|[1-9][0-9]*)$/u` -/
def isBigIntToken (token : JSString) : Bool :=
  match (splitSign token).2 with
  | [] => false
  | [48] => true
  | c :: digits => isDigit c && c != 48 && digits.all isDigit

def bigIntOf (token : JSString) : ℤ :=
  let (negative, digits) := splitSign token
  if negative then -natOfDigits digits else natOfDigits digits

end Nifra.Wire
