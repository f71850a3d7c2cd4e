import Nifra.Text.Base64Url

/-! # Padded base64

The texts that the codec accepts for octets. Such a text is decoded, and to as many octets as its
length and its padding say.
-/

namespace Nifra.Wire

/-- The units of the class `[A-Za-z0-9+/]`. -/
def isBase64Unit (c : ℕ) : Bool := (base64Value c).isSome

/-- `/^(?:[A-Za-z0-9+/]{4})*(?:[A-Za-z0-9+/]{2}==|[A-Za-z0-9+/]{3}=)?$/u` -/
def isBase64 : JSString → Bool
  | [] => true
  | [a, b, 61, 61] => isBase64Unit a && isBase64Unit b
  | [a, b, c, 61] => isBase64Unit a && isBase64Unit b && isBase64Unit c
  | a :: b :: c :: d :: rest =>
    isBase64Unit a && isBase64Unit b && isBase64Unit c && isBase64Unit d && isBase64 rest
  | _ => false

def base64Padding (base64 : JSString) : ℕ :=
  if [61, 61].isSuffixOf base64 then 2 else if [61].isSuffixOf base64 then 1 else 0

namespace Padded

variable {base64 body : JSString} {values : List ℕ} {n : ℕ}

end Padded

end Nifra.Wire
