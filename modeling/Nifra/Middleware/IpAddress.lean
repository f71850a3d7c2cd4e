import Nifra.Lib.Positional
import Nifra.Text.Fields

/-! # IP addresses

Texts of IPv4 and IPv6 addresses, the rate-limit bucket of an address, and the ranges of an
allow or deny list.
-/

namespace Nifra.Ip

inductive IpVersion
  | v4
  | v6
  deriving DecidableEq

structure ParsedIp where
  version : IpVersion
  value : ℕ
  deriving DecidableEq

/-- `/^\d{1,3}$/` -/
def isOctetText (part : JSString) : Bool :=
  decide (1 ≤ part.length ∧ part.length ≤ 3) && part.all JSON.isDigit

def parseOctets : List JSString → ℕ → Option ℕ
  | [], out => some out
  | part :: parts, out =>
    if isOctetText part then
      let n := JSON.natOfDigits part
      if 255 < n then none else parseOctets parts (out <<< 8 ||| n)
    else none

def parseIPv4 (input : JSString) : Option ℕ :=
  let parts := input.splitOn 46
  if parts.length ≠ 4 then none else parseOctets parts 0

/-- `toLowerCase`. No character outside ASCII becomes a digit, a letter up to `f`, a dot, a colon or
a percent sign by it. -/
def toLowerCase (s : JSString) : JSString := s.map fun c => if 65 ≤ c ∧ c ≤ 90 then c + 32 else c

/-- `n.toString(16)` -/
def hexText (n : ℕ) : JSString :=
  if n = 0 then [48] else (Nat.digits 16 n).reverse.map JSON.hexDigit

/-- `s.lastIndexOf(c)` -/
def lastIndexOf (c : ℕ) (s : JSString) : Option ℕ :=
  (s.reverse.idxOf? c).map (s.length - 1 - ·)

def embedIPv4 (source : JSString) : Option JSString :=
  if 46 ∈ source then
    (lastIndexOf 58 source).bind fun lastColon =>
      (parseIPv4 (source.drop (lastColon + 1))).map fun ipv4 =>
        source.take lastColon ++ 58 :: hexText (ipv4 >>> 16 &&& 0xffff)
          ++ 58 :: hexText (ipv4 &&& 0xffff)
  else some source

/-- `s.split("::")` -/
def splitCompressed : JSString → List JSString
  | [] => [[]]
  | 58 :: 58 :: rest => [] :: splitCompressed rest
  | c :: rest => (splitCompressed rest).modifyHead (c :: ·)

def groupsOf (half : JSString) : List JSString := if half = [] then [] else half.splitOn 58

/-- `/^[0-9a-f]{1,4}$/` -/
def isGroupText (g : JSString) : Bool :=
  decide (1 ≤ g.length ∧ g.length ≤ 4)
    && g.all fun c => decide (48 ≤ c ∧ c ≤ 57) || decide (97 ≤ c ∧ c ≤ 102)

/-- `Number.parseInt(group, 16)` of hexadecimal digits. -/
def parseHex (group : JSString) : ℕ := positional 16 (group.map fun c => (hexValue c).getD 0)

/-- The rest of `parseIPv6`, once no dotted quad is left in the source. -/
def parseGroups (source : JSString) : Option ℕ :=
  let halves := splitCompressed source
  if 2 < halves.length then none
  else
    let left := groupsOf (halves.headD [])
    let right := if halves.length = 1 then [] else groupsOf (halves.getD 1 [])
    let groups := left ++ right
    if !groups.all isGroupText then none
    else
      let missing : ℤ := 8 - groups.length
      if halves.length = 1 ∧ missing ≠ 0 ∨ halves.length ≠ 1 ∧ missing < 1 then none
      else
        let expanded :=
          if halves.length = 1 then groups
          else left ++ List.replicate missing.toNat [48] ++ right
        some ((expanded.map parseHex).foldl (fun out group => out <<< 16 ||| group) 0)

def parseIPv6 (input : JSString) : Option ℕ :=
  if 37 ∈ input then none else (embedIPv4 (toLowerCase input)).bind parseGroups

def parseIp (input : JSString) : Option ParsedIp :=
  let trimmed := trim input
  let unbracketed :=
    if trimmed.head? = some 91 ∧ trimmed.getLast? = some 93 then trimmed.tail.dropLast
    else trimmed
  match parseIPv4 unbracketed with
  | some v4 => some ⟨.v4, v4⟩
  | none =>
    (parseIPv6 unbracketed).map fun v6 =>
      if v6 >>> 32 = 0xffff then ⟨.v4, v6 &&& 0xffffffff⟩ else ⟨.v6, v6⟩

/-- What the loop of `canonicalIPv4Literal` keeps of the octet it is in. -/
structure Literal where
  octets : ℕ
  digits : ℕ
  value : ℕ
  firstDigit : ℕ

def Literal.isOpen (s : Literal) : Prop := s.digits = 0 ∨ 1 < s.digits ∧ s.firstDigit = 48

instance (s : Literal) : Decidable s.isOpen := inferInstanceAs (Decidable (_ ∨ _))

/-- A turn of the loop, `none` where it returns `null`. -/
def Literal.turn (s : Literal) (code : ℕ) : Option Literal :=
  if code = 46 then
    if s.isOpen ∨ s.octets = 3 then none else some ⟨s.octets + 1, 0, 0, 0⟩
  else if code < 48 ∨ 57 < code ∨ s.digits = 3 then none
  else if s.digits = 1 ∧ s.firstDigit = 48 then none
  else
    let value := s.value * 10 + code - 48
    if 255 < value then none
    else some ⟨s.octets, s.digits + 1, value, if s.digits = 0 then code else s.firstDigit⟩

def canonicalIPv4Literal (input : JSString) : Option JSString :=
  (input.foldlM Literal.turn ⟨0, 0, 0, 0⟩).bind fun s =>
    if s.octets ≠ 3 ∨ s.isOpen then none else some input

/-- `prefix.padStart(16, "0")` -/
def padStart (text : JSString) : JSString := List.replicate (16 - text.length) 48 ++ text

def bucketParsedIp (parsed : ParsedIp) : JSString :=
  let value := parsed.value
  match parsed.version with
  | .v4 => [46].intercalate [decimal (value >>> 24 &&& 255), decimal (value >>> 16 &&& 255),
      decimal (value >>> 8 &&& 255), decimal (value &&& 255)]
  | .v6 =>
    let network := padStart (hexText (value >>> 64))
    [58].intercalate [network.take 4, (network.drop 4).take 4, (network.drop 8).take 4,
      network.drop 12] ++ js "::/64"

def ipBucketForAddress (ip : JSString) : Option JSString :=
  match canonicalIPv4Literal ip with
  | some canonicalV4 => some canonicalV4
  | none => (parseIp ip).map bucketParsedIp

/-- `ipBucket`, which keeps what is no address. -/
def ipBucket (ip : JSString) : JSString :=
  if 58 ∉ ip then ip
  else if (js "::ffff:").isPrefixOf ip ∧ 46 ∈ ip.drop 7 ∧ 58 ∉ ip.drop 7 then ip.drop 7
  else
    match parseIp ip with
    | none => ip
    | some parsed => bucketParsedIp parsed

structure Range where
  version : IpVersion
  network : ℕ
  mask : ℕ
  deriving DecidableEq

def IpVersion.bits : IpVersion → ℕ
  | .v4 => 32
  | .v6 => 128

/-- The prefix length a range asks for; `none` is no integer. -/
def prefixOf (input : JSString) (slash : Option ℕ) (bits mapped : ℕ) : Option ℤ :=
  match slash with
  | none => some bits
  | some slash =>
    let digits := input.drop (slash + 1)
    if digits ≠ [] ∧ digits.all JSON.isDigit then
      match Double.ofNat (JSON.natOfDigits digits) with
      | none => none
      | some n => some ((n : ℤ) - mapped)
    else some (-1)

/-- `parseRange`, with the text of its error. -/
def parseRange (input : JSString) : Except JSString Range :=
  let slash := input.idxOf? 47
  let address := match slash with
    | none => input
    | some slash => input.take slash
  match parseIp address with
  | none => .error (js "ipRestriction: invalid IP/CIDR " ++ JSON.ofString input)
  | some ip =>
    let bits := ip.version.bits
    let mapped := if ip.version = .v4 ∧ 58 ∈ address then 96 else 0
    match prefixOf input slash bits mapped with
    | none => .error (js "ipRestriction: invalid CIDR prefix " ++ JSON.ofString input)
    | some length =>
      if length < 0 ∨ bits < length then
        .error (js "ipRestriction: invalid CIDR prefix " ++ JSON.ofString input)
      else
        let full := (1 <<< bits) - 1
        let mask := if length = 0 then 0 else full ^^^ ((1 <<< (bits - length.toNat)) - 1)
        .ok ⟨ip.version, ip.value &&& mask, mask⟩

def matchRange (ip : ParsedIp) (range : Range) : Bool :=
  ip.version == range.version && (ip.value &&& range.mask) == range.network

end Nifra.Ip
