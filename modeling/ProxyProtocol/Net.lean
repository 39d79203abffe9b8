import ProxyProtocol.Lib.Utf8

/-! # Addresses

`std::net` addresses and the text forms the v1 header uses: `IpAddr::from_str`,
`u16::from_str` and the `Display` of addresses and ports. The readers follow
the standard library's parser group by group, because what they accept beyond
the usual notation (leading zeros, `+`, embedded IPv4) decides which v1 lines
are accepted.
-/

namespace ProxyProtocol

open Wire

/-- `std::net::Ipv4Addr`. -/
structure Ipv4Addr where
  octets : Octets 4
deriving DecidableEq, Repr

/-- `std::net::Ipv6Addr`. -/
structure Ipv6Addr where
  octets : Octets 16
deriving DecidableEq, Repr

/-- `Ipv4Addr::new`. -/
def Ipv4Addr.new (a b c d : UInt8) : Ipv4Addr := ⟨⟨[a, b, c, d], rfl⟩⟩

@[simp] theorem Ipv4Addr.bytes_new (a b c d : UInt8) :
    (Ipv4Addr.new a b c d).octets.bytes = [a, b, c, d] := rfl

theorem Ipv4Addr.exists_octets (ip : Ipv4Addr) : ∃ a b c d, ip = Ipv4Addr.new a b c d := by
  obtain ⟨⟨bytes, hlen⟩⟩ := ip
  obtain ⟨a, b, c, d, rfl⟩ := List.length_eq_four.mp hlen
  exact ⟨a, b, c, d, rfl⟩

inductive IpAddr where
  | v4 (addr : Ipv4Addr)
  | v6 (addr : Ipv6Addr)
deriving DecidableEq, Repr

/-- `std::net::SocketAddr`; the v6 form also carries flow information and a
scope id. -/
inductive SocketAddr where
  | v4 (ip : Ipv4Addr) (port : UInt16)
  | v6 (ip : Ipv6Addr) (port : UInt16) (flowinfo scopeId : UInt32)
deriving DecidableEq, Repr

namespace SocketAddr

/-- `SocketAddr::new`: no flow information, no scope. -/
def new : IpAddr → UInt16 → SocketAddr
  | .v4 ip, port => .v4 ip port
  | .v6 ip, port => .v6 ip port 0 0

def ip : SocketAddr → IpAddr
  | .v4 ip _ => .v4 ip
  | .v6 ip _ _ _ => .v6 ip

def port : SocketAddr → UInt16
  | .v4 _ port => port
  | .v6 _ port _ _ => port

def isIpv4 : SocketAddr → Bool
  | .v4 _ _ => true
  | .v6 _ _ _ _ => false

end SocketAddr

/-! ## Reading numbers -/

/-- `char::to_digit` for radix 10 and 16. -/
def toDigit (radix : ℕ) (b : UInt8) : Option ℕ :=
  let n := b.toNat
  let d :=
    if 0x30 ≤ n ∧ n ≤ 0x39 then n - 0x30
    else if 0x61 ≤ n ∧ n ≤ 0x66 then n - 0x61 + 10
    else if 0x41 ≤ n ∧ n ≤ 0x46 then n - 0x41 + 10
    else radix
  if d < radix then some d else none

/-- The value of a string of digits. -/
def digitsValue (radix : ℕ) (ds : List UInt8) : ℕ :=
  ds.foldl (fun acc b => acc * radix + (toDigit radix b).getD 0) 0

/-- `u16::from_str`: an optional `+`, then one or more decimal digits whose
value fits. -/
def u16FromStr (s : List UInt8) : Option UInt16 :=
  let digits := match s with
    | 0x2B :: rest => rest
    | _ => s
  if digits ≠ [] ∧ digits.all (fun b => (toDigit 10 b).isSome) ∧ digitsValue 10 digits ≤ 65535 then
    some (UInt16.ofNat (digitsValue 10 digits))
  else none

/-! ## The address parser

Each reader takes the remaining input and gives the rest back; `none` leaves
the input where it was. -/

/-- `read_number`: all digits that follow, at most `maxDigits` of them, with a
value of at most `bound`. -/
def readNumber (radix maxDigits : ℕ) (allowZeroPrefix : Bool) (bound : ℕ) (s : List UInt8) :
    Option (ℕ × List UInt8) :=
  let digits := s.takeWhile fun b => (toDigit radix b).isSome
  if digits = [] ∨ maxDigits < digits.length then none
  else if allowZeroPrefix = false ∧ digits.head? = some 0x30 ∧ 1 < digits.length then none
  else if digitsValue radix digits ≤ bound then
    some (digitsValue radix digits, s.drop digits.length)
  else none

/-- `read_given_char`. -/
def readGivenChar (target : UInt8) : List UInt8 → Option (List UInt8)
  | b :: rest => if b = target then some rest else none
  | [] => none

/-- `read_separator`: every group but the first is preceded by `sep`. -/
def readSeparator {α : Type} (sep : UInt8) (index : ℕ)
    (inner : List UInt8 → Option (α × List UInt8)) (s : List UInt8) : Option (α × List UInt8) :=
  if 0 < index then (readGivenChar sep s).bind inner else inner s

/-- `read_ipv4_addr`: four decimal groups without leading zeros. -/
def readIpv4Addr (s : List UInt8) : Option (Ipv4Addr × List UInt8) := do
  let (a, s) ← readSeparator 0x2E 0 (readNumber 10 3 false 255) s
  let (b, s) ← readSeparator 0x2E 1 (readNumber 10 3 false 255) s
  let (c, s) ← readSeparator 0x2E 2 (readNumber 10 3 false 255) s
  let (d, s) ← readSeparator 0x2E 3 (readNumber 10 3 false 255) s
  some (Ipv4Addr.new (UInt8.ofNat a) (UInt8.ofNat b) (UInt8.ofNat c) (UInt8.ofNat d), s)

/-- `read_groups`: up to `remaining` of `limit` groups, the last two possibly
as an embedded IPv4 address. The flag says that one was read. -/
def readGroups (limit : ℕ) : ℕ → List UInt8 → List UInt16 × Bool × List UInt8
  | 0, s => ([], false, s)
  | remaining + 1, s =>
      let index := limit - (remaining + 1)
      -- an embedded IPv4 address needs two free groups
      match if index + 1 < limit then readSeparator 0x3A index readIpv4Addr s else none with
      | some (v4, s) =>
          match v4.octets.bytes with
          | [a, b, c, d] => ([be16 a b, be16 c d], true, s)
          | _ => ([], true, s)
      | none =>
          match readSeparator 0x3A index (readNumber 16 4 true 65535) s with
          | some (g, s) =>
              let (gs, v4, s) := readGroups limit remaining s
              (UInt16.ofNat g :: gs, v4, s)
          | none => ([], false, s)

/-- `Ipv6Addr::from` eight 16-bit segments. -/
def Ipv6Addr.ofSegments (segments : List UInt16) : Option Ipv6Addr :=
  (Octets.tryFrom 16 (segments.flatMap be16Bytes)).map Ipv6Addr.mk

/-- `read_ipv6_addr`: eight groups, or fewer around one `::`. -/
def readIpv6Addr (s : List UInt8) : Option (Ipv6Addr × List UInt8) := do
  let (head, headIpv4, s) := readGroups 8 8 s
  if head.length = 8 then
    let addr ← Ipv6Addr.ofSegments head
    some (addr, s)
  else if headIpv4 then none
  else
    let s ← readGivenChar 0x3A s
    let s ← readGivenChar 0x3A s
    let limit := 8 - (head.length + 1)
    let (tail, _, s) := readGroups limit limit s
    let zeros := List.replicate (8 - head.length - tail.length) 0
    let addr ← Ipv6Addr.ofSegments (head ++ zeros ++ tail)
    some (addr, s)

/-- `IpAddr::from_str`: the whole input is one address. -/
def IpAddr.fromStr (s : List UInt8) : Option IpAddr :=
  let parsed : Option (IpAddr × List UInt8) :=
    match readIpv4Addr s with
    | some (addr, rest) => some (IpAddr.v4 addr, rest)
    | none => (readIpv6Addr s).map fun (addr, rest) => (IpAddr.v6 addr, rest)
  match parsed with
  | some (addr, []) => some addr
  | _ => none

/-! ## Display -/

/-- A number in the given radix, lower case. -/
def digitsOf (radix n : ℕ) : List UInt8 := (Nat.toDigits radix n).map Char.toUInt8

def Ipv4Addr.display (addr : Ipv4Addr) : List UInt8 :=
  List.intercalate [0x2E] (addr.octets.bytes.map fun b => digitsOf 10 b.toNat)

/-- `segments()`. -/
def pairs : List UInt8 → List UInt16
  | hi :: lo :: rest => be16 hi lo :: pairs rest
  | _ => []

/-- The longest run of zero segments, the first of equally long ones: start
and length. -/
def longestZeros (segments : List UInt16) : ℕ × ℕ :=
  let scan := segments.foldl (fun (acc : ℕ × (ℕ × ℕ) × (ℕ × ℕ)) (segment : UInt16) =>
    let (i, current, longest) := acc
    if segment = 0 then
      let current := if current.2 = 0 then (i, 1) else (current.1, current.2 + 1)
      (i + 1, current, if longest.2 < current.2 then current else longest)
    else (i + 1, (0, 0), longest)) (0, (0, 0), (0, 0))
  scan.2.2

def displaySegments (segments : List UInt16) : List UInt8 :=
  List.intercalate [0x3A] (segments.map fun g => digitsOf 16 g.toNat)

/-- IPv4-mapped addresses print the IPv4 part; otherwise the longest run of
two or more zero segments prints as `::`. -/
def Ipv6Addr.display (addr : Ipv6Addr) : List UInt8 :=
  let segments := pairs addr.octets.bytes
  match addr.octets.bytes with
  | [0, 0, 0, 0, 0, 0, 0, 0, 0, 0, 0xFF, 0xFF, a, b, c, d] =>
      [0x3A, 0x3A, 0x66, 0x66, 0x66, 0x66, 0x3A] ++ (Ipv4Addr.new a b c d).display
  | _ =>
      let (start, len) := longestZeros segments
      if 1 < len then
        displaySegments (segments.take start) ++ [0x3A, 0x3A] ++
          displaySegments (segments.drop (start + len))
      else displaySegments segments

def IpAddr.display : IpAddr → List UInt8
  | .v4 addr => addr.display
  | .v6 addr => addr.display

end ProxyProtocol
