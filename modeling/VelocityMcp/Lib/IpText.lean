import VelocityMcp.Lib.Ip

/-!
# Lib.IpText — the texts of internet addresses (the parser of `std::net`)

A reader takes a value off the front of a text, or takes nothing.
-/

namespace Lib

/-! ## Readers -/

/-- A value, and the text behind it. -/
abbrev Reader (α : Type) := Bytes → Option (α × Bytes)

namespace IpText

def readGivenChar (target : UInt8) : Reader Unit
  | [] => none
  | x :: s => if x = target then some ((), s) else none

def toDigit (radix : ℕ) (x : UInt8) : Option ℕ :=
  let value : Option ℕ :=
    if 0x30 ≤ x ∧ x ≤ 0x39 then some (x.toNat - 0x30)
    else if 0x61 ≤ x ∧ x ≤ 0x7a then some (x.toNat - 0x61 + 10)
    else if 0x41 ≤ x ∧ x ≤ 0x5a then some (x.toNat - 0x41 + 10)
    else none
  value.filter (· < radix)

/-- The digits at the front of a text, and what is behind them. -/
def takeDigits (radix : ℕ) : Bytes → List ℕ × Bytes
  | [] => ([], [])
  | x :: s =>
    match toDigit radix x with
    | some d => let (ds, rest) := takeDigits radix s; (d :: ds, rest)
    | none => ([], x :: s)

/-- `read_number`: at most so many digits, if there is a limit, and a value up to `max`. -/
def readNumber (radix : ℕ) (maxDigits : Option ℕ) (allowZeroPrefix : Bool) (max : ℕ) : Reader ℕ := fun s =>
  let (ds, rest) := takeDigits radix s
  let value := ds.foldl (fun n d => n * radix + d) 0
  if ds = [] ∨ maxDigits.any (· < ds.length) then none
  else if allowZeroPrefix = false ∧ ds.head? = some 0 ∧ 1 < ds.length then none
  else if max < value then none
  else some (value, rest)

def readSeparator {α : Type} (sep : UInt8) (index : ℕ) (inner : Reader α) : Reader α := fun s =>
  if 0 < index then (readGivenChar sep s).bind fun r => inner r.2 else inner s

/-! ## Addresses -/

def readOctet (index : ℕ) : Reader UInt8 := fun s =>
  (readSeparator 0x2e index (readNumber 10 (some 3) false 255) s).map fun r => (UInt8.ofNat r.1, r.2)

def readIpv4Addr : Reader Ipv4Addr := fun s => do
  let (a, s) ← readOctet 0 s
  let (b, s) ← readOctet 1 s
  let (c, s) ← readOctet 2 s
  let (d, s) ← readOctet 3 s
  return (⟨a, b, c, d⟩, s)

/-- The two groups that an embedded IPv4 address makes. -/
def embedded (ip : Ipv4Addr) : List ℕ := [ip.a.toNat * 256 + ip.b.toNat, ip.c.toNat * 256 + ip.d.toNat]

/-- `read_groups`, with so many groups left to read: the groups, whether they end with an IPv4 address, and the rest. -/
def readGroups : (left index : ℕ) → Bytes → List ℕ × Bool × Bytes
  | 0, _, s => ([], false, s)
  | left + 1, index, s =>
    match (if 0 < left then readSeparator 0x3a index readIpv4Addr s else none) with
    | some (ip, s) => (embedded ip, true, s)
    | none =>
      match readSeparator 0x3a index (readNumber 16 (some 4) true 0xffff) s with
      | some (group, s) => let (groups, ipv4, s) := readGroups left (index + 1) s; (group :: groups, ipv4, s)
      | none => ([], false, s)

def ofGroups (g : List ℕ) : Ipv6Addr :=
  let at' (i : ℕ) : UInt16 := UInt16.ofNat (g.getD i 0)
  ⟨at' 0, at' 1, at' 2, at' 3, at' 4, at' 5, at' 6, at' 7⟩

def readIpv6Addr : Reader Ipv6Addr := fun s =>
  let (head, headIpv4, s) := readGroups 8 0 s
  if head.length = 8 then some (ofGroups head, s)
  else if headIpv4 then none
  else do
    let (_, s) ← readGivenChar 0x3a s
    let (_, s) ← readGivenChar 0x3a s
    let (tail, _, s) := readGroups (8 - (head.length + 1)) 0 s
    return (ofGroups (head ++ List.replicate (8 - head.length - tail.length) 0 ++ tail), s)

def readIpAddr : Reader IpAddr := fun s =>
  match readIpv4Addr s with
  | some (ip, s) => some (.v4 ip, s)
  | none => (readIpv6Addr s).map fun r => (.v6 r.1, r.2)

/-! ## Addresses with a port -/

/-- An address and a port. -/
structure SocketAddr where
  ip : IpAddr
  port : ℕ
deriving DecidableEq, Repr

def readPort : Reader ℕ := fun s => do
  let (_, s) ← readGivenChar 0x3a s
  readNumber 10 none true 0xffff s

/-- `read_scope_id`; without one, nothing is taken. -/
def skipScopeId (s : Bytes) : Bytes :=
  match readGivenChar 0x25 s with
  | some (_, s') =>
    match readNumber 10 none true 0xffffffff s' with
    | some (_, s'') => s''
    | none => s
  | none => s

def readSocketAddrV4 : Reader SocketAddr := fun s => do
  let (ip, s) ← readIpv4Addr s
  let (port, s) ← readPort s
  return (⟨.v4 ip, port⟩, s)

def readSocketAddrV6 : Reader SocketAddr := fun s => do
  let (_, s) ← readGivenChar 0x5b s
  let (ip, s) ← readIpv6Addr s
  let (_, s) ← readGivenChar 0x5d (skipScopeId s)
  let (port, s) ← readPort s
  return (⟨.v6 ip, port⟩, s)

def readSocketAddr : Reader SocketAddr := fun s => (readSocketAddrV4 s).or (readSocketAddrV6 s)

/-- `parse_with`: what is read of a text, if it is all read. -/
def parseWith {α : Type} (read : Reader α) (s : Bytes) : Option α :=
  match read s with
  | some (a, []) => some a
  | _ => none

/-- A text is read to its end. -/
def parseIpAddr (s : Bytes) : Option IpAddr := parseWith readIpAddr s

def parseSocketAddr (s : Bytes) : Option SocketAddr := parseWith readSocketAddr s

/-- An address in each of its forms. -/
example : parseIpAddr (utf8 "203.0.113.5") = some (.v4 ⟨203, 0, 113, 5⟩) ∧
    parseIpAddr (utf8 "2001:db8::5") = some (.v6 ⟨0x2001, 0xdb8, 0, 0, 0, 0, 0, 5⟩) ∧
    parseIpAddr (utf8 "::ffff:203.0.113.5") = some (.v6 ⟨0, 0, 0, 0, 0, 0xffff, 0xcb00, 0x7105⟩) ∧
    (parseSocketAddr (utf8 "203.0.113.5:80")).map (·.ip) = some (.v4 ⟨203, 0, 113, 5⟩) ∧
    (parseSocketAddr (utf8 "[2001:db8::5]:80")).map (·.port) = some 80 := by decide +kernel

end IpText

end Lib
