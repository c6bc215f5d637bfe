import VelocityMcp.Lib.Bytes

/-!
# Lib.Ip — internet addresses (`std::net`)

`Ipv4Addr`, `Ipv6Addr`, `IpAddr`, and the blocks that they can lie in.
-/

namespace Lib

structure Ipv4Addr where
  a : UInt8
  b : UInt8
  c : UInt8
  d : UInt8
deriving DecidableEq, Repr

namespace Ipv4Addr

variable (ip : Ipv4Addr)

def isLoopback : Bool := ip.a = 127

/-- 10.0.0.0/8, 172.16.0.0/12 and 192.168.0.0/16. -/
def isPrivate : Bool := ip.a = 10 || (ip.a = 172 && 16 ≤ ip.b && ip.b ≤ 31) || (ip.a = 192 && ip.b = 168)

def isLinkLocal : Bool := ip.a = 169 && ip.b = 254

def isUnspecified : Bool := ip = ⟨0, 0, 0, 0⟩

def isBroadcast : Bool := ip = ⟨255, 255, 255, 255⟩

/-- 192.0.2.0/24, 198.51.100.0/24 and 203.0.113.0/24. -/
def isDocumentation : Bool :=
  (ip.a = 192 && ip.b = 0 && ip.c = 2) || (ip.a = 198 && ip.b = 51 && ip.c = 100) ||
    (ip.a = 203 && ip.b = 0 && ip.c = 113)

/-- The addresses of a machine itself and of its own network, also as IPv4-mapped ones. -/
def isInternal : Bool := ip.isLoopback || ip.isPrivate || ip.isLinkLocal || ip.isUnspecified

end Ipv4Addr

structure Ipv6Addr where
  s0 : UInt16
  s1 : UInt16
  s2 : UInt16
  s3 : UInt16
  s4 : UInt16
  s5 : UInt16
  s6 : UInt16
  s7 : UInt16
deriving DecidableEq, Repr

namespace Ipv6Addr

variable (ip : Ipv6Addr)

def isLoopback : Bool := ip = ⟨0, 0, 0, 0, 0, 0, 0, 1⟩

def isUnspecified : Bool := ip = ⟨0, 0, 0, 0, 0, 0, 0, 0⟩

def isUniqueLocal : Bool := ip.s0 &&& 0xfe00 = 0xfc00

def isUnicastLinkLocal : Bool := ip.s0 &&& 0xffc0 = 0xfe80

/-- The address `a.b.c.d` in `::ffff:a.b.c.d`. -/
def toIpv4Mapped : Option Ipv4Addr :=
  if ip.s0 = 0 ∧ ip.s1 = 0 ∧ ip.s2 = 0 ∧ ip.s3 = 0 ∧ ip.s4 = 0 ∧ ip.s5 = 0xffff then
    some ⟨(ip.s6 >>> 8).toUInt8, ip.s6.toUInt8, (ip.s7 >>> 8).toUInt8, ip.s7.toUInt8⟩
  else none

def isMappedInternal : Bool := ip.toIpv4Mapped.any Ipv4Addr.isInternal

def isInternal : Bool :=
  ip.isLoopback || ip.isUnspecified || ip.isUniqueLocal || ip.isUnicastLinkLocal || ip.isMappedInternal

variable {ip}

theorem segments_of_mapped (h : ip.isMappedInternal) : ip.s0 = 0 ∧ ip.s5 = 0xffff := by
  rw [isMappedInternal, toIpv4Mapped] at h
  split_ifs at h with hmapped
  · exact ⟨hmapped.1, hmapped.2.2.2.2.2⟩
  · cases h

theorem not_isUniqueLocal_of_linkLocal (h : ip.isUnicastLinkLocal) : ¬ ip.isUniqueLocal := by
  rw [isUnicastLinkLocal, decide_eq_true_iff] at h
  rw [isUniqueLocal, decide_eq_true_iff]
  intro hlocal
  have hmask : ip.s0 &&& 0xfe00 = (ip.s0 &&& 0xffc0) &&& 0xfe00 := by
    rw [UInt16.and_assoc]
    rfl
  rw [hmask, h] at hlocal
  exact absurd hlocal (by decide)

theorem not_loopback_or_unspecified_of_linkLocal (h : ip.isUnicastLinkLocal) :
    ¬ ip.isLoopback ∧ ¬ ip.isUnspecified := by
  rw [isUnicastLinkLocal, decide_eq_true_iff] at h
  rw [isLoopback, isUnspecified, decide_eq_true_iff, decide_eq_true_iff]
  constructor
  · rintro rfl
    exact absurd h (by decide)
  · rintro rfl
    exact absurd h (by decide)

theorem not_isUniqueLocal_of_mapped (h : ip.isMappedInternal) : ¬ ip.isUniqueLocal := by
  rw [isUniqueLocal, decide_eq_true_iff, (segments_of_mapped h).1]
  decide

theorem not_loopback_or_unspecified_of_mapped (h : ip.isMappedInternal) : ¬ ip.isLoopback ∧ ¬ ip.isUnspecified := by
  have hsegment := (segments_of_mapped h).2
  rw [isLoopback, isUnspecified, decide_eq_true_iff, decide_eq_true_iff]
  constructor
  · rintro rfl
    exact absurd hsegment (by decide)
  · rintro rfl
    exact absurd hsegment (by decide)

end Ipv6Addr

/-- An address of either kind. -/
inductive IpAddr where
  | v4 (ip : Ipv4Addr)
  | v6 (ip : Ipv6Addr)
deriving DecidableEq, Repr

def IpAddr.isInternal : IpAddr → Bool
  | v4 ip => ip.isInternal
  | v6 ip => ip.isInternal

end Lib
