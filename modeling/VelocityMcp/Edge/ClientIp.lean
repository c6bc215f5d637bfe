import Mathlib.Data.List.Basic
import VelocityMcp.Lib.IpText

/-!
# Edge.ClientIp — to which address a request is charged (`extract_client_ip` of the edge server)

`independent_iff`: behind which proxies the address does not depend on what the client sent.
-/

namespace VelocityMcp.Edge

open Lib Lib.IpText

/-! ## The address of a request -/

/-- `is_trusted_proxy`: loopback, unspecified and private addresses; of IPv6 only the first two. -/
def isTrustedProxy : IpAddr → Bool
  | .v4 ip => ip.isLoopback || ip.isUnspecified || ip.isPrivate
  | .v6 ip => ip.isLoopback || ip.isUnspecified

/-- The bytes that `to_str` of a header value accepts. -/
def isVisible (b : UInt8) : Bool := (0x20 ≤ b && b < 0x7f) || b = 0x09

def isBlankByte (b : UInt8) : Bool := (0x09 ≤ b && b ≤ 0x0d) || b = 0x20

/-- `trim`, of an ASCII text. -/
def trimBytes (s : Bytes) : Bytes := ((s.dropWhile isBlankByte).reverse.dropWhile isBlankByte).reverse

/-- An entry of the header: an address, or an address with a port. -/
def parseEntry (entry : Bytes) : Option IpAddr := (parseIpAddr entry).or ((parseSocketAddr entry).map (·.ip))

/-- The address of an entry, if it is not the one of a trusted proxy. -/
def untrusted (entry : Bytes) : Option IpAddr := (parseEntry entry).filter fun ip => !isTrustedProxy ip

/-- The entries of a line, from right to left. -/
def scan (value : Bytes) : Option IpAddr := ((value.splitOn 0x2c).map trimBytes).reverse.findSome? untrusted

/-- `extract_client_ip`, of a request with these `X-Forwarded-For` lines. -/
def extractClientIp (lines : List Bytes) (peer : SocketAddr) : IpAddr :=
  if isTrustedProxy peer.ip then
    match lines.head? with
    | some value => if value.all isVisible then (scan value).getD peer.ip else peer.ip
    | none => peer.ip
  else peer.ip

/-! ## Proxies -/

/-- Where a proxy puts the address of its client: with all that the client sent into one line, at the end of the
client's last line, or into a line of its own behind the client's. -/
inductive Layout where
  | merged
  | lastLine
  | newLine
deriving DecidableEq, Repr

/-- A proxy, and whether it lets no bytes through but visible ASCII characters. -/
structure Proxy where
  layout : Layout
  plainOnly : Bool
deriving DecidableEq, Repr

/-- What a proxy writes for its client. -/
structure Entry where
  text : Bytes
  visible : text.all isVisible = true
  noComma : (0x2c : UInt8) ∉ text

def comma : Bytes := [0x2c, 0x20]

/-- The lines that reach the server. -/
def Proxy.forward (p : Proxy) (client : List Bytes) (entry : Entry) : List Bytes :=
  match client.getLast?, p.layout with
  | none, _ => [entry.text]
  | some _, .merged => [comma.intercalate client ++ comma ++ entry.text]
  | some last, .lastLine => client.dropLast ++ [last ++ comma ++ entry.text]
  | some _, .newLine => client ++ [entry.text]

def isHeaderByte (b : UInt8) : Bool := (0x20 ≤ b && b ≠ 0x7f) || b = 0x09

/-- What a client can send through a proxy. -/
def Proxy.Passes (p : Proxy) (client : List Bytes) : Prop :=
  ∀ line ∈ client, ∀ b ∈ line, isHeaderByte b = true ∧ (p.plainOnly = true → isVisible b = true)

/-- What the client sent makes no difference. -/
def Independent (p : Proxy) (entry : Entry) (peer : SocketAddr) : Prop := ∀ client client',
  p.Passes client → p.Passes client' →
    extractClientIp (p.forward client entry) peer = extractClientIp (p.forward client' entry) peer

/-! ## The scan -/

variable {p : Proxy} {entry : Entry} {peer : SocketAddr}

theorem trimBytes_blank (s : Bytes) : trimBytes (0x20 :: s) = trimBytes s := by
  rw [trimBytes, trimBytes, List.dropWhile_cons_of_pos (by decide)]

/-- The entry of the proxy comes first; what is before it counts where it has no address. -/
theorem scan_append (front : Bytes) (entry : Entry) :
    scan (front ++ comma ++ entry.text) = (untrusted (trimBytes entry.text)).or (scan front) := by
  have hblank : (0x2c : UInt8) ∉ 0x20 :: entry.text := by
    rw [List.mem_cons, not_or]
    exact ⟨by decide, entry.noComma⟩
  have hsplit : (front ++ comma ++ entry.text).splitOn 0x2c = front.splitOn 0x2c ++ [0x20 :: entry.text] := by
    rw [List.append_assoc]
    show (front ++ 0x2c :: (0x20 :: entry.text)).splitOn 0x2c = _
    rw [List.splitOn_append_cons_self, List.splitOn_eq_singleton hblank]
  rw [scan, scan, hsplit, List.map_append, List.reverse_append, List.findSome?_append, List.map_cons, trimBytes_blank]
  congr 1
  show List.findSome? untrusted [trimBytes entry.text] = _
  rw [List.findSome?_cons]
  cases untrusted (trimBytes entry.text) <;> rfl

theorem scan_entry (entry : Entry) : scan entry.text = untrusted (trimBytes entry.text) := by
  rw [scan, List.splitOn_eq_singleton entry.noComma]
  show List.findSome? untrusted [trimBytes entry.text] = _
  rw [List.findSome?_cons]
  cases untrusted (trimBytes entry.text) <;> rfl

theorem extract_cons (hpeer : isTrustedProxy peer.ip = true) {value : Bytes} (hvalue : value.all isVisible = true)
    (lines : List Bytes) : extractClientIp (value :: lines) peer = (scan value).getD peer.ip := by
  rw [extractClientIp, if_pos hpeer, List.head?_cons]
  exact if_pos hvalue

theorem extract_unreadable (hpeer : isTrustedProxy peer.ip = true) {value : Bytes}
    (hvalue : value.all isVisible = false) (lines : List Bytes) : extractClientIp (value :: lines) peer = peer.ip := by
  rw [extractClientIp, if_pos hpeer, List.head?_cons]
  exact if_neg (by rw [hvalue]; exact Bool.false_ne_true)

/-! ## Independence -/

theorem all_visible_intercalate {client : List Bytes} (h : ∀ line ∈ client, line.all isVisible = true) :
    (comma.intercalate client).all isVisible = true := by
  induction client with
  | nil => rfl
  | cons line client ih =>
    cases client with
    | nil => simpa using h line List.mem_cons_self
    | cons next client =>
      rw [List.intercalate_cons_cons, List.all_append, List.all_append, h line List.mem_cons_self,
        ih fun l hl => h l (List.mem_cons_of_mem _ hl)]
      rfl

/-- A proxy that merges the lines, and lets only visible characters through, has the last word. -/
theorem extract_merged (hpeer : isTrustedProxy peer.ip = true) (hlayout : p.layout = .merged)
    (hplain : p.plainOnly = true) {ip : IpAddr} (hip : untrusted (trimBytes entry.text) = some ip)
    {client : List Bytes} (hclient : p.Passes client) : extractClientIp (p.forward client entry) peer = ip := by
  rw [Proxy.forward]
  cases hlast : client.getLast? with
  | none =>
    dsimp only
    rw [extract_cons hpeer entry.visible, scan_entry, hip]
    rfl
  | some last =>
    have hvisible : (comma.intercalate client ++ comma ++ entry.text).all isVisible = true := by
      rw [List.all_append, List.all_append, entry.visible, all_visible_intercalate fun line hline =>
        List.all_eq_true.mpr fun b hb => (hclient line hline b hb).2 hplain]
      rfl
    simp only [hlayout]
    rw [extract_cons hpeer hvisible, scan_append, hip]
    rfl

/-- Two addresses that a client can choose from. -/
def forged : Bytes := utf8 "203.0.113.5"

def forged' : Bytes := utf8 "203.0.113.6"

theorem scan_forged : scan forged = some (.v4 ⟨203, 0, 113, 5⟩) ∧ scan forged' = some (.v4 ⟨203, 0, 113, 6⟩) := by
  decide

theorem passes_forged (p : Proxy) : (p.Passes [forged] ∧ p.Passes [forged']) ∧
    p.Passes [forged, []] ∧ p.Passes [forged', []] := by
  have hbytes : ∀ b ∈ forged ++ forged', isHeaderByte b = true ∧ isVisible b = true := by decide +kernel
  have hforged : ∀ b ∈ forged, isHeaderByte b = true ∧ (p.plainOnly = true → isVisible b = true) := fun b hb =>
    let h := hbytes b (List.mem_append_left _ hb)
    ⟨h.1, fun _ => h.2⟩
  have hforged' : ∀ b ∈ forged', isHeaderByte b = true ∧ (p.plainOnly = true → isVisible b = true) := fun b hb =>
    let h := hbytes b (List.mem_append_right _ hb)
    ⟨h.1, fun _ => h.2⟩
  simp only [Proxy.Passes, List.forall_mem_cons, List.not_mem_nil, false_implies, implies_true, and_true]
  exact ⟨⟨hforged, hforged'⟩, hforged, hforged'⟩

theorem extract_forged (hpeer : isTrustedProxy peer.ip = true) (lines : List Bytes) :
    extractClientIp (forged :: lines) peer = .v4 ⟨203, 0, 113, 5⟩ ∧
      extractClientIp (forged' :: lines) peer = .v4 ⟨203, 0, 113, 6⟩ := by
  rw [extract_cons hpeer (by decide), extract_cons hpeer (by decide), scan_forged.1, scan_forged.2]
  exact ⟨rfl, rfl⟩

/-- **The address does not depend on what the client sent** exactly behind proxies that merge all lines into one and let
only visible characters through, where what they add is read as an address that is not trusted itself. -/
theorem independent_iff (hpeer : isTrustedProxy peer.ip = true) : Independent p entry peer ↔
    p.layout = .merged ∧ p.plainOnly = true ∧ ∃ ip, parseEntry (trimBytes entry.text) = some ip ∧
      isTrustedProxy ip = false := by
  have huntrusted : (∃ ip, parseEntry (trimBytes entry.text) = some ip ∧ isTrustedProxy ip = false) ↔
      ∃ ip, untrusted (trimBytes entry.text) = some ip := by
    refine exists_congr fun ip => ?_
    rw [untrusted, Option.filter_eq_some_iff, Bool.not_eq_true']
  obtain ⟨⟨hpass, hpass'⟩, hpassLast, hpassLast'⟩ := passes_forged p
  have hne : (IpAddr.v4 ⟨203, 0, 113, 5⟩) ≠ .v4 ⟨203, 0, 113, 6⟩ := by decide
  rw [huntrusted]
  constructor
  · intro h
    have hlayout : p.layout = .merged := by
      cases hl : p.layout with
      | merged => rfl
      | lastLine =>
        have heq := h _ _ hpassLast hpassLast'
        simp only [Proxy.forward, hl, List.getLast?_cons_cons, List.getLast?_singleton, List.dropLast_cons_cons,
          List.cons_append] at heq
        rw [(extract_forged hpeer _).1, (extract_forged hpeer _).2] at heq
        exact absurd heq hne
      | newLine =>
        have heq := h _ _ hpass hpass'
        simp only [Proxy.forward, hl, List.getLast?_singleton, List.cons_append] at heq
        rw [(extract_forged hpeer _).1, (extract_forged hpeer _).2] at heq
        exact absurd heq hne
    have hip : ∃ ip, untrusted (trimBytes entry.text) = some ip := by
      by_contra hnone
      have hnone' : untrusted (trimBytes entry.text) = none := by
        cases hu : untrusted (trimBytes entry.text) with
        | none => rfl
        | some ip => exact absurd ⟨ip, hu⟩ hnone
      have heq := h _ _ hpass hpass'
      simp only [Proxy.forward, hlayout, List.getLast?_singleton, List.intercalate_singleton] at heq
      rw [extract_cons hpeer, extract_cons hpeer, scan_append, scan_append, hnone', scan_forged.1, scan_forged.2] at heq
      · exact hne heq
      · rw [List.all_append, List.all_append, entry.visible]
        decide +kernel
      · rw [List.all_append, List.all_append, entry.visible]
        decide +kernel
    refine ⟨hlayout, ?_, hip⟩
    by_contra hplain
    -- a byte that is no visible character makes the whole line unreadable
    obtain ⟨ip, hip⟩ := hip
    have hbyte : p.Passes [[0x80]] := by
      intro line hline b hb
      obtain rfl := List.mem_singleton.mp hline
      obtain rfl := List.mem_singleton.mp hb
      exact ⟨by decide, fun h => absurd h hplain⟩
    have heq := h [] _ (nofun) hbyte
    simp only [Proxy.forward, hlayout, List.getLast?_singleton, List.getLast?_nil, List.intercalate_singleton] at heq
    rw [extract_cons hpeer entry.visible, scan_entry, hip, extract_unreadable hpeer (by rfl)] at heq
    obtain rfl : ip = peer.ip := heq
    obtain ⟨-, hfalse⟩ := Option.filter_eq_some_iff.mp hip
    rw [hpeer] at hfalse
    cases hfalse
  · rintro ⟨hlayout, hplain, ip, hip⟩ client client' hclient hclient'
    rw [extract_merged hpeer hlayout hplain hip hclient, extract_merged hpeer hlayout hplain hip hclient']

def loopbackPeer : SocketAddr := ⟨.v4 ⟨127, 0, 0, 1⟩, 5555⟩

def bareEntry : Entry := ⟨utf8 "198.51.100.7", by decide +kernel, by decide +kernel⟩

/-- An address alone, from a proxy. -/
theorem independent_iff_bare : Independent ⟨.merged, true⟩ bareEntry loopbackPeer ↔
    Layout.merged = .merged ∧ true = true ∧ ∃ ip, parseEntry (trimBytes bareEntry.text) = some ip ∧
      isTrustedProxy ip = false :=
  independent_iff (by decide)

/-- Behind a proxy that adds a line of its own, the client chooses. -/
theorem not_independent : ¬ Independent ⟨.newLine, true⟩ bareEntry loopbackPeer := by
  intro h
  have heq := h _ _ (passes_forged _).1.1 (passes_forged _).1.2
  simp only [Proxy.forward, List.getLast?_singleton, List.cons_append] at heq
  rw [(extract_forged (by decide) _).1, (extract_forged (by decide) _).2] at heq
  exact absurd heq (by decide)

end VelocityMcp.Edge
