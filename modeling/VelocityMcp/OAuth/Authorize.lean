import VelocityMcp.Lib.HashMap
import VelocityMcp.Lib.Percent

/-!
# OAuth.Authorize — authorization URLs and their states (`oauth2.rs`)

`authorize_url_fields`: the query of the URL has exactly the parameters, whatever is in them.
-/

namespace VelocityMcp.OAuth

open Lib

/-! ## The code -/

/-- The bytes that `percent_encode` keeps. -/
def unreserved (b : UInt8) : Bool :=
  (0x41 ≤ b && b ≤ 0x5a) || (0x61 ≤ b && b ≤ 0x7a) || (0x30 ≤ b && b ≤ 0x39) ||
    b == 0x2d || b == 0x5f || b == 0x2e || b == 0x7e

/-- `percent_encode`, byte by byte of the UTF-8 text. -/
def percentEncode (s : String) : String := String.ofList (Percent.encode unreserved (utf8 s))

/-- `OAuth2Config`: what the URL is made of. -/
structure OAuth2Config where
  authorizeUrl : String
  clientId : String
  scopes : Option (List String)
  redirectUri : Option String
deriving DecidableEq, Repr

/-- `ConnectorConfig`: its OAuth2 configuration. -/
structure ConnectorConfig where
  oauth2Config : Option OAuth2Config
deriving DecidableEq, Repr

/-- `authorize_url`, with its parameters percent-encoded. -/
def authorizeUrl (oauth2Config : OAuth2Config) (state : String) (scopes : Option (List String)) : String :=
  let url := oauth2Config.authorizeUrl ++ "?response_type=code&client_id=" ++ percentEncode oauth2Config.clientId ++
    "&state=" ++ percentEncode state
  let url := match oauth2Config.redirectUri with
    | some redirectUri => url ++ ("&redirect_uri=" ++ percentEncode redirectUri)
    | none => url
  match scopes.or oauth2Config.scopes with
  | some scopes => url ++ ("&scope=" ++ percentEncode (" ".intercalate scopes))
  | none => url

def maxStateEntries : ℕ := 1000

def storeState (store : Map String String) (state connectorId : String) : Map String String :=
  (if store.len ≥ maxStateEntries then ∅ else store).insert state connectorId

/-- `generate_authorize_url`, with the registry of the connectors. -/
def generateAuthorizeUrl (connectors : String → Option ConnectorConfig) (store : Map String String)
    (connectorId state : String) (scopes : Option (List String)) : Except String String × Map String String :=
  match connectors connectorId with
  | none => (.error s!"Connector not found: {connectorId}", store)
  | some config =>
    match config.oauth2Config with
    | none => (.error s!"Connector {connectorId} does not support OAuth2", store)
    | some oauth2Config => (.ok (authorizeUrl oauth2Config state scopes), storeState store state connectorId)

/-- A state can be used once. -/
def validateState (store : Map String String) (state : String) : Option String × Map String String :=
  (store.lookup state, store.erase state)

/-! ## The parameters of the URL -/

/-- The parameters of the authorization URL; an absent redirect or scope is left out. -/
def parameters (oauth2Config : OAuth2Config) (state : String) (scopes : Option (List String)) :
    List (String × String) :=
  [("response_type", "code"), ("client_id", oauth2Config.clientId), ("state", state)] ++
    ((oauth2Config.redirectUri.map ("redirect_uri", ·)).toList ++
      ((scopes.or oauth2Config.scopes).map fun scopes => ("scope", " ".intercalate scopes)).toList)

/-- The query of a URL, split at `&` and `=`, and decoded. -/
def readFields (url : String) : List (List (Option String)) :=
  (Percent.fields (Percent.query url.toList)).map (·.map fromUtf8)

def rawParam (p : String × String) : List Char × Bytes := (p.1.toList, utf8 p.2)

section Parameters

variable {oauth2Config : OAuth2Config} {state : String} {scopes : Option (List String)}

theorem sound_unreserved : Percent.Sound unreserved := by
  have hall : ∀ n < 256, unreserved (UInt8.ofNat n) = true → n < 0x80 ∧ UInt8.ofNat n ≠ 0x25 := by decide +kernel
  intro b hb
  have h := hall b.toNat b.toNat_lt
  rw [UInt8.ofNat_toNat] at h
  exact h hb

theorem separates_unreserved : Percent.Separates unreserved := by
  have hall : ∀ n < 256, unreserved (UInt8.ofNat n) = true → Char.ofNat n ∉ ['&', '=', '#', '?'] := by decide +kernel
  intro b hb
  have h := hall b.toNat b.toNat_lt
  rw [UInt8.ofNat_toNat] at h
  exact h hb

/-- **Decoding inverts `percent_encode`.** -/
theorem fromUtf8_decode_percentEncode (s : String) : fromUtf8 (Percent.decode (percentEncode s).toList) = some s := by
  rw [percentEncode, String.toList_ofList, Percent.decode_encode sound_unreserved, fromUtf8_utf8]

theorem plainName_of_mem {p : String × String} (h : p ∈ parameters oauth2Config state scopes) :
    Percent.PlainName p.1.toList := by
  have hnames : ∀ name ∈ ["response_type", "client_id", "state", "redirect_uri", "scope"],
      '%' ∉ name.toList ∧ '&' ∉ name.toList ∧ '=' ∉ name.toList ∧ '#' ∉ name.toList := by decide
  apply hnames
  rw [parameters] at h
  cases hredirect : oauth2Config.redirectUri <;> cases hscopes : scopes.or oauth2Config.scopes <;>
    · rw [hredirect, hscopes] at h
      simp at h
      rcases h with rfl | rfl | rfl | rfl | rfl <;> simp

/-- **The URL is the endpoint and the query.** -/
theorem toList_authorizeUrl : (authorizeUrl oauth2Config state scopes).toList = oauth2Config.authorizeUrl.toList ++
    '?' :: Percent.queryText unreserved ((parameters oauth2Config state scopes).map rawParam) := by
  have hcode : Percent.encode unreserved (utf8 "code") = "code".toList := by decide
  rw [authorizeUrl, parameters, Percent.queryText]
  cases hredirect : oauth2Config.redirectUri <;> cases hscopes : scopes.or oauth2Config.scopes <;>
    simp [rawParam, Percent.paramText, percentEncode, hcode, List.intercalate_cons_cons]

theorem readFields_authorizeUrl (hquery : '?' ∉ oauth2Config.authorizeUrl.toList) :
    readFields (authorizeUrl oauth2Config state scopes) =
      (parameters oauth2Config state scopes).map fun p => [some p.1, some p.2] := by
  have hnames : ∀ p ∈ (parameters oauth2Config state scopes).map rawParam, Percent.PlainName p.1 := by
    intro p hp
    obtain ⟨q, hq, rfl⟩ := List.mem_map.mp hp
    exact plainName_of_mem hq
  have hne : (parameters oauth2Config state scopes).map rawParam ≠ [] := by simp [parameters]
  rw [readFields, toList_authorizeUrl,
    Percent.query_append hquery (Percent.numberSign_notMem_queryText separates_unreserved hnames),
    Percent.fields_queryText sound_unreserved separates_unreserved hne hnames, List.map_map, List.map_map]
  apply List.map_congr_left
  intro p _
  have hname : fromUtf8 (encode p.1.toList) = some p.1 := by rw [fromUtf8_encode, String.ofList_toList]
  simp [rawParam, hname]

/-- **An authorization URL carries exactly its parameters**, and decoding inverts `percent_encode`. -/
theorem authorize_url_fields (connectors : String → Option ConnectorConfig) (store : Map String String)
    (connectorId state : String) (scopes : Option (List String)) (config : ConnectorConfig)
    (oauth2Config : OAuth2Config) (hconnector : connectors connectorId = some config)
    (hoauth : config.oauth2Config = some oauth2Config)
    (hquery : '?' ∉ oauth2Config.authorizeUrl.toList ∧ '#' ∉ oauth2Config.authorizeUrl.toList) :
    (∃ url, (generateAuthorizeUrl connectors store connectorId state scopes).1 = .ok url ∧
      readFields url = (parameters oauth2Config state scopes).map fun p => [some p.1, some p.2]) ∧
      ∀ s, fromUtf8 (Percent.decode (percentEncode s).toList) = some s := by
  refine ⟨⟨authorizeUrl oauth2Config state scopes, ?_, readFields_authorizeUrl hquery.1⟩,
    fromUtf8_decode_percentEncode⟩
  rw [generateAuthorizeUrl, hconnector]
  dsimp only
  rw [hoauth]

/-- A state that tries to name another redirect URI. -/
theorem authorize_url_fields_smuggler :
    ∃ url, (generateAuthorizeUrl (fun _ => some ⟨some ⟨"https://a.example/auth", "id", none, none⟩⟩) ∅ "github"
      "s&redirect_uri=https://b.example" (some ["repo", "user"])).1 = .ok url ∧
        readFields url = [[some "response_type", some "code"], [some "client_id", some "id"],
          [some "state", some "s&redirect_uri=https://b.example"], [some "scope", some "repo user"]] :=
  (authorize_url_fields _ _ _ _ _ ⟨some ⟨"https://a.example/auth", "id", none, none⟩⟩
    ⟨"https://a.example/auth", "id", none, none⟩ rfl rfl (by decide +kernel)).1

end Parameters

end VelocityMcp.OAuth
