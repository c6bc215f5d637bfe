import VelocityMcp.Json

/-!
# OAuth.Token — when a token expires (`oauth2.rs`)

`token_exact_iff`: when it does so exactly then.
-/

namespace VelocityMcp.OAuth

/-! ## The code

Sums of `u64` values wrap around, as in the release profile; the debug profile panics instead.
-/

/-- `OAuth2Token`; a provider may leave out all but the access token. -/
structure OAuth2Token where
  accessToken : String
  refreshToken : Option String
  expiresIn : Option UInt64
  tokenType : Option String
  expiresAt : Option UInt64
  issuedAt : Option UInt64
deriving DecidableEq, Repr

namespace OAuth2Token

/-- `is_expired`, at the time `now`. -/
def isExpired (token : OAuth2Token) (now : UInt64) : Bool :=
  match token.expiresAt with
  | some expiresAt => now ≥ expiresAt
  | none =>
    match token.expiresIn with
    | some expiresIn =>
      match token.issuedAt with
      | some issuedAt => now ≥ issuedAt + expiresIn
      | none => false
    | none => false

def needsRefresh (token : OAuth2Token) (now : UInt64) : Bool :=
  match token.expiresAt with
  | some expiresAt => now + 300 ≥ expiresAt
  | none => token.isExpired now

end OAuth2Token

/-- The token of an answer, issued now; `fallback` is the refresh token if the answer brings none. -/
def builtToken (fallback : Option String) (tokenResponse : Value) (now : UInt64) : Except String OAuth2Token :=
  match (tokenResponse.index "access_token").asStr with
  | none => .error "Missing access_token in response"
  | some accessToken => .ok {
      accessToken
      refreshToken := (tokenResponse.index "refresh_token").asStr.or fallback
      expiresIn := (tokenResponse.index "expires_in").asU64
      tokenType := (tokenResponse.index "token_type").asStr
      expiresAt := (tokenResponse.index "expires_in").asU64.map (now + ·)
      issuedAt := some now }

/-- The token that `exchange_code` builds. -/
def exchangedToken : Value → UInt64 → Except String OAuth2Token := builtToken none

/-- The token that `refresh_token` builds: the old refresh token is kept if there is no new one. -/
def refreshedToken (refreshToken : String) : Value → UInt64 → Except String OAuth2Token :=
  builtToken (some refreshToken)

/-! ## What is to hold -/

/-- The token was issued at this time for so many seconds; the predicates at the time `t`, and at a later `t'`. -/
structure Exact (token : OAuth2Token) (issued expiresIn t t' : UInt64) : Prop where
  noOverflow : issued.toNat + expiresIn.toNat < 2 ^ 64 ∧
    (token.expiresAt ≠ none → t.toNat + 300 < 2 ^ 64 ∧ t'.toNat + 300 < 2 ^ 64)
  expired : token.isExpired t = true ↔ issued.toNat + expiresIn.toNat ≤ t.toNat
  refresh : token.needsRefresh t = true ↔ issued.toNat + expiresIn.toNat ≤ t.toNat + 300
  expired_stays : t ≤ t' → token.isExpired t = true → token.isExpired t' = true
  refresh_stays : t ≤ t' → token.needsRefresh t = true → token.needsRefresh t' = true

section Exact

variable {token : OAuth2Token} {issued expiresIn t t' now : UInt64}

theorem toNat_add_of_lt {a b : UInt64} (h : a.toNat + b.toNat < 2 ^ 64) : (a + b).toNat = a.toNat + b.toNat := by
  rw [UInt64.toNat_add, Nat.mod_eq_of_lt h]

theorem isExpired_of_expiresAt {expiresAt : UInt64} (h : token.expiresAt = some expiresAt) (now : UInt64) :
    token.isExpired now = true ↔ expiresAt.toNat ≤ now.toNat := by
  rw [OAuth2Token.isExpired, h]
  simp [UInt64.le_iff_toNat_le]

theorem needsRefresh_of_expiresAt {expiresAt : UInt64} (h : token.expiresAt = some expiresAt)
    (hnow : now.toNat + 300 < 2 ^ 64) : token.needsRefresh now = true ↔ expiresAt.toNat ≤ now.toNat + 300 := by
  have hadd : (now + 300).toNat = now.toNat + 300 := toNat_add_of_lt hnow
  rw [OAuth2Token.needsRefresh, h]
  simp [UInt64.le_iff_toNat_le, hadd]

theorem isExpired_of_issuedAt (hat : token.expiresAt = none) (hin : token.expiresIn = some expiresIn)
    (hissued : token.issuedAt = some issued) (hsum : issued.toNat + expiresIn.toNat < 2 ^ 64) (now : UInt64) :
    token.isExpired now = true ↔ issued.toNat + expiresIn.toNat ≤ now.toNat := by
  rw [OAuth2Token.isExpired, hat, hin, hissued]
  simp [UInt64.le_iff_toNat_le, toNat_add_of_lt hsum]

theorem needsRefresh_of_none (hat : token.expiresAt = none) (now : UInt64) :
    token.needsRefresh now = token.isExpired now := by
  rw [OAuth2Token.needsRefresh, hat]

/-- **A token with its expiry is right as long as no sum overflows.** -/
theorem exact_iff_of_expiresAt (hat : token.expiresAt = some (issued + expiresIn)) :
    Exact token issued expiresIn t t' ↔
      issued.toNat + expiresIn.toNat < 2 ^ 64 ∧ t.toNat + 300 < 2 ^ 64 ∧ t'.toNat + 300 < 2 ^ 64 := by
  constructor
  · intro h
    exact ⟨h.noOverflow.1, h.noOverflow.2 (hat ▸ Option.some_ne_none _)⟩
  · rintro ⟨hsum, ht, ht'⟩
    have hadd := toNat_add_of_lt hsum
    have hexpired := isExpired_of_expiresAt hat
    have hrefresh : ∀ {now : UInt64}, now.toNat + 300 < 2 ^ 64 →
        (token.needsRefresh now = true ↔ (issued + expiresIn).toNat ≤ now.toNat + 300) :=
      needsRefresh_of_expiresAt hat
    rw [hadd] at hexpired hrefresh
    refine ⟨⟨hsum, fun _ => ⟨ht, ht'⟩⟩, hexpired t, hrefresh ht, fun hle => ?_, fun hle => ?_⟩
    · rw [UInt64.le_iff_toNat_le] at hle
      rw [hexpired, hexpired]
      omega
    · rw [UInt64.le_iff_toNat_le] at hle
      rw [hrefresh ht, hrefresh ht']
      omega

/-- **A token without it is right unless the time is in the five minutes before the expiry**: its refresh has no
buffer. -/
theorem exact_iff_of_issuedAt (hat : token.expiresAt = none) (hin : token.expiresIn = some expiresIn)
    (hissued : token.issuedAt = some issued) :
    Exact token issued expiresIn t t' ↔ issued.toNat + expiresIn.toNat < 2 ^ 64 ∧
      ¬(t.toNat < issued.toNat + expiresIn.toNat ∧ issued.toNat + expiresIn.toNat ≤ t.toNat + 300) := by
  constructor
  · intro h
    refine ⟨h.noOverflow.1, fun ⟨hbefore, hsoon⟩ => ?_⟩
    have hrefresh := h.refresh.mpr hsoon
    rw [needsRefresh_of_none hat, h.expired] at hrefresh
    omega
  · rintro ⟨hsum, hwindow⟩
    have hexpired := isExpired_of_issuedAt hat hin hissued hsum
    refine ⟨⟨hsum, fun hne => absurd hat hne⟩, hexpired t, ?_, fun hle => ?_, fun hle => ?_⟩
    · rw [needsRefresh_of_none hat, hexpired]
      omega
    · rw [UInt64.le_iff_toNat_le] at hle
      rw [hexpired, hexpired]
      omega
    · rw [UInt64.le_iff_toNat_le] at hle
      rw [needsRefresh_of_none hat, needsRefresh_of_none hat, hexpired, hexpired]
      omega

theorem expiresAt_builtToken {fallback : Option String} {tokenResponse : Value}
    (h : builtToken fallback tokenResponse now = .ok token)
    (hin : (tokenResponse.index "expires_in").asU64 = some expiresIn) : token.expiresAt = some (now + expiresIn) := by
  rw [builtToken] at h
  cases haccess : (tokenResponse.index "access_token").asStr with
  | none =>
    rw [haccess] at h
    cases h
  | some accessToken =>
    rw [haccess] at h
    obtain rfl := Except.ok.inj h
    exact congrArg (Option.map (now + ·)) hin

/-- **When the expiry of a token is exact**: for a token from an answer, unless a sum overflows; for a stored token
without an expiry of its own, unless the sum overflows or the time is in the five minutes before. -/
theorem token_exact_iff (token : OAuth2Token) (issued expiresIn t t' : UInt64) :
    (∀ tokenResponse, (tokenResponse.index "expires_in").asU64 = some expiresIn →
      (exchangedToken tokenResponse issued = .ok token ∨
        ∃ old, refreshedToken old tokenResponse issued = .ok token) →
      (Exact token issued expiresIn t t' ↔
        issued.toNat + expiresIn.toNat < 2 ^ 64 ∧ t.toNat + 300 < 2 ^ 64 ∧ t'.toNat + 300 < 2 ^ 64)) ∧
      (token.expiresAt = none → token.expiresIn = some expiresIn → token.issuedAt = some issued →
        (Exact token issued expiresIn t t' ↔ issued.toNat + expiresIn.toNat < 2 ^ 64 ∧
          ¬(t.toNat < issued.toNat + expiresIn.toNat ∧ issued.toNat + expiresIn.toNat ≤ t.toNat + 300))) := by
  refine ⟨fun tokenResponse hin hbuilt => exact_iff_of_expiresAt ?_, exact_iff_of_issuedAt⟩
  rcases hbuilt with hbuilt | ⟨old, hbuilt⟩
  · exact expiresAt_builtToken hbuilt hin
  · exact expiresAt_builtToken hbuilt hin

def answer (expiresIn : UInt64) : Value :=
  .object [("access_token", .string "x"), ("expires_in", .number (.posInt expiresIn))]

theorem exchangedToken_answer (expiresIn now : UInt64) : exchangedToken (answer expiresIn) now =
    .ok ⟨"x", none, some expiresIn, none, some (now + expiresIn), some now⟩ := rfl

/-- An hour, a second before its end and at its end. -/
theorem token_exact_hour :
    Exact ⟨"x", none, some 3600, none, some (1700000000 + 3600), some 1700000000⟩ 1700000000 3600
      1700003599 1700003600 :=
  ((token_exact_iff _ _ _ _ _).1 (answer 3600) rfl (.inl (exchangedToken_answer 3600 1700000000))).mpr (by decide)

/-- The longest lifetime ends in the second of the issue; and a stored token is not refreshed in its last second. -/
theorem token_not_exact :
    (¬∀ tokenResponse issued expiresIn token t t', (tokenResponse.index "expires_in").asU64 = some expiresIn →
      exchangedToken tokenResponse issued = .ok token → Exact token issued expiresIn t t') ∧
      ¬∀ token issued expiresIn t t', token.expiresAt = none → token.expiresIn = some expiresIn →
        token.issuedAt = some issued → Exact token issued expiresIn t t' := by
  constructor
  · intro h
    have hexpired := (h (answer 18446744073709551615) 1700000000 18446744073709551615 _ 1700000000 1700000000 rfl
      (exchangedToken_answer _ _)).expired
    revert hexpired
    decide
  · intro h
    have hrefresh := (h ⟨"x", none, some 3600, none, none, some 1700000000⟩ 1700000000 3600 1700003599 1700003599
      rfl rfl rfl).refresh
    revert hrefresh
    decide

end Exact

end VelocityMcp.OAuth
