import VelocityMcp.NdaNative.Dispatch

/-!
# NdaNative.ErrorTexts — no error reply is too long for its length field

`sound_contentOf`: the text of an error reply has fewer than 2^32 bytes; and no arm panics.
-/

namespace VelocityMcp.NdaNative

open Lib

/-! ## The errors of the walkers -/

/-- The numbers in the errors come from length fields of four bytes, and the texts that are no UTF-8 are no longer than
a string may be. -/
def SkipError.Short : SkipError → Prop
  | .stringTooLong n => n < 256 ^ 4
  | .arrayTooLong n => n < 256 ^ 4
  | .objectTooLong n => n < 256 ^ 4
  | _ => True

def DecodeError.Short : DecodeError → Prop
  | .stringTooLong n => n < 256 ^ 4
  | .arrayTooLong n => n < 256 ^ 4
  | .objectTooLong n => n < 256 ^ 4
  | .utf8 t => t.length ≤ tlvMaxStringLen
  | _ => True

section Walkers

variable {value : Bytes → Outcome SkipError ℕ} {b : Bytes}

theorem skipItem_errIn (hvalue : ∀ b, (value b).ErrIn SkipError.Short) (off : ℕ) :
    (skipItem value b off).ErrIn SkipError.Short :=
  (sliceFrom_errIn b off).bind fun rest _ => (hvalue rest).bind fun _ _ => Outcome.errIn_ok _

theorem skipEntry_errIn (hvalue : ∀ b, (value b).ErrIn SkipError.Short) (off : ℕ) :
    (skipEntry value b off).ErrIn SkipError.Short := by
  unfold skipEntry
  split_ifs
  · exact Outcome.errIn_err trivial
  · refine (beAt_errIn b off 2).bind fun klen _ => ?_
    split_ifs
    · exact Outcome.errIn_err trivial
    · exact (sliceFrom_errIn b _).bind fun rest _ => (hvalue rest).bind fun _ _ => Outcome.errIn_ok _

theorem skip_errIn : ∀ (d : ℕ) (b : Bytes), (skipTlvValueInner d b).ErrIn SkipError.Short := by
  intro d
  induction d with
  | zero => exact fun b => Outcome.errIn_err trivial
  | succ d ih =>
    intro b
    rw [skipTlvValueInner]
    split_ifs
    · exact Outcome.errIn_err trivial
    refine (byteAt_errIn b 0).bind fun tag _ => ?_
    rw [skipTag]
    split_ifs
    · rw [skipString]
      split_ifs
      · exact Outcome.errIn_err trivial
      · refine (beAt_errIn b 1 4).bind fun len hlen => ?_
        split_ifs
        · exact Outcome.errIn_err (at_of_beAt hlen).2
        · exact Outcome.errIn_err trivial
        · exact Outcome.errIn_ok _
    · exact Outcome.errIn_err trivial
    · exact Outcome.errIn_ok _
    · exact Outcome.errIn_err trivial
    · exact Outcome.errIn_ok _
    · exact Outcome.errIn_ok _
    · rw [skipArray]
      split_ifs
      · exact Outcome.errIn_err trivial
      · refine (beAt_errIn b 1 4).bind fun count hcount => ?_
        split_ifs
        · exact Outcome.errIn_err (at_of_beAt hcount).2
        · exact forCount_errIn (skipItem_errIn ih) count 5
    · rw [skipObject]
      split_ifs
      · exact Outcome.errIn_err trivial
      · refine (beAt_errIn b 1 4).bind fun count hcount => ?_
        split_ifs
        · exact Outcome.errIn_err (at_of_beAt hcount).2
        · exact forCount_errIn (skipEntry_errIn ih) count 5
    · exact Outcome.errIn_err trivial

end Walkers

section Decoder

variable {value : Bytes → Outcome DecodeError (Value × ℕ)} {b : Bytes}

theorem decodeUtf8_errIn {t : Bytes} (ht : t.length ≤ tlvMaxStringLen) :
    (decodeUtf8 t).ErrIn DecodeError.Short := by
  unfold decodeUtf8
  cases fromUtf8 t with
  | some s => exact Outcome.errIn_ok s
  | none => exact Outcome.errIn_err ht

theorem decodeItem_errIn (hvalue : ∀ b, (value b).ErrIn DecodeError.Short) (s : List Value × ℕ) :
    (decodeItem value b s).ErrIn DecodeError.Short :=
  (sliceFrom_errIn b s.2).bind fun rest _ => (hvalue rest).bind fun _ _ => Outcome.errIn_ok _

theorem decodeEntry_errIn (hvalue : ∀ b, (value b).ErrIn DecodeError.Short) (s : List (String × Value) × ℕ) :
    (decodeEntry value b s).ErrIn DecodeError.Short := by
  unfold decodeEntry
  split_ifs
  · exact Outcome.errIn_err trivial
  · refine (beAt_errIn b s.2 2).bind fun klen hklen => ?_
    split_ifs
    · exact Outcome.errIn_err trivial
    · refine (slice_errIn b _ _).bind fun k hk => ?_
      have hlt := (at_of_beAt hklen).2
      have hklen := (at_of_slice hk).2
      have hmax : k.length ≤ tlvMaxStringLen := by
        rw [tlvMaxStringLen]
        omega
      exact (decodeUtf8_errIn hmax).bind fun key _ =>
        (sliceFrom_errIn b _).bind fun rest _ => (hvalue rest).bind fun _ _ => Outcome.errIn_ok _

theorem decode_errIn : ∀ (d : ℕ) (b : Bytes), (decodeJsonValueInner d b).ErrIn DecodeError.Short := by
  intro d
  induction d with
  | zero => exact fun b => Outcome.errIn_err trivial
  | succ d ih =>
    intro b
    rw [decodeJsonValueInner]
    split_ifs
    · exact Outcome.errIn_err trivial
    refine (byteAt_errIn b 0).bind fun tag _ => ?_
    rw [decodeTag]
    split_ifs
    · rw [decodeString]
      split_ifs
      · exact Outcome.errIn_err trivial
      · refine (beAt_errIn b 1 4).bind fun len hlen => ?_
        split_ifs with hmax
        · exact Outcome.errIn_err (at_of_beAt hlen).2
        · exact Outcome.errIn_err trivial
        · refine (slice_errIn b 5 (5 + len)).bind fun t ht => ?_
          have htlen := (at_of_slice ht).2
          exact (decodeUtf8_errIn (by omega)).bind fun s _ => Outcome.errIn_ok _
    · rw [decodeInteger]
      split_ifs
      · exact Outcome.errIn_err trivial
      · exact (beAt_errIn b 1 8).bind fun _ _ => Outcome.errIn_ok _
    · rw [decodeFloat]
      split_ifs
      · exact Outcome.errIn_err trivial
      · exact (beAt_errIn b 1 8).bind fun _ _ => Outcome.errIn_ok _
    · rw [decodeBool]
      split_ifs
      · exact Outcome.errIn_err trivial
      · exact (byteAt_errIn b 1).bind fun _ _ => Outcome.errIn_ok _
    · exact Outcome.errIn_ok _
    · rw [decodeArray]
      split_ifs
      · exact Outcome.errIn_err trivial
      · refine (beAt_errIn b 1 4).bind fun count hcount => ?_
        split_ifs
        · exact Outcome.errIn_err (at_of_beAt hcount).2
        · exact (forCount_errIn (decodeItem_errIn ih) count _).bind fun _ _ => Outcome.errIn_ok _
    · rw [decodeObject]
      split_ifs
      · exact Outcome.errIn_err trivial
      · refine (beAt_errIn b 1 4).bind fun count hcount => ?_
        split_ifs
        · exact Outcome.errIn_err (at_of_beAt hcount).2
        · exact (forCount_errIn (decodeEntry_errIn ih) count _).bind fun _ _ => Outcome.errIn_ok _
    · exact Outcome.errIn_err trivial

end Decoder

/-! ## Their texts -/

theorem length_limitText (what : String) {k : ℕ} (hwhat : (utf8 what).length ≤ k) {n : ℕ} (hn : n < 256 ^ 4)
    {limit : ℕ} (hlimit : limit < 256 ^ 4) :
    (utf8 (what ++ toString n ++ " exceeds maximum " ++ toString limit)).length ≤ k + 97 := by
  have h₁ := length_utf8_toString (n := n) (k := 10) (by decide) (by omega)
  have h₂ := length_utf8_toString (n := limit) (k := 10) (by decide) (by omega)
  have h₃ : (utf8 " exceeds maximum ").length = 17 := by decide
  simp only [utf8_append, List.length_append]
  omega

theorem length_hex02 (x : UInt8) : (utf8 (hex02 x)).length ≤ 8 := length_utf8_ofList_le _

theorem SkipError.length_text {e : SkipError} (h : e.Short) : (utf8 e.text).length ≤ 200 := by
  cases e with
  | stringTooLong n =>
    exact (length_limitText "TLV skip: string length " (k := 40) (by decide) h (by decide)).trans
      (by decide)
  | arrayTooLong n =>
    exact (length_limitText "TLV skip: array count " (k := 40) (by decide) h (by decide)).trans
      (by decide)
  | objectTooLong n =>
    exact (length_limitText "TLV skip: object count " (k := 40) (by decide) h (by decide)).trans
      (by decide)
  | unknownTag tag =>
    have hx := length_hex02 tag
    have hlit : (utf8 "TLV skip: unknown tag 0x").length ≤ 40 := by decide
    show (utf8 ("TLV skip: unknown tag 0x" ++ hex02 tag)).length ≤ 200
    rw [utf8_append, List.length_append]
    omega
  | _ => decide

theorem DecodeError.length_text {e : DecodeError} (h : e.Short) : (Lib.utf8 e.text).length ≤ 200 := by
  cases e with
  | stringTooLong n =>
    exact (length_limitText "TLV string length " (k := 40) (by decide) h (by decide)).trans (by decide)
  | arrayTooLong n =>
    exact (length_limitText "TLV array count " (k := 40) (by decide) h (by decide)).trans (by decide)
  | objectTooLong n =>
    exact (length_limitText "TLV object count " (k := 40) (by decide) h (by decide)).trans (by decide)
  | utf8 t =>
    have ht : t.length ≤ 10000000 := h
    exact (length_utf8ErrorText (k := 8) (by decide) (by omega)).trans (by decide)
  | unknownTag tag =>
    have hx := length_hex02 tag
    have hlit : (Lib.utf8 "Unknown TLV type tag: 0x").length ≤ 40 := by decide
    show (Lib.utf8 ("Unknown TLV type tag: 0x" ++ hex02 tag)).length ≤ 200
    rw [utf8_append, List.length_append]
    omega
  | _ => decide

/-! ## The arguments of a tool call -/

def ExtractError.Short : ExtractError → Prop
  | .skip e => e.Short
  | _ => True

theorem ExtractError.length_text {e : ExtractError} (h : e.Short) : (utf8 e.text).length ≤ 200 := by
  cases e with
  | skip e => exact SkipError.length_text h
  | _ => decide

section Extract

variable {data : Bytes}

theorem extractEntry_errIn (s : Fields) : (extractEntry data s).ErrIn ExtractError.Short := by
  unfold extractEntry
  split_ifs
  · exact Outcome.errIn_err trivial
  · refine (beAt_errIn data s.off 2).bind fun klen _ => ?_
    split_ifs
    · exact Outcome.errIn_err trivial
    · exact (slice_errIn data _ _).bind fun key _ => (sliceFrom_errIn data _).bind fun rest _ =>
        ((skip_errIn _ rest).mapErr (Q := ExtractError.Short) (f := .skip) fun _ he => he).bind fun vlen _ =>
          (slice_errIn data _ _).bind fun _ _ => Outcome.errIn_ok _

theorem extract_errIn (data : Bytes) : (extractToolsCallFields data).ErrIn ExtractError.Short := by
  unfold extractToolsCallFields
  by_cases hnil : data = []
  · rw [if_pos hnil]
    exact Outcome.errIn_ok _
  · rw [if_neg hnil]
    refine (byteAt_errIn data 0).bind fun tag _ => ?_
    split_ifs
    · exact Outcome.errIn_ok _
    · exact Outcome.errIn_err trivial
    · exact (beAt_errIn data 1 4).bind fun count _ =>
        (forCount_errIn extractEntry_errIn count _).bind fun _ _ => Outcome.errIn_ok _

theorem extractEntry_ne_panic (s : Fields) : extractEntry data s ≠ .panic := by
  unfold extractEntry
  split_ifs with hlen
  · simp
  · refine Outcome.bind_ne_panic (beAt_ne_panic (by omega)) fun klen _ => ?_
    split_ifs with hkey
    · simp
    · refine Outcome.bind_ne_panic (slice_ne_panic (by omega) (by omega)) fun key _ => ?_
      rw [sliceFrom_of_le (by omega), Outcome.ok_bind]
      have hskip := skip_ne_panic (tlvMaxDepth + 1) (data.drop (s.off + 2 + klen))
      refine Outcome.bind_ne_panic (fun h => hskip (Outcome.mapErr_eq_panic.mp h)) fun vlen hvlen => ?_
      have hle := skip_le (Outcome.mapErr_eq_ok.mp hvlen)
      rw [List.length_drop] at hle
      exact Outcome.bind_ne_panic (slice_ne_panic (by omega) (by omega)) fun _ _ => by simp

theorem extract_ne_panic (data : Bytes) : extractToolsCallFields data ≠ .panic := by
  unfold extractToolsCallFields
  by_cases hnil : data = []
  · rw [if_pos hnil]
    simp
  · rw [if_neg hnil]
    refine Outcome.bind_ne_panic (byteAt_ne_panic (List.length_pos_iff.mpr hnil)) fun tag _ => ?_
    split_ifs with htag hlen
    · simp
    · simp
    · refine Outcome.bind_ne_panic (beAt_ne_panic (by omega)) fun count _ => ?_
      refine Outcome.bind_ne_panic ?_ fun _ _ => by simp
      exact forCount_ne_panic (I := fun _ => True) (fun _ _ _ _ => trivial)
        (fun s _ => extractEntry_ne_panic s) count _ trivial

theorem extractEntry_name_le {s s' : Fields} (hs : ∀ n ∈ s.name, (utf8 n).length ≤ tlvMaxStringLen)
    (h : extractEntry data s = .ok s') : ∀ n ∈ s'.name, (utf8 n).length ≤ tlvMaxStringLen := by
  unfold extractEntry at h
  split_ifs at h
  obtain ⟨klen, -, h⟩ := Outcome.bind_eq_ok.mp h
  split_ifs at h with hkey
  obtain ⟨key, -, h⟩ := Outcome.bind_eq_ok.mp h
  rw [sliceFrom_of_le (by omega), Outcome.ok_bind] at h
  obtain ⟨vlen, hvlen, h⟩ := Outcome.bind_eq_ok.mp h
  obtain ⟨value, hvalue, h⟩ := Outcome.bind_eq_ok.mp h
  obtain rfl := Outcome.ok.inj h
  obtain ⟨t, ht, hat, rfl⟩ := skip_sound (Outcome.mapErr_eq_ok.mp hvlen)
  have hat := At.of_drop (by omega) hat
  rw [Nat.add_zero] at hat
  obtain rfl := Outcome.ok.inj ((hat.slice rfl).symm.trans hvalue)
  unfold takeField
  simp only [isString_iff]
  split_ifs with hname hstring
  · cases t with
    | string u =>
      cases ht with
      | string len =>
        intro n hn
        rw [Option.mem_def, Tlv.bytes, List.drop_succ_cons, List.drop_left' (length_beBytes 4 _)] at hn
        rwa [utf8_of_fromUtf8 hn]
    | _ => exact absurd hstring id
  · exact hs
  · exact hs
  · exact hs

/-- The name of a tool is no longer either. -/
theorem extract_name_le {name : Option String} {args : Option Bytes}
    (h : extractToolsCallFields data = .ok (name, args)) :
    (utf8 (name.getD "")).length ≤ tlvMaxStringLen := by
  have hle : ∀ n ∈ name, (utf8 n).length ≤ tlvMaxStringLen := by
    unfold extractToolsCallFields at h
    by_cases hnil : data = []
    · rw [if_pos hnil] at h
      obtain ⟨rfl, -⟩ := Outcome.ok_pair_inj h
      simp
    · rw [if_neg hnil] at h
      obtain ⟨tag, -, h⟩ := Outcome.bind_eq_ok.mp h
      split_ifs at h
      · obtain ⟨rfl, -⟩ := Outcome.ok_pair_inj h
        simp
      · obtain ⟨count, -, h⟩ := Outcome.bind_eq_ok.mp h
        obtain ⟨s, hs, h⟩ := Outcome.bind_eq_ok.mp h
        obtain ⟨rfl, -⟩ := Outcome.ok_pair_inj h
        exact forCount_inv (I := fun s => ∀ n ∈ s.name, (utf8 n).length ≤ tlvMaxStringLen)
          (fun _ _ => extractEntry_name_le) count _ s (by simp) hs
  cases name with
  | none => decide
  | some n => exact hle n rfl

end Extract

/-! ## The error replies -/

section Reply

variable {srv : Server} {req : NdaRequestRef}

theorem length_takeBytes : ∀ (n : ℕ) (cs : List Char), (utf8 (String.ofList (takeBytes n cs))).length ≤ n
  | n, [] => by simp [takeBytes, utf8]
  | n, c :: cs => by
    unfold takeBytes
    split_ifs with hc
    · have hcs := length_takeBytes (n - c.utf8Size) cs
      rw [length_utf8_cons]
      omega
    · simp [utf8]

theorem length_sanitizeError (srv : Server) (msg : String) : (utf8 (srv.sanitizeError msg)).length ≤ 1030 := by
  have hmark : (utf8 "... [truncated]").length = 15 := by decide
  have hcut := length_takeBytes 500 msg.toList
  refine (srv.redact_length _).trans ?_
  split_ifs with hlong
  · rw [utf8_append, List.length_append]
    omega
  · omega

set_option maxRecDepth 2000 in
theorem length_classifyToolError (s : String) :
    (utf8 (classifyToolError s).1).length ≤ 20 ∧ (utf8 (classifyToolError s).2).length ≤ 220 := by
  have hle {s : List Char} {n : ℕ} (h : (s.map Char.utf8Size).sum ≤ n) : (utf8 (String.ofList s)).length ≤ n := by
    rwa [length_utf8_ofList]
  unfold classifyToolError
  split_ifs <;> exact ⟨hle (by decide +kernel), hle (by decide +kernel)⟩

theorem length_toolErrorText (name err : String) :
    (utf8 (srv.toolErrorText name err)).length ≤ (utf8 name).length + 1400 := by
  obtain ⟨htype, hhint⟩ := length_classifyToolError (srv.sanitizeError err)
  have hmsg := length_sanitizeError srv err
  have h₁ : (utf8 "Error running tool '").length = 20 := by decide
  have h₂ : (utf8 "': ").length = 3 := by decide
  have h₃ : (utf8 "\n\nError type: ").length = 14 := by decide
  have h₄ : (utf8 "\nHint: ").length = 7 := by decide
  show (utf8 ("Error running tool '" ++ name ++ "': " ++ srv.sanitizeError err ++ "\n\nError type: " ++
    (classifyToolError (srv.sanitizeError err)).1 ++ "\nHint: " ++
      (classifyToolError (srv.sanitizeError err)).2)).length ≤ _
  simp only [utf8_append, List.length_append]
  omega

theorem length_rateLimitText (name : String) :
    (utf8 (rateLimitText name)).length ≤ (utf8 name).length + 40 := by
  have h₁ : (utf8 "Rate limit exceeded for tool '").length = 30 := by decide
  have h₂ : (utf8 "'.").length = 2 := by decide
  show (utf8 ("Rate limit exceeded for tool '" ++ name ++ "'.")).length ≤ _
  simp only [utf8_append, List.length_append]
  omega

/-- No panic, and no error text of 2^32 bytes. -/
def Content.Sound : Content → Prop
  | .error s => (utf8 s).length < 256 ^ 4
  | .panic => False
  | _ => True

theorem sound_contentOfResult (r : Except String Value) : (contentOfResult srv r).Sound := by
  cases r with
  | ok v => exact trivial
  | error e => exact lt_of_le_of_lt (length_sanitizeError srv e) (by decide)

theorem sound_contentOfData {data : Bytes} {k : Value → Content} (hk : ∀ d, (k d).Sound) :
    (contentOfData data k).Sound := by
  unfold contentOfData
  cases h : decodeReqData data with
  | ok d => exact hk d
  | err e =>
    have herr : (decodeReqData data).ErrIn DecodeError.Short := by
      unfold decodeReqData
      split_ifs
      · exact Outcome.errIn_ok _
      · exact (decode_errIn _ data).bind fun _ _ => Outcome.errIn_ok _
    have hlen := DecodeError.length_text (herr e h)
    have hlit : (utf8 "Invalid request data: ").length = 22 := by decide
    show (utf8 ("Invalid request data: " ++ e.text)).length < _
    rw [utf8_append, List.length_append]
    omega
  | panic =>
    have hne : decodeReqData data ≠ .panic := by
      unfold decodeReqData
      split_ifs
      · simp
      · exact Outcome.bind_ne_panic (decode_ne_panic _ data) fun _ _ => by simp
    exact hne h

theorem sound_contentOfToolsCall (data : Bytes) : (contentOfToolsCall srv data).Sound := by
  unfold contentOfToolsCall
  cases h : extractToolsCallFields data with
  | err e =>
    have hlen := ExtractError.length_text (extract_errIn data e h)
    have hlit : (utf8 "Malformed tools/call payload: ").length = 30 := by decide
    show (utf8 ("Malformed tools/call payload: " ++ e.text)).length < _
    rw [utf8_append, List.length_append]
    omega
  | panic => exact extract_ne_panic data h
  | ok fields =>
    obtain ⟨name, args⟩ := fields
    have hname : (utf8 (name.getD "")).length ≤ 10000000 := extract_name_le h
    simp only
    by_cases hrate : (!srv.checkRateLimit) = true
    · rw [if_pos hrate]
      exact lt_of_le_of_lt (length_rateLimitText _) (by omega)
    · rw [if_neg hrate]
      cases callToolFrom srv (name.getD "") args with
      | ok res => exact trivial
      | error e => exact lt_of_le_of_lt (length_toolErrorText _ e) (by omega)

theorem ite_sound {p : Prop} [Decidable p] {c d : Content} (hc : c.Sound) (hd : d.Sound) :
    (if p then c else d).Sound := by
  by_cases h : p
  · rwa [if_pos h]
  · rwa [if_neg h]

/-- **No arm panics, and no error text is too long.** -/
theorem sound_contentOf (srv : Server) (req : NdaRequestRef) : (contentOf srv req).Sound := by
  unfold contentOf
  refine ite_sound trivial ?_
  refine ite_sound trivial ?_
  refine ite_sound trivial ?_
  refine ite_sound trivial ?_
  refine ite_sound trivial ?_
  refine ite_sound (sound_contentOfToolsCall req.data) ?_
  refine ite_sound trivial ?_
  refine ite_sound (sound_contentOfData fun _ => trivial) ?_
  refine ite_sound (sound_contentOfData fun _ => sound_contentOfResult _) ?_
  refine ite_sound (sound_contentOfData fun _ => trivial) ?_
  refine ite_sound (sound_contentOfData fun _ => trivial) ?_
  refine ite_sound (sound_contentOfData fun _ => sound_contentOfResult _) ?_
  refine ite_sound (sound_contentOfData fun _ => sound_contentOfResult _) ?_
  refine ite_sound trivial ?_
  refine ite_sound trivial ?_
  have hx := length_hex02 req.method
  have hlit : (utf8 "Unknown method: 0x").length = 18 := by decide
  show (utf8 ("Unknown method: 0x" ++ hex02 req.method)).length < _
  rw [utf8_append, List.length_append]
  omega

end Reply

end VelocityMcp.NdaNative
