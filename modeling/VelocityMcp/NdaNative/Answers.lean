import VelocityMcp.Client.NdaResponse
import VelocityMcp.NdaNative.ErrorTexts

/-!
# NdaNative.Answers — which requests get a reply that their client accepts

`answeredBy_iff`: which requests are answered, in terms of the id and of what the tool or the registry has answered.
-/

namespace VelocityMcp.NdaNative

open Lib Client

variable {sha256 : Bytes → Bytes} {srv : Server} {frame : Bytes} {req : NdaRequestRef}

/-- The client accepts the reply to the request: it reads all of it, the status is one of the two, and the id
is the one that was decoded from the request. -/
def Accepted (sha256 : Bytes → Bytes) (req : NdaRequestRef) (reply : Bytes) : Prop :=
  ∃ resp n, parseNdaResponseAt sha256 reply = .ok (resp, n) ∧ frameHeaderSize + n = reply.length ∧
    (resp.status = statusOk ∨ resp.status = statusError) ∧
      decodeJsonValue req.idTlv = .ok (resp.requestId, req.idTlv.length)

/-- The bytes of the id are those of a value. -/
def IdDecodes (req : NdaRequestRef) : Prop := ∃ i n, decodeJsonValue req.idTlv = .ok (i, n)

/-- Whatever reply there is, the client accepts it; and there is one, if the id decodes. -/
def AnsweredBy (sha256 : Bytes → Bytes) (req : NdaRequestRef) (o : Outcome String Bytes) : Prop :=
  (∀ reply, o = .ok reply → Accepted sha256 req reply) ∧
    (IdDecodes req → ∃ reply, o = .ok reply ∧ Accepted sha256 req reply)

/-- The content comes through the TLV format: a text shorter than 2^32 bytes, a value with no key of more than
65535 bytes, a tool list with no such key in a schema.  Where a length wraps in its four bytes, what was
written has to be one encoding by chance. -/
def Content.Deliverable : Content → Prop
  | .text s => (utf8 s).length < 256 ^ 4
  | .value v => v.All (Value.KeysLe 65535) ∧ (¬ v.Sized → IsTlv (encodeJsonValue v).bytes)
  | .tools ts =>
    ((toolsListValue ts).Sized → ∀ t ∈ ts, t.inputSchema.All (Value.KeysLe 65535)) ∧
      (¬ (toolsListValue ts).Sized → IsTlv (encodeToolsListResult ts).bytes)
  | _ => True

/-- The content does not get as far as a frame: a value with a key of more than 65535 bytes. -/
def Content.Refused : Content → Prop
  | .value v => ¬ v.All (Value.KeysLe 65535)
  | _ => False

/-! ## A writer that stops early -/

/-- The bytes lack something to be an encoding of a value. -/
def Unfinished (b : Bytes) : Prop := ∃ t c, Tlv.Whole t ∧ c ≠ [] ∧ t.bytes = b ++ c

theorem encodeItems_unfinished {vs : List Value} (hs : ∀ v ∈ vs, v.Sized)
    (ih : ∀ v ∈ vs, ∀ e, (encodeJsonValue v).error = some e → Unfinished (encodeJsonValue v).bytes) {e : String}
    (h : (encodeItems vs).error = some e) :
    ∃ ts c, ts.length = vs.length ∧ (∀ t ∈ ts, Tlv.Whole t) ∧ c ≠ [] ∧
      Tlv.itemsBytes ts = (encodeItems vs).bytes ++ c := by
  induction vs with
  | nil => exact absurd h (by simp [encodeItems, Emit.put])
  | cons v vs ihvs =>
    cases herr : (encodeJsonValue v).error with
    | some e' =>
      obtain ⟨t, c, ht, hc, hbytes⟩ := ih v List.mem_cons_self e' herr
      refine ⟨t :: List.replicate vs.length .null, c ++ Tlv.itemsBytes (List.replicate vs.length .null),
        by simp, ?_, by simp [hc], ?_⟩
      · intro u hu
        rcases List.mem_cons.mp hu with rfl | hu
        · exact ht
        · rw [List.eq_of_mem_replicate hu]
          exact Tlv.whole_null
      · rw [encodeItems, Emit.andThen_of_error herr, Tlv.itemsBytes, hbytes, List.append_assoc]
    | none =>
      obtain ⟨hk, henc⟩ := encodeJsonValue_eq_put.mp (Emit.eq_put herr)
      rw [encodeItems, Emit.andThen_of_none herr] at h
      obtain ⟨ts, c, hlen, hts, hc, hbytes⟩ := ihvs (fun w hw => hs w (List.mem_cons_of_mem _ hw))
        (fun w hw => ih w (List.mem_cons_of_mem _ hw)) h
      refine ⟨Tlv.ofValue v :: ts, c, by simp [hlen], ?_, hc, ?_⟩
      · intro u hu
        rcases List.mem_cons.mp hu with rfl | hu
        · exact Tlv.whole_ofValue (hs v List.mem_cons_self) hk
        · exact hts u hu
      · rw [encodeItems, Emit.andThen_of_none herr, Tlv.itemsBytes, hbytes, henc, List.append_assoc]

theorem encodeFields_unfinished {fs : List (String × Value)} (hs : ∀ p ∈ fs, p.2.Sized)
    (ih : ∀ p ∈ fs, ∀ e, (encodeJsonValue p.2).error = some e → Unfinished (encodeJsonValue p.2).bytes)
    {e : String} (h : (encodeFields fs).error = some e) :
    ∃ es c, es.length = fs.length ∧ (∀ x ∈ es, x.1.length < 256 ^ 2 ∧ ∃ s, fromUtf8 x.1 = some s) ∧
      (∀ x ∈ es, Tlv.Whole x.2) ∧ c ≠ [] ∧ Tlv.entriesBytes es = (encodeFields fs).bytes ++ c := by
  have hempty : ∀ (n : ℕ), ∀ x ∈ List.replicate n (([], .null) : Bytes × Tlv),
      (x.1.length < 256 ^ 2 ∧ ∃ s, fromUtf8 x.1 = some s) ∧ Tlv.Whole x.2 := fun n x hx => by
    rw [List.eq_of_mem_replicate hx]
    exact ⟨⟨by decide, "", fromUtf8_utf8 ""⟩, Tlv.whole_null⟩
  induction fs with
  | nil => exact absurd h (by simp [encodeFields, Emit.put])
  | cons p fs ihfs =>
    obtain ⟨k, v⟩ := p
    by_cases hkey : 65535 < (utf8 k).length
    · have hne : Tlv.entriesBytes (List.replicate (fs.length + 1) ([], .null)) ≠ [] := by
        rw [List.replicate_succ, Tlv.entriesBytes]
        simp [Tlv.bytes_ne_nil]
      exact ⟨_, _, List.length_replicate, fun x hx => (hempty _ x hx).1, fun x hx => (hempty _ x hx).2, hne,
        by rw [encodeFields, if_pos hkey]; rfl⟩
    · have hklen : (utf8 k).length < 256 ^ 2 := lt_of_le_of_lt (not_lt.mp hkey) (by decide)
      rw [encodeFields, if_neg hkey, Emit.put_andThen] at h ⊢
      cases herr : (encodeJsonValue v).error with
      | some e' =>
        obtain ⟨t, c, ht, hc, hbytes⟩ := ih (k, v) List.mem_cons_self e' herr
        refine ⟨(utf8 k, t) :: List.replicate fs.length ([], .null),
          c ++ Tlv.entriesBytes (List.replicate fs.length ([], .null)), by simp, ?_, ?_, by simp [hc], ?_⟩
        · intro x hx
          rcases List.mem_cons.mp hx with rfl | hx
          · exact ⟨hklen, k, fromUtf8_utf8 k⟩
          · exact (hempty _ x hx).1
        · intro x hx
          rcases List.mem_cons.mp hx with rfl | hx
          · exact ht
          · exact (hempty _ x hx).2
        · rw [Emit.andThen_of_error herr, Tlv.entriesBytes, hbytes]
          simp only [List.append_assoc]
      | none =>
        obtain ⟨hk, henc⟩ := encodeJsonValue_eq_put.mp (Emit.eq_put herr)
        rw [Emit.andThen_of_none herr] at h ⊢
        obtain ⟨es, c, hlen, hkeys, hes, hc, hbytes⟩ := ihfs (fun q hq => hs q (List.mem_cons_of_mem _ hq))
          (fun q hq => ih q (List.mem_cons_of_mem _ hq)) h
        refine ⟨(utf8 k, Tlv.ofValue v) :: es, c, by simp [hlen], ?_, ?_, hc, ?_⟩
        · intro x hx
          rcases List.mem_cons.mp hx with rfl | hx
          · exact ⟨hklen, k, fromUtf8_utf8 k⟩
          · exact hkeys x hx
        · intro x hx
          rcases List.mem_cons.mp hx with rfl | hx
          · exact Tlv.whole_ofValue (hs (k, v) List.mem_cons_self) hk
          · exact hes x hx
        · rw [Tlv.entriesBytes, hbytes, henc]
          simp only [List.append_assoc]

/-- **What was written before an error** lacks something. -/
theorem encodeJsonValue_unfinished {v : Value} (hs : v.Sized) :
    ∀ e, (encodeJsonValue v).error = some e → Unfinished (encodeJsonValue v).bytes := by
  induction v with
  | null => exact fun e h => absurd h (by simp [encodeJsonValue, Emit.put])
  | bool b => exact fun e h => absurd h (by simp [encodeJsonValue, Emit.put])
  | number n =>
    have hput := (encodeJsonValue_eq_put (v := .number n)).mpr ⟨trivial, rfl⟩
    exact fun e h => absurd h (by simp [hput, Emit.put])
  | string s => exact fun e h => absurd h (by simp [encodeJsonValue, Emit.put])
  | array items ih =>
    intro e h
    rw [Value.Sized, Value.all_array] at hs
    have hlen : items.length ≤ 256 ^ 4 - 1 := hs.1.2
    rw [encodeJsonValue, Emit.put_andThen] at h ⊢
    obtain ⟨ts, c, hts, hwhole, hc, hbytes⟩ := encodeItems_unfinished hs.2 (fun v hv => ih v hv (hs.2 v hv)) h
    refine ⟨.array ts, c, Tlv.whole_array (by omega) hwhole, hc, ?_⟩
    rw [Tlv.bytes, hts, hbytes, List.cons_append, List.cons_append, List.append_assoc]
  | object fields ih =>
    intro e h
    rw [Value.Sized, Value.all_object] at hs
    have hlen : fields.length ≤ 256 ^ 4 - 1 := hs.1.2
    rw [encodeJsonValue, Emit.put_andThen] at h ⊢
    obtain ⟨es, c, hes, hkeys, hwhole, hc, hbytes⟩ :=
      encodeFields_unfinished hs.2 (fun p hp => ih p hp (hs.2 p hp)) h
    refine ⟨.object es, c, Tlv.whole_object (by omega) hkeys hwhole, hc, ?_⟩
    rw [Tlv.bytes, hes, hbytes, List.cons_append, List.cons_append, List.append_assoc]

theorem isTlv_of_whole {t : Tlv} (h : t.Whole) : IsTlv t.bytes := by
  obtain ⟨v, hv⟩ := h.2
  exact ⟨t, v, h.1, hv, rfl⟩

theorem not_isTlv_of_unfinished {b : Bytes} (h : Unfinished b) : ¬ IsTlv b := by
  rintro ⟨t', v', hfits', hv', rfl⟩
  obtain ⟨t, c, ⟨hfits, v, hv⟩, hc, hbytes⟩ := h
  have hat : At t.bytes 0 t.bytes := by simpa using at_zero t.bytes []
  have hat' : At t.bytes 0 t'.bytes := by
    rw [hbytes]
    exact at_zero t'.bytes c
  have hdec := decodeTlvValue_of_at hfits hat
  rw [decodeTlvValue_of_at hfits' hat', hv, hv'] at hdec
  have hlen := (Outcome.ok_pair_inj hdec).2
  rw [hbytes, List.length_append] at hlen
  exact hc (List.length_eq_zero_iff.mp (by omega))

/-- **What the encoder writes is one value**, unless it stops early. -/
theorem isTlv_encodeJsonValue_iff {v : Value} (hs : v.Sized) :
    IsTlv (encodeJsonValue v).bytes ↔ v.All (Value.KeysLe 65535) := by
  constructor
  · intro h
    cases herr : (encodeJsonValue v).error with
    | none => exact (encodeJsonValue_eq_put.mp (Emit.eq_put herr)).1
    | some e => exact absurd h (not_isTlv_of_unfinished (encodeJsonValue_unfinished hs e herr))
  · intro hk
    rw [encodeJsonValue_of_keysLe hk]
    exact isTlv_of_whole (Tlv.whole_ofValue hs hk)

/-! ## Other results -/

theorem isTlv_textTlv (s : String) : IsTlv (textTlv s) ↔ (utf8 s).length < 256 ^ 4 := by
  constructor
  · rintro ⟨t, v, hfits, -, hbytes⟩
    cases hfits with
    | string hlen =>
      rename_i u
      have h := List.append_inj (List.cons.inj hbytes).2 (by simp)
      rwa [h.2]
    | int i => exact absurd (List.cons.inj hbytes).1 (by decide)
    | bool b => exact absurd (List.cons.inj hbytes).1 (by decide)
    | null => exact absurd (List.cons.inj hbytes).1 (by decide)
    | array count item => exact absurd (List.cons.inj hbytes).1 (by decide)
    | object count key item => exact absurd (List.cons.inj hbytes).1 (by decide)
    | float bits => exact absurd (List.cons.inj hbytes).1 (by decide)
  · exact fun h => ⟨.string (utf8 s), .string s, .string h, by simp [Tlv.value], rfl⟩

theorem isTlv_emptyObject : IsTlv emptyObjectTlv :=
  ⟨.object [], .object [], .object (by decide) (by simp) (by simp), rfl, rfl⟩

theorem keysLe_toolsListValue {ts : List Tool} :
    (toolsListValue ts).All (Value.KeysLe 65535) ↔ ∀ t ∈ ts, t.inputSchema.All (Value.KeysLe 65535) := by
  have htools : Value.KeysLe 65535 (toolsListValue ts) := by
    intro p hp
    obtain rfl := List.mem_singleton.mp hp
    exact (by decide : (utf8 "tools").length ≤ 65535)
  have hhead : ∀ t : Tool, Value.KeysLe 65535 t.toValue := by
    intro t p hp
    simp only [List.mem_cons, List.not_mem_nil, or_false] at hp
    rcases hp with rfl | rfl | rfl
    · exact (by decide : (utf8 "description").length ≤ 65535)
    · exact (by decide : (utf8 "inputSchema").length ≤ 65535)
    · exact (by decide : (utf8 "name").length ≤ 65535)
  have htool : ∀ t : Tool, t.toValue.All (Value.KeysLe 65535) ↔ t.inputSchema.All (Value.KeysLe 65535) := by
    intro t
    rw [Tool.toValue, Value.all_object]
    constructor
    · exact fun h => h.2 ("inputSchema", t.inputSchema) (by simp)
    · intro h
      refine ⟨hhead t, fun p hp => ?_⟩
      simp only [List.mem_cons, List.not_mem_nil, or_false] at hp
      rcases hp with rfl | rfl | rfl
      · exact trivial
      · exact h
      · exact trivial
  rw [toolsListValue, Value.all_object]
  constructor
  · intro h t ht
    have hall := Value.all_array.mp (h.2 ("tools", .array (ts.map Tool.toValue)) List.mem_cons_self)
    exact (htool t).mp (hall.2 _ (List.mem_map_of_mem ht))
  · intro h
    refine ⟨htools, fun p hp => ?_⟩
    obtain rfl := List.mem_singleton.mp hp
    refine Value.all_array.mpr ⟨trivial, fun v hv => ?_⟩
    obtain ⟨t, ht, rfl⟩ := List.mem_map.mp hv
    exact (htool t).mpr (h t ht)

/-! ## The id -/

theorem exists_id (h : parseNdaRequestInplace srv.cfg frame = .ok req) :
    ∃ t : Tlv, t.Within (tlvMaxDepth + 1) ∧ req.idTlv = t.bytes := by
  obtain ⟨enc, m, q, n, -, hskip, rfl⟩ := parseNdaRequestInplace_eq_ok.mp h
  obtain ⟨t, ht, ⟨p, r, hq, hp⟩, rfl⟩ := skip_sound hskip
  obtain rfl := List.length_eq_zero_iff.mp hp
  exact ⟨t, ht, by simp [hq]⟩

theorem decode_id {t : Tlv} (ht : t.Within (tlvMaxDepth + 1)) (hid : req.idTlv = t.bytes) :
    decodeJsonValue req.idTlv = ofWire t.value >>= fun i => .ok (i, req.idTlv.length) := by
  have hat : At req.idTlv 0 t.bytes := by
    rw [hid]
    simpa using at_zero t.bytes []
  rw [hid] at hat ⊢
  exact decode_of_at ht hat

/-! ## Replies -/

/-- **A reply is accepted** exactly when the id decodes and the result is one encoding. -/
theorem accepted_iff {t : Tlv} (ht : t.Within (tlvMaxDepth + 1)) (hid : req.idTlv = t.bytes) {b : Bytes}
    (hb : b ≠ []) {status : UInt8} (hstatus : status = statusOk ∨ status = statusError) :
    Accepted sha256 req (replyFrame status req.idTlv b) ↔ IdDecodes req ∧ IsTlv b := by
  have hlen : (replyFrame status req.idTlv b).length = frameHeaderSize + (1 + t.bytes.length + b.length) := by
    rw [hid]
    simp [replyFrame, buildNdaResponseFrame, ndaMagic, frameHeaderSize]
    omega
  unfold Accepted IdDecodes
  rw [hlen, decode_id ht hid, hid, parse_replyFrame ht.fits hb]
  cases hv : t.value with
  | error e => simp [Client.ofWire, NdaNative.ofWire]
  | ok i =>
    simp only [Client.ofWire_ok, NdaNative.ofWire_ok, Outcome.ok_bind]
    rw [isTlv_iff]
    constructor
    · rintro ⟨resp, n, hparse, hn, -, -⟩
      obtain ⟨⟨v, k⟩, hdec, hk⟩ := Outcome.bind_eq_ok.mp hparse
      obtain ⟨-, rfl⟩ := Outcome.ok_pair_inj hk
      obtain rfl : k = b.length := by omega
      exact ⟨⟨i, _, rfl⟩, v, hdec⟩
    · rintro ⟨-, v, hdec⟩
      exact ⟨⟨status, i, v⟩, _, by rw [hdec, Outcome.ok_bind], rfl, hstatus, rfl⟩

/-! ## The dispatcher -/

theorem answeredBy_ok {r : Bytes} : AnsweredBy sha256 req (.ok r) ↔ Accepted sha256 req r := by
  constructor
  · exact fun h => h.1 r rfl
  · exact fun h => ⟨fun r' hr => Outcome.ok.inj hr ▸ h, fun _ => ⟨r, rfl, h⟩⟩

theorem answeredBy_err {e : String} : AnsweredBy sha256 req (.err e) ↔ ¬ IdDecodes req := by
  constructor
  · intro h hid
    obtain ⟨r, hr, -⟩ := h.2 hid
    exact absurd hr (by simp)
  · exact fun hid => ⟨fun r hr => absurd hr (by simp), fun h => absurd h hid⟩

/-- **Which requests are answered.**  The dispatcher answers a request that it has parsed exactly when the id
decodes and the content comes through; or when the id does not decode, and no reply is made. -/
theorem answeredBy_iff (sha256 : Bytes → Bytes) (h : parseNdaRequestInplace srv.cfg frame = .ok req) :
    AnsweredBy sha256 req (dispatchNdaRequest srv frame) ↔
      (IdDecodes req ∧ (contentOf srv req).Deliverable) ∨ (¬ IdDecodes req ∧ (contentOf srv req).Refused) := by
  obtain ⟨t, ht, hid⟩ := exists_id h
  have hframe : ∀ {b : Bytes} {status : UInt8}, b ≠ [] → status = statusOk ∨ status = statusError →
      (AnsweredBy sha256 req (.ok (replyFrame status req.idTlv b)) ↔ IdDecodes req ∧ IsTlv b) :=
    fun hb hstatus => answeredBy_ok.trans (accepted_iff ht hid hb hstatus)
  have hsound := sound_contentOf srv req
  rw [dispatchNdaRequest_of_parse h]
  cases hc : contentOf srv req with
  | panic =>
    rw [hc] at hsound
    exact absurd hsound id
  | empty =>
    rw [Content.frame, hframe (by decide) (Or.inl rfl)]
    simp [Content.Deliverable, Content.Refused, isTlv_emptyObject]
  | text s =>
    have hne : textTlv s ≠ [] := List.cons_ne_nil _ _
    rw [Content.frame, hframe hne (Or.inl rfl), isTlv_textTlv]
    simp [Content.Deliverable, Content.Refused]
  | error s =>
    rw [hc] at hsound
    have hne : textTlv s ≠ [] := List.cons_ne_nil _ _
    have hlen : (utf8 s).length < 256 ^ 4 := hsound
    rw [Content.frame, hframe hne (Or.inr rfl), isTlv_textTlv, and_iff_left hlen]
    simp [Content.Deliverable, Content.Refused]
  | tools ts =>
    have hiff : IsTlv (encodeToolsListResult ts).bytes ↔ (Content.tools ts).Deliverable := by
      unfold Content.Deliverable
      by_cases hs : (toolsListValue ts).Sized
      · rw [encodeToolsListResult_eq, isTlv_encodeJsonValue_iff hs, keysLe_toolsListValue]
        simp [hs]
      · simp [hs]
    rw [Content.frame, hframe (encodeToolsListResult_ne_nil ts) (Or.inl rfl), hiff]
    simp [Content.Refused]
  | value v =>
    -- a key of over 65535 bytes cannot be written, and no frame comes out
    by_cases hk : v.All (Value.KeysLe 65535)
    · have hbytes : (encodeJsonValue v).bytes = (Tlv.ofValue v).bytes := by
        rw [encodeJsonValue_of_keysLe hk]
        rfl
      have hiff : IsTlv (Tlv.ofValue v).bytes ↔ (Content.value v).Deliverable := by
        rw [← hbytes]
        unfold Content.Deliverable
        by_cases hs : v.Sized
        · simp [hs, hk, isTlv_encodeJsonValue_iff hs]
        · simp [hs, hk]
      rw [Content.frame, encodeJsonValue_of_keysLe hk, Emit.toOutcome_put, Outcome.ok_bind,
        hframe (Tlv.bytes_ne_nil _) (Or.inl rfl), hiff]
      simp [Content.Refused, hk]
    · have herr : ∃ e, (encodeJsonValue v).toOutcome = .err e := by
        cases herr : (encodeJsonValue v).error with
        | none => exact absurd (encodeJsonValue_eq_put.mp (Emit.eq_put herr)).1 hk
        | some e => exact ⟨e, by rw [Emit.toOutcome, herr]⟩
      obtain ⟨e, he⟩ := herr
      rw [Content.frame, he, Outcome.err_bind, answeredBy_err]
      simp [Content.Deliverable, Content.Refused, hk]

/-! ### Two pings -/

/-- `ping`, with an id that is one byte of text, and no UTF-8. -/
def badIdPayload : Bytes := [0x04, 0x01, 0, 0, 0, 1, 0xff]

/-- The SHA-256 digest of `badIdPayload`. -/
def badIdDigest : Bytes := [0xa4, 0xc3, 0x26, 0xf9, 0xe5, 0xcf, 0xe7, 0xcd, 0x6b, 0x73, 0xca, 0xd2, 0x72, 0x5d,
  0xe8, 0x81, 0x70, 0xcf, 0x4e, 0x98, 0x17, 0xf7, 0xa4, 0x48, 0x62, 0x89, 0x9d, 0x1f, 0x22, 0x19, 0xae, 0x88]

def badIdFrame : Bytes := ndaMagic ++ (badIdDigest ++ badIdPayload)

def pingFrame : Bytes := ndaMagic ++ (pingDigest ++ pingPayload)

def pingSha256 (p : Bytes) : Bytes := if p = badIdPayload then badIdDigest else pingDigest

/-- A server in the default build that has nothing to offer. -/
def bareServer : Server where
  cfg := { defaultConfig with sha256 := pingSha256 }
  tools := []
  generation := 0
  toolsListCache := none
  resources := []
  templates := []
  prompts := []
  checkRateLimit := true
  callTool := fun name _ => .error s!"ERROR: Unknown tool '{name}'"
  callToolBinary := fun name _ => .error s!"ERROR: Unknown tool '{name}'"
  readResource := fun uri => .error s!"Resource not found: {uri}"
  subscribeResource := fun uri _ => .error s!"Resource not found: {uri}"
  unsubscribeResource := fun _ _ => .ok ()
  sampling := fun _ => .error "no sampling"
  redact := id
  redact_length := fun s => Nat.le_mul_of_pos_left _ (by decide)
  order := id
  order_perm := fun _ => .refl _

/-- A ping whose id is no UTF-8 gets no answer. -/
theorem badIdFrame_unanswered :
    ¬ ∀ req, parseNdaRequestInplace bareServer.cfg badIdFrame = .ok req →
      AnsweredBy pingSha256 req (dispatchNdaRequest bareServer badIdFrame) := by
  intro h
  have hreq := h ⟨0x04, [0x01, 0, 0, 0, 1, 0xff], []⟩ (by decide +kernel)
  obtain ⟨resp, n, hparse, -⟩ := hreq.1 (replyFrame statusOk [0x01, 0, 0, 0, 1, 0xff] emptyObjectTlv)
    (by decide +kernel)
  have hreject : (parseNdaResponseAt pingSha256
      (replyFrame statusOk [0x01, 0, 0, 0, 1, 0xff] emptyObjectTlv)).toOption = none := by decide +kernel
  rw [hparse] at hreject
  exact absurd hreject (by simp [Outcome.toOption])

/-- A ping with the integer id 1. -/
theorem answeredBy_iff_ping :
    AnsweredBy pingSha256 ⟨0x04, [0x02, 0, 0, 0, 0, 0, 0, 0, 1], []⟩ (dispatchNdaRequest bareServer pingFrame) :=
  (answeredBy_iff pingSha256 (by decide +kernel)).mpr
    (Or.inl ⟨⟨.number (.posInt 1), 9, by decide +kernel⟩, trivial⟩)

end VelocityMcp.NdaNative
