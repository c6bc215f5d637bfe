import VelocityMcp.NdaNative.Extract

/-!
# NdaNative.Field — one field of an encoded object, in place (`nda_native.rs`)

`extractTlvField_agrees_iff`: when that is what the decoded map holds.
-/

namespace VelocityMcp.NdaNative

open Lib

/-! ## The search -/

/-- The errors of `extract_tlv_field`. -/
inductive FieldError where
  | object
  | keyLength
  | key
  | value
  | skip (e : SkipError)
deriving DecidableEq, Repr

def FieldError.text : FieldError → String
  | object => "truncated object"
  | keyLength => "truncated key length"
  | key => "truncated key"
  | value => "truncated value"
  | skip e => e.text

/-- The loop over the entries left, from an offset. -/
def searchEntries (data targetKey : Bytes) : ℕ → ℕ → Outcome FieldError (Option Bytes)
  | 0, _ => .ok none
  | count + 1, off =>
    if data.length < off + 2 then .err .keyLength
    else do
      let klen ← beAt data off 2
      if data.length < off + 2 + klen then .err .key
      else do
        let key ← slice data (off + 2) (off + 2 + klen)
        let rest ← sliceFrom data (off + 2 + klen)
        let valLen ← (skipTlvValue rest).mapErr .skip
        if data.length < off + 2 + klen + valLen then .err .value
        else if key = targetKey then do
          let value ← slice data (off + 2 + klen) (off + 2 + klen + valLen)
          .ok (some value)
        else searchEntries data targetKey count (off + 2 + klen + valLen)

/-- The first entry with the key. -/
def extractTlvField (data targetKey : Bytes) : Outcome FieldError (Option Bytes) :=
  if data = [] then .ok none
  else do
    let tag ← byteAt data 0
    if tag ≠ 0x06 then .ok none
    else if data.length < 5 then .err .object
    else do
      let count ← beAt data 1 4
      searchEntries data targetKey count 5

/-! ## On the encoding of an object -/

theorem searchEntries_of_at {b key : Bytes} {es : List (Bytes × Tlv)} (hkey : ∀ e ∈ es, e.1.length < 256 ^ 2)
    (hes : ∀ e ∈ es, e.2.Within (tlvMaxDepth + 1)) {off : ℕ} (h : At b off (Tlv.entriesBytes es)) :
    searchEntries b key es.length off = .ok ((valuesOf key es).head?.map Tlv.bytes) := by
  induction es generalizing off with
  | nil => rfl
  | cons e es ih =>
    obtain ⟨k, t⟩ := e
    obtain ⟨hlen, hrest⟩ := at_append_iff.mp h
    obtain ⟨hk, hrest⟩ := at_append_iff.mp hrest
    obtain ⟨ht, hes'⟩ := at_append_iff.mp hrest
    rw [length_beBytes] at hk ht hes'
    have hle := ht.length_le
    have hskip : skipTlvValue (b.drop (off + 2 + k.length)) = .ok t.bytes.length :=
      skip_of_at (hes (k, t) List.mem_cons_self) (at_drop ht)
    rw [List.length_cons, searchEntries, if_neg (by omega), hlen.beAt (hkey _ List.mem_cons_self), Outcome.ok_bind,
      if_neg (by omega), hk.slice rfl, Outcome.ok_bind, sliceFrom_of_le (by omega), Outcome.ok_bind, hskip,
      Outcome.mapErr_ok, Outcome.ok_bind, if_neg (by omega), valuesOf]
    by_cases hk' : k = key
    · rw [if_pos hk', if_pos hk', ht.slice rfl, Outcome.ok_bind]
      rfl
    · rw [if_neg hk', if_neg hk']
      exact ih (fun e he => hkey e (List.mem_cons_of_mem _ he)) (fun e he => hes e (List.mem_cons_of_mem _ he)) hes'

/-- **The search on an encoded object** never fails, and finds the key's first value. -/
theorem extract_field_of_at {b key : Bytes} {es : List (Bytes × Tlv)}
    (hw : (Tlv.object es).Within (tlvMaxDepth + 1)) (h : At b 0 (Tlv.object es).bytes) :
    extractTlvField b key = .ok ((valuesOf key es).head?.map Tlv.bytes) := by
  obtain ⟨htag, h⟩ := at_cons_iff.mp h
  obtain ⟨hlen, hes⟩ := at_append_iff.mp h
  rw [length_beBytes] at hes
  have hle := hes.length_le
  have hb : b ≠ [] := by
    rintro rfl
    exact absurd htag.length_le (by simp)
  cases hw with
  | object count hkey item =>
    have hlim : es.length < 256 ^ 4 := lt_of_le_of_lt count (by decide)
    rw [extractTlvField, if_neg hb, htag.byteAt, Outcome.ok_bind, if_neg (by simp), if_neg (by omega),
      hlen.beAt hlim, Outcome.ok_bind, searchEntries_of_at hkey (fun e he => (item e he).mono (by omega)) hes]

theorem extract_field_of_ne_object {b : Bytes} {t : Tlv} (ht : ∀ es, t ≠ .object es) (h : At b 0 t.bytes)
    (key : Bytes) : extractTlvField b key = .ok none := by
  obtain ⟨hb, x, hx, hat⟩ := exists_tag_of_ne_object ht h
  rw [extractTlvField, if_neg hb, hat.byteAt, Outcome.ok_bind, if_pos hx]

theorem head_valuesOf_ofFields (key : String) (m : List (String × Value)) :
    (valuesOf (utf8 key) (Tlv.ofFields m)).head? = (getKey key m).map Tlv.ofValue := by
  induction m with
  | nil => rfl
  | cons p m ih =>
    obtain ⟨k, v⟩ := p
    rw [Tlv.ofFields, valuesOf, getKey_cons]
    by_cases hk : k = key
    · rw [if_pos (congrArg utf8 hk), if_pos hk]
      rfl
    · rw [if_neg (mt utf8_inj.mp hk), if_neg hk]
      exact ih

/-- **The search on the encoding of a value** finds what the value has. -/
theorem extract_field_ofValue {v : Value} (h : WithinLimits v) (key : String) :
    extractTlvField (Tlv.ofValue v).bytes (utf8 key) =
      .ok ((v.get key).map fun w => (Tlv.ofValue w).bytes) := by
  have hwithin := Tlv.within_ofValue (Nat.lt_succ_iff.mpr h.depth) (Value.all_and.mpr ⟨h.strings, h.entries⟩) h.keys
  have hat : At (Tlv.ofValue v).bytes 0 (Tlv.ofValue v).bytes := ⟨[], [], by simp, rfl⟩
  cases v with
  | object m =>
    rw [Tlv.ofValue] at hwithin hat ⊢
    rw [extract_field_of_at hwithin hat, head_valuesOf_ofFields, Option.map_map]
    rfl
  | number n =>
    refine extract_field_of_ne_object (fun es => ?_) hat _
    rw [Tlv.ofValue]
    cases n.asI64 with
    | some i => simp
    | none => cases n.asF64 <;> simp
  | null => exact extract_field_of_ne_object (by simp [Tlv.ofValue]) hat _
  | bool b => exact extract_field_of_ne_object (by simp [Tlv.ofValue]) hat _
  | string s => exact extract_field_of_ne_object (by simp [Tlv.ofValue]) hat _
  | array items => exact extract_field_of_ne_object (by simp [Tlv.ofValue]) hat _

theorem extract_field_of_decode {b : Bytes} {v : Value} {n : ℕ} (h : decodeJsonValue b = .ok (v, n)) (key : Bytes) :
    ∃ field, extractTlvField b key = .ok field := by
  obtain ⟨t, hwithin, hat, -, -⟩ := decode_sound h
  by_cases hobject : ∃ es, t = .object es
  · obtain ⟨es, rfl⟩ := hobject
    exact ⟨_, extract_field_of_at hwithin hat⟩
  · exact ⟨none, extract_field_of_ne_object (fun es ht => hobject ⟨es, ht⟩) hat key⟩

/-! ## Against the decoded map -/

section Agreement

variable {data key : Bytes} {m : List (String × Value)} {n : ℕ}

def lookupKey (key : Bytes) (m : List (String × Value)) : Option Value := (fromUtf8 key).bind (getKey · m)

/-- The scan for a key finds the value that the decoded object has there, or nothing if it has none. -/
def FieldAgrees (data key : Bytes) (m : List (String × Value)) : Prop :=
  match lookupKey key m with
  | some v => ∃ t, extractTlvField data key = .ok (some t) ∧ decodeJsonValue t = .ok (v, t.length)
  | none => extractTlvField data key = .ok none

/-- The first and the last value of a key are the same. -/
def RepeatsAgree (key : Bytes) (es : List (Bytes × Tlv)) : Prop :=
  (valuesOf key es).head?.map Tlv.value = (valuesOf key es).getLast?.map Tlv.value

theorem exists_entries_of_value {t : Tlv} (h : t.value = .ok (.object m)) : ∃ es, t = .object es := by
  cases t with
  | object es => exact ⟨es, rfl⟩
  | string u => obtain ⟨s, -, hs⟩ := Tlv.value_string_eq_ok.mp h; exact absurd hs (by simp)
  | array ts => obtain ⟨vs, -, hs⟩ := Tlv.value_array_eq_ok.mp h; exact absurd hs (by simp)
  | int i => exact absurd (Except.ok.inj h) (by simp)
  | bool b => exact absurd (Except.ok.inj h) (by simp)
  | null => exact absurd (Except.ok.inj h) (by simp)
  | float bits =>
    have hfloat := Except.ok.inj h
    rw [Value.ofF64] at hfloat
    split_ifs at hfloat

theorem lookupKey_insertAll {es : List (Bytes × Tlv)} {ps : List (String × Value)}
    (h : List.Forall₂ (fun e p => fromUtf8 e.1 = some p.1 ∧ e.2.value = .ok p.2) es ps) (key : Bytes) :
    (valuesOf key es).getLast?.map Tlv.value = (lookupKey key (insertAll [] ps)).map .ok := by
  cases hs : fromUtf8 key with
  | some s =>
    obtain rfl := utf8_of_fromUtf8 hs
    obtain ⟨hsome, hnone⟩ := getKey_insertAll_of_forall₂ h s []
    rw [lookupKey, hs, Option.bind_some]
    cases hlast : (valuesOf (utf8 s) es).getLast? with
    | none => rw [hnone hlast]; rfl
    | some t =>
      obtain ⟨v, hv, hget⟩ := hsome t hlast
      rw [hget, Option.map_some, Option.map_some, hv]
  | none =>
    -- no key of a decoded object is ill-formed UTF-8
    have hnil : valuesOf key es = [] := by
      induction h with
      | nil => rfl
      | @cons e p es ps hep _ ih =>
        obtain ⟨k, t⟩ := e
        rw [valuesOf, if_neg, ih]
        rintro rfl
        exact absurd (hep.1.symm.trans hs) (by simp)
    rw [hnil, lookupKey, hs]
    rfl

/-- **When the search agrees with the map**: exactly if the key's first value on the wire, where the search
stops, is its last one, which the map keeps. -/
theorem extractTlvField_agrees_iff (h : decodeJsonValue data = .ok (.object m, n)) :
    FieldAgrees data key m ↔
      ∀ es, (Tlv.object es).Within (tlvMaxDepth + 1) → At data 0 (Tlv.object es).bytes → RepeatsAgree key es := by
  have hobject : ∀ es, (Tlv.object es).Within (tlvMaxDepth + 1) → At data 0 (Tlv.object es).bytes →
      (FieldAgrees data key m ↔ RepeatsAgree key es) := fun es hw hat => by
    obtain ⟨ps, hps, hm⟩ := Tlv.value_object_eq_ok.mp (value_of_decode h hw hat)
    obtain rfl := Value.object.inj hm
    have hlast := lookupKey_insertAll (Tlv.entriesValue_eq_ok.mp hps) key
    have hdecode : ∀ t ∈ valuesOf key es, ∀ v, t.value = .ok v →
        decodeJsonValue t.bytes = .ok (v, t.bytes.length) := fun t ht v hv => by
      obtain ⟨e, he, rfl⟩ := mem_of_mem_valuesOf ht
      have hself := at_zero e.2.bytes []
      rw [List.append_nil] at hself
      cases hw with
      | object count hkey item =>
        rw [decodeJsonValue, decode_of_at ((item e he).mono (Nat.le_succ _)) hself, hv, ofWire_ok, Outcome.ok_bind]
    rw [FieldAgrees, RepeatsAgree, extract_field_of_at hw hat, hlast]
    cases hfirst : (valuesOf key es).head? with
    | none =>
      rw [List.head?_eq_none_iff] at hfirst
      rw [hfirst] at hlast
      cases hget : lookupKey key (insertAll [] ps) with
      | none => simp
      | some v => rw [hget] at hlast; exact absurd hlast (by simp)
    | some t =>
      have ht : t ∈ valuesOf key es := List.mem_of_head? hfirst
      cases hget : lookupKey key (insertAll [] ps) with
      | none =>
        rw [hget, Option.map_none, Option.map_eq_none_iff, List.getLast?_eq_none_iff] at hlast
        rw [hlast] at ht
        exact absurd ht (by simp)
      | some v =>
        simp only [Option.map_some, Option.some.injEq]
        constructor
        · rintro ⟨u, hu, hv⟩
          obtain rfl := Option.some.inj (Outcome.ok.inj hu)
          obtain ⟨w, hw'⟩ : ∃ w, t.value = .ok w := by
            obtain ⟨e, he, rfl⟩ := mem_of_mem_valuesOf ht
            obtain ⟨i, hi, rfl⟩ := List.mem_iff_getElem.mp he
            have hall := Tlv.entriesValue_eq_ok.mp hps
            exact ⟨_, (hall.get hi (hall.length_eq ▸ hi)).2⟩
          obtain ⟨rfl, -⟩ := Outcome.ok_pair_inj ((hdecode t ht w hw').symm.trans hv)
          exact hw'
        · intro hv
          exact ⟨t.bytes, rfl, hdecode t ht v hv⟩
  obtain ⟨t, hw, hat, -, hv⟩ := decode_sound h
  obtain ⟨es, rfl⟩ := exists_entries_of_value hv
  exact ⟨fun hagree es' hw' hat' => (hobject es' hw' hat').mp hagree,
    fun hrepeats => (hobject es hw hat).mpr (hrepeats es hw hat)⟩

end Agreement

/-! ### A repeated key -/

/-- `{"size": 1, "size": 2}` on the wire. -/
def repeatedSize : Bytes :=
  [0x06, 0, 0, 0, 2, 0, 4, 0x73, 0x69, 0x7a, 0x65, 0x02, 0, 0, 0, 0, 0, 0, 0, 1,
    0, 4, 0x73, 0x69, 0x7a, 0x65, 0x02, 0, 0, 0, 0, 0, 0, 0, 2]

theorem repeatedSize_decode :
    decodeJsonValue repeatedSize = .ok (.object [("size", .number (.posInt 2))], 35) := by
  decide

/-- Of two entries the first is found, while the object holds the last. -/
theorem repeatedSize_disagrees :
    ¬ ∀ (data key : Bytes) (m : List (String × Value)) (n : ℕ), decodeJsonValue data = .ok (.object m, n) →
      FieldAgrees data key m := by
  intro h
  have hextract : extractTlvField repeatedSize (utf8 "size") = .ok (some [0x02, 0, 0, 0, 0, 0, 0, 0, 1]) := by
    decide +kernel
  have hlookup : lookupKey (utf8 "size") [("size", .number (.posInt 2))] = some (.number (.posInt 2)) := by
    decide +kernel
  have hagree := h repeatedSize (utf8 "size") _ _ repeatedSize_decode
  rw [FieldAgrees, hlookup] at hagree
  obtain ⟨t, ht, hdecode⟩ := hagree
  obtain rfl := Option.some.inj (Outcome.ok.inj (hextract.symm.trans ht))
  exact absurd hdecode (by decide +kernel)

/-- The repeated size, again. -/
theorem extractTlvField_agrees_iff_repeatedSize :
    FieldAgrees repeatedSize (utf8 "size") [("size", .number (.posInt 2))] ↔
      ∀ es, (Tlv.object es).Within (tlvMaxDepth + 1) → At repeatedSize 0 (Tlv.object es).bytes →
        RepeatsAgree (utf8 "size") es :=
  extractTlvField_agrees_iff (n := 35) (by decide +kernel)

end VelocityMcp.NdaNative
