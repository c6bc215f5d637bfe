import Mathlib.Data.List.Induction
import VelocityMcp.NdaNative.RoundTrip

/-!
# NdaNative.Extract — picking `name` and `arguments` out of an encoded `tools/call` object

`extractToolsCallFields_agrees_iff`: when that is what indexing the decoded object gives.
-/

namespace VelocityMcp.NdaNative

open Lib

/-! ## The walk -/

/-- The errors of `extract_tools_call_fields`. -/
inductive ExtractError where
  | objectCount
  | keyLength
  | key
  | skip (e : SkipError)
deriving DecidableEq, Repr

def ExtractError.text : ExtractError → String
  | objectCount => "tools/call data: truncated object count"
  | keyLength => "tools/call data: truncated key length"
  | key => "tools/call data: truncated key"
  | skip e => e.text

/-- The loop state: the offset, and the two fields found so far. -/
structure Fields where
  off : ℕ
  name : Option String
  arguments : Option Bytes
deriving DecidableEq, Repr

/-- The `match` on a key. -/
def takeField (key value : Bytes) (s : Fields) : Fields :=
  if key = utf8 "name" then
    if 5 ≤ value.length ∧ value.head? = some 0x01 then { s with name := fromUtf8 (value.drop 5) } else s
  else if key = utf8 "arguments" then { s with arguments := some value }
  else s

def extractEntry (data : Bytes) (s : Fields) : Outcome ExtractError Fields :=
  if data.length < s.off + 2 then .err .keyLength
  else do
    let klen ← beAt data s.off 2
    if data.length < s.off + 2 + klen then .err .key
    else do
      let key ← slice data (s.off + 2) (s.off + 2 + klen)
      let rest ← sliceFrom data (s.off + 2 + klen)
      let vlen ← (skipTlvValue rest).mapErr .skip
      let value ← slice data (s.off + 2 + klen) (s.off + 2 + klen + vlen)
      .ok (takeField key value { s with off := s.off + 2 + klen + vlen })

/-- The walk over the entries, without decoding them. -/
def extractToolsCallFields (data : Bytes) : Outcome ExtractError (Option String × Option Bytes) :=
  if data = [] then .ok (none, none)
  else do
    let tag ← byteAt data 0
    if tag ≠ 0x06 then .ok (none, none)
    else if data.length < 5 then .err .objectCount
    else do
      let count ← beAt data 1 4
      let s ← forCount (extractEntry data) count ⟨5, none, none⟩
      .ok (s.name, s.arguments)

/-! ## On the encoding of an object -/

def fieldsOf : List (Bytes × Tlv) → Fields → Fields
  | [], s => s
  | (k, t) :: es, s =>
    fieldsOf es (takeField k t.bytes { s with off := s.off + 2 + k.length + t.bytes.length })

theorem extractEntries_of_at {b : Bytes} {es : List (Bytes × Tlv)} (hkey : ∀ e ∈ es, e.1.length < 256 ^ 2)
    (hes : ∀ e ∈ es, e.2.Within (tlvMaxDepth + 1)) {s : Fields} (h : At b s.off (Tlv.entriesBytes es)) :
    forCount (extractEntry b) es.length s = .ok (fieldsOf es s) := by
  induction es generalizing s with
  | nil => rfl
  | cons e es ih =>
    obtain ⟨k, t⟩ := e
    obtain ⟨hlen, hrest⟩ := at_append_iff.mp h
    obtain ⟨hk, hrest⟩ := at_append_iff.mp hrest
    obtain ⟨ht, hes'⟩ := at_append_iff.mp hrest
    rw [length_beBytes] at hk ht hes'
    have hle := ht.length_le
    have hstep : extractEntry b s =
        .ok (takeField k t.bytes { s with off := s.off + 2 + k.length + t.bytes.length }) := by
      rw [extractEntry, if_neg (by omega), hlen.beAt (hkey _ List.mem_cons_self), Outcome.ok_bind,
        if_neg (by omega), hk.slice rfl, Outcome.ok_bind, sliceFrom_of_le (by omega), Outcome.ok_bind,
        skipTlvValue, skip_of_at (hes _ List.mem_cons_self) (at_drop ht), Outcome.mapErr_ok,
        Outcome.ok_bind, ht.slice rfl, Outcome.ok_bind]
    have hoff : ∀ s' : Fields, (takeField k t.bytes s').off = s'.off := fun s' => by
      unfold takeField
      split_ifs <;> rfl
    rw [List.length_cons, forCount_succ, hstep, Outcome.ok_bind]
    exact ih (fun e he => hkey e (List.mem_cons_of_mem _ he)) (fun e he => hes e (List.mem_cons_of_mem _ he))
      (by rw [hoff]; exact hes')

/-- **The walk on an encoded object** never fails, and folds over the entries. -/
theorem extract_of_at {b : Bytes} {es : List (Bytes × Tlv)} (hw : (Tlv.object es).Within (tlvMaxDepth + 1))
    (h : At b 0 (Tlv.object es).bytes) :
    extractToolsCallFields b =
      .ok ((fieldsOf es ⟨5, none, none⟩).name, (fieldsOf es ⟨5, none, none⟩).arguments) := by
  obtain ⟨htag, h⟩ := at_cons_iff.mp h
  obtain ⟨hlen, hes⟩ := at_append_iff.mp h
  rw [length_beBytes] at hes
  have hle := hes.length_le
  have hb : b ≠ [] := by
    rintro rfl
    exact absurd htag.length_le (by simp)
  cases hw with
  | object count key item =>
    have hlim : es.length < 256 ^ 4 := lt_of_le_of_lt count (by decide)
    rw [extractToolsCallFields, if_neg hb, htag.byteAt, Outcome.ok_bind, if_neg (by simp),
      if_neg (by omega), hlen.beAt hlim, Outcome.ok_bind,
      extractEntries_of_at key (fun e he => (item e he).mono (by omega)) hes, Outcome.ok_bind]

theorem exists_tag_of_ne_object {b : Bytes} {t : Tlv} (ht : ∀ es, t ≠ .object es) (h : At b 0 t.bytes) :
    b ≠ [] ∧ ∃ x, x ≠ 0x06 ∧ At b 0 [x] := by
  refine ⟨?_, ?_⟩
  · rintro rfl
    have hle := h.length_le
    have hpos := List.length_pos_iff.mpr t.bytes_ne_nil
    rw [List.length_nil] at hle
    omega
  · cases t with
    | object es => exact absurd rfl (ht es)
    | string u => exact ⟨0x01, by decide, (at_cons_iff.mp h).1⟩
    | int i => exact ⟨0x02, by decide, (at_cons_iff.mp h).1⟩
    | bool x => exact ⟨0x03, by decide, (at_cons_iff.mp h).1⟩
    | null => exact ⟨0x04, by decide, h⟩
    | array ts => exact ⟨0x05, by decide, (at_cons_iff.mp h).1⟩
    | float bits => exact ⟨0x07, by decide, (at_cons_iff.mp h).1⟩

theorem extract_of_ne_object {b : Bytes} {t : Tlv} (ht : ∀ es, t ≠ .object es) (h : At b 0 t.bytes) :
    extractToolsCallFields b = .ok (none, none) := by
  obtain ⟨hb, x, hx, hat⟩ := exists_tag_of_ne_object ht h
  rw [extractToolsCallFields, if_neg hb, hat.byteAt, Outcome.ok_bind, if_pos hx]

/-! ## Against the decoded object -/

def valuesOf (key : Bytes) : List (Bytes × Tlv) → List Tlv
  | [] => []
  | (k, t) :: es => if k = key then t :: valuesOf key es else valuesOf key es

def IsString : Tlv → Prop
  | .string _ => True
  | _ => False

instance : DecidablePred IsString
  | .string _ => isTrue trivial
  | .int _ => isFalse id
  | .bool _ => isFalse id
  | .null => isFalse id
  | .array _ => isFalse id
  | .object _ => isFalse id
  | .float _ => isFalse id

/-- The name after one more value of the key `name`. -/
def takeName (name : Option String) (t : Tlv) : Option String :=
  if IsString t then fromUtf8 (t.bytes.drop 5) else name

theorem isString_iff (t : Tlv) : (5 ≤ t.bytes.length ∧ t.bytes.head? = some 0x01) ↔ IsString t := by
  cases t with
  | string u => simp [IsString, Tlv.bytes]
  | int i => simp [IsString, Tlv.bytes]
  | bool b => simp [IsString, Tlv.bytes]
  | null => simp [IsString, Tlv.bytes]
  | array ts => simp [IsString, Tlv.bytes]
  | object es => simp [IsString, Tlv.bytes]
  | float bits => simp [IsString, Tlv.bytes]

theorem fieldsOf_name (es : List (Bytes × Tlv)) (s : Fields) :
    (fieldsOf es s).name = (valuesOf (utf8 "name") es).foldl takeName s.name := by
  induction es generalizing s with
  | nil => rfl
  | cons e es ih =>
    obtain ⟨k, t⟩ := e
    rw [fieldsOf, ih, valuesOf, takeField]
    simp only [isString_iff]
    by_cases hk : k = utf8 "name"
    · rw [if_pos hk, if_pos hk, List.foldl_cons, takeName]
      split_ifs <;> rfl
    · rw [if_neg hk, if_neg hk]
      split_ifs <;> rfl

theorem fieldsOf_arguments (es : List (Bytes × Tlv)) (s : Fields) :
    (fieldsOf es s).arguments =
      ((valuesOf (utf8 "arguments") es).getLast?.map Tlv.bytes).or s.arguments := by
  have hne : utf8 "arguments" ≠ utf8 "name" := by simp
  induction es generalizing s with
  | nil => rfl
  | cons e es ih =>
    obtain ⟨k, t⟩ := e
    rw [fieldsOf, ih, valuesOf, takeField]
    by_cases hk : k = utf8 "arguments"
    · subst hk
      rw [if_neg hne, if_pos rfl, if_pos rfl, List.getLast?_cons]
      cases (valuesOf (utf8 "arguments") es).getLast? <;> rfl
    · rw [if_neg hk, if_neg hk]
      split_ifs <;> rfl

theorem getKey_insertAll_of_forall₂ {es : List (Bytes × Tlv)} {ps : List (String × Value)}
    (h : List.Forall₂ (fun e p => fromUtf8 e.1 = some p.1 ∧ e.2.value = .ok p.2) es ps) (key : String)
    (m : List (String × Value)) :
    (∀ t, (valuesOf (utf8 key) es).getLast? = some t →
        ∃ v, t.value = .ok v ∧ getKey key (insertAll m ps) = some v) ∧
      ((valuesOf (utf8 key) es).getLast? = none → getKey key (insertAll m ps) = getKey key m) := by
  induction h generalizing m with
  | nil => exact ⟨fun t ht => absurd ht (by simp [valuesOf]), fun _ => rfl⟩
  | @cons e p es ps hep _ ih =>
    obtain ⟨k, t⟩ := e
    obtain ⟨k', v⟩ := p
    obtain ⟨hk, hv⟩ := hep
    simp only at hk hv
    have hkey : k = utf8 key ↔ k' = key := by rw [← utf8_of_fromUtf8 hk, utf8_inj]
    obtain ⟨ih₁, ih₂⟩ := ih (insertKey k' v m)
    have hget := getKey_insertKey k' key v m
    rw [insertAll_cons, valuesOf]
    by_cases hk' : k' = key
    · rw [if_pos (hkey.mpr hk'), List.getLast?_cons]
      refine ⟨fun u hu => ?_, fun hu => absurd hu (by simp)⟩
      cases hlast : (valuesOf (utf8 key) es).getLast? with
      | some u' =>
        rw [hlast, Option.getD_some, Option.some.injEq] at hu
        subst hu
        exact ih₁ u' hlast
      | none =>
        rw [hlast, Option.getD_none, Option.some.injEq] at hu
        subst hu
        exact ⟨v, hv, by rw [ih₂ hlast, hget, if_pos hk']⟩
    · rw [if_neg fun hkk => hk' (hkey.mp hkk)]
      exact ⟨ih₁, fun hnone => by rw [ih₂ hnone, hget, if_neg hk']⟩

/-- The last value of `name` is a string, or none of them is. -/
def NameSettled (es : List (Bytes × Tlv)) : Prop :=
  (∀ t ∈ (valuesOf (utf8 "name") es).getLast?, IsString t) ∨ ∀ t ∈ valuesOf (utf8 "name") es, ¬ IsString t

theorem foldl_takeName_of_forall_not {ts : List Tlv} (h : ∀ t ∈ ts, ¬ IsString t) (name : Option String) :
    ts.foldl takeName name = name := by
  induction ts generalizing name with
  | nil => rfl
  | cons t ts ih =>
    rw [List.foldl_cons, takeName, if_neg (h t List.mem_cons_self)]
    exact ih (fun u hu => h u (List.mem_cons_of_mem _ hu)) name

theorem foldl_takeName_isSome {ts : List Tlv} (hvalue : ∀ t ∈ ts, ∃ v, t.value = .ok v) {t : Tlv} (ht : t ∈ ts)
    (hs : IsString t) (name : Option String) : (ts.foldl takeName name).isSome := by
  induction ts using List.reverseRecOn with
  | nil => simp at ht
  | append_singleton ts u ih =>
    rw [List.foldl_concat, takeName]
    split_ifs with hu
    · cases u with
      | string w =>
        obtain ⟨v, hv⟩ := hvalue (.string w) (by simp)
        obtain ⟨s, hs, -⟩ := Tlv.value_string_eq_ok.mp hv
        simp [Tlv.bytes, hs]
      | _ => exact absurd hu (by simp [IsString])
    · refine ih (fun t ht => hvalue t (List.mem_append_left _ ht)) ?_
      rcases List.mem_append.mp ht with ht | ht
      · exact ht
      · rw [List.mem_singleton] at ht
        exact absurd (ht ▸ hs) hu

theorem asStr_of_value {t : Tlv} {v : Value} (h : t.value = .ok v) : v.asStr = takeName none t := by
  cases t with
  | string u =>
    obtain ⟨s, hs, rfl⟩ := Tlv.value_string_eq_ok.mp h
    simp [takeName, IsString, Tlv.bytes, hs, Value.asStr]
  | int i => obtain rfl := Except.ok.inj h; rfl
  | bool b => obtain rfl := Except.ok.inj h; rfl
  | null => obtain rfl := Except.ok.inj h; rfl
  | array ts => obtain ⟨vs, -, rfl⟩ := Tlv.value_array_eq_ok.mp h; rfl
  | object es => obtain ⟨ps, -, rfl⟩ := Tlv.value_object_eq_ok.mp h; rfl
  | float bits =>
    obtain rfl := Except.ok.inj h
    rw [Value.ofF64]
    split_ifs <;> rfl

theorem get_of_ne_object {t : Tlv} (ht : ∀ es, t ≠ .object es) {v : Value} (h : t.value = .ok v)
    (key : String) : v.get key = none := by
  cases t with
  | object es => exact absurd rfl (ht es)
  | string u => obtain ⟨s, -, rfl⟩ := Tlv.value_string_eq_ok.mp h; rfl
  | array ts => obtain ⟨vs, -, rfl⟩ := Tlv.value_array_eq_ok.mp h; rfl
  | int i => obtain rfl := Except.ok.inj h; rfl
  | bool b => obtain rfl := Except.ok.inj h; rfl
  | null => obtain rfl := Except.ok.inj h; rfl
  | float bits =>
    obtain rfl := Except.ok.inj h
    rw [Value.ofF64]
    split_ifs <;> rfl

theorem mem_of_mem_valuesOf {key : Bytes} {es : List (Bytes × Tlv)} {t : Tlv} (h : t ∈ valuesOf key es) :
    ∃ e ∈ es, e.2 = t := by
  induction es with
  | nil => simp [valuesOf] at h
  | cons e es ih =>
    obtain ⟨k, u⟩ := e
    rw [valuesOf] at h
    split_ifs at h with hk
    · rcases List.mem_cons.mp h with rfl | h
      · exact ⟨(k, t), List.mem_cons_self, rfl⟩
      · obtain ⟨e, he, ht⟩ := ih h
        exact ⟨e, List.mem_cons_of_mem _ he, ht⟩
    · obtain ⟨e, he, ht⟩ := ih h
      exact ⟨e, List.mem_cons_of_mem _ he, ht⟩

/-- The walk's name is the string the last value of `name` is, exactly if the names are settled. -/
theorem foldl_takeName_eq_iff {es : List (Bytes × Tlv)} (hvalue : ∀ e ∈ es, ∃ v, e.2.value = .ok v) :
    (valuesOf (utf8 "name") es).foldl takeName none =
        (valuesOf (utf8 "name") es).getLast?.bind (takeName none) ↔ NameSettled es := by
  have hts : ∀ t ∈ valuesOf (utf8 "name") es, ∃ v, t.value = .ok v := fun t ht => by
    obtain ⟨e, he, rfl⟩ := mem_of_mem_valuesOf ht
    exact hvalue e he
  unfold NameSettled
  generalize valuesOf (utf8 "name") es = ts at hts ⊢
  induction ts using List.reverseRecOn with
  | nil => simp
  | append_singleton ts t _ =>
    rw [List.foldl_concat, List.getLast?_concat, Option.bind_some]
    have hlast : (∀ u ∈ some t, IsString u) ↔ IsString t := by simp
    rw [hlast]
    by_cases ht : IsString t
    · simp [takeName, ht]
    · have hnone : takeName none t = none := if_neg ht
      have hfold : takeName (ts.foldl takeName none) t = ts.foldl takeName none := if_neg ht
      rw [hnone, hfold]
      constructor
      · intro hn
        refine Or.inr fun u hu hs => ?_
        rcases List.mem_append.mp hu with hu | hu
        · have hsome := foldl_takeName_isSome (fun t ht => hts t (List.mem_append_left _ ht)) hu hs none
          rw [hn] at hsome
          exact absurd hsome (by simp)
        · rw [List.mem_singleton] at hu
          exact ht (hu ▸ hs)
      · rintro (h | h)
        · exact absurd h ht
        · exact foldl_takeName_of_forall_not (fun u hu => h u (List.mem_append_left _ hu)) none

section Agreement

variable {data : Bytes} {v : Value} {n : ℕ}

/-- The two fields are what indexing the decoded value gives. -/
def FieldsAgree (data : Bytes) (v : Value) : Prop :=
  ∃ name arguments, extractToolsCallFields data = .ok (name, arguments) ∧ name = (v.index "name").asStr ∧
    (∀ a ∈ arguments, ∃ w, v.get "arguments" = some w ∧ decodeJsonValue a = .ok (w, a.length)) ∧
    (arguments = none ↔ v.get "arguments" = none)

/-- **When the extraction agrees with the decoder**: unless `name` is repeated and its last value is no
string while an earlier one is. -/
theorem extractToolsCallFields_agrees_iff (h : decodeJsonValue data = .ok (v, n)) :
    FieldsAgree data v ↔
      ∀ es, (Tlv.object es).Within (tlvMaxDepth + 1) → At data 0 (Tlv.object es).bytes → NameSettled es := by
  have hobject : ∀ es, (Tlv.object es).Within (tlvMaxDepth + 1) → At data 0 (Tlv.object es).bytes →
      (FieldsAgree data v ↔ NameSettled es) := fun es hw hat => by
    obtain ⟨ps, hes, rfl⟩ := Tlv.value_object_eq_ok.mp (value_of_decode h hw hat)
    have hall := Tlv.entriesValue_eq_ok.mp hes
    have hvalue : ∀ e ∈ es, ∃ v, e.2.value = .ok v := fun e he => by
      obtain ⟨i, hi, rfl⟩ := List.mem_iff_getElem.mp he
      exact ⟨_, (hall.get hi (hall.length_eq ▸ hi)).2⟩
    -- both take the last entry of a key; they differ on an earlier name that is a text
    obtain ⟨hname₁, hname₂⟩ := getKey_insertAll_of_forall₂ hall "name" []
    obtain ⟨hargs₁, hargs₂⟩ := getKey_insertAll_of_forall₂ hall "arguments" []
    have hname : ((Value.object (insertAll [] ps)).index "name").asStr =
        (valuesOf (utf8 "name") es).getLast?.bind (takeName none) := by
      rw [Value.index, Value.get]
      cases hlast : (valuesOf (utf8 "name") es).getLast? with
      | none => rw [hname₂ hlast]; rfl
      | some t =>
        obtain ⟨w, hw, hget⟩ := hname₁ t hlast
        rw [hget]
        exact asStr_of_value hw
    have hargs : ((valuesOf (utf8 "arguments") es).getLast?.map Tlv.bytes).or none =
        (valuesOf (utf8 "arguments") es).getLast?.map Tlv.bytes := Option.or_none
    rw [FieldsAgree, extract_of_at hw hat, fieldsOf_name, fieldsOf_arguments, hname, hargs,
      ← foldl_takeName_eq_iff hvalue]
    constructor
    · rintro ⟨name, arguments, hok, rfl, -⟩
      exact (Outcome.ok_pair_inj hok).1
    · intro heq
      refine ⟨_, _, rfl, heq, ?_, ?_⟩
      · intro a ha
        obtain ⟨t, ht, rfl⟩ := Option.mem_map.mp ha
        obtain ⟨w, hw', hget⟩ := hargs₁ t ht
        obtain ⟨e, he, rfl⟩ := mem_of_mem_valuesOf (List.mem_of_getLast? ht)
        refine ⟨w, hget, ?_⟩
        cases hw with
        | object count key item =>
          have hat' : At e.2.bytes 0 e.2.bytes := by
            have := at_zero e.2.bytes []
            rwa [List.append_nil] at this
          rw [decodeJsonValue, decode_of_at ((item e he).mono (Nat.le_succ _)) hat', hw', ofWire_ok,
            Outcome.ok_bind]
      · rw [Option.map_eq_none_iff]
        refine ⟨fun hlast => hargs₂ hlast, fun hget => ?_⟩
        cases hlast : (valuesOf (utf8 "arguments") es).getLast? with
        | none => rfl
        | some t =>
          obtain ⟨w, -, hsome⟩ := hargs₁ t hlast
          exact absurd (hsome.symm.trans hget) (by simp)
  obtain ⟨t, hw, hat, -, hv⟩ := decode_sound h
  by_cases ht : ∃ es, t = .object es
  · obtain ⟨es, rfl⟩ := ht
    refine ⟨fun hagree es' hw' hat' => (hobject es' hw' hat').mp hagree, fun hsettled => ?_⟩
    exact (hobject es hw hat).mpr (hsettled es hw hat)
  · have hne : ∀ es, t ≠ .object es := fun es he => ht ⟨es, he⟩
    refine ⟨fun hagree es' hw' hat' => (hobject es' hw' hat').mp hagree, fun _ => ?_⟩
    have hget := get_of_ne_object hne hv
    exact ⟨none, none, extract_of_ne_object hne hat, by rw [Value.index, hget]; rfl, by simp, by simp [hget]⟩

end Agreement

/-! ### A repeated name -/

/-- `{"name": "a", "name": null}` on the wire. -/
def repeatedName : Bytes :=
  [0x06, 0, 0, 0, 2, 0, 4, 0x6e, 0x61, 0x6d, 0x65, 0x01, 0, 0, 0, 1, 0x61, 0, 4, 0x6e, 0x61, 0x6d, 0x65, 0x04]

/-- The name that is null in the end is still found as the string that it was before. -/
theorem repeatedName_disagrees :
    decodeJsonValue repeatedName = .ok (.object [("name", .null)], 24) ∧
      ¬ FieldsAgree repeatedName (.object [("name", .null)]) := by
  refine ⟨by decide +kernel, ?_⟩
  rintro ⟨name, arguments, hok, hname, -⟩
  have hextract : extractToolsCallFields repeatedName = .ok (some "a", none) := by decide +kernel
  obtain ⟨rfl, -⟩ := Outcome.ok_pair_inj (hok.symm.trans hextract)
  exact absurd hname (by decide)

/-- The repeated name, again. -/
theorem extractToolsCallFields_agrees_iff_repeatedName :
    FieldsAgree repeatedName (.object [("name", .null)]) ↔
      ∀ es, (Tlv.object es).Within (tlvMaxDepth + 1) → At repeatedName 0 (Tlv.object es).bytes →
        NameSettled es :=
  extractToolsCallFields_agrees_iff (n := 24) (by decide +kernel)

end VelocityMcp.NdaNative
