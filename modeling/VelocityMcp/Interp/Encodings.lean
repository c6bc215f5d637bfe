import VelocityMcp.Guest.MicroPython
import VelocityMcp.Interp.Decoding

/-!
# Interp.Encodings — the same arguments, as JSON and as TLV

`ofValue_misread_iff`: the two values that are made of one are the same if no control character is written as a code
point.
-/

namespace VelocityMcp.Interp

open Lib Chained
open Guest (Strtod Plain FloatsPrint)

/-- An object, its text fits `args_buf`, and its encoding `tlv` keeps the limits; and the C library reads back what
`serde_json` prints of its numbers. -/
structure Carried (f64Text : F64Text) (strtod : Strtod) (v : Value) (tlv : Bytes) : Prop where
  object : ∃ fields, v = .object fields
  wf : v.WF
  floats : v.All (FloatsPrint f64Text)
  numbers : v.All (NumbersRead f64Text strtod)
  length : (jsonText f64Text v).length ≤ argsBufSize - 1
  depth : v.depth ≤ tlvMaxDepth
  limits : v.All fun w => w.StringLe tlvMaxStringLen ∧ w.EntriesLe tlvMaxElements
  encoded : (NdaNative.encodeJsonValue v).toOutcome = .ok tlv

/-- **The calls agree**: the same is evaluated in the same scope, with the same status and the same output. -/
def Agree (numberText : NumberText) (f64Text : F64Text) (strtod : Strtod) (v : Value) (tlv : Bytes) : Prop :=
  ∀ (σ : Type) (eval : Evaluator σ) (g : Interpreter σ), ∃ a b,
    g.callTool numberText eval strtod (jsonText f64Text v) = .done a ∧ g.callToolBinary numberText eval tlv = .done b ∧
      a.ran = b.ran ∧ a.status = b.status ∧ a.interpreter.output = b.interpreter.output

/-- No control character but those with a letter for an escape. -/
def PlainTexts : Value → Prop
  | .string s => Plain (utf8 s)
  | .object fields => ∀ p ∈ fields, Plain (utf8 p.1)
  | _ => True

/-- No key of the object has a NUL byte, at which a C string ends. -/
def KeysNoNul : Value → Prop
  | .object fields => ∀ p ∈ fields, 0 ∉ utf8 p.1
  | _ => True

/-! ## The two readings -/

section Readings

theorem misread_of_plain {b : Bytes} (h : Plain b) : misread b = b := by
  induction b with
  | nil => rfl
  | cons x b ih =>
    obtain ⟨hx, hb⟩ := List.forall_mem_cons.mp h
    have hbyte : misreadByte x = [x] := if_neg fun hnot => by
      have hlow : ¬ 0x20 ≤ x := UInt8.not_le.mpr hnot.1
      tauto
    rw [misread, List.flatMap_cons, hbyte]
    exact congrArg (x :: ·) (ih hb)

theorem plain_misreadByte (x : UInt8) : Plain (misreadByte x) := by
  unfold misreadByte
  split_ifs with h
  · have hall : ∀ n < 16, (0x20 : UInt8) ≤ hexDigit (UInt8.ofNat n) := by decide
    have hdigit : ∀ y : UInt8, y.toNat < 16 → 0x20 ≤ hexDigit y := fun y hy => by
      have hy' := hall y.toNat hy
      rwa [UInt8.ofNat_toNat] at hy'
    have hx := x.toNat_lt
    have hhigh : (x / 16).toNat < 16 := by
      show x.toNat / 16 < 16
      omega
    have hlow : (x % 16).toNat < 16 := Nat.mod_lt _ (by decide)
    simp only [Plain, List.forall_mem_cons]
    exact ⟨Or.inl (by decide), Or.inl (by decide), Or.inl (by decide), Or.inl (hdigit _ hhigh), Or.inl (hdigit _ hlow),
      fun _ h => by cases h⟩
  · refine List.forall_mem_singleton.mpr ?_
    by_contra hnot
    push Not at hnot
    exact h ⟨UInt8.not_le.mp hnot.1, hnot.2.1, hnot.2.2.1, hnot.2.2.2.1, hnot.2.2.2.2.1, hnot.2.2.2.2.2⟩

theorem plain_misread (b : Bytes) : Plain (misread b) := by
  intro x hx
  obtain ⟨y, -, hxy⟩ := List.mem_flatMap.mp hx
  exact plain_misreadByte y x hxy

theorem misread_eq_self {b : Bytes} : misread b = b ↔ Plain b :=
  ⟨fun h => h ▸ plain_misread b, misread_of_plain⟩

theorem notMem_of_plain {b : Bytes} (h : Plain b) : 0 ∉ b := fun hmem => by
  rcases h 0 hmem with h | h | h | h | h | h
  all_goals exact absurd h (by decide)

theorem cString_misread (b : Bytes) : cString (misread b) = misread b :=
  cString_eq_self.mpr (notMem_of_plain (plain_misread b))

variable {read : Bytes → Bytes}

theorem ofValues_eq_map (vs : List Value) : Val.ofValues read vs = vs.map (Val.ofValue read) := by
  induction vs with
  | nil => rfl
  | cons v vs ih => rw [Val.ofValues, ih, List.map_cons]

theorem ofFields_eq_map (fs : List (String × Value)) :
    Val.ofFields read fs = fs.map fun p => (read (utf8 p.1), Val.ofValue read p.2) := by
  induction fs with
  | nil => rfl
  | cons p fs ih =>
    obtain ⟨k, v⟩ := p
    rw [Val.ofFields, ih, List.map_cons]

theorem keys_ofFields (fs : List (String × Value)) : keys (Val.ofFields read fs) = fs.map fun p => read (utf8 p.1) := by
  rw [ofFields_eq_map, keys, List.map_map]
  rfl

theorem lookup_ofFields {fields : List (String × Value)} {p : String × Value} (hsorted : SortedKeys fields)
    (hkeys : ∀ q ∈ fields, read (utf8 q.1) = utf8 q.1 ∧ 0 ∉ utf8 q.1) (hp : p ∈ fields) :
    lookup (utf8 p.1) (mapSetAll (Val.ofFields read fields) []) = some (.ofValue read p.2) := by
  have hclean : ∀ e ∈ Val.ofFields read fields, 0 ∉ e.1 := by
    rw [ofFields_eq_map]
    intro e he
    obtain ⟨q, hq, rfl⟩ := List.mem_map.mp he
    rw [(hkeys q hq).1]
    exact (hkeys q hq).2
  have hnodup : (keys (Val.ofFields read fields)).Nodup := by
    rw [keys_ofFields, List.map_congr_left fun q hq => (hkeys q hq).1]
    exact Guest.nodup_keys hsorted
  rw [lookup_mapSetAll hclean, lookup_reverse hnodup, lookup_nil, Option.or_none]
  refine lookup_of_mem hnodup ?_
  rw [ofFields_eq_map]
  exact List.mem_map.mpr ⟨p, hp, by rw [(hkeys p hp).1]⟩

theorem lookup_id {fields : List (String × Value)} {p : String × Value} (hsorted : SortedKeys fields)
    (hnul : ∀ q ∈ fields, 0 ∉ utf8 q.1) (hp : p ∈ fields) :
    lookup (utf8 p.1) (mapSetAll (Val.ofFields id fields) []) = some (.ofValue id p.2) :=
  lookup_ofFields hsorted (fun q hq => ⟨rfl, hnul q hq⟩) hp

/-- If the misread map has the members of the other, its keys are plain and its values the same. -/
theorem plain_of_lookup {fields : List (String × Value)} (hsorted : SortedKeys fields)
    (hnul : ∀ q ∈ fields, 0 ∉ utf8 q.1)
    (h : ∀ p ∈ fields, lookup (utf8 p.1) (mapSetAll (Val.ofFields misread fields) []) = some (.ofValue id p.2)) :
    (∀ p ∈ fields, Plain (utf8 p.1)) ∧ ∀ p ∈ fields, Val.ofValue misread p.2 = .ofValue id p.2 := by
  have hplain : ∀ p ∈ fields, Plain (utf8 p.1) := by
    intro p hp
    have hmem : utf8 p.1 ∈ keys (mapSetAll (Val.ofFields misread fields) []) :=
      List.mem_map_of_mem (f := Prod.fst) (mem_of_lookup (h p hp))
    rcases mem_keys_mapSetAll.mp hmem with ⟨e, he, hkey⟩ | hnil
    · rw [ofFields_eq_map] at he
      obtain ⟨q, -, rfl⟩ := List.mem_map.mp he
      rw [← hkey, cString_misread]
      exact plain_misread _
    · cases hnil
  refine ⟨hplain, fun p hp => ?_⟩
  have hfound := @lookup_ofFields misread _ _ hsorted (fun q hq => ⟨misread_of_plain (hplain q hq), hnul q hq⟩) hp
  rw [h p hp] at hfound
  exact (Option.some.inj hfound).symm

theorem ofValue_misread_of_plain {v : Value} (h : v.All PlainTexts) : Val.ofValue misread v = .ofValue id v := by
  induction v with
  | null => rfl
  | bool b => rfl
  | number n => rfl
  | string s => exact congrArg Val.string (misread_of_plain h)
  | array items ih =>
    rw [Value.all_array] at h
    rw [Val.ofValue, Val.ofValue, ofValues_eq_map, ofValues_eq_map]
    exact congrArg Val.array (List.map_congr_left fun w hw => ih w hw (h.2 w hw))
  | object fields ih =>
    rw [Value.all_object] at h
    rw [Val.ofValue, Val.ofValue, ofFields_eq_map, ofFields_eq_map]
    have hfields : (fields.map fun p => (misread (utf8 p.1), Val.ofValue misread p.2)) =
        fields.map fun p => (id (utf8 p.1), Val.ofValue id p.2) :=
      List.map_congr_left fun p hp => by rw [misread_of_plain (h.1 p hp), ih p hp (h.2 p hp)]; rfl
    rw [hfields]

/-- **When the two readings of a value are the same.** -/
theorem ofValue_misread_iff {v : Value} (hwf : v.WF) (hkeys : v.All KeysNoNul) :
    Val.ofValue misread v = .ofValue id v ↔ v.All PlainTexts := by
  refine ⟨fun h => ?_, ofValue_misread_of_plain⟩
  induction v with
  | null => trivial
  | bool b => trivial
  | number n => trivial
  | string s => exact misread_eq_self.mp (Val.string.inj h)
  | array items ih =>
    rw [Value.WF, Value.all_array] at hwf
    rw [Value.all_array] at hkeys ⊢
    rw [Val.ofValue, Val.ofValue, ofValues_eq_map, ofValues_eq_map] at h
    have hitems := List.map_inj_left.mp (Val.array.inj h)
    exact ⟨trivial, fun w hw => ih w hw (hwf.2 w hw) (hkeys.2 w hw) (hitems w hw)⟩
  | object fields ih =>
    rw [Value.WF, Value.all_object] at hwf
    rw [Value.all_object] at hkeys ⊢
    rw [Val.ofValue, Val.ofValue] at h
    have hlookup : ∀ p ∈ fields,
        lookup (utf8 p.1) (mapSetAll (Val.ofFields misread fields) []) = some (.ofValue id p.2) := fun p hp => by
      rw [Val.map.inj h]
      exact lookup_id hwf.1 hkeys.1 hp
    obtain ⟨hplain, hvalues⟩ := plain_of_lookup hwf.1 hkeys.1 hlookup
    exact ⟨hplain, fun p hp => ih p hp (hwf.2 p hp) (hkeys.2 p hp) (hvalues p hp)⟩

end Readings

/-! ## The encoding -/

section Encoding

theorem doubleOfInt_of_le {n : UInt64} (h : n ≤ Number.i64Max) : doubleOfInt n.toInt64 = f64OfNat n.toNat := by
  have hn : n.toNat < 2 ^ 63 := by
    have hle := UInt64.le_iff_toNat_le.mp h
    have hmax : Number.i64Max.toNat = 2 ^ 63 - 1 := rfl
    omega
  have hint : n.toInt64.toInt = n.toNat := by
    show n.toBitVec.toInt = _
    rw [BitVec.toInt_eq_toNat_of_lt (by rw [UInt64.toNat_toBitVec]; omega), UInt64.toNat_toBitVec]
  have hpos : ¬ n.toInt64 < 0 := by
    rw [Int64.lt_iff_toInt_lt, hint, Int64.toInt_zero]
    omega
  rw [doubleOfInt, if_neg hpos, hint, Int.natAbs_natCast]

theorem ofTlv_number (n : Number) : Val.ofTlv (.ofValue (.number n)) = .number (n.asF64.getD 0) := by
  cases n with
  | posInt n =>
    by_cases hn : n ≤ Number.i64Max
    · simp [Tlv.ofValue, Number.asI64, hn, Val.ofTlv, doubleOfInt_of_le hn, Number.asF64]
    · simp [Tlv.ofValue, Number.asI64, Number.asF64, hn, Val.ofTlv]
  | negInt i neg =>
    rw [Tlv.ofValue]
    show Val.number (doubleOfInt i) = _
    rw [doubleOfInt, if_pos neg]
    rfl
  | float bits fin => rfl

/-- **The TLV decoder makes the value with its texts as they are.** -/
theorem ofTlv_ofValue (v : Value) : Val.ofTlv (.ofValue v) = .ofValue id v := by
  induction v with
  | null => rfl
  | bool b => cases b <;> rfl
  | number n => exact ofTlv_number n
  | string s => rfl
  | array items ih =>
    rw [Tlv.ofValue, Tlv.ofItems_eq_map, Val.ofTlv, ofItems_eq_map, Val.ofValue, ofValues_eq_map, List.map_map]
    exact congrArg Val.array (List.map_congr_left ih)
  | object fields ih =>
    rw [Tlv.ofValue, Tlv.ofFields_eq_map, Val.ofTlv, ofEntries_eq_map, Val.ofValue, ofFields_eq_map, List.map_map]
    have hfields : fields.map ((fun e => (e.1, Val.ofTlv e.2)) ∘ fun p => (utf8 p.1, Tlv.ofValue p.2)) =
        fields.map fun p => (id (utf8 p.1), Val.ofValue id p.2) :=
      List.map_congr_left fun p hp => by
        show (utf8 p.1, Val.ofTlv (.ofValue p.2)) = _
        rw [ih p hp]
        rfl
    rw [hfields]

theorem limits_of_within {d : ℕ} {t : Tlv} (h : t.Within d) : t.Limits d := by
  have hstrings : tlvMaxStringLen ≤ maxStringLen := by decide
  have hcounts : tlvMaxElements < 256 ^ 4 := by decide
  induction h with
  | string len => exact .string (len.trans hstrings)
  | int i => exact .int i
  | bool b => exact .bool b
  | null => exact .null
  | array count _ ih => exact .array (lt_of_le_of_lt count hcounts) ih
  | object count key _ ih => exact .object (lt_of_le_of_lt count hcounts) key ih
  | float bits => exact .float bits

theorem itemsElements_ofItems {vs : List Value} (h : ∀ v ∈ vs, (Tlv.ofValue v).elements = Guest.elementsOf v) :
    Tlv.itemsElements (Tlv.ofItems vs) = Guest.itemsElements vs := by
  induction vs with
  | nil => rfl
  | cons v vs ih =>
    rw [Tlv.ofItems, Tlv.itemsElements, Guest.itemsElements, h v List.mem_cons_self,
      ih fun w hw => h w (List.mem_cons_of_mem _ hw)]

theorem entriesElements_ofFields {fs : List (String × Value)}
    (h : ∀ p ∈ fs, (Tlv.ofValue p.2).elements = Guest.elementsOf p.2) :
    Tlv.entriesElements (Tlv.ofFields fs) = Guest.fieldsElements fs := by
  induction fs with
  | nil => rfl
  | cons p fs ih =>
    obtain ⟨k, v⟩ := p
    rw [Tlv.ofFields, Tlv.entriesElements, Guest.fieldsElements, h (k, v) List.mem_cons_self,
      ih fun q hq => h q (List.mem_cons_of_mem _ hq)]

theorem elements_ofValue (v : Value) : (Tlv.ofValue v).elements = Guest.elementsOf v := by
  induction v with
  | array items ih => exact itemsElements_ofItems ih
  | object fields ih => exact entriesElements_ofFields ih
  | number n =>
    rw [Tlv.ofValue]
    split
    · rfl
    · split
      · rfl
      · rfl
  | null => rfl
  | bool b => rfl
  | string s => rfl

variable {f64Text : F64Text} {strtod : Strtod} {v : Value} {tlv : Bytes}

theorem Carried.decodeTlv (h : Carried f64Text strtod v tlv) : ∃ p, decodeTlv tlv = .done (.ofValue id v, p) ∧
    p.fault = none := by
  obtain ⟨hkeys, rfl⟩ := NdaNative.encodeJsonValue_eq_put.mp (Emit.toOutcome_eq_ok.mp h.encoded)
  have hlimits := limits_of_within (Tlv.within_ofValue (Nat.lt_succ_iff.mpr h.depth) h.limits hkeys)
  have helements : (Tlv.ofValue v).elements ≤ maxElements := by
    have hlt := Guest.elementsOf_lt h.floats
    have hlen := h.length
    have hsizes : argsBufSize - 1 ≤ maxElements := by decide
    rw [elements_ofValue]
    omega
  have hread := decodeValue_bytes hlimits ⟨(Tlv.ofValue v).bytes, 0, 0, none⟩ [] (by rw [List.append_nil]; rfl)
    (by rw [Nat.zero_add]; exact helements)
  rw [ofTlv_ofValue] at hread
  exact ⟨_, hread, rfl⟩

theorem Carried.jsonParse (h : Carried f64Text strtod v tlv) :
    jsonParse strtod ((jsonText f64Text v).take (argsBufSize - 1)) = .done (.ofValue misread v) := by
  obtain ⟨fields, rfl⟩ := h.object
  rw [List.take_of_length_le h.length]
  exact jsonParse_jsonText h.floats h.numbers (textsFit_of_object h.length)

end Encoding

/-! ## When the calls agree -/

section Agreement

variable {numberText : NumberText} {f64Text : F64Text} {strtod : Strtod} {v : Value} {tlv : Bytes}

theorem agree_of_eq (h : Carried f64Text strtod v tlv) (heq : Val.ofValue misread v = .ofValue id v) :
    Agree numberText f64Text strtod v tlv := by
  intro σ eval g
  obtain ⟨p, hp, hfault⟩ := h.decodeTlv
  obtain ⟨fields, rfl⟩ := h.object
  by_cases hinit : g.initialized = true
  · have hsame : g.reset.withFault p = g.reset := by
      rw [Interpreter.withFault, hfault]
      rfl
    have hbinary := @callToolBinary_map _ numberText eval _ hinit _ _ _ hp
    have htext : g.callTool numberText eval strtod (jsonText f64Text (.object fields)) =
        g.reset.execRegisteredTool numberText eval (callScope (.ofValue misread (.object fields))) := by
      rw [Interpreter.callTool, if_neg (by simp [hinit]), h.jsonParse, Run.done_bind]
    rw [hsame] at hbinary
    rw [heq] at htext
    obtain ⟨e, he⟩ : ∃ e, g.reset.execRegisteredTool numberText eval (callScope (.ofValue id (.object fields))) =
        .done e := by
      by_cases hsource : g.reset.toolSource = []
      · obtain ⟨e, he, -⟩ := @execRegisteredTool_empty _ numberText eval _ hsource
          (callScope (.ofValue id (.object fields)))
        exact ⟨e, he⟩
      · obtain ⟨e, he, -⟩ := @execRegisteredTool_done _ numberText eval _ hsource
          (callScope (.ofValue id (.object fields)))
        exact ⟨e, he⟩
    exact ⟨e, e, htext.trans he, hbinary.trans he, rfl, rfl, rfl⟩
  · have hnot : g.initialized = false := by simpa using hinit
    exact ⟨_, _, if_pos hnot, if_pos hnot, rfl, rfl, rfl⟩

theorem eq_func_of_builtin {k : Bytes} {w : Val} (h : lookup k builtinScope = some w) : w = .func := by
  have hclean : ∀ e ∈ builtinNames.map fun name => (utf8 name, Val.func), 0 ∉ e.1 := by decide
  unfold builtinScope at h
  rw [lookup_mapSetAll hclean, lookup_nil, Option.or_none] at h
  obtain ⟨name, -, hname⟩ := List.mem_map.mp (List.mem_reverse.mp (mem_of_lookup h))
  exact (Prod.mk.inj hname).2.symm

theorem ofValue_ne_func (read : Bytes → Bytes) (w : Value) : Val.ofValue read w ≠ .func := by
  cases w <;> simp [Val.ofValue]

theorem ofValue_eq_of_callScope {fields : List (String × Value)} (hwf : (Value.object fields).WF)
    (hkeys : (Value.object fields).All KeysNoNul)
    (h : callScope (.ofValue misread (.object fields)) = callScope (.ofValue id (.object fields))) :
    (Value.object fields).All PlainTexts := by
  rw [Value.WF, Value.all_object] at hwf
  rw [Value.all_object] at hkeys ⊢
  have hlookup : ∀ p ∈ fields,
      lookup (utf8 p.1) (mapSetAll (Val.ofFields misread fields) []) = some (.ofValue id p.2) := fun p hp => by
    have hk := congrArg (lookup (utf8 p.1)) h
    rw [Val.ofValue, Val.ofValue, lookup_callScope, lookup_callScope, lookup_id hwf.1 hkeys.1 hp, Option.some_or] at hk
    -- a builtin is no argument
    rcases Option.or_eq_some_iff.mp hk with hfound | ⟨-, hbuiltin⟩
    · exact hfound
    · exact absurd (eq_func_of_builtin hbuiltin) (ofValue_ne_func id p.2)
  obtain ⟨hplain, hvalues⟩ := plain_of_lookup hwf.1 hkeys.1 hlookup
  exact ⟨hplain, fun p hp => (ofValue_misread_iff (hwf.2 p hp) (hkeys.2 p hp)).mp (hvalues p hp)⟩

theorem plainTexts_of_agree (h : Carried f64Text strtod v tlv) (hkeys : v.All KeysNoNul)
    (hagree : Agree numberText f64Text strtod v tlv) : v.All PlainTexts := by
  have hsource : asking.toolSource ≠ [] := by decide
  obtain ⟨a, b, ha, hb, hran, -⟩ := hagree Unit asksOnly asking
  obtain ⟨w, e, hw, he, hrun⟩ := @callTool_done _ numberText asksOnly asking strtod rfl hsource (jsonText f64Text v)
  obtain ⟨p, hp, -⟩ := h.decodeTlv
  rw [ha] at he
  obtain rfl := Run.done.inj he
  rw [h.jsonParse] at hw
  obtain rfl := Run.done.inj hw
  obtain ⟨fields, rfl⟩ := h.object
  obtain ⟨e', he', hrun'⟩ := @execRegisteredTool_done _ numberText asksOnly (asking.reset.withFault p) hsource
    (callScope (.ofValue id (.object fields)))
  have hbinary := @callToolBinary_map _ numberText asksOnly asking rfl _ _ _ hp
  rw [hb] at hbinary
  obtain rfl := Run.done.inj (hbinary.trans he')
  rw [hrun, hrun'] at hran
  exact ofValue_eq_of_callScope h.wf hkeys (Prod.mk.inj (Option.some.inj hran)).2

/-- **The two entry points agree on an object** whose texts have no control character that is written as a code point;
and on no other whose keys have no NUL in them. -/
theorem encodings_agree (numberText : NumberText) (h : Carried f64Text strtod v tlv) :
    (v.All PlainTexts → Agree numberText f64Text strtod v tlv) ∧
      (v.All KeysNoNul → Agree numberText f64Text strtod v tlv → v.All PlainTexts) :=
  ⟨fun hplain => agree_of_eq h (ofValue_misread_of_plain hplain), fun hkeys hagree => plainTexts_of_agree h hkeys hagree⟩

end Agreement

/-! ## Two objects -/

def readDigits : Strtod := fun s => f64OfNat (decimalValue (s.takeWhile isDigit))

theorem numbersRead_posInt (f64Text : F64Text) (n : UInt64) : NumbersRead f64Text readDigits (.number (.posInt n)) := by
  intro rest hrest
  have hdigits : Guest.Digits (natText n.toNat) := fun c hc => isDigit_of_mem_natText hc
  have htake := (hdigits.split (hrest.head (p := isDigit) (by decide) (by decide) (by decide))).1
  rw [numberText, utf8_toString_nat, readDigits, htake, decimalValue_natText]
  rfl

theorem Carried.of_keysLe {f64Text : F64Text} {strtod : Strtod} {fields : List (String × Value)}
    (wf : (Value.object fields).WF) (floats : (Value.object fields).All (FloatsPrint f64Text))
    (numbers : (Value.object fields).All (NumbersRead f64Text strtod))
    (length : (jsonText f64Text (.object fields)).length ≤ argsBufSize - 1)
    (depth : (Value.object fields).depth ≤ tlvMaxDepth)
    (limits : (Value.object fields).All fun w => w.StringLe tlvMaxStringLen ∧ w.EntriesLe tlvMaxElements)
    (keys : (Value.object fields).All (Value.KeysLe 65535)) :
    Carried f64Text strtod (.object fields) (Tlv.ofValue (.object fields)).bytes :=
  ⟨⟨fields, rfl⟩, wf, floats, numbers, length, depth, limits,
    Emit.toOutcome_eq_ok.mpr (NdaNative.encodeJsonValue_of_keysLe keys)⟩

/-- `{"a":[1,"x"]}`. -/
def ordinary : Value := .object [("a", .array [.number (.posInt 1), .string "x"])]

theorem carried_ordinary : Carried (fun _ => []) readDigits ordinary (Tlv.ofValue ordinary).bytes := by
  have hone : 1 ≤ tlvMaxElements := by decide
  have htwo : 2 ≤ tlvMaxElements := by decide
  have htext : (utf8 "x").length ≤ tlvMaxStringLen := by decide
  have hkey : (utf8 "a").length ≤ 65535 := by decide
  exact .of_keysLe ⟨List.pairwise_singleton _ _, ⟨trivial, trivial, trivial, trivial⟩, trivial⟩
    ⟨trivial, ⟨trivial, trivial, trivial, trivial⟩, trivial⟩
    ⟨trivial, ⟨trivial, numbersRead_posInt _ 1, trivial, trivial⟩, trivial⟩ (by decide) (by decide)
    ⟨⟨trivial, hone⟩, ⟨⟨trivial, htwo⟩, ⟨trivial, trivial⟩, ⟨htext, trivial⟩, trivial⟩, trivial⟩
    ⟨List.forall_mem_singleton.mpr hkey, ⟨trivial, trivial, trivial, trivial⟩, trivial⟩

/-- Numbers and a text in an array. -/
theorem encodings_agree_ordinary :
    Agree printDigit (fun _ => []) readDigits ordinary (Tlv.ofValue ordinary).bytes := by
  have hkey : Plain (utf8 "a") := by decide +kernel
  have htext : Plain (utf8 "x") := by decide +kernel
  exact (encodings_agree printDigit carried_ordinary).1
    ⟨List.forall_mem_singleton.mpr hkey, ⟨trivial, trivial, htext, trivial⟩, trivial⟩

/-- `{"a":"\u0001"}`. -/
def withControl : Value := .object [("a", .string "\x01")]

theorem carried_withControl : Carried (fun _ => []) readDigits withControl (Tlv.ofValue withControl).bytes := by
  have hone : 1 ≤ tlvMaxElements := by decide
  have htext : (utf8 "\x01").length ≤ tlvMaxStringLen := by decide
  have hkey : (utf8 "a").length ≤ 65535 := by decide
  exact .of_keysLe ⟨List.pairwise_singleton _ _, trivial, trivial⟩ ⟨trivial, trivial, trivial⟩
    ⟨trivial, trivial, trivial⟩ (by decide) (by decide) ⟨⟨trivial, hone⟩, ⟨htext, trivial⟩, trivial⟩
    ⟨List.forall_mem_singleton.mpr hkey, trivial, trivial⟩

/-- A control character that is written as a code point is read as its digits. -/
theorem encodings_disagree :
    ¬ ∀ v tlv, Carried (fun _ => []) readDigits v tlv → Agree printDigit (fun _ => []) readDigits v tlv := by
  have hlost : ¬ Plain (utf8 "\x01") := by decide +kernel
  have hkey : 0 ∉ utf8 "a" := by decide +kernel
  intro h
  obtain ⟨-, htext, -⟩ := plainTexts_of_agree carried_withControl
    ⟨List.forall_mem_singleton.mpr hkey, trivial, trivial⟩ (h _ _ carried_withControl)
  exact hlost htext

end VelocityMcp.Interp
