import VelocityMcp.Guest.Stack
import VelocityMcp.NdaNative.Tlv

/-!
# Guest.Agreement — the same arguments, as JSON and as TLV

A tool is handed the object's image, whether its text or its encoding was received: `agree_iff` says for which objects
each guest does so.
-/

namespace VelocityMcp.Guest

open Lib

/-- An object, its text fits `args_buf`, and its encoding `tlv` keeps the limits; and the C library reads back what
`serde_json` prints of its floats. -/
structure Carried (f64Text : F64Text) (strtod : Strtod) (v : Value) (tlv : Bytes) : Prop where
  object : ∃ fields, v = .object fields
  wf : v.WF
  floats : v.All (FloatsRead f64Text strtod)
  length : (jsonText f64Text v).length ≤ argsBufSize - 1
  depth : v.depth ≤ tlvMaxDepth
  limits : v.All fun w => w.StringLe tlvMaxStringLen ∧ w.EntriesLe tlvMaxElements
  encoded : (NdaNative.encodeJsonValue v).toOutcome = .ok tlv

/-- What a tool is told that asks for its arguments once. -/
def Lua.State.told (strtod : Strtod) (s : Lua.State) (a : Lua.Action) : List LuaValue :=
  (s.perform a).used.map fun u => u.1.getToolArgs strtod

def MicroPython.State.told (strtod : Strtod) (beyond : Beyond) (s : MicroPython.State) (a : MicroPython.Action) :
    List (Option PyValue) :=
  (s.perform beyond a).used.map fun u => u.1.getToolArgs strtod

/-- The tool is handed this value, and the stack has had room for all that was put on it. -/
def Lua.State.Hands (strtod : Strtod) (s : Lua.State) (a : Lua.Action) (v : LuaValue) : Prop :=
  Lua.Bridge.Disciplined strtod ⟨s, []⟩ a ∧ s.told strtod a = [v]

/-- **Every tool is handed the value's image**, by a call with the text and by a call with the encoding. -/
def Lua.Agree (f64Text : F64Text) (strtod : Strtod) (v : Value) (tlv : Bytes) : Prop :=
  ∀ (s : Lua.State) name, s.Asked name Lua.asks →
    s.Hands strtod (.callTool (jsonText f64Text v) name Lua.asks) (.image v) ∧
      s.Hands strtod (.callToolBinary tlv name Lua.asks) (.image v)

/-- The guest hands its tool the image of `v`, whichever way the arguments came. -/
def MicroPython.Agree (f64Text : F64Text) (strtod : Strtod) (beyond : Beyond) (v : Value) (tlv : Bytes) : Prop :=
  ∀ (s : MicroPython.State) name, s.Asked name MicroPython.asks →
    s.told strtod beyond (.callTool (jsonText f64Text v) name MicroPython.asks) = [some (.image v)] ∧
      s.told strtod beyond (.callToolBinary tlv name MicroPython.asks) = [some (.image v)]

/-! ## The slots that a value takes -/

mutual

/-- How many slots of the stack both decoders take: an array one more than its items, an object two more than its
values. -/
def luaSlots : Value → ℕ
  | .array items => 1 + luaItemsSlots items
  | .object fields => 1 + luaFieldsSlots fields
  | _ => 1

def luaItemsSlots : List Value → ℕ
  | [] => 0
  | v :: vs => max (luaSlots v) (luaItemsSlots vs)

def luaFieldsSlots : List (String × Value) → ℕ
  | [] => 0
  | (_, v) :: fs => max (1 + luaSlots v) (luaFieldsSlots fs)

end

section Slots

variable (f64Text : F64Text) (strtod : Strtod)

mutual

/-- What the JSON decoder makes of a value's text, it reads to the end, in so many slots. -/
theorem slots_jpRead : (v : Value) →
    (jpRead strtod (rawOf f64Text v)).ok = true ∧ (jpRead strtod (rawOf f64Text v)).slots = luaSlots v
  | .null | .bool _ | .number _ | .string _ => ⟨rfl, rfl⟩
  | .array items => by
    obtain ⟨hok, hslots⟩ := itemsSlots_jpItems items
    exact ⟨hok, congrArg (1 + ·) hslots⟩
  | .object fields => by
    obtain ⟨hok, hslots⟩ := membersSlots_jpMembers fields
    exact ⟨by rw [rawOf, jpRead, LuaRead.ok, hok]; rfl, congrArg (1 + ·) hslots⟩

theorem itemsSlots_jpItems : (vs : List Value) →
    LuaRead.itemsOk (jpItems strtod (rawItems f64Text vs)) = true ∧
      LuaRead.itemsSlots (jpItems strtod (rawItems f64Text vs)) = luaItemsSlots vs
  | [] => ⟨rfl, rfl⟩
  | v :: vs => by
    obtain ⟨hok, hslots⟩ := slots_jpRead v
    obtain ⟨hoks, hslotss⟩ := itemsSlots_jpItems vs
    rw [rawItems, jpItems, LuaRead.itemsOk, LuaRead.itemsSlots, if_pos hok, hok, hoks, hslots, hslotss]
    exact ⟨rfl, rfl⟩

theorem membersSlots_jpMembers : (fs : List (String × Value)) →
    LuaRead.membersOk (jpMembers strtod (rawFields f64Text fs)) = true ∧
      LuaRead.membersSlots (jpMembers strtod (rawFields f64Text fs)) = luaFieldsSlots fs
  | [] => ⟨rfl, rfl⟩
  | (k, v) :: fs => by
    obtain ⟨hok, hslots⟩ := slots_jpRead v
    obtain ⟨hoks, hslotss⟩ := membersSlots_jpMembers fs
    rw [rawFields, jpMembers, LuaRead.membersOk, LuaRead.membersSlots, if_pos hok, hok, hoks, hslots, hslotss]
    exact ⟨rfl, rfl⟩

end

mutual

/-- So it is with the TLV decoder and the value's encoding. -/
theorem slots_luaTlv : (v : Value) → (luaTlv (.ofValue v)).ok = true ∧ (luaTlv (.ofValue v)).slots = luaSlots v
  | .null | .bool _ | .string _ => ⟨rfl, rfl⟩
  | .number n => by
    have hnumber : ∃ pushed, luaTlv (.ofValue (.number n)) = .pushed pushed := by
      rw [Tlv.ofValue]
      cases n.asI64 with
      | some i => exact ⟨_, rfl⟩
      | none => cases n.asF64 <;> exact ⟨_, rfl⟩
    obtain ⟨pushed, hpushed⟩ := hnumber
    rw [hpushed]
    exact ⟨rfl, rfl⟩
  | .array items => by
    obtain ⟨hok, hslots⟩ := itemsSlots_luaTlvItems items
    exact ⟨hok, congrArg (1 + ·) hslots⟩
  | .object fields => by
    obtain ⟨hok, hslots⟩ := membersSlots_luaTlvEntries fields
    exact ⟨by rw [Tlv.ofValue, luaTlv, LuaRead.ok, hok]; rfl, congrArg (1 + ·) hslots⟩

theorem itemsSlots_luaTlvItems : (vs : List Value) →
    LuaRead.itemsOk (luaTlvItems (Tlv.ofItems vs)) = true ∧
      LuaRead.itemsSlots (luaTlvItems (Tlv.ofItems vs)) = luaItemsSlots vs
  | [] => ⟨rfl, rfl⟩
  | v :: vs => by
    obtain ⟨hok, hslots⟩ := slots_luaTlv v
    obtain ⟨hoks, hslotss⟩ := itemsSlots_luaTlvItems vs
    rw [Tlv.ofItems, luaTlvItems, LuaRead.itemsOk, LuaRead.itemsSlots, if_pos hok, hok, hoks, hslots, hslotss]
    exact ⟨rfl, rfl⟩

theorem membersSlots_luaTlvEntries : (fs : List (String × Value)) →
    LuaRead.membersOk (luaTlvEntries (Tlv.ofFields fs)) = true ∧
      LuaRead.membersSlots (luaTlvEntries (Tlv.ofFields fs)) = luaFieldsSlots fs
  | [] => ⟨rfl, rfl⟩
  | (k, v) :: fs => by
    obtain ⟨hok, hslots⟩ := slots_luaTlv v
    obtain ⟨hoks, hslotss⟩ := membersSlots_luaTlvEntries fs
    rw [Tlv.ofFields, luaTlvEntries, LuaRead.membersOk, LuaRead.membersSlots, if_pos hok, hok, hoks, hslots, hslotss]
    exact ⟨rfl, rfl⟩

end

end Slots

/-! ## What a tool is told -/

section Told

variable {strtod : Strtod} {name : Bytes}

theorem inArgsBuf_of_length_le {args : Bytes} (h : args.length ≤ argsBufSize - 1) : inArgsBuf args = args :=
  List.take_of_length_le h

theorem Lua.used_callWrapper {s : Lua.State} (h : s.Asked name Lua.asks) (retire : Lua.State → Lua.State) :
    (s.callWrapper name Lua.asks retire).used = [(s, .getToolArgs)] := by
  obtain ⟨-, ⟨names, hwrappers, hname⟩, -⟩ := h
  simp only [Lua.State.callWrapper, hwrappers, if_pos hname]
  rfl

/-- On the JSON path the text is decoded in the tool's frame. -/
theorem Lua.disciplined_callTool {s : Lua.State} (h : s.Asked name Lua.asks) {args : Bytes}
    (hlen : args.length ≤ argsBufSize - 1) :
    Lua.Bridge.Disciplined strtod ⟨s, []⟩ (.callTool args name Lua.asks) ↔
      (jpParseValue strtod args).slots ≤ Lua.minStack := by
  have hused := Lua.used_callWrapper (s := { s with slot := .nil, argsBuf := inArgsBuf args, output := [] }) h id
  refine (Lua.Bridge.disciplined_iff_of_main rfl _).trans ((and_iff_left trivial).trans ?_)
  rw [Lua.State.perform, Lua.State.callTool, if_pos h.1, hused, inArgsBuf_of_length_le hlen, List.forall_mem_singleton]
  exact ⟨fun hfits => hfits rfl, fun hfits _ => hfits⟩

/-- On the binary path the encoding is decoded on the main stack, and a table is found in the registry. -/
theorem Lua.disciplined_callToolBinary {s : Lua.State} (h : s.Asked name Lua.asks) {tlv : Bytes} {content : LuaTable}
    (hok : (tlvDecodeValue tlv).ok = true) (hvalue : (tlvDecodeValue tlv).value = .table content) :
    Lua.Bridge.Disciplined strtod ⟨s, []⟩ (.callToolBinary tlv name Lua.asks) ↔
      (tlvDecodeValue tlv).slots ≤ Lua.minStack := by
  have hused := Lua.used_callWrapper (s := { s with slot := (tlvDecodeValue tlv).value, output := [] }) h
    fun t => { t with slot := .nil }
  rw [Lua.Bridge.disciplined_iff_of_main rfl, Lua.Bridge.Sound, Lua.State.perform, Lua.State.callToolBinary, if_pos h.1]
  dsimp only
  rw [if_pos hok, hused, hvalue]
  simp [Lua.State.UseFits, hok, h.1]

theorem Lua.told_callTool {s : Lua.State} (h : s.Asked name Lua.asks) {args : Bytes}
    (hlen : args.length ≤ argsBufSize - 1) :
    s.told strtod (.callTool args name Lua.asks) = [(jpParseValue strtod args).value] := by
  have hused := Lua.used_callWrapper (s := { s with slot := .nil, argsBuf := inArgsBuf args, output := [] }) h id
  rw [Lua.State.told, Lua.State.perform, Lua.State.callTool, if_pos h.1, hused, inArgsBuf_of_length_le hlen]
  rfl

theorem Lua.told_callToolBinary {s : Lua.State} (h : s.Asked name Lua.asks) {tlv : Bytes} {content : LuaTable}
    (hok : (tlvDecodeValue tlv).ok = true) (hvalue : (tlvDecodeValue tlv).value = .table content) :
    s.told strtod (.callToolBinary tlv name Lua.asks) = [.table content] := by
  have hused := Lua.used_callWrapper (s := { s with slot := (tlvDecodeValue tlv).value, output := [] }) h
    fun t => { t with slot := .nil }
  rw [Lua.State.told, Lua.State.perform, Lua.State.callToolBinary, if_pos h.1]
  dsimp only
  rw [if_pos hok, hused, hvalue]
  rfl

theorem MicroPython.told_callTool {s : MicroPython.State} {beyond : Beyond} (h : s.Asked name MicroPython.asks)
    {args : Bytes} (hlen : args.length ≤ argsBufSize - 1) :
    s.told strtod beyond (.callTool args name MicroPython.asks) = [mjpParseValue strtod args] := by
  rw [MicroPython.State.told, MicroPython.State.perform, MicroPython.State.callTool, inArgsBuf_of_length_le hlen]
  dsimp only
  rw [if_pos h.1]
  rfl

theorem MicroPython.told_callToolBinary {s : MicroPython.State} {beyond : Beyond} (h : s.Asked name MicroPython.asks)
    {tlv : Bytes} {content : PyDict} (hvalue : pyDecodeValue beyond tlv = some (.dict content)) :
    s.told strtod beyond (.callToolBinary tlv name MicroPython.asks) = [some (.dict content)] := by
  rw [MicroPython.State.told, MicroPython.State.perform, MicroPython.State.callToolBinary]
  dsimp only
  rw [if_pos h.1, hvalue]
  rfl

end Told

/-! ## When the guests agree -/

section Agree

variable {f64Text : F64Text} {strtod : Strtod} {v : Value} {tlv : Bytes}

namespace Carried

variable (h : Carried f64Text strtod v tlv)

include h

theorem keysLe : v.All (Value.KeysLe 65535) :=
  (NdaNative.encodeJsonValue_eq_put.mp (Emit.toOutcome_eq_ok.mp h.encoded)).1

theorem tlv_eq : tlv = (Tlv.ofValue v).bytes :=
  (NdaNative.encodeJsonValue_eq_put.mp (Emit.toOutcome_eq_ok.mp h.encoded)).2

theorem floatsPrint : v.All (FloatsPrint f64Text) := h.floats.imp fun _ => FloatsRead.print

theorem tlvDecodeValue : (tlvDecodeValue tlv).ok = true ∧ (Guest.tlvDecodeValue tlv).value = .image v ∧
    (Guest.tlvDecodeValue tlv).slots = luaSlots v := by
  have hwithin := Tlv.within_ofValue (Nat.lt_succ_iff.mpr h.depth) h.limits h.keysLe
  obtain ⟨hok, hread⟩ := readsTlv_tlvRead hwithin
  have hdecode : Guest.tlvDecodeValue tlv = luaTlv (.ofValue v) := by
    have hall := congrArg Prod.fst (hread [])
    rwa [List.append_nil, ← h.tlv_eq] at hall
  rw [hdecode]
  exact ⟨hok, value_luaTlv h.wf, (slots_luaTlv v).2⟩

/-- The TLV decoder of the MicroPython guest returns the image, if its integers are those of the encoding. -/
theorem pyDecodeValue (hint : v.All Value.IntFits) (beyond : Beyond) : pyDecodeValue beyond tlv = some (.image v) := by
  have hcount : 0 + elementsOf v ≤ maxElements := by
    have hlt := elementsOf_lt h.floatsPrint
    have hlen := h.length
    have hsizes : argsBufSize - 1 ≤ maxElements := by decide
    omega
  have hreads : PyReads (pyRead beyond (maxDepth + 1)) v :=
    pyReads_pyRead (Nat.lt_succ_iff.mpr h.depth) h.wf hint h.limits h.keysLe
  have hread := hreads 0 [] hcount
  rw [List.append_nil, ← h.tlv_eq] at hread
  rw [Guest.pyDecodeValue]
  exact congrArg (Option.map Prod.fst) hread

end Carried

theorem lua_agree_iff (h : Carried f64Text strtod v tlv) :
    Lua.Agree f64Text strtod v tlv ↔ v.All LuaPlain ∧ luaSlots v ≤ Lua.minStack := by
  have hparse : jpParseValue strtod (jsonText f64Text v) = jpRead strtod (rawOf f64Text v) := by
    rw [jpParseValue, parse_jsonText h.floatsPrint]
  have hslots : (jpParseValue strtod (jsonText f64Text v)).slots = luaSlots v := by
    rw [hparse, (slots_jpRead f64Text strtod v).2]
  have hjson : (jpParseValue strtod (jsonText f64Text v)).value = luaJson f64Text strtod v := by
    rw [hparse]
    rfl
  rw [← luaJson_eq_image_iff h.wf h.floats, ← hjson, ← hslots]
  constructor
  · intro hagree
    have hasked : (⟨true, [], .nil, some [toolName], []⟩ : Lua.State).Asked toolName Lua.asks :=
      ⟨rfl, ⟨_, rfl, List.mem_singleton_self _⟩, List.mem_singleton_self _⟩
    obtain ⟨hroom, htold⟩ := (hagree _ toolName hasked).1
    rw [Lua.told_callTool hasked h.length] at htold
    exact ⟨List.singleton_injective htold, (Lua.disciplined_callTool hasked h.length).mp hroom⟩
  · rintro ⟨heq, hroom⟩ s name hasked
    obtain ⟨hok, hvalue, htlv⟩ := h.tlvDecodeValue
    obtain ⟨fields, rfl⟩ := h.object
    refine ⟨⟨(Lua.disciplined_callTool hasked h.length).mpr hroom, ?_⟩,
      (Lua.disciplined_callToolBinary hasked hok hvalue).mpr ?_, Lua.told_callToolBinary hasked hok hvalue⟩
    · rw [Lua.told_callTool hasked h.length, heq]
    · rw [htlv, ← hslots]
      exact hroom

theorem intFits_of_pyPlain {w : Value} (h : PyPlain w) : w.IntFits := by
  match w, h with
  | .number (.posInt n), h =>
    have hn : n.toNat < 2 ^ 31 := h
    show n ≤ Number.i64Max
    have hm : Number.i64Max.toNat = 2 ^ 63 - 1 := rfl
    rw [UInt64.le_iff_toNat_le]
    omega
  | .number (.negInt _ _), _ | .number (.float _ _), _ | .null, _ | .bool _, _ | .string _, _ | .array _, _
  | .object _, _ => exact trivial

theorem microPython_agree_iff (beyond : Beyond) (h : Carried f64Text strtod v tlv) :
    MicroPython.Agree f64Text strtod beyond v tlv ↔ v.All PyPlain := by
  have hjson : mjpParseValue strtod (jsonText f64Text v) = pyJson f64Text strtod v := by
    rw [mjpParseValue, parse_jsonText h.floatsPrint]
    rfl
  constructor
  · intro hagree
    rw [← pyJson_eq_image_iff h.wf h.floats, ← hjson]
    have htold := (hagree ⟨[], none, [toolName], []⟩ toolName ⟨List.mem_singleton_self _, List.mem_singleton_self _⟩).1
    rw [MicroPython.told_callTool ⟨List.mem_singleton_self _, List.mem_singleton_self _⟩ h.length] at htold
    exact List.singleton_injective htold
  · intro hplain s name hasked
    have hvalue := h.pyDecodeValue (hplain.imp fun _ => intFits_of_pyPlain) beyond
    have heq := (pyJson_eq_image_iff h.wf h.floats).mpr hplain
    obtain ⟨fields, rfl⟩ := h.object
    refine ⟨?_, MicroPython.told_callToolBinary hasked hvalue⟩
    rw [MicroPython.told_callTool hasked h.length, hjson, heq]

/-- **Which arguments the guests are handed alike**, as JSON and as TLV: to the Lua guest, those without integers above
`i64::MAX` and without control characters that are written as code points, that the decoders have slots for; to the
MicroPython guest, those with 32-bit integers and ASCII texts without such characters. -/
theorem agree_iff (beyond : Beyond) (h : Carried f64Text strtod v tlv) :
    (Lua.Agree f64Text strtod v tlv ↔ v.All LuaPlain ∧ luaSlots v ≤ Lua.minStack) ∧
      (MicroPython.Agree f64Text strtod beyond v tlv ↔ v.All PyPlain) :=
  ⟨lua_agree_iff h, microPython_agree_iff beyond h⟩

end Agree

/-! ## Two objects -/

def printFloat : F64Text := fun _ => [0x31, 0x2e, 0x35]

def readFloat : Strtod := fun _ => 0x3ff8000000000000

theorem floatText_printFloat : FloatText (printFloat 0x3ff8000000000000) := by
  have hone : Digits [0x31] := List.forall_mem_singleton.mpr (by decide)
  have hfive : Digits [0x35] := List.forall_mem_singleton.mpr (by decide)
  refine ⟨[], [0x31], [0x2e, 0x35], [], ⟨Or.inl rfl, ⟨by decide, hone⟩, Or.inr ⟨[0x35], hfive, rfl⟩, Or.inl rfl⟩,
    Or.inl (by decide), rfl, by decide⟩

theorem Carried.of_keysLe {f64Text : F64Text} {strtod : Strtod} {fields : List (String × Value)}
    (wf : (Value.object fields).WF) (floats : (Value.object fields).All (FloatsRead f64Text strtod))
    (length : (jsonText f64Text (.object fields)).length ≤ argsBufSize - 1)
    (depth : (Value.object fields).depth ≤ tlvMaxDepth)
    (limits : (Value.object fields).All fun w => w.StringLe tlvMaxStringLen ∧ w.EntriesLe tlvMaxElements)
    (keys : (Value.object fields).All (Value.KeysLe 65535)) :
    Carried f64Text strtod (.object fields) (Tlv.ofValue (.object fields)).bytes :=
  ⟨⟨fields, rfl⟩, wf, floats, length, depth, limits,
    Emit.toOutcome_eq_ok.mpr (NdaNative.encodeJsonValue_of_keysLe keys)⟩

/-- `{"a":[1,1.5,"x"]}`. -/
def ordinary : Value :=
  .object [("a", .array [.number (.posInt 1), .number (.float 0x3ff8000000000000 (by decide)), .string "x"])]

theorem carried_ordinary : Carried printFloat readFloat ordinary (Tlv.ofValue ordinary).bytes := by
  have hone : 1 ≤ tlvMaxElements := by decide
  have hthree : 3 ≤ tlvMaxElements := by decide
  have htext : (utf8 "x").length ≤ tlvMaxStringLen := by decide
  have hkey : (utf8 "a").length ≤ 65535 := by decide
  exact .of_keysLe ⟨List.pairwise_singleton _ _, ⟨trivial, trivial, trivial, trivial, trivial⟩, trivial⟩
    ⟨trivial, ⟨trivial, trivial, ⟨floatText_printFloat, rfl⟩, trivial, trivial⟩, trivial⟩ (by decide)
    (by decide)
    ⟨⟨trivial, hone⟩, ⟨⟨trivial, hthree⟩, ⟨trivial, trivial⟩, ⟨trivial, trivial⟩, ⟨htext, trivial⟩, trivial⟩, trivial⟩
    ⟨List.forall_mem_singleton.mpr hkey, ⟨trivial, trivial, trivial, trivial, trivial⟩, trivial⟩

/-- Numbers and a text in an array, in both guests. -/
theorem agree_iff_ordinary : Lua.Agree printFloat readFloat ordinary (Tlv.ofValue ordinary).bytes ∧
    MicroPython.Agree printFloat readFloat 0 ordinary (Tlv.ofValue ordinary).bytes := by
  have hkey : PyText "a" := by decide +kernel
  have htext : PyText "x" := by decide +kernel
  have hlong : (1 : UInt64) ≤ Number.i64Max := by decide
  have hsmall : (1 : UInt64).toNat < 2 ^ 31 := by decide
  refine ⟨(agree_iff 0 carried_ordinary).1.mpr ?_, (agree_iff 0 carried_ordinary).2.mpr ?_⟩
  · exact ⟨⟨List.forall_mem_singleton.mpr fun _ => hkey.1, ⟨trivial, hlong, trivial, htext.1, trivial⟩, trivial⟩,
      by decide⟩
  · exact ⟨List.forall_mem_singleton.mpr hkey, ⟨trivial, hsmall, trivial, htext, trivial⟩, trivial⟩

/-- `{"a":"\u0001"}`. -/
def withControl : Value := .object [("a", .string "\x01")]

theorem carried_withControl : Carried printFloat readFloat withControl (Tlv.ofValue withControl).bytes := by
  have hone : 1 ≤ tlvMaxElements := by decide
  have htext : (utf8 "\x01").length ≤ tlvMaxStringLen := by decide
  have hkey : (utf8 "a").length ≤ 65535 := by decide
  exact .of_keysLe ⟨List.pairwise_singleton _ _, trivial, trivial⟩ ⟨trivial, trivial, trivial⟩ (by decide)
    (by decide) ⟨⟨trivial, hone⟩, ⟨htext, trivial⟩, trivial⟩ ⟨List.forall_mem_singleton.mpr hkey, trivial, trivial⟩

/-- A control character that is written as a code point is lost. -/
theorem guests_disagree :
    (¬ ∀ v tlv, Carried printFloat readFloat v tlv → Lua.Agree printFloat readFloat v tlv) ∧
      ¬ ∀ v tlv, Carried printFloat readFloat v tlv → MicroPython.Agree printFloat readFloat 0 v tlv := by
  have hlost : ¬ Plain (utf8 "\x01") := by decide +kernel
  refine ⟨fun h => ?_, fun h => ?_⟩
  · obtain ⟨⟨-, htext, -⟩, -⟩ := (lua_agree_iff carried_withControl).mp (h _ _ carried_withControl)
    exact hlost htext
  · obtain ⟨-, htext, -⟩ := (microPython_agree_iff 0 carried_withControl).mp (h _ _ carried_withControl)
    exact hlost htext.1

end VelocityMcp.Guest
