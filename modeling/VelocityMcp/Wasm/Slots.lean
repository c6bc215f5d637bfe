import VelocityMcp.JsonText
import VelocityMcp.Lib.Memory
import VelocityMcp.NdaNative.RoundTrip

/-!
# Wasm.Slots — how the arguments of a call get into a guest's memory (`wasm_runtime/`, `plugins/mod.rs`)

`seesArguments_iff`: when the guest finds in the slots what was sent.
-/

namespace VelocityMcp.Wasm

open Lib NdaNative

/-! ## Memory and runtimes -/

/-- Why no call function was invoked: an error text of the host, an access outside the memory, or a TLV error. -/
inductive CallError where
  | refused (text : String)
  | access
  | decode (e : DecodeError)
deriving DecidableEq, Repr

/-- A guest's memory, at most the 4 GiB that 32 bits address. -/
structure GuestMemory where
  bytes : Mem
  size : ℕ
  size_le : size ≤ 2 ^ 32

theorem page_le : 65536 ≤ 2 ^ 32 := by decide

/-- `MemoryView::write`: checked against the size of the memory. -/
def GuestMemory.write (m : GuestMemory) (offset : ℕ) (data : Bytes) : Outcome CallError GuestMemory :=
  if m.size < offset + data.length then .err .access
  else .ok { m with bytes := runStores m.bytes (storesAt offset data) }

/-- What fixes how a runtime hands over a call: the names in its messages, its slots, and whether it has a
binary call of its own. -/
structure SlotLayout where
  language : String
  title : String
  argsSlot : ℕ
  nameSlot : ℕ
  positive : 0 < argsSlot
  ordered : argsSlot ≤ nameSlot
  overridesBinary : Bool

/-- `args_slot_capacity`. -/
def SlotLayout.capacity (l : SlotLayout) : ℕ := l.nameSlot - l.argsSlot

/-- The layout that eight runtimes share (`memory_layout`). -/
def standardLayout (language title : String) : SlotLayout where
  language := language
  title := title
  argsSlot := 4 * 1024
  nameSlot := 8 * 1024
  positive := by decide
  ordered := by decide
  overridesBinary := true

def lua : SlotLayout := standardLayout "lua" "Lua"

def php : SlotLayout := standardLayout "php" "PHP"

def csharp : SlotLayout := standardLayout "csharp" "C#"

def java : SlotLayout := standardLayout "java" "Java"

def r : SlotLayout := standardLayout "r" "R"

def julia : SlotLayout := standardLayout "julia" "Julia"

def perl : SlotLayout := standardLayout "perl" "Perl"

/-- Ruby has slots of its own, and no binary call. -/
def ruby : SlotLayout where
  language := "ruby"
  title := "Ruby"
  argsSlot := 512 * 1024 + 65536
  nameSlot := 512 * 1024 + 65536 + 65536
  positive := by decide
  ordered := by decide
  overridesBinary := false

/-- A runtime: the names of its tools, whether the guest exports a binary call function, and its memory. -/
structure SlotRuntime extends SlotLayout where
  tools : List String
  hasBinaryFn : Bool
  memory : GuestMemory

/-- The guest's call function is invoked: which one, the memory it finds, and what it is passed. -/
structure Invocation where
  binary : Bool
  memory : Mem
  argsPtr : ℕ
  argsLen : ℕ
  namePtr : ℕ
  nameLen : ℕ

/-! ## The calls -/

namespace SlotRuntime

variable (f64Text : F64Text) (rt : SlotRuntime)

/-- Both slots are written, then the function is called with the two addresses and lengths, 32 bits each. -/
def invoke (binary : Bool) (name : String) (args : Bytes) : Outcome CallError Invocation := do
  let memory ← rt.memory.write rt.argsSlot args
  let memory ← memory.write rt.nameSlot (utf8 name)
  .ok ⟨binary, memory.bytes, rt.argsSlot, args.length % 2 ^ 32, rt.nameSlot, (utf8 name).length % 2 ^ 32⟩

/-- The writes of a call, up to the guest's call function. -/
def callTool (name : String) (argsJson : Bytes) : Outcome CallError Invocation :=
  if name ∉ rt.tools then .err (.refused s!"Unknown {rt.title} tool: {name}")
  else rt.invoke false name argsJson

/-- `call_tool_binary` as the trait has it, and as every runtime falls back to it. -/
def callToolFallback (name : String) (argsTlv : Bytes) : Outcome CallError Invocation := do
  let (value, _) ← (decodeJsonValue argsTlv).mapErr .decode
  rt.callTool name (jsonText f64Text value)

/-- The same, with binary arguments. -/
def callToolBinary (name : String) (argsTlv : Bytes) : Outcome CallError Invocation :=
  if !rt.overridesBinary then rt.callToolFallback f64Text name argsTlv
  else if name ∉ rt.tools then .err (.refused s!"Unknown {rt.title} tool: {name}")
  else if rt.hasBinaryFn then rt.invoke true name argsTlv
  else rt.callToolFallback f64Text name argsTlv

def checkArgsFit (len : ℕ) (what : String) : Outcome CallError Unit :=
  if rt.capacity ≤ len then
    .err (.refused s!"{what} {len} bytes exceed the {rt.capacity}-byte argument slot of the {rt.language} runtime")
  else .ok ()

/-- `execute_wasm_plugin_tool`, once the tool is registered. -/
def executeWasmPluginTool (name : String) (arguments : Value) : Outcome CallError Invocation := do
  rt.checkArgsFit (jsonText f64Text arguments).length "Tool arguments"
  rt.callTool name (jsonText f64Text arguments)

/-- The entry point, with its check of the length. -/
def callWasmToolBinary (name : String) (argsTlv : Bytes) : Outcome CallError Invocation := do
  rt.checkArgsFit argsTlv.length "Binary TLV arguments"
  rt.callToolBinary f64Text name argsTlv

end SlotRuntime

/-! ## What the guest finds -/

/-- The slots hold the arguments and the tool name, each with its length, and the arguments end before the
name's slot. -/
structure Sees (args : Bytes) (name : String) (inv : Invocation) : Prop where
  argsLen : inv.argsLen = args.length
  argsHeld : Holds inv.memory inv.argsPtr args
  nameLen : inv.nameLen = (utf8 name).length
  nameHeld : Holds inv.memory inv.namePtr (utf8 name)
  disjoint : inv.argsPtr + args.length ≤ inv.namePtr

/-- The encoding of the arguments that the invoked function expects: the TLV itself, or the JSON text of its
value. -/
def EncodesTlv (f64Text : F64Text) (argsTlv args : Bytes) (inv : Invocation) : Prop :=
  if inv.binary then args = argsTlv
  else ∃ v n, decodeJsonValue argsTlv = .ok (v, n) ∧ args = jsonText f64Text v

section Slots

variable {f64Text : F64Text} {rt : SlotRuntime} {name : String} {args argsTlv : Bytes} {inv : Invocation}

theorem GuestMemory.write_eq_ok {m m' : GuestMemory} {a : ℕ} {bs : Bytes} :
    m.write a bs = .ok m' ↔
      a + bs.length ≤ m.size ∧ m' = { m with bytes := runStores m.bytes (storesAt a bs) } := by
  rw [GuestMemory.write]
  by_cases h : m.size < a + bs.length
  · rw [if_pos h]
    exact ⟨fun he => absurd he (by simp), fun he => absurd h (not_lt.mpr he.1)⟩
  · rw [if_neg h, Outcome.ok.injEq]
    exact ⟨fun he => ⟨not_lt.mp h, he.symm⟩, fun he => he.2.symm⟩

theorem invoke_eq_ok {binary : Bool} :
    rt.invoke binary name args = .ok inv ↔
      rt.argsSlot + args.length ≤ rt.memory.size ∧ rt.nameSlot + (utf8 name).length ≤ rt.memory.size ∧
        inv = ⟨binary, runStores (runStores rt.memory.bytes (storesAt rt.argsSlot args))
            (storesAt rt.nameSlot (utf8 name)), rt.argsSlot, args.length % 2 ^ 32, rt.nameSlot,
          (utf8 name).length % 2 ^ 32⟩ := by
  rw [SlotRuntime.invoke, Outcome.bind_eq_ok]
  constructor
  · rintro ⟨m₁, h₁, h⟩
    obtain ⟨m₂, h₂, h⟩ := Outcome.bind_eq_ok.mp h
    obtain ⟨hargs, rfl⟩ := GuestMemory.write_eq_ok.mp h₁
    obtain ⟨hname, rfl⟩ := GuestMemory.write_eq_ok.mp h₂
    exact ⟨hargs, hname, (Outcome.ok.inj h).symm⟩
  · rintro ⟨hargs, hname, rfl⟩
    refine ⟨_, GuestMemory.write_eq_ok.mpr ⟨hargs, rfl⟩, ?_⟩
    exact Outcome.bind_eq_ok.mpr ⟨_, GuestMemory.write_eq_ok.mpr ⟨hname, rfl⟩, rfl⟩

theorem nameHeld_of_invoke {binary : Bool} (h : rt.invoke binary name args = .ok inv) :
    Holds inv.memory inv.namePtr (utf8 name) := by
  obtain ⟨-, -, rfl⟩ := invoke_eq_ok.mp h
  exact holds_storesAt _ _ _

/-- **The two writes.**  The guest finds what was sent exactly if the arguments fit their slot: the name is
written last, over what runs past it. -/
theorem sees_iff_of_invoke {binary : Bool} (h : rt.invoke binary name args = .ok inv) :
    Sees args name inv ↔ args.length ≤ rt.capacity := by
  have hpositive := rt.positive
  have hordered := rt.ordered
  have hsize := rt.memory.size_le
  have hheld := nameHeld_of_invoke h
  obtain ⟨hargs, hname, rfl⟩ := invoke_eq_ok.mp h
  rw [SlotLayout.capacity]
  constructor
  · intro hsees
    have hdisjoint : rt.argsSlot + args.length ≤ rt.nameSlot := hsees.disjoint
    omega
  · intro hfits
    refine ⟨Nat.mod_eq_of_lt (by omega), ?_, Nat.mod_eq_of_lt (by omega), hheld, ?_⟩
    · refine (holds_storesAt _ _ _).runStores fun p hp => Or.inr ?_
      have := mem_storesAt hp
      show rt.argsSlot + args.length ≤ p.1
      omega
    · show rt.argsSlot + args.length ≤ rt.nameSlot
      omega

theorem callTool_eq_ok :
    rt.callTool name args = .ok inv ↔ name ∈ rt.tools ∧ rt.invoke false name args = .ok inv := by
  rw [SlotRuntime.callTool]
  by_cases h : name ∈ rt.tools
  · rw [if_neg (not_not.mpr h)]
    exact ⟨fun hi => ⟨h, hi⟩, fun hi => hi.2⟩
  · rw [if_pos h]
    exact ⟨fun hi => absurd hi (by simp), fun hi => absurd hi.1 h⟩

theorem callToolFallback_eq_ok :
    rt.callToolFallback f64Text name argsTlv = .ok inv ↔
      ∃ v n, decodeJsonValue argsTlv = .ok (v, n) ∧ rt.callTool name (jsonText f64Text v) = .ok inv := by
  rw [SlotRuntime.callToolFallback, Outcome.bind_eq_ok]
  constructor
  · rintro ⟨⟨v, n⟩, hv, h⟩
    exact ⟨v, n, Outcome.mapErr_eq_ok.mp hv, h⟩
  · rintro ⟨v, n, hv, h⟩
    exact ⟨(v, n), Outcome.mapErr_eq_ok.mpr hv, h⟩

theorem checkArgsFit_bind_eq_ok {len : ℕ} {what : String} {x : Outcome CallError Invocation} :
    (rt.checkArgsFit len what >>= fun _ => x) = .ok inv ↔ len < rt.capacity ∧ x = .ok inv := by
  rw [SlotRuntime.checkArgsFit]
  by_cases h : rt.capacity ≤ len
  · rw [if_pos h]
    exact ⟨fun he => absurd he (by simp), fun he => absurd he.1 (not_lt.mpr h)⟩
  · rw [if_neg h]
    exact ⟨fun he => ⟨not_le.mp h, he⟩, fun he => he.2⟩

variable (rt) in
/-- The runtime has no binary call to invoke, and rewrites the arguments as JSON. -/
def FallsBack : Prop := rt.overridesBinary = false ∨ rt.hasBinaryFn = false

/-- **The binary entry point**: the binary function with the TLV, or the other one with its JSON text, whose
length nothing has checked. -/
theorem callWasmToolBinary_eq_ok :
    rt.callWasmToolBinary f64Text name argsTlv = .ok inv ↔
      argsTlv.length < rt.capacity ∧ name ∈ rt.tools ∧
        ((¬ FallsBack rt ∧ rt.invoke true name argsTlv = .ok inv) ∨
          (FallsBack rt ∧ ∃ v n, decodeJsonValue argsTlv = .ok (v, n) ∧
            rt.invoke false name (jsonText f64Text v) = .ok inv)) := by
  have hfallback : rt.callToolFallback f64Text name argsTlv = .ok inv ↔
      name ∈ rt.tools ∧ ∃ v n, decodeJsonValue argsTlv = .ok (v, n) ∧
        rt.invoke false name (jsonText f64Text v) = .ok inv := by
    rw [callToolFallback_eq_ok]
    simp only [callTool_eq_ok]
    exact ⟨fun ⟨v, n, hv, hname, h⟩ => ⟨hname, v, n, hv, h⟩, fun ⟨hname, v, n, hv, h⟩ => ⟨v, n, hv, hname, h⟩⟩
  rw [SlotRuntime.callWasmToolBinary, checkArgsFit_bind_eq_ok]
  refine and_congr_right fun _ => ?_
  rw [SlotRuntime.callToolBinary, FallsBack]
  by_cases hoverrides : rt.overridesBinary
  · rw [if_neg (by simp [hoverrides])]
    by_cases hname : name ∈ rt.tools
    · rw [if_neg (not_not.mpr hname)]
      by_cases hbinary : rt.hasBinaryFn
      · rw [if_pos hbinary]
        simp [hoverrides, hbinary, hname]
      · rw [if_neg hbinary, hfallback]
        simp [hoverrides, hbinary, hname]
    · rw [if_pos hname]
      simp [hname]
  · rw [if_pos (by simp [hoverrides]), hfallback]
    simp [hoverrides]

/-- What the two entry points promise: whatever call function is invoked finds the arguments in the encoding it
expects. -/
def SeesArguments (f64Text : F64Text) (rt : SlotRuntime) (name : String) (argsTlv : Bytes) : Prop :=
  ∀ inv, rt.callWasmToolBinary f64Text name argsTlv = .ok inv →
    ∃ args, EncodesTlv f64Text argsTlv args inv ∧ Sees args name inv

/-- The JSON text that a fallback writes, where it gets as far as writing it, fits the slot. -/
def FallbackFits (f64Text : F64Text) (rt : SlotRuntime) (name : String) (argsTlv : Bytes) : Prop :=
  FallsBack rt → name ∈ rt.tools → argsTlv.length < rt.capacity → ∀ v n, decodeJsonValue argsTlv = .ok (v, n) →
    rt.argsSlot + (jsonText f64Text v).length ≤ rt.memory.size →
    rt.nameSlot + (utf8 name).length ≤ rt.memory.size → (jsonText f64Text v).length ≤ rt.capacity

/-- **When a guest sees the arguments that were sent**: always on the JSON entry point, and on the binary one
unless a fallback's JSON text runs past the slot. -/
theorem seesArguments_iff (f64Text : F64Text) (rt : SlotRuntime) (name : String) :
    (∀ v inv, rt.executeWasmPluginTool f64Text name v = .ok inv → Sees (jsonText f64Text v) name inv) ∧
      ∀ argsTlv, SeesArguments f64Text rt name argsTlv ↔ FallbackFits f64Text rt name argsTlv := by
  constructor
  · intro v inv h
    rw [SlotRuntime.executeWasmPluginTool, checkArgsFit_bind_eq_ok] at h
    obtain ⟨hlen, h⟩ := h
    exact (sees_iff_of_invoke (callTool_eq_ok.mp h).2).mpr hlen.le
  · intro argsTlv
    constructor
    · intro hsees hfalls hname hlen v n hv hargs hspace
      obtain ⟨inv, hinv⟩ : ∃ inv, rt.invoke false name (jsonText f64Text v) = .ok inv :=
        ⟨_, invoke_eq_ok.mpr ⟨hargs, hspace, rfl⟩⟩
      obtain ⟨args, hencodes, hargs'⟩ := hsees inv
        (callWasmToolBinary_eq_ok.mpr ⟨hlen, hname, Or.inr ⟨hfalls, v, n, hv, hinv⟩⟩)
      have hbinary : inv.binary = false := by
        obtain ⟨-, -, rfl⟩ := invoke_eq_ok.mp hinv
        rfl
      rw [EncodesTlv, if_neg (by simp [hbinary])] at hencodes
      obtain ⟨w, k, hw, rfl⟩ := hencodes
      obtain ⟨rfl, -⟩ := Outcome.ok_pair_inj (hv.symm.trans hw)
      exact (sees_iff_of_invoke hinv).mp hargs'
    · intro hfits inv h
      obtain ⟨hlen, hname, ⟨-, h⟩ | ⟨hfalls, v, n, hv, h⟩⟩ := callWasmToolBinary_eq_ok.mp h
      · refine ⟨argsTlv, ?_, (sees_iff_of_invoke h).mpr hlen.le⟩
        obtain ⟨-, -, rfl⟩ := invoke_eq_ok.mp h
        rw [EncodesTlv, if_pos rfl]
      · obtain ⟨hargs, hspace, hinv⟩ := invoke_eq_ok.mp h
        refine ⟨jsonText f64Text v, ?_, (sees_iff_of_invoke h).mpr (hfits hfalls hname hlen v n hv hargs hspace)⟩
        subst hinv
        exact ⟨v, n, hv, rfl⟩

end Slots

/-! ### An array of nulls -/

def luaWithoutBinary : SlotRuntime where
  toSlotLayout := lua
  tools := ["t"]
  hasBinaryFn := false
  memory := ⟨fun _ => 0, 16 * 65536, by decide⟩

/-- A thousand nulls: 1005 bytes on the wire, 5001 as JSON. -/
def nulls : Value := .array (List.replicate 1000 .null)

theorem withinLimits_nulls : WithinLimits nulls := by
  have hmem : ∀ v ∈ List.replicate 1000 Value.null, v = .null := fun v hv => (List.mem_replicate.mp hv).2
  refine ⟨?_, ?_, ?_, ?_, ?_, ?_⟩
  · exact Value.all_array.mpr ⟨trivial, fun v hv => hmem v hv ▸ trivial⟩
  · exact Value.depth_array_le.mpr fun v hv => by rw [hmem v hv]; simp [Value.depth, tlvMaxDepth]
  · exact Value.all_array.mpr ⟨trivial, fun v hv => hmem v hv ▸ trivial⟩
  · exact Value.all_array.mpr ⟨by rw [Value.EntriesLe, List.length_replicate]; decide, fun v hv => hmem v hv ▸ trivial⟩
  · exact Value.all_array.mpr ⟨trivial, fun v hv => hmem v hv ▸ trivial⟩
  · exact Value.all_array.mpr ⟨trivial, fun v hv => hmem v hv ▸ trivial⟩

theorem length_bytes_nulls : (Tlv.ofValue nulls).bytes.length = 1005 := by
  have h : ∀ n, (Tlv.itemsBytes (Tlv.ofItems (List.replicate n .null))).length = n := fun n => by
    induction n with
    | zero => rfl
    | succ n ih =>
      rw [List.replicate_succ, Tlv.ofItems, Tlv.itemsBytes, List.length_append, ih, Tlv.ofValue]
      exact Nat.add_comm 1 n
  rw [nulls, Tlv.ofValue, Tlv.length_bytes_array, h]

/-- The guest is told of 5001 bytes of arguments, and finds the tool's name where their 4097th byte was. -/
theorem nulls_overrun :
    ∃ inv, luaWithoutBinary.callWasmToolBinary (fun _ => []) "t" (Tlv.ofValue nulls).bytes = .ok inv ∧
      inv.argsLen = 5001 ∧ (jsonText (fun _ => []) nulls)[4096]? = some 0x6e ∧
      inv.memory (inv.argsPtr + 4096) = 0x74 ∧
      ¬ SeesArguments (fun _ => []) luaWithoutBinary "t" (Tlv.ofValue nulls).bytes := by
  have hdecode := withinLimits_nulls.decode []
  rw [List.append_nil] at hdecode
  have htext : (jsonText (fun _ => []) nulls).length = 5001 := length_jsonText_nulls 999
  have hcapacity : luaWithoutBinary.capacity = 4096 := rfl
  obtain ⟨inv, hinv⟩ : ∃ inv, luaWithoutBinary.invoke false "t" (jsonText (fun _ => []) nulls) = .ok inv :=
    ⟨_, invoke_eq_ok.mpr ⟨by rw [htext]; decide, by decide +kernel, rfl⟩⟩
  have hcall : luaWithoutBinary.callWasmToolBinary (fun _ => []) "t" (Tlv.ofValue nulls).bytes = .ok inv :=
    callWasmToolBinary_eq_ok.mpr
      ⟨by rw [length_bytes_nulls, hcapacity]; decide, by decide, Or.inr ⟨Or.inr rfl, nulls, _, hdecode, hinv⟩⟩
  have hbad : ¬ SeesArguments (fun _ => []) luaWithoutBinary "t" (Tlv.ofValue nulls).bytes := by
    intro hsees
    obtain ⟨args, hencodes, hsees⟩ := hsees inv hcall
    have hargs : args = jsonText (fun _ => []) nulls := by
      obtain ⟨-, -, rfl⟩ := invoke_eq_ok.mp hinv
      obtain ⟨v, n, hv, rfl⟩ := hencodes
      obtain ⟨rfl, -⟩ := Outcome.ok_pair_inj (hdecode.symm.trans hv)
      rfl
    rw [hargs, sees_iff_of_invoke hinv, htext, hcapacity] at hsees
    exact absurd hsees (by decide)
  have hptr : inv.argsPtr + 4096 = inv.namePtr + 0 ∧ inv.argsLen = 5001 := by
    obtain ⟨-, -, rfl⟩ := invoke_eq_ok.mp hinv
    exact ⟨rfl, by simp only [htext]; decide⟩
  refine ⟨inv, hcall, hptr.2, by decide +kernel, ?_, hbad⟩
  rw [hptr.1, nameHeld_of_invoke hinv 0 (by decide +kernel)]
  decide +kernel

end VelocityMcp.Wasm
