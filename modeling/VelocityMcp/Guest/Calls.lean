import VelocityMcp.Guest.MicroPython
import VelocityMcp.Lib.Machine

/-!
# Guest.Calls — tool calls in the Lua and in the MicroPython guest

`OwnSource`: when the call's arguments are there to be found.  The heaps of the guests and the Lua stack are taken to
have room.
-/

namespace VelocityMcp.Guest

open Lib

/-- How the code of a tool ends. -/
inductive Outcome (ε : Type) where
  | finished
  /-- An error is raised, and caught where the tool was called. -/
  | raised (error : ε)
  /-- An error is raised that is not caught: the call does not return. -/
  | trapped

/-- `ARGS_BUF_SIZE`; the last byte ends the text. -/
def argsBufSize : ℕ := 4096

/-- What `args_buf` keeps. -/
def inArgsBuf (args : Bytes) : Bytes := args.take (argsBufSize - 1)

def cString (b : Bytes) : Bytes := b.takeWhile (· ≠ 0)

/-! ## Lua -/

namespace Lua

/-- What `json_encode_value` finds on its way through a value. -/
inductive View where
  /-- No table; this is its JSON. -/
  | scalar (text : Bytes)
  /-- A table with so many entries, all of them items in order; and what is found up to its length. -/
  | array (entries : ℕ) (items : List View)
  /-- The same, but asking for its length raises an error. -/
  | lenRaises (entries : ℕ)
  /-- Any other table, of which so many entries are looked at first; with the JSON of its keys. -/
  | object (entries : ℕ) (key : Bytes) (first : View) (rest : List (Bytes × View))

namespace View

mutual

/-- `json_encode_value`, with so many levels left: the text that is added, unless an error is raised. -/
def text : View → ℕ → Option Bytes
  | _, 0 => some (utf8 "null")
  | scalar t, _ + 1 => some t
  | lenRaises _, _ + 1 => none
  | array _ [], _ + 1 => some (utf8 "[]")
  | array _ (v :: vs), d + 1 => do
    let item ← text v d
    let items ← itemsText vs d
    return utf8 "[" ++ item ++ items ++ utf8 "]"
  | object _ k v ms, d + 1 => do
    let first ← text v d
    let rest ← membersText ms d
    return utf8 "\x7b" ++ k ++ utf8 ":" ++ first ++ rest ++ utf8 "\x7d"

def itemsText : List View → ℕ → Option Bytes
  | [], _ => some []
  | v :: vs, d => do
    let item ← text v d
    let items ← itemsText vs d
    return utf8 "," ++ item ++ items

def membersText : List (Bytes × View) → ℕ → Option Bytes
  | [], _ => some []
  | (k, v) :: ms, d => do
    let member ← text v d
    let rest ← membersText ms d
    return utf8 "," ++ k ++ utf8 ":" ++ member ++ rest

end

end View

/-- What the code of a tool does with the bridge. -/
inductive Use where
  | getToolArgs
  | setToolResult (v : View)
  | jsonEncode (v : View)
  | jsonDecode (text : Bytes)
  | tlvDecodeToLua (tlv : Bytes)
  /-- `print`, with the texts of its arguments. -/
  | print (texts : List Bytes)
  /-- The table in the registry slot is changed, by the code that it was handed to. -/
  | edit (f : LuaTable → LuaTable)
  /-- The registry slot itself is changed, through the debug library. -/
  | setSlot (v : LuaValue)

/-- One run of the code of a tool; an error may have a text.  So many values are returned. -/
structure Body where
  uses : List Use
  outcome : Outcome (Option Bytes)
  results : ℕ

/-- What the bridge keeps from one call to the next. -/
structure State where
  /-- `L` is not NULL. -/
  ready : Bool
  argsBuf : Bytes
  /-- `__tool_args_binary`, in the registry. -/
  slot : LuaValue
  /-- The names in `__tool_wrappers`, in the registry. -/
  wrappers : Option (List Bytes)
  output : Bytes

/-- Before `lua_wasi_init`. -/
def State.fresh : State := ⟨false, [], .nil, none, []⟩

/-- What comes of a call: the state, the number that is returned, if the call returns (zero, where there is none), and
what has been used, each in its state. -/
structure Ran where
  state : State
  status : Option Int
  used : List (State × Use)

def outputBufSize : ℕ := 256 * 1024

namespace State

variable (strtod : Strtod) (s : State)

/-- `output_append`. -/
def append (text : Bytes) : State := { s with output := (s.output ++ text).take (outputBufSize - 1) }

/-- `c_get_tool_args`. -/
def getToolArgs : LuaValue :=
  match s.slot with
  | .nil => (jpParseValue strtod s.argsBuf).value
  | v => v

/-- `lua_wasi_print`. -/
def print : List Bytes → State
  | [] => s.append (utf8 "\n")
  | text :: texts =>
    let s := (s.append (utf8 "\n")).append text
    (texts.foldl (fun s text => (s.append (utf8 "\t")).append text) s).append (utf8 "\n")

/-- What is changed by one use. -/
def after : Use → State
  | .setToolResult v =>
    let s := { s with output := [] }
    ((v.text (maxDepth + 1)).map s.append).getD s
  | .print texts => s.print texts
  | .edit f =>
    match s.slot with
    | .table content => { s with slot := .table (f content) }
    | _ => s
  | .setSlot v => { s with slot := v }
  | .getToolArgs | .jsonEncode _ | .jsonDecode _ | .tlvDecodeToLua _ => s

/-- The code of a tool runs; `retire` is done when it has finished. -/
def run (body : Body) (retire : State → State) (newline : Bytes) : Ran :=
  let t := body.uses.foldl after s
  match body.outcome with
  | .finished => ⟨retire t, some 0, trace after s body.uses⟩
  | .raised none => ⟨t, some (-1), trace after s body.uses⟩
  | .raised (some text) => ⟨t.append (cString text ++ newline), some (-1), trace after s body.uses⟩
  | .trapped => ⟨t, none, trace after s body.uses⟩

/-- The wrapper is looked up and called; the length that is given for the first text is short of it. -/
def callWrapper (name : Bytes) (body : Body) (retire : State → State) : Ran :=
  match s.wrappers with
  | none => ⟨s.append ((utf8 "No tools registered").take 17), some (-1), []⟩
  | some names =>
    if name ∈ names then s.run body retire []
    else ⟨s.append (utf8 "Unknown tool"), some (-1), []⟩

/-- `lua_wasi_call_tool`. -/
def callTool (args name : Bytes) (body : Body) : Ran :=
  if s.ready then { s with slot := .nil, argsBuf := inArgsBuf args, output := [] }.callWrapper name body id
  else ⟨s, some (-1), []⟩

/-- `lua_wasi_call_tool_binary`. -/
def callToolBinary (tlv name : Bytes) (body : Body) : Ran :=
  if s.ready then
    let s := { s with output := [] }
    if (tlvDecodeValue tlv).ok then
      { s with slot := (tlvDecodeValue tlv).value }.callWrapper name body fun t => { t with slot := .nil }
    else ⟨s.append (utf8 "TLV decode error"), some (-1), []⟩
  else ⟨s, some (-1), []⟩

/-- `lua_wasi_set_args`. -/
def setArgs (args : Bytes) : State := { s with argsBuf := inArgsBuf args }

/-- `lua_wasi_register_wrapper`; a source that cannot be compiled has an error text. -/
def registerWrapper (name : Bytes) (error : Option Bytes) : Ran :=
  if s.ready then
    match error with
    | some text => ⟨s.append (cString text), some (-1), []⟩
    | none => ⟨{ s with wrappers := some (name :: s.wrappers.getD []) }, some 0, []⟩
  else ⟨s, some (-1), []⟩

/-- `lua_wasi_exec`; a source that cannot be compiled has an error text. -/
def exec (source : Except Bytes Body) : Ran :=
  if s.ready then
    let s := { s with output := [] }
    match source with
    | .error text => ⟨s.append (cString text ++ utf8 "\n"), some (-1), []⟩
    | .ok body => s.run body id (utf8 "\n")
  else ⟨s, some (-1), []⟩

/-- `lua_wasi_init`, where there is room for a new state or not. -/
def init (room : Bool) : Ran :=
  if room then ⟨⟨true, s.argsBuf, .nil, none, []⟩, some 0, []⟩
  else ⟨{ s with ready := false }, some (-1), []⟩

/-- `lua_wasi_destroy`. -/
def destroy : State := { s with ready := false }

end State

/-- The exported functions. -/
inductive Action where
  | init (room : Bool)
  | destroy
  | registerWrapper (name : Bytes) (error : Option Bytes)
  | callTool (args name : Bytes) (body : Body)
  | callToolBinary (tlv name : Bytes) (body : Body)
  | setArgs (args : Bytes)
  | exec (source : Except Bytes Body)

namespace State

variable (s : State)

def perform : Action → Ran
  | .init room => s.init room
  | .destroy => ⟨s.destroy, some 0, []⟩
  | .registerWrapper name error => s.registerWrapper name error
  | .callTool args name body => s.callTool args name body
  | .callToolBinary tlv name body => s.callToolBinary tlv name body
  | .setArgs args => ⟨s.setArgs args, some 0, []⟩
  | .exec source => s.exec source

/-- The exported functions; what the code of a tool does is chosen from outside. -/
def step (a : Action) : State := (s.perform a).state

end State

/-! ### What is found by `get_tool_args` -/

section OwnArgs

variable (strtod : Strtod)

def Action.ownArgs : Action → Option LuaValue
  | .callTool args _ _ => some (jpParseValue strtod args).value
  | .callToolBinary tlv _ _ => some (tlvDecodeValue tlv).value
  | _ => none

/-- **`get_tool_args` returns what the call's own bytes stand for**, each time that it is used. -/
def State.OwnArgs (s : State) (a : Action) : Prop :=
  ∀ v, a.ownArgs strtod = some v → ∀ t, (t, Use.getToolArgs) ∈ (s.perform a).used → t.getToolArgs strtod = v

/-- What changes the arguments of the call, after a binary call or after a JSON call. -/
def Use.Changes (binary : Bool) : Use → Prop
  | .edit _ => binary = true
  | .setSlot _ => True
  | _ => False

/-- The arguments are not changed before they are asked for. -/
def Body.Undisturbed (body : Body) (binary : Bool) : Prop :=
  body.uses.Pairwise fun u w => u.Changes binary → w ≠ .getToolArgs

/-- The tool's body leaves its arguments as they came, until it has asked for them. -/
def Action.Undisturbed : Action → Prop
  | .callTool _ _ body => body.Undisturbed false
  | .callToolBinary _ _ body => body.Undisturbed true
  | _ => True

def State.Asked (s : State) (name : Bytes) (body : Body) : Prop :=
  s.ready = true ∧ (∃ names, s.wrappers = some names ∧ name ∈ names) ∧ .getToolArgs ∈ body.uses

/-- The call's own arguments are there to be found: what `args_buf` keeps of a JSON text stands for the same; and with
the binary arguments null, null is what the text in `args_buf` stands for. -/
def State.OwnSource (s : State) : Action → Prop
  | .callTool args name body =>
    s.Asked name body → (jpParseValue strtod (inArgsBuf args)).value = (jpParseValue strtod args).value
  | .callToolBinary tlv name body =>
    s.Asked name body → tlv.head? = some 0x04 → (jpParseValue strtod s.argsBuf).value = .nil
  | _ => True

end OwnArgs

section Calls

variable {s t : State} {u : Use} {us : List Use} {body : Body} {binary : Bool} {strtod : Strtod} {v : LuaValue}

theorem print_eq (s : State) (texts : List Bytes) : ∃ out, s.print texts = { s with output := out } := by
  cases texts with
  | nil => exact ⟨_, rfl⟩
  | cons text texts =>
    have hfold : ∀ s : State, ∃ out, texts.foldl (fun s text => (s.append (utf8 "\t")).append text) s =
        { s with output := out } := by
      induction texts with
      | nil => exact fun s => ⟨s.output, rfl⟩
      | cons text texts ih =>
        intro s
        obtain ⟨out, hout⟩ := ih ((s.append (utf8 "\t")).append text)
        exact ⟨out, hout⟩
    obtain ⟨out, hout⟩ := hfold ((s.append (utf8 "\n")).append text)
    have hprint : s.print (text :: texts) = (texts.foldl (fun s text => (s.append (utf8 "\t")).append text)
        ((s.append (utf8 "\n")).append text)).append (utf8 "\n") := rfl
    rw [hprint, hout]
    exact ⟨_, rfl⟩

/-- Only the output is changed; after a JSON call there is nothing in the slot to edit. -/
theorem after_eq (h : ¬ u.Changes binary) (hslot : binary = false → s.slot = .nil) :
    ∃ out, s.after u = { s with output := out } := by
  cases u with
  | setToolResult v =>
    rw [State.after]
    cases v.text (maxDepth + 1) <;> exact ⟨_, rfl⟩
  | print texts => exact print_eq s texts
  | edit f =>
    have hafter : s.after (.edit f) = s := by rw [State.after, hslot (Bool.eq_false_iff.mpr h)]
    exact ⟨s.output, hafter⟩
  | setSlot v => exact absurd trivial h
  | _ => exact ⟨s.output, rfl⟩

theorem forall_used_iff (hbody : body.Undisturbed binary) (hslot : binary = false → s.slot = .nil) :
    (∀ t, (t, Use.getToolArgs) ∈ trace State.after s body.uses → t.getToolArgs strtod = v) ↔
      (.getToolArgs ∈ body.uses → s.getToolArgs strtod = v) := by
  refine forall_trace_iff (I := fun s => binary = false → s.slot = .nil) (fun s u hs hu => ?_) hslot hbody
  obtain ⟨out, hout⟩ := after_eq hu hs
  rw [hout]
  exact ⟨hs, rfl⟩

theorem run_used (s : State) (body : Body) (retire : State → State) (newline : Bytes) :
    (s.run body retire newline).used = trace State.after s body.uses := by
  unfold State.run
  dsimp only
  split <;> rfl

theorem forall_callWrapper_iff {retire : State → State} {name : Bytes} (hready : s.ready = true)
    (hbody : body.Undisturbed binary) (hslot : binary = false → s.slot = .nil) :
    (∀ t, (t, Use.getToolArgs) ∈ (s.callWrapper name body retire).used → t.getToolArgs strtod = v) ↔
      (s.Asked name body → s.getToolArgs strtod = v) := by
  unfold State.callWrapper State.Asked
  cases hwrappers : s.wrappers with
  | none => simp
  | some names =>
    by_cases hname : name ∈ names
    · simp only [if_pos hname, run_used, forall_used_iff hbody hslot]
      simp [hready, hname]
    · simp [hname]

theorem getToolArgs_eq_slot_iff (strtod : Strtod) (s : State) :
    s.getToolArgs strtod = s.slot ↔ (s.slot = .nil → (jpParseValue strtod s.argsBuf).value = .nil) := by
  unfold State.getToolArgs
  cases s.slot <;> simp

theorem tlvDecodeValue_eq_null_iff {tlv : Bytes} :
    ((tlvDecodeValue tlv).ok = true ∧ (tlvDecodeValue tlv).value = .nil) ↔ tlv.head? = some 0x04 := by
  cases tlv with
  | nil => simp [tlvDecodeValue, tlvRead, LuaRead.ok]
  | cons tag s =>
    unfold tlvDecodeValue tlvRead tlvTag tlvBool tlvInteger tlvFloat tlvString tlvArray tlvObject
    simp only [List.head?_cons, Option.some.injEq]
    split_ifs with h4 h3 h2 h7 h1 h5 h6
    · simp [LuaRead.ok, LuaRead.value, h4]
    · cases s <;> simp [LuaRead.ok, LuaRead.value, h4]
    · cases takeNat 8 s <;> simp [LuaRead.ok, LuaRead.value, h4]
    · cases takeNat 8 s <;> simp [LuaRead.ok, LuaRead.value, h4]
    · cases takeNat 4 s with
      | none => simp [LuaRead.ok, h4]
      | some r =>
        dsimp only
        split_ifs
        · simp [LuaRead.ok, h4]
        · cases takeBytes r.1 r.2 <;> simp [LuaRead.ok, LuaRead.value, h4]
    · cases takeNat 4 s with
      | none => simp [LuaRead.ok, h4]
      | some r =>
        dsimp only
        split_ifs
        · simp [LuaRead.ok, h4]
        · simp [LuaRead.value, h4]
    · cases takeNat 4 s with
      | none => simp [LuaRead.ok, h4]
      | some r =>
        dsimp only
        split_ifs
        · simp [LuaRead.ok, h4]
        · simp [LuaRead.value, h4]
    · simp [LuaRead.ok, h4]

/-- **When a call finds its own arguments.** -/
theorem ownArgs_iff {a : Action} (h : a.Undisturbed) : s.OwnArgs strtod a ↔ s.OwnSource strtod a := by
  cases a with
  | callTool args name body =>
    unfold State.OwnArgs State.OwnSource State.perform State.callTool Action.ownArgs
    by_cases hready : s.ready
    · simp only [if_pos hready, Option.some.injEq, forall_eq']
      exact forall_callWrapper_iff (s := { s with slot := .nil, argsBuf := inArgsBuf args, output := [] }) hready h
        fun _ => rfl
    · simp [hready, State.Asked]
  | callToolBinary tlv name body =>
    unfold State.OwnArgs State.OwnSource State.perform State.callToolBinary Action.ownArgs
    by_cases hready : s.ready
    · simp only [if_pos hready, Option.some.injEq, forall_eq']
      by_cases hok : (tlvDecodeValue tlv).ok
      · simp only [if_pos hok]
        rw [forall_callWrapper_iff (s := { s with slot := (tlvDecodeValue tlv).value, output := [] }) hready h
          fun hf => absurd hf (by decide)]
        refine imp_congr_right fun _ => (getToolArgs_eq_slot_iff _ _).trans ?_
        rw [← tlvDecodeValue_eq_null_iff]
        exact ⟨fun hnull hboth => hnull hboth.2, fun hnull hnil => hnull ⟨hok, hnil⟩⟩
      · have hnull : tlv.head? ≠ some 0x04 := fun hhead => hok (tlvDecodeValue_eq_null_iff.mpr hhead).1
        simp [hok, hnull]
    · simp [hready, State.Asked]
  | _ =>
    refine ⟨fun _ => trivial, fun _ v hv => ?_⟩
    cases hv

end Calls

end Lua

/-! ## MicroPython -/

namespace MicroPython

/-- What the code of a tool does with the bridge. -/
inductive Use where
  | getToolArgs
  /-- `set_tool_result`, with the JSON of its argument. -/
  | setToolResult (text : Bytes)
  | print (text : Bytes)
  /-- The dict that is kept for `get_tool_args` is changed, by the code that it was handed to. -/
  | editDict (f : PyDict → PyDict)
  | editList (f : List PyValue → List PyValue)

/-- One run of the code of a tool; an exception has a text. -/
structure Body where
  uses : List Use
  outcome : Outcome Bytes

/-- What the reactor keeps from one call to the next. -/
structure State where
  argsBuf : Bytes
  /-- `s_tlv_decoded_args`, if it is not NULL. -/
  decoded : Option PyValue
  /-- The names in `tool_registry`. -/
  tools : List Bytes
  output : Bytes

def State.fresh : State := ⟨[], none, [], []⟩

/-- What comes of a call: the state, the number that is returned, if the call returns, and what has been used, each in
its state. -/
structure Ran where
  state : State
  status : Option Int
  used : List (State × Use)

def maxTools : ℕ := 64

/-- The room for the name of a tool, and its end. -/
def nameSize : ℕ := 64

namespace State

variable (strtod : Strtod) (beyond : Beyond) (s : State)

/-- `output_append`. -/
def append (text : Bytes) : State := { s with output := s.output ++ text }

/-- `mp_wasi_get_tool_args`. -/
def getToolArgs : Option PyValue :=
  match s.decoded with
  | none | some .none => mjpParseValue strtod s.argsBuf
  | some v => some v

/-- What is changed by one use. -/
def after : Use → State
  | .getToolArgs => s
  | .setToolResult text => { s with output := text }
  | .print text => s.append text
  | .editDict f =>
    match s.decoded with
    | some (.dict d) => { s with decoded := some (.dict (f d)) }
    | _ => s
  | .editList f =>
    match s.decoded with
    | some (.list l) => { s with decoded := some (.list (f l)) }
    | _ => s

def run (body : Body) (failure : Int) : Ran :=
  let t := body.uses.foldl after s
  match body.outcome with
  | .finished => ⟨t, some 0, trace after s body.uses⟩
  | .raised text => ⟨t.append text, some failure, trace after s body.uses⟩
  | .trapped => ⟨t, none, trace after s body.uses⟩

/-- `mp_wasi_register_tool`, with what comes of compiling the source. -/
def registerTool (name : Bytes) (compiled : Outcome Bytes) : Ran :=
  if maxTools ≤ s.tools.length then ⟨s, some (-1), []⟩
  else if nameSize ≤ name.length then ⟨s, some (-2), []⟩
  else
    match compiled with
    | .finished => ⟨{ s with tools := s.tools ++ [cString name] }, some 0, []⟩
    | .raised text => ⟨s.append text, some (-3), []⟩
    | .trapped => ⟨s, none, []⟩

/-- `mp_wasi_call_tool`. -/
def callTool (args name : Bytes) (body : Body) : Ran :=
  let s := { s with argsBuf := inArgsBuf args, output := [], decoded := some .none }
  if name ∈ s.tools then s.run body (-2) else ⟨s.append (utf8 "Unknown tool"), some (-1), []⟩

/-- `mp_wasi_call_tool_binary`; nothing catches what the decoder raises. -/
def callToolBinary (tlv name : Bytes) (body : Body) : Ran :=
  let s := { s with output := [] }
  if name ∈ s.tools then
    match pyDecodeValue beyond tlv with
    | none => ⟨s, none, []⟩
    | some v => { s with decoded := some v }.run body (-2)
  else ⟨s.append (utf8 "Unknown tool"), some (-1), []⟩

/-- `mp_wasi_set_args`. -/
def setArgs (args : Bytes) : State := { s with argsBuf := inArgsBuf args }

/-- `mp_wasi_exec`, and `mp_wasi_exec_expr`, which prints what comes of it. -/
def exec (body : Body) : Ran := { s with output := [] }.run body (-1)

end State

/-- The exported functions; source that cannot be compiled raises. -/
inductive Action where
  | registerTool (name : Bytes) (compiled : Outcome Bytes)
  | callTool (args name : Bytes) (body : Body)
  | callToolBinary (tlv name : Bytes) (body : Body)
  | setArgs (args : Bytes)
  | exec (body : Body)

namespace State

variable (beyond : Beyond) (s : State)

def perform : Action → Ran
  | .registerTool name compiled => s.registerTool name compiled
  | .callTool args name body => s.callTool args name body
  | .callToolBinary tlv name body => s.callToolBinary beyond tlv name body
  | .setArgs args => ⟨s.setArgs args, some 0, []⟩
  | .exec body => s.exec body

/-- The state after an action. -/
def step (a : Action) : State := (s.perform beyond a).state

end State

/-! ### What is found by `get_tool_args` -/

section OwnArgs

variable (strtod : Strtod) (beyond : Beyond)

/-- What the bytes of a call stand for; nothing, if the decoder raises an exception. -/
def Action.ownArgs : Action → Option (Option PyValue)
  | .callTool args _ _ => some (mjpParseValue strtod args)
  | .callToolBinary tlv _ _ => some (pyDecodeValue beyond tlv)
  | _ => none

/-- **`get_tool_args` returns what the call's own bytes stand for**, each time that it is used. -/
def State.OwnArgs (s : State) (a : Action) : Prop :=
  ∀ v, a.ownArgs strtod beyond = some v →
    ∀ t, (t, Use.getToolArgs) ∈ (s.perform beyond a).used → t.getToolArgs strtod = v

/-- What changes the arguments of the call, after a binary call or after a JSON call. -/
def Use.Changes (binary : Bool) : Use → Prop
  | .editDict _ | .editList _ => binary = true
  | _ => False

/-- The arguments are not changed before they are asked for. -/
def Body.Undisturbed (body : Body) (binary : Bool) : Prop :=
  body.uses.Pairwise fun u w => u.Changes binary → w ≠ .getToolArgs

/-- As for Lua: the tool's body leaves its arguments alone until it has asked for them. -/
def Action.Undisturbed : Action → Prop
  | .callTool _ _ body => body.Undisturbed false
  | .callToolBinary _ _ body => body.Undisturbed true
  | _ => True

def State.Asked (s : State) (name : Bytes) (body : Body) : Prop := name ∈ s.tools ∧ .getToolArgs ∈ body.uses

/-- The call's own arguments are there to be found: what `args_buf` keeps of a JSON text stands for the same; and with
the binary arguments null, null is what the text in `args_buf` stands for. -/
def State.OwnSource (s : State) : Action → Prop
  | .callTool args name body => s.Asked name body → mjpParseValue strtod (inArgsBuf args) = mjpParseValue strtod args
  | .callToolBinary tlv name body =>
    s.Asked name body → tlv.head? = some 0x04 → mjpParseValue strtod s.argsBuf = some .none
  | _ => True

end OwnArgs

section Calls

variable {s : State} {u : Use} {body : Body} {binary : Bool} {strtod : Strtod} {beyond : Beyond} {v : Option PyValue}

/-- Only the output is changed; after a JSON call nothing is kept that can be edited. -/
theorem after_eq (h : ¬ u.Changes binary) (hdecoded : binary = false → s.decoded = some .none) :
    ∃ out, s.after u = { s with output := out } := by
  cases u with
  | editDict f =>
    have hafter : s.after (.editDict f) = s := by rw [State.after, hdecoded (Bool.eq_false_iff.mpr h)]
    exact ⟨s.output, hafter⟩
  | editList f =>
    have hafter : s.after (.editList f) = s := by rw [State.after, hdecoded (Bool.eq_false_iff.mpr h)]
    exact ⟨s.output, hafter⟩
  | _ => exact ⟨_, rfl⟩

theorem forall_run_iff {failure : Int} (hbody : body.Undisturbed binary)
    (hdecoded : binary = false → s.decoded = some .none) :
    (∀ t, (t, Use.getToolArgs) ∈ (s.run body failure).used → t.getToolArgs strtod = v) ↔
      (.getToolArgs ∈ body.uses → s.getToolArgs strtod = v) := by
  have hrun : (s.run body failure).used = trace State.after s body.uses := by
    unfold State.run
    dsimp only
    split <;> rfl
  rw [hrun]
  refine forall_trace_iff (I := fun s => binary = false → s.decoded = some .none) (fun s u hs hu => ?_) hdecoded hbody
  obtain ⟨out, hout⟩ := after_eq hu hs
  rw [hout]
  exact ⟨hs, rfl⟩

theorem pyTag_eq_none_iff {value : TlvParser → Option (PyValue × TlvParser)} {tag : ℕ} {p : TlvParser} :
    (pyTag beyond value tag p).map Prod.fst = some .none ↔ tag = 0x04 := by
  unfold pyTag
  split
  · unfold pyString
    dsimp only
    split_ifs <;> simp
  · simp
  · simp
  · simp
  · simp
  · simp
  · simp
  · simpa using ‹tag = 0x04 → False›

theorem pyDecodeValue_eq_none_iff {tlv : Bytes} : pyDecodeValue beyond tlv = some .none ↔ tlv.head? = some 0x04 := by
  cases tlv with
  | nil =>
    have hzero : pyDecodeValue beyond [] = (pyTag beyond (pyRead beyond maxDepth) 0 ⟨[], 0⟩).map Prod.fst := rfl
    rw [hzero, pyTag_eq_none_iff]
    simp
  | cons tag s =>
    have hnat : tag.toNat = 0x04 ↔ tag = 0x04 := by rw [← UInt8.toNat_inj]; rfl
    rw [pyDecodeValue, pyRead_cons, pyTag_eq_none_iff, hnat, List.head?_cons, Option.some.injEq]

theorem getToolArgs_eq_iff (strtod : Strtod) (s : State) (v : PyValue) (h : s.decoded = some v) :
    s.getToolArgs strtod = some v ↔ (v = .none → mjpParseValue strtod s.argsBuf = some .none) := by
  unfold State.getToolArgs
  rw [h]
  cases v <;> simp

/-- **When a call finds its own arguments.** -/
theorem ownArgs_iff {a : Action} (h : a.Undisturbed) : s.OwnArgs strtod beyond a ↔ s.OwnSource strtod a := by
  cases a with
  | callTool args name body =>
    unfold State.OwnArgs State.OwnSource State.perform State.callTool Action.ownArgs
    simp only [Option.some.injEq, forall_eq']
    by_cases hname : name ∈ s.tools
    · simp only [State.Asked, hname, true_and, if_true]
      exact forall_run_iff h fun _ => rfl
    · simp [hname, State.Asked]
  | callToolBinary tlv name body =>
    unfold State.OwnArgs State.OwnSource State.perform State.callToolBinary Action.ownArgs
    simp only [Option.some.injEq, forall_eq']
    by_cases hname : name ∈ s.tools
    · simp only [State.Asked, hname, true_and, if_true]
      rw [← @pyDecodeValue_eq_none_iff beyond]
      cases hv : pyDecodeValue beyond tlv with
      | none => simp
      | some v =>
        dsimp only
        rw [forall_run_iff h fun hf => absurd hf (by decide)]
        refine imp_congr_right fun _ => ?_
        rw [Option.some.injEq]
        exact getToolArgs_eq_iff strtod { s with decoded := some v, output := [] } v rfl
    · simp [hname, State.Asked]
  | _ =>
    refine ⟨fun _ => trivial, fun _ v hv => ?_⟩
    cases hv

end Calls

end MicroPython

/-! ## Runs -/

/-- **When every call of a run finds its own arguments**, in either guest, if no tool changes them before it asks. -/
theorem run_ownArgs_iff (strtod : Strtod) (beyond : Beyond) :
    (∀ s as, Along Lua.State.step (fun _ a => a.Undisturbed) s as →
      (Along Lua.State.step (Lua.State.OwnArgs strtod) s as ↔ Along Lua.State.step (Lua.State.OwnSource strtod) s as)) ∧
    ∀ s as, Along (MicroPython.State.step beyond) (fun _ a => a.Undisturbed) s as →
      (Along (MicroPython.State.step beyond) (MicroPython.State.OwnArgs strtod beyond) s as ↔
        Along (MicroPython.State.step beyond) (MicroPython.State.OwnSource strtod) s as) :=
  ⟨fun _ _ h => h.iff_of fun _ _ => Lua.ownArgs_iff, fun _ _ h => h.iff_of fun _ _ => MicroPython.ownArgs_iff⟩

/-- The tool `t`, which asks for its arguments. -/
def toolName : Bytes := [0x74]

def Lua.asks : Lua.Body := ⟨[.getToolArgs], .finished, 0⟩

def MicroPython.asks : MicroPython.Body := ⟨[.getToolArgs], .finished⟩

/-- `{"a":1}`. -/
def objectText : Bytes := [0x7b, 0x22, 0x61, 0x22, 0x3a, 0x31, 0x7d]

/-- The tool is called with an object, and then with the binary arguments `tlv`. -/
def Lua.twoCalls (tlv : Bytes) : List Lua.Action :=
  [.init true, .registerWrapper toolName none, .callTool objectText toolName Lua.asks,
    .callToolBinary tlv toolName Lua.asks]

def MicroPython.twoCalls (tlv : Bytes) : List MicroPython.Action :=
  [.registerTool toolName .finished, .callTool objectText toolName MicroPython.asks,
    .callToolBinary tlv toolName MicroPython.asks]

theorem Lua.undisturbed_twoCalls (tlv : Bytes) :
    Along Lua.State.step (fun _ a => a.Undisturbed) Lua.State.fresh (Lua.twoCalls tlv) :=
  ⟨trivial, trivial, List.pairwise_singleton _ _, List.pairwise_singleton _ _, trivial⟩

theorem MicroPython.undisturbed_twoCalls (tlv : Bytes) :
    Along (MicroPython.State.step 0) (fun _ a => a.Undisturbed) MicroPython.State.fresh (MicroPython.twoCalls tlv) :=
  ⟨trivial, List.pairwise_singleton _ _, List.pairwise_singleton _ _, trivial⟩

/-- After a JSON call, binary arguments that are empty objects are found. -/
theorem run_ownArgs_iff_twoCalls :
    Along Lua.State.step (Lua.State.OwnArgs fun _ => 0) Lua.State.fresh (Lua.twoCalls [0x06, 0, 0, 0, 0]) ∧
      Along (MicroPython.State.step 0) (MicroPython.State.OwnArgs (fun _ => 0) 0) MicroPython.State.fresh
        (MicroPython.twoCalls [0x06, 0, 0, 0, 0]) := by
  have hno : [0x06, 0, 0, 0, 0].head? ≠ some (0x04 : UInt8) := by decide
  refine ⟨((run_ownArgs_iff _ 0).1 _ _ (Lua.undisturbed_twoCalls _)).mpr ?_,
    ((run_ownArgs_iff _ 0).2 _ _ (MicroPython.undisturbed_twoCalls _)).mpr ?_⟩
  · exact ⟨trivial, trivial, fun _ => rfl, fun _ hnull => absurd hnull hno, trivial⟩
  · exact ⟨trivial, fun _ => rfl, fun _ hnull => absurd hnull hno, trivial⟩

/-- With null for binary arguments, the arguments of the JSON call before are found. -/
theorem args_left_by_earlier_call :
    (¬ ∀ as, Along Lua.State.step (Lua.State.OwnArgs fun _ => 0) Lua.State.fresh as) ∧
      ¬ ∀ as, Along (MicroPython.State.step 0) (MicroPython.State.OwnArgs (fun _ => 0) 0)
        MicroPython.State.fresh as := by
  constructor
  · intro h
    obtain ⟨-, -, -, hbinary, -⟩ := h (Lua.twoCalls [0x04])
    have hund := (Lua.undisturbed_twoCalls [0x04]).2.2.2.1
    have hnil := (Lua.ownArgs_iff hund).mp hbinary
      ⟨rfl, ⟨_, rfl, List.mem_singleton_self _⟩, List.mem_singleton_self _⟩ rfl
    cases hnil
  · intro h
    obtain ⟨-, -, hbinary, -⟩ := h (MicroPython.twoCalls [0x04])
    have hund := (MicroPython.undisturbed_twoCalls [0x04]).2.2.1
    have hnone := (MicroPython.ownArgs_iff hund).mp hbinary ⟨List.mem_singleton_self _, List.mem_singleton_self _⟩ rfl
    cases hnone

end VelocityMcp.Guest
