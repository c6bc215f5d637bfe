import VelocityMcp.Guest.Calls
import VelocityMcp.Lib.ValueStack

/-!
# Guest.Stack — the stack of the Lua guest (`lua_wasi.c`)

`disciplined_iff`: when calls keep to the slots of the stack and leave nothing behind.  The temporaries of
`luaL_tolstring` are not counted.
-/

namespace VelocityMcp.Guest

open Lib

/-! ## The decoders -/

namespace LuaRead

def bufferOps (chars : Bytes) : List StackOp := .openBuffer :: (List.replicate chars.length .add ++ [.closeBuffer])

def keyOps (keysBuilt : Bool) (key : Bytes) : List StackOp := if keysBuilt then bufferOps key else [.push]

mutual

/-- What a decoder does with the stack: a value is left, and more where it fails. -/
def stackOps : LuaRead → List StackOp
  | broken => [.push]
  | pushed _ => [.push]
  | built chars => bufferOps chars
  | array items => .push :: itemsOps items
  | object keysBuilt members cut => .push :: membersOps keysBuilt cut members

/-- An item is stored; after one that fails, one value is popped, and nil is pushed. -/
def itemsOps : List LuaRead → List StackOp
  | [] => []
  | r :: rs => stackOps r ++ (if ok r then .pop 1 :: itemsOps rs else [.pop 1, .push])

/-- A member is stored; after one that fails, two values are popped, and nil is pushed. -/
def membersOps (keysBuilt cut : Bool) : List (Bytes × LuaRead) → List StackOp
  | [] => if cut then [.pop 1, .push] else []
  | (k, r) :: ms =>
    keyOps keysBuilt k ++ (stackOps r ++ (if ok r then .pop 2 :: membersOps keysBuilt cut ms else [.pop 2, .push]))

end

mutual

/-- How many slots are needed. -/
def slots : LuaRead → ℕ
  | broken => 1
  | pushed _ => 1
  | built _ => 1
  | array items => 1 + itemsSlots items
  | object _ members _ => 1 + membersSlots members

def itemsSlots : List LuaRead → ℕ
  | [] => 0
  | r :: rs => if ok r then max (slots r) (itemsSlots rs) else slots r

def membersSlots : List (Bytes × LuaRead) → ℕ
  | [] => 0
  | (_, r) :: ms => if ok r then max (1 + slots r) (membersSlots ms) else 1 + slots r

end

mutual

/-- How many values are left. -/
def height : LuaRead → ℕ
  | broken => 1
  | pushed _ => 1
  | built _ => 1
  | array items => 1 + itemsHeight items
  | object _ members _ => 1 + membersHeight members

def itemsHeight : List LuaRead → ℕ
  | [] => 0
  | r :: rs => if ok r then itemsHeight rs else height r

@[grind =] def membersHeight : List (Bytes × LuaRead) → ℕ
  | [] => 0
  | (_, r) :: ms => if ok r then membersHeight ms else height r

end

mutual

theorem height_of_ok : (r : LuaRead) → r.ok = true → r.height = 1
  | broken, h => absurd h (by simp [ok])
  | pushed _, _ => rfl
  | built _, _ => rfl
  | array items, h => by rw [height, itemsHeight_of_ok items h]
  | object _ members cut, h => by
    rw [ok, Bool.and_eq_true] at h
    rw [height, membersHeight_of_ok members h.1]

theorem itemsHeight_of_ok : (rs : List LuaRead) → itemsOk rs = true → itemsHeight rs = 0
  | [], _ => rfl
  | r :: rs, h => by
    rw [itemsOk, Bool.and_eq_true] at h
    rw [itemsHeight, if_pos h.1, itemsHeight_of_ok rs h.2]

theorem membersHeight_of_ok : (ms : List (Bytes × LuaRead)) → membersOk ms = true → membersHeight ms = 0
  | [], _ => rfl
  | (_, r) :: ms, h => by
    rw [membersOk, Bool.and_eq_true] at h
    rw [membersHeight, if_pos h.1, membersHeight_of_ok ms h.2]

end

theorem height_pos (r : LuaRead) : 0 < r.height := by
  cases r with
  | array items => exact Nat.add_pos_left Nat.one_pos _
  | object keysBuilt members cut => exact Nat.add_pos_left Nat.one_pos _
  | _ => exact Nat.one_pos

theorem leaves_keyOps (keysBuilt : Bool) (key : Bytes) : Leaves (keyOps keysBuilt key) 1 1 := by
  unfold keyOps
  split_ifs
  · exact .buffer _
  · exact .push

mutual

/-- **What a decoder needs and leaves.** -/
theorem leaves_stackOps : (r : LuaRead) → Leaves r.stackOps r.slots r.height
  | broken => .push
  | pushed _ => .push
  | built _ => .buffer _
  | array items => by
    have h := leaves_itemsOps items .push
    exact h.of_eq (max_eq_right (by omega)) rfl
  | object keysBuilt members cut => by
    have h := leaves_membersOps keysBuilt cut members .push
    exact h.of_eq (max_eq_right (by omega)) rfl

theorem leaves_itemsOps : (rs : List LuaRead) → {ops : List StackOp} → {need : ℕ} → Leaves ops need 1 →
    Leaves (ops ++ itemsOps rs) (max need (1 + itemsSlots rs)) (1 + itemsHeight rs)
  | [], ops, need, h => by
    have hneed := h.1
    rw [itemsOps, List.append_nil]
    exact h.of_eq (by rw [itemsSlots]; omega) rfl
  | r :: rs, ops, need, h => by
    have hr := (leaves_stackOps r).1
    have hitem := (h.append (leaves_stackOps r)).pop (m := 1) (by omega)
    rw [itemsOps, itemsSlots, itemsHeight]
    split_ifs with hok
    · have hone := height_of_ok r hok
      have hrest := leaves_itemsOps rs (hitem.of_eq rfl (by omega))
      rw [List.append_assoc, List.append_assoc] at hrest
      exact hrest.of_eq (by omega) rfl
    · have hnil := hitem.append .push
      rw [List.append_assoc, List.append_assoc] at hnil
      exact hnil.of_eq (by omega) (by omega)

theorem leaves_membersOps (keysBuilt cut : Bool) : (ms : List (Bytes × LuaRead)) → {ops : List StackOp} → {need : ℕ} →
    Leaves ops need 1 →
      Leaves (ops ++ membersOps keysBuilt cut ms) (max need (1 + membersSlots ms)) (1 + membersHeight ms)
  | [], ops, need, h => by
    have hneed := h.1
    rw [membersOps, membersSlots, membersHeight]
    split_ifs
    · have hnil := (h.pop (m := 1) le_rfl).append .push
      rw [List.append_assoc] at hnil
      exact hnil.of_eq (by omega) rfl
    · rw [List.append_nil]
      exact h.of_eq (by omega) rfl
  | (k, r) :: ms, ops, need, h => by
    have hr := (leaves_stackOps r).1
    have hmember := ((h.append (leaves_keyOps keysBuilt k)).append (leaves_stackOps r)).pop (m := 2) (by omega)
    rw [membersOps, membersSlots, membersHeight]
    split_ifs with hok
    · have hone := height_of_ok r hok
      have hrest := leaves_membersOps keysBuilt cut ms (hmember.of_eq rfl (by omega))
      rw [List.append_assoc, List.append_assoc, List.append_assoc] at hrest
      exact hrest.of_eq (by omega) rfl
    · have hnil := hmember.append .push
      rw [List.append_assoc, List.append_assoc, List.append_assoc] at hnil
      exact hnil.of_eq (by omega) (by omega)

end

end LuaRead

namespace Lua

/-! ## The encoder -/

namespace View

/-- `lua_next` and one turn of the loop of `is_array_table`, for so many entries that are items. -/
def scanOps (entries : ℕ) : List StackOp :=
  [.push, .push] ++ (List.replicate entries [.pop 1, .push, .push, .pop 1]).flatten

/-- `is_array_table`, for a table all of whose entries are items. -/
def arrayScanOps (entries : ℕ) : List StackOp := scanOps entries ++ [.pop 1, .pop 1]

/-- `is_array_table`, up to an entry that is no item. -/
def objectScanOps (entries : ℕ) : List StackOp := scanOps entries ++ [.pop 1, .push, .push, .pop 2, .pop 1]

def keyTextOps (key : Bytes) : List StackOp := if key = [] then [] else [.add]

mutual

/-- What `json_encode_value` does with the stack, with so many levels left, and what is done after it; what is added in
a row is added at once. -/
@[grind =] def encodeOps : View → ℕ → List StackOp → List StackOp
  | _, 0, rest => .add :: rest
  | scalar _, _ + 1, rest => .add :: rest
  | lenRaises entries, _ + 1, _ => arrayScanOps entries ++ [.add]
  | array entries [], _ + 1, rest => arrayScanOps entries ++ .add :: .push :: .pop 1 :: .add :: rest
  | array entries (v :: vs), d + 1, rest =>
    arrayScanOps entries ++ .add :: .push :: .pop 1 :: .push :: encodeOps v d (.pop 1 :: encodeItemsOps vs d rest)
  | object entries k v ms, d + 1, rest =>
    objectScanOps entries ++ .add :: .push :: .push :: .pop 1 :: .push :: .push ::
      (keyTextOps k ++ .add :: encodeOps v d (.pop 1 :: encodeMembersOps ms d rest))

def encodeItemsOps : List View → ℕ → List StackOp → List StackOp
  | [], _, rest => .add :: rest
  | v :: vs, d, rest => .add :: .push :: encodeOps v d (.pop 1 :: encodeItemsOps vs d rest)

def encodeMembersOps : List (Bytes × View) → ℕ → List StackOp → List StackOp
  | [], _, rest => .pop 1 :: .pop 1 :: .add :: rest
  | (k, v) :: ms, d, rest =>
    .pop 1 :: .push :: .push :: .add ::
      (keyTextOps k ++ .add :: encodeOps v d (.pop 1 :: encodeMembersOps ms d rest))

end

/-- Nothing inside it is encoded. -/
def Flat : View → Prop
  | scalar _ => True
  | lenRaises _ => True
  | array _ items => items = []
  | object _ _ _ _ => False

theorem leaves_scanOps (entries : ℕ) : ∃ need ≤ 3, Leaves (scanOps entries) need 2 := by
  induction entries with
  | zero => exact ⟨2, by omega, Leaves.push.append .push⟩
  | succ n ih =>
    obtain ⟨need, hneed, h⟩ := ih
    have hnext := (((h.pop (m := 1) (by omega)).append .push).append .push).pop (m := 1) (by omega)
    have hops : scanOps (n + 1) = scanOps n ++ [.pop 1] ++ [.push] ++ [.push] ++ [.pop 1] := by
      rw [scanOps, List.replicate_succ', List.flatten_append]
      simp [scanOps]
    rw [hops]
    exact ⟨3, le_rfl, hnext.of_eq (by omega) rfl⟩

theorem leaves_arrayScanOps (entries : ℕ) : ∃ need ≤ 3, Leaves (arrayScanOps entries) need 0 := by
  obtain ⟨need, hneed, h⟩ := leaves_scanOps entries
  have hnext := (h.pop (m := 1) (by omega)).pop (m := 1) (by omega)
  rw [List.append_assoc] at hnext
  exact ⟨need, hneed, hnext⟩

theorem leaves_objectScanOps (entries : ℕ) : ∃ need ≤ 3, Leaves (objectScanOps entries) need 0 := by
  obtain ⟨need, hneed, h⟩ := leaves_scanOps entries
  have hnext := ((((h.pop (m := 1) (by omega)).append .push).append .push).pop (m := 2) (by omega)).pop (m := 1)
    (by omega)
  have hops : objectScanOps entries = scanOps entries ++ [.pop 1] ++ [.push] ++ [.push] ++ [.pop 2] ++ [.pop 1] := by
    simp [objectScanOps]
  rw [hops]
  exact ⟨3, le_rfl, hnext.of_eq (by omega) rfl⟩

variable {limit : ℕ} {s : List StackSlot}

theorem run_keyTextOps (hs : s.head? ≠ some .buffer) (k : Bytes) (ops : List StackOp) :
    runStack limit s (keyTextOps k ++ .add :: ops) = none := by
  unfold keyTextOps
  split_ifs <;> exact runStack_add_of_value hs _

theorem run_encodeOps_of_value (v : View) (d : ℕ) (hs : s.length ≤ limit) (htop : s.head? ≠ some .buffer)
    (rest : List StackOp) : runStack limit s (v.encodeOps d rest) = none := by
  cases d with
  | zero =>
    rw [encodeOps]
    exact runStack_add_of_value htop rest
  | succ d =>
    cases v with
    | scalar text => exact runStack_add_of_value htop rest
    | lenRaises n =>
      obtain ⟨need, -, h⟩ := leaves_arrayScanOps n
      rw [encodeOps, h.run_append_of_balanced hs, runStack_add_of_value htop, ite_self]
    | array n items =>
      obtain ⟨need, -, h⟩ := leaves_arrayScanOps n
      cases items with
      | nil => rw [encodeOps, h.run_append_of_balanced hs, runStack_add_of_value htop, ite_self]
      | cons v vs => rw [encodeOps, h.run_append_of_balanced hs, runStack_add_of_value htop, ite_self]
    | object n k v ms =>
      obtain ⟨need, -, h⟩ := leaves_objectScanOps n
      rw [encodeOps, h.run_append_of_balanced hs, runStack_add_of_value htop, ite_self]

theorem run_encodeOps_of_not_flat {v : View} (hv : ¬ v.Flat) (d : ℕ) (hs : s.length < limit) (rest : List StackOp) :
    runStack limit (.buffer :: s) (v.encodeOps (d + 1) rest) = none := by
  cases v with
  | scalar text => exact absurd trivial hv
  | lenRaises n => exact absurd trivial hv
  | array n items =>
    cases items with
    | nil => exact absurd rfl hv
    | cons v vs =>
      obtain ⟨need, -, h⟩ := leaves_arrayScanOps n
      rw [encodeOps, h.run_append_of_balanced hs, runStack_add, runStack_push]
      split_ifs with hroom hpush
      · rw [runStack_pop_one, runStack_push, if_pos hpush]
        exact run_encodeOps_of_value v d hpush (by simp) _
      · rfl
      · rfl
  | object n k v ms =>
    obtain ⟨need, -, h⟩ := leaves_objectScanOps n
    have hkey : ∀ t, runStack limit (.value :: t)
        (keyTextOps k ++ .add :: encodeOps v d (.pop 1 :: encodeMembersOps ms d rest)) = none :=
      fun t => run_keyTextOps (by simp) k _
    rw [encodeOps, h.run_append_of_balanced hs, runStack_add]
    simp only [runStack_push, runStack_pop_one, hkey, ite_self]

theorem run_encodeOps_of_flat {v : View} (hv : v.Flat) (d : ℕ) (hs : s.length + 4 ≤ limit) {rest : List StackOp}
    (hrest : (runStack limit (.buffer :: s) rest).isSome) :
    (runStack limit (.buffer :: s) (v.encodeOps (d + 1) rest)).isSome := by
  cases v with
  | scalar text => exact hrest
  | lenRaises n =>
    obtain ⟨need, hneed, h⟩ := leaves_arrayScanOps n
    rw [encodeOps, h.run_append_of_balanced (by rw [List.length_cons]; omega),
      if_pos (by rw [List.length_cons]; omega)]
    rfl
  | array n items =>
    obtain rfl : items = [] := hv
    obtain ⟨need, hneed, h⟩ := leaves_arrayScanOps n
    rw [encodeOps, h.run_append_of_balanced (by rw [List.length_cons]; omega),
      if_pos (by rw [List.length_cons]; omega), runStack_add, runStack_push,
      if_pos (by rw [List.length_cons]; omega), runStack_pop_one, runStack_add]
    exact hrest
  | object n k v ms => exact absurd hv id

end View

/-! ## Frames -/

/-- `LUA_MINSTACK`: the slots that are free on entry. -/
def minStack : ℕ := 20

/-- How many arguments are on the stack of the frame. -/
def Use.args : Use → ℕ
  | .setToolResult _ | .jsonEncode _ | .jsonDecode _ | .tlvDecodeToLua _ => 1
  | .print texts => texts.length
  | .getToolArgs | .edit _ | .setSlot _ => 0

namespace State

variable (strtod : Strtod) (s : State)

/-- What a function that a tool calls does with the stack of its frame. -/
def useOps : Use → List StackOp
  | .getToolArgs =>
    match s.slot with
    | .nil => .push :: .pop 1 :: (jpParseValue strtod s.argsBuf).stackOps
    | _ => [.push]
  | .setToolResult v => .openBuffer :: v.encodeOps (maxDepth + 1) [.closeBuffer, .pop 1]
  | .jsonEncode v => .openBuffer :: v.encodeOps (maxDepth + 1) [.closeBuffer]
  | .jsonDecode text => (jpParseValue strtod text).stackOps
  | .tlvDecodeToLua tlv => (tlvDecodeValue tlv).stackOps
  | .print texts => List.replicate texts.length .push
  | .edit _ | .setSlot _ => []

/-- There is room in the frame for what is pushed, and buffers are used on top only. -/
def FrameKept (u : Use) : Prop :=
  (runStack (u.args + minStack) (List.replicate u.args .value) (s.useOps strtod u)).isSome

/-- What is decoded needs no more slots than are free, no value is inside one that is encoded, and no more texts are
printed than there are free slots. -/
@[grind =] def UseFits : Use → Prop
  | .getToolArgs => s.slot = .nil → (jpParseValue strtod s.argsBuf).slots ≤ minStack
  | .setToolResult v | .jsonEncode v => v.Flat
  | .jsonDecode text => (jpParseValue strtod text).slots ≤ minStack
  | .tlvDecodeToLua tlv => (tlvDecodeValue tlv).slots ≤ minStack
  | .print texts => texts.length ≤ minStack
  | .edit _ | .setSlot _ => True

variable {strtod s}

theorem isSome_stackOps_iff (r : LuaRead) (args : ℕ) :
    (runStack (args + minStack) (List.replicate args .value) r.stackOps).isSome ↔ r.slots ≤ minStack := by
  rw [r.leaves_stackOps.isSome_iff (by rw [List.length_replicate]; omega), List.length_replicate]
  omega

theorem isSome_encodeOps_iff (v : View) {rest : List StackOp}
    (hrest : ∀ limit s, (runStack limit (.buffer :: s) (.closeBuffer :: rest)).isSome) :
    (runStack (1 + minStack) [.value] (.openBuffer :: v.encodeOps (maxDepth + 1) (.closeBuffer :: rest))).isSome ↔
      v.Flat := by
  have hopen : runStack (1 + minStack) [.value] (.openBuffer :: v.encodeOps (maxDepth + 1) (.closeBuffer :: rest)) =
      runStack (1 + minStack) [.buffer, .value] (v.encodeOps (maxDepth + 1) (.closeBuffer :: rest)) := rfl
  rw [hopen]
  constructor
  · intro h
    by_contra hv
    rw [View.run_encodeOps_of_not_flat hv maxDepth (by decide)] at h
    cases h
  · exact fun hv => View.run_encodeOps_of_flat hv maxDepth (by decide) (hrest _ _)

theorem leaves_pushes (n : ℕ) : Leaves (List.replicate n .push) n n := by
  induction n with
  | zero => exact .nil
  | succ n ih =>
    rw [List.replicate_succ']
    exact (ih.append .push).of_eq (by omega) rfl

/-- **When a function that a tool calls keeps within its frame.** -/
theorem frameKept_iff (u : Use) : s.FrameKept strtod u ↔ s.UseFits strtod u := by
  cases u with
  | getToolArgs =>
    unfold FrameKept UseFits useOps
    cases hslot : s.slot with
    | nil =>
      have hnil : runStack (Use.getToolArgs.args + minStack) (List.replicate Use.getToolArgs.args .value)
          (.push :: .pop 1 :: (jpParseValue strtod s.argsBuf).stackOps) =
          runStack (0 + minStack) (List.replicate 0 .value) (jpParseValue strtod s.argsBuf).stackOps := rfl
      dsimp only
      rw [hnil, isSome_stackOps_iff]
      exact ⟨fun h _ => h, fun h => h rfl⟩
    | _ => exact ⟨fun _ h => absurd h (by simp), fun _ => rfl⟩
  | setToolResult v => exact isSome_encodeOps_iff v fun limit s => by simp [runStack, StackOp.apply]
  | jsonEncode v => exact isSome_encodeOps_iff v fun limit s => by simp [runStack, StackOp.apply]
  | jsonDecode text => exact isSome_stackOps_iff (jpParseValue strtod text) 1
  | tlvDecodeToLua tlv => exact isSome_stackOps_iff (tlvDecodeValue tlv) 1
  | print texts =>
    unfold FrameKept UseFits useOps Use.args
    rw [(leaves_pushes texts.length).isSome_iff (by rw [List.length_replicate]; omega), List.length_replicate]
    omega
  | edit f => exact ⟨fun _ => trivial, fun _ => rfl⟩
  | setSlot v => exact ⟨fun _ => trivial, fun _ => rfl⟩

end State

/-! ## The exported functions -/

namespace State

variable (strtod : Strtod) (s : State)

/-- `lua_pcall`, once the wrapper has been found. -/
def pcallOps (retired : List StackOp) : Outcome (Option Bytes) → List StackOp
  | .finished => .pop 1 :: (retired ++ [.clear])
  | .raised _ => [.pop 1, .push, .pop 2]
  | .trapped => [.pop 1]

section Wrappers

local instance lawfulBEq_bytes : LawfulBEq (List UInt8) := inferInstance

def callWrapperOps (name : Bytes) (body : Body) (retired : List StackOp) : List StackOp :=
  match s.wrappers with
  | none => [.push, .pop 1]
  | some names =>
    if name ∈ names then .push :: .push :: .pop 1 :: .push :: pcallOps retired body.outcome
    else [.push, .push, .pop 1, .push, .pop 2]

end Wrappers

/-- The arguments are decoded, and kept in the registry. -/
def callToolBinaryOps (tlv name : Bytes) (body : Body) : List StackOp :=
  (tlvDecodeValue tlv).stackOps ++
    (if (tlvDecodeValue tlv).ok then .pop 1 :: s.callWrapperOps name body [.push, .pop 1] else [])

/-- The wrapper is compiled, and stored in the table of wrappers, which may have to be made. -/
def registerWrapperOps (error : Option Bytes) : List StackOp :=
  if error.isSome then [.push, .pop 1]
  else
    .push :: .push :: ((if s.wrappers.isSome then [] else [.pop 1, .push, .push, .pop 1]) ++
      [.push, .push, .pop 2, .pop 2])

def execOps : Except Bytes Body → List StackOp
  | .error _ => [.push, .pop 1]
  | .ok body =>
    match body.outcome with
    | .finished => [.push, .pop 1, .results body.results, .clear]
    | .raised _ => [.push, .pop 1, .push, .pop 1]
    | .trapped => [.push, .pop 1]

/-- What an exported function does with the main stack; a new state has six functions registered. -/
@[grind =] def entryOps : Action → List StackOp
  | .init room => .clear :: (if room then (List.replicate 6 [.push, .pop 1]).flatten else [])
  | .destroy => [.clear]
  | .setArgs _ => []
  | .registerWrapper _ error => if s.ready then s.registerWrapperOps error else []
  | .callTool _ name body => if s.ready then .push :: .pop 1 :: s.callWrapperOps name body [] else []
  | .callToolBinary tlv name body => if s.ready then s.callToolBinaryOps tlv name body else []
  | .exec source => if s.ready then execOps source else []

end State

/-- The state of the guest, and its main stack. -/
structure Bridge where
  calls : State
  main : List StackSlot

/-- A bridge before its first call, with nothing on the Lua stack. -/
def Bridge.fresh : Bridge := ⟨.fresh, []⟩

namespace Bridge

variable (strtod : Strtod) (b : Bridge)

/-- One call, if it keeps within the main stack and returns. -/
def step (a : Action) : Option Bridge :=
  if (b.calls.perform a).status.isSome then
    (runStack minStack b.main (b.calls.entryOps a)).map fun main => ⟨b.calls.step a, main⟩
  else none

/-- **There is room for every value, buffers are used on top only**, in the frame of every function that is used, and on
the main stack; and if the call returns, **the main stack is as high as before**. -/
def Disciplined (a : Action) : Prop :=
  (∀ u ∈ (b.calls.perform a).used, u.1.FrameKept strtod u.2) ∧
    ∃ main, runStack minStack b.main (b.calls.entryOps a) = some main ∧
      ((b.calls.perform a).status.isSome → main.length = b.main.length)

/-- The binary arguments can be decoded, in the slots that are free; and so is all that a tool uses. -/
def Sound (a : Action) : Prop :=
  (∀ u ∈ (b.calls.perform a).used, u.1.UseFits strtod u.2) ∧
    match a with
    | .callToolBinary tlv _ _ =>
      b.calls.ready = true → (tlvDecodeValue tlv).ok = true ∧ (tlvDecodeValue tlv).slots ≤ minStack
    | _ => True

variable {strtod b}

theorem run_callWrapperOps (s : State) (name : Bytes) (body : Body) {retire : State → State} {retired : List StackOp}
    (hretired : runStack minStack [.value] (retired ++ [.clear]) = some []) :
    ∃ main, runStack minStack [] (s.callWrapperOps name body retired) = some main ∧
      ((s.callWrapper name body retire).status.isSome → main.length = 0) := by
  unfold State.callWrapperOps State.callWrapper State.run
  cases s.wrappers with
  | none => exact ⟨[], rfl, fun _ => rfl⟩
  | some names =>
    dsimp only
    split_ifs
    · cases body.outcome with
      | finished => exact ⟨[], hretired, fun _ => rfl⟩
      | raised error => exact ⟨[], rfl, fun _ => rfl⟩
      | trapped => exact ⟨[.value], rfl, fun h => by cases h⟩
    · exact ⟨[], rfl, fun _ => rfl⟩

theorem run_callToolBinaryOps_iff {s : State} (hready : s.ready = true) (tlv name : Bytes) (body : Body) :
    (∃ main, runStack minStack [] (s.callToolBinaryOps tlv name body) = some main ∧
      ((s.callToolBinary tlv name body).status.isSome → main.length = 0)) ↔
      (tlvDecodeValue tlv).ok = true ∧ (tlvDecodeValue tlv).slots ≤ minStack := by
  have hleaves := (tlvDecodeValue tlv).leaves_stackOps
  unfold State.callToolBinaryOps State.callToolBinary
  rw [if_pos hready, runStack_append, hleaves.2 minStack [] (Nat.zero_le _)]
  dsimp only
  by_cases hroom : (tlvDecodeValue tlv).slots ≤ minStack
  · rw [if_pos (by simpa using hroom), Option.bind_some]
    by_cases hok : (tlvDecodeValue tlv).ok = true
    · rw [if_pos hok, if_pos hok, LuaRead.height_of_ok _ hok]
      refine ⟨fun _ => ⟨hok, hroom⟩, fun _ => ?_⟩
      exact run_callWrapperOps { s with slot := (tlvDecodeValue tlv).value, output := [] } name body rfl
    · rw [if_neg hok, if_neg hok]
      refine ⟨fun ⟨main, hmain, hlength⟩ => ?_, fun h => absurd h.1 hok⟩
      have hpos := (tlvDecodeValue tlv).height_pos
      rw [← Option.some.inj hmain] at hlength
      simp at hlength
      omega
  · rw [if_neg (by simpa using hroom)]
    refine ⟨fun ⟨main, hmain, _⟩ => ?_, fun h => absurd h.2 hroom⟩
    cases hmain

/-- **When the main stack is left as it was**, if it was empty. -/
theorem run_entryOps_iff (s : State) (a : Action) :
    (∃ main, runStack minStack [] (s.entryOps a) = some main ∧ ((s.perform a).status.isSome → main.length = 0)) ↔
      match a with
      | .callToolBinary tlv _ _ =>
        s.ready = true → (tlvDecodeValue tlv).ok = true ∧ (tlvDecodeValue tlv).slots ≤ minStack
      | _ => True := by
  cases a with
  | init room =>
    refine ⟨fun _ => trivial, fun _ => ⟨[], ?_, fun _ => rfl⟩⟩
    cases room <;> rfl
  | destroy => exact ⟨fun _ => trivial, fun _ => ⟨[], rfl, fun _ => rfl⟩⟩
  | setArgs args => exact ⟨fun _ => trivial, fun _ => ⟨[], rfl, fun _ => rfl⟩⟩
  | registerWrapper name error =>
    refine ⟨fun _ => trivial, fun _ => ⟨[], ?_, fun _ => rfl⟩⟩
    unfold State.entryOps State.registerWrapperOps
    cases error <;> cases s.wrappers <;> cases s.ready <;> rfl
  | callTool args name body =>
    refine ⟨fun _ => trivial, fun _ => ?_⟩
    unfold State.entryOps State.perform State.callTool
    dsimp only
    split_ifs
    · exact run_callWrapperOps { s with slot := .nil, argsBuf := inArgsBuf args, output := [] } name body rfl
    · exact ⟨[], rfl, fun _ => rfl⟩
  | callToolBinary tlv name body =>
    dsimp only
    unfold State.entryOps State.perform
    by_cases hready : s.ready = true
    · simp only [hready, if_true, true_imp_iff]
      exact run_callToolBinaryOps_iff hready tlv name body
    · refine ⟨fun _ h => absurd h hready, fun _ => ⟨[], ?_, fun _ => rfl⟩⟩
      dsimp only
      rw [if_neg hready]
      rfl
  | exec source =>
    refine ⟨fun _ => trivial, fun _ => ?_⟩
    unfold State.entryOps State.perform State.exec State.execOps State.run
    dsimp only
    split_ifs
    · cases source with
      | error text => exact ⟨[], rfl, fun _ => rfl⟩
      | ok body =>
        dsimp only
        cases body.outcome with
        | finished => exact ⟨[], rfl, fun _ => rfl⟩
        | raised error => exact ⟨[], rfl, fun _ => rfl⟩
        | trapped => exact ⟨[], rfl, fun _ => rfl⟩
    · exact ⟨[], rfl, fun _ => rfl⟩

theorem disciplined_iff_of_main (hb : b.main = []) (a : Action) : b.Disciplined strtod a ↔ b.Sound strtod a := by
  unfold Disciplined Sound
  rw [hb, List.length_nil, run_entryOps_iff]
  refine and_congr (forall₂_congr fun u _ => State.frameKept_iff u.2) ?_
  cases a <;> rfl

end Bridge

end Lua

end VelocityMcp.Guest
