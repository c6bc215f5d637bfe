import VelocityMcp.NdaNative.Reply

/-!
# NdaNative.ToolsList — the tool list, encoded without building its JSON tree (`nda_native.rs`)
-/

namespace VelocityMcp

open Lib

/-- A tool, as a listing shows it. -/
structure Tool where
  name : String
  description : String
  inputSchema : Value
deriving DecidableEq

def Tool.toValue (t : Tool) : Value :=
  .object [("description", .string t.description), ("inputSchema", t.inputSchema), ("name", .string t.name)]

/-- What serde's derived `Serialize` makes of a tool: the fields in the order of the struct, each inserted
into the object's sorted map. -/
def Tool.serialized (t : Tool) : Value :=
  .object (insertAll [] [("name", .string t.name), ("description", .string t.description),
    ("inputSchema", t.inputSchema)])

namespace NdaNative

def toolHead (t : Tool) : Bytes :=
  0x06 :: (beBytes 4 3 ++ (beBytes 2 11 ++ (utf8 "description" ++ (textTlv t.description ++
    (beBytes 2 11 ++ utf8 "inputSchema")))))

def toolTail (t : Tool) : Bytes := beBytes 2 4 ++ (utf8 "name" ++ textTlv t.name)

def encodeTools : List Tool → Emit String
  | [] => .put []
  | t :: ts => (Emit.put (toolHead t)).andThen
    ((encodeJsonValue t.inputSchema).andThen ((Emit.put (toolTail t)).andThen (encodeTools ts)))

/-- `encode_tools_list_result`: an object with the one key `tools`, written without building the value. -/
def encodeToolsListResult (tools : List Tool) : Emit String :=
  (Emit.put (0x06 :: (beBytes 4 1 ++ (beBytes 2 5 ++ (utf8 "tools" ++
    (0x05 :: beBytes 4 tools.length)))))).andThen (encodeTools tools)

def toolsListValue (tools : List Tool) : Value :=
  .object [("tools", .array (tools.map Tool.toValue))]

theorem encodeTool_eq (t : Tool) :
    encodeJsonValue t.toValue =
      (Emit.put (toolHead t)).andThen ((encodeJsonValue t.inputSchema).andThen (Emit.put (toolTail t))) := by
  have hdesc : ¬ 65535 < (utf8 "description").length := by decide
  have hschema : ¬ 65535 < (utf8 "inputSchema").length := by decide
  have hname : ¬ 65535 < (utf8 "name").length := by decide
  have htail : (Emit.put (ε := String) (beBytes 2 (utf8 "name").length ++ utf8 "name")).andThen
      ((encodeJsonValue (.string t.name)).andThen (.put [])) = .put (toolTail t) := by
    rw [encodeJsonValue, Emit.andThen_put_nil, Emit.put_andThen_put, List.append_assoc]
    rfl
  have hhead : toolHead t = (0x06 :: beBytes 4 3) ++ (beBytes 2 (utf8 "description").length ++
      utf8 "description") ++ textTlv t.description ++
        (beBytes 2 (utf8 "inputSchema").length ++ utf8 "inputSchema") := by
    simp only [toolHead, List.cons_append, List.append_assoc]
    rfl
  rw [Tool.toValue, encodeJsonValue, encodeFields, if_neg hdesc, encodeFields, if_neg hschema,
    encodeFields, if_neg hname, encodeFields, htail, hhead]
  simp only [encodeJsonValue, ← Emit.andThen_assoc, Emit.put_andThen_put]
  rfl

theorem encodeTools_eq (tools : List Tool) :
    encodeTools tools = encodeItems (tools.map Tool.toValue) := by
  induction tools with
  | nil => rfl
  | cons t ts ih =>
    rw [encodeTools, ih, List.map_cons, encodeItems, encodeTool_eq, Emit.andThen_assoc, Emit.andThen_assoc]

/-- **The two ways to the tool list** write the same bytes, and stop at the same place. -/
theorem encodeToolsListResult_eq (tools : List Tool) :
    encodeToolsListResult tools = encodeJsonValue (toolsListValue tools) := by
  have htools : ¬ 65535 < (utf8 "tools").length := by decide
  rw [toolsListValue, encodeJsonValue, encodeFields, if_neg htools, encodeFields, encodeJsonValue,
    encodeToolsListResult, encodeTools_eq, List.length_map]
  simp only [Emit.andThen_put_nil, ← Emit.andThen_assoc, Emit.put_andThen_put]
  rfl

theorem serialized_eq_toValue (t : Tool) : t.serialized = t.toValue := by
  have hlt : ("description" < "name") ∧ ("inputSchema" < "name") ∧ ¬ ("inputSchema" < "description") := by
    decide
  obtain ⟨h₁, h₂, h₃⟩ := hlt
  simp [Tool.serialized, Tool.toValue, insertAll, insertKey, h₁, h₂, h₃]

/-- **The hand-written encoder is the generic one** on the object that serde makes of the tools: the same
bytes, and the same error or none. -/
theorem toolsList_encoders_agree (tools : List Tool) :
    encodeToolsListResult tools =
      encodeJsonValue (.object (insertAll [] [("tools", .array (tools.map Tool.serialized))])) := by
  have hmap : tools.map Tool.serialized = tools.map Tool.toValue := by
    apply List.map_congr_left
    intro t _
    exact serialized_eq_toValue t
  rw [hmap]
  exact encodeToolsListResult_eq tools

theorem encodeToolsListResult_ne_nil (tools : List Tool) : (encodeToolsListResult tools).bytes ≠ [] := by
  rw [encodeToolsListResult, Emit.put_andThen]
  exact List.cons_ne_nil _ _

/-- An entry of `TOOLS_LIST_CACHE`: what the encoder wrote for the tools of that generation. -/
structure CachedToolsList where
  generation : ℕ
  tools : List Tool
  bytes : Bytes
  written : bytes = (encodeToolsListResult tools).bytes

end NdaNative

end VelocityMcp
