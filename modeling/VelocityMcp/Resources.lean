import VelocityMcp.Json

/-!
# Resources — the resource and prompt registries, as they are listed and read (`resources.rs`)

`handleResourcesRead`, `handlePromptsGet`: reading a resource, filling in a prompt.
-/

namespace VelocityMcp

open Lib

/-! ## The registries -/

structure Resource where
  uri : String
  name : String
  description : String
  mimeType : Option String
deriving DecidableEq, Repr

structure ResourceTemplate where
  uriTemplate : String
  name : String
  description : String
  mimeType : Option String
deriving DecidableEq, Repr

structure PromptArgument where
  name : String
  description : String
  required : Bool
deriving DecidableEq, Repr

structure Prompt where
  name : String
  description : String
  arguments : List PromptArgument
deriving DecidableEq, Repr

/-- What `ResourceStore::read_resource` finds. -/
structure ResourceReadResult where
  uri : String
  mimeType : String
  text : Option String
deriving DecidableEq, Repr

/-- A field that is left out when it is `None`. -/
def optionalField (key : String) : Option String → List (String × Value)
  | some s => [(key, .string s)]
  | none => []

/-- An `Option` that is written as `null` when it is `None`. -/
def optionalString : Option String → Value
  | some s => .string s
  | none => .null

def Resource.toValue (r : Resource) : Value :=
  .object ([("description", .string r.description)] ++ (optionalField "mimeType" r.mimeType ++
    [("name", .string r.name), ("uri", .string r.uri)]))

def ResourceTemplate.toValue (t : ResourceTemplate) : Value :=
  .object ([("description", .string t.description)] ++ (optionalField "mimeType" t.mimeType ++
    [("name", .string t.name), ("uriTemplate", .string t.uriTemplate)]))

def PromptArgument.toValue (a : PromptArgument) : Value :=
  .object [("description", .string a.description), ("name", .string a.name), ("required", .bool a.required)]

def Prompt.toValue (p : Prompt) : Value :=
  .object [("arguments", .array (p.arguments.map PromptArgument.toValue)),
    ("description", .string p.description), ("name", .string p.name)]

/-! ## Pages -/

/-- `DEFAULT_PAGE_SIZE` (`json_rpc.rs`). -/
def defaultPageSize : ℕ := 100

/-- `usize::MAX`. -/
def usizeMax : ℕ := 2 ^ 64 - 1

/-- The digits of a `usize`. -/
def parseDigits (digits : List Char) : Option ℕ :=
  digits.foldlM (fun n c =>
    if c.isDigit ∧ 10 * n + (c.toNat - '0'.toNat) ≤ usizeMax then some (10 * n + (c.toNat - '0'.toNat))
    else none) 0

/-- `str::parse::<usize>`. -/
def parseUsize (s : String) : Option ℕ :=
  match s.toList with
  | [] => none
  | ['+'] => none
  | '+' :: digits => parseDigits digits
  | digits => parseDigits digits

def pageStart : Option String → ℕ
  | some c => (parseUsize c).getD 0
  | none => 0

/-- One page of a listing, with the cursor of the next. -/
def listPage (key : String) (items : List Value) (cursor : Option String) : Value :=
  let start := pageStart cursor
  let last := min (min (start + defaultPageSize) usizeMax) items.length
  let page := if start < items.length then (items.take last).drop start else []
  .object ((if last < items.length then [("nextCursor", .string (toString last))] else []) ++
    [(key, .array page)])

def handleResourcesList (resources : List Resource) (cursor : Option String) : Value :=
  listPage "resources" (resources.map Resource.toValue) cursor

def handleResourceTemplatesList (templates : List ResourceTemplate) (cursor : Option String) : Value :=
  listPage "resourceTemplates" (templates.map ResourceTemplate.toValue) cursor

def handlePromptsList (prompts : List Prompt) (cursor : Option String) : Value :=
  listPage "prompts" (prompts.map Prompt.toValue) cursor

/-! ## Reading -/

/-- `handle_resources_read`, on what the store finds under the URI. -/
def handleResourcesRead (found : Except String ResourceReadResult) : Except String Value :=
  found.map fun result => .object [("contents", .array [.object [("mimeType", .string result.mimeType),
    ("text", optionalString result.text), ("uri", .string result.uri)]])]

/-- `handle_resources_subscribe`, on what the store says. -/
def handleResourcesSubscribe (subscribed : Except String Unit) (uri : String) : Except String Value :=
  subscribed.map fun _ => .object [("status", .string "subscribed"), ("uri", .string uri)]

/-- `handle_resources_unsubscribe`, on what the store says. -/
def handleResourcesUnsubscribe (unsubscribed : Except String Unit) (uri : String) : Except String Value :=
  unsubscribed.map fun _ => .object [("status", .string "unsubscribed"), ("uri", .string uri)]

def stringArguments (arguments : Value) : List (String × String) :=
  match arguments.asObject with
  | some obj => obj.filterMap fun (k, v) => v.asStr.map (k, ·)
  | none => []

/-- The prompt's text, with the variables filled in one after the other. -/
def substitute (text : String) (arguments : List (String × String)) : String :=
  arguments.foldl (fun text (key, value) => text.replace ("\x7b" ++ key ++ "\x7d") value) text

/-- `get_prompt`, for the order in which the map of the arguments is walked. -/
def getPrompt (prompts : List Prompt) (name : String) (arguments : List (String × String)) :
    Except String Value :=
  match prompts.find? (·.name = name) with
  | none => .error s!"Prompt not found: {name}"
  | some prompt =>
    match prompt.arguments.find? fun arg => arg.required ∧ arg.name ∉ arguments.map Prod.fst with
    | some arg => .error s!"Missing required argument: {arg.name}"
    | none => .ok (.object [("description", .string prompt.description),
        ("messages", .array [.object [
          ("content", .object [("text", .string (substitute prompt.description arguments)),
            ("type", .string "text")]),
          ("role", .string "user")]])])

/-- `handle_prompts_get`, for the order in which a map is walked. -/
def handlePromptsGet (prompts : List Prompt) (order : List (String × String) → List (String × String))
    (name : String) (arguments : Value) : Except String Value :=
  getPrompt prompts name (order (stringArguments arguments))

end VelocityMcp
