import Mathlib.Logic.Relation
import VelocityMcp.JsonText
import VelocityMcp.Lib.Tables
import VelocityMcp.Lib.Text
import VelocityMcp.NdaNative.RoundTrip

/-!
# Wasm.Plugins — the tables of WASM plugin tools and the calls that change them (`plugins/mod.rs`)

`Step`, `Steps`: all that these functions can do to the tables.
-/

namespace VelocityMcp.Wasm

open Lib NdaNative

/-! ## Errors -/

/-- How a call of a plugin tool fails, up to the error that its guest gives. -/
inductive PluginError where
  | noLanguage
  | source (text : String)
  | unsupported (language : String)
  | create (text : String)
  | duplicate (name language : String)
  | register (name text : String)
  | argsFit (what : String) (len capacity : ℕ) (language : String)
  | trapped (name reason : String)
  | failed (binary : Bool) (name text : String)
  | noSource (name : String)
  | decode (e : DecodeError)
  | executorType (other : String)
  | elsewhere (text : String)
deriving DecidableEq, Repr

def PluginError.text : PluginError → String
  | noLanguage => "WASM executor requires 'language' field"
  | source text => text
  | unsupported language => s!"Unsupported WASM language: {language}"
  | create text => text
  | duplicate name language => s!"WASM tool '{name}' already registered for language '{language}'. Duplicate registrations are rejected to prevent call hijacking (#618)."
  | register name text => s!"Failed to register WASM tool '{name}': {text}"
  | argsFit what len capacity language => s!"{what} {len} bytes exceed the {capacity}-byte argument slot of the {language} runtime"
  | trapped name reason => s!"WASM tool '{name}' exceeded resource limits or trapped ({reason}). The runtime was discarded and will be rebuilt on the next call. A trap means an instruction-limit hit, a stack overflow, or an unrecoverable fault inside the tool; if it is the instruction limit, optimize the code or raise instruction_limit in your configuration."
  | failed false name text => s!"WASM tool '{name}' execution failed: {text}"
  | failed true name text => s!"WASM tool '{name}' execution failed (binary): {text}"
  | noSource name => s!"no WASM source in manifest for '{name}'"
  | decode e => e.text
  | executorType other => s!"Unsupported executor type: {other}"
  | elsewhere text => text

/-! ## What is outside -/

/-- What `register_tool` of a runtime comes to; after a failure the runtime may have kept the tool. -/
inductive RegisterAnswer where
  | ok
  | failed (text : String) (kept : Bool)
deriving DecidableEq, Repr

/-- What a guest that runs a tool comes to; an error may be a `RuntimeError` of the engine. -/
inductive GuestAnswer where
  | ok (output : String)
  | error (text : String) (runtimeError : Bool)
deriving DecidableEq, Repr

/-- The answers to one function: the source file, a new runtime, the registration and the tool. -/
structure Answers where
  file : Except String String
  create : Except String Unit
  register : RegisterAnswer
  call : GuestAnswer

/-- The fields of a manifest's tool that these functions read. -/
structure PluginTool where
  name : String
  executorType : String
  language : Option String
  source : Option String
  sourceFile : Option String
deriving DecidableEq, Repr

/-! ## The tables -/

/-- The plugins loaded (their tools), `WASM_RUNTIME_CACHE` (the tools each runtime has), `WASM_TOOL_REGISTRY`,
`WASM_TOOL_METADATA` and `BINARY_JSON_FALLBACK`. -/
structure State where
  plugins : List (List PluginTool)
  cache : String → Option (List String)
  registry : String → List String
  metadata : String → Option String
  fallback : List String

namespace State

def putRuntime (s : State) (language : String) (tools : List String) : State :=
  { s with cache := Function.update s.cache language (some tools) }

def evict (s : State) (language : String) : State :=
  { s with cache := Function.update s.cache language none }

def insertName (s : State) (language name : String) : State :=
  { s with registry := Function.update s.registry language (name :: s.registry language) }

def setLanguage (s : State) (name language : String) : State :=
  { s with metadata := Function.update s.metadata name (some language) }

def recordFallback (s : State) (name : String) : State := { s with fallback := name :: s.fallback }

def load (s : State) (plugins : List (List PluginTool)) : State := { s with plugins := plugins }

/-- The runtime cached for a language has the tool. -/
def Holds (s : State) (language name : String) : Prop := ∃ tools, s.cache language = some tools ∧ name ∈ tools

theorem mem_insertName (s : State) (language name : String) :
    name ∈ (s.insertName language name).registry language := by
  show name ∈ Function.update s.registry language (name :: s.registry language) language
  rw [Function.update_self]
  exact List.mem_cons_self

theorem mem_insertName_of_mem {s : State} {language' name' : String} (h : name' ∈ s.registry language')
    (language name : String) : name' ∈ (s.insertName language name).registry language' := by
  show name' ∈ Function.update s.registry language (name :: s.registry language) language'
  by_cases hlang : language' = language
  · subst hlang
    rw [Function.update_self]
    exact List.mem_cons_of_mem name h
  · rw [Function.update_of_ne hlang]
    exact h

end State

/-- A process that has just started. -/
def Fresh (s : State) : Prop :=
  (∀ language, s.cache language = none) ∧ (∀ language, s.registry language = []) ∧
    (∀ name, s.metadata name = none) ∧ s.fallback = []

/-! ## Runtimes -/

/-- The languages of `create_wasm_runtime_for_language`. -/
def wasmLanguages : List String :=
  ["javascript", "python", "lua", "go", "ruby", "rust", "typescript", "php", "csharp", "java", "r", "julia", "perl"]

def createWasmRuntime (language : String) (a : Answers) : Except PluginError Unit :=
  if language ∉ wasmLanguages then .error (.unsupported language)
  else a.create.mapError .create

def argsSlotCapacity (language : String) : Option ℕ :=
  if language = "javascript" ∨ language = "typescript" ∨ language = "ruby" then some (64 * 1024)
  else if language = "go" ∨ language = "rust" then none
  else some (4 * 1024)

def checkArgsFit (language : String) (len : ℕ) (what : String) : Except PluginError Unit :=
  match argsSlotCapacity language with
  | some capacity => if capacity ≤ len then .error (.argsFit what len capacity language) else .ok ()
  | none => .ok ()

/-- What a runtime says of a tool it does not have. -/
def unknownTool (language name : String) : String :=
  if language = "javascript" ∨ language = "typescript" then s!"Unknown JS tool: {name}"
  else if language = "python" then s!"Unknown Python tool: {name}"
  else if language = "lua" then s!"Unknown Lua tool: {name}"
  else if language = "ruby" then s!"Unknown Ruby tool: {name}"
  else if language = "php" then s!"Unknown PHP tool: {name}"
  else if language = "csharp" then s!"Unknown C# tool: {name}"
  else if language = "java" then s!"Unknown Java tool: {name}"
  else if language = "r" then s!"Unknown R tool: {name}"
  else if language = "julia" then s!"Unknown Julia tool: {name}"
  else if language = "perl" then s!"Unknown Perl tool: {name}"
  else if language = "go" then s!"Tool '{name}' not registered or compilation failed"
  else s!"Tool not loaded: {name}"

/-- The runtimes that leave `call_tool_binary` to the trait, which decodes the arguments first. -/
def decodesFirst (language : String) : Bool :=
  language = "ruby" || language = "rust" || language = "typescript" || language = "go"

/-- A call's reply: whether the guest started the tool, and its output, or an error text and whether it is a
`RuntimeError`. -/
structure Reply where
  started : Bool
  result : Except (String × Bool) String

/-- `WasmRuntime::call_tool`.  A runtime that has the tool is taken to start it. -/
def runtimeCallTool (language name : String) (tools : List String) (g : GuestAnswer) : Reply :=
  if name ∉ tools then ⟨false, .error (unknownTool language name, false)⟩
  else match g with
    | .ok output => ⟨true, .ok output⟩
    | .error text runtimeError => ⟨true, .error (text, runtimeError)⟩

/-- `WasmRuntime::call_tool_binary`. -/
def runtimeCallToolBinary (language name : String) (argsTlv : Bytes) (tools : List String) (g : GuestAnswer) :
    Reply :=
  if decodesFirst language then
    match decodeJsonValue argsTlv with
    | .ok _ => runtimeCallTool language name tools g
    | .err e => ⟨false, .error (e.text, false)⟩
    | .panic => ⟨false, .error ("", false)⟩  -- never: `decode_ne_panic`
  else runtimeCallTool language name tools g

/-! ## Traps -/

/-- The wordings of `is_trap_message`. -/
def trapPhrases : List String :=
  ["unreachable", "out of gas", "instruction limit", "metering", "out of bounds memory access", "call stack exhausted"]

def isTrapMessage (errMsg : String) : Bool := trapPhrases.any fun phrase => Occurs phrase errMsg

def guestTrapped (err : String × Bool) : Bool := err.2 || isTrapMessage err.1

def trapReason (err : String) : String :=
  match firstLine err with
  | some line => if trimText line = "" then "the guest trapped" else trimText line
  | none => "the guest trapped"

def trapChars : List (List Char) :=
  [['u', 'n', 'r', 'e', 'a', 'c', 'h', 'a', 'b', 'l', 'e'],
   ['o', 'u', 't', ' ', 'o', 'f', ' ', 'g', 'a', 's'],
   ['i', 'n', 's', 't', 'r', 'u', 'c', 't', 'i', 'o', 'n', ' ', 'l', 'i', 'm', 'i', 't'],
   ['m', 'e', 't', 'e', 'r', 'i', 'n', 'g'],
   ['o', 'u', 't', ' ', 'o', 'f', ' ', 'b', 'o', 'u', 'n', 'd', 's', ' ', 'm', 'e', 'm', 'o', 'r', 'y', ' ', 'a',
    'c', 'c', 'e', 's', 's'],
   ['c', 'a', 'l', 'l', ' ', 's', 't', 'a', 'c', 'k', ' ', 'e', 'x', 'h', 'a', 'u', 's', 't', 'e', 'd']]

theorem trapPhrases_eq : trapPhrases = trapChars.map String.ofList := rfl

theorem mem_trapChars {phrase : String} (h : phrase ∈ trapPhrases) : phrase.toList ∈ trapChars := by
  rw [trapPhrases_eq] at h
  obtain ⟨l, hl, rfl⟩ := List.mem_map.mp h
  rwa [String.toList_ofList]

theorem isTrapMessage_eq_false {s : String} (h : ∀ l ∈ trapChars, ¬l <:+: s.toList) : isTrapMessage s = false := by
  simp only [isTrapMessage, List.any_eq_false, decide_eq_true_eq]
  exact fun phrase hphrase => h _ (mem_trapChars hphrase)

theorem isTrapMessage_ofList {s : List Char} (h : ∀ l ∈ trapChars, ¬l <:+: s) :
    isTrapMessage (String.ofList s) = false :=
  isTrapMessage_eq_false (by rwa [String.toList_ofList])

theorem isTrapMessage_number {s t : String} {n : ℕ} (hs : isTrapMessage s = false) (ht : isTrapMessage t = false) :
    isTrapMessage (s ++ toString n ++ t) = false := by
  have hdigits : ∀ l ∈ trapChars, l.any Char.isDigit = false := by decide
  simp only [isTrapMessage, List.any_eq_false, decide_eq_true_eq] at hs ht ⊢
  intro phrase hphrase hoccurs
  have hno : ∀ c ∈ phrase.toList, c.isDigit = false := by
    simpa [List.any_eq_false] using hdigits _ (mem_trapChars hphrase)
  rcases occurs_of_number hno hoccurs with h | h
  · exact hs phrase hphrase h
  · exact ht phrase hphrase h

theorem isTrapMessage_empty : isTrapMessage "" = false := isTrapMessage_ofList (by decide)

theorem isTrapMessage_two_numbers {s t : String} (n m : ℕ) (hs : isTrapMessage s = false)
    (ht : isTrapMessage t = false) : isTrapMessage (s ++ toString n ++ t ++ toString m) = false := by
  have h := isTrapMessage_number (n := m) (isTrapMessage_number (n := n) hs ht) isTrapMessage_empty
  rwa [String.append_empty] at h

theorem isTrapMessage_decodeError (e : DecodeError) : isTrapMessage e.text = false := by
  have hmax : isTrapMessage " exceeds maximum " = false := isTrapMessage_ofList (by decide)
  cases e with
  | stringTooLong len =>
    have hs : isTrapMessage "TLV string length " = false := isTrapMessage_ofList (by decide)
    exact isTrapMessage_two_numbers len tlvMaxStringLen hs hmax
  | arrayTooLong count =>
    have hs : isTrapMessage "TLV array count " = false := isTrapMessage_ofList (by decide)
    exact isTrapMessage_two_numbers count tlvMaxElements hs hmax
  | objectTooLong count =>
    have hs : isTrapMessage "TLV object count " = false := isTrapMessage_ofList (by decide)
    exact isTrapMessage_two_numbers count tlvMaxElements hs hmax
  | utf8 t =>
    show isTrapMessage (utf8ErrorText t) = false
    rw [utf8ErrorText]
    cases errorLen (t.drop (validUpTo t)) with
    | some n =>
      have hs : isTrapMessage "invalid utf-8 sequence of " = false := isTrapMessage_ofList (by decide)
      have ht : isTrapMessage " bytes from index " = false := isTrapMessage_ofList (by decide)
      exact isTrapMessage_two_numbers n (validUpTo t) hs ht
    | none =>
      have hs : isTrapMessage "incomplete utf-8 byte sequence from index " = false :=
        isTrapMessage_ofList (by decide)
      have h := isTrapMessage_number (n := validUpTo t) hs isTrapMessage_empty
      rwa [String.append_empty] at h
  | unknownTag tag =>
    -- the two digits follow a character that no wording has, and are too short for any
    have hlit : "Unknown TLV type tag: 0x".toList =
        ['U', 'n', 'k', 'n', 'o', 'w', 'n', ' ', 'T', 'L', 'V', ' ', 't', 'y', 'p', 'e', ' ', 't', 'a', 'g', ':',
          ' '] ++ ['0', 'x'] := String.toList_ofList
    have hwords : ∀ l ∈ trapChars, '0' ∉ l ∧ 3 < l.length ∧
        ¬l <:+: ['U', 'n', 'k', 'n', 'o', 'w', 'n', ' ', 'T', 'L', 'V', ' ', 't', 'y', 'p', 'e', ' ', 't', 'a', 'g',
          ':', ' '] := by decide
    refine isTrapMessage_eq_false fun l hl h => ?_
    change l <:+: ("Unknown TLV type tag: 0x" ++ hex02 tag).toList at h
    obtain ⟨hzero, hlen, hno⟩ := hwords l hl
    rw [String.toList_append, hlit, List.append_assoc] at h
    rcases infix_of_notMem (q := 'x' :: (hex02 tag).toList) hzero h with h | h
    · exact hno h
    · have hle := h.length_le
      rw [hex02, String.toList_ofList] at hle
      simp only [List.length_cons, List.length_nil] at hle
      omega
  | depth =>
    have hs : isTrapMessage "TLV nesting depth exceeds maximum " = false := isTrapMessage_ofList (by decide)
    have h := isTrapMessage_number (n := tlvMaxDepth) hs isTrapMessage_empty
    rwa [String.append_empty] at h
  | _ =>
    dsimp only [DecodeError.text]
    exact isTrapMessage_ofList (by decide)

/-! ## One run of a function -/

/-- The state after it, the languages whose guest started a tool, how often another executor started one, and the
result. -/
structure Done (α : Type) where
  state : State
  starts : List String
  elsewhere : ℕ
  result : Except PluginError α

def cachedRuntime (s : State) (language : String) (a : Answers) : Except PluginError (State × List String) :=
  match s.cache language with
  | some tools => .ok (s, tools)
  | none => match createWasmRuntime language a with
    | .error e => .error e
    | .ok () => .ok (s.putRuntime language [], [])

/-- `register_wasm_tool_source`; `execute_wasm_plugin_tool` does the same before its call. -/
def registerWasmToolSource (s : State) (name language : String) (a : Answers) : State × Except PluginError Unit :=
  match cachedRuntime s language a with
  | .error e => (s, .error e)
  | .ok (s, tools) =>
    if name ∈ s.registry language then (s, .error (.duplicate name language))
    else
      let s := s.insertName language name
      match a.register with
      | .failed text kept =>
        (if kept then s.putRuntime language (name :: tools) else s, .error (.register name text))
      | .ok => ((s.putRuntime language (name :: tools)).setLanguage name language, .ok ())

/-- What becomes of a runtime's reply: a trap evicts the runtime. -/
def conclude (s : State) (binary : Bool) (name language : String) (r : Reply) : Done String :=
  let starts := if r.started then [language] else []
  match r.result with
  | .ok output => ⟨s, starts, 0, .ok output⟩
  | .error err =>
    if guestTrapped err then ⟨s.evict language, starts, 0, .error (.trapped name (trapReason err.1))⟩
    else ⟨s, starts, 0, .error (.failed binary name err.1)⟩

def resolveWasmSource (tool : PluginTool) (a : Answers) : Except PluginError String :=
  match tool.source with
  | some source => .ok source
  | none => match tool.sourceFile with
    | some _ => a.file.mapError .source
    | none => .error (.source "WASM executor requires 'source' or 'source_file'")

/-- One run, as the new state, the languages whose guest started a tool, and the result. -/
def executeWasmPluginTool (f64Text : F64Text) (s : State) (tool : PluginTool) (arguments : Value) (a : Answers) :
    Done String :=
  match tool.language with
  | none => ⟨s, [], 0, .error .noLanguage⟩
  | some language => match resolveWasmSource tool a with
    | .error e => ⟨s, [], 0, .error e⟩
    | .ok _ => match registerWasmToolSource s tool.name language a with
      | (s, .error e) => ⟨s, [], 0, .error e⟩
      | (s, .ok ()) => match checkArgsFit language (jsonText f64Text arguments).length "Tool arguments" with
        | .error e => ⟨s, [], 0, .error e⟩
        | .ok () =>
          conclude s false tool.name language
            (runtimeCallTool language tool.name ((s.cache language).getD []) a.call)

/-- The same, with binary arguments. -/
def callWasmToolBinary (s : State) (name language : String) (argsTlv : Bytes) (a : Answers) : Done String :=
  match cachedRuntime s language a with
  | .error e => ⟨s, [], 0, .error e⟩
  | .ok (s, tools) => match checkArgsFit language argsTlv.length "Binary TLV arguments" with
    | .error e => ⟨s, [], 0, .error e⟩
    | .ok () => conclude s true name language (runtimeCallToolBinary language name argsTlv tools a.call)

/-! ## What a run does to the tables -/

/-- One change of the tables; names are registered as `registers` lets them.  Without a failed registration and a
trap (`calm`) there are three kinds. -/
inductive Step (calm : Bool) (registers : String → String → Prop) : State → State → Prop where
  | created {s : State} {language : String} : s.cache language = none → language ∈ wasmLanguages →
      Step calm registers s (s.putRuntime language [])
  | registered {s : State} {language name : String} {tools : List String} : s.cache language = some tools →
      name ∉ s.registry language → registers name language →
      Step calm registers s
        (((s.insertName language name).putRuntime language (name :: tools)).setLanguage name language)
  | fallback {s : State} {name : String} : Step calm registers s (s.recordFallback name)
  | failed {s : State} {language name : String} : calm = false → name ∉ s.registry language →
      Step calm registers s (s.insertName language name)
  | kept {s : State} {language name : String} {tools : List String} : calm = false →
      s.cache language = some tools → name ∉ s.registry language →
      Step calm registers s ((s.insertName language name).putRuntime language (name :: tools))
  | evicted {s : State} {language : String} : calm = false → Step calm registers s (s.evict language)

/-- Any number of changes. -/
abbrev Steps (calm : Bool) (registers : String → String → Prop) : State → State → Prop :=
  Relation.ReflTransGen (Step calm registers)

namespace Steps

variable {calm : Bool} {registers : String → String → Prop} {s t : State}

theorem plugins_eq (h : Steps calm registers s t) : t.plugins = s.plugins := by
  induction h with
  | refl => rfl
  | tail _ hst ih => cases hst <;> exact ih

theorem mem_registry (h : Steps calm registers s t) {language name : String} (hn : name ∈ s.registry language) :
    name ∈ t.registry language := by
  induction h with
  | refl => exact hn
  | tail _ hst ih =>
    cases hst with
    | created _ _ => exact ih
    | registered _ _ _ => exact State.mem_insertName_of_mem ih _ _
    | fallback => exact ih
    | failed _ _ => exact State.mem_insertName_of_mem ih _ _
    | kept _ _ _ => exact State.mem_insertName_of_mem ih _ _
    | evicted _ => exact ih

theorem mem_fallback (h : Steps calm registers s t) {name : String} (hn : name ∈ s.fallback) : name ∈ t.fallback := by
  induction h with
  | refl => exact hn
  | tail _ hst ih =>
    cases hst with
    | fallback => exact List.mem_cons_of_mem _ ih
    | _ => exact ih

theorem metadata_ne_none (h : Steps calm registers s t) {name : String} (hn : s.metadata name ≠ none) :
    t.metadata name ≠ none := by
  induction h with
  | refl => exact hn
  | @tail u v _ hst ih =>
    cases hst with
    | @registered language n tools _ _ _ =>
      show Function.update u.metadata n (some language) name ≠ none
      by_cases hname : name = n
      · subst hname
        simp
      · rw [Function.update_of_ne hname]
        exact ih
    | _ => exact ih

/-- The language recorded for a name is the old one, or one that the name was registered for. -/
theorem metadata_cases (h : Steps calm registers s t) {language name : String}
    (hn : t.metadata name = some language) : s.metadata name = some language ∨ registers name language := by
  induction h with
  | refl => exact Or.inl hn
  | @tail u v _ hst ih =>
    cases hst with
    | @registered newLanguage newName tools _ _ hregisters =>
      obtain ⟨rfl, rfl⟩ | ⟨-, hold⟩ := update_eq_some hn
      · exact Or.inr hregisters
      · exact ih hold
    | _ => exact ih hn

end Steps

/-- Nothing in the answers is a failed registration or a trap. -/
def Answers.Quiet (a : Answers) : Prop :=
  a.register = .ok ∧ ∀ text runtimeError, a.call = .error text runtimeError → guestTrapped (text, runtimeError) = false

section Runs

variable {calm : Bool} {registers : String → String → Prop} {s s' : State} {name language : String}
  {tools : List String} {a : Answers}

theorem cachedRuntime_eq_ok (h : cachedRuntime s language a = .ok (s', tools)) :
    (s' = s ∧ s.cache language = some tools) ∨
      (s.cache language = none ∧ createWasmRuntime language a = .ok () ∧ tools = [] ∧
        s' = s.putRuntime language []) := by
  rw [cachedRuntime] at h
  cases hcache : s.cache language with
  | some ts =>
    rw [hcache] at h
    obtain ⟨rfl, rfl⟩ := Prod.mk.inj (Except.ok.inj h)
    exact Or.inl ⟨rfl, rfl⟩
  | none =>
    rw [hcache] at h
    cases hcreate : createWasmRuntime language a with
    | error e => rw [hcreate] at h; cases h
    | ok u =>
      rw [hcreate] at h
      obtain ⟨rfl, rfl⟩ := Prod.mk.inj (Except.ok.inj h)
      exact Or.inr ⟨rfl, rfl, rfl, rfl⟩

theorem cachedRuntime_ok (h : cachedRuntime s language a = .ok (s', tools)) :
    s'.cache language = some tools ∧ s'.registry = s.registry ∧ s'.metadata = s.metadata ∧
      s'.fallback = s.fallback := by
  obtain ⟨rfl, hcache⟩ | ⟨hcache, -, rfl, rfl⟩ := cachedRuntime_eq_ok h
  · exact ⟨hcache, rfl, rfl, rfl⟩
  · exact ⟨Function.update_self .., rfl, rfl, rfl⟩

theorem createWasmRuntime_ok (h : createWasmRuntime language a = .ok ()) : language ∈ wasmLanguages := by
  rw [createWasmRuntime] at h
  by_contra hlang
  rw [if_pos hlang] at h
  cases h

theorem steps_cachedRuntime (h : cachedRuntime s language a = .ok (s', tools)) : Steps calm registers s s' := by
  obtain ⟨rfl, -⟩ | ⟨hcache, hcreate, -, rfl⟩ := cachedRuntime_eq_ok h
  · exact .refl
  · exact .single (.created hcache (createWasmRuntime_ok hcreate))

/-- **One registration**: no runtime, the name taken, a failure of the runtime, or success. -/
theorem registerWasmToolSource_cases (s : State) (name language : String) (a : Answers) :
    (∃ e, cachedRuntime s language a = .error e ∧ registerWasmToolSource s name language a = (s, .error e)) ∨
    (∃ t tools, cachedRuntime s language a = .ok (t, tools) ∧
      ((name ∈ s.registry language ∧
          registerWasmToolSource s name language a = (t, .error (.duplicate name language))) ∨
        (name ∉ s.registry language ∧ ∃ text kept, a.register = .failed text kept ∧
          registerWasmToolSource s name language a =
            (if kept then (t.insertName language name).putRuntime language (name :: tools)
              else t.insertName language name, .error (.register name text))) ∨
        (name ∉ s.registry language ∧ a.register = .ok ∧
          registerWasmToolSource s name language a =
            (((t.insertName language name).putRuntime language (name :: tools)).setLanguage name language,
              .ok ())))) := by
  rw [registerWasmToolSource]
  cases hrt : cachedRuntime s language a with
  | error e => exact Or.inl ⟨e, rfl, rfl⟩
  | ok p =>
    obtain ⟨t, tools⟩ := p
    refine Or.inr ⟨t, tools, rfl, ?_⟩
    obtain ⟨-, hregistry, -⟩ := cachedRuntime_ok hrt
    simp only
    rw [hregistry]
    by_cases hname : name ∈ s.registry language
    · rw [if_pos hname]
      exact Or.inl ⟨hname, rfl⟩
    · rw [if_neg hname]
      cases hreg : a.register with
      | failed text kept => exact Or.inr (Or.inl ⟨hname, text, kept, rfl, rfl⟩)
      | ok => exact Or.inr (Or.inr ⟨hname, rfl, rfl⟩)

theorem steps_registerWasmToolSource (hregisters : registers name language)
    (h : calm = false ∨ a.register = .ok) : Steps calm registers s (registerWasmToolSource s name language a).1 := by
  obtain ⟨e, -, hrun⟩ | ⟨t, tools, hrt, hcases⟩ := registerWasmToolSource_cases s name language a
  · rw [hrun]
  · obtain ⟨hcache, hregistry, -⟩ := cachedRuntime_ok hrt
    obtain ⟨-, hrun⟩ | ⟨hname, text, kept, hreg, hrun⟩ | ⟨hname, -, hrun⟩ := hcases
    · rw [hrun]
      exact steps_cachedRuntime hrt
    · have hcalm : calm = false := h.resolve_right fun hok => by rw [hreg] at hok; cases hok
      rw [hrun]
      cases kept with
      | false => exact (steps_cachedRuntime hrt).tail (.failed hcalm (hregistry ▸ hname))
      | true => exact (steps_cachedRuntime hrt).tail (.kept hcalm hcache (hregistry ▸ hname))
    · rw [hrun]
      exact (steps_cachedRuntime hrt).tail (.registered hcache (hregistry ▸ hname) hregisters)

theorem registerWasmToolSource_ok (h : registerWasmToolSource s name language a = (s', .ok ())) :
    name ∉ s.registry language ∧ a.register = .ok ∧ name ∈ s'.registry language ∧ s'.Holds language name ∧
      s'.metadata name = some language ∧ s'.fallback = s.fallback := by
  obtain ⟨e, -, hrun⟩ | ⟨t, tools, hrt, ⟨-, hrun⟩ | ⟨-, text, kept, -, hrun⟩ | ⟨hname, hreg, hrun⟩⟩ :=
    registerWasmToolSource_cases s name language a
  · cases h.symm.trans hrun
  · cases h.symm.trans hrun
  · cases h.symm.trans hrun
  · obtain ⟨-, -, -, hfallback⟩ := cachedRuntime_ok hrt
    obtain ⟨rfl, -⟩ := Prod.mk.inj (h.symm.trans hrun)
    exact ⟨hname, hreg, t.mem_insertName language name,
      ⟨name :: tools, Function.update_self .., List.mem_cons_self⟩, Function.update_self .., hfallback⟩

theorem runtimeCallTool_quiet (hname : name ∈ tools) (ha : a.Quiet) :
    ∀ err, (runtimeCallTool language name tools a.call).result = .error err → guestTrapped err = false := by
  intro err herr
  unfold runtimeCallTool at herr
  rw [if_neg (not_not_intro hname)] at herr
  cases hcall : a.call with
  | ok output => rw [hcall] at herr; cases herr
  | error text runtimeError =>
    rw [hcall] at herr
    obtain rfl := Except.error.inj herr
    exact ha.2 text runtimeError hcall

theorem runtimeCallToolBinary_quiet {argsTlv : Bytes} (hname : name ∈ tools) (ha : a.Quiet) :
    ∀ err, (runtimeCallToolBinary language name argsTlv tools a.call).result = .error err →
      guestTrapped err = false := by
  intro err herr
  rw [runtimeCallToolBinary] at herr
  by_cases hfirst : decodesFirst language
  · rw [if_pos hfirst] at herr
    cases hdecode : decodeJsonValue argsTlv with
    | ok p => rw [hdecode] at herr; exact runtimeCallTool_quiet hname ha err herr
    | err e =>
      rw [hdecode] at herr
      obtain rfl := Except.error.inj herr
      rw [guestTrapped, isTrapMessage_decodeError]
      rfl
    | panic => exact absurd hdecode (decode_ne_panic _ _)
  · rw [if_neg hfirst] at herr
    exact runtimeCallTool_quiet hname ha err herr

theorem steps_conclude {binary : Bool} {r : Reply}
    (h : calm = false ∨ ∀ err, r.result = .error err → guestTrapped err = false) :
    Steps calm registers s (conclude s binary name language r).state := by
  rw [conclude]
  cases hr : r.result with
  | ok output => exact .refl
  | error err =>
    by_cases htrap : guestTrapped err
    · simp only [htrap, if_true]
      exact .single (.evicted (h.resolve_right fun hcalm => by simp [hcalm err hr] at htrap))
    · simp only [htrap]
      exact .refl

theorem conclude_starts {binary : Bool} {r : Reply} :
    (conclude s binary name language r).starts = if r.started then [language] else [] := by
  rw [conclude]
  cases r.result with
  | ok output => rfl
  | error err => by_cases htrap : guestTrapped err <;> simp [htrap]

theorem conclude_elsewhere {binary : Bool} {r : Reply} : (conclude s binary name language r).elsewhere = 0 := by
  rw [conclude]
  cases r.result with
  | ok output => rfl
  | error err => by_cases htrap : guestTrapped err <;> simp [htrap]

theorem conclude_registry {binary : Bool} {r : Reply} :
    (conclude s binary name language r).state.registry = s.registry := by
  rw [conclude]
  cases r.result with
  | ok output => rfl
  | error err => by_cases htrap : guestTrapped err <;> simp [htrap, State.evict]

end Runs

end VelocityMcp.Wasm
