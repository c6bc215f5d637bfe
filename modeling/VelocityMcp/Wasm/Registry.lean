import VelocityMcp.Wasm.Plugins

/-!
# Wasm.Registry — calling a tool by name, with JSON or with TLV arguments (`registry.rs`)
-/

namespace VelocityMcp.Wasm

open Lib NdaNative

/-! ## The plugins -/

/-- The names that `is_builtin_tool` knows. -/
def builtinToolNames : List String :=
  ["convert_to_nda_document", "convert_to_nda_tool", "read_nda", "execute_nda", "file_read", "file_write",
    "list_directory", "directory_tree", "search_files", "move_file", "create_directory", "edit_file",
    "get_file_info", "bench_echo", "shell_exec", "http_request"]

/-- The tool that `call_tool` finds: the first of that name in the first plugin that has one. -/
def pluginTool (plugins : List (List PluginTool)) (name : String) : Option PluginTool :=
  plugins.findSome? fun tools => tools.find? fun t => t.name = name

def manifestWasmLanguage (plugins : List (List PluginTool)) (name : String) : Option String :=
  plugins.findSome? fun tools =>
    (tools.find? fun t => t.name = name ∧ t.executorType = "wasm").bind fun t => t.language

def pluginWasmSource (plugins : List (List PluginTool)) (name language : String) (a : Answers) : Option String :=
  plugins.findSome? fun tools =>
    (tools.find? fun t => t.name = name ∧ t.executorType = "wasm" ∧ t.language = some language).bind fun t =>
      t.source.or (t.sourceFile.bind fun _ => a.file.toOption)

/-! ## The classifiers -/

def binaryFailureIsRequestLevel (err : String) : Bool := Occurs "tlv decode" (asciiLower err)

def binaryFailureIsPreExecution (err : String) : Bool :=
  let e := asciiLower err
  (Occurs "unknown" e ∧ Occurs "tool" e) ∨ Occurs "failed to register" e ∨ Occurs "tool not loaded" e ∨
    Occurs "not registered" e ∨ Occurs "wrapper not cached" e

/-! ## Calls -/

/-- The answers to one call: to each function it may run, whether the NMCP frame cache has the name, and for a tool that
is no WASM tool, whether its executor starts it and what it comes to. -/
structure CallAnswers where
  upfront : Answers
  first : Answers
  retry : Answers
  decoded : Answers
  frame : Bool
  startsElsewhere : Bool
  elsewhere : Except String String

/-- A call whose tool is not run by a WASM guest. -/
def callElsewhere (s : State) (a : CallAnswers) : Done String :=
  ⟨s, [], if a.startsElsewhere then 1 else 0, a.elsewhere.mapError .elsewhere⟩

variable (f64Text : F64Text)

def executePluginTool (s : State) (tool : PluginTool) (arguments : Value) (a : CallAnswers) : Done String :=
  if tool.executorType = "wasm" then executeWasmPluginTool f64Text s tool arguments a.decoded
  else if tool.executorType = "process" then callElsewhere s a
  else ⟨s, [], 0, .error (.executorType tool.executorType)⟩

/-- The JSON path. -/
def callTool (s : State) (name : String) (arguments : Value) (a : CallAnswers) : Done String :=
  if name ∈ builtinToolNames then callElsewhere s a
  else if a.frame then callElsewhere s a
  else match pluginTool s.plugins name with
    | some tool => executePluginTool f64Text s tool arguments a
    | none => callElsewhere s a

def callToolDecoded (s : State) (name : String) (argsTlv : Bytes) (a : CallAnswers) : Done String :=
  match decodeJsonValue argsTlv with
  | .ok (value, _) => callTool f64Text s name value a
  | .err e => ⟨s, [], 0, .error (.decode e)⟩
  | .panic => ⟨s, [], 0, .error (.elsewhere "")⟩  -- never: `decode_ne_panic`

/-- `retry_binary_with_registration`: the state, the guests started, and the output if all of it succeeds. -/
def retryBinaryWithRegistration (s : State) (name language : String) (argsTlv : Bytes) (a : Answers) :
    State × List String × Option String :=
  match pluginWasmSource s.plugins name language a with
  | none => (s, [], none)
  | some _ => match registerWasmToolSource s name language a with
    | (s, .error _) => (s, [], none)
    | (s, .ok ()) =>
      let d := callWasmToolBinary s name language argsTlv a
      (d.state, d.starts, d.result.toOption)

def registerUpfront (s : State) (name language : String) (a : Answers) : State × Except PluginError Unit :=
  if s.metadata name = none then
    match pluginWasmSource s.plugins name language a with
    | some _ => registerWasmToolSource s name language a
    | none => (s, .error (.noSource name))
  else (s, .ok ())

/-- What follows, with guests started before it. -/
def Done.after {α : Type} (starts : List String) (d : Done α) : Done α := { d with starts := starts ++ d.starts }

/-- The binary call and what its failure leads to. -/
def callRegistered (s : State) (name language : String) (argsTlv : Bytes) (a : CallAnswers) : Done String :=
  let first := callWasmToolBinary s name language argsTlv a.first
  match first.result with
  | .ok _ => first
  | .error e =>
    if binaryFailureIsRequestLevel e.text then
      (callToolDecoded f64Text first.state name argsTlv a).after first.starts
    else if binaryFailureIsPreExecution e.text then
      match retryBinaryWithRegistration first.state name language argsTlv a.retry with
      | (s, starts, some output) => ⟨s, first.starts ++ starts, 0, .ok output⟩
      | (s, starts, none) =>
        (callToolDecoded f64Text (s.recordFallback name) name argsTlv a).after (first.starts ++ starts)
    else first

def binaryLanguage (s : State) (name : String) : Option String :=
  (s.metadata name).or (manifestWasmLanguage s.plugins name)

/-- The binary path, with its registration up front, its retry and its fall back to JSON. -/
def callToolBinary (s : State) (name : String) (argsTlv : Bytes) (a : CallAnswers) : Done String :=
  if name ∈ builtinToolNames then callToolDecoded f64Text s name argsTlv a
  else match binaryLanguage s name with
    | none => callToolDecoded f64Text s name argsTlv a
    | some language =>
      if name ∈ s.fallback then callToolDecoded f64Text s name argsTlv a
      else match registerUpfront s name language a.upfront with
        | (s, .error _) => callToolDecoded f64Text (s.recordFallback name) name argsTlv a
        | (s, .ok ()) => callRegistered f64Text s name language argsTlv a

/-! ## The process -/

/-- A call as a client makes it. -/
inductive Request where
  | json (name : String) (arguments : Value)
  | binary (name : String) (argsTlv : Bytes)

def Request.name : Request → String
  | .json name _ => name
  | .binary name _ => name

/-- A call, with JSON or with binary arguments. -/
def serve (s : State) (r : Request) (a : CallAnswers) : Done String :=
  match r with
  | .json name arguments => callTool f64Text s name arguments a
  | .binary name argsTlv => callToolBinary f64Text s name argsTlv a

/-- A call, or `load_plugins`. -/
inductive Action where
  | call (r : Request) (a : CallAnswers)
  | load (plugins : List (List PluginTool))

/-- A process serving calls, and loading plugins between them. -/
def step (s : State) : Action → Option State
  | .call r a => some (serve f64Text s r a).state
  | .load plugins => some (s.load plugins)

/-- What runs the tool is no WASM guest: a cached NMCP frame, a process, or the engine for names no plugin has. -/
def ServedElsewhere (s : State) (frame : Bool) (name : String) : Prop :=
  frame = true ∨ ∀ tool, pluginTool s.plugins name = some tool → tool.executorType = "process"

/-! ## What a call does to the tables -/

section Runs

variable {calm : Bool} {registers : String → String → Prop} {s : State} {name language : String} {argsTlv : Bytes}
  {arguments : Value} {tool : PluginTool} {plugins : List (List PluginTool)}

theorem name_of_pluginTool (h : pluginTool plugins name = some tool) : tool.name = name := by
  obtain ⟨tools, -, htool⟩ := List.exists_of_findSome?_eq_some h
  simpa using List.find?_some htool

/-- If the tool that `call_tool` finds is a WASM tool, the manifest's language is its language. -/
theorem manifestWasmLanguage_of_pluginTool (h : pluginTool plugins name = some tool)
    (hwasm : tool.executorType = "wasm") (hlang : tool.language = some language) :
    manifestWasmLanguage plugins name = some language := by
  rw [pluginTool, List.findSome?_eq_some_iff] at h
  obtain ⟨before, tools, rest, rfl, hfind, hbefore⟩ := h
  rw [manifestWasmLanguage, List.findSome?_eq_some_iff]
  refine ⟨before, tools, rest, rfl, ?_, fun ts hts => ?_⟩
  · have hfirst : (tools.find? fun t => decide (t.name = name ∧ t.executorType = "wasm")) = some tool := by
      rw [List.find?_eq_some_iff_append] at hfind ⊢
      obtain ⟨hname, l, r, hsplit, hl⟩ := hfind
      refine ⟨by simpa [hwasm] using hname, l, r, hsplit, fun t ht => ?_⟩
      have := hl t ht
      simp only [Bool.not_eq_true', decide_eq_false_iff_not] at this ⊢
      exact fun hand => this hand.1
    rw [hfirst]
    exact hlang
  · have hnone : (ts.find? fun t => decide (t.name = name ∧ t.executorType = "wasm")) = none := by
      have hno := hbefore ts hts
      rw [List.find?_eq_none] at hno ⊢
      intro t ht
      have := hno t ht
      simp only [decide_eq_true_eq] at this ⊢
      exact fun hand => this hand.1
    rw [hnone]
    rfl

/-! ### The functions case by case -/

variable {a : Answers} {c : CallAnswers}

/-- **One run of a WASM tool on the JSON path**: an error before the registration, an error of it, arguments
that do not fit, or the call. -/
theorem executeWasmPluginTool_cases (s : State) (tool : PluginTool) (arguments : Value) (a : Answers) :
    (∃ e, (∀ n l, e ≠ .duplicate n l) ∧ executeWasmPluginTool f64Text s tool arguments a = ⟨s, [], 0, .error e⟩) ∨
    (∃ language, tool.language = some language ∧
      ((∃ t e, registerWasmToolSource s tool.name language a = (t, .error e) ∧
          executeWasmPluginTool f64Text s tool arguments a = ⟨t, [], 0, .error e⟩) ∨
        (∃ t, registerWasmToolSource s tool.name language a = (t, .ok ()) ∧
          ((∃ e, checkArgsFit language (jsonText f64Text arguments).length "Tool arguments" = .error e ∧
              executeWasmPluginTool f64Text s tool arguments a = ⟨t, [], 0, .error e⟩) ∨
            (checkArgsFit language (jsonText f64Text arguments).length "Tool arguments" = .ok () ∧
              (∃ source, resolveWasmSource tool a = .ok source) ∧
              executeWasmPluginTool f64Text s tool arguments a = conclude t false tool.name language
                (runtimeCallTool language tool.name ((t.cache language).getD []) a.call)))))) := by
  rw [executeWasmPluginTool]
  cases hlang : tool.language with
  | none => exact Or.inl ⟨.noLanguage, by simp, rfl⟩
  | some language =>
    cases hsource : resolveWasmSource tool a with
    | error e =>
      refine Or.inl ⟨e, ?_, rfl⟩
      intro n l he
      subst he
      rw [resolveWasmSource] at hsource
      cases h₁ : tool.source with
      | some source => rw [h₁] at hsource; cases hsource
      | none =>
        cases h₂ : tool.sourceFile with
        | some path => rw [h₁, h₂] at hsource; cases hfile : a.file <;> rw [hfile] at hsource <;> cases hsource
        | none => rw [h₁, h₂] at hsource; cases hsource
    | ok source =>
      refine Or.inr ⟨language, rfl, ?_⟩
      rcases hreg : registerWasmToolSource s tool.name language a with ⟨t, r⟩
      simp only [hreg]
      cases r with
      | error e => exact Or.inl ⟨t, e, rfl, rfl⟩
      | ok u =>
        refine Or.inr ⟨t, rfl, ?_⟩
        cases hfit : checkArgsFit language (jsonText f64Text arguments).length "Tool arguments" with
        | error e => exact Or.inl ⟨e, rfl, rfl⟩
        | ok u => exact Or.inr ⟨rfl, ⟨source, rfl⟩, rfl⟩

theorem callWasmToolBinary_cases (s : State) (name language : String) (argsTlv : Bytes) (a : Answers) :
    (∃ e, cachedRuntime s language a = .error e ∧
      callWasmToolBinary s name language argsTlv a = ⟨s, [], 0, .error e⟩) ∨
    (∃ t tools, cachedRuntime s language a = .ok (t, tools) ∧
      ((∃ e, checkArgsFit language argsTlv.length "Binary TLV arguments" = .error e ∧
          callWasmToolBinary s name language argsTlv a = ⟨t, [], 0, .error e⟩) ∨
        (checkArgsFit language argsTlv.length "Binary TLV arguments" = .ok () ∧
          callWasmToolBinary s name language argsTlv a =
            conclude t true name language (runtimeCallToolBinary language name argsTlv tools a.call)))) := by
  rw [callWasmToolBinary]
  cases hrt : cachedRuntime s language a with
  | error e => exact Or.inl ⟨e, rfl, rfl⟩
  | ok p =>
    obtain ⟨t, tools⟩ := p
    refine Or.inr ⟨t, tools, rfl, ?_⟩
    cases hfit : checkArgsFit language argsTlv.length "Binary TLV arguments" with
    | error e => exact Or.inl ⟨e, rfl, by simp only⟩
    | ok u => exact Or.inr ⟨rfl, by simp only⟩

/-- **A call by name**: elsewhere, or one run of the WASM tool found. -/
theorem callTool_cases (s : State) (name : String) (arguments : Value) (c : CallAnswers) :
    (∃ k r, (∀ n l, r ≠ .error (.duplicate n l)) ∧
      (k ≠ 0 → k = 1 ∧ (name ∈ builtinToolNames ∨ ServedElsewhere s c.frame name)) ∧
      callTool f64Text s name arguments c = ⟨s, [], k, r⟩) ∨
    (∃ tool, name ∉ builtinToolNames ∧ c.frame = false ∧ pluginTool s.plugins name = some tool ∧
      tool.executorType = "wasm" ∧
      callTool f64Text s name arguments c = executeWasmPluginTool f64Text s tool arguments c.decoded) := by
  have helse : ∀ n l, (c.elsewhere.mapError PluginError.elsewhere) ≠ .error (.duplicate n l) := fun n l => by
    cases c.elsewhere <;> simp [Except.mapError]
  have hone : (if c.startsElsewhere then 1 else 0) ≠ 0 → (if c.startsElsewhere then 1 else 0) = 1 := by
    cases c.startsElsewhere <;> simp
  rw [callTool]
  by_cases hbuiltin : name ∈ builtinToolNames
  · rw [if_pos hbuiltin]
    exact Or.inl ⟨_, _, helse, fun hk => ⟨hone hk, Or.inl hbuiltin⟩, rfl⟩
  rw [if_neg hbuiltin]
  by_cases hframe : c.frame
  · rw [if_pos hframe]
    exact Or.inl ⟨_, _, helse, fun hk => ⟨hone hk, Or.inr (Or.inl hframe)⟩, rfl⟩
  rw [if_neg hframe]
  cases htool : pluginTool s.plugins name with
  | none =>
    exact Or.inl ⟨_, _, helse, fun hk => ⟨hone hk, Or.inr (Or.inr fun tool h => by cases htool.symm.trans h)⟩, rfl⟩
  | some tool =>
    simp only
    rw [executePluginTool]
    by_cases hwasm : tool.executorType = "wasm"
    · rw [if_pos hwasm]
      exact Or.inr ⟨tool, hbuiltin, by simpa using hframe, rfl, hwasm, rfl⟩
    rw [if_neg hwasm]
    by_cases hprocess : tool.executorType = "process"
    · have helsewhere : ServedElsewhere s c.frame name := Or.inr fun other h => by
        obtain rfl := Option.some.inj (htool.symm.trans h)
        exact hprocess
      rw [if_pos hprocess]
      exact Or.inl ⟨_, _, helse, fun hk => ⟨hone hk, Or.inr helsewhere⟩, rfl⟩
    · rw [if_neg hprocess]
      exact Or.inl ⟨_, _, by simp, fun hk => absurd rfl hk, rfl⟩

theorem callToolDecoded_cases (s : State) (name : String) (argsTlv : Bytes) (c : CallAnswers) :
    (∃ k r, (∀ n l, r ≠ .error (.duplicate n l)) ∧
      (k ≠ 0 → k = 1 ∧ (name ∈ builtinToolNames ∨ ServedElsewhere s c.frame name) ∧
        ∃ p, decodeJsonValue argsTlv = .ok p) ∧
      callToolDecoded f64Text s name argsTlv c = ⟨s, [], k, r⟩) ∨
    (∃ tool v n, name ∉ builtinToolNames ∧ c.frame = false ∧ decodeJsonValue argsTlv = .ok (v, n) ∧
      pluginTool s.plugins name = some tool ∧ tool.executorType = "wasm" ∧
      callToolDecoded f64Text s name argsTlv c = executeWasmPluginTool f64Text s tool v c.decoded) := by
  rw [callToolDecoded]
  cases hdecode : decodeJsonValue argsTlv with
  | err e => exact Or.inl ⟨_, _, by simp, fun hk => absurd rfl hk, rfl⟩
  | panic => exact absurd hdecode (decode_ne_panic _ _)
  | ok p =>
    obtain ⟨v, n⟩ := p
    rcases callTool_cases f64Text s name v c with ⟨k, r, hr, hk, h⟩ | ⟨tool, hb, hf, htool, hwasm, h⟩
    · exact Or.inl ⟨k, r, hr, fun hne => ⟨(hk hne).1, (hk hne).2, (v, n), rfl⟩, h⟩
    · exact Or.inr ⟨tool, v, n, hb, hf, rfl, htool, hwasm, h⟩

/-- The error of a binary call that is followed by another attempt. -/
def TriedAgain (e : PluginError) : Prop :=
  binaryFailureIsRequestLevel e.text = true ∨ binaryFailureIsPreExecution e.text = true

/-- **A binary call with the tool registered**: its own result, or a fall back to JSON, after a retry or not. -/
theorem callRegistered_cases (s : State) (name language : String) (argsTlv : Bytes) (c : CallAnswers) :
    ((∀ e, (callWasmToolBinary s name language argsTlv c.first).result = .error e → ¬ TriedAgain e) ∧
      callRegistered f64Text s name language argsTlv c = callWasmToolBinary s name language argsTlv c.first) ∨
    (∃ e, (callWasmToolBinary s name language argsTlv c.first).result = .error e ∧ TriedAgain e ∧
      let first := callWasmToolBinary s name language argsTlv c.first
      let retry := retryBinaryWithRegistration first.state name language argsTlv c.retry
      (callRegistered f64Text s name language argsTlv c =
          (callToolDecoded f64Text first.state name argsTlv c).after first.starts ∨
        (∃ output, retry.2.2 = some output ∧ callRegistered f64Text s name language argsTlv c =
          ⟨retry.1, first.starts ++ retry.2.1, 0, .ok output⟩) ∨
        (retry.2.2 = none ∧ binaryFailureIsRequestLevel e.text = false ∧
          callRegistered f64Text s name language argsTlv c =
            (callToolDecoded f64Text (retry.1.recordFallback name) name argsTlv c).after
              (first.starts ++ retry.2.1)))) := by
  rw [callRegistered]
  cases hfirst : (callWasmToolBinary s name language argsTlv c.first).result with
  | ok output => exact Or.inl ⟨by simp, by simp only⟩
  | error e =>
    by_cases hreq : binaryFailureIsRequestLevel e.text
    · exact Or.inr ⟨e, rfl, Or.inl hreq, Or.inl (by simp only [hreq, if_true])⟩
    by_cases hpre : binaryFailureIsPreExecution e.text
    · refine Or.inr ⟨e, rfl, Or.inr hpre, Or.inr ?_⟩
      rcases hretry : retryBinaryWithRegistration (callWasmToolBinary s name language argsTlv c.first).state name
        language argsTlv c.retry with ⟨t, starts, output⟩
      cases output with
      | some output => exact Or.inl ⟨output, rfl, by simp [hreq, hpre]⟩
      | none => exact Or.inr ⟨rfl, by simpa using hreq, by simp [hreq, hpre]⟩
    · refine Or.inl ⟨fun e' he' => ?_, by simp [hreq, hpre]⟩
      obtain rfl := Except.error.inj he'
      exact not_or.mpr ⟨hreq, hpre⟩

/-- **A binary call by name**: JSON at once, after a registration that failed, or the call. -/
theorem callToolBinary_cases (s : State) (name : String) (argsTlv : Bytes) (c : CallAnswers) :
    ((name ∈ builtinToolNames ∨ binaryLanguage s name = none ∨ name ∈ s.fallback) ∧
      callToolBinary f64Text s name argsTlv c = callToolDecoded f64Text s name argsTlv c) ∨
    (name ∉ builtinToolNames ∧ name ∉ s.fallback ∧ ∃ language, binaryLanguage s name = some language ∧
      ((∃ t e, registerUpfront s name language c.upfront = (t, .error e) ∧
          callToolBinary f64Text s name argsTlv c =
            callToolDecoded f64Text (t.recordFallback name) name argsTlv c) ∨
        (∃ t, registerUpfront s name language c.upfront = (t, .ok ()) ∧
          callToolBinary f64Text s name argsTlv c = callRegistered f64Text t name language argsTlv c))) := by
  rw [callToolBinary]
  by_cases hbuiltin : name ∈ builtinToolNames
  · rw [if_pos hbuiltin]
    exact Or.inl ⟨Or.inl hbuiltin, rfl⟩
  rw [if_neg hbuiltin]
  cases hlang : binaryLanguage s name with
  | none => exact Or.inl ⟨Or.inr (Or.inl rfl), rfl⟩
  | some language =>
    simp only
    by_cases hfallback : name ∈ s.fallback
    · rw [if_pos hfallback]
      exact Or.inl ⟨Or.inr (Or.inr hfallback), rfl⟩
    rw [if_neg hfallback]
    refine Or.inr ⟨hbuiltin, hfallback, language, rfl, ?_⟩
    rcases hreg : registerUpfront s name language c.upfront with ⟨t, r⟩
    cases r with
    | error e => exact Or.inl ⟨t, e, rfl, rfl⟩
    | ok u => exact Or.inr ⟨t, rfl, rfl⟩

/-! ### What a call does to the tables -/

def CallAnswers.Quiet (c : CallAnswers) : Prop := c.upfront.Quiet ∧ c.first.Quiet ∧ c.retry.Quiet ∧ c.decoded.Quiet

theorem steps_executeWasmPluginTool (hregisters : ∀ language, tool.language = some language →
    registers tool.name language) (h : calm = false ∨ a.Quiet) :
    Steps calm registers s (executeWasmPluginTool f64Text s tool arguments a).state := by
  obtain ⟨e, -, hrun⟩ | ⟨language, hlang, hcases⟩ := executeWasmPluginTool_cases f64Text s tool arguments a
  · rw [hrun]
  have hreg : Steps calm registers s (registerWasmToolSource s tool.name language a).1 :=
    steps_registerWasmToolSource (hregisters language hlang) (h.imp_right And.left)
  obtain ⟨t, e, ht, hrun⟩ | ⟨t, ht, ⟨e, -, hrun⟩ | ⟨-, -, hrun⟩⟩ := hcases
  · rw [ht] at hreg
    rw [hrun]
    exact hreg
  · rw [ht] at hreg
    rw [hrun]
    exact hreg
  · obtain ⟨-, -, -, ⟨tools, hcache, hmem⟩, -⟩ := registerWasmToolSource_ok ht
    rw [ht] at hreg
    rw [hrun, hcache]
    exact hreg.trans (steps_conclude (h.imp_right fun ha => runtimeCallTool_quiet hmem ha))

theorem steps_callTool (hregisters : ∀ language, manifestWasmLanguage s.plugins name = some language →
    registers name language) (h : calm = false ∨ c.decoded.Quiet) :
    Steps calm registers s (callTool f64Text s name arguments c).state := by
  obtain ⟨k, r, -, -, hrun⟩ | ⟨tool, -, -, htool, hwasm, hrun⟩ := callTool_cases f64Text s name arguments c
  · rw [hrun]
  · rw [hrun]
    refine steps_executeWasmPluginTool f64Text (fun language hlang => ?_) h
    rw [name_of_pluginTool htool]
    exact hregisters language (manifestWasmLanguage_of_pluginTool htool hwasm hlang)

theorem steps_callToolDecoded (hregisters : ∀ language, manifestWasmLanguage s.plugins name = some language →
    registers name language) (h : calm = false ∨ c.decoded.Quiet) :
    Steps calm registers s (callToolDecoded f64Text s name argsTlv c).state := by
  rw [callToolDecoded]
  cases hdecode : decodeJsonValue argsTlv with
  | ok p => exact steps_callTool f64Text hregisters h
  | err e => exact .refl
  | panic => exact .refl

theorem steps_callWasmToolBinary (h : calm = false ∨ (s.Holds language name ∧ a.Quiet)) :
    Steps calm registers s (callWasmToolBinary s name language argsTlv a).state := by
  obtain ⟨e, -, hrun⟩ | ⟨t, tools, hrt, ⟨e, -, hrun⟩ | ⟨-, hrun⟩⟩ :=
    callWasmToolBinary_cases s name language argsTlv a
  · rw [hrun]
  · rw [hrun]
    exact steps_cachedRuntime hrt
  · rw [hrun]
    refine (steps_cachedRuntime hrt).trans (steps_conclude (h.imp_right fun ⟨⟨tools', hcache', hmem⟩, ha⟩ => ?_))
    obtain ⟨-, hcache⟩ | ⟨hcache, -⟩ := cachedRuntime_eq_ok hrt
    · obtain rfl := Option.some.inj (hcache.symm.trans hcache')
      exact runtimeCallToolBinary_quiet hmem ha
    · rw [hcache] at hcache'
      cases hcache'

theorem steps_retryBinaryWithRegistration (hregisters : registers name language) (h : calm = false ∨ a.Quiet) :
    Steps calm registers s (retryBinaryWithRegistration s name language argsTlv a).1 := by
  rw [retryBinaryWithRegistration]
  cases pluginWasmSource s.plugins name language a with
  | none => exact .refl
  | some source =>
    have hreg : Steps calm registers s (registerWasmToolSource s name language a).1 :=
      steps_registerWasmToolSource hregisters (h.imp_right And.left)
    rcases ht : registerWasmToolSource s name language a with ⟨t, r⟩
    rw [ht] at hreg
    cases r with
    | error e => exact hreg
    | ok u =>
      obtain ⟨-, -, -, hholds, -⟩ := registerWasmToolSource_ok ht
      exact hreg.trans (steps_callWasmToolBinary (h.imp_right fun ha => ⟨hholds, ha⟩))

theorem registerUpfront_cases (s : State) (name language : String) (a : Answers) :
    (s.metadata name ≠ none ∧ registerUpfront s name language a = (s, .ok ())) ∨
      s.metadata name = none ∧ ((∃ e, registerUpfront s name language a = (s, .error e)) ∨
        registerUpfront s name language a = registerWasmToolSource s name language a) := by
  unfold registerUpfront
  by_cases hmeta : s.metadata name = none
  · rw [if_pos hmeta]
    cases pluginWasmSource s.plugins name language a with
    | none => exact Or.inr ⟨hmeta, Or.inl ⟨_, rfl⟩⟩
    | some source => exact Or.inr ⟨hmeta, Or.inr rfl⟩
  · rw [if_neg hmeta]
    exact Or.inl ⟨hmeta, rfl⟩

theorem steps_registerUpfront (hregisters : registers name language)
    (h : calm = false ∨ a.register = .ok) :
    Steps calm registers s (registerUpfront s name language a).1 := by
  obtain ⟨-, hrun⟩ | ⟨-, ⟨e, hrun⟩ | hrun⟩ := registerUpfront_cases s name language a
  · rw [hrun]
  · rw [hrun]
  · rw [hrun]
    exact steps_registerWasmToolSource hregisters h

theorem holds_of_registerUpfront {t : State} (hmeta : s.metadata name ≠ none → s.Holds language name)
    (h : registerUpfront s name language a = (t, .ok ())) : t.Holds language name := by
  obtain ⟨hsome, hrun⟩ | ⟨-, ⟨e, hrun⟩ | hrun⟩ := registerUpfront_cases s name language a
  · obtain ⟨rfl, -⟩ := Prod.mk.inj (hrun.symm.trans h)
    exact hmeta hsome
  · cases (Prod.mk.inj (hrun.symm.trans h)).2
  · exact (registerWasmToolSource_ok (hrun.symm.trans h)).2.2.2.1

theorem steps_callRegistered (hmanifest : ∀ language, manifestWasmLanguage s.plugins name = some language →
    registers name language) (hlanguage : registers name language)
    (h : calm = false ∨ (s.Holds language name ∧ c.Quiet)) :
    Steps calm registers s (callRegistered f64Text s name language argsTlv c).state := by
  have hfirst : Steps calm registers s (callWasmToolBinary s name language argsTlv c.first).state :=
    steps_callWasmToolBinary (h.imp_right fun ⟨hholds, hc⟩ => ⟨hholds, hc.2.1⟩)
  have hretry : Steps calm registers s (retryBinaryWithRegistration
      (callWasmToolBinary s name language argsTlv c.first).state name language argsTlv c.retry).1 :=
    hfirst.trans (steps_retryBinaryWithRegistration hlanguage (h.imp_right fun ⟨_, hc⟩ => hc.2.2.1))
  have hdecoded := h.imp_right fun ⟨_, hc⟩ => hc.2.2.2
  obtain ⟨-, hrun⟩ | ⟨e, -, -, hrun | ⟨output, -, hrun⟩ | ⟨-, -, hrun⟩⟩ :=
    callRegistered_cases f64Text s name language argsTlv c
  · rw [hrun]
    exact hfirst
  · rw [hrun]
    refine hfirst.trans (steps_callToolDecoded f64Text (fun language => ?_) hdecoded)
    rw [hfirst.plugins_eq]
    exact hmanifest language
  · rw [hrun]
    exact hretry
  · rw [hrun]
    refine (hretry.tail .fallback).trans (steps_callToolDecoded f64Text (fun language => ?_) hdecoded)
    rw [Steps.plugins_eq (hretry.tail .fallback)]
    exact hmanifest language

theorem steps_callToolBinary (hregisters : ∀ language, (s.metadata name = some language ∨
    manifestWasmLanguage s.plugins name = some language) → registers name language)
    (h : calm = false ∨ ((∀ language, s.metadata name = some language → s.Holds language name) ∧ c.Quiet)) :
    Steps calm registers s (callToolBinary f64Text s name argsTlv c).state := by
  have hmanifest := fun language hl => hregisters language (Or.inr hl)
  have hdecoded := h.imp_right fun ⟨_, hc⟩ => hc.2.2.2
  obtain ⟨-, hrun⟩ | ⟨-, -, language, hlang, hcases⟩ := callToolBinary_cases f64Text s name argsTlv c
  · rw [hrun]
    exact steps_callToolDecoded f64Text hmanifest hdecoded
  have hlanguage : registers name language := by
    refine hregisters language ?_
    rw [binaryLanguage, Option.or_eq_some_iff] at hlang
    exact hlang.imp_right And.right
  have hupfront : Steps calm registers s (registerUpfront s name language c.upfront).1 :=
    steps_registerUpfront hlanguage (h.imp_right fun ⟨_, hc⟩ => hc.1.1)
  obtain ⟨t, e, ht, hrun⟩ | ⟨t, ht, hrun⟩ := hcases
  · rw [ht] at hupfront
    rw [hrun]
    refine (hupfront.tail .fallback).trans (steps_callToolDecoded f64Text (fun language => ?_) hdecoded)
    rw [Steps.plugins_eq (hupfront.tail .fallback)]
    exact hmanifest language
  · rw [ht] at hupfront
    rw [hrun]
    refine hupfront.trans (steps_callRegistered f64Text (fun language => ?_) hlanguage
      (h.imp_right fun ⟨hmeta, hc⟩ => ⟨holds_of_registerUpfront (fun hne => ?_) ht, hc⟩))
    · rw [hupfront.plugins_eq]
      exact hmanifest language
    · cases hname : s.metadata name with
      | none => exact absurd hname hne
      | some language' =>
        rw [binaryLanguage, hname] at hlang
        obtain rfl := Option.some.inj hlang
        exact hmeta language' hname

/-- **One call**: it changes the tables only as `Step` says. -/
theorem steps_serve {r : Request} (hregisters : ∀ language, (s.metadata r.name = some language ∨
    manifestWasmLanguage s.plugins r.name = some language) → registers r.name language)
    (h : calm = false ∨ ((∀ language, s.metadata r.name = some language → s.Holds language r.name) ∧ c.Quiet)) :
    Steps calm registers s (serve f64Text s r c).state := by
  cases r with
  | json name arguments =>
    exact steps_callTool f64Text (fun language hl => hregisters language (Or.inr hl))
      (h.imp_right fun ⟨_, hc⟩ => hc.2.2.2)
  | binary name argsTlv => exact steps_callToolBinary f64Text hregisters h

/-! ### A binary call of a tool that the runtime has -/

variable {f64Text} {tools : List String} {e : PluginError}

theorem cachedRuntime_of_holds (h : s.Holds language name) :
    ∃ tools, cachedRuntime s language a = .ok (s, tools) ∧ name ∈ tools := by
  obtain ⟨tools, hcache, hname⟩ := h
  refine ⟨tools, ?_, hname⟩
  rw [cachedRuntime, hcache]

theorem conclude_error {binary : Bool} {r : Reply} (h : (conclude s binary name language r).result = .error e) :
    ∃ err, r.result = .error err ∧
      ((guestTrapped err = true ∧ e = .trapped name (trapReason err.1)) ∨
        (guestTrapped err = false ∧ e = .failed binary name err.1)) := by
  rw [conclude] at h
  cases hr : r.result with
  | ok output => rw [hr] at h; cases h
  | error err =>
    rw [hr] at h
    refine ⟨err, rfl, ?_⟩
    by_cases htrap : guestTrapped err
    · simp only [if_pos htrap] at h
      exact Or.inl ⟨htrap, (Except.error.inj h).symm⟩
    · simp only [if_neg htrap] at h
      exact Or.inr ⟨by simpa using htrap, (Except.error.inj h).symm⟩

theorem runtimeCallToolBinary_error {err : String × Bool} (hname : name ∈ tools) {g : GuestAnswer}
    (h : (runtimeCallToolBinary language name argsTlv tools g).result = .error err) :
    (decodesFirst language = true ∧ ∃ d, decodeJsonValue argsTlv = .err d ∧ err = (d.text, false)) ∨
      g = .error err.1 err.2 := by
  have hguest : (runtimeCallTool language name tools g).result = .error err → g = .error err.1 err.2 := by
    intro hcall
    unfold runtimeCallTool at hcall
    rw [if_neg (not_not_intro hname)] at hcall
    cases g with
    | ok output => cases hcall
    | error text runtimeError =>
      obtain rfl := Except.error.inj hcall
      rfl
  rw [runtimeCallToolBinary] at h
  by_cases hfirst : decodesFirst language
  · rw [if_pos hfirst] at h
    cases hdecode : decodeJsonValue argsTlv with
    | ok p => rw [hdecode] at h; exact Or.inr (hguest h)
    | err d => rw [hdecode] at h; exact Or.inl ⟨hfirst, d, rfl, (Except.error.inj h).symm⟩
    | panic => exact absurd hdecode (decode_ne_panic _ _)
  · rw [if_neg hfirst] at h
    exact Or.inr (hguest h)

theorem callWasmToolBinary_ok {output : String}
    (h : (callWasmToolBinary s name language argsTlv a).result = .ok output) :
    checkArgsFit language argsTlv.length "Binary TLV arguments" = .ok () ∧
      (decodesFirst language = true → ∃ p, decodeJsonValue argsTlv = .ok p) := by
  obtain ⟨e, -, hrun⟩ | ⟨t, tools, -, ⟨e, -, hrun⟩ | ⟨hfit, hrun⟩⟩ :=
    callWasmToolBinary_cases s name language argsTlv a
  · rw [hrun] at h
    cases h
  · rw [hrun] at h
    cases h
  refine ⟨hfit, fun hfirst => ?_⟩
  rw [hrun, conclude, runtimeCallToolBinary, if_pos hfirst] at h
  cases hdecode : decodeJsonValue argsTlv with
  | ok p => exact ⟨p, rfl⟩
  | err d =>
    rw [hdecode] at h
    by_cases htrap : guestTrapped (d.text, false)
    · simp only [if_pos htrap] at h
      cases h
    · simp only [if_neg htrap] at h
      cases h
  | panic => exact absurd hdecode (decode_ne_panic _ _)

theorem callWasmToolBinary_starts (hholds : s.Holds language name)
    (hfit : checkArgsFit language argsTlv.length "Binary TLV arguments" = .ok ())
    (hdecode : decodesFirst language = true → ∃ p, decodeJsonValue argsTlv = .ok p) :
    (callWasmToolBinary s name language argsTlv a).starts = [language] := by
  obtain ⟨tools, hrt, hname⟩ := cachedRuntime_of_holds (a := a) hholds
  have hstarted : (runtimeCallTool language name tools a.call).started = true := by
    unfold runtimeCallTool
    rw [if_neg (not_not_intro hname)]
    cases a.call <;> rfl
  have hbinary : (runtimeCallToolBinary language name argsTlv tools a.call).started = true := by
    rw [runtimeCallToolBinary]
    by_cases hfirst : decodesFirst language
    · obtain ⟨p, hp⟩ := hdecode hfirst
      rw [if_pos hfirst, hp]
      exact hstarted
    · rw [if_neg hfirst]
      exact hstarted
  rw [callWasmToolBinary, hrt]
  simp only
  rw [hfit]
  simp only
  rw [conclude_starts, if_pos hbinary]

end Runs

end VelocityMcp.Wasm
