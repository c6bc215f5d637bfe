import VelocityMcp.Wasm.Bookkeeping

/-!
# Wasm.AtMostOnce — how often one binary call runs the tool

The classifiers read the error's text, so a guest can make any error of its own look like one from before the tool
ran.  The retry that follows is refused, as the name is registered; the fall back to JSON registers the tool for the
language of the manifest, and is refused too, unless that language has changed, or what runs the tool is no guest.
-/

namespace VelocityMcp.Wasm

open Lib NdaNative

/-- In every state that a process reaches, the tools of the runtimes and the names with a language are registered, and
the runtimes are of known languages. -/
structure Covered (s : State) : Prop where
  held : ∀ language name, s.Holds language name → name ∈ s.registry language
  recorded : ∀ name language, s.metadata name = some language → name ∈ s.registry language
  known : ∀ language tools, s.cache language = some tools → language ∈ wasmLanguages

section Invariant

variable {calm : Bool} {registers : String → String → Prop} {s t : State}

theorem fresh_covered (h : Fresh s) : Covered s := by
  obtain ⟨hcache, -, hmetadata, -⟩ := h
  refine ⟨?_, ?_, ?_⟩
  · rintro language name ⟨tools, hsome, -⟩
    rw [hcache] at hsome
    cases hsome
  · intro name language hsome
    rw [hmetadata] at hsome
    cases hsome
  · intro language tools hsome
    rw [hcache] at hsome
    cases hsome

theorem Covered.insertName (h : Covered s) (language name : String) : Covered (s.insertName language name) := by
  exact ⟨fun l n hn => State.mem_insertName_of_mem (h.held l n hn) language name,
    fun n l hn => State.mem_insertName_of_mem (h.recorded n l hn) language name, h.known⟩

theorem Covered.putRuntime (h : Covered s) {language : String} {tools : List String} (hlang : language ∈ wasmLanguages)
    (htools : ∀ name ∈ tools, name ∈ s.registry language) : Covered (s.putRuntime language tools) := by
  refine ⟨?_, h.recorded, ?_⟩
  · rintro l n ⟨tools', hcache, hn⟩
    obtain ⟨rfl, rfl⟩ | ⟨-, hold⟩ := update_eq_some hcache
    · exact htools n hn
    · exact h.held l n ⟨tools', hold, hn⟩
  · intro l tools' hcache
    obtain ⟨rfl, -⟩ | ⟨-, hold⟩ := update_eq_some hcache
    · exact hlang
    · exact h.known l tools' hold

theorem Covered.setLanguage (h : Covered s) {language name : String} (hname : name ∈ s.registry language) :
    Covered (s.setLanguage name language) := by
  refine ⟨h.held, ?_, h.known⟩
  intro n l hn
  obtain ⟨rfl, rfl⟩ | ⟨-, hold⟩ := update_eq_some hn
  · exact hname
  · exact h.recorded n l hold

theorem Covered.evict (h : Covered s) (language : String) : Covered (s.evict language) := by
  have hold : ∀ {l : String} {tools : List String}, (s.evict language).cache l = some tools →
      s.cache l = some tools := by
    intro l tools hcache
    exact update_none_eq_some hcache
  exact ⟨fun l n ⟨tools, hcache, hn⟩ => h.held l n ⟨tools, hold hcache, hn⟩, h.recorded,
    fun l tools hcache => h.known l tools (hold hcache)⟩

/-- Whatever a call does, what a runtime gets is registered first, and the registry only grows. -/
theorem Covered.step (h : Covered s) (hst : Step calm registers s t) : Covered t := by
  have hadd : ∀ {language name : String} {tools : List String}, s.cache language = some tools →
      Covered ((s.insertName language name).putRuntime language (name :: tools)) := by
    intro language name tools hcache
    refine (h.insertName language name).putRuntime (h.known language tools hcache) fun n hn => ?_
    rcases List.mem_cons.mp hn with rfl | hn
    · exact s.mem_insertName language n
    · exact (h.insertName language name).held language n ⟨tools, hcache, hn⟩
  cases hst with
  | created _ hlang => exact h.putRuntime hlang (by simp)
  | registered hcache _ _ => exact (hadd hcache).setLanguage (s.mem_insertName _ _)
  | fallback => exact ⟨h.held, h.recorded, h.known⟩
  | failed _ _ => exact h.insertName _ _
  | kept _ hcache _ => exact hadd hcache
  | evicted _ => exact h.evict _

theorem Covered.steps (h : Covered s) (hst : Steps calm registers s t) : Covered t := by
  induction hst with
  | refl => exact h
  | tail _ hst ih => exact ih.step hst

end Invariant

theorem covered_of_reachable {f64Text : F64Text} {s : State}
    (h : ReachableWhen Fresh (step f64Text) (fun _ _ => True) s) : Covered s := by
  refine h.invariant (fun _ => fresh_covered) fun s a s' hs _ hstep => ?_
  cases a with
  | call r c =>
    obtain rfl := Option.some.inj hstep
    have hsteps : Steps false (fun _ _ => True) s (serve f64Text s r c).state :=
      steps_serve f64Text (fun _ _ => trivial) (Or.inl rfl)
    exact hs.steps hsteps
  | load plugins =>
    obtain rfl := Option.some.inj hstep
    exact ⟨hs.held, hs.recorded, hs.known⟩

/-! ## What runs the tool -/

/-- How often a call has run the tool: the guests started, and the executors that are no guest. -/
def Done.runs {α : Type} (d : Done α) : ℕ := d.starts.length + d.elsewhere

/-- The binary call starts the guest that the tool is recorded for. -/
structure BinaryStarts (s : State) (name language : String) (argsTlv : Bytes) : Prop where
  recorded : s.metadata name = some language
  holds : s.Holds language name
  fit : checkArgsFit language argsTlv.length "Binary TLV arguments" = .ok ()

/-- The first plugin's WASM tool of this name and language that comes with a source. -/
def HasSource (plugins : List (List PluginTool)) (name language : String) : Prop :=
  ∃ tools ∈ plugins, ∃ tool,
    (tools.find? fun t => t.name = name ∧ t.executorType = "wasm" ∧ t.language = some language) = some tool ∧
      (tool.source ≠ none ∨ tool.sourceFile ≠ none)

/-- The binary call registers the tool, which no runtime has had yet, and starts it. -/
structure UpfrontStarts (s : State) (name language : String) (argsTlv : Bytes) : Prop where
  unrecorded : s.metadata name = none
  manifest : manifestWasmLanguage s.plugins name = some language
  source : HasSource s.plugins name language
  known : language ∈ wasmLanguages
  unregistered : name ∉ s.registry language
  fit : checkArgsFit language argsTlv.length "Binary TLV arguments" = .ok ()

/-- With the arguments as JSON the tool is registered for the language of the manifest, and started there. -/
def JsonStarts (f64Text : F64Text) (s : State) (name : String) (argsTlv : Bytes) : Prop :=
  ∃ tool language v n, pluginTool s.plugins name = some tool ∧ tool.executorType = "wasm" ∧
    tool.language = some language ∧ (tool.source ≠ none ∨ tool.sourceFile ≠ none) ∧ language ∈ wasmLanguages ∧
    name ∉ s.registry language ∧ decodeJsonValue argsTlv = .ok (v, n) ∧
    checkArgsFit language (jsonText f64Text v).length "Tool arguments" = .ok ()

/-- With the arguments as JSON the tool is run by what is no guest. -/
def ElsewhereStarts (s : State) (frame : Bool) (name : String) (argsTlv : Bytes) : Prop :=
  ServedElsewhere s frame name ∧ ∃ p, decodeJsonValue argsTlv = .ok p

/-- With the arguments as JSON the tool is run, by a guest or not. -/
def JsonRuns (f64Text : F64Text) (s : State) (frame : Bool) (name : String) (argsTlv : Bytes) : Prop :=
  ElsewhereStarts s frame name argsTlv ∨ (frame = false ∧ JsonStarts f64Text s name argsTlv)

/-- Both: a guest runs the tool, and the tables and the manifest loaded now let it be run with JSON as well. -/
def RunsTwice (f64Text : F64Text) (s : State) (frame : Bool) (name : String) (argsTlv : Bytes) : Prop :=
  name ∉ builtinToolNames ∧ name ∉ s.fallback ∧
    (((∃ language, BinaryStarts s name language argsTlv) ∧ JsonRuns f64Text s frame name argsTlv) ∨
      ((∃ language, UpfrontStarts s name language argsTlv) ∧ ElsewhereStarts s frame name argsTlv))

section Calls

variable {f64Text : F64Text} {calm : Bool} {registers : String → String → Prop} {s t : State}
  {name language : String} {arguments : Value} {argsTlv : Bytes} {tool : PluginTool} {a : Answers} {c : CallAnswers}
  {frame : Bool}

theorem Done.runs_after {α : Type} (starts : List String) (d : Done α) :
    (d.after starts).runs = starts.length + d.runs := by
  simp only [Done.after, Done.runs, List.length_append]
  omega

theorem ElsewhereStarts.of_steps (h : ElsewhereStarts t frame name argsTlv) (hsteps : Steps calm registers s t) :
    ElsewhereStarts s frame name argsTlv := by
  obtain ⟨hserved, hdecode⟩ := h
  rw [ServedElsewhere, hsteps.plugins_eq] at hserved
  exact ⟨hserved, hdecode⟩

theorem JsonStarts.of_steps (h : JsonStarts f64Text t name argsTlv) (hsteps : Steps calm registers s t) :
    JsonStarts f64Text s name argsTlv := by
  obtain ⟨tool, language, v, n, htool, hwasm, hlang, hsource, hknown, hname, hrest⟩ := h
  rw [hsteps.plugins_eq] at htool
  exact ⟨tool, language, v, n, htool, hwasm, hlang, hsource, hknown, fun hmem => hname (hsteps.mem_registry hmem),
    hrest⟩

theorem JsonRuns.of_steps (h : JsonRuns f64Text t frame name argsTlv) (hsteps : Steps calm registers s t) :
    JsonRuns f64Text s frame name argsTlv :=
  h.imp (fun h => h.of_steps hsteps) fun ⟨hframe, h⟩ => ⟨hframe, h.of_steps hsteps⟩

theorem runs_conclude (binary : Bool) (r : Reply) :
    (conclude s binary name language r).runs ≤ 1 := by
  rw [Done.runs, conclude_starts, conclude_elsewhere]
  by_cases hstarted : r.started = true
  · simp [hstarted]
  · simp [hstarted]

/-- A binary attempt starts no more than the guest. -/
theorem runs_callWasmToolBinary (s : State) (name language : String) (argsTlv : Bytes) (a : Answers) :
    (callWasmToolBinary s name language argsTlv a).runs = (callWasmToolBinary s name language argsTlv a).starts.length ∧
      (callWasmToolBinary s name language argsTlv a).runs ≤ 1 := by
  obtain ⟨e, -, hrun⟩ | ⟨t, tools, -, ⟨e, -, hrun⟩ | ⟨-, hrun⟩⟩ :=
    callWasmToolBinary_cases s name language argsTlv a
  · simp [hrun, Done.runs]
  · simp [hrun, Done.runs]
  · rw [hrun]
    exact ⟨by rw [Done.runs, conclude_elsewhere, Nat.add_zero], runs_conclude true _⟩

theorem runs_callToolDecoded (f64Text : F64Text) (s : State) (name : String) (argsTlv : Bytes)
    (c : CallAnswers) : (callToolDecoded f64Text s name argsTlv c).runs ≤ 1 := by
  obtain ⟨k, r, -, hk, hrun⟩ | ⟨tool, v, n, -, -, -, -, -, hrun⟩ := callToolDecoded_cases f64Text s name argsTlv c
  · rw [hrun]
    show [].length + k ≤ 1
    by_cases hzero : k = 0
    · simp [hzero]
    · simp [(hk hzero).1]
  rw [hrun]
  obtain ⟨e, -, hrun⟩ | ⟨language, -, ⟨t, e, -, hrun⟩ | ⟨t, -, ⟨e, -, hrun⟩ | ⟨-, -, hrun⟩⟩⟩ :=
    executeWasmPluginTool_cases f64Text s tool v c.decoded
  · simp [hrun, Done.runs]
  · simp [hrun, Done.runs]
  · simp [hrun, Done.runs]
  · rw [hrun]
    exact runs_conclude false _

theorem holds_of_starts (h : (callWasmToolBinary s name language argsTlv a).starts ≠ []) :
    s.Holds language name ∧ checkArgsFit language argsTlv.length "Binary TLV arguments" = .ok () := by
  obtain ⟨e, -, hrun⟩ | ⟨t, tools, hrt, ⟨e, -, hrun⟩ | ⟨hfit, hrun⟩⟩ :=
    callWasmToolBinary_cases s name language argsTlv a
  · exact absurd (by rw [hrun]) h
  · exact absurd (by rw [hrun]) h
  refine ⟨?_, hfit⟩
  have hmem : name ∈ tools := by
    by_contra hname
    have hstarted : (runtimeCallToolBinary language name argsTlv tools a.call).started = false := by
      have hcall : (runtimeCallTool language name tools a.call).started = false := by
        unfold runtimeCallTool
        rw [if_pos hname]
      rw [runtimeCallToolBinary]
      by_cases hfirst : decodesFirst language
      · rw [if_pos hfirst]
        cases decodeJsonValue argsTlv <;> first | exact hcall | rfl
      · rw [if_neg hfirst]
        exact hcall
    rw [hrun, conclude_starts, hstarted] at h
    exact h rfl
  obtain ⟨-, hcache⟩ | ⟨-, -, rfl, -⟩ := cachedRuntime_eq_ok hrt
  · exact ⟨tools, hcache, hmem⟩
  · cases hmem

theorem jsonRuns_of_runs (hs : Covered s) (hbuiltin : name ∉ builtinToolNames)
    (h : (callToolDecoded f64Text s name argsTlv c).runs ≠ 0) : JsonRuns f64Text s c.frame name argsTlv := by
  obtain ⟨k, r, -, hk, hrun⟩ | ⟨tool, v, n, -, hframe, hdecode, htool, hwasm, hrun⟩ :=
    callToolDecoded_cases f64Text s name argsTlv c
  · rw [hrun, Done.runs, List.length_nil, Nat.zero_add] at h
    obtain ⟨-, hserved, hdecode⟩ := hk h
    exact Or.inl ⟨hserved.resolve_left hbuiltin, hdecode⟩
  rw [hrun] at h
  obtain ⟨e, -, hrun⟩ | ⟨language, hlang, ⟨t, e, -, hrun⟩ | ⟨t, ht, ⟨e, -, hrun⟩ | ⟨hfit, ⟨source, hsource⟩, hrun⟩⟩⟩ :=
    executeWasmPluginTool_cases f64Text s tool v c.decoded
  · exact absurd (by rw [hrun]; rfl) h
  · exact absurd (by rw [hrun]; rfl) h
  · exact absurd (by rw [hrun]; rfl) h
  obtain ⟨hname, -, -, ⟨tools, hcache, -⟩, -⟩ := registerWasmToolSource_ok ht
  rw [name_of_pluginTool htool] at hname ht
  have hsteps : Steps false (fun _ _ => True) s (registerWasmToolSource s name language c.decoded).1 :=
    steps_registerWasmToolSource trivial (Or.inl rfl)
  rw [ht] at hsteps
  refine Or.inr ⟨hframe, tool, language, v, n, htool, hwasm, hlang, ?_, (hs.steps hsteps).known language tools hcache,
    hname, hdecode,
    hfit⟩
  by_contra hno
  obtain ⟨hno, hnoFile⟩ := not_or.mp hno
  rw [resolveWasmSource, not_not.mp hno, not_not.mp hnoFile] at hsource
  cases hsource

theorem retry_of_registered (hname : name ∈ s.registry language) :
    (retryBinaryWithRegistration s name language argsTlv a).2 = ([], none) ∧
      (retryBinaryWithRegistration s name language argsTlv a).1.registry = s.registry := by
  rw [retryBinaryWithRegistration]
  cases hsource : pluginWasmSource s.plugins name language a with
  | none => exact ⟨rfl, rfl⟩
  | some source =>
    obtain ⟨e, -, hrun⟩ | ⟨t, tools, hrt, ⟨-, hrun⟩ | ⟨hnot, -⟩ | ⟨hnot, -⟩⟩ :=
      registerWasmToolSource_cases s name language a
    · rw [hrun]
      exact ⟨rfl, rfl⟩
    · obtain ⟨-, hregistry, -⟩ := cachedRuntime_ok hrt
      rw [hrun]
      exact ⟨rfl, hregistry⟩
    · exact absurd hname hnot
    · exact absurd hname hnot

theorem runs_both (hs : Covered s) (hsteps : Steps false (fun _ _ => True) s t) (hbuiltin : name ∉ builtinToolNames)
    (hone : s.Holds language name → checkArgsFit language argsTlv.length "Binary TLV arguments" = .ok () →
      ¬ JsonRuns f64Text s c.frame name argsTlv) :
    (callWasmToolBinary s name language argsTlv a).starts.length +
      (callToolDecoded f64Text t name argsTlv c).runs ≤ 1 := by
  obtain ⟨hlength, hfirst⟩ := runs_callWasmToolBinary s name language argsTlv a
  have hdecoded := runs_callToolDecoded f64Text t name argsTlv c
  by_contra hlt
  obtain ⟨hholds, hfit⟩ := holds_of_starts (s := s) (a := a) fun hnil => by
    rw [hnil, List.length_nil] at hlt
    omega
  refine hone hholds hfit
    (JsonRuns.of_steps (jsonRuns_of_runs (c := c) (hs.steps hsteps) hbuiltin fun hzero => ?_) hsteps)
  omega

/-- The attempts of a registered tool: a retry is refused, so only the JSON path could run the tool again. -/
theorem runs_callRegistered (hs : Covered s) (hname : name ∈ s.registry language) (hbuiltin : name ∉ builtinToolNames)
    (hone : s.Holds language name → checkArgsFit language argsTlv.length "Binary TLV arguments" = .ok () →
      ¬ JsonRuns f64Text s c.frame name argsTlv) : (callRegistered f64Text s name language argsTlv c).runs ≤ 1 := by
  have hfirst : Steps false (fun _ _ => True) s (callWasmToolBinary s name language argsTlv c.first).state :=
    steps_callWasmToolBinary (Or.inl rfl)
  obtain ⟨-, hrun⟩ | ⟨e, -, -, hrun | ⟨output, houtput, -⟩ | ⟨-, -, hrun⟩⟩ :=
    callRegistered_cases f64Text s name language argsTlv c
  · rw [hrun]
    exact (runs_callWasmToolBinary s name language argsTlv c.first).2
  · rw [hrun, Done.runs_after]
    exact runs_both hs hfirst hbuiltin hone
  · rw [(retry_of_registered (hfirst.mem_registry hname)).1] at houtput
    cases houtput
  · have hretry : Steps false (fun _ _ => True) s (retryBinaryWithRegistration
        (callWasmToolBinary s name language argsTlv c.first).state name language argsTlv c.retry).1 :=
      hfirst.trans (steps_retryBinaryWithRegistration trivial (Or.inl rfl))
    rw [hrun, Done.runs_after, (retry_of_registered (hfirst.mem_registry hname)).1, List.append_nil]
    exact runs_both hs (hretry.tail .fallback) hbuiltin hone

theorem source_of_pluginWasmSource {plugins : List (List PluginTool)}
    (h : pluginWasmSource plugins name language a ≠ none) :
    HasSource plugins name language := by
  obtain ⟨source, hsource⟩ := Option.ne_none_iff_exists'.mp h
  obtain ⟨tools, htools, hbind⟩ := List.exists_of_findSome?_eq_some hsource
  obtain ⟨tool, hfind, hor⟩ := Option.bind_eq_some_iff.mp hbind
  refine ⟨tools, htools, tool, hfind, ?_⟩
  by_contra hno
  obtain ⟨hnone, hfile⟩ := not_or.mp hno
  rw [not_not.mp hnone, not_not.mp hfile] at hor
  cases hor

/-- A registration up front that succeeds registers what the manifest has, under a known language. -/
theorem upfrontStarts_of_registered (hs : Covered s) (hmeta : s.metadata name = none)
    (hlang : manifestWasmLanguage s.plugins name = some language)
    (h : registerUpfront s name language a = (t, .ok ()))
    (hfit : checkArgsFit language argsTlv.length "Binary TLV arguments" = .ok ()) :
    UpfrontStarts s name language argsTlv := by
  have hsource : pluginWasmSource s.plugins name language a ≠ none := by
    intro hnone
    rw [registerUpfront, if_pos hmeta, hnone] at h
    cases (Prod.mk.inj h).2
  have hsteps : Steps false (fun _ _ => True) s (registerUpfront s name language a).1 :=
    steps_registerUpfront trivial (Or.inl rfl)
  obtain ⟨hne, -⟩ | ⟨-, ⟨e, hrun⟩ | hrun⟩ := registerUpfront_cases s name language a
  · exact absurd hmeta hne
  · cases (Prod.mk.inj (hrun.symm.trans h)).2
  obtain ⟨hname, -, -, ⟨tools, hcache, -⟩, -⟩ := registerWasmToolSource_ok (hrun.symm.trans h)
  rw [h] at hsteps
  exact ⟨hmeta, hlang, source_of_pluginWasmSource hsource, (hs.steps hsteps).known language tools hcache, hname, hfit⟩

/-- **At most once**, if no second way to run the tool is open. -/
theorem runs_callToolBinary (hs : Covered s) (htwice : ¬ RunsTwice f64Text s c.frame name argsTlv) :
    (callToolBinary f64Text s name argsTlv c).runs ≤ 1 := by
  obtain ⟨-, hrun⟩ | ⟨hbuiltin, hfallback, language, hlang, hcases⟩ := callToolBinary_cases f64Text s name argsTlv c
  · rw [hrun]
    exact runs_callToolDecoded f64Text _ name argsTlv c
  obtain ⟨t, e, -, hrun⟩ | ⟨t, ht, hrun⟩ := hcases
  · rw [hrun]
    exact runs_callToolDecoded f64Text _ name argsTlv c
  rw [hrun]
  obtain ⟨hmeta, hupfront⟩ | ⟨hmeta, ⟨e, hupfront⟩ | hupfront⟩ := registerUpfront_cases s name language c.upfront
  · obtain ⟨rfl, -⟩ := Prod.mk.inj (hupfront.symm.trans ht)
    have hrecorded : s.metadata name = some language := by
      cases hname : s.metadata name with
      | none => exact absurd hname hmeta
      | some language' =>
        rw [binaryLanguage, hname] at hlang
        exact hlang
    exact runs_callRegistered hs (hs.recorded name language hrecorded) hbuiltin fun hholds hfit hjson =>
      htwice ⟨hbuiltin, hfallback, Or.inl ⟨⟨language, hrecorded, hholds, hfit⟩, hjson⟩⟩
  · cases (Prod.mk.inj (hupfront.symm.trans ht)).2
  · -- Registered just now, for the language of the manifest: the JSON path would register it for the same.
    have hsteps : Steps false (fun _ _ => True) s (registerUpfront s name language c.upfront).1 :=
      steps_registerUpfront trivial (Or.inl rfl)
    rw [ht] at hsteps
    have hname : name ∈ t.registry language := (registerWasmToolSource_ok (hupfront.symm.trans ht)).2.2.1
    rw [binaryLanguage, hmeta, Option.none_or] at hlang
    refine runs_callRegistered (hs.steps hsteps) hname hbuiltin fun _ hfit hjson => ?_
    rcases hjson with helsewhere | ⟨-, tool, other, v, n, htool, hwasm, hother, -, -, hnot, -⟩
    · exact htwice ⟨hbuiltin, hfallback, Or.inr ⟨⟨language, upfrontStarts_of_registered hs hmeta hlang ht hfit⟩,
        helsewhere.of_steps hsteps⟩⟩
    · rw [hsteps.plugins_eq] at htool
      rw [manifestWasmLanguage_of_pluginTool htool hwasm hother] at hlang
      obtain rfl := Option.some.inj hlang
      exact hnot hname

/-! ## An error that is misread -/

/-- The guest's error "unknown" reads as one from before the tool ran, as the wrapper puts "tool" before it. -/
theorem triedAgain_unknown (name : String) : TriedAgain (.failed true name "unknown") := by
  refine Or.inr ?_
  have htext : (PluginError.failed true name "unknown").text =
      "WASM tool '" ++ name ++ "' execution failed (binary): " ++ "unknown" := rfl
  have htool : Occurs "tool" (asciiLower "WASM tool '") := by decide +kernel
  have hunknown : Occurs "unknown" (asciiLower "unknown") := by decide +kernel
  rw [binaryFailureIsPreExecution, htext]
  simp only [asciiLower_append, decide_eq_true_eq]
  exact Or.inl ⟨occurs_append_left hunknown _,
    occurs_append_right (occurs_append_right (occurs_append_right htool _) _) _⟩

/-- All goes well, up to the guest's error "unknown". -/
def misread (frame : Bool) : CallAnswers := { allGoesWell (.error "unknown" false) with frame := frame }

theorem callWasmToolBinary_unknown (h : BinaryStarts s name language argsTlv) {v : Value} {n : ℕ}
    (hdecode : decodeJsonValue argsTlv = .ok (v, n)) :
    callWasmToolBinary s name language argsTlv (misread frame).first =
      ⟨s, [language], 0, .error (.failed true name "unknown")⟩ := by
  obtain ⟨tools, hrt, hname⟩ := cachedRuntime_of_holds (a := (misread frame).first) h.holds
  have hcall : runtimeCallTool language name tools (.error "unknown" false) = ⟨true, .error ("unknown", false)⟩ := by
    unfold runtimeCallTool
    rw [if_neg (not_not_intro hname)]
  have hbinary : runtimeCallToolBinary language name argsTlv tools (.error "unknown" false) =
      ⟨true, .error ("unknown", false)⟩ := by
    rw [runtimeCallToolBinary, hdecode, hcall]
    exact ite_self _
  have htrap : guestTrapped ("unknown", false) = false := by decide +kernel
  rw [callWasmToolBinary, hrt]
  simp only
  rw [h.fit]
  show conclude s true name language (runtimeCallToolBinary language name argsTlv tools (.error "unknown" false)) = _
  rw [hbinary, conclude]
  simp [htrap]

theorem registerWasmToolSource_misread (hknown : language ∈ wasmLanguages) (hname : name ∉ s.registry language) :
    ∃ t, registerWasmToolSource s name language (misread frame).decoded = (t, .ok ()) := by
  obtain ⟨e, hrt, -⟩ | ⟨u, tools, -, ⟨hmem, -⟩ | ⟨-, text, kept, hfail, -⟩ | ⟨-, -, hrun⟩⟩ :=
    registerWasmToolSource_cases s name language (misread frame).decoded
  · rw [cachedRuntime] at hrt
    cases hcache : s.cache language with
    | some tools => rw [hcache] at hrt; cases hrt
    | none =>
      rw [hcache, createWasmRuntime, if_neg (not_not_intro hknown)] at hrt
      cases hrt
  · exact absurd hmem hname
  · cases hfail
  · exact ⟨_, hrun⟩

theorem runs_of_jsonStarts (hbuiltin : name ∉ builtinToolNames) (h : JsonStarts f64Text s name argsTlv) :
    (callToolDecoded f64Text s name argsTlv (misread false)).runs = 1 := by
  obtain ⟨tool, language, v, n, htool, hwasm, hlang, hsource, hknown, hname, hdecode, hfit⟩ := h
  obtain ⟨source, hresolve⟩ : ∃ source, resolveWasmSource tool (misread false).decoded = .ok source := by
    rw [resolveWasmSource]
    cases hsome : tool.source with
    | some source => exact ⟨source, rfl⟩
    | none =>
      cases hfile : tool.sourceFile with
      | some path => exact ⟨"", rfl⟩
      | none => exact absurd hfile (hsource.resolve_left (not_not_intro hsome))
  obtain ⟨t, ht⟩ : ∃ t, registerWasmToolSource s tool.name language (misread false).decoded = (t, .ok ()) := by
    rw [name_of_pluginTool htool]
    exact registerWasmToolSource_misread hknown hname
  obtain ⟨-, -, -, ⟨tools, hcache, hmem⟩, -⟩ := registerWasmToolSource_ok ht
  have hrun : callToolDecoded f64Text s name argsTlv (misread false) =
      executeWasmPluginTool f64Text s tool v (misread false).decoded := by
    rw [callToolDecoded, hdecode]
    show callTool f64Text s name v (misread false) = _
    rw [callTool, if_neg hbuiltin, if_neg (by simp [misread]), htool]
    simp only
    rw [executePluginTool, if_pos hwasm]
  have hstarted : (runtimeCallTool language tool.name tools (misread false).decoded.call).started = true := by
    unfold runtimeCallTool
    rw [if_neg (not_not_intro hmem)]
    cases (misread false).decoded.call <;> rfl
  rw [hrun, executeWasmPluginTool, hlang]
  simp only
  rw [hresolve]
  simp only
  rw [ht]
  simp only
  rw [hfit]
  simp only
  rw [hcache, Option.getD_some, Done.runs, conclude_elsewhere, conclude_starts, if_pos hstarted]
  rfl

theorem runs_of_elsewhereStarts (hbuiltin : name ∉ builtinToolNames) (h : ElsewhereStarts s frame name argsTlv) :
    (callToolDecoded f64Text s name argsTlv (misread frame)).runs = 1 := by
  obtain ⟨hserved, p, hdecode⟩ := h
  rw [callToolDecoded, hdecode]
  show (callTool f64Text s name p.1 (misread frame)).runs = 1
  rw [callTool, if_neg hbuiltin]
  by_cases hframe : (misread frame).frame = true
  · rw [if_pos hframe]
    rfl
  rw [if_neg hframe]
  cases htool : pluginTool s.plugins name with
  | none => rfl
  | some tool =>
    have hprocess : tool.executorType = "process" := (hserved.resolve_left hframe) tool htool
    have hwasm : tool.executorType ≠ "wasm" := by
      rw [hprocess]
      decide
    simp only
    rw [executePluginTool, if_neg hwasm, if_pos hprocess]
    rfl

theorem runs_of_jsonRuns (hbuiltin : name ∉ builtinToolNames) (h : JsonRuns f64Text s frame name argsTlv) :
    (callToolDecoded f64Text s name argsTlv (misread frame)).runs = 1 := by
  rcases h with h | ⟨rfl, h⟩
  · exact runs_of_elsewhereStarts hbuiltin h
  · exact runs_of_jsonStarts hbuiltin h

/-- A guest that fails with "unknown" is followed by the JSON path, which runs the tool once more if it can. -/
theorem runs_callRegistered_misread (hbuiltin : name ∉ builtinToolNames) (hname : name ∈ s.registry language)
    (hbinary : BinaryStarts s name language argsTlv) (hjson : JsonRuns f64Text s frame name argsTlv) :
    (callRegistered f64Text s name language argsTlv (misread frame)).runs = 2 := by
  obtain ⟨v, n, hdecode⟩ : ∃ v n, decodeJsonValue argsTlv = .ok (v, n) := by
    rcases hjson with ⟨-, p, hdecode⟩ | ⟨-, tool, other, v, n, -, -, -, -, -, -, hdecode, -⟩
    · exact ⟨p.1, p.2, hdecode⟩
    · exact ⟨v, n, hdecode⟩
  have hfirst : callWasmToolBinary s name language argsTlv (misread frame).first =
      ⟨s, [language], 0, .error (.failed true name "unknown")⟩ := callWasmToolBinary_unknown hbinary hdecode
  obtain ⟨hkept, -⟩ | ⟨e, -, -, hrun | ⟨output, houtput, -⟩ | ⟨-, -, hrun⟩⟩ :=
    callRegistered_cases f64Text s name language argsTlv (misread frame)
  · exact absurd (triedAgain_unknown name) (hkept _ (by rw [hfirst]))
  · rw [hrun, hfirst, Done.runs_after, runs_of_jsonRuns hbuiltin hjson]
    rfl
  · rw [hfirst, (retry_of_registered hname).1] at houtput
    cases houtput
  · have hretried : (retryBinaryWithRegistration s name language argsTlv (misread frame).retry).2 = ([], none) ∧
        (retryBinaryWithRegistration s name language argsTlv (misread frame).retry).1.registry = s.registry :=
      retry_of_registered hname
    obtain ⟨hretry, hregistry⟩ := hretried
    have hsteps : Steps false (fun _ _ => True) s (retryBinaryWithRegistration s name language argsTlv
        (misread frame).retry).1 := steps_retryBinaryWithRegistration trivial (Or.inl rfl)
    -- What the refused retry leaves has the same plugins and registered names.
    have hagain : JsonRuns f64Text ((retryBinaryWithRegistration s name language argsTlv
        (misread frame).retry).1.recordFallback name) frame name argsTlv := by
      have hplugins := hsteps.plugins_eq
      rw [JsonRuns, ElsewhereStarts, ServedElsewhere, JsonStarts, State.recordFallback, hplugins, hregistry]
      exact hjson
    rw [hrun, hfirst, hretry, List.append_nil, Done.runs_after, runs_of_jsonRuns hbuiltin hagain]
    rfl

theorem upfront_misread (h : UpfrontStarts s name language argsTlv) :
    ∃ t, registerUpfront s name language (misread frame).upfront = (t, .ok ()) ∧
      BinaryStarts t name language argsTlv ∧ name ∈ t.registry language := by
  obtain ⟨hmeta, -, ⟨tools, htools, tool, hfind, hsource⟩, hknown, hname, hfit⟩ := h
  have hsome : (pluginWasmSource s.plugins name language (misread frame).upfront).isSome = true := by
    rw [pluginWasmSource, List.findSome?_isSome_iff]
    refine ⟨tools, htools, ?_⟩
    rw [hfind, Option.bind_some]
    rcases hsource with hsource | hsource
    · obtain ⟨source, hsource⟩ := Option.ne_none_iff_exists'.mp hsource
      rw [hsource]
      rfl
    · obtain ⟨path, hpath⟩ := Option.ne_none_iff_exists'.mp hsource
      rw [hpath]
      cases tool.source <;> rfl
  obtain ⟨source, hsome⟩ := Option.isSome_iff_exists.mp hsome
  have hregisters : ∃ t, registerWasmToolSource s name language (misread frame).decoded = (t, .ok ()) :=
    registerWasmToolSource_misread hknown hname
  obtain ⟨t, ht⟩ := hregisters
  obtain ⟨-, -, hmem, hholds, hrecorded, -⟩ := registerWasmToolSource_ok ht
  refine ⟨t, ?_, ⟨hrecorded, hholds, hfit⟩, hmem⟩
  rw [registerUpfront, if_pos hmeta, hsome]
  exact ht

theorem runsTwice_runs (hs : Covered s) (h : RunsTwice f64Text s frame name argsTlv) :
    (callToolBinary f64Text s name argsTlv (misread frame)).runs = 2 := by
  obtain ⟨hbuiltin, hfallback, ⟨⟨language, hbinary⟩, hjson⟩ | ⟨⟨language, hupfront⟩, helsewhere⟩⟩ := h
  · have hrun : callToolBinary f64Text s name argsTlv (misread frame) =
        callRegistered f64Text s name language argsTlv (misread frame) := by
      rw [callToolBinary, if_neg hbuiltin, binaryLanguage, hbinary.recorded, Option.some_or]
      simp only
      rw [if_neg hfallback, registerUpfront, hbinary.recorded, if_neg (by simp)]
    rw [hrun]
    exact runs_callRegistered_misread hbuiltin (hs.recorded name language hbinary.recorded) hbinary hjson
  · have hregisters : ∃ t, registerUpfront s name language (misread frame).upfront = (t, .ok ()) ∧
        BinaryStarts t name language argsTlv ∧ name ∈ t.registry language := upfront_misread hupfront
    obtain ⟨t, ht, hbinary, hname⟩ := hregisters
    have hsteps : Steps false (fun _ _ => True) s (registerUpfront s name language (misread frame).upfront).1 :=
      steps_registerUpfront trivial (Or.inl rfl)
    rw [ht] at hsteps
    have hrun : callToolBinary f64Text s name argsTlv (misread frame) =
        callRegistered f64Text t name language argsTlv (misread frame) := by
      rw [callToolBinary, if_neg hbuiltin, binaryLanguage, hupfront.unrecorded, Option.none_or, hupfront.manifest]
      simp only
      rw [if_neg hfallback, ht]
    rw [hrun]
    refine runs_callRegistered_misread hbuiltin hname hbinary (Or.inl ?_)
    rw [ElsewhereStarts, ServedElsewhere, hsteps.plugins_eq]
    exact helsewhere

end Calls

/-! ## At most once -/

/-- **At most once**: in every state that a process reaches, a binary call runs the tool at most once, whatever the
guest and the rest answer, exactly if the call has no second way to run it. -/
theorem runs_le_one_iff {f64Text : F64Text} {s : State}
    (h : ReachableWhen Fresh (step f64Text) (fun _ _ => True) s) (frame : Bool) (name : String) (argsTlv : Bytes) :
    (∀ c, c.frame = frame → (callToolBinary f64Text s name argsTlv c).runs ≤ 1) ↔
      ¬ RunsTwice f64Text s frame name argsTlv := by
  have hs : Covered s := covered_of_reachable h
  refine ⟨fun hall htwice => ?_, fun htwice c hframe => ?_⟩
  · have hle := hall (misread frame) rfl
    rw [runsTwice_runs hs htwice] at hle
    omega
  · subst hframe
    exact runs_callToolBinary hs htwice

/-- Whatever its guest answers, the tool runs once. -/
theorem runs_le_one_iff_shout :
    (∀ c, c.frame = false → (callToolBinary (fun _ => []) (started [[shout]]) "shout" [4] c).runs ≤ 1) ↔
      ¬ RunsTwice (fun _ => []) (started [[shout]]) false "shout" [4] :=
  runs_le_one_iff (.init (fresh_started [[shout]])) false "shout" [4]

/-- The same tool in a later version of its plugin, written in Python. -/
def shoutInPython : PluginTool := ⟨"shout", "wasm", some "python", some "def shout(a): return a", none⟩

/-- The tool has run in Lua, and then its plugin is loaded in the other version. -/
def shoutReloaded : State :=
  (serve (fun _ => []) (started [[shout]]) (.binary "shout" [4]) (allGoesWell (.ok "null"))).state.load [[shoutInPython]]

/-- The guest fails with the error "unknown" after it has run, and is started once more, in the other language. -/
theorem shout_starts_twice :
    ReachableWhen Fresh (step fun _ => []) (fun _ _ => True) shoutReloaded ∧
      (callToolBinary (fun _ => []) shoutReloaded "shout" [4] (allGoesWell (.error "unknown" false))).starts =
        ["lua", "python"] := by
  refine ⟨?_, by decide +kernel⟩
  have hserved : ReachableWhen Fresh (step fun _ => []) (fun _ _ => True)
      (serve (fun _ => []) (started [[shout]]) (.binary "shout" [4]) (allGoesWell (.ok "null"))).state :=
    .step (a := .call (.binary "shout" [4]) (allGoesWell (.ok "null"))) (.init (fresh_started [[shout]])) trivial rfl
  exact .step (a := .load [[shoutInPython]]) hserved trivial rfl

end VelocityMcp.Wasm
