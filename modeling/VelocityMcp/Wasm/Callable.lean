import VelocityMcp.Wasm.Bookkeeping

/-!
# Wasm.Callable — which calls are refused as a second registration of their tool

Every call on the JSON path registers its tool, and a name is registered once in the life of the process.
-/

namespace VelocityMcp.Wasm

open Lib NdaNative

/-- The call came to a second registration of the name. -/
def Refused (d : Done String) : Prop := ∃ name language, d.result = .error (.duplicate name language)

/-- The WASM tool that a JSON call finds is not registered. -/
def NotRegistered (s : State) (name : String) : Prop :=
  name ∉ builtinToolNames → ∀ tool language, pluginTool s.plugins name = some tool → tool.executorType = "wasm" →
    tool.language = some language → name ∉ s.registry language

/-- The WASM tool that a JSON call finds is registered. -/
def Registered (s : State) (name : String) : Prop :=
  ∃ tool language, name ∉ builtinToolNames ∧ pluginTool s.plugins name = some tool ∧ tool.executorType = "wasm" ∧
    tool.language = some language ∧ name ∈ s.registry language

/-- No error of a binary call that reaches the runtime is taken for one from before the tool ran. -/
structure ErrorsStay (name language : String) (argsTlv : Bytes) (a : Answers) : Prop where
  fit : ∀ e, checkArgsFit language argsTlv.length "Binary TLV arguments" = .error e → ¬ TriedAgain e
  decode : decodesFirst language = true → ∀ e, decodeJsonValue argsTlv = .err e →
    ¬ TriedAgain (.failed true name e.text)
  failed : ∀ text runtimeError, a.call = .error text runtimeError → guestTrapped (text, runtimeError) = false →
    ¬ TriedAgain (.failed true name text)
  trapped : ∀ text runtimeError, a.call = .error text runtimeError → guestTrapped (text, runtimeError) = true →
    ¬ TriedAgain (.trapped name (trapReason text))

/-- A binary call that does not end on the JSON path with its tool registered. -/
structure BinaryOk (s : State) (name : String) (argsTlv : Bytes) (c : CallAnswers) : Prop where
  fallback : name ∈ s.fallback → s.metadata name = none ∧ NotRegistered s name
  errors : ∀ language, binaryLanguage s name = some language → ErrorsStay name language argsTlv c.first
  holds : ∀ language, s.metadata name = some language → s.Holds language name
  register : ∀ language, s.metadata name = none → binaryLanguage s name = some language →
    name ∉ s.registry language ∧ c.upfront.register = .ok

/-- The calls that the code serves as it should; no plugins are loaded in between. -/
def CallOk (s : State) : Action → Prop
  | .call (.json name _) _ => NotRegistered s name
  | .call (.binary name argsTlv) c => name ∉ builtinToolNames → BinaryOk s name argsTlv c
  | .load _ => False

section Branches

variable {f64Text : F64Text} {s t : State} {name language : String} {arguments : Value} {argsTlv : Bytes}
  {tools : List String} {a : Answers} {c : CallAnswers} {e : PluginError} {tool : PluginTool}

/-! ## What is not refused -/

theorem cachedRuntime_error_ne_duplicate (h : cachedRuntime s language a = .error e) :
    ∀ n l, e ≠ .duplicate n l := by
  rintro n l rfl
  rw [cachedRuntime] at h
  cases hcache : s.cache language with
  | some tools => rw [hcache] at h; cases h
  | none =>
    rw [hcache, createWasmRuntime] at h
    by_cases hlang : language ∉ wasmLanguages
    · rw [if_pos hlang] at h
      cases h
    · rw [if_neg hlang] at h
      cases hcreate : a.create <;> rw [hcreate] at h <;> cases h

theorem checkArgsFit_error_ne_duplicate {len : ℕ} {what : String} (h : checkArgsFit language len what = .error e) :
    ∀ n l, e ≠ .duplicate n l := by
  rintro n l rfl
  rw [checkArgsFit] at h
  cases hcap : argsSlotCapacity language with
  | none => rw [hcap] at h; cases h
  | some capacity =>
    rw [hcap] at h
    by_cases hle : capacity ≤ len
    · simp only [if_pos hle] at h
      cases h
    · simp only [if_neg hle] at h
      cases h

theorem conclude_not_refused {binary : Bool} {r : Reply} : ¬ Refused (conclude s binary name language r) := by
  rintro ⟨n, l, h⟩
  rw [conclude] at h
  cases hr : r.result with
  | ok output => rw [hr] at h; cases h
  | error err =>
    rw [hr] at h
    by_cases htrap : guestTrapped err
    · simp only [if_pos htrap] at h
      cases h
    · simp only [if_neg htrap] at h
      cases h

theorem registerWasmToolSource_error_ne_duplicate (hname : name ∉ s.registry language)
    (h : registerWasmToolSource s name language a = (t, .error e)) : ∀ n l, e ≠ .duplicate n l := by
  obtain ⟨e', hrt, hrun⟩ | ⟨u, tools, hrt, ⟨hmem, -⟩ | ⟨-, text, kept, -, hrun⟩ | ⟨-, -, hrun⟩⟩ :=
    registerWasmToolSource_cases s name language a
  · obtain ⟨-, he⟩ := Prod.mk.inj (hrun.symm.trans h)
    obtain rfl := Except.error.inj he
    exact cachedRuntime_error_ne_duplicate hrt
  · exact absurd hmem hname
  · obtain ⟨-, he⟩ := Prod.mk.inj (hrun.symm.trans h)
    obtain rfl := Except.error.inj he
    simp
  · obtain ⟨-, he⟩ := Prod.mk.inj (hrun.symm.trans h)
    cases he

theorem callTool_not_refused (hname : NotRegistered s name) : ¬ Refused (callTool f64Text s name arguments c) := by
  rintro ⟨n, l, h⟩
  obtain ⟨k, r, hr, -, hrun⟩ | ⟨tool, hbuiltin, -, htool, hwasm, hrun⟩ := callTool_cases f64Text s name arguments c
  · rw [hrun] at h
    exact hr n l h
  rw [hrun] at h
  obtain ⟨e, he, hrun⟩ | ⟨language, hlang, hcases⟩ :=
    executeWasmPluginTool_cases f64Text s tool arguments c.decoded
  · rw [hrun] at h
    exact he n l (Except.error.inj h)
  have hnot := hname hbuiltin tool language htool hwasm hlang
  rw [← name_of_pluginTool htool] at hnot
  obtain ⟨t, e, ht, hrun⟩ | ⟨t, ht, ⟨e, hfit, hrun⟩ | ⟨-, -, hrun⟩⟩ := hcases
  · rw [hrun] at h
    exact registerWasmToolSource_error_ne_duplicate hnot ht n l (Except.error.inj h)
  · rw [hrun] at h
    exact checkArgsFit_error_ne_duplicate hfit n l (Except.error.inj h)
  · rw [hrun] at h
    exact conclude_not_refused ⟨n, l, h⟩

theorem callToolDecoded_not_refused (hname : NotRegistered s name) :
    ¬ Refused (callToolDecoded f64Text s name argsTlv c) := by
  rw [callToolDecoded]
  cases hdecode : decodeJsonValue argsTlv with
  | ok p => exact callTool_not_refused hname
  | err e => rintro ⟨n, l, h⟩; cases h
  | panic => exact absurd hdecode (decode_ne_panic _ _)

theorem callWasmToolBinary_not_refused : ¬ Refused (callWasmToolBinary s name language argsTlv a) := by
  rintro ⟨n, l, h⟩
  obtain ⟨e, hrt, hrun⟩ | ⟨t, tools, hrt, ⟨e, hfit, hrun⟩ | ⟨-, hrun⟩⟩ :=
    callWasmToolBinary_cases s name language argsTlv a
  · rw [hrun] at h
    exact cachedRuntime_error_ne_duplicate hrt n l (Except.error.inj h)
  · rw [hrun] at h
    exact checkArgsFit_error_ne_duplicate hfit n l (Except.error.inj h)
  · rw [hrun] at h
    exact conclude_not_refused ⟨n, l, h⟩

/-! ## A binary call of a tool that the runtime has -/

theorem callWasmToolBinary_error_stays (hholds : s.Holds language name) (hstay : ErrorsStay name language argsTlv a)
    (h : (callWasmToolBinary s name language argsTlv a).result = .error e) : ¬ TriedAgain e := by
  obtain ⟨tools, hrt, hname⟩ := cachedRuntime_of_holds (a := a) hholds
  obtain ⟨e', hrt', -⟩ | ⟨t, tools', hrt', ⟨e', hfit, hrun⟩ | ⟨-, hrun⟩⟩ :=
    callWasmToolBinary_cases s name language argsTlv a
  · cases hrt'.symm.trans hrt
  · rw [hrun] at h
    obtain rfl := Except.error.inj h
    exact hstay.fit e' hfit
  obtain ⟨rfl, rfl⟩ := Prod.mk.inj (Except.ok.inj (hrt'.symm.trans hrt))
  rw [hrun] at h
  obtain ⟨err, herr, hkind⟩ := conclude_error h
  obtain ⟨hfirst, d, hd, rfl⟩ | hcall := runtimeCallToolBinary_error hname herr
  · obtain ⟨htrap, -⟩ | ⟨-, rfl⟩ := hkind
    · rw [guestTrapped, isTrapMessage_decodeError] at htrap
      cases htrap
    · exact hstay.decode hfirst d hd
  · obtain ⟨htrap, rfl⟩ | ⟨htrap, rfl⟩ := hkind
    · exact hstay.trapped err.1 err.2 hcall htrap
    · exact hstay.failed err.1 err.2 hcall htrap

theorem callRegistered_eq_first (hholds : s.Holds language name) (hstay : ErrorsStay name language argsTlv c.first) :
    callRegistered f64Text s name language argsTlv c = callWasmToolBinary s name language argsTlv c.first := by
  obtain ⟨-, hrun⟩ | ⟨e, he, hback, -⟩ := callRegistered_cases f64Text s name language argsTlv c
  · exact hrun
  · exact absurd hback (callWasmToolBinary_error_stays hholds hstay he)

/-! ## The registration up front -/

theorem registerUpfront_error (hok : s.metadata name = none → name ∉ s.registry language ∧ a.register = .ok)
    (h : registerUpfront s name language a = (t, .error e)) : t = s ∧ s.metadata name = none := by
  obtain ⟨-, hrun⟩ | ⟨hmeta, ⟨e', hrun⟩ | hrun⟩ := registerUpfront_cases s name language a
  · cases (Prod.mk.inj (h.symm.trans hrun)).2
  · exact ⟨(Prod.mk.inj (h.symm.trans hrun)).1, hmeta⟩
  refine ⟨?_, hmeta⟩
  obtain ⟨hnot, hreg⟩ := hok hmeta
  obtain ⟨e', -, hrun'⟩ | ⟨u, tools, -, ⟨hmem, -⟩ | ⟨-, text, kept, hfail, -⟩ | ⟨-, -, hrun'⟩⟩ :=
    registerWasmToolSource_cases s name language a
  · exact (Prod.mk.inj (h.symm.trans (hrun.trans hrun'))).1
  · exact absurd hmem hnot
  · rw [hreg] at hfail
    cases hfail
  · cases (Prod.mk.inj (h.symm.trans (hrun.trans hrun'))).2

theorem registerUpfront_ok (h : registerUpfront s name language a = (t, .ok ())) : t.metadata name ≠ none := by
  obtain ⟨hmeta, hrun⟩ | ⟨-, ⟨e, hrun⟩ | hrun⟩ := registerUpfront_cases s name language a
  · obtain ⟨rfl, -⟩ := Prod.mk.inj (h.symm.trans hrun)
    exact hmeta
  · cases (Prod.mk.inj (h.symm.trans hrun)).2
  · rw [(registerWasmToolSource_ok (hrun.symm.trans h)).2.2.2.2.1]
    simp

/-! ## What a guest that started leaves behind -/

theorem Registered.not_builtin (h : Registered s name) : name ∉ builtinToolNames := by
  obtain ⟨_, _, hbuiltin, _⟩ := h
  exact hbuiltin

theorem Registered.not_notRegistered (h : Registered s name) : ¬ NotRegistered s name := by
  obtain ⟨tool, language, hbuiltin, htool, hwasm, hlang, hname⟩ := h
  exact fun hnot => hnot hbuiltin tool language htool hwasm hlang hname

theorem Registered.of_steps {calm : Bool} {registers : String → String → Prop} (h : Registered s name)
    (hsteps : Steps calm registers s t) : Registered t name := by
  obtain ⟨tool, language, hbuiltin, htool, hwasm, hlang, hname⟩ := h
  exact ⟨tool, language, hbuiltin, by rw [hsteps.plugins_eq]; exact htool, hwasm, hlang, hsteps.mem_registry hname⟩

theorem callTool_registers (h : (callTool f64Text s name arguments c).starts ≠ []) :
    Registered (callTool f64Text s name arguments c).state name := by
  have hsteps : Steps false (fun _ _ => True) s (callTool f64Text s name arguments c).state :=
    steps_callTool f64Text (fun _ _ => trivial) (Or.inl rfl)
  obtain ⟨k, r, -, -, hrun⟩ | ⟨tool, hbuiltin, -, htool, hwasm, hrun⟩ := callTool_cases f64Text s name arguments c
  · rw [hrun] at h
    exact absurd rfl h
  rw [hrun] at h hsteps ⊢
  obtain ⟨e, -, hrun⟩ | ⟨language, hlang, ⟨t, e, -, hrun⟩ | ⟨t, ht, ⟨e, -, hrun⟩ | ⟨-, -, hrun⟩⟩⟩ :=
    executeWasmPluginTool_cases f64Text s tool arguments c.decoded
  · rw [hrun] at h
    exact absurd rfl h
  · rw [hrun] at h
    exact absurd rfl h
  · rw [hrun] at h
    exact absurd rfl h
  · refine ⟨tool, language, hbuiltin, by rw [hsteps.plugins_eq]; exact htool, hwasm, hlang, ?_⟩
    rw [hrun, conclude_registry, ← name_of_pluginTool htool]
    exact (registerWasmToolSource_ok ht).2.2.1

theorem callToolDecoded_registers (h : (callToolDecoded f64Text s name argsTlv c).starts ≠ []) :
    Registered (callToolDecoded f64Text s name argsTlv c).state name := by
  rw [callToolDecoded] at h ⊢
  cases hdecode : decodeJsonValue argsTlv with
  | ok p =>
    rw [hdecode] at h
    exact callTool_registers h
  | err e => rw [hdecode] at h; exact absurd rfl h
  | panic => exact absurd hdecode (decode_ne_panic _ _)

/-- A binary call that goes the JSON way at once starts a guest only if the tool is recorded as served so. -/
theorem mem_fallback_of_skip (hskip : name ∈ builtinToolNames ∨ binaryLanguage s name = none ∨ name ∈ s.fallback)
    (h : (callToolDecoded f64Text s name argsTlv c).starts ≠ []) : name ∈ s.fallback := by
  have hsteps : Steps false (fun _ _ => True) s (callToolDecoded f64Text s name argsTlv c).state :=
    steps_callToolDecoded f64Text (fun _ _ => trivial) (Or.inl rfl)
  obtain ⟨tool, language, hnot, htool, hwasm, hlang, -⟩ := callToolDecoded_registers h
  rw [hsteps.plugins_eq] at htool
  rcases hskip with hbuiltin | hnone | hfallback
  · exact absurd hbuiltin hnot
  · rw [binaryLanguage, manifestWasmLanguage_of_pluginTool htool hwasm hlang] at hnone
    simp at hnone
  · exact hfallback

end Branches

/-! ## Runs -/

/-- The language recorded for a name is the manifest's. -/
def Recorded (s : State) : Prop :=
  ∀ name language, s.metadata name = some language → manifestWasmLanguage s.plugins name = some language

section Runs

variable {f64Text : F64Text} {s t : State} {name : String} {r : Request} {c : CallAnswers}

theorem Recorded.binaryLanguage (h : Recorded s) (name : String) :
    binaryLanguage s name = manifestWasmLanguage s.plugins name := by
  rw [Wasm.binaryLanguage]
  cases hname : s.metadata name with
  | none => rfl
  | some language =>
    rw [h name language hname]
    rfl

theorem Recorded.steps_serve (h : Recorded s) :
    Steps false (fun n l => manifestWasmLanguage s.plugins n = some l) s (serve f64Text s r c).state :=
  Wasm.steps_serve f64Text (fun language hl => hl.elim (h r.name language) id) (Or.inl rfl)

theorem Recorded.of_steps (h : Recorded s)
    (hsteps : Steps false (fun n l => manifestWasmLanguage s.plugins n = some l) s t) : Recorded t := by
  intro name language hname
  rw [hsteps.plugins_eq]
  exact (hsteps.metadata_cases hname).elim (h name language) id

theorem recorded_of_reachable (h : ReachableWhen Fresh (step f64Text) CallOk s) : Recorded s := by
  refine h.invariant (fun s hs name language hname => ?_) fun s a s' hs hok hstep => ?_
  · rw [hs.2.2.1] at hname
    cases hname
  · cases a with
    | call r c =>
      obtain rfl := Option.some.inj hstep
      exact hs.of_steps hs.steps_serve
    | load plugins => exact hok.elim

theorem steps_of_reachable (hs : Recorded s) (h : ReachableWhen (· = s) (step f64Text) CallOk t) :
    Steps false (fun n l => manifestWasmLanguage s.plugins n = some l) s t := by
  refine h.invariant (fun u hu => hu ▸ .refl) fun u a u' hu hok hstep => ?_
  cases a with
  | call r c =>
    obtain rfl := Option.some.inj hstep
    have hstep : Steps _ _ u (serve f64Text u r c).state := (hs.of_steps hu).steps_serve
    rw [hu.plugins_eq] at hstep
    exact hu.trans hstep
  | load plugins => exact hok.elim

theorem notRegistered_of_language {language : String} (hlang : binaryLanguage s name = some language)
    (hmeta : s.metadata name = none) (hnot : name ∉ s.registry language) : NotRegistered s name := by
  intro _ tool language' htool hwasm htoolLang
  have hmanifest := manifestWasmLanguage_of_pluginTool htool hwasm htoolLang
  rw [binaryLanguage, hmeta, Option.none_or, hmanifest] at hlang
  obtain rfl := Option.some.inj hlang
  exact hnot

theorem BinaryOk.holds_upfront {language : String} {argsTlv : Bytes} (h : BinaryOk s name argsTlv c)
    (hlang : binaryLanguage s name = some language)
    (ht : registerUpfront s name language c.upfront = (t, .ok ())) : t.Holds language name := by
  refine holds_of_registerUpfront (fun hmeta => ?_) ht
  cases hname : s.metadata name with
  | none => exact absurd hname hmeta
  | some language' =>
    rw [binaryLanguage, hname] at hlang
    obtain rfl := Option.some.inj hlang
    exact h.holds language' hname

/-- **One call** is not refused. -/
theorem serve_not_refused (hok : CallOk s (.call r c)) : ¬ Refused (serve f64Text s r c) := by
  cases r with
  | json name arguments => exact callTool_not_refused hok
  | binary name argsTlv =>
    show ¬ Refused (callToolBinary f64Text s name argsTlv c)
    obtain ⟨hskip, hrun⟩ | ⟨hbuiltin, hfallback, language, hlang, hcases⟩ :=
      callToolBinary_cases f64Text s name argsTlv c
    · rw [hrun]
      refine callToolDecoded_not_refused fun hbuiltin tool language htool hwasm htoolLang => ?_
      rcases hskip with hbuiltin' | hnone | hfallback
      · exact absurd hbuiltin' hbuiltin
      · rw [binaryLanguage, manifestWasmLanguage_of_pluginTool htool hwasm htoolLang] at hnone
        simp at hnone
      · exact ((hok hbuiltin).fallback hfallback).2 hbuiltin tool language htool hwasm htoolLang
    have hbinary := hok hbuiltin
    obtain ⟨t, e, ht, hrun⟩ | ⟨t, ht, hrun⟩ := hcases
    · obtain ⟨rfl, hmeta⟩ := registerUpfront_error (fun hmeta => hbinary.register language hmeta hlang) ht
      have hnot := notRegistered_of_language hlang hmeta (hbinary.register language hmeta hlang).1
      rw [hrun]
      exact callToolDecoded_not_refused (s := t.recordFallback name) hnot
    · rw [hrun, callRegistered_eq_first (hbinary.holds_upfront hlang ht) (hbinary.errors language hlang)]
      exact callWasmToolBinary_not_refused

theorem BinaryOk.not_registered {argsTlv : Bytes} (h : BinaryOk s name argsTlv c) (hfallback : name ∈ s.fallback) :
    ¬ Registered s name := fun hreg =>
  hreg.not_notRegistered (h.fallback hfallback).2

/-- A binary call of a recorded tool is a first attempt, and starts the guest if the runtime takes the arguments. -/
theorem BinaryOk.starts {language : String} {argsTlv : Bytes} (h : BinaryOk s name argsTlv c)
    (hbuiltin : name ∉ builtinToolNames) (hmeta : s.metadata name ≠ none) (hlang : binaryLanguage s name = some language)
    (hfit : checkArgsFit language argsTlv.length "Binary TLV arguments" = .ok ())
    (hdecode : decodesFirst language = true → ∃ p, decodeJsonValue argsTlv = .ok p) :
    (callToolBinary f64Text s name argsTlv c).starts ≠ [] := by
  obtain ⟨hskip, -⟩ | ⟨-, -, language', hl, ⟨t, e, ht, -⟩ | ⟨t, ht, hrun⟩⟩ :=
    callToolBinary_cases f64Text s name argsTlv c
  · rcases hskip with hb | hnone | hfallback
    · exact absurd hb hbuiltin
    · cases hnone.symm.trans hlang
    · exact absurd (h.fallback hfallback).1 hmeta
  · exact absurd (registerUpfront_error (fun hnone => absurd hnone hmeta) ht).2 hmeta
  · obtain rfl := Option.some.inj (hl.symm.trans hlang)
    have hheld := h.holds_upfront hl ht
    rw [hrun, callRegistered_eq_first hheld (h.errors language' hl), callWasmToolBinary_starts hheld hfit hdecode]
    simp

/-- **One call again**: what started the guest and succeeded does so in every later state where the call is in
order. -/
theorem started_again {output : String} {c' : CallAnswers} (hs : Recorded s) (hok : CallOk s (.call r c))
    (hresult : (serve f64Text s r c).result = .ok output) (hstarts : (serve f64Text s r c).starts ≠ [])
    (hsteps : Steps false (fun n l => manifestWasmLanguage s.plugins n = some l) (serve f64Text s r c).state t)
    (hok' : CallOk t (.call r c')) : (serve f64Text t r c').starts ≠ [] := by
  have hserve : Steps _ _ s (serve f64Text s r c).state := hs.steps_serve
  cases r with
  | json name arguments =>
    have hreg : Registered t name := (callTool_registers hstarts).of_steps hsteps
    exact absurd hok' hreg.not_notRegistered
  | binary name argsTlv =>
    change (callToolBinary f64Text s name argsTlv c).result = _ at hresult
    change (callToolBinary f64Text s name argsTlv c).starts ≠ [] at hstarts
    change Steps _ _ (callToolBinary f64Text s name argsTlv c).state t at hsteps
    change Steps _ _ s (callToolBinary f64Text s name argsTlv c).state at hserve
    show (callToolBinary f64Text t name argsTlv c').starts ≠ []
    obtain ⟨hskip, hrun⟩ | ⟨hbuiltin, hfallback, language, hlang, hcases⟩ :=
      callToolBinary_cases f64Text s name argsTlv c
    · rw [hrun] at hstarts hsteps hserve
      have hreg : Registered t name := (callToolDecoded_registers hstarts).of_steps hsteps
      have hback : name ∈ t.fallback :=
        hsteps.mem_fallback (hserve.mem_fallback (mem_fallback_of_skip hskip hstarts))
      exact absurd hreg ((hok' hreg.not_builtin).not_registered hback)
    have hbinary := hok hbuiltin
    obtain ⟨u, e, hu, hrun⟩ | ⟨u, hu, hrun⟩ := hcases
    · rw [hrun] at hstarts hsteps
      have hreg : Registered t name := (callToolDecoded_registers hstarts).of_steps hsteps
      have hdecoded : Steps false (fun _ _ => True) (u.recordFallback name)
          (callToolDecoded f64Text (u.recordFallback name) name argsTlv c).state :=
        steps_callToolDecoded f64Text (fun _ _ => trivial) (Or.inl rfl)
      have hback : name ∈ t.fallback := hsteps.mem_fallback (hdecoded.mem_fallback List.mem_cons_self)
      exact absurd hreg ((hok' hbuiltin).not_registered hback)
    -- The tool stays recorded, so the call again is again a first attempt with the same arguments.
    have hlang' : binaryLanguage t name = some language := by
      have ht : Recorded t := (hs.of_steps hserve).of_steps (by rw [hserve.plugins_eq]; exact hsteps)
      rw [ht.binaryLanguage, hsteps.plugins_eq, hserve.plugins_eq, ← hs.binaryLanguage]
      exact hlang
    rw [hrun, callRegistered_eq_first (hbinary.holds_upfront hlang hu) (hbinary.errors language hlang)]
      at hresult hsteps
    obtain ⟨hfit, hdecode⟩ := callWasmToolBinary_ok hresult
    have hmeta : t.metadata name ≠ none := by
      have hcall : Steps false (fun _ _ => True) u (callWasmToolBinary u name language argsTlv c.first).state :=
        steps_callWasmToolBinary (Or.inl rfl)
      exact hsteps.metadata_ne_none (hcall.metadata_ne_none (registerUpfront_ok hu))
    exact (hok' hbuiltin).starts hbuiltin hmeta hlang' hfit hdecode

/-- **Tools stay callable**: where all calls are in order, none is refused as a second registration, and one that
started the guest and succeeded starts it again, however many calls lie in between. -/
theorem stays_callable (h : ReachableWhen Fresh (step f64Text) CallOk s) (hok : CallOk s (.call r c)) :
    ¬ Refused (serve f64Text s r c) ∧
      ∀ output, (serve f64Text s r c).result = .ok output → (serve f64Text s r c).starts ≠ [] →
        ∀ t c', ReachableWhen (· = (serve f64Text s r c).state) (step f64Text) CallOk t → CallOk t (.call r c') →
          (serve f64Text t r c').starts ≠ [] := by
  have hs : Recorded s := recorded_of_reachable h
  refine ⟨serve_not_refused hok, fun output hresult hstarts t c' ht hok' => ?_⟩
  have hsteps := steps_of_reachable (hs.of_steps hs.steps_serve) ht
  rw [Steps.plugins_eq hs.steps_serve] at hsteps
  exact started_again hs hok hresult hstarts hsteps hok'

/-- A binary call of the tool, with the argument null. -/
def shoutBinary : Request := .binary "shout" [4]

def shoutServed : Done String := serve (fun _ => []) (started [[shout]]) shoutBinary (allGoesWell (.ok "null"))

theorem errorsStay_shout : ErrorsStay "shout" "lua" [4] (allGoesWell (.ok "null")).first where
  fit e he := by cases he
  decode hfirst := by cases hfirst
  failed _ _ hcall := by cases hcall
  trapped _ _ hcall := by cases hcall

theorem callOk_shout : CallOk (started [[shout]]) (.call shoutBinary (allGoesWell (.ok "null"))) := fun _ =>
  { fallback := fun h => by cases h
    errors := fun language hlang => by
      obtain rfl : "lua" = language := Option.some.inj hlang
      exact errorsStay_shout
    holds := fun language h => by cases h
    register := fun language _ _ => ⟨List.not_mem_nil, rfl⟩ }

theorem callOk_shoutServed : CallOk shoutServed.state (.call shoutBinary (allGoesWell (.ok "null"))) := fun _ =>
  { fallback := fun h => by cases h
    errors := fun language hlang => by
      obtain rfl : "lua" = language := Option.some.inj hlang
      exact errorsStay_shout
    holds := fun language h => by
      obtain rfl : "lua" = language := Option.some.inj h
      exact ⟨["shout"], rfl, List.mem_cons_self⟩
    register := fun language h => by cases h }

/-- A binary call, for which the tool is started. -/
theorem stays_callable_shout :
    ¬ Refused shoutServed ∧
      (serve (fun _ => []) shoutServed.state shoutBinary (allGoesWell (.ok "null"))).starts ≠ [] := by
  obtain ⟨hnot, hagain⟩ := stays_callable (.init (fresh_started [[shout]])) callOk_shout
  exact ⟨hnot, hagain "null" rfl (by decide +kernel) shoutServed.state _ (.init rfl) callOk_shoutServed⟩

end Runs

/-- Two calls of one tool on the JSON path, and nothing outside goes wrong: the first starts the guest and
succeeds, the second is refused. -/
theorem shout_refused :
    let first := serve (fun _ => []) (started [[shout]]) (.json "shout" .null) (allGoesWell (.ok "null"))
    let second := serve (fun _ => []) first.state (.json "shout" .null) (allGoesWell (.ok "null"))
    Fresh (started [[shout]]) ∧ first.result = .ok "null" ∧ first.starts = ["lua"] ∧
      second.result = .error (.duplicate "shout" "lua") ∧ second.starts = [] ∧ Refused second := by
  refine ⟨fresh_started _, by decide +kernel, by decide +kernel, by decide +kernel, by decide +kernel, ?_⟩
  exact ⟨"shout", "lua", by decide +kernel⟩

end VelocityMcp.Wasm
