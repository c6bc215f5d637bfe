import VelocityMcp.Lib.Machine
import VelocityMcp.Lib.Tables
import VelocityMcp.Wasm.Plugins

/-!
# Wasm.RuntimeRegistry — language runtimes and the tools they host (`WasmRuntimeRegistry`)

`hosted_of_orderly`: every tool is hosted, if no runtime with tools is replaced, and none is destroyed that lists the
tool of another.
-/

namespace VelocityMcp.Wasm.RuntimeRegistry

open Lib

/-! ## The registry -/

structure WasmToolMeta where
  name : String
  language : String
  inputSchema : Value
  description : String

structure Runtime where
  language : String
  argsSlotCapacity : Option ℕ
  registered : List String
deriving DecidableEq

structure RuntimeEntry where
  runtime : Runtime
  toolNames : List String
deriving DecidableEq

/-- `WasmRuntimeRegistry`. -/
structure Registry where
  runtimes : String → Option RuntimeEntry
  tools : String → Option WasmToolMeta

/-- `new`: neither runtimes nor tools. -/
def new : Registry := ⟨fun _ => none, fun _ => none⟩

namespace Registry

variable (r : Registry)

/-- `register_runtime`; the runtime's `init` answers. -/
def registerRuntime (runtime : Runtime) (init : Except String Unit) : Registry × Except String Unit :=
  match init with
  | .error e => (r, .error e)
  | .ok () => ({ r with runtimes := Function.update r.runtimes runtime.language (some ⟨runtime, []⟩) }, .ok ())

/-- `register_tool`; after a failure the runtime may have kept the tool. -/
def registerTool (language name description : String) (inputSchema : Value) (answer : RegisterAnswer) :
    Registry × Except String Unit :=
  match r.runtimes language with
  | none => (r, .error s!"No runtime registered for language: {language}")
  | some entry =>
    let knows : Runtime := { entry.runtime with registered := name :: entry.runtime.registered }
    match answer with
    | .failed text kept =>
      if kept then
        ({ r with runtimes := Function.update r.runtimes language (some { entry with runtime := knows }) }, .error text)
      else (r, .error text)
    | .ok =>
      ({ runtimes := Function.update r.runtimes language (some ⟨knows, entry.toolNames ++ [name]⟩)
         tools := Function.update r.tools name (some ⟨name, language, inputSchema, description⟩) }, .ok ())

def hasTool (name : String) : Bool := (r.tools name).isSome

/-- The runtime that `call_tool` goes to. -/
def route (name : String) : Except String RuntimeEntry :=
  match r.tools name with
  | none => .error s!"Unknown WASM tool: {name}"
  | some tool =>
    match r.runtimes tool.language with
    | none => .error s!"Runtime missing for language: {tool.language}"
    | some entry => .ok entry

def checkArgsFit (runtime : Runtime) (len : ℕ) (what : String) : Except String Unit :=
  match runtime.argsSlotCapacity with
  | none => .ok ()
  | some capacity =>
    if capacity ≤ len then
      .error s!"{what} {len} bytes exceed the {capacity}-byte argument slot of the {runtime.language} runtime"
    else .ok ()

/-- `call_tool`; the runtime that it goes to answers. -/
def callTool (name argsJson : String) (answer : RuntimeEntry → Except String String) : Except String String := do
  let entry ← r.route name
  checkArgsFit entry.runtime (utf8 argsJson).length "Tool arguments"
  answer entry

/-- `destroy_runtime`; the runtime is gone whatever its own `destroy` answers. -/
def destroyRuntime (language : String) (answer : Except String Unit) : Registry × Except String Unit :=
  match r.runtimes language with
  | none => (r, .ok ())
  | some entry =>
    ({ runtimes := Function.update r.runtimes language none
       tools := entry.toolNames.foldl (fun tools name => Function.update tools name none) r.tools }, answer)

end Registry

/-! ## Runs -/

/-- An operation of the registry, with what the runtime answers. -/
inductive Action where
  | registerRuntime (runtime : Runtime) (init : Except String Unit)
  | registerTool (language name description : String) (inputSchema : Value) (answer : RegisterAnswer)
  | destroyRuntime (language : String) (answer : Except String Unit)

/-- Runtimes are registered, tools are registered in them, and runtimes are destroyed; what a runtime answers is chosen
from outside. -/
def step (r : Registry) : Action → Option Registry
  | .registerRuntime runtime init => some (r.registerRuntime runtime init).1
  | .registerTool language name description inputSchema answer =>
    some (r.registerTool language name description inputSchema answer).1
  | .destroyRuntime language answer => some (r.destroyRuntime language answer).1

namespace Registry

/-- The tool is in the table, under this language. -/
def Hosts (r : Registry) (language name : String) : Prop := ∃ tool, r.tools name = some tool ∧ tool.language = language

/-- Every tool in the table is one that its runtime has, and is listed for it. -/
def Hosted (r : Registry) : Prop := ∀ name tool, r.tools name = some tool →
  ∃ entry, r.runtimes tool.language = some entry ∧ name ∈ entry.runtime.registered ∧ name ∈ entry.toolNames

/-- The tools of the runtime go when it is destroyed, and no others. -/
def DestroysOwn (r : Registry) (language : String) : Prop := ∀ answer name,
  (r.Hosts language name → (r.destroyRuntime language answer).1.tools name = none) ∧
    (¬ r.Hosts language name → (r.destroyRuntime language answer).1.tools name = r.tools name)

/-- A call of a tool in the table goes to a runtime that has it. -/
def CallsReach (r : Registry) : Prop := ∀ name, r.hasTool name = true →
  ∃ entry, r.route name = .ok entry ∧ name ∈ entry.runtime.registered

end Registry

/-- A runtime is replaced only while it hosts no tool, and destroyed only while it lists no tool of another. -/
def Orderly (r : Registry) : Action → Prop
  | .registerRuntime runtime init => init = .ok () → ∀ name, ¬ r.Hosts runtime.language name
  | .registerTool _ _ _ _ _ => True
  | .destroyRuntime language _ => ∀ entry, r.runtimes language = some entry →
    ∀ name ∈ entry.toolNames, ∀ tool, r.tools name = some tool → tool.language = language

/-! ## What a step keeps -/

theorem foldl_update_none {κ : Type*} (names : List String) (table : String → Option κ) (name : String) :
    names.foldl (fun table name => Function.update table name none) table name =
      if name ∈ names then none else table name := by
  induction names generalizing table with
  | nil => rfl
  | cons other names ih =>
    rw [List.foldl_cons, ih]
    by_cases hmem : name ∈ names
    · rw [if_pos hmem, if_pos (List.mem_cons_of_mem _ hmem)]
    · rw [if_neg hmem]
      by_cases heq : name = other
      · rw [heq, Function.update_self, if_pos List.mem_cons_self]
      · rw [Function.update_of_ne heq, if_neg (by simp [heq, hmem])]

namespace Registry

variable {r : Registry} {language name : String}

theorem Hosted.registerRuntime (hr : r.Hosted) {runtime : Runtime} {init : Except String Unit}
    (hfree : init = .ok () → ∀ name, ¬ r.Hosts runtime.language name) : (r.registerRuntime runtime init).1.Hosted := by
  cases init with
  | error e => exact hr
  | ok u =>
    intro name tool htool
    obtain ⟨entry, hentry, hknown, hlisted⟩ := hr name tool htool
    have hne : tool.language ≠ runtime.language := fun heq => hfree rfl name ⟨tool, htool, heq⟩
    exact ⟨entry, (Function.update_of_ne hne _ _).trans hentry, hknown, hlisted⟩

theorem Hosted.registerTool (hr : r.Hosted) (description : String) (inputSchema : Value) (answer : RegisterAnswer) :
    (r.registerTool language name description inputSchema answer).1.Hosted := by
  rw [Registry.registerTool]
  cases hentry : r.runtimes language with
  | none => exact hr
  | some entry =>
    cases answer with
    | failed text kept =>
      cases kept with
      | false => exact hr
      | true =>
        intro other tool htool
        obtain ⟨entry', hentry', hknown, hlisted⟩ := hr other tool htool
        show ∃ e, Function.update r.runtimes language _ tool.language = some e ∧ _
        by_cases heq : tool.language = language
        · rw [heq, hentry, Option.some.injEq] at hentry'
          rw [heq, Function.update_self]
          exact ⟨_, rfl, List.mem_cons_of_mem _ (hentry' ▸ hknown), hentry' ▸ hlisted⟩
        · rw [Function.update_of_ne heq]
          exact ⟨entry', hentry', hknown, hlisted⟩
    | ok =>
      intro other tool htool
      show ∃ e, Function.update r.runtimes language _ tool.language = some e ∧ _
      rcases update_eq_some htool with ⟨rfl, rfl⟩ | ⟨-, hold⟩
      · rw [Function.update_self]
        exact ⟨_, rfl, List.mem_cons_self, List.mem_append_right _ (List.mem_singleton_self _)⟩
      · obtain ⟨entry', hentry', hknown, hlisted⟩ := hr other tool hold
        by_cases heq : tool.language = language
        · rw [heq, hentry, Option.some.injEq] at hentry'
          rw [heq, Function.update_self]
          exact ⟨_, rfl, List.mem_cons_of_mem _ (hentry' ▸ hknown), List.mem_append_left _ (hentry' ▸ hlisted)⟩
        · rw [Function.update_of_ne heq]
          exact ⟨entry', hentry', hknown, hlisted⟩

theorem tools_destroyRuntime {entry : RuntimeEntry} (hentry : r.runtimes language = some entry)
    (answer : Except String Unit) (name : String) :
    (r.destroyRuntime language answer).1.tools name = if name ∈ entry.toolNames then none else r.tools name := by
  rw [destroyRuntime, hentry]
  exact foldl_update_none entry.toolNames r.tools name

theorem Hosted.destroyRuntime (hr : r.Hosted) (language : String) (answer : Except String Unit) :
    (r.destroyRuntime language answer).1.Hosted := by
  cases hentry : r.runtimes language with
  | none =>
    rw [Registry.destroyRuntime, hentry]
    exact hr
  | some entry =>
    intro name tool htool
    rw [tools_destroyRuntime hentry] at htool
    split_ifs at htool with hgone
    obtain ⟨entry', hentry', hknown, hlisted⟩ := hr name tool htool
    -- the tool is not of the runtime that goes, since that one does not list it
    have hne : tool.language ≠ language := by
      intro heq
      rw [heq, hentry, Option.some.injEq] at hentry'
      exact hgone (hentry' ▸ hlisted)
    refine ⟨entry', ?_, hknown, hlisted⟩
    rw [Registry.destroyRuntime, hentry]
    exact (Function.update_of_ne hne _ _).trans hentry'

theorem Hosted.callsReach (hr : r.Hosted) : r.CallsReach := by
  intro name hname
  obtain ⟨tool, htool⟩ := Option.isSome_iff_exists.mp hname
  obtain ⟨entry, hentry, hknown, -⟩ := hr name tool htool
  exact ⟨entry, by rw [route, htool]; simp only [hentry], hknown⟩

theorem Hosted.destroysOwn (hr : r.Hosted) {answer : Except String Unit}
    (hown : Orderly r (.destroyRuntime language answer)) : r.DestroysOwn language := by
  intro answer' name
  cases hentry : r.runtimes language with
  | none =>
    rw [Registry.destroyRuntime, hentry]
    refine ⟨?_, fun _ => rfl⟩
    rintro ⟨tool, htool, rfl⟩
    obtain ⟨entry, hentry', -⟩ := hr name tool htool
    rw [hentry] at hentry'
    cases hentry'
  | some entry =>
    rw [tools_destroyRuntime hentry]
    constructor
    · rintro ⟨tool, htool, rfl⟩
      obtain ⟨entry', hentry', -, hlisted⟩ := hr name tool htool
      rw [hentry, Option.some.injEq] at hentry'
      exact if_pos (hentry' ▸ hlisted)
    · intro hother
      split_ifs with hlisted
      · cases htool : r.tools name with
        | none => rfl
        | some tool => exact absurd ⟨tool, htool, hown entry hentry name hlisted tool htool⟩ hother
      · rfl

end Registry

/-- **Step lemma.** -/
theorem hosted_step {r r' : Registry} {a : Action} (hr : r.Hosted) (hok : Orderly r a) (hstep : step r a = some r') :
    r'.Hosted := by
  cases a with
  | registerRuntime runtime init =>
    obtain rfl := Option.some.inj hstep
    exact hr.registerRuntime hok
  | registerTool language name description inputSchema answer =>
    obtain rfl := Option.some.inj hstep
    exact hr.registerTool description inputSchema answer
  | destroyRuntime language answer =>
    obtain rfl := Option.some.inj hstep
    exact hr.destroyRuntime language answer

theorem hosted_new : new.Hosted := by
  intro name tool htool
  cases htool

/-- **In orderly runs the tables and the runtimes agree**: every tool is hosted, calls reach a runtime that has the
tool, and what is destroyed takes its own tools with it. -/
theorem hosted_of_orderly {r : Registry} (h : ReachableWhen (· = new) step Orderly r) :
    r.Hosted ∧ r.CallsReach ∧
      ∀ language answer, Orderly r (.destroyRuntime language answer) → r.DestroysOwn language := by
  have hr : r.Hosted := h.invariant (fun _ hinit => hinit ▸ hosted_new) fun _ _ _ => hosted_step
  exact ⟨hr, hr.callsReach, fun _ _ hown => hr.destroysOwn hown⟩

/-! ## Runs that go wrong -/

def lua : Runtime := ⟨"lua", some 4096, []⟩

def python : Runtime := ⟨"python", some 4096, []⟩

def oneTool : Registry := (((new.registerRuntime lua (.ok ())).1).registerTool "lua" "t" "" .null .ok).1

/-- A second runtime with a tool of its own. -/
def twoTools : Registry := (((oneTool.registerRuntime python (.ok ())).1).registerTool "python" "u" "" .null .ok).1

theorem reachable_oneTool : ReachableWhen (· = new) step Orderly oneTool := by
  refine .step (.step (.init rfl) (a := .registerRuntime lua (.ok ())) ?_ rfl)
    (a := .registerTool "lua" "t" "" .null .ok) trivial rfl
  rintro - name ⟨tool, htool, -⟩
  cases htool

theorem tools_oneTool {name : String} {tool : WasmToolMeta} (h : oneTool.tools name = some tool) :
    name = "t" ∧ tool.language = "lua" := by
  rcases update_some_cases h with ⟨rfl, rfl⟩ | ⟨-, hnone⟩
  · exact ⟨rfl, rfl⟩
  · cases hnone

theorem reachable_twoTools : ReachableWhen (· = new) step Orderly twoTools := by
  refine .step (.step reachable_oneTool (a := .registerRuntime python (.ok ())) ?_ rfl)
    (a := .registerTool "python" "u" "" .null .ok) trivial rfl
  rintro - name ⟨tool, htool, hlanguage⟩
  exact absurd ((tools_oneTool htool).2.symm.trans hlanguage) (by decide)

theorem orderly_destroy_python : Orderly twoTools (.destroyRuntime "python" (.ok ())) := by
  intro entry hentry name hname tool htool
  cases hentry
  obtain rfl := List.mem_singleton.mp hname
  cases htool
  rfl

/-- The second runtime is destroyed, and takes its tool with it; the first one keeps its own. -/
theorem hosted_of_orderly_twoTools : twoTools.DestroysOwn "python" ∧
    (twoTools.destroyRuntime "python" (.ok ())).1.Hosted ∧ (twoTools.destroyRuntime "python" (.ok ())).1.CallsReach :=
  have hdestroyed := hosted_of_orderly (.step reachable_twoTools orderly_destroy_python rfl)
  ⟨(hosted_of_orderly reachable_twoTools).2.2 "python" (.ok ()) orderly_destroy_python, hdestroyed.1, hdestroyed.2.1⟩

/-- The tool of one runtime, registered in another one before. -/
def twiceListed : Registry :=
  ((((new.registerRuntime lua (.ok ())).1.registerRuntime python (.ok ())).1.registerTool "python" "t" "" .null .ok).1
    |>.registerTool "lua" "t" "" .null .ok).1

/-- A runtime that is registered again has lost the tools; and a tool that two runtimes list goes with the one that
does not host it. -/
theorem registry_not_hosted :
    (¬ ∀ r, ReachableWhen (· = new) step (fun _ _ => True) r → r.Hosted ∧ r.CallsReach) ∧
      ¬ ∀ r, ReachableWhen (· = new) step (fun _ _ => True) r → ∀ language, r.DestroysOwn language := by
  constructor
  · intro h
    have hagain : ReachableWhen (· = new) step (fun _ _ => True) (oneTool.registerRuntime lua (.ok ())).1 :=
      .step (.step (.step (.init rfl) (a := .registerRuntime lua (.ok ())) trivial rfl)
        (a := .registerTool "lua" "t" "" .null .ok) trivial rfl) (a := .registerRuntime lua (.ok ())) trivial rfl
    obtain ⟨entry, hentry, hknown⟩ := (h _ hagain).2 "t" rfl
    obtain rfl : ⟨lua, []⟩ = entry := Except.ok.inj hentry
    exact absurd hknown List.not_mem_nil
  · intro h
    have htwice : ReachableWhen (· = new) step (fun _ _ => True) twiceListed :=
      .step (.step (.step (.step (.init rfl) (a := .registerRuntime lua (.ok ())) trivial rfl)
        (a := .registerRuntime python (.ok ())) trivial rfl)
        (a := .registerTool "python" "t" "" .null .ok) trivial rfl)
        (a := .registerTool "lua" "t" "" .null .ok) trivial rfl
    have hother : ¬ twiceListed.Hosts "python" "t" := by
      rintro ⟨tool, htool, hlanguage⟩
      obtain rfl : (⟨"t", "lua", .null, ""⟩ : WasmToolMeta) = tool := Option.some.inj htool
      exact absurd hlanguage (by decide)
    have hkept := (h _ htwice "python" (.ok ()) "t").2 hother
    cases hkept

end VelocityMcp.Wasm.RuntimeRegistry
