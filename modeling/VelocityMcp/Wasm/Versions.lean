import VelocityMcp.Lib.Text
import VelocityMcp.Lib.Versions
import VelocityMcp.Wasm.RustRuntime

/-!
# Wasm.Versions — registering a tool again (`wasm_runtime/`)

Six runtimes keep a table of sources or of modules, and each decides for itself what a registration refreshes: Lua,
MicroPython and QuickJS define the functions of a source in one guest, PHP has room for one source, Go and Rust have a
module for each tool.
-/

namespace VelocityMcp.Wasm

open Lib

/-! ## Guests that evaluate sources -/

/-- A call of a guest's function: an error of the host (a write into a slot, a missing export, a trap), or a code, 0 if
all is well, and a text. -/
abbrev GuestEnd := Except String (ℤ × String)

/-- The text, or an error that quotes it after a title. -/
def GuestEnd.output (title : String) : GuestEnd → Except String String
  | .error e => .error e
  | .ok (code, text) => if code = 0 then .ok text else .error (title ++ trimText text)

/-- A guest evaluates some code: the global names that this assigns, and how it ends. -/
structure Evaluation where
  assigned : List String
  ends : GuestEnd

/-- What a call meets: the slots written and the function found, and the run of the wrapper. -/
structure ScriptCall where
  reached : Except String Unit
  run : Evaluation

/-- `tools`, the names with a wrapper, and for each global name of the guest the code that assigned it. -/
structure ScriptRuntime where
  tools : String → Option String
  wrappers : List String
  globals : String → Option String

namespace ScriptRuntime

variable (rt : ScriptRuntime)

def new : ScriptRuntime := ⟨fun _ => none, [], fun _ => none⟩

def evaluate (code : String) (assigned : List String) : ScriptRuntime :=
  { rt with globals := fun name => if name ∈ assigned then some code else rt.globals name }

def insert (name source : String) : ScriptRuntime :=
  { rt with tools := Function.update rt.tools name (some source), wrappers := name :: rt.wrappers }

/-- `call_tool`: the wrapper runs the function that the tool's name stands for. -/
def call (unknown : String) (finish : GuestEnd → Except String String) (name : String) (g : ScriptCall) :
    ScriptRuntime × Option String × Except String String :=
  if rt.tools name = none then (rt, none, .error (unknown ++ name))
  else match g.reached with
    | .error e => (rt, none, .error e)
    | .ok () => match rt.globals name with
      | none => (rt, none, finish g.run.ends)
      | some code => (rt.evaluate code g.run.assigned, some code, finish g.run.ends)

end ScriptRuntime

/-- The text, or the message of an exception. -/
def GuestEnd.value : GuestEnd → Except String String
  | .error e => .error e
  | .ok (exception, text) => if exception = 0 then .ok text else .error text

/-- `TOOL_SRC_SIZE` of the guest. -/
def toolSrcSize : ℕ := 64 * 1024

/-- `interp_register_tool`: the guest's copy of a source, cut to its buffer. -/
def toolSource (source : String) : Bytes := (utf8 source).take (toolSrcSize - 1)

/-- The sources by tool, and the one that the guest has. -/
structure PhpRuntime where
  tools : String → Option String
  source : Bytes

/-- What a registration meets: the writes into the slots, and the guest's function, which may trap with some of the
source copied. -/
structure PhpAnswers where
  slots : Except String Unit
  guest : Except (String × Bytes) (ℤ × String)

structure PhpCall where
  reached : Except String Unit
  ends : GuestEnd

namespace PhpRuntime

def new : PhpRuntime := ⟨fun _ => none, []⟩

def registerTool (rt : PhpRuntime) (name source : String) (a : PhpAnswers) : PhpRuntime × Except String Unit :=
  if rt.tools name = some source then (rt, .ok ())
  else match a.slots with
    | .error e => (rt, .error e)
    | .ok () => match a.guest with
      | .error (e, left) => ({ rt with source := left }, .error e)
      | .ok (code, output) =>
        if code = 0 then (⟨Function.update rt.tools name (some source), toolSource source⟩, .ok ())
        else ({ rt with source := toolSource source }, .error ("Failed to register PHP tool: " ++ trimText output))

/-- `call_tool`: whatever the name, the guest runs the source that it has. -/
def callTool (rt : PhpRuntime) (name : String) (g : PhpCall) : PhpRuntime × Option Bytes × Except String String :=
  if rt.tools name = none then (rt, none, .error ("Unknown PHP tool: " ++ name))
  else match g.reached with
    | .error e => (rt, none, .error e)
    | .ok () => (rt, some rt.source, (g.ends.output "PHP tool error: ").map trimText)

end PhpRuntime

/-! ## Go -/

/-- What a module is made from: the bytes of the file that the source names, or the Go text that it is. -/
inductive Program where
  | file (wasm : Bytes)
  | inline (text : String)
deriving DecidableEq, Repr

structure GoModule where
  program : Program
  wasm : Bytes
deriving DecidableEq, Repr

/-- The sources and the compiled modules by tool. -/
structure GoRuntime where
  tools : String → Option String
  compiledTools : String → Option GoModule

/-- What a registration meets: the file that the source names, if there is one, TinyGo, and Wasmer's compiler. -/
structure GoAnswers where
  file : Option (Except String Bytes)
  tinygo : Except String Bytes
  compile : Except String Unit

/-- What the source stands for when it is registered. -/
def GoAnswers.program (source : String) (a : GoAnswers) : Option Program :=
  match a.file with
  | none => some (.inline source)
  | some (.ok wasm) => some (.file wasm)
  | some (.error _) => none

/-- The WASM bytes: those of the file, or what TinyGo makes of the text. -/
def GoAnswers.wasm (source : String) (a : GoAnswers) : Except String GoModule :=
  match a.file with
  | none => (a.tinygo.mapError ("Compilation failed: " ++ ·)).map fun wasm => ⟨.inline source, wasm⟩
  | some file => file.map fun wasm => ⟨.file wasm, wasm⟩

/-- What a call meets: the new instance up to `tool_execute`, and the result. -/
structure GoCall where
  reached : Except String Unit
  result : Except String String

namespace GoRuntime

def new : GoRuntime := ⟨fun _ => none, fun _ => none⟩

def registerTool (rt : GoRuntime) (name source : String) (a : GoAnswers) : GoRuntime × Except String Unit :=
  if rt.tools name = some source then (rt, .ok ())
  else match a.wasm source with
    | .error e => (rt, .error e)
    | .ok module => match a.compile with
      | .error e => (rt, .error ("Failed to compile WASM module: " ++ e))
      | .ok () =>
        (⟨Function.update rt.tools name (some source), Function.update rt.compiledTools name (some module)⟩, .ok ())

/-- `call_tool`: a new instance of the compiled module. -/
def callTool (rt : GoRuntime) (name : String) (g : GoCall) : GoRuntime × Option GoModule × Except String String :=
  match rt.compiledTools name with
  | none => (rt, none, .error s!"Tool '{name}' not registered or compilation failed")
  | some module => match g.reached with
    | .error e => (rt, none, .error e)
    | .ok () => (rt, some module, g.result)

end GoRuntime

/-! ## As hosts -/

/-- Code that assigns these names is the source of the tools among them. -/
def ScriptRuntime.Spares (rt : ScriptRuntime) (code : String) (assigned : List String) : Prop :=
  ∀ name ∈ assigned, ∀ source, rt.tools name = some source → source = code

/-- A registration defines the function of its tool, and no tool's function that it is not to define; if it fails, it
defines none. -/
structure Defines (rt : ScriptRuntime) (name source : String) (assigned : List String) (succeeds : Prop) : Prop where
  own : succeeds → name ∈ assigned ∨ rt.globals name = some source
  others : ∀ other ∈ assigned, (other = name ∧ succeeds) ∨ ∀ k, rt.tools other = some k → k = source

section Scripts

variable {rt : ScriptRuntime} {version : String → Option String} {name source : String}

/-- What the host keeps: the version of each tool, and the tool's function is from it. -/
structure Scripts (rt : ScriptRuntime) (version : String → Option String) : Prop where
  tools : rt.tools = version
  globals : ∀ name source, version name = some source → rt.globals name = some source

theorem Scripts.evaluate (h : Scripts rt version) {code : String} {assigned : List String}
    (hspares : rt.Spares code assigned) : Scripts (rt.evaluate code assigned) version := by
  refine ⟨h.tools, fun name source hname => ?_⟩
  show (if name ∈ assigned then some code else rt.globals name) = some source
  by_cases hassigned : name ∈ assigned
  · rw [if_pos hassigned, hspares name hassigned source (by rw [h.tools]; exact hname)]
  · rw [if_neg hassigned]
    exact h.globals name source hname

theorem Scripts.insert (h : Scripts rt version) {assigned : List String} {succeeds : Prop} (hsucceeds : succeeds)
    (hdefines : Defines rt name source assigned succeeds) :
    Scripts ((rt.evaluate source assigned).insert name source) (Function.update version name (some source)) := by
  refine ⟨by rw [← h.tools]; rfl, forall_update ?_ fun other k hne hother => ?_⟩
  · show (if name ∈ assigned then some source else rt.globals name) = some source
    by_cases hassigned : name ∈ assigned
    · rw [if_pos hassigned]
    · rw [if_neg hassigned]
      exact (hdefines.own hsucceeds).resolve_left hassigned
  · show (if other ∈ assigned then some source else rt.globals other) = some k
    by_cases hassigned : other ∈ assigned
    · rw [if_pos hassigned]
      obtain ⟨hsame, -⟩ | hothers := hdefines.others other hassigned
      · exact absurd hsame hne
      · rw [hothers k (by rw [h.tools]; exact hother)]
    · rw [if_neg hassigned]
      exact h.globals other k hother

theorem Scripts.update_self (h : Scripts rt version) (hname : rt.tools name = some source) :
    Scripts rt (Function.update version name (some source)) := by
  rw [h.tools] at hname
  rwa [update_eq_self_of_eq_some hname]

/-- A call runs the tool's function, which may assign the globals that it spares. -/
theorem Scripts.call (h : Scripts rt version) {unknown : String} {finish : GuestEnd → Except String String}
    {g : ScriptCall} (hspares : ∀ code, rt.globals name = some code → rt.Spares code g.run.assigned) :
    Scripts (rt.call unknown finish name g).1 version := by
  unfold ScriptRuntime.call
  by_cases hnone : rt.tools name = none
  · rw [if_pos hnone]
    exact h
  rw [if_neg hnone]
  cases g.reached with
  | error e => exact h
  | ok u =>
    simp only
    cases hglobal : rt.globals name with
    | none => exact h
    | some code => exact h.evaluate (hspares code hglobal)

theorem Scripts.current (h : Scripts rt version) {unknown : String} {finish : GuestEnd → Except String String}
    (name source : String) (g : ScriptCall) (hname : version name = some source) (hreached : g.reached = .ok ()) :
    (rt.call unknown finish name g).2.1 = some source := by
  have htool : rt.tools name = some source := by rw [h.tools]; exact hname
  unfold ScriptRuntime.call
  rw [if_neg (by rw [htool]; simp), hreached]
  simp only
  rw [h.globals name source hname]

end Scripts

/-! ## PHP -/

/-- PHP: the runtime hosts one program, under whatever names; a registration that traps leaves the tools' one. -/
def PhpOk (t : Tracked PhpRuntime String String) : HostAction String String PhpAnswers PhpCall → Prop
  | .register name source a => t.host.tools name ≠ some source → a.slots = .ok () →
      match a.guest with
      | .error (_, left) => ∀ other k, t.host.tools other = some k → toolSource k = left
      | .ok (code, _) => ∀ other k, t.host.tools other = some k → (other ≠ name ∨ code ≠ 0) →
          toolSource k = toolSource source
  | .call _ _ => True

structure OneProgram (rt : PhpRuntime) (version : String → Option String) : Prop where
  tools : rt.tools = version
  source : ∀ name source, version name = some source → rt.source = toolSource source

section OneProgram

variable {rt : PhpRuntime} {version : String → Option String} {name source : String}

theorem OneProgram.register (h : OneProgram rt version) {a : PhpAnswers}
    (hok : PhpOk ⟨rt, version⟩ (.register name source a)) :
    OneProgram (rt.registerTool name source a).1
      (if (rt.registerTool name source a).2.isOk then Function.update version name (some source) else version) := by
  unfold PhpRuntime.registerTool
  by_cases hsame : rt.tools name = some source
  · simp only [if_pos hsame]
    show OneProgram rt (Function.update version name (some source))
    rwa [update_eq_self_of_eq_some (by rw [← h.tools]; exact hsame)]
  simp only [if_neg hsame]
  have hok := hok hsame
  cases hslots : a.slots with
  | error e => exact h
  | ok u =>
    have hok := hok hslots
    simp only
    cases hguest : a.guest with
    | error p =>
      rw [hguest] at hok
      exact ⟨h.tools, fun n k hn => (hok n k (by rw [h.tools]; exact hn)).symm⟩
    | ok p =>
      rw [hguest] at hok
      obtain ⟨code, output⟩ := p
      simp only at hok ⊢
      -- the guest keeps the new source whatever code it returns
      have hothers : ∀ n k, (n ≠ name ∨ code ≠ 0) → version n = some k → toolSource source = toolSource k :=
        fun n k hor hn => (hok n k (by rw [h.tools]; exact hn) hor).symm
      by_cases hcode : code = 0
      · simp only [if_pos hcode]
        exact ⟨by rw [← h.tools]; rfl,
          forall_update (P := fun _ k => toolSource source = toolSource k) rfl
            fun n k hne => hothers n k (Or.inl hne)⟩
      · simp only [if_neg hcode]
        exact ⟨h.tools, fun n k => hothers n k (Or.inr hcode)⟩

theorem OneProgram.call (h : OneProgram rt version) (name : String) (g : PhpCall) :
    OneProgram (rt.callTool name g).1 version := by
  unfold PhpRuntime.callTool
  by_cases hnone : rt.tools name = none
  · rw [if_pos hnone]
    exact h
  · rw [if_neg hnone]
    cases g.reached <;> exact h

theorem OneProgram.current (h : OneProgram rt version) (name source : String) (g : PhpCall)
    (hname : version name = some source) (hreached : g.reached = .ok ()) :
    (rt.callTool name g).2.1 = some (toolSource source) := by
  have htool : rt.tools name = some source := by rw [h.tools]; exact hname
  unfold PhpRuntime.callTool
  rw [if_neg (by rw [htool]; simp), hreached, ← h.source name source hname]

end OneProgram

/-! ## Go -/

/-- Go: a tool is registered again from an unchanged source only while this stands for what its module was made from. -/
def GoOk (t : Tracked GoRuntime String Program) : HostAction String String GoAnswers GoCall → Prop
  | .register name source a => t.host.tools name = some source →
      (t.host.compiledTools name).map (·.program) = a.program source
  | .call _ _ => True

/-- What the host keeps: each tool's module is made from its version. -/
def CompiledLast (rt : GoRuntime) (version : String → Option Program) : Prop :=
  ∀ name program, version name = some program → (rt.compiledTools name).map (·.program) = some program

section CompiledLast

variable {rt : GoRuntime} {version : String → Option Program}

/-- What is compiled is made from what the source stands for. -/
theorem GoAnswers.program_of_wasm {a : GoAnswers} {source : String} {module : GoModule}
    (h : a.wasm source = .ok module) : a.program source = some module.program := by
  rw [GoAnswers.wasm] at h
  rw [GoAnswers.program]
  cases hfile : a.file with
  | none =>
    rw [hfile] at h
    cases htinygo : a.tinygo with
    | error e => rw [htinygo] at h; cases h
    | ok wasm =>
      rw [htinygo] at h
      obtain rfl := Except.ok.inj h
      rfl
  | some file =>
    rw [hfile] at h
    cases file with
    | error e => cases h
    | ok wasm =>
      obtain rfl := Except.ok.inj h
      rfl

theorem CompiledLast.register (h : CompiledLast rt version) {name source : String} {a : GoAnswers}
    (hok : GoOk ⟨rt, version⟩ (.register name source a)) :
    CompiledLast (rt.registerTool name source a).1
      (if (rt.registerTool name source a).2.isOk then Function.update version name (a.program source)
        else version) := by
  unfold GoRuntime.registerTool
  by_cases hsame : rt.tools name = some source
  · simp only [if_pos hsame]
    intro n program hn
    change Function.update version name (a.program source) n = some program at hn
    by_cases hname : n = name
    · subst hname
      rw [Function.update_self] at hn
      rw [← hn]
      exact hok hsame
    · rw [Function.update_of_ne hname] at hn
      exact h n program hn
  simp only [if_neg hsame]
  cases hwasm : a.wasm source with
  | error e => exact h
  | ok module =>
    simp only
    cases a.compile with
    | error e => exact h
    | ok u =>
      show CompiledLast ⟨_, Function.update rt.compiledTools name (some module)⟩
        (Function.update version name (a.program source))
      rw [GoAnswers.program_of_wasm hwasm]
      refine forall_update ?_ fun n program hne hn => ?_
      · show (Function.update rt.compiledTools name (some module) name).map (·.program) = some module.program
        rw [Function.update_self, Option.map_some]
      · show (Function.update rt.compiledTools name (some module) n).map (·.program) = some program
        rw [Function.update_of_ne hne]
        exact h n program hn

theorem CompiledLast.call (h : CompiledLast rt version) (name : String) (g : GoCall) :
    CompiledLast (rt.callTool name g).1 version := by
  unfold GoRuntime.callTool
  cases rt.compiledTools name with
  | none => exact h
  | some module =>
    simp only
    cases g.reached <;> exact h

theorem CompiledLast.current (h : CompiledLast rt version) (name : String) (program : Program) (g : GoCall)
    (hname : version name = some program) (hreached : g.reached = .ok ()) :
    (rt.callTool name g).2.1.map (·.program) = some program := by
  have hcompiled := h name program hname
  unfold GoRuntime.callTool
  cases hmod : rt.compiledTools name with
  | none => rw [hmod] at hcompiled; cases hcompiled
  | some module =>
    rw [hmod] at hcompiled
    simp only
    rw [hreached]
    exact hcompiled

end CompiledLast

/-! ## Rust -/

/-- Rust: a tool that has an instance is registered again only while its source stands for the bytes that this instance
was made from. -/
def RustOk (t : Tracked RustRuntime String Bytes) :
    HostAction String String ModuleAnswers (Bytes × ModuleAnswers) → Prop
  | .register name source a => ∀ i, t.host.instances name = some i →
      ∀ wasm, a.file.getD (.ok (utf8 source)) = .ok wasm → a.compile = .ok () → i.module.wasm = wasm
  | .call _ _ => True

structure Instantiated (rt : RustRuntime) (version : String → Option Bytes) : Prop where
  separate : rt.Separate
  instances : ∀ name wasm, version name = some wasm → ∃ i, rt.instances name = some i ∧ i.module.wasm = wasm

theorem Instantiated.moves {rt rt' : RustRuntime} {version : String → Option Bytes} (h : Instantiated rt version)
    (hm : RustRuntime.Moves (fun _ => True) rt rt') : Instantiated rt' version := by
  refine ⟨h.separate.moves hm, fun name wasm hname => ?_⟩
  obtain ⟨i, hi, hwasm⟩ := h.instances name wasm hname
  exact ⟨i, hm.instances hi, hwasm⟩

section Instantiated

variable {rt : RustRuntime} {version : String → Option Bytes} {name source : String}

theorem RustRuntime.registerTool_instantiates {a : ModuleAnswers} {wasm : Bytes} (hs : rt.Separate)
    (hnone : rt.instances name = none) (hfile : a.file.getD (.ok (utf8 source)) = .ok wasm) (hcompile : a.compile = .ok ())
    (hresult : (rt.registerTool name source a).2 = .ok ()) :
    ∃ i, (rt.registerTool name source a).1.instances name = some i ∧ i.module.wasm = wasm := by
  have hload : RustRuntime.Move (fun _ => True) rt (rt.insertModule name ⟨source, wasm⟩) := .loaded
  have hmod : (rt.insertModule name ⟨source, wasm⟩).modules name = some ⟨source, wasm⟩ := Function.update_self ..
  have hnone' : (rt.insertModule name ⟨source, wasm⟩).instances name = none := hnone
  have hensure : RustRuntime.Moves (fun _ => True) (rt.insertModule name ⟨source, wasm⟩)
      ((rt.insertModule name ⟨source, wasm⟩).ensureInstantiated name a).1 ∧ _ :=
    RustRuntime.moves_ensureInstantiated (hs.move hload) (fun _ => Or.inr trivial) trivial
  obtain ⟨hstate, hok⟩ := RustRuntime.registerTool_eq rt name hfile hcompile
  obtain ⟨i, hi⟩ := hok hresult
  refine ⟨i, ?_, ?_⟩
  · rw [hstate]
    exact (hensure.2 i hi).1
  · rw [RustRuntime.ensureInstantiated_module hnone' hmod hi]

theorem Instantiated.register (h : Instantiated rt version) {a : ModuleAnswers}
    (hok : RustOk ⟨rt, version⟩ (.register name source a)) :
    Instantiated (rt.registerTool name source a).1
      (if (rt.registerTool name source a).2.toOption.isSome then
        Function.update version name (a.file.getD (.ok (utf8 source))).toOption else version) := by
  have hmoves : RustRuntime.Moves (fun _ => True) rt (rt.registerTool name source a).1 :=
    RustRuntime.moves_registerTool h.separate (fun _ => Or.inr trivial) trivial
  cases hresult : (rt.registerTool name source a).2 with
  | err e => exact h.moves hmoves
  | panic => exact h.moves hmoves
  | ok u =>
    obtain ⟨wasm, hfile, hcompile⟩ := RustRuntime.registerTool_ok hresult
    rw [hfile]
    refine ⟨(h.moves hmoves).separate, forall_update ?_ fun n k _ => (h.moves hmoves).instances n k⟩
    cases hinst : rt.instances name with
    | some i => exact ⟨i, hmoves.instances hinst, hok i hinst wasm hfile hcompile⟩
    | none => exact RustRuntime.registerTool_instantiates h.separate hinst hfile hcompile hresult

theorem Instantiated.current (h : Instantiated rt version) (name : String) (wasm : Bytes) (g : Bytes × ModuleAnswers)
    (hname : version name = some wasm) (hreached : ∃ r, g.2.getInputPtr = .ok r) :
    (rt.callTool name g.1 g.2).module.map (·.wasm) = some wasm := by
  obtain ⟨i, hi, hwasm⟩ := h.instances name wasm hname
  obtain ⟨r, hr⟩ := hreached
  rw [RustRuntime.callTool_module hi hr, Option.map_some, hwasm]

end Instantiated

/-! ## The six runtimes -/

end VelocityMcp.Wasm
