import VelocityMcp.Interp.Decoding
import VelocityMcp.Interp.Tokenizer
import VelocityMcp.Stdio.JsonMode
import VelocityMcp.Wasm.Slots
import VelocityMcp.Wasm.Versions

/-!
# Interp.Runtimes — the runtimes that host an interpreter (`wasm_runtime/{php,csharp,java,r,julia,perl}.rs`)

`runsVersion_iff`: in which runs each call executes the source that was registered last for its name.
-/

namespace VelocityMcp.Interp

open Lib NdaNative
open Guest (Strtod)
open Wasm (SlotLayout)

/-! ## The runtime -/

/-- The slots of a runtime, and its title in the messages. -/
def Language.layout : Language → SlotLayout
  | php => Wasm.php
  | csharp => Wasm.csharp
  | java => Wasm.java
  | r => Wasm.r
  | julia => Wasm.julia
  | perl => Wasm.perl

def execSlot : ℕ := 512 * 1024

/-- What a slot holds of its bytes after others have been written at `base`. -/
def heldUnder (slot : ℕ) (bytes : Bytes) (base : ℕ) (later : Bytes) : Bytes :=
  bytes.mapIdx fun i b => if slot + i < base then b else later[slot + i - base]?.getD b

/-- The host and its guest.  `binary`: the guest exports the binary call. -/
structure Runtime (σ : Type) where
  language : Language
  tools : String → Option String
  binary : Bool
  interpreter : Interpreter σ

/-- What a registration meets: the writes into the slots, and the guest's function, which may trap with some of the
source copied. -/
structure RegisterAnswers where
  slots : Except String Unit
  guest : Except (String × Bytes) Unit

/-- What a call meets: the writes into the slots; a trap before the source is reached, with what it leaves; the message
of a trap behind; and the reading of the output. -/
structure CallAnswers (σ : Type) where
  slots : Except String Unit
  stopped : Option (Interpreter σ)
  trap : String
  read : Except String Unit

/-- The text that a call of the guest has executed; an empty source is executed by doing nothing. -/
def CallEnd.text {σ : Type} (e : CallEnd σ) : Bytes := (e.ran.map Prod.fst).getD []

/-- How a call ends for its caller, and the source that was executed, if the guest came to it. -/
structure CallOutcome (σ : Type) where
  runtime : Runtime σ
  executed : Option Bytes
  result : Except String String

namespace Runtime

variable {σ : Type} (rt : Runtime σ)

/-- `cold_start`: the interpreter is initialised, and has no source. -/
def coldStart (language : Language) (binary : Bool) (rest : σ) : Runtime σ :=
  ⟨language, fun _ => none, binary, ⟨true, [], none, none, [], rest⟩⟩

def nameSlot : ℕ := rt.language.layout.nameSlot

/-- The source that the guest finds in its slot: the name is written after it. -/
def sourceHeld (name source : String) : Bytes := heldUnder execSlot (utf8 source) rt.nameSlot (utf8 name)

/-- `register_tool`: what is registered under its name already is skipped. -/
def registerTool (name source : String) (a : RegisterAnswers) : Runtime σ × Except String Unit :=
  if rt.tools name = some source then (rt, .ok ())
  else match a.slots with
    | .error e => (rt, .error e)
    | .ok () => match a.guest with
      | .error (e, left) => ({ rt with interpreter := { rt.interpreter with toolSource := left } }, .error e)
      | .ok () =>
        ({ rt with
            tools := Function.update rt.tools name (some source)
            interpreter := rt.interpreter.registerTool (rt.sourceHeld name source) }, .ok ())

def unknownTool (name : String) : String := s!"Unknown {rt.language.layout.title} tool: {name}"

/-- The caller gets the trimmed output, as an error if the code is not 0. -/
def finish (a : CallAnswers σ) (e : CallEnd σ) : Except String String :=
  match e.status with
  | none => .error a.trap
  | some code => match a.read with
    | .error e => .error e
    | .ok () =>
      let output := trimText (Stdio.fromUtf8Lossy e.interpreter.output)
      if code = 0 then .ok output else .error s!"{rt.language.layout.title} tool error: {output}"

/-- The call of a guest's function on the arguments in their slot, over which the name is written. -/
def invoke (call : Bytes → Run Unit (CallEnd σ)) (reached : Bytes → Prop) [DecidablePred reached] (name : String)
    (args : Bytes) (a : CallAnswers σ) : Run Unit (CallOutcome σ) :=
  match a.slots with
  | .error e => .done ⟨rt, none, .error e⟩
  | .ok () => match a.stopped with
    | some left =>
      .done ⟨{ rt with interpreter := { left with
        initialized := rt.interpreter.initialized
        toolSource := rt.interpreter.toolSource } }, none, .error a.trap⟩
    | none => do
      let held := heldUnder rt.language.layout.argsSlot args rt.nameSlot (utf8 name)
      let e ← call held
      .done ⟨{ rt with interpreter := e.interpreter },
        if reached held then some e.text else none, rt.finish a e⟩

variable (numberText : NumberText) (f64Text : F64Text) (eval : Evaluator σ) (strtod : Strtod)

/-- `call_tool`: the name says only whether there is such a tool. -/
def callTool (name : String) (args : Bytes) (a : CallAnswers σ) : Run Unit (CallOutcome σ) :=
  if rt.tools name = none then .done ⟨rt, none, .error (rt.unknownTool name)⟩
  else rt.invoke (rt.interpreter.callTool numberText eval strtod) (fun _ => rt.interpreter.initialized = true) name args a

/-- The interpreter is initialised, and the arguments start like an object: others are refused before the source. -/
def TakesObject (args : Bytes) : Prop := rt.interpreter.initialized = true ∧ args.head? = some 0x06

instance : DecidablePred rt.TakesObject := fun args =>
  inferInstanceAs (Decidable (rt.interpreter.initialized = true ∧ args.head? = some 0x06))

/-- `call_tool_binary`: a guest without the binary call is called with JSON. -/
def callToolBinary (name : String) (args : Bytes) (a : CallAnswers σ) : Run Unit (CallOutcome σ) :=
  if rt.tools name = none then .done ⟨rt, none, .error (rt.unknownTool name)⟩
  else if rt.binary then rt.invoke (rt.interpreter.callToolBinary numberText eval) rt.TakesObject name args a
  else match decodeJsonValue args with
    | .ok (value, _) => rt.callTool numberText eval strtod name (jsonText f64Text value) a
    | .err e => .done ⟨rt, none, .error e.text⟩
    | .panic => .undefined

end Runtime

/-! ## Runs -/

/-- A registration, or a call with JSON or with binary arguments, and what the guest answers. -/
inductive Operation (σ : Type) where
  | register (name source : String) (a : RegisterAnswers)
  | call (name : String) (args : Bytes) (a : CallAnswers σ)
  | callBinary (name : String) (args : Bytes) (a : CallAnswers σ)

/-- A runtime; the version of each tool, which is the source that was registered last with success; and what the last
registration that was not a repetition has passed on to the guest. -/
structure History (σ : Type) where
  runtime : Runtime σ
  version : String → Option String
  passed : Bytes

namespace History

variable {σ : Type}

/-- A runtime that has just been made, with no tool registered. -/
def start (language : Language) (binary : Bool) (rest : σ) : History σ :=
  ⟨.coldStart language binary rest, fun _ => none, []⟩

variable (numberText : NumberText) (f64Text : F64Text) (eval : Evaluator σ) (strtod : Strtod) (h : History σ)

/-- What a registration passes on: as much of the source as the guest has room for. -/
def passedBy (name source : String) (a : RegisterAnswers) : Bytes :=
  if h.version name = some source then h.passed
  else match a.slots with
    | .error _ => h.passed
    | .ok () => match a.guest with
      | .error (_, left) => left
      | .ok () => (h.runtime.sourceHeld name source).take (Wasm.toolSrcSize - 1)

/-- The call that an operation is, if it is one. -/
def outcome : Operation σ → Option (String × Run Unit (CallOutcome σ))
  | .register .. => none
  | .call name args a => some (name, h.runtime.callTool numberText eval strtod name args a)
  | .callBinary name args a => some (name, h.runtime.callToolBinary numberText f64Text eval strtod name args a)

/-- A registration that succeeds sets the version; a call that ends leaves the runtime it ended in. -/
def step (op : Operation σ) : History σ :=
  match op with
  | .register name source a =>
    let r := h.runtime.registerTool name source a
    ⟨r.1, if r.2.isOk then Function.update h.version name (some source) else h.version, h.passedBy name source a⟩
  | op => match h.outcome numberText f64Text eval strtod op with
    | some (_, .done o) => { h with runtime := o.runtime }
    | _ => h

/-- Nothing outside keeps a call from the source: the slots are written, the guest does not trap before, and the
arguments can be handed over. -/
def Reaches : Operation σ → Prop
  | .register .. => False
  | .call _ _ a => a.slots = .ok () ∧ a.stopped = none
  | .callBinary name args a => a.slots = .ok () ∧ a.stopped = none ∧
      if h.runtime.binary then
        (heldUnder h.runtime.language.layout.argsSlot args h.runtime.nameSlot (utf8 name)).head? = some 0x06
      else ∃ v n, decodeJsonValue args = .ok (v, n)

/-- **The tool that is called runs**: a call executes the version of its name, if it gets that far. -/
def RunsVersion (op : Operation σ) : Prop :=
  ∀ name r source, h.outcome numberText f64Text eval strtod op = some (name, r) → h.version name = some source →
    h.Reaches op → ∃ o, r = .done o ∧ o.executed = some (utf8 source)

/-- A call of a name comes only when what was passed on last is the version of this name, up to its first NUL. -/
def PassedVersion (op : Operation σ) : Prop :=
  ∀ name r source, h.outcome numberText f64Text eval strtod op = some (name, r) → h.version name = some source →
    h.Reaches op → cString h.passed = utf8 source

end History

/-! ## The guest keeps its source -/

section Guest

variable {σ : Type} {numberText : NumberText} {eval : Evaluator σ} {strtod : Strtod} {g : Interpreter σ}

/-- The guest is as before, but for what a call leaves behind. -/
structure Keeps (g g' : Interpreter σ) : Prop where
  initialized : g'.initialized = g.initialized
  toolSource : g'.toolSource = g.toolSource

theorem reply_keeps (g : Interpreter σ) (ran : Option (Bytes × List (Bytes × Val))) :
    ∃ e, g.reply numberText ran = .done e ∧ Keeps g e.interpreter ∧ e.ran = ran := by
  obtain ⟨out, hout⟩ := @formatReply_done numberText g.error g.result g.output
  exact ⟨_, by rw [Interpreter.reply, hout, Run.done_bind], ⟨rfl, rfl⟩, rfl⟩

theorem execRegisteredTool_keeps (g : Interpreter σ) (scope : List (Bytes × Val)) :
    ∃ e, g.execRegisteredTool numberText eval scope = .done e ∧ Keeps g e.interpreter ∧
      e.text = cString g.toolSource := by
  rw [Interpreter.execRegisteredTool]
  by_cases hsource : g.toolSource = []
  · rw [if_pos hsource]
    obtain ⟨e, he, hkeeps, hran⟩ := @reply_keeps _ numberText g none
    exact ⟨e, he, hkeeps, by rw [CallEnd.text, hran, hsource]; rfl⟩
  · rw [if_neg hsource]
    by_cases htrap : (eval g.rest (cString g.toolSource) scope).trapped = true
    · exact ⟨_, if_pos htrap, ⟨rfl, rfl⟩, rfl⟩
    · obtain ⟨e, he, hkeeps, hran⟩ := @reply_keeps _ numberText (g.after (eval g.rest (cString g.toolSource) scope))
        (some (cString g.toolSource, scope))
      exact ⟨e, (if_neg htrap).trans he, ⟨hkeeps.initialized, hkeeps.toolSource⟩, by rw [CallEnd.text, hran]; rfl⟩

theorem callTool_keeps (g : Interpreter σ) (args : Bytes) :
    ∃ e, g.callTool numberText eval strtod args = .done e ∧ Keeps g e.interpreter ∧
      (g.initialized = true → e.text = cString g.toolSource) := by
  rw [Interpreter.callTool]
  by_cases hinit : g.initialized = false
  · exact ⟨_, if_pos hinit, ⟨rfl, rfl⟩, fun h => by rw [hinit] at h; cases h⟩
  · obtain ⟨v, hv⟩ := jsonParse_done strtod (args.take (argsBufSize - 1))
    obtain ⟨e, he, hkeeps, htext⟩ := @execRegisteredTool_keeps _ numberText eval g.reset (callScope v)
    rw [if_neg hinit, hv, Run.done_bind]
    exact ⟨e, he, ⟨hkeeps.initialized, hkeeps.toolSource⟩, fun _ => htext⟩

theorem callToolBinary_keeps (g : Interpreter σ) (args : Bytes) :
    ∃ e, g.callToolBinary numberText eval args = .done e ∧ Keeps g e.interpreter ∧
      (g.initialized = true → args.head? = some 0x06 → e.text = cString g.toolSource) := by
  by_cases hinit : g.initialized = true
  · by_cases hhead : args.head? = some 0x06
    · obtain ⟨r, rfl⟩ := List.head?_eq_some_iff.mp hhead
      obtain ⟨entries, p, hdecode⟩ := decodeTlv_object r
      obtain ⟨e, he, hkeeps, htext⟩ := @execRegisteredTool_keeps _ numberText eval (g.reset.withFault p)
        (callScope (.map entries))
      exact ⟨e, (callToolBinary_map hinit hdecode).trans he, ⟨hkeeps.initialized, hkeeps.toolSource⟩, fun _ _ => htext⟩
    · obtain ⟨v, p, hdecode, hv⟩ := decodeTlv_other hhead
      exact ⟨_, callToolBinary_other hinit hdecode hv, ⟨rfl, rfl⟩, fun _ h => absurd h hhead⟩
  · exact ⟨_, if_pos (by simpa using hinit), ⟨rfl, rfl⟩, fun h => absurd h hinit⟩

end Guest

/-! ## Which source a call executes -/

section Calls

variable {σ : Type} {numberText : NumberText} {f64Text : F64Text} {eval : Evaluator σ} {strtod : Strtod}
variable {rt : Runtime σ} {name : String} {args : Bytes} {a : CallAnswers σ}

/-- The host has the same tools, the guest the same source. -/
structure KeepsTools (rt rt' : Runtime σ) : Prop where
  language : rt'.language = rt.language
  binary : rt'.binary = rt.binary
  tools : rt'.tools = rt.tools
  guest : Keeps rt.interpreter rt'.interpreter

theorem KeepsTools.refl (rt : Runtime σ) : KeepsTools rt rt := ⟨rfl, rfl, rfl, rfl, rfl⟩

theorem invoke_keeps {call : Bytes → Run Unit (CallEnd σ)} {reached : Bytes → Prop} [DecidablePred reached]
    (hcall : ∀ held, ∃ e, call held = .done e ∧ Keeps rt.interpreter e.interpreter ∧
      (reached held → e.text = cString rt.interpreter.toolSource)) :
    ∃ o, rt.invoke call reached name args a = .done o ∧ KeepsTools rt o.runtime ∧
      (a.slots = .ok () → a.stopped = none →
        reached (heldUnder rt.language.layout.argsSlot args rt.nameSlot (utf8 name)) →
          o.executed = some (cString rt.interpreter.toolSource)) := by
  unfold Runtime.invoke
  cases hslots : a.slots with
  | error e => exact ⟨_, rfl, .refl rt, fun h => by cases h⟩
  | ok u =>
    cases hstopped : a.stopped with
    | some left => exact ⟨_, rfl, ⟨rfl, rfl, rfl, rfl, rfl⟩, fun _ h => by cases h⟩
    | none =>
      obtain ⟨e, he, hkeeps, htext⟩ := hcall (heldUnder rt.language.layout.argsSlot args rt.nameSlot (utf8 name))
      simp only [he, Run.done_bind]
      refine ⟨_, rfl, ⟨rfl, rfl, rfl, hkeeps⟩, fun _ _ hreached => ?_⟩
      rw [if_pos hreached]
      exact congrArg some (htext hreached)

/-- **A call with JSON executes the source that the guest has**, whatever the name. -/
theorem runtime_callTool (hinit : rt.interpreter.initialized = true) :
    ∃ o, rt.callTool numberText eval strtod name args a = .done o ∧ KeepsTools rt o.runtime ∧
      (rt.tools name ≠ none → a.slots = .ok () → a.stopped = none →
        o.executed = some (cString rt.interpreter.toolSource)) := by
  unfold Runtime.callTool
  by_cases hnone : rt.tools name = none
  · exact ⟨_, if_pos hnone, .refl rt, fun h => absurd hnone h⟩
  · rw [if_neg hnone]
    obtain ⟨o, ho, hkeeps, hexecuted⟩ := @invoke_keeps _ rt name args a _ (fun _ => rt.interpreter.initialized = true) _
      fun held => @callTool_keeps _ numberText eval strtod rt.interpreter held
    exact ⟨o, ho, hkeeps, fun _ hslots hstopped => hexecuted hslots hstopped hinit⟩

theorem runtime_callToolBinary (hinit : rt.interpreter.initialized = true) :
    ∃ o, rt.callToolBinary numberText f64Text eval strtod name args a = .done o ∧ KeepsTools rt o.runtime ∧
      (rt.tools name ≠ none → a.slots = .ok () → a.stopped = none →
        (if rt.binary then
            (heldUnder rt.language.layout.argsSlot args rt.nameSlot (utf8 name)).head? = some 0x06
          else ∃ v n, decodeJsonValue args = .ok (v, n)) →
        o.executed = some (cString rt.interpreter.toolSource)) := by
  unfold Runtime.callToolBinary
  by_cases hnone : rt.tools name = none
  · exact ⟨_, if_pos hnone, .refl rt, fun h => absurd hnone h⟩
  rw [if_neg hnone]
  by_cases hbinary : rt.binary = true
  · simp only [if_pos hbinary]
    obtain ⟨o, ho, hkeeps, hexecuted⟩ := @invoke_keeps _ rt name args a _ rt.TakesObject _ fun held => by
        obtain ⟨e, he, hkeeps, htext⟩ := @callToolBinary_keeps _ numberText eval rt.interpreter held
        exact ⟨e, he, hkeeps, fun h => htext h.1 h.2⟩
    exact ⟨o, ho, hkeeps, fun _ hslots hstopped hhead => hexecuted hslots hstopped ⟨hinit, hhead⟩⟩
  · simp only [if_neg hbinary]
    cases hdecode : decodeJsonValue args with
    | panic => exact absurd hdecode (decode_ne_panic _ args)
    | err e => exact ⟨_, rfl, .refl rt, fun _ _ _ h => by obtain ⟨v, n, h⟩ := h; cases h⟩
    | ok p =>
      obtain ⟨o, ho, hkeeps, hexecuted⟩ := @runtime_callTool _ numberText eval strtod _ name (jsonText f64Text p.1) a
        hinit
      exact ⟨o, ho, hkeeps, fun h hslots hstopped _ => hexecuted h hslots hstopped⟩

end Calls

/-! ## Runs -/

namespace History

variable {σ : Type} {numberText : NumberText} {f64Text : F64Text} {eval : Evaluator σ} {strtod : Strtod}
variable {h : History σ}

/-- The host's table is that of the versions, and the guest has what was passed on last. -/
structure Kept (h : History σ) : Prop where
  tools : h.runtime.tools = h.version
  source : h.runtime.interpreter.toolSource = h.passed
  initialized : h.runtime.interpreter.initialized = true

theorem kept_start (language : Language) (binary : Bool) (rest : σ) : (start language binary rest).Kept :=
  ⟨rfl, rfl, rfl⟩

theorem Kept.register (hkept : h.Kept) (name source : String) (a : RegisterAnswers) :
    (h.step numberText f64Text eval strtod (.register name source a)).Kept := by
  obtain ⟨rt, version, passed⟩ := h
  obtain ⟨htools, hsource, hinit⟩ := hkept
  dsimp only at htools hsource hinit
  subst htools hsource
  by_cases hsame : rt.tools name = some source
  · have hregister : rt.registerTool name source a = (rt, .ok ()) := if_pos hsame
    refine ⟨?_, ?_, ?_⟩
    · show (rt.registerTool name source a).1.tools = if (rt.registerTool name source a).2.isOk then _ else _
      rw [hregister]
      exact (update_eq_self_of_eq_some hsame).symm
    · show (rt.registerTool name source a).1.interpreter.toolSource = passedBy _ name source a
      rw [hregister, passedBy, if_pos hsame]
    · show (rt.registerTool name source a).1.interpreter.initialized = true
      rw [hregister]
      exact hinit
  · unfold History.step Runtime.registerTool passedBy
    simp only [if_neg hsame]
    cases a.slots with
    | error e => exact ⟨rfl, rfl, hinit⟩
    | ok u =>
      cases a.guest with
      | error p => exact ⟨rfl, rfl, hinit⟩
      | ok u => exact ⟨rfl, rfl, hinit⟩

theorem Kept.outcome (hkept : h.Kept) {op : Operation σ} {name : String} {r : Run Unit (CallOutcome σ)}
    (hop : h.outcome numberText f64Text eval strtod op = some (name, r)) :
    ∃ o, r = .done o ∧ KeepsTools h.runtime o.runtime ∧
      (h.version name ≠ none → h.Reaches op → o.executed = some (cString h.passed)) := by
  rw [← hkept.tools, ← hkept.source]
  cases op with
  | register name source a => cases hop
  | call n args a =>
    obtain ⟨rfl, rfl⟩ := Prod.mk.inj (Option.some.inj hop)
    obtain ⟨o, ho, hkeeps, hexecuted⟩ := runtime_callTool hkept.initialized
    exact ⟨o, ho, hkeeps, fun hname hreaches => hexecuted hname hreaches.1 hreaches.2⟩
  | callBinary n args a =>
    obtain ⟨rfl, rfl⟩ := Prod.mk.inj (Option.some.inj hop)
    obtain ⟨o, ho, hkeeps, hexecuted⟩ := runtime_callToolBinary hkept.initialized
    exact ⟨o, ho, hkeeps, fun hname hreaches => hexecuted hname hreaches.1 hreaches.2.1 hreaches.2.2⟩

theorem Kept.keepsTools (hkept : h.Kept) {rt : Runtime σ} (hkeeps : KeepsTools h.runtime rt) :
    Kept { h with runtime := rt } :=
  ⟨hkeeps.tools.trans hkept.tools, hkeeps.guest.toolSource.trans hkept.source,
    hkeeps.guest.initialized.trans hkept.initialized⟩

/-- **Every operation keeps them.** -/
theorem Kept.step (hkept : h.Kept) (op : Operation σ) : (h.step numberText f64Text eval strtod op).Kept := by
  have hcall : ∀ name r, h.outcome numberText f64Text eval strtod op = some (name, r) →
      (match h.outcome numberText f64Text eval strtod op with
        | some (_, .done o) => { h with runtime := o.runtime }
        | _ => h).Kept := by
    intro name r hr
    obtain ⟨o, rfl, hkeeps, -⟩ := hkept.outcome hr
    rw [hr]
    exact hkept.keepsTools hkeeps
  cases op with
  | register name source a => exact hkept.register name source a
  | call name args a => exact hcall name _ rfl
  | callBinary name args a => exact hcall name _ rfl

theorem Kept.executes_iff (hkept : h.Kept) (op : Operation σ) :
    h.RunsVersion numberText f64Text eval strtod op ↔ h.PassedVersion numberText f64Text eval strtod op := by
  constructor
  · intro hruns name r source hr hversion hreaches
    obtain ⟨o, rfl, -, hexecuted⟩ := hkept.outcome hr
    obtain ⟨o', ho', htext⟩ := hruns name _ source hr hversion hreaches
    obtain rfl := Run.done.inj ho'
    rw [hexecuted (by rw [hversion]; exact Option.some_ne_none _) hreaches] at htext
    exact Option.some.inj htext
  · intro hpassed name r source hr hversion hreaches
    obtain ⟨o, rfl, -, hexecuted⟩ := hkept.outcome hr
    refine ⟨o, rfl, ?_⟩
    rw [hexecuted (by rw [hversion]; exact Option.some_ne_none _) hreaches, hpassed name _ source hr hversion hreaches]

end History

/-- **Each call of a run executes the version of its name** exactly if, whenever a name is called, the last registration
that was not a repetition has passed this version on to the guest. -/
theorem runsVersion_iff {σ : Type} (numberText : NumberText) (f64Text : F64Text) (eval : Evaluator σ) (strtod : Strtod)
    (language : Language) (binary : Bool) (rest : σ) (ops : List (Operation σ)) :
    Along (History.step numberText f64Text eval strtod) (History.RunsVersion numberText f64Text eval strtod)
        (.start language binary rest) ops ↔
      Along (History.step numberText f64Text eval strtod) (History.PassedVersion numberText f64Text eval strtod)
        (.start language binary rest) ops :=
  Along.iff_of_invariant (fun _ op hkept => History.Kept.step hkept op) (fun _ op hkept => hkept.executes_iff op)
    (History.kept_start language binary rest)

/-- Two tools are registered, the first once more, and called. -/
def twoTools : List (Operation Unit) :=
  [.register "a" "first" ⟨.ok (), .ok ()⟩, .register "b" "second" ⟨.ok (), .ok ()⟩,
    .register "a" "first" ⟨.ok (), .ok ()⟩, .call "a" [] ⟨.ok (), none, "", .ok ()⟩]

/-- The first tool, registered again with its own text, runs the text of the second. -/
theorem other_tool_executed :
    ¬ ∀ ops, Along (History.step printDigit (fun _ => []) asksOnly fun _ => 0)
      (History.RunsVersion printDigit (fun _ => []) asksOnly fun _ => 0) (.start .php true ()) ops := by
  intro hruns
  have hpassed := (Along.iff_of_invariant (I := History.Kept) (fun _ op hkept => hkept.step op)
    (fun _ op hkept => hkept.executes_iff op) (History.kept_start .php true ())).mp (hruns twoTools)
  obtain ⟨-, -, -, hcall, -⟩ := hpassed
  have htext := hcall "a" _ "first" rfl (by decide +kernel) ⟨rfl, rfl⟩
  revert htext
  decide +kernel

end VelocityMcp.Interp
