import VelocityMcp.Interp.JsonParser
import VelocityMcp.Interp.RenderBounds
import VelocityMcp.Interp.Tlv
import VelocityMcp.Wasm.Versions

/-!
# Interp.EntryPoints — registering a tool and calling it (`interp_core/interp.c`)

`callTool_done`, `callToolBinary_map`: calls come to an end whenever the evaluation does, and what is evaluated.
-/

namespace VelocityMcp.Interp

open Lib
open Guest (Strtod)
open Wasm (toolSrcSize)

/-! ## The state of a guest -/

/-- What the evaluation of a source leaves, whether it has come to its end or trapped. -/
structure Evaluated (σ : Type) where
  trapped : Bool
  error : Option ErrorText
  result : Option ResultText
  output : Bytes
  rest : σ

/-- The parser and the evaluator, on a source, in a scope with these variables. -/
abbrev Evaluator (σ : Type) := σ → Bytes → List (Bytes × Val) → Evaluated σ

/-- The globals; `rest` is what else is in the memory of the guest. -/
structure Interpreter (σ : Type) where
  initialized : Bool
  toolSource : Bytes
  /-- `g_error`, if it is not empty. -/
  error : Option ErrorText
  /-- `g_result`, if it is set. -/
  result : Option ResultText
  output : Bytes
  rest : σ

/-- A call's end: the status that is returned, unless it trapped, and the source that was evaluated with its scope. -/
structure CallEnd (σ : Type) where
  interpreter : Interpreter σ
  status : Option ℤ
  ran : Option (Bytes × List (Bytes × Val))

/-! ## The functions -/

def argsBufSize : ℕ := 4096

/-- `builtins`, by name. -/
def builtinNames : List String :=
  ["len", "substr", "split", "join", "trim", "upper", "lower", "replace", "contains", "push", "pop", "keys", "values",
    "has", "abs", "floor", "ceil", "round", "min", "max", "type", "to_string", "to_number", "set_tool_result", "map_fn",
    "filter", "json_parse", "json_stringify"]

/-- The scope after `register_builtins`. -/
def builtinScope : List (Bytes × Val) := mapSetAll (builtinNames.map fun name => (utf8 name, .func)) []

def callScope : Val → List (Bytes × Val)
  | .map entries => mapSetAll entries builtinScope
  | _ => builtinScope

def TlvFault.text (f : TlvFault) : ErrorText where
  chars := f.message
  fits := by cases f <;> decide +kernel
  noNul := by cases f <;> decide +kernel

variable {σ : Type}

namespace Interpreter

/-- `interp_register_tool`: whatever the name. -/
def registerTool (g : Interpreter σ) (source : Bytes) : Interpreter σ :=
  { g with toolSource := source.take (toolSrcSize - 1) }

variable (numberText : NumberText) (eval : Evaluator σ)

/-- The reply, at the end of `exec_registered_tool`. -/
def reply (g : Interpreter σ) (ran : Option (Bytes × List (Bytes × Val))) : Run Unit (CallEnd σ) := do
  let output ← formatReply numberText g.error g.result g.output
  .done ⟨{ g with output := output }, some 0, ran⟩

def after (g : Interpreter σ) (e : Evaluated σ) : Interpreter σ :=
  { g with error := e.error, result := e.result, output := e.output, rest := e.rest }

/-- `exec_registered_tool`: the source is read as a C string. -/
def execRegisteredTool (g : Interpreter σ) (scope : List (Bytes × Val)) : Run Unit (CallEnd σ) :=
  if g.toolSource = [] then g.reply numberText none
  else
    let e := eval g.rest (cString g.toolSource) scope
    if e.trapped then .done ⟨g.after e, none, some (cString g.toolSource, scope)⟩
    else (g.after e).reply numberText (some (cString g.toolSource, scope))

/-- The output and the result are reset before each call. -/
def reset (g : Interpreter σ) : Interpreter σ := { g with output := [], result := none }

/-- `interp_call_tool`. -/
def callTool (strtod : Strtod) (g : Interpreter σ) (args : Bytes) : Run Unit (CallEnd σ) :=
  if g.initialized = false then .done ⟨g, some (-1), none⟩
  else do
    let args ← jsonParse strtod (args.take (argsBufSize - 1))
    g.reset.execRegisteredTool numberText eval (callScope args)

/-- What the decoder has written into `g_error`. -/
def withFault (g : Interpreter σ) (p : TlvParser) : Interpreter σ :=
  { g with error := (p.fault.map TlvFault.text).or g.error }

/-- The text of which the first 40 characters are the answer. -/
def decodeFailed : Bytes := utf8 "ERROR: TLV decode failed or not an object"

/-- `interp_call_tool_binary`. -/
def callToolBinary (g : Interpreter σ) (tlv : Bytes) : Run Unit (CallEnd σ) :=
  if g.initialized = false then .done ⟨g, some (-1), none⟩
  else do
    let (args, p) ← decodeTlv tlv
    let g := g.reset.withFault p
    match args with
    | .map entries => g.execRegisteredTool numberText eval (callScope (.map entries))
    | _ => .done ⟨{ g with output := outputAppend (decodeFailed.take 40) g.output }, some (-1), none⟩

end Interpreter

/-! ## What they do -/

section Done

variable {numberText : NumberText} {eval : Evaluator σ} {g : Interpreter σ}

theorem reply_done (g : Interpreter σ) (ran : Option (Bytes × List (Bytes × Val))) :
    ∃ e, g.reply numberText ran = .done e ∧ e.ran = ran := by
  obtain ⟨out, hout⟩ := @formatReply_done numberText g.error g.result g.output
  exact ⟨_, by rw [Interpreter.reply, hout, Run.done_bind], rfl⟩

theorem execRegisteredTool_done (hsource : g.toolSource ≠ []) (scope : List (Bytes × Val)) :
    ∃ e, g.execRegisteredTool numberText eval scope = .done e ∧ e.ran = some (cString g.toolSource, scope) := by
  rw [Interpreter.execRegisteredTool, if_neg hsource]
  by_cases htrap : (eval g.rest (cString g.toolSource) scope).trapped = true
  · exact ⟨_, if_pos htrap, rfl⟩
  · obtain ⟨e, he, hran⟩ := @reply_done _ numberText (g.after (eval g.rest (cString g.toolSource) scope))
      (some (cString g.toolSource, scope))
    exact ⟨e, (if_neg htrap).trans he, hran⟩

theorem execRegisteredTool_empty (hsource : g.toolSource = []) (scope : List (Bytes × Val)) :
    ∃ e, g.execRegisteredTool numberText eval scope = .done e ∧ e.ran = none := by
  rw [Interpreter.execRegisteredTool, if_pos hsource]
  exact reply_done g none

/-- **A call with JSON** evaluates the source, whatever its arguments are. -/
theorem callTool_done (strtod : Strtod) (hinit : g.initialized = true) (hsource : g.toolSource ≠ []) (args : Bytes) :
    ∃ v e, jsonParse strtod (args.take (argsBufSize - 1)) = .done v ∧
      g.callTool numberText eval strtod args = .done e ∧ e.ran = some (cString g.toolSource, callScope v) := by
  obtain ⟨v, hv⟩ := jsonParse_done strtod (args.take (argsBufSize - 1))
  obtain ⟨e, he, hran⟩ := @execRegisteredTool_done _ numberText eval g.reset hsource (callScope v)
  refine ⟨v, e, hv, ?_, hran⟩
  rw [Interpreter.callTool, if_neg (by simp [hinit]), hv, Run.done_bind, he]

/-- **A call with TLV** evaluates it if an object stands at the front of the buffer. -/
theorem callToolBinary_map (hinit : g.initialized = true) {tlv : Bytes} {entries : List (Bytes × Val)} {p : TlvParser}
    (hdecode : decodeTlv tlv = .done (.map entries, p)) : g.callToolBinary numberText eval tlv =
      (g.reset.withFault p).execRegisteredTool numberText eval (callScope (.map entries)) := by
  rw [Interpreter.callToolBinary, if_neg (by simp [hinit]), hdecode, Run.done_bind]

theorem callToolBinary_other (hinit : g.initialized = true) {tlv : Bytes} {v : Val} {p : TlvParser}
    (hdecode : decodeTlv tlv = .done (v, p)) (hv : ∀ entries, v ≠ .map entries) :
    g.callToolBinary numberText eval tlv =
      .done ⟨{ g.reset.withFault p with output := Interpreter.decodeFailed.take 40 }, some (-1), none⟩ := by
  have houtput : outputAppend (Interpreter.decodeFailed.take 40) [] = Interpreter.decodeFailed.take 40 := by
    decide
  rw [Interpreter.callToolBinary, if_neg (by simp [hinit]), hdecode, Run.done_bind]
  show (match v with
    | .map entries => _
    | _ => _) = _
  split
  · exact absurd rfl (hv _)
  · show Run.done (CallEnd.mk { g.reset.withFault p with output := outputAppend _ [] } _ _) = _
    rw [houtput]

end Done

end VelocityMcp.Interp
