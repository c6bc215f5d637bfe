import VelocityMcp.JsonNumbers
import Mathlib.Data.List.Forall2

/-!
# Macros.McpTool — the dispatchers that `#[mcp_tool]` generates (`macros/src/lib.rs`)

`Represents`: a Rust value is the very value of a JSON value; `Exact`: the tool is called with exactly the arguments
of the request, or not at all.
-/

namespace VelocityMcp.Macros

open Lib

/-! ## Types -/

inductive Width where
  | w8
  | w16
  | w32
  | w64
deriving DecidableEq

@[grind =] def Width.bits : Width → ℕ
  | w8 => 8
  | w16 => 16
  | w32 => 32
  | w64 => 64

/-- The identifiers that the macro knows.  `wide` are those of integers for which it has a schema only. -/
inductive Ident where
  | string
  | str
  | signed (w : Width)
  | unsigned (w : Width)
  | wide
  | f64
  | f32
  | bool
  | vec
  | option
  | other
deriving DecidableEq

/-- `syn::Type`: of a path, the identifier of the last segment and its first argument, if that is a type. -/
inductive Ty where
  | path (ident : Ident) (inner : Option Ty)
  | other

namespace Ty

/-- `is_option_type`. -/
def isOption : Ty → Bool
  | path ident _ => ident = .option
  | other => false

/-- `extract_option_inner`. -/
def optionInner : Ty → Option Ty
  | path .option inner => inner
  | _ => none

/-- `extract_vec_inner`. -/
def vecInner : Ty → Option Ty
  | path .vec inner => inner
  | _ => none

end Ty

/-- `type_to_json_schema`; constraints add other members. -/
@[grind =] def typeToJsonSchema : Ty → Value
  | .path .string _ | .path .str _ => .object [("type", .string "string")]
  | .path (.signed _) _ | .path (.unsigned _) _ | .path .wide _ => .object [("type", .string "integer")]
  | .path .f32 _ | .path .f64 _ => .object [("type", .string "number")]
  | .path .bool _ => .object [("type", .string "boolean")]
  | .path .vec (some inner) => .object [("items", typeToJsonSchema inner), ("type", .string "array")]
  | .path .vec none => .object [("type", .string "array")]
  | .path _ _ => .object [("type", .string "object")]
  | .other => .object [("type", .string "string")]

/-! ## The generated code -/

/-- The Rust values of parameters. -/
inductive Arg where
  | string (s : String)
  | int (n : ℤ)
  | f64 (bits : UInt64)
  | f32 (bits : UInt32)
  | bool (b : Bool)
  | json (v : Value)
  | vec (items : List Arg)
  | none
  | some (a : Arg)

/-- `as`, from a wider integer type. -/
def castInt : Ident → ℤ → ℤ
  | .signed w, n => Int.bmod n (2 ^ w.bits)
  | .unsigned w, n => n % (2 ^ w.bits : ℕ)
  | _, n => n

section Generated

variable (narrow : UInt64 → UInt32)

/-- What both kinds of extraction read where no vector is expected; `narrow` is `as f32`. -/
@[grind =] def readItem (ident : Ident) (v : Value) : Option Arg :=
  match ident, v with
  | .signed _, .number n => n.asI64.map fun i => .int (castInt ident i.toInt)
  | .unsigned _, .number n => n.asU64.map fun i => .int (castInt ident i.toNat)
  | .f64, .number n => n.asF64.map .f64
  | .f32, .number n => n.asF64.map fun bits => .f32 (narrow bits)
  | .bool, .bool b => some (.bool b)
  | .signed _, _ | .unsigned _, _ | .f64, _ | .f32, _ | .bool, _ => none
  | _, v => v.asStr.map .string

/-- `ok_or_else`. -/
def okOr {α : Type} (msg : String) (x : Option α) : Except String α := x.elim (.error msg) .ok

def itemMessage : Ident → String
  | .signed _ => "Array item must be an integer"
  | .unsigned _ => "Array item must be an unsigned integer"
  | .f64 | .f32 => "Array item must be a number"
  | .bool => "Array item must be a boolean"
  | _ => "Array item must be a string"

@[grind =] def generateVecItemExtraction : Ty → Value → Except String Arg
  | .path ident _, item => okOr (itemMessage ident) (readItem narrow ident item)
  | .other, item => okOr "Array item must be a string" (item.asStr.map .string)

def missing (name : String) : String := "Missing required parameter: " ++ name

@[grind =] def extractExpr (name : String) (ty : Ty) (v : Value) : Except String Arg :=
  match ty, v with
  | .path .vec (some inner), .array items => (items.mapM (generateVecItemExtraction narrow inner)).map .vec
  | .path .vec (some _), _ => .error ("Parameter " ++ name ++ " must be an array")
  | .path .vec none, .array items => .ok (.json (.array items))
  | .path .vec none, _ => .error (missing name)
  | .path ident _, v => okOr (missing name) (readItem narrow ident v)
  | .other, v => okOr (missing name) (v.asStr.map .string)

/-- What the generated code computes for one parameter. -/
@[grind =] def generateParamExtraction (name : String) (ty : Ty) (isOptional : Bool) (args : Value) : Except String Arg :=
  let v := args.index name
  match ty with
  | .path _ _ =>
    if isOptional then if v = .null then .ok .none else (extractExpr narrow name ty v).map .some
    else extractExpr narrow name ty v
  | .other =>
    if isOptional then .ok (v.asStr.elim .none fun s => .some (.string s))
    else okOr (missing name) (v.asStr.map .string)

/-- A parameter of the function under the macro. -/
structure Param where
  name : String
  ty : Ty

def Param.isOptional (p : Param) : Bool := p.ty.isOption

/-- `base_type`. -/
def Param.base (p : Param) : Ty := if p.isOptional then p.ty.optionInner.getD p.ty else p.ty

/-- The parameters, one after the other. -/
def dispatch (params : List Param) (args : Value) : Except String (List Arg) :=
  params.mapM fun p => generateParamExtraction narrow p.name p.base p.isOptional args

/-- The function that `mcp_tool` puts in the place of the original one. -/
def mcpTool (params : List Param) (original : List Arg → Except String String) (args : Value) : Except String String :=
  dispatch narrow params args >>= original

end Generated

/-! ## What it is for -/

/-- A value is of the type that a schema declares. -/
inductive Conforms : Value → Value → Prop
  | string {schema : Value} (s : String) : schema.index "type" = .string "string" → Conforms schema (.string s)
  | integer {schema : Value} (n : Number) (k : ℤ) :
    schema.index "type" = .string "integer" → n.value = k → Conforms schema (.number n)
  | number {schema : Value} (n : Number) : schema.index "type" = .string "number" → Conforms schema (.number n)
  | boolean {schema : Value} (b : Bool) : schema.index "type" = .string "boolean" → Conforms schema (.bool b)
  | array {schema : Value} (items : List Value) : schema.index "type" = .string "array" →
    (∀ v ∈ items, Conforms (schema.index "items") v) → Conforms schema (.array items)

@[grind =] def Ident.InRange : Ident → ℤ → Prop
  | .signed w, k => -2 ^ (w.bits - 1) ≤ k ∧ k < 2 ^ (w.bits - 1)
  | .unsigned w, k => 0 ≤ k ∧ k < 2 ^ w.bits
  | _, _ => False

/-- A value of a type is exactly a JSON value. -/
@[grind =] def Ident.Represents (ident : Ident) (v : Value) (a : Arg) : Prop :=
  match ident with
  | .string => ∃ s, v = .string s ∧ a = .string s
  | .signed _ | .unsigned _ => ∃ n k, v = .number n ∧ a = .int k ∧ ident.InRange k ∧ n.value = k
  | .f64 => ∃ n bits, v = .number n ∧ a = .f64 bits ∧ f64Finite bits ∧ binary64 bits.toNat = n.value
  | .bool => ∃ b, v = .bool b ∧ a = .bool b
  | _ => False

def Represents (ty : Ty) (v : Value) (a : Arg) : Prop :=
  match ty with
  | .path .vec (some (.path ident _)) =>
    ∃ items as, v = .array items ∧ a = .vec as ∧ List.Forall₂ ident.Represents items as
  | .path ident _ => ident.Represents v a
  | .other => False

/-- The supported types. -/
def Ident.Plain : Ident → Prop
  | .string | .signed _ | .unsigned _ | .f64 | .bool => True
  | _ => False

inductive Ty.Supported : Ty → Prop
  | plain {ident : Ident} : ident.Plain → Supported (.path ident none)
  | vec {ident : Ident} : ident.Plain → Supported (.path .vec (some (.path ident none)))

/-- A type the macro knows, or an `Option` of one. -/
inductive Param.Supported : Param → Prop
  | required {name : String} {ty : Ty} : ty.Supported → Supported ⟨name, ty⟩
  | optional {name : String} {ty : Ty} : ty.Supported → Supported ⟨name, .path .option (some ty)⟩

/-- A value of the declared schema type that the Rust type can represent. -/
def Fitting (ty : Ty) (v : Value) : Prop := Conforms (typeToJsonSchema ty) v ∧ ∃ a, Represents ty v a

/-- What the signature admits as the argument: a fitting value, or for an `Option` none or null. -/
def Param.Acceptable (p : Param) (args : Value) : Prop :=
  (p.isOptional ∧ (args.get p.name = none ∨ args.get p.name = some .null)) ∨
    ∃ v, args.get p.name = some v ∧ Fitting p.base v

def Param.Receives (args : Value) (p : Param) (a : Arg) : Prop :=
  if p.isOptional then
    ((args.get p.name = none ∨ args.get p.name = some .null) ∧ a = .none) ∨
      ∃ v a', args.get p.name = some v ∧ Represents p.base v a' ∧ a = .some a'
  else ∃ v, args.get p.name = some v ∧ Represents p.base v a

section Calls

variable (narrow : UInt64 → UInt32) (params : List Param) (args : Value)

def Calls (xs : List Arg) : Prop := ∀ original, mcpTool narrow params original args = original xs

/-- It is not called. -/
def Refuses : Prop := ∃ msg, ∀ original, mcpTool narrow params original args = .error msg

/-- **Exact arguments.** -/
def Exact : Prop :=
  ((∀ p ∈ params, p.Acceptable args) →
    ∃ xs, Calls narrow params args xs ∧ List.Forall₂ (Param.Receives args) params xs) ∧
  ((¬∀ p ∈ params, p.Acceptable args) → Refuses narrow params args)

end Calls

end VelocityMcp.Macros
