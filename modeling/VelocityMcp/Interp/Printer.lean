import VelocityMcp.Interp.Parser

/-!
# Interp.Printer — expressions and their source texts (`interp_core/interp.c`)

`Expr.ast`: the tree as the parser builds it.  `Expr.WellFormed`: the trees that have a text in a dialect.
-/

namespace VelocityMcp.Interp

open Lib
open Guest (Strtod)

/-! ## Trees -/

inductive UnaryOp where
  | not
  | minus
deriving DecidableEq, Repr

inductive BinaryOp where
  | or
  | and
  | eq
  | neq
  | lt
  | gt
  | lte
  | gte
  | plus
  | minus
  | concat
  | star
  | slash
  | percent
deriving DecidableEq, Repr

namespace UnaryOp

def type : UnaryOp → TokenType
  | not => .not
  | minus => .minus

def text : UnaryOp → Bytes
  | not => [0x21]
  | minus => [0x2d]

end UnaryOp

namespace BinaryOp

def type : BinaryOp → TokenType
  | or => .or
  | and => .and
  | eq => .eq
  | neq => .neq
  | lt => .lt
  | gt => .gt
  | lte => .lte
  | gte => .gte
  | plus => .plus
  | minus => .minus
  | concat => .dot
  | star => .star
  | slash => .slash
  | percent => .percent

def text : BinaryOp → Bytes
  | or => [0x7c, 0x7c]
  | and => [0x26, 0x26]
  | eq => [0x3d, 0x3d]
  | neq => [0x21, 0x3d]
  | lt => [0x3c]
  | gt => [0x3e]
  | lte => [0x3c, 0x3d]
  | gte => [0x3e, 0x3d]
  | plus => [0x2b]
  | minus => [0x2d]
  | concat => [0x2e]
  | star => [0x2a]
  | slash => [0x2f]
  | percent => [0x25]

/-- From the weakest to the strongest: 2 to 7. -/
def level : BinaryOp → ℕ
  | or => 2
  | and => 3
  | eq | neq => 4
  | lt | gt | lte | gte => 5
  | plus | minus | concat => 6
  | star | slash | percent => 7

end BinaryOp

/-- The text of a number. -/
structure Numeral where
  text : Bytes
  starts : startsNumber text = true
  whole : numberRest text = []

/-- Between these quotes, the text of a string ends where it should. -/
def staysWithin (quote : UInt8) : Bytes → Bool
  | [] => true
  | [c] => c ≠ quote && c ≠ 0x5c
  | c :: e :: s => c ≠ quote && if c = 0x5c then staysWithin quote s else staysWithin quote (e :: s)

structure Quoted where
  quote : UInt8
  text : Bytes
  quote_eq : quote = 0x22 ∨ quote = 0x27
  no_null : 0 ∉ text
  within : staysWithin quote text = true

structure Name where
  text : Bytes
  chars : text.all isIdentChar = true

inductive Key where
  | ident (name : Name)
  | string (s : Quoted)

/-- The trees of expressions, with the text of each literal and of each name. -/
inductive Expr where
  | number (n : Numeral)
  | string (s : Quoted)
  | bool (b : Bool)
  | null
  | ident (name : Name)
  | array (elements : List Expr)
  | map (entries : List (Key × Expr))
  | unary (op : UnaryOp) (operand : Expr)
  | binary (op : BinaryOp) (left right : Expr)
  | call (func : Expr) (args : List Expr)
  | index (object index : Expr)
  | member (object : Expr) (name : Name)
  | assign (target value : Expr)

namespace Expr

/-- Induction over trees, with the trees in a list or in a map at once. -/
@[elab_as_elim]
theorem induction {P : Expr → Prop} (number : ∀ n, P (.number n)) (string : ∀ s, P (.string s))
    (bool : ∀ b, P (.bool b)) (null : P .null) (ident : ∀ name, P (.ident name))
    (array : ∀ elements, (∀ e ∈ elements, P e) → P (.array elements))
    (map : ∀ entries, (∀ x ∈ entries, P x.2) → P (.map entries))
    (unary : ∀ op operand, P operand → P (.unary op operand))
    (binary : ∀ op left right, P left → P right → P (.binary op left right))
    (call : ∀ func args, P func → (∀ e ∈ args, P e) → P (.call func args))
    (index : ∀ object i, P object → P i → P (.index object i))
    (member : ∀ object name, P object → P (.member object name))
    (assign : ∀ target value, P target → P value → P (.assign target value)) (e : Expr) : P e :=
  @Expr.rec P (fun es => ∀ e ∈ es, P e) (fun entries => ∀ x ∈ entries, P x.2) (fun x => P x.2)
    number string bool null ident array map unary binary call index member assign
    (fun _ h => by cases h) (fun _ _ hhead htail => List.forall_mem_cons.mpr ⟨hhead, htail⟩)
    (fun _ h => by cases h) (fun _ _ hhead htail => List.forall_mem_cons.mpr ⟨hhead, htail⟩)
    (fun _ _ h => h) e

/-- How strongly a tree holds together. -/
def level : Expr → ℕ
  | assign .. => 1
  | binary op .. => op.level
  | unary .. => 8
  | call .. | index .. | member .. => 9
  | _ => 10

def isTarget : Expr → Bool
  | ident _ => true
  | index .. => true
  | member .. => true
  | _ => false

end Expr

/-! ## Printing -/

/-- `full`: every compound expression stands in parentheses.  `bare`: the names without the prefix of variables. -/
structure Style where
  full : Bool
  bare : Bytes → Bool

/-- A token as it is printed, and what the tokenizer should make of it. -/
structure Lexeme where
  raw : Bytes
  token : Token

namespace Lexeme

variable (d : Dialect) (strtod : Strtod) (style : Style)

/-- A keyword, an operator or a bracket. -/
def mark (type : TokenType) (text : Bytes) : Lexeme := ⟨text, type, text, 0, 0, 0⟩

def lparen : Lexeme := mark .lparen [0x28]

def rparen : Lexeme := mark .rparen [0x29]

def lbracket : Lexeme := mark .lbracket [0x5b]

def rbracket : Lexeme := mark .rbracket [0x5d]

def lbrace : Lexeme := mark .lbrace [0x7b]

def rbrace : Lexeme := mark .rbrace [0x7d]

def comma : Lexeme := mark .comma [0x2c]

def colon : Lexeme := mark .colon [0x3a]

def dot : Lexeme := mark .dot [0x2e]

def assign : Lexeme := mark .assign [0x3d]

def unary (op : UnaryOp) : Lexeme := mark op.type op.text

def binary (op : BinaryOp) : Lexeme := mark op.type op.text

def bool (b : Bool) : Lexeme := if b then mark .true (utf8 "true") else mark .false (utf8 "false")

def null : Lexeme := mark .null (utf8 "null")

def number (n : Numeral) : Lexeme := ⟨n.text, .number, n.text, 0, 0, strtod n.text⟩

def string (s : Quoted) : Lexeme := ⟨s.quote :: (s.text ++ [s.quote]), .string, s.text, 0, 0, 0⟩

/-- The prefix of a name. -/
def sigil (name : Name) : Bytes := if style.bare name.text then [] else d.varPrefix.toList

def ident (name : Name) : Lexeme := ⟨sigil d style name ++ name.text, .ident, name.text, 0, 0, 0⟩

def key : Key → Lexeme
  | .ident name => ident d style name
  | .string s => string s

end Lexeme

namespace Expr

variable (d : Dialect) (strtod : Strtod) (style : Style)

/-- Between parentheses, unless it is strong enough for its place. -/
def wrap (level k : ℕ) (body : List Lexeme) : List Lexeme :=
  if level < (if style.full then 10 else k) then .lparen :: (body ++ [.rparen]) else body

mutual

/-- A tree as it is printed, without parentheses around it. -/
def body : Expr → List Lexeme
  | number n => [.number strtod n]
  | string s => [.string s]
  | bool b => [.bool b]
  | null => [.null]
  | ident name => [.ident d style name]
  | array elements => .lbracket :: (bodyAll elements ++ [.rbracket])
  | map entries => .lbrace :: (bodyEntries entries ++ [.rbrace])
  | unary op operand => .unary op :: wrap style operand.level 8 (body operand)
  | binary op left right =>
    wrap style left.level op.level (body left) ++ .binary op :: wrap style right.level (op.level + 1) (body right)
  | call func args => wrap style func.level 9 (body func) ++ .lparen :: (bodyAll args ++ [.rparen])
  | index object i =>
    wrap style object.level 9 (body object) ++ .lbracket :: (wrap style i.level 1 (body i) ++ [.rbracket])
  | member object name => wrap style object.level 9 (body object) ++ [.dot, .ident d style name]
  | assign target value => wrap style target.level 2 (body target) ++ .assign :: wrap style value.level 1 (body value)

def bodyAll : List Expr → List Lexeme
  | [] => []
  | e :: es => wrap style e.level 1 (body e) ++ bodyTail es

def bodyTail : List Expr → List Lexeme
  | [] => []
  | e :: es => .comma :: (wrap style e.level 1 (body e) ++ bodyTail es)

def bodyEntries : List (Key × Expr) → List Lexeme
  | [] => []
  | (k, e) :: es =>
    .key d style k :: .colon :: (wrap style e.level 1 (body e) ++ if es = [] then [] else .comma :: bodyEntries es)

end

/-- The same in a place of level `k`. -/
def lexemes (k : ℕ) (e : Expr) : List Lexeme := wrap style e.level k (body d strtod style e)

end Expr

/-- The text: a blank before each token, and one at the end. -/
def sourceText : List Lexeme → Bytes
  | [] => [0x20]
  | x :: xs => 0x20 :: (x.raw ++ sourceText xs)

namespace Expr

variable (d : Dialect) (strtod : Strtod) (style : Style)

def source (e : Expr) : Bytes := sourceText (e.lexemes d strtod style 1)

/-! ## The trees of the parser -/

def keyAst : Key → Ast
  | .ident name => .ident name.text 0
  | .string s => .stringLit s.text

mutual

/-- The same tree in nodes, without lines. -/
def ast : Expr → Ast
  | number n => .numberLit (strtod n.text)
  | string s => .stringLit s.text
  | bool b => .boolLit b
  | null => .nullLit
  | ident name => .ident name.text 0
  | array elements => .arrayLit (astAll elements)
  | map entries => .mapLit (astEntries entries)
  | unary op operand => .unary op.type (ast operand)
  | binary op left right => .binary op.type (ast left) (ast right) 0
  | call func args => .call (ast func) (astAll args) 0
  | index object i => .index (ast object) (ast i)
  | member object name => .member (ast object) name.text
  | assign target value => .assign (ast target) (ast value)

def astAll : List Expr → List Ast
  | [] => []
  | e :: es => ast e :: astAll es

def astEntries : List (Key × Expr) → List (Ast × Ast)
  | [] => []
  | (k, e) :: es => (keyAst k, ast e) :: astEntries es

end

/-! ## What can be printed -/

/-- Without a prefix, a name is no keyword. -/
def Legible (name : Name) : Prop :=
  Lexeme.sigil d style name = [] → name.text.head?.any isIdentStart = true ∧ (readWord d name.text).1 = .ident

mutual

/-- The trees that have a source text in the dialect. -/
def WellFormed : Expr → Prop
  | number _ | string _ | bool _ | null => True
  | ident name => Legible d style name
  | array elements => WellFormedAll elements
  | map entries => WellFormedEntries entries
  | unary _ operand => WellFormed operand
  | binary op left right => (op = .concat → d.concatDot = true) ∧ WellFormed left ∧ WellFormed right
  | call func args => WellFormed func ∧ WellFormedAll args
  | index object i => WellFormed object ∧ WellFormed i
  | member object name => d.concatDot = false ∧ Legible d style name ∧ WellFormed object
  | assign target value => target.isTarget = true ∧ WellFormed target ∧ WellFormed value

def WellFormedAll : List Expr → Prop
  | [] => True
  | e :: es => WellFormed e ∧ WellFormedAll es

def WellFormedEntries : List (Key × Expr) → Prop
  | [] => True
  | (k, e) :: es => (∀ name, k = .ident name → Legible d style name) ∧ WellFormed e ∧ WellFormedEntries es

end

end Expr

/-! ## Dialects -/

/-- The prefix of variables is a dollar sign, no keyword has a blank, and a blank at the start is not skipped. -/
structure Dialect.Regular (d : Dialect) : Prop where
  varPrefix : ∀ c, d.varPrefix = some c → c = 0x24
  funcKeyword : ∀ w, d.funcKeyword = some w → 0x20 ∉ w
  printKeywords : ∀ w ∈ d.printKeywords, 0x20 ∉ w
  skipPrefix : ∀ w, d.skipPrefix = some w → w.head?.any (· ≠ 0x20) = true

theorem Language.regular (l : Language) : l.dialect.Regular := by
  cases l <;> constructor <;> decide +kernel

end VelocityMcp.Interp
