import VelocityMcp.Lib.Outcome

/-!
# Edge.MathEval — the calculator of the edge server (`eval_math_expr`)

A `panic` is an index out of range, and a loop that goes on for more turns than there are characters or tokens.
-/

namespace VelocityMcp.Edge

open Lib

/-! ## Numbers and tokens -/

/-- `f64`. -/
structure Floats (F : Type) where
  parse : String → Option F
  display : F → String
  add : F → F → F
  sub : F → F → F
  mul : F → F → F
  div : F → F → F
  rem : F → F → F
  powf : F → F → F
  min : F → F → F
  max : F → F → F
  neg : F → F
  sqrt : F → F
  abs : F → F
  floor : F → F
  ceil : F → F
  round : F → F
  sin : F → F
  cos : F → F
  tan : F → F
  ln : F → F
  log10 : F → F
  log2 : F → F
  exp : F → F
  isZero : F → Bool
  ltZero : F → Bool
  leZero : F → Bool
  infinity : F
  negInfinity : F
  pi : F
  e : F

/-- `MathToken`: numbers, names, operators, brackets and the comma. -/
inductive MathToken (F : Type) where
  | number (n : F)
  | plus
  | minus
  | star
  | slash
  | percent
  | caret
  | lParen
  | rParen
  | comma
  | ident (s : String)
deriving DecidableEq, Repr

variable {F : Type} (ops : Floats F)

def tokenStr : MathToken F → String
  | .number n => ops.display n
  | .plus => "+"
  | .minus => "-"
  | .star => "*"
  | .slash => "/"
  | .percent => "%"
  | .caret => "^"
  | .lParen => "("
  | .rParen => ")"
  | .comma => ","
  | .ident s => s

/-- `xs[i]`. -/
def itemAt {α : Type} (xs : List α) (i : ℕ) : Outcome String α :=
  match xs[i]? with
  | some x => .ok x
  | none => .panic

/-! ## Tokens -/

/-- The tokens of one character. -/
def symbol : Char → Option (MathToken F)
  | '+' => some .plus
  | '-' => some .minus
  | '*' => some .star
  | '/' => some .slash
  | '%' => some .percent
  | '^' => some .caret
  | '(' => some .lParen
  | ')' => some .rParen
  | ',' => some .comma
  | _ => none

def numberEnd (chars : List Char) : ℕ → ℕ → Bool → Outcome String ℕ
  | 0, _, _ => .panic
  | n + 1, i, hasDot =>
    if i < chars.length then do
      let c ← itemAt chars i
      if c.isDigit || (c = '.' && !hasDot) then numberEnd chars n (i + 1) (hasDot || c = '.') else pure i
    else pure i

def identEnd (chars : List Char) : ℕ → ℕ → Outcome String ℕ
  | 0, _ => .panic
  | n + 1, i =>
    if i < chars.length then do
      let c ← itemAt chars i
      if c.isAlphanum || c = '_' then identEnd chars n (i + 1) else pure i
    else pure i

/-- `chars[start..i]`. -/
def textBetween (chars : List Char) (start i : ℕ) : Outcome String String :=
  if start ≤ i ∧ i ≤ chars.length then .ok (String.ofList ((chars.drop start).take (i - start))) else .panic

/-- The loop of `tokenize_math`. -/
def tokenizeFrom (chars : List Char) : ℕ → ℕ → List (MathToken F) → Outcome String (List (MathToken F))
  | 0, _, _ => .panic
  | n + 1, i, tokens =>
    if i < chars.length then do
      let c ← itemAt chars i
      if c = ' ' || c = '\t' then tokenizeFrom chars n (i + 1) tokens
      else match (symbol c : Option (MathToken F)) with
        | some token => tokenizeFrom chars n (i + 1) (tokens ++ [token])
        | none =>
          if c.isDigit || c = '.' then do
            let j ← numberEnd chars (chars.length + 1) (i + 1) (c = '.')
            let numStr ← textBetween chars i j
            match ops.parse numStr with
            | some num => tokenizeFrom chars n j (tokens ++ [MathToken.number num])
            | none => .err s!"Invalid number: '{numStr}'"
          else if c.isAlpha || c = '_' then do
            let j ← identEnd chars (chars.length + 1) (i + 1)
            let ident ← textBetween chars i j
            tokenizeFrom chars n j (tokens ++ [MathToken.ident ident])
          else .err s!"Unexpected character: '{c}'"
    else pure tokens

/-- The tokens of a text. -/
def tokenizeMath (input : String) : Outcome String (List (MathToken F)) :=
  tokenizeFrom ops input.toList (input.toList.length + 1) 0 []

/-! ## Functions -/

def requireArgs (name : String) (args : List F) (expected : ℕ) : Outcome String Unit :=
  if args.length ≠ expected then .err s!"{name} expects {expected} argument(s), got {args.length}" else .ok ()

/-- A function of one argument, which some arguments are refused to. -/
def callUnary (name : String) (args : List F) (refusal : F → Option String) (f : F → F) : Outcome String F := do
  requireArgs name args 1
  let v ← itemAt args 0
  match refusal v with
  | some text => .err text
  | none => pure (f v)

def callTotal (name : String) (args : List F) (f : F → F) : Outcome String F := callUnary name args (fun _ => none) f

def evalMathFunc (name : String) (args : List F) : Outcome String F :=
  match name with
  | "sqrt" => callUnary name args (fun v => if ops.ltZero v then some "sqrt of negative number" else none) ops.sqrt
  | "abs" => callTotal name args ops.abs
  | "floor" => callTotal name args ops.floor
  | "ceil" => callTotal name args ops.ceil
  | "round" => callTotal name args ops.round
  | "sin" => callTotal name args ops.sin
  | "cos" => callTotal name args ops.cos
  | "tan" => callTotal name args ops.tan
  | "log" => callUnary name args (fun v => if ops.leZero v then some "log of non-positive number" else none) ops.ln
  | "log10" =>
    callUnary name args (fun v => if ops.leZero v then some "log10 of non-positive number" else none) ops.log10
  | "log2" => callUnary name args (fun v => if ops.leZero v then some "log2 of non-positive number" else none) ops.log2
  | "exp" => callTotal name args ops.exp
  | "min" =>
    if args.isEmpty then .err "min requires at least 1 argument" else .ok (args.foldl ops.min ops.infinity)
  | "max" =>
    if args.isEmpty then .err "max requires at least 1 argument" else .ok (args.foldl ops.max ops.negInfinity)
  | "pow" => do
    requireArgs name args 2
    let base ← itemAt args 0
    let exponent ← itemAt args 1
    pure (ops.powf base exponent)
  | "pi" => if args.isEmpty then .ok ops.pi else .err "pi takes no arguments"
  | "e" => if args.isEmpty then .ok ops.e else .err "e takes no arguments"
  | _ => .err (s!"Unknown function: '{name}'. Available: sqrt, abs, floor, ceil, round, sin, cos, tan, log, log10, " ++
      "log2, exp, min, max, pow, pi, e")

/-! ## The descent -/

/-- A function of the descent: from a position to a value and the position behind it. -/
abbrev Descent (F : Type) := ℕ → Outcome String (F × ℕ)

variable (tokens : List (MathToken F))

/-- The loop of `parse_expr`. -/
def exprLoop (term : Descent F) : ℕ → F → ℕ → Outcome String (F × ℕ)
  | 0, _, _ => .panic
  | n + 1, result, pos =>
    if pos < tokens.length then do
      match ← itemAt tokens pos with
      | .plus => do
        let (v, pos) ← term (pos + 1)
        exprLoop term n (ops.add result v) pos
      | .minus => do
        let (v, pos) ← term (pos + 1)
        exprLoop term n (ops.sub result v) pos
      | _ => pure (result, pos)
    else pure (result, pos)

/-- The descent is one function for each level, with the functions it calls as parameters. -/
def parseExpr (term : Descent F) (pos : ℕ) : Outcome String (F × ℕ) := do
  let (result, pos) ← term pos
  exprLoop ops tokens term (tokens.length + 1) result pos

/-- The loop of `parse_term`. -/
def termLoop (power : Descent F) : ℕ → F → ℕ → Outcome String (F × ℕ)
  | 0, _, _ => .panic
  | n + 1, result, pos =>
    if pos < tokens.length then do
      match ← itemAt tokens pos with
      | .star => do
        let (v, pos) ← power (pos + 1)
        termLoop power n (ops.mul result v) pos
      | .slash => do
        let (divisor, pos) ← power (pos + 1)
        if ops.isZero divisor then .err "Division by zero" else termLoop power n (ops.div result divisor) pos
      | .percent => do
        let (divisor, pos) ← power (pos + 1)
        if ops.isZero divisor then .err "Modulo by zero" else termLoop power n (ops.rem result divisor) pos
      | _ => pure (result, pos)
    else pure (result, pos)

def parseTerm (power : Descent F) (pos : ℕ) : Outcome String (F × ℕ) := do
  let (result, pos) ← power pos
  termLoop ops tokens power (tokens.length + 1) result pos

def parsePower (unary power : Descent F) (pos : ℕ) : Outcome String (F × ℕ) := do
  let (base, pos) ← unary pos
  if pos < tokens.length then do
    match ← itemAt tokens pos with
    | .caret => do
      let (exp, pos) ← power (pos + 1)
      pure (ops.powf base exp, pos)
    | _ => pure (base, pos)
  else pure (base, pos)

def parseUnary (unary primary : Descent F) (pos : ℕ) : Outcome String (F × ℕ) :=
  if pos < tokens.length then do
    match ← itemAt tokens pos with
    | .minus => do
      let (v, pos) ← unary (pos + 1)
      pure (ops.neg v, pos)
    | .plus => unary (pos + 1)
    | _ => primary pos
  else primary pos

/-- The loop over the arguments behind the first one. -/
def argsLoop (expr : Descent F) : ℕ → List F → ℕ → Outcome String (List F × ℕ)
  | 0, _, _ => .panic
  | n + 1, args, pos =>
    if pos < tokens.length then do
      match ← itemAt tokens pos with
      | .comma => do
        let (v, pos) ← expr (pos + 1)
        argsLoop expr n (args ++ [v]) pos
      | _ => pure (args, pos)
    else pure (args, pos)

def parseArgs (expr : Descent F) (pos : ℕ) : Outcome String (List F × ℕ) :=
  if pos < tokens.length then do
    match ← itemAt tokens pos with
    | .rParen => pure ([], pos)
    | _ => do
      let (v, pos) ← expr pos
      argsLoop tokens expr (tokens.length + 1) [v] pos
  else pure ([], pos)

def expectRParen (text : String) (pos : ℕ) : Outcome String ℕ :=
  if pos ≥ tokens.length then .err text
  else do
    match ← itemAt tokens pos with
    | .rParen => pure (pos + 1)
    | _ => .err text

def parsePrimary (expr : Descent F) (pos : ℕ) : Outcome String (F × ℕ) :=
  if pos ≥ tokens.length then .err "Unexpected end of expression"
  else do
    match ← itemAt tokens pos with
    | .number n => pure (n, pos + 1)
    | .ident name =>
      if pos + 1 ≥ tokens.length then .err s!"Expected '(' after function '{name}'"
      else do
        match ← itemAt tokens (pos + 1) with
        | .lParen => do
          let (args, pos) ← parseArgs tokens expr (pos + 2)
          let pos ← expectRParen tokens s!"Expected ')' after arguments to '{name}'" pos
          let v ← evalMathFunc ops name args
          pure (v, pos)
        | _ => .err s!"Unknown identifier: '{name}'"
    | .lParen => do
      let (result, pos) ← expr (pos + 1)
      let pos ← expectRParen tokens "Expected ')'" pos
      pure (result, pos)
    | other => .err s!"Unexpected token: '{tokenStr ops other}'"

/-- The functions of the descent. -/
inductive Symbol where
  | expr
  | term
  | power
  | unary
  | primary
deriving DecidableEq, Repr

def maxMathRecursionDepth : ℕ := 100

/-- A function of the descent with so many levels left, down to the deepest that is admitted. -/
def descend : ℕ → Symbol → Descent F
  | 0, _ => fun _ => .err s!"Expression too complex (max recursion depth {maxMathRecursionDepth})"
  | n + 1, .expr => parseExpr ops tokens (descend n .term)
  | n + 1, .term => parseTerm ops tokens (descend n .power)
  | n + 1, .power => parsePower ops tokens (descend n .unary) (descend n .power)
  | n + 1, .unary => parseUnary ops tokens (descend n .unary) (descend n .primary)
  | n + 1, .primary => parsePrimary ops tokens (descend n .expr)

/-- An expression from the first token on; nothing may be left behind it. -/
def evalTokens : Outcome String F := do
  let (result, pos) ← descend ops tokens (maxMathRecursionDepth + 1) .expr 0
  if pos < tokens.length then do
    let token ← itemAt tokens pos
    .err s!"Unexpected token '{tokenStr ops token}' at position {pos}"
  else pure result

/-- The value of a text. -/
def evalMathExpr (input : String) : Outcome String F := do
  let tokens ← tokenizeMath ops input
  evalTokens ops tokens

end VelocityMcp.Edge
