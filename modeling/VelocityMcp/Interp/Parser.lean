import VelocityMcp.Interp.Tokenizer
import VelocityMcp.Lib.Fuel

/-!
# Interp.Parser — the parser of the interpreter (`interp_core/interp.c`)

The fixed arrays of the source hold so many statements, entries and so on (`room`): what comes behind is read, but not
kept.  The C stack of the recursion is unbounded.
-/

namespace VelocityMcp.Interp

open Lib
open Guest (Strtod)

/-! ## Nodes -/

/-- `AstNode`, with the lines that are read again.  The operator of a node is the type of its token. -/
inductive Ast where
  /-- The null pointer. -/
  | absent
  | numberLit (bits : UInt64)
  | stringLit (text : Bytes)
  | boolLit (b : Bool)
  | nullLit
  | arrayLit (elements : List Ast)
  | mapLit (entries : List (Ast × Ast))
  | ident (name : Bytes) (line : ℕ)
  | binary (op : TokenType) (left right : Ast) (line : ℕ)
  | unary (op : TokenType) (operand : Ast)
  | call (func : Ast) (args : List Ast) (line : ℕ)
  | index (object index : Ast)
  | member (object : Ast) (member : Bytes)
  | block (stmts : List Ast)
  | assign (target value : Ast)
  | ifStmt (cond thenBody elseBody : Ast)
  | whileStmt (cond body : Ast)
  | forStmt (init cond step body : Ast)
  | returnStmt (value : Ast)
  | funcDef (name : Option Bytes) (params : List Bytes) (body : Ast)
  | print (value : Ast)

def Ast.isAbsent : Ast → Bool
  | absent => true
  | _ => false

def Ast.isTarget : Ast → Bool
  | ident .. => true
  | index .. => true
  | member .. => true
  | _ => false

/-! ## The state -/

/-- `rest`: the lexemes behind the current token.  `used`: how much of the arena the nodes take.  `dropped`: how many
statements, entries and parameters have been read where there was no room for them. -/
structure Parser where
  current : Token
  rest : List (Option Token)
  error : Option String
  used : ℕ
  dropped : ℕ

/-- The result of a grammar function; its fuel may be used up. -/
abbrev Parsed := Run Unit (Ast × Parser)

/-- `INTERP_ARENA_SIZE`. -/
def arenaSize : ℕ := 64 * 1024

namespace Parser

variable (p : Parser)

/-- `parser_error`: the first error stays. -/
def fail (text : String) : Parser := if p.error.isSome then p else { p with error := some text }

def advance : Parser :=
  match p.rest with
  | [] => p
  | none :: r => { p with rest := r }
  | some t :: r => { p with current := t, rest := r }

def check (type : TokenType) : Bool := p.current.type = type

/-- `match`, where something else is an error. -/
def expect (type : TokenType) (text : ℕ → String) : Parser :=
  if p.check type then p.advance else p.fail (text p.current.line)

/-- `arena_alloc`, in steps of eight bytes.  Beyond its size there is a null pointer, through which the parser writes:
whether that happens is asked at the end. -/
def alloc (bytes : ℕ) : Parser := { p with used := p.used + (bytes + 7) / 8 * 8 }

def node : Parser := p.alloc 32

def pointers (count : ℕ) : Parser := p.alloc (4 * count)

/-- There is no room for an item that has been read. -/
def drop : Parser := { p with dropped := p.dropped + 1 }

/-- Tokens of some types are skipped, at most so many. -/
def skipWhile (types : List TokenType) : ℕ → Parser → Parser
  | 0, p => p
  | n + 1, p => if p.current.type ∈ types then skipWhile types n p.advance else p

end Parser

/-- The number of items that an array of the source has room for: the item is kept, or dropped. -/
def keepItem {α : Type} (room count : ℕ) (item : α) (p : Parser) : List α × Parser :=
  if count < room then ([item], p) else ([], p.drop)

section Grammar

variable (d : Dialect)

def skipTerm (p : Parser) : Parser :=
  if d.semicolonRequired then p.skipWhile [.semicolon] p.rest.length
  else p.skipWhile [.newline, .semicolon] p.rest.length

def skipStmtNewlines (p : Parser) : Parser :=
  if d.semicolonRequired then p else p.skipWhile [.newline] p.rest.length

variable (expr stmt : Parser → Parsed)

/-! ## Literals -/

def parseString (p : Parser) : Ast × Parser := (.stringLit p.current.text, p.advance.node)

def parseIdent (p : Parser) : Ast × Parser := (.ident p.current.text p.current.line, p.advance.node)

def parseKey (p : Parser) : Option (Ast × Parser) :=
  match p.current.type with
  | .ident => some (parseIdent p)
  | .string => some (parseString p)
  | _ => none

/-- The elements of an array literal behind the first `count`. -/
def parseElements : ℕ → ℕ → Parser → Run Unit (List Ast × Parser)
  | 0, _, _ => .outOfFuel ()
  | n + 1, count, p =>
    if p.check .comma then
      let p := skipStmtNewlines d p.advance
      if p.check .rbracket then .done ([], p)
      else if count < 256 then do
        let (first, p) ← expr p
        let (others, p) ← parseElements n (count + 1) p
        .done (first :: others, p)
      else parseElements n count p
    else .done ([], p)

/-- The entries of a map literal in brackets behind the first `count`. -/
def parseBracketEntries : ℕ → ℕ → Parser → Run Unit (List (Ast × Ast) × Parser)
  | 0, _, _ => .outOfFuel ()
  | n + 1, count, p =>
    if p.check .comma then
      let p := skipStmtNewlines d p.advance
      if p.check .rbracket then .done ([], p)
      else match parseKey p with
        | none => .done ([], p.fail s!"expected key in map literal at line {p.current.line}")
        | some (key, p) =>
          if p.check .arrow then do
            let (value, p) ← expr p.advance
            let (entry, p) := keepItem 64 count (key, value) p
            let (others, p) ← parseBracketEntries n (count + entry.length) (skipStmtNewlines d p)
            .done (entry ++ others, p)
          else .done ([], p.fail s!"expected '=>' in map literal at line {p.current.line}")
    else .done ([], p)

def parseBraceEntries : ℕ → ℕ → Parser → Run Unit (List (Ast × Ast) × Parser)
  | 0, _, _ => .outOfFuel ()
  | n + 1, count, p =>
    let p := skipStmtNewlines d p
    if p.check .rbrace then .done ([], p)
    else match parseKey p with
      | none => .done ([], p.fail s!"expected key in map literal at line {p.current.line}")
      | some (key, p) =>
        if p.check .colon || p.check .arrow then do
          let (value, p) ← expr p.advance
          let (entry, p) := keepItem 64 count (key, value) p
          let p := skipStmtNewlines d p
          if p.check .comma then do
            let (others, p) ← parseBraceEntries n (count + entry.length) p.advance
            .done (entry ++ others, p)
          else .done (entry, p)
        else .done ([], p.fail s!"expected ':' or '=>' in map literal at line {p.current.line}")

def finishArray (elements : List Ast) (p : Parser) : Ast × Parser :=
  let p := (skipStmtNewlines d p).expect .rbracket fun line => s!"expected ']' at line {line}"
  (.arrayLit elements, p.node.pointers elements.length)

def finishMap (closing : TokenType) (text : ℕ → String) (entries : List (Ast × Ast)) (p : Parser) : Ast × Parser :=
  let p := (skipStmtNewlines d p).expect closing text
  (.mapLit entries, (p.node.pointers entries.length).pointers entries.length)

/-- An array literal or a map literal, behind its bracket. -/
def parseBracket (n : ℕ) (p : Parser) : Parsed :=
  let p := skipStmtNewlines d p
  if p.check .rbracket then .done (finishArray d [] p)
  else do
    let (first, p) ← expr p
    if p.check .arrow then do
      let (value, p) ← expr p.advance
      let (others, p) ← parseBracketEntries d expr n 1 (skipStmtNewlines d p)
      .done (finishMap d .rbracket (fun line => s!"expected ']' at line {line}") ((first, value) :: others) p)
    else do
      let (others, p) ← parseElements d expr n 1 p
      .done (finishArray d (first :: others) p)

def parseBrace (n : ℕ) (p : Parser) : Parsed :=
  let p := skipStmtNewlines d p
  let text : ℕ → String := fun line => s!"expected '\x7d' at line {line}"
  if p.check .rbrace then .done (finishMap d .rbrace text [] p)
  else do
    let (entries, p) ← parseBraceEntries d expr n 0 p
    .done (finishMap d .rbrace text entries p)

/-- A parameter, if one stands here, behind the first `count`. -/
def parseParam (count : ℕ) (p : Parser) : List Bytes × Parser :=
  if p.check .ident then keepItem 32 count p.current.text p.advance else ([], p)

def parseParams : ℕ → ℕ → Parser → Run Unit (List Bytes × Parser)
  | 0, _, _ => .outOfFuel ()
  | n + 1, count, p =>
    let (param, p) := parseParam count p
    if p.check .comma then do
      let (others, p) ← parseParams n (count + param.length) p.advance
      .done (param ++ others, p)
    else .done (param, p)

def parseParamList (n : ℕ) (p : Parser) : Run Unit (List Bytes × Parser) :=
  let text : ℕ → String := fun _ => "expected ')' after parameters"
  if p.check .lparen then
    if p.advance.check .rparen then .done ([], p.advance.expect .rparen text)
    else do
      let (params, p) ← parseParams n 0 p.advance
      .done (params, p.expect .rparen text)
  else .done ([], p)

def parseName (p : Parser) : Option Bytes × Parser :=
  if p.check .ident then (some p.current.text, p.advance) else (none, p)

def parseFunction (n : ℕ) (p : Parser) : Parsed := do
  let (name, p) := parseName p
  let (params, p) ← parseParamList n p
  let (body, p) ← stmt p
  .done (.funcDef name params body, p.node.pointers params.length)

/-! ## Expressions -/

def parsePrimary (n : ℕ) (p : Parser) : Parsed :=
  match p.current.type with
  | .number => .done (.numberLit p.current.num, p.advance.node)
  | .string => .done (parseString p)
  | .true => .done (.boolLit true, p.advance.node)
  | .false => .done (.boolLit false, p.advance.node)
  | .null => .done (.nullLit, p.advance.node)
  | .ident => .done (parseIdent p)
  | .lparen => do
    let (e, p) ← expr p.advance
    .done (e, p.expect .rparen fun line => s!"expected ')' at line {line}")
  | .lbracket => parseBracket d expr n p.advance
  | .lbrace => parseBrace d expr n p.advance
  | .function => parseFunction stmt n p.advance
  | _ =>
    .done (.nullLit,
      (p.fail s!"unexpected token at line {p.current.line} col {p.current.col}").advance.node)

/-- The arguments of a call behind the first `count`. -/
def parseArgs : ℕ → ℕ → Parser → Run Unit (List Ast × Parser)
  | 0, _, _ => .outOfFuel ()
  | n + 1, count, p =>
    if p.check .comma then
      let p := skipStmtNewlines d p.advance
      if count < 32 then do
        let (first, p) ← expr p
        let (others, p) ← parseArgs n (count + 1) p
        .done (first :: others, p)
      else parseArgs n count p
    else .done ([], p)

def parseArgList (n : ℕ) (p : Parser) : Run Unit (List Ast × Parser) :=
  let p := skipStmtNewlines d p
  if p.check .rparen then .done ([], p)
  else do
    let (first, p) ← expr p
    let (others, p) ← parseArgs d expr n 1 p
    .done (first :: others, p)

/-- The loop of `parse_postfix`. -/
def parsePostfixes : ℕ → Ast → Parser → Parsed
  | 0, _, _ => .outOfFuel ()
  | n + 1, e, p =>
    match p.current.type with
    | .lparen => do
      let (args, q) ← parseArgList d expr n p.advance
      let q := (skipStmtNewlines d q).expect .rparen fun _ => "expected ')' after arguments"
      parsePostfixes n (.call e args p.current.line) (q.node.pointers args.length)
    | .lbracket => do
      let (i, q) ← expr p.advance
      let q := q.expect .rbracket fun _ => "expected ']' after index"
      parsePostfixes n (.index e i) q.node
    | .dot =>
      if d.concatDot then .done (e, p)
      else if p.advance.check .ident then
        parsePostfixes n (.member e p.advance.current.text) p.advance.advance.node
      else .done (e, p.advance.fail "expected member name after '.'")
    | _ => .done (e, p)

def parsePostfix (n : ℕ) (p : Parser) : Parsed := do
  let (e, p) ← parsePrimary d expr stmt n p
  parsePostfixes d expr n e p

def parseUnary : ℕ → Parser → Parsed
  | 0, _ => .outOfFuel ()
  | n + 1, p =>
    if p.check .not || p.check .minus then do
      let (operand, q) ← parseUnary n p.advance.node
      .done (.unary p.current.type operand, q)
    else parsePostfix d expr stmt n p

def parseOperands (ops : TokenType → Bool) (operand : Parser → Parsed) : ℕ → Ast → Parser → Parsed
  | 0, _, _ => .outOfFuel ()
  | n + 1, left, p =>
    if ops p.current.type then do
      let (right, q) ← operand p.advance
      parseOperands ops operand n (.binary p.current.type left right p.current.line) q.node
    else .done (left, p)

def parseLevel (ops : TokenType → Bool) (operand : Parser → Parsed) (n : ℕ) (p : Parser) : Parsed := do
  let (left, p) ← operand p
  parseOperands ops operand n left p

def isMultiplicative (t : TokenType) : Bool := t = .star || t = .slash || t = .percent

def isAdditive (t : TokenType) : Bool := t = .plus || t = .minus || (d.concatDot && t = .dot)

def isComparison (t : TokenType) : Bool := t = .lt || t = .gt || t = .lte || t = .gte

def isEquality (t : TokenType) : Bool := t = .eq || t = .neq

def parseMultiplicative (n : ℕ) : Parser → Parsed := parseLevel isMultiplicative (parseUnary d expr stmt n) n

def parseAdditive (n : ℕ) : Parser → Parsed := parseLevel (isAdditive d) (parseMultiplicative d expr stmt n) n

def parseComparison (n : ℕ) : Parser → Parsed := parseLevel isComparison (parseAdditive d expr stmt n) n

def parseEquality (n : ℕ) : Parser → Parsed := parseLevel isEquality (parseComparison d expr stmt n) n

def parseLogicalAnd (n : ℕ) : Parser → Parsed := parseLevel (· = .and) (parseEquality d expr stmt n) n

def parseLogicalOr (n : ℕ) : Parser → Parsed := parseLevel (· = .or) (parseLogicalAnd d expr stmt n) n

def parseAssignment (n : ℕ) (p : Parser) : Parsed := do
  let (left, p) ← parseLogicalOr d expr stmt n p
  if (p.check .assign || p.check .arrow) && left.isTarget then do
    let (value, p) ← expr p.advance
    .done (.assign left value, p.node)
  else .done (left, p)

/-! ## Statements -/

/-- The statements of a block behind the first `count`. -/
def parseBlockStmts : ℕ → ℕ → Parser → Run Unit (List Ast × Parser)
  | 0, _, _ => .outOfFuel ()
  | n + 1, count, p =>
    if p.check .rbrace || p.check .eof then .done ([], p)
    else do
      let (s, p) ← stmt p
      let (kept, p) := if s.isAbsent then ([], p) else keepItem 256 count s p
      let p := skipStmtNewlines d (skipTerm d p)
      if p.error.isSome then .done (kept, p)
      else do
        let (others, p) ← parseBlockStmts n (count + kept.length) p
        .done (kept ++ others, p)

def parseBlock (n : ℕ) (p : Parser) : Parsed :=
  if p.check .lbrace then do
    let (stmts, p) ← parseBlockStmts d stmt n 0 (skipStmtNewlines d p.advance)
    let p := p.expect .rbrace fun _ => "expected '\x7d'"
    .done (.block stmts, p.node.pointers stmts.length)
  else .done (.absent, p.fail "expected '\x7b'")

def parseCond (text : String) (p : Parser) : Parsed :=
  if p.check .lparen then do
    let (cond, p) ← expr p.advance
    .done (cond, p.expect .rparen fun _ => text)
  else expr p

/-- What follows the body of an `if`. -/
def parseElse (p : Parser) : Parsed :=
  if p.check .else then
    if p.advance.check .if then stmt p.advance else stmt (skipStmtNewlines d p.advance)
  else .done (.absent, p)

def parseIf (p : Parser) : Parsed := do
  let (cond, p) ← parseCond expr "expected ')' after if condition" p
  let (thenBody, p) ← stmt (skipStmtNewlines d p)
  let (elseBody, p) ← parseElse d stmt (skipStmtNewlines d p)
  .done (.ifStmt cond thenBody elseBody, p.node)

def parseWhile (p : Parser) : Parsed := do
  let (cond, p) ← parseCond expr "expected ')' after while condition" p
  let (body, p) ← stmt (skipStmtNewlines d p)
  .done (.whileStmt cond body, p.node)

/-- A clause of a `for`, unless `closing` or, without parentheses, the body stands here. -/
def parseClause (paren : Bool) (closing : TokenType) (p : Parser) : Parsed :=
  if p.check closing || (!paren && p.check .lbrace) then .done (.absent, p) else expr p

def clauseEnd (paren : Bool) (p : Parser) : Parser :=
  if d.semicolonRequired || paren then p.expect .semicolon fun _ => "expected ';' in for loop" else skipTerm d p

def parseFor (p : Parser) : Parsed := do
  let paren := p.check .lparen
  let p := if paren then p.advance else p
  let (init, p) ← parseClause expr paren .semicolon (skipStmtNewlines d p)
  let (cond, p) ← parseClause expr paren .semicolon (skipStmtNewlines d (clauseEnd d paren p))
  let (step, p) ← parseClause expr paren .rparen (skipStmtNewlines d (clauseEnd d paren p))
  let p := if paren then p.expect .rparen fun _ => "expected ')' after for clauses" else p
  let (body, p) ← stmt (skipStmtNewlines d p)
  .done (.forStmt init cond step body, p.node)

def parseReturn (p : Parser) : Parsed :=
  if d.returnParens && p.check .lparen then do
    let (value, p) ← expr p.advance
    let p := p.expect .rparen fun _ => "expected ')' after return value"
    .done (.returnStmt value, p.node)
  else if p.check .semicolon || p.check .newline || p.check .rbrace || p.check .eof then
    .done (.returnStmt .absent, p.node)
  else do
    let (value, p) ← expr p
    .done (.returnStmt value, p.node)

def parsePrint (p : Parser) : Parsed := do
  let (value, p) ← expr p
  .done (.print value, p.node)

/-- `parse_statement`. -/
def parseStatementWith (n : ℕ) (p : Parser) : Parsed :=
  let p := skipStmtNewlines d p
  match p.current.type with
  | .lbrace => parseBlock d stmt n p
  | .if => parseIf d expr stmt p.advance
  | .while => parseWhile d expr stmt p.advance
  | .for => parseFor d expr stmt p.advance
  | .return => parseReturn d expr p.advance
  | .print => parsePrint expr p.advance
  | .function => parseFunction stmt n p.advance
  | _ => expr p

end Grammar

/-! ## Sources -/

variable (d : Dialect)

mutual

/-- The knot is tied: a level of nesting takes a unit of fuel. -/
def parseExpr : ℕ → Parser → Parsed
  | 0, _ => .outOfFuel ()
  | n + 1, p => parseAssignment d (parseExpr n) (parseStatement n) n p

def parseStatement : ℕ → Parser → Parsed
  | 0, _ => .outOfFuel ()
  | n + 1, p => parseStatementWith d (parseExpr n) (parseStatement n) n p

end

/-- The loop of `parse_program`. -/
def parseStmts (stmt : Parser → Parsed) : ℕ → ℕ → Parser → Run Unit (List Ast × Parser)
  | 0, _, _ => .outOfFuel ()
  | n + 1, count, p =>
    if p.check .eof || p.error.isSome then .done ([], p)
    else do
      let (s, p) ← stmt p
      let (kept, p) := if s.isAbsent then ([], p) else keepItem 512 count s p
      let (others, p) ← parseStmts stmt n (count + kept.length) (skipStmtNewlines d (skipTerm d p))
      .done (kept ++ others, p)

/-- Statements up to the end of the source; the first 512 are kept. -/
def parseProgram (fuel : ℕ) (p : Parser) : Parsed := do
  let (stmts, p) ← parseStmts d (parseStatement d fuel) fuel 0 (skipStmtNewlines d p)
  .done (.block stmts, p.node.pointers stmts.length)

/-- `parser_init`: at an unexpected character the current token is whatever the memory held. -/
def parserInit : List (Option Token) → Run Unit Parser
  | some t :: rest => .done ⟨t, rest, none, 0, 0⟩
  | _ => .undefined

def parseFuel (lexemes : List (Option Token)) : ℕ := 2 * lexemes.length + 3

def parseSource (strtod : Strtod) (source : Bytes) : Parsed := do
  let lexemes := (lexemesOf d strtod source).1
  let p ← parserInit lexemes
  let (program, p) ← parseProgram d (parseFuel lexemes) p
  if arenaSize < p.used then .undefined else .done (program, p)

end VelocityMcp.Interp
