import VelocityMcp.Guest.Lua
import VelocityMcp.Interp.Value

/-!
# Interp.Tokenizer — the tokens of a source (`interp_core/interp.c`, and the dialects of its six front ends)

`lexemes`: all of them, one after the other: the tokenizer does not depend on what the parser makes of them.
-/

namespace VelocityMcp.Interp

open Lib
open Guest (Strtod takeFraction takeExponent)

/-! ## Dialects -/

/-- `InterpDialect`, less what nothing reads. -/
structure Dialect where
  lineCommentHash : Bool
  lineCommentSlash : Bool
  blockComment : Bool
  varPrefix : Option UInt8
  assignArrow : Bool
  semicolonRequired : Bool
  concatDot : Bool
  skipPrefix : Option Bytes
  funcKeyword : Option Bytes
  returnParens : Bool
  printKeywords : List Bytes

def phpDialect : Dialect where
  lineCommentHash := true
  lineCommentSlash := true
  blockComment := true
  varPrefix := some 0x24
  assignArrow := false
  semicolonRequired := true
  concatDot := true
  skipPrefix := some (utf8 "<?php")
  funcKeyword := some (utf8 "function")
  returnParens := false
  printKeywords := [utf8 "echo", utf8 "print"]

def csharpDialect : Dialect where
  lineCommentHash := false
  lineCommentSlash := true
  blockComment := true
  varPrefix := none
  assignArrow := false
  semicolonRequired := true
  concatDot := false
  skipPrefix := none
  funcKeyword := none
  returnParens := false
  printKeywords := [utf8 "Console.WriteLine", utf8 "Console.Write"]

def javaDialect : Dialect where
  lineCommentHash := false
  lineCommentSlash := true
  blockComment := true
  varPrefix := none
  assignArrow := false
  semicolonRequired := true
  concatDot := false
  skipPrefix := none
  funcKeyword := none
  returnParens := false
  printKeywords := [utf8 "System.out.println", utf8 "System.out.print"]

def rDialect : Dialect where
  lineCommentHash := true
  lineCommentSlash := false
  blockComment := false
  varPrefix := none
  assignArrow := true
  semicolonRequired := false
  concatDot := false
  skipPrefix := none
  funcKeyword := some (utf8 "function")
  returnParens := true
  printKeywords := [utf8 "cat", utf8 "print"]

def juliaDialect : Dialect where
  lineCommentHash := true
  lineCommentSlash := true
  blockComment := true
  varPrefix := none
  assignArrow := false
  semicolonRequired := false
  concatDot := false
  skipPrefix := none
  funcKeyword := some (utf8 "function")
  returnParens := false
  printKeywords := [utf8 "println", utf8 "print"]

def perlDialect : Dialect where
  lineCommentHash := true
  lineCommentSlash := false
  blockComment := false
  varPrefix := some 0x24
  assignArrow := false
  semicolonRequired := true
  concatDot := true
  skipPrefix := none
  funcKeyword := some (utf8 "sub")
  returnParens := false
  printKeywords := [utf8 "print", utf8 "say"]

/-- The six languages. -/
inductive Language where
  | php
  | csharp
  | java
  | r
  | julia
  | perl
deriving DecidableEq, Repr

/-- What the tokenizer and the parser of a language are compiled with. -/
def Language.dialect : Language → Dialect
  | php => phpDialect
  | csharp => csharpDialect
  | java => javaDialect
  | r => rDialect
  | julia => juliaDialect
  | perl => perlDialect

/-! ## Tokens -/

inductive TokenType where
  | number
  | string
  | ident
  | true
  | false
  | null
  | if
  | else
  | while
  | for
  | function
  | return
  | print
  | in
  | plus
  | minus
  | star
  | slash
  | percent
  | dot
  | eq
  | neq
  | lt
  | gt
  | lte
  | gte
  | and
  | or
  | not
  | assign
  | arrow
  | lparen
  | rparen
  | lbracket
  | rbracket
  | lbrace
  | rbrace
  | comma
  | semicolon
  | colon
  | newline
  | eof
deriving DecidableEq, Repr

/-- `Token`: `text` is between `start` and `start + len`. -/
structure Token where
  type : TokenType
  text : Bytes
  line : ℕ
  col : ℕ
  num : UInt64
deriving DecidableEq, Repr

/-- Where the tokenizer is: the source from there on.  `torn`: a comment without end has been skipped. -/
structure Cursor where
  rest : Bytes
  line : ℕ
  col : ℕ
  torn : Bool
deriving DecidableEq, Repr

variable (d : Dialect) (strtod : Strtod)

/-! ## White space -/

def isBlank (c : UInt8) : Bool := c = 0x20 || c = 0x09 || c = 0x0d

/-- The loop that skips a block comment, behind its opening; it leaves the last character of a comment without end. -/
def skipBlock : Bytes → ℕ → ℕ → Cursor
  | [], line, col => ⟨[], line, col, true⟩
  | [c], line, col => ⟨[c], line, col, true⟩
  | c :: e :: s, line, col =>
    if c = 0x2a ∧ e = 0x2f then ⟨s, line, col, false⟩
    else if c = 0x0a then skipBlock (e :: s) (line + 1) 1
    else skipBlock (e :: s) line col

def startsLineComment (s : Bytes) : Bool :=
  (d.lineCommentHash && s.head? = some 0x23) || (d.lineCommentSlash && [0x2f, 0x2f].isPrefixOf s)

def startsBlockComment (s : Bytes) : Bool := d.blockComment && [0x2f, 0x2a].isPrefixOf s

/-- `skip_whitespace`, at most so many times. -/
def skipWhitespace : ℕ → Cursor → Cursor
  | 0, t => t
  | n + 1, t =>
    match t.rest with
    | [] => t
    | c :: s =>
      if isBlank c then skipWhitespace n { t with rest := s, col := t.col + 1 }
      else if c = 0x0a then
        if d.semicolonRequired then skipWhitespace n { t with rest := s, line := t.line + 1, col := 1 } else t
      else if startsLineComment d t.rest then skipWhitespace n { t with rest := t.rest.dropWhile (· ≠ 0x0a) }
      else if startsBlockComment d t.rest then
        let u := skipBlock (t.rest.drop 2) t.line t.col
        skipWhitespace n { u with torn := t.torn || u.torn }
      else t

/-! ## Tokens -/

def isAlpha (c : UInt8) : Bool := (0x41 ≤ c && c ≤ 0x5a) || (0x61 ≤ c && c ≤ 0x7a)

def isIdentStart (c : UInt8) : Bool := isAlpha c || c = 0x5f

def isIdentChar (c : UInt8) : Bool := isAlpha c || isDigit c || c = 0x5f

def keywordMatch (s word : Bytes) : Bool := word.isPrefixOf s && !((s.drop word.length).head?.any isIdentChar)

/-- `is_print_keyword`: the keyword that stands here. -/
def printKeyword (s : Bytes) : Option Bytes := d.printKeywords.find? (keywordMatch s)

def wordType (word : Bytes) : Option TokenType :=
  if word = utf8 "true" then some .true
  else if word = utf8 "false" then some .false
  else if word = utf8 "null" ∨ word = utf8 "NULL" ∨ word = utf8 "nil" then some .null
  else if word = utf8 "if" then some .if
  else if word = utf8 "else" ∨ word = utf8 "elseif" ∨ word = utf8 "elif" then some .else
  else if word = utf8 "while" then some .while
  else if word = utf8 "for" then some .for
  else if word = utf8 "return" then some .return
  else if word = utf8 "in" then some .in
  else none

/-- Those that come after the dialect's own keyword for functions. -/
def laterWordType (word : Bytes) : Option TokenType :=
  if word = utf8 "function" then some .function
  else if word = utf8 "and" then some .and
  else if word = utf8 "or" then some .or
  else none

/-- The type and the text of the word that `s` starts with. -/
def readWord (s : Bytes) : TokenType × Bytes :=
  let word := s.takeWhile isIdentChar
  match wordType word with
  | some type => (type, word)
  | none =>
    if d.funcKeyword.any (keywordMatch s) then (.function, word)
    else match laterWordType word with
      | some type => (type, word)
      | none => match printKeyword d s with
        | some keyword => (.print, keyword)
        | none => (.ident, word)

/-- The loop over the characters of a string: its text, and where it ends. -/
def readString (quote : UInt8) : Bytes → ℕ → ℕ → Bytes × Bytes × ℕ × ℕ
  | [], line, col => ([], [], line, col)
  | [c], line, col =>
    if c = quote then ([], [c], line, col)
    else if c = 0x0a then ([c], [], line + 1, 1)
    else ([c], [], line, col + 1)
  | c :: e :: s, line, col =>
    if c = quote then ([], c :: e :: s, line, col)
    else if c = 0x5c then
      let r := readString quote s line (col + 2)
      (c :: e :: r.1, r.2)
    else if c = 0x0a then
      let r := readString quote (e :: s) (line + 1) 1
      (c :: r.1, r.2)
    else
      let r := readString quote (e :: s) line (col + 1)
      (c :: r.1, r.2)

def numberRest (s : Bytes) : Bytes := (takeExponent (takeFraction (s.dropWhile isDigit)).2).2

def startsNumber (s : Bytes) : Bool :=
  s.head?.any isDigit || (s.head? = some 0x2e && s.tail.head?.any isDigit)

/-- The operators and marks: the type, and the text behind. -/
def readSymbol (c : UInt8) (s : Bytes) : Option (TokenType × Bytes) :=
  if c = 0x2b then some (.plus, s)
  else if c = 0x2d then some (.minus, s)
  else if c = 0x2a then some (.star, s)
  else if c = 0x2f then some (.slash, s)
  else if c = 0x25 then some (.percent, s)
  else if c = 0x2e then some (.dot, s)
  else if c = 0x28 then some (.lparen, s)
  else if c = 0x29 then some (.rparen, s)
  else if c = 0x5b then some (.lbracket, s)
  else if c = 0x5d then some (.rbracket, s)
  else if c = 0x7b then some (.lbrace, s)
  else if c = 0x7d then some (.rbrace, s)
  else if c = 0x2c then some (.comma, s)
  else if c = 0x3b then some (.semicolon, s)
  else if c = 0x3a then some (.colon, s)
  else if c = 0x3d then
    if s.head? = some 0x3d then some (.eq, s.tail)
    else if s.head? = some 0x3e then some (.arrow, s.tail)
    else some (.assign, s)
  else if c = 0x21 then
    -- the same type with and without the equals sign
    if s.head? = some 0x3d then some (.not, s.tail) else some (.not, s)
  else if c = 0x3c then
    if s.head? = some 0x3d then some (.lte, s.tail)
    else if d.assignArrow ∧ s.head? = some 0x2d then some (.arrow, s.tail)
    else some (.lt, s)
  else if c = 0x3e then
    if s.head? = some 0x3d then some (.gte, s.tail) else some (.gt, s)
  else if c = 0x26 then
    if s.head? = some 0x26 then some (.and, s.tail) else some (.and, s)
  else if c = 0x7c then
    if s.head? = some 0x7c then some (.or, s.tail) else some (.or, s)
  else none

/-- The token that starts at `c`, with the rest; an unexpected character is skipped. -/
def readToken (t : Cursor) (c : UInt8) (s : Bytes) : Option Token × Cursor :=
  if d.semicolonRequired = false ∧ c = 0x0a then
    (some ⟨.newline, [c], t.line, t.col, 0⟩, { t with rest := s, line := t.line + 1, col := 1 })
  else if startsNumber (c :: s) then
    let rest := numberRest (c :: s)
    let text := (c :: s).take ((c :: s).length - rest.length)
    (some ⟨.number, text, t.line, t.col, strtod (c :: s)⟩, { t with rest := rest, col := t.col + text.length })
  else if c = 0x22 ∨ c = 0x27 then
    let (text, rest, line, col) := readString c s t.line (t.col + 1)
    (some ⟨.string, text, t.line, t.col, 0⟩,
      { t with rest := rest.tail, line := line, col := if rest = [] then col else col + 1 })
  else if d.varPrefix = some c then
    let text := s.takeWhile isIdentChar
    (some ⟨.ident, text, t.line, t.col, 0⟩,
      { t with rest := s.dropWhile isIdentChar, col := t.col + 1 + text.length })
  else if isIdentStart c then
    let (type, text) := readWord d (c :: s)
    (some ⟨type, text, t.line, t.col, 0⟩, { t with rest := (c :: s).drop text.length, col := t.col + text.length })
  else match readSymbol d c s with
    | some (type, rest) =>
      let text := (c :: s).take ((c :: s).length - rest.length)
      (some ⟨type, text, t.line, t.col, 0⟩, { t with rest := rest, col := t.col + text.length })
    | none => (none, { t with rest := s, col := t.col + 1 })

/-- White space and comments are skipped, and one token is read, or an unexpected character. -/
def tokenizeOne (t : Cursor) : Option Token × Cursor :=
  let t := skipWhitespace d t.rest.length t
  match t.rest with
  | [] => (some ⟨.eof, [], t.line, t.col, 0⟩, t)
  | c :: s => readToken d strtod t c s

/-- `tokenizer_init`: the source is a C string. -/
def tokenizerInit (source : Bytes) : Cursor :=
  match d.skipPrefix with
  | none => ⟨cString source, 1, 1, false⟩
  | some skipped =>
    if skipped.isPrefixOf (cString source) then
      ⟨(cString source).drop skipped.length, 1, 1 + skipped.length, false⟩
    else ⟨cString source, 1, 1, false⟩

/-- What one call of `tok_next` after the other gives, up to the end of the source: a token, or the failure at an
unexpected character; and whether a comment without end was skipped. -/
def lexemes : ℕ → Cursor → List (Option Token) × Bool
  | 0, t => ([], t.torn)
  | n + 1, t =>
    match tokenizeOne d strtod t with
    | (none, u) =>
      let r := lexemes n u
      (none :: r.1, r.2)
    | (some token, u) =>
      if token.type = .eof then ([some token], u.torn)
      else
        let r := lexemes n u
        (some token :: r.1, r.2)

def lexemesOf (source : Bytes) : List (Option Token) × Bool :=
  lexemes d strtod ((cString source).length + 1) (tokenizerInit d source)

end VelocityMcp.Interp
