import VelocityMcp.Interp.Value
import VelocityMcp.Lib.CBuffer

/-!
# Interp.Render — the texts of values, and the reply (`interp_core/interp.c`)

`formatReply`: the reply of a call, from the error or from the result.
-/

namespace VelocityMcp.Interp

open Lib

/-- What `snprintf` prints of a double: `%lld` of an integer, `%.17g` of any other. -/
structure NumberText where
  text : UInt64 → Bytes
  ne_nil : ∀ bits, text bits ≠ []
  noNul : ∀ bits, 0 ∉ text bits

/-- A C string that is returned with a length. -/
structure CText where
  chars : Bytes
  len : ℕ
deriving DecidableEq

/-- The length is that of the string. -/
def CText.of (s : Bytes) : CText := ⟨s, s.length⟩

section Renderers

variable (numberText : NumberText) {V : Type} (view : V → Shape V)

/-! ## `value_to_string` -/

/-- The size of `buf`. -/
def toStringSize : ℕ := 2048

/-- A number is printed into 64 bytes of its own. -/
def numberString (bits : UInt64) : Bytes := (numberText.text bits).take 63

def itemText (item : Shape V) (s : CText) : Bytes :=
  match item with
  | .string _ => 0x22 :: (s.chars ++ [0x22])
  | _ => s.chars

/-- An item is printed by its type, `items[i]->type`. -/
def printItem (item : Shape V) (s : CText) (b : Filled) : Run Unit Filled :=
  match item with
  | .absent => .undefined
  | item => b.print toStringSize (itemText item s)

/-- The separator before every item but the first. -/
def printSeparator (first : Bool) (b : Filled) : Run Unit Filled :=
  if first then .done b else b.print toStringSize (utf8 ", ")

/-- The loop over the items: it looks for room before each of them. -/
def printItems (render : V → Run Unit CText) : List V → Bool → Filled → Run Unit Filled
  | [], _, b => .done b
  | v :: vs, first, b =>
    if b.pos < toStringSize - 2 then do
      let b ← printSeparator first b
      let s ← render v
      let b ← printItem (view v) s b
      printItems render vs false b
    else .done b

/-- The separator before every entry but the first, where there is room for it. -/
def printSeparatorBelow (first : Bool) (b : Filled) : Run Unit Filled :=
  if first = false ∧ b.pos < toStringSize - 2 then b.print toStringSize (utf8 ", ") else .done b

def printEntries (render : V → Run Unit CText) : List (Bytes × V) → Bool → Filled → Run Unit Filled
  | [], _, b => .done b
  | (key, v) :: es, first, b => do
    let b ← printSeparatorBelow first b
    let s ← render v
    let b ← b.print toStringSize (0x22 :: (cString key ++ (utf8 "\": " ++ s.chars)))
    printEntries render es false b

/-- `value_to_string`, for at most so many levels. -/
def valueToString : ℕ → V → Run Unit CText
  | 0, _ => .outOfFuel ()
  | n + 1, v =>
    match view v with
    | .absent => .done (.of [])
    | .null => .done (.of (utf8 "null"))
    | .bool b => .done (.of (if b then utf8 "true" else utf8 "false"))
    | .number bits => .done (.of (numberString numberText bits))
    | .string chars => .done ⟨cString chars, chars.length⟩
    | .array items => do
      let b ← Filled.empty.print toStringSize (utf8 "[")
      let b ← printItems view (valueToString n) items true b
      let b ← b.print toStringSize (utf8 "]")
      .done ⟨b.chars, b.pos⟩
    | .map entries => do
      let b ← Filled.empty.print toStringSize (utf8 "\x7b")
      let b ← printEntries (valueToString n) entries true b
      let b ← b.print toStringSize (utf8 "\x7d")
      .done ⟨b.chars, b.pos⟩
    | .func => .done (.of (utf8 "<function>"))

/-! ## `json_serialize` -/

/-- `bufsize`. -/
def serializeSize : ℕ := 8192

/-- A character that is written only where there is room. -/
def putJson (c : UInt8) (b : Filled) : Run Unit Filled := b.putBelow serializeSize (serializeSize - 1) c

/-- The letter behind the backslash, for what is escaped in a string. -/
def jsonEscape (c : UInt8) : Option UInt8 :=
  if c = 0x22 then some 0x22
  else if c = 0x5c then some 0x5c
  else if c = 0x0a then some 0x6e
  else if c = 0x09 then some 0x74
  else if c = 0x0d then some 0x72
  else none

def putChars : Bytes → Filled → Run Unit Filled
  | [], b => .done b
  | c :: s, b =>
    if b.pos < serializeSize - 2 then
      match jsonEscape c with
      | some e => do
        let b ← b.put serializeSize 0x5c
        let b ← putJson e b
        putChars s b
      | none => b.put serializeSize c >>= putChars s
    else .done b

def putKeyEscape (c : UInt8) (b : Filled) : Run Unit Filled :=
  if c = 0x22 ∨ c = 0x5c then b.put serializeSize 0x5c else .done b

/-- The loop over the characters of a key: the second of two is written without a look. -/
def putKeyChars : Bytes → Filled → Run Unit Filled
  | [], b => .done b
  | c :: s, b =>
    if b.pos < serializeSize - 2 then do
      let b ← putKeyEscape c b
      let b ← b.put serializeSize c
      putKeyChars s b
    else .done b

def putKey (key : Bytes) (b : Filled) : Run Unit Filled := do
  let b ← putJson 0x22 b
  let b ← putKeyChars (cString key) b
  putJson 0x22 b

def putComma (first : Bool) (b : Filled) : Run Unit Filled := if first then .done b else putJson 0x2c b

def serializeItems (render : V → Filled → Run Unit Filled) : List V → Bool → Filled → Run Unit Filled
  | [], _, b => .done b
  | v :: vs, first, b => do
    let b ← putComma first b
    let b ← render v b
    serializeItems render vs false b

def serializeEntries (render : V → Filled → Run Unit Filled) : List (Bytes × V) → Bool → Filled → Run Unit Filled
  | [], _, b => .done b
  | (key, v) :: es, first, b => do
    let b ← putComma first b
    let b ← putKey key b
    let b ← putJson 0x3a b
    let b ← render v b
    serializeEntries render es false b

/-- `json_serialize_value`, for at most so many levels. -/
def serializeValue : ℕ → V → Filled → Run Unit Filled
  | 0, _, _ => .outOfFuel ()
  | n + 1, v, b =>
    match view v with
    | .absent | .null | .func => b.print serializeSize (utf8 "null")
    | .bool x => b.print serializeSize (if x then utf8 "true" else utf8 "false")
    | .number bits => b.print serializeSize (numberText.text bits)
    | .string chars => do
      let b ← putJson 0x22 b
      let b ← putChars chars b
      putJson 0x22 b
    | .array items => do
      let b ← putJson 0x5b b
      let b ← serializeItems (serializeValue n) items true b
      putJson 0x5d b
    | .map entries => do
      let b ← putJson 0x7b b
      let b ← serializeEntries (serializeValue n) entries true b
      putJson 0x7d b

/-- Over whatever `view` shows of a value. -/
def jsonSerialize (n : ℕ) (v : V) : Run Unit CText := do
  let b ← serializeValue numberText view n v .empty
  -- `buf[pos] = '\0'`
  if b.pos < serializeSize then .done ⟨b.chars, b.pos⟩ else .undefined

end Renderers

/-! ## The reply -/

def outputBufSize : ℕ := 256 * 1024

/-- `output_append`: as much as fits. -/
def outputAppend (data out : Bytes) : Bytes :=
  out ++ data.take (if outputBufSize ≤ out.length + data.length then outputBufSize - out.length - 1 else data.length)

/-- The characters of a C string that lie in a buffer of `size` bytes. -/
structure CString (size : ℕ) where
  chars : Bytes
  fits : chars.length < size
  noNul : 0 ∉ chars

/-- The error message that is in `g_error` (`INTERP_ERROR_BUF_SIZE`). -/
abbrev ErrorText := CString 512

/-- The tool's result, in `g_result`. -/
abbrev ResultText := CString 4096

/-- `{"error":"..."}`, in 2048 bytes. -/
def errorReply (error : ErrorText) : Run Unit CText := do
  let b ← Filled.empty.print 2048 (utf8 "\x7b\"error\":\"" ++ (error.chars ++ utf8 "\"\x7d"))
  .done ⟨b.chars, b.pos⟩

/-- The bytes that `memcpy` finds: those of the text, as long as they are not asked for beyond its end. -/
def CText.copied (t : CText) (n : ℕ) : Run Unit Bytes := if n ≤ t.chars.length then .done (t.chars.take n) else .undefined

/-- The brace at the end of the message, where there is room for it and a NUL. -/
def putBrace (b : Filled) : Run Unit Filled := if b.pos + 1 < 8192 then b.put 8192 0x7d else .done b

/-- `{"message":...}`, in 8192 bytes. -/
def messageReply (numberText : NumberText) (result : ResultText) : Run Unit CText := do
  let b ← Filled.empty.print 8192 (utf8 "\x7b\"message\":")
  let s ← jsonSerialize numberText Val.shape 1 (.string result.chars)
  let slen := if 8192 - 1 < b.pos + s.len then 8192 - 1 - b.pos else s.len
  let copied ← s.copied slen
  let b : Filled := ⟨b.chars ++ copied, b.pos + slen⟩
  let b ← putBrace b
  .done ⟨b.chars, b.pos⟩

/-- What `exec_registered_tool` makes of the output at its end. -/
def formatReply (numberText : NumberText) (error : Option ErrorText) (result : Option ResultText) (out : Bytes) :
    Run Unit Bytes :=
  match error, result with
  | some error, _ => do
    let t ← errorReply error
    let data ← t.copied t.len
    .done (outputAppend (utf8 "\n") (outputAppend data []))
  | none, some result => do
    let t ← messageReply numberText result
    let data ← t.copied t.len
    .done (outputAppend (utf8 "\n") (outputAppend data []))
  | none, none => .done out

end VelocityMcp.Interp
