import VelocityMcp.Json

/-!
# JsonText — the compact JSON text of a value (`serde_json::to_string`)

`jsonText`: the bytes of the text.  How an `f64` is printed is a parameter.
-/

namespace VelocityMcp

open Lib

def hexDigit (n : UInt8) : UInt8 := if n < 10 then 0x30 + n else 0x57 + n

/-- One byte of a string: quotes, backslashes and control characters are escaped. -/
def escapeByte (x : UInt8) : Bytes :=
  if x = 0x22 then [0x5c, 0x22]
  else if x = 0x5c then [0x5c, 0x5c]
  else if x = 0x08 then [0x5c, 0x62]
  else if x = 0x09 then [0x5c, 0x74]
  else if x = 0x0a then [0x5c, 0x6e]
  else if x = 0x0c then [0x5c, 0x66]
  else if x = 0x0d then [0x5c, 0x72]
  else if x < 0x20 then [0x5c, 0x75, 0x30, 0x30, hexDigit (x / 16), hexDigit (x % 16)]
  else [x]

def stringText (s : String) : Bytes := 0x22 :: ((utf8 s).flatMap escapeByte ++ [0x22])

/-- The text of an `f64`, given by its bit pattern. -/
abbrev F64Text := UInt64 → Bytes

variable (f64Text : F64Text)

def numberText : Number → Bytes
  | .posInt n => utf8 (toString n.toNat)
  | .negInt i _ => utf8 (toString i.toInt)
  | .float bits _ => f64Text bits

mutual

/-- `serde_json::to_string`. -/
def jsonText : Value → Bytes
  | .null => [0x6e, 0x75, 0x6c, 0x6c]
  | .bool b => if b then [0x74, 0x72, 0x75, 0x65] else [0x66, 0x61, 0x6c, 0x73, 0x65]
  | .number n => numberText f64Text n
  | .string s => stringText s
  | .array [] => [0x5b, 0x5d]
  | .array (v :: vs) => 0x5b :: (jsonText v ++ (moreItemsText vs ++ [0x5d]))
  | .object [] => [0x7b, 0x7d]
  | .object ((k, v) :: fs) => 0x7b :: (stringText k ++ (0x3a :: (jsonText v ++ (moreFieldsText fs ++ [0x7d]))))

def moreItemsText : List Value → Bytes
  | [] => []
  | v :: vs => 0x2c :: (jsonText v ++ moreItemsText vs)

def moreFieldsText : List (String × Value) → Bytes
  | [] => []
  | (k, v) :: fs => 0x2c :: (stringText k ++ (0x3a :: (jsonText v ++ moreFieldsText fs)))

end

variable {f64Text}

theorem length_moreItemsText_nulls (n : ℕ) :
    (moreItemsText f64Text (List.replicate n .null)).length = 5 * n := by
  induction n with
  | zero => rfl
  | succ n ih =>
    rw [List.replicate_succ, moreItemsText, List.length_cons, List.length_append, ih, jsonText]
    simp only [List.length_cons, List.length_nil]
    omega

theorem length_jsonText_nulls (n : ℕ) :
    (jsonText f64Text (.array (List.replicate (n + 1) .null))).length = 5 * n + 6 := by
  rw [List.replicate_succ, jsonText, List.length_cons, List.length_append, List.length_append,
    length_moreItemsText_nulls, jsonText]
  simp only [List.length_cons, List.length_nil]
  omega

example : jsonText (fun _ => []) (.object [("a", .array [.bool true, .null]), ("b", .string "\n\u0001")]) =
    utf8 "\x7b\"a\":[true,null],\"b\":\"\\n\\u0001\"\x7d" := by
  decide +kernel

end VelocityMcp
