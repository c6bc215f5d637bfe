import VelocityMcp.JsonText
import VelocityMcp.Lib.CBuffer
import VelocityMcp.Lib.JsonSyntax

/-!
# Guest.MrubyEncoder — the reply encoder of the mruby guest (`mruby_wasi.c`)

`escapeJsonString_eq`, `valueToJson_stays_iff`: when its functions stay in the buffer and return what they have
written.
-/

namespace VelocityMcp.Guest.Mruby

open Lib

/-! ## Values -/

/-- A Ruby value. -/
inductive RVal where
  | nil
  | bool (b : Bool)
  | integer (i : Int64)
  | float (bits : UInt64)
  | string (chars : Bytes)
  | symbol (name : Bytes)
  | array (items : List RVal)
  /-- A hash, with the texts of its keys (`to_s`). -/
  | hash (entries : List (Bytes × RVal))
  /-- Any other object, with what its `inspect` returns, if that is a string. -/
  | other (inspect : Option Bytes)

/-! ## The code -/

section Code

/-- `out[di] = '\0'`: the text is at an end. -/
def terminate (cap : ℕ) (b : Filled) : Run Unit Filled := if b.pos < cap then .done b else .undefined

/-- The characters of a text, one after the other. -/
def putAll (cap : ℕ) : Bytes → Filled → Run Unit Filled
  | [], b => .done b
  | c :: s, b => b.put cap c >>= putAll cap s

/-- The `switch` of `escape_json_string`: a code point is printed, anything else is put. -/
def putEscaped (cap : ℕ) (c : UInt8) (b : Filled) : Run Unit Filled :=
  if (escapeByte c).length = 6 then b.print cap (escapeByte c) else putAll cap (escapeByte c) b

/-- The loop of `escape_json_string`, up to eight bytes before the end. -/
def escapeLoop (cap : ℕ) : Bytes → Filled → Run Unit Filled
  | [], b => .done b
  | c :: s, b => if b.pos + 8 < cap then putEscaped cap c b >>= escapeLoop cap s else .done b

/-- `if (di >= out_cap - 1) di = out_cap - 1; out[di++] = c; out[di] = '\0'`. -/
def close (cap : ℕ) (c : UInt8) (b : Filled) : Run Unit Filled := do
  let b ← (if b.pos ≥ cap - 1 then ⟨b.chars.take (cap - 1), cap - 1⟩ else b : Filled).put cap c
  terminate cap b

/-- `escape_json_string`; what writes behind the end of its buffer is undefined. -/
def escapeJsonString (src : Bytes) (cap : ℕ) : Run Unit Filled :=
  if cap ≤ 2 then terminate cap .empty
  else do
    let b ← Filled.empty.put cap 0x22
    let b ← escapeLoop cap src b
    close cap 0x22 b

/-- A word is copied where there is room for it, and terminated at its length in any case. -/
def word (t : Bytes) (cap : ℕ) : Run Unit Filled := if t.length < cap then .done ⟨t, t.length⟩ else .undefined

/-- `snprintf(out, out_cap, ..)`. -/
def printed (t : Bytes) (cap : ℕ) : Run Unit Filled := Filled.empty.print cap t

/-- `di += encode(.., out + di, out_cap - di)`. -/
def embed (encode : ℕ → Run Unit Filled) (cap : ℕ) (b : Filled) : Run Unit Filled := do
  let r ← encode (cap - b.pos)
  .done ⟨b.chars ++ r.chars, b.pos + r.pos⟩

/-- A comma, where another item follows and there is room. -/
def putComma (more : Bool) (cap : ℕ) (b : Filled) : Run Unit Filled :=
  if more = true ∧ b.pos + 2 < cap then b.put cap 0x2c else .done b

variable (g17 : F64Text)

mutual

/-- `value_to_json`, the same way. -/
def valueToJson : RVal → ℕ → Run Unit Filled
  | .nil, cap => if cap = 0 then .done .empty else word (utf8 "null") cap
  | .bool b, cap => if cap = 0 then .done .empty else word (if b then utf8 "true" else utf8 "false") cap
  | .integer i, cap => if cap = 0 then .done .empty else printed (utf8 (toString i.toInt)) cap
  | .float bits, cap => if cap = 0 then .done .empty else printed (g17 bits) cap
  | .string chars, cap => if cap = 0 then .done .empty else escapeJsonString chars cap
  | .symbol name, cap => if cap = 0 then .done .empty else escapeJsonString name cap
  | .array items, cap =>
    if cap = 0 then .done .empty
    else if cap ≤ 2 then terminate cap .empty
    else do
      let b ← Filled.empty.put cap 0x5b
      let b ← itemsToJson items cap b
      close cap 0x5d b
  | .hash entries, cap =>
    if cap = 0 then .done .empty
    else if cap ≤ 2 then terminate cap .empty
    else do
      let b ← Filled.empty.put cap 0x7b
      let b ← entriesToJson entries cap b
      close cap 0x7d b
  | .other (some text), cap => if cap = 0 then .done .empty else escapeJsonString text cap
  | .other none, cap => if cap = 0 then .done .empty else word (utf8 "null") cap

/-- The loop over an array, up to 16 bytes before the end. -/
def itemsToJson : List RVal → ℕ → Filled → Run Unit Filled
  | [], _, b => .done b
  | v :: vs, cap, b =>
    if b.pos + 16 < cap then do
      let b ← embed (valueToJson v) cap b
      let b ← putComma (!vs.isEmpty) cap b
      itemsToJson vs cap b
    else .done b

/-- The loop over a hash, up to 32 bytes before the end. -/
def entriesToJson : List (Bytes × RVal) → ℕ → Filled → Run Unit Filled
  | [], _, b => .done b
  | (k, v) :: es, cap, b =>
    if b.pos + 32 < cap then do
      let b ← embed (escapeJsonString k) cap b
      if b.pos + 2 ≥ cap then .done b
      else do
        let b ← b.put cap 0x3a
        let b ← embed (valueToJson v) cap b
        let b ← putComma (!es.isEmpty) cap b
        entriesToJson es cap b
    else .done b

end

/-- `sizeof(output_buf)`. -/
def outputBufSize : ℕ := 65536

/-- The end of `mruby_call_tool`: the reply; it never is an error. -/
def callToolReply (result : RVal) : Run Unit Bytes := do
  let b ← valueToJson g17 result outputBufSize
  .done b.chars

end Code

/-! ## Strings -/

/-- The position is that of the text's end. -/
def full (o : Bytes) : Filled := ⟨o, o.length⟩

/-- The characters of a string that are written, from a position on. -/
def keptChars (cap : ℕ) : ℕ → Bytes → Bytes
  | _, [] => []
  | p, c :: s => if p + 8 < cap then c :: keptChars cap (p + (escapeByte c).length) s else []

/-- What `escape_json_string` writes. -/
def stringWritten (s : Bytes) (cap : ℕ) : Bytes :=
  if cap ≤ 2 then [] else JsonSyntax.quotedBy escapeByte (keptChars cap 1 s)

section Strings

variable {cap : ℕ}

theorem length_escapeByte (c : UInt8) : 1 ≤ (escapeByte c).length ∧ (escapeByte c).length ≤ 6 := by
  rw [escapeByte]
  split_ifs <;> exact ⟨by simp, by simp⟩

theorem put_full {o : Bytes} (c : UInt8) (h : o.length < cap) : (full o).put cap c = .done (full (o ++ [c])) := by
  rw [Filled.put, if_pos (show (full o).pos < cap from h), full, full, List.length_append]
  rfl

theorem putAll_full {t o : Bytes} (h : o.length + t.length ≤ cap) :
    putAll cap t (full o) = .done (full (o ++ t)) := by
  induction t generalizing o with
  | nil => rw [putAll, List.append_nil]
  | cons c t ih =>
    rw [List.length_cons] at h
    rw [putAll, put_full c (by omega), Run.done_bind, ih (by rw [List.length_append, List.length_singleton]; omega),
      List.append_assoc]
    rfl

theorem print_full {t o : Bytes} (h : o.length + t.length < cap) :
    (full o).print cap t = .done (full (o ++ t)) := by
  have htake : t.take (cap - o.length - 1) = t := List.take_of_length_le (by omega)
  rw [Filled.print, if_neg (show ¬cap < (full o).pos from Nat.not_lt.mpr (by rw [full]; dsimp only; omega)), full, full]
  dsimp only
  rw [htake, List.length_append]

theorem putEscaped_full {o : Bytes} (c : UInt8) (h : o.length + 8 < cap) :
    putEscaped cap c (full o) = .done (full (o ++ escapeByte c)) := by
  have hlen := (length_escapeByte c).2
  rw [putEscaped]
  split_ifs
  · exact print_full (by omega)
  · exact putAll_full (by omega)

theorem escapeLoop_full (s : Bytes) {o : Bytes} (h : o.length + 1 < cap) :
    escapeLoop cap s (full o) = .done (full (o ++ (keptChars cap o.length s).flatMap escapeByte)) ∧
      (o ++ (keptChars cap o.length s).flatMap escapeByte).length + 1 < cap := by
  induction s generalizing o with
  | nil =>
    rw [escapeLoop, keptChars, List.flatMap_nil, List.append_nil]
    exact ⟨rfl, h⟩
  | cons c s ih =>
    have hlen := (length_escapeByte c).2
    rw [escapeLoop, keptChars]
    by_cases hroom : o.length + 8 < cap
    · have hnext := @ih (o ++ escapeByte c) (by rw [List.length_append]; omega)
      rw [if_pos (show (full o).pos + 8 < cap from hroom), if_pos hroom, putEscaped_full c hroom, Run.done_bind,
        List.flatMap_cons, ← List.append_assoc, ← List.length_append]
      exact hnext
    · rw [if_neg (show ¬(full o).pos + 8 < cap from hroom), if_neg hroom, List.flatMap_nil, List.append_nil]
      exact ⟨rfl, h⟩

theorem close_eq (hcap : 0 < cap) (c : UInt8) (b : Filled) :
    close cap c b = if b.pos + 1 < cap then .done ⟨b.chars ++ [c], b.pos + 1⟩ else .undefined := by
  rw [close]
  by_cases h : b.pos + 1 < cap
  · rw [if_neg (show ¬b.pos ≥ cap - 1 by omega), Filled.put, if_pos (by omega), Run.done_bind,
      terminate,
      if_pos (show b.pos + 1 < cap from h)]
  · rw [if_pos (show b.pos ≥ cap - 1 by omega), Filled.put, if_pos (show cap - 1 < cap by omega), Run.done_bind,
      terminate,
      if_neg (show ¬cap - 1 + 1 < cap by omega), if_neg h]

theorem close_full {o : Bytes} (c : UInt8) (h : o.length + 1 < cap) :
    close cap c (full o) = .done (full (o ++ [c])) := by
  rw [close_eq (by omega), if_pos (show (full o).pos + 1 < cap from h), full, full, List.length_append]
  rfl

/-- **`escape_json_string` stays in its buffer**, and returns what it has written. -/
theorem escapeJsonString_eq (s : Bytes) (hcap : 0 < cap) :
    escapeJsonString s cap = .done (full (stringWritten s cap)) ∧ (stringWritten s cap).length < cap := by
  rw [escapeJsonString, stringWritten]
  by_cases h : cap ≤ 2
  · rw [if_pos h, if_pos h, terminate, if_pos (show (Filled.empty).pos < cap from hcap)]
    exact ⟨rfl, hcap⟩
  · have hquote : Filled.empty.put cap 0x22 = .done (full [0x22]) := if_pos hcap
    obtain ⟨hloop, hlen⟩ := @escapeLoop_full cap s [0x22] (show 1 + 1 < cap by omega)
    rw [if_neg h, if_neg h, hquote, Run.done_bind, hloop, Run.done_bind, close_full _ hlen]
    refine ⟨rfl, ?_⟩
    rw [List.length_append, List.length_singleton] at hlen
    rw [JsonSyntax.quotedBy, List.length_cons, List.length_append, List.length_singleton]
    change 1 + ((keptChars cap 1 s).flatMap escapeByte).length + 1 < cap at hlen
    omega

end Strings

/-! ## What is written, and where it stays -/

section Stays

/-- The comma behind an item that ends at `q`. -/
def comma (more : Bool) (cap q : ℕ) : Bytes := if more = true ∧ q + 2 < cap then [0x2c] else []

/-- Where the characters of a string end that begin at `p`. -/
def charsEnd (cap : ℕ) : ℕ → Bytes → ℕ
  | p, [] => p
  | p, c :: s => if p + 8 < cap then charsEnd cap (p + (escapeByte c).length) s else p

def stringSize (s : Bytes) (cap : ℕ) : ℕ := if cap ≤ 2 then 0 else charsEnd cap 1 s + 1

variable (g17 : F64Text)

mutual

/-- How many bytes a value takes, where there is room for `cap` of them. -/
def size : RVal → ℕ → ℕ
  | .nil, _ => 4
  | .bool b, _ => if b then 4 else 5
  | .integer i, _ => (utf8 (toString i.toInt)).length
  | .float bits, _ => (g17 bits).length
  | .string chars, cap => stringSize chars cap
  | .symbol name, cap => stringSize name cap
  | .array items, cap => if cap ≤ 2 then 0 else itemsEnd items cap 1 + 1
  | .hash entries, cap => if cap ≤ 2 then 0 else entriesEnd entries cap 1 + 1
  | .other (some text), cap => stringSize text cap
  | .other none, _ => 4

/-- Where the items end that begin at `p`. -/
def itemsEnd : List RVal → ℕ → ℕ → ℕ
  | [], _, p => p
  | v :: vs, cap, p =>
    if p + 16 < cap then
      itemsEnd vs cap (p + size v (cap - p) + (comma (!vs.isEmpty) cap (p + size v (cap - p))).length)
    else p

/-- Where the entries end that begin at `p`. -/
def entriesEnd : List (Bytes × RVal) → ℕ → ℕ → ℕ
  | [], _, p => p
  | (k, v) :: es, cap, p =>
    if p + 32 < cap then
      let q := p + stringSize k (cap - p)
      if q + 2 < cap then
        entriesEnd es cap (q + 1 + size v (cap - (q + 1)) +
          (comma (!es.isEmpty) cap (q + 1 + size v (cap - (q + 1)))).length)
      else q
    else p

end

mutual

/-- Every word, number and closing bracket that is reached has its room, and the NUL behind it. -/
def Safe : RVal → ℕ → Prop
  | .nil, cap => 4 < cap
  | .bool b, cap => (if b then 4 else 5) < cap
  | .integer i, cap => (utf8 (toString i.toInt)).length < cap
  | .float bits, cap => (g17 bits).length < cap
  | .string _, _ => True
  | .symbol _, _ => True
  | .array items, cap => 2 < cap → SafeItems items cap 1
  | .hash entries, cap => 2 < cap → SafeEntries entries cap 1
  | .other (some _), _ => True
  | .other none, cap => 4 < cap

def SafeItems : List RVal → ℕ → ℕ → Prop
  | [], cap, p => p + 1 < cap
  | v :: vs, cap, p =>
    if p + 16 < cap then
      Safe v (cap - p) ∧
        SafeItems vs cap (p + size g17 v (cap - p) + (comma (!vs.isEmpty) cap (p + size g17 v (cap - p))).length)
    else p + 1 < cap

def SafeEntries : List (Bytes × RVal) → ℕ → ℕ → Prop
  | [], cap, p => p + 1 < cap
  | (k, v) :: es, cap, p =>
    if p + 32 < cap then
      let q := p + stringSize k (cap - p)
      if q + 2 < cap then
        Safe v (cap - (q + 1)) ∧
          SafeEntries es cap (q + 1 + size g17 v (cap - (q + 1)) +
            (comma (!es.isEmpty) cap (q + 1 + size g17 v (cap - (q + 1)))).length)
      else q + 1 < cap
    else p + 1 < cap

end

mutual

def written : RVal → ℕ → Bytes
  | .nil, _ => utf8 "null"
  | .bool b, _ => if b then utf8 "true" else utf8 "false"
  | .integer i, _ => utf8 (toString i.toInt)
  | .float bits, _ => g17 bits
  | .string chars, cap => stringWritten chars cap
  | .symbol name, cap => stringWritten name cap
  | .array items, cap => if cap ≤ 2 then [] else 0x5b :: (itemsWritten items cap 1 ++ [0x5d])
  | .hash entries, cap => if cap ≤ 2 then [] else 0x7b :: (entriesWritten entries cap 1 ++ [0x7d])
  | .other (some text), cap => stringWritten text cap
  | .other none, _ => utf8 "null"

def itemsWritten : List RVal → ℕ → ℕ → Bytes
  | [], _, _ => []
  | v :: vs, cap, p =>
    if p + 16 < cap then
      let t := written v (cap - p) ++ comma (!vs.isEmpty) cap (p + size g17 v (cap - p))
      t ++ itemsWritten vs cap (p + t.length)
    else []

def entriesWritten : List (Bytes × RVal) → ℕ → ℕ → Bytes
  | [], _, _ => []
  | (k, v) :: es, cap, p =>
    if p + 32 < cap then
      let q := p + stringSize k (cap - p)
      if q + 2 < cap then
        let t := written v (cap - (q + 1)) ++ comma (!es.isEmpty) cap (q + 1 + size g17 v (cap - (q + 1)))
        stringWritten k (cap - p) ++ 0x3a :: (t ++ entriesWritten es cap (q + 1 + t.length))
      else stringWritten k (cap - p)
    else []

end

theorem add_length_keptChars (cap : ℕ) (s : Bytes) (p : ℕ) :
    p + ((keptChars cap p s).flatMap escapeByte).length = charsEnd cap p s := by
  induction s generalizing p with
  | nil => rfl
  | cons c s ih =>
    rw [keptChars, charsEnd]
    split_ifs
    · rw [List.flatMap_cons, List.length_append, ← Nat.add_assoc]
      exact ih _
    · rfl

theorem length_stringWritten (s : Bytes) (cap : ℕ) : (stringWritten s cap).length = stringSize s cap := by
  rw [stringWritten, stringSize]
  split_ifs
  · rfl
  · rw [JsonSyntax.quotedBy, List.length_cons, List.length_append, List.length_singleton, ← add_length_keptChars]
    omega

mutual

theorem length_written : (v : RVal) → (cap : ℕ) → (written g17 v cap).length = size g17 v cap
  | .nil, _ => rfl
  | .bool true, _ => rfl
  | .bool false, _ => rfl
  | .integer _, _ => rfl
  | .float _, _ => rfl
  | .string chars, cap => length_stringWritten chars cap
  | .symbol name, cap => length_stringWritten name cap
  | .array items, cap => by
    have hitems := add_length_itemsWritten items cap 1
    rw [written, size]
    split_ifs
    · rfl
    · rw [List.length_cons, List.length_append, List.length_singleton]
      omega
  | .hash entries, cap => by
    have hentries := add_length_entriesWritten entries cap 1
    rw [written, size]
    split_ifs
    · rfl
    · rw [List.length_cons, List.length_append, List.length_singleton]
      omega
  | .other (some text), cap => length_stringWritten text cap
  | .other none, _ => rfl

theorem add_length_itemsWritten : (vs : List RVal) → (cap p : ℕ) →
    p + (itemsWritten g17 vs cap p).length = itemsEnd g17 vs cap p
  | [], _, _ => rfl
  | v :: vs, cap, p => by
    have hv := length_written v (cap - p)
    rw [itemsWritten, itemsEnd]
    split_ifs
    · dsimp only
      rw [List.length_append, List.length_append, hv, ← Nat.add_assoc, ← Nat.add_assoc]
      exact add_length_itemsWritten vs cap _
    · rfl

theorem add_length_entriesWritten : (es : List (Bytes × RVal)) → (cap p : ℕ) →
    p + (entriesWritten g17 es cap p).length = entriesEnd g17 es cap p
  | [], _, _ => rfl
  | (k, v) :: es, cap, p => by
    have hv := length_written v (cap - (p + stringSize k (cap - p) + 1))
    have hk := length_stringWritten k (cap - p)
    rw [entriesWritten, entriesEnd]
    split_ifs
    · dsimp only
      split_ifs
      · have hes := add_length_entriesWritten es cap (p + stringSize k (cap - p) + 1 +
          (written g17 v (cap - (p + stringSize k (cap - p) + 1)) ++ comma (!es.isEmpty) cap
            (p + stringSize k (cap - p) + 1 + size g17 v (cap - (p + stringSize k (cap - p) + 1)))).length)
        simp only [List.length_append, List.length_cons, hk, hv, ← Nat.add_assoc] at hes ⊢
        omega
      · rw [hk]
    · rfl

end

/-- The position has left the buffer, or a byte was written behind it. -/
def Overruns (cap : ℕ) (r : Run Unit Filled) : Prop := r = .undefined ∨ ∃ b, r = .done b ∧ cap ≤ b.pos

/-- Where it is safe, this text is written, and its NUL; otherwise it overruns. -/
structure Ends (cap : ℕ) (safe : Prop) (t : Bytes) (r : Run Unit Filled) : Prop where
  stays : safe → r = .done (full t) ∧ t.length < cap
  overruns : ¬safe → Overruns cap r

/-- The same, for what ends with a bracket: it is undefined otherwise. -/
structure Closes (cap : ℕ) (safe : Prop) (t : Bytes) (r : Run Unit Filled) : Prop where
  stays : safe → r = .done (full t) ∧ t.length < cap
  overruns : ¬safe → r = .undefined

/-! ### The steps of the loops -/

theorem putComma_full (more : Bool) {cap : ℕ} (o : Bytes) :
    putComma more cap (full o) = .done (full (o ++ comma more cap o.length)) := by
  rw [putComma, comma]
  by_cases h : more = true ∧ o.length + 2 < cap
  · rw [if_pos (show more = true ∧ (full o).pos + 2 < cap from h), if_pos h]
    exact put_full _ (by omega)
  · rw [if_neg (show ¬(more = true ∧ (full o).pos + 2 < cap) from h), if_neg h, List.append_nil]

theorem putComma_of_le (more : Bool) {cap : ℕ} {b : Filled} (h : cap ≤ b.pos) : putComma more cap b = .done b :=
  if_neg fun hroom => absurd hroom.2 (by omega)

theorem embed_full {encode : ℕ → Run Unit Filled} {cap : ℕ} {o t : Bytes}
    (h : encode (cap - o.length) = .done (full t)) : embed encode cap (full o) = .done (full (o ++ t)) := by
  show (encode (cap - o.length) >>= _) = _
  rw [h, Run.done_bind, full, full, full, List.length_append]

theorem embed_overruns {encode : ℕ → Run Unit Filled} {cap : ℕ} {o : Bytes} (ho : o.length ≤ cap)
    (h : Overruns (cap - o.length) (encode (cap - o.length))) : Overruns cap (embed encode cap (full o)) := by
  rcases h with h | ⟨b, h, hb⟩
  · exact .inl (congrArg (· >>= _) h)
  · refine .inr ⟨_, congrArg (· >>= _) h, ?_⟩
    show cap ≤ o.length + b.pos
    omega

theorem itemsToJson_of_le (vs : List RVal) {cap : ℕ} {b : Filled} (h : cap ≤ b.pos) :
    itemsToJson g17 vs cap b = .done b := by
  cases vs with
  | nil => rfl
  | cons v vs => rw [itemsToJson, if_neg (by omega)]

theorem entriesToJson_of_le (es : List (Bytes × RVal)) {cap : ℕ} {b : Filled} (h : cap ≤ b.pos) :
    entriesToJson g17 es cap b = .done b := by
  cases es with
  | nil => rfl
  | cons e es => rw [entriesToJson, if_neg (by omega)]

theorem close_of_le {cap : ℕ} (hcap : 0 < cap) (c : UInt8) {b : Filled} (h : cap ≤ b.pos) :
    close cap c b = .undefined := by
  rw [close_eq hcap, if_neg (by omega)]

theorem closes_close {cap : ℕ} (hcap : 0 < cap) (c : UInt8) (o : Bytes) :
    Closes cap (o.length + 1 < cap) (o ++ [c]) (close cap c (full o)) where
  stays h := ⟨close_full c h, by rwa [List.length_append]⟩
  overruns h := by
    rw [close_eq hcap]
    exact if_neg h

theorem ends_word (t : Bytes) (cap : ℕ) : Ends cap (t.length < cap) t (word t cap) where
  stays h := ⟨if_pos h, h⟩
  overruns h := .inl (if_neg h)

theorem ends_printed (t : Bytes) (cap : ℕ) : Ends cap (t.length < cap) t (printed t cap) where
  stays h := ⟨print_full (by rwa [List.length_nil, Nat.zero_add]), h⟩
  overruns h := by
    rw [printed, Filled.print, if_neg (show ¬cap < Filled.empty.pos from Nat.not_lt_zero cap)]
    exact .inr ⟨_, rfl, by rw [Filled.empty]; dsimp only; omega⟩

theorem ends_string (s : Bytes) {cap : ℕ} (hcap : 0 < cap) :
    Ends cap True (stringWritten s cap) (escapeJsonString s cap) where
  stays _ := escapeJsonString_eq s hcap
  overruns h := absurd trivial h

theorem closes_next {v : RVal} {cap : ℕ} (hcap : 0 < cap) (c : UInt8) {o : Bytes} (ho : o.length ≤ cap)
    (hv : Ends (cap - o.length) (Safe g17 v (cap - o.length)) (written g17 v (cap - o.length))
      (valueToJson g17 v (cap - o.length)))
    (more : Bool) {loop : Filled → Run Unit Filled} (hstop : ∀ b : Filled, cap ≤ b.pos → loop b = .done b)
    {safe : Prop} {rest : Bytes}
    (hrest : Closes cap safe
      (o ++ (written g17 v (cap - o.length) ++ comma more cap (o.length + size g17 v (cap - o.length))) ++ rest)
      (loop (full (o ++ (written g17 v (cap - o.length) ++
        comma more cap (o.length + size g17 v (cap - o.length))))) >>= close cap c)) :
    Closes cap (Safe g17 v (cap - o.length) ∧ safe)
      (o ++ (written g17 v (cap - o.length) ++ comma more cap (o.length + size g17 v (cap - o.length))) ++ rest)
      ((embed (valueToJson g17 v) cap (full o) >>= fun b => putComma more cap b >>= loop) >>= close cap c) := by
  have hlen := length_written g17 v (cap - o.length)
  by_cases hsafe : Safe g17 v (cap - o.length)
  · have hcomma := @putComma_full more cap (o ++ written g17 v (cap - o.length))
    rw [List.length_append, hlen, List.append_assoc] at hcomma
    rw [embed_full (hv.stays hsafe).1, Run.done_bind, hcomma, Run.done_bind]
    exact ⟨fun h => hrest.stays h.2, fun h => hrest.overruns fun hno => h ⟨hsafe, hno⟩⟩
  · refine ⟨fun h => absurd h.1 hsafe, fun _ => ?_⟩
    rcases embed_overruns ho (hv.overruns hsafe) with hlost | ⟨b, hlost, hb⟩
    · rw [hlost]
      rfl
    · rw [hlost, Run.done_bind, putComma_of_le _ hb, Run.done_bind, hstop b hb, Run.done_bind, close_of_le hcap _ hb]

/-! ### Values -/

mutual

theorem valueToJson_ends : (v : RVal) → {cap : ℕ} → 0 < cap →
    Ends cap (Safe g17 v cap) (written g17 v cap) (valueToJson g17 v cap)
  | .nil, cap, hcap => by
    rw [valueToJson, if_neg hcap.ne']
    exact ends_word (utf8 "null") cap
  | .bool true, cap, hcap => by
    rw [valueToJson, if_neg hcap.ne']
    exact ends_word (utf8 "true") cap
  | .bool false, cap, hcap => by
    rw [valueToJson, if_neg hcap.ne']
    exact ends_word (utf8 "false") cap
  | .integer i, cap, hcap => by
    rw [valueToJson, if_neg hcap.ne']
    exact ends_printed _ cap
  | .float bits, cap, hcap => by
    rw [valueToJson, if_neg hcap.ne']
    exact ends_printed _ cap
  | .string chars, cap, hcap => by
    rw [valueToJson, if_neg hcap.ne']
    exact ends_string chars hcap
  | .symbol name, cap, hcap => by
    rw [valueToJson, if_neg hcap.ne']
    exact ends_string name hcap
  | .other (some text), cap, hcap => by
    rw [valueToJson, if_neg hcap.ne']
    exact ends_string text hcap
  | .other none, cap, hcap => by
    rw [valueToJson, if_neg hcap.ne']
    exact ends_word (utf8 "null") cap
  | .array items, cap, hcap => by
    rw [valueToJson, if_neg hcap.ne', Safe, written]
    by_cases h : cap ≤ 2
    · rw [if_pos h, if_pos h]
      exact ⟨fun _ => ⟨if_pos hcap, hcap⟩, fun hno => absurd (fun hroom => absurd h (Nat.not_le.mpr hroom)) hno⟩
    · have hopen : Filled.empty.put cap 0x5b = .done (full [0x5b]) := if_pos hcap
      rw [if_neg h, if_neg h, hopen, Run.done_bind]
      have hitems := itemsToJson_closes items hcap 0x5d [0x5b]
      exact ⟨fun hsafe => hitems.stays (hsafe (Nat.not_le.mp h)),
        fun hno => .inl (hitems.overruns fun hsafe => hno fun _ => hsafe)⟩
  | .hash entries, cap, hcap => by
    rw [valueToJson, if_neg hcap.ne', Safe, written]
    by_cases h : cap ≤ 2
    · rw [if_pos h, if_pos h]
      exact ⟨fun _ => ⟨if_pos hcap, hcap⟩, fun hno => absurd (fun hroom => absurd h (Nat.not_le.mpr hroom)) hno⟩
    · have hopen : Filled.empty.put cap 0x7b = .done (full [0x7b]) := if_pos hcap
      rw [if_neg h, if_neg h, hopen, Run.done_bind]
      have hentries := entriesToJson_closes entries hcap 0x7d [0x7b]
      exact ⟨fun hsafe => hentries.stays (hsafe (Nat.not_le.mp h)),
        fun hno => .inl (hentries.overruns fun hsafe => hno fun _ => hsafe)⟩

theorem itemsToJson_closes : (vs : List RVal) → {cap : ℕ} → 0 < cap → (c : UInt8) → (o : Bytes) →
    Closes cap (SafeItems g17 vs cap o.length) (o ++ (itemsWritten g17 vs cap o.length ++ [c]))
      (itemsToJson g17 vs cap (full o) >>= close cap c)
  | [], cap, hcap, c, o => closes_close hcap c o
  | v :: vs, cap, hcap, c, o => by
    rw [itemsToJson, SafeItems, itemsWritten]
    by_cases hroom : o.length + 16 < cap
    · rw [if_pos (show (full o).pos + 16 < cap from hroom), if_pos hroom, if_pos hroom]
      have hlen := length_written g17 v (cap - o.length)
      have hrest := itemsToJson_closes vs hcap c
        (o ++ (written g17 v (cap - o.length) ++ comma (!vs.isEmpty) cap (o.length + size g17 v (cap - o.length))))
      have hnext := closes_next g17 hcap c (by omega) (valueToJson_ends v (by omega)) (!vs.isEmpty)
        (fun b => itemsToJson_of_le g17 vs) hrest
      simp only [List.length_append, hlen, List.append_assoc, ← Nat.add_assoc] at hnext ⊢
      exact hnext
    · rw [if_neg (show ¬(full o).pos + 16 < cap from hroom), if_neg hroom, if_neg hroom]
      exact closes_close hcap c o

theorem entriesToJson_closes : (es : List (Bytes × RVal)) → {cap : ℕ} → 0 < cap → (c : UInt8) → (o : Bytes) →
    Closes cap (SafeEntries g17 es cap o.length) (o ++ (entriesWritten g17 es cap o.length ++ [c]))
      (entriesToJson g17 es cap (full o) >>= close cap c)
  | [], cap, hcap, c, o => closes_close hcap c o
  | (k, v) :: es, cap, hcap, c, o => by
    rw [entriesToJson, SafeEntries, entriesWritten]
    by_cases hroom : o.length + 32 < cap
    · rw [if_pos (show (full o).pos + 32 < cap from hroom), if_pos hroom, if_pos hroom]
      have hk := escapeJsonString_eq k (show 0 < cap - o.length by omega)
      have hklen := length_stringWritten k (cap - o.length)
      rw [embed_full hk.1, Run.done_bind]
      rw [hklen] at hk
      dsimp only
      by_cases hcolon : o.length + stringSize k (cap - o.length) + 2 < cap
      · have hpos : ¬(full (o ++ stringWritten k (cap - o.length))).pos + 2 ≥ cap := by
          rw [full, List.length_append, hklen]
          exact Nat.not_le.mpr hcolon
        have hkey : (o ++ stringWritten k (cap - o.length) ++ [0x3a]).length =
            o.length + stringSize k (cap - o.length) + 1 := by
          rw [List.length_append, List.length_append, hklen, List.length_singleton]
        have htext (t : Bytes) : o ++ (stringWritten k (cap - o.length) ++ 0x3a :: t ++ [c]) =
            o ++ stringWritten k (cap - o.length) ++ [0x3a] ++ (t ++ [c]) := by simp
        rw [if_neg hpos, if_pos hcolon, if_pos hcolon, put_full _ (by rw [List.length_append, hklen]; omega),
          Run.done_bind, htext, ← hkey]
        have hfits : (o ++ stringWritten k (cap - o.length) ++ [0x3a]).length < cap := by omega
        generalize o ++ stringWritten k (cap - o.length) ++ [0x3a] = u at hfits ⊢
        have hlen := length_written g17 v (cap - u.length)
        have hrest := entriesToJson_closes es hcap c
          (u ++ (written g17 v (cap - u.length) ++ comma (!es.isEmpty) cap (u.length + size g17 v (cap - u.length))))
        have hnext := closes_next g17 hcap c (by omega) (valueToJson_ends v (by omega)) (!es.isEmpty)
          (fun b => entriesToJson_of_le g17 es) hrest
        simp only [List.length_append, hlen, List.append_assoc, ← Nat.add_assoc] at hnext ⊢
        exact hnext
      · have hpos : (full (o ++ stringWritten k (cap - o.length))).pos + 2 ≥ cap := by
          rw [full, List.length_append, hklen]
          exact Nat.not_lt.mp hcolon
        have hclose := closes_close hcap c (o ++ stringWritten k (cap - o.length))
        rw [List.length_append, hklen, List.append_assoc] at hclose
        rw [if_pos hpos, if_neg hcolon, if_neg hcolon]
        exact hclose
    · rw [if_neg (show ¬(full o).pos + 32 < cap from hroom), if_neg hroom, if_neg hroom]
      exact closes_close hcap c o

end

/-- It stays in the buffer, and returns the number of bytes before the NUL. -/
def Stays (cap : ℕ) (r : Run Unit Filled) : Prop := ∃ o : Bytes, r = .done ⟨o, o.length⟩ ∧ o.length < cap

theorem Overruns.not_stays {cap : ℕ} {r : Run Unit Filled} (h : Overruns cap r) : ¬Stays cap r := by
  rintro ⟨o, hdone, hlen⟩
  rcases h with h | ⟨b, h, hb⟩
  · exact nomatch h.symm.trans hdone
  · rw [Run.done.inj (h.symm.trans hdone)] at hb
    exact absurd hlen (Nat.not_lt.mpr hb)

/-- **When `value_to_json` stays in its buffer.** -/
theorem valueToJson_stays_iff (v : RVal) {cap : ℕ} (hcap : 0 < cap) :
    Stays cap (valueToJson g17 v cap) ↔ Safe g17 v cap := by
  have h := valueToJson_ends g17 v hcap
  exact ⟨fun hstays => by_contra fun hno => (h.overruns hno).not_stays hstays, fun hsafe => ⟨_, h.stays hsafe⟩⟩

end Stays

end VelocityMcp.Guest.Mruby
