import VelocityMcp.Guest.Lua
import VelocityMcp.Lib.Binary64
import VelocityMcp.Lib.Fuel

/-!
# Guest.LuaEncoder — `json_encode` of the Lua guest (`lua_wasi.c`) and its buffer (`lauxlib.c`)

`spells_encodeValue`: what the parser reads from the text of a value.  The temporaries of `luaL_tolstring` and
`luaL_pushresult` are not counted among the slots.
-/

namespace VelocityMcp.Guest.LuaEncoder

open Lib

/-! ## The buffer -/

/-- A text for the buffer; so many values lie on the stack above the slot of the buffer. -/
structure Request where
  above : ℕ
  text : Bytes

/-- A `luaL_Buffer`. -/
structure Buffer where
  chars : Bytes
  size : ℕ

/-- `LUAL_BUFFERSIZE`, with pointers of four bytes. -/
def bufferSize : ℕ := 16 * 4 * 8

/-- `LUA_MINSTACK`: what a C function may use of the stack. -/
def minStack : ℕ := 20

/-- `newbuffsize`. -/
def newSize (b : Buffer) (n : ℕ) : ℕ := max (b.size / 2 * 3) (b.chars.length + n)

/-- `luaL_addlstring`.  `prepbuffsize` puts the larger buffer in the place of what lies on the top of the stack: where
that is another value, the buffer is freed when the value is popped. -/
def Buffer.add (slots : ℕ) (q : Request) (b : Buffer) : Run Unit Buffer :=
  if slots ≤ q.above then .undefined
  else if q.text.length ≤ b.size - b.chars.length then .done ⟨b.chars ++ q.text, b.size⟩
  else if q.above = 0 then .done ⟨b.chars ++ q.text, newSize b q.text.length⟩
  else .undefined

def run (slots : ℕ) : List Request → Buffer → Run Unit Buffer
  | [], b => .done b
  | q :: qs, b => b.add slots q >>= run slots qs

@[grind =] def textOf (qs : List Request) : Bytes := qs.flatMap Request.text

/-- No request is made with the Lua stack full. -/
def HasSlots (slots : ℕ) (qs : List Request) : Prop := ∀ q ∈ qs, q.above < slots

instance (slots : ℕ) (qs : List Request) : Decidable (HasSlots slots qs) :=
  inferInstanceAs (Decidable (∀ q ∈ qs, q.above < slots))

/-- Where the buffer has to grow, it lies on the top of the stack. -/
@[grind =] def GrowsOnTop : Buffer → List Request → Prop
  | _, [] => True
  | b, q :: qs =>
    if q.text.length ≤ b.size - b.chars.length then GrowsOnTop ⟨b.chars ++ q.text, b.size⟩ qs
    else q.above = 0 ∧ GrowsOnTop ⟨b.chars ++ q.text, newSize b q.text.length⟩ qs

section Buffer

variable {slots : ℕ} {qs : List Request} {b b' : Buffer}

@[simp] theorem textOf_nil : textOf [] = [] := rfl

@[simp] theorem textOf_cons (q : Request) (qs : List Request) : textOf (q :: qs) = q.text ++ textOf qs := rfl

@[simp] theorem textOf_append (qs rs : List Request) : textOf (qs ++ rs) = textOf qs ++ textOf rs := List.flatMap_append

theorem run_done (hslots : HasSlots slots qs) (hgrows : GrowsOnTop b qs) :
    ∃ size, run slots qs b = .done ⟨b.chars ++ textOf qs, size⟩ := by
  induction qs generalizing b with
  | nil => exact ⟨b.size, by rw [run, textOf_nil, List.append_nil]⟩
  | cons q qs ih =>
    have hslot : ¬slots ≤ q.above := Nat.not_le.mpr (hslots q List.mem_cons_self)
    have hrest : HasSlots slots qs := fun r hr => hslots r (List.mem_cons_of_mem _ hr)
    rw [GrowsOnTop] at hgrows
    rw [run, Buffer.add, if_neg hslot, textOf_cons, ← List.append_assoc]
    by_cases hroom : q.text.length ≤ b.size - b.chars.length
    · rw [if_pos hroom] at hgrows ⊢
      exact ih hrest hgrows
    · rw [if_neg hroom] at hgrows ⊢
      rw [if_pos hgrows.1]
      exact ih hrest hgrows.2

/-- The buffer holds the text in the end. -/
theorem of_run_done (h : run slots qs b = .done b') : HasSlots slots qs ∧ GrowsOnTop b qs := by
  induction qs generalizing b with
  | nil => exact ⟨fun _ hq => (nomatch hq), trivial⟩
  | cons q qs ih =>
    obtain ⟨c, hadd, hrun⟩ := Run.bind_eq_done.mp h
    obtain ⟨hslots, hgrows⟩ := ih hrun
    rw [Buffer.add] at hadd
    rw [GrowsOnTop]
    by_cases hslot : slots ≤ q.above
    · rw [if_pos hslot] at hadd
      exact nomatch hadd
    have hall : HasSlots slots (q :: qs) := List.forall_mem_cons.mpr ⟨Nat.not_le.mp hslot, hslots⟩
    rw [if_neg hslot] at hadd
    by_cases hroom : q.text.length ≤ b.size - b.chars.length
    · rw [if_pos hroom] at hadd ⊢
      exact ⟨hall, Run.done.inj hadd ▸ hgrows⟩
    · rw [if_neg hroom] at hadd ⊢
      split_ifs at hadd with htop
      exact ⟨hall, htop, Run.done.inj hadd ▸ hgrows⟩

theorem growsOnTop_of_le (h : b.chars.length + (textOf qs).length ≤ b.size) : GrowsOnTop b qs := by
  induction qs generalizing b with
  | nil => trivial
  | cons q qs ih =>
    rw [textOf_cons, List.length_append] at h
    rw [GrowsOnTop, if_pos (by omega)]
    apply ih
    show (b.chars ++ q.text).length + _ ≤ b.size
    rw [List.length_append]
    omega

theorem length_le_of_growsOnTop {rs : List Request} (hb : b.chars.length ≤ b.size) (h : GrowsOnTop b (qs ++ rs))
    (habove : ∀ q ∈ qs, q.above ≠ 0) : b.chars.length + (textOf qs).length ≤ b.size := by
  induction qs generalizing b with
  | nil => exact hb
  | cons q qs ih =>
    rw [List.cons_append, GrowsOnTop] at h
    by_cases hroom : q.text.length ≤ b.size - b.chars.length
    · rw [if_pos hroom] at h
      have hlen : (b.chars ++ q.text).length = b.chars.length + q.text.length := List.length_append
      have hrest := ih (by dsimp only; omega) h fun r hr => habove r (List.mem_cons_of_mem _ hr)
      rw [textOf_cons, List.length_append]
      dsimp only at hrest
      omega
    · rw [if_neg hroom] at h
      exact absurd h.1 (habove q List.mem_cons_self)

end Buffer

/-! ## The encoder -/

inductive Key where
  | integer (i : Int64)
  | number (bits : UInt64)
  | string (chars : Bytes)
  | other
deriving DecidableEq

/-- A value of the guest. -/
inductive Val where
  | nil
  | boolean (b : Bool)
  | integer (i : Int64)
  | number (bits : UInt64)
  | string (chars : Bytes)
  /-- A table, with its entries in the order of `lua_next`. -/
  | table (entries : List (Key × Val))
  | other

section Encoder

variable (g17 : F64Text)

/-- `%lld`. -/
def integerText (i : Int64) : Bytes := utf8 (toString i.toInt)

/-- `json_encode_string`. -/
def encodeString (above : ℕ) (s : Bytes) : List Request :=
  ⟨above, [0x22]⟩ :: (s.map (fun c => ⟨above, escapeByte c⟩) ++ [⟨above, [0x22]⟩])

/-- The loop of `is_array_table`: the keys come as they are counted. -/
def isArrayFrom : ℕ → List (Key × Val) → Bool
  | _, [] => true
  | n, (.integer k, _) :: es => k.toInt = n && isArrayFrom (n + 1) es
  | _, _ :: _ => false

def isArrayTable (entries : List (Key × Val)) : Bool := isArrayFrom 1 entries

/-- What `is_array_table` puts on the stack: the table, and a key with its value. -/
def lookRequest (above : ℕ) (entries : List (Key × Val)) : Request := ⟨above + if entries.isEmpty then 2 else 3, []⟩

def encodeKey (above : ℕ) : Key → List Request
  | .string s => encodeString above s
  | .integer i => [⟨above, 0x22 :: (integerText i ++ [0x22])⟩]
  | .number bits => [⟨above, 0x22 :: (g17 bits ++ [0x22])⟩]
  | .other => []

/-- Nothing is written so deep. -/
def cut (depth above : ℕ) (qs : List Request) : List Request := if 32 < depth then [⟨above, utf8 "null"⟩] else qs

mutual

/-- `json_encode_value`. -/
@[grind =] def encodeValue : ℕ → ℕ → Val → List Request
  | depth, above, .nil => cut depth above [⟨above, utf8 "null"⟩]
  | depth, above, .boolean b => cut depth above [⟨above, if b then utf8 "true" else utf8 "false"⟩]
  | depth, above, .integer i => cut depth above [⟨above, integerText i⟩]
  | depth, above, .number bits => cut depth above [⟨above, if f64Finite bits then g17 bits else utf8 "null"⟩]
  | depth, above, .string s => cut depth above (encodeString above s)
  | depth, above, .table entries => cut depth above (lookRequest above entries ::
      if isArrayTable entries then ⟨above, [0x5b]⟩ :: (encodeItems depth above true entries ++ [⟨above, [0x5d]⟩])
      else ⟨above, [0x7b]⟩ :: (encodeMembers depth above true entries ++ [⟨above, [0x7d]⟩]))
  | depth, above, .other => cut depth above [⟨above, utf8 "null"⟩]

/-- The entries of an array table are its items, in their order; each lies above the table. -/
def encodeItems (depth above : ℕ) : Bool → List (Key × Val) → List Request
  | _, [] => []
  | first, (_, v) :: es =>
    (if first then [] else [⟨above, [0x2c]⟩]) ++ encodeValue (depth + 1) (above + 1) v ++
      encodeItems depth above false es

/-- Each entry lies above a copy of the table, the key first. -/
def encodeMembers (depth above : ℕ) : Bool → List (Key × Val) → List Request
  | _, [] => []
  | first, (k, v) :: es =>
    (if first then [] else [⟨above + 3, [0x2c]⟩]) ++ encodeKey g17 (above + 3) k ++
      ⟨above + 3, [0x3a]⟩ :: encodeValue (depth + 1) (above + 3) v ++ encodeMembers depth above false es

end

/-- `c_json_encode`. -/
def jsonEncode (slots : ℕ) (v : Val) : Run Unit Bytes := do
  let b ← run slots (encodeValue g17 0 0 v) ⟨[], bufferSize⟩
  .done b.chars

end Encoder

/-! ## The values that are meant -/

/-- The keys are `1` to `n`, in whatever order. -/
def IsSequence (entries : List (Key × Val)) : Prop :=
  ∃ is : List Int64, entries.map Prod.fst = is.map .integer ∧
    (is.map Int64.toInt).Perm ((List.range entries.length).map fun i : ℕ => (i : ℤ) + 1)

/-- The keys are strings, no two of them the same. -/
def IsRecord (entries : List (Key × Val)) : Prop :=
  (∀ e ∈ entries, ∃ s, e.1 = .string s) ∧ (entries.map Prod.fst).Nodup

/-- A value of booleans, integers, finite floats, strings, sequences and tables with string keys, of at most so many
levels. -/
inductive Encodable : ℕ → Val → Prop
  | boolean (n : ℕ) (b : Bool) : Encodable n (.boolean b)
  | integer (n : ℕ) (i : Int64) : Encodable n (.integer i)
  | number (n : ℕ) (bits : UInt64) (hfin : f64Finite bits) : Encodable n (.number bits)
  | string (n : ℕ) (s : Bytes) : Encodable n (.string s)
  | table (n : ℕ) (entries : List (Key × Val)) (hkeys : IsSequence entries ∨ IsRecord entries)
      (hentries : ∀ e ∈ entries, Encodable n e.2) : Encodable (n + 1) (.table entries)

mutual

/-- It holds of the value and of every value in it. -/
def Val.All (P : Val → Prop) : Val → Prop
  | .nil => P .nil
  | .boolean b => P (.boolean b)
  | .integer i => P (.integer i)
  | .number bits => P (.number bits)
  | .string s => P (.string s)
  | .table entries => P (.table entries) ∧ allEntries P entries
  | .other => P .other

def allEntries (P : Val → Prop) : List (Key × Val) → Prop
  | [] => True
  | (_, v) :: es => v.All P ∧ allEntries P es

end

theorem all_table {P : Val → Prop} {entries : List (Key × Val)} :
    (Val.table entries).All P ↔ P (.table entries) ∧ ∀ e ∈ entries, e.2.All P := by
  have hentries : ∀ es, allEntries P es ↔ ∀ e ∈ es, e.2.All P := by
    intro es
    induction es with
    | nil => simp [allEntries]
    | cons e es ih => rw [allEntries, ih, List.forall_mem_cons]
  rw [Val.All, hentries]

/-! ## What is read from the text -/

section Text

variable (g17 : F64Text)

@[grind =] def pointed (t : Bytes) : Bool := 0x2e ∈ t || 0x65 ∈ t

/-- What a key is read as, if it is an integer or a string. -/
def keyBytes : Key → Bytes
  | .integer i => integerText i
  | .string s => s
  | _ => []

mutual

/-- What the parser reads from the text of a value. -/
def rawOf : Val → Raw
  | .nil => .nil
  | .boolean b => .boolean b
  | .integer i => .number false (integerText i)
  | .number bits => .number (pointed (g17 bits)) (g17 bits)
  | .string s => .string (spoken s)
  | .table entries => if isArrayTable entries then .array (rawItems entries) else .object (rawMembers entries)
  | .other => .nil

def rawItems : List (Key × Val) → List Raw
  | [] => []
  | (_, v) :: es => rawOf v :: rawItems es

def rawMembers : List (Key × Val) → List (Option Bytes × Raw)
  | [] => []
  | (k, v) :: es => (some (spoken (keyBytes k)), rawOf v) :: rawMembers es

end

/-- `printf` and `strtod`, on a double: a numeral that is short enough; without a point, it has at most 17 digits and is
the double; with one, it is read as the double. -/
def FloatsPrint (strtod : Strtod) : Val → Prop
  | .number bits => ∃ sign whole fraction exponent, Numeral sign whole fraction exponent ∧
      g17 bits = sign ++ whole ++ fraction ++ exponent ∧ (g17 bits).length ≤ 63 ∧
      if fraction = [] ∧ exponent = [] then
        whole.length ≤ 17 ∧
          binary64 bits.toNat = if sign = [] then (decimalValue whole : ℚ) else -(decimalValue whole : ℚ)
      else strtod (g17 bits) = bits
  | _ => True

variable {g17}

theorem rawItems_eq_map (es : List (Key × Val)) : rawItems g17 es = es.map fun e => rawOf g17 e.2 := by
  induction es with
  | nil => rfl
  | cons e es ih => rw [rawItems, ih, List.map_cons]

theorem rawMembers_eq_map (es : List (Key × Val)) :
    rawMembers g17 es = es.map fun e => (some (spoken (keyBytes e.1)), rawOf g17 e.2) := by
  induction es with
  | nil => rfl
  | cons e es ih => rw [rawMembers, ih, List.map_cons]

theorem textOf_encodeString (above : ℕ) (s : Bytes) : textOf (encodeString above s) = quoted s := by
  have hbody : textOf (s.map fun c => (⟨above, escapeByte c⟩ : Request)) = s.flatMap escapeByte := by
    rw [textOf, List.flatMap_map]
  rw [encodeString, textOf_cons, textOf_append, hbody]
  rfl

/-! ### Integers -/

theorem integerText_of_nonneg {i : Int64} (h : 0 ≤ i.toInt) : integerText i = natText i.toInt.toNat := by
  rw [integerText, ← utf8_toString_nat]
  conv_lhs => rw [← Int.toNat_of_nonneg h]
  rfl

theorem integerText_of_neg {i : Int64} (h : i.toInt < 0) : integerText i = 0x2d :: natText i.toInt.natAbs :=
  utf8_toString_neg h

theorem digits_natText (n : ℕ) : Digits (natText n) := fun _ hc => isDigit_of_mem_natText hc

theorem numeral_integerText (i : Int64) :
    ∃ sign whole, Numeral sign whole [] [] ∧ integerText i = sign ++ whole ∧ (integerText i).length ≤ 63 := by
  have hlow := i.le_toInt
  have hhigh := i.toInt_lt
  rcases lt_or_ge i.toInt 0 with hneg | hpos
  · have hlen := length_natText_le (n := i.toInt.natAbs) (k := 20) (by decide) (by omega)
    refine ⟨[0x2d], natText i.toInt.natAbs, ⟨.inr rfl, ⟨natText_ne_nil _, digits_natText _⟩, .inl rfl, .inl rfl⟩,
      integerText_of_neg hneg, ?_⟩
    rw [integerText_of_neg hneg, List.length_cons]
    omega
  · have hlen := length_natText_le (n := i.toInt.toNat) (k := 20) (by decide) (by omega)
    refine ⟨[], natText i.toInt.toNat, ⟨.inl rfl, ⟨natText_ne_nil _, digits_natText _⟩, .inl rfl, .inl rfl⟩,
      integerText_of_nonneg hpos, ?_⟩
    rw [integerText_of_nonneg hpos]
    omega

theorem strtoll_integerText (i : Int64) : strtoll (integerText i) = i := by
  have hlow := i.le_toInt
  have hhigh := i.toInt_lt
  rcases lt_or_ge i.toInt 0 with hneg | hpos
  · have habs : max (-2 ^ 63 : ℤ) (-(i.toInt.natAbs : ℤ)) = i.toInt := by omega
    rw [integerText_of_neg hneg, strtoll_neg, habs, Int64.ofInt_toInt]
  · have hmin : min (2 ^ 63 - 1 : ℤ) (i.toInt.toNat : ℤ) = i.toInt := by omega
    rw [integerText_of_nonneg hpos, strtoll_natText, hmin, Int64.ofInt_toInt]

theorem escapeByte_of_numeral {c : UInt8} (hc : c = 0x2d ∨ isDigit c = true) : escapeByte c = [c] := by
  have hne : ∀ x : UInt8, x ≠ 0x2d → isDigit x = false → c ≠ x := fun x => ne_of_numeral_head hc
  have hlow : ¬c < 0x20 := by
    rcases hc with rfl | hc
    · decide
    · rw [isDigit, Bool.and_eq_true, decide_eq_true_iff, decide_eq_true_iff] at hc
      exact UInt8.not_lt.mpr (UInt8.le_trans (by decide) hc.1)
  rw [escapeByte, if_neg (hne _ (by decide) (by decide)), if_neg (hne _ (by decide) (by decide)),
    if_neg (hne _ (by decide) (by decide)), if_neg (hne _ (by decide) (by decide)),
    if_neg (hne _ (by decide) (by decide)), if_neg (hne _ (by decide) (by decide)),
    if_neg (hne _ (by decide) (by decide)), if_neg hlow]

theorem quoted_integerText (i : Int64) : quoted (integerText i) = 0x22 :: (integerText i ++ [0x22]) := by
  have hall : ∀ c ∈ integerText i, escapeByte c = [c] := by
    intro c hc
    apply escapeByte_of_numeral
    rcases lt_or_ge i.toInt 0 with hneg | hpos
    · rw [integerText_of_neg hneg] at hc
      exact (List.mem_cons.mp hc).imp id isDigit_of_mem_natText
    · rw [integerText_of_nonneg hpos] at hc
      exact .inr (isDigit_of_mem_natText hc)
  rw [quoted, List.flatMap_congr hall, List.flatMap_singleton']

/-! ### Values -/

/-- A string or an integer. -/
def Named (k : Key) : Prop := (∃ s, k = .string s) ∨ ∃ i, k = .integer i

theorem textOf_encodeKey {k : Key} (hk : Named k) (above : ℕ) : textOf (encodeKey g17 above k) = quoted (keyBytes k) := by
  rcases hk with ⟨s, rfl⟩ | ⟨i, rfl⟩
  · exact textOf_encodeString above s
  · rw [encodeKey, textOf_cons, textOf_nil, List.append_nil, keyBytes, quoted_integerText]

theorem IsSequence.named {entries : List (Key × Val)} (h : IsSequence entries) : ∀ e ∈ entries, Named e.1 := by
  intro e he
  obtain ⟨is, hkeys, -⟩ := h
  have hmem := List.mem_map_of_mem (f := Prod.fst) he
  rw [hkeys] at hmem
  obtain ⟨i, -, hi⟩ := List.mem_map.mp hmem
  exact .inr ⟨i, hi.symm⟩

theorem IsRecord.named {entries : List (Key × Val)} (h : IsRecord entries) : ∀ e ∈ entries, Named e.1 :=
  fun e he => .inl (h.1 e he)

theorem textOf_encodeItems (depth above : ℕ) (es : List (Key × Val)) :
    textOf (encodeItems g17 depth above false es) =
      moreTexts (es.map fun e => textOf (encodeValue g17 (depth + 1) (above + 1) e.2)) := by
  induction es with
  | nil => rfl
  | cons e es ih =>
    rw [encodeItems, textOf_append, ih]
    simp [moreTexts]

theorem textOf_encodeMembers (depth above : ℕ) {es : List (Key × Val)} (hes : ∀ e ∈ es, Named e.1) :
    textOf (encodeMembers g17 depth above false es) =
      moreTexts (es.map fun e =>
        quoted (keyBytes e.1) ++ 0x3a :: textOf (encodeValue g17 (depth + 1) (above + 3) e.2)) := by
  induction es with
  | nil => rfl
  | cons e es ih =>
    rw [encodeMembers, textOf_append, ih fun d hd => hes d (List.mem_cons_of_mem _ hd)]
    simp [moreTexts, textOf_encodeKey (hes e List.mem_cons_self)]

variable {strtod : Strtod}

theorem spells_integer (i : Int64) (n : ℕ) :
    Spells (parseValue false (n + 1)) (integerText i) (.number false (integerText i)) := by
  obtain ⟨sign, whole, hnum, heq, hlen⟩ := numeral_integerText i
  have hspells := @spells_numeral _ _ _ _ false hnum (by simpa [← heq] using hlen) n
  simpa [← heq] using hspells

theorem pointed_eq {sign whole fraction exponent : Bytes} (h : Numeral sign whole fraction exponent) :
    pointed (sign ++ whole ++ fraction ++ exponent) = (fraction ≠ [] || exponent ≠ [] : Bool) := by
  have hno {ds : Bytes} (hds : Digits ds) {x : UInt8} (hx : isDigit x = false) : x ∉ ds :=
    fun hmem => isDigit_ne (hds x hmem) hx rfl
  have hsign : 0x2e ∉ sign ∧ 0x65 ∉ sign := by rcases h.sign with rfl | rfl <;> decide
  have hwhole : 0x2e ∉ whole ∧ 0x65 ∉ whole := ⟨hno h.whole.2 (by decide), hno h.whole.2 (by decide)⟩
  rcases h.fraction with rfl | ⟨ds, hds, rfl⟩
  · rcases h.exponent with rfl | ⟨s, es, -, -, -, rfl⟩
    · simp [pointed, hsign, hwhole]
    · simp [pointed]
  · simp [pointed]

theorem spells_double {bits : UInt64} (h : FloatsPrint g17 strtod (.number bits)) (n : ℕ) :
    Spells (parseValue false (n + 1)) (g17 bits) (.number (pointed (g17 bits)) (g17 bits)) := by
  obtain ⟨sign, whole, fraction, exponent, hnum, heq, hlen, -⟩ := h
  have hspells := @spells_numeral _ _ _ _ false hnum (by rwa [← heq]) n
  rwa [← pointed_eq hnum, ← heq] at hspells

theorem cut_of_le {depth n : ℕ} (h : depth + n ≤ 32) (above : ℕ) (qs : List Request) : cut depth above qs = qs :=
  if_neg (by omega)

/-- **What the parser reads from the text of a value.** -/
theorem spells_encodeValue {n : ℕ} {v : Val} (h : Encodable n v) (hfloats : v.All (FloatsPrint g17 strtod)) :
    ∀ {depth above m : ℕ}, depth + n ≤ 32 → n < m →
      Spells (parseValue false m) (textOf (encodeValue g17 depth above v)) (rawOf g17 v) := by
  induction h with
  | boolean n b =>
    rintro depth above (_ | m) hdepth hm
    · exact absurd hm (Nat.not_lt_zero _)
    · rw [encodeValue, cut_of_le hdepth]
      cases b <;> exact ⟨⟨_, _, rfl, by decide, by decide⟩, fun rest _ => rfl⟩
  | integer n i =>
    rintro depth above (_ | m) hdepth hm
    · exact absurd hm (Nat.not_lt_zero _)
    · rw [encodeValue, cut_of_le hdepth, textOf_cons, textOf_nil, List.append_nil]
      exact spells_integer i m
  | number n bits hfin =>
    rintro depth above (_ | m) hdepth hm
    · exact absurd hm (Nat.not_lt_zero _)
    · rw [encodeValue, cut_of_le hdepth, if_pos hfin, textOf_cons, textOf_nil, List.append_nil]
      exact spells_double hfloats m
  | string n s =>
    rintro depth above (_ | m) hdepth hm
    · exact absurd hm (Nat.not_lt_zero _)
    · rw [encodeValue, cut_of_le hdepth, textOf_encodeString]
      exact spells_quoted s m
  | table n entries hkeys hentries ih =>
    rintro depth above (_ | m) hdepth hm
    · exact absurd hm (Nat.not_lt_zero _)
    rw [all_table] at hfloats
    have hnamed : ∀ e ∈ entries, Named e.1 := hkeys.elim IsSequence.named IsRecord.named
    have hread : ∀ e ∈ entries, ∀ above, Spells (parseValue false m)
        (textOf (encodeValue g17 (depth + 1) above e.2)) (rawOf g17 e.2) :=
      fun e he above => ih e he (hfloats.2 e he) (by omega) (Nat.lt_of_succ_lt_succ hm)
    rw [encodeValue, cut_of_le hdepth, rawOf, textOf_cons]
    cases entries with
    | nil => exact ⟨⟨_, _, rfl, by decide, by decide⟩, fun rest _ => rfl⟩
    | cons e es =>
      have hfirst := List.mem_cons_self (a := e) (l := es)
      split_ifs with harray
      · have hspells := @spells_array false _ _ _
          (es.map fun d => (textOf (encodeValue g17 (depth + 1) (above + 1) d.2), rawOf g17 d.2))
          (hread e hfirst (above + 1)) (fun d hd => by
            obtain ⟨w, hw, rfl⟩ := List.mem_map.mp hd
            exact hread w (List.mem_cons_of_mem _ hw) _)
        rw [List.map_map, List.map_map] at hspells
        rw [rawItems, rawItems_eq_map, textOf_cons, textOf_append, encodeItems, textOf_append, textOf_encodeItems]
        simpa [Function.comp_def, lookRequest] using hspells
      · have hspells := @spells_object false _ _ _ (keyBytes e.1) (es.map fun d =>
            (keyBytes d.1, textOf (encodeValue g17 (depth + 1) (above + 3) d.2), rawOf g17 d.2))
          (hread e hfirst (above + 3)) (fun d hd => by
            obtain ⟨w, hw, rfl⟩ := List.mem_map.mp hd
            exact hread w (List.mem_cons_of_mem _ hw) _)
        rw [List.map_map, List.map_map] at hspells
        rw [rawMembers, rawMembers_eq_map, textOf_cons, textOf_append, encodeMembers, textOf_append,
          textOf_encodeMembers _ _ fun d hd => hnamed d (List.mem_cons_of_mem _ hd)]
        simpa [Function.comp_def, lookRequest, memberText, memberRead, textOf_encodeKey (hnamed e hfirst)] using hspells

theorem parse_encodeValue {v : Val} (h : Encodable 32 v) (hfloats : v.All (FloatsPrint g17 strtod)) :
    parse false (textOf (encodeValue g17 0 0 v)) = rawOf g17 v := by
  set t := textOf (encodeValue g17 0 0 v) with ht
  have hspells : Spells (parseValue false (max 32 t.length + 1)) t (rawOf g17 v) :=
    spells_encodeValue h hfloats (by decide) (Nat.lt_succ_of_le (le_max_left _ _))
  have hread := hspells.2 [] stops_nil
  rw [List.append_nil] at hread
  rw [parse, parseValue_stable (Nat.lt_succ_self _) (Nat.lt_succ_of_le (le_max_right 32 t.length)), hread]

end Text

end VelocityMcp.Guest.LuaEncoder
