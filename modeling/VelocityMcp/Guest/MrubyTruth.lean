import VelocityMcp.Guest.MrubyEncoder

/-!
# Guest.MrubyTruth — what the reply of the mruby guest denotes

`truthful_iff`: when the reply denotes the result.
-/

namespace VelocityMcp.Guest.Mruby

open Lib
open Lib.JsonSyntax (Tree Member SpellsByte IsNumber listed quotedBy readValue readItems readMembers)

/-! ## What a JSON value denotes -/

/-- The integer that a number is, if it has neither a fraction nor an exponent. -/
def integerOf (t : Bytes) : Option ℤ :=
  if t.head? = some 0x2d then if t.tail.all isDigit then some (-(decimalValue t.tail : ℤ)) else none
  else if t.all isDigit then some (decimalValue t) else none

variable (strtod : Bytes → UInt64)

mutual

/-- The JSON value denotes the Ruby value. -/
def Means : RVal → Tree → Prop
  | .nil, t => t = .null
  | .bool b, t => t = .bool b
  | .integer i, t => ∃ text, t = .number text ∧ integerOf text = some i.toInt
  | .float bits, t => ∃ text, t = .number text ∧ strtod text = bits
  | .string chars, t => t = .string chars
  | .symbol name, t => t = .string name
  | .array items, t => ∃ ts, t = .array ts ∧ MeansItems items ts
  | .hash entries, t => ∃ ms, t = .object ms ∧ (entries.map Prod.fst).Nodup ∧ MeansEntries entries ms
  | .other (some text), t => t = .string text
  | .other none, t => t = .null

def MeansItems : List RVal → List Tree → Prop
  | [], ts => ts = []
  | v :: vs, ts => ∃ u us, ts = u :: us ∧ Means v u ∧ MeansItems vs us

def MeansEntries : List (Bytes × RVal) → List (Bytes × Tree) → Prop
  | [], ms => ms = []
  | (k, v) :: es, ms => ∃ u us, ms = (k, u) :: us ∧ Means v u ∧ MeansEntries es us

end

/-- The reply is a JSON text that denotes the result. -/
def Truthful (g17 : F64Text) (v : RVal) : Prop :=
  ∃ o t, callToolReply g17 v = .done o ∧ JsonSyntax.read o = some t ∧ Means strtod v t

/-! ## What can be denoted, and what fits -/

mutual

/-- It holds of the value and of every value in it. -/
def RVal.All (P : RVal → Prop) : RVal → Prop
  | .nil => P .nil
  | .bool b => P (.bool b)
  | .integer i => P (.integer i)
  | .float bits => P (.float bits)
  | .string chars => P (.string chars)
  | .symbol name => P (.symbol name)
  | .array items => P (.array items) ∧ allItems P items
  | .hash entries => P (.hash entries) ∧ allEntries P entries
  | .other inspect => P (.other inspect)

def allItems (P : RVal → Prop) : List RVal → Prop
  | [] => True
  | v :: vs => v.All P ∧ allItems P vs

def allEntries (P : RVal → Prop) : List (Bytes × RVal) → Prop
  | [] => True
  | (_, v) :: es => v.All P ∧ allEntries P es

end

def IsText (s : Bytes) : Prop := (fromUtf8 s).isSome = true

instance (s : Bytes) : Decidable (IsText s) := inferInstanceAs (Decidable (_ = _))

/-- A JSON value can denote it: a float is finite, a string is text, and the keys of a hash differ. -/
def Denotable : RVal → Prop
  | .float bits => f64Finite bits
  | .string chars => IsText chars
  | .symbol name => IsText name
  | .hash entries => (∀ e ∈ entries, IsText e.1) ∧ (entries.map Prod.fst).Nodup
  | .other (some text) => IsText text
  | _ => True

/-- `printf` and `strtod`, on a double: a number that is read as the double; or the name of what is none. -/
def FloatsPrint (g17 : F64Text) : RVal → Prop
  | .float bits => (g17 bits).length ≤ 63 ∧
      if f64Finite bits then
        ∃ sign whole fraction exponent, IsNumber sign whole fraction exponent ∧
          g17 bits = sign ++ whole ++ fraction ++ exponent ∧ strtod (g17 bits) = bits
      else g17 bits ∈ [utf8 "inf", utf8 "-inf", utf8 "nan", utf8 "-nan"]
  | _ => True

variable (g17 : F64Text)

mutual

/-- The whole text of a value, and what is read from it. -/
def spelled : RVal → Bytes × Tree
  | .nil => (utf8 "null", .null)
  | .bool b => (if b then utf8 "true" else utf8 "false", .bool b)
  | .integer i => (utf8 (toString i.toInt), .number (utf8 (toString i.toInt)))
  | .float bits => (g17 bits, .number (g17 bits))
  | .string chars => (quotedBy escapeByte chars, .string chars)
  | .symbol name => (quotedBy escapeByte name, .string name)
  | .array items =>
    (0x5b :: (listed ((spelledItems items).map Prod.fst) ++ [0x5d]), .array ((spelledItems items).map Prod.snd))
  | .hash entries =>
    (0x7b :: (listed ((spelledEntries entries).map Member.written) ++ [0x7d]),
      .object ((spelledEntries entries).map Member.read))
  | .other (some text) => (quotedBy escapeByte text, .string text)
  | .other none => (utf8 "null", .null)

def spelledItems : List RVal → List (Bytes × Tree)
  | [] => []
  | v :: vs => spelled v :: spelledItems vs

def spelledEntries : List (Bytes × RVal) → List Member
  | [] => []
  | (k, v) :: es => ⟨quotedBy escapeByte k, (spelled v).1, k, (spelled v).2⟩ :: spelledEntries es

end

/-- Every character begins more than eight bytes before the end. -/
def CharsFit (cap : ℕ) : ℕ → Bytes → Prop
  | _, [] => True
  | p, c :: s => p + 8 < cap ∧ CharsFit cap (p + (escapeByte c).length) s

/-- The comma behind an item, if another one follows. -/
def commaSize (more : Bool) : ℕ := if more then 1 else 0

mutual

/-- Nothing is left out: every value has its room, every item begins more than 16 bytes before the end, every entry of
a hash more than 32. -/
def Whole : RVal → ℕ → Prop
  | .string chars, cap => 2 < cap ∧ CharsFit cap 1 chars
  | .symbol name, cap => 2 < cap ∧ CharsFit cap 1 name
  | .array items, cap => WholeItems items cap 1
  | .hash entries, cap => WholeEntries entries cap 1
  | .other (some text), cap => 2 < cap ∧ CharsFit cap 1 text
  | .nil, cap => 4 < cap
  | .bool b, cap => (if b then 4 else 5) < cap
  | .integer i, cap => (utf8 (toString i.toInt)).length < cap
  | .float bits, cap => (g17 bits).length < cap
  | .other none, cap => 4 < cap

def WholeItems : List RVal → ℕ → ℕ → Prop
  | [], cap, p => p + 1 < cap
  | v :: vs, cap, p =>
    p + 16 < cap ∧ Whole v (cap - p) ∧ WholeItems vs cap (p + (spelled g17 v).1.length + commaSize (!vs.isEmpty))

def WholeEntries : List (Bytes × RVal) → ℕ → ℕ → Prop
  | [], cap, p => p + 1 < cap
  | (k, v) :: es, cap, p =>
    p + 32 < cap ∧ CharsFit (cap - p) 1 k ∧
      let q := p + (quotedBy escapeByte k).length
      q + 2 < cap ∧ Whole v (cap - (q + 1)) ∧
        WholeEntries es cap (q + 1 + (spelled g17 v).1.length + commaSize (!es.isEmpty))

end

/-! ## What is spelled -/

theorem spellsByte_escapeByte (c : UInt8) : SpellsByte (escapeByte c) c := by
  rw [escapeByte]
  split_ifs with hquote hslash hb ht hn hf hr hlow
  · exact JsonSyntax.spellsByte_letter (by rw [hquote]; rfl)
  · exact JsonSyntax.spellsByte_letter (by rw [hslash]; rfl)
  · exact JsonSyntax.spellsByte_letter (by rw [hb]; rfl)
  · exact JsonSyntax.spellsByte_letter (by rw [ht]; rfl)
  · exact JsonSyntax.spellsByte_letter (by rw [hn]; rfl)
  · exact JsonSyntax.spellsByte_letter (by rw [hf]; rfl)
  · exact JsonSyntax.spellsByte_letter (by rw [hr]; rfl)
  · have hsmall : c.toNat < 0x20 := UInt8.lt_iff_toNat_lt.mp hlow
    have hdigits : ∀ n < 0x20, JsonSyntax.hexValue (hexDigit (UInt8.ofNat n / 16)) = some (n / 16) ∧
        JsonSyntax.hexValue (hexDigit (UInt8.ofNat n % 16)) = some (n % 16) := by decide +kernel
    have hc := hdigits c.toNat hsmall
    rw [UInt8.ofNat_toNat] at hc
    exact JsonSyntax.spellsByte_unit (by omega) hc.1 hc.2
  · exact JsonSyntax.spellsByte_plain hlow hquote hslash

theorem spells_string {s : Bytes} (h : IsText s) : JsonSyntax.Spells (quotedBy escapeByte s) (.string s) :=
  JsonSyntax.spells_quoted (fun c _ => spellsByte_escapeByte c) h

section Spelled

variable {strtod g17}

mutual

theorem spells_spelled : (v : RVal) → v.All (FloatsPrint strtod g17) → v.All Denotable →
    JsonSyntax.Spells (spelled g17 v).1 (spelled g17 v).2
  | .nil, _, _ => JsonSyntax.spells_null
  | .bool true, _, _ => JsonSyntax.spells_true
  | .bool false, _, _ => JsonSyntax.spells_false
  | .integer i, _, _ => JsonSyntax.spells_int i.toInt
  | .float bits, hprint, hfinite => by
    obtain ⟨-, hprint⟩ := hprint
    rw [if_pos (show f64Finite bits from hfinite)] at hprint
    obtain ⟨sign, whole, fraction, exponent, hnumber, htext, -⟩ := hprint
    rw [spelled, htext]
    exact JsonSyntax.spells_number hnumber
  | .string _, _, htext => spells_string htext
  | .symbol _, _, htext => spells_string htext
  | .array items, hprint, hdenotable =>
    JsonSyntax.spells_array (spells_spelledItems items hprint.2 hdenotable.2)
  | .hash entries, hprint, hdenotable =>
    JsonSyntax.spells_object (spells_spelledEntries entries hprint.2 hdenotable.1.1 hdenotable.2)
  | .other (some _), _, htext => spells_string htext
  | .other none, _, _ => JsonSyntax.spells_null

theorem spells_spelledItems : (vs : List RVal) → allItems (FloatsPrint strtod g17) vs → allItems Denotable vs →
    ∀ e ∈ spelledItems g17 vs, JsonSyntax.Spells e.1 e.2
  | [], _, _ => fun _ he => nomatch he
  | v :: vs, hprint, hdenotable =>
    List.forall_mem_cons.mpr ⟨spells_spelled v hprint.1 hdenotable.1, spells_spelledItems vs hprint.2 hdenotable.2⟩

theorem spells_spelledEntries : (es : List (Bytes × RVal)) → allEntries (FloatsPrint strtod g17) es →
    (∀ e ∈ es, IsText e.1) → allEntries Denotable es → ∀ m ∈ spelledEntries g17 es, m.Spells
  | [], _, _, _ => fun _ hm => nomatch hm
  | (k, v) :: es, hprint, hkeys, hdenotable => by
    obtain ⟨hk, hkeys⟩ := List.forall_mem_cons.mp hkeys
    refine List.forall_mem_cons.mpr ⟨⟨?_, spells_spelled v hprint.1 hdenotable.1⟩,
      spells_spelledEntries es hprint.2 hkeys hdenotable.2⟩
    exact JsonSyntax.spellsKey_quoted (fun c _ => spellsByte_escapeByte c) hk

end

theorem integerOf_toString (i : ℤ) : integerOf (utf8 (toString i)) = some i := by
  have hall (n : ℕ) : (natText n).all isDigit = true := List.all_eq_true.mpr fun c hc => isDigit_of_mem_natText hc
  rcases lt_or_ge i 0 with hneg | hpos
  · rw [utf8_toString_neg hneg, integerOf, if_pos List.head?_cons, List.tail_cons, if_pos (hall _),
      decimalValue_natText]
    exact congrArg some (by omega)
  · have hhead : (natText i.toNat).head? ≠ some 0x2d := fun h =>
      absurd (isDigit_of_mem_natText (List.mem_of_mem_head? h)) (by decide)
    rw [utf8_toString_of_nonneg hpos, integerOf, if_neg hhead, if_pos (hall _), decimalValue_natText]
    exact congrArg some (by omega)

mutual

theorem means_spelled : (v : RVal) → v.All (FloatsPrint strtod g17) → v.All Denotable →
    Means strtod v (spelled g17 v).2
  | .nil, _, _ => rfl
  | .bool _, _, _ => rfl
  | .integer i, _, _ => ⟨_, rfl, integerOf_toString i.toInt⟩
  | .float bits, hprint, hfinite => by
    obtain ⟨-, hprint⟩ := hprint
    rw [if_pos (show f64Finite bits from hfinite)] at hprint
    obtain ⟨sign, whole, fraction, exponent, -, -, hbits⟩ := hprint
    exact ⟨_, rfl, hbits⟩
  | .string _, _, _ => rfl
  | .symbol _, _, _ => rfl
  | .array items, hprint, hdenotable => ⟨_, rfl, means_spelledItems items hprint.2 hdenotable.2⟩
  | .hash entries, hprint, hdenotable =>
    ⟨_, rfl, hdenotable.1.2, means_spelledEntries entries hprint.2 hdenotable.2⟩
  | .other (some _), _, _ => rfl
  | .other none, _, _ => rfl

theorem means_spelledItems : (vs : List RVal) → allItems (FloatsPrint strtod g17) vs → allItems Denotable vs →
    MeansItems strtod vs ((spelledItems g17 vs).map Prod.snd)
  | [], _, _ => rfl
  | v :: vs, hprint, hdenotable =>
    ⟨_, _, rfl, means_spelled v hprint.1 hdenotable.1, means_spelledItems vs hprint.2 hdenotable.2⟩

theorem means_spelledEntries : (es : List (Bytes × RVal)) → allEntries (FloatsPrint strtod g17) es →
    allEntries Denotable es → MeansEntries strtod es ((spelledEntries g17 es).map Member.read)
  | [], _, _ => rfl
  | (_, v) :: es, hprint, hdenotable =>
    ⟨_, _, rfl, means_spelled v hprint.1 hdenotable.1, means_spelledEntries es hprint.2 hdenotable.2⟩

end

end Spelled

/-! ## What fits is written -/

section Whole

theorem keptChars_eq_iff {cap p : ℕ} {s : Bytes} : keptChars cap p s = s ↔ CharsFit cap p s := by
  induction s generalizing p with
  | nil => exact iff_of_true rfl trivial
  | cons c s ih =>
    rw [keptChars, CharsFit]
    split_ifs with h
    · rw [List.cons_inj_right, ih]
      exact (and_iff_right h).symm
    · exact iff_of_false not_false fun hfit => h hfit.1

theorem stringWritten_of_fit {cap : ℕ} (hcap : 2 < cap) {s : Bytes} (h : CharsFit cap 1 s) :
    stringWritten s cap = quotedBy escapeByte s := by
  rw [stringWritten, if_neg (Nat.not_le.mpr hcap), keptChars_eq_iff.mpr h]

theorem comma_of_lt {more : Bool} {cap q : ℕ} (h : more = true → q + 2 < cap) :
    comma more cap q = (if more then [0x2c] else []) ∧ (comma more cap q).length = commaSize more := by
  cases more with
  | false => exact ⟨if_neg fun hno => Bool.false_ne_true hno.1, rfl⟩
  | true =>
    have hcomma : comma true cap q = [0x2c] := if_pos ⟨rfl, h rfl⟩
    exact ⟨hcomma, congrArg List.length hcomma⟩

theorem lt_of_wholeItems {vs : List RVal} {cap q : ℕ} (h : WholeItems g17 vs cap q) : q + 1 < cap := by
  cases vs with
  | nil => exact h
  | cons v vs =>
    have := h.1
    omega

theorem lt_of_wholeEntries {es : List (Bytes × RVal)} {cap q : ℕ} (h : WholeEntries g17 es cap q) : q + 1 < cap := by
  cases es with
  | nil => exact h
  | cons e es =>
    have := h.1
    omega

variable {g17}

mutual

/-- **Where nothing is left out, the whole text is written**, inside the buffer. -/
theorem whole_written : (v : RVal) → {cap : ℕ} → Whole g17 v cap →
    written g17 v cap = (spelled g17 v).1 ∧ Safe g17 v cap
  | .nil, _, h => ⟨rfl, h⟩
  | .bool true, _, h => ⟨rfl, h⟩
  | .bool false, _, h => ⟨rfl, h⟩
  | .integer _, _, h => ⟨rfl, h⟩
  | .float _, _, h => ⟨rfl, h⟩
  | .string _, _, h => ⟨stringWritten_of_fit h.1 h.2, trivial⟩
  | .symbol _, _, h => ⟨stringWritten_of_fit h.1 h.2, trivial⟩
  | .array items, cap, h => by
    obtain ⟨hwritten, hsafe⟩ := whole_writtenItems items h
    have hcap := lt_of_wholeItems g17 h
    rw [written, if_neg (by omega), hwritten]
    exact ⟨rfl, fun _ => hsafe⟩
  | .hash entries, cap, h => by
    obtain ⟨hwritten, hsafe⟩ := whole_writtenEntries entries h
    have hcap := lt_of_wholeEntries g17 h
    rw [written, if_neg (by omega), hwritten]
    exact ⟨rfl, fun _ => hsafe⟩
  | .other (some _), _, h => ⟨stringWritten_of_fit h.1 h.2, trivial⟩
  | .other none, _, h => ⟨rfl, h⟩

theorem whole_writtenItems : (vs : List RVal) → {cap p : ℕ} → WholeItems g17 vs cap p →
    itemsWritten g17 vs cap p = listed ((spelledItems g17 vs).map Prod.fst) ∧ SafeItems g17 vs cap p
  | [], _, _, h => ⟨rfl, h⟩
  | v :: vs, cap, p, h => by
    obtain ⟨hroom, hv, hvs⟩ := h
    obtain ⟨hwritten, hsafe⟩ := whole_written v hv
    obtain ⟨hrest, hsafes⟩ := whole_writtenItems vs hvs
    have hlen := length_written g17 v (cap - p)
    rw [hwritten] at hlen
    have hnext := lt_of_wholeItems g17 hvs
    obtain ⟨hcomma, hsize⟩ := @comma_of_lt (!vs.isEmpty) cap (p + (spelled g17 v).1.length)
      (fun hmore => by rw [hmore] at hnext; exact hnext)
    rw [itemsWritten, SafeItems, if_pos hroom, if_pos hroom, ← hlen, hwritten, hsize]
    refine ⟨?_, hsafe, hsafes⟩
    dsimp only
    rw [List.length_append, hsize, ← Nat.add_assoc, hrest, hcomma]
    cases vs with
    | nil =>
      show (spelled g17 v).1 ++ [] ++ [] = listed [(spelled g17 v).1]
      rw [JsonSyntax.listed_singleton, List.append_nil, List.append_nil]
    | cons w ws =>
      show (spelled g17 v).1 ++ [0x2c] ++ _ = listed ((spelled g17 v).1 :: (spelled g17 w).1 :: _)
      rw [JsonSyntax.listed_cons_cons, List.append_assoc]
      rfl

theorem whole_writtenEntries : (es : List (Bytes × RVal)) → {cap p : ℕ} → WholeEntries g17 es cap p →
    entriesWritten g17 es cap p = listed ((spelledEntries g17 es).map Member.written) ∧ SafeEntries g17 es cap p
  | [], _, _, h => ⟨rfl, h⟩
  | (k, v) :: es, cap, p, h => by
    obtain ⟨hroom, hkey, hcolon, hv, hes⟩ := h
    obtain ⟨hwritten, hsafe⟩ := whole_written v hv
    obtain ⟨hrest, hsafes⟩ := whole_writtenEntries es hes
    have hk := stringWritten_of_fit (by omega) hkey
    have hklen := length_stringWritten k (cap - p)
    rw [hk] at hklen
    have hlen := length_written g17 v (cap - (p + (quotedBy escapeByte k).length + 1))
    rw [hwritten] at hlen
    have hnext := lt_of_wholeEntries g17 hes
    obtain ⟨hcomma, hsize⟩ := @comma_of_lt (!es.isEmpty) cap
      (p + (quotedBy escapeByte k).length + 1 + (spelled g17 v).1.length)
      (fun hmore => by rw [hmore] at hnext; exact hnext)
    rw [entriesWritten, SafeEntries, if_pos hroom, if_pos hroom]
    dsimp only
    rw [← hklen, if_pos hcolon, if_pos hcolon, ← hlen, hwritten, hsize]
    refine ⟨?_, hsafe, hsafes⟩
    rw [List.length_append, hsize, ← Nat.add_assoc, hrest, hcomma, hk]
    cases es with
    | nil =>
      show _ ++ 0x3a :: ((spelled g17 v).1 ++ [] ++ []) = listed [quotedBy escapeByte k ++ 0x3a :: (spelled g17 v).1]
      rw [JsonSyntax.listed_singleton, List.append_nil, List.append_nil]
    | cons e es =>
      obtain ⟨key, w⟩ := e
      show _ ++ 0x3a :: ((spelled g17 v).1 ++ [0x2c] ++ _) =
        listed ((quotedBy escapeByte k ++ 0x3a :: (spelled g17 v).1) ::
          (quotedBy escapeByte key ++ 0x3a :: (spelled g17 w).1) :: _)
      rw [JsonSyntax.listed_cons_cons, List.append_assoc, List.append_assoc]
      rfl

end

end Whole

/-! ## What does not fit, or cannot be denoted -/

section Cut

variable {strtod g17}

theorem readValue_of_not_finite {t : Bytes} (h : t ∈ [utf8 "inf", utf8 "-inf", utf8 "nan", utf8 "-nan"]) (n : ℕ)
    (rest : Bytes) : readValue n (t ++ rest) = none := by
  cases n with
  | zero => rfl
  | succ n =>
    simp only [List.mem_cons, List.not_mem_nil, or_false] at h
    rcases h with rfl | rfl | rfl | rfl <;> rfl

theorem stops_comma {more : Bool} {cap q : ℕ} {rest : Bytes} (h : ¬(more = true ∧ q + 2 < cap) → JsonSyntax.Stops rest) :
    JsonSyntax.Stops (comma more cap q ++ rest) := by
  rw [comma]
  split_ifs with hcomma
  · exact JsonSyntax.stops_cons (.inl rfl) _
  · exact h hcomma

theorem itemsWritten_of_le {vs : List RVal} {cap p : ℕ} (h : cap ≤ p + 16) : itemsWritten g17 vs cap p = [] := by
  cases vs with
  | nil => rfl
  | cons v vs => rw [itemsWritten, if_neg (Nat.not_lt.mpr h)]

theorem entriesWritten_of_le {es : List (Bytes × RVal)} {cap p : ℕ} (h : cap ≤ p + 32) :
    entriesWritten g17 es cap p = [] := by
  cases es with
  | nil => rfl
  | cons e es => rw [entriesWritten, if_neg (Nat.not_lt.mpr h)]

theorem stops_itemsWritten (vs : List RVal) (cap q : ℕ) (rest : Bytes) :
    JsonSyntax.Stops (comma (!vs.isEmpty) cap q ++
      (itemsWritten g17 vs cap (q + (comma (!vs.isEmpty) cap q).length) ++ 0x5d :: rest)) := by
  refine stops_comma fun hno => ?_
  have hnil : itemsWritten g17 vs cap (q + (comma (!vs.isEmpty) cap q).length) = [] := by
    cases vs with
    | nil => rfl
    | cons v vs =>
      have hle : cap ≤ q + 2 := Nat.not_lt.mp fun h => hno ⟨rfl, h⟩
      exact itemsWritten_of_le (by omega)
  rw [hnil]
  exact JsonSyntax.stops_cons (.inr (.inl rfl)) rest

theorem stops_entriesWritten (es : List (Bytes × RVal)) (cap q : ℕ) (rest : Bytes) :
    JsonSyntax.Stops (comma (!es.isEmpty) cap q ++
      (entriesWritten g17 es cap (q + (comma (!es.isEmpty) cap q).length) ++ 0x7d :: rest)) := by
  refine stops_comma fun hno => ?_
  have hnil : entriesWritten g17 es cap (q + (comma (!es.isEmpty) cap q).length) = [] := by
    cases es with
    | nil => rfl
    | cons e es =>
      have hle : cap ≤ q + 2 := Nat.not_lt.mp fun h => hno ⟨rfl, h⟩
      exact entriesWritten_of_le (by omega)
  rw [hnil]
  exact JsonSyntax.stops_cons (.inr (.inr rfl)) rest

theorem not_means_string {s : Bytes} {cap : ℕ} (hno : ¬((2 < cap ∧ CharsFit cap 1 s) ∧ IsText s)) {n : ℕ}
    {rest : Bytes} {t : Tree} {r : Bytes} (hrest : JsonSyntax.Stops rest)
    (hread : readValue n (stringWritten s cap ++ rest) = some (t, r)) : t ≠ .string s := by
  rintro rfl
  by_cases hcap : cap ≤ 2
  · rw [stringWritten, if_pos hcap, List.nil_append, JsonSyntax.readValue_of_stops hrest] at hread
    cases hread
  cases n with
  | zero => cases hread
  | succ n =>
    rw [stringWritten, if_neg hcap, JsonSyntax.readValue_quoted fun c _ => spellsByte_escapeByte c] at hread
    split_ifs at hread with htext
    have hkept : keptChars cap 1 s = s := Tree.string.inj (Prod.mk.inj (Option.some.inj hread)).1
    rw [hkept] at htext
    exact hno ⟨⟨Nat.not_le.mp hcap, keptChars_eq_iff.mp hkept⟩, htext⟩

mutual

/-- **What is left out is missing from what is read**, if anything is. -/
theorem not_means_written : (v : RVal) → {cap : ℕ} → v.All (FloatsPrint strtod g17) → Safe g17 v cap →
    ¬(Whole g17 v cap ∧ v.All Denotable) → {n : ℕ} → {rest : Bytes} → {t : Tree} → {r : Bytes} → JsonSyntax.Stops rest →
    readValue n (written g17 v cap ++ rest) = some (t, r) → ¬Means strtod v t
  | .nil, _, _, hsafe, hno, _, _, _, _, _, _ => absurd ⟨hsafe, trivial⟩ hno
  | .bool _, _, _, hsafe, hno, _, _, _, _, _, _ => absurd ⟨hsafe, trivial⟩ hno
  | .integer _, _, _, hsafe, hno, _, _, _, _, _, _ => absurd ⟨hsafe, trivial⟩ hno
  | .other none, _, _, hsafe, hno, _, _, _, _, _, _ => absurd ⟨hsafe, trivial⟩ hno
  | .float bits, cap, hprint, hsafe, hno, n, rest, _, _, _, hread => by
    obtain ⟨-, hprint⟩ := hprint
    rw [if_neg (show ¬f64Finite bits from fun hfinite => hno ⟨hsafe, hfinite⟩)] at hprint
    rw [written, readValue_of_not_finite hprint] at hread
    exact nomatch hread
  | .string _, _, _, _, hno, _, _, _, _, hrest, hread => not_means_string hno hrest hread
  | .symbol _, _, _, _, hno, _, _, _, _, hrest, hread => not_means_string hno hrest hread
  | .other (some _), _, _, _, hno, _, _, _, _, hrest, hread => not_means_string hno hrest hread
  | .array items, cap, hprint, hsafe, hno, n, rest, t, r, hrest, hread => by
    rintro ⟨ts, rfl, hmeans⟩
    rw [written] at hread
    by_cases hcap : cap ≤ 2
    · rw [if_pos hcap, List.nil_append, JsonSyntax.readValue_of_stops hrest] at hread
      exact nomatch hread
    rw [if_neg hcap, List.cons_append, List.append_assoc, List.singleton_append] at hread
    obtain ⟨m, hnil | ⟨ws, hws, hitems⟩⟩ := JsonSyntax.of_readValue_array hread
    · rw [Tree.array.inj hnil] at hmeans
      cases items with
      | nil => exact hno ⟨show 1 + 1 < cap by omega, trivial, trivial⟩
      | cons v vs =>
        obtain ⟨u, us, hcons, -⟩ := hmeans
        exact nomatch hcons
    · rw [Tree.array.inj hws] at hmeans
      exact not_means_itemsWritten items hprint.2 (hsafe (Nat.not_le.mp hcap))
        (fun hgood => hno ⟨hgood.1, trivial, hgood.2⟩) hitems hmeans
  | .hash entries, cap, hprint, hsafe, hno, n, rest, t, r, hrest, hread => by
    rintro ⟨ms, rfl, hnodup, hmeans⟩
    rw [written] at hread
    by_cases hcap : cap ≤ 2
    · rw [if_pos hcap, List.nil_append, JsonSyntax.readValue_of_stops hrest] at hread
      exact nomatch hread
    rw [if_neg hcap, List.cons_append, List.append_assoc, List.singleton_append] at hread
    obtain ⟨m, hnil | ⟨ws, hws, hentries⟩⟩ := JsonSyntax.of_readValue_object hread
    · rw [Tree.object.inj hnil] at hmeans
      cases entries with
      | nil => exact hno ⟨show 1 + 1 < cap by omega, ⟨fun e he => (nomatch he), hnodup⟩, trivial⟩
      | cons e es =>
        obtain ⟨u, us, hcons, -⟩ := hmeans
        exact nomatch hcons
    · rw [Tree.object.inj hws] at hmeans
      exact not_means_entriesWritten entries hprint.2 (hsafe (Nat.not_le.mp hcap))
        (fun hgood => hno ⟨hgood.1, ⟨hgood.2.1, hnodup⟩, hgood.2.2⟩) hentries hmeans

theorem not_means_itemsWritten : (vs : List RVal) → {cap p : ℕ} → allItems (FloatsPrint strtod g17) vs →
    SafeItems g17 vs cap p → ¬(WholeItems g17 vs cap p ∧ allItems Denotable vs) → {n k : ℕ} → {rest : Bytes} →
    {ts : List Tree} → {r : Bytes} →
    readItems (readValue n) k (itemsWritten g17 vs cap p ++ 0x5d :: rest) = some (ts, r) → ¬MeansItems strtod vs ts
  | [], _, _, _, hsafe, hno, _, _, _, _, _, _ => absurd ⟨hsafe, trivial⟩ hno
  | v :: vs, cap, p, hprint, hsafe, hno, n, k, rest, ts, r, hread => by
    rintro ⟨u, us, rfl, hu, hus⟩
    obtain ⟨k, w, s, rfl, hvalue, hthen⟩ := JsonSyntax.of_readItems hread
    rw [itemsWritten] at hvalue
    rw [SafeItems] at hsafe
    by_cases hroom : p + 16 < cap
    · have hlen := length_written g17 v (cap - p)
      rw [if_pos hroom] at hvalue hsafe
      dsimp only at hvalue
      rw [List.length_append, hlen, ← Nat.add_assoc, List.append_assoc, List.append_assoc] at hvalue
      have hstops := @stops_itemsWritten g17 vs cap (p + size g17 v (cap - p)) rest
      by_cases hgood : Whole g17 v (cap - p) ∧ v.All Denotable
      · have hwhole := (whole_written v hgood.1).1
        rw [hwhole] at hvalue hlen
        obtain ⟨-, rfl⟩ := (spells_spelled v hprint.1 hgood.2).eq_of_readValue hstops hvalue
        rw [← hlen] at hthen hsafe
        cases vs with
        | nil => exact hno ⟨⟨hroom, hgood.1, hsafe.2⟩, hgood.2, trivial⟩
        | cons x xs =>
          by_cases hmore : p + (spelled g17 v).1.length + 2 < cap
          · obtain ⟨hcomma, hsize⟩ :=
              @comma_of_lt (!(x :: xs).isEmpty) cap (p + (spelled g17 v).1.length) fun _ => hmore
            rw [hsize] at hthen hsafe
            rw [hcomma, if_pos (show (!(x :: xs).isEmpty) = true from rfl), List.singleton_append,
              JsonSyntax.skipBlanks_cons (by decide)] at hthen
            rcases hthen with ⟨u', y', hu', hrest, hy⟩ | ⟨u', hu', -⟩
            · obtain rfl := (List.cons.inj hu').2
              rw [(List.cons.inj (Prod.mk.inj hy).1).2] at hus
              exact not_means_itemsWritten (x :: xs) hprint.2 hsafe.2
                (fun h => hno ⟨⟨hroom, hgood.1, h.1⟩, hgood.2, h.2⟩) hrest hus
            · exact absurd (List.cons.inj hu').1 (by decide)
          · have hcomma : comma (!(x :: xs).isEmpty) cap (p + (spelled g17 v).1.length) = [] :=
              if_neg fun h => hmore h.2
            rw [hcomma, itemsWritten_of_le (by rw [List.length_nil]; omega), List.nil_append, List.nil_append,
              JsonSyntax.skipBlanks_cons (by decide)] at hthen
            rcases hthen with ⟨u', y', hu', -⟩ | ⟨u', -, hy⟩
            · exact absurd (List.cons.inj hu').1 (by decide)
            · rw [(List.cons.inj (Prod.mk.inj hy).1).2] at hus
              obtain ⟨z, zs, hnil, -⟩ := hus
              exact nomatch hnil
      · have hw : w = u := by
          rcases hthen with ⟨u', y', -, -, hy⟩ | ⟨u', -, hy⟩
          · exact (List.cons.inj (Prod.mk.inj hy).1).1.symm
          · exact (List.cons.inj (Prod.mk.inj hy).1).1.symm
        exact not_means_written v hprint.1 hsafe.1 hgood hstops hvalue (hw ▸ hu)
    · rw [if_neg hroom, List.nil_append,
        JsonSyntax.readValue_of_stops (JsonSyntax.stops_cons (.inr (.inl rfl)) rest)] at hvalue
      exact nomatch hvalue

theorem not_means_entriesWritten : (es : List (Bytes × RVal)) → {cap p : ℕ} →
    allEntries (FloatsPrint strtod g17) es → SafeEntries g17 es cap p →
    ¬(WholeEntries g17 es cap p ∧ (∀ e ∈ es, IsText e.1) ∧ allEntries Denotable es) → {n k : ℕ} → {rest : Bytes} →
    {ms : List (Bytes × Tree)} → {r : Bytes} →
    readMembers (readValue n) k (entriesWritten g17 es cap p ++ 0x7d :: rest) = some (ms, r) →
    ¬MeansEntries strtod es ms
  | [], _, _, _, hsafe, hno, _, _, _, _, _, _ => absurd ⟨hsafe, fun _ he => (nomatch he), trivial⟩ hno
  | (key, v) :: es, cap, p, hprint, hsafe, hno, n, k, rest, ms, r, hread => by
    rintro ⟨u, us, rfl, hu, hus⟩
    obtain ⟨k, name, s', w, s, rfl, hkey, hvalue, hthen⟩ := JsonSyntax.of_readMembers hread
    obtain ⟨hname, hw⟩ : name = key ∧ w = u := by
      rcases hthen with ⟨u', y', -, -, hy⟩ | ⟨u', -, hy⟩
      · obtain ⟨hname, hw⟩ := Prod.mk.inj (List.cons.inj (Prod.mk.inj hy).1).1
        exact ⟨hname.symm, hw.symm⟩
      · obtain ⟨hname, hw⟩ := Prod.mk.inj (List.cons.inj (Prod.mk.inj hy).1).1
        exact ⟨hname.symm, hw.symm⟩
    have hspells : ∀ c ∈ keptChars (cap - p) 1 key, SpellsByte (escapeByte c) c := fun c _ => spellsByte_escapeByte c
    rw [entriesWritten] at hkey
    rw [SafeEntries] at hsafe
    -- four things can go wrong: no room, the key, the value, or the comma
    by_cases hroom : p + 32 < cap
    · rw [if_pos hroom] at hkey hsafe
      dsimp only at hkey hsafe
      have hwritten : stringWritten key (cap - p) = quotedBy escapeByte (keptChars (cap - p) 1 key) :=
        if_neg (by omega)
      by_cases hcolon : p + stringSize key (cap - p) + 2 < cap
      · rw [if_pos hcolon] at hkey hsafe
        rw [hwritten, List.append_assoc, List.cons_append, JsonSyntax.readKey_quoted hspells] at hkey
        split_ifs at hkey with htext
        obtain ⟨hkept, hs'⟩ := Prod.mk.inj (Option.some.inj hkey)
        rw [hname] at hkept
        rw [hkept] at htext hwritten
        have hfit := keptChars_eq_iff.mp hkept
        have hklen := length_stringWritten key (cap - p)
        rw [hwritten] at hklen
        rw [← hklen] at hs' hsafe hcolon
        generalize hq : p + (quotedBy escapeByte key).length + 1 = q at hs' hsafe
        have hlen := length_written g17 v (cap - q)
        rw [List.length_append, hlen, ← Nat.add_assoc, List.append_assoc, List.append_assoc] at hs'
        rw [← hs'] at hvalue
        have hstops := @stops_entriesWritten g17 es cap (q + size g17 v (cap - q)) rest
        by_cases hgood : Whole g17 v (cap - q) ∧ v.All Denotable
        · have hwhole := (whole_written v hgood.1).1
          rw [hwhole] at hvalue hlen
          obtain ⟨-, rfl⟩ := (spells_spelled v hprint.1 hgood.2).eq_of_readValue hstops hvalue
          rw [← hlen] at hthen hsafe
          have hwholeEntries
              (hrest : WholeEntries g17 es cap (q + (spelled g17 v).1.length + commaSize (!es.isEmpty))) :
              WholeEntries g17 ((key, v) :: es) cap p := by
            refine ⟨hroom, hfit, hcolon, ?_, ?_⟩
            · rw [hq]
              exact hgood.1
            · rw [hq]
              exact hrest
          have hkeys (hrest : ∀ e ∈ es, IsText e.1) : ∀ e ∈ (key, v) :: es, IsText e.1 :=
            List.forall_mem_cons.mpr ⟨htext, hrest⟩
          cases es with
          | nil => exact hno ⟨hwholeEntries hsafe.2, hkeys fun e he => (nomatch he), hgood.2, trivial⟩
          | cons x xs =>
            by_cases hmore : q + (spelled g17 v).1.length + 2 < cap
            · obtain ⟨hcomma, hsize⟩ :=
                @comma_of_lt (!(x :: xs).isEmpty) cap (q + (spelled g17 v).1.length) fun _ => hmore
              rw [hsize] at hthen hsafe
              rw [hcomma, if_pos (show (!(x :: xs).isEmpty) = true from rfl), List.singleton_append,
                JsonSyntax.skipBlanks_cons (by decide)] at hthen
              rcases hthen with ⟨u', y', hu', hrest, hy⟩ | ⟨u', hu', -⟩
              · obtain rfl := (List.cons.inj hu').2
                rw [(List.cons.inj (Prod.mk.inj hy).1).2] at hus
                exact not_means_entriesWritten (x :: xs) hprint.2 hsafe.2
                  (fun h => hno ⟨hwholeEntries h.1, hkeys h.2.1, hgood.2, h.2.2⟩) hrest hus
              · exact absurd (List.cons.inj hu').1 (by decide)
            · -- the comma is left out, and the reader stops at the next key
              have hcomma : comma (!(x :: xs).isEmpty) cap (q + (spelled g17 v).1.length) = [] :=
                if_neg fun h => hmore h.2
              rw [hcomma, entriesWritten_of_le (by rw [List.length_nil]; omega), List.nil_append, List.nil_append,
                JsonSyntax.skipBlanks_cons (by decide)] at hthen
              rcases hthen with ⟨u', y', hu', -⟩ | ⟨u', -, hy⟩
              · exact absurd (List.cons.inj hu').1 (by decide)
              · rw [(List.cons.inj (Prod.mk.inj hy).1).2] at hus
                obtain ⟨z, zs, hnil, -⟩ := hus
                exact nomatch hnil
        · exact not_means_written v hprint.1 hsafe.1 hgood hstops hvalue (hw ▸ hu)
      · rw [if_neg hcolon, hwritten, JsonSyntax.readKey_quoted_close hspells] at hkey
        exact nomatch hkey
    · rw [if_neg hroom, List.nil_append] at hkey
      exact nomatch hkey

end

end Cut

/-! ## The reply -/

theorem undefined_of_not_safe {v : RVal} (hprint : v.All (FloatsPrint strtod g17))
    (h : ¬Safe g17 v outputBufSize) : valueToJson g17 v outputBufSize = .undefined := by
  have hcap : 0 < outputBufSize := by decide
  cases v with
  | nil => exact absurd (show 4 < outputBufSize by decide) h
  | bool b => cases b <;> exact absurd (show _ < outputBufSize by decide) h
  | integer i =>
    have hlow := i.le_toInt
    have hhigh := i.toInt_lt
    refine absurd (show (utf8 (toString i.toInt)).length < 65536 from ?_) h
    rcases lt_or_ge i.toInt 0 with hneg | hpos
    · have hlen := @length_natText_le i.toInt.natAbs 20 (by decide) (by omega)
      rw [utf8_toString_neg hneg, List.length_cons]
      omega
    · have hlen := @length_natText_le i.toInt.toNat 20 (by decide) (by omega)
      rw [utf8_toString_of_nonneg hpos]
      omega
  | float bits => exact absurd (show (g17 bits).length < 65536 from by have := hprint.1; omega) h
  | string chars => exact absurd trivial h
  | symbol name => exact absurd trivial h
  | array items =>
    have hopen : Filled.empty.put outputBufSize 0x5b = .done (full [0x5b]) := if_pos hcap
    rw [valueToJson, if_neg (by decide), if_neg (by decide), hopen, Run.done_bind]
    exact (itemsToJson_closes g17 items hcap 0x5d [0x5b]).overruns fun hsafe => h fun _ => hsafe
  | hash entries =>
    have hopen : Filled.empty.put outputBufSize 0x7b = .done (full [0x7b]) := if_pos hcap
    rw [valueToJson, if_neg (by decide), if_neg (by decide), hopen, Run.done_bind]
    exact (entriesToJson_closes g17 entries hcap 0x7d [0x7b]).overruns fun hsafe => h fun _ => hsafe
  | other inspect =>
    cases inspect with
    | none => exact absurd (show 4 < outputBufSize by decide) h
    | some text => exact absurd trivial h

/-- **When the reply denotes the result.** -/
theorem truthful_iff {v : RVal} (hprint : v.All (FloatsPrint strtod g17)) :
    Truthful strtod g17 v ↔ Whole g17 v outputBufSize ∧ v.All Denotable := by
  have hends := valueToJson_ends g17 v (show 0 < outputBufSize by decide)
  constructor
  · rintro ⟨o, t, hreply, hread, hmeans⟩
    obtain ⟨b, hrun, hchars⟩ := Run.bind_eq_done.mp hreply
    have hsafe : Safe g17 v outputBufSize := by
      by_contra hno
      cases (undefined_of_not_safe strtod g17 hprint hno).symm.trans hrun
    have ho : o = written g17 v outputBufSize := by
      rw [← Run.done.inj hchars, ← Run.done.inj ((hends.stays hsafe).1.symm.trans hrun)]
      rfl
    by_contra hno
    rw [JsonSyntax.read, ho] at hread
    split at hread
    · rename_i w r hvalue
      split_ifs at hread
      rw [← Option.some.inj hread] at hmeans
      have hnil := List.append_nil (written g17 v outputBufSize)
      rw [← hnil] at hvalue
      exact not_means_written v hprint hsafe hno JsonSyntax.stops_nil hvalue hmeans
    · cases hread
  · rintro ⟨hwhole, hdenotable⟩
    obtain ⟨hwritten, hsafe⟩ := whole_written v hwhole
    refine ⟨_, _, ?_, (spells_spelled v hprint hdenotable).read, means_spelled v hprint hdenotable⟩
    rw [callToolReply, (hends.stays hsafe).1, hwritten]
    rfl

/-- **The reply encoder of the mruby guest**: a string always stays in its buffer; a value stays where every word,
number and closing bracket that is reached has its room; and the reply denotes the result where nothing is left out and
a JSON value can denote it. -/
theorem reply_encoder_iff :
    (∀ s cap, 0 < cap → Stays cap (escapeJsonString s cap)) ∧
      (∀ v cap, 0 < cap → (Stays cap (valueToJson g17 v cap) ↔ Safe g17 v cap)) ∧
      ∀ v : RVal, v.All (FloatsPrint strtod g17) →
        (Truthful strtod g17 v ↔ Whole g17 v outputBufSize ∧ v.All Denotable) :=
  ⟨fun s _ hcap => ⟨_, escapeJsonString_eq s hcap⟩, fun v _ hcap => valueToJson_stays_iff g17 v hcap,
    fun _ hprint => truthful_iff strtod g17 hprint⟩

/-- `[0.5, "a"]`. -/
theorem reply_encoder_half :
    Stays 16 (escapeJsonString [0x61] 16) ∧
      Stays 16 (valueToJson (fun _ => utf8 "0.5") (.float 0x3fe0000000000000) 16) ∧
      Truthful (fun _ => 0x3fe0000000000000) (fun _ => utf8 "0.5")
        (.array [.float 0x3fe0000000000000, .string [0x61]]) := by
  obtain ⟨hstring, hvalue, htruth⟩ := reply_encoder_iff (fun _ => 0x3fe0000000000000) (fun _ => utf8 "0.5")
  have hdigit {x : UInt8} (hx : isDigit x = true) : ∀ c ∈ [x], isDigit c = true := List.forall_mem_singleton.mpr hx
  have hprints : FloatsPrint (fun _ => 0x3fe0000000000000) (fun _ => utf8 "0.5") (.float 0x3fe0000000000000) := by
    refine ⟨by decide +kernel, ?_⟩
    rw [if_pos (by decide +kernel)]
    exact ⟨[], [0x30], [0x2e, 0x35], [], ⟨.inl rfl, hdigit (by decide), by decide, fun _ => rfl,
      .inr ⟨[0x35], hdigit (by decide), by decide, rfl⟩, .inl rfl⟩, by decide +kernel, rfl⟩
  have hreply := htruth (.array [.float 0x3fe0000000000000, .string [0x61]]) ⟨trivial, hprints, trivial, trivial⟩
  refine ⟨hstring _ _ (by decide), (hvalue _ _ (by decide)).mpr (show 3 < 16 by decide), hreply.mpr ⟨⟨by decide,
    show 3 < 65535 by decide, by decide, ⟨show 2 < 65531 by decide, show 1 + 8 < 65531 by decide, trivial⟩,
    show 8 + 1 < 65536 by decide⟩, trivial, (by decide +kernel : f64Finite _), (by decide +kernel : IsText _), trivial⟩⟩

theorem charsEnd_replicate {c : UInt8} (hc : (escapeByte c).length = 1) {cap p n : ℕ} (h : p + n + 7 < cap) :
    charsEnd cap p (List.replicate n c) = p + n := by
  induction n generalizing p with
  | zero => rfl
  | succ n ih =>
    rw [List.replicate_succ, charsEnd, if_pos (by omega), hc, ih (by omega)]
    omega

theorem lt_of_charsFit {cap p : ℕ} {s : Bytes} (hs : s ≠ []) (h : CharsFit cap p s) : p + s.length + 7 < cap := by
  induction s generalizing p with
  | nil => exact absurd rfl hs
  | cons c s ih =>
    have hc := (length_escapeByte c).1
    cases s with
    | nil =>
      have := h.1
      show p + 1 + 7 < cap
      omega
    | cons d s =>
      have := ih (List.cons_ne_nil d s) h.2
      rw [List.length_cons]
      omega

/-- `true`, for which four bytes are too few; an array that ends with a long number, here the negative float nearest to
zero that is normal: its bracket is put on the last byte of the buffer and the NUL behind it; a string that is cut; and
infinity. -/
theorem reply_encoder_fail :
    (∀ g17 : F64Text, ¬Stays 4 (valueToJson g17 (.bool true) 4)) ∧
      (∀ g17 : F64Text, g17 0x8010000000000000 = utf8 "-2.2250738585072014e-308" → ¬Stays outputBufSize (valueToJson g17
        (.array [.string (List.replicate 65515 0x61), .float 0x8010000000000000]) outputBufSize)) ∧
      (∀ strtod g17, ¬Truthful strtod g17 (.string (List.replicate 70000 0x61))) ∧
      ∀ strtod g17, g17 0x7ff0000000000000 = utf8 "inf" → ¬Truthful strtod g17 (.float 0x7ff0000000000000) := by
  refine ⟨fun g17 h => ?_, fun g17 hlong h => ?_, fun strtod g17 h => ?_, fun strtod g17 hinf h => ?_⟩
  · exact absurd ((valueToJson_stays_iff g17 _ (by decide)).mp h) (lt_irrefl 4)
  · have hsafe := (valueToJson_stays_iff g17 _ (by decide)).mp h (by decide)
    have hsize : size g17 (.string (List.replicate 65515 0x61)) (outputBufSize - 1) = 65517 := by
      rw [size, stringSize, if_neg (by decide), charsEnd_replicate (by decide) (by decide)]
    rw [SafeItems, if_pos (by decide), hsize, comma, if_pos (by decide), SafeItems, if_pos (by decide)] at hsafe
    have hlen : (g17 0x8010000000000000).length = 24 := by
      rw [hlong]
      decide +kernel
    have hroom : (g17 0x8010000000000000).length < 17 := hsafe.2.1
    omega
  · have hwhole := ((truthful_iff strtod g17 (v := .string (List.replicate 70000 0x61)) trivial).mp h).1
    generalize hs : List.replicate 70000 (0x61 : UInt8) = s at hwhole
    have hlength : s.length = 70000 := by rw [← hs, List.length_replicate]
    have hne : s ≠ [] := fun hnil => by
      rw [hnil] at hlength
      cases hlength
    have hlong := lt_of_charsFit hne hwhole.2
    rw [hlength] at hlong
    exact absurd hlong (by decide)
  · have hprint : FloatsPrint strtod g17 (.float 0x7ff0000000000000) := by
      refine ⟨by rw [hinf]; decide +kernel, ?_⟩
      rw [if_neg (by decide +kernel), hinf]
      exact List.mem_cons_self
    have hfinite : f64Finite 0x7ff0000000000000 :=
      ((truthful_iff strtod g17 (v := .float 0x7ff0000000000000) hprint).mp h).2
    exact absurd hfinite (by decide +kernel)

end VelocityMcp.Guest.Mruby
