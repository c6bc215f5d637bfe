import VelocityMcp.Lib.Bytes
import VelocityMcp.Lib.Decimal
import VelocityMcp.Lib.Search

/-!
# Lib.JsonSyntax — a strict reader of JSON texts (RFC 8259)

`Spells`: a text that is read as a value, whatever follows.  `spells_quoted`, `spells_number`, `spells_array`,
`spells_object`: from the texts of its parts.
-/

namespace Lib.JsonSyntax

/-! ## The reader -/

/-- A JSON value, as it is written; a number is its text. -/
inductive Tree where
  | null
  | bool (b : Bool)
  | number (text : Bytes)
  | string (chars : Bytes)
  | array (items : List Tree)
  | object (members : List (Bytes × Tree))

/-- Induction with a hypothesis for every item and every member. -/
@[elab_as_elim]
theorem Tree.ind {P : Tree → Prop} (null : P null) (bool : ∀ b, P (bool b)) (number : ∀ text, P (number text))
    (string : ∀ chars, P (string chars)) (array : ∀ items, (∀ t ∈ items, P t) → P (array items))
    (object : ∀ members, (∀ m ∈ members, P m.2) → P (object members)) : ∀ t, P t
  | .null => null
  | .bool b => bool b
  | .number text => number text
  | .string chars => string chars
  | .array items => array items fun t _ht => ind null bool number string array object t
  | .object members => object members fun m _hm => ind null bool number string array object m.2
termination_by t => t
decreasing_by
  · have := List.sizeOf_lt_of_mem _ht
    simp
    omega
  · obtain ⟨key, t⟩ := m
    have := List.sizeOf_lt_of_mem _hm
    simp at *
    omega

def isBlank (c : UInt8) : Bool := c = 0x20 || c = 0x09 || c = 0x0a || c = 0x0d

def skipBlanks (s : Bytes) : Bytes := s.dropWhile isBlank

/-! ### Strings -/

def hexValue (c : UInt8) : Option ℕ :=
  if 0x30 ≤ c ∧ c ≤ 0x39 then some (c.toNat - 0x30)
  else if 0x41 ≤ c ∧ c ≤ 0x46 then some (c.toNat - 0x37)
  else if 0x61 ≤ c ∧ c ≤ 0x66 then some (c.toNat - 0x57)
  else none

def takeUnit : Bytes → Option (ℕ × Bytes)
  | a :: b :: c :: d :: s => do
    let a ← hexValue a
    let b ← hexValue b
    let c ← hexValue c
    let d ← hexValue d
    some (0x1000 * a + 0x100 * b + 0x10 * c + d, s)
  | _ => none

def takeLow (hi : ℕ) : Bytes → Option (Bytes × Bytes)
  | b :: u :: s =>
    if b = 0x5c ∧ u = 0x75 then do
      let (lo, s) ← takeUnit s
      if 0xdc00 ≤ lo ∧ lo < 0xe000 then
        some (String.utf8EncodeChar (Char.ofNat (0x10000 + 0x400 * (hi - 0xd800) + (lo - 0xdc00))), s)
      else none
    else none
  | _ => none

def takeCodePoint (s : Bytes) : Option (Bytes × Bytes) := do
  let (hi, s) ← takeUnit s
  if 0xd800 ≤ hi ∧ hi < 0xdc00 then takeLow hi s
  else if 0xdc00 ≤ hi ∧ hi < 0xe000 then none
  else some (String.utf8EncodeChar (Char.ofNat hi), s)

/-- What a letter stands for behind a backslash. -/
def letter (e : UInt8) : Option UInt8 :=
  if e = 0x22 ∨ e = 0x5c ∨ e = 0x2f then some e
  else if e = 0x62 then some 0x08
  else if e = 0x66 then some 0x0c
  else if e = 0x6e then some 0x0a
  else if e = 0x72 then some 0x0d
  else if e = 0x74 then some 0x09
  else none

def takeChar : Bytes → Option (Bytes × Bytes)
  | [] => none
  | c :: s =>
    if c = 0x5c then
      match s with
      | [] => none
      | e :: s => if e = 0x75 then takeCodePoint s else (letter e).map fun x => ([x], s)
    else if c < 0x20 then none
    else some ([c], s)

def readChars : ℕ → Bytes → Option (Bytes × Bytes)
  | 0, _ => none
  | n + 1, s =>
    if s.head? = some 0x22 then some ([], s.tail)
    else do
      let (x, s) ← takeChar s
      let (xs, s) ← readChars n s
      some (x ++ xs, s)

def readString (s : Bytes) : Option (Bytes × Bytes) := do
  let (chars, s) ← readChars (s.length + 1) s
  if (fromUtf8 chars).isSome then some (chars, s) else none

/-! ### Numbers -/

def takeIf (p : UInt8 → Bool) : Bytes → Bytes × Bytes
  | [] => ([], [])
  | c :: s => if p c then ([c], s) else ([], c :: s)

def readFraction (s : Bytes) : Option (Bytes × Bytes) :=
  let (point, s) := takeIf (· = 0x2e) s
  if point = [] then some ([], s)
  else if s.takeWhile isDigit = [] then none
  else some (point ++ s.takeWhile isDigit, s.dropWhile isDigit)

def readExponent (s : Bytes) : Option (Bytes × Bytes) :=
  let (e, s) := takeIf (fun c => c = 0x65 || c = 0x45) s
  if e = [] then some ([], s)
  else
    let (sign, s) := takeIf (fun c => c = 0x2b || c = 0x2d) s
    if s.takeWhile isDigit = [] then none
    else some (e ++ sign ++ s.takeWhile isDigit, s.dropWhile isDigit)

def readNumber (s : Bytes) : Option (Bytes × Bytes) :=
  let (sign, s) := takeIf (· = 0x2d) s
  let whole := s.takeWhile isDigit
  if whole = [] ∨ whole.head? = some 0x30 ∧ whole ≠ [0x30] then none
  else do
    let (fraction, s) ← readFraction (s.dropWhile isDigit)
    let (exponent, s) ← readExponent s
    some (sign ++ whole ++ fraction ++ exponent, s)

/-! ### Values -/

def readItems (value : Bytes → Option (Tree × Bytes)) : ℕ → Bytes → Option (List Tree × Bytes)
  | 0, _ => none
  | n + 1, s => do
    let (t, s) ← value s
    match skipBlanks s with
    | [] => none
    | c :: s =>
      if c = 0x2c then do
        let (ts, s) ← readItems value n s
        some (t :: ts, s)
      else if c = 0x5d then some ([t], s)
      else none

def readKey (s : Bytes) : Option (Bytes × Bytes) :=
  match skipBlanks s with
  | [] => none
  | q :: s =>
    if q = 0x22 then do
      let (key, s) ← readString s
      match skipBlanks s with
      | [] => none
      | c :: s => if c = 0x3a then some (key, s) else none
    else none

def readMembers (value : Bytes → Option (Tree × Bytes)) : ℕ → Bytes → Option (List (Bytes × Tree) × Bytes)
  | 0, _ => none
  | n + 1, s => do
    let (key, s) ← readKey s
    let (t, s) ← value s
    match skipBlanks s with
    | [] => none
    | c :: s =>
      if c = 0x2c then do
        let (ms, s) ← readMembers value n s
        some ((key, t) :: ms, s)
      else if c = 0x7d then some ([(key, t)], s)
      else none

def readArray (value : Bytes → Option (Tree × Bytes)) (s : Bytes) : Option (Tree × Bytes) :=
  if (skipBlanks s).head? = some 0x5d then some (.array [], (skipBlanks s).tail)
  else (readItems value (s.length + 1) s).map fun r => (.array r.1, r.2)

def readObject (value : Bytes → Option (Tree × Bytes)) (s : Bytes) : Option (Tree × Bytes) :=
  if (skipBlanks s).head? = some 0x7d then some (.object [], (skipBlanks s).tail)
  else (readMembers value (s.length + 1) s).map fun r => (.object r.1, r.2)

def readValue : ℕ → Bytes → Option (Tree × Bytes)
  | 0, _ => none
  | n + 1, s =>
    match skipBlanks s with
    | [] => none
    | c :: r =>
      if c = 0x22 then (readString r).map fun r => (.string r.1, r.2)
      else if c = 0x7b then readObject (readValue n) r
      else if c = 0x5b then readArray (readValue n) r
      else if (c :: r).take 4 = [0x74, 0x72, 0x75, 0x65] then some (.bool true, (c :: r).drop 4)
      else if (c :: r).take 5 = [0x66, 0x61, 0x6c, 0x73, 0x65] then some (.bool false, (c :: r).drop 5)
      else if (c :: r).take 4 = [0x6e, 0x75, 0x6c, 0x6c] then some (.null, (c :: r).drop 4)
      else (readNumber (c :: r)).map fun r => (.number r.1, r.2)

/-- The value that a text denotes, if it is a JSON text; it has fewer levels than bytes. -/
def read (s : Bytes) : Option Tree :=
  match readValue s.length s with
  | some (t, r) => if skipBlanks r = [] then some t else none
  | none => none

example : read (0x5b :: 0x31 :: 0x2c :: 0x20 :: 0x22 :: 0x5c :: 0x6e :: 0x22 :: [0x5d]) =
    some (.array [.number [0x31], .string [0x0a]]) := by
  rfl

/-! ## More fuel -/

section Mono

variable {value value' : Bytes → Option (Tree × Bytes)}

/-- The second reader reads what the first does. -/
def Extends (value value' : Bytes → Option (Tree × Bytes)) : Prop := ∀ s y, value s = some y → value' s = some y

theorem readItems_mono (h : Extends value value') {k : ℕ} {s : Bytes} {y : List Tree × Bytes}
    (hread : readItems value k s = some y) : readItems value' k s = some y := by
  induction k generalizing s y with
  | zero => exact nomatch hread
  | succ k ih =>
    rw [readItems] at hread ⊢
    obtain ⟨⟨t, r⟩, hv, hread⟩ := Option.bind_eq_some_iff.mp hread
    rw [h _ _ hv]
    change (match skipBlanks r with | [] => none | c :: s => _) = some y at hread
    show (match skipBlanks r with | [] => none | c :: s => _) = some y
    cases hr : skipBlanks r with
    | nil => rw [hr] at hread; exact nomatch hread
    | cons c u =>
      rw [hr] at hread
      dsimp only at hread ⊢
      split_ifs at hread ⊢ with hcomma hclose
      · obtain ⟨⟨ts, w⟩, hts, hread⟩ := Option.bind_eq_some_iff.mp hread
        rw [ih hts]
        exact hread
      · exact hread

theorem readMembers_mono (h : Extends value value') {k : ℕ} {s : Bytes} {y : List (Bytes × Tree) × Bytes}
    (hread : readMembers value k s = some y) : readMembers value' k s = some y := by
  induction k generalizing s y with
  | zero => exact nomatch hread
  | succ k ih =>
    rw [readMembers] at hread ⊢
    obtain ⟨⟨key, q⟩, hkey, hread⟩ := Option.bind_eq_some_iff.mp hread
    obtain ⟨⟨t, r⟩, hv, hread⟩ := Option.bind_eq_some_iff.mp hread
    rw [hkey, Option.bind_eq_bind, Option.bind_some]
    dsimp only
    rw [h _ _ hv]
    change (match skipBlanks r with | [] => none | c :: s => _) = some y at hread
    show (match skipBlanks r with | [] => none | c :: s => _) = some y
    cases hr : skipBlanks r with
    | nil => rw [hr] at hread; exact nomatch hread
    | cons c u =>
      rw [hr] at hread
      dsimp only at hread ⊢
      split_ifs at hread ⊢ with hcomma hclose
      · obtain ⟨⟨ms, w⟩, hms, hread⟩ := Option.bind_eq_some_iff.mp hread
        rw [ih hms]
        exact hread
      · exact hread

theorem readValue_succ (n : ℕ) : Extends (readValue n) (readValue (n + 1)) := by
  induction n with
  | zero => exact fun s y h => nomatch h
  | succ n ih =>
    intro s y h
    rw [readValue] at h ⊢
    cases hs : skipBlanks s with
    | nil => rw [hs] at h; exact nomatch h
    | cons c r =>
      rw [hs] at h
      dsimp only at h ⊢
      split_ifs at h ⊢ with hquote hbrace hbracket htrue hfalse hnull
      · exact h
      · rw [readObject] at h ⊢
        split_ifs at h ⊢
        · exact h
        · obtain ⟨z, hz, rfl⟩ := Option.map_eq_some_iff.mp h
          rw [readMembers_mono ih hz, Option.map_some]
      · rw [readArray] at h ⊢
        split_ifs at h ⊢
        · exact h
        · obtain ⟨z, hz, rfl⟩ := Option.map_eq_some_iff.mp h
          rw [readItems_mono ih hz, Option.map_some]
      · exact h
      · exact h
      · exact h
      · exact h

/-- **More fuel changes nothing.** -/
theorem readValue_mono {n m : ℕ} (hle : n ≤ m) : Extends (readValue n) (readValue m) := by
  induction hle with
  | refl => exact fun _ _ h => h
  | step _ ih => exact fun s y h => readValue_succ _ s y (ih s y h)

end Mono

/-! ## Texts that are read -/

/-- What may follow a value. -/
def Stops (rest : Bytes) : Prop := ∀ c ∈ rest.head?, c = 0x2c ∨ c = 0x5d ∨ c = 0x7d

theorem stops_nil : Stops [] := fun _ h => nomatch h

theorem stops_cons {c : UInt8} (h : c = 0x2c ∨ c = 0x5d ∨ c = 0x7d) (rest : Bytes) : Stops (c :: rest) := by
  intro d hd
  obtain rfl : c = d := by simpa using hd
  exact h

theorem Stops.head {rest : Bytes} (h : Stops rest) {p : UInt8 → Bool} (hcomma : p 0x2c = false)
    (hbracket : p 0x5d = false) (hbrace : p 0x7d = false) : ∀ c ∈ rest.head?, p c = false := by
  intro c hc
  rcases h c hc with rfl | rfl | rfl
  · exact hcomma
  · exact hbracket
  · exact hbrace

theorem dropWhile_of_head {p : UInt8 → Bool} {s : Bytes} (h : ∀ c ∈ s.head?, p c = false) :
    s.takeWhile p = [] ∧ s.dropWhile p = s := by
  cases s with
  | nil => exact ⟨rfl, rfl⟩
  | cons c s =>
    have hc : ¬p c = true := by simp [h c rfl]
    exact ⟨List.takeWhile_cons_of_neg hc, List.dropWhile_cons_of_neg hc⟩

theorem skipBlanks_of_head {s : Bytes} (h : ∀ c ∈ s.head?, isBlank c = false) : skipBlanks s = s :=
  (dropWhile_of_head h).2

theorem skipBlanks_cons {c : UInt8} (h : isBlank c = false) (s : Bytes) : skipBlanks (c :: s) = c :: s :=
  skipBlanks_of_head fun d hd => by
    obtain rfl : c = d := by simpa using hd
    exact h

theorem Stops.skipBlanks {rest : Bytes} (h : Stops rest) : JsonSyntax.skipBlanks rest = rest :=
  skipBlanks_of_head (h.head (by decide) (by decide) (by decide))

theorem readNumber_eq_none {c : UInt8} (hc : isDigit c = false) (hsign : c ≠ 0x2d) (s : Bytes) :
    readNumber (c :: s) = none := by
  have hdigits : (c :: s).takeWhile isDigit = [] := List.takeWhile_cons_of_neg (by simp [hc])
  rw [readNumber, takeIf, if_neg (by simpa using hsign)]
  dsimp only
  rw [hdigits, if_pos (.inl rfl)]

theorem readValue_of_stops {s : Bytes} (h : Stops s) (n : ℕ) : readValue n s = none := by
  cases n with
  | zero => rfl
  | succ n =>
    rw [readValue, h.skipBlanks]
    cases s with
    | nil => rfl
    | cons c s =>
      have hnumber : readNumber (c :: s) = none := by
        rcases h c rfl with rfl | rfl | rfl <;> exact readNumber_eq_none (by decide) (by decide) s
      dsimp only
      rw [hnumber]
      rcases h c rfl with rfl | rfl | rfl <;> rfl

theorem skipBlanks_skipBlanks (s : Bytes) : skipBlanks (skipBlanks s) = skipBlanks s := List.dropWhile_idempotent _ s

theorem readValue_skipBlanks (n : ℕ) (s : Bytes) : readValue n (skipBlanks s) = readValue n s := by
  cases n with
  | zero => rfl
  | succ n => rw [readValue, readValue, skipBlanks_skipBlanks]

theorem head_of_readValue {n : ℕ} {s : Bytes} {y : Tree × Bytes} (h : readValue n s = some y) {c : UInt8}
    (hc : c = 0x2c ∨ c = 0x5d ∨ c = 0x7d) : (skipBlanks s).head? ≠ some c := by
  intro hhead
  have hstops : Stops (skipBlanks s) := by
    intro d hd
    rw [hhead] at hd
    exact Option.mem_some_iff.mp hd ▸ hc
  rw [← readValue_skipBlanks, readValue_of_stops hstops] at h
  exact nomatch h

/-- **A text that is read as this value, whatever follows.** -/
def Spells (t : Bytes) (v : Tree) : Prop :=
  (∃ c s, t = c :: s ∧ isBlank c = false ∧ c ≠ 0x5d) ∧
    ∀ n rest, t.length ≤ n → Stops rest → readValue n (t ++ rest) = some (v, rest)

section Spells

variable {t : Bytes} {v : Tree} {rest : Bytes}

theorem Spells.read (h : Spells t v) : read t = some v := by
  have hread := h.2 t.length [] le_rfl stops_nil
  rw [List.append_nil] at hread
  rw [JsonSyntax.read, hread]
  rfl

theorem Spells.eq_of_readValue (h : Spells t v) (hrest : Stops rest) {n : ℕ} {w : Tree} {r : Bytes}
    (hread : readValue n (t ++ rest) = some (w, r)) : w = v ∧ r = rest := by
  have hmore := readValue_mono (le_max_left n t.length) _ _ hread
  rw [h.2 _ _ (le_max_right _ _) hrest] at hmore
  obtain ⟨hw, hr⟩ := Prod.mk.inj (Option.some.inj hmore)
  exact ⟨hw.symm, hr.symm⟩

/-! ### Strings -/

structure SpellsByte (piece : Bytes) (c : UInt8) : Prop where
  ne_nil : piece ≠ []
  noQuote : piece.head? ≠ some 0x22
  take : ∀ s, takeChar (piece ++ s) = some ([c], s)

theorem spellsByte_plain {c : UInt8} (hlow : ¬c < 0x20) (hquote : c ≠ 0x22) (hslash : c ≠ 0x5c) : SpellsByte [c] c where
  ne_nil := List.cons_ne_nil _ _
  noQuote := by simpa using hquote
  take s := by
    rw [List.singleton_append]
    cases s <;> rw [takeChar, if_neg hslash, if_neg hlow]

theorem spellsByte_letter {c e : UInt8} (h : letter e = some c) : SpellsByte [0x5c, e] c where
  ne_nil := List.cons_ne_nil _ _
  noQuote := by simp
  take s := by
    have hne : e ≠ 0x75 := by
      rintro rfl
      exact nomatch h
    show takeChar (0x5c :: e :: s) = _
    rw [takeChar, if_pos rfl, if_neg hne, h, Option.map_some]

theorem spellsByte_unit {c a b : UInt8} (hc : c.toNat < 0x80) (ha : hexValue a = some (c.toNat / 16))
    (hb : hexValue b = some (c.toNat % 16)) : SpellsByte [0x5c, 0x75, 0x30, 0x30, a, b] c where
  ne_nil := List.cons_ne_nil _ _
  noQuote := by simp
  take s := by
    have hzero : hexValue 0x30 = some 0 := by decide
    have hunit : takeUnit (0x30 :: 0x30 :: a :: b :: s) = some (c.toNat, s) := by
      rw [takeUnit, hzero, ha, hb]
      simp only [Option.bind_eq_bind, Option.bind_some, Option.some.injEq, Prod.mk.injEq, and_true]
      omega
    have hchar : String.utf8EncodeChar (Char.ofNat c.toNat) = [c] := by rw [utf8EncodeChar_ascii hc, UInt8.ofNat_toNat]
    show takeChar (0x5c :: 0x75 :: 0x30 :: 0x30 :: a :: b :: s) = _
    rw [takeChar, if_pos rfl, if_pos rfl, takeCodePoint, hunit, Option.bind_eq_bind, Option.bind_some]
    dsimp only
    rw [if_neg (by omega), if_neg (by omega), hchar]

variable {esc : UInt8 → Bytes} {chars : Bytes}

theorem readChars_escaped (h : ∀ c ∈ chars, SpellsByte (esc c) c) {n : ℕ} (hn : chars.length < n) :
    readChars n (chars.flatMap esc ++ 0x22 :: rest) = some (chars, rest) := by
  induction chars generalizing n with
  | nil =>
    cases n with
    | zero => exact absurd hn (Nat.not_lt_zero _)
    | succ n => rfl
  | cons c cs ih =>
    cases n with
    | zero => exact absurd hn (Nat.not_lt_zero _)
    | succ n =>
      have hc := h c List.mem_cons_self
      have hhead : ((c :: cs).flatMap esc ++ 0x22 :: rest).head? ≠ some 0x22 := by
        obtain ⟨x, xs, hx⟩ := List.exists_cons_of_ne_nil hc.ne_nil
        have hquote := hc.noQuote
        rw [hx] at hquote
        rw [List.flatMap_cons, hx]
        exact hquote
      rw [readChars, if_neg hhead, List.flatMap_cons, List.append_assoc, hc.take, Option.bind_eq_bind, Option.bind_some]
      dsimp only
      rw [ih (fun d hd => h d (List.mem_cons_of_mem _ hd)) (Nat.lt_of_succ_lt_succ hn), Option.bind_some]
      rfl

theorem length_le_flatMap (h : ∀ c ∈ chars, SpellsByte (esc c) c) : chars.length ≤ (chars.flatMap esc).length := by
  induction chars with
  | nil => exact le_rfl
  | cons c cs ih =>
    have hc := List.length_pos_of_ne_nil (h c List.mem_cons_self).ne_nil
    have hcs := ih fun d hd => h d (List.mem_cons_of_mem _ hd)
    rw [List.flatMap_cons, List.length_append, List.length_cons]
    omega

/-- **What is read from an escaped text**: the text, if it is UTF-8. -/
theorem readString_escaped (h : ∀ c ∈ chars, SpellsByte (esc c) c) (rest : Bytes) :
    readString (chars.flatMap esc ++ 0x22 :: rest) = if (fromUtf8 chars).isSome then some (chars, rest) else none := by
  have hlen := length_le_flatMap h
  have hfuel : chars.length < (chars.flatMap esc ++ 0x22 :: rest).length + 1 := by
    rw [List.length_append]
    omega
  rw [readString, readChars_escaped h hfuel, Option.bind_eq_bind, Option.bind_some]

def quotedBy (esc : UInt8 → Bytes) (chars : Bytes) : Bytes := 0x22 :: (chars.flatMap esc ++ [0x22])

theorem quotedBy_append (esc : UInt8 → Bytes) (chars rest : Bytes) :
    quotedBy esc chars ++ rest = 0x22 :: (chars.flatMap esc ++ 0x22 :: rest) := by
  simp [quotedBy]

theorem readValue_quoted (h : ∀ c ∈ chars, SpellsByte (esc c) c) (n : ℕ) (rest : Bytes) :
    readValue (n + 1) (quotedBy esc chars ++ rest) =
      if (fromUtf8 chars).isSome then some (.string chars, rest) else none := by
  rw [quotedBy_append, readValue, skipBlanks_cons (by decide)]
  dsimp only
  rw [if_pos rfl, readString_escaped h]
  split_ifs <;> rfl

theorem spells_quoted (h : ∀ c ∈ chars, SpellsByte (esc c) c) (hutf8 : (fromUtf8 chars).isSome = true) :
    Spells (quotedBy esc chars) (.string chars) := by
  refine ⟨⟨_, _, rfl, by decide, by decide⟩, fun n rest hn _ => ?_⟩
  obtain ⟨m, rfl⟩ : ∃ m, n = m + 1 := ⟨n - 1, by rw [quotedBy, List.length_cons] at hn; omega⟩
  rw [readValue_quoted h, if_pos hutf8]

theorem readKey_quoted (h : ∀ c ∈ chars, SpellsByte (esc c) c) (rest : Bytes) :
    readKey (quotedBy esc chars ++ 0x3a :: rest) = if (fromUtf8 chars).isSome then some (chars, rest) else none := by
  rw [quotedBy_append, readKey, skipBlanks_cons (by decide)]
  dsimp only
  rw [if_pos rfl, readString_escaped h]
  split_ifs
  · rw [Option.bind_eq_bind, Option.bind_some]
    dsimp only
    rw [skipBlanks_cons (by decide)]
    dsimp only
    rw [if_pos rfl]
  · rfl

/-! ### Numbers -/

structure IsNumber (sign whole fraction exponent : Bytes) : Prop where
  sign : sign = [] ∨ sign = [0x2d]
  digits : ∀ c ∈ whole, isDigit c = true
  ne_nil : whole ≠ []
  leading : whole.head? = some 0x30 → whole = [0x30]
  fraction : fraction = [] ∨ ∃ ds, (∀ c ∈ ds, isDigit c = true) ∧ ds ≠ [] ∧ fraction = 0x2e :: ds
  exponent : exponent = [] ∨ ∃ s ds, (s = [] ∨ s = [0x2d] ∨ s = [0x2b]) ∧ (∀ c ∈ ds, isDigit c = true) ∧ ds ≠ [] ∧
    exponent = 0x65 :: (s ++ ds)

theorem takeWhile_digits {ds s : Bytes} (h : ∀ c ∈ ds, isDigit c = true) (hs : ∀ c ∈ s.head?, isDigit c = false) :
    (ds ++ s).takeWhile isDigit = ds ∧ (ds ++ s).dropWhile isDigit = s := by
  rw [List.takeWhile_append_of_pos h, List.dropWhile_append_of_pos h, (dropWhile_of_head hs).1, (dropWhile_of_head hs).2]
  exact ⟨List.append_nil ds, rfl⟩

theorem takeIf_of_head {p : UInt8 → Bool} {s : Bytes} (h : ∀ c ∈ s.head?, p c = false) : takeIf p s = ([], s) := by
  cases s with
  | nil => rfl
  | cons c s => rw [takeIf, if_neg (by simp [h c rfl])]

theorem ne_of_isDigit {c x : UInt8} (h : isDigit c = true) (hx : isDigit x = false) : c ≠ x := by
  rintro rfl
  rw [h] at hx
  exact nomatch hx

theorem head_of_digits {ds : Bytes} (h : ∀ c ∈ ds, isDigit c = true) (hne : ds ≠ []) {p : UInt8 → Bool}
    (hp : ∀ c, isDigit c = true → p c = false) (s : Bytes) : ∀ c ∈ (ds ++ s).head?, p c = false := by
  intro c hc
  obtain ⟨d, ds, rfl⟩ := List.exists_cons_of_ne_nil hne
  obtain rfl : d = c := by simpa using hc
  exact hp d (h d List.mem_cons_self)

/-- What may follow a number: nothing that would carry it on. -/
def NumberEnds (rest : Bytes) : Prop := ∀ c ∈ rest.head?, isDigit c = false ∧ c ≠ 0x2e ∧ c ≠ 0x65 ∧ c ≠ 0x45

theorem Stops.numberEnds (h : Stops rest) : NumberEnds rest := by
  intro c hc
  rcases h c hc with rfl | rfl | rfl <;> decide

theorem NumberEnds.point (h : NumberEnds rest) : ∀ c ∈ rest.head?, (decide (c = 0x2e)) = false :=
  fun c hc => decide_eq_false (h c hc).2.1

theorem NumberEnds.exponent (h : NumberEnds rest) : ∀ c ∈ rest.head?, (c = 0x65 || c = 0x45) = false := by
  intro c hc
  rw [decide_eq_false (h c hc).2.2.1, decide_eq_false (h c hc).2.2.2]
  rfl

variable {sign whole fraction exponent : Bytes}

theorem IsNumber.head_exponent (h : IsNumber sign whole fraction exponent) {p : UInt8 → Bool} (he : p 0x65 = false)
    (hrest : ∀ c ∈ rest.head?, p c = false) : ∀ c ∈ (exponent ++ rest).head?, p c = false := by
  intro c hc
  rcases h.exponent with rfl | ⟨s, ds, -, -, -, rfl⟩
  · exact hrest c hc
  · obtain rfl : 0x65 = c := by simpa using hc
    exact he

theorem readFraction_append (h : IsNumber sign whole fraction exponent) (hrest : NumberEnds rest) :
    readFraction (fraction ++ (exponent ++ rest)) = some (fraction, exponent ++ rest) := by
  rw [readFraction]
  rcases h.fraction with rfl | ⟨ds, hds, hne, rfl⟩
  · rw [List.nil_append, takeIf_of_head (h.head_exponent (by decide) hrest.point)]
    rfl
  · obtain ⟨htake, hdrop⟩ := takeWhile_digits hds
      (h.head_exponent (p := isDigit) (by decide) fun c hc => (hrest c hc).1)
    rw [List.cons_append, takeIf, if_pos (by decide)]
    dsimp only
    rw [if_neg (by simp), htake, hdrop, if_neg hne]
    rfl

theorem readExponent_append (h : IsNumber sign whole fraction exponent) (hrest : NumberEnds rest) :
    readExponent (exponent ++ rest) = some (exponent, rest) := by
  rw [readExponent]
  rcases h.exponent with rfl | ⟨s, ds, hs, hds, hne, rfl⟩
  · rw [List.nil_append, takeIf_of_head hrest.exponent]
    rfl
  · have hsign : takeIf (fun c => c = 0x2b || c = 0x2d) (s ++ (ds ++ rest)) = (s, ds ++ rest) := by
      rcases hs with rfl | rfl | rfl
      · refine takeIf_of_head (head_of_digits hds hne (fun c hc => ?_) rest)
        simp [ne_of_isDigit hc (x := 0x2b) (by decide), ne_of_isDigit hc (x := 0x2d) (by decide)]
      · rfl
      · rfl
    obtain ⟨htake, hdrop⟩ := takeWhile_digits hds fun c hc => (hrest c hc).1
    rw [List.cons_append, takeIf, if_pos (by decide)]
    dsimp only
    rw [if_neg (by simp), List.append_assoc s, hsign]
    dsimp only
    rw [htake, hdrop, if_neg hne]
    rfl

theorem readNumber_append (h : IsNumber sign whole fraction exponent) (hrest : NumberEnds rest) :
    readNumber (sign ++ whole ++ fraction ++ exponent ++ rest) = some (sign ++ whole ++ fraction ++ exponent, rest) := by
  have hsign : takeIf (· = 0x2d) (sign ++ (whole ++ (fraction ++ (exponent ++ rest)))) =
      (sign, whole ++ (fraction ++ (exponent ++ rest))) := by
    rcases h.sign with rfl | rfl
    · refine takeIf_of_head (head_of_digits h.digits h.ne_nil (fun c hc => ?_) _)
      simp [ne_of_isDigit hc (x := 0x2d) (by decide)]
    · rfl
  have hhead : ∀ c ∈ (fraction ++ (exponent ++ rest)).head?, isDigit c = false := by
    intro c hc
    rcases h.fraction with rfl | ⟨ds, -, -, rfl⟩
    · exact h.head_exponent (by decide) (fun c hc => (hrest c hc).1) c hc
    · obtain rfl : 0x2e = c := by simpa using hc
      decide
  have hstrict : ¬(whole = [] ∨ whole.head? = some 0x30 ∧ whole ≠ [0x30]) := by
    rintro (hnil | ⟨hzero, hne⟩)
    · exact h.ne_nil hnil
    · exact hne (h.leading hzero)
  obtain ⟨htake, hdrop⟩ := takeWhile_digits h.digits hhead
  rw [readNumber, List.append_assoc, List.append_assoc, List.append_assoc, hsign]
  dsimp only
  rw [htake, hdrop, if_neg hstrict, readFraction_append h hrest, Option.bind_eq_bind, Option.bind_some]
  dsimp only
  rw [readExponent_append h hrest, Option.bind_some]

theorem IsNumber.exists_cons (h : IsNumber sign whole fraction exponent) :
    ∃ c r, sign ++ whole ++ fraction ++ exponent = c :: r ∧ (c = 0x2d ∨ isDigit c = true) := by
  rcases h.sign with rfl | rfl
  · obtain ⟨c, ds, rfl⟩ := List.exists_cons_of_ne_nil h.ne_nil
    exact ⟨c, _, rfl, .inr (h.digits c List.mem_cons_self)⟩
  · exact ⟨_, _, rfl, .inl rfl⟩

theorem ne_of_sign_or_digit {c x : UInt8} (hc : c = 0x2d ∨ isDigit c = true) (hx : x ≠ 0x2d)
    (hdigit : isDigit x = false) : c ≠ x := by
  rintro rfl
  rcases hc with rfl | hc
  · exact hx rfl
  · exact ne_of_isDigit hc hdigit rfl

theorem isBlank_of_sign_or_digit {c : UInt8} (hc : c = 0x2d ∨ isDigit c = true) : isBlank c = false := by
  have hne : ∀ x : UInt8, x ≠ 0x2d → isDigit x = false → c ≠ x := fun x => ne_of_sign_or_digit hc
  simp [isBlank, hne 0x20 (by decide) (by decide), hne 0x09 (by decide) (by decide), hne 0x0a (by decide) (by decide),
    hne 0x0d (by decide) (by decide)]

theorem readValue_number (h : IsNumber sign whole fraction exponent) (hrest : NumberEnds rest) (n : ℕ) :
    readValue (n + 1) (sign ++ whole ++ fraction ++ exponent ++ rest) =
      some (.number (sign ++ whole ++ fraction ++ exponent), rest) := by
  obtain ⟨c, r, hcr, hc⟩ := h.exists_cons
  have hne : ∀ x : UInt8, x ≠ 0x2d → isDigit x = false → c ≠ x := fun x => ne_of_sign_or_digit hc
  have hnumber := readNumber_append h hrest
  have hword : ∀ (k : ℕ) (x : UInt8) (w : Bytes), x ≠ 0x2d → isDigit x = false →
      (c :: (r ++ rest)).take (k + 1) ≠ x :: w :=
    fun k x w hx hdigit heq => hne x hx hdigit (List.cons.inj heq).1
  rw [hcr] at hnumber ⊢
  rw [List.cons_append] at hnumber ⊢
  rw [readValue, skipBlanks_cons (isBlank_of_sign_or_digit hc)]
  dsimp only
  rw [if_neg (hne _ (by decide) (by decide)), if_neg (hne _ (by decide) (by decide)),
    if_neg (hne _ (by decide) (by decide)), if_neg (hword 3 _ _ (by decide) (by decide)),
    if_neg (hword 4 _ _ (by decide) (by decide)), if_neg (hword 3 _ _ (by decide) (by decide)), hnumber]
  rfl

theorem spells_number (h : IsNumber sign whole fraction exponent) :
    Spells (sign ++ whole ++ fraction ++ exponent) (.number (sign ++ whole ++ fraction ++ exponent)) := by
  obtain ⟨c, r, hcr, hc⟩ := h.exists_cons
  refine ⟨⟨c, r, hcr, isBlank_of_sign_or_digit hc, ne_of_sign_or_digit hc (by decide) (by decide)⟩,
    fun n rest hn hrest => ?_⟩
  obtain ⟨m, rfl⟩ : ∃ m, n = m + 1 := ⟨n - 1, by rw [hcr, List.length_cons] at hn; omega⟩
  exact readValue_number h hrest.numberEnds m

theorem exists_isNumber_int (i : ℤ) : ∃ sign whole, IsNumber sign whole [] [] ∧ utf8 (toString i) = sign ++ whole := by
  rcases lt_or_ge i 0 with hneg | hpos
  · exact ⟨[0x2d], natText i.natAbs, ⟨.inr rfl, fun c hc => isDigit_of_mem_natText hc, natText_ne_nil _,
      natText_of_head, .inl rfl, .inl rfl⟩, utf8_toString_neg hneg⟩
  · exact ⟨[], natText i.toNat, ⟨.inl rfl, fun c hc => isDigit_of_mem_natText hc, natText_ne_nil _,
      natText_of_head, .inl rfl, .inl rfl⟩, utf8_toString_of_nonneg hpos⟩

theorem spells_int (i : ℤ) : Spells (utf8 (toString i)) (.number (utf8 (toString i))) := by
  obtain ⟨sign, whole, hnumber, htext⟩ := exists_isNumber_int i
  have h := spells_number hnumber
  rw [List.append_nil, List.append_nil, ← htext] at h
  exact h

/-! ### Arrays and objects -/

/-- The texts, with commas between them. -/
def listed (ts : List Bytes) : Bytes := List.intercalate [0x2c] ts

theorem listed_singleton (t : Bytes) : listed [t] = t := by simp [listed, List.intercalate]

theorem listed_cons_cons (t u : Bytes) (ts : List Bytes) : listed (t :: u :: ts) = t ++ 0x2c :: listed (u :: ts) :=
  Search.intercalate_cons_of_ne_nil [0x2c] t (List.cons_ne_nil u ts)

theorem length_le_listed {ts : List Bytes} {t : Bytes} (h : t ∈ ts) : t.length ≤ (listed ts).length := by
  induction ts with
  | nil => exact nomatch h
  | cons u us ih =>
    cases us with
    | nil =>
      obtain rfl := List.mem_singleton.mp h
      rw [listed_singleton]
    | cons w ws =>
      rw [listed_cons_cons, List.length_append, List.length_cons]
      rcases List.mem_cons.mp h with rfl | h
      · omega
      · have := ih h
        omega

theorem length_le_length_listed {ts : List Bytes} (hne : ∀ t ∈ ts, 0 < t.length) : ts.length ≤ (listed ts).length := by
  induction ts with
  | nil => exact Nat.zero_le _
  | cons t ts ih =>
    have ht := hne t List.mem_cons_self
    have hrest := ih fun u hu => hne u (List.mem_cons_of_mem _ hu)
    cases ts with
    | nil =>
      rw [listed_singleton, List.length_singleton]
      omega
    | cons u us =>
      rw [listed_cons_cons, List.length_append, List.length_cons]
      rw [@List.length_cons _ _ (listed (u :: us))]
      omega

/-- With so much fuel the text is read as this value, up to what may follow one. -/
def ReadTo (n : ℕ) (t : Bytes) (v : Tree) : Prop :=
  ∀ rest, Stops rest → ∃ r, readValue n (t ++ rest) = some (v, r) ∧ skipBlanks r = rest

theorem Spells.readTo (h : Spells t v) {n : ℕ} (hn : t.length ≤ n) : ReadTo n t v :=
  fun rest hrest => ⟨rest, h.2 n rest hn hrest, hrest.skipBlanks⟩

theorem ReadTo.length_pos {n : ℕ} (h : ReadTo n t v) : 0 < t.length := by
  apply List.length_pos_of_ne_nil
  rintro rfl
  obtain ⟨r, hr, -⟩ := h [] stops_nil
  rw [List.append_nil, readValue_of_stops stops_nil] at hr
  exact nomatch hr

theorem readItems_last {n k : ℕ} (h : ReadTo n t v) (rest : Bytes) :
    readItems (readValue n) (k + 1) (t ++ 0x5d :: rest) = some ([v], rest) := by
  obtain ⟨r, hr, hskip⟩ := h (0x5d :: rest) (stops_cons (by simp) _)
  rw [readItems, hr, Option.bind_eq_bind, Option.bind_some]
  dsimp only
  rw [hskip]
  rfl

theorem readItems_more {n k : ℕ} (h : ReadTo n t v) (s : Bytes) :
    readItems (readValue n) (k + 1) (t ++ 0x2c :: s) =
      (readItems (readValue n) k s).map fun r => (v :: r.1, r.2) := by
  obtain ⟨r, hr, hskip⟩ := h (0x2c :: s) (stops_cons (by simp) _)
  rw [readItems, hr, Option.bind_eq_bind, Option.bind_some]
  dsimp only
  rw [hskip]
  dsimp only
  rw [if_pos rfl]
  cases readItems (readValue n) k s <;> rfl

theorem readItems_listed {n : ℕ} {es : List (Bytes × Tree)} (hne : es ≠ []) (h : ∀ e ∈ es, ReadTo n e.1 e.2)
    {k : ℕ} (hk : es.length ≤ k) (rest : Bytes) :
    readItems (readValue n) k (listed (es.map Prod.fst) ++ 0x5d :: rest) = some (es.map Prod.snd, rest) := by
  induction es generalizing k with
  | nil => exact absurd rfl hne
  | cons e es ih =>
    obtain ⟨k, rfl⟩ : ∃ m, k = m + 1 := ⟨k - 1, by rw [List.length_cons] at hk; omega⟩
    have he := h e List.mem_cons_self
    cases es with
    | nil => exact (listed_singleton e.1).symm ▸ readItems_last he rest
    | cons d ds =>
      have hrest := ih (List.cons_ne_nil _ _) (fun c hc => h c (List.mem_cons_of_mem _ hc)) (Nat.le_of_succ_le_succ hk)
      rw [List.map_cons, List.map_cons, listed_cons_cons, List.append_assoc, List.cons_append, readItems_more he]
      rw [List.map_cons] at hrest
      rw [hrest]
      rfl

theorem exists_listed_cons (t : Bytes) (ts : List Bytes) {c : UInt8} (hc : c = 0x2c ∨ c = 0x5d ∨ c = 0x7d)
    (rest : Bytes) : ∃ s, Stops s ∧ listed (t :: ts) ++ c :: rest = t ++ s := by
  cases ts with
  | nil => exact ⟨_, stops_cons hc rest, by rw [listed_singleton]⟩
  | cons u us => exact ⟨_, stops_cons (.inl rfl) _, by rw [listed_cons_cons, List.append_assoc]; rfl⟩

/-- **What is read from an array**, when its items are read. -/
theorem readValue_array {n : ℕ} {es : List (Bytes × Tree)} (h : ∀ e ∈ es, ReadTo n e.1 e.2) (rest : Bytes) :
    readValue (n + 1) (0x5b :: (listed (es.map Prod.fst) ++ 0x5d :: rest)) = some (.array (es.map Prod.snd), rest) := by
  rw [readValue, skipBlanks_cons (by decide)]
  dsimp only
  rw [if_neg (by decide), if_neg (by decide), if_pos rfl, readArray]
  cases es with
  | nil => rfl
  | cons e es =>
    have hcount := @length_le_length_listed ((e :: es).map Prod.fst) (by
      intro u hu
      obtain ⟨d, hd, rfl⟩ := List.mem_map.mp hu
      exact (h d hd).length_pos)
    have hopen : (skipBlanks (listed ((e :: es).map Prod.fst) ++ 0x5d :: rest)).head? ≠ some 0x5d := by
      obtain ⟨s, hs, htext⟩ := exists_listed_cons e.1 (es.map Prod.fst) (c := 0x5d) (by simp) rest
      obtain ⟨r, hr, -⟩ := h e List.mem_cons_self s hs
      rw [List.map_cons, htext]
      exact head_of_readValue hr (by simp)
    rw [if_neg hopen, readItems_listed (List.cons_ne_nil _ _) h
      (by rw [List.length_append]; rw [List.length_map] at hcount; omega), Option.map_some]

theorem readValue_array_of_le {es : List (Bytes × Tree)} (h : ∀ e ∈ es, ∀ m, e.1.length ≤ m → ReadTo m e.1 e.2) {n : ℕ}
    (hn : (0x5b :: (listed (es.map Prod.fst) ++ [0x5d])).length ≤ n) (rest : Bytes) :
    readValue n (0x5b :: (listed (es.map Prod.fst) ++ [0x5d]) ++ rest) = some (.array (es.map Prod.snd), rest) := by
  rw [List.length_cons, List.length_append, List.length_singleton] at hn
  obtain ⟨m, rfl⟩ : ∃ m, n = m + 1 := ⟨n - 1, by omega⟩
  have hitems : ∀ e ∈ es, ReadTo m e.1 e.2 := by
    intro e he
    have hle := length_le_listed (List.mem_map_of_mem (f := Prod.fst) he)
    exact h e he m (by omega)
  rw [List.cons_append, List.append_assoc]
  exact readValue_array hitems rest

/-- **An array is read from the texts of its items.** -/
theorem spells_array {es : List (Bytes × Tree)} (h : ∀ e ∈ es, Spells e.1 e.2) :
    Spells (0x5b :: (listed (es.map Prod.fst) ++ [0x5d])) (.array (es.map Prod.snd)) :=
  ⟨⟨_, _, rfl, by decide, by decide⟩, fun _ rest hn _ =>
    readValue_array_of_le (fun e he _ => (h e he).readTo) hn rest⟩

def ReadsKey (t : Bytes) (key : Bytes) : Prop := ∀ rest, readKey (t ++ 0x3a :: rest) = some (key, rest)

/-- A key that is read, whatever follows its colon. -/
def SpellsKey (t : Bytes) (key : Bytes) : Prop :=
  (∃ s, t = 0x22 :: s) ∧ ∀ rest, readKey (t ++ 0x3a :: rest) = some (key, rest)

theorem spellsKey_quoted (h : ∀ c ∈ chars, SpellsByte (esc c) c) (hutf8 : (fromUtf8 chars).isSome = true) :
    SpellsKey (quotedBy esc chars) chars :=
  ⟨⟨_, rfl⟩, fun rest => by rw [readKey_quoted h, if_pos hutf8]⟩

theorem head_of_readKey {s : Bytes} {y : Bytes × Bytes} (h : readKey s = some y) :
    (skipBlanks s).head? = some 0x22 := by
  rw [readKey] at h
  cases hs : skipBlanks s with
  | nil => rw [hs] at h; exact nomatch h
  | cons q s' =>
    rw [hs] at h
    dsimp only at h
    split_ifs at h with hq
    rw [hq, List.head?_cons]

/-- The texts of a member's key and of its value, and what is read from them. -/
structure Member where
  keyText : Bytes
  text : Bytes
  key : Bytes
  value : Tree

def Member.Spells (m : Member) : Prop := SpellsKey m.keyText m.key ∧ JsonSyntax.Spells m.text m.value

def Member.ReadTo (n : ℕ) (m : Member) : Prop := ReadsKey m.keyText m.key ∧ JsonSyntax.ReadTo n m.text m.value

def Member.written (m : Member) : Bytes := m.keyText ++ 0x3a :: m.text

def Member.read (m : Member) : Bytes × Tree := (m.key, m.value)

theorem readMembers_last {n k : ℕ} {m : Member} (h : m.ReadTo n) (rest : Bytes) :
    readMembers (readValue n) (k + 1) (m.written ++ 0x7d :: rest) = some ([m.read], rest) := by
  obtain ⟨r, hr, hskip⟩ := h.2 (0x7d :: rest) (stops_cons (by simp) _)
  rw [Member.written, List.append_assoc, List.cons_append, readMembers, h.1, Option.bind_eq_bind, Option.bind_some]
  dsimp only
  rw [hr, Option.bind_eq_bind, Option.bind_some]
  dsimp only
  rw [hskip]
  rfl

theorem readMembers_more {n k : ℕ} {m : Member} (h : m.ReadTo n) (s : Bytes) :
    readMembers (readValue n) (k + 1) (m.written ++ 0x2c :: s) =
      (readMembers (readValue n) k s).map fun r => (m.read :: r.1, r.2) := by
  obtain ⟨r, hr, hskip⟩ := h.2 (0x2c :: s) (stops_cons (by simp) _)
  rw [Member.written, List.append_assoc, List.cons_append, readMembers, h.1, Option.bind_eq_bind, Option.bind_some]
  dsimp only
  rw [hr, Option.bind_eq_bind, Option.bind_some]
  dsimp only
  rw [hskip]
  dsimp only
  rw [if_pos rfl]
  cases readMembers (readValue n) k s <;> rfl

theorem readMembers_listed {n : ℕ} {ms : List Member} (hne : ms ≠ []) (h : ∀ m ∈ ms, m.ReadTo n)
    {k : ℕ} (hk : ms.length ≤ k) (rest : Bytes) :
    readMembers (readValue n) k (listed (ms.map Member.written) ++ 0x7d :: rest) = some (ms.map Member.read, rest) := by
  induction ms generalizing k with
  | nil => exact absurd rfl hne
  | cons m ms ih =>
    obtain ⟨k, rfl⟩ : ∃ j, k = j + 1 := ⟨k - 1, by rw [List.length_cons] at hk; omega⟩
    have hm := h m List.mem_cons_self
    cases ms with
    | nil => exact (listed_singleton m.written).symm ▸ readMembers_last hm rest
    | cons d ds =>
      have hrest := ih (List.cons_ne_nil _ _) (fun c hc => h c (List.mem_cons_of_mem _ hc)) (Nat.le_of_succ_le_succ hk)
      rw [List.map_cons, List.map_cons, listed_cons_cons, List.append_assoc, List.cons_append, readMembers_more hm]
      rw [List.map_cons] at hrest
      rw [hrest]
      rfl

/-- **What is read from an object**, when its members are read. -/
theorem readValue_object {n : ℕ} {ms : List Member} (h : ∀ m ∈ ms, m.ReadTo n) (rest : Bytes) :
    readValue (n + 1) (0x7b :: (listed (ms.map Member.written) ++ 0x7d :: rest)) =
      some (.object (ms.map Member.read), rest) := by
  rw [readValue, skipBlanks_cons (by decide)]
  dsimp only
  rw [if_neg (by decide), if_pos rfl, readObject]
  cases ms with
  | nil => rfl
  | cons m ms =>
    have hcount := @length_le_length_listed ((m :: ms).map Member.written) (by
      intro u hu
      obtain ⟨d, hd, rfl⟩ := List.mem_map.mp hu
      rw [Member.written, List.length_append, List.length_cons]
      omega)
    have hopen : (skipBlanks (listed ((m :: ms).map Member.written) ++ 0x7d :: rest)).head? ≠ some 0x7d := by
      obtain ⟨s, -, htext⟩ := exists_listed_cons m.written (ms.map Member.written) (c := 0x7d) (by simp) rest
      rw [List.map_cons, htext, Member.written, List.append_assoc, List.cons_append,
        head_of_readKey ((h m List.mem_cons_self).1 _)]
      simp
    rw [if_neg hopen, readMembers_listed (List.cons_ne_nil _ _) h
      (by rw [List.length_append]; rw [List.length_map] at hcount; omega), Option.map_some]

theorem readValue_object_of_le {ms : List Member} (h : ∀ m ∈ ms, ∀ j, m.text.length ≤ j → m.ReadTo j) {n : ℕ}
    (hn : (0x7b :: (listed (ms.map Member.written) ++ [0x7d])).length ≤ n) (rest : Bytes) :
    readValue n (0x7b :: (listed (ms.map Member.written) ++ [0x7d]) ++ rest) =
      some (.object (ms.map Member.read), rest) := by
  rw [List.length_cons, List.length_append, List.length_singleton] at hn
  obtain ⟨j, rfl⟩ : ∃ j, n = j + 1 := ⟨n - 1, by omega⟩
  have hmembers : ∀ m ∈ ms, m.ReadTo j := by
    intro m hm
    have hle := length_le_listed (List.mem_map_of_mem (f := Member.written) hm)
    rw [Member.written, List.length_append, List.length_cons] at hle
    exact h m hm j (by omega)
  rw [List.cons_append, List.append_assoc]
  exact readValue_object hmembers rest

/-- **An object is read from the texts of its members.** -/
theorem spells_object {ms : List Member} (h : ∀ m ∈ ms, m.Spells) :
    Spells (0x7b :: (listed (ms.map Member.written) ++ [0x7d])) (.object (ms.map Member.read)) :=
  ⟨⟨_, _, rfl, by decide, by decide⟩, fun _ rest hn _ =>
    readValue_object_of_le (fun m hm _ hj => ⟨(h m hm).1.2, (h m hm).2.readTo hj⟩) hn rest⟩

/-! ### What has been read -/

theorem of_readItems {value : Bytes → Option (Tree × Bytes)} {k : ℕ} {s : Bytes} {y : List Tree × Bytes}
    (h : readItems value k s = some y) :
    ∃ k' w u, k = k' + 1 ∧ value s = some (w, u) ∧
      ((∃ u' y', skipBlanks u = 0x2c :: u' ∧ readItems value k' u' = some y' ∧ y = (w :: y'.1, y'.2)) ∨
        ∃ u', skipBlanks u = 0x5d :: u' ∧ y = ([w], u')) := by
  cases k with
  | zero => exact nomatch h
  | succ k =>
    rw [readItems] at h
    obtain ⟨⟨w, u⟩, hv, h⟩ := Option.bind_eq_some_iff.mp h
    refine ⟨k, w, u, rfl, hv, ?_⟩
    change (match skipBlanks u with | [] => none | c :: s => _) = some y at h
    cases hu : skipBlanks u with
    | nil => rw [hu] at h; exact nomatch h
    | cons c u' =>
      rw [hu] at h
      dsimp only at h
      split_ifs at h with hcomma hclose
      · obtain ⟨y', hy', h⟩ := Option.bind_eq_some_iff.mp h
        exact .inl ⟨u', y', by rw [hcomma], hy', (Option.some.inj h).symm⟩
      · exact .inr ⟨u', by rw [hclose], (Option.some.inj h).symm⟩

theorem of_readMembers {value : Bytes → Option (Tree × Bytes)} {k : ℕ} {s : Bytes} {y : List (Bytes × Tree) × Bytes}
    (h : readMembers value k s = some y) :
    ∃ k' key s' w u, k = k' + 1 ∧ readKey s = some (key, s') ∧ value s' = some (w, u) ∧
      ((∃ u' y', skipBlanks u = 0x2c :: u' ∧ readMembers value k' u' = some y' ∧ y = ((key, w) :: y'.1, y'.2)) ∨
        ∃ u', skipBlanks u = 0x7d :: u' ∧ y = ([(key, w)], u')) := by
  cases k with
  | zero => exact nomatch h
  | succ k =>
    rw [readMembers] at h
    obtain ⟨⟨key, s'⟩, hkey, h⟩ := Option.bind_eq_some_iff.mp h
    obtain ⟨⟨w, u⟩, hv, h⟩ := Option.bind_eq_some_iff.mp h
    refine ⟨k, key, s', w, u, rfl, hkey, hv, ?_⟩
    change (match skipBlanks u with | [] => none | c :: s => _) = some y at h
    cases hu : skipBlanks u with
    | nil => rw [hu] at h; exact nomatch h
    | cons c u' =>
      rw [hu] at h
      dsimp only at h
      split_ifs at h with hcomma hclose
      · obtain ⟨y', hy', h⟩ := Option.bind_eq_some_iff.mp h
        exact .inl ⟨u', y', by rw [hcomma], hy', (Option.some.inj h).symm⟩
      · exact .inr ⟨u', by rw [hclose], (Option.some.inj h).symm⟩

theorem of_readValue_array {n : ℕ} {s : Bytes} {w : Tree} {r : Bytes}
    (h : readValue n (0x5b :: s) = some (w, r)) :
    ∃ m, w = .array [] ∨ ∃ ws, w = .array ws ∧ readItems (readValue m) (s.length + 1) s = some (ws, r) := by
  cases n with
  | zero => exact nomatch h
  | succ n =>
    rw [readValue, skipBlanks_cons (by decide)] at h
    dsimp only at h
    rw [if_neg (by decide), if_neg (by decide), if_pos rfl, readArray] at h
    refine ⟨n, ?_⟩
    split_ifs at h
    · exact .inl (Prod.mk.inj (Option.some.inj h)).1.symm
    · obtain ⟨⟨ws, u⟩, hws, h⟩ := Option.map_eq_some_iff.mp h
      obtain ⟨rfl, rfl⟩ := Prod.mk.inj h
      exact .inr ⟨ws, rfl, hws⟩

theorem of_readValue_object {n : ℕ} {s : Bytes} {w : Tree} {r : Bytes}
    (h : readValue n (0x7b :: s) = some (w, r)) :
    ∃ m, w = .object [] ∨ ∃ ws, w = .object ws ∧ readMembers (readValue m) (s.length + 1) s = some (ws, r) := by
  cases n with
  | zero => exact nomatch h
  | succ n =>
    rw [readValue, skipBlanks_cons (by decide)] at h
    dsimp only at h
    rw [if_neg (by decide), if_pos rfl, readObject] at h
    refine ⟨n, ?_⟩
    split_ifs at h
    · exact .inl (Prod.mk.inj (Option.some.inj h)).1.symm
    · obtain ⟨⟨ws, u⟩, hws, h⟩ := Option.map_eq_some_iff.mp h
      obtain ⟨rfl, rfl⟩ := Prod.mk.inj h
      exact .inr ⟨ws, rfl, hws⟩

theorem readKey_quoted_close (h : ∀ c ∈ chars, SpellsByte (esc c) c) (rest : Bytes) :
    readKey (quotedBy esc chars ++ 0x7d :: rest) = none := by
  rw [quotedBy_append, readKey, skipBlanks_cons (by decide)]
  dsimp only
  rw [if_pos rfl, readString_escaped h]
  split_ifs
  · rw [Option.bind_eq_bind, Option.bind_some]
    dsimp only
    rw [skipBlanks_cons (by decide)]
    rfl
  · rfl

/-! ### Words -/

theorem spells_null : Spells [0x6e, 0x75, 0x6c, 0x6c] .null := by
  refine ⟨⟨_, _, rfl, by decide, by decide⟩, fun n rest hn _ => ?_⟩
  obtain ⟨m, rfl⟩ : ∃ m, n = m + 1 := ⟨n - 1, by rw [List.length_cons] at hn; omega⟩
  rfl

theorem spells_true : Spells [0x74, 0x72, 0x75, 0x65] (.bool true) := by
  refine ⟨⟨_, _, rfl, by decide, by decide⟩, fun n rest hn _ => ?_⟩
  obtain ⟨m, rfl⟩ : ∃ m, n = m + 1 := ⟨n - 1, by rw [List.length_cons] at hn; omega⟩
  rfl

theorem spells_false : Spells [0x66, 0x61, 0x6c, 0x73, 0x65] (.bool false) := by
  refine ⟨⟨_, _, rfl, by decide, by decide⟩, fun n rest hn _ => ?_⟩
  obtain ⟨m, rfl⟩ : ∃ m, n = m + 1 := ⟨n - 1, by rw [List.length_cons] at hn; omega⟩
  rfl

end Spells

end Lib.JsonSyntax
