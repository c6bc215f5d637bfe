import VelocityMcp.JsonText
import VelocityMcp.Lib.Decimal

/-!
# Guest.JsonParser — the JSON parser of the language guests (`jp_parse_*`, `mjp_parse_*`)

Both guests carry the same recursive descent parser.  They differ in the values they build, and in one check of a
key's opening quote (`guarded`).
-/

namespace VelocityMcp.Guest

open Lib

/-! ## Reading -/

/-- What the parser has read. -/
inductive Raw where
  | nil
  | boolean (b : Bool)
  /-- The text that is handed to `strtod` or to `strtoll`. -/
  | number (isFloat : Bool) (text : Bytes)
  | string (chars : Bytes)
  | array (items : List Raw)
  /-- A key is missing where the guest looks for its quote and does not find it. -/
  | object (members : List (Option Bytes × Raw))

def isWs (c : UInt8) : Bool := c = 0x20 || c = 0x09 || c = 0x0a || c = 0x0d

/-- `jp_skip_ws`. -/
def skipWs (s : Bytes) : Bytes := s.dropWhile isWs

/-- What stands for a backslash and `c`: a code point (`\u`) becomes a question mark. -/
def unescape (c : UInt8) : UInt8 :=
  if c = 0x62 then 0x08
  else if c = 0x66 then 0x0c
  else if c = 0x6e then 0x0a
  else if c = 0x72 then 0x0d
  else if c = 0x74 then 0x09
  else if c = 0x75 then 0x3f
  else c

/-- The characters behind an opening quote, after so many that are skipped, and the text behind the closing one. -/
def stringBody : ℕ → Bytes → Bytes × Bytes
  | _, [] => ([], [])
  | skip + 1, _ :: s => stringBody skip s
  | 0, c :: s =>
    if c = 0x22 then ([], s)
    else if c = 0x5c then
      match s with
      | [] => ([], [])
      -- the four digits of a code point are skipped
      | e :: s => let (chars, rest) := stringBody (if e = 0x75 then 4 else 0) s; (unescape e :: chars, rest)
    else let (chars, rest) := stringBody 0 s; (c :: chars, rest)

def takeIf (p : UInt8 → Bool) : Bytes → Bytes × Bytes
  | [] => ([], [])
  | c :: s => if p c then ([c], s) else ([], c :: s)

def takeFraction (s : Bytes) : Bytes × Bytes :=
  let (point, s) := takeIf (· = 0x2e) s
  if point = [] then ([], s) else (point ++ s.takeWhile isDigit, s.dropWhile isDigit)

def takeExponent (s : Bytes) : Bytes × Bytes :=
  let (e, s) := takeIf (fun c => c = 0x65 || c = 0x45) s
  if e = [] then ([], s)
  else
    let (sign, s) := takeIf (fun c => c = 0x2b || c = 0x2d) s
    (e ++ sign ++ s.takeWhile isDigit, s.dropWhile isDigit)

/-- `jp_parse_number`; its buffer holds 63 characters. -/
def parseNumber (s : Bytes) : Raw × Bytes :=
  let (sign, s) := takeIf (· = 0x2d) s
  let whole := s.takeWhile isDigit
  let (fraction, s) := takeFraction (s.dropWhile isDigit)
  let (exponent, s) := takeExponent s
  (.number (fraction ≠ [] || exponent ≠ []) ((sign ++ whole ++ fraction ++ exponent).take 63), s)

def dropByte (x : UInt8) (s : Bytes) : Bytes := if s.head? = some x then s.tail else s

/-- The loop of `jp_parse_array`, at most so many times. -/
def parseItems (value : Bytes → Raw × Bytes) : ℕ → Bytes → List Raw × Bytes
  | 0, s => ([], s)
  | n + 1, s =>
    let (item, r) := value (skipWs s)
    if (skipWs r).head? = some 0x2c then
      let (items, rest) := parseItems value n (skipWs r).tail
      (item :: items, rest)
    else ([item], skipWs r)

/-- `jp_parse_array`, behind the bracket. -/
def parseArray (value : Bytes → Raw × Bytes) (s : Bytes) : Raw × Bytes :=
  if (skipWs s).head? = some 0x5d then (.array [], (skipWs s).tail)
  else
    let (items, r) := parseItems value (s.length + 1) (skipWs s)
    (.array items, dropByte 0x5d (skipWs r))

section Objects

variable (guarded : Bool)

/-- A key: one guest reads a string whatever comes next, the other only at a quote. -/
def parseKey (s : Bytes) : Option Bytes × Bytes :=
  if guarded = true ∧ s.head? ≠ some 0x22 then (none, s)
  else
    let (chars, rest) := stringBody 0 s.tail
    (some chars, rest)

/-- The loop of `jp_parse_object`. -/
def parseMembers (value : Bytes → Raw × Bytes) : ℕ → Bytes → List (Option Bytes × Raw) × Bytes
  | 0, s => ([], s)
  | n + 1, s =>
    let (key, r) := parseKey guarded (skipWs s)
    let (v, r) := value (skipWs (dropByte 0x3a (skipWs r)))
    if (skipWs r).head? = some 0x2c then
      let (members, rest) := parseMembers value n (skipWs r).tail
      ((key, v) :: members, rest)
    else ([(key, v)], skipWs r)

/-- `jp_parse_object`, behind the brace. -/
def parseObject (value : Bytes → Raw × Bytes) (s : Bytes) : Raw × Bytes :=
  if (skipWs s).head? = some 0x7d then (.object [], (skipWs s).tail)
  else
    let (members, r) := parseMembers guarded value (s.length + 1) (skipWs s)
    (.object members, dropByte 0x7d (skipWs r))

/-- `jp_parse_value`, for at most so many levels. -/
def parseValue : ℕ → Bytes → Raw × Bytes
  | 0, s => (.nil, s)
  | n + 1, s =>
    match skipWs s with
    | [] => (.nil, [])
    | c :: r =>
      if c = 0x22 then let (chars, rest) := stringBody 0 r; (.string chars, rest)
      else if c = 0x7b then parseObject guarded (parseValue n) r
      else if c = 0x5b then parseArray (parseValue n) r
      else if (c :: r).take 4 = [0x74, 0x72, 0x75, 0x65] then (.boolean true, (c :: r).drop 4)
      else if (c :: r).take 5 = [0x66, 0x61, 0x6c, 0x73, 0x65] then (.boolean false, (c :: r).drop 5)
      else if (c :: r).take 4 = [0x6e, 0x75, 0x6c, 0x6c] then (.nil, (c :: r).drop 4)
      else if c = 0x2d ∨ isDigit c = true then parseNumber (c :: r)
      else (.nil, c :: r)

/-- The parser has no bound on its recursion; a text has fewer levels than bytes. -/
def parse (s : Bytes) : Raw := (parseValue guarded (s.length + 1) s).1

end Objects

/-- `strtoll`, for what the parser hands it: digits, after a sign or without one. -/
def strtoll (text : Bytes) : Int64 :=
  let n : Int := if text.head? = some 0x2d then -decimalValue text.tail else decimalValue text
  Int64.ofInt (max (-2 ^ 63) (min (2 ^ 63 - 1) n))

theorem strtoll_natText (n : ℕ) : strtoll (natText n) = Int64.ofInt (min (2 ^ 63 - 1 : Int) n) := by
  have hhead : (natText n).head? ≠ some 0x2d := by
    intro h
    exact absurd (isDigit_of_mem_natText (List.mem_of_mem_head? h)) (by decide)
  have hmax : max (-2 ^ 63 : Int) (min (2 ^ 63 - 1 : Int) n) = min (2 ^ 63 - 1 : Int) n := by omega
  rw [strtoll, if_neg hhead, decimalValue_natText]
  exact congrArg Int64.ofInt hmax

theorem strtoll_neg (n : ℕ) : strtoll (0x2d :: natText n) = Int64.ofInt (max (-2 ^ 63) (-n)) := by
  have hmin : min (2 ^ 63 - 1 : Int) (-n) = -n := by omega
  rw [strtoll, if_pos List.head?_cons, List.tail_cons, decimalValue_natText]
  exact congrArg (fun m => Int64.ofInt (max (-2 ^ 63) m)) hmin

/-! ## The bound on the recursion -/

section Bound

/-- A reader leaves no more than it finds. -/
def Shrinks (value : Bytes → Raw × Bytes) : Prop := ∀ s, (value s).2.length ≤ s.length

theorem length_dropWhile_le (p : UInt8 → Bool) (s : Bytes) : (s.dropWhile p).length ≤ s.length :=
  (List.dropWhile_sublist p).length_le

theorem length_skipWs_le (s : Bytes) : (skipWs s).length ≤ s.length := length_dropWhile_le _ s

theorem length_stringBody_le (skip : ℕ) (s : Bytes) : (stringBody skip s).2.length ≤ s.length := by
  fun_induction stringBody skip s with
  | case1 => exact Nat.zero_le _
  | case2 skip c s ih => exact ih.trans (Nat.le_succ _)
  | case3 s => exact Nat.le_succ _
  | case4 h => exact Nat.zero_le _
  | case5 e s chars rest heq hne ih =>
    rw [heq] at ih
    exact ih.trans ((Nat.le_succ _).trans (Nat.le_succ _))
  | case6 c s h h' chars rest heq ih =>
    rw [heq] at ih
    exact ih.trans (Nat.le_succ _)

theorem length_takeIf_le (p : UInt8 → Bool) (s : Bytes) : (takeIf p s).2.length ≤ s.length := by
  cases s with
  | nil => exact Nat.zero_le _
  | cons c s =>
    rw [takeIf]
    split_ifs
    · exact Nat.le_succ _
    · exact le_rfl

theorem length_takeFraction_le (s : Bytes) : (takeFraction s).2.length ≤ s.length := by
  have hpoint := length_takeIf_le (· = 0x2e) s
  simp only [takeFraction]
  split_ifs
  · exact hpoint
  · exact (length_dropWhile_le _ _).trans hpoint

theorem length_takeExponent_le (s : Bytes) : (takeExponent s).2.length ≤ s.length := by
  have he := length_takeIf_le (fun c => c = 0x65 || c = 0x45) s
  simp only [takeExponent]
  split_ifs
  · exact he
  · exact (length_dropWhile_le _ _).trans ((length_takeIf_le _ _).trans he)

theorem shrinks_parseNumber : Shrinks parseNumber := fun s =>
  (length_takeExponent_le _).trans ((length_takeFraction_le _).trans
    ((length_dropWhile_le _ _).trans (length_takeIf_le _ s)))

theorem length_dropByte_le (x : UInt8) (s : Bytes) : (dropByte x s).length ≤ s.length := by
  unfold dropByte
  split_ifs
  · rw [List.length_tail]
    exact Nat.sub_le _ _
  · exact le_rfl

theorem length_tail_lt {s : Bytes} {x : UInt8} (h : s.head? = some x) : s.tail.length < s.length := by
  obtain ⟨t, rfl⟩ := List.head?_eq_some_iff.mp h
  exact Nat.lt_succ_self _

variable {guarded : Bool} {value value' : Bytes → Raw × Bytes}

theorem length_parseItems_le (hvalue : Shrinks value) (n : ℕ) (s : Bytes) :
    (parseItems value n s).2.length ≤ s.length := by
  induction n generalizing s with
  | zero => exact le_rfl
  | succ n ih =>
    have hitem := (length_skipWs_le _).trans ((hvalue (skipWs s)).trans (length_skipWs_le s))
    simp only [parseItems]
    split_ifs with hcomma
    · exact (ih _).trans ((length_tail_lt hcomma).le.trans hitem)
    · exact hitem

theorem length_parseKey_le (s : Bytes) : (parseKey guarded s).2.length ≤ s.length := by
  unfold parseKey
  split_ifs
  · exact le_rfl
  · refine (length_stringBody_le 0 s.tail).trans ?_
    rw [List.length_tail]
    exact Nat.sub_le _ _

theorem length_member_le (guarded : Bool) (s : Bytes) :
    (skipWs (dropByte 0x3a (skipWs (parseKey guarded (skipWs s)).2))).length ≤ s.length :=
  (length_skipWs_le _).trans ((length_dropByte_le _ _).trans ((length_skipWs_le _).trans
    ((length_parseKey_le _).trans (length_skipWs_le s))))

theorem length_parseMembers_le (hvalue : Shrinks value) (n : ℕ) (s : Bytes) :
    (parseMembers guarded value n s).2.length ≤ s.length := by
  induction n generalizing s with
  | zero => exact le_rfl
  | succ n ih =>
    have hmember := (length_skipWs_le _).trans ((hvalue _).trans (length_member_le guarded s))
    simp only [parseMembers]
    split_ifs with hcomma
    · exact (ih _).trans ((length_tail_lt hcomma).le.trans hmember)
    · exact hmember

theorem shrinks_parseArray (hvalue : Shrinks value) : Shrinks (parseArray value) := by
  intro s
  unfold parseArray
  split_ifs with hclose
  · exact (length_tail_lt hclose).le.trans (length_skipWs_le s)
  · exact (length_dropByte_le _ _).trans ((length_skipWs_le _).trans
      ((length_parseItems_le hvalue _ _).trans (length_skipWs_le s)))

theorem shrinks_parseObject (hvalue : Shrinks value) : Shrinks (parseObject guarded value) := by
  intro s
  unfold parseObject
  split_ifs with hclose
  · exact (length_tail_lt hclose).le.trans (length_skipWs_le s)
  · exact (length_dropByte_le _ _).trans ((length_skipWs_le _).trans
      ((length_parseMembers_le hvalue _ _).trans (length_skipWs_le s)))

theorem shrinks_parseValue (n : ℕ) : Shrinks (parseValue guarded n) := by
  induction n with
  | zero => exact fun s => le_rfl
  | succ n ih =>
    intro s
    have hws := length_skipWs_le s
    rw [parseValue]
    cases h : skipWs s with
    | nil => exact Nat.zero_le _
    | cons c r =>
      rw [h, List.length_cons] at hws
      have hdrop : ∀ k, ((c :: r).drop k).length ≤ s.length := fun k => by
        rw [List.length_drop, List.length_cons]
        omega
      dsimp only
      split_ifs
      · exact (length_stringBody_le 0 r).trans (by omega)
      · exact (shrinks_parseObject ih r).trans (by omega)
      · exact (shrinks_parseArray ih r).trans (by omega)
      · exact hdrop 4
      · exact hdrop 5
      · exact hdrop 4
      · exact (shrinks_parseNumber (c :: r)).trans hws
      · exact hws

/-- Two readers that agree on short texts read the same items of one; the bound on the loop is never met. -/
theorem parseItems_congr (hvalue : Shrinks value) {s : Bytes} (h : ∀ t, t.length ≤ s.length → value t = value' t)
    {n m : ℕ} (hn : s.length < n) (hm : s.length < m) : parseItems value n s = parseItems value' m s := by
  induction n generalizing s m with
  | zero => exact absurd hn (Nat.not_lt_zero _)
  | succ n ih =>
    cases m with
    | zero => exact absurd hm (Nat.not_lt_zero _)
    | succ m =>
      have hitem := (length_skipWs_le _).trans ((hvalue (skipWs s)).trans (length_skipWs_le s))
      simp only [parseItems, ← h (skipWs s) (length_skipWs_le s)]
      split_ifs with hcomma
      · have hlt := length_tail_lt hcomma
        rw [ih (fun t ht => h t (by omega)) (m := m) (by omega) (by omega)]
      · rfl

theorem parseMembers_congr (hvalue : Shrinks value) {s : Bytes} (h : ∀ t, t.length ≤ s.length → value t = value' t)
    {n m : ℕ} (hn : s.length < n) (hm : s.length < m) :
    parseMembers guarded value n s = parseMembers guarded value' m s := by
  induction n generalizing s m with
  | zero => exact absurd hn (Nat.not_lt_zero _)
  | succ n ih =>
    cases m with
    | zero => exact absurd hm (Nat.not_lt_zero _)
    | succ m =>
      have hmember := (length_skipWs_le _).trans ((hvalue _).trans (length_member_le guarded s))
      simp only [parseMembers, ← h _ (length_member_le guarded s)]
      split_ifs with hcomma
      · have hlt := length_tail_lt hcomma
        rw [ih (fun t ht => h t (by omega)) (m := m) (by omega) (by omega)]
      · rfl

/-- **The bound on the recursion is never met.** -/
theorem parseValue_stable {n m : ℕ} {s : Bytes} (hn : s.length < n) (hm : s.length < m) :
    parseValue guarded n s = parseValue guarded m s := by
  induction n generalizing s m with
  | zero => exact absurd hn (Nat.not_lt_zero _)
  | succ n ih =>
    cases m with
    | zero => exact absurd hm (Nat.not_lt_zero _)
    | succ m =>
      have hws := length_skipWs_le s
      rw [parseValue, parseValue]
      cases h : skipWs s with
      | nil => rfl
      | cons c r =>
        rw [h, List.length_cons] at hws
        have hinner := length_skipWs_le r
        have hsame : ∀ t : Bytes, t.length ≤ (skipWs r).length → parseValue guarded n t = parseValue guarded m t :=
          fun t ht => ih (by omega) (by omega)
        have harray : parseArray (parseValue guarded n) r = parseArray (parseValue guarded m) r := by
          unfold parseArray
          rw [parseItems_congr (shrinks_parseValue n) hsame (Nat.lt_succ_of_le hinner) (Nat.lt_succ_of_le hinner)]
        have hobject : parseObject guarded (parseValue guarded n) r = parseObject guarded (parseValue guarded m) r := by
          unfold parseObject
          rw [parseMembers_congr (shrinks_parseValue n) hsame (Nat.lt_succ_of_le hinner) (Nat.lt_succ_of_le hinner)]
        dsimp only
        rw [harray, hobject]

end Bound

/-! ## The text of a value -/

section Text

/-- What follows a value in a text. -/
def Stops (rest : Bytes) : Prop := ∀ c ∈ rest.head?, c = 0x2c ∨ c = 0x5d ∨ c = 0x7d

theorem stops_nil : Stops [] := fun c h => absurd h (by simp)

theorem stops_cons {c : UInt8} (h : c = 0x2c ∨ c = 0x5d ∨ c = 0x7d) (rest : Bytes) : Stops (c :: rest) := by
  intro d hd
  obtain rfl : c = d := by simpa using hd
  exact h

theorem Stops.head {rest : Bytes} (h : Stops rest) {p : UInt8 → Bool} (hcomma : p 0x2c = false)
    (hbracket : p 0x5d = false) (hbrace : p 0x7d = false) : ∀ c ∈ rest.head?, p c = false := by
  intro c hc
  rcases h c hc with rfl | rfl | rfl
  · exact hcomma
  · exact hbracket
  · exact hbrace

theorem takeWhile_of_head {p : UInt8 → Bool} {s : Bytes} (h : ∀ c ∈ s.head?, p c = false) :
    s.takeWhile p = [] ∧ s.dropWhile p = s := by
  cases s with
  | nil => exact ⟨rfl, rfl⟩
  | cons c s =>
    have hc : ¬ p c = true := by simp [h c rfl]
    exact ⟨List.takeWhile_cons_of_neg hc, List.dropWhile_cons_of_neg hc⟩

theorem skipWs_of_head {s : Bytes} (h : ∀ c ∈ s.head?, isWs c = false) : skipWs s = s := (takeWhile_of_head h).2

theorem Stops.skipWs {rest : Bytes} (h : Stops rest) : Guest.skipWs rest = rest :=
  skipWs_of_head (h.head (by decide) (by decide) (by decide))

/-! ### Strings -/

/-- What is left of a byte: the escapes that are written as code points are not read. -/
def spokenByte (x : UInt8) : UInt8 :=
  if x < 0x20 ∧ x ≠ 0x08 ∧ x ≠ 0x09 ∧ x ≠ 0x0a ∧ x ≠ 0x0c ∧ x ≠ 0x0d then 0x3f else x

/-- What is left of a text. -/
def spoken (b : Bytes) : Bytes := b.map spokenByte

/-- No control character but those with a letter for an escape. -/
def Plain (b : Bytes) : Prop := ∀ x ∈ b, 0x20 ≤ x ∨ x = 0x08 ∨ x = 0x09 ∨ x = 0x0a ∨ x = 0x0c ∨ x = 0x0d

instance (b : Bytes) : Decidable (Plain b) :=
  inferInstanceAs (Decidable (∀ x ∈ b, 0x20 ≤ x ∨ x = 0x08 ∨ x = 0x09 ∨ x = 0x0a ∨ x = 0x0c ∨ x = 0x0d))

theorem spokenByte_eq_self {x : UInt8} :
    spokenByte x = x ↔ 0x20 ≤ x ∨ x = 0x08 ∨ x = 0x09 ∨ x = 0x0a ∨ x = 0x0c ∨ x = 0x0d := by
  unfold spokenByte
  split_ifs with h
  · obtain ⟨hlt, h₁, h₂, h₃, h₄, h₅⟩ := h
    have hne : (0x3f : UInt8) ≠ x := by
      rintro rfl
      exact absurd hlt (by decide)
    simp [hne, h₁, h₂, h₃, h₄, h₅, hlt]
  · simp only [true_iff]
    by_contra hnot
    push Not at hnot
    exact h ⟨UInt8.not_le.mp hnot.1, hnot.2.1, hnot.2.2.1, hnot.2.2.2.1, hnot.2.2.2.2.1, hnot.2.2.2.2.2⟩

theorem plain_iff {b : Bytes} : Plain b ↔ spoken b = b := by
  induction b with
  | nil => simp [Plain, spoken]
  | cons x b ih =>
    have hspoken : spoken (x :: b) = spokenByte x :: spoken b := rfl
    have hplain : Plain (x :: b) ↔ spokenByte x = x ∧ Plain b := by
      rw [spokenByte_eq_self, Plain, List.forall_mem_cons]
      rfl
    rw [hspoken, List.cons.injEq, hplain, ih]

theorem spokenByte_spokenByte (x : UInt8) : spokenByte (spokenByte x) = spokenByte x := by
  by_cases h : x < 0x20 ∧ x ≠ 0x08 ∧ x ≠ 0x09 ∧ x ≠ 0x0a ∧ x ≠ 0x0c ∧ x ≠ 0x0d
  · rw [spokenByte, spokenByte, if_pos h]
    rfl
  · rw [spokenByte, spokenByte, if_neg h, if_neg h]

theorem plain_spoken (b : Bytes) : Plain (spoken b) := by
  rw [plain_iff, spoken, spoken, List.map_map]
  exact List.map_congr_left fun x _ => spokenByte_spokenByte x

theorem stringBody_quote (s : Bytes) : stringBody 0 (0x22 :: s) = ([], s) := by cases s <;> rfl

theorem stringBody_plain {x : UInt8} (hquote : x ≠ 0x22) (hslash : x ≠ 0x5c) (s : Bytes) :
    stringBody 0 (x :: s) = (x :: (stringBody 0 s).1, (stringBody 0 s).2) := by
  cases s <;> simp [stringBody, hquote, hslash]

theorem stringBody_escapeByte (x : UInt8) (s : Bytes) :
    stringBody 0 (escapeByte x ++ s) = (spokenByte x :: (stringBody 0 s).1, (stringBody 0 s).2) := by
  unfold escapeByte
  split_ifs with h₁ h₂ h₃ h₄ h₅ h₆ h₇ h₈
  · subst h₁; rfl
  · subst h₂; rfl
  · subst h₃; rfl
  · subst h₄; rfl
  · subst h₅; rfl
  · subst h₆; rfl
  · subst h₇; rfl
  · rw [spokenByte, if_pos ⟨h₈, h₃, h₄, h₅, h₆, h₇⟩]
    rfl
  · rw [spokenByte, if_neg fun h => h₈ h.1]
    exact stringBody_plain h₁ h₂ s

theorem stringBody_text (b rest : Bytes) : stringBody 0 (b.flatMap escapeByte ++ 0x22 :: rest) = (spoken b, rest) := by
  induction b with
  | nil => exact stringBody_quote rest
  | cons x b ih =>
    rw [List.flatMap_cons, List.append_assoc, stringBody_escapeByte, ih]
    rfl

theorem stringText_append (t : String) (rest : Bytes) :
    stringText t ++ rest = 0x22 :: ((utf8 t).flatMap escapeByte ++ 0x22 :: rest) := by
  simp [stringText]

/-! ### Numbers -/

def Digits (ds : Bytes) : Prop := ∀ c ∈ ds, isDigit c = true

theorem Digits.split {ds s : Bytes} (h : Digits ds) (hs : ∀ c ∈ s.head?, isDigit c = false) :
    (ds ++ s).takeWhile isDigit = ds ∧ (ds ++ s).dropWhile isDigit = s := by
  rw [List.takeWhile_append_of_pos h, List.dropWhile_append_of_pos h, (takeWhile_of_head hs).1,
    (takeWhile_of_head hs).2]
  exact ⟨List.append_nil ds, rfl⟩

theorem takeIf_of_head {p : UInt8 → Bool} {s : Bytes} (h : ∀ c ∈ s.head?, p c = false) : takeIf p s = ([], s) := by
  cases s with
  | nil => rfl
  | cons c s => rw [takeIf, if_neg (by simp [h c rfl])]

theorem takeIf_append {p : UInt8 → Bool} {o s : Bytes} (ho : o = [] ∨ ∃ c, p c = true ∧ o = [c])
    (hs : ∀ c ∈ s.head?, p c = false) : takeIf p (o ++ s) = (o, s) := by
  rcases ho with rfl | ⟨c, hc, rfl⟩
  · exact takeIf_of_head hs
  · exact if_pos hc

/-- The parts of a number, as `serde_json` writes them. -/
structure NumberText (sign whole fraction exponent : Bytes) : Prop where
  sign : sign = [] ∨ sign = [0x2d]
  whole : whole ≠ [] ∧ Digits whole
  fraction : fraction = [] ∨ ∃ ds, Digits ds ∧ fraction = 0x2e :: ds
  exponent : exponent = [] ∨ ∃ s ds, (s = [] ∨ s = [0x2d]) ∧ ds ≠ [] ∧ Digits ds ∧ exponent = 0x65 :: (s ++ ds)

/-- The parts of a number, as the C library prints them too: the sign of an exponent may be a plus. -/
structure Numeral (sign whole fraction exponent : Bytes) : Prop where
  sign : sign = [] ∨ sign = [0x2d]
  whole : whole ≠ [] ∧ Digits whole
  fraction : fraction = [] ∨ ∃ ds, Digits ds ∧ fraction = 0x2e :: ds
  exponent : exponent = [] ∨
    ∃ s ds, (s = [] ∨ s = [0x2d] ∨ s = [0x2b]) ∧ ds ≠ [] ∧ Digits ds ∧ exponent = 0x65 :: (s ++ ds)

theorem NumberText.numeral {sign whole fraction exponent : Bytes} (h : NumberText sign whole fraction exponent) :
    Numeral sign whole fraction exponent := by
  refine ⟨h.sign, h.whole, h.fraction, h.exponent.imp id ?_⟩
  rintro ⟨s, ds, hs, hrest⟩
  exact ⟨s, ds, hs.imp id .inl, hrest⟩

theorem head_append_of_ne_nil {ds s : Bytes} (hds : ds ≠ []) : (ds ++ s).head? = ds.head? := by
  cases ds with
  | nil => exact absurd rfl hds
  | cons c ds => rfl

theorem Digits.head {ds : Bytes} (h : Digits ds) (hne : ds ≠ []) {p : UInt8 → Bool}
    (hp : ∀ c, isDigit c = true → p c = false) (s : Bytes) : ∀ c ∈ (ds ++ s).head?, p c = false := by
  intro c hc
  rw [head_append_of_ne_nil hne] at hc
  exact hp c (h c (List.mem_of_mem_head? hc))

theorem isDigit_ne {c x : UInt8} (h : isDigit c = true) (hx : isDigit x = false) : c ≠ x := by
  rintro rfl
  rw [h] at hx
  cases hx

variable {sign whole fraction exponent rest : Bytes}

theorem takeFraction_append (h : Numeral sign whole fraction exponent) (hrest : Stops rest) :
    takeFraction (fraction ++ (exponent ++ rest)) = (fraction, exponent ++ rest) := by
  have hhead : ∀ {p : UInt8 → Bool}, p 0x65 = false → p 0x2c = false → p 0x5d = false → p 0x7d = false →
      ∀ c ∈ (exponent ++ rest).head?, p c = false := by
    intro p he h₁ h₂ h₃ c hc
    rcases h.exponent with rfl | ⟨s, ds, -, -, -, rfl⟩
    · exact hrest.head h₁ h₂ h₃ c hc
    · obtain rfl : 0x65 = c := by simpa using hc
      exact he
  unfold takeFraction
  rcases h.fraction with rfl | ⟨ds, hds, rfl⟩
  · rw [List.nil_append, takeIf_of_head (hhead (by decide) (by decide) (by decide) (by decide))]
    rfl
  · rw [List.cons_append, takeIf, if_pos (by decide)]
    obtain ⟨htake, hdrop⟩ := hds.split (hhead (by decide) (by decide) (by decide) (by decide))
    dsimp only
    rw [htake, hdrop, if_neg (by simp)]
    rfl

theorem takeExponent_append (h : Numeral sign whole fraction exponent) (hrest : Stops rest) :
    takeExponent (exponent ++ rest) = (exponent, rest) := by
  unfold takeExponent
  rcases h.exponent with rfl | ⟨s, ds, hs, hne, hds, rfl⟩
  · rw [List.nil_append, takeIf_of_head (hrest.head (by decide) (by decide) (by decide))]
    rfl
  · have hsign : takeIf (fun c => c = 0x2b || c = 0x2d) (s ++ (ds ++ rest)) = (s, ds ++ rest) := by
      have hsigned : s = [] ∨ ∃ c : UInt8, (decide (c = 0x2b) || decide (c = 0x2d)) = true ∧ s = [c] := by
        rcases hs with hs | hs | hs
        · exact .inl hs
        · exact .inr ⟨0x2d, by decide, hs⟩
        · exact .inr ⟨0x2b, by decide, hs⟩
      refine takeIf_append hsigned (hds.head hne (fun c hc => ?_) rest)
      simp [isDigit_ne hc (x := 0x2b) (by decide), isDigit_ne hc (x := 0x2d) (by decide)]
    obtain ⟨htake, hdrop⟩ := hds.split (hrest.head (p := isDigit) (by decide) (by decide) (by decide))
    rw [List.cons_append, takeIf, if_pos (by decide)]
    dsimp only
    rw [if_neg (by simp), List.append_assoc s, hsign]
    dsimp only
    rw [htake, hdrop]
    rfl

/-- **A number is read to its end.** -/
theorem parseNumber_append (h : Numeral sign whole fraction exponent) (hrest : Stops rest) :
    parseNumber (sign ++ whole ++ fraction ++ exponent ++ rest) =
      (.number (fraction ≠ [] || exponent ≠ []) ((sign ++ whole ++ fraction ++ exponent).take 63), rest) := by
  have hsign : takeIf (· = 0x2d) (sign ++ (whole ++ (fraction ++ (exponent ++ rest)))) =
      (sign, whole ++ (fraction ++ (exponent ++ rest))) := by
    refine takeIf_append (h.sign.imp id fun h => ⟨0x2d, by decide, h⟩) (h.whole.2.head h.whole.1 (fun c hc => ?_) _)
    simp [isDigit_ne hc (x := 0x2d) (by decide)]
  have hhead : ∀ c ∈ (fraction ++ (exponent ++ rest)).head?, isDigit c = false := by
    intro c hc
    rcases h.fraction with rfl | ⟨ds, -, rfl⟩
    · rcases h.exponent with rfl | ⟨s, ds, -, -, -, rfl⟩
      · exact hrest.head (by decide) (by decide) (by decide) c hc
      · obtain rfl : 0x65 = c := by simpa using hc
        decide
    · obtain rfl : 0x2e = c := by simpa using hc
      decide
  obtain ⟨htake, hdrop⟩ := h.whole.2.split hhead
  unfold parseNumber
  rw [List.append_assoc, List.append_assoc, List.append_assoc, hsign]
  dsimp only
  rw [htake, hdrop, takeFraction_append h hrest]
  dsimp only
  rw [takeExponent_append h hrest]

theorem Numeral.head (h : Numeral sign whole fraction exponent) :
    ∃ c r, sign ++ whole ++ fraction ++ exponent = c :: r ∧ (c = 0x2d ∨ isDigit c = true) := by
  rcases h.sign with rfl | rfl
  · obtain ⟨c, ds, rfl⟩ := List.exists_cons_of_ne_nil h.whole.1
    exact ⟨c, _, rfl, .inr (h.whole.2 c List.mem_cons_self)⟩
  · exact ⟨_, _, rfl, .inl rfl⟩

theorem ne_of_numeral_head {c x : UInt8} (hc : c = 0x2d ∨ isDigit c = true) (hx : x ≠ 0x2d) (hdigit : isDigit x = false) :
    c ≠ x := by
  rintro rfl
  rcases hc with rfl | hc
  · exact hx rfl
  · exact isDigit_ne hc hdigit rfl

theorem isWs_of_numeral_head {c : UInt8} (hc : c = 0x2d ∨ isDigit c = true) : isWs c = false := by
  have hne : ∀ x : UInt8, x ≠ 0x2d → isDigit x = false → c ≠ x := fun x => ne_of_numeral_head hc
  simp [isWs, hne 0x20 (by decide) (by decide), hne 0x09 (by decide) (by decide), hne 0x0a (by decide) (by decide),
    hne 0x0d (by decide) (by decide)]

/-! ### Values and what follows them -/

/-- A reader reads this from the text, whatever follows a value. -/
def Spells (value : Bytes → Raw × Bytes) (t : Bytes) (r : Raw) : Prop :=
  (∃ c s, t = c :: s ∧ isWs c = false ∧ c ≠ 0x5d) ∧ ∀ rest, Stops rest → value (t ++ rest) = (r, rest)

def moreTexts (ts : List Bytes) : Bytes := ts.flatMap fun t => 0x2c :: t

def quoted (b : Bytes) : Bytes := 0x22 :: (b.flatMap escapeByte ++ [0x22])

/-- A member: its key, the text of its value, and what is read from that. -/
abbrev Spelled := Bytes × Bytes × Raw

def memberText (m : Spelled) : Bytes := quoted m.1 ++ 0x3a :: m.2.1

def memberRead (m : Spelled) : Option Bytes × Raw := (some (spoken m.1), m.2.2)

section Spells

variable {guarded : Bool} {value : Bytes → Raw × Bytes} {t : Bytes} {r : Raw}

theorem Spells.skipWs (h : Spells value t r) (s : Bytes) : skipWs (t ++ s) = t ++ s := by
  obtain ⟨⟨c, u, rfl, hc, -⟩, -⟩ := h
  refine skipWs_of_head fun d hd => ?_
  obtain rfl : c = d := by simpa using hd
  exact hc

theorem quoted_append (b rest : Bytes) : quoted b ++ rest = 0x22 :: (b.flatMap escapeByte ++ 0x22 :: rest) := by
  simp [quoted]

theorem skipWs_quoted (b rest : Bytes) : skipWs (quoted b ++ rest) = quoted b ++ rest := by
  refine skipWs_of_head fun c hc => ?_
  obtain rfl : 0x22 = c := by simpa [quoted] using hc
  decide

theorem parseKey_quoted (b rest : Bytes) : parseKey guarded (quoted b ++ rest) = (some (spoken b), rest) := by
  rw [quoted_append, parseKey, if_neg (by simp), List.tail_cons, stringBody_text]

theorem parseItems_texts {es : List (Bytes × Raw)} (h : Spells value t r) (hs : ∀ e ∈ es, Spells value e.1 e.2)
    {n : ℕ} (hn : es.length < n) :
    parseItems value n (t ++ (moreTexts (es.map Prod.fst) ++ 0x5d :: rest)) =
      (r :: es.map Prod.snd, 0x5d :: rest) := by
  induction es generalizing t r n with
  | nil =>
    cases n with
    | zero => exact absurd hn (Nat.not_lt_zero _)
    | succ n =>
      have hstops := stops_cons (c := 0x5d) (by simp) rest
      rw [parseItems, h.skipWs, List.map_nil, moreTexts, List.flatMap_nil, List.nil_append, h.2 _ hstops]
      dsimp only
      rw [hstops.skipWs, if_neg (by simp)]
      rfl
  | cons e es ih =>
    cases n with
    | zero => exact absurd hn (Nat.not_lt_zero _)
    | succ n =>
      have hstops := stops_cons (c := 0x2c) (by simp) (e.1 ++ (moreTexts (es.map Prod.fst) ++ 0x5d :: rest))
      have hmore : moreTexts ((e :: es).map Prod.fst) ++ 0x5d :: rest =
          0x2c :: (e.1 ++ (moreTexts (es.map Prod.fst) ++ 0x5d :: rest)) := by
        simp [moreTexts]
      rw [parseItems, h.skipWs, hmore, h.2 _ hstops]
      dsimp only
      rw [hstops.skipWs, if_pos List.head?_cons, List.tail_cons,
        ih (hs e List.mem_cons_self) (fun d hd => hs d (List.mem_cons_of_mem _ hd)) (Nat.lt_of_succ_lt_succ hn)]
      rfl

theorem parseMember_quoted (guarded : Bool) (k : Bytes) (h : Spells value t r) (hrest : Stops rest) :
    parseKey guarded (skipWs (quoted k ++ 0x3a :: (t ++ rest))) = (some (spoken k), 0x3a :: (t ++ rest)) ∧
      value (skipWs (dropByte 0x3a (skipWs (0x3a :: (t ++ rest))))) = (r, rest) := by
  have hcolon : skipWs (0x3a :: (t ++ rest)) = 0x3a :: (t ++ rest) :=
    skipWs_of_head fun c hc => by obtain rfl : 0x3a = c := by simpa using hc
                                  decide
  constructor
  · rw [skipWs_quoted, parseKey_quoted]
  · rw [hcolon, dropByte, if_pos List.head?_cons, List.tail_cons, h.skipWs, h.2 _ hrest]

theorem parseMembers_texts {k : Bytes} {ms : List Spelled} (h : Spells value t r)
    (hs : ∀ m ∈ ms, Spells value m.2.1 m.2.2) {n : ℕ} (hn : ms.length < n) :
    parseMembers guarded value n (quoted k ++ 0x3a :: (t ++ (moreTexts (ms.map memberText) ++ 0x7d :: rest))) =
      ((some (spoken k), r) :: ms.map memberRead, 0x7d :: rest) := by
  induction ms generalizing k t r n with
  | nil =>
    cases n with
    | zero => exact absurd hn (Nat.not_lt_zero _)
    | succ n =>
      have hstops := stops_cons (c := 0x7d) (by simp) rest
      obtain ⟨hkey, hmember⟩ := parseMember_quoted guarded k h hstops
      rw [parseMembers, List.map_nil, moreTexts, List.flatMap_nil, List.nil_append, hkey]
      dsimp only
      rw [hmember]
      dsimp only
      rw [hstops.skipWs, if_neg (by simp)]
      rfl
  | cons m ms ih =>
    cases n with
    | zero => exact absurd hn (Nat.not_lt_zero _)
    | succ n =>
      have hstops := stops_cons (c := 0x2c) (by simp)
        (quoted m.1 ++ 0x3a :: (m.2.1 ++ (moreTexts (ms.map memberText) ++ 0x7d :: rest)))
      have hmore : moreTexts ((m :: ms).map memberText) ++ 0x7d :: rest =
          0x2c :: (quoted m.1 ++ 0x3a :: (m.2.1 ++ (moreTexts (ms.map memberText) ++ 0x7d :: rest))) := by
        simp [moreTexts, memberText]
      obtain ⟨hkey, hmember⟩ := parseMember_quoted guarded k h hstops
      rw [parseMembers, hmore, hkey]
      dsimp only
      rw [hmember]
      dsimp only
      rw [hstops.skipWs, if_pos List.head?_cons, List.tail_cons,
        ih (hs m List.mem_cons_self) (fun q hq => hs q (List.mem_cons_of_mem _ hq)) (Nat.lt_of_succ_lt_succ hn)]
      rfl

theorem length_le_moreTexts (ts : List Bytes) : ts.length ≤ (moreTexts ts).length := by
  induction ts with
  | nil => exact Nat.zero_le _
  | cons t ts ih =>
    rw [moreTexts, List.flatMap_cons, List.length_append, List.length_cons, List.length_cons]
    rw [moreTexts] at ih
    omega

/-- **An array is read from the texts of its items.** -/
theorem spells_array {n : ℕ} {es : List (Bytes × Raw)} (h : Spells (parseValue guarded n) t r)
    (hs : ∀ e ∈ es, Spells (parseValue guarded n) e.1 e.2) :
    Spells (parseValue guarded (n + 1)) (0x5b :: (t ++ (moreTexts (es.map Prod.fst) ++ [0x5d])))
      (.array (r :: es.map Prod.snd)) := by
  refine ⟨⟨_, _, rfl, by decide, by decide⟩, fun rest _ => ?_⟩
  have htext : 0x5b :: (t ++ (moreTexts (es.map Prod.fst) ++ [0x5d])) ++ rest =
      0x5b :: (t ++ (moreTexts (es.map Prod.fst) ++ 0x5d :: rest)) := by simp
  have hcount := length_le_moreTexts (es.map Prod.fst)
  have hfuel : es.length < (t ++ (moreTexts (es.map Prod.fst) ++ 0x5d :: rest)).length + 1 := by
    rw [List.length_append, List.length_append]
    rw [List.length_map] at hcount
    omega
  have hclose : (t ++ (moreTexts (es.map Prod.fst) ++ 0x5d :: rest)).head? ≠ some 0x5d := by
    obtain ⟨⟨c, u, rfl, -, hc⟩, -⟩ := h
    simpa using hc
  rw [htext, parseValue, skipWs_of_head (by simp [isWs])]
  dsimp only
  rw [if_neg (by decide), if_neg (by decide), if_pos rfl, parseArray, h.skipWs, if_neg hclose,
    parseItems_texts h hs hfuel]
  dsimp only
  rw [skipWs_of_head (by simp [isWs]), dropByte, if_pos List.head?_cons, List.tail_cons]

/-- **An object is read from its keys and the texts of its values.** -/
theorem spells_object {n : ℕ} {k : Bytes} {ms : List Spelled} (h : Spells (parseValue guarded n) t r)
    (hs : ∀ m ∈ ms, Spells (parseValue guarded n) m.2.1 m.2.2) :
    Spells (parseValue guarded (n + 1)) (0x7b :: (quoted k ++ 0x3a :: (t ++ (moreTexts (ms.map memberText) ++ [0x7d]))))
      (.object ((some (spoken k), r) :: ms.map memberRead)) := by
  refine ⟨⟨_, _, rfl, by decide, by decide⟩, fun rest _ => ?_⟩
  have htext : 0x7b :: (quoted k ++ 0x3a :: (t ++ (moreTexts (ms.map memberText) ++ [0x7d]))) ++ rest =
      0x7b :: (quoted k ++ 0x3a :: (t ++ (moreTexts (ms.map memberText) ++ 0x7d :: rest))) := by simp
  have hcount := length_le_moreTexts (ms.map memberText)
  have hfuel : ms.length < (quoted k ++ 0x3a :: (t ++ (moreTexts (ms.map memberText) ++ 0x7d :: rest))).length + 1 := by
    rw [List.length_append, List.length_cons, List.length_append, List.length_append]
    rw [List.length_map] at hcount
    omega
  rw [htext, parseValue, skipWs_of_head (by simp [isWs])]
  dsimp only
  rw [if_neg (by decide), if_pos rfl, parseObject, skipWs_quoted, if_neg (by simp [quoted]),
    parseMembers_texts h hs hfuel]
  dsimp only
  rw [skipWs_of_head (by simp [isWs]), dropByte, if_pos List.head?_cons, List.tail_cons]

theorem spells_quoted (b : Bytes) (n : ℕ) : Spells (parseValue guarded (n + 1)) (quoted b) (.string (spoken b)) := by
  refine ⟨⟨_, _, rfl, by decide, by decide⟩, fun rest _ => ?_⟩
  rw [quoted_append, parseValue, skipWs_of_head (by simp [isWs])]
  dsimp only
  rw [if_pos rfl, stringBody_text]

theorem spells_numeral (h : Numeral sign whole fraction exponent)
    (hlen : (sign ++ whole ++ fraction ++ exponent).length ≤ 63) (n : ℕ) :
    Spells (parseValue guarded (n + 1)) (sign ++ whole ++ fraction ++ exponent)
      (.number (fraction ≠ [] || exponent ≠ []) (sign ++ whole ++ fraction ++ exponent)) := by
  obtain ⟨c, r, hcr, hc⟩ := h.head
  have hne : ∀ x : UInt8, x ≠ 0x2d → isDigit x = false → c ≠ x := fun x => ne_of_numeral_head hc
  have hblank := isWs_of_numeral_head hc
  refine ⟨⟨c, r, hcr, hblank, hne _ (by decide) (by decide)⟩, fun rest hrest => ?_⟩
  have hnumber := parseNumber_append h hrest
  have hword : ∀ (k : ℕ) (x : UInt8) (w : Bytes), x ≠ 0x2d → isDigit x = false →
      (c :: (r ++ rest)).take (k + 1) ≠ x :: w :=
    fun k x w hx hdigit heq => hne x hx hdigit (List.cons.inj heq).1
  rw [List.take_of_length_le hlen] at hnumber
  rw [hcr] at hnumber ⊢
  rw [List.cons_append] at hnumber ⊢
  rw [parseValue, skipWs_of_head (fun d hd => by obtain rfl : c = d := by simpa using hd
                                                 exact hblank)]
  dsimp only
  rw [if_neg (hne _ (by decide) (by decide)), if_neg (hne _ (by decide) (by decide)),
    if_neg (hne _ (by decide) (by decide)), if_neg (hword 3 _ _ (by decide) (by decide)),
    if_neg (hword 4 _ _ (by decide) (by decide)), if_neg (hword 3 _ _ (by decide) (by decide)), if_pos hc, hnumber]

end Spells

end Text

/-! ### Values -/

section Values

variable (f64Text : F64Text)

def isFloat : Number → Bool
  | .float _ _ => true
  | _ => false

mutual

def rawOf : Value → Raw
  | .null => .nil
  | .bool b => .boolean b
  | .number n => .number (isFloat n) (numberText f64Text n)
  | .string s => .string (spoken (utf8 s))
  | .array items => .array (rawItems items)
  | .object fields => .object (rawFields fields)

def rawItems : List Value → List Raw
  | [] => []
  | v :: vs => rawOf v :: rawItems vs

def rawFields : List (String × Value) → List (Option Bytes × Raw)
  | [] => []
  | (k, v) :: fs => (some (spoken (utf8 k)), rawOf v) :: rawFields fs

end

/-- The text of an `f64` has a fraction or an exponent, and no more characters than the buffer of a number. -/
def FloatText (t : Bytes) : Prop :=
  ∃ sign whole fraction exponent, NumberText sign whole fraction exponent ∧ (fraction ≠ [] ∨ exponent ≠ []) ∧
    t = sign ++ whole ++ fraction ++ exponent ∧ t.length ≤ 63

def FloatsPrint : Value → Prop
  | .number (.float bits _) => FloatText (f64Text bits)
  | _ => True

variable {f64Text}

theorem rawItems_eq_map (vs : List Value) : rawItems f64Text vs = vs.map (rawOf f64Text) := by
  induction vs with
  | nil => rfl
  | cons v vs ih => rw [rawItems, ih, List.map_cons]

theorem rawFields_eq_map (fs : List (String × Value)) :
    rawFields f64Text fs = fs.map fun p => (some (spoken (utf8 p.1)), rawOf f64Text p.2) := by
  induction fs with
  | nil => rfl
  | cons p fs ih => rw [rawFields, ih, List.map_cons]

theorem numberText_neg {i : Int64} (h : i < 0) : utf8 (toString i.toInt) = 0x2d :: natText i.toInt.natAbs :=
  utf8_toString_neg (by rwa [Int64.lt_iff_toInt_lt, Int64.toInt_zero] at h)

theorem numberText_parts {n : Number} (h : FloatsPrint f64Text (.number n)) :
    ∃ sign whole fraction exponent, NumberText sign whole fraction exponent ∧
      numberText f64Text n = sign ++ whole ++ fraction ++ exponent ∧
      (numberText f64Text n).length ≤ 63 ∧ isFloat n = (fraction ≠ [] || exponent ≠ [] : Bool) := by
  have hdigits : ∀ m, Digits (natText m) := fun m c hc => isDigit_of_mem_natText hc
  cases n with
  | posInt n =>
    have hlen := length_natText_le (n := n.toNat) (k := 20) (by decide) (by have := n.toNat_lt; omega)
    refine ⟨[], natText n.toNat, [], [], ⟨.inl rfl, ⟨natText_ne_nil _, hdigits _⟩, .inl rfl, .inl rfl⟩, ?_, ?_, rfl⟩
    · rw [numberText, utf8_toString_nat]
      simp
    · rw [numberText, utf8_toString_nat]
      omega
  | negInt i neg =>
    have hlow := i.le_toInt
    have hneg := i.toInt_lt
    have hlen := length_natText_le (n := i.toInt.natAbs) (k := 20) (by decide) (by omega)
    refine ⟨[0x2d], natText i.toInt.natAbs, [], [],
      ⟨.inr rfl, ⟨natText_ne_nil _, hdigits _⟩, .inl rfl, .inl rfl⟩, ?_, ?_, rfl⟩
    · rw [numberText, numberText_neg neg]
      simp
    · rw [numberText, numberText_neg neg, List.length_cons]
      omega
  | float bits fin =>
    obtain ⟨sign, whole, fraction, exponent, hparts, hfloat, heq, hlen⟩ := h
    refine ⟨sign, whole, fraction, exponent, hparts, heq, hlen, ?_⟩
    rcases hfloat with h | h <;> simp [isFloat, h]

theorem head_jsonText {v : Value} (h : v.All (FloatsPrint f64Text)) :
    ∃ c r, jsonText f64Text v = c :: r ∧ isWs c = false ∧ c ≠ 0x5d := by
  cases v with
  | null => exact ⟨_, _, rfl, by decide, by decide⟩
  | bool b => cases b <;> exact ⟨_, _, rfl, by decide, by decide⟩
  | number n =>
    obtain ⟨sign, whole, fraction, exponent, hparts, heq, -, -⟩ := numberText_parts h.self
    obtain ⟨c, r, hcr, hc⟩ := hparts.numeral.head
    rw [jsonText, heq]
    exact ⟨c, r, hcr, isWs_of_numeral_head hc, ne_of_numeral_head hc (by decide) (by decide)⟩
  | string s => exact ⟨_, _, rfl, by decide, by decide⟩
  | array items => cases items <;> exact ⟨_, _, rfl, by decide, by decide⟩
  | object fields =>
    cases fields with
    | nil => exact ⟨_, _, rfl, by decide, by decide⟩
    | cons p fs => exact ⟨_, _, rfl, by decide, by decide⟩

theorem skipWs_jsonText {v : Value} (h : v.All (FloatsPrint f64Text)) (r : Bytes) :
    skipWs (jsonText f64Text v ++ r) = jsonText f64Text v ++ r := by
  obtain ⟨c, t, ht, hc, -⟩ := head_jsonText h
  refine skipWs_of_head fun d hd => ?_
  rw [ht] at hd
  obtain rfl : c = d := by simpa using hd
  exact hc

theorem skipWs_stringText (k : String) (rest : Bytes) : skipWs (stringText k ++ rest) = stringText k ++ rest :=
  skipWs_quoted (utf8 k) rest

variable {guarded : Bool} {value : Bytes → Raw × Bytes}

def Reads (f64Text : F64Text) (value : Bytes → Raw × Bytes) (v : Value) : Prop :=
  v.All (FloatsPrint f64Text) ∧ ∀ rest, Stops rest → value (jsonText f64Text v ++ rest) = (rawOf f64Text v, rest)

theorem Reads.spells {v : Value} (h : Reads f64Text value v) : Spells value (jsonText f64Text v) (rawOf f64Text v) :=
  ⟨head_jsonText h.1, h.2⟩

theorem moreItemsText_eq (f64Text : F64Text) (vs : List Value) :
    moreItemsText f64Text vs = moreTexts (vs.map (jsonText f64Text)) := by
  induction vs with
  | nil => rfl
  | cons v vs ih =>
    rw [moreItemsText, ih]
    simp [moreTexts]

theorem moreFieldsText_eq (f64Text : F64Text) (fs : List (String × Value)) :
    moreFieldsText f64Text fs = moreTexts (fs.map fun p => quoted (utf8 p.1) ++ 0x3a :: jsonText f64Text p.2) := by
  induction fs with
  | nil => rfl
  | cons p fs ih =>
    rw [moreFieldsText, ih]
    simp [moreTexts, stringText, quoted]

theorem length_le_moreItemsText (f64Text : F64Text) (vs : List Value) :
    vs.length ≤ (moreItemsText f64Text vs).length := by
  rw [moreItemsText_eq]
  simpa using length_le_moreTexts (vs.map (jsonText f64Text))

theorem length_le_moreFieldsText (f64Text : F64Text) (fs : List (String × Value)) :
    fs.length ≤ (moreFieldsText f64Text fs).length := by
  rw [moreFieldsText_eq]
  simpa using length_le_moreTexts (fs.map fun p => quoted (utf8 p.1) ++ 0x3a :: jsonText f64Text p.2)

theorem spells_number {n : Number} (h : FloatsPrint f64Text (.number n)) (m : ℕ) :
    Spells (parseValue guarded (m + 1)) (numberText f64Text n) (rawOf f64Text (.number n)) := by
  obtain ⟨sign, whole, fraction, exponent, hparts, heq, hlen, hfloat⟩ := numberText_parts h
  have hspells := @spells_numeral _ _ _ _ guarded hparts.numeral (by rwa [← heq]) m
  rwa [← heq, ← hfloat] at hspells

/-- **What is read back from the text of a value.** -/
theorem reads_parseValue {v : Value} (hv : v.All (FloatsPrint f64Text)) :
    ∀ {n : ℕ}, v.depth < n → Reads f64Text (parseValue guarded n) v := by
  induction v with
  | null => rintro (_ | n) hn; exacts [absurd hn (Nat.not_lt_zero _), ⟨hv, fun rest _ => rfl⟩]
  | bool b => rintro (_ | n) hn; exacts [absurd hn (Nat.not_lt_zero _), ⟨hv, fun rest _ => by cases b <;> rfl⟩]
  | number m =>
    rintro (_ | n) hn
    exacts [absurd hn (Nat.not_lt_zero _), ⟨hv, (spells_number hv n).2⟩]
  | string s =>
    rintro (_ | n) hn
    exacts [absurd hn (Nat.not_lt_zero _), ⟨hv, (spells_quoted (utf8 s) n).2⟩]
  | array items ih =>
    rintro (_ | n) hn
    · exact absurd hn (Nat.not_lt_zero _)
    refine ⟨hv, ?_⟩
    cases items with
    | nil => exact fun rest _ => rfl
    | cons v vs =>
      rw [Value.all_array] at hv
      have hdepth := Value.depth_array_le.mp (Nat.lt_succ_iff.mp hn)
      have hread : ∀ w ∈ v :: vs, Spells (parseValue guarded n) (jsonText f64Text w) (rawOf f64Text w) :=
        fun w hw => (ih w hw (hv.2 w hw) (hdepth w hw)).spells
      have hspells := @spells_array guarded _ _ n (vs.map fun w => (jsonText f64Text w, rawOf f64Text w))
        (hread v List.mem_cons_self) (fun e he => by
          obtain ⟨w, hw, rfl⟩ := List.mem_map.mp he
          exact hread w (List.mem_cons_of_mem _ hw))
      rw [List.map_map, List.map_map] at hspells
      rw [jsonText, moreItemsText_eq, rawOf, rawItems, rawItems_eq_map]
      exact hspells.2
  | object fields ih =>
    rintro (_ | n) hn
    · exact absurd hn (Nat.not_lt_zero _)
    refine ⟨hv, ?_⟩
    cases fields with
    | nil => exact fun rest _ => rfl
    | cons p fs =>
      rw [Value.all_object] at hv
      have hdepth := Value.depth_object_le.mp (Nat.lt_succ_iff.mp hn)
      have hread : ∀ q ∈ p :: fs, Spells (parseValue guarded n) (jsonText f64Text q.2) (rawOf f64Text q.2) :=
        fun q hq => (ih q hq (hv.2 q hq) (hdepth q hq)).spells
      have hspells := @spells_object guarded _ _ n (utf8 p.1)
        (fs.map fun q => (utf8 q.1, jsonText f64Text q.2, rawOf f64Text q.2))
        (hread p List.mem_cons_self) (fun m hm => by
          obtain ⟨q, hq, rfl⟩ := List.mem_map.mp hm
          exact hread q (List.mem_cons_of_mem _ hq))
      rw [List.map_map, List.map_map] at hspells
      rw [jsonText, moreFieldsText_eq, rawOf, rawFields, rawFields_eq_map]
      exact hspells.2

theorem strtoll_posInt (n : UInt64) :
    strtoll (utf8 (toString n.toNat)) = Int64.ofInt (min (2 ^ 63 - 1 : Int) n.toNat) := by
  rw [utf8_toString_nat, strtoll_natText]

theorem strtoll_negInt {i : Int64} (h : i < 0) : strtoll (utf8 (toString i.toInt)) = i := by
  have hneg : i.toInt < 0 := by rwa [Int64.lt_iff_toInt_lt, Int64.toInt_zero] at h
  have habs : (i.toInt.natAbs : Int) = -i.toInt := Int.ofNat_natAbs_of_nonpos hneg.le
  have hlow := i.le_toInt
  rw [numberText_neg h, strtoll_neg, habs, neg_neg, max_eq_right hlow, Int64.ofInt_toInt]

theorem parse_jsonText {v : Value} (hv : v.All (FloatsPrint f64Text)) :
    parse guarded (jsonText f64Text v) = rawOf f64Text v := by
  have hreads : Reads f64Text (parseValue guarded (max v.depth (jsonText f64Text v).length + 1)) v :=
    reads_parseValue hv (Nat.lt_succ_of_le (le_max_left _ _))
  have hread := hreads.2 [] stops_nil
  rw [List.append_nil] at hread
  rw [parse, parseValue_stable (Nat.lt_succ_self _) (Nat.lt_succ_of_le (le_max_right v.depth _)), hread]

end Values

end VelocityMcp.Guest
