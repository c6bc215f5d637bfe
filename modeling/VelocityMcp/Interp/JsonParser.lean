import VelocityMcp.Guest.Lua
import VelocityMcp.Interp.Value
import VelocityMcp.Lib.Fuel

/-!
# Interp.JsonParser — the JSON parser of the interpreter (`interp_core/interp.c`)

`reads_parseValue`: what the parser reads from the text of a value.
-/

namespace VelocityMcp.Interp

open Lib
open Guest (Strtod skipWs takeIf takeFraction takeExponent dropByte)

/-! ## The parser -/

/-- How many characters a string may have, by the size of its buffer. -/
def stringRoom : ℕ := 4096 - 4

/-- What stands for a backslash and `c`: any other character stands for itself. -/
def unescape (c : UInt8) : UInt8 :=
  if c = 0x6e then 0x0a
  else if c = 0x74 then 0x09
  else if c = 0x72 then 0x0d
  else if c = 0x62 then 0x08
  else if c = 0x66 then 0x0c
  else c

/-- The loop of `json_parse_string`, behind the quote, with so much room; and the text behind the closing quote. -/
def stringBody : ℕ → Bytes → Bytes × Bytes
  | 0, s => ([], dropByte 0x22 s)
  | _ + 1, [] => ([], [])
  | room + 1, c :: s =>
    if c = 0x22 then ([], s)
    else if c = 0x5c then
      match s with
      -- a backslash at the end of the text is a character
      | [] => ([c], [])
      | e :: s => (unescape e :: (stringBody room s).1, (stringBody room s).2)
    else (c :: (stringBody room s).1, (stringBody room s).2)

def skipNumber (s : Bytes) : Bytes :=
  (takeExponent (takeFraction ((takeIf (· = 0x2d) s).2.dropWhile isDigit)).2).2

section Containers

variable (value : Bytes → Run Unit (Val × Bytes))

/-- The loop of `json_parse_array`. -/
def parseItems : ℕ → Bytes → Run Unit (List Val × Bytes)
  | 0, _ => .outOfFuel ()
  | n + 1, s =>
    if s = [] then .done ([], [])
    else do
      let (item, r) ← value (skipWs s)
      if (skipWs r).head? = some 0x2c then do
        let (items, rest) ← parseItems n (skipWs r).tail
        .done (item :: items, rest)
      else .done ([item], skipWs r)

/-- `json_parse_array`, behind the bracket. -/
def parseArray (s : Bytes) : Run Unit (Val × Bytes) :=
  if (skipWs s).head? = some 0x5d then .done (.array [], (skipWs s).tail)
  else do
    let (items, r) ← parseItems value (s.length + 1) (skipWs s)
    .done (.array items, dropByte 0x5d r)

/-- The loop of `json_parse_object`. -/
def parseMembers : ℕ → Bytes → List (Bytes × Val) → Run Unit (List (Bytes × Val) × Bytes)
  | 0, _, _ => .outOfFuel ()
  | n + 1, s, m =>
    if (skipWs s).head? = some 0x22 then do
      let (key, r) := stringBody stringRoom (skipWs s).tail
      let (val, r) ← value (skipWs (dropByte 0x3a (skipWs r)))
      if (skipWs r).head? = some 0x2c then parseMembers n (skipWs r).tail (mapSet key val m)
      else .done (mapSet key val m, skipWs r)
    else .done (m, skipWs s)

/-- `json_parse_object`, behind the brace. -/
def parseObject (s : Bytes) : Run Unit (Val × Bytes) :=
  if (skipWs s).head? = some 0x7d then .done (.map [], (skipWs s).tail)
  else do
    let (entries, r) ← parseMembers value (s.length + 1) (skipWs s) []
    .done (.map entries, dropByte 0x7d r)

end Containers

/-- `json_parse_value`, for at most so many levels. -/
def parseValue (strtod : Strtod) : ℕ → Bytes → Run Unit (Val × Bytes)
  | 0, _ => .outOfFuel ()
  | n + 1, s =>
    match skipWs s with
    | [] => .done (.null, [])
    | c :: r =>
      if c = 0x22 then .done (.string (stringBody stringRoom r).1, (stringBody stringRoom r).2)
      else if c = 0x7b then parseObject (parseValue strtod n) r
      else if c = 0x5b then parseArray (parseValue strtod n) r
      else if (c :: r).take 4 = [0x74, 0x72, 0x75, 0x65] then .done (.bool true, (c :: r).drop 4)
      else if (c :: r).take 5 = [0x66, 0x61, 0x6c, 0x73, 0x65] then .done (.bool false, (c :: r).drop 5)
      else if (c :: r).take 4 = [0x6e, 0x75, 0x6c, 0x6c] then .done (.null, (c :: r).drop 4)
      -- `strtod` sees the whole text from here on
      else if c = 0x2d ∨ isDigit c = true then .done (.number (strtod (c :: r)), skipNumber (c :: r))
      else .done (.null, c :: r)

/-- `json_parse`: a text has fewer levels than bytes. -/
def jsonParse (strtod : Strtod) (s : Bytes) : Run Unit Val := do
  let (v, _) ← parseValue strtod (s.length + 1) s
  .done v

/-! ## The bound on the recursion -/

section Ended

open Guest

variable {value : Bytes → Run Unit (Val × Bytes)} {α : Type}

/-- A reader returns, and leaves no more than it finds. -/
def EndsOn (value : Bytes → Run Unit (α × Bytes)) (s : Bytes) : Prop :=
  ∃ v r, value s = .done (v, r) ∧ r.length ≤ s.length

theorem length_stringBody_le (room : ℕ) (s : Bytes) : (Interp.stringBody room s).2.length ≤ s.length := by
  fun_induction Interp.stringBody room s with
  | case1 s => exact length_dropByte_le _ s
  | case2 => exact le_rfl
  | case3 room s => exact Nat.le_succ _
  | case4 => exact Nat.zero_le _
  | case5 room e s h ih => exact ih.trans ((Nat.le_succ _).trans (Nat.le_succ _))
  | case6 room c s h h' ih => exact ih.trans (Nat.le_succ _)

theorem length_skipNumber_le (s : Bytes) : (skipNumber s).length ≤ s.length :=
  (length_takeExponent_le _).trans ((length_takeFraction_le _).trans
    ((length_dropWhile_le _ _).trans (length_takeIf_le _ s)))

theorem parseItems_ended {n : ℕ} {s : Bytes} (hvalue : ∀ t, t.length ≤ s.length → EndsOn value t)
    (hn : s.length < n) : EndsOn (Interp.parseItems value n) s := by
  induction n generalizing s with
  | zero => exact absurd hn (Nat.not_lt_zero _)
  | succ n ih =>
    unfold EndsOn
    rw [Interp.parseItems]
    split_ifs with hnil
    · exact ⟨[], [], rfl, Nat.zero_le _⟩
    · have hws := length_skipWs_le s
      obtain ⟨item, r, hitem, hr⟩ := hvalue (skipWs s) hws
      have hr' := length_skipWs_le r
      rw [hitem, Run.done_bind]
      dsimp only
      split_ifs with hcomma
      · have hlt := length_tail_lt hcomma
        obtain ⟨items, rest, hitems, hrest⟩ := ih (s := (skipWs r).tail) (fun t ht => hvalue t (by omega)) (by omega)
        exact ⟨item :: items, rest, by rw [hitems, Run.done_bind], by omega⟩
      · exact ⟨[item], skipWs r, rfl, by omega⟩

theorem parseMembers_ended {n : ℕ} {s : Bytes} {m : List (Bytes × Val)}
    (hvalue : ∀ t, t.length ≤ s.length → EndsOn value t) (hn : s.length < n) :
    EndsOn (fun s => Interp.parseMembers value n s m) s := by
  induction n generalizing s m with
  | zero => exact absurd hn (Nat.not_lt_zero _)
  | succ n ih =>
    unfold EndsOn
    dsimp only
    rw [Interp.parseMembers]
    have hws := length_skipWs_le s
    split_ifs with hquote
    · have hkey := length_stringBody_le stringRoom (skipWs s).tail
      have htail := length_tail_lt hquote
      have hmember := (length_skipWs_le (dropByte 0x3a (skipWs (Interp.stringBody stringRoom (skipWs s).tail).2))).trans
        ((length_dropByte_le _ _).trans (length_skipWs_le _))
      obtain ⟨v, r, hv, hr⟩ := hvalue _ (hmember.trans (by omega))
      have hr' := length_skipWs_le r
      dsimp only
      rw [hv, Run.done_bind]
      dsimp only
      split_ifs with hcomma
      · have hlt := length_tail_lt hcomma
        obtain ⟨es, rest, hes, hrest⟩ := ih (s := (skipWs r).tail) (m := mapSet _ v m)
          (fun t ht => hvalue t (by omega)) (by omega)
        exact ⟨es, rest, hes, by omega⟩
      · exact ⟨_, _, rfl, by omega⟩
    · exact ⟨_, _, rfl, hws⟩

/-- **The parser returns**, on any text. -/
theorem parseValue_ended (strtod : Strtod) {n : ℕ} {s : Bytes} (hn : s.length < n) :
    EndsOn (Interp.parseValue strtod n) s := by
  induction n generalizing s with
  | zero => exact absurd hn (Nat.not_lt_zero _)
  | succ n ih =>
    have hws := length_skipWs_le s
    unfold EndsOn
    rw [Interp.parseValue]
    cases h : skipWs s with
    | nil => exact ⟨_, _, rfl, Nat.zero_le _⟩
    | cons c r =>
      rw [h, List.length_cons] at hws
      have hinner := length_skipWs_le r
      have hdrop : ∀ k, ((c :: r).drop k).length ≤ s.length := fun k => by
        rw [List.length_drop, List.length_cons]
        omega
      have hvalue : ∀ t : Bytes, t.length ≤ (skipWs r).length → EndsOn (Interp.parseValue strtod n) t :=
        fun t ht => ih (by omega)
      dsimp only
      split_ifs
      · exact ⟨_, _, rfl, (length_stringBody_le _ r).trans (by omega)⟩
      · rw [Interp.parseObject]
        split_ifs with hclose
        · exact ⟨_, _, rfl, (length_tail_lt hclose).le.trans (by omega)⟩
        · obtain ⟨es, rest, hes, hrest⟩ := parseMembers_ended (m := []) hvalue (Nat.lt_succ_of_le hinner)
          dsimp only at hes
          exact ⟨_, _, by rw [hes, Run.done_bind], (length_dropByte_le _ _).trans (by omega)⟩
      · rw [Interp.parseArray]
        split_ifs with hclose
        · exact ⟨_, _, rfl, (length_tail_lt hclose).le.trans (by omega)⟩
        · obtain ⟨vs, rest, hvs, hrest⟩ := parseItems_ended hvalue (Nat.lt_succ_of_le hinner)
          exact ⟨_, _, by rw [hvs, Run.done_bind], (length_dropByte_le _ _).trans (by omega)⟩
      · exact ⟨_, _, rfl, hdrop 4⟩
      · exact ⟨_, _, rfl, hdrop 5⟩
      · exact ⟨_, _, rfl, hdrop 4⟩
      · exact ⟨_, _, rfl, (length_skipNumber_le _).trans hws⟩
      · exact ⟨_, _, rfl, hws⟩

theorem jsonParse_done (strtod : Strtod) (s : Bytes) : ∃ v, jsonParse strtod s = .done v := by
  obtain ⟨v, r, h, -⟩ := parseValue_ended strtod (Nat.lt_succ_self s.length)
  exact ⟨v, by rw [jsonParse, h, Run.done_bind]⟩

end Ended

/-! ## The value that is made of a JSON value -/

mutual

/-- A reader of texts makes this of a JSON value. -/
def Val.ofValue (read : Bytes → Bytes) : Value → Val
  | .null => .null
  | .bool b => .bool b
  | .number n => .number (n.asF64.getD 0)
  | .string s => .string (read (utf8 s))
  | .array items => .array (ofValues read items)
  | .object fields => .map (mapSetAll (ofFields read fields) [])

def Val.ofValues (read : Bytes → Bytes) : List Value → List Val
  | [] => []
  | v :: vs => Val.ofValue read v :: ofValues read vs

def Val.ofFields (read : Bytes → Bytes) : List (String × Value) → List (Bytes × Val)
  | [] => []
  | (k, v) :: fs => (read (utf8 k), Val.ofValue read v) :: ofFields read fs

end

/-- What is read where a byte was escaped: the digits of a code point are characters, behind a `u`. -/
def misreadByte (x : UInt8) : Bytes :=
  if x < 0x20 ∧ x ≠ 0x08 ∧ x ≠ 0x09 ∧ x ≠ 0x0a ∧ x ≠ 0x0c ∧ x ≠ 0x0d then
    [0x75, 0x30, 0x30, hexDigit (x / 16), hexDigit (x % 16)]
  else [x]

def misread (b : Bytes) : Bytes := b.flatMap misreadByte

/-! ### Strings -/

section Strings

theorem stringBody_plain {x : UInt8} (hquote : x ≠ 0x22) (hslash : x ≠ 0x5c) (room : ℕ) (s : Bytes) :
    stringBody (room + 1) (x :: s) = (x :: (stringBody room s).1, (stringBody room s).2) := by
  rw [stringBody.eq_def]
  dsimp only
  rw [if_neg hquote, if_neg hslash]

theorem stringBody_escape (e : UInt8) (room : ℕ) (s : Bytes) :
    stringBody (room + 1) (0x5c :: e :: s) = (unescape e :: (stringBody room s).1, (stringBody room s).2) := by
  rw [stringBody.eq_def]
  dsimp only
  rw [if_neg (by decide), if_pos rfl]

theorem hexDigit_ne {n : UInt8} (h : n < 16) : hexDigit n ≠ 0x22 ∧ hexDigit n ≠ 0x5c := by
  have hall : ∀ m : Fin 16, hexDigit (UInt8.ofNat m) ≠ 0x22 ∧ hexDigit (UInt8.ofNat m) ≠ 0x5c := by decide
  have hn : n.toNat < 16 := UInt8.lt_iff_toNat_lt.mp h
  simpa using hall ⟨n.toNat, hn⟩

theorem stringBody_escapeByte (x : UInt8) (room : ℕ) (s : Bytes) :
    stringBody (room + (misreadByte x).length) (escapeByte x ++ s) =
      (misreadByte x ++ (stringBody room s).1, (stringBody room s).2) := by
  unfold escapeByte
  split_ifs with h₁ h₂ h₃ h₄ h₅ h₆ h₇ h₈
  · subst h₁; exact stringBody_escape _ _ _
  · subst h₂; exact stringBody_escape _ _ _
  · subst h₃; exact stringBody_escape _ _ _
  · subst h₄; exact stringBody_escape _ _ _
  · subst h₅; exact stringBody_escape _ _ _
  · subst h₆; exact stringBody_escape _ _ _
  · subst h₇; exact stringBody_escape _ _ _
  · have hlow : x / 16 < 16 ∧ x % 16 < 16 := by
      rw [UInt8.lt_iff_toNat_lt, UInt8.lt_iff_toNat_lt, UInt8.toNat_div, UInt8.toNat_mod]
      have hx := x.toNat_lt
      exact ⟨by show x.toNat / 16 < 16; omega, Nat.mod_lt _ (by decide)⟩
    obtain ⟨hq, hs⟩ := hexDigit_ne hlow.1
    obtain ⟨hq', hs'⟩ := hexDigit_ne hlow.2
    rw [misreadByte, if_pos ⟨h₈, h₃, h₄, h₅, h₆, h₇⟩]
    show stringBody (room + 4 + 1) (0x5c :: 0x75 :: 0x30 :: 0x30 :: hexDigit (x / 16) :: hexDigit (x % 16) :: s) = _
    rw [stringBody_escape, stringBody_plain (by decide) (by decide), stringBody_plain (by decide) (by decide),
      stringBody_plain hq hs, stringBody_plain hq' hs']
    rfl
  · rw [misreadByte, if_neg fun h => h₈ h.1]
    exact stringBody_plain h₁ h₂ room s

/-- **What is read of the text of a string**, if there is room. -/
theorem stringBody_text (b rest : Bytes) {room : ℕ} (h : (misread b).length ≤ room) :
    stringBody room (b.flatMap escapeByte ++ 0x22 :: rest) = (misread b, rest) := by
  induction b generalizing room with
  | nil =>
    cases room with
    | zero => rfl
    | succ room => rfl
  | cons x b ih =>
    have hmisread : misread (x :: b) = misreadByte x ++ misread b := List.flatMap_cons
    rw [hmisread, List.length_append] at h
    obtain ⟨k, rfl⟩ : ∃ k, room = k + (misreadByte x).length := ⟨room - (misreadByte x).length, by omega⟩
    rw [List.flatMap_cons, List.append_assoc, stringBody_escapeByte, ih (by omega), hmisread]

theorem length_misreadByte_le (x : UInt8) : (misreadByte x).length ≤ (escapeByte x).length := by
  unfold misreadByte escapeByte
  split_ifs <;> simp_all

theorem length_misread_le (b : Bytes) : (misread b).length ≤ (b.flatMap escapeByte).length := by
  induction b with
  | nil => exact le_rfl
  | cons x b ih =>
    have hx := length_misreadByte_le x
    rw [misread, List.flatMap_cons, List.flatMap_cons, List.length_append, List.length_append]
    rw [misread] at ih
    omega

end Strings

/-! ### Values -/

section Values

open Guest (Stops stops_nil stops_cons FloatsPrint skipWs_jsonText skipWs_stringText head_jsonText skipWs_of_head isWs)

variable {f64Text : F64Text} {strtod : Strtod}

/-- `strtod` reads what `serde_json` prints of a number, whatever stands behind it. -/
def NumbersRead (f64Text : F64Text) (strtod : Strtod) : Value → Prop
  | .number n => ∀ rest, Stops rest → strtod (numberText f64Text n ++ rest) = n.asF64.getD 0
  | _ => True

/-- There is room for the strings and for the keys. -/
def TextsFit : Value → Prop
  | .string s => (misread (utf8 s)).length ≤ stringRoom
  | .object fields => ∀ p ∈ fields, (misread (utf8 p.1)).length ≤ stringRoom
  | _ => True

def ReadsText (f64Text : F64Text) (value : Bytes → Run Unit (Val × Bytes)) (v : Value) : Prop :=
  v.All (FloatsPrint f64Text) ∧
    ∀ rest, Stops rest → value (jsonText f64Text v ++ rest) = .done (.ofValue misread v, rest)

variable {value : Bytes → Run Unit (Val × Bytes)} {rest : Bytes}

theorem parseItems_text {v : Value} {vs : List Value} (hv : ReadsText f64Text value v)
    (hvs : ∀ w ∈ vs, ReadsText f64Text value w) {n : ℕ} (hn : vs.length < n) :
    parseItems value n (jsonText f64Text v ++ (moreItemsText f64Text vs ++ 0x5d :: rest)) =
      .done (.ofValue misread v :: Val.ofValues misread vs, 0x5d :: rest) := by
  have hne : ∀ (w : Value) (r : Bytes), w.All (FloatsPrint f64Text) → jsonText f64Text w ++ r ≠ [] := by
    intro w r hw hnil
    obtain ⟨c, t, ht, -⟩ := head_jsonText hw
    rw [ht] at hnil
    cases hnil
  induction vs generalizing v n with
  | nil =>
    cases n with
    | zero => exact absurd hn (Nat.not_lt_zero _)
    | succ n =>
      have hstops := stops_cons (c := 0x5d) (by simp) rest
      rw [parseItems, if_neg (hne v _ hv.1), skipWs_jsonText hv.1, moreItemsText, List.nil_append, hv.2 _ hstops,
        Run.done_bind]
      dsimp only
      rw [hstops.skipWs, if_neg (by simp)]
      rfl
  | cons w ws ih =>
    cases n with
    | zero => exact absurd hn (Nat.not_lt_zero _)
    | succ n =>
      have hstops := stops_cons (c := 0x2c) (by simp) (jsonText f64Text w ++ (moreItemsText f64Text ws ++ 0x5d :: rest))
      have hmore : moreItemsText f64Text (w :: ws) ++ 0x5d :: rest =
          0x2c :: (jsonText f64Text w ++ (moreItemsText f64Text ws ++ 0x5d :: rest)) := by
        simp [moreItemsText]
      rw [parseItems, if_neg (hne v _ hv.1), skipWs_jsonText hv.1, hmore, hv.2 _ hstops, Run.done_bind]
      dsimp only
      rw [hstops.skipWs, if_pos List.head?_cons, List.tail_cons, ih (hvs w List.mem_cons_self)
        (fun u hu => hvs u (List.mem_cons_of_mem _ hu)) (Nat.lt_of_succ_lt_succ hn)]
      rfl

theorem parseMember_text {v : Value} (hv : ReadsText f64Text value v) (hrest : Stops rest) :
    value (skipWs (dropByte 0x3a (skipWs (0x3a :: (jsonText f64Text v ++ rest))))) =
      .done (.ofValue misread v, rest) := by
  have hcolon : skipWs (0x3a :: (jsonText f64Text v ++ rest)) = 0x3a :: (jsonText f64Text v ++ rest) :=
    skipWs_of_head fun c hc => by obtain rfl : 0x3a = c := by simpa using hc
                                  decide
  rw [hcolon, dropByte, if_pos List.head?_cons, List.tail_cons, skipWs_jsonText hv.1, hv.2 _ hrest]

theorem parseMembers_text {k : String} {v : Value} {fs : List (String × Value)} (hv : ReadsText f64Text value v)
    (hk : (misread (utf8 k)).length ≤ stringRoom) (hfs : ∀ p ∈ fs, ReadsText f64Text value p.2)
    (hks : ∀ p ∈ fs, (misread (utf8 p.1)).length ≤ stringRoom) {n : ℕ} (hn : fs.length < n)
    (m : List (Bytes × Val)) :
    parseMembers value n
        (stringText k ++ 0x3a :: (jsonText f64Text v ++ (moreFieldsText f64Text fs ++ 0x7d :: rest))) m =
      .done (mapSetAll ((misread (utf8 k), .ofValue misread v) :: Val.ofFields misread fs) m, 0x7d :: rest) := by
  induction fs generalizing k v n m with
  | nil =>
    cases n with
    | zero => exact absurd hn (Nat.not_lt_zero _)
    | succ n =>
      have hstops := stops_cons (c := 0x7d) (by simp) rest
      have hmember := parseMember_text hv hstops
      rw [parseMembers, moreFieldsText, List.nil_append, skipWs_stringText, Guest.stringText_append,
        if_pos List.head?_cons, List.tail_cons, stringBody_text _ _ hk]
      dsimp only
      rw [hmember, Run.done_bind]
      dsimp only
      rw [hstops.skipWs, if_neg (by simp)]
      rfl
  | cons p ps ih =>
    obtain ⟨l, w⟩ := p
    cases n with
    | zero => exact absurd hn (Nat.not_lt_zero _)
    | succ n =>
      have hstops := stops_cons (c := 0x2c) (by simp)
        (stringText l ++ 0x3a :: (jsonText f64Text w ++ (moreFieldsText f64Text ps ++ 0x7d :: rest)))
      have hmore : moreFieldsText f64Text ((l, w) :: ps) ++ 0x7d :: rest =
          0x2c :: (stringText l ++ 0x3a :: (jsonText f64Text w ++ (moreFieldsText f64Text ps ++ 0x7d :: rest))) := by
        simp [moreFieldsText]
      have hmember := parseMember_text hv hstops
      rw [parseMembers, hmore, skipWs_stringText, Guest.stringText_append, if_pos List.head?_cons, List.tail_cons,
        stringBody_text _ _ hk]
      dsimp only
      rw [hmember, Run.done_bind]
      dsimp only
      rw [hstops.skipWs, if_pos List.head?_cons, List.tail_cons, ih (hfs (l, w) List.mem_cons_self)
        (hks (l, w) List.mem_cons_self) (fun q hq => hfs q (List.mem_cons_of_mem _ hq))
        (fun q hq => hks q (List.mem_cons_of_mem _ hq)) (Nat.lt_of_succ_lt_succ hn)]
      rfl

theorem skipNumber_text {n : Number} (h : FloatsPrint f64Text (.number n)) (hrest : Stops rest) :
    skipNumber (numberText f64Text n ++ rest) = rest := by
  obtain ⟨sign, whole, fraction, exponent, hparts, heq, -⟩ := Guest.numberText_parts h
  have hnumber := Guest.parseNumber_append hparts.numeral hrest
  rw [← heq] at hnumber
  exact congrArg Prod.snd hnumber

theorem head_numberText {n : Number} (h : FloatsPrint f64Text (.number n)) :
    ∃ c r, numberText f64Text n = c :: r ∧ (c = 0x2d ∨ isDigit c = true) := by
  obtain ⟨sign, whole, fraction, exponent, hparts, heq, -⟩ := Guest.numberText_parts h
  rw [heq]
  exact hparts.numeral.head

theorem parseValue_number {n : Number} (h : FloatsPrint f64Text (.number n))
    (hread : NumbersRead f64Text strtod (.number n)) (m : ℕ) (hrest : Stops rest) :
    parseValue strtod (m + 1) (numberText f64Text n ++ rest) = .done (.number (n.asF64.getD 0), rest) := by
  have hskip := skipNumber_text h hrest
  have hvalue := hread rest hrest
  obtain ⟨c, r, hcr, hc⟩ := head_numberText h
  have hne : ∀ x : UInt8, x ≠ 0x2d → isDigit x = false → c ≠ x := fun x => Guest.ne_of_numeral_head hc
  have hword : ∀ (k : ℕ) (x : UInt8) (w : Bytes), x ≠ 0x2d → isDigit x = false →
      (c :: (r ++ rest)).take (k + 1) ≠ x :: w :=
    fun k x w hx hdigit heq => hne x hx hdigit (List.cons.inj heq).1
  rw [hcr, List.cons_append] at hskip hvalue ⊢
  have hws : skipWs (c :: (r ++ rest)) = c :: (r ++ rest) := skipWs_of_head fun d hd => by
    obtain rfl : c = d := by simpa using hd
    exact Guest.isWs_of_numeral_head hc
  rw [parseValue, hws]
  dsimp only
  rw [if_neg (hne _ (by decide) (by decide)), if_neg (hne _ (by decide) (by decide)),
    if_neg (hne _ (by decide) (by decide)), if_neg (hword 3 _ _ (by decide) (by decide)),
    if_neg (hword 4 _ _ (by decide) (by decide)), if_neg (hword 3 _ _ (by decide) (by decide)), if_pos hc, hskip, hvalue]

/-- **What the parser reads from the text of a value.** -/
theorem reads_parseValue {v : Value} (hv : v.All (FloatsPrint f64Text)) (hnumbers : v.All (NumbersRead f64Text strtod))
    (htexts : v.All TextsFit) : ∀ {n : ℕ}, v.depth < n → ReadsText f64Text (parseValue strtod n) v := by
  induction v with
  | null => rintro (_ | n) hn; exacts [absurd hn (Nat.not_lt_zero _), ⟨hv, fun rest _ => rfl⟩]
  | bool b => rintro (_ | n) hn; exacts [absurd hn (Nat.not_lt_zero _), ⟨hv, fun rest _ => by cases b <;> rfl⟩]
  | number m =>
    rintro (_ | n) hn
    exacts [absurd hn (Nat.not_lt_zero _), ⟨hv, fun rest hrest => parseValue_number hv hnumbers n hrest⟩]
  | string s =>
    rintro (_ | n) hn
    · exact absurd hn (Nat.not_lt_zero _)
    · refine ⟨hv, fun rest _ => ?_⟩
      rw [jsonText, Guest.stringText_append, parseValue, skipWs_of_head (by simp [isWs])]
      dsimp only
      rw [if_pos rfl, stringBody_text _ _ htexts, Val.ofValue]
  | array items ih =>
    rintro (_ | n) hn
    · exact absurd hn (Nat.not_lt_zero _)
    refine ⟨hv, fun rest _ => ?_⟩
    cases items with
    | nil => rfl
    | cons v vs =>
      rw [Value.all_array] at hv hnumbers htexts
      have hdepth := Value.depth_array_le.mp (Nat.lt_succ_iff.mp hn)
      have hread : ∀ w ∈ v :: vs, ReadsText f64Text (parseValue strtod n) w :=
        fun w hw => ih w hw (hv.2 w hw) (hnumbers.2 w hw) (htexts.2 w hw) (hdepth w hw)
      have htext : jsonText f64Text (.array (v :: vs)) ++ rest =
          0x5b :: (jsonText f64Text v ++ (moreItemsText f64Text vs ++ 0x5d :: rest)) := by
        simp [jsonText]
      have hcount := Guest.length_le_moreItemsText f64Text vs
      -- the fuel of the loop over the items is the length of the text
      have hfuel : vs.length < (jsonText f64Text v ++ (moreItemsText f64Text vs ++ 0x5d :: rest)).length + 1 := by
        rw [List.length_append, List.length_append]
        omega
      have hclose : (jsonText f64Text v ++ (moreItemsText f64Text vs ++ 0x5d :: rest)).head? ≠ some 0x5d := by
        obtain ⟨c, r, hcr, -, hc⟩ := head_jsonText (hv.2 v List.mem_cons_self)
        rw [hcr]
        simpa using hc
      rw [htext, parseValue, skipWs_of_head (by simp [isWs])]
      dsimp only
      rw [if_neg (by decide), if_neg (by decide), if_pos rfl, parseArray, skipWs_jsonText (hv.2 v List.mem_cons_self),
        if_neg hclose, parseItems_text (hread v List.mem_cons_self)
        (fun w hw => hread w (List.mem_cons_of_mem _ hw)) hfuel, Run.done_bind]
      dsimp only
      rw [dropByte, if_pos List.head?_cons, List.tail_cons, Val.ofValue, Val.ofValues]
  | object fields ih =>
    rintro (_ | n) hn
    · exact absurd hn (Nat.not_lt_zero _)
    refine ⟨hv, fun rest _ => ?_⟩
    cases fields with
    | nil => rfl
    | cons p fs =>
      obtain ⟨k, v⟩ := p
      rw [Value.all_object] at hv hnumbers htexts
      have hdepth := Value.depth_object_le.mp (Nat.lt_succ_iff.mp hn)
      have hread : ∀ q ∈ (k, v) :: fs, ReadsText f64Text (parseValue strtod n) q.2 :=
        fun q hq => ih q hq (hv.2 q hq) (hnumbers.2 q hq) (htexts.2 q hq) (hdepth q hq)
      have hkeys : ∀ q ∈ (k, v) :: fs, (misread (utf8 q.1)).length ≤ stringRoom := htexts.1
      have htext : jsonText f64Text (.object ((k, v) :: fs)) ++ rest =
          0x7b :: (stringText k ++ 0x3a :: (jsonText f64Text v ++ (moreFieldsText f64Text fs ++ 0x7d :: rest))) := by
        simp [jsonText]
      have hcount := Guest.length_le_moreFieldsText f64Text fs
      have hfuel : fs.length <
          (stringText k ++ 0x3a :: (jsonText f64Text v ++ (moreFieldsText f64Text fs ++ 0x7d :: rest))).length + 1 := by
        rw [List.length_append, List.length_cons, List.length_append, List.length_append]
        omega
      rw [htext, parseValue, skipWs_of_head (by simp [isWs])]
      dsimp only
      rw [if_neg (by decide), if_pos rfl, parseObject, skipWs_stringText, if_neg (by simp [stringText]),
        parseMembers_text (hread (k, v) List.mem_cons_self) (hkeys _ List.mem_cons_self)
          (fun q hq => hread q (List.mem_cons_of_mem _ hq)) (fun q hq => hkeys q (List.mem_cons_of_mem _ hq)) hfuel,
        Run.done_bind]
      dsimp only
      rw [dropByte, if_pos List.head?_cons, List.tail_cons, Val.ofValue, Val.ofFields]

/-! ### Lengths -/

theorem length_moreItemsText_of_mem {v : Value} {vs : List Value} (h : v ∈ vs) :
    (jsonText f64Text v).length + 1 ≤ (moreItemsText f64Text vs).length := by
  induction vs with
  | nil => cases h
  | cons w ws ih =>
    rw [moreItemsText, List.length_cons, List.length_append]
    rcases List.mem_cons.mp h with rfl | h
    · omega
    · have hws := ih h
      omega

theorem length_item_le {v : Value} {items : List Value} (h : v ∈ items) :
    (jsonText f64Text v).length + 2 ≤ (jsonText f64Text (.array items)).length := by
  cases items with
  | nil => cases h
  | cons w ws =>
    rw [jsonText, List.length_cons, List.length_append, List.length_append, List.length_singleton]
    rcases List.mem_cons.mp h with rfl | h
    · omega
    · have hws := @length_moreItemsText_of_mem f64Text _ _ h
      omega

theorem length_moreFieldsText_of_mem {p : String × Value} {fs : List (String × Value)} (h : p ∈ fs) :
    (stringText p.1).length + (jsonText f64Text p.2).length + 2 ≤ (moreFieldsText f64Text fs).length := by
  induction fs with
  | nil => cases h
  | cons q qs ih =>
    obtain ⟨k, v⟩ := q
    rw [moreFieldsText, List.length_cons, List.length_append, List.length_cons, List.length_append]
    rcases List.mem_cons.mp h with rfl | h
    · dsimp only
      omega
    · have hqs := ih h
      omega

theorem length_field_le {p : String × Value} {fields : List (String × Value)} (h : p ∈ fields) :
    (stringText p.1).length + (jsonText f64Text p.2).length + 3 ≤ (jsonText f64Text (.object fields)).length := by
  cases fields with
  | nil => cases h
  | cons q qs =>
    obtain ⟨k, v⟩ := q
    rw [jsonText, List.length_cons, List.length_append, List.length_cons, List.length_append, List.length_append,
      List.length_singleton]
    rcases List.mem_cons.mp h with rfl | h
    · dsimp only
      omega
    · have hqs := @length_moreFieldsText_of_mem f64Text _ _ h
      omega

theorem depth_le_length (v : Value) : v.depth ≤ (jsonText f64Text v).length := by
  induction v with
  | array items ih =>
    rw [Value.depth_array_le]
    intro v hv
    have hlen := @length_item_le f64Text _ _ hv
    have hdepth := ih v hv
    omega
  | object fields ih =>
    rw [Value.depth_object_le]
    intro p hp
    have hlen := @length_field_le f64Text _ _ hp
    have hdepth := ih p hp
    omega
  | _ => exact Nat.zero_le _

theorem length_stringText (s : String) : (stringText s).length = ((utf8 s).flatMap escapeByte).length + 2 := by
  rw [stringText, List.length_cons, List.length_append, List.length_singleton]

theorem textsFit_of_length {v : Value} (h : (jsonText f64Text v).length ≤ stringRoom + 2) : v.All TextsFit := by
  induction v with
  | array items ih =>
    refine Value.all_array.mpr ⟨trivial, fun v hv => ih v hv ?_⟩
    have hlen := @length_item_le f64Text _ _ hv
    omega
  | object fields ih =>
    refine Value.all_object.mpr ⟨fun p hp => ?_, fun p hp => ih p hp ?_⟩
    · have hlen := @length_field_le f64Text _ _ hp
      have hkey := length_misread_le (utf8 p.1)
      rw [length_stringText] at hlen
      omega
    · have hlen := @length_field_le f64Text _ _ hp
      omega
  | string s =>
    have hlen := length_misread_le (utf8 s)
    rw [jsonText, length_stringText] at h
    show (misread (utf8 s)).length ≤ stringRoom
    omega
  | null => trivial
  | bool b => trivial
  | number n => trivial

theorem textsFit_of_object {fields : List (String × Value)}
    (h : (jsonText f64Text (.object fields)).length ≤ stringRoom + 3) : (Value.object fields).All TextsFit := by
  refine Value.all_object.mpr ⟨fun p hp => ?_, fun p hp => @textsFit_of_length f64Text _ ?_⟩
  · have hlen := @length_field_le f64Text _ _ hp
    have hkey := length_misread_le (utf8 p.1)
    rw [length_stringText] at hlen
    omega
  · have hlen := @length_field_le f64Text _ _ hp
    rw [length_stringText] at hlen
    omega

/-- **`json_parse` of the text of a value.** -/
theorem jsonParse_jsonText {v : Value} (hv : v.All (FloatsPrint f64Text)) (hnumbers : v.All (NumbersRead f64Text strtod))
    (htexts : v.All TextsFit) : jsonParse strtod (jsonText f64Text v) = .done (.ofValue misread v) := by
  have hread := (reads_parseValue hv hnumbers htexts (Nat.lt_succ_of_le (@depth_le_length f64Text v))).2 []
    stops_nil
  rw [List.append_nil] at hread
  rw [jsonParse, hread, Run.done_bind]

end Values

end VelocityMcp.Interp
