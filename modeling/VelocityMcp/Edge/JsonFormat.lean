import VelocityMcp.JsonReader
import VelocityMcp.Lib.Lines

/-!
# Edge.JsonFormat — the tool `json_format` of the edge server

`json_format_preserves_iff`: a document is preserved exactly when its keys need no escapes.
-/

namespace VelocityMcp.Edge

open Lib Lib.JsonSyntax

/-! ## The printer -/

def escapeChar (x : UInt8) : Bytes :=
  if x = 0x22 then [0x5c, 0x22]
  else if x = 0x5c then [0x5c, 0x5c]
  else if x = 0x0a then [0x5c, 0x6e]
  else if x = 0x0d then [0x5c, 0x72]
  else if x = 0x09 then [0x5c, 0x74]
  else if x < 0x20 then [0x5c, 0x75, 0x30, 0x30, hexDigit (x / 16), hexDigit (x % 16)]
  else [x]

def maxJsonDepth : ℕ := 200

def spaces (n : ℕ) : Bytes := List.replicate n 0x20

section Print

variable (f64Text : F64Text) (indent : ℕ)

mutual

def prettyPrintInner (value : Value) (depth : ℕ) : Bytes :=
  if depth > maxJsonDepth then [0x2e, 0x2e, 0x2e]
  else
    match value with
    | .null => [0x6e, 0x75, 0x6c, 0x6c]
    | .bool b => if b then [0x74, 0x72, 0x75, 0x65] else [0x66, 0x61, 0x6c, 0x73, 0x65]
    | .number n => numberText f64Text n
    | .string s => quotedBy escapeChar (utf8 s)
    | .array arr =>
      if arr.isEmpty then [0x5b, 0x5d]
      else 0x5b :: 0x0a :: (prettyItems arr depth ++ (spaces (indent * depth) ++ [0x5d]))
    | .object map =>
      if map.isEmpty then [0x7b, 0x7d]
      else 0x7b :: 0x0a :: (prettyFields map depth ++ (spaces (indent * depth) ++ [0x7d]))

/-- The items, one a line; the last one has no comma. -/
def prettyItems (items : List Value) (depth : ℕ) : Bytes :=
  match items with
  | [] => []
  | item :: rest => spaces (indent * (depth + 1)) ++ (prettyPrintInner item (depth + 1) ++
      ((if rest.isEmpty then [] else [0x2c]) ++ 0x0a :: prettyItems rest depth))

/-- The fields, one a line.  A key is printed as it is. -/
def prettyFields (fields : List (String × Value)) (depth : ℕ) : Bytes :=
  match fields with
  | [] => []
  | (key, val) :: rest => spaces (indent * (depth + 1)) ++ (0x22 :: (utf8 key ++ 0x22 :: 0x3a :: 0x20 ::
      (prettyPrintInner val (depth + 1) ++ ((if rest.isEmpty then [] else [0x2c]) ++ 0x0a :: prettyFields rest depth))))

end

/-- The printer, over the characters of a text. -/
def prettyPrintJson (value : Value) : Bytes := prettyPrintInner f64Text indent value 0

end Print

/-- The tool.  Parameters: the reading of numbers, the text of an `f64`, the text of a syntax error, and how many
values a `usize` has. -/
def toolJsonFormat (number : Bytes → Option Number) (f64Text : F64Text) (syntaxError : String → String) (usizes : ℕ)
    (args : Value) : Except String Bytes :=
  match (args.get "json").bind Value.asStr with
  | none => .error "Missing required argument: 'json' (string)"
  | some jsonStr =>
    let indent := (((args.get "indent").bind Value.asU64).getD 2).toNat % usizes
    match fromStr number (utf8 jsonStr) with
    | none => .error ("Invalid JSON: " ++ syntaxError jsonStr)
    | some parsed => .ok (prettyPrintJson f64Text (min indent 8) parsed)

example : prettyPrintJson (fun _ => []) 1 (.object [("a", .array [.null, .string "\""]), ("b", .object [])]) =
    utf8 "\x7b\n \"a\": [\n  null,\n  \"\\\"\"\n ],\n \"b\": \x7b\x7d\n\x7d" := by
  decide +kernel

/-! ## Plain keys -/

/-- A byte that stands for itself between quotes. -/
def PlainByte (c : UInt8) : Prop := ¬c < 0x20 ∧ c ≠ 0x22 ∧ c ≠ 0x5c

/-- No key of the object has a quote, a backslash or a control character. -/
def PlainKeys : Value → Prop
  | .object fields => ∀ p ∈ fields, ∀ c ∈ utf8 p.1, PlainByte c
  | _ => True

/-! ## Plain keys are enough -/

theorem spellsByte_escapeChar (c : UInt8) : SpellsByte (escapeChar c) c := by
  unfold escapeChar
  split_ifs with h1 h2 h3 h4 h5 hlow
  · rw [h1]
    exact spellsByte_letter (by decide)
  · rw [h2]
    exact spellsByte_letter (by decide)
  · rw [h3]
    exact spellsByte_letter (by decide)
  · rw [h4]
    exact spellsByte_letter (by decide)
  · rw [h5]
    exact spellsByte_letter (by decide)
  · have hc : c.toNat < 32 := UInt8.lt_iff_toNat_lt.mp hlow
    have hdigits : ∀ n < 32, hexValue (hexDigit (UInt8.ofNat n / 16)) = some (n / 16) ∧
        hexValue (hexDigit (UInt8.ofNat n % 16)) = some (n % 16) := by decide
    obtain ⟨hhigh, hlow⟩ := hdigits c.toNat hc
    rw [UInt8.ofNat_toNat] at hhigh hlow
    exact spellsByte_unit (by omega) hhigh hlow
  · exact spellsByte_plain hlow h1 h2

theorem blank_spaces (n : ℕ) : Blank (spaces n) := blank_replicate (by decide) n

section Denotes

variable {number : Bytes → Option Number} {f64Text : F64Text} {indent depth : ℕ}

theorem exists_denotes_items {items : List Value} (hne : items ≠ [])
    (h : ∀ v ∈ items, Denotes (prettyPrintInner f64Text indent v (depth + 1)) (treeOf f64Text v)) {close : Bytes}
    (hclose : Blank close) : ∃ es : List (Bytes × JsonSyntax.Tree), (∀ e ∈ es, Denotes e.1 e.2) ∧
      es.map Prod.snd = itemTrees f64Text items ∧
      0x0a :: (prettyItems f64Text indent items depth ++ close) = listed (es.map Prod.fst) := by
  induction items with
  | nil => exact absurd rfl hne
  | cons v vs ih =>
    have hv := h v List.mem_cons_self
    have hopen := (blank_spaces (indent * (depth + 1))).cons (c := 0x0a) (by decide)
    cases vs with
    | nil =>
      have hline := denotes_pad hopen (hclose.cons (c := 0x0a) (by decide)) hv
      refine ⟨[(_, _)], fun e he => List.mem_singleton.mp he ▸ hline, rfl, ?_⟩
      · simp [prettyItems, listed_singleton]
    | cons u us =>
      obtain ⟨es, hes, htrees, htext⟩ := ih (List.cons_ne_nil _ _) fun w hw => h w (List.mem_cons_of_mem _ hw)
      obtain ⟨d, ds, rfl⟩ : ∃ d ds, es = d :: ds := by
        cases es with
        | nil => exact nomatch htrees
        | cons d ds => exact ⟨d, ds, rfl⟩
      have hline := denotes_pad hopen Blank.nil hv
      refine ⟨(_, _) :: d :: ds, List.forall_mem_cons.mpr ⟨hline, hes⟩, ?_, ?_⟩
      · rw [List.map_cons, htrees]
        rfl
      · rw [List.map_cons] at htext
        rw [List.map_cons, List.map_cons, listed_cons_cons, ← htext, prettyItems]
        simp

theorem exists_denotes_fields {fields : List (String × Value)} (hne : fields ≠ [])
    (hkeys : ∀ p ∈ fields, ∀ c ∈ utf8 p.1, PlainByte c)
    (h : ∀ p ∈ fields, Denotes (prettyPrintInner f64Text indent p.2 (depth + 1)) (treeOf f64Text p.2)) {close : Bytes}
    (hclose : Blank close) : ∃ ms : List Member, (∀ m ∈ ms, m.Denotes) ∧
      ms.map Member.read = fieldTrees f64Text fields ∧
      0x0a :: (prettyFields f64Text indent fields depth ++ close) = listed (ms.map Member.written) := by
  induction fields with
  | nil => exact absurd rfl hne
  | cons p fs ih =>
    obtain ⟨key, v⟩ := p
    have hv := h _ List.mem_cons_self
    have hopen := (blank_spaces (indent * (depth + 1))).cons (c := 0x0a) (by decide)
    have hkey : ReadsKey (quotedBy (fun c => [c]) (utf8 key)) (utf8 key) :=
      readsKey_quoted (fun c hc => by
        obtain ⟨hlow, hquote, hslash⟩ := hkeys _ List.mem_cons_self c hc
        exact spellsByte_plain hlow hquote hslash) (by rw [fromUtf8_utf8]; rfl)
    have hspace : Blank [0x20] := Blank.nil.cons (by decide)
    cases fs with
    | nil =>
      have hline : Member.Denotes ⟨_, _, utf8 key, treeOf f64Text v⟩ :=
        ⟨readsKey_pad hopen hkey, denotes_pad hspace (hclose.cons (c := 0x0a) (by decide)) hv⟩
      refine ⟨[_], fun m hm => List.mem_singleton.mp hm ▸ hline, rfl, ?_⟩
      · simp [prettyFields, listed_singleton, Member.written, quotedBy]
    | cons q qs =>
      obtain ⟨ms, hms, htrees, htext⟩ := ih (List.cons_ne_nil _ _)
        (fun r hr => hkeys r (List.mem_cons_of_mem _ hr)) fun r hr => h r (List.mem_cons_of_mem _ hr)
      obtain ⟨d, ds, rfl⟩ : ∃ d ds, ms = d :: ds := by
        cases ms with
        | nil =>
          obtain ⟨l, u⟩ := q
          cases htrees
        | cons d ds => exact ⟨d, ds, rfl⟩
      have hline : Member.Denotes ⟨_, _, utf8 key, treeOf f64Text v⟩ :=
        ⟨readsKey_pad hopen hkey, denotes_pad hspace Blank.nil hv⟩
      refine ⟨_ :: d :: ds, List.forall_mem_cons.mpr ⟨hline, hms⟩, ?_, ?_⟩
      · rw [List.map_cons, htrees]
        rfl
      · rw [List.map_cons] at htext
        rw [List.map_cons, List.map_cons, listed_cons_cons, ← htext, prettyFields]
        simp [Member.written, quotedBy]

/-- **With plain keys the printed text spells the value.** -/
theorem denotes_prettyPrintInner {v : Value} (hkeys : v.All PlainKeys) (hnumbers : v.All (NumberReads number f64Text))
    (hdepth : depth + v.depth ≤ maxJsonDepth) :
    Denotes (prettyPrintInner f64Text indent v depth) (treeOf f64Text v) := by
  induction v generalizing depth with
  | null =>
    rw [prettyPrintInner, if_neg (by omega)]
    exact denotes_null
  | bool b =>
    rw [prettyPrintInner, if_neg (by omega)]
    cases b with
    | true => exact denotes_true
    | false => exact denotes_false
  | number n =>
    obtain ⟨-, sign, whole, fraction, exponent, hparts, htext⟩ := hnumbers.self
    rw [prettyPrintInner, if_neg (by omega), treeOf]
    rw [htext]
    exact denotes_number hparts
  | string s =>
    rw [prettyPrintInner, if_neg (by omega)]
    exact denotes_quoted (fun c _ => spellsByte_escapeChar c) (by rw [fromUtf8_utf8]; rfl)
  | array items ih =>
    rw [Value.all_array] at hkeys hnumbers
    have hitems : ∀ v ∈ items, Denotes (prettyPrintInner f64Text indent v (depth + 1)) (treeOf f64Text v) := by
      intro v hv
      have hlt := Value.depth_array_le.mp le_rfl v hv
      exact ih v hv (hkeys.2 v hv) (hnumbers.2 v hv) (by omega)
    rw [prettyPrintInner, if_neg (by omega), treeOf]
    cases items with
    | nil => exact @denotes_array [] fun e he => absurd he List.not_mem_nil
    | cons v vs =>
      obtain ⟨es, hes, htrees, htext⟩ := exists_denotes_items (List.cons_ne_nil v vs) hitems
        (blank_spaces (indent * depth))
      rw [if_neg (by simp), ← htrees, ← List.append_assoc, ← List.cons_append, htext]
      exact denotes_array hes
  | object fields ih =>
    rw [Value.all_object] at hkeys hnumbers
    have hfields : ∀ p ∈ fields, Denotes (prettyPrintInner f64Text indent p.2 (depth + 1)) (treeOf f64Text p.2) := by
      intro p hp
      have hlt := Value.depth_object_le.mp le_rfl p hp
      exact ih p hp (hkeys.2 p hp) (hnumbers.2 p hp) (by omega)
    rw [prettyPrintInner, if_neg (by omega), treeOf]
    cases fields with
    | nil => exact @denotes_object [] fun m hm => absurd hm List.not_mem_nil
    | cons p fs =>
      obtain ⟨ms, hms, htrees, htext⟩ := exists_denotes_fields (List.cons_ne_nil p fs) hkeys.1 hfields
        (blank_spaces (indent * depth))
      rw [if_neg (by simp), ← htrees, ← List.append_assoc, ← List.cons_append, htext]
      exact denotes_object hms

end Denotes

/-! ## Other keys are too light -/

/-- Only backslashes count, and the letters that make an escape worth two of them or more. -/
def heavy (c : UInt8) : ℕ := if c ∈ [0x5c, 0x75, 0x62, 0x42, 0x66, 0x46] then 1 else 0

def escapePrice (c : UInt8) : ℕ := weight heavy (escapeChar c)

instance (c : UInt8) : Decidable (PlainByte c) := inferInstanceAs (Decidable (_ ∧ _ ∧ _))

theorem forall_byte {P : UInt8 → Prop} (h : ∀ n < 256, P (UInt8.ofNat n)) (c : UInt8) : P c := by
  have hc := h c.toNat c.toNat_lt
  rwa [UInt8.ofNat_toNat] at hc

/-- The table of the 256 bytes: all that is read off it below. -/
theorem heavy_table (c : UInt8) :
    (heavy c < escapePrice c ∨ heavy c = escapePrice c ∧ PlainByte c) ∧
      (hexValue c = some 11 ∨ hexValue c = some 15 → heavy c = 1) ∧
      (0x80 ≤ c.toNat → escapePrice c = 0) ∧ (∀ m ∈ hexValue c, m < 16) ∧ (isDigit c = true → heavy c = 0) := by
  revert c
  exact forall_byte (by decide +kernel)

theorem tight_escapePrice (c : UInt8) : Tight (heavy c) (escapePrice c) (PlainByte c) := by
  rcases (heavy_table c).1 with hlt | ⟨heq, hplain⟩
  · exact tight_of_lt hlt
  · exact tight_of_eq heq hplain

section Prices

theorem escapePrice_letter {e c : UInt8} (h : letter e = some c) : escapePrice c ≤ 1 + heavy e := by
  unfold letter at h
  split_ifs at h with h1 h2 h3 h4 h5 h6
  · obtain rfl := Option.some.inj h
    rcases h1 with rfl | rfl | rfl <;> decide
  all_goals
    obtain rfl := Option.some.inj h
    subst e
    decide

theorem escapePrice_unit {a : UInt8} {n m : ℕ} (ha : hexValue a = some n) (hm : m < 0x80) (hmod : m % 16 = n) :
    escapePrice (UInt8.ofNat m) ≤ 2 + heavy a := by
  have hbound : ∀ m < 0x80, escapePrice (UInt8.ofNat m) ≤ 2 + if m % 16 = 11 ∨ m % 16 = 15 then 1 else 0 := by
    decide
  have hdigit := (heavy_table a).2.1
  refine (hbound m hm).trans (Nat.add_le_add_left ?_ 2)
  split_ifs with h
  · rw [hdigit (by rw [ha, ← hmod]; exact h.imp (congrArg some) (congrArg some))]
  · exact Nat.zero_le _

theorem weight_encoded {c : Char} (h : 0x80 ≤ c.toNat) : weight escapePrice (String.utf8EncodeChar c) = 0 := by
  have hlarge := fun x => (heavy_table x).2.2.1
  refine weight_eq_zero fun x hx => hlarge x ?_
  by_contra hlt
  have heq := toNat_of_mem_utf8EncodeChar (Nat.lt_of_not_le hlt) hx
  omega

theorem toNat_charOfNat {n : ℕ} (h : n < 0xd800 ∨ 0xe000 ≤ n ∧ n < 0x110000) : (Char.ofNat n).toNat = n := by
  have hvalid : n.isValidChar := h.imp id fun h => ⟨by omega, h.2⟩
  rw [Char.ofNat, dif_pos hvalid]
  rfl

theorem exists_of_takeUnit {s r : Bytes} {n : ℕ} (h : takeUnit s = some (n, r)) :
    ∃ a b c d m, s = a :: b :: c :: d :: r ∧ hexValue d = some m ∧ n % 16 = m ∧ n < 0x10000 := by
  have hlt := fun a => (heavy_table a).2.2.2.1
  match s, h with
  | a :: b :: c :: d :: s, h =>
    rw [takeUnit] at h
    obtain ⟨a', ha, h⟩ := Option.bind_eq_some_iff.mp h
    obtain ⟨b', hb, h⟩ := Option.bind_eq_some_iff.mp h
    obtain ⟨c', hc, h⟩ := Option.bind_eq_some_iff.mp h
    obtain ⟨d', hd, h⟩ := Option.bind_eq_some_iff.mp h
    obtain ⟨rfl, rfl⟩ := Prod.mk.inj (Option.some.inj h)
    have h1 := hlt a a' ha
    have h2 := hlt b b' hb
    have h3 := hlt c c' hc
    have h4 := hlt d d' hd
    exact ⟨a, b, c, d, d', rfl, hd, by omega, by omega⟩

theorem price_takeLow {hi : ℕ} (hhi : 0xd800 ≤ hi ∧ hi < 0xdc00) {s x r : Bytes} (h : takeLow hi s = some (x, r)) :
    weight escapePrice x + weight heavy r ≤ weight heavy s := by
  match s, h with
  | b :: u :: s, h =>
    rw [takeLow] at h
    split_ifs at h
    obtain ⟨⟨lo, s'⟩, hlo, h⟩ := Option.bind_eq_some_iff.mp h
    dsimp only at h
    split_ifs at h with hrange
    obtain ⟨rfl, rfl⟩ := Prod.mk.inj (Option.some.inj h)
    obtain ⟨a, b', c, d, m, rfl, -⟩ := exists_of_takeUnit hlo
    rw [weight_encoded (by rw [toNat_charOfNat] <;> omega)]
    simp only [weight_cons]
    omega

theorem price_takeCodePoint {s x r : Bytes} (h : takeCodePoint s = some (x, r)) :
    weight escapePrice x + weight heavy r ≤ 2 + weight heavy s := by
  rw [takeCodePoint] at h
  obtain ⟨⟨hi, s'⟩, hhi, hread⟩ := Option.bind_eq_some_iff.mp h
  dsimp only at hread
  obtain ⟨a, b, c, d, m, rfl, hd, hmod, hlt⟩ := exists_of_takeUnit hhi
  simp only [weight_cons]
  split_ifs at hread with hsurrogate hlow
  · have hle := price_takeLow hsurrogate hread
    omega
  · obtain ⟨rfl, rfl⟩ := Prod.mk.inj (Option.some.inj hread)
    by_cases hascii : hi < 0x80
    · have hle := escapePrice_unit hd hascii hmod
      rw [utf8EncodeChar_ascii hascii, weight_cons, weight_nil]
      omega
    · rw [weight_encoded (by rw [toNat_charOfNat] <;> omega)]
      omega

/-- **No spelling of a byte is lighter than its escape.** -/
theorem prices_escapePrice : Prices heavy escapePrice := by
  intro s x r hquote h
  match s, h with
  | c :: s, h =>
    have hc : c ≠ 0x22 := fun heq => hquote (by rw [heq]; rfl)
    by_cases hslash : c = 0x5c
    · subst hslash
      match s, h with
      | e :: s, h =>
        rw [takeChar, if_pos rfl] at h
        have hheavy : heavy 0x5c = 1 := by decide
        rw [weight_cons, weight_cons, hheavy]
        split_ifs at h with hu
        · have hle := price_takeCodePoint h
          have hheavy' : heavy 0x75 = 1 := by decide
          rw [hu, hheavy']
          omega
        · obtain ⟨y, hy, h⟩ := Option.map_eq_some_iff.mp h
          obtain ⟨rfl, rfl⟩ := Prod.mk.inj h
          have hle := escapePrice_letter hy
          rw [weight_cons, weight_nil]
          omega
    · have htake : takeChar (c :: s) = if c < 0x20 then none else some ([c], s) := by
        cases s <;> rw [takeChar, if_neg hslash]
      rw [htake] at h
      split_ifs at h with hlow
      obtain ⟨rfl, rfl⟩ := Prod.mk.inj (Option.some.inj h)
      have hescape : escapePrice c = heavy c := by
        rw [escapePrice, escapeChar, if_neg hc, if_neg hslash]
        have hne : ∀ d : UInt8, d < 0x20 → c ≠ d := fun d hd heq => hlow (heq ▸ hd)
        rw [if_neg (hne _ (by decide)), if_neg (hne _ (by decide)), if_neg (hne _ (by decide)), if_neg hlow]
        rfl
      rw [weight_cons, weight_nil, weight_cons, hescape]
      omega

end Prices

section Tight

variable {number : Bytes → Option Number} {f64Text : F64Text} {indent depth : ℕ}

theorem heavy_of_isDigit {c : UInt8} (h : isDigit c = true) : heavy c = 0 := (heavy_table c).2.2.2.2 h

theorem weight_number {sign whole fraction exponent : Bytes} (h : IsNumber sign whole fraction exponent) :
    weight heavy (sign ++ whole ++ fraction ++ exponent) = 0 := by
  have hdigits : ∀ ds : Bytes, (∀ c ∈ ds, isDigit c = true) → weight heavy ds = 0 := fun ds hds =>
    weight_eq_zero fun c hc => heavy_of_isDigit (hds c hc)
  have hsign : weight heavy sign = 0 := by
    rcases h.sign with rfl | rfl <;> rfl
  have hfraction : weight heavy fraction = 0 := by
    rcases h.fraction with rfl | ⟨ds, hds, -, rfl⟩
    · rfl
    · rw [weight_cons, hdigits ds hds]
      decide
  have hexponent : weight heavy exponent = 0 := by
    rcases h.exponent with rfl | ⟨s, ds, hs, hds, -, rfl⟩
    · rfl
    · rw [weight_cons, weight_append, hdigits ds hds]
      rcases hs with rfl | rfl | rfl <;> decide
  rw [weight_append, weight_append, weight_append, hsign, hdigits whole h.digits, hfraction, hexponent]

theorem weight_spaces (n : ℕ) : weight heavy (spaces n) = 0 :=
  weight_eq_zero fun c hc => by
    rw [List.eq_of_mem_replicate hc]
    decide

theorem weight_enclosed {a b : UInt8} (ha : heavy a = 0) (hb : heavy b = 0) (t : Bytes) (n : ℕ) :
    weight heavy (a :: 0x0a :: (t ++ (spaces n ++ [b]))) = weight heavy t := by
  have hline : heavy 0x0a = 0 := by decide
  simp [weight_spaces, ha, hb, hline]

theorem weight_comma (b : Bool) : weight heavy (if b then [] else [0x2c]) = 0 := by cases b <;> rfl

theorem tight_items {items : List Value}
    (h : ∀ v ∈ items, Tight (weight heavy (prettyPrintInner f64Text indent v (depth + 1)))
      ((treeOf f64Text v).price heavy escapePrice) (v.All PlainKeys)) :
    Tight (weight heavy (prettyItems f64Text indent items depth))
      (itemsPrice heavy escapePrice (itemTrees f64Text items)) (∀ v ∈ items, v.All PlainKeys) := by
  induction items with
  | nil => exact tight_of_eq rfl fun v hv => nomatch hv
  | cons v vs ih =>
    have hweight : weight heavy (prettyItems f64Text indent (v :: vs) depth) =
        weight heavy (prettyPrintInner f64Text indent v (depth + 1)) +
          weight heavy (prettyItems f64Text indent vs depth) := by
      have hline : heavy 0x0a = 0 := by decide
      rw [prettyItems, weight_append, weight_append, weight_append, weight_spaces, weight_comma, weight_cons, hline]
      omega
    rw [hweight, itemTrees, itemsPrice]
    exact ((h v List.mem_cons_self).add (ih fun w hw => h w (List.mem_cons_of_mem _ hw))).imp List.forall_mem_cons.mpr

theorem tight_fields {fields : List (String × Value)}
    (h : ∀ p ∈ fields, Tight (weight heavy (prettyPrintInner f64Text indent p.2 (depth + 1)))
      ((treeOf f64Text p.2).price heavy escapePrice) (p.2.All PlainKeys)) :
    Tight (weight heavy (prettyFields f64Text indent fields depth))
      (membersPrice heavy escapePrice (fieldTrees f64Text fields))
      (∀ p ∈ fields, (∀ c ∈ utf8 p.1, PlainByte c) ∧ p.2.All PlainKeys) := by
  induction fields with
  | nil => exact tight_of_eq rfl fun p hp => nomatch hp
  | cons p fs ih =>
    obtain ⟨key, v⟩ := p
    have hweight : weight heavy (prettyFields f64Text indent ((key, v) :: fs) depth) =
        weight heavy (utf8 key) + weight heavy (prettyPrintInner f64Text indent v (depth + 1)) +
          weight heavy (prettyFields f64Text indent fs depth) := by
      have hline : heavy 0x0a = 0 := by decide
      have hquote : heavy 0x22 = 0 := by decide
      have hcolon : heavy 0x3a = 0 := by decide
      have hspace : heavy 0x20 = 0 := by decide
      rw [prettyFields]
      simp only [weight_append, weight_cons, weight_spaces, weight_comma, hline, hquote, hcolon, hspace]
      omega
    rw [hweight, fieldTrees, membersPrice]
    exact (((tight_weight tight_escapePrice (utf8 key)).add (h _ List.mem_cons_self)).add
      (ih fun q hq => h q (List.mem_cons_of_mem _ hq))).imp fun hall => List.forall_mem_cons.mpr hall

/-- **The printed text weighs less than any spelling of the value**, unless all keys are plain. -/
theorem weight_prettyPrintInner {v : Value} (hnumbers : v.All (NumberReads number f64Text))
    (hdepth : depth + v.depth ≤ maxJsonDepth) :
    Tight (weight heavy (prettyPrintInner f64Text indent v depth)) ((treeOf f64Text v).price heavy escapePrice)
      (v.All PlainKeys) := by
  induction v generalizing depth with
  | null =>
    rw [prettyPrintInner, if_neg (by omega)]
    exact tight_of_eq rfl trivial
  | bool b =>
    rw [prettyPrintInner, if_neg (by omega)]
    exact tight_of_eq rfl trivial
  | number n =>
    obtain ⟨-, sign, whole, fraction, exponent, hparts, htext⟩ := hnumbers.self
    rw [prettyPrintInner, if_neg (by omega)]
    refine tight_of_eq ?_ trivial
    rw [htext, weight_number hparts]
    rfl
  | string s =>
    rw [prettyPrintInner, if_neg (by omega)]
    refine tight_of_eq ?_ trivial
    rw [quotedBy, weight_cons, weight_append, weight_flatMap]
    exact Nat.zero_add _
  | array items ih =>
    rw [Value.all_array] at hnumbers
    have hitems := @tight_items f64Text indent depth items fun v hv => by
      have hlt := Value.depth_array_le.mp le_rfl v hv
      exact ih v hv (hnumbers.2 v hv) (by omega)
    have hplain : (∀ v ∈ items, v.All PlainKeys) → (Value.array items).All PlainKeys :=
      fun h => Value.all_array.mpr ⟨trivial, h⟩
    rw [prettyPrintInner, if_neg (by omega), treeOf, JsonSyntax.Tree.price]
    cases items with
    | nil => exact hitems.imp hplain
    | cons v vs =>
      rw [if_neg (by simp), weight_enclosed (by decide) (by decide)]
      exact hitems.imp hplain
  | object fields ih =>
    rw [Value.all_object] at hnumbers
    have hfields := @tight_fields f64Text indent depth fields fun p hp => by
      have hlt := Value.depth_object_le.mp le_rfl p hp
      exact ih p hp (hnumbers.2 p hp) (by omega)
    have hplain : (∀ p ∈ fields, (∀ c ∈ utf8 p.1, PlainByte c) ∧ p.2.All PlainKeys) →
        (Value.object fields).All PlainKeys :=
      fun h => Value.all_object.mpr ⟨fun p hp => (h p hp).1, fun p hp => (h p hp).2⟩
    rw [prettyPrintInner, if_neg (by omega), treeOf, JsonSyntax.Tree.price]
    cases fields with
    | nil => exact hfields.imp hplain
    | cons p fs =>
      rw [if_neg (by simp), weight_enclosed (by decide) (by decide)]
      exact hfields.imp hplain

end Tight

/-! ## The document is preserved just when its keys are plain -/

section Preserves

variable {number printed : Bytes → Option Number} {f64Text : F64Text} {syntaxError : String → String} {usizes : ℕ}

theorem toolJsonFormat_eq_ok {args v : Value} {jsonStr : String}
    (hjson : (args.get "json").bind Value.asStr = some jsonStr) (hv : fromStr number (utf8 jsonStr) = some v) :
    ∃ indent ≤ 8, toolJsonFormat number f64Text syntaxError usizes args = .ok (prettyPrintJson f64Text indent v) := by
  have htool : toolJsonFormat number f64Text syntaxError usizes args = .ok (prettyPrintJson f64Text
      (min ((((args.get "indent").bind Value.asU64).getD 2).toNat % usizes) 8) v) := by
    rw [toolJsonFormat, hjson]
    dsimp only
    rw [hv]
  exact ⟨_, Nat.min_le_right _ 8, htool⟩

/-- **The printed text is read as the same value if and only if all keys are plain**; numbers count as printed. -/
theorem json_format_preserves_iff {args v : Value} {jsonStr : String}
    (hjson : (args.get "json").bind Value.asStr = some jsonStr) (hv : fromStr number (utf8 jsonStr) = some v)
    (hnumbers : v.All (NumberReads printed f64Text)) :
    (∃ indent ≤ 8, toolJsonFormat number f64Text syntaxError usizes args = .ok (prettyPrintJson f64Text indent v)) ∧
      ∀ indent, fromStr printed (prettyPrintJson f64Text indent v) = some v ↔ v.All PlainKeys := by
  obtain ⟨hwf, hlevels⟩ := @wf_of_fromStr _ f64Text _ _ hv
  have hdepth : 0 + v.depth ≤ maxJsonDepth := by
    have hle := @depth_le_levels f64Text v
    have hlimit : recursionLimit ≤ maxJsonDepth := by decide
    omega
  refine ⟨toolJsonFormat_eq_ok hjson hv, fun indent => ⟨fun hsame => ?_, fun hkeys => ?_⟩⟩
  · exact (weight_prettyPrintInner hnumbers hdepth).2 (price_le_of_fromStr prices_escapePrice hsame)
  · exact fromStr_of_denotes hwf hlevels hnumbers (denotes_prettyPrintInner hkeys hnumbers hdepth)

def readOne (text : Bytes) : Option Number := if text = [0x31] then some (.posInt 1) else none

/-- An array in an object. -/
theorem json_format_preserves_iff_one :
    (∃ indent ≤ 8, toolJsonFormat readOne (fun _ => []) id (2 ^ 64)
        (.object [("json", .string "\x7b\"a\": [1]\x7d")]) =
      .ok (prettyPrintJson (fun _ => []) indent (.object [("a", .array [.number (.posInt 1)])]))) ∧
      ∀ indent, fromStr readOne (prettyPrintJson (fun _ => []) indent (.object [("a", .array [.number (.posInt 1)])])) =
        some (.object [("a", .array [.number (.posInt 1)])]) ↔
          (Value.object [("a", .array [.number (.posInt 1)])]).All PlainKeys :=
  json_format_preserves_iff rfl (by decide +kernel)
    (Value.all_object.mpr ⟨trivial, fun p hp => by
      obtain rfl := List.mem_singleton.mp hp
      refine Value.all_array.mpr ⟨trivial, fun v hv => ?_⟩
      obtain rfl := List.mem_singleton.mp hv
      exact ⟨by decide +kernel, [], [0x31], [], [],
        ⟨.inl rfl, by decide +kernel, by decide, by decide, .inl rfl, .inl rfl⟩, by decide +kernel⟩⟩)

/-- A key with quotes in it comes out as two keys. -/
theorem json_format_not_preserved :
    fromStr readOne (utf8 "\x7b\"a\\\": 1, \\\"b\": 1\x7d") = some (.object [("a\": 1, \"b", .number (.posInt 1))]) ∧
      fromStr readOne (prettyPrintJson (fun _ => []) 2 (.object [("a\": 1, \"b", .number (.posInt 1))])) =
        some (.object [("a", .number (.posInt 1)), ("b", .number (.posInt 1))]) ∧
      Value.object [("a", .number (.posInt 1)), ("b", .number (.posInt 1))] ≠
        .object [("a\": 1, \"b", .number (.posInt 1))] := by
  decide +kernel

end Preserves

end VelocityMcp.Edge
