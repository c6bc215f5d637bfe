import VelocityMcp.Interp.Render

/-!
# Interp.RenderBounds — when a value's text fits its buffer

`rendering_exact_iff`: for which values rendering stays inside its buffers.
-/

namespace VelocityMcp.Interp

open Lib Filled

/-- It keeps to its buffers, and the length is that of the bytes produced. -/
def Exact (r : Run Unit CText) : Prop := ∃ t, r = .done t ∧ t.len = t.chars.length

variable (numberText : NumberText)

/-! ## `value_to_string` -/

section ToString

namespace Val

/-- The quotes of a string inside an array. -/
def quotes : Val → ℕ
  | string _ => 2
  | _ => 0

/-- The length of a separator before every part but the first. -/
def separated (first : Bool) : ℕ := if first then 0 else 2

mutual

/-- How long the text of a value is. -/
def textLength : Val → ℕ
  | null => 4
  | bool b => if b then 4 else 5
  | number bits => (numberString numberText bits).length
  | string chars => (cString chars).length
  | array items => 2 + itemsLength items true
  | map entries => 2 + entriesLength entries true
  | func => 10

def itemsLength : List Val → Bool → ℕ
  | [], _ => 0
  | v :: vs, first => separated first + (quotes v + textLength v) + itemsLength vs false

def entriesLength : List (Bytes × Val) → Bool → ℕ
  | [], _ => 0
  | (key, v) :: es, first => separated first + ((cString key).length + 4 + textLength v) + entriesLength es false

end

/-- Where the loop over the items stops that starts at `p`: behind the first that reaches 2046, or behind the last. -/
def walked : List Val → Bool → ℕ → ℕ
  | [], _, p => p
  | v :: vs, first, p =>
    if p < toStringSize - 2 then walked vs false (p + (separated first + (quotes v + textLength numberText v)))
    else p

/-- A value whose text `value_to_string` renders well. -/
def StringFits : Val → Prop
  | string chars => 0 ∉ chars
  | array items => walked numberText items true 1 ≤ toStringSize - 2
  | map entries => 2 + entriesLength numberText entries true ≤ toStringSize - 1
  | _ => True

end Val

open Val

variable {numberText}

theorem separated_le (first : Bool) : separated first ≤ 2 := by
  cases first
  · exact le_rfl
  · exact Nat.zero_le _

theorem le_walked (items : List Val) (first : Bool) (p : ℕ) : p ≤ walked numberText items first p := by
  induction items generalizing first p with
  | nil => exact le_rfl
  | cons v vs ih =>
    rw [walked]
    split_ifs with h
    · exact (Nat.le_add_right _ _).trans (ih _ _)
    · exact le_rfl

theorem walked_cases (items : List Val) (first : Bool) (p : ℕ) :
    walked numberText items first p ≤ p + itemsLength numberText items first ∧
      (walked numberText items first p = p + itemsLength numberText items first ∨
        toStringSize - 2 ≤ walked numberText items first p) := by
  induction items generalizing first p with
  | nil => exact ⟨le_rfl, Or.inl rfl⟩
  | cons v vs ih =>
    obtain ⟨hle, hor⟩ := ih false (p + (separated first + (quotes v + textLength numberText v)))
    rw [walked, itemsLength]
    by_cases h : p < toStringSize - 2
    · rw [if_pos h]
      omega
    · rw [if_neg h]
      omega

/-- What a value's text is known to be: it has its length, or at least as many bytes as the buffer holds. -/
def Shows (numberText : NumberText) (v : Val) (r : Run Unit CText) : Prop :=
  (∃ t, r = .done t ∧ (t.chars.length = textLength numberText v ∨
    (toStringSize - 1 ≤ t.chars.length ∧ toStringSize - 1 ≤ textLength numberText v))) ∨
  (r = .undefined ∧ toStringSize - 1 ≤ textLength numberText v)

theorem length_itemText (v : Val) (s : CText) : (itemText v.shape s).length = quotes v + s.chars.length := by
  cases v <;> simp [itemText, Val.shape, quotes]
  omega

theorem printItems_of_lt {render : Val → Run Unit CText} {b : Filled} (h : toStringSize - 2 < b.pos) (items : List Val)
    (first : Bool) : printItems Val.shape render items first b = .done b := by
  cases items with
  | nil => rfl
  | cons v vs => rw [printItems, if_neg (by omega)]

theorem printItem_of_ne {item : Shape Val} (h : item ≠ .absent) (t : CText) (b : Filled) :
    printItem item t b = b.print toStringSize (itemText item t) := by
  cases item with
  | absent => exact absurd rfl h
  | _ => rfl

theorem print_separator {b : Filled} {p : ℕ} (hp : p < toStringSize - 2) (hb : b.pos = p) (ht : b.Tracks toStringSize)
    (first : Bool) : ∃ b', printSeparator first b = .done b' ∧
      b'.pos = p + separated first ∧ b'.Tracks toStringSize := by
  have hsize : toStringSize = 2048 := rfl
  cases first with
  | true => exact ⟨b, rfl, hb, ht⟩
  | false =>
    obtain ⟨b', hb', hpos, ht'⟩ := @print_of_le toStringSize _ (by omega) ht (utf8 ", ")
    exact ⟨b', hb', by rw [hpos, hb]; rfl, ht'⟩

/-- **The loop over the items** ends where the spec says, or behind the bound. -/
theorem goes_printItems {render : Val → Run Unit CText} {items : List Val}
    (hrender : ∀ v ∈ items, Shows numberText v (render v)) {first : Bool} {b : Filled} {p : ℕ}
    (hp : p ≤ toStringSize - 2) (hb : b.pos = p) (ht : b.Tracks toStringSize) :
    Goes toStringSize (toStringSize - 2) (walked numberText items first p ≤ toStringSize - 2)
      (walked numberText items first p) (printItems Val.shape render items first b) := by
  have hsize : toStringSize = 2048 := rfl
  induction items generalizing first b p with
  | nil => exact Or.inl ⟨hp, b, rfl, by rw [walked]; omega, ht⟩
  | cons v vs ih =>
    rw [walked, printItems]
    by_cases hroom : p < toStringSize - 2
    · have hroom' : b.pos < toStringSize - 2 := by rwa [hb]
      rw [if_pos hroom, if_pos hroom']
      obtain ⟨b₁, hb₁, hpos₁, ht₁⟩ := print_separator hroom hb ht first
      rw [hb₁, Run.done_bind]
      have hsep := separated_le first
      have hstart := @le_walked numberText vs false (p + (separated first + (quotes v + textLength numberText v)))
      obtain ⟨t, hdone, hlen⟩ | ⟨hundefined, hlong⟩ := hrender v List.mem_cons_self
      · have habsent : v.shape ≠ .absent := by cases v <;> simp [Val.shape]
        rw [hdone, Run.done_bind]
        -- the item is there, so its text is printed
        obtain ⟨b₂, hb₂, hpos₂, ht₂⟩ :=
          @print_of_le toStringSize _ (by omega) ht₁ (itemText v.shape t)
        rw [printItem_of_ne habsent, hb₂, Run.done_bind]
        rw [length_itemText] at hpos₂
        by_cases hfits : b₂.pos ≤ toStringSize - 2
        · have hsame : b₂.pos = p + (separated first + (quotes v + textLength numberText v)) := by omega
          exact ih (fun w hw => hrender w (List.mem_cons_of_mem _ hw)) (by omega) hsame ht₂
        · rw [printItems_of_lt (by omega)]
          exact Or.inr ⟨by omega, lost_done (by omega) ht₂⟩
      · rw [hundefined]
        exact Or.inr ⟨by omega, Or.inl rfl⟩
    · have hfull : ¬ b.pos < toStringSize - 2 := by rwa [hb]
      rw [if_neg hroom, if_neg hfull]
      exact Or.inl ⟨hp, b, rfl, by omega, ht⟩

theorem lost_printEntries {render : Val → Run Unit CText} {entries : List (Bytes × Val)}
    (hrender : ∀ e ∈ entries, Shows numberText e.2 (render e.2)) {first : Bool} {b : Filled}
    (hb : toStringSize - 2 < b.pos) (ht : b.Tracks toStringSize) :
    Lost toStringSize (toStringSize - 2) (printEntries render entries first b) := by
  induction entries generalizing first b with
  | nil => exact lost_done hb ht
  | cons e es ih =>
    obtain ⟨key, v⟩ := e
    rw [printEntries, printSeparatorBelow, if_neg fun h => absurd h.2 (Nat.not_lt.mpr hb.le), Run.done_bind]
    obtain ⟨t, hdone, -⟩ | ⟨hundefined, -⟩ := hrender _ List.mem_cons_self
    · rw [hdone, Run.done_bind]
      exact (lost_print hb ht _).bind fun b' hb' ht' => ih (fun e he => hrender e (List.mem_cons_of_mem _ he)) hb' ht'
    · rw [hundefined]
      exact Or.inl rfl

theorem length_entryText (key : Bytes) (t : CText) :
    (0x22 :: (cString key ++ (utf8 "\": " ++ t.chars))).length = (cString key).length + 4 + t.chars.length := by
  have hcolon : (utf8 "\": ").length = 3 := by decide
  rw [List.length_cons, List.length_append, List.length_append, hcolon]
  omega

theorem length_commaBlank : (utf8 ", ").length = 2 := by decide

/-- **The loops over the entries.** -/
theorem goes_printEntries {render : Val → Run Unit CText} {entries : List (Bytes × Val)}
    (hrender : ∀ e ∈ entries, Shows numberText e.2 (render e.2)) {first : Bool} {b : Filled} {p : ℕ}
    (hp : p ≤ toStringSize - 2) (hb : b.pos = p) (ht : b.Tracks toStringSize) :
    Goes toStringSize (toStringSize - 2) (p + entriesLength numberText entries first ≤ toStringSize - 2)
      (p + entriesLength numberText entries first) (printEntries render entries first b) := by
  have hsize : toStringSize = 2048 := rfl
  induction entries generalizing first b p with
  | nil => exact Or.inl ⟨hp, b, rfl, by rw [entriesLength]; omega, ht⟩
  | cons e es ih =>
    obtain ⟨key, v⟩ := e
    have hrest : ∀ e ∈ es, Shows numberText e.2 (render e.2) := fun e he => hrender e (List.mem_cons_of_mem _ he)
    -- where there is no room for a separator, there is none for the entry
    obtain ⟨b₁, hb₁, hpos₁, ht₁⟩ : ∃ b₁, printSeparatorBelow first b = .done b₁ ∧
        (b₁.pos = p + separated first ∨ (b₁.pos = toStringSize - 2 ∧ p = toStringSize - 2 ∧ first = false)) ∧
        b₁.Tracks toStringSize := by
      by_cases hsep : first = false ∧ b.pos < toStringSize - 2
      · obtain ⟨b', hb', hpos, ht'⟩ := @print_of_le toStringSize _ (by omega) ht (utf8 ", ")
        refine ⟨b', by rw [printSeparatorBelow, if_pos hsep, hb'], Or.inl ?_, ht'⟩
        rw [hpos, hb, length_commaBlank, hsep.1]
        rfl
      · refine ⟨b, if_neg hsep, ?_, ht⟩
        cases first with
        | true => exact Or.inl hb
        | false =>
          have hfull : ¬ b.pos < toStringSize - 2 := fun h => hsep ⟨rfl, h⟩
          exact Or.inr ⟨by omega, by omega, rfl⟩
    rw [printEntries, hb₁, Run.done_bind, entriesLength]
    have hsep := separated_le first
    obtain ⟨t, hdone, hlen⟩ | ⟨hundefined, hlong⟩ := hrender _ List.mem_cons_self
    · dsimp only at hdone hlen
      rw [hdone, Run.done_bind]
      obtain ⟨b₂, hb₂, hpos₂, ht₂⟩ := @print_of_le toStringSize _ (by omega) ht₁
        (0x22 :: (cString key ++ (utf8 "\": " ++ t.chars)))
      rw [hb₂, Run.done_bind]
      rw [length_entryText] at hpos₂
      by_cases hfits : b₂.pos ≤ toStringSize - 2
      · have hsame : b₂.pos = p + (separated first + ((cString key).length + 4 + textLength numberText v)) := by omega
        exact (ih hrest (by omega) hsame ht₂).congr (by rw [Nat.add_assoc p]) (by rw [Nat.add_assoc p])
      · refine Or.inr ⟨?_, lost_printEntries hrest (by omega) ht₂⟩
        rcases hpos₁ with hpos₁ | ⟨hpos₁, hp₁, hfirst⟩
        · omega
        · have hcomma : separated first = 2 := by rw [hfirst]; rfl
          omega
    · dsimp only at hundefined hlong
      rw [hundefined]
      exact Or.inr ⟨by omega, Or.inl rfl⟩

/-- What comes of a text between two brackets of one byte, where `p` is the place of the second. -/
def Bracketed (p : ℕ) (r : Run Unit CText) : Prop :=
  (p ≤ toStringSize - 2 ∧ ∃ t, r = .done t ∧ t.chars.length = p + 1 ∧ t.len = p + 1) ∨
    (toStringSize - 2 < p ∧
      (r = .undefined ∨ ∃ t, r = .done t ∧ t.chars.length = toStringSize - 1 ∧ toStringSize - 1 < t.len))

theorem bracketed {left right : Bytes} {body : Filled → Run Unit Filled} {p : ℕ} (hleft : left.length = 1)
    (hright : right.length = 1)
    (hbody : ∀ b : Filled, b.pos = 1 → b.Tracks toStringSize →
      Goes toStringSize (toStringSize - 2) (p ≤ toStringSize - 2) p (body b)) :
    Bracketed p (do
      let b ← Filled.empty.print toStringSize left
      let b ← body b
      let b ← b.print toStringSize right
      .done ⟨b.chars, b.pos⟩) := by
  have hsize : toStringSize = 2048 := rfl
  obtain ⟨b₁, hb₁, hpos₁, ht₁⟩ :=
    @print_of_le toStringSize Filled.empty (Nat.zero_le _) tracks_empty left
  have hstart : b₁.pos = 1 := by rw [hpos₁, hleft]; rfl
  rw [hb₁, Run.done_bind]
  obtain ⟨hok, b₂, hb₂, hpos₂, ht₂⟩ | ⟨hnot, hlost⟩ := hbody b₁ hstart ht₁
  · obtain ⟨b₃, hb₃, hpos₃, ht₃⟩ := @print_of_le toStringSize _ (by omega) ht₂ right
    refine Or.inl ⟨hok, ⟨b₃.chars, b₃.pos⟩, ?_, ?_, ?_⟩
    · rw [hb₂, Run.done_bind, hb₃, Run.done_bind]
    · show b₃.chars.length = p + 1
      unfold Tracks at ht₃
      omega
    · show b₃.pos = p + 1
      omega
  · refine Or.inr ⟨by omega, ?_⟩
    obtain hundefined | ⟨b₂, hb₂, hpos₂, ht₂⟩ := hlost
    · exact Or.inl (by rw [hundefined]; rfl)
    · rw [hb₂, Run.done_bind]
      rcases Nat.lt_or_ge toStringSize b₂.pos with hfar | hnear
      · exact Or.inl (by rw [print_eq_undefined hfar]; rfl)
      · obtain ⟨b₃, hb₃, hpos₃, ht₃⟩ := @print_of_le toStringSize _ hnear ht₂ right
        refine Or.inr ⟨⟨b₃.chars, b₃.pos⟩, by rw [hb₃, Run.done_bind], ?_, ?_⟩
        · show b₃.chars.length = toStringSize - 1
          unfold Tracks at ht₃
          omega
        · show toStringSize - 1 < b₃.pos
          omega

variable {body : Filled → Run Unit Filled} {p : ℕ}

theorem brackets (hbody : ∀ b : Filled, b.pos = 1 → b.Tracks toStringSize →
      Goes toStringSize (toStringSize - 2) (p ≤ toStringSize - 2) p (body b)) :
    Bracketed p (do
      let b ← Filled.empty.print toStringSize (utf8 "[")
      let b ← body b
      let b ← b.print toStringSize (utf8 "]")
      .done ⟨b.chars, b.pos⟩) := bracketed (by decide) (by decide) hbody

theorem braces (hbody : ∀ b : Filled, b.pos = 1 → b.Tracks toStringSize →
      Goes toStringSize (toStringSize - 2) (p ≤ toStringSize - 2) p (body b)) :
    Bracketed p (do
      let b ← Filled.empty.print toStringSize (utf8 "\x7b")
      let b ← body b
      let b ← b.print toStringSize (utf8 "\x7d")
      .done ⟨b.chars, b.pos⟩) := bracketed (by decide) (by decide) hbody

theorem valueToString_array (n : ℕ) (items : List Val) :
    valueToString numberText Val.shape (n + 1) (.array items) = (do
      let b ← Filled.empty.print toStringSize (utf8 "[")
      let b ← printItems Val.shape (valueToString numberText Val.shape n) items true b
      let b ← b.print toStringSize (utf8 "]")
      .done ⟨b.chars, b.pos⟩) := rfl

theorem valueToString_map (n : ℕ) (entries : List (Bytes × Val)) :
    valueToString numberText Val.shape (n + 1) (.map entries) = (do
      let b ← Filled.empty.print toStringSize (utf8 "\x7b")
      let b ← printEntries (valueToString numberText Val.shape n) entries true b
      let b ← b.print toStringSize (utf8 "\x7d")
      .done ⟨b.chars, b.pos⟩) := rfl

/-- **What `value_to_string` gives of a value.** -/
theorem shows_valueToString (v : Val) {n : ℕ} (hn : v.depth < n) :
    Shows numberText v (valueToString numberText Val.shape n v) := by
  have hsize : toStringSize = 2048 := rfl
  obtain ⟨n, rfl⟩ : ∃ k, n = k + 1 := ⟨n - 1, by omega⟩
  induction v generalizing n with
  | null =>
    have hlength : (utf8 "null").length = 4 := by decide
    exact Or.inl ⟨_, rfl, Or.inl hlength⟩
  | bool b =>
    have hlength : (if b then utf8 "true" else utf8 "false").length = if b then 4 else 5 := by
      cases b <;> decide
    exact Or.inl ⟨_, rfl, Or.inl hlength⟩
  | number bits => exact Or.inl ⟨_, rfl, Or.inl rfl⟩
  | string chars => exact Or.inl ⟨_, rfl, Or.inl rfl⟩
  | func =>
    have hlength : (utf8 "<function>").length = 10 := by decide
    exact Or.inl ⟨_, rfl, Or.inl hlength⟩
  | array items ih =>
    have hrender : ∀ v ∈ items, Shows numberText v (valueToString numberText Val.shape n v) := fun v hv => by
      have hlt := depth_array_le.mp (Nat.lt_succ_iff.mp hn) v hv
      obtain ⟨k, rfl⟩ : ∃ k, n = k + 1 := ⟨n - 1, by omega⟩
      exact ih v hv k hlt
    obtain ⟨hle, hor⟩ := @walked_cases numberText items true 1
    have hlength : textLength numberText (.array items) = 2 + itemsLength numberText items true := by rw [textLength]
    rw [valueToString_array]
    obtain ⟨hok, t, ht, hchars, -⟩ | ⟨hlost, hr⟩ := brackets fun b hb ht =>
      @goes_printItems _ _ _ hrender true _ 1 (by omega) hb ht
    · exact Or.inl ⟨t, ht, by omega⟩
    · obtain hr | ⟨t, ht, hchars, -⟩ := hr
      · exact Or.inr ⟨hr, by omega⟩
      · exact Or.inl ⟨t, ht, by omega⟩
  | map entries ih =>
    have hrender : ∀ e ∈ entries, Shows numberText e.2 (valueToString numberText Val.shape n e.2) := fun e he => by
      have hlt := depth_map_le.mp (Nat.lt_succ_iff.mp hn) e he
      obtain ⟨k, rfl⟩ : ∃ k, n = k + 1 := ⟨n - 1, by omega⟩
      exact ih e he k hlt
    have hlength : textLength numberText (.map entries) = 2 + entriesLength numberText entries true := by rw [textLength]
    rw [valueToString_map]
    obtain ⟨hok, t, ht, hchars, -⟩ | ⟨hlost, hr⟩ := braces fun b hb ht =>
      @goes_printEntries _ _ _ hrender true _ 1 (by omega) hb ht
    · exact Or.inl ⟨t, ht, by omega⟩
    · obtain hr | ⟨t, ht, hchars, -⟩ := hr
      · exact Or.inr ⟨hr, by omega⟩
      · exact Or.inl ⟨t, ht, by omega⟩

theorem exact_done {t : CText} : Exact (.done t) ↔ t.len = t.chars.length := by
  constructor
  · rintro ⟨t', h, hlen⟩
    cases h
    exact hlen
  · exact fun h => ⟨t, rfl, h⟩

theorem not_exact_undefined : ¬ Exact .undefined := by
  rintro ⟨t, h, -⟩
  cases h

theorem exact_of_bracketed {r : Run Unit CText} (h : Bracketed p r) : Exact r ↔ p ≤ toStringSize - 2 := by
  obtain ⟨hok, t, rfl, hchars, hlen⟩ | ⟨hlost, rfl | ⟨t, rfl, hchars, hlen⟩⟩ := h
  · exact iff_of_true (exact_done.mpr (hlen.trans hchars.symm)) hok
  · exact iff_of_false not_exact_undefined (Nat.not_le.mpr hlost)
  · refine iff_of_false (fun h => ?_) (Nat.not_le.mpr hlost)
    rw [exact_done, hchars] at h
    omega

/-- **`value_to_string` keeps to its buffer, and returns the length of its text, for the values that fit.** -/
theorem toString_exact_iff (v : Val) {n : ℕ} (hn : v.depth < n) :
    Exact (valueToString numberText Val.shape n v) ↔ StringFits numberText v := by
  have hsize : toStringSize = 2048 := rfl
  obtain ⟨n, rfl⟩ : ∃ k, n = k + 1 := ⟨n - 1, by omega⟩
  cases v with
  | null => exact iff_of_true (exact_done.mpr rfl) trivial
  | bool b => exact iff_of_true (exact_done.mpr rfl) trivial
  | number bits => exact iff_of_true (exact_done.mpr rfl) trivial
  | func => exact iff_of_true (exact_done.mpr rfl) trivial
  | string chars =>
    show Exact (.done ⟨cString chars, chars.length⟩) ↔ 0 ∉ chars
    rw [exact_done, ← cString_eq_self]
    exact ⟨fun h => List.IsPrefix.eq_of_length (List.takeWhile_prefix _) h.symm, fun h => by rw [h]⟩
  | array items =>
    rw [valueToString_array]
    refine exact_of_bracketed (brackets fun b hb ht =>
      @goes_printItems numberText _ _ (fun v hv => ?_) _ _ _ (by omega) hb ht)
    exact shows_valueToString v (depth_array_le.mp (Nat.lt_succ_iff.mp hn) v hv)
  | map entries =>
    rw [valueToString_map]
    refine (exact_of_bracketed (braces fun b hb ht =>
      @goes_printEntries numberText _ _ (fun e he => ?_) _ _ 1 (by omega) hb ht)).trans ?_
    · exact shows_valueToString e.2 (depth_map_le.mp (Nat.lt_succ_iff.mp hn) e he)
    · show 1 + entriesLength numberText entries true ≤ toStringSize - 2 ↔
        2 + entriesLength numberText entries true ≤ toStringSize - 1
      omega

end ToString

/-! ## `json_serialize` -/

section Serialize

def charsLength (s : Bytes) : ℕ := (s.map fun c => if (jsonEscape c).isSome then 2 else 1).sum

def keyCharsLength (s : Bytes) : ℕ := (s.map fun c => if c = 0x22 ∨ c = 0x5c then 2 else 1).sum

/-- The length of a comma before every member but the first. -/
def comma (first : Bool) : ℕ := if first then 0 else 1

def valueStart (key : Bytes) (first : Bool) (p : ℕ) : ℕ := p + comma first + (2 + keyCharsLength (cString key)) + 1

namespace Val

mutual

/-- How long the JSON text of a value is. -/
def jsonLength : Val → ℕ
  | null | func => 4
  | bool b => if b then 4 else 5
  | number bits => (numberText.text bits).length
  | string chars => 2 + charsLength chars
  | array items => 2 + itemsJsonLength items true
  | map entries => 2 + entriesJsonLength entries true

def itemsJsonLength : List Val → Bool → ℕ
  | [], _ => 0
  | v :: vs, first => comma first + jsonLength v + itemsJsonLength vs false

def entriesJsonLength : List (Bytes × Val) → Bool → ℕ
  | [], _ => 0
  | (key, v) :: es, first => valueStart key first 0 + jsonLength v + entriesJsonLength es false

end

mutual

/-- In the JSON text that starts at `p`, no scalar but strings ends behind the byte at 8191. -/
def ScalarsWithin : Val → ℕ → Prop
  | string _, _ => True
  | array items, p => ItemsWithin items true (p + 1)
  | map entries, p => EntriesWithin entries true (p + 1)
  | v, p => p + jsonLength numberText v ≤ serializeSize - 1

def ItemsWithin : List Val → Bool → ℕ → Prop
  | [], _, _ => True
  | v :: vs, first, p =>
    ScalarsWithin v (p + comma first) ∧ ItemsWithin vs false (p + comma first + jsonLength numberText v)

def EntriesWithin : List (Bytes × Val) → Bool → ℕ → Prop
  | [], _, _ => True
  | (key, v) :: es, first, p =>
    ScalarsWithin v (valueStart key first p) ∧
      EntriesWithin es false (valueStart key first p + jsonLength numberText v)

end

end Val

open Val

variable {numberText}

/-- The loops over characters stop where two more do not fit. -/
def Fills (l : ℕ) (b : Filled) (r : Run Unit Filled) : Prop :=
  ∃ b', r = .done b' ∧ b'.Tracks serializeSize ∧ b'.pos ≤ serializeSize - 1 ∧ b'.pos ≤ b.pos + l ∧
    (b'.pos = b.pos + l ∨ serializeSize - 2 ≤ b'.pos)

theorem fills_putChars (s : Bytes) {b : Filled} (hb : b.pos ≤ serializeSize - 1) (ht : b.Tracks serializeSize) :
    Fills (charsLength s) b (putChars s b) := by
  have hsize : serializeSize = 8192 := rfl
  induction s generalizing b with
  | nil => exact ⟨b, rfl, ht, hb, Nat.le_add_right _ _, Or.inl rfl⟩
  | cons c s ih =>
    rw [putChars]
    by_cases hroom : b.pos < serializeSize - 2
    · rw [if_pos hroom]
      cases hescape : jsonEscape c with
      | none =>
        have hlength : charsLength (c :: s) = 1 + charsLength s := by simp [charsLength, hescape]
        obtain ⟨b₁, hb₁, hpos₁, ht₁⟩ := @put_of_lt serializeSize _ (by omega) ht c
        show Fills _ b (b.put serializeSize c >>= putChars s)
        rw [hb₁, Run.done_bind]
        obtain ⟨b', hr, ht', hle, hle', hor⟩ := ih (by omega) ht₁
        exact ⟨b', hr, ht', hle, by omega, by omega⟩
      | some e =>
        have hlength : charsLength (c :: s) = 2 + charsLength s := by simp [charsLength, hescape]
        obtain ⟨b₁, hb₁, hpos₁, ht₁⟩ := @put_of_lt serializeSize _ (by omega) ht 0x5c
        obtain ⟨b₂, hb₂, hpos₂, ht₂⟩ := @put_of_lt serializeSize _ (by omega) ht₁ e
        show Fills _ b (b.put serializeSize 0x5c >>= fun b => putJson e b >>= putChars s)
        rw [hb₁, Run.done_bind, putJson, putBelow, if_pos (by omega), hb₂, Run.done_bind]
        obtain ⟨b', hr, ht', hle, hle', hor⟩ := ih (by omega) ht₂
        exact ⟨b', hr, ht', hle, by omega, by omega⟩
    · rw [if_neg hroom]
      exact ⟨b, rfl, ht, hb, Nat.le_add_right _ _, Or.inr (by omega)⟩

theorem fills_putKeyChars (s : Bytes) {b : Filled} (hb : b.pos ≤ serializeSize - 1) (ht : b.Tracks serializeSize) :
    Fills (keyCharsLength s) b (putKeyChars s b) := by
  have hsize : serializeSize = 8192 := rfl
  induction s generalizing b with
  | nil => exact ⟨b, rfl, ht, hb, Nat.le_add_right _ _, Or.inl rfl⟩
  | cons c s ih =>
    rw [putKeyChars]
    by_cases hroom : b.pos < serializeSize - 2
    · rw [if_pos hroom]
      obtain ⟨b₁, hb₁, hpos₁, ht₁⟩ : ∃ b₁, putKeyEscape c b = .done b₁ ∧
          b₁.pos + 1 + keyCharsLength s = b.pos + keyCharsLength (c :: s) ∧ b₁.Tracks serializeSize ∧
          b₁.pos ≤ b.pos + 1 := by
        by_cases hescape : c = 0x22 ∨ c = 0x5c
        · obtain ⟨b₁, hb₁, hpos₁, ht₁⟩ := @put_of_lt serializeSize _ (by omega) ht 0x5c
          refine ⟨b₁, by rw [putKeyEscape, if_pos hescape, hb₁], ?_, ht₁, by omega⟩
          simp only [keyCharsLength, List.map_cons, if_pos hescape, List.sum_cons]
          omega
        · refine ⟨b, if_neg hescape, ?_, ht, by omega⟩
          simp only [keyCharsLength, List.map_cons, if_neg hescape, List.sum_cons]
          omega
      obtain ⟨ht₁, hle₁⟩ := ht₁
      obtain ⟨b₂, hb₂, hpos₂, ht₂⟩ := @put_of_lt serializeSize _ (by omega) ht₁ c
      rw [hb₁, Run.done_bind, hb₂, Run.done_bind]
      obtain ⟨b', hr, ht', hle, hle', hor⟩ := ih (by omega) ht₂
      exact ⟨b', hr, ht', hle, by omega, by omega⟩
    · rw [if_neg hroom]
      exact ⟨b, rfl, ht, hb, Nat.le_add_right _ _, Or.inr (by omega)⟩

/-- A piece of `json_serialize_value`. -/
abbrev GoesJson (ok : Prop) (p : ℕ) (r : Run Unit Filled) : Prop := Goes serializeSize (serializeSize - 1) ok p r

abbrev LostJson (r : Run Unit Filled) : Prop := Lost serializeSize (serializeSize - 1) r

/-- The position in the buffer, for a position `p` in the full text. -/
def At (p : ℕ) (b : Filled) : Prop := b.pos = min p (serializeSize - 1) ∧ b.Tracks serializeSize

variable {b : Filled} {p : ℕ}

theorem goes_putJson (h : At p b) (c : UInt8) : GoesJson True (p + 1) (putJson c b) :=
  goes_putBelow le_rfl rfl h.1 h.2 c

theorem lost_putJson (h : serializeSize - 1 < b.pos) (ht : b.Tracks serializeSize) (c : UInt8) :
    LostJson (putJson c b) := lost_putBelow (Nat.le_succ _) h ht c

theorem goes_putComma (h : At p b) (first : Bool) : GoesJson True (p + comma first) (putComma first b) := by
  cases first with
  | true => exact goes_done h.1 h.2
  | false => exact goes_putJson h 0x2c

theorem lost_putComma (h : serializeSize - 1 < b.pos) (ht : b.Tracks serializeSize) (first : Bool) :
    LostJson (putComma first b) := by
  cases first with
  | true => exact lost_done h ht
  | false => exact lost_putJson h ht 0x2c

theorem goes_quoted {chars : Filled → Run Unit Filled} {l : ℕ}
    (hchars : ∀ b : Filled, b.pos ≤ serializeSize - 1 → b.Tracks serializeSize → Fills l b (chars b)) (h : At p b) :
    GoesJson True (p + (2 + l)) (putJson 0x22 b >>= fun b => chars b >>= putJson 0x22) := by
  have hsize : serializeSize = 8192 := rfl
  obtain ⟨-, b₁, hb₁, hpos₁, ht₁⟩ | ⟨hnot, -⟩ := goes_putJson h 0x22
  · obtain ⟨b₂, hb₂, ht₂, hle₂, hle, hor⟩ := hchars b₁ (by omega) ht₁
    rw [hb₁, Run.done_bind, hb₂, Run.done_bind]
    obtain ⟨-, b₃, hb₃, hpos₃, ht₃⟩ | ⟨hnot, -⟩ := goes_putJson (p := b₂.pos) ⟨by omega, ht₂⟩ 0x22
    · exact Or.inl ⟨trivial, b₃, hb₃, by omega, ht₃⟩
    · exact absurd trivial hnot
  · exact absurd trivial hnot

theorem lost_quoted {chars : Filled → Run Unit Filled} (hchars : ∀ b : Filled, serializeSize - 1 < b.pos →
      b.Tracks serializeSize → LostJson (chars b)) (h : serializeSize - 1 < b.pos) (ht : b.Tracks serializeSize) :
    LostJson (putJson 0x22 b >>= fun b => chars b >>= putJson 0x22) :=
  (lost_putJson h ht 0x22).bind fun b hb ht => (hchars b hb ht).bind fun _ hb ht => lost_putJson hb ht 0x22

theorem lost_putChars (h : serializeSize - 1 < b.pos) (ht : b.Tracks serializeSize) (s : Bytes) :
    LostJson (putChars s b) := by
  have hsize : serializeSize = 8192 := rfl
  cases s with
  | nil => exact lost_done h ht
  | cons c s =>
    rw [putChars, if_neg (by omega)]
    exact lost_done h ht

theorem lost_putKey (h : serializeSize - 1 < b.pos) (ht : b.Tracks serializeSize) (key : Bytes) :
    LostJson (putKey key b) := by
  have hsize : serializeSize = 8192 := rfl
  refine lost_quoted (fun b hb ht => ?_) h ht
  cases cString key with
  | nil => exact lost_done hb ht
  | cons c s =>
    rw [putKeyChars, if_neg (by omega)]
    exact lost_done hb ht

section Members

variable {render : Val → Filled → Run Unit Filled}

theorem lost_serializeItems {items : List Val} (hrender : ∀ v ∈ items, ∀ b : Filled, serializeSize - 1 < b.pos →
      b.Tracks serializeSize → LostJson (render v b)) {first : Bool} (h : serializeSize - 1 < b.pos)
    (ht : b.Tracks serializeSize) : LostJson (serializeItems render items first b) := by
  induction items generalizing first b with
  | nil => exact lost_done h ht
  | cons v vs ih =>
    rw [serializeItems]
    refine (lost_putComma h ht first).bind fun b h ht => ?_
    refine (hrender v List.mem_cons_self b h ht).bind fun b h ht => ?_
    exact ih (fun w hw => hrender w (List.mem_cons_of_mem _ hw)) h ht

theorem lost_serializeEntries {entries : List (Bytes × Val)} (hrender : ∀ e ∈ entries, ∀ b : Filled,
      serializeSize - 1 < b.pos → b.Tracks serializeSize → LostJson (render e.2 b)) {first : Bool}
    (h : serializeSize - 1 < b.pos) (ht : b.Tracks serializeSize) :
    LostJson (serializeEntries render entries first b) := by
  induction entries generalizing first b with
  | nil => exact lost_done h ht
  | cons e es ih =>
    obtain ⟨key, v⟩ := e
    rw [serializeEntries]
    refine (lost_putComma h ht first).bind fun b h ht => ?_
    refine (lost_putKey h ht key).bind fun b h ht => ?_
    refine (lost_putJson h ht 0x3a).bind fun b h ht => ?_
    refine (hrender _ List.mem_cons_self b h ht).bind fun b h ht => ?_
    exact ih (fun e he => hrender e (List.mem_cons_of_mem _ he)) h ht

/-- **The loop over the items.** -/
theorem goes_serializeItems {items : List Val}
    (hgoes : ∀ v ∈ items, ∀ p b, At p b → GoesJson (ScalarsWithin numberText v p) (p + jsonLength numberText v) (render v b))
    (hlost : ∀ v ∈ items, ∀ b : Filled, serializeSize - 1 < b.pos → b.Tracks serializeSize → LostJson (render v b))
    {first : Bool} (h : At p b) :
    GoesJson (ItemsWithin numberText items first p) (p + itemsJsonLength numberText items first)
      (serializeItems render items first b) := by
  induction items generalizing first b p with
  | nil => exact (goes_done h.1 h.2).congr (by rw [ItemsWithin]) (by rw [itemsJsonLength, Nat.add_zero])
  | cons v vs ih =>
    have hlost' : ∀ w ∈ vs, ∀ b : Filled, serializeSize - 1 < b.pos → b.Tracks serializeSize → LostJson (render w b) :=
      fun w hw => hlost w (List.mem_cons_of_mem _ hw)
    rw [serializeItems]
    refine (goes_putComma h first).andThen fun b hb ht => ?_
    refine (Goes.bind (hgoes v List.mem_cons_self _ b ⟨hb, ht⟩)
      (fun b hb ht => ih (fun w hw => hgoes w (List.mem_cons_of_mem _ hw)) hlost' ⟨hb, ht⟩)
      fun b h ht => lost_serializeItems hlost' h ht).congr ?_ ?_
    · rw [ItemsWithin]
    · rw [itemsJsonLength]
      omega

theorem goes_putKey (h : At p b) (key : Bytes) :
    GoesJson True (p + (2 + keyCharsLength (cString key))) (putKey key b) :=
  goes_quoted (fun _ hb ht => fills_putKeyChars _ hb ht) h

/-- **The loops over the entries.** -/
theorem goes_serializeEntries {entries : List (Bytes × Val)}
    (hgoes : ∀ e ∈ entries, ∀ p b, At p b →
      GoesJson (ScalarsWithin numberText e.2 p) (p + jsonLength numberText e.2) (render e.2 b))
    (hlost : ∀ e ∈ entries, ∀ b : Filled, serializeSize - 1 < b.pos → b.Tracks serializeSize → LostJson (render e.2 b))
    {first : Bool} (h : At p b) :
    GoesJson (EntriesWithin numberText entries first p) (p + entriesJsonLength numberText entries first)
      (serializeEntries render entries first b) := by
  induction entries generalizing first b p with
  | nil => exact (goes_done h.1 h.2).congr (by rw [EntriesWithin]) (by rw [entriesJsonLength, Nat.add_zero])
  | cons e es ih =>
    obtain ⟨key, v⟩ := e
    have hlost' : ∀ e ∈ es, ∀ b : Filled, serializeSize - 1 < b.pos → b.Tracks serializeSize →
        LostJson (render e.2 b) := fun e he => hlost e (List.mem_cons_of_mem _ he)
    rw [serializeEntries]
    refine (goes_putComma h first).andThen fun b hb ht => ?_
    refine (goes_putKey ⟨hb, ht⟩ key).andThen fun b hb ht => ?_
    refine (goes_putJson ⟨hb, ht⟩ 0x3a).andThen fun b hb ht => ?_
    have hvalue : GoesJson (ScalarsWithin numberText v (valueStart key first p))
        (valueStart key first p + jsonLength numberText v) (render v b) := hgoes _ List.mem_cons_self _ b ⟨hb, ht⟩
    refine (hvalue.bind (fun b hb ht => ih (fun e he => hgoes e (List.mem_cons_of_mem _ he)) hlost' ⟨hb, ht⟩)
      fun b h ht => lost_serializeEntries hlost' h ht).congr ?_ ?_
    · rw [EntriesWithin]
    · rw [entriesJsonLength, valueStart, valueStart]
      omega

end Members

theorem lost_serializeValue (v : Val) {n : ℕ} (hn : v.depth < n) (h : serializeSize - 1 < b.pos)
    (ht : b.Tracks serializeSize) : LostJson (serializeValue numberText Val.shape n v b) := by
  obtain ⟨n, rfl⟩ : ∃ k, n = k + 1 := ⟨n - 1, by omega⟩
  induction v generalizing n b with
  | null => exact lost_print h ht _
  | bool x => exact lost_print h ht _
  | number bits => exact lost_print h ht _
  | func => exact lost_print h ht _
  | string chars => exact lost_quoted (fun b hb ht => lost_putChars hb ht chars) h ht
  | array items ih =>
    refine (lost_putJson h ht 0x5b).bind fun b h ht => ?_
    refine (lost_serializeItems (fun v hv b h ht => ?_) h ht).bind fun b h ht => lost_putJson h ht 0x5d
    have hlt := depth_array_le.mp (Nat.lt_succ_iff.mp hn) v hv
    obtain ⟨k, rfl⟩ : ∃ k, n = k + 1 := ⟨n - 1, by omega⟩
    exact ih v hv h ht k hlt
  | map entries ih =>
    refine (lost_putJson h ht 0x7b).bind fun b h ht => ?_
    refine (lost_serializeEntries (fun e he b h ht => ?_) h ht).bind fun b h ht => lost_putJson h ht 0x7d
    have hlt := depth_map_le.mp (Nat.lt_succ_iff.mp hn) e he
    obtain ⟨k, rfl⟩ : ∃ k, n = k + 1 := ⟨n - 1, by omega⟩
    exact ih e he h ht k hlt

theorem goes_printJson (h : At p b) {t : Bytes} (hne : t ≠ []) :
    GoesJson (p + t.length ≤ serializeSize - 1) (p + t.length) (b.print serializeSize t) :=
  goes_print (Nat.lt_succ_self _) h.1 h.2 hne

/-- **What `json_serialize_value` does to the buffer.** -/
theorem goes_serializeValue (v : Val) {n : ℕ} (hn : v.depth < n) (h : At p b) :
    GoesJson (ScalarsWithin numberText v p) (p + jsonLength numberText v)
      (serializeValue numberText Val.shape n v b) := by
  obtain ⟨n, rfl⟩ : ∃ k, n = k + 1 := ⟨n - 1, by omega⟩
  induction v generalizing n b p with
  | null => exact (goes_printJson h (t := utf8 "null") (by decide)).congr Iff.rfl rfl
  | bool x =>
    cases x
    · exact (goes_printJson h (t := utf8 "false") (by decide)).congr Iff.rfl rfl
    · exact (goes_printJson h (t := utf8 "true") (by decide)).congr Iff.rfl rfl
  | number bits => exact (goes_printJson h (numberText.ne_nil bits)).congr Iff.rfl rfl
  | func => exact (goes_printJson h (t := utf8 "null") (by decide)).congr Iff.rfl rfl
  | string chars => exact goes_quoted (fun _ hb ht => fills_putChars chars hb ht) h
  | array items ih =>
    refine (goes_putJson h 0x5b).andThen fun b hb ht => ?_
    have hdepth : ∀ v ∈ items, v.depth < n := depth_array_le.mp (Nat.lt_succ_iff.mp hn)
    refine ((@goes_serializeItems numberText _ _ _ _ (fun v hv p b h => ?_)
      (fun v hv b h ht => lost_serializeValue v (hdepth v hv) h ht) _ ⟨hb, ht⟩).bind
        (fun b hb ht => goes_putJson ⟨hb, ht⟩ 0x5d) fun b h ht => lost_putJson h ht 0x5d).congr ?_ ?_
    · have hlt := hdepth v hv
      obtain ⟨k, rfl⟩ : ∃ k, n = k + 1 := ⟨n - 1, by omega⟩
      exact ih v hv h k hlt
    · rw [ScalarsWithin, and_true]
    · rw [jsonLength]
      omega
  | map entries ih =>
    refine (goes_putJson h 0x7b).andThen fun b hb ht => ?_
    have hdepth : ∀ e ∈ entries, e.2.depth < n := depth_map_le.mp (Nat.lt_succ_iff.mp hn)
    refine ((@goes_serializeEntries numberText _ _ _ _ (fun e he p b h => ?_)
      (fun e he b h ht => lost_serializeValue e.2 (hdepth e he) h ht) _ ⟨hb, ht⟩).bind
        (fun b hb ht => goes_putJson ⟨hb, ht⟩ 0x7d) fun b h ht => lost_putJson h ht 0x7d).congr ?_ ?_
    · have hlt := hdepth e he
      obtain ⟨k, rfl⟩ : ∃ k, n = k + 1 := ⟨n - 1, by omega⟩
      exact ih e he h k hlt
    · rw [ScalarsWithin, and_true]
    · rw [jsonLength]
      omega

/-- Where a scalar ends behind the limit, the NUL at the end is written outside the buffer, if not more. -/
theorem jsonSerialize_eq_undefined {v : Val} {n : ℕ} (hn : v.depth < n) (hnot : ¬ ScalarsWithin numberText v 0) :
    jsonSerialize numberText Val.shape n v = .undefined := by
  have hsize : serializeSize = 8192 := rfl
  obtain ⟨hok, -⟩ | ⟨-, hlost⟩ :=
    @goes_serializeValue numberText _ 0 v _ hn ⟨rfl, tracks_empty⟩
  · exact absurd hok hnot
  · rw [jsonSerialize]
    obtain hundefined | ⟨b, hb, hpos, -⟩ := hlost
    · rw [hundefined]
      rfl
    · have hfull : ¬ b.pos < serializeSize := by omega
      rw [hb, Run.done_bind, if_neg hfull]

/-- **`json_serialize` keeps to its buffer, and returns the length of its text, as long as no scalar but strings ends
behind the last byte before the NUL.** -/
theorem serialize_exact_iff (v : Val) {n : ℕ} (hn : v.depth < n) :
    Exact (jsonSerialize numberText Val.shape n v) ↔ ScalarsWithin numberText v 0 := by
  have hsize : serializeSize = 8192 := rfl
  constructor
  · intro hexact
    by_contra hnot
    rw [jsonSerialize_eq_undefined hn hnot] at hexact
    exact not_exact_undefined hexact
  · intro hok
    obtain ⟨-, b, hb, hpos, ht⟩ | ⟨hnot, -⟩ :=
      @goes_serializeValue numberText _ 0 v _ hn ⟨rfl, tracks_empty⟩
    · have hroom : b.pos < serializeSize := by omega
      rw [jsonSerialize, hb, Run.done_bind, if_pos hroom, exact_done]
      unfold Tracks at ht
      show b.pos = b.chars.length
      omega
    · exact absurd hok hnot

end Serialize

/-! ## The reply -/

section Reply

theorem print_front {size : ℕ} {t : Bytes} (h : t.length < size) :
    Filled.empty.print size t = .done ⟨t, t.length⟩ := by
  have htake : t.take (size - 0 - 1) = t := List.take_of_length_le (by omega)
  show Run.done (Filled.mk ([] ++ t.take (size - 0 - 1)) (0 + t.length)) = _
  rw [htake, List.nil_append, Nat.zero_add]

/-- **The error reply** fits, for the longest message too. -/
theorem errorReply_exact (error : ErrorText) : Exact (errorReply error) := by
  have hlength : (utf8 "\x7b\"error\":\"" ++ (error.chars ++ utf8 "\"\x7d")).length < 2048 := by
    have hleft : (utf8 "\x7b\"error\":\"").length = 10 := by decide
    have hright : (utf8 "\"\x7d").length = 2 := by decide
    have hfits := error.fits
    rw [List.length_append, List.length_append, hleft, hright]
    omega
  rw [errorReply, print_front hlength]
  exact exact_done.mpr rfl

theorem putBrace_of_length {b : Filled} (h : b.pos = b.chars.length) :
    ∃ b', putBrace b = .done b' ∧ b'.pos = b'.chars.length := by
  by_cases hroom : b.pos + 1 < 8192
  · refine ⟨⟨b.chars ++ [0x7d], b.pos + 1⟩, ?_, by simp [h]⟩
    rw [putBrace, if_pos hroom, Filled.put, if_pos (Nat.lt_of_succ_lt hroom)]
  · exact ⟨b, if_neg hroom, h⟩

/-- **The message reply** fits: what does not is left out. -/
theorem messageReply_exact (result : ResultText) : Exact (messageReply numberText result) := by
  have hleft : (utf8 "\x7b\"message\":").length = 11 := by decide
  obtain ⟨s, hs, hslen⟩ : Exact (jsonSerialize numberText Val.shape 1 (.string result.chars)) :=
    (serialize_exact_iff (.string result.chars) Nat.one_pos).mpr trivial
  rw [messageReply, print_front (by omega), Run.done_bind, hs, Run.done_bind]
  set slen := if 8192 - 1 < (utf8 "\x7b\"message\":").length + s.len
    then 8192 - 1 - (utf8 "\x7b\"message\":").length else s.len with hslen_def
  have hle : slen ≤ s.chars.length ∧ 11 + slen ≤ 8191 := by
    rw [hslen_def, hleft]
    split_ifs with h
    · omega
    · omega
  have hcopied : s.copied slen = .done (s.chars.take slen) := if_pos hle.1
  have hlength : (utf8 "\x7b\"message\":" ++ s.chars.take slen).length = (utf8 "\x7b\"message\":").length + slen := by
    rw [List.length_append, List.length_take, min_eq_left hle.1]
  show Exact (s.copied slen >>= _)
  rw [hcopied]
  obtain ⟨b, hb, hpos⟩ := putBrace_of_length (b := ⟨_, _⟩) hlength.symm
  refine ⟨⟨b.chars, b.pos⟩, ?_, hpos⟩
  show putBrace _ >>= _ = _
  rw [hb, Run.done_bind]

theorem copied_of_exact {t : CText} (h : t.len = t.chars.length) : t.copied t.len = .done (t.chars.take t.len) :=
  if_pos h.le

/-- **The reply is always formatted**, and it is not longer than the output buffer. -/
theorem formatReply_done (error : Option ErrorText) (result : Option ResultText) (out : Bytes) :
    ∃ reply, formatReply numberText error result out = .done reply := by
  cases error with
  | some error =>
    obtain ⟨t, ht, hlen⟩ := errorReply_exact error
    exact ⟨_, by rw [formatReply, ht, Run.done_bind, copied_of_exact hlen, Run.done_bind]⟩
  | none =>
    cases result with
    | some result =>
      obtain ⟨t, ht, hlen⟩ := @messageReply_exact numberText result
      exact ⟨_, by rw [formatReply, ht, Run.done_bind, copied_of_exact hlen, Run.done_bind]⟩
    | none => exact ⟨out, rfl⟩

end Reply

/-! ## All of it -/

/-- Both renderers keep to their buffers on this value, and return the lengths of what they have written. -/
def RendersExactly (v : Val) : Prop :=
  ∀ n, v.depth < n → Exact (valueToString numberText Val.shape n v) ∧ Exact (jsonSerialize numberText Val.shape n v)

/-- All three replies, of errors, of messages and of results, are put together within their buffers. -/
def RepliesExactly : Prop :=
  (∀ error, Exact (errorReply error)) ∧ (∀ result, Exact (messageReply numberText result)) ∧
    ∀ error result out, ∃ reply, formatReply numberText error result out = .done reply

/-- **Rendering stays inside its buffers** exactly for the values whose text fits the one and whose scalars, but for
strings, all end inside the other. -/
theorem rendering_exact_iff (v : Val) :
    RendersExactly numberText v ∧ RepliesExactly numberText ↔
      Val.StringFits numberText v ∧ Val.ScalarsWithin numberText v 0 := by
  constructor
  · rintro ⟨hrenders, -⟩
    obtain ⟨hstring, hjson⟩ := hrenders _ (Nat.lt_succ_self _)
    exact ⟨(toString_exact_iff v (Nat.lt_succ_self _)).mp hstring, (serialize_exact_iff v (Nat.lt_succ_self _)).mp hjson⟩
  · rintro ⟨hfits, hwithin⟩
    refine ⟨fun n hn => ⟨(toString_exact_iff v hn).mpr hfits, (serialize_exact_iff v hn).mpr hwithin⟩,
      errorReply_exact, messageReply_exact numberText, formatReply_done numberText⟩

theorem toString_longString {chars : Bytes} (hchars : toStringSize ≤ chars.length) (hnul : 0 ∉ chars) (vs : List Val)
    (n : ℕ) : valueToString numberText Val.shape (n + 2) (.array (.string chars :: vs)) = .undefined := by
  have hsize : toStringSize = 2048 := rfl
  have hleft : (utf8 "[").length = 1 := by decide
  obtain ⟨b, hb, hpos, -⟩ := @print_of_le toStringSize ⟨utf8 "[", 1⟩ (by decide)
    (by rw [Tracks, hleft]; decide) (itemText (Val.shape (.string chars)) ⟨cString chars, chars.length⟩)
  have hlength : (itemText (Val.shape (.string chars)) ⟨cString chars, chars.length⟩).length = 2 + chars.length := by
    rw [length_itemText, cString_eq_self.mpr hnul]
    rfl
  have hfar : toStringSize < b.pos := by
    show 2048 < b.pos
    rw [hlength] at hpos
    change b.pos = 1 + _ at hpos
    omega
  have hitem : valueToString numberText Val.shape (n + 1) (.string chars) = .done ⟨cString chars, chars.length⟩ := rfl
  have hprinted : printItem (Val.shape (.string chars)) ⟨cString chars, chars.length⟩ ⟨utf8 "[", 1⟩ = .done b := hb
  rw [valueToString_array, print_front (by rw [hleft]; decide), hleft, Run.done_bind, printItems, if_pos (by decide),
    printSeparator, if_pos rfl, Run.done_bind, hitem, Run.done_bind, hprinted, Run.done_bind,
    printItems_of_lt (by omega), Run.done_bind, print_eq_undefined hfar]
  rfl

/-- A list of one long string and `null`: both renderers leave their buffers. -/
theorem not_rendersExactly_longString :
    let v := Val.array [.string (List.replicate 9000 0x61), .null]
    ∀ numberText : NumberText, ¬ RendersExactly numberText v ∧
      valueToString numberText Val.shape 2 v = .undefined ∧ jsonSerialize numberText Val.shape 2 v = .undefined := by
  intro v numberText
  have hstring : valueToString numberText Val.shape 2 v = .undefined :=
    toString_longString numberText (by rw [List.length_replicate]; decide)
      (fun h => absurd (List.eq_of_mem_replicate h) (by decide)) _ 0
  have hdepth : v.depth < 2 := by decide
  have hjson : jsonSerialize numberText Val.shape 2 v = .undefined := by
    refine jsonSerialize_eq_undefined hdepth fun h => ?_
    have hchars : 9000 ≤ charsLength (List.replicate 9000 0x61) := by
      rw [charsLength, List.map_replicate, List.sum_replicate_nat]
      decide
    obtain ⟨-, hnull, -⟩ := h
    change 0 + 1 + 0 + (2 + charsLength (List.replicate 9000 0x61)) + 1 + 4 ≤ 8191 at hnull
    omega
  refine ⟨fun h => ?_, hstring, hjson⟩
  obtain ⟨hexact, -⟩ := h 2 hdepth
  rw [hstring] at hexact
  exact not_exact_undefined hexact

end VelocityMcp.Interp
