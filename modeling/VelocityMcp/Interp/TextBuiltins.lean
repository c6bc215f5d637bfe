import VelocityMcp.Interp.Encodings
import VelocityMcp.JsonNumbers
import VelocityMcp.Lib.Binary64
import VelocityMcp.Lib.Search
import Mathlib.Data.Rat.Floor

/-!
# Interp.TextBuiltins — `substr`, `split`, `join`, `replace` and `contains` (`interp_core/interp.c`)

`clampedSlice`, and `Lib.Search`: what they are to compute.
-/

namespace VelocityMcp.Interp.TextBuiltins

open Lib Lib.Search
open Guest (Strtod)

/-! ## Numbers -/

/-- The integer of a number, without its fraction. -/
def truncate (q : ℚ) : ℤ := if 0 ≤ q then ⌊q⌋ else ⌈q⌉

/-- What a double is cut down to; infinities and NaNs are beyond every integer of the machine. -/
def wholePart (bits : UInt64) : ℤ := truncate (binary64 bits.toNat)

/-- The values of an `int`. -/
def InInt (k : ℤ) : Prop := -2 ^ 31 ≤ k ∧ k < 2 ^ 31

instance (k : ℤ) : Decidable (InInt k) := inferInstanceAs (Decidable (_ ∧ _))

/-- A result that is to be an `int`. -/
def asInt (k : ℤ) : Run Unit ℤ := if InInt k then .done k else .undefined

/-- `strstr`, as a distance: both are C strings. -/
def strstr (s needle : Bytes) : Option ℕ := find (cString needle) (cString s)

/-! ## The code -/

section Code

variable (numberText : NumberText) (strtod : Strtod) (levels : ℕ)

def valueToNumber : Val → UInt64
  | .bool true => f64OfNat 1
  | .number bits => bits
  | .string chars => strtod chars
  | _ => 0

/-- `value_to_string`, for values of so many levels. -/
def text (v : Val) : Run Unit CText := valueToString numberText Val.shape levels v

/-- The end of `builtin_substr`, from the integers on. -/
def substrFrom (s : Bytes) (size start len : ℤ) : Run Unit Val := do
  let start := if start < 0 then 0 else start
  let start := if start > size then size else start
  let len := if len < 0 then 0 else len
  let stop ← asInt (start + len)
  let len := if stop > size then size - start else len
  .done (.string ((s.drop start.toNat).take len.toNat))

/-- `builtin_substr`.  An object has fewer than `2 ^ 31` bytes: its size is an `int`. -/
def builtinSubstr : List Val → Run Unit Val
  | .string s :: start :: more => do
    let start ← asInt (wholePart (valueToNumber strtod start))
    let size ← asInt s.length
    let len ← match more with
      | len :: _ => asInt (wholePart (valueToNumber strtod len))
      | [] => asInt (size - start)
    substrFrom s size start len
  | _ => .done (.string [])

/-- The loop of `builtin_split` over what is left; the separator is skipped by its length. -/
def pieces (sep : Bytes) (hsep : sep ≠ []) (rest : Bytes) : List Bytes :=
  match strstr rest sep with
  | none => [rest]
  | some i =>
    if i = rest.length then [rest.take i]
    else if i + sep.length ≤ rest.length then rest.take i :: pieces sep hsep (rest.drop (i + sep.length))
    else [rest.take i]
termination_by rest.length
decreasing_by
  have hpos := List.length_pos_of_ne_nil hsep
  rw [List.length_drop]
  omega

/-- `strstr` stops at a NUL, and what it finds is skipped by the full length. -/
def builtinSplit : List Val → Val
  | .string s :: .string sep :: _ =>
    if h : sep = [] then .array (s.map fun c => .string [c])
    else .array ((pieces sep h s).map .string)
  | _ => .array []

/-- What `memcpy` finds of a C string: its NUL, and nothing behind that. -/
def CText.read (t : CText) (n : ℕ) : Run Unit Bytes :=
  if n ≤ t.chars.length + 1 then .done ((t.chars ++ [0]).take n) else .undefined

def texts : List Val → Run Unit (List CText)
  | [] => .done []
  | v :: vs => do
    let t ← text numberText levels v
    let ts ← texts vs
    .done (t :: ts)

def readAll : List CText → Run Unit (List Bytes)
  | [] => .done []
  | t :: ts => do
    let b ← CText.read t t.len
    let bs ← readAll ts
    .done (b :: bs)

/-- `builtin_join`: the lengths are added up in 32 bits, and the buffer has as many. -/
def builtinJoin : List Val → Run Unit Val
  | .array items :: .string sep :: _ => do
    let parts ← texts numberText levels items
    let read ← readAll parts
    let joined := sep.intercalate read
    if joined.length + 1 < 2 ^ 32 then .done (.string joined) else .undefined
  | _ => .done (.string [])

/-- `INTERP_MAX_STRING_LEN`. -/
def maxStringLen : ℕ := 64 * 1024

def putReplacement (replace : CText) (buf : Bytes) : Run Unit Bytes :=
  if buf.length + replace.len < maxStringLen - 1 then do
    let b ← CText.read replace replace.len
    .done (buf ++ b)
  else .done buf

/-- The loop of `builtin_replace` over what is left; the search text is skipped by its length. -/
def replaceLoop (search replace : CText) (hsearch : 0 < search.len) (rest buf : Bytes) : Run Unit Bytes :=
  if buf.length < maxStringLen - 1 then
    let found := (strstr rest search.chars).getD rest.length
    let chunk := if buf.length + found ≥ maxStringLen - 1 then maxStringLen - 1 - buf.length else found
    let buf := buf ++ rest.take chunk
    if found = rest.length then .done buf
    else do
      let buf ← putReplacement replace buf
      if found + search.len ≤ rest.length then replaceLoop search replace hsearch (rest.drop (found + search.len)) buf
      else .done buf
  else .done buf
termination_by rest.length
decreasing_by
  rw [List.length_drop]
  omega

/-- What reads outside its strings is undefined. -/
def builtinReplace : List Val → Run Unit Val
  | .string s :: search :: replace :: _ => do
    let search ← text numberText levels search
    let replace ← text numberText levels replace
    if h : 0 < search.len then do
      let out ← replaceLoop search replace h s []
      .done (.string out)
    else .done (.string s)
  | _ => .done (.string [])

/-- `builtin_contains`: in anything but a text nothing is found. -/
def builtinContains : List Val → Run Unit Val
  | .string s :: needle :: _ => do
    let needle ← text numberText levels needle
    .done (.bool (strstr s needle.chars).isSome)
  | _ => .done (.bool false)

end Code

/-! ## `substr` -/

/-- The part of a string from `start` on, of length `len` if one is given, as far as there is one. -/
def clampedSlice (s : Bytes) (start : ℤ) (len : Option ℤ) : Bytes :=
  let rest := s.drop (max start 0).toNat
  len.elim rest fun k => rest.take (max k 0).toNat

/-- The arguments and the end of the piece fit the C type `int`. -/
def SubstrFits (s : Bytes) (start : ℤ) (len : Option ℤ) : Prop :=
  (s.length : ℤ) < 2 ^ 31 ∧ InInt start ∧
    match len with
    | none => s.length - start < 2 ^ 31
    | some k => InInt k ∧ min (max start 0) s.length + max k 0 < 2 ^ 31

theorem asInt_of_inInt {k : ℤ} (h : InInt k) : asInt k = .done k := if_pos h

theorem asInt_of_not {k : ℤ} (h : ¬InInt k) : asInt k = .undefined := if_neg h

section Substr

variable {strtod : Strtod} {s : Bytes} {start len : UInt64} {a k : ℤ}

theorem substrFrom_eq :
    substrFrom s s.length a k =
      if InInt (min (max a 0) s.length + max k 0) then .done (.string (clampedSlice s a (some k))) else .undefined := by
  have hstart : (if (if a < 0 then 0 else a) > (s.length : ℤ) then (s.length : ℤ) else (if a < 0 then 0 else a)) =
      min (max a 0) s.length := by split_ifs <;> omega
  have hlen : (if k < 0 then 0 else k) = max k 0 := by split_ifs <;> omega
  rw [substrFrom]
  simp only [hstart, hlen]
  by_cases hin : InInt (min (max a 0) (s.length : ℤ) + max k 0)
  · rw [asInt_of_inInt hin, if_pos hin, Run.done_bind]
    congr 2
    rw [clampedSlice, Option.elim_some]
    rcases lt_or_ge (s.length : ℤ) (max a 0) with hbehind | hwithin
    · -- nothing is left
      rw [min_eq_right hbehind.le, Int.toNat_natCast, List.drop_length, List.drop_eq_nil_of_le (by omega), List.take_nil,
        List.take_nil]
    · rw [min_eq_left hwithin]
      split_ifs with hstop
      · rw [List.take_of_length_le (by rw [List.length_drop]; omega),
          List.take_of_length_le (by rw [List.length_drop]; omega)]
      · rfl
  · rw [asInt_of_not hin, if_neg hin, Run.undefined_bind]

theorem clampedSlice_rest (s : Bytes) (a : ℤ) : clampedSlice s a (some (s.length - a)) = clampedSlice s a none := by
  rw [clampedSlice, clampedSlice, Option.elim_some, Option.elim_none]
  exact List.take_of_length_le (by rw [List.length_drop]; omega)

theorem builtinSubstr_rest : builtinSubstr strtod [.string s, .number start] =
      .done (.string (clampedSlice s (wholePart start) none)) ↔ SubstrFits s (wholePart start) none := by
  rw [SubstrFits]
  by_cases hstart : InInt (wholePart start)
  · by_cases hsize : InInt s.length
    · by_cases hrest : InInt (s.length - wholePart start)
      · have hsum : InInt (min (max (wholePart start) 0) s.length + max ((s.length : ℤ) - wholePart start) 0) := by
          obtain ⟨h1, h2⟩ := hsize
          obtain ⟨h3, h4⟩ := hrest
          constructor <;> omega
        have heq : builtinSubstr strtod [.string s, .number start] =
            .done (.string (clampedSlice s (wholePart start) none)) := by
          simp only [builtinSubstr, valueToNumber, asInt_of_inInt hstart, asInt_of_inInt hsize, asInt_of_inInt hrest,
            Run.done_bind, substrFrom_eq, if_pos hsum, clampedSlice_rest]
        exact iff_of_true heq ⟨hsize.2, hstart, hrest.2⟩
      · simp only [builtinSubstr, valueToNumber, asInt_of_inInt hstart, asInt_of_inInt hsize, asInt_of_not hrest,
          Run.done_bind, Run.undefined_bind]
        refine iff_of_false (by simp) fun h => hrest ⟨?_, h.2.2⟩
        obtain ⟨h1, h2⟩ := hstart
        omega
    · simp only [builtinSubstr, valueToNumber, asInt_of_inInt hstart, asInt_of_not hsize, Run.done_bind,
        Run.undefined_bind]
      exact iff_of_false (by simp) fun h => hsize ⟨by omega, h.1⟩
  · simp only [builtinSubstr, valueToNumber, asInt_of_not hstart, Run.undefined_bind]
    exact iff_of_false (by simp) fun h => hstart h.2.1

theorem builtinSubstr_some : builtinSubstr strtod [.string s, .number start, .number len] =
      .done (.string (clampedSlice s (wholePart start) (some (wholePart len)))) ↔
    SubstrFits s (wholePart start) (some (wholePart len)) := by
  rw [SubstrFits]
  by_cases hstart : InInt (wholePart start)
  · by_cases hsize : InInt s.length
    · by_cases hlen : InInt (wholePart len)
      · simp only [builtinSubstr, valueToNumber, asInt_of_inInt hstart, asInt_of_inInt hsize, asInt_of_inInt hlen,
          Run.done_bind, substrFrom_eq]
        by_cases hsum : InInt (min (max (wholePart start) 0) s.length + max (wholePart len) 0)
        · rw [if_pos hsum]
          exact iff_of_true rfl ⟨hsize.2, hstart, hlen, hsum.2⟩
        · rw [if_neg hsum]
          exact iff_of_false (by simp) fun h => hsum ⟨by omega, h.2.2.2⟩
      · simp only [builtinSubstr, valueToNumber, asInt_of_inInt hstart, asInt_of_inInt hsize, asInt_of_not hlen,
          Run.done_bind, Run.undefined_bind]
        exact iff_of_false (by simp) fun h => hlen h.2.2.1
    · simp only [builtinSubstr, valueToNumber, asInt_of_inInt hstart, asInt_of_not hsize, Run.done_bind,
        Run.undefined_bind]
      exact iff_of_false (by simp) fun h => hsize ⟨by omega, h.1⟩
  · simp only [builtinSubstr, valueToNumber, asInt_of_not hstart, Run.undefined_bind]
    exact iff_of_false (by simp) fun h => hstart h.2.1

end Substr

/-! ## `split` and `contains` -/

/-- The separator is found whole at each place from which the split goes on. -/
def SeparatesWhole (sep : Bytes) (hsep : sep ≠ []) (rest : Bytes) : Prop :=
  match strstr rest sep with
  | none => True
  | some i =>
    if i = rest.length then True
    else if i + sep.length ≤ rest.length then
      sep <+: rest.drop i ∧ SeparatesWhole sep hsep (rest.drop (i + sep.length))
    else False
termination_by rest.length
decreasing_by
  have hpos := List.length_pos_of_ne_nil hsep
  rw [List.length_drop]
  omega

section Split

variable {sep : Bytes} {hsep : sep ≠ []}

theorem strstr_le {s needle : Bytes} {i : ℕ} (h : strstr s needle = some i) : i ≤ s.length :=
  (find_eq_some h).2.1.trans (length_cString_le s)

theorem pieces_ne_nil (sep : Bytes) (hsep : sep ≠ []) (rest : Bytes) : pieces sep hsep rest ≠ [] := by
  rw [pieces]
  split
  · simp
  · split_ifs <;> simp

theorem join_pieces (rest : Bytes) : sep.intercalate (pieces sep hsep rest) = rest ↔ SeparatesWhole sep hsep rest := by
  induction rest using pieces.induct sep hsep with
  | case1 rest hnone =>
    rw [pieces, SeparatesWhole, hnone]
    simp [List.intercalate]
  | case2 rest hsome =>
    rw [pieces, SeparatesWhole, hsome]
    simp [List.intercalate]
  | case3 rest i hsome hne hle ih =>
    rw [pieces, SeparatesWhole, hsome]
    simp only [if_neg hne, if_pos hle]
    rw [← ih, intercalate_cons_of_ne_nil _ _ (pieces_ne_nil _ _ _), ← List.drop_drop]
    constructor
    · intro h
      have hdrop : rest.drop i = sep ++ sep.intercalate (pieces sep hsep ((rest.drop i).drop sep.length)) := by
        conv_lhs => rw [← h]
        rw [List.drop_left' (List.length_take_of_le (strstr_le hsome))]
      refine ⟨⟨_, hdrop.symm⟩, ?_⟩
      conv_rhs => rw [hdrop, List.drop_left]
    · rintro ⟨⟨t, ht⟩, hrest⟩
      rw [hrest, ← ht, List.drop_left, ht, List.take_append_drop]
  | case4 rest i hsome hne hle =>
    rw [pieces, SeparatesWhole, hsome]
    simp only [if_neg hne, if_neg hle, iff_false]
    have hlt := strstr_le hsome
    intro h
    have hlen := congrArg List.length h
    simp [List.intercalate] at hlen
    omega

theorem builtinSplit_iff (s sep : Bytes) :
    (∃ parts : List Bytes, builtinSplit [.string s, .string sep] = .array (parts.map .string) ∧
      sep.intercalate parts = s) ↔ ∀ hsep : sep ≠ [], SeparatesWhole sep hsep s := by
  rw [builtinSplit]
  by_cases hnil : sep = []
  · subst hnil
    simp only [dif_pos, ne_eq, not_true_eq_false, IsEmpty.forall_iff, iff_true]
    refine ⟨s.map fun c => [c], by rw [List.map_map]; rfl, ?_⟩
    induction s with
    | nil => rfl
    | cons c s ih =>
      rcases s with _ | ⟨d, s⟩
      · rfl
      · rw [List.map_cons, intercalate_cons_of_ne_nil _ _ (by simp), ih]
        rfl
  · simp only [dif_neg hnil]
    constructor
    · rintro ⟨parts, heq, hjoin⟩ hsep
      have hparts : parts = pieces sep hnil s :=
        (List.map_injective_iff.mpr (fun a b h => Val.string.inj h) (Val.array.inj heq)).symm
      rwa [hparts, join_pieces] at hjoin
    · exact fun h => ⟨_, rfl, (join_pieces s).mpr (h hnil)⟩

end Split

section Texts

variable {numberText : NumberText} {levels : ℕ}

theorem text_string (s : Bytes) : text numberText (levels + 1) (.string s) = .done ⟨cString s, s.length⟩ := rfl

/-- The needle does not stand only behind a NUL of the string, and is not found by the part in front of its own NUL. -/
def Searchable (s needle : Bytes) : Prop :=
  (needle <:+: s → cString needle <:+: cString s) ∧
    (0 ∈ needle → cString needle <:+: cString s → needle <:+: s)

theorem searchable_iff {s needle : Bytes} :
    Searchable s needle ↔ (cString needle <:+: cString s ↔ needle <:+: s) := by
  constructor
  · rintro ⟨hseen, hwhole⟩
    refine ⟨fun h => ?_, hseen⟩
    by_cases hnul : 0 ∈ needle
    · exact hwhole hnul h
    · rw [cString_eq_self.mpr hnul] at h
      exact h.trans (List.takeWhile_prefix _).isInfix
  · exact fun h => ⟨h.mpr, fun _ => h.mp⟩

theorem builtinContains_iff (s needle : Bytes) :
    builtinContains numberText (levels + 1) [.string s, .string needle] = .done (.bool (needle <:+: s)) ↔
      Searchable s needle := by
  rw [searchable_iff, builtinContains, text_string, Run.done_bind, Run.done.injEq, Val.bool.injEq, strstr,
    cString_cString, Bool.eq_iff_iff, decide_eq_true_iff, Option.isSome_iff_ne_none, find_ne_none_iff]

/-! ## `join` -/

/-- What `join` writes for an item. -/
def ItemText (numberText : NumberText) (levels : ℕ) (v : Val) (t : Bytes) : Prop :=
  match v with
  | .string s => t = s
  | v => text numberText levels v = .done (.of t)

/-- A string with a NUL that is not its last character is not copied whole. -/
def Copyable (s : Bytes) : Prop := 0 ∉ s.dropLast

instance (s : Bytes) : Decidable (Copyable s) := inferInstanceAs (Decidable (_ ∉ _))

/-- An item that can be joined with others, and its text. -/
def Joinable (numberText : NumberText) (levels : ℕ) (v : Val) (t : Bytes) : Prop :=
  ItemText numberText levels v t ∧ ∀ s, v = .string s → Copyable s

theorem copyable_iff {s : Bytes} : Copyable s ↔ s.length ≤ (cString s).length + 1 := by
  rw [Copyable]
  rcases List.eq_nil_or_concat s with rfl | ⟨t, c, rfl⟩
  · simp
  · rw [List.concat_eq_append, List.dropLast_concat, List.length_append, List.length_singleton, Nat.add_le_add_iff_right,
      ← cString_eq_self]
    constructor
    · intro h
      rw [cString_append (cString_eq_self.mp h), List.length_append]
      omega
    · intro h
      by_contra hne
      have hmem : 0 ∈ t := by_contra fun hmem => hne (cString_eq_self.mpr hmem)
      have hlt : (cString t).length < t.length :=
        lt_of_le_of_ne (length_cString_le t) fun heq => hne ((List.takeWhile_sublist _).eq_of_length heq)
      have hsame : cString (t ++ [c]) = cString t := by
        rw [cString, List.takeWhile_append, if_neg fun heq => hne ((List.takeWhile_sublist _).eq_of_length heq), cString]
      rw [hsame] at h
      omega

theorem read_string {s : Bytes} :
    CText.read ⟨cString s, s.length⟩ s.length = if Copyable s then .done s else .undefined := by
  rw [CText.read]
  by_cases h : Copyable s
  · rw [if_pos h, if_pos (copyable_iff.mp h)]
    congr 1
    by_cases hzero : 0 ∈ s
    · -- the NUL is the last character
      obtain ⟨t, c, rfl⟩ : ∃ t c, s = t ++ [c] := by
        rcases List.eq_nil_or_concat s with rfl | ⟨t, c, rfl⟩
        · exact nomatch hzero
        · exact ⟨t, c, List.concat_eq_append⟩
      rw [Copyable, List.dropLast_concat] at h
      obtain rfl : 0 = c := by simpa [h] using hzero
      rw [cString_append h]
      simp [cString]
    · rw [cString_eq_self.mpr hzero, List.take_left]
  · rw [if_neg h, if_neg fun hle => h (copyable_iff.mpr hle)]

theorem read_of_whole (t : Bytes) : CText.read (.of t) t.length = .done t := by
  rw [CText.read, CText.of, if_pos (Nat.le_succ _), List.take_left]

/-- What the loops of `builtin_join` find. -/
def readTexts (numberText : NumberText) (levels : ℕ) (items : List Val) : Run Unit (List Bytes) :=
  texts numberText levels items >>= readAll

theorem readTexts_of_joinable {items : List Val} {ts : List Bytes}
    (h : List.Forall₂ (Joinable numberText (levels + 1)) items ts) :
    readTexts numberText (levels + 1) items = .done ts := by
  induction h with
  | nil => rfl
  | @cons v t items ts hv _ ih =>
    obtain ⟨parts, hparts, hread⟩ := Run.bind_eq_done.mp ih
    obtain ⟨part, hpart, hreadPart⟩ : ∃ part, text numberText (levels + 1) v = .done part ∧
        CText.read part part.len = .done t := by
      obtain ⟨htext, hcopy⟩ := hv
      cases v with
      | string s =>
        obtain rfl : t = s := htext
        exact ⟨_, text_string t, by rw [read_string, if_pos (hcopy t rfl)]⟩
      | _ => exact ⟨_, htext, read_of_whole t⟩
    rw [readTexts, texts, hpart, Run.done_bind, hparts, Run.done_bind, Run.done_bind, readAll, hreadPart, Run.done_bind,
      hread, Run.done_bind]

theorem copyable_of_readTexts {items : List Val} {ts : List Bytes}
    (h : readTexts numberText (levels + 1) items = .done ts) : ∀ s, .string s ∈ items → Copyable s := by
  induction items generalizing ts with
  | nil => exact fun _ hmem => nomatch hmem
  | cons v items ih =>
    obtain ⟨parts, hparts, hread⟩ := Run.bind_eq_done.mp h
    rw [texts] at hparts
    obtain ⟨part, hpart, hparts⟩ := Run.bind_eq_done.mp hparts
    obtain ⟨rest, hrest, hparts⟩ := Run.bind_eq_done.mp hparts
    obtain rfl := (Run.done.inj hparts).symm
    rw [readAll] at hread
    obtain ⟨b, hb, hread⟩ := Run.bind_eq_done.mp hread
    obtain ⟨bs, hbs, -⟩ := Run.bind_eq_done.mp hread
    intro s hmem
    rcases List.mem_cons.mp hmem with rfl | hmem
    · rw [text_string] at hpart
      obtain rfl := Run.done.inj hpart
      by_contra hnot
      rw [read_string, if_neg hnot] at hb
      exact nomatch hb
    · exact ih (by rw [readTexts, hrest, Run.done_bind, hbs]) s hmem

theorem builtinJoin_iff (items : List Val) (sep : Bytes) :
    (∃ ts, List.Forall₂ (ItemText numberText (levels + 1)) items ts ∧
      builtinJoin numberText (levels + 1) [.array items, .string sep] = .done (.string (sep.intercalate ts))) ↔
    ∃ ts, List.Forall₂ (Joinable numberText (levels + 1)) items ts ∧ (sep.intercalate ts).length + 1 < 2 ^ 32 := by
  have hjoin : builtinJoin numberText (levels + 1) [.array items, .string sep] =
      readTexts numberText (levels + 1) items >>= fun read =>
        if (sep.intercalate read).length + 1 < 2 ^ 32 then .done (.string (sep.intercalate read)) else .undefined := by
    rw [builtinJoin, readTexts]
    cases texts numberText (levels + 1) items <;> rfl
  rw [hjoin]
  constructor
  · rintro ⟨ts, hts, hrun⟩
    obtain ⟨read, hread, hdone⟩ := Run.bind_eq_done.mp hrun
    have hall : List.Forall₂ (Joinable numberText (levels + 1)) items ts := by
      have hcopy := copyable_of_readTexts hread
      clear hrun hread hdone hjoin
      induction hts with
      | nil => exact .nil
      | cons hv _ ih =>
        exact .cons ⟨hv, fun s hs => hcopy s (hs ▸ List.mem_cons_self)⟩
          (ih fun s hs => hcopy s (List.mem_cons_of_mem _ hs))
    obtain rfl := Run.done.inj (hread.symm.trans (readTexts_of_joinable hall))
    split_ifs at hdone with hlt
    exact ⟨read, hall, hlt⟩
  · rintro ⟨ts, hall, hlt⟩
    refine ⟨ts, hall.imp fun _ _ h => h.1, ?_⟩
    rw [readTexts_of_joinable hall, Run.done_bind, if_pos hlt]

/-! ## `replace` -/

/-- The loop finds exactly the occurrences of the search text. -/
def Visible (search : Bytes) (hsearch : search ≠ []) (rest : Bytes) : Prop :=
  match _h : find search rest with
  | none => (strstr rest search).getD rest.length = rest.length
  | some i => strstr rest search = some i ∧ Visible search hsearch (rest.drop (i + search.length))
termination_by rest.length
decreasing_by
  have hpos := List.length_pos_of_ne_nil hsearch
  have hle := add_length_le_of_find _h
  rw [List.length_drop]
  omega

/-- There is room for so much; the buffer is only filled up with what is behind the last occurrence. -/
def Fits (search repl s : Bytes) (used : ℕ) : Prop :=
  used + (replaceAll search repl s).length < maxStringLen - 1 ∨
    used + (replaceAll search repl s).length = maxStringLen - 1 ∧
      ((split search s).getLast (split_ne_nil search s) = [] → repl = [])

section Replace

variable {search repl : Bytes} {hsearch : search ≠ []}

theorem visible_of_none {rest : Bytes} (h : find search rest = none) :
    Visible search hsearch rest ↔ (strstr rest search).getD rest.length = rest.length := by
  rw [Visible]
  split
  next => rfl
  next i hi => exact absurd (h.symm.trans hi) (by simp)

theorem visible_of_some {rest : Bytes} {i : ℕ} (h : find search rest = some i) :
    Visible search hsearch rest ↔
      strstr rest search = some i ∧ Visible search hsearch (rest.drop (i + search.length)) := by
  conv_lhs => rw [Visible]
  split
  next hnone => exact absurd (h.symm.trans hnone) (by simp)
  next j hj =>
    obtain rfl := Option.some.inj (h.symm.trans hj)
    rfl

theorem visible_of_noNul (h : 0 ∉ search) {rest : Bytes} (hrest : 0 ∉ rest) : Visible search hsearch rest := by
  have hstr {s : Bytes} (hs : 0 ∉ s) : strstr s search = find search s := by
    rw [strstr, cString_eq_self.mpr h, cString_eq_self.mpr hs]
  induction hlen : rest.length using Nat.strong_induction_on generalizing rest with
  | _ n ih =>
    cases hfind : find search rest with
    | none => rw [visible_of_none hfind, hstr hrest, hfind, Option.getD_none]
    | some i =>
      have hle := add_length_le_of_find hfind
      have hpos := List.length_pos_of_ne_nil hsearch
      refine (visible_of_some hfind).mpr ⟨(hstr hrest).trans hfind, ih _ ?_ ?_ rfl⟩
      · rw [List.length_drop]
        omega
      · exact fun hmem => hrest (List.mem_of_mem_drop hmem)

theorem fits_of_none {rest : Bytes} {p : ℕ} (hp : p < maxStringLen - 1) (h : find search rest = none) :
    Fits search repl rest p ↔ p + rest.length ≤ maxStringLen - 1 := by
  rw [Fits, replaceAll_of_none h]
  simp only [split_of_none h, List.getLast_singleton]
  constructor
  · rintro (hlt | ⟨heq, -⟩)
    · exact hlt.le
    · exact heq.le
  · intro hle
    refine hle.lt_or_eq.imp id fun heq => ⟨heq, ?_⟩
    rintro rfl
    rw [List.length_nil] at heq
    omega

theorem fits_of_some {rest : Bytes} {p i : ℕ} (hsearch : search ≠ []) (h : find search rest = some i) :
    Fits search repl rest p ↔ Fits search repl (rest.drop (i + search.length)) (p + i + repl.length) := by
  have hi : (rest.take i).length = i := List.length_take_of_le (find_eq_some h).2.1
  have hlen : p + (replaceAll search repl rest).length =
      p + i + repl.length + (replaceAll search repl (rest.drop (i + search.length))).length := by
    rw [replaceAll_of_some hsearch h, List.length_append, List.length_append, hi]
    omega
  rw [Fits, Fits, hlen]
  simp only [split_of_some hsearch h, List.getLast_cons (split_ne_nil _ _)]

theorem length_putReplacement_le {replace : CText} {buf out : Bytes} (hbuf : buf.length ≤ maxStringLen - 1)
    (hrun : putReplacement replace buf = .done out) : out.length ≤ maxStringLen - 1 := by
  rw [putReplacement] at hrun
  split_ifs at hrun with hfit
  · obtain ⟨b, hread, hdone⟩ := Run.bind_eq_done.mp hrun
    rw [CText.read] at hread
    split_ifs at hread with hin
    rw [← Run.done.inj hdone, ← Run.done.inj hread, List.length_append, List.length_take]
    omega
  · exact Run.done.inj hrun ▸ hbuf

theorem length_replaceLoop_le {search replace : CText} {h : 0 < search.len} {rest buf out : Bytes}
    (hbuf : buf.length ≤ maxStringLen - 1) (hrun : replaceLoop search replace h rest buf = .done out) :
    out.length ≤ maxStringLen - 1 := by
  induction hlen : rest.length using Nat.strong_induction_on generalizing rest buf with
  | _ n ih =>
    rw [replaceLoop] at hrun
    split_ifs at hrun with hroom
    · dsimp only at hrun
      set found := (strstr rest search.chars).getD rest.length
      set chunk := if buf.length + found ≥ maxStringLen - 1 then maxStringLen - 1 - buf.length else found with hchunk
      have hfilled : (buf ++ rest.take chunk).length ≤ maxStringLen - 1 := by
        rw [List.length_append, List.length_take]
        split_ifs at hchunk <;> omega
      split_ifs at hrun with hend hmore
      · exact Run.done.inj hrun ▸ hfilled
      · obtain ⟨buf', hput, hrest⟩ := Run.bind_eq_done.mp hrun
        refine ih _ ?_ (length_putReplacement_le hfilled hput) hrest rfl
        rw [List.length_drop]
        omega
      · obtain ⟨buf', hput, hdone⟩ := Run.bind_eq_done.mp hrun
        exact Run.done.inj hdone ▸ length_putReplacement_le hfilled hput
    · exact Run.done.inj hrun ▸ hbuf

theorem replaceLoop_full {search replace : CText} {h : 0 < search.len} {rest buf : Bytes}
    (hbuf : ¬buf.length < maxStringLen - 1) : replaceLoop search replace h rest buf = .done buf := by
  rw [replaceLoop, if_neg hbuf]

theorem replaceLoop_nil {search replace : CText} {h : 0 < search.len} {buf : Bytes} :
    replaceLoop search replace h [] buf = .done buf := by
  rw [replaceLoop]
  split_ifs with hroom
  · have hfound : (strstr [] search.chars).getD ([] : Bytes).length = ([] : Bytes).length := by
      cases hfind : strstr [] search.chars with
      | none => rfl
      | some i => exact Nat.le_zero.mp (strstr_le hfind)
    simp only [hfound, if_pos, List.take_nil, List.append_nil]
  · rfl

theorem replaceLoop_iff {rest buf : Bytes} (h : 0 < search.length) (hvis : Visible search hsearch rest)
    (hbuf : buf.length < maxStringLen - 1) :
    replaceLoop ⟨cString search, search.length⟩ ⟨cString repl, repl.length⟩ h rest buf =
        .done (buf ++ replaceAll search repl rest) ↔
      (search <:+: rest → Copyable repl) ∧ Fits search repl rest buf.length := by
  induction hlen : rest.length using Nat.strong_induction_on generalizing rest buf with
  | _ n ih =>
    have hsame : strstr rest (cString search) = strstr rest search := by rw [strstr, cString_cString, strstr]
    rw [replaceLoop, if_pos hbuf]
    simp only [hsame]
    cases hfind : find search rest with
    | none =>
      -- the rest is copied as far as there is room
      rw [visible_of_none hfind] at hvis
      rw [hvis, if_pos rfl, Run.done.injEq, replaceAll_of_none hfind, List.append_cancel_left_eq,
        fits_of_none hbuf hfind, List.take_eq_self_iff]
      have hocc : ¬search <:+: rest := find_eq_none_iff.mp hfind
      simp only [hocc, IsEmpty.forall_iff, true_and]
      split_ifs <;> omega
    | some i =>
      obtain ⟨hstr, hvis⟩ := (visible_of_some hfind).mp hvis
      have hocc : search <:+: rest := find_ne_none_iff.mp (by rw [hfind]; simp)
      have hle := add_length_le_of_find hfind
      have hall := @replaceAll_of_some _ _ _ repl _ _ hsearch hfind
      have htake : (rest.take i).length = i := List.length_take_of_le (find_eq_some hfind).2.1
      have hne : i ≠ rest.length := by omega
      simp only [hstr, Option.getD_some, if_neg hne, if_pos hle, hocc, true_imp_iff]
      set rest' := rest.drop (i + search.length) with hrest'
      have hshort : rest'.length < n := by
        rw [List.length_drop]
        omega
      have hlenAll : (replaceAll search repl rest).length = i + (repl.length + (replaceAll search repl rest').length) := by
        rw [hall, List.length_append, List.length_append, htake]
      by_cases hfull : buf.length + i ≥ maxStringLen - 1
      · -- nothing but the text before the occurrence can have room
        have hcut : (buf ++ rest.take (maxStringLen - 1 - buf.length)).length = maxStringLen - 1 := by
          rw [List.length_append, List.length_take]
          omega
        rw [if_pos hfull, putReplacement, if_neg (by rw [hcut]; omega), Run.done_bind, replaceLoop_full (by rw [hcut]; omega),
          Run.done.injEq]
        constructor
        · intro heq
          have hexact : buf.length + (replaceAll search repl rest).length = maxStringLen - 1 := by
            rw [← List.length_append, ← heq, hcut]
          obtain rfl : repl = [] := List.length_eq_zero_iff.mp (by omega)
          exact ⟨List.not_mem_nil, .inr ⟨hexact, fun _ => rfl⟩⟩
        · rintro ⟨-, hfits⟩
          have hexact : buf.length + (replaceAll search repl rest).length = maxStringLen - 1 := by
            rcases hfits with hlt | ⟨heq, -⟩
            · omega
            · exact heq
          obtain rfl : repl = [] := List.length_eq_zero_iff.mp (by omega)
          have hnil : replaceAll search [] rest' = [] := List.length_eq_zero_iff.mp (by omega)
          rw [hall, hnil, List.nil_append, List.append_nil, show maxStringLen - 1 - buf.length = i by omega]
      · rw [if_neg hfull, putReplacement, List.length_append, htake]
        by_cases hroom : buf.length + i + repl.length < maxStringLen - 1
        · rw [if_pos hroom, read_string]
          by_cases hcopy : Copyable repl
          · rw [if_pos hcopy, Run.done_bind, Run.done_bind, fits_of_some hsearch hfind]
            have hlong : (buf ++ rest.take i ++ repl).length = buf.length + i + repl.length := by
              rw [List.length_append, List.length_append, htake]
            have hnext := ih _ hshort hvis (hlong ▸ hroom) rfl
            rw [hlong] at hnext
            rw [hall, ← List.append_assoc, ← List.append_assoc, hnext]
            simp only [hcopy, implies_true, true_and]
            rfl
          · rw [if_neg hcopy, Run.undefined_bind, Run.undefined_bind]
            exact iff_of_false (by simp) fun hboth => hcopy hboth.1
        · -- the replacement is left out
          rw [if_neg hroom, Run.done_bind]
          refine iff_of_false (fun hrun => ?_) fun hboth => ?_
          · have hbound := length_replaceLoop_le (by rw [List.length_append, htake]; omega) hrun
            rw [List.length_append, hlenAll] at hbound
            have hrepl : repl ≠ [] := by
              rintro rfl
              rw [List.length_nil] at hroom
              omega
            have hnil : rest' = [] :=
              @replaceAll_eq_nil _ _ search _ _ hrepl (List.length_eq_zero_iff.mp (by omega))
            rw [hall, hnil, replaceLoop_nil, Run.done.injEq, ← List.append_assoc, List.self_eq_append_right] at hrun
            exact hrepl (List.append_eq_nil_iff.mp hrun).1
          · rcases hboth.2 with hlt | ⟨heq, hend⟩
            · omega
            · have hrepl : repl ≠ [] := by
                rintro rfl
                rw [List.length_nil] at hroom
                omega
              have hnil : rest' = [] :=
                @replaceAll_eq_nil _ _ search _ _ hrepl (List.length_eq_zero_iff.mp (by omega))
              refine hrepl (hend ?_)
              simp only [split_of_some hsearch hfind, ← hrest', hnil, split_nil]
              rfl

theorem builtinReplace_iff {s search repl : Bytes} (hvis : ∀ hsearch : search ≠ [], Visible search hsearch s) :
    builtinReplace numberText (levels + 1) [.string s, .string search, .string repl] =
        .done (.string (replaceAll search repl s)) ↔
      (search ≠ [] → (search <:+: s → Copyable repl) ∧ Fits search repl s 0) := by
  rw [builtinReplace, text_string, text_string, Run.done_bind, Run.done_bind]
  by_cases hnil : search = []
  · subst hnil
    simp [replaceAll, split, List.intercalate]
  · have hpos := List.length_pos_of_ne_nil hnil
    rw [dif_pos hpos]
    have hloop := @replaceLoop_iff _ repl _ _ [] hpos (hvis hnil) (by decide)
    rw [List.nil_append, List.length_nil] at hloop
    simp only [ne_eq, hnil, not_false_eq_true, true_imp_iff, ← hloop]
    cases replaceLoop ⟨cString search, search.length⟩ ⟨cString repl, repl.length⟩ hpos s [] <;> simp

end Replace

/-! ## Together -/

/-- **When the text builtins compute on the string and nothing else.**  `substr` does where all integers that it computes
with fit; `split` where the whole separator stands wherever its characters are found; `join` where every string among
the items can be copied and the text fits in memory; `contains` where no NUL hides the needle or cuts it short; and
`replace`, where its search text is found exactly where it occurs, if the replacement can be copied
and the text fits in the buffer. -/
theorem text_builtins_iff (numberText : NumberText) (strtod : Strtod) (levels : ℕ) :
    (∀ s start, builtinSubstr strtod [.string s, .number start] =
        .done (.string (clampedSlice s (wholePart start) none)) ↔ SubstrFits s (wholePart start) none) ∧
    (∀ s start len, builtinSubstr strtod [.string s, .number start, .number len] =
        .done (.string (clampedSlice s (wholePart start) (some (wholePart len)))) ↔
      SubstrFits s (wholePart start) (some (wholePart len))) ∧
    (∀ s sep, (∃ parts : List Bytes, builtinSplit [.string s, .string sep] = .array (parts.map .string) ∧
        sep.intercalate parts = s) ↔ ∀ hsep : sep ≠ [], SeparatesWhole sep hsep s) ∧
    (∀ items sep, (∃ ts, List.Forall₂ (ItemText numberText (levels + 1)) items ts ∧
        builtinJoin numberText (levels + 1) [.array items, .string sep] = .done (.string (sep.intercalate ts))) ↔
      ∃ ts, List.Forall₂ (Joinable numberText (levels + 1)) items ts ∧ (sep.intercalate ts).length + 1 < 2 ^ 32) ∧
    (∀ s needle, builtinContains numberText (levels + 1) [.string s, .string needle] = .done (.bool (needle <:+: s)) ↔
      Searchable s needle) ∧
    ∀ s search repl, (∀ hsearch : search ≠ [], Visible search hsearch s) →
      (builtinReplace numberText (levels + 1) [.string s, .string search, .string repl] =
          .done (.string (replaceAll search repl s)) ↔
        (search ≠ [] → (search <:+: s → Copyable repl) ∧ Fits search repl s 0)) :=
  ⟨fun _ _ => builtinSubstr_rest, fun _ _ _ => builtinSubstr_some, builtinSplit_iff, builtinJoin_iff,
    builtinContains_iff, fun _ _ _ hvis => builtinReplace_iff hvis⟩

end Texts

/-- The texts have no NULs: `replace("aa", "a", "b")` is `"bb"`. -/
theorem text_builtins_replace :
    builtinReplace printDigit 1 [.string (utf8 "aa"), .string (utf8 "a"), .string (utf8 "b")] =
      .done (.string (replaceAll (utf8 "a") (utf8 "b") (utf8 "aa"))) := by
  obtain ⟨-, -, -, -, -, hreplace⟩ := text_builtins_iff printDigit readDigits 0
  refine (hreplace _ _ _ fun _ => visible_of_noNul (by decide) (by decide)).mpr fun _ => ⟨fun _ => by decide, .inl ?_⟩
  decide +kernel

theorem wholePart_f64OfNat {n : ℕ} (h : n < 2 ^ 53) : wholePart (f64OfNat n) = n := by
  have hlog : Nat.log2 n - 52 = 0 := by
    rcases Nat.eq_zero_or_pos n with rfl | hpos
    · rfl
    · have := (Nat.log2_lt hpos.ne').mpr h
      omega
  rw [wholePart, binary64_f64OfNat (by omega) (by rw [hlog, pow_zero]; exact one_dvd n), truncate,
    if_pos (Nat.cast_nonneg n), Int.floor_natCast]

/-- `substr("abc", 1, 2147483647)` adds one to the largest `int`; `split("x", "x\0")` is one empty part. -/
theorem text_builtins_fail :
    (∀ strtod, builtinSubstr strtod [.string (utf8 "abc"), .number (f64OfNat 1), .number (f64OfNat 2147483647)] ≠
      .done (.string (clampedSlice (utf8 "abc") 1 (some 2147483647)))) ∧
    ¬∃ parts : List Bytes, builtinSplit [.string [0x78], .string [0x78, 0]] = .array (parts.map .string) ∧
      List.intercalate [0x78, 0] parts = [0x78] := by
  constructor
  · intro strtod hdone
    have hone : wholePart (f64OfNat 1) = 1 := wholePart_f64OfNat (by decide)
    have hmax : wholePart (f64OfNat 2147483647) = 2147483647 := wholePart_f64OfNat (by decide)
    rw [← hone, ← hmax, builtinSubstr_some, hone, hmax] at hdone
    exact absurd hdone.2.2.2 (by decide)
  · rw [builtinSplit_iff]
    intro h
    have hsep := h (by decide)
    rw [SeparatesWhole, show strstr [0x78] [0x78, 0] = some 0 by decide] at hsep
    simp at hsep

end VelocityMcp.Interp.TextBuiltins
