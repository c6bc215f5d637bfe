import Mathlib.Data.List.Find
import VelocityMcp.Interp.Printer
import VelocityMcp.Interp.Reading

/-!
# Interp.Spelling — the tokenizer on printed texts (`interp_core/interp.c`)

`lexemesOf_sourceText`: the tokenizer reads back what was printed.
-/

namespace VelocityMcp.Interp

open Lib
open Guest (Strtod takeIf takeFraction takeExponent)

/-! ## Reading back -/

def Token.unplaced (t : Token) : Token := { t with line := 0, col := 0 }

theorem type_of_unplaced {t u : Token} (h : t.unplaced = u) : t.type = u.type := by
  rw [← h]
  rfl

/-- Between blanks, the tokenizer makes of the characters what it should. -/
def Lexeme.Read (d : Dialect) (strtod : Strtod) (x : Lexeme) : Prop :=
  ∀ (t : Cursor) (rest : Bytes), t.rest = 0x20 :: (x.raw ++ 0x20 :: rest) → ∃ tok u,
    tokenizeOne d strtod t = (some tok, u) ∧ tok.unplaced = x.token ∧ u.rest = 0x20 :: rest ∧ u.torn = t.torn

/-- `strtod` stops where the number does. -/
def ReadsNumerals (strtod : Strtod) : Prop :=
  ∀ (n : Numeral) (rest : Bytes), strtod (n.text ++ 0x20 :: rest) = strtod n.text

section Read

variable {d : Dialect} {strtod : Strtod} {style : Style} {c : UInt8} {s rest : Bytes}

/-- No blank and no comment starts here. -/
def Stops (d : Dialect) (c : UInt8) (s : Bytes) : Prop :=
  isBlank c = false ∧ c ≠ 0x0a ∧ startsLineComment d (c :: s) = false ∧ startsBlockComment d (c :: s) = false

theorem ne_of_class {f : UInt8 → Bool} {e : UInt8} (hc : f c = true) (he : f e = false) : c ≠ e := by
  rintro rfl
  rw [hc] at he
  cases he

theorem stops_of_class {f : UInt8 → Bool} (hc : f c = true)
    (hf : [0x20, 0x09, 0x0d, 0x0a, 0x23, 0x2f].map f = [false, false, false, false, false, false]) : Stops d c s := by
  simp only [List.map_cons, List.map_nil, List.cons.injEq, and_true] at hf
  obtain ⟨hspace, htab, hreturn, hnewline, hhash, hslash⟩ := hf
  have hslash : c ≠ 0x2f := ne_of_class hc hslash
  refine ⟨?_, ne_of_class hc hnewline, ?_, ?_⟩
  · simp [isBlank, ne_of_class hc hspace, ne_of_class hc htab, ne_of_class hc hreturn]
  · simp [startsLineComment, List.isPrefixOf, ne_of_class hc hhash, hslash.symm]
  · simp [startsBlockComment, List.isPrefixOf, hslash.symm]

theorem skipWhitespace_stops {n : ℕ} {t : Cursor} (h : Stops d c s) (ht : t.rest = c :: s) :
    skipWhitespace d (n + 1) t = t := by
  obtain ⟨hblank, hc, hline, hblock⟩ := h
  rw [skipWhitespace, ht]
  simp only [hblank, hc, hline, hblock, Bool.false_eq_true, if_false]

theorem tokenizeOne_blank {t : Cursor} (h : Stops d c s) (ht : t.rest = 0x20 :: c :: s) :
    tokenizeOne d strtod t = readToken d strtod ⟨c :: s, t.line, t.col + 1, t.torn⟩ c s := by
  have hskip : skipWhitespace d t.rest.length t = ⟨c :: s, t.line, t.col + 1, t.torn⟩ := by
    rw [ht, List.length_cons, skipWhitespace, ht]
    exact skipWhitespace_stops (t := ⟨c :: s, _, _, _⟩) h rfl
  unfold tokenizeOne
  dsimp only
  rw [hskip]

theorem Lexeme.read_of_readToken {x : Lexeme} (hraw : x.raw = c :: s) (hstops : ∀ rest, Stops d c (s ++ 0x20 :: rest))
    (hread : ∀ (t : Cursor) rest, t.rest = c :: (s ++ 0x20 :: rest) → ∃ tok u,
      readToken d strtod t c (s ++ 0x20 :: rest) = (some tok, u) ∧ tok.unplaced = x.token ∧ u.rest = 0x20 :: rest ∧
        u.torn = t.torn) : x.Read d strtod := by
  intro t rest ht
  rw [hraw] at ht
  rw [tokenizeOne_blank (hstops rest) ht]
  exact hread _ rest rfl

theorem dropWhile_blank {f : UInt8 → Bool} (hf : f 0x20 = false) (s rest : Bytes) :
    (s ++ 0x20 :: rest).dropWhile f = s.dropWhile f ++ 0x20 :: rest := by
  induction s with
  | nil => exact List.dropWhile_cons_of_neg (by simp [hf])
  | cons c s ih =>
    rw [List.cons_append, List.dropWhile_cons, List.dropWhile_cons]
    split
    · exact ih
    · rfl

theorem takeWhile_blank {f : UInt8 → Bool} (hf : f 0x20 = false) (s rest : Bytes) :
    (s ++ 0x20 :: rest).takeWhile f = s.takeWhile f := by
  induction s with
  | nil => exact List.takeWhile_cons_of_neg (by simp [hf])
  | cons c s ih =>
    rw [List.cons_append, List.takeWhile_cons, List.takeWhile_cons, ih]

theorem takeIf_blank {f : UInt8 → Bool} (hf : f 0x20 = false) (s rest : Bytes) :
    takeIf f (s ++ 0x20 :: rest) = ((takeIf f s).1, (takeIf f s).2 ++ 0x20 :: rest) := by
  cases s with
  | nil => exact if_neg (by simp [hf])
  | cons c s =>
    rw [List.cons_append, takeIf, takeIf]
    split <;> rfl

theorem takeFraction_blank (s rest : Bytes) :
    (takeFraction (s ++ 0x20 :: rest)).2 = (takeFraction s).2 ++ 0x20 :: rest := by
  unfold takeFraction
  rw [takeIf_blank (by decide)]
  dsimp only
  split
  · rfl
  · exact dropWhile_blank (by decide) _ rest

theorem takeExponent_blank (s rest : Bytes) :
    (takeExponent (s ++ 0x20 :: rest)).2 = (takeExponent s).2 ++ 0x20 :: rest := by
  unfold takeExponent
  rw [takeIf_blank (by decide)]
  dsimp only
  split
  · rfl
  · rw [takeIf_blank (by decide)]
    exact dropWhile_blank (by decide) _ rest

theorem numberRest_blank (s rest : Bytes) : numberRest (s ++ 0x20 :: rest) = numberRest s ++ 0x20 :: rest := by
  unfold numberRest
  rw [dropWhile_blank (by decide), takeFraction_blank, takeExponent_blank]

theorem startsNumber_blank (h : startsNumber s = true) : startsNumber (s ++ 0x20 :: rest) = true := by
  match s, h with
  | [c], h =>
    simp [startsNumber] at h ⊢
    exact Or.inl h
  | c :: e :: s, h => exact h

theorem startsNumber_head (h : startsNumber (c :: s) = true) : (isDigit c || c = 0x2e) = true := by
  rcases Bool.or_eq_true_iff.mp h with hdigit | hpoint
  · exact Bool.or_eq_true_iff.mpr (Or.inl hdigit)
  · exact Bool.or_eq_true_iff.mpr (Or.inr (by simpa using (Bool.and_eq_true_iff.mp hpoint).1))

theorem Lexeme.read_number (hstrtod : ReadsNumerals strtod) (n : Numeral) : (Lexeme.number strtod n).Read d strtod := by
  obtain ⟨c, s, htext⟩ : ∃ c s, n.text = c :: s := by
    cases htext : n.text with
    | nil =>
      have hstarts := n.starts
      rw [htext] at hstarts
      cases hstarts
    | cons c s => exact ⟨c, s, rfl⟩
  have hstarts := n.starts
  rw [htext] at hstarts
  have hhead := startsNumber_head hstarts
  have hc : c ≠ 0x0a := ne_of_class (f := fun c => isDigit c || c = 0x2e) hhead (by decide)
  refine Lexeme.read_of_readToken htext
    (fun rest => stops_of_class (f := fun c => isDigit c || c = 0x2e) hhead (by decide)) fun t rest ht => ?_
  have hsource : c :: (s ++ 0x20 :: rest) = n.text ++ 0x20 :: rest := by rw [htext, List.cons_append]
  have hrest : numberRest (c :: (s ++ 0x20 :: rest)) = 0x20 :: rest := by
    rw [hsource, numberRest_blank, n.whole, List.nil_append]
  have hnumber : startsNumber (c :: (s ++ 0x20 :: rest)) = true := by
    rw [hsource]
    exact startsNumber_blank n.starts
  have htaken : (c :: (s ++ 0x20 :: rest)).take ((c :: (s ++ 0x20 :: rest)).length - (0x20 :: rest).length) = n.text := by
    rw [hsource, List.length_append, Nat.add_sub_cancel, List.take_left]
  unfold readToken
  rw [if_neg (fun h => hc h.2), if_pos hnumber, hrest]
  refine ⟨_, _, rfl, ?_, rfl, rfl⟩
  rw [htaken, hsource, hstrtod n rest]
  rfl

theorem readString_quoted {q : UInt8} (rest : Bytes) : ∀ (s : Bytes) (line col : ℕ), staysWithin q s = true →
    ∃ line' col', readString q (s ++ q :: 0x20 :: rest) line col = (s, q :: 0x20 :: rest, line', col')
  | [], line, col, _ => ⟨line, col, if_pos rfl⟩
  | [c], line, col, h => by
    have hne : c ≠ q ∧ c ≠ 0x5c := by simpa [staysWithin] using h
    rw [List.singleton_append, readString, if_neg hne.1, if_neg hne.2]
    split
    · obtain ⟨line', col', hread⟩ := readString_quoted rest [] (line + 1) 1 rfl
      rw [List.nil_append] at hread
      exact ⟨line', col', by rw [hread]⟩
    · obtain ⟨line', col', hread⟩ := readString_quoted rest [] line (col + 1) rfl
      rw [List.nil_append] at hread
      exact ⟨line', col', by rw [hread]⟩
  | c :: e :: s, line, col, h => by
    obtain ⟨hne, hwithin⟩ := Bool.and_eq_true_iff.mp h
    rw [List.cons_append, List.cons_append, readString, if_neg (by simpa using hne)]
    by_cases hescape : c = 0x5c
    · rw [if_pos hescape] at hwithin
      obtain ⟨line', col', hread⟩ := readString_quoted rest s line (col + 2) hwithin
      exact ⟨line', col', by rw [if_pos hescape, hread]⟩
    · rw [if_neg hescape] at hwithin
      rw [if_neg hescape]
      split
      · obtain ⟨line', col', hread⟩ := readString_quoted rest (e :: s) (line + 1) 1 hwithin
        rw [List.cons_append] at hread
        exact ⟨line', col', by rw [hread]⟩
      · obtain ⟨line', col', hread⟩ := readString_quoted rest (e :: s) line (col + 1) hwithin
        rw [List.cons_append] at hread
        exact ⟨line', col', by rw [hread]⟩

theorem startsNumber_of_head (hdigit : isDigit c = false) (hpoint : c ≠ 0x2e ∨ s.head?.any isDigit = false) :
    startsNumber (c :: s) = false := by
  rcases hpoint with hpoint | hpoint
  · simp [startsNumber, hdigit, hpoint]
  · simp [startsNumber, hdigit, hpoint]

theorem Lexeme.read_string (x : Quoted) : (Lexeme.string x).Read d strtod := by
  have hclass : (x.quote = 0x22 || x.quote = 0x27) = true := by simpa using x.quote_eq
  refine Lexeme.read_of_readToken rfl
    (fun rest => stops_of_class (f := fun c => c = 0x22 || c = 0x27) hclass (by decide)) fun t rest ht => ?_
  obtain ⟨line', col', hread⟩ := readString_quoted rest x.text t.line (t.col + 1) x.within
  have hc : x.quote ≠ 0x0a := ne_of_class (f := fun c => c = 0x22 || c = 0x27) hclass (by decide)
  have hnumber : startsNumber (x.quote :: (x.text ++ [x.quote] ++ 0x20 :: rest)) = false := by
    refine startsNumber_of_head ?_ (Or.inl (ne_of_class (f := fun c => c = 0x22 || c = 0x27) hclass (by decide)))
    rcases x.quote_eq with h | h <;> rw [h] <;> rfl
  rw [List.append_assoc] at hnumber ⊢
  unfold readToken
  rw [if_neg (fun h => hc h.2), if_neg (by rw [hnumber]; exact Bool.false_ne_true), if_pos x.quote_eq,
    List.singleton_append, hread]
  exact ⟨_, _, rfl, rfl, rfl, rfl⟩

theorem isDigit_of_start (h : isIdentStart c = true) : isDigit c = false := by
  by_contra hdigit
  simp only [isIdentStart, isAlpha, isDigit, Bool.or_eq_true, Bool.and_eq_true, decide_eq_true_eq,
    Bool.not_eq_false, UInt8.le_iff_toNat_le, ← UInt8.toNat_inj] at h hdigit
  simp at h hdigit
  omega

theorem isPrefixOf_blank {w : Bytes} (hw : 0x20 ∉ w) (s rest : Bytes) :
    w.isPrefixOf (s ++ 0x20 :: rest) = w.isPrefixOf s := by
  induction w generalizing s with
  | nil => cases s <;> rfl
  | cons a w ih =>
    obtain ⟨ha, hw⟩ := not_or.mp (List.mem_cons.not.mp hw)
    cases s with
    | nil => simp [List.isPrefixOf, Ne.symm ha]
    | cons c s => rw [List.cons_append, List.isPrefixOf, List.isPrefixOf, ih hw s]

theorem keywordMatch_blank {w : Bytes} (hw : 0x20 ∉ w) (s rest : Bytes) :
    keywordMatch (s ++ 0x20 :: rest) w = keywordMatch s w := by
  unfold keywordMatch
  rw [isPrefixOf_blank hw]
  cases hfront : w.isPrefixOf s with
  | false => rfl
  | true =>
    rw [List.drop_append_of_le_length (List.isPrefixOf_iff_prefix.mp hfront).length_le]
    cases s.drop w.length <;> rfl

theorem readWord_blank (hd : d.Regular) (s rest : Bytes) : readWord d (s ++ 0x20 :: rest) = readWord d s := by
  have hfunction : d.funcKeyword.any (keywordMatch (s ++ 0x20 :: rest)) = d.funcKeyword.any (keywordMatch s) := by
    cases hword : d.funcKeyword with
    | none => rfl
    | some w => exact keywordMatch_blank (hd.funcKeyword w hword) s rest
  have hprint : printKeyword d (s ++ 0x20 :: rest) = printKeyword d s :=
    List.find?_congr fun w hw => keywordMatch_blank (hd.printKeywords w hw) s rest
  unfold readWord
  rw [takeWhile_blank (by decide), hfunction, hprint]

theorem readWord_ident (h : (readWord d s).1 = .ident) : (readWord d s).2 = s.takeWhile isIdentChar := by
  revert h
  unfold readWord
  dsimp only
  split
  · exact fun _ => rfl
  · split
    · exact fun _ => rfl
    · split
      · exact fun _ => rfl
      · split
        · exact fun h => by cases h
        · exact fun _ => rfl

theorem readWord_keyword {type : TokenType} (hs : s.takeWhile isIdentChar = s) (h : wordType s = some type) :
    readWord d s = (type, s) := by
  unfold readWord
  dsimp only
  rw [hs, h]

/-- **A word is read** as what it is. -/
theorem Lexeme.read_word {w : Bytes} {type : TokenType} (hd : d.Regular) (hstart : w.head?.any isIdentStart = true)
    (hword : readWord d w = (type, w)) : (Lexeme.mk w ⟨type, w, 0, 0, 0⟩).Read d strtod := by
  obtain ⟨c, s, rfl⟩ : ∃ c s, w = c :: s := by
    cases w with
    | nil => cases hstart
    | cons c s => exact ⟨c, s, rfl⟩
  have hstart : isIdentStart c = true := hstart
  refine Lexeme.read_of_readToken rfl (fun rest => stops_of_class hstart (by decide)) fun t rest ht => ?_
  have hc : c ≠ 0x0a := ne_of_class hstart (by decide)
  have hnumber : startsNumber (c :: (s ++ 0x20 :: rest)) = false :=
    startsNumber_of_head (isDigit_of_start hstart) (Or.inl (ne_of_class hstart (by decide)))
  have hquote : ¬ (c = 0x22 ∨ c = 0x27) :=
    not_or.mpr ⟨ne_of_class hstart (by decide), ne_of_class hstart (by decide)⟩
  have hfront : d.varPrefix ≠ some c := fun h => ne_of_class (e := 0x24) hstart (by decide) (hd.varPrefix c h)
  have hread : readWord d (c :: (s ++ 0x20 :: rest)) = (type, c :: s) := by
    rw [← List.cons_append, readWord_blank hd, hword]
  unfold readToken
  rw [if_neg (fun h => hc h.2), if_neg (by simp [hnumber]), if_neg hquote, if_neg hfront, if_pos hstart, hread]
  refine ⟨_, _, rfl, rfl, ?_, rfl⟩
  exact @List.drop_left _ (c :: s) _

theorem Lexeme.read_ident (hd : d.Regular) {name : Name} (h : Expr.Legible d style name) :
    (Lexeme.ident d style name).Read d strtod := by
  have htake : name.text.takeWhile isIdentChar = name.text :=
    List.takeWhile_eq_self_iff.mpr fun c hc => List.all_eq_true.mp name.chars c hc
  by_cases hsigil : Lexeme.sigil d style name = []
  · obtain ⟨hstart, htype⟩ := h hsigil
    have hword : readWord d name.text = (.ident, name.text) :=
      Prod.ext htype ((readWord_ident htype).trans htake)
    have heq : Lexeme.ident d style name = ⟨name.text, .ident, name.text, 0, 0, 0⟩ := by
      unfold Lexeme.ident
      rw [hsigil, List.nil_append]
    rw [heq]
    exact Lexeme.read_word hd hstart hword
  · obtain ⟨hfront, hraw⟩ : d.varPrefix = some 0x24 ∧ Lexeme.sigil d style name = [0x24] := by
      unfold Lexeme.sigil at hsigil ⊢
      cases hbare : style.bare name.text with
      | true => simp [hbare] at hsigil
      | false =>
        cases hfront : d.varPrefix with
        | none => simp [hbare, hfront] at hsigil
        | some c =>
          obtain rfl := hd.varPrefix c hfront
          exact ⟨rfl, rfl⟩
    refine Lexeme.read_of_readToken (c := 0x24) (s := name.text) (by rw [Lexeme.ident, hraw]; rfl)
      (fun rest => stops_of_class (f := (· = 0x24)) (by decide) (by decide)) fun t rest ht => ?_
    have hnumber : startsNumber (0x24 :: (name.text ++ 0x20 :: rest)) = false :=
      startsNumber_of_head rfl (Or.inl (by decide))
    unfold readToken
    rw [if_neg (fun h => absurd h.2 (by decide)), if_neg (by rw [hnumber]; exact Bool.false_ne_true),
      if_neg (by decide), if_pos hfront, takeWhile_blank (by decide), htake]
    refine ⟨_, _, rfl, rfl, ?_, rfl⟩
    rw [dropWhile_blank (by decide)]
    have hdrop := List.takeWhile_append_dropWhile (p := isIdentChar) (l := name.text)
    rw [htake] at hdrop
    have hnil : name.text.dropWhile isIdentChar = [] := List.append_right_eq_self.mp hdrop
    rw [hnil, List.nil_append]

/-- What starts an operator or a bracket. -/
def marks : Bytes := [0x2b, 0x2d, 0x2a, 0x2f, 0x25, 0x2e, 0x28, 0x29, 0x5b, 0x5d, 0x7b, 0x7d, 0x2c, 0x3a, 0x3d, 0x21, 0x3c,
  0x3e, 0x26, 0x7c]

theorem marks_spec (hc : c ∈ marks) : isBlank c = false ∧ c ≠ 0x0a ∧ c ≠ 0x23 ∧ isDigit c = false ∧
    (c ≠ 0x22 ∧ c ≠ 0x27) ∧ c ≠ 0x24 ∧ isIdentStart c = false := by
  have hall : marks.all (fun c => !isBlank c && c ≠ 0x0a && c ≠ 0x23 && !isDigit c && c ≠ 0x22 && c ≠ 0x27 && c ≠ 0x24 &&
      !isIdentStart c) = true := by
    decide
  simpa [and_assoc] using List.all_eq_true.mp hall c hc

/-- **An operator or a bracket is read**, if what it ends with makes no number, no comment and no other operator. -/
theorem Lexeme.read_mark {type : TokenType} (hd : d.Regular) (hc : c ∈ marks)
    (hnext : (s ++ [0x20]).head?.any (fun e => isDigit e || e = 0x2f || e = 0x2a) = false)
    (hsymbol : ∀ rest, readSymbol d c (s ++ 0x20 :: rest) = some (type, 0x20 :: rest)) :
    (Lexeme.mark type (c :: s)).Read d strtod := by
  obtain ⟨hblank, hline, hhash, hdigit, hquote, hdollar, hstart⟩ := marks_spec hc
  have hnext : ∀ rest e, (s ++ 0x20 :: rest).head? = some e → isDigit e = false ∧ e ≠ 0x2f ∧ e ≠ 0x2a := by
    intro rest e he
    have hhead : (s ++ 0x20 :: rest).head? = (s ++ [0x20]).head? := by cases s <;> rfl
    rw [← hhead, he] at hnext
    simpa [and_assoc] using hnext
  have hstops : ∀ rest, Stops d c (s ++ 0x20 :: rest) := by
    intro rest
    refine ⟨hblank, hline, ?_, ?_⟩
    · cases hs : s ++ 0x20 :: rest with
      | nil => simp [startsLineComment, List.isPrefixOf, hhash]
      | cons e r =>
        have hslash := (hnext rest e (by rw [hs]; rfl)).2.1
        simp [startsLineComment, List.isPrefixOf, hhash, hslash.symm]
    · cases hs : s ++ 0x20 :: rest with
      | nil => simp [startsBlockComment, List.isPrefixOf]
      | cons e r =>
        have hstar := (hnext rest e (by rw [hs]; rfl)).2.2
        simp [startsBlockComment, List.isPrefixOf, hstar.symm]
  refine Lexeme.read_of_readToken rfl hstops fun t rest ht => ?_
  have hnumber : startsNumber (c :: (s ++ 0x20 :: rest)) = false := by
    refine startsNumber_of_head hdigit (Or.inr ?_)
    cases hs : (s ++ 0x20 :: rest).head? with
    | none => rfl
    | some e => exact (hnext rest e hs).1
  have htaken : (c :: (s ++ 0x20 :: rest)).take ((c :: (s ++ 0x20 :: rest)).length - (0x20 :: rest).length) = c :: s := by
    rw [← List.cons_append, List.length_append, Nat.add_sub_cancel, List.take_left]
  unfold readToken
  rw [if_neg (fun h => hline h.2), if_neg (by rw [hnumber]; exact Bool.false_ne_true), if_neg (not_or.mpr hquote),
    if_neg (fun h => hdollar (hd.varPrefix c h)), if_neg (by rw [hstart]; exact Bool.false_ne_true), hsymbol]
  refine ⟨_, _, rfl, ?_, rfl, rfl⟩
  rw [htaken]
  rfl

theorem Lexeme.read_unary (hd : d.Regular) (op : UnaryOp) : (Lexeme.unary op).Read d strtod := by
  cases op with
  | not => exact Lexeme.read_mark (s := []) hd (by decide) rfl fun _ => rfl
  | minus => exact Lexeme.read_mark (s := []) hd (by decide) rfl fun _ => rfl

theorem Lexeme.read_binary (hd : d.Regular) {op : BinaryOp} (hop : op ≠ .neq) : (Lexeme.binary op).Read d strtod := by
  cases op with
  | or => exact Lexeme.read_mark (s := [0x7c]) hd (by decide) rfl fun _ => rfl
  | and => exact Lexeme.read_mark (s := [0x26]) hd (by decide) rfl fun _ => rfl
  | eq => exact Lexeme.read_mark (s := [0x3d]) hd (by decide) rfl fun _ => rfl
  | neq => exact absurd rfl hop
  | lt => exact Lexeme.read_mark (s := []) hd (by decide) rfl fun _ => by simp [readSymbol, BinaryOp.type]
  | gt => exact Lexeme.read_mark (s := []) hd (by decide) rfl fun _ => rfl
  | lte => exact Lexeme.read_mark (s := [0x3d]) hd (by decide) rfl fun _ => rfl
  | gte => exact Lexeme.read_mark (s := [0x3d]) hd (by decide) rfl fun _ => rfl
  | plus => exact Lexeme.read_mark (s := []) hd (by decide) rfl fun _ => rfl
  | minus => exact Lexeme.read_mark (s := []) hd (by decide) rfl fun _ => rfl
  | concat => exact Lexeme.read_mark (s := []) hd (by decide) rfl fun _ => rfl
  | star => exact Lexeme.read_mark (s := []) hd (by decide) rfl fun _ => rfl
  | slash => exact Lexeme.read_mark (s := []) hd (by decide) rfl fun _ => rfl
  | percent => exact Lexeme.read_mark (s := []) hd (by decide) rfl fun _ => rfl

theorem Lexeme.read_bool (hd : d.Regular) (b : Bool) : (Lexeme.bool b).Read d strtod := by
  cases b with
  | true => exact Lexeme.read_word hd (by decide) (readWord_keyword (by decide) (by decide))
  | false => exact Lexeme.read_word hd (by decide) (readWord_keyword (by decide) (by decide))

theorem Lexeme.read_null (hd : d.Regular) : Lexeme.null.Read d strtod :=
  Lexeme.read_word hd (by decide) (readWord_keyword (by decide) (by decide))

/-- It is read, it has no null byte, and it is not the end of the source. -/
structure Lexeme.Good (d : Dialect) (strtod : Strtod) (x : Lexeme) : Prop where
  read : x.Read d strtod
  no_null : 0 ∉ x.raw
  goes_on : x.token.type ≠ .eof

theorem good_mark {type : TokenType} (hd : d.Regular) (hc : c ∈ marks)
    (hnext : (s ++ [0x20]).head?.any (fun e => isDigit e || e = 0x2f || e = 0x2a) = false)
    (hsymbol : ∀ rest, readSymbol d c (s ++ 0x20 :: rest) = some (type, 0x20 :: rest)) (hnull : 0 ∉ c :: s)
    (htype : type ≠ .eof) : (Lexeme.mark type (c :: s)).Good d strtod :=
  ⟨Lexeme.read_mark hd hc hnext hsymbol, hnull, htype⟩

theorem good_unary (hd : d.Regular) (op : UnaryOp) : (Lexeme.unary op).Good d strtod :=
  ⟨Lexeme.read_unary hd op, by cases op <;> decide, by cases op <;> decide⟩

theorem good_binary (hd : d.Regular) {op : BinaryOp} (hop : op ≠ .neq) : (Lexeme.binary op).Good d strtod :=
  ⟨Lexeme.read_binary hd hop, by cases op <;> decide, by cases op <;> decide⟩

theorem good_bracket (hd : d.Regular) : Lexeme.lparen.Good d strtod ∧ Lexeme.rparen.Good d strtod ∧
    Lexeme.lbracket.Good d strtod ∧ Lexeme.rbracket.Good d strtod ∧ Lexeme.lbrace.Good d strtod ∧
      Lexeme.rbrace.Good d strtod :=
  ⟨good_mark (s := []) hd (by decide) rfl (fun _ => rfl) (by decide) (by decide),
    good_mark (s := []) hd (by decide) rfl (fun _ => rfl) (by decide) (by decide),
    good_mark (s := []) hd (by decide) rfl (fun _ => rfl) (by decide) (by decide),
    good_mark (s := []) hd (by decide) rfl (fun _ => rfl) (by decide) (by decide),
    good_mark (s := []) hd (by decide) rfl (fun _ => rfl) (by decide) (by decide),
    good_mark (s := []) hd (by decide) rfl (fun _ => rfl) (by decide) (by decide)⟩

theorem good_separator (hd : d.Regular) : Lexeme.comma.Good d strtod ∧ Lexeme.colon.Good d strtod ∧
    Lexeme.dot.Good d strtod ∧ Lexeme.assign.Good d strtod :=
  ⟨good_mark (s := []) hd (by decide) rfl (fun _ => rfl) (by decide) (by decide),
    good_mark (s := []) hd (by decide) rfl (fun _ => rfl) (by decide) (by decide),
    good_mark (s := []) hd (by decide) rfl (fun _ => rfl) (by decide) (by decide),
    good_mark (s := []) hd (by decide) rfl (fun _ => rfl) (by decide) (by decide)⟩

theorem good_bool (hd : d.Regular) (b : Bool) : (Lexeme.bool b).Good d strtod :=
  ⟨Lexeme.read_bool hd b, by cases b <;> decide, by cases b <;> decide⟩

theorem good_null (hd : d.Regular) : Lexeme.null.Good d strtod :=
  ⟨Lexeme.read_null hd, by decide, by decide⟩

theorem mem_dropWhile_null {f : UInt8 → Bool} (hf : f 0 = false) (h : 0 ∈ s) : 0 ∈ s.dropWhile f := by
  induction s with
  | nil => cases h
  | cons c s ih =>
    rw [List.dropWhile_cons]
    split
    · rename_i hc
      refine ih ((List.mem_cons.mp h).resolve_left ?_)
      rintro rfl
      rw [hf] at hc
      cases hc
    · exact h

theorem mem_takeIf_null {f : UInt8 → Bool} (hf : f 0 = false) (h : 0 ∈ s) : 0 ∈ (takeIf f s).2 := by
  cases s with
  | nil => cases h
  | cons c s =>
    rw [takeIf]
    split
    · rename_i hc
      refine (List.mem_cons.mp h).resolve_left ?_
      rintro rfl
      rw [hf] at hc
      cases hc
    · exact h

theorem mem_numberRest_null (h : 0 ∈ s) : 0 ∈ numberRest s := by
  have hwhole : 0 ∈ s.dropWhile isDigit := mem_dropWhile_null rfl h
  have hfraction : 0 ∈ (takeFraction (s.dropWhile isDigit)).2 := by
    have hpoint := mem_takeIf_null (f := (· = 0x2e)) rfl hwhole
    unfold takeFraction
    dsimp only
    split
    · exact hpoint
    · exact mem_dropWhile_null rfl hpoint
  have hletter := mem_takeIf_null (f := fun c => c = 0x65 || c = 0x45) rfl hfraction
  unfold numberRest takeExponent
  dsimp only
  split
  · exact hletter
  · exact mem_dropWhile_null rfl (mem_takeIf_null (f := fun c => c = 0x2b || c = 0x2d) rfl hletter)

theorem good_number (hstrtod : ReadsNumerals strtod) (n : Numeral) : (Lexeme.number strtod n).Good d strtod := by
  refine ⟨Lexeme.read_number hstrtod n, fun hnull => ?_, by simp [Lexeme.number]⟩
  have hmem := mem_numberRest_null hnull
  rw [show numberRest (Lexeme.number strtod n).raw = [] from n.whole] at hmem
  cases hmem

theorem good_string (x : Quoted) : (Lexeme.string x).Good d strtod := by
  refine ⟨Lexeme.read_string x, ?_, by simp [Lexeme.string]⟩
  have hquote : x.quote ≠ 0 := by
    rcases x.quote_eq with h | h <;> rw [h] <;> decide
  simp [Lexeme.string, x.no_null, hquote.symm]

theorem good_ident (hd : d.Regular) {name : Name} (h : Expr.Legible d style name) :
    (Lexeme.ident d style name).Good d strtod := by
  refine ⟨Lexeme.read_ident hd h, fun hnull => ?_, by simp [Lexeme.ident]⟩
  rcases List.mem_append.mp hnull with hsigil | htext
  · unfold Lexeme.sigil at hsigil
    split at hsigil
    · cases hsigil
    · have hdollar := hd.varPrefix 0 (Option.mem_toList.mp hsigil)
      cases hdollar
  · have hchar := List.all_eq_true.mp name.chars 0 htext
    cases hchar

theorem good_wrap (hd : d.Regular) {level k : ℕ} {xs : List Lexeme} (h : ∀ x ∈ xs, x.Good d strtod) :
    ∀ x ∈ Expr.wrap style level k xs, x.Good d strtod := by
  obtain ⟨hopen, hclose, -⟩ := @good_bracket _ strtod hd
  unfold Expr.wrap
  by_cases hweak : level < if style.full then 10 else k
  · rw [if_pos hweak]
    simpa [or_imp, forall_and, hopen, hclose] using h
  · rw [if_neg hweak]
    exact h

namespace Expr

/-- What a tree needs to be read back. -/
def Spoken (d : Dialect) (strtod : Strtod) (style : Style) (e : Expr) : Prop :=
  e.WellFormed d style → (e.ast strtod).Ordinary → ∀ x ∈ e.body d strtod style, x.Good d strtod

theorem good_bodyTail (hd : d.Regular) : ∀ es : List Expr, (∀ e ∈ es, e.Spoken d strtod style) →
    WellFormedAll d style es → Ast.OrdinaryAll (astAll strtod es) → ∀ x ∈ bodyTail d strtod style es, x.Good d strtod
  | [], _, _, _ => fun x hx => by cases hx
  | e :: es, hes, hform, hord => by
    obtain ⟨he, hes⟩ := List.forall_mem_cons.mp hes
    have htail := good_bodyTail hd es hes hform.2 hord.2
    have hhead := @good_wrap _ _ style hd e.level 1 _ (he hform.1 hord.1)
    rw [bodyTail]
    simpa [or_imp, forall_and, (@good_separator _ strtod hd).1] using ⟨hhead, htail⟩

theorem good_bodyAll (hd : d.Regular) : ∀ es : List Expr, (∀ e ∈ es, e.Spoken d strtod style) →
    WellFormedAll d style es → Ast.OrdinaryAll (astAll strtod es) → ∀ x ∈ bodyAll d strtod style es, x.Good d strtod
  | [], _, _, _ => fun x hx => by cases hx
  | e :: es, hes, hform, hord => by
    obtain ⟨he, hes⟩ := List.forall_mem_cons.mp hes
    have htail := good_bodyTail hd es hes hform.2 hord.2
    have hhead := @good_wrap _ _ style hd e.level 1 _ (he hform.1 hord.1)
    rw [bodyAll]
    simpa [or_imp, forall_and] using ⟨hhead, htail⟩

theorem good_key (hd : d.Regular) {k : Key} (h : ∀ name, k = .ident name → Legible d style name) :
    (Lexeme.key d style k).Good d strtod := by
  cases k with
  | ident name => exact good_ident hd (h name rfl)
  | string s => exact good_string s

theorem good_bodyEntries (hd : d.Regular) : ∀ es : List (Key × Expr), (∀ x ∈ es, x.2.Spoken d strtod style) →
    WellFormedEntries d style es → Ast.OrdinaryEntries (astEntries strtod es) →
      ∀ x ∈ bodyEntries d strtod style es, x.Good d strtod
  | [], _, _, _ => fun x hx => by cases hx
  | (k, e) :: es, hes, hform, hord => by
    obtain ⟨he, hes⟩ := List.forall_mem_cons.mp hes
    obtain ⟨hcomma, hcolon, -⟩ := @good_separator _ strtod hd
    have htail := good_bodyEntries hd es hes hform.2.2 hord.2.2
    have hhead := @good_wrap _ _ style hd e.level 1 _ (he hform.2.1 hord.2.1)
    have hkey := @good_key _ strtod _ hd _ hform.1
    rw [bodyEntries]
    split
    · simpa [or_imp, forall_and, hkey, hcolon] using hhead
    · simpa [or_imp, forall_and, hkey, hcolon, hcomma] using ⟨hhead, htail⟩

/-- **Each token of a tree is read.** -/
theorem good_body (hd : d.Regular) (hstrtod : ReadsNumerals strtod) (e : Expr) : e.Spoken d strtod style := by
  obtain ⟨hlparen, hrparen, hlbracket, hrbracket, hlbrace, hrbrace⟩ := @good_bracket _ strtod hd
  obtain ⟨-, -, hdot, hassign⟩ := @good_separator _ strtod hd
  induction e using Expr.induction with
  | number n =>
    intro _ _
    simpa [body] using good_number hstrtod n
  | string s =>
    intro _ _
    simpa [body] using good_string s
  | bool b =>
    intro _ _
    simpa [body] using good_bool hd b
  | null =>
    intro _ _
    simpa [body] using good_null hd
  | ident name =>
    intro hform _
    simpa [body] using good_ident hd hform
  | array elements hes =>
    intro hform hord
    have hall := good_bodyAll hd elements hes hform hord.2
    simpa [body, or_imp, forall_and, hlbracket, hrbracket] using hall
  | map entries hes =>
    intro hform hord
    have hall := good_bodyEntries hd entries hes hform hord.2
    simpa [body, or_imp, forall_and, hlbrace, hrbrace] using hall
  | unary op operand hoperand =>
    intro hform hord
    have hwrap := @good_wrap _ _ style hd operand.level 8 _ (hoperand hform hord)
    simpa [body, or_imp, forall_and, good_unary hd op] using hwrap
  | binary op left right hleft hright =>
    intro hform hord
    have hl := @good_wrap _ _ style hd left.level op.level _ (hleft hform.2.1 hord.2.1)
    have hr := @good_wrap _ _ style hd right.level (op.level + 1) _ (hright hform.2.2 hord.2.2)
    have hop : op ≠ .neq := by
      rintro rfl
      exact hord.1 rfl
    simpa [body, or_imp, forall_and, good_binary hd hop] using ⟨hl, hr⟩
  | call func args hfunc hargs =>
    intro hform hord
    have hf := @good_wrap _ _ style hd func.level 9 _ (hfunc hform.1 hord.2.1)
    have hall := good_bodyAll hd args hargs hform.2 hord.2.2
    simpa [body, or_imp, forall_and, hlparen, hrparen] using ⟨hf, hall⟩
  | index object i hobject hi =>
    intro hform hord
    have ho := @good_wrap _ _ style hd object.level 9 _ (hobject hform.1 hord.1)
    have hwrap := @good_wrap _ _ style hd i.level 1 _ (hi hform.2 hord.2)
    simpa [body, or_imp, forall_and, hlbracket, hrbracket] using ⟨ho, hwrap⟩
  | member object name hobject =>
    intro hform hord
    have ho := @good_wrap _ _ style hd object.level 9 _ (hobject hform.2.2 hord)
    simpa [body, or_imp, forall_and, hdot, good_ident hd hform.2.1] using ho
  | assign target value htarget hvalue =>
    intro hform hord
    have ht := @good_wrap _ _ style hd target.level 2 _ (htarget hform.2.1 hord.1)
    have hv := @good_wrap _ _ style hd value.level 1 _ (hvalue hform.2.2 hord.2)
    simpa [body, or_imp, forall_and, hassign] using ⟨ht, hv⟩

end Expr

/-! ## Source texts -/

theorem sourceText_eq (xs : List Lexeme) : ∃ s, sourceText xs = 0x20 :: s := by
  cases xs with
  | nil => exact ⟨[], rfl⟩
  | cons x xs => exact ⟨x.raw ++ sourceText xs, rfl⟩

theorem length_lt_sourceText (xs : List Lexeme) : xs.length < (sourceText xs).length := by
  induction xs with
  | nil => exact Nat.one_pos
  | cons x xs ih =>
    rw [sourceText, List.length_cons, List.length_cons, List.length_append]
    omega

theorem null_sourceText : ∀ xs : List Lexeme, (∀ x ∈ xs, x.Good d strtod) → 0 ∉ sourceText xs
  | [], _ => by decide
  | x :: xs, h => by
    obtain ⟨hx, hxs⟩ := List.forall_mem_cons.mp h
    simp [sourceText, hx.no_null, null_sourceText xs hxs]

theorem tokenizeOne_end {t : Cursor} (ht : t.rest = [0x20]) : ∃ tok u, tokenizeOne d strtod t = (some tok, u) ∧
    tok.unplaced = ⟨.eof, [], 0, 0, 0⟩ ∧ u.torn = t.torn := by
  have hskip : skipWhitespace d t.rest.length t = ⟨[], t.line, t.col + 1, t.torn⟩ := by
    rw [ht, List.length_singleton, skipWhitespace, ht]
    rfl
  unfold tokenizeOne
  dsimp only
  rw [hskip]
  exact ⟨_, _, rfl, rfl, rfl⟩

theorem lexemes_sourceText : ∀ (n : ℕ) (xs : List Lexeme) (t : Cursor), (∀ x ∈ xs, x.Good d strtod) →
    t.rest = sourceText xs → xs.length < n →
      ∃ (ts : List Token) (e : Token), (lexemes d strtod n t).1 = ts.map some ++ [some e] ∧
        ts.map Token.unplaced = xs.map Lexeme.token ∧ e.type = .eof
  | 0, _, _, _, _, hn => absurd hn (Nat.not_lt_zero _)
  | n + 1, [], t, _, ht, _ => by
    obtain ⟨tok, u, hone, hplace, -⟩ := @tokenizeOne_end d strtod _ ht
    have htype : tok.type = .eof := type_of_unplaced hplace
    rw [lexemes, hone]
    exact ⟨[], tok, by dsimp only; rw [if_pos htype]; rfl, rfl, htype⟩
  | n + 1, x :: xs, t, hgood, ht, hn => by
    obtain ⟨hx, hxs⟩ := List.forall_mem_cons.mp hgood
    obtain ⟨s, hs⟩ := sourceText_eq xs
    obtain ⟨tok, u, hone, hplace, hrest, -⟩ := hx.read t s (by rw [ht, sourceText, hs])
    have htype : tok.type = x.token.type := type_of_unplaced hplace
    obtain ⟨ts, e, hlist, hts, he⟩ := lexemes_sourceText n xs u hxs (hrest.trans hs.symm)
      (by rw [List.length_cons] at hn; omega)
    rw [lexemes, hone]
    refine ⟨tok :: ts, e, ?_, by rw [List.map_cons, List.map_cons, hplace, hts], he⟩
    dsimp only
    rw [if_neg (by rw [htype]; exact hx.goes_on), hlist]
    rfl

/-- **The tokenizer reads back what was printed.** -/
theorem lexemesOf_sourceText (hd : d.Regular) {xs : List Lexeme} (h : ∀ x ∈ xs, x.Good d strtod) :
    ∃ (ts : List Token) (e : Token), (lexemesOf d strtod (sourceText xs)).1 = ts.map some ++ [some e] ∧
      ts.map Token.unplaced = xs.map Lexeme.token ∧ e.type = .eof := by
  have hsource : cString (sourceText xs) = sourceText xs := cString_eq_self.mpr (null_sourceText xs h)
  have hinit : (tokenizerInit d (sourceText xs)).rest = sourceText xs := by
    unfold tokenizerInit
    rw [hsource]
    split
    · rfl
    · rename_i w hw
      obtain ⟨s, hs⟩ := sourceText_eq xs
      have hhead := hd.skipPrefix w hw
      have hfront : w.isPrefixOf (sourceText xs) = false := by
        rw [hs]
        cases w with
        | nil => cases hhead
        | cons c w =>
          have hc : c ≠ 0x20 := by simpa using hhead
          simp [List.isPrefixOf, hc]
      rw [hfront]
      rfl
  unfold lexemesOf
  rw [hsource]
  have hlength := length_lt_sourceText xs
  exact lexemes_sourceText _ xs _ h hinit (by omega)

end Read

end VelocityMcp.Interp
