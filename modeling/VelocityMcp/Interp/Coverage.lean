import VelocityMcp.Interp.Grammar

/-!
# Interp.Coverage — what becomes of the characters of a source (`interp_core/interp.c`)

`Piece`: what one call of the tokenizer takes from the source; `pieces_chain`: they make it up.
-/

namespace VelocityMcp.Interp

open Lib
open Guest (Strtod takeIf takeFraction takeExponent)

variable (d : Dialect) (strtod : Strtod)

/-! ## What is skipped -/

/-- The text behind the end of a comment, if it has an end. -/
def afterComment : Bytes → Option Bytes
  | [] => none
  | [_] => none
  | c :: e :: s => if c = 0x2a ∧ e = 0x2f then some s else afterComment (e :: s)

def skipStep (s : Bytes) : Option Bytes :=
  match s with
  | [] => none
  | c :: r =>
    if isBlank c then some r
    else if c = 0x0a then if d.semicolonRequired then some r else none
    else if startsLineComment d s then some (s.dropWhile (· ≠ 0x0a))
    else if startsBlockComment d s then afterComment (s.drop 2)
    else none

/-- The second text comes from the first by skipping blanks and comments. -/
inductive Skips : Bytes → Bytes → Prop where
  | refl (s : Bytes) : Skips s s
  | step {s t r : Bytes} : skipStep d s = some t → Skips t r → Skips s r

section Skips

variable {d} {s t r : Bytes}

theorem afterComment_length : ∀ {s t : Bytes}, afterComment s = some t → t.length < s.length
  | [], _, h => by cases h
  | [_], _, h => by cases h
  | c :: e :: s, t, h => by
    rw [afterComment] at h
    split at h
    · obtain rfl := Option.some.inj h
      rw [List.length_cons, List.length_cons]
      omega
    · have hlt := afterComment_length h
      rw [List.length_cons]
      omega

theorem startsLineComment_head {c : UInt8} (h : startsLineComment d (c :: s) = true) : c ≠ 0x0a := by
  rintro rfl
  simp [startsLineComment, List.isPrefixOf] at h

theorem length_dropWhile_lt {c : UInt8} (h : c ≠ 0x0a) :
    ((c :: s).dropWhile (· ≠ 0x0a)).length < (c :: s).length := by
  rw [List.dropWhile_cons_of_pos (by simpa using h), List.length_cons]
  exact Nat.lt_succ_of_le (List.dropWhile_sublist _).length_le

theorem skipStep_length (h : skipStep d s = some t) : t.length < s.length := by
  unfold skipStep at h
  split at h
  · cases h
  · rename_i c r
    split at h
    · obtain rfl := Option.some.inj h
      exact Nat.lt_succ_self _
    split at h
    · split at h
      · obtain rfl := Option.some.inj h
        exact Nat.lt_succ_self _
      · cases h
    split at h
    · rename_i hcomment
      obtain rfl := Option.some.inj h
      exact length_dropWhile_lt (startsLineComment_head hcomment)
    split at h
    · have hlt := afterComment_length h
      rw [List.length_drop] at hlt
      omega
    · cases h

theorem Skips.length_le (h : Skips d s t) : t.length ≤ s.length := by
  induction h with
  | refl => exact le_refl _
  | step hstep _ ih => exact ih.trans (skipStep_length hstep).le

/-- Of two texts that come from one, where nothing more is skipped from the second, this comes from the first. -/
theorem Skips.confluent (h : Skips d s t) (h' : Skips d s r) (hstuck : skipStep d r = none) : Skips d t r := by
  induction h with
  | refl => exact h'
  | step hstep _ ih =>
    cases h' with
    | refl =>
      rw [hstuck] at hstep
      cases hstep
    | step hstep' h'' =>
      obtain rfl := Option.some.inj (hstep.symm.trans hstep')
      exact ih h''

theorem skipBlock_suffix : ∀ (s : Bytes) (line col : ℕ), (skipBlock s line col).rest <:+ s
  | [], _, _ => List.suffix_refl _
  | [_], _, _ => List.suffix_refl _
  | c :: e :: s, line, col => by
    rw [skipBlock]
    split
    · exact (List.suffix_cons e s).trans (List.suffix_cons c _)
    · split
      · exact (skipBlock_suffix (e :: s) _ _).trans (List.suffix_cons c _)
      · exact (skipBlock_suffix (e :: s) _ _).trans (List.suffix_cons c _)

theorem skipBlock_some : ∀ {s t : Bytes} (line col : ℕ), afterComment s = some t →
    (skipBlock s line col).rest = t ∧ (skipBlock s line col).torn = false
  | [], _, _, _, h => by cases h
  | [_], _, _, _, h => by cases h
  | c :: e :: s, t, line, col, h => by
    rw [afterComment] at h
    rw [skipBlock]
    by_cases hend : c = 0x2a ∧ e = 0x2f
    · rw [if_pos hend] at h
      rw [if_pos hend]
      exact ⟨Option.some.inj h, rfl⟩
    · rw [if_neg hend] at h
      rw [if_neg hend]
      split
      · exact skipBlock_some _ _ h
      · exact skipBlock_some _ _ h

theorem skipBlock_none : ∀ {s : Bytes} (line col : ℕ), afterComment s = none →
    (skipBlock s line col).rest.length ≤ 1 ∧ (skipBlock s line col).torn = true
  | [], _, _, _ => ⟨Nat.zero_le _, rfl⟩
  | [_], _, _, _ => ⟨le_refl _, rfl⟩
  | c :: e :: s, line, col, h => by
    rw [afterComment] at h
    rw [skipBlock]
    by_cases hend : c = 0x2a ∧ e = 0x2f
    · rw [if_pos hend] at h
      cases h
    · rw [if_neg hend] at h
      rw [if_neg hend]
      split
      · exact skipBlock_none _ _ h
      · exact skipBlock_none _ _ h

/-- From `u` to `v`, blanks and comments have been skipped; if there was a comment without end, some of it is left. -/
structure Skipped (d : Dialect) (u v : Cursor) : Prop where
  suffix : v.rest <:+ u.rest
  torn : u.torn = true → v.torn = true
  clean : v.torn = false → Skips d u.rest v.rest ∧ skipStep d v.rest = none
  unclosed : u.torn = false → v.torn = true →
    ∃ w, Skips d u.rest w ∧ skipStep d w = none ∧ v.rest.length < w.length

namespace Skipped

variable {u v w : Cursor}

theorem stop (h : skipStep d u.rest = none) : Skipped d u u :=
  ⟨List.suffix_refl _, id, fun _ => ⟨.refl _, h⟩, fun hfalse htrue => by rw [hfalse] at htrue; cases htrue⟩

theorem after (h : Skipped d w v) (hsuffix : w.rest <:+ u.rest) (hstep : skipStep d u.rest = some w.rest)
    (htorn : w.torn = u.torn) : Skipped d u v := by
  refine ⟨h.suffix.trans hsuffix, fun hu => h.torn (htorn.trans hu), fun hv => ?_, fun hu hv => ?_⟩
  · obtain ⟨hskips, hstuck⟩ := h.clean hv
    exact ⟨.step hstep hskips, hstuck⟩
  · obtain ⟨x, hskips, hstuck, hlength⟩ := h.unclosed (htorn.trans hu) hv
    exact ⟨x, .step hstep hskips, hstuck, hlength⟩

theorem afterTear (h : Skipped d w v) (hsuffix : w.rest <:+ u.rest) (hstuck : skipStep d u.rest = none)
    (htorn : w.torn = true) (hlength : w.rest.length < u.rest.length) : Skipped d u v := by
  have hv := h.torn htorn
  refine ⟨h.suffix.trans hsuffix, fun _ => hv, fun hfalse => ?_, fun _ _ => ?_⟩
  · rw [hv] at hfalse
    cases hfalse
  · exact ⟨u.rest, .refl _, hstuck, h.suffix.length_le.trans_lt hlength⟩

end Skipped

theorem skipStep_blank {c : UInt8} (h : isBlank c = true) : skipStep d (c :: s) = some s := if_pos h

theorem skipStep_newline {c : UInt8} (hblank : isBlank c = false) (hc : c = 0x0a) :
    skipStep d (c :: s) = if d.semicolonRequired then some s else none :=
  (if_neg (by simp [hblank])).trans (if_pos hc)

theorem skipStep_comment {c : UInt8} (hblank : isBlank c = false) (hc : c ≠ 0x0a) :
    skipStep d (c :: s) = if startsLineComment d (c :: s) then some ((c :: s).dropWhile (· ≠ 0x0a))
      else if startsBlockComment d (c :: s) then afterComment ((c :: s).drop 2) else none :=
  (if_neg (by simp [hblank])).trans (if_neg hc)

theorem length_of_startsBlockComment (h : startsBlockComment d s = true) : 2 ≤ s.length := by
  have hfront := List.isPrefixOf_iff_prefix.mp (Bool.and_eq_true_iff.mp h).2
  exact hfront.length_le

/-- **What `skip_whitespace` does**, if it may go on long enough. -/
theorem skipWhitespace_skipped : ∀ (n : ℕ) (u : Cursor), u.rest.length ≤ n → Skipped d u (skipWhitespace d n u)
  | 0, u, hn => by
    have hnil : u.rest = [] := List.length_eq_zero_iff.mp (Nat.le_zero.mp hn)
    exact .stop (by rw [hnil]; rfl)
  | n + 1, u, hn => by
    obtain ⟨rest, line, col, torn⟩ := u
    rw [skipWhitespace]
    cases rest with
    | nil => exact .stop rfl
    | cons c s =>
      have hs : s.length ≤ n := Nat.le_of_succ_le_succ hn
      dsimp only
      by_cases hblank : isBlank c = true
      · rw [if_pos hblank]
        exact (skipWhitespace_skipped n _ hs).after (List.suffix_cons c s) (skipStep_blank hblank) rfl
      rw [if_neg hblank]
      have hblank : isBlank c = false := by simpa using hblank
      by_cases hc : c = 0x0a
      · have hstep := skipStep_newline (d := d) (s := s) hblank hc
        rw [if_pos hc]
        by_cases hsemicolon : d.semicolonRequired = true
        · rw [if_pos hsemicolon] at hstep ⊢
          exact (skipWhitespace_skipped n _ hs).after (List.suffix_cons c s) hstep rfl
        · rw [if_neg hsemicolon] at hstep ⊢
          exact .stop hstep
      rw [if_neg hc]
      have hstep := skipStep_comment (d := d) (s := s) hblank hc
      by_cases hline : startsLineComment d (c :: s) = true
      · rw [if_pos hline] at hstep ⊢
        have hlt := length_dropWhile_lt (s := s) hc
        exact (skipWhitespace_skipped n _ (Nat.le_of_lt_succ (hlt.trans_le hn))).after (List.dropWhile_suffix _) hstep rfl
      rw [if_neg hline] at hstep ⊢
      by_cases hblock : startsBlockComment d (c :: s) = true
      · rw [if_pos hblock] at hstep ⊢
        have hlength := length_of_startsBlockComment hblock
        have hsuffix : (skipBlock ((c :: s).drop 2) line col).rest <:+ c :: s :=
          (skipBlock_suffix _ _ _).trans (List.drop_suffix 2 _)
        have hshorter := (skipBlock_suffix ((c :: s).drop 2) line col).length_le
        rw [List.length_drop] at hshorter
        have hnext := skipWhitespace_skipped n
          { skipBlock ((c :: s).drop 2) line col with torn := torn || (skipBlock ((c :: s).drop 2) line col).torn }
          (by dsimp only at hn ⊢; omega)
        cases hafter : afterComment ((c :: s).drop 2) with
        | some t =>
          obtain ⟨hrest, hclosed⟩ := skipBlock_some line col hafter
          rw [hafter] at hstep
          exact hnext.after hsuffix (by rw [hstep, hrest]) (by rw [hclosed, Bool.or_false])
        | none =>
          obtain ⟨hrest, hopen⟩ := skipBlock_none line col hafter
          rw [hafter] at hstep
          exact hnext.afterTear hsuffix hstep (by rw [hopen, Bool.or_true]) (by dsimp only; omega)
      · rw [if_neg hblock] at hstep ⊢
        exact .stop hstep

end Skips

/-! ## What is read -/

/-- The characters of a token, where `rest` lies behind it. -/
def Token.Spells (d : Dialect) (t : Token) (raw rest : Bytes) : Prop :=
  match t.type with
  | .string => ∃ q, (q = 0x22 ∨ q = 0x27) ∧ (raw = q :: (t.text ++ [q]) ∨ (raw = q :: t.text ∧ rest = []))
  | .ident => raw = t.text ∨ ∃ c, d.varPrefix = some c ∧ raw = c :: t.text
  | _ => raw = t.text

/-- What one token takes from the source: its characters, and the cursor behind them. -/
structure Takes (d : Dialect) (u : Cursor) (r : Option Token × Cursor) : Prop where
  torn : r.2.torn = u.torn
  shorter : r.2.rest.length < u.rest.length
  suffix : r.2.rest <:+ u.rest
  token : ∀ t, r.1 = some t → t.type ≠ .eof ∧ t.type ≠ .neq ∧ ∃ raw, u.rest = raw ++ r.2.rest ∧ t.Spells d raw r.2.rest

section Reads

variable {d} {strtod} {u : Cursor} {c : UInt8} {s rest : Bytes}

theorem take_append_of_suffix {l : Bytes} (h : rest <:+ l) : l.take (l.length - rest.length) ++ rest = l := by
  obtain ⟨pre, rfl⟩ := h
  rw [List.length_append, Nat.add_sub_cancel, List.take_left]

theorem takes_text {type : TokenType} {num : UInt64} {col : ℕ} {line : ℕ} (hrest : u.rest = c :: s)
    (hsuffix : rest <:+ c :: s) (hshorter : rest.length < (c :: s).length) (heof : type ≠ .eof) (hneq : type ≠ .neq)
    (hstring : type ≠ .string) : Takes d u (some ⟨type, (c :: s).take ((c :: s).length - rest.length), u.line, u.col, num⟩,
      { u with rest := rest, line := line, col := col }) := by
  refine ⟨rfl, by rw [hrest]; exact hshorter, by rw [hrest]; exact hsuffix, fun t ht => ?_⟩
  obtain rfl := Option.some.inj ht
  refine ⟨heof, hneq, _, by rw [hrest]; exact (take_append_of_suffix hsuffix).symm, ?_⟩
  unfold Token.Spells
  split
  · rename_i htype
    exact absurd htype hstring
  · exact Or.inl rfl
  · rfl

theorem takeIf_suffix (f : UInt8 → Bool) (s : Bytes) : (takeIf f s).2 <:+ s := by
  cases s with
  | nil => exact List.suffix_refl _
  | cons c s =>
    rw [takeIf]
    split
    · exact List.suffix_cons c s
    · exact List.suffix_refl _

theorem takeFraction_suffix (s : Bytes) : (takeFraction s).2 <:+ s := by
  unfold takeFraction
  dsimp only
  split
  · exact takeIf_suffix _ s
  · exact (List.dropWhile_suffix _).trans (takeIf_suffix _ s)

theorem takeExponent_suffix (s : Bytes) : (takeExponent s).2 <:+ s := by
  unfold takeExponent
  dsimp only
  split
  · exact takeIf_suffix _ s
  · exact ((List.dropWhile_suffix _).trans (takeIf_suffix _ _)).trans (takeIf_suffix _ s)

theorem numberRest_suffix (s : Bytes) : numberRest s <:+ s :=
  ((takeExponent_suffix _).trans (takeFraction_suffix _)).trans (List.dropWhile_suffix _)

theorem numberRest_length (h : startsNumber (c :: s) = true) : (numberRest (c :: s)).length < (c :: s).length := by
  have hsuffix : ∀ {t : Bytes}, t <:+ s → (takeExponent (takeFraction t).2).2.length < (c :: s).length := fun ht =>
    Nat.lt_succ_of_le (((takeExponent_suffix _).trans (takeFraction_suffix _)).trans ht).length_le
  unfold numberRest
  by_cases hdigit : isDigit c = true
  · rw [List.dropWhile_cons_of_pos hdigit]
    exact hsuffix (List.dropWhile_suffix _)
  · -- the point is taken
    have hpoint : c = 0x2e := by
      simpa [startsNumber, hdigit] using (Bool.or_eq_true_iff.mp h).elim (fun h => absurd h (by simpa using hdigit))
        fun h => (Bool.and_eq_true_iff.mp h).1
    subst hpoint
    rw [List.dropWhile_cons_of_neg hdigit]
    have hfraction : (takeFraction (0x2e :: s)).2 <:+ s := by
      show (if ([0x2e] : Bytes) = [] then ([], s) else _).2 <:+ s
      rw [if_neg (List.cons_ne_nil _ _)]
      exact List.dropWhile_suffix _
    exact Nat.lt_succ_of_le ((takeExponent_suffix _).trans hfraction).length_le

theorem readString_spec (q : UInt8) : ∀ (s : Bytes) (line col : ℕ), s = (readString q s line col).1 ++
    (readString q s line col).2.1 ∧ ((readString q s line col).2.1 = [] ∨
      ∃ r, (readString q s line col).2.1 = q :: r)
  | [], _, _ => ⟨rfl, Or.inl rfl⟩
  | [c], line, col => by
    rw [readString]
    split
    · rename_i hc
      exact ⟨rfl, Or.inr ⟨[], by rw [hc]⟩⟩
    · split
      · exact ⟨rfl, Or.inl rfl⟩
      · exact ⟨rfl, Or.inl rfl⟩
  | c :: e :: s, line, col => by
    rw [readString]
    split
    · rename_i hc
      exact ⟨rfl, Or.inr ⟨e :: s, by rw [hc]⟩⟩
    split
    · obtain ⟨happend, hquote⟩ := readString_spec q s line (col + 2)
      exact ⟨congrArg (fun t => c :: e :: t) happend, hquote⟩
    split
    · obtain ⟨happend, hquote⟩ := readString_spec q (e :: s) (line + 1) 1
      exact ⟨congrArg (List.cons c) happend, hquote⟩
    · obtain ⟨happend, hquote⟩ := readString_spec q (e :: s) line (col + 1)
      exact ⟨congrArg (List.cons c) happend, hquote⟩

theorem isIdentChar_of_start (h : isIdentStart c = true) : isIdentChar c = true := by
  rcases Bool.or_eq_true_iff.mp h with hc | hc
  · simp [isIdentChar, hc]
  · simp [isIdentChar, hc]

theorem wordType_ne {word : Bytes} {type : TokenType} (h : wordType word = some type) :
    type ≠ .eof ∧ type ≠ .neq ∧ type ≠ .string := by
  unfold wordType at h
  split_ifs at h <;> (obtain rfl := Option.some.inj h; simp)

theorem laterWordType_ne {word : Bytes} {type : TokenType} (h : laterWordType word = some type) :
    type ≠ .eof ∧ type ≠ .neq ∧ type ≠ .string := by
  unfold laterWordType at h
  split_ifs at h <;> (obtain rfl := Option.some.inj h; simp)

theorem readWord_spec (h : isIdentStart c = true) : (readWord d (c :: s)).2 <+: c :: s ∧ (readWord d (c :: s)).2 ≠ [] ∧
    (readWord d (c :: s)).1 ≠ .eof ∧ (readWord d (c :: s)).1 ≠ .neq ∧ (readWord d (c :: s)).1 ≠ .string := by
  have hc := isIdentChar_of_start h
  have hfront : (c :: s).takeWhile isIdentChar <+: c :: s := List.takeWhile_prefix _
  have hne : (c :: s).takeWhile isIdentChar ≠ [] := by
    rw [List.takeWhile_cons_of_pos hc]
    exact List.cons_ne_nil _ _
  unfold readWord
  dsimp only
  cases htype : wordType ((c :: s).takeWhile isIdentChar) with
  | some type => exact ⟨hfront, hne, wordType_ne htype⟩
  | none =>
    dsimp only
    split
    · exact ⟨hfront, hne, by simp⟩
    · cases hlater : laterWordType ((c :: s).takeWhile isIdentChar) with
      | some type => exact ⟨hfront, hne, laterWordType_ne hlater⟩
      | none =>
        dsimp only
        cases hprint : printKeyword d (c :: s) with
        | none => exact ⟨hfront, hne, by simp⟩
        | some keyword =>
          have hfound : keywordMatch (c :: s) keyword = true := List.find?_some hprint
          have hmatch := Bool.and_eq_true_iff.mp hfound
          refine ⟨List.isPrefixOf_iff_prefix.mp hmatch.1, ?_, by simp⟩
          rintro rfl
          simp [hc] at hmatch

def Mark (s : Bytes) (r : Option (TokenType × Bytes)) : Prop :=
  ∀ type rest, r = some (type, rest) → rest <:+ s ∧ type ≠ .eof ∧ type ≠ .neq ∧ type ≠ .string

theorem mark_ite {P : Prop} [Decidable P] {x y : Option (TokenType × Bytes)} (hx : Mark s x) (hy : Mark s y) :
    Mark s (if P then x else y) := by
  split
  · exact hx
  · exact hy

theorem mark_none : Mark s none := fun _ _ h => by cases h

theorem mark_some {type : TokenType} (hsuffix : rest <:+ s) (h : type ≠ .eof ∧ type ≠ .neq ∧ type ≠ .string) :
    Mark s (some (type, rest)) := fun _ _ heq => by
  obtain ⟨rfl, rfl⟩ := Prod.mk.inj (Option.some.inj heq)
  exact ⟨hsuffix, h⟩

theorem mark_readSymbol : Mark s (readSymbol d c s) := by
  have hself : s <:+ s := List.suffix_refl s
  have htail : s.tail <:+ s := List.tail_suffix s
  unfold readSymbol
  repeat' refine mark_ite ?_ ?_
  all_goals first | exact mark_none | exact mark_some hself (by simp) | exact mark_some htail (by simp)

/-- **What a token takes from the source.** -/
theorem readToken_takes (hrest : u.rest = c :: s) : Takes d u (readToken d strtod u c s) := by
  unfold readToken
  -- the tests in the order of the tokenizer
  by_cases hnewline : d.semicolonRequired = false ∧ c = 0x0a
  · rw [if_pos hnewline]
    have htext := @takes_text d u _ _ _ .newline 0 1 (u.line + 1) hrest (List.suffix_cons c s) (Nat.lt_succ_self _)
      (by simp) (by simp) (by simp)
    rwa [List.length_cons, Nat.add_sub_cancel_left, List.take_succ_cons, List.take_zero] at htext
  rw [if_neg hnewline]
  by_cases hnumber : startsNumber (c :: s) = true
  · rw [if_pos hnumber]
    exact takes_text hrest (numberRest_suffix _) (numberRest_length hnumber) (by simp) (by simp) (by simp)
  rw [if_neg hnumber]
  by_cases hquote : c = 0x22 ∨ c = 0x27
  · rw [if_pos hquote]
    obtain ⟨happend, hend⟩ := readString_spec c s u.line (u.col + 1)
    generalize readString c s u.line (u.col + 1) = r at happend hend
    obtain ⟨text, r, line, col⟩ := r
    dsimp only at happend hend ⊢
    have htail : r.tail <:+ s := (List.tail_suffix r).trans (happend ▸ List.suffix_append text r)
    refine ⟨rfl, by rw [hrest]; exact Nat.lt_succ_of_le htail.length_le,
      by rw [hrest]; exact htail.trans (List.suffix_cons c s), fun t ht => ?_⟩
    obtain rfl := Option.some.inj ht
    refine ⟨by simp, by simp, ?_⟩
    -- a string may end with the source, without its quote
    rcases hend with rfl | ⟨r, rfl⟩
    · exact ⟨c :: text, by rw [hrest, happend]; simp, c, hquote, Or.inr ⟨rfl, rfl⟩⟩
    · exact ⟨c :: (text ++ [c]), by rw [hrest, happend]; simp, c, hquote, Or.inl rfl⟩
  rw [if_neg hquote]
  by_cases hfront : d.varPrefix = some c
  · rw [if_pos hfront]
    have hsuffix : s.dropWhile isIdentChar <:+ s := List.dropWhile_suffix _
    refine ⟨rfl, by rw [hrest]; exact Nat.lt_succ_of_le hsuffix.length_le,
      by rw [hrest]; exact hsuffix.trans (List.suffix_cons c s), fun t ht => ?_⟩
    obtain rfl := Option.some.inj ht
    refine ⟨by simp, by simp, c :: s.takeWhile isIdentChar, ?_, Or.inr ⟨c, hfront, rfl⟩⟩
    rw [hrest, List.cons_append, List.takeWhile_append_dropWhile]
  rw [if_neg hfront]
  by_cases hstart : isIdentStart c = true
  · rw [if_pos hstart]
    obtain ⟨hword, hne, heof, hneq, hstring⟩ := readWord_spec (d := d) (s := s) hstart
    generalize readWord d (c :: s) = word at hword hne heof hneq hstring
    obtain ⟨type, text⟩ := word
    dsimp only at hword hne heof hneq hstring ⊢
    obtain ⟨tail, htail⟩ := hword
    have hpos := List.length_pos_iff.mpr hne
    have hdrop : (c :: s).drop text.length = tail := by rw [← htail, List.drop_left]
    have htake : (c :: s).take ((c :: s).length - tail.length) = text := by
      rw [← htail, List.length_append, Nat.add_sub_cancel, List.take_left]
    have hlength : tail.length < (c :: s).length := by
      rw [← htail, List.length_append]
      omega
    have htext := @takes_text d u _ _ _ type 0 (u.col + text.length) u.line hrest ⟨text, htail⟩ hlength heof hneq
      hstring
    rwa [htake, ← hdrop] at htext
  rw [if_neg hstart]
  cases hsymbol : readSymbol d c s with
  | none =>
    exact ⟨rfl, by rw [hrest]; exact Nat.lt_succ_self _, by rw [hrest]; exact List.suffix_cons c s, fun t ht => by cases ht⟩
  | some r =>
    obtain ⟨type, rest⟩ := r
    obtain ⟨hsuffix, heof, hneq, hstring⟩ := mark_readSymbol type rest hsymbol
    exact takes_text hrest (hsuffix.trans (List.suffix_cons c s)) (Nat.lt_succ_of_le hsuffix.length_le) heof hneq hstring

end Reads

/-! ## All the tokens -/

/-- From this cursor on, the tokenizer reads these tokens up to the end of the source, and all that it passes over are
blanks and comments. -/
inductive Covered : Cursor → List Token → Prop where
  | last {t u : Cursor} {e : Token} : tokenizeOne d strtod t = (some e, u) → e.type = .eof → Skips d t.rest [] →
      Covered t [e]
  | token {t u : Cursor} {tok : Token} {raw : Bytes} {ts : List Token} : tokenizeOne d strtod t = (some tok, u) →
      tok.type ≠ .eof → (skipWhitespace d t.rest.length t).rest = raw ++ u.rest → Skips d t.rest (raw ++ u.rest) →
      tok.Spells d raw u.rest → Covered u ts → Covered t (tok :: ts)

section Lexemes

variable {d} {strtod} {t u : Cursor}

theorem tokenizeOne_cases (t : Cursor) :
    ((skipWhitespace d t.rest.length t).rest = [] ∧
      ∃ e, e.type = TokenType.eof ∧ tokenizeOne d strtod t = (some e, skipWhitespace d t.rest.length t)) ∨
      Takes d (skipWhitespace d t.rest.length t) (tokenizeOne d strtod t) := by
  unfold tokenizeOne
  cases hrest : (skipWhitespace d t.rest.length t).rest with
  | nil =>
    simp only [hrest]
    exact Or.inl ⟨trivial, _, rfl, rfl⟩
  | cons c s =>
    simp only [hrest]
    exact Or.inr (readToken_takes hrest)

theorem tokenizeOne_skipped (t : Cursor) : Skipped d t (skipWhitespace d t.rest.length t) :=
  skipWhitespace_skipped _ t (le_refl _)

theorem tokenizeOne_takes {r : Option Token} (h : tokenizeOne d strtod t = (r, u)) (heof : ∀ e, r = some e → e.type ≠ .eof) :
    Takes d (skipWhitespace d t.rest.length t) (r, u) ∧ u.rest.length < t.rest.length := by
  rcases @tokenizeOne_cases d strtod t with ⟨-, e, he, hone⟩ | htakes
  · obtain ⟨rfl, -⟩ := Prod.mk.inj (h.symm.trans hone)
    exact absurd he (heof e rfl)
  · rw [h] at htakes
    exact ⟨htakes, htakes.shorter.trans_le (tokenizeOne_skipped t).suffix.length_le⟩

theorem tokenizeOne_eof {e : Token} (h : tokenizeOne d strtod t = (some e, u)) (heof : e.type = .eof) :
    u = skipWhitespace d t.rest.length t ∧ u.rest = [] := by
  rcases @tokenizeOne_cases d strtod t with ⟨hnil, e', -, hone⟩ | htakes
  · obtain ⟨-, rfl⟩ := Prod.mk.inj (h.symm.trans hone)
    exact ⟨rfl, hnil⟩
  · rw [h] at htakes
    exact absurd heof (htakes.token e rfl).1

/-- What the list of lexemes looks like: its tokens, and the end of the source behind them. -/
theorem lexemes_shape : ∀ (n : ℕ) (t : Cursor), t.rest.length < n → ∃ xs e, (lexemes d strtod n t).1 = xs ++ [some e] ∧
    e.type = .eof ∧ ∀ x, some x ∈ xs → x.type ≠ .eof ∧ x.type ≠ .neq
  | 0, _, hn => absurd hn (Nat.not_lt_zero _)
  | n + 1, t, hn => by
    rw [lexemes]
    cases hone : tokenizeOne d strtod t with
    | mk r u =>
      cases r with
      | none =>
        obtain ⟨-, hlength⟩ := tokenizeOne_takes hone fun _ h => by cases h
        obtain ⟨xs, e, hxs, he, hall⟩ := lexemes_shape n u (by omega)
        refine ⟨none :: xs, e, congrArg (List.cons none) hxs, he, fun x hx => hall x ?_⟩
        exact (List.mem_cons.mp hx).resolve_left fun h => by cases h
      | some tok =>
        dsimp only
        by_cases heof : tok.type = .eof
        · rw [if_pos heof]
          exact ⟨[], tok, rfl, heof, fun x hx => by cases hx⟩
        · rw [if_neg heof]
          obtain ⟨htakes, hlength⟩ := tokenizeOne_takes hone fun e h => by
            obtain rfl := Option.some.inj h
            exact heof
          obtain ⟨xs, e, hxs, he, hall⟩ := lexemes_shape n u (by omega)
          refine ⟨some tok :: xs, e, congrArg (List.cons _) hxs, he, fun x hx => ?_⟩
          rcases List.mem_cons.mp hx with hsame | hx
          · obtain rfl := Option.some.inj hsame
            exact ⟨heof, (htakes.token x rfl).2.1⟩
          · exact hall x hx

theorem lexemes_torn : ∀ (n : ℕ) (t : Cursor), t.torn = true → (lexemes d strtod n t).2 = true
  | 0, _, h => h
  | n + 1, t, h => by
    have hskipped := (tokenizeOne_skipped (d := d) t).torn h
    have hu : (tokenizeOne d strtod t).2.torn = true := by
      rcases @tokenizeOne_cases d strtod t with ⟨-, e, -, hone⟩ | htakes
      · rw [hone]
        exact hskipped
      · rw [htakes.torn]
        exact hskipped
    rw [lexemes]
    cases hone : tokenizeOne d strtod t with
    | mk r u =>
      rw [hone] at hu
      cases r with
      | none => exact lexemes_torn n u hu
      | some tok =>
        dsimp only
        split
        · exact hu
        · exact lexemes_torn n u hu

/-- **A source is covered** exactly if it has no unexpected character and no comment without end. -/
theorem covered_iff : ∀ (n : ℕ) (t : Cursor), t.rest.length < n → t.torn = false → ∀ ts,
    Covered d strtod t ts ↔ (lexemes d strtod n t).1 = ts.map some ∧ (lexemes d strtod n t).2 = false
  | 0, _, hn, _, _ => absurd hn (Nat.not_lt_zero _)
  | n + 1, t, hn, htorn, ts => by
    have hskipped := tokenizeOne_skipped (d := d) t
    rw [lexemes]
    cases hone : tokenizeOne d strtod t with
    | mk r u =>
      -- a comment without end would have to be skipped
      have hclosed : ∀ s, Skips d t.rest s → s.length ≤ (skipWhitespace d t.rest.length t).rest.length →
          (skipWhitespace d t.rest.length t).torn = false := fun s hs hlength => by
        by_contra hopen
        obtain ⟨w, hw, hstuck, hlt⟩ := hskipped.unclosed htorn (by simpa using hopen)
        have hle := (hs.confluent hw hstuck).length_le
        omega
      cases r with
      | none =>
        refine iff_of_false (fun h => ?_) fun h => ?_
        · cases h with
          | last hlast => rw [hone] at hlast; cases hlast
          | token htoken => rw [hone] at htoken; cases htoken
        · cases ts with
          | nil => cases h.1
          | cons tok ts => cases h.1
      | some tok =>
        dsimp only
        by_cases heof : tok.type = .eof
        · obtain ⟨rfl, hnil⟩ := tokenizeOne_eof hone heof
          rw [if_pos heof]
          constructor
          · intro h
            cases h with
            | last hlast _ hskips =>
              obtain ⟨hsame, -⟩ := Prod.mk.inj (hone.symm.trans hlast)
              obtain rfl := Option.some.inj hsame
              exact ⟨rfl, hclosed [] hskips (Nat.zero_le _)⟩
            | token htoken hne =>
              obtain ⟨hsame, -⟩ := Prod.mk.inj (hone.symm.trans htoken)
              obtain rfl := Option.some.inj hsame
              exact absurd heof hne
          · rintro ⟨hts, hclean⟩
            obtain rfl : ts = [tok] := (List.map_injective_iff.mpr (Option.some_injective _)) hts.symm
            have hskips := (hskipped.clean hclean).1
            rw [hnil] at hskips
            exact .last hone heof hskips
        · obtain ⟨htakes, hlength⟩ := tokenizeOne_takes hone fun e h => by
            obtain rfl := Option.some.inj h
            exact heof
          obtain ⟨-, -, raw, hraw, hspells⟩ := htakes.token tok rfl
          have hutorn : u.torn = (skipWhitespace d t.rest.length t).torn := htakes.torn
          rw [if_neg heof]
          constructor
          · intro h
            cases h with
            | last hlast heof' =>
              obtain ⟨hsame, -⟩ := Prod.mk.inj (hone.symm.trans hlast)
              obtain rfl := Option.some.inj hsame
              exact absurd heof' heof
            | token htoken _ hstart hskips _ hrest =>
              obtain ⟨hsame, rfl⟩ := Prod.mk.inj (hone.symm.trans htoken)
              obtain rfl := Option.some.inj hsame
              have hclean := hclosed _ hskips (by rw [hstart])
              obtain ⟨hlist, hend⟩ := (covered_iff n u (by omega) (hutorn.trans hclean) _).mp hrest
              exact ⟨congrArg (List.cons _) hlist, hend⟩
          · rintro ⟨hts, hclean⟩
            cases ts with
            | nil => cases hts
            | cons tok' ts =>
              obtain ⟨hsame, hlist⟩ := List.cons.inj hts
              obtain rfl := Option.some.inj hsame
              have hu : u.torn = false := by
                by_contra hopen
                have hlost := @lexemes_torn d strtod n u (by simpa using hopen)
                rw [hclean] at hlost
                cases hlost
              have hskips := (hskipped.clean (hutorn.symm.trans hu)).1
              rw [hraw] at hskips
              exact .token hone heof hraw hskips hspells ((covered_iff n u (by omega) hu ts).mpr ⟨hlist, hclean⟩)

end Lexemes

/-! ## Sources -/

def tokensOf (source : Bytes) : List Token := (lexemesOf d strtod source).1.filterMap id

/-- The source is covered by its tokens, and the tree shows them all, in their order. -/
structure Complete (source : Bytes) (stmts : List Ast) : Prop where
  covered : Covered d strtod (tokenizerInit d source) (tokensOf d strtod source)
  items : Ast.itemsAll stmts = Parser.itemsOf (tokensOf d strtod source)

/-- **Nothing is lost or invented**: the source is parsed completely, or an error is reported. -/
def NothingLost (source : Bytes) : Prop :=
  ∃ stmts q, parseSource d strtod source = .done (.block stmts, q) ∧
    (q.error.isSome = true ∨ Complete d strtod source stmts)

def parseAll (source : Bytes) : Parsed := do
  let lexemes := (lexemesOf d strtod source).1
  let p ← parserInit lexemes
  parseProgram d (parseFuel lexemes) p

/-- Nothing is met that the parser passes over in silence: the source starts with a token, and its nodes fit into the
arena; and unless an error is reported, there is no unexpected character, no comment without end, and room for every
item. -/
def Undisturbed (source : Bytes) : Prop :=
  ∃ stmts q, parseAll d strtod source = .done (.block stmts, q) ∧ q.used ≤ arenaSize ∧
    (q.error.isSome = true ∨
      (none ∉ (lexemesOf d strtod source).1 ∧ (lexemesOf d strtod source).2 = false ∧ q.dropped = 0))

section Sources

variable {d} {strtod} {source : Bytes} {stmts : List Ast} {q : Parser}

theorem tokenizerInit_spec (source : Bytes) : (tokenizerInit d source).torn = false ∧
    (tokenizerInit d source).rest.length < (cString source).length + 1 := by
  unfold tokenizerInit
  split
  · exact ⟨rfl, Nat.lt_succ_self _⟩
  · split
    · refine ⟨rfl, Nat.lt_succ_of_le ?_⟩
      rw [List.length_drop]
      exact Nat.sub_le _ _
    · exact ⟨rfl, Nat.lt_succ_self _⟩

theorem lexemesOf_shape (source : Bytes) : ∃ xs e, (lexemesOf d strtod source).1 = xs ++ [some e] ∧ e.type = .eof ∧
    ∀ x, some x ∈ xs → x.type ≠ .eof ∧ x.type ≠ .neq :=
  lexemes_shape _ _ (tokenizerInit_spec source).2

theorem map_some_filterMap {l : List (Option Token)} (h : none ∉ l) : l = (l.filterMap id).map some := by
  induction l with
  | nil => rfl
  | cons x l ih =>
    cases x with
    | none => exact absurd List.mem_cons_self h
    | some t => exact congrArg (List.cons (some t)) (ih fun hmem => h (List.mem_cons_of_mem _ hmem))

theorem covered_tokensOf : Covered d strtod (tokenizerInit d source) (tokensOf d strtod source) ↔
    none ∉ (lexemesOf d strtod source).1 ∧ (lexemesOf d strtod source).2 = false := by
  obtain ⟨htorn, hlength⟩ := tokenizerInit_spec (d := d) source
  rw [covered_iff _ _ hlength htorn]
  refine and_congr_left fun _ => ⟨fun h hmem => ?_, map_some_filterMap⟩
  have hlist : (lexemesOf d strtod source).1 = (tokensOf d strtod source).map some := h
  rw [hlist] at hmem
  obtain ⟨t, -, ht⟩ := List.mem_map.mp hmem
  cases ht

/-- **A source that starts with a token is parsed**, and its tree is made of what has been read. -/
theorem parseAll_builds {t : Token} {rest : List (Option Token)} (h : (lexemesOf d strtod source).1 = some t :: rest) :
    ∃ stmts q, parseAll d strtod source = .done (.block stmts, q) ∧
      Builds ⟨t, rest, none, 0, 0⟩ q (Ast.itemsAll stmts) (Ast.block stmts).cost (Ast.OrdinaryAll stmts) ∧
      (q.error = none → q.current.type = .eof) := by
  obtain ⟨xs, e, hxs, he, -⟩ := @lexemesOf_shape d strtod source
  have hends : Parser.Ends ⟨t, rest, none, 0, 0⟩ := by
    refine ⟨e, he, ?_⟩
    show (some t :: rest).getLast? = _
    rw [← h, hxs, List.getLast?_concat]
  obtain ⟨stmts, q, hparse, hbuilds, heof⟩ := parseProgram_builds (d := d) (n := parseFuel (some t :: rest)) hends
    (by show 2 * rest.length + 4 ≤ 2 * (rest.length + 1) + 3; omega)
  refine ⟨stmts, q, ?_, hbuilds, heof⟩
  unfold parseAll
  rw [h]
  exact hparse

theorem parseSource_eq (source : Bytes) : parseSource d strtod source = (parseAll d strtod source >>= fun r =>
    if arenaSize < r.2.used then .undefined else .done r) := by
  unfold parseSource parseAll
  dsimp only
  cases parserInit (lexemesOf d strtod source).1 with
  | done p =>
    rw [Run.done_bind, Run.done_bind]
  | undefined => rfl
  | outOfFuel r => rfl

theorem parseAll_undefined (h : ∀ t rest, (lexemesOf d strtod source).1 ≠ some t :: rest) :
    parseAll d strtod source = .undefined := by
  have hinit : parserInit (lexemesOf d strtod source).1 = .undefined := by
    unfold parserInit
    split
    · rename_i t rest heq
      exact absurd heq (h t rest)
    · rfl
  unfold parseAll
  dsimp only
  rw [hinit, Run.undefined_bind]

theorem parseSource_done : parseSource d strtod source = .done (.block stmts, q) ↔
    parseAll d strtod source = .done (.block stmts, q) ∧ q.used ≤ arenaSize := by
  rw [parseSource_eq, Run.bind_eq_done]
  constructor
  · rintro ⟨r, hr, hdone⟩
    split at hdone
    · cases hdone
    · rename_i hfits
      obtain rfl := Run.done.inj hdone
      exact ⟨hr, Nat.le_of_not_lt hfits⟩
  · rintro ⟨hall, hfits⟩
    exact ⟨_, hall, if_neg (Nat.not_lt_of_le hfits)⟩

theorem tokens_of_eof {p : Parser} {xs : List (Option Token)} {e : Token}
    (hxs : some p.current :: p.rest = xs ++ [some e]) (hall : ∀ x, some x ∈ xs → x.type ≠ .eof)
    (hq : q.current.type = .eof) {read : List Token} (hread : p.tokens = read ++ q.tokens) : q.tokens = [q.current] := by
  have hlist : p.tokens = xs.filterMap id ++ [e] := by
    show (some p.current :: p.rest).filterMap id = _
    rw [hxs, List.filterMap_append]
    rfl
  rw [hlist] at hread
  obtain ⟨more, hmore⟩ : ∃ more, q.tokens = q.current :: more := ⟨_, rfl⟩
  cases more with
  | nil => exact hmore
  | cons x more =>
    -- the end of the source would lie before the last token
    exfalso
    have hsplit : xs.filterMap id ++ [e] = (read ++ q.current :: (x :: more).dropLast) ++ [(x :: more).getLast (by simp)] := by
      rw [hread, hmore, List.append_assoc, List.cons_append, List.dropLast_append_getLast]
    have hxs' := (List.append_inj' hsplit rfl).1
    have hmem : q.current ∈ xs.filterMap id := by
      rw [hxs']
      exact List.mem_append_right _ List.mem_cons_self
    obtain ⟨y, hy, hsame⟩ := List.mem_filterMap.mp hmem
    rw [id] at hsame
    exact hall q.current (hsame ▸ hy) hq

/-- The tree of an accepted source without unexpected characters shows all of its tokens exactly if nothing has been
dropped. -/
theorem items_iff {t : Token} {rest : List (Option Token)} (h : (lexemesOf d strtod source).1 = some t :: rest)
    (hbuilds : Builds ⟨t, rest, none, 0, 0⟩ q (Ast.itemsAll stmts) (Ast.block stmts).cost (Ast.OrdinaryAll stmts))
    (heof : q.current.type = .eof) (herror : q.error = none) (hlex : none ∉ (lexemesOf d strtod source).1) :
    Ast.itemsAll stmts = Parser.itemsOf (tokensOf d strtod source) ↔ q.dropped = 0 := by
  obtain ⟨xs, e, hxs, -, hall⟩ := @lexemesOf_shape d strtod source
  have hlexable : Parser.Lexable ⟨t, rest, none, 0, 0⟩ := fun hmem => hlex (by rw [h]; exact List.mem_cons_of_mem _ hmem)
  obtain ⟨-, -, read, hread, hcount, hbuilt⟩ := hbuilds.reads.account herror hlexable
  have hend : q.tokens = [q.current] :=
    tokens_of_eof (p := ⟨t, rest, none, 0, 0⟩) (h.symm.trans hxs) (fun x hx => (hall x hx).1) heof hread
  have htokens : tokensOf d strtod source = read ++ [q.current] := by
    rw [← hend, ← hread, tokensOf, h]
    rfl
  have hitems : Parser.itemsOf (tokensOf d strtod source) = Parser.itemsOf read := by
    rw [htokens, Parser.itemsOf_append, Parser.itemsOf_singleton, Token.items_eq heof]
    exact List.append_nil _
  rw [hitems]
  constructor
  · intro hsame
    rw [hsame] at hcount
    have hzero : (Parser.itemsOf read).length + q.dropped ≤ (Parser.itemsOf read).length + 0 := hcount
    omega
  · exact fun hzero => hbuilt hzero

end Sources

/-- **Which sources are parsed completely, or reported.** -/
theorem nothing_lost_iff (source : Bytes) : NothingLost d strtod source ↔ Undisturbed d strtod source := by
  refine exists_congr fun stmts => exists_congr fun q => ?_
  rw [parseSource_done, and_assoc]
  refine and_congr_right fun hparse => and_congr_right fun _ => ?_
  obtain ⟨t, rest, hlexemes⟩ : ∃ t rest, (lexemesOf d strtod source).1 = some t :: rest := by
    by_contra hnot
    rw [parseAll_undefined fun t rest h => hnot ⟨t, rest, h⟩] at hparse
    cases hparse
  obtain ⟨stmts', q', hparse', hbuilds, heof⟩ := parseAll_builds hlexemes
  obtain ⟨hstmts, rfl⟩ := Prod.mk.inj (Run.done.inj (hparse.symm.trans hparse'))
  obtain rfl := Ast.block.inj hstmts
  cases herror : q.error with
  | some e => exact iff_of_true (Or.inl rfl) (Or.inl rfl)
  | none =>
    have hno : ∀ P : Prop, ((none : Option String).isSome = true ∨ P) ↔ P := fun P =>
      or_iff_right fun h => by cases h
    rw [hno, hno]
    constructor
    · intro hcomplete
      obtain ⟨hlex, htorn⟩ := covered_tokensOf.mp hcomplete.covered
      exact ⟨hlex, htorn, (items_iff hlexemes hbuilds (heof herror) herror hlex).mp hcomplete.items⟩
    · rintro ⟨hlex, htorn, hzero⟩
      exact ⟨covered_tokensOf.mpr ⟨hlex, htorn⟩, (items_iff hlexemes hbuilds (heof herror) herror hlex).mpr hzero⟩

/-- Two variables, and a character between them that no token starts with. -/
def unexpectedBetween : Bytes := utf8 "x @ y"

/-- At the `@` the token in front of it is read twice. -/
theorem unexpected_duplicates : ¬ NothingLost csharpDialect (fun _ => 0) unexpectedBetween := by
  have hparse : (parseSource csharpDialect (fun _ => 0) unexpectedBetween).map (fun r => (r.1.items, r.2.error)) =
      .done ([.mark .lbracket, .ident [0x78], .ident [0x78], .ident [0x79], .mark .rbracket], none) := by
    decide +kernel
  have htokens : Parser.itemsOf (tokensOf csharpDialect (fun _ => 0) unexpectedBetween) =
      [.ident [0x78], .ident [0x79]] := by
    decide +kernel
  rintro ⟨stmts, q, hdone, hend⟩
  rw [hdone] at hparse
  obtain ⟨hitems, herror⟩ := Prod.mk.inj (Run.done.inj hparse)
  rcases hend with hsome | hcomplete
  · have hnone : q.error = none := herror
    rw [hnone] at hsome
    cases hsome
  · have hsame := hcomplete.items
    rw [htokens] at hsame
    change Item.mark .lbracket :: (Ast.itemsAll stmts ++ [.mark .rbracket]) = _ at hitems
    rw [hsame] at hitems
    cases hitems

end VelocityMcp.Interp
