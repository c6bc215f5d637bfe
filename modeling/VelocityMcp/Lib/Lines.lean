import Mathlib.Data.List.DropRight
import VelocityMcp.Lib.Text

/-!
# Lib.Lines — UTF-8 texts that are cut into lines and pieces

`strLines`: the lines without their breaks; `rejoined_eq_iff` says which lines can be put together again.
-/

namespace Lib

/-! ## The bytes of a text -/

/-- The UTF-8 bytes of a text. -/
@[grind =] def encode (cs : List Char) : Bytes := cs.flatMap String.utf8EncodeChar

@[grind =] def byteSize (cs : List Char) : ℕ := (encode cs).length

section Encode

variable {cs p q : List Char}

@[simp] theorem encode_nil : encode [] = [] := rfl

@[simp] theorem encode_cons (c : Char) (cs : List Char) : encode (c :: cs) = String.utf8EncodeChar c ++ encode cs :=
  List.flatMap_cons

@[simp] theorem encode_append (p q : List Char) : encode (p ++ q) = encode p ++ encode q := List.flatMap_append

theorem utf8_ofList (cs : List Char) : utf8 (String.ofList cs) = encode cs := by
  simp [utf8, encode, List.utf8Encode]

theorem fromUtf8_encode (cs : List Char) : fromUtf8 (encode cs) = some (String.ofList cs) := by
  rw [← utf8_ofList, fromUtf8_utf8]

theorem eq_encode_of_fromUtf8 {b : Bytes} {s : String} (h : fromUtf8 b = some s) : b = encode s.toList := by
  rw [← utf8_ofList, String.ofList_toList, utf8_of_fromUtf8 h]

@[simp] theorem byteSize_nil : byteSize [] = 0 := rfl

@[simp] theorem byteSize_cons (c : Char) (cs : List Char) : byteSize (c :: cs) = c.utf8Size + byteSize cs := by
  simp [byteSize]

@[simp] theorem byteSize_append (p q : List Char) : byteSize (p ++ q) = byteSize p + byteSize q := by simp [byteSize]

theorem byteSize_eq_zero (h : byteSize cs = 0) : cs = [] := by
  cases cs with
  | nil => rfl
  | cons c cs =>
    have hc := c.utf8Size_pos
    rw [byteSize_cons] at h
    omega

theorem exists_of_encode_prefix {b : Bytes} (h : encode p ++ b = encode cs) : ∃ q, cs = p ++ q ∧ b = encode q := by
  have hbytes : p.utf8Encode ++ b.toByteArray = cs.utf8Encode := by
    rw [List.utf8Encode, List.utf8Encode, ← List.toByteArray_append]
    exact congrArg List.toByteArray h
  obtain ⟨q, rfl⟩ := List.isPrefix_of_utf8Encode_append_eq_utf8Encode b.toByteArray hbytes
  rw [encode_append] at h
  exact ⟨q, rfl, List.append_cancel_left h⟩

theorem toNat_of_mem_utf8EncodeChar {c : Char} {x : UInt8} (hx : x.toNat < 0x80) (h : x ∈ String.utf8EncodeChar c) :
    c.toNat = x.toNat := by
  have hlarge : ∀ n, 0x80 ≤ n → n < 256 → x ≠ UInt8.ofNat n := by
    intro n hn hn' heq
    have hnat : x.toNat = (UInt8.ofNat n).toNat := congrArg UInt8.toNat heq
    rw [UInt8.toNat_ofNat', Nat.mod_eq_of_lt hn'] at hnat
    omega
  unfold String.utf8EncodeChar at h
  simp only at h
  split_ifs at h with h₁ h₂ h₃
  · have hnat := congrArg UInt8.toNat (List.mem_singleton.mp h)
    rw [UInt8.toNat_ofNat', Nat.mod_eq_of_lt (by omega)] at hnat
    exact hnat.symm
  all_goals
    simp only [List.mem_cons, List.not_mem_nil, or_false] at h
    exfalso
  · rcases h with h | h <;> exact hlarge _ (by omega) (by omega) h
  · rcases h with h | h | h <;> exact hlarge _ (by omega) (by omega) h
  · rcases h with h | h | h | h <;> exact hlarge _ (by omega) (by omega) h

/-- The byte of an ASCII character is in the bytes of a text only if the character is in the text. -/
theorem mem_of_mem_encode {a : Char} {x : UInt8} (hx : x.toNat < 0x80) (ha : a.toNat = x.toNat) (h : x ∈ encode cs) :
    a ∈ cs := by
  obtain ⟨c, hc, hmem⟩ := List.mem_flatMap.mp h
  rwa [Char.toNat_inj.mp (ha.trans (toNat_of_mem_utf8EncodeChar hx hmem).symm)]

theorem newline_mem_encode (h : (0x0a : UInt8) ∈ encode cs) : '\n' ∈ cs :=
  mem_of_mem_encode (by decide) rfl h

end Encode

/-! ## Lines -/

/-- The lines of a text, each with its line break. -/
@[grind =] def lines : List Char → List (List Char)
  | [] => []
  | c :: cs =>
    if c = '\n' then ['\n'] :: lines cs
    else match lines cs with
      | [] => [[c]]
      | l :: ls => (c :: l) :: ls

/-- A line of a text, before the rest: it ends with its only line break, or is the last one. -/
def IsLine (l more : List Char) : Prop := ∃ m, '\n' ∉ m ∧ (l = m ++ ['\n'] ∨ (l = m ∧ more = []))

section Lines

variable {cs m more : List Char}

theorem lines_of_not_mem (hm : '\n' ∉ m) (hne : m ≠ []) : lines m = [m] := by
  induction m with
  | nil => exact absurd rfl hne
  | cons c m ih =>
    rw [List.mem_cons, not_or] at hm
    obtain ⟨hc, hm⟩ := hm
    rw [lines, if_neg (Ne.symm hc)]
    cases m with
    | nil => rfl
    | cons d m => rw [ih hm (by simp)]

theorem lines_newline (hm : '\n' ∉ m) (more : List Char) :
    lines (m ++ '\n' :: more) = (m ++ ['\n']) :: lines more := by
  induction m with
  | nil => rw [List.nil_append, lines, if_pos rfl, List.nil_append]
  | cons c m ih =>
    rw [List.mem_cons, not_or] at hm
    obtain ⟨hc, hm⟩ := hm
    rw [List.cons_append, lines, if_neg (Ne.symm hc), ih hm]
    rfl

theorem lines_induction {P : List Char → Prop} (nil : P []) (last : ∀ m, '\n' ∉ m → m ≠ [] → P m)
    (line : ∀ m more, '\n' ∉ m → P more → P (m ++ '\n' :: more)) (cs : List Char) : P cs := by
  induction h : cs.length using Nat.strongRecOn generalizing cs with
  | ind n ih =>
    by_cases hmem : '\n' ∈ cs
    · obtain ⟨m, more, rfl, hm⟩ := List.eq_append_cons_of_mem hmem
      refine line m more hm (ih more.length ?_ more rfl)
      rw [← h, List.length_append, List.length_cons]
      omega
    · by_cases hne : cs = []
      · rw [hne]
        exact nil
      · exact last cs hmem hne

theorem flatten_lines (cs : List Char) : (lines cs).flatten = cs := by
  induction cs using lines_induction with
  | nil => rfl
  | last m hm hne => rw [lines_of_not_mem hm hne, List.flatten_singleton]
  | line m more hm ih => rw [lines_newline hm, List.flatten_cons, ih, List.append_assoc, List.singleton_append]

theorem lines_eq_cons {l : List Char} {ls : List (List Char)} (h : lines cs = l :: ls) :
    ∃ more, cs = l ++ more ∧ IsLine l more ∧ l ≠ [] ∧ lines more = ls := by
  induction cs using lines_induction with
  | nil => cases h
  | last m hm hne =>
    rw [lines_of_not_mem hm hne] at h
    obtain ⟨rfl, rfl⟩ := List.cons.inj h
    exact ⟨[], (List.append_nil m).symm, ⟨m, hm, Or.inr ⟨rfl, rfl⟩⟩, hne, rfl⟩
  | line m more hm =>
    rw [lines_newline hm] at h
    obtain ⟨rfl, rfl⟩ := List.cons.inj h
    exact ⟨more, by simp, ⟨m, hm, Or.inl rfl⟩, by simp, rfl⟩

theorem lines_prepend {a l : List Char} {ls : List (List Char)} (ha : '\n' ∉ a) (h : lines cs = l :: ls) :
    lines (a ++ cs) = (a ++ l) :: ls := by
  induction a with
  | nil => exact h
  | cons c a ih =>
    rw [List.mem_cons, not_or] at ha
    rw [List.cons_append, lines, if_neg (Ne.symm ha.1), ih ha.2]
    rfl

theorem lines_append (hlast : ∀ hne : m ≠ [], m.getLast hne = '\n') (cs : List Char) :
    lines (m ++ cs) = lines m ++ lines cs := by
  induction m using lines_induction with
  | nil => rfl
  | last m hm hne => exact absurd (hlast hne ▸ List.getLast_mem hne) hm
  | line m more hm ih =>
    rw [List.append_assoc, List.cons_append, lines_newline hm, lines_newline hm, List.cons_append, ih]
    intro hne
    have hwhole := hlast (by simp)
    rwa [List.getLast_append_of_ne_nil _ (by simp), List.getLast_cons hne] at hwhole

theorem getLast_rdropWhile_newline (cs : List Char) (hne : (cs.rdropWhile fun c => decide (c ≠ '\n')) ≠ []) :
    (cs.rdropWhile fun c => decide (c ≠ '\n')).getLast hne = '\n' := by
  have hlast := List.rdropWhile_last_not (fun c => decide (c ≠ '\n')) cs hne
  exact not_not.mp fun hno => hlast (decide_eq_true hno)

theorem newline_not_mem_rtakeWhile (cs : List Char) : '\n' ∉ cs.rtakeWhile fun c => decide (c ≠ '\n') := by
  intro hmem
  exact absurd (List.mem_rtakeWhile_imp hmem) (by simp)

end Lines

/-! ## Cuts -/

/-- A text cut at a byte; nothing if that is inside a character or beyond the end. -/
@[grind =] def cutAt : ℕ → List Char → Option (List Char × List Char)
  | 0, cs => some ([], cs)
  | _ + 1, [] => none
  | n + 1, c :: cs =>
    if c.utf8Size ≤ n + 1 then (cutAt (n + 1 - c.utf8Size) cs).map fun r => (c :: r.1, r.2) else none

section Cut

variable {n : ℕ} {cs p q : List Char}

theorem cutAt_append (p q : List Char) : cutAt (byteSize p) (p ++ q) = some (p, q) := by
  induction p with
  | nil => rw [byteSize_nil, List.nil_append, cutAt]
  | cons c p ih =>
    have hc := c.utf8Size_pos
    obtain ⟨n, hn⟩ : ∃ n, byteSize (c :: p) = n + 1 := ⟨c.utf8Size - 1 + byteSize p, by rw [byteSize_cons]; omega⟩
    have hrest : n + 1 - c.utf8Size = byteSize p := by rw [← hn, byteSize_cons]; omega
    rw [hn, List.cons_append, cutAt, if_pos (by rw [← hn, byteSize_cons]; omega), hrest, ih]
    rfl

theorem cutAt_eq_some (h : cutAt n cs = some (p, q)) : cs = p ++ q ∧ byteSize p = n := by
  induction cs generalizing n p with
  | nil =>
    cases n with
    | zero =>
      obtain ⟨rfl, rfl⟩ := Prod.mk.inj (Option.some.inj h)
      exact ⟨rfl, rfl⟩
    | succ n => cases h
  | cons c cs ih =>
    cases n with
    | zero =>
      obtain ⟨rfl, rfl⟩ := Prod.mk.inj (Option.some.inj h)
      exact ⟨rfl, rfl⟩
    | succ n =>
      rw [cutAt] at h
      split_ifs at h with hle
      obtain ⟨⟨p', q'⟩, hcut, heq⟩ := Option.map_eq_some_iff.mp h
      obtain ⟨rfl, rfl⟩ := Prod.mk.inj heq
      obtain ⟨hcs, hsize⟩ := ih hcut
      rw [hcs, byteSize_cons, hsize]
      exact ⟨rfl, by omega⟩

theorem cutAt_of_ascii (h : ∀ c ∈ cs, c.utf8Size = 1) (hn : n ≤ cs.length) :
    cutAt n cs = some (cs.take n, cs.drop n) := by
  induction cs generalizing n with
  | nil =>
    rw [Nat.le_zero.mp hn]
    rfl
  | cons c cs ih =>
    cases n with
    | zero => rfl
    | succ n =>
      have hc := h c List.mem_cons_self
      rw [List.length_cons] at hn
      rw [cutAt, hc, if_pos (by omega), Nat.add_sub_cancel, ih (fun d hd => h d (List.mem_cons_of_mem _ hd)) (by omega)]
      rfl

theorem byteSize_of_ascii (h : ∀ c ∈ cs, c.utf8Size = 1) : byteSize cs = cs.length := by
  induction cs with
  | nil => rfl
  | cons c cs ih =>
    rw [byteSize_cons, h c List.mem_cons_self, ih fun d hd => h d (List.mem_cons_of_mem _ hd), List.length_cons]
    exact Nat.add_comm _ _

theorem fromUtf8_take (h : n ≤ byteSize cs) :
    fromUtf8 ((encode cs).take n) = (cutAt n cs).map fun r => String.ofList r.1 := by
  cases hcut : cutAt n cs with
  | some r =>
    obtain ⟨p, q⟩ := r
    obtain ⟨rfl, rfl⟩ := cutAt_eq_some hcut
    rw [encode_append, byteSize, List.take_left, fromUtf8_encode, Option.map_some]
  | none =>
    rw [Option.map_none, Option.eq_none_iff_forall_ne_some]
    intro s hs
    have hp := eq_encode_of_fromUtf8 hs
    have hsplit : encode s.toList ++ (encode cs).drop n = encode cs := by rw [← hp, List.take_append_drop]
    obtain ⟨q, rfl, -⟩ := exists_of_encode_prefix hsplit
    have hsize : byteSize s.toList = n := by rw [byteSize, ← hp, List.length_take]; exact Nat.min_eq_left h
    rw [← hsize, cutAt_append] at hcut
    cases hcut

theorem cutAt_none (h : cutAt n cs = none) {x : UInt8} {b : Bytes} (hdrop : (encode cs).drop n = x :: b) :
    ¬ x.IsUTF8FirstByte := by
  induction cs generalizing n with
  | nil => rw [encode_nil, List.drop_nil] at hdrop; cases hdrop
  | cons c cs ih =>
    cases n with
    | zero => cases h
    | succ n =>
      rw [cutAt] at h
      rw [encode_cons] at hdrop
      split_ifs at h with hle
      · rw [List.drop_append, List.drop_eq_nil_of_le (by simpa using hle), List.nil_append,
          String.length_utf8EncodeChar] at hdrop
        exact ih (Option.map_eq_none_iff.mp h) hdrop
      · -- the cut is inside of the first character
        have hlt : n + 1 < (String.utf8EncodeChar c).length := by rw [String.length_utf8EncodeChar]; omega
        rw [List.drop_append_of_le_length hlt.le, List.drop_eq_getElem_cons hlt, List.cons_append] at hdrop
        obtain ⟨rfl, -⟩ := List.cons.inj hdrop
        rw [UInt8.isUTF8FirstByte_getElem_utf8EncodeChar]
        omega

theorem firstByte_of_fromUtf8 {x : UInt8} {b : Bytes} {s : String} (h : fromUtf8 (x :: b) = some s) :
    x.IsUTF8FirstByte := by
  have henc := eq_encode_of_fromUtf8 h
  cases hs : s.toList with
  | nil => rw [hs] at henc; cases henc
  | cons c cs =>
    have hpos : 0 < (String.utf8EncodeChar c).length := by
      rw [String.length_utf8EncodeChar]
      exact c.utf8Size_pos
    obtain ⟨y, ys, hy⟩ := List.exists_cons_of_length_pos hpos
    rw [hs, encode_cons, hy] at henc
    obtain ⟨rfl, -⟩ := List.cons.inj henc
    have hget : (String.utf8EncodeChar c)[0] = x := by simp [hy]
    rw [← hget, UInt8.isUTF8FirstByte_getElem_utf8EncodeChar]

end Cut

/-! ## Reading a line -/

/-- What is taken of the input up to a line break, the end or the limit, and what is left. -/
@[grind =] def takeLine : ℕ → Bytes → Bytes × Bytes
  | 0, b => ([], b)
  | _ + 1, [] => ([], [])
  | n + 1, x :: b => if x = 0x0a then ([x], b) else (x :: (takeLine n b).1, (takeLine n b).2)

section TakeLine

variable {l more : List Char}

theorem takeLine_of_not_mem {b : Bytes} (hb : (0x0a : UInt8) ∉ b) (n : ℕ) : takeLine n b = (b.take n, b.drop n) := by
  induction b generalizing n with
  | nil => cases n <;> rfl
  | cons x b ih =>
    cases n with
    | zero => rfl
    | succ n =>
      rw [List.mem_cons, not_or] at hb
      obtain ⟨hx, hb⟩ := hb
      rw [takeLine, if_neg (Ne.symm hx), ih hb]
      rfl

theorem takeLine_newline {b : Bytes} (hb : (0x0a : UInt8) ∉ b) (n : ℕ) (rest : Bytes) :
    takeLine n (b ++ 0x0a :: rest) = ((b ++ [0x0a]).take n, (b ++ [0x0a]).drop n ++ rest) := by
  induction b generalizing n with
  | nil =>
    cases n with
    | zero => rfl
    | succ n =>
      rw [List.nil_append, takeLine, if_pos rfl]
      simp
  | cons x b ih =>
    cases n with
    | zero => simp [takeLine]
    | succ n =>
      rw [List.mem_cons, not_or] at hb
      obtain ⟨hx, hb⟩ := hb
      rw [List.cons_append, takeLine, if_neg (Ne.symm hx), ih hb]
      rfl

theorem takeLine_encode (h : IsLine l more) (n : ℕ) :
    takeLine n (encode (l ++ more)) = ((encode l).take n, (encode l).drop n ++ encode more) := by
  obtain ⟨m, hm, rfl | ⟨rfl, rfl⟩⟩ := h
  · have hnewline : encode ['\n'] = [0x0a] := by decide
    rw [List.append_assoc, encode_append, encode_append, encode_append, hnewline]
    exact takeLine_newline (fun hmem => hm (newline_mem_encode hmem)) n _
  · rw [List.append_nil, encode_nil, List.append_nil]
    exact takeLine_of_not_mem (fun hmem => hm (newline_mem_encode hmem)) n

theorem IsLine.of_append {p q : List Char} (h : IsLine (p ++ q) more) (hq : q ≠ []) : IsLine q more := by
  obtain ⟨m, hm, hl | ⟨hl, rfl⟩⟩ := h
  · refine ⟨q.dropLast, fun hmem => hm ?_, Or.inl ?_⟩
    · have hdrop := congrArg List.dropLast hl
      rw [List.dropLast_append_of_ne_nil hq, List.dropLast_concat] at hdrop
      rw [← hdrop]
      exact List.mem_append_right _ hmem
    · have hlast := congrArg List.getLast? hl
      rw [List.getLast?_append_of_ne_nil _ hq, List.getLast?_concat] at hlast
      exact (List.dropLast_append_getLast? _ hlast).symm
  · exact ⟨q, fun hmem => hm (hl ▸ List.mem_append_right _ hmem), Or.inr ⟨rfl, rfl⟩⟩

end TakeLine

/-- The first line of the input, with its line break, and what stands behind it. -/
@[grind =] def cutLine : Bytes → Bytes × Bytes
  | [] => ([], [])
  | x :: b => if x = 0x0a then ([x], b) else (x :: (cutLine b).1, (cutLine b).2)

section CutLine

variable {b : Bytes}

theorem cutLine_append (b : Bytes) : (cutLine b).1 ++ (cutLine b).2 = b := by
  induction b with
  | nil => rfl
  | cons x b ih =>
    rw [cutLine]
    by_cases hx : x = 0x0a
    · rw [if_pos hx]
      rfl
    · rw [if_neg hx, List.cons_append, ih]

theorem cutLine_of_not_mem (h : (0x0a : UInt8) ∉ b) (rest : Bytes) :
    cutLine (b ++ rest) = (b ++ (cutLine rest).1, (cutLine rest).2) := by
  induction b with
  | nil => rfl
  | cons x b ih =>
    rw [List.mem_cons, not_or] at h
    rw [List.cons_append, cutLine, if_neg (Ne.symm h.1), ih h.2]
    rfl

theorem cutLine_of_mem (h : (0x0a : UInt8) ∈ b) (rest : Bytes) :
    cutLine (b ++ rest) = ((cutLine b).1, (cutLine b).2 ++ rest) := by
  induction b with
  | nil => cases h
  | cons x b ih =>
    rw [List.cons_append, cutLine, cutLine]
    by_cases hx : x = 0x0a
    · rw [if_pos hx, if_pos hx]
    · have hmem : (0x0a : UInt8) ∈ b := (List.mem_cons.mp h).resolve_left (Ne.symm hx)
      rw [if_neg hx, if_neg hx, ih hmem]

theorem cutLine_eq_nil (h : (cutLine b).1 = []) : b = [] := by
  cases b with
  | nil => rfl
  | cons x b =>
    rw [cutLine] at h
    split_ifs at h

end CutLine

/-! ## Blanks -/

/-- White space and nothing else. -/
@[grind =] def isBlank (cs : List Char) : Bool := cs.all isWhite

/-- A text without the blanks at both ends. -/
@[grind =] def trim (cs : List Char) : List Char := (cs.dropWhile isWhite).rdropWhile isWhite

section Blanks

variable {p q : List Char}

theorem toList_trimText (s : String) : (trimText s).toList = trim s.toList := String.toList_ofList

@[simp] theorem isBlank_append (p q : List Char) : isBlank (p ++ q) = (isBlank p && isBlank q) := List.all_append

theorem isBlank_flatten (ls : List (List Char)) : isBlank ls.flatten = ls.all isBlank := by
  induction ls with
  | nil => rfl
  | cons l ls ih => rw [List.flatten_cons, isBlank_append, ih, List.all_cons]

theorem all_isBlank_lines (p : List Char) : (lines p).all isBlank = isBlank p := by
  rw [← isBlank_flatten, flatten_lines]

theorem dropWhile_append_of_blank (h : isBlank p) (q : List Char) :
    (p ++ q).dropWhile isWhite = q.dropWhile isWhite := by
  rw [List.dropWhile_append, if_pos]
  rw [List.isEmpty_iff, List.dropWhile_eq_nil_iff]
  exact List.all_eq_true.mp h

theorem dropWhile_ne_nil (h : ¬ isBlank p) : p.dropWhile isWhite ≠ [] := by
  intro hnil
  exact h (List.all_eq_true.mpr (List.dropWhile_eq_nil_iff.mp hnil))

theorem dropWhile_append_of_not_blank (h : ¬ isBlank p) (q : List Char) :
    (p ++ q).dropWhile isWhite = p.dropWhile isWhite ++ q := by
  rw [List.dropWhile_append, if_neg]
  rw [List.isEmpty_iff]
  exact dropWhile_ne_nil h

theorem takeWhile_append_of_blank (h : isBlank p) (q : List Char) :
    (p ++ q).takeWhile isWhite = p ++ q.takeWhile isWhite :=
  List.takeWhile_append_of_pos (List.all_eq_true.mp h)

theorem takeWhile_append_of_not_blank (h : ¬ isBlank p) (q : List Char) :
    (p ++ q).takeWhile isWhite = p.takeWhile isWhite := by
  have hlen : (p.takeWhile isWhite).length ≠ p.length := by
    intro heq
    refine h (List.all_eq_true.mpr ?_)
    rw [← List.takeWhile_eq_self_iff]
    exact (List.takeWhile_prefix isWhite).eq_of_length heq
  rw [List.takeWhile_append, if_neg hlen]

theorem trim_append_of_blank (h : isBlank p) (q : List Char) : trim (p ++ q) = trim q := by
  rw [trim, trim, dropWhile_append_of_blank h]

theorem trim_eq_nil_iff : trim p = [] ↔ isBlank p := by
  rw [trim, List.rdropWhile_eq_nil_iff, isBlank, List.all_eq_true]
  constructor
  · intro h c hc
    rw [← List.takeWhile_append_dropWhile (p := isWhite) (l := p)] at hc
    rcases List.mem_append.mp hc with hc | hc
    · exact List.mem_takeWhile_imp hc
    · exact h c hc
  · intro h c hc
    exact h c ((List.dropWhile_suffix isWhite).subset hc)

theorem rdropWhile_append_of_blank (p : List Char) (h : isBlank q) :
    (p ++ q).rdropWhile isWhite = p.rdropWhile isWhite := by
  rw [List.rdropWhile, List.reverse_append, List.dropWhile_append, if_pos, List.rdropWhile]
  rw [List.isEmpty_iff, List.dropWhile_eq_nil_iff]
  intro c hc
  exact List.all_eq_true.mp h c (List.mem_reverse.mp hc)

theorem rdropWhile_append_of_not_blank (p : List Char) (h : ¬ isBlank q) :
    (p ++ q).rdropWhile isWhite = p ++ q.rdropWhile isWhite := by
  have hne : (q.reverse.dropWhile isWhite).isEmpty = false := by
    rw [Bool.eq_false_iff, ne_eq, List.isEmpty_iff, List.dropWhile_eq_nil_iff]
    intro hall
    exact h (List.all_eq_true.mpr fun c hc => hall c (List.mem_reverse.mpr hc))
  rw [List.rdropWhile, List.reverse_append, List.dropWhile_append, hne, if_neg Bool.false_ne_true,
    List.reverse_append, List.reverse_reverse, List.rdropWhile]

theorem trim_append_blank (p : List Char) (h : isBlank q) : trim (p ++ q) = trim p := by
  by_cases hp : isBlank p
  · rw [trim_append_of_blank hp, trim_eq_nil_iff.mpr h, trim_eq_nil_iff.mpr hp]
  · rw [trim, dropWhile_append_of_not_blank hp, rdropWhile_append_of_blank _ h, trim]

theorem byteSize_takeWhile_lt (h : ¬ isBlank p) : byteSize (p.takeWhile isWhite) < byteSize p := by
  have hsize : byteSize p = byteSize (p.takeWhile isWhite) + byteSize (p.dropWhile isWhite) := by
    rw [← byteSize_append, List.takeWhile_append_dropWhile]
  have hpos : 0 < byteSize (p.dropWhile isWhite) :=
    Nat.pos_of_ne_zero fun hz => dropWhile_ne_nil h (byteSize_eq_zero hz)
  omega

theorem byteSize_trim_le (p : List Char) : byteSize (trim p) ≤ byteSize p := by
  obtain ⟨more, hmore⟩ := List.rdropWhile_prefix isWhite (p.dropWhile isWhite)
  obtain ⟨front, hfront⟩ := List.dropWhile_suffix isWhite (l := p)
  rw [← hfront, byteSize_append]
  conv_rhs => rw [← hmore, byteSize_append]
  rw [trim, hfront]
  omega

theorem byteSize_le_of_mem {l : List Char} {ls : List (List Char)} (h : l ∈ ls) : byteSize l ≤ byteSize ls.flatten := by
  induction ls with
  | nil => cases h
  | cons l' ls ih =>
    rw [List.flatten_cons, byteSize_append]
    rcases List.mem_cons.mp h with rfl | h
    · exact Nat.le_add_right _ _
    · exact (ih h).trans (Nat.le_add_left _ _)

theorem byteSize_trim_lt (hp : ¬ isBlank p) (hq : ¬ isBlank q) : byteSize (trim p) < byteSize (trim (p ++ q)) := by
  obtain ⟨more, hmore⟩ := List.rdropWhile_prefix isWhite (p.dropWhile isWhite)
  have hle : byteSize (trim p) ≤ byteSize (p.dropWhile isWhite) := by
    rw [← hmore, byteSize_append]
    exact Nat.le_add_right _ _
  have hne : q.rdropWhile isWhite ≠ [] := by
    rw [ne_eq, List.rdropWhile_eq_nil_iff]
    exact fun hall => hq (List.all_eq_true.mpr hall)
  have hpos : 0 < byteSize (q.rdropWhile isWhite) := Nat.pos_of_ne_zero fun hz => hne (byteSize_eq_zero hz)
  rw [trim, trim, dropWhile_append_of_not_blank hp, rdropWhile_append_of_not_blank _ hq, byteSize_append]
  rw [trim] at hle
  omega

end Blanks

/-! ## Lines without their breaks -/

@[grind =] def dropCr (m : List Char) : List Char := if m.getLast? = some '\r' then m.dropLast else m

def stripBreak (l : List Char) : List Char := if l.getLast? = some '\n' then dropCr l.dropLast else l

/-- The lines of a text, as `str::lines` gives them. -/
def strLines (cs : List Char) : List (List Char) := (lines cs).map stripBreak

section StrLines

variable {cs m more : List Char} {ls ts : List (List Char)}

theorem strLines_of_not_mem (hm : '\n' ∉ m) (hne : m ≠ []) : strLines m = [m] := by
  rw [strLines, lines_of_not_mem hm hne, List.map_singleton, stripBreak, if_neg]
  exact fun h => hm (List.mem_of_getLast? h)

theorem strLines_newline (hm : '\n' ∉ m) (more : List Char) :
    strLines (m ++ '\n' :: more) = dropCr m :: strLines more := by
  rw [strLines, lines_newline hm, List.map_cons, stripBreak, if_pos List.getLast?_concat, List.dropLast_concat]
  rfl

theorem byteSize_dropCr_le (m : List Char) : byteSize (dropCr m) ≤ byteSize m := by
  rw [dropCr]
  split
  · next h =>
    obtain ⟨init, rfl⟩ := List.getLast?_eq_some_iff.mp h
    rw [List.dropLast_concat, byteSize_append]
    exact Nat.le_add_right _ _
  · exact le_rfl

theorem dropCr_eq_iff_of_le {l : List Char} (h : byteSize m ≤ byteSize l) :
    dropCr m = l ↔ m = l ∧ l.getLast? ≠ some '\r' := by
  rw [dropCr]
  by_cases hcr : m.getLast? = some '\r'
  · rw [if_pos hcr]
    constructor
    · rintro rfl
      obtain ⟨init, rfl⟩ := List.getLast?_eq_some_iff.mp hcr
      rw [List.dropLast_concat, byteSize_append, byteSize_cons] at h
      have hpos := Char.utf8Size_pos '\r'
      omega
    · rintro ⟨rfl, hno⟩
      exact absurd hcr hno
  · rw [if_neg hcr]
    constructor
    · rintro rfl
      exact ⟨rfl, hcr⟩
    · rintro ⟨rfl, -⟩
      rfl

theorem not_mem_dropCr (hm : '\n' ∉ m) : '\n' ∉ dropCr m := by
  rw [dropCr]
  split
  · exact fun h => hm (List.mem_of_mem_dropLast h)
  · exact hm

theorem not_mem_of_mem_strLines {l : List Char} (h : l ∈ strLines cs) : '\n' ∉ l := by
  induction cs using lines_induction with
  | nil => cases h
  | last m hm hne =>
    rw [strLines_of_not_mem hm hne, List.mem_singleton] at h
    rwa [h]
  | line m more hm ih =>
    rw [strLines_newline hm] at h
    rcases List.mem_cons.mp h with rfl | h
    · exact not_mem_dropCr hm
    · exact ih h

theorem byteSize_strLines (cs : List Char) : ((strLines cs).map byteSize).sum ≤ byteSize cs ∧
    byteSize cs ≤ ((strLines cs).map fun l => byteSize l + 2).sum := by
  induction cs using lines_induction with
  | nil => exact ⟨le_rfl, le_rfl⟩
  | last m hm hne =>
    rw [strLines_of_not_mem hm hne, List.map_singleton, List.map_singleton, List.sum_singleton, List.sum_singleton]
    exact ⟨le_rfl, Nat.le_add_right _ _⟩
  | line m more hm ih =>
    obtain ⟨hle, hge⟩ := ih
    have hdrop := byteSize_dropCr_le m
    have hcr : byteSize m ≤ byteSize (dropCr m) + 1 := by
      rw [dropCr]
      split
      · next h =>
        obtain ⟨init, rfl⟩ := List.getLast?_eq_some_iff.mp h
        rw [List.dropLast_concat, byteSize_append]
        exact le_rfl
      · exact Nat.le_succ _
    have hbreak : Char.utf8Size '\n' = 1 := rfl
    rw [strLines_newline hm, List.map_cons, List.map_cons, List.sum_cons, List.sum_cons, byteSize_append, byteSize_cons,
      hbreak]
    omega

theorem length_strLines_le (cs : List Char) : (strLines cs).length ≤ byteSize cs := by
  induction cs using lines_induction with
  | nil => exact le_rfl
  | last m hm hne =>
    rw [strLines_of_not_mem hm hne, List.length_singleton]
    exact Nat.pos_of_ne_zero fun hzero => hne (byteSize_eq_zero hzero)
  | line m more hm ih =>
    have hbreak : Char.utf8Size '\n' = 1 := rfl
    rw [strLines_newline hm, List.length_cons, byteSize_append, byteSize_cons, hbreak]
    omega

/-- What becomes of lines that are put together with line breaks between them. -/
@[grind =] def rejoined : List (List Char) → List (List Char)
  | [] => []
  | [t] => if t = [] then [] else [t]
  | t :: u :: ts => dropCr t :: rejoined (u :: ts)

theorem strLines_intercalate : ∀ {ts : List (List Char)}, (∀ t ∈ ts, '\n' ∉ t) →
    strLines (List.intercalate ['\n'] ts) = rejoined ts
  | [], _ => rfl
  | [t], h => by
    rw [List.intercalate_singleton, rejoined]
    by_cases ht : t = []
    · rw [ht, if_pos rfl]
      rfl
    · rw [if_neg ht, strLines_of_not_mem (h t List.mem_cons_self) ht]
  | t :: u :: ts, h => by
    rw [List.intercalate_cons_cons, List.append_assoc, List.singleton_append, strLines_newline (h t List.mem_cons_self),
      strLines_intercalate fun v hv => h v (List.mem_cons_of_mem _ hv), rejoined]

theorem length_rejoined_le : ∀ ts : List (List Char), (rejoined ts).length ≤ ts.length
  | [] => le_rfl
  | [t] => by
    rw [rejoined]
    split
    · exact Nat.zero_le _
    · exact le_rfl
  | t :: u :: ts => Nat.succ_le_succ (length_rejoined_le (u :: ts))

/-- Parts of lines give the lines back only if they are the lines, the last one is not empty, and no other ends with
CR. -/
theorem rejoined_eq_iff (h : List.Forall₂ (fun t l => byteSize t ≤ byteSize l) ts ls) :
    rejoined ts = ls ↔ ts = ls ∧ ls.getLast? ≠ some [] ∧ ∀ l ∈ ls.dropLast, l.getLast? ≠ some '\r' := by
  induction h with
  | nil => simp [rejoined]
  | @cons t l ts ls hle hrest ih =>
    cases hrest with
    | nil =>
      rw [rejoined]
      by_cases ht : t = []
      · rw [ht, if_pos rfl]
        simp [eq_comm]
      · rw [if_neg ht]
        simp only [List.cons.injEq, and_true, List.getLast?_singleton, List.dropLast_singleton, List.not_mem_nil,
          false_imp_iff, implies_true, ne_eq, Option.some.injEq]
        constructor
        · rintro rfl
          exact ⟨rfl, ht⟩
        · exact And.left
    | @cons u m ts ls hle' hrest' =>
      rw [rejoined, List.cons.injEq, dropCr_eq_iff_of_le hle, ih, List.dropLast_cons_cons, List.getLast?_cons_cons,
        List.forall_mem_cons]
      simp only [List.cons.injEq]
      tauto

theorem isBlank_intercalate : ∀ ts : List (List Char), isBlank (List.intercalate ['\n'] ts) = ts.all isBlank
  | [] => rfl
  | [t] => by
    rw [List.intercalate_singleton]
    simp
  | t :: u :: ts => by
    rw [List.intercalate_cons_cons, List.all_cons, ← isBlank_intercalate (u :: ts), isBlank, List.all_append,
      List.all_append]
    simp [isBlank, isWhite]

end StrLines

end Lib
