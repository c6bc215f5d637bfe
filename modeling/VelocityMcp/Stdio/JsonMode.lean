import VelocityMcp.JsonRpc.Dispatch
import VelocityMcp.Lib.Lines

/-!
# Stdio.JsonMode — requests as lines of the standard input (`run_stdio_loop` of `json_rpc.rs`)

The flag that stops the process and the log lines are left out.
-/

namespace VelocityMcp.Stdio

open Lib JsonRpc

/-! ## The process -/

/-- `MAX_REQUEST_SIZE`. -/
def maxRequestSize : ℕ := 1048576

/-- The length of the first frame, if the bytes of the first read are taken for one. -/
def ndaLength (peek : Bytes) : Option ℕ :=
  if peek.length = 4 then
    if beNat peek > 36 ∧ beNat peek < 10 * 1024 * 1024 then some (beNat peek) else none
  else none

/-- `String::from_utf8_lossy`: each ill-formed sequence gives a replacement character. -/
def fromUtf8Lossy (b : Bytes) : String := go b.length b
where
  go : ℕ → Bytes → String
    | 0, _ => ""
    | fuel + 1, b =>
      match fromUtf8 b with
      | some s => s
      | none =>
        let valid := (fromUtf8 (b.take (validUpTo b))).getD ""
        let bad := b.drop (validUpTo b)
        match errorLen bad with
        | some n => valid ++ "\uFFFD" ++ go fuel (bad.drop n)
        | none => valid ++ "\uFFFD"

theorem takeLine_length (n : ℕ) (b : Bytes) : (takeLine n b).1.length + (takeLine n b).2.length = b.length := by
  induction b generalizing n with
  | nil => cases n <;> rfl
  | cons x b ih =>
    cases n with
    | zero => simp [takeLine]
    | succ n =>
      have hrest := ih n
      rw [takeLine]
      split_ifs
      · simp
        omega
      · simp only [List.length_cons]
        omega

/-- The lines that the reader thread sends: until the end of the input, or a line it cannot decode. -/
def readLines (max : ℕ) (input : Bytes) : List String :=
  if (takeLine (max + 1) input).1 = [] then []
  else match fromUtf8 (takeLine (max + 1) input).1 with
    | some line => line :: readLines max (takeLine (max + 1) input).2
    | none => []
termination_by input.length
decreasing_by
  rename_i hne
  have hlen := takeLine_length (max + 1) input
  have hpos := List.length_pos_iff.mpr hne
  omega

/-- The first read's bytes stand in front of the first line. -/
def gluedLines (max : ℕ) (initial input : Bytes) : List String :=
  match readLines max input with
  | [] => []
  | line :: more => if initial = [] then line :: more else (fromUtf8Lossy initial ++ line) :: more

/-- What a line is taken for. -/
inductive Request where
  | tooLarge
  | text (trimmed : String)
deriving DecidableEq

def requestOf (max : ℕ) (line : String) : Option Request :=
  let trimmed := trimText line
  if trimmed = "" then none
  else if (utf8 trimmed).length > max then some .tooLarge
  else some (.text trimmed)

/-- The requests of a process whose first read gave `peeked` bytes of the content. -/
def handled (max : ℕ) (content : Bytes) (peeked : ℕ) : List Request :=
  (gluedLines max (content.take peeked) (content.drop peeked)).filterMap (requestOf max)

/-- The response to a request, if there is one. -/
def answer (fromStr : String → Except String Value) (ctx : Context) : Request → Option Value
  | .tooLarge => some (rpcError .null (-32700) "Request too large")
  | .text trimmed =>
    match fromStr trimmed with
    | .error _ => some (rpcError .null (-32700) "Parse error")
    | .ok request =>
      match handleRequest ctx request with
      | some response => some response
      | none =>
        if isRequestShaped request then none
        else some (rpcError .null (-32600) (match request with
          | .array _ => "Invalid Request: batch requests are not supported over stdio"
          | _ => "Invalid Request: expected a JSON-RPC 2.0 request object"))

/-! ## Requests and where they stand -/

/-- The request a line is taken for, with the place of its first byte in the content. -/
def requestAt (max start : ℕ) (line : List Char) : List (ℕ × Request) :=
  if trim line = [] then []
  else [(start + byteSize (line.takeWhile isWhite),
    if byteSize (trim line) > max then .tooLarge else .text (String.ofList (trim line)))]

/-- The requests of lines that stand one behind the other. -/
def requestsAt (max : ℕ) : ℕ → List (List Char) → List (ℕ × Request)
  | _, [] => []
  | start, line :: more => requestAt max start line ++ requestsAt max (start + byteSize line) more

/-- The requests of a process, with their places. -/
def handledAt (max : ℕ) (content : Bytes) (peeked : ℕ) : List (ℕ × Request) :=
  requestsAt max 0 ((gluedLines max (content.take peeked) (content.drop peeked)).map String.toList)

/-- The requests of a content: its lines that are not blank, without the blanks around them. -/
def lineRequests (max : ℕ) (content : List Char) : List (ℕ × Request) := requestsAt max 0 (lines content)

section Requests

variable {max start : ℕ} {l p q : List Char} {ls ls' : List (List Char)}

theorem requestAt_blank (h : isBlank l) : requestAt max start l = [] := by
  rw [requestAt, if_pos (trim_eq_nil_iff.mpr h)]

theorem requestAt_of_not_blank (h : ¬ isBlank l) :
    requestAt max start l = [(start + byteSize (l.takeWhile isWhite),
      if byteSize (trim l) > max then .tooLarge else .text (String.ofList (trim l)))] := by
  rw [requestAt, if_neg fun hnil => h (trim_eq_nil_iff.mp hnil)]

theorem requestAt_eq_nil_iff : requestAt max start l = [] ↔ isBlank l := by
  constructor
  · intro h
    by_contra hl
    rw [requestAt_of_not_blank hl] at h
    cases h
  · exact requestAt_blank

theorem map_requestAt (line : String) :
    (requestAt max start line.toList).map Prod.snd = (requestOf max line).toList := by
  have hsize : (utf8 (trimText line)).length = byteSize (trim line.toList) := by
    rw [trimText, utf8_ofList]
    rfl
  by_cases h : trim line.toList = []
  · have hempty : trimText line = "" := String.toList_inj.mp (by rw [toList_trimText, h]; rfl)
    rw [requestAt, if_pos h, requestOf, hempty]
    rfl
  · have hne : trimText line ≠ "" := by
      intro hempty
      rw [← toList_trimText, hempty] at h
      exact h rfl
    simp only [requestAt, if_neg h, requestOf, if_neg hne, hsize, List.map_singleton]
    split_ifs <;> rfl

theorem map_handledAt (content : Bytes) (peeked : ℕ) :
    (handledAt max content peeked).map Prod.snd = handled max content peeked := by
  have hmap : ∀ (lines : List String) (start : ℕ),
      (requestsAt max start (lines.map String.toList)).map Prod.snd = lines.filterMap (requestOf max) := by
    intro lines
    induction lines with
    | nil => intro start; rfl
    | cons line lines ih =>
      intro start
      rw [List.map_cons, requestsAt, List.map_append, map_requestAt, ih, List.filterMap_cons]
      cases requestOf max line <;> rfl
  exact hmap _ 0

theorem requestAt_append_of_blank (h : isBlank p) (q : List Char) :
    requestAt max start (p ++ q) = requestAt max (start + byteSize p) q := by
  rw [requestAt, requestAt, trim_append_of_blank h, takeWhile_append_of_blank h, byteSize_append, Nat.add_assoc]

/-- What stands behind a request changes it, unless it is blank or the request is too large already. -/
theorem requestAt_append_iff (h : ¬ isBlank p) :
    requestAt max start p = requestAt max start (p ++ q) ↔ isBlank q ∨ byteSize (trim p) > max := by
  have hpq : ¬ isBlank (p ++ q) := by
    rw [isBlank_append, Bool.and_eq_true]
    exact fun hand => h hand.1
  rw [requestAt_of_not_blank h, requestAt_of_not_blank hpq, takeWhile_append_of_not_blank h]
  by_cases hq : isBlank q
  · rw [trim_append_blank p hq]
    exact iff_of_true rfl (Or.inl hq)
  · have hlt := byteSize_trim_lt h hq
    by_cases hlarge : byteSize (trim p) > max
    · rw [if_pos hlarge, if_pos (show byteSize (trim (p ++ q)) > max by omega)]
      exact iff_of_true rfl (Or.inr hlarge)
    · rw [if_neg hlarge]
      refine iff_of_false (fun heq => ?_) fun hor => hor.elim hq hlarge
      have hverdict := (Prod.mk.inj (List.cons.inj heq).1).2
      split_ifs at hverdict
      have htrim := congrArg String.toList (Request.text.inj hverdict)
      rw [String.toList_ofList, String.toList_ofList] at htrim
      rw [← htrim] at hlt
      exact lt_irrefl _ hlt

theorem mem_requestAt {x : ℕ × Request} (h : x ∈ requestAt max start l) : start ≤ x.1 ∧ x.1 < start + byteSize l := by
  by_cases hl : isBlank l
  · rw [requestAt_blank hl] at h
    cases h
  · rw [requestAt_of_not_blank hl] at h
    obtain rfl := List.mem_singleton.mp h
    exact ⟨Nat.le_add_right _ _, Nat.add_lt_add_left (byteSize_takeWhile_lt hl) start⟩

theorem mem_requestsAt {x : ℕ × Request} (h : x ∈ requestsAt max start ls) :
    start ≤ x.1 ∧ x.1 < start + byteSize ls.flatten := by
  induction ls generalizing start with
  | nil => cases h
  | cons l ls ih =>
    rw [List.flatten_cons, byteSize_append]
    rcases List.mem_append.mp h with h | h
    · have hx := mem_requestAt h
      omega
    · have hx := ih h
      omega

theorem requestsAt_append (ls ls' : List (List Char)) :
    requestsAt max start (ls ++ ls') = requestsAt max start ls ++ requestsAt max (start + byteSize ls.flatten) ls' := by
  induction ls generalizing start with
  | nil => rfl
  | cons l ls ih =>
    rw [List.cons_append, requestsAt, requestsAt, ih, List.append_assoc, List.flatten_cons, byteSize_append,
      Nat.add_assoc]

theorem requestsAt_eq_nil_iff : requestsAt max start ls = [] ↔ ls.all isBlank := by
  induction ls generalizing start with
  | nil => exact iff_of_true rfl rfl
  | cons l ls ih => rw [requestsAt, List.append_eq_nil_iff, requestAt_eq_nil_iff, ih, List.all_cons, Bool.and_eq_true]

theorem append_eq_append_of_places {m : ℕ} {a a' b b' : List (ℕ × Request)} (ha : ∀ x ∈ a, x.1 < m)
    (ha' : ∀ x ∈ a', x.1 < m) (hb : ∀ x ∈ b, m ≤ x.1) (hb' : ∀ x ∈ b', m ≤ x.1) :
    a ++ b = a' ++ b' ↔ a = a' ∧ b = b' := by
  have hleft : ∀ {a b : List (ℕ × Request)}, (∀ x ∈ a, x.1 < m) → (∀ x ∈ b, m ≤ x.1) →
      (a ++ b).filter (fun x => x.1 < m) = a := by
    intro a b ha hb
    rw [List.filter_append, List.filter_eq_self.mpr fun x hx => decide_eq_true (ha x hx),
      List.filter_eq_nil_iff.mpr fun x hx => by simpa using hb x hx, List.append_nil]
  constructor
  · intro h
    have heq := congrArg (List.filter fun x => x.1 < m) h
    rw [hleft ha hb, hleft ha' hb'] at heq
    exact ⟨heq, List.append_cancel_left (heq ▸ h)⟩
  · rintro ⟨rfl, rfl⟩
    rfl

end Requests

/-! ## How a content is cut -/

/-- A line that is cut at every limit, up to the first cut that falls inside of a character, and what is lost there. -/
def pieces (max : ℕ) (line : List Char) : List (List Char) × List Char :=
  if byteSize line ≤ max + 1 then ([line], [])
  else match _h : cutAt (max + 1) line with
    | some (p, rest) => (p :: (pieces max rest).1, (pieces max rest).2)
    | none => ([], line)
termination_by line.length
decreasing_by
  all_goals
    obtain ⟨hline, hp⟩ := cutAt_eq_some _h
    have hne : p ≠ [] := by
      rintro rfl
      cases hp
    have hpos := List.length_pos_iff.mpr hne
    rw [hline, List.length_append]
    omega

/-- Not more than one of these texts has something to read. -/
def AtMostOneText (ls : List (List Char)) : Prop := ls.countP (fun l => !isBlank l) ≤ 1

instance (ls : List (List Char)) : Decidable (AtMostOneText ls) := inferInstanceAs (Decidable (_ ≤ 1))

/-- A line is taken for one request: all that there is to read is in one piece, but for what is lost behind a piece
that is too large. -/
def LineWhole (max : ℕ) (pieces : List (List Char)) (lost : List Char) : Prop :=
  AtMostOneText pieces ∧ (isBlank lost ∨ ∃ p ∈ pieces, byteSize (trim p) > max)

/-- Each line is taken for one request, and nothing is behind the first cut that falls inside of a character. -/
def LinesWhole (max : ℕ) : List (List Char) → Prop
  | [] => True
  | l :: ls => LineWhole max (pieces max l).1 (pieces max l).2 ∧
      if (pieces max l).2 = [] then LinesWhole max ls else ls.all isBlank

/-- The content is blank; or the first read ends before its end and not inside of a character, the piece behind it
can be read, what there is to read in both is in one line, and the lines are whole. -/
def WellFramed (max : ℕ) (content : List Char) (peeked : ℕ) : Prop :=
  match cutAt peeked content with
  | none => isBlank content
  | some (peek, rest) =>
    match lines rest with
    | [] => isBlank content
    | l :: ls =>
      match pieces max l with
      | ([], _) => isBlank content
      | (first :: more, lost) =>
        AtMostOneText (lines (peek.rdropWhile (· ≠ '\n')) ++ [peek.rtakeWhile (· ≠ '\n') ++ first]) ∧
        LineWhole max ((peek.rtakeWhile (· ≠ '\n') ++ first) :: more) lost ∧
        if lost = [] then LinesWhole max ls else ls.all isBlank

section Whole

variable {max start : ℕ} {l p lost more : List Char} {ps ls rest : List (List Char)}

theorem atMostOneText_cons_blank (h : isBlank p) : AtMostOneText (p :: ps) ↔ AtMostOneText ps := by
  rw [AtMostOneText, List.countP_cons_of_neg (by simp [h])]
  rfl

theorem atMostOneText_cons_text (h : ¬ isBlank p) : AtMostOneText (p :: ps) ↔ ps.all isBlank := by
  rw [AtMostOneText, List.countP_cons_of_pos (by simp [h]), Nat.succ_le_succ_iff, Nat.le_zero, List.countP_eq_zero,
    List.all_eq_true]
  simp

theorem isBlank_of_trim_not_large (h : isBlank p) : ¬ byteSize (trim p) > max := by
  rw [trim_eq_nil_iff.mpr h, byteSize_nil]
  omega

theorem requestsAt_pieces_iff :
    requestsAt max start ps = requestAt max start (ps.flatten ++ lost) ↔ LineWhole max ps lost := by
  induction ps generalizing start with
  | nil =>
    rw [requestsAt, List.flatten_nil, List.nil_append, eq_comm, requestAt_eq_nil_iff, LineWhole]
    simp [AtMostOneText]
  | cons p ps ih =>
    rw [requestsAt, List.flatten_cons, List.append_assoc]
    by_cases hp : isBlank p
    · rw [requestAt_blank hp, List.nil_append, requestAt_append_of_blank hp, ih, LineWhole, LineWhole,
        atMostOneText_cons_blank hp, List.exists_mem_cons_iff, or_iff_right (isBlank_of_trim_not_large hp)]
    · -- the line's request is one; so nothing may come behind the piece's, and the piece's is the line's
      have hlen : (requestAt max start p).length = (requestAt max start (p ++ (ps.flatten ++ lost))).length := by
        rw [requestAt_of_not_blank hp, requestAt_of_not_blank]
        · rfl
        · rw [isBlank_append, Bool.and_eq_true]
          exact fun hand => hp hand.1
      have hsplit : requestAt max start p ++ requestsAt max (start + byteSize p) ps =
            requestAt max start (p ++ (ps.flatten ++ lost)) ↔
          requestAt max start p = requestAt max start (p ++ (ps.flatten ++ lost)) ∧ ps.all isBlank := by
        rw [← @requestsAt_eq_nil_iff max (start + byteSize p) ps]
        constructor
        · intro h
          have hnil := List.append_inj (h.trans (List.append_nil _).symm) hlen
          exact ⟨hnil.1, hnil.2⟩
        · rintro ⟨h, hnil⟩
          rw [hnil, List.append_nil, h]
      rw [hsplit, requestAt_append_iff hp, LineWhole, atMostOneText_cons_text hp, isBlank_append, isBlank_flatten,
        List.exists_mem_cons_iff, and_comm]
      refine and_congr_right fun hall => ?_
      have hno : ¬ ∃ q ∈ ps, byteSize (trim q) > max := by
        rintro ⟨q, hq, hlarge⟩
        exact isBlank_of_trim_not_large (List.all_eq_true.mp hall q hq) hlarge
      rw [hall, Bool.true_and, or_iff_left hno]

theorem requestsAt_line_iff (hl : ps.flatten ++ lost = l) (hrest : lost = [] ∨ rest = []) :
    requestsAt max start (ps ++ rest) = requestsAt max start (l :: ls) ↔
      LineWhole max ps lost ∧ requestsAt max (start + byteSize l) rest = requestsAt max (start + byteSize l) ls := by
  have hplace : requestsAt max (start + byteSize ps.flatten) rest = requestsAt max (start + byteSize l) rest := by
    rcases hrest with rfl | rfl
    · rw [← hl, List.append_nil]
    · rfl
  have hle : byteSize ps.flatten ≤ byteSize l := by
    rw [← hl, byteSize_append]
    omega
  rw [requestsAt_append, requestsAt, hplace, ← @requestsAt_pieces_iff max start, hl]
  refine append_eq_append_of_places (m := start + byteSize l) (fun x hx => ?_) (fun x hx => (mem_requestAt hx).2)
    (fun x hx => (mem_requestsAt hx).1) fun x hx => (mem_requestsAt hx).1
  have hx' := (mem_requestsAt hx).2
  omega

end Whole

/-! ## What the reader thread sends -/

section Reader

variable {max : ℕ} {l p rest more : List Char}

theorem pieces_of_le (h : byteSize l ≤ max + 1) : pieces max l = ([l], []) := by
  rw [pieces, if_pos h]

theorem pieces_of_cut (h : ¬ byteSize l ≤ max + 1) (hcut : cutAt (max + 1) l = some (p, rest)) :
    pieces max l = (p :: (pieces max rest).1, (pieces max rest).2) := by
  rw [pieces, if_neg h]
  split
  · next p' rest' hcut' =>
    obtain ⟨rfl, rfl⟩ := Prod.mk.inj (Option.some.inj (hcut.symm.trans hcut'))
    rfl
  · next hcut' => cases hcut.symm.trans hcut'

theorem pieces_of_not_cut (h : ¬ byteSize l ≤ max + 1) (hcut : cutAt (max + 1) l = none) :
    pieces max l = ([], l) := by
  rw [pieces, if_neg h]
  split
  · next p' rest' hcut' => cases hcut.symm.trans hcut'
  · rfl

theorem flatten_pieces (max : ℕ) (l : List Char) : (pieces max l).1.flatten ++ (pieces max l).2 = l := by
  induction l using pieces.induct max with
  | case1 l h => rw [pieces_of_le h, List.flatten_singleton, List.append_nil]
  | case2 l h p rest hcut ih =>
    rw [pieces_of_cut h hcut, List.flatten_cons, List.append_assoc, ih]
    exact (cutAt_eq_some hcut).1.symm
  | case3 l h hcut =>
    rw [pieces_of_not_cut h hcut]
    rfl

theorem encode_ne_nil (h : l ≠ []) : encode l ≠ [] := by
  intro hnil
  exact h (byteSize_eq_zero (by rw [byteSize, hnil]; rfl))

theorem readLines_nil (max : ℕ) : readLines max [] = [] := by
  rw [readLines, if_pos (by rw [takeLine])]

theorem readLines_line (max : ℕ) (hl : l ≠ []) (hline : IsLine l more) :
    readLines max (encode (l ++ more)) = (pieces max l).1.map String.ofList ++
      if (pieces max l).2 = [] then readLines max (encode more) else [] := by
  have htaken : ∀ {l : List Char}, l ≠ [] → (encode l).take (max + 1) ≠ [] := by
    intro l hl hnil
    rw [List.take_eq_nil_iff] at hnil
    exact hnil.elim (Nat.succ_ne_zero _) (encode_ne_nil hl)
  induction l using pieces.induct max with
  | case1 l h =>
    have htake : (encode l).take (max + 1) = encode l := List.take_of_length_le h
    have hdrop : (encode l).drop (max + 1) = [] := List.drop_of_length_le h
    rw [readLines, takeLine_encode hline, if_neg (htaken hl), htake, fromUtf8_encode, hdrop, pieces_of_le h]
    rfl
  | case2 l h p rest hcut ih =>
    obtain ⟨rfl, hsize⟩ := cutAt_eq_some hcut
    have hrest : rest ≠ [] := by
      rintro rfl
      rw [List.append_nil] at h
      omega
    have hdrop : (encode (p ++ rest)).drop (max + 1) = encode rest := by
      rw [encode_append, ← hsize]
      exact List.drop_left
    rw [readLines, takeLine_encode hline, if_neg (htaken hl), fromUtf8_take (by omega), hcut, hdrop, ← encode_append,
      pieces_of_cut h hcut]
    show String.ofList p :: readLines max (encode (rest ++ more)) = _
    rw [ih hrest (hline.of_append hrest), List.map_cons, List.cons_append]
  | case3 l h hcut =>
    rw [readLines, takeLine_encode hline, if_neg (htaken hl), fromUtf8_take (by omega), hcut, pieces_of_not_cut h hcut,
      if_neg hl]
    rfl

theorem readLines_of_not_cut {n : ℕ} {content : List Char} (hcut : cutAt n content = none) :
    readLines max ((encode content).drop n) = [] := by
  cases hdrop : (encode content).drop n with
  | nil => exact readLines_nil max
  | cons x b =>
    have hnot := cutAt_none hcut hdrop
    have hhead : ∃ b', (takeLine (max + 1) (x :: b)).1 = x :: b' := by
      rw [takeLine]
      split_ifs <;> exact ⟨_, rfl⟩
    obtain ⟨b', hb'⟩ := hhead
    rw [readLines, hb', if_neg (by simp)]
    cases hread : fromUtf8 (x :: b') with
    | none => rfl
    | some s => exact absurd (firstByte_of_fromUtf8 hread) hnot

end Reader

/-! ## Contents -/

section Contents

variable {max start : ℕ} {l lost : List Char} {ls ps rest : List (List Char)}

theorem requestsAt_sent_iff (hl : ps.flatten ++ lost = l)
    (hrest : requestsAt max (start + byteSize l) rest = requestsAt max (start + byteSize l) ls ↔ LinesWhole max ls) :
    requestsAt max start (ps ++ if lost = [] then rest else []) = requestsAt max start (l :: ls) ↔
      LineWhole max ps lost ∧ if lost = [] then LinesWhole max ls else ls.all isBlank := by
  by_cases h : lost = []
  · rw [if_pos h, if_pos h, requestsAt_line_iff hl (Or.inl h), hrest]
  · rw [if_neg h, if_neg h, requestsAt_line_iff hl (Or.inr rfl), eq_comm (a := requestsAt max _ []), requestsAt,
      requestsAt_eq_nil_iff]

theorem map_readLines_line (max : ℕ) {more : List Char} (hl : l ≠ []) (hline : IsLine l more) :
    (readLines max (encode (l ++ more))).map String.toList = (pieces max l).1 ++
      if (pieces max l).2 = [] then (readLines max (encode more)).map String.toList else [] := by
  have hid : ∀ ls : List (List Char), (ls.map String.ofList).map String.toList = ls := by
    intro ls
    rw [List.map_map]
    exact List.map_id'' (fun l => String.toList_ofList) ls
  rw [readLines_line max hl hline, List.map_append, hid]
  split_ifs <;> rfl

theorem requestsAt_readLines_iff (max : ℕ) (cs : List Char) (start : ℕ) :
    requestsAt max start ((readLines max (encode cs)).map String.toList) = requestsAt max start (lines cs) ↔
      LinesWhole max (lines cs) := by
  induction cs using lines_induction generalizing start with
  | nil =>
    rw [encode_nil, readLines_nil]
    exact iff_of_true rfl trivial
  | last m hm hne =>
    have hsent := map_readLines_line max hne ⟨m, hm, Or.inr ⟨rfl, rfl⟩⟩
    rw [List.append_nil, encode_nil, readLines_nil, List.map_nil] at hsent
    rw [lines_of_not_mem hm hne, hsent]
    exact requestsAt_sent_iff (flatten_pieces max m) (iff_of_true rfl trivial)
  | line m more hm ih =>
    have hne : m ++ ['\n'] ≠ [] := by simp
    rw [lines_newline hm, List.append_cons, map_readLines_line max hne ⟨m, hm, Or.inl rfl⟩]
    exact requestsAt_sent_iff (flatten_pieces max _) (ih _)

theorem atMostOneText_concat_iff {pre x : List Char} (hpre : ¬ isBlank pre) :
    AtMostOneText (lines pre ++ [x]) ↔ AtMostOneText (lines pre) ∧ isBlank x := by
  have hpos : 0 < (lines pre).countP fun l => !isBlank l := by
    rw [Nat.pos_iff_ne_zero, ne_eq, List.countP_eq_zero]
    intro hnone
    apply hpre
    rw [← all_isBlank_lines, List.all_eq_true]
    intro l hl
    simpa using hnone l hl
  rw [AtMostOneText, AtMostOneText, List.countP_append, List.countP_singleton]
  by_cases hx : isBlank x
  · simp [hx]
  · rw [if_pos (by simp [hx])]
    exact iff_of_false (by omega) fun hand => hx hand.2

theorem atMostOneText_concat_of_blank {pre : List Char} (hpre : isBlank pre) (x : List Char) :
    AtMostOneText (lines pre ++ [x]) := by
  rw [AtMostOneText, List.countP_append, List.countP_eq_zero.mpr, Nat.zero_add]
  · exact List.countP_le_length
  · intro l hl
    have hl' := List.all_eq_true.mp ((all_isBlank_lines pre).trans hpre) l hl
    simp [hl']

theorem requestAt_lt {pre x : List Char} (hpre : ¬ isBlank pre) {y : ℕ × Request}
    (hy : y ∈ requestAt max 0 (pre ++ x)) : y.1 < byteSize pre := by
  have hpx : ¬ isBlank (pre ++ x) := by
    rw [isBlank_append, Bool.and_eq_true]
    exact fun hand => hpre hand.1
  rw [requestAt_of_not_blank hpx, takeWhile_append_of_not_blank hpre, Nat.zero_add] at hy
  rw [List.mem_singleton.mp hy]
  exact byteSize_takeWhile_lt hpre

theorem requestAt_glued_iff {pre x : List Char} (hpre : byteSize pre ≤ max) :
    requestAt max 0 (pre ++ x) = requestsAt max 0 (lines pre) ↔ AtMostOneText (lines pre) ∧ isBlank x := by
  have hpieces : requestsAt max 0 (lines pre) = requestAt max 0 ((lines pre).flatten ++ x) ↔
      LineWhole max (lines pre) x := requestsAt_pieces_iff
  have hsmall : ¬ ∃ p ∈ lines pre, byteSize (trim p) > max := by
    rintro ⟨p, hp, hlarge⟩
    have hle := byteSize_le_of_mem hp
    have htrim := byteSize_trim_le p
    rw [flatten_lines] at hle
    omega
  rw [flatten_lines, LineWhole, or_iff_left hsmall] at hpieces
  rw [eq_comm, hpieces]

/-- The bytes of the first read, but for the last line in them, stand in front of the first line. -/
theorem requestsAt_glued_iff {pre x : List Char} (hpre : byteSize pre ≤ max) :
    requestsAt max 0 ((pre ++ x) :: rest) = requestsAt max 0 (lines pre ++ ls) ↔
      AtMostOneText (lines pre ++ [x]) ∧
        requestsAt max (byteSize pre) (x :: rest) = requestsAt max (byteSize pre) ls := by
  rw [requestsAt, byteSize_append, ← Nat.add_assoc, Nat.zero_add, requestsAt_append, flatten_lines, Nat.zero_add]
  by_cases hblank : isBlank pre
  · rw [requestAt_append_of_blank hblank, Nat.zero_add,
      requestsAt_eq_nil_iff.mpr ((all_isBlank_lines pre).trans hblank), List.nil_append,
      and_iff_right (atMostOneText_concat_of_blank hblank x), requestsAt]
  · rw [append_eq_append_of_places (m := byteSize pre) (fun y hy => requestAt_lt hblank hy), requestAt_glued_iff hpre,
      atMostOneText_concat_iff hblank]
    · refine and_congr_right fun hone => ?_
      rw [requestsAt, requestAt_blank hone.2, List.nil_append]
    · intro y hy
      have hy' := (mem_requestsAt hy).2
      rwa [flatten_lines, Nat.zero_add] at hy'
    · intro y hy
      have hy' := (mem_requestsAt hy).1
      omega
    · exact fun y hy => (mem_requestsAt hy).1

end Contents

/-! ## The first read -/

/-- What a first read may give: up to four bytes, and none only at the end. -/
structure FirstRead (content : Bytes) (peeked : ℕ) : Prop where
  le_four : peeked ≤ 4
  le_length : peeked ≤ content.length
  nonempty : peeked = 0 → content = []

/-- The first bytes do not announce a frame. -/
structure InJsonMode (content : Bytes) (peeked : ℕ) : Prop extends FirstRead content peeked where
  mode : ndaLength (content.take peeked) = none

section FirstRead

variable {max peeked : ℕ} {content : List Char}

theorem fromUtf8Lossy_encode (cs : List Char) : fromUtf8Lossy (encode cs) = String.ofList cs := by
  unfold fromUtf8Lossy
  cases h : (encode cs).length with
  | zero =>
    rw [byteSize_eq_zero h]
    rfl
  | succ n => rw [fromUtf8Lossy.go, fromUtf8_encode]

theorem gluedLines_nil {initial input : Bytes} (h : readLines max input = []) : gluedLines max initial input = [] := by
  rw [gluedLines, h]

theorem map_gluedLines_cons {peek first : List Char} {input : Bytes} {more : List String}
    (h : readLines max input = String.ofList first :: more) :
    (gluedLines max (encode peek) input).map String.toList = (peek ++ first) :: more.map String.toList := by
  rw [gluedLines, h]
  show List.map _ (if encode peek = [] then String.ofList first :: more else _) = _
  by_cases hpeek : encode peek = []
  · have hnil : peek = [] := byteSize_eq_zero (by rw [byteSize, hpeek]; rfl)
    rw [if_pos hpeek, hnil, List.map_cons, String.toList_ofList, List.nil_append]
  · rw [if_neg hpeek, fromUtf8Lossy_encode, List.map_cons, String.toList_append, String.toList_ofList,
      String.toList_ofList]

theorem handledAt_nil_iff (h : readLines max ((encode content).drop peeked) = []) :
    handledAt max (encode content) peeked = lineRequests max content ↔ isBlank content := by
  rw [handledAt, gluedLines_nil h, List.map_nil, requestsAt, lineRequests, eq_comm, requestsAt_eq_nil_iff,
    all_isBlank_lines]

theorem handledAt_iff (hpeeked : peeked ≤ 4) (hmax : 4 ≤ max) :
    handledAt max (encode content) peeked = lineRequests max content ↔ WellFramed max content peeked := by
  unfold WellFramed
  -- the peek ends between two characters, or inside one
  cases hcut : cutAt peeked content with
  | none => exact handledAt_nil_iff (readLines_of_not_cut hcut)
  | some r =>
    obtain ⟨peek, rest⟩ := r
    obtain ⟨rfl, rfl⟩ := cutAt_eq_some hcut
    have hdrop : (encode (peek ++ rest)).drop (byteSize peek) = encode rest := by
      rw [encode_append]
      exact List.drop_left
    have htake : (encode (peek ++ rest)).take (byteSize peek) = encode peek := by
      rw [encode_append]
      exact List.take_left
    simp only
    cases hlines : lines rest with
    | nil =>
      have hrest : rest = [] := by rw [← flatten_lines rest, hlines]; rfl
      refine handledAt_nil_iff ?_
      rw [hdrop, hrest, encode_nil, readLines_nil]
    | cons l ls =>
      obtain ⟨more, rfl, hline, hne, hls⟩ := lines_eq_cons hlines
      have hflat := flatten_pieces max l
      have hread := readLines_line max hne hline
      simp only
      rcases hpieces : pieces max l with ⟨_ | ⟨first, ps⟩, lost⟩
      · rw [hpieces] at hflat hread
        refine handledAt_nil_iff ?_
        rw [hdrop, hread]
        obtain rfl : lost = l := hflat
        rw [if_neg hne]
        rfl
      · rw [hpieces] at hflat
        have hsent := map_readLines_line max hne hline
        rw [hpieces] at hread hsent
        obtain ⟨sent, hread⟩ : ∃ sent, readLines max (encode (l ++ more)) = String.ofList first :: sent := ⟨_, hread⟩
        rw [hread] at hsent
        have htail := (List.cons.inj hsent).2
        -- the peek's last line is open, and the first line read is glued to it
        have hpeek : (peek.rdropWhile fun c => decide (c ≠ '\n')) ++ (peek.rtakeWhile fun c => decide (c ≠ '\n')) =
          peek := List.rdropWhile_append_rtakeWhile
        have hended := getLast_rdropWhile_newline peek
        have hopen := newline_not_mem_rtakeWhile peek
        set pre := peek.rdropWhile fun c => decide (c ≠ '\n')
        set a := peek.rtakeWhile fun c => decide (c ≠ '\n')
        have hwhole : ((a ++ first) :: ps).flatten ++ lost = a ++ l := by
          rw [← hflat]
          simp
        have hbound : byteSize pre ≤ max := by
          rw [← hpeek, byteSize_append] at hpeeked
          omega
        rw [handledAt, htake, hdrop, map_gluedLines_cons hread, lineRequests, ← hpeek, List.append_assoc,
          List.append_assoc, lines_append hended, lines_prepend hopen hlines, requestsAt_glued_iff hbound]
        refine and_congr_right fun _ => ?_
        rw [htail]
        have hbehind := requestsAt_readLines_iff max more (byteSize pre + byteSize (a ++ l))
        rw [hls] at hbehind
        exact requestsAt_sent_iff hwhole hbehind

end FirstRead

/-- **Framing in JSON mode**: what a process handles is the lines of its input, each at its place, exactly if the
input is well framed for the first read. -/
theorem handled_iff {content : Bytes} {text : String} {peeked : ℕ} (hutf8 : fromUtf8 content = some text)
    (hread : InJsonMode content peeked) :
    handledAt maxRequestSize content peeked = lineRequests maxRequestSize text.toList ↔
      WellFramed maxRequestSize text.toList peeked := by
  rw [eq_encode_of_fromUtf8 hutf8]
  exact handledAt_iff hread.le_four (by decide)

def emptyObject : String := "\x7b\x7d\n"

/-- `{}` and a newline. -/
theorem handled_iff_emptyObject : WellFramed maxRequestSize emptyObject.toList 1 ∧
    handledAt maxRequestSize (utf8 emptyObject) 1 = lineRequests maxRequestSize emptyObject.toList := by
  have hframed : WellFramed maxRequestSize emptyObject.toList 1 := by
    have hcut : cutAt 1 emptyObject.toList = some (['\x7b'], ['\x7d', '\n']) := by decide
    have hlines : lines ['\x7d', '\n'] = [['\x7d', '\n']] := by decide
    unfold WellFramed
    rw [hcut]
    simp only [hlines, pieces_of_le (show byteSize ['\x7d', '\n'] ≤ maxRequestSize + 1 by decide)]
    exact ⟨by decide, ⟨by decide, Or.inl rfl⟩, trivial⟩
  exact ⟨hframed, (handled_iff (fromUtf8_utf8 _) ⟨⟨by decide, by decide, by decide⟩, by decide⟩).mpr hframed⟩

/-- A request that comes whole with the first read is lost. -/
theorem short_content_lost : InJsonMode (utf8 emptyObject) 3 ∧
    handledAt maxRequestSize (utf8 emptyObject) 3 ≠ lineRequests maxRequestSize emptyObject.toList := by
  refine ⟨⟨⟨by decide, by decide, by decide⟩, by decide⟩, fun heq => ?_⟩
  have hread : readLines maxRequestSize ((utf8 emptyObject).drop 3) = [] := readLines_nil _
  rw [handledAt, gluedLines_nil hread] at heq
  have hsome : lineRequests maxRequestSize emptyObject.toList ≠ [] := by decide
  exact hsome heq.symm

end VelocityMcp.Stdio
