import VelocityMcp.Interp.Reading

/-!
# Interp.Grammar — every grammar function reads what it builds (`interp_core/interp.c`)

One lemma for each function of the parser, from the literals up to the statements.
-/

namespace VelocityMcp.Interp

open Lib

section Functions

variable {d : Dialect} {expr stmt : Parser → Parsed} {k n : ℕ} {p : Parser}

/-! ## Literals -/

theorem checked {type : TokenType} (hcheck : p.check type = true) : p.current.type = type := check_iff.mp hcheck

theorem makes_leaf {a : Ast} (htype : p.current.type ≠ TokenType.eof) (hends : p.Ends)
    (hitems : a.items = p.current.items) (hpresent : p.current.items ≠ []) (hcost : a.cost = 32) (hok : a.Ordinary) :
    Makes p a p.advance.node := by
  refine ⟨⟨((reads_advance htype hends).trans (.node _)).congr (by rw [hitems, List.append_nil]) (by omega),
    fun _ => hok⟩, fun _ => ?_, fun _ => by rw [hitems]; exact hpresent⟩
  have hlength := Parser.length_rest_advance hends htype
  show p.advance.rest.length < _
  omega

theorem makes_parseString (htype : p.current.type = .string) (hends : p.Ends) :
    Makes p (parseString p).1 (parseString p).2 := by
  have hitems : p.current.items = [.string p.current.text] := Token.items_eq htype
  exact makes_leaf (by rw [htype]; exact fun h => by cases h) hends hitems.symm (by rw [hitems]; simp) rfl trivial

theorem makes_parseIdent (htype : p.current.type = .ident) (hends : p.Ends) :
    Makes p (parseIdent p).1 (parseIdent p).2 := by
  have hitems : p.current.items = [.ident p.current.text] := Token.items_eq htype
  exact makes_leaf (by rw [htype]; exact fun h => by cases h) hends hitems.symm (by rw [hitems]; simp) rfl trivial

theorem makes_parseKey {key : Ast} {q : Parser} (hends : p.Ends) (h : parseKey p = some (key, q)) : Makes p key q := by
  unfold parseKey at h
  split at h
  · rename_i htype
    obtain ⟨rfl, rfl⟩ := Prod.mk.inj (Option.some.inj h)
    exact makes_parseIdent htype hends
  · rename_i htype
    obtain ⟨rfl, rfl⟩ := Prod.mk.inj (Option.some.inj h)
    exact makes_parseString htype hends
  · cases h

theorem builds_keepItem {α : Type} {q : Parser} {items : List α → List Item} {cost : List α → ℕ} {ok : List α → Prop}
    (room count : ℕ) {item : α} (h : Builds p q (items [item]) (cost [item]) (ok [item]))
    (hitem : q.error = none → items [item] ≠ []) (hnil : items [] = []) (hcost : cost [] = 0) (hok : ok []) :
    Builds p (keepItem room count item q).2 (items (keepItem room count item q).1)
      (cost (keepItem room count item q).1) (ok (keepItem room count item q).1) := by
  unfold keepItem
  by_cases hroom : count < room
  · rw [if_pos hroom]
    exact h
  · rw [if_neg hroom, hnil, hcost]
    exact ⟨h.reads.drop hitem, fun _ => hok⟩

theorem error_keepItem {α : Type} (room count : ℕ) (item : α) (q : Parser) :
    (keepItem room count item q).2.error = q.error := by
  unfold keepItem
  split <;> rfl

theorem rest_keepItem {α : Type} (room count : ℕ) (item : α) (q : Parser) :
    (keepItem room count item q).2.rest = q.rest := by
  unfold keepItem
  split <;> rfl

theorem length_keepItem {α : Type} {room count : ℕ} (item : α) (q : Parser) (h : count ≤ room) :
    count + (keepItem room count item q).1.length ≤ room := by
  unfold keepItem
  split
  · rename_i hroom
    exact hroom
  · exact h

theorem parseElements_builds (hexpr : Meets k expr) : ∀ (n count : ℕ) (p : Parser), p.Ends → p.rest.length ≤ k →
    p.rest.length < n → ∃ es q, parseElements d expr n count p = .done (es, q) ∧
      Builds p q (Ast.itemsAll es) (Ast.costAll es) (Ast.OrdinaryAll es) ∧ (count ≤ 256 → count + es.length ≤ 256)
  | 0, _, _, _, _, hn => absurd hn (by omega)
  | n + 1, count, p, hends, hk, hn => by
    rw [parseElements]
    by_cases hcomma : p.check .comma = true
    · have hread := reads_silent hcomma (fun h => by cases h) silent_comma hends
      have hlength := length_rest_of_check hcomma (fun h => by cases h) hends
      have hskip := hread.trans (reads_skipStmtNewlines d (hread.ends hends))
      have hshorter := (reads_skipStmtNewlines d (hread.ends hends)).shorter
      rw [if_pos hcomma]
      by_cases hbracket : (skipStmtNewlines d p.advance).check .rbracket = true
      · exact ⟨[], _, if_pos hbracket, .of_reads hskip, id⟩
      · rw [if_neg hbracket]
        by_cases hroom : count < 256
        · rw [if_pos hroom]
          obtain ⟨e, q, he, hmakes⟩ := hexpr _ (hskip.ends hends) (by omega)
          have hq := hmakes.shorter
          obtain ⟨es, r, hes, hbuilds, hcount⟩ := parseElements_builds hexpr n (count + 1) q
            (hmakes.ends (hskip.ends hends)) (by omega) (by omega)
          rw [he, Run.done_bind]
          simp only [hes, Run.done_bind]
          exact ⟨e :: es, r, rfl, ((Builds.after hskip hmakes.builds).trans hbuilds).congr rfl
            (by simp only [Ast.costAll]; omega) id, fun _ => by rw [List.length_cons]; omega⟩
        · rw [if_neg hroom]
          obtain ⟨es, r, hes, hbuilds, hcount⟩ := parseElements_builds hexpr n count _ (hskip.ends hends) (by omega)
            (by omega)
          exact ⟨es, r, hes, (Builds.after hskip hbuilds).congr rfl (by omega) id, hcount⟩
    · rw [if_neg hcomma]
      exact ⟨[], p, rfl, .of_reads (.refl p), id⟩

theorem builds_entry {key value : Ast} {q r : Parser} (hends : p.Ends) (hkey : Makes p key q)
    (hbinds : q.check .colon = true ∨ q.check .arrow = true) (hvalue : Makes q.advance value r) :
    Builds p r (Ast.itemsEntries [(key, value)]) (Ast.costEntries [(key, value)])
      (Ast.OrdinaryEntries [(key, value)]) := by
  have hread : Reads q q.advance [.mark .assign] 0 := by
    rcases hbinds with hcolon | harrow
    · exact (reads_advance_of_check hcolon (fun h => by cases h) (hkey.ends hends)).congr
        (Token.items_eq (checked hcolon)).symm (le_refl _)
    · exact (reads_advance_of_check harrow (fun h => by cases h) (hkey.ends hends)).congr
        (Token.items_eq (checked harrow)).symm (le_refl _)
  exact ((hkey.builds.andThen hread).trans hvalue.builds).congr (by simp [Ast.itemsEntries])
    (by simp only [Ast.costEntries]; omega) fun h => ⟨h.1, h.2, trivial⟩

theorem itemsEntries_ne_nil (key value : Ast) : Ast.itemsEntries [(key, value)] ≠ [] := by
  simp [Ast.itemsEntries]

theorem rest_advance_lt {type : TokenType} (hcheck : p.check type = true) (htype : type ≠ TokenType.eof)
    (hends : p.Ends) : p.advance.rest.length < p.rest.length := by
  have hlength := length_rest_of_check hcheck htype hends
  omega

/-- An entry behind its key: its value is read, and it is kept where there is room. -/
theorem entry_builds {key : Ast} {q r : Parser} (hexpr : Meets k expr) (hends : q.Ends) (hk : q.rest.length ≤ k)
    (hkey : Makes q key r) (hbinds : r.check .colon = true ∨ r.check .arrow = true) (count : ℕ) :
    ∃ value t entry u, expr r.advance = .done (value, t) ∧ keepItem 64 count (key, value) t = (entry, u) ∧
      Builds q u (Ast.itemsEntries entry) (Ast.costEntries entry) (Ast.OrdinaryEntries entry) ∧
      u.rest.length < q.rest.length ∧ (count ≤ 64 → count + entry.length ≤ 64) := by
  have hr := hkey.shorter
  have hadvance : r.advance.rest.length < r.rest.length := by
    rcases hbinds with hcheck | hcheck
    · exact rest_advance_lt hcheck (fun h => by cases h) (hkey.ends hends)
    · exact rest_advance_lt hcheck (fun h => by cases h) (hkey.ends hends)
  obtain ⟨value, t, hvalue, hmakes⟩ := hexpr r.advance (hkey.ends hends).advance (by omega)
  have ht := hmakes.shorter
  have hrest := rest_keepItem 64 count (key, value) t
  exact ⟨value, t, (keepItem 64 count (key, value) t).1, (keepItem 64 count (key, value) t).2, hvalue, rfl,
    builds_keepItem 64 count (builds_entry hends hkey hbinds hmakes) (fun _ => itemsEntries_ne_nil key value) rfl rfl
      trivial, by rw [hrest]; omega, length_keepItem (key, value) t⟩

theorem parseBracketEntries_builds (hexpr : Meets k expr) : ∀ (n count : ℕ) (p : Parser), p.Ends → p.rest.length ≤ k →
    p.rest.length < n → ∃ es q, parseBracketEntries d expr n count p = .done (es, q) ∧
      Builds p q (Ast.itemsEntries es) (Ast.costEntries es) (Ast.OrdinaryEntries es) ∧
      (count ≤ 64 → count + es.length ≤ 64)
  | 0, _, _, _, _, hn => absurd hn (by omega)
  | n + 1, count, p, hends, hk, hn => by
    rw [parseBracketEntries]
    by_cases hcomma : p.check .comma = true
    · have hread := reads_silent hcomma (fun h => by cases h) silent_comma hends
      have hlength := rest_advance_lt hcomma (fun h => by cases h) hends
      have hskip := reads_skipStmtNewlines d (hread.ends hends)
      have hshorter := hskip.shorter
      rw [if_pos hcomma]
      dsimp only
      generalize skipStmtNewlines d p.advance = q at hskip hshorter ⊢
      have hends' := hskip.ends (hread.ends hends)
      by_cases hbracket : q.check .rbracket = true
      · exact ⟨[], _, if_pos hbracket, .of_reads (hread.trans hskip), id⟩
      · rw [if_neg hbracket]
        cases hkey : parseKey q with
        | none => exact ⟨[], _, rfl, .of_reads ((hread.trans hskip).trans (.fail _ _ [])), id⟩
        | some pair =>
          obtain ⟨key, r⟩ := pair
          have hmakes := makes_parseKey hends' hkey
          dsimp only
          by_cases harrow : r.check .arrow = true
          · obtain ⟨value, t, entry, u, hvalue, hkept, hentry, hu, hroom⟩ :=
              entry_builds hexpr hends' (by omega) hmakes (Or.inr harrow) count
            have hskip' := reads_skipStmtNewlines d (hentry.reads.ends hends')
            have hshorter' := hskip'.shorter
            obtain ⟨es, v, hes, hbuilds, hcount⟩ := parseBracketEntries_builds hexpr n (count + entry.length)
              (skipStmtNewlines d u) (hskip'.ends (hentry.reads.ends hends')) (by omega) (by omega)
            rw [if_pos harrow, hvalue, Run.done_bind]
            dsimp only
            rw [hkept]
            dsimp only
            rw [hes, Run.done_bind]
            exact ⟨entry ++ es, v, rfl, ((Builds.after (hread.trans hskip) hentry).trans (Builds.after hskip' hbuilds)).congr
              (by simp) (by rw [Ast.costEntries_append]; omega) (Ast.ordinaryEntries_append _ _).mpr,
              fun hle => by rw [List.length_append]; have h := hcount (hroom hle); omega⟩
          · rw [if_neg harrow]
            exact ⟨[], _, rfl, .of_reads (((hread.trans hskip).trans hmakes.builds.reads).trans (.fail _ _ [])
              |>.of_error (Parser.fail_error _) |>.congr rfl (Nat.zero_le _)), id⟩
    · rw [if_neg hcomma]
      exact ⟨[], p, rfl, .of_reads (.refl p), id⟩

theorem parseBraceEntries_builds (hexpr : Meets k expr) : ∀ (n count : ℕ) (p : Parser), p.Ends → p.rest.length < k →
    p.rest.length < n → ∃ es q, parseBraceEntries d expr n count p = .done (es, q) ∧
      Builds p q (Ast.itemsEntries es) (Ast.costEntries es) (Ast.OrdinaryEntries es) ∧
      (count ≤ 64 → count + es.length ≤ 64)
  | 0, _, _, _, _, hn => absurd hn (by omega)
  | n + 1, count, p, hends, hk, hn => by
    rw [parseBraceEntries]
    have hskip := reads_skipStmtNewlines d hends
    have hshorter := hskip.shorter
    dsimp only
    generalize skipStmtNewlines d p = q at hskip hshorter ⊢
    have hends' := hskip.ends hends
    by_cases hbrace : q.check .rbrace = true
    · exact ⟨[], _, if_pos hbrace, .of_reads hskip, id⟩
    rw [if_neg hbrace]
    cases hkey : parseKey q with
    | none => exact ⟨[], _, rfl, .of_reads (hskip.trans (.fail _ _ [])), id⟩
    | some pair =>
      obtain ⟨key, r⟩ := pair
      have hmakes := makes_parseKey hends' hkey
      dsimp only
      by_cases hbinds : (r.check .colon || r.check .arrow) = true
      · obtain ⟨value, t, entry, u, hvalue, hkept, hentry, hu, hroom⟩ :=
          entry_builds hexpr hends' (by omega) hmakes (Bool.or_eq_true_iff.mp hbinds) count
        have hends'' := hentry.reads.ends hends'
        have hskip' := reads_skipStmtNewlines d hends''
        have hshorter' := hskip'.shorter
        rw [if_pos hbinds, hvalue, Run.done_bind]
        dsimp only
        rw [hkept]
        dsimp only
        by_cases hcomma : (skipStmtNewlines d u).check .comma = true
        · have hread := reads_silent hcomma (fun h => by cases h) silent_comma (hskip'.ends hends'')
          have hlength := rest_advance_lt hcomma (fun h => by cases h) (hskip'.ends hends'')
          obtain ⟨es, v, hes, hbuilds, hcount⟩ := parseBraceEntries_builds hexpr n (count + entry.length) _
            (hskip'.ends hends'').advance (by omega) (by omega)
          rw [if_pos hcomma, hes, Run.done_bind]
          exact ⟨entry ++ es, v, rfl,
            ((Builds.after hskip hentry).trans (Builds.after (hskip'.trans hread) hbuilds)).congr (by simp)
              (by rw [Ast.costEntries_append]; omega) (Ast.ordinaryEntries_append _ _).mpr,
            fun hle => by rw [List.length_append]; have h := hcount (hroom hle); omega⟩
        · rw [if_neg hcomma]
          exact ⟨entry, _, rfl, ((Builds.after hskip hentry).andThen hskip').congr (by simp) (by omega) id, hroom⟩
      · rw [if_neg hbinds]
        exact ⟨[], _, rfl, .of_reads ((hskip.trans hmakes.builds.reads).trans (.fail _ _ [])
          |>.of_error (Parser.fail_error _) |>.congr rfl (Nat.zero_le _)), id⟩

theorem builds_close {q : Parser} {closing : TokenType} {a : List Item} {m : ℕ} {ok : Prop} (text : ℕ → String)
    (hclosing : closing = .rbracket ∨ closing = .rbrace) (hends : p.Ends) (h : Builds p q a m ok) :
    Builds p ((skipStmtNewlines d q).expect closing text) (a ++ [.mark .rbracket]) m ok := by
  have hskip := reads_skipStmtNewlines d (h.reads.ends hends)
  have hexpect : Reads (skipStmtNewlines d q) ((skipStmtNewlines d q).expect closing text) [.mark .rbracket] 0 := by
    refine reads_expect (fun heq => ?_) (fun t ht => ?_) text (hskip.ends (h.reads.ends hends))
    · rcases hclosing with rfl | rfl <;> cases heq
    · rcases hclosing with rfl | rfl <;> exact Token.items_eq ht
  exact (h.andThen (hskip.trans hexpect)).congr (by simp) (by omega) id

theorem finishArray_builds {q : Parser} {elements : List Ast} (hends : p.Ends) (hroom : elements.length ≤ 256)
    (h : Builds p q (Ast.itemsAll elements) (Ast.costAll elements) (Ast.OrdinaryAll elements)) :
    Builds p (finishArray d elements q).2 (Ast.itemsAll elements ++ [.mark .rbracket])
      (finishArray d elements q).1.cost (finishArray d elements q).1.Ordinary :=
  (((builds_close _ (Or.inl rfl) hends h).andThen (.node _)).andThen (.pointers _ elements.length)).congr (by simp)
    (by simp only [finishArray, Ast.cost]; omega) fun h => ⟨hroom, h⟩

theorem finishMap_builds {q : Parser} {closing : TokenType} {entries : List (Ast × Ast)} (text : ℕ → String)
    (hclosing : closing = .rbracket ∨ closing = .rbrace) (hends : p.Ends) (hroom : entries.length ≤ 64)
    (h : Builds p q (Ast.itemsEntries entries) (Ast.costEntries entries) (Ast.OrdinaryEntries entries)) :
    Builds p (finishMap d closing text entries q).2 (Ast.itemsEntries entries ++ [.mark .rbracket])
      (finishMap d closing text entries q).1.cost (finishMap d closing text entries q).1.Ordinary :=
  ((((builds_close text hclosing hends h).andThen (.node _)).andThen (.pointers _ entries.length)).andThen
    (.pointers _ entries.length)).congr (by simp) (by simp only [finishMap, Ast.cost]; omega)
      fun h => ⟨hroom, h⟩

/-- The items of a literal behind its opening bracket. -/
def tailItems (a : Ast) : List Item := a.items.tail

theorem parseBracket_builds (hexpr : Meets k expr) (hends : p.Ends) (hk : p.rest.length < k) (hn : p.rest.length < n) :
    ∃ a q, parseBracket d expr n p = .done (a, q) ∧ Builds p q (tailItems a) a.cost a.Ordinary ∧
      a.items = .mark .lbracket :: tailItems a := by
  unfold parseBracket
  have hskip := reads_skipStmtNewlines d hends
  have hshorter := hskip.shorter
  dsimp only
  generalize skipStmtNewlines d p = q at hskip hshorter ⊢
  have hends' := hskip.ends hends
  by_cases hbracket : q.check .rbracket = true
  · rw [if_pos hbracket]
    exact ⟨_, _, rfl, finishArray_builds hends (Nat.zero_le _) ((Builds.of_reads hskip).congr rfl (le_refl _) id), rfl⟩
  rw [if_neg hbracket]
  obtain ⟨first, r, hfirst, hmakes⟩ := hexpr q hends' (by omega)
  have hr := hmakes.shorter
  rw [hfirst, Run.done_bind]
  dsimp only
  by_cases harrow : r.check .arrow = true
  · rw [if_pos harrow]
    have hadvance := rest_advance_lt harrow (fun h => by cases h) (hmakes.ends hends')
    obtain ⟨value, t, hvalue, hmakes'⟩ := hexpr r.advance (hmakes.ends hends').advance (by omega)
    have ht := hmakes'.shorter
    have hentry := builds_entry hends' hmakes (Or.inr harrow) hmakes'
    have hskip' := reads_skipStmtNewlines d (hentry.reads.ends hends')
    have hshorter' := hskip'.shorter
    obtain ⟨es, u, hes, hbuilds, hcount⟩ := parseBracketEntries_builds (d := d) hexpr n 1 (skipStmtNewlines d t)
      (hskip'.ends (hentry.reads.ends hends')) (by omega) (by omega)
    rw [hvalue, Run.done_bind]
    dsimp only
    rw [hes, Run.done_bind]
    dsimp only
    refine ⟨_, _, rfl, finishMap_builds _ (Or.inl rfl) hends (by rw [List.length_cons]; omega) ?_, rfl⟩
    exact ((Builds.after hskip hentry).trans (Builds.after hskip' hbuilds)).congr
      (by simp [Ast.itemsEntries]) (by simp only [Ast.costEntries]; omega) fun h => ⟨h.1.1, h.1.2.1, h.2⟩
  · rw [if_neg harrow]
    obtain ⟨es, u, hes, hbuilds, hcount⟩ := parseElements_builds (d := d) hexpr n 1 r (hmakes.ends hends') (by omega)
      (by omega)
    rw [hes, Run.done_bind]
    dsimp only
    refine ⟨_, _, rfl, finishArray_builds hends (by rw [List.length_cons]; omega) ?_, rfl⟩
    exact ((Builds.after hskip hmakes.builds).trans hbuilds).congr rfl (by simp only [Ast.costAll]; omega) id

theorem parseBrace_builds (hexpr : Meets k expr) (hends : p.Ends) (hk : p.rest.length < k) (hn : p.rest.length < n) :
    ∃ a q, parseBrace d expr n p = .done (a, q) ∧ Builds p q (tailItems a) a.cost a.Ordinary ∧
      a.items = .mark .lbracket :: tailItems a := by
  unfold parseBrace
  have hskip := reads_skipStmtNewlines d hends
  have hshorter := hskip.shorter
  dsimp only
  generalize skipStmtNewlines d p = q at hskip hshorter ⊢
  have hends' := hskip.ends hends
  by_cases hbrace : q.check .rbrace = true
  · rw [if_pos hbrace]
    exact ⟨_, _, rfl, finishMap_builds _ (Or.inr rfl) hends (Nat.zero_le _)
      ((Builds.of_reads hskip).congr rfl (le_refl _) id), rfl⟩
  · rw [if_neg hbrace]
    obtain ⟨es, r, hes, hbuilds, hcount⟩ := parseBraceEntries_builds (d := d) hexpr n 0 q hends' (by omega) (by omega)
    rw [hes, Run.done_bind]
    dsimp only
    refine ⟨_, _, rfl, finishMap_builds _ (Or.inr rfl) hends (by omega) ?_, rfl⟩
    exact (Builds.after hskip hbuilds).congr rfl (by omega) id

/-! ## Functions -/

theorem parseParam_builds (count : ℕ) (hends : p.Ends) :
    Builds p (parseParam count p).2 ((parseParam count p).1.map .ident) 0 True ∧
      (parseParam count p).2.rest.length ≤ p.rest.length := by
  unfold parseParam
  by_cases hident : p.check .ident = true
  · rw [if_pos hident]
    have hread := reads_advance_of_check hident (fun h => by cases h) hends
    have hitems : p.current.items = [.ident p.current.text] := Token.items_eq (checked hident)
    rw [hitems] at hread
    have hkeep := @builds_keepItem _ _ _ (fun ps : List Bytes => ps.map Item.ident) (fun _ => 0) (fun _ => True) 32
      count p.current.text (Builds.of_reads hread) (fun _ => by simp) rfl rfl trivial
    exact ⟨hkeep, hkeep.reads.shorter⟩
  · rw [if_neg hident]
    exact ⟨.of_reads (.refl p), le_refl _⟩

theorem parseParams_builds : ∀ (n count : ℕ) (p : Parser), p.Ends → p.rest.length < n →
    ∃ ps q, parseParams n count p = .done (ps, q) ∧ Builds p q (ps.map .ident) 0 True
  | 0, _, _, _, hn => absurd hn (by omega)
  | n + 1, count, p, hends, hn => by
    rw [parseParams]
    obtain ⟨hparam, hshorter⟩ := parseParam_builds count hends
    generalize parseParam count p = param at hparam hshorter ⊢
    obtain ⟨param, q⟩ := param
    dsimp only at hparam hshorter ⊢
    have hq := hparam.reads.ends hends
    by_cases hcomma : q.check .comma = true
    · have hread := reads_silent hcomma (fun h => by cases h) silent_comma hq
      have hlength := rest_advance_lt hcomma (fun h => by cases h) hq
      obtain ⟨ps, r, hps, hbuilds⟩ := parseParams_builds n (count + param.length) q.advance hq.advance (by omega)
      rw [if_pos hcomma, hps, Run.done_bind]
      exact ⟨param ++ ps, r, rfl, ((hparam.andThen hread).trans hbuilds).congr (by simp) (by omega) fun _ => trivial⟩
    · rw [if_neg hcomma]
      exact ⟨param, q, rfl, hparam⟩

theorem reads_expect_silent {q : Parser} {type : TokenType} {a : List Item} {m : ℕ} (htype : type ≠ TokenType.eof)
    (hsilent : type.Silent) (text : ℕ → String) (hends : p.Ends) (h : Reads p q a m) :
    Reads p (q.expect type text) a m :=
  (h.trans (reads_expect htype hsilent text (h.ends hends))).congr (by simp) (by omega)

theorem parseParamList_builds (hends : p.Ends) (hn : p.rest.length < n) :
    ∃ ps q, parseParamList n p = .done (ps, q) ∧ Builds p q (ps.map .ident) 0 True := by
  unfold parseParamList
  dsimp only
  by_cases hparen : p.check .lparen = true
  · have hread := reads_silent hparen (fun h => by cases h) silent_lparen hends
    have hlength := rest_advance_lt hparen (fun h => by cases h) hends
    rw [if_pos hparen]
    by_cases hclose : p.advance.check .rparen = true
    · rw [if_pos hclose]
      exact ⟨[], _, rfl, .of_reads (reads_expect_silent (fun h => by cases h) silent_rparen _ hends hread)⟩
    · obtain ⟨ps, q, hps, hbuilds⟩ := parseParams_builds n 0 p.advance hends.advance (by omega)
      rw [if_neg hclose, hps, Run.done_bind]
      refine ⟨ps, _, rfl, .of_reads ?_⟩
      exact reads_expect_silent (fun h => by cases h) silent_rparen _ hends
        ((Builds.after hread hbuilds).reads.congr rfl (by omega))
  · rw [if_neg hparen]
    exact ⟨[], p, rfl, .of_reads (.refl p)⟩

theorem parseName_builds (hends : p.Ends) :
    Reads p (parseName p).2 ((parseName p).1.toList.map .ident) 0 := by
  unfold parseName
  by_cases hident : p.check .ident = true
  · rw [if_pos hident]
    exact (reads_advance_of_check hident (fun h => by cases h) hends).congr (Token.items_eq (checked hident)).symm
      (le_refl _)
  · rw [if_neg hident]
    exact .refl p

theorem parseFunction_builds (hstmt : Meets k stmt) (hends : p.Ends) (hk : p.rest.length < k) (hn : p.rest.length < n) :
    ∃ a q, parseFunction stmt n p = .done (a, q) ∧ Builds p q (tailItems a) a.cost a.Ordinary ∧
      a.items = .mark .function :: tailItems a := by
  unfold parseFunction
  have hname := parseName_builds hends
  generalize parseName p = name at hname ⊢
  obtain ⟨name, q⟩ := name
  dsimp only at hname ⊢
  have hq := hname.shorter
  obtain ⟨ps, r, hps, hparams⟩ := parseParamList_builds (n := n) (hname.ends hends) (by omega)
  have hr := hparams.reads.shorter
  obtain ⟨body, s, hbody, hmakes⟩ := hstmt r (hparams.reads.ends (hname.ends hends)) (by omega)
  rw [hps, Run.done_bind]
  dsimp only
  rw [hbody, Run.done_bind]
  refine ⟨_, _, rfl, ?_, rfl⟩
  exact ((((Builds.after hname hparams).trans hmakes.builds).andThen (.node _)).andThen
    (.pointers _ ps.length)).congr (by simp [tailItems, Ast.items]) (by simp only [Ast.cost]; omega) fun h => h.2

/-! ## Expressions -/

theorem makes_behind {a : Ast} {q : Parser} {type opening : TokenType} (hends : p.Ends) (htype : p.current.type = type)
    (heof : type ≠ TokenType.eof) (hitems : ∀ t : Token, t.type = type → t.items = [.mark opening])
    (hbuilds : Builds p.advance q (tailItems a) a.cost a.Ordinary) (ha : a.items = .mark opening :: tailItems a) :
    Makes p a q := by
  have hread := reads_advance (p := p) (by rw [htype]; exact heof) hends
  have hlength := Parser.length_rest_advance hends (by rw [htype]; exact heof)
  have hshorter := hbuilds.reads.shorter
  rw [hitems _ htype] at hread
  refine ⟨(Builds.after hread hbuilds).congr ha (by omega) id, fun _ => by omega, fun _ => ?_⟩
  rw [ha]
  exact List.cons_ne_nil _ _

theorem parsePrimary_makes (hexpr : Meets k expr) (hstmt : Meets k stmt) (hends : p.Ends) (hk : p.rest.length ≤ k)
    (hn : p.rest.length ≤ n) : ∃ a q, parsePrimary d expr stmt n p = .done (a, q) ∧ Makes p a q := by
  have hleaf : ∀ {type : TokenType}, p.current.type = type → type ≠ .eof → p.advance.rest.length < p.rest.length :=
    fun htype heof => by
      have hlength := Parser.length_rest_advance hends (by rw [htype]; exact heof)
      omega
  unfold parsePrimary
  split
  · rename_i htype
    exact ⟨_, _, rfl, makes_leaf (by rw [htype]; exact fun h => by cases h) hends (Token.items_eq htype).symm
      (by rw [Token.items_eq htype]; exact List.cons_ne_nil _ _) rfl trivial⟩
  · rename_i htype
    exact ⟨_, _, rfl, makes_parseString htype hends⟩
  · rename_i htype
    exact ⟨_, _, rfl, makes_leaf (by rw [htype]; exact fun h => by cases h) hends (Token.items_eq htype).symm
      (by rw [Token.items_eq htype]; exact List.cons_ne_nil _ _) rfl trivial⟩
  · rename_i htype
    exact ⟨_, _, rfl, makes_leaf (by rw [htype]; exact fun h => by cases h) hends (Token.items_eq htype).symm
      (by rw [Token.items_eq htype]; exact List.cons_ne_nil _ _) rfl trivial⟩
  · rename_i htype
    exact ⟨_, _, rfl, makes_leaf (by rw [htype]; exact fun h => by cases h) hends (Token.items_eq htype).symm
      (by rw [Token.items_eq htype]; exact List.cons_ne_nil _ _) rfl trivial⟩
  · rename_i htype
    exact ⟨_, _, rfl, makes_parseIdent htype hends⟩
  · rename_i htype
    have hcheck : p.check .lparen = true := check_iff.mpr htype
    have hread := reads_silent hcheck (fun h => by cases h) silent_lparen hends
    have hlength := rest_advance_lt hcheck (fun h => by cases h) hends
    obtain ⟨e, q, he, hmakes⟩ := hexpr p.advance hends.advance (by omega)
    rw [he, Run.done_bind]
    exact ⟨e, _, rfl, hmakes.around hread
      (reads_expect (fun h => by cases h) silent_rparen _ (hmakes.ends hends.advance))⟩
  · rename_i htype
    have hlength := hleaf htype fun h => by cases h
    obtain ⟨a, q, ha, hbuilds, hitems⟩ := parseBracket_builds (d := d) (n := n) hexpr hends.advance (by omega) (by omega)
    exact ⟨a, q, ha, makes_behind hends htype (fun h => by cases h) (fun t ht => Token.items_eq ht) hbuilds hitems⟩
  · rename_i htype
    have hlength := hleaf htype fun h => by cases h
    obtain ⟨a, q, ha, hbuilds, hitems⟩ := parseBrace_builds (d := d) (n := n) hexpr hends.advance (by omega) (by omega)
    exact ⟨a, q, ha, makes_behind hends htype (fun h => by cases h) (fun t ht => Token.items_eq ht) hbuilds hitems⟩
  · rename_i htype
    have hlength := hleaf htype fun h => by cases h
    obtain ⟨a, q, ha, hbuilds, hitems⟩ := parseFunction_builds (n := n) hstmt hends.advance (by omega) (by omega)
    exact ⟨a, q, ha, makes_behind hends htype (fun h => by cases h) (fun t ht => Token.items_eq ht) hbuilds hitems⟩
  · -- no expression starts like this: an error, which everything that follows passes on
    refine ⟨_, _, rfl, .of_error ⟨?_, fun _ => trivial⟩ ?_⟩
    · exact (((Reads.fail p _ (Ast.items .nullLit)).trans (reads_advance_of_error (Parser.fail_error _) [])).trans (.node _)).congr
        (by simp) (by simp only [Ast.cost]; omega)
    · show (p.fail _).advance.error.isSome = true
      rw [Parser.advance_error]
      exact Parser.fail_error _

theorem Makes.extend {a b : Ast} {q r : Parser} {items : List Item} {bytes : ℕ} {ok : Prop} (h : Makes p a q)
    (hbuilds : Builds q r items bytes ok) (hitems : b.items = a.items ++ items) (hcost : b.cost ≤ a.cost + bytes)
    (hok : a.Ordinary → ok → b.Ordinary) : Makes p b r := by
  refine ⟨(h.builds.trans hbuilds).congr hitems hcost fun hboth => hok hboth.1 hboth.2, fun herror => ?_, fun herror => ?_⟩
  · have hprogress := h.progress (hbuilds.reads.error_none herror)
    have hshorter := hbuilds.reads.shorter
    omega
  · rw [hitems]
    exact fun hnil => h.present (hbuilds.reads.error_none herror) (List.append_eq_nil_iff.mp hnil).1

theorem parseArgs_builds (hexpr : Meets k expr) : ∀ (n count : ℕ) (p : Parser), p.Ends → p.rest.length ≤ k →
    p.rest.length < n → ∃ es q, parseArgs d expr n count p = .done (es, q) ∧
      Builds p q (Ast.itemsAll es) (Ast.costAll es) (Ast.OrdinaryAll es) ∧ (count ≤ 32 → count + es.length ≤ 32)
  | 0, _, _, _, _, hn => absurd hn (by omega)
  | n + 1, count, p, hends, hk, hn => by
    rw [parseArgs]
    by_cases hcomma : p.check .comma = true
    · have hread := reads_silent hcomma (fun h => by cases h) silent_comma hends
      have hlength := rest_advance_lt hcomma (fun h => by cases h) hends
      have hskip := reads_skipStmtNewlines d (hread.ends hends)
      have hshorter := hskip.shorter
      have hboth := hread.trans hskip
      rw [if_pos hcomma]
      by_cases hroom : count < 32
      · obtain ⟨e, q, he, hmakes⟩ := hexpr _ (hboth.ends hends) (by omega)
        have hq := hmakes.shorter
        obtain ⟨es, r, hes, hbuilds, hcount⟩ := parseArgs_builds hexpr n (count + 1) q
          (hmakes.ends (hboth.ends hends)) (by omega) (by omega)
        simp only [if_pos hroom, he, Run.done_bind, hes]
        exact ⟨e :: es, r, rfl, ((Builds.after hboth hmakes.builds).trans hbuilds).congr rfl
          (by simp only [Ast.costAll]; omega) id, fun _ => by rw [List.length_cons]; omega⟩
      · obtain ⟨es, r, hes, hbuilds, hcount⟩ := parseArgs_builds hexpr n count _ (hboth.ends hends) (by omega) (by omega)
        simp only [if_neg hroom]
        exact ⟨es, r, hes, (Builds.after hboth hbuilds).congr rfl (by omega) id, hcount⟩
    · rw [if_neg hcomma]
      exact ⟨[], p, rfl, .of_reads (.refl p), id⟩

theorem parseArgList_builds (hexpr : Meets k expr) (hends : p.Ends) (hk : p.rest.length < k) (hn : p.rest.length < n) :
    ∃ es q, parseArgList d expr n p = .done (es, q) ∧
      Builds p q (Ast.itemsAll es) (Ast.costAll es) (Ast.OrdinaryAll es) ∧ es.length ≤ 32 := by
  unfold parseArgList
  have hskip := reads_skipStmtNewlines d hends
  have hshorter := hskip.shorter
  dsimp only
  generalize skipStmtNewlines d p = q at hskip hshorter ⊢
  have hends' := hskip.ends hends
  by_cases hparen : q.check .rparen = true
  · rw [if_pos hparen]
    exact ⟨[], q, rfl, .of_reads hskip, Nat.zero_le _⟩
  · rw [if_neg hparen]
    obtain ⟨e, r, he, hmakes⟩ := hexpr q hends' (by omega)
    have hr := hmakes.shorter
    obtain ⟨es, s, hes, hbuilds, hcount⟩ := parseArgs_builds (d := d) hexpr n 1 r (hmakes.ends hends') (by omega)
      (by omega)
    rw [he, Run.done_bind]
    dsimp only
    rw [hes, Run.done_bind]
    exact ⟨e :: es, s, rfl, ((Builds.after hskip hmakes.builds).trans hbuilds).congr rfl
      (by simp only [Ast.costAll]; omega) id, by rw [List.length_cons]; omega⟩

theorem parsePostfixes_makes (hexpr : Meets k expr) : ∀ (n : ℕ) (e : Ast) (p₀ p : Parser), p₀.Ends → Makes p₀ e p →
    p.rest.length ≤ k → p.rest.length < n → ∃ a q, parsePostfixes d expr n e p = .done (a, q) ∧ Makes p₀ a q
  | 0, _, _, _, _, _, _, hn => absurd hn (by omega)
  | n + 1, e, p₀, p, hends₀, he, hk, hn => by
    have hends := he.ends hends₀
    rw [parsePostfixes]
    split
    · -- a call
      rename_i htype
      have hcheck : p.check .lparen = true := check_iff.mpr htype
      have hread := reads_silent hcheck (fun h => by cases h) silent_lparen hends
      have hlength := rest_advance_lt hcheck (fun h => by cases h) hends
      obtain ⟨args, q, hargs, hbuilds, hcount⟩ := parseArgList_builds (d := d) (n := n) hexpr hends.advance (by omega)
        (by omega)
      have hq := hbuilds.reads.ends hends.advance
      have hskip := reads_skipStmtNewlines d hq
      have hexpect := reads_expect (p := skipStmtNewlines d q) (fun h => by cases h) silent_rparen
        (fun _ => "expected ')' after arguments") (hskip.ends hq)
      have hall : Builds p _ (Ast.itemsAll args) (32 + (4 * args.length + 7) / 8 * 8 + Ast.costAll args)
          (Ast.OrdinaryAll args) :=
        ((((Builds.after hread hbuilds).andThen (hskip.trans hexpect)).andThen (.node _)).andThen
          (.pointers _ args.length)).congr (by simp) (by omega) id
      have hshorter := hbuilds.reads.shorter
      have hshorter' := hskip.shorter
      have hshorter'' := hexpect.shorter
      have hmakes : Makes p₀ (.call e args p.current.line) _ :=
        he.extend hall rfl (by simp only [Ast.cost]; omega) fun h h' => ⟨hcount, h, h'⟩
      rw [hargs, Run.done_bind]
      refine parsePostfixes_makes hexpr n _ p₀ _ hends₀ hmakes ?_ ?_
      · show ((skipStmtNewlines d q).expect _ _).rest.length ≤ k
        omega
      · show ((skipStmtNewlines d q).expect _ _).rest.length < n
        omega
    · -- an index
      rename_i htype
      have hcheck : p.check .lbracket = true := check_iff.mpr htype
      have hread := reads_advance_of_check hcheck (fun h => by cases h) hends
      have hlength := rest_advance_lt hcheck (fun h => by cases h) hends
      rw [show p.current.items = [.mark .lbracket] from Token.items_eq htype] at hread
      obtain ⟨i, q, hi, hmakes⟩ := hexpr p.advance hends.advance (by omega)
      have hexpect := @reads_expect q .rbracket _ (fun h => by cases h) (fun t ht => Token.items_eq ht)
        (fun _ => "expected ']' after index") (hmakes.ends hends.advance)
      have hall := ((Builds.after hread hmakes.builds).andThen hexpect).andThen (.node _)
      have hshorter := hmakes.shorter
      have hshorter' := hexpect.shorter
      rw [hi, Run.done_bind]
      refine parsePostfixes_makes hexpr n (.index e i) p₀ _ hends₀ (he.extend hall (by simp [Ast.items])
        (by simp only [Ast.cost]; omega) And.intro) ?_ ?_
      · show (q.expect _ _).rest.length ≤ k
        omega
      · show (q.expect _ _).rest.length < n
        omega
    · -- a dot: a member, or (in Perl) the operator of the level above
      rename_i htype
      have hcheck : p.check .dot = true := check_iff.mpr htype
      have hread := reads_advance_of_check hcheck (fun h => by cases h) hends
      have hlength := rest_advance_lt hcheck (fun h => by cases h) hends
      rw [show p.current.items = [.mark .dot] from Token.items_eq htype] at hread
      by_cases hconcat : d.concatDot = true
      · rw [if_pos hconcat]
        exact ⟨e, p, rfl, he⟩
      rw [if_neg hconcat]
      by_cases hident : p.advance.check .ident = true
      · rw [if_pos hident]
        have hname := reads_advance_of_check hident (fun h => by cases h) hends.advance
        have hlength' := rest_advance_lt hident (fun h => by cases h) hends.advance
        rw [show p.advance.current.items = [.ident p.advance.current.text] from Token.items_eq (checked hident)] at hname
        refine parsePostfixes_makes hexpr n (.member e p.advance.current.text) p₀ _ hends₀
          (he.extend (.of_reads ((hread.trans hname).trans (.node _))) (by simp [Ast.items])
            (by simp only [Ast.cost]; omega) fun h _ => h) ?_ ?_
        · show p.advance.advance.rest.length ≤ k
          omega
        · show p.advance.advance.rest.length < n
          omega
      · rw [if_neg hident]
        refine ⟨e, _, rfl, .of_error ?_ (Parser.fail_error _)⟩
        exact ⟨((he.builds.reads.trans hread).trans (.fail _ _ [])).of_error (Parser.fail_error _) |>.congr rfl
          (by omega), he.builds.ok⟩
    · exact ⟨e, p, rfl, he⟩

theorem parsePostfix_makes (hexpr : Meets k expr) (hstmt : Meets k stmt) (hends : p.Ends) (hk : p.rest.length ≤ k)
    (hn : p.rest.length < n) : ∃ a q, parsePostfix d expr stmt n p = .done (a, q) ∧ Makes p a q := by
  obtain ⟨e, q, he, hmakes⟩ := parsePrimary_makes (d := d) hexpr hstmt hends hk hn.le
  have hq := hmakes.shorter
  rw [parsePostfix, he, Run.done_bind]
  exact parsePostfixes_makes hexpr n e p q hends hmakes (by omega) (by omega)

theorem parseUnary_makes (hexpr : Meets k expr) (hstmt : Meets k stmt) : ∀ (n : ℕ) (p : Parser), p.Ends →
    p.rest.length ≤ k → p.rest.length + 1 < n → ∃ a q, parseUnary d expr stmt n p = .done (a, q) ∧ Makes p a q
  | 0, _, _, _, hn => absurd hn (by omega)
  | n + 1, p, hends, hk, hn => by
    rw [parseUnary]
    by_cases hop : (p.check .not || p.check .minus) = true
    · rw [if_pos hop]
      obtain ⟨heof, hitems⟩ : p.current.type ≠ .eof ∧ p.current.items = [.mark p.current.type] := by
        rcases Bool.or_eq_true_iff.mp hop with hcheck | hcheck
        · rw [Token.items_eq (checked hcheck), checked hcheck]
          exact ⟨by simp, rfl⟩
        · rw [Token.items_eq (checked hcheck), checked hcheck]
          exact ⟨by simp, rfl⟩
      have hlength := Parser.length_rest_advance hends heof
      have hread := (reads_advance heof hends).trans (.node _)
      rw [hitems] at hread
      obtain ⟨e, q, he, hmakes⟩ := parseUnary_makes hexpr hstmt n p.advance.node hends.advance
        (by show p.advance.rest.length ≤ k; omega) (by show p.advance.rest.length + 1 < n; omega)
      have hshorter : q.rest.length ≤ p.advance.rest.length := hmakes.shorter
      rw [he, Run.done_bind]
      exact ⟨.unary p.current.type e, q, rfl, (Builds.after hread hmakes.builds).congr rfl
        (by simp only [Ast.cost]; omega) id, fun _ => by omega, fun _ => List.cons_ne_nil _ _⟩
    · rw [if_neg hop]
      exact parsePostfix_makes hexpr hstmt hends hk (by omega)

theorem meets_parseUnary (hexpr : Meets k expr) (hstmt : Meets k stmt) (hn : k + 1 < n) :
    Meets (k + 1) (parseUnary d expr stmt n) := fun p hends hk =>
  parseUnary_makes hexpr hstmt n p hends (by omega) (by omega)

def AreOperators (ops : TokenType → Bool) : Prop :=
  ∀ t : Token, ops t.type = true → t.type ≠ .eof ∧ t.items = [.mark t.type]

theorem parseOperands_makes {ops : TokenType → Bool} {operand : Parser → Parsed} (hops : AreOperators ops)
    (hoperand : Meets (k + 1) operand) : ∀ (n : ℕ) (left : Ast) (p₀ p : Parser), p₀.Ends → Makes p₀ left p →
    p.rest.length ≤ k → p.rest.length < n → ∃ a q, parseOperands ops operand n left p = .done (a, q) ∧ Makes p₀ a q
  | 0, _, _, _, _, _, _, hn => absurd hn (by omega)
  | n + 1, left, p₀, p, hends₀, hleft, hk, hn => by
    have hends := hleft.ends hends₀
    rw [parseOperands]
    by_cases hop : ops p.current.type = true
    · obtain ⟨heof, hitems⟩ := hops p.current hop
      have hlength := Parser.length_rest_advance hends heof
      have hread := reads_advance heof hends
      rw [hitems] at hread
      obtain ⟨right, q, hright, hmakes⟩ := hoperand p.advance hends.advance (by omega)
      have hshorter := hmakes.shorter
      have hall := (Builds.after hread hmakes.builds).andThen (.node _)
      rw [if_pos hop, hright, Run.done_bind]
      have hbinary : Builds p q.node _ _ (p.current.type ≠ .neq ∧ right.Ordinary) :=
        ⟨hall.reads, fun hneq => ⟨hneq p.current List.mem_cons_self, hall.ok hneq⟩⟩
      refine parseOperands_makes hops hoperand n (.binary p.current.type left right p.current.line) p₀ _ hends₀
        (hleft.extend hbinary (by simp [Ast.items]) (by simp only [Ast.cost]; omega) fun h h' => ⟨h'.1, h, h'.2⟩) ?_ ?_
      · show q.rest.length ≤ k
        omega
      · show q.rest.length < n
        omega
    · rw [if_neg hop]
      exact ⟨left, p, rfl, hleft⟩

/-- **A level of operators**, if its operands are read so. -/
theorem meets_parseLevel {ops : TokenType → Bool} {operand : Parser → Parsed} (hops : AreOperators ops)
    (hoperand : Meets (k + 1) operand) (hn : k + 1 < n) : Meets (k + 1) (parseLevel ops operand n) := by
  intro p hends hk
  obtain ⟨left, q, hleft, hmakes⟩ := hoperand p hends hk
  have hshorter := hmakes.shorter
  rw [parseLevel, hleft, Run.done_bind]
  exact parseOperands_makes hops hoperand n left p q hends hmakes (by omega) (by omega)

theorem areOperators_multiplicative : AreOperators isMultiplicative := by
  rintro ⟨type, text, line, col, num⟩ h
  cases type <;> first | exact ⟨by simp, rfl⟩ | cases h

theorem areOperators_additive (d : Dialect) : AreOperators (isAdditive d) := by
  rintro ⟨type, text, line, col, num⟩ h
  cases type <;> first | exact ⟨by simp, rfl⟩ | simp [isAdditive] at h

theorem areOperators_comparison : AreOperators isComparison := by
  rintro ⟨type, text, line, col, num⟩ h
  cases type <;> first | exact ⟨by simp, rfl⟩ | cases h

theorem areOperators_equality : AreOperators isEquality := by
  rintro ⟨type, text, line, col, num⟩ h
  cases type <;> first | exact ⟨by simp, rfl⟩ | cases h

theorem areOperators_and : AreOperators (· = .and) := by
  rintro ⟨type, text, line, col, num⟩ h
  obtain rfl : type = .and := of_decide_eq_true h
  exact ⟨by simp, rfl⟩

theorem areOperators_or : AreOperators (· = .or) := by
  rintro ⟨type, text, line, col, num⟩ h
  obtain rfl : type = .or := of_decide_eq_true h
  exact ⟨by simp, rfl⟩

theorem meets_parseLogicalOr (hexpr : Meets k expr) (hstmt : Meets k stmt) (hn : k + 1 < n) :
    Meets (k + 1) (parseLogicalOr d expr stmt n) := by
  have hmultiplicative := meets_parseLevel areOperators_multiplicative (meets_parseUnary (d := d) hexpr hstmt hn) hn
  have hadditive := meets_parseLevel (areOperators_additive d) hmultiplicative hn
  have hcomparison := meets_parseLevel areOperators_comparison hadditive hn
  have hequality := meets_parseLevel areOperators_equality hcomparison hn
  exact meets_parseLevel areOperators_or (meets_parseLevel areOperators_and hequality hn) hn

theorem meets_parseAssignment (hexpr : Meets k expr) (hstmt : Meets k stmt) (hn : k + 1 < n) :
    Meets (k + 1) (parseAssignment d expr stmt n) := by
  intro p hends hk
  obtain ⟨left, q, hleft, hmakes⟩ := meets_parseLogicalOr (d := d) hexpr hstmt hn p hends hk
  have hq := hmakes.ends hends
  rw [parseAssignment, hleft, Run.done_bind]
  dsimp only
  by_cases hassign : ((q.check .assign || q.check .arrow) && left.isTarget) = true
  · rw [if_pos hassign]
    obtain ⟨hcheck, -⟩ := Bool.and_eq_true_iff.mp hassign
    obtain ⟨heof, hitems⟩ : q.current.type ≠ .eof ∧ q.current.items = [.mark .assign] := by
      rcases Bool.or_eq_true_iff.mp hcheck with hcheck | hcheck
      · rw [checked hcheck]
        exact ⟨by simp, Token.items_eq (checked hcheck)⟩
      · rw [checked hcheck]
        exact ⟨by simp, Token.items_eq (checked hcheck)⟩
    have hlength := Parser.length_rest_advance hq heof
    have hread := reads_advance heof hq
    rw [hitems] at hread
    have hshorter := hmakes.shorter
    obtain ⟨value, r, hvalue, hmakes'⟩ := hexpr q.advance hq.advance (by omega)
    rw [hvalue, Run.done_bind]
    exact ⟨_, _, rfl, hmakes.extend ((Builds.after hread hmakes'.builds).andThen (.node _)) (by simp [Ast.items])
      (by simp only [Ast.cost]; omega) And.intro⟩
  · rw [if_neg hassign]
    exact ⟨left, q, rfl, hmakes⟩

/-! ## Statements -/

theorem absent_of_isAbsent {a : Ast} (h : a.isAbsent = true) : a = .absent := by
  cases a <;> first | rfl | cases h

theorem builds_keepStmt {a : Ast} {q : Parser} (room count : ℕ) (hmakes : Makes p a q) :
    let kept := if a.isAbsent then ([], q) else keepItem room count a q
    Builds p kept.2 (Ast.itemsAll kept.1) (Ast.costAll kept.1) (Ast.OrdinaryAll kept.1) ∧ kept.2.rest = q.rest ∧
      kept.2.error = q.error := by
  intro kept
  by_cases habsent : a.isAbsent = true
  · obtain rfl := absent_of_isAbsent habsent
    exact ⟨hmakes.builds.congr rfl (le_refl _) id, rfl, rfl⟩
  · have hkept : kept = keepItem room count a q := if_neg habsent
    rw [hkept]
    refine ⟨@builds_keepItem _ _ _ Ast.itemsAll Ast.costAll Ast.OrdinaryAll room count _
      (hmakes.builds.congr (by simp [Ast.itemsAll]) (by simp [Ast.costAll]) fun h => ⟨h, trivial⟩) (fun herror => ?_)
      rfl rfl trivial, rest_keepItem room count a q, error_keepItem room count a q⟩
    simpa [Ast.itemsAll] using hmakes.present herror

theorem parseBlockStmts_builds (hstmt : Meets k stmt) : ∀ (n count : ℕ) (p : Parser), p.Ends → p.rest.length < k →
    p.rest.length < n → ∃ es q, parseBlockStmts d stmt n count p = .done (es, q) ∧
      Builds p q (Ast.itemsAll es) (Ast.costAll es) (Ast.OrdinaryAll es)
  | 0, _, _, _, _, hn => absurd hn (by omega)
  | n + 1, count, p, hends, hk, hn => by
    rw [parseBlockStmts]
    by_cases hend : (p.check .rbrace || p.check .eof) = true
    · rw [if_pos hend]
      exact ⟨[], p, rfl, .of_reads (.refl p)⟩
    rw [if_neg hend]
    obtain ⟨s, q, hs, hmakes⟩ := hstmt p hends hk
    obtain ⟨hkept, hrest, herror⟩ := builds_keepStmt 256 count hmakes
    rw [hs, Run.done_bind]
    dsimp only at hkept hrest herror ⊢
    generalize (if s.isAbsent = true then ([], q) else keepItem 256 count s q) = kept at hkept hrest herror ⊢
    obtain ⟨kept, r⟩ := kept
    dsimp only at hkept hrest herror ⊢
    have hr := hkept.reads.ends hends
    have hskip := (reads_skipTerm d hr).trans (reads_skipStmtNewlines d ((reads_skipTerm d hr).ends hr))
    have hshorter := hskip.shorter
    have hq := hmakes.shorter
    rw [hrest] at hshorter
    generalize skipStmtNewlines d (skipTerm d r) = t at hskip hshorter ⊢
    by_cases hstop : t.error.isSome = true
    · rw [if_pos hstop]
      exact ⟨kept, t, rfl, (hkept.andThen hskip).congr (by simp) (by omega) id⟩
    · rw [if_neg hstop]
      have hnone : t.error = none := by simpa using hstop
      -- there is no error before, so the statement has read something
      have hprogress := hmakes.progress (by rw [← herror]; exact hskip.error_none hnone)
      obtain ⟨es, u, hes, hbuilds⟩ := parseBlockStmts_builds hstmt n (count + kept.length) t (hskip.ends hr) (by omega)
        (by omega)
      rw [hes, Run.done_bind]
      exact ⟨kept ++ es, u, rfl, ((hkept.andThen hskip).trans hbuilds).congr (by simp)
        (by rw [Ast.costAll_append]; omega) (Ast.ordinaryAll_append _ _).mpr⟩

theorem parseBlock_makes (hstmt : Meets k stmt) (hends : p.Ends) (hk : p.rest.length ≤ k) (hn : p.rest.length ≤ n) :
    ∃ a q, parseBlock d stmt n p = .done (a, q) ∧ Makes p a q := by
  unfold parseBlock
  by_cases hbrace : p.check .lbrace = true
  · rw [if_pos hbrace]
    have hlength := rest_advance_lt hbrace (fun h => by cases h) hends
    have hskip := reads_skipStmtNewlines d hends.advance
    have hshorter := hskip.shorter
    obtain ⟨es, q, hes, hbuilds⟩ := parseBlockStmts_builds (d := d) hstmt n 0 (skipStmtNewlines d p.advance)
      (hskip.ends hends.advance) (by omega) (by omega)
    have hexpect := @reads_expect q .rbrace [.mark .rbracket] (fun h => by cases h) (fun t ht => Token.items_eq ht)
      (fun _ => "expected '\x7d'") ((Builds.after hskip hbuilds).reads.ends hends.advance)
    rw [hes, Run.done_bind]
    refine ⟨.block es, _, rfl, makes_behind hends (checked hbrace) (fun h => by cases h)
      (fun t ht => Token.items_eq ht) ?_ rfl⟩
    exact ((((Builds.after hskip hbuilds).andThen hexpect).andThen (.node _)).andThen (.pointers _ es.length)).congr
      (by simp [tailItems, Ast.items]) (by simp only [Ast.cost]; omega) id
  · rw [if_neg hbrace]
    exact ⟨.absent, _, rfl, .of_error ⟨.fail p _ _, fun _ => trivial⟩ (Parser.fail_error _)⟩

theorem parseCond_makes (text : String) (hexpr : Meets (k + 1) expr) (hends : p.Ends) (hk : p.rest.length ≤ k) :
    ∃ a q, parseCond expr text p = .done (a, q) ∧ Makes p a q := by
  unfold parseCond
  by_cases hparen : p.check .lparen = true
  · have hread := reads_silent hparen (fun h => by cases h) silent_lparen hends
    have hlength := rest_advance_lt hparen (fun h => by cases h) hends
    obtain ⟨e, q, he, hmakes⟩ := hexpr p.advance hends.advance (by omega)
    rw [if_pos hparen, he, Run.done_bind]
    exact ⟨e, _, rfl, hmakes.around hread
      (reads_expect (fun h => by cases h) silent_rparen _ (hmakes.ends hends.advance))⟩
  · rw [if_neg hparen]
    exact hexpr p hends (by omega)

theorem body_makes (hstmt : Meets k stmt) (hends : p.Ends) (hk : p.rest.length < k) :
    ∃ a q, stmt (skipStmtNewlines d p) = .done (a, q) ∧ Makes p a q := by
  have hskip := reads_skipStmtNewlines d hends
  have hshorter := hskip.shorter
  obtain ⟨a, q, ha, hmakes⟩ := hstmt _ (hskip.ends hends) (by omega)
  exact ⟨a, q, ha, hmakes.before hskip⟩

theorem parseElse_builds (hstmt : Meets k stmt) (hends : p.Ends) (hk : p.rest.length ≤ k) :
    ∃ a q, parseElse d stmt p = .done (a, q) ∧
      Builds p q (if a.isAbsent then [] else .mark .else :: a.items) a.cost a.Ordinary := by
  unfold parseElse
  by_cases helse : p.check .else = true
  · rw [if_pos helse]
    have hread := reads_advance_of_check helse (fun h => by cases h) hends
    have hlength := rest_advance_lt helse (fun h => by cases h) hends
    rw [show p.current.items = [.mark .else] from Token.items_eq (checked helse)] at hread
    obtain ⟨a, q, ha, hmakes⟩ : ∃ a q, (if p.advance.check .if then stmt p.advance else
        stmt (skipStmtNewlines d p.advance)) = .done (a, q) ∧ Makes p.advance a q := by
      split
      · exact hstmt p.advance hends.advance (by omega)
      · exact body_makes hstmt hends.advance (by omega)
    refine ⟨a, q, ha, ?_⟩
    have hbuilds := (Builds.after hread hmakes.builds).congr rfl (Nat.le_add_left a.cost 0) id
    by_cases habsent : a.isAbsent = true
    · obtain rfl := absent_of_isAbsent habsent
      have hsome : q.error.isSome = true := by
        cases herror : q.error with
        | none => exact absurd rfl (hmakes.present herror)
        | some e => rfl
      exact ⟨hbuilds.reads.of_error hsome, fun _ => trivial⟩
    · rw [if_neg habsent]
      exact hbuilds
  · rw [if_neg helse]
    exact ⟨.absent, p, rfl, (Builds.of_reads (.refl p)).congr rfl (le_refl _) id⟩

theorem parseIf_builds (hexpr : Meets (k + 1) expr) (hstmt : Meets k stmt) (hends : p.Ends) (hk : p.rest.length < k) :
    ∃ a q, parseIf d expr stmt p = .done (a, q) ∧ Builds p q (tailItems a) a.cost a.Ordinary ∧
      a.items = .mark .if :: tailItems a := by
  unfold parseIf
  obtain ⟨cond, q, hcond, hmakes⟩ := parseCond_makes "expected ')' after if condition" hexpr hends hk.le
  have hq := hmakes.shorter
  obtain ⟨thenBody, r, hthen, hmakes'⟩ := body_makes (d := d) hstmt (hmakes.ends hends) (by omega)
  have hr := hmakes'.shorter
  have hends' := hmakes'.ends (hmakes.ends hends)
  have hskip := reads_skipStmtNewlines d hends'
  have hshorter := hskip.shorter
  obtain ⟨elseBody, s, helse, hbuilds⟩ := parseElse_builds (d := d) hstmt (hskip.ends hends') (by omega)
  rw [hcond, Run.done_bind]
  dsimp only
  rw [hthen, Run.done_bind]
  dsimp only
  rw [helse, Run.done_bind]
  refine ⟨_, _, rfl, ?_, rfl⟩
  exact (((hmakes.builds.trans hmakes'.builds).trans (Builds.after hskip hbuilds)).andThen (.node _)).congr
    (by simp [tailItems, Ast.items]) (by simp only [Ast.cost]; omega) fun h => ⟨h.1.1, h.1.2, h.2⟩

theorem parseWhile_builds (hexpr : Meets (k + 1) expr) (hstmt : Meets k stmt) (hends : p.Ends)
    (hk : p.rest.length < k) : ∃ a q, parseWhile d expr stmt p = .done (a, q) ∧
      Builds p q (tailItems a) a.cost a.Ordinary ∧ a.items = .mark .while :: tailItems a := by
  unfold parseWhile
  obtain ⟨cond, q, hcond, hmakes⟩ := parseCond_makes "expected ')' after while condition" hexpr hends hk.le
  have hq := hmakes.shorter
  obtain ⟨body, r, hbody, hmakes'⟩ := body_makes (d := d) hstmt (hmakes.ends hends) (by omega)
  rw [hcond, Run.done_bind]
  dsimp only
  rw [hbody, Run.done_bind]
  refine ⟨_, _, rfl, ?_, rfl⟩
  exact ((hmakes.builds.trans hmakes'.builds).andThen (.node _)).congr (by simp [tailItems, Ast.items])
    (by simp only [Ast.cost]; omega) id

theorem parseClause_builds (paren : Bool) (closing : TokenType) (hexpr : Meets (k + 1) expr) (hends : p.Ends)
    (hk : p.rest.length ≤ k) :
    ∃ a q, parseClause expr paren closing p = .done (a, q) ∧ Builds p q a.items a.cost a.Ordinary := by
  unfold parseClause
  split
  · exact ⟨.absent, p, rfl, (Builds.of_reads (.refl p)).congr rfl (le_refl _) id⟩
  · obtain ⟨a, q, ha, hmakes⟩ := hexpr p hends (by omega)
    exact ⟨a, q, ha, hmakes.builds⟩

theorem reads_clauseEnd (paren : Bool) (hends : p.Ends) : Reads p (clauseEnd d paren p) [] 0 := by
  unfold clauseEnd
  split
  · exact reads_expect (fun h => by cases h) silent_semicolon _ hends
  · exact reads_skipTerm d hends

theorem parseFor_builds (hexpr : Meets (k + 1) expr) (hstmt : Meets k stmt) (hends : p.Ends) (hk : p.rest.length < k) :
    ∃ a q, parseFor d expr stmt p = .done (a, q) ∧ Builds p q (tailItems a) a.cost a.Ordinary ∧
      a.items = .mark .for :: tailItems a := by
  unfold parseFor
  dsimp only
  generalize hparen : p.check .lparen = paren
  have hopen : Reads p (if paren then p.advance else p) [] 0 := by
    split
    · rename_i h
      exact reads_silent (hparen.trans h) (fun h => by cases h) silent_lparen hends
    · exact .refl p
  generalize (if paren = true then p.advance else p) = p₁ at hopen ⊢
  have hends₁ := hopen.ends hends
  have hskip₁ := hopen.trans (reads_skipStmtNewlines d hends₁)
  have hlength₁ := hskip₁.shorter
  obtain ⟨init, p₂, hinit, hbuilds₁⟩ := parseClause_builds paren .semicolon hexpr (hskip₁.ends hends) (by omega)
  have hends₂ := hbuilds₁.reads.ends (hskip₁.ends hends)
  have hlength₂ := hbuilds₁.reads.shorter
  have hskip₂ := (reads_clauseEnd (d := d) paren hends₂).trans
    (reads_skipStmtNewlines d ((reads_clauseEnd (d := d) paren hends₂).ends hends₂))
  have hlength₂' := hskip₂.shorter
  obtain ⟨cond, p₃, hcond, hbuilds₂⟩ := parseClause_builds paren .semicolon hexpr (hskip₂.ends hends₂) (by omega)
  have hends₃ := hbuilds₂.reads.ends (hskip₂.ends hends₂)
  have hlength₃ := hbuilds₂.reads.shorter
  have hskip₃ := (reads_clauseEnd (d := d) paren hends₃).trans
    (reads_skipStmtNewlines d ((reads_clauseEnd (d := d) paren hends₃).ends hends₃))
  have hlength₃' := hskip₃.shorter
  obtain ⟨step, p₄, hstep, hbuilds₃⟩ := parseClause_builds paren .rparen hexpr (hskip₃.ends hends₃) (by omega)
  have hends₄ := hbuilds₃.reads.ends (hskip₃.ends hends₃)
  have hlength₄ := hbuilds₃.reads.shorter
  have hclose : Reads p₄ (if paren then p₄.expect .rparen fun _ => "expected ')' after for clauses" else p₄) [] 0 := by
    split
    · exact reads_expect (fun h => by cases h) silent_rparen _ hends₄
    · exact .refl p₄
  have hlength₄' := hclose.shorter
  rw [hinit, Run.done_bind]
  dsimp only
  rw [hcond, Run.done_bind]
  dsimp only
  rw [hstep, Run.done_bind]
  dsimp only
  generalize (if paren = true then p₄.expect .rparen fun _ => "expected ')' after for clauses" else p₄) = p₅
    at hclose hlength₄' ⊢
  obtain ⟨body, p₆, hbody, hmakes⟩ := body_makes (d := d) hstmt (hclose.ends hends₄) (by omega)
  rw [hbody, Run.done_bind]
  refine ⟨_, _, rfl, ?_, rfl⟩
  exact (((((Builds.after hskip₁ hbuilds₁).trans (Builds.after hskip₂ hbuilds₂)).trans
    (Builds.after hskip₃ hbuilds₃)).trans (Builds.after hclose hmakes.builds)).andThen (.node _)).congr
      (by simp [tailItems, Ast.items]) (by simp only [Ast.cost]; omega) fun h => ⟨h.1.1.1, h.1.1.2, h.1.2, h.2⟩

theorem parseReturn_builds (hexpr : Meets (k + 1) expr) (hends : p.Ends) (hk : p.rest.length ≤ k) :
    ∃ a q, parseReturn d expr p = .done (a, q) ∧ Builds p q (tailItems a) a.cost a.Ordinary ∧
      a.items = .mark .return :: tailItems a := by
  unfold parseReturn
  by_cases hparen : (d.returnParens && p.check .lparen) = true
  · have hcheck := (Bool.and_eq_true_iff.mp hparen).2
    have hread := reads_silent hcheck (fun h => by cases h) silent_lparen hends
    have hlength := rest_advance_lt hcheck (fun h => by cases h) hends
    obtain ⟨e, q, he, hmakes⟩ := hexpr p.advance hends.advance (by omega)
    have hexpect := @reads_expect q .rparen _ (fun h => by cases h) silent_rparen
      (fun _ => "expected ')' after return value") (hmakes.ends hends.advance)
    rw [if_pos hparen, he, Run.done_bind]
    exact ⟨.returnStmt e, _, rfl, ((((Builds.after hread hmakes.builds).andThen hexpect).andThen (.node _))).congr
      (by simp [tailItems, Ast.items]) (by simp only [Ast.cost]; omega) id, rfl⟩
  rw [if_neg hparen]
  by_cases hend : (p.check .semicolon || p.check .newline || p.check .rbrace || p.check .eof) = true
  · rw [if_pos hend]
    exact ⟨.returnStmt .absent, _, rfl, (Builds.of_reads (.node p)).congr rfl (le_refl _) id, rfl⟩
  · obtain ⟨e, q, he, hmakes⟩ := hexpr p hends (by omega)
    rw [if_neg hend, he, Run.done_bind]
    exact ⟨.returnStmt e, _, rfl, (hmakes.builds.andThen (.node _)).congr (by simp [tailItems, Ast.items])
      (by simp only [Ast.cost]; omega) id, rfl⟩

theorem parsePrint_builds (hexpr : Meets (k + 1) expr) (hends : p.Ends) (hk : p.rest.length ≤ k) :
    ∃ a q, parsePrint expr p = .done (a, q) ∧ Builds p q (tailItems a) a.cost a.Ordinary ∧
      a.items = .mark .print :: tailItems a := by
  obtain ⟨e, q, he, hmakes⟩ := hexpr p hends (by omega)
  rw [parsePrint, he, Run.done_bind]
  exact ⟨.print e, _, rfl, (hmakes.builds.andThen (.node _)).congr (by simp [tailItems, Ast.items])
    (by simp only [Ast.cost]; omega) id, rfl⟩

theorem meets_parseStatementWith (hexpr : Meets (k + 1) expr) (hstmt : Meets k stmt) (hn : k < n) :
    Meets (k + 1) (parseStatementWith d expr stmt n) := by
  intro p hends hk
  unfold parseStatementWith
  have hskip := reads_skipStmtNewlines d hends
  have hshorter := hskip.shorter
  dsimp only
  generalize skipStmtNewlines d p = q at hskip hshorter ⊢
  have hends' := hskip.ends hends
  have hlength : ∀ {type : TokenType}, q.current.type = type → type ≠ .eof → q.advance.rest.length < q.rest.length :=
    fun htype heof => rest_advance_lt (check_iff.mpr htype) heof hends'
  have hbefore : ∀ {run : Run Unit (Ast × Parser)}, (∃ a r, run = .done (a, r) ∧ Makes q a r) →
      ∃ a r, run = .done (a, r) ∧ Makes p a r := by
    rintro run ⟨a, r, ha, hmakes⟩
    exact ⟨a, r, ha, hmakes.before hskip⟩
  refine hbefore ?_
  split
  · exact parseBlock_makes hstmt hends' (by omega) (by omega)
  · rename_i htype
    have hlt := hlength htype (by simp)
    obtain ⟨a, r, ha, hbuilds, hitems⟩ := parseIf_builds (d := d) hexpr hstmt hends'.advance (by omega)
    exact ⟨a, r, ha, makes_behind hends' htype (by simp) (fun t ht => Token.items_eq ht) hbuilds hitems⟩
  · rename_i htype
    have hlt := hlength htype (by simp)
    obtain ⟨a, r, ha, hbuilds, hitems⟩ := parseWhile_builds (d := d) hexpr hstmt hends'.advance (by omega)
    exact ⟨a, r, ha, makes_behind hends' htype (by simp) (fun t ht => Token.items_eq ht) hbuilds hitems⟩
  · rename_i htype
    have hlt := hlength htype (by simp)
    obtain ⟨a, r, ha, hbuilds, hitems⟩ := parseFor_builds (d := d) hexpr hstmt hends'.advance (by omega)
    exact ⟨a, r, ha, makes_behind hends' htype (by simp) (fun t ht => Token.items_eq ht) hbuilds hitems⟩
  · rename_i htype
    have hlt := hlength htype (by simp)
    obtain ⟨a, r, ha, hbuilds, hitems⟩ := parseReturn_builds (d := d) hexpr hends'.advance (by omega)
    exact ⟨a, r, ha, makes_behind hends' htype (by simp) (fun t ht => Token.items_eq ht) hbuilds hitems⟩
  · rename_i htype
    have hlt := hlength htype (by simp)
    obtain ⟨a, r, ha, hbuilds, hitems⟩ := parsePrint_builds hexpr hends'.advance (by omega)
    exact ⟨a, r, ha, makes_behind hends' htype (by simp) (fun t ht => Token.items_eq ht) hbuilds hitems⟩
  · rename_i htype
    have hlt := hlength htype (by simp)
    obtain ⟨a, r, ha, hbuilds, hitems⟩ := parseFunction_builds (n := n) hstmt hends'.advance (by omega) (by omega)
    exact ⟨a, r, ha, makes_behind hends' htype (by simp) (fun t ht => Token.items_eq ht) hbuilds hitems⟩
  · exact hexpr q hends' (by omega)

end Functions

/-! ## The knot -/

/-- **Expressions and statements are read as they are built**, with enough fuel for what lies ahead. -/
theorem meets_parse (d : Dialect) : ∀ n : ℕ, (∀ k, 2 * k + 1 ≤ n → Meets k (parseExpr d n)) ∧
    ∀ k, 2 * k + 2 ≤ n → Meets k (parseStatement d n)
  | 0 => ⟨fun _ h => absurd h (by omega), fun _ h => absurd h (by omega)⟩
  | n + 1 => by
    obtain ⟨hexpr, hstmt⟩ := meets_parse d n
    refine ⟨fun k hk => ?_, fun k hk => ?_⟩
    · cases k with
      | zero => exact fun p _ h => absurd h (by omega)
      | succ k =>
        have hmeets := meets_parseAssignment (d := d) (n := n) (hexpr k (by omega)) (hstmt k (by omega)) (by omega)
        exact fun p hends hlt => by rw [parseExpr]; exact hmeets p hends hlt
    · cases k with
      | zero => exact fun p _ h => absurd h (by omega)
      | succ k =>
        have hmeets := meets_parseStatementWith (d := d) (n := n) (hexpr (k + 1) (by omega)) (hstmt k (by omega))
          (by omega)
        exact fun p hends hlt => by rw [parseStatement]; exact hmeets p hends hlt

theorem parseStmts_builds {d : Dialect} {stmt : Parser → Parsed} {k : ℕ} (hstmt : Meets k stmt) :
    ∀ (n count : ℕ) (p : Parser), p.Ends → p.rest.length < k → p.rest.length + 1 < n →
    ∃ es q, parseStmts d stmt n count p = .done (es, q) ∧
      Builds p q (Ast.itemsAll es) (Ast.costAll es) (Ast.OrdinaryAll es) ∧
      (q.error = none → q.current.type = .eof)
  | 0, _, _, _, _, hn => absurd hn (by omega)
  | n + 1, count, p, hends, hk, hn => by
    rw [parseStmts]
    by_cases hend : (p.check .eof || p.error.isSome) = true
    · rw [if_pos hend]
      refine ⟨[], p, rfl, .of_reads (.refl p), fun hnone => ?_⟩
      rw [hnone] at hend
      exact check_iff.mp (by simpa using hend)
    rw [if_neg hend]
    obtain ⟨s, q, hs, hmakes⟩ := hstmt p hends hk
    obtain ⟨hkept, hrest, herror⟩ := builds_keepStmt 512 count hmakes
    rw [hs, Run.done_bind]
    dsimp only at hkept hrest herror ⊢
    generalize (if s.isAbsent = true then ([], q) else keepItem 512 count s q) = kept at hkept hrest herror ⊢
    obtain ⟨kept, r⟩ := kept
    dsimp only at hkept hrest herror ⊢
    have hr := hkept.reads.ends hends
    have hskip := (reads_skipTerm d hr).trans (reads_skipStmtNewlines d ((reads_skipTerm d hr).ends hr))
    have hshorter := hskip.shorter
    have hq := hmakes.shorter
    rw [hrest] at hshorter
    generalize skipStmtNewlines d (skipTerm d r) = t at hskip hshorter ⊢
    by_cases hstop : t.error.isSome = true
    · -- the loop ends behind an error
      obtain ⟨m, rfl⟩ : ∃ m, n = m + 1 := ⟨n - 1, by omega⟩
      have hnext : parseStmts d stmt (m + 1) (count + kept.length) t = .done ([], t) := by
        rw [parseStmts, if_pos (by rw [hstop, Bool.or_true])]
      rw [hnext, Run.done_bind]
      exact ⟨kept ++ [], t, rfl, (hkept.andThen hskip).congr (by simp) (by simp) (by simp), fun hnone => by
        rw [hnone] at hstop; cases hstop⟩
    · have hnone : t.error = none := by simpa using hstop
      have hprogress := hmakes.progress (by rw [← herror]; exact hskip.error_none hnone)
      obtain ⟨es, u, hes, hbuilds, heof⟩ := parseStmts_builds hstmt n (count + kept.length) t (hskip.ends hr) (by omega)
        (by omega)
      rw [hes, Run.done_bind]
      exact ⟨kept ++ es, u, rfl, ((hkept.andThen hskip).trans hbuilds).congr (by simp)
        (by rw [Ast.costAll_append]; omega) (Ast.ordinaryAll_append _ _).mpr, heof⟩

/-- **A source is read as it is built**, and up to its end if there is no error. -/
theorem parseProgram_builds {d : Dialect} {n : ℕ} {p : Parser} (hends : p.Ends) (hn : 2 * p.rest.length + 4 ≤ n) :
    ∃ es q, parseProgram d n p = .done (.block es, q) ∧
      Builds p q (Ast.itemsAll es) (Ast.block es).cost (Ast.OrdinaryAll es) ∧
      (q.error = none → q.current.type = .eof) := by
  have hskip := reads_skipStmtNewlines d hends
  have hshorter := hskip.shorter
  obtain ⟨es, q, hes, hbuilds, heof⟩ := parseStmts_builds (d := d) ((meets_parse d n).2 (p.rest.length + 1) (by omega)) n 0
    (skipStmtNewlines d p) (hskip.ends hends) (by omega) (by omega)
  rw [parseProgram, hes, Run.done_bind]
  exact ⟨es, _, rfl, (((Builds.after hskip hbuilds).andThen (.node _)).andThen (.pointers _ es.length)).congr (by simp)
    (by simp only [Ast.cost]; omega) id, heof⟩

end VelocityMcp.Interp
