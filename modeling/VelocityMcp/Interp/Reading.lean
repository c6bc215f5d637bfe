import VelocityMcp.Interp.Parser

/-!
# Interp.Reading — what the grammar functions read and what they build (`interp_core/interp.c`)

`Meets`: a grammar function comes to its end, and reads what it builds.
-/

namespace VelocityMcp.Interp

open Lib

/-! ## Items -/

/-- `mark` stands for a keyword, an operator or a bracket. -/
inductive Item where
  | number (bits : UInt64)
  | string (text : Bytes)
  | ident (name : Bytes)
  | mark (type : TokenType)
deriving DecidableEq, Repr

/-- What a token adds.  The two kinds of brackets around items are not told apart, nor the marks that bind a value. -/
def Token.items (t : Token) : List Item :=
  match t.type with
  | .number => [.number t.num]
  | .string => [.string t.text]
  | .ident => [.ident t.text]
  | .lbracket | .lbrace => [.mark .lbracket]
  | .rbracket | .rbrace => [.mark .rbracket]
  | .assign | .arrow | .colon => [.mark .assign]
  | .lparen | .rparen | .comma | .semicolon | .newline | .eof => []
  | type => [.mark type]

namespace Ast

mutual

/-- The tokens of a tree in their order, as items. -/
def items : Ast → List Item
  | absent => []
  | numberLit bits => [.number bits]
  | stringLit text => [.string text]
  | boolLit b => [.mark (if b then .true else .false)]
  | nullLit => [.mark .null]
  | arrayLit elements => .mark .lbracket :: (itemsAll elements ++ [.mark .rbracket])
  | mapLit entries => .mark .lbracket :: (itemsEntries entries ++ [.mark .rbracket])
  | ident name _ => [.ident name]
  | binary op left right _ => items left ++ .mark op :: items right
  | unary op operand => .mark op :: items operand
  | call func args _ => items func ++ itemsAll args
  | index object i => items object ++ .mark .lbracket :: (items i ++ [.mark .rbracket])
  | member object name => items object ++ [.mark .dot, .ident name]
  | block stmts => .mark .lbracket :: (itemsAll stmts ++ [.mark .rbracket])
  | assign target value => items target ++ .mark .assign :: items value
  | ifStmt cond thenBody elseBody =>
    .mark .if :: (items cond ++ items thenBody ++ if elseBody.isAbsent then [] else .mark .else :: items elseBody)
  | whileStmt cond body => .mark .while :: (items cond ++ items body)
  | forStmt init cond step body => .mark .for :: (items init ++ items cond ++ items step ++ items body)
  | returnStmt value => .mark .return :: items value
  | funcDef name params body => .mark .function :: (name.toList.map .ident ++ params.map .ident ++ items body)
  | print value => .mark .print :: items value

def itemsAll : List Ast → List Item
  | [] => []
  | a :: as => items a ++ itemsAll as

def itemsEntries : List (Ast × Ast) → List Item
  | [] => []
  | (k, v) :: es => items k ++ .mark .assign :: (items v ++ itemsEntries es)

end

mutual

/-- How much of the arena a tree takes. -/
def cost : Ast → ℕ
  | absent => 0
  | numberLit _ | stringLit _ | boolLit _ | nullLit | ident .. => 32
  | arrayLit elements => 32 + (4 * elements.length + 7) / 8 * 8 + costAll elements
  | mapLit entries => 32 + 2 * ((4 * entries.length + 7) / 8 * 8) + costEntries entries
  | binary _ left right _ => 32 + cost left + cost right
  | unary _ operand => 32 + cost operand
  | call func args _ => 32 + (4 * args.length + 7) / 8 * 8 + cost func + costAll args
  | index object i => 32 + cost object + cost i
  | member object _ => 32 + cost object
  | block stmts => 32 + (4 * stmts.length + 7) / 8 * 8 + costAll stmts
  | assign target value => 32 + cost target + cost value
  | ifStmt cond thenBody elseBody => 32 + cost cond + cost thenBody + cost elseBody
  | whileStmt cond body => 32 + cost cond + cost body
  | forStmt init cond step body => 32 + cost init + cost cond + cost step + cost body
  | returnStmt value => 32 + cost value
  | funcDef _ params body => 32 + (4 * params.length + 7) / 8 * 8 + cost body
  | print value => 32 + cost value

def costAll : List Ast → ℕ
  | [] => 0
  | a :: as => cost a + costAll as

def costEntries : List (Ast × Ast) → ℕ
  | [] => 0
  | (k, v) :: es => cost k + cost v + costEntries es

end

mutual

/-- No node compares with `!=`, and there are no more elements, entries and arguments than an array of the parser has
room for. -/
def Ordinary : Ast → Prop
  | absent | numberLit _ | stringLit _ | boolLit _ | nullLit | ident .. => True
  | arrayLit elements => elements.length ≤ 256 ∧ OrdinaryAll elements
  | mapLit entries => entries.length ≤ 64 ∧ OrdinaryEntries entries
  | binary op left right _ => op ≠ .neq ∧ Ordinary left ∧ Ordinary right
  | unary _ operand => Ordinary operand
  | call func args _ => args.length ≤ 32 ∧ Ordinary func ∧ OrdinaryAll args
  | index object i => Ordinary object ∧ Ordinary i
  | member object _ => Ordinary object
  | block stmts => OrdinaryAll stmts
  | assign target value => Ordinary target ∧ Ordinary value
  | ifStmt cond thenBody elseBody => Ordinary cond ∧ Ordinary thenBody ∧ Ordinary elseBody
  | whileStmt cond body => Ordinary cond ∧ Ordinary body
  | forStmt init cond step body => Ordinary init ∧ Ordinary cond ∧ Ordinary step ∧ Ordinary body
  | returnStmt value => Ordinary value
  | funcDef _ _ body => Ordinary body
  | print value => Ordinary value

def OrdinaryAll : List Ast → Prop
  | [] => True
  | a :: as => Ordinary a ∧ OrdinaryAll as

def OrdinaryEntries : List (Ast × Ast) → Prop
  | [] => True
  | (k, v) :: es => Ordinary k ∧ Ordinary v ∧ OrdinaryEntries es

end

@[simp] theorem itemsAll_append (as bs : List Ast) : itemsAll (as ++ bs) = itemsAll as ++ itemsAll bs := by
  induction as with
  | nil => rfl
  | cons a as ih => rw [List.cons_append, itemsAll, itemsAll, ih, List.append_assoc]

@[simp] theorem itemsEntries_append (es fs : List (Ast × Ast)) :
    itemsEntries (es ++ fs) = itemsEntries es ++ itemsEntries fs := by
  induction es with
  | nil => rfl
  | cons e es ih =>
    obtain ⟨k, v⟩ := e
    rw [List.cons_append, itemsEntries, itemsEntries, ih]
    simp

@[simp] theorem costAll_append (as bs : List Ast) : costAll (as ++ bs) = costAll as + costAll bs := by
  induction as with
  | nil => exact (Nat.zero_add _).symm
  | cons a as ih => rw [List.cons_append, costAll, costAll, ih, Nat.add_assoc]

@[simp] theorem costEntries_append (es fs : List (Ast × Ast)) :
    costEntries (es ++ fs) = costEntries es + costEntries fs := by
  induction es with
  | nil => exact (Nat.zero_add _).symm
  | cons e es ih =>
    obtain ⟨k, v⟩ := e
    rw [List.cons_append, costEntries, costEntries, ih, ← Nat.add_assoc]

theorem ordinaryAll_append (as bs : List Ast) : OrdinaryAll (as ++ bs) ↔ OrdinaryAll as ∧ OrdinaryAll bs := by
  induction as with
  | nil => exact (true_and _).symm.to_iff
  | cons a as ih => rw [List.cons_append, OrdinaryAll, OrdinaryAll, ih, and_assoc]

theorem ordinaryEntries_append (es fs : List (Ast × Ast)) :
    OrdinaryEntries (es ++ fs) ↔ OrdinaryEntries es ∧ OrdinaryEntries fs := by
  induction es with
  | nil => exact (true_and _).symm.to_iff
  | cons e es ih =>
    obtain ⟨k, v⟩ := e
    rw [List.cons_append, OrdinaryEntries, OrdinaryEntries, ih, and_assoc, and_assoc]

end Ast

/-! ## States -/

namespace Parser

variable {p q : Parser}

def tokens (p : Parser) : List Token := p.current :: p.rest.filterMap id

/-- The last lexeme is the end of the source. -/
def Ends (p : Parser) : Prop := ∃ t, t.type = TokenType.eof ∧ (some p.current :: p.rest).getLast? = some (some t)

/-- No unexpected character lies ahead. -/
def Lexable (p : Parser) : Prop := none ∉ p.rest

def itemsOf (ts : List Token) : List Item := ts.flatMap Token.items

theorem itemsOf_append (ts us : List Token) : itemsOf (ts ++ us) = itemsOf ts ++ itemsOf us := List.flatMap_append

@[simp] theorem itemsOf_singleton (t : Token) : itemsOf [t] = t.items := List.flatMap_singleton _ _

@[simp] theorem alloc_current (n : ℕ) : (p.alloc n).current = p.current := rfl
@[simp] theorem alloc_rest (n : ℕ) : (p.alloc n).rest = p.rest := rfl
@[simp] theorem alloc_error (n : ℕ) : (p.alloc n).error = p.error := rfl

theorem fail_current (text : String) : (p.fail text).current = p.current := by
  unfold fail
  split <;> rfl

theorem fail_rest (text : String) : (p.fail text).rest = p.rest := by
  unfold fail
  split <;> rfl

theorem fail_used (text : String) : (p.fail text).used = p.used := by
  unfold fail
  split <;> rfl

theorem fail_error (text : String) : (p.fail text).error.isSome = true := by
  unfold fail
  split
  · assumption
  · rfl

end Parser

/-- `q` comes from `p` by reading.  If there is no error, and no unexpected character, the tokens that have been read
add the items that have been built, or more if some were dropped. -/
structure Reads (p q : Parser) (built : List Item) (bytes : ℕ) : Prop where
  ends : p.Ends → q.Ends
  shorter : q.rest.length ≤ p.rest.length
  error : p.error.isSome = true → q.error.isSome = true
  used : p.used + bytes ≤ q.used
  subset : ∀ t ∈ q.tokens, t ∈ p.tokens
  account : q.error = none → p.Lexable → q.Lexable ∧ p.dropped ≤ q.dropped ∧
    ∃ read, p.tokens = read ++ q.tokens ∧ built.length + q.dropped ≤ (Parser.itemsOf read).length + p.dropped ∧
      (q.dropped = p.dropped → built = Parser.itemsOf read)

namespace Reads

variable {p q r : Parser} {a b : List Item} {m n : ℕ}

theorem refl (p : Parser) : Reads p p [] 0 :=
  ⟨id, le_refl _, id, le_refl _, fun _ => id, fun _ h => ⟨h, le_refl _, [], rfl, le_refl _, fun _ => rfl⟩⟩

theorem error_none (h : Reads p q a m) (hq : q.error = none) : p.error = none := by
  cases hp : p.error with
  | none => rfl
  | some e =>
    have hsome := h.error (by rw [hp]; rfl)
    rw [hq] at hsome
    cases hsome

/-- **Reading goes on.** -/
theorem trans (h : Reads p q a m) (h' : Reads q r b n) : Reads p r (a ++ b) (m + n) := by
  refine ⟨h'.ends ∘ h.ends, h'.shorter.trans h.shorter, h'.error ∘ h.error, ?_,
    fun t ht => h.subset t (h'.subset t ht), ?_⟩
  · have hused := h.used
    have hused' := h'.used
    omega
  · intro herror hlex
    obtain ⟨hlexq, hle, read, htokens, hcount, hbuilt⟩ := h.account (h'.error_none herror) hlex
    obtain ⟨hlexr, hle', read', htokens', hcount', hbuilt'⟩ := h'.account herror hlexq
    refine ⟨hlexr, hle.trans hle', read ++ read', by rw [htokens, htokens', List.append_assoc], ?_, fun heq => ?_⟩
    · rw [List.length_append, Parser.itemsOf_append, List.length_append]
      omega
    · rw [hbuilt (by omega), hbuilt' (by omega), Parser.itemsOf_append]

/-- What has been built can be put otherwise, and some of the bytes be forgotten. -/
theorem congr (h : Reads p q a m) (hitems : b = a) (hbytes : n ≤ m) : Reads p q b n :=
  ⟨h.ends, h.shorter, h.error, (Nat.add_le_add_left hbytes _).trans h.used, h.subset, by rw [hitems]; exact h.account⟩

theorem of_error (h : Reads p q a m) (herror : q.error.isSome = true) : Reads p q b m :=
  ⟨h.ends, h.shorter, h.error, h.used, h.subset, fun hnone => by rw [hnone] at herror; cases herror⟩

theorem alloc (p : Parser) (n : ℕ) : Reads p (p.alloc n) [] ((n + 7) / 8 * 8) :=
  ⟨id, le_refl _, id, le_refl _, fun _ => id, fun _ h => ⟨h, le_refl _, [], rfl, le_refl _, fun _ => rfl⟩⟩

theorem node (p : Parser) : Reads p p.node [] 32 := alloc p 32

theorem pointers (p : Parser) (n : ℕ) : Reads p (p.pointers n) [] ((4 * n + 7) / 8 * 8) := alloc p (4 * n)

theorem fail (p : Parser) (text : String) (a : List Item) : Reads p (p.fail text) a 0 := by
  have htokens : (p.fail text).tokens = p.tokens := by
    rw [Parser.tokens, Parser.tokens, Parser.fail_current, Parser.fail_rest]
  refine ⟨?_, ?_, fun _ => Parser.fail_error text, ?_, ?_, ?_⟩
  · intro h
    rwa [Parser.Ends, Parser.fail_current, Parser.fail_rest]
  · rw [Parser.fail_rest]
  · rw [Parser.fail_used]
    exact le_refl _
  · rw [htokens]
    exact fun _ => id
  · intro hnone
    have hsome := Parser.fail_error (p := p) text
    rw [hnone] at hsome
    cases hsome

theorem drop (h : Reads p q a m) (ha : q.error = none → a ≠ []) : Reads p q.drop [] 0 := by
  refine ⟨h.ends, h.shorter, h.error, (Nat.le_add_right _ m).trans h.used, h.subset, fun herror hlex => ?_⟩
  obtain ⟨hlexq, hle, read, htokens, hcount, -⟩ := h.account herror hlex
  have hpos : 0 < a.length := List.length_pos_iff.mpr (ha herror)
  refine ⟨hlexq, hle.trans (Nat.le_succ _), read, htokens, ?_, fun heq => ?_⟩
  · show 0 + (q.dropped + 1) ≤ _
    omega
  · have hdropped : q.dropped + 1 = p.dropped := heq
    omega

end Reads

/-! ## Tokens are read -/

namespace Parser

variable {p : Parser}

theorem Ends.rest_ne_nil (h : p.Ends) (hcurrent : p.current.type ≠ TokenType.eof) : p.rest ≠ [] := by
  obtain ⟨t, ht, hlast⟩ := h
  intro hnil
  rw [hnil] at hlast
  obtain rfl := Option.some.inj (Option.some.inj hlast)
  exact hcurrent ht

theorem Ends.advance (h : p.Ends) : p.advance.Ends := by
  obtain ⟨t, ht, hlast⟩ := h
  unfold Parser.advance
  split
  · exact ⟨t, ht, hlast⟩
  · rename_i r hrest
    refine ⟨t, ht, ?_⟩
    rw [hrest] at hlast
    cases r with
    | nil => cases hlast
    | cons x r => exact hlast
  · rename_i u r hrest
    refine ⟨t, ht, ?_⟩
    rw [hrest] at hlast
    exact hlast

theorem length_rest_advance (h : p.Ends) (hcurrent : p.current.type ≠ TokenType.eof) :
    p.advance.rest.length + 1 = p.rest.length := by
  have hne := h.rest_ne_nil hcurrent
  unfold Parser.advance
  split
  · rename_i hnil
    exact absurd hnil hne
  · rename_i r hrest
    rw [hrest, List.length_cons]
  · rename_i u r hrest
    rw [hrest, List.length_cons]

theorem length_advance_le : p.advance.rest.length ≤ p.rest.length := by
  unfold Parser.advance
  split
  · exact le_refl _
  · rename_i r hrest
    rw [hrest]
    exact Nat.le_succ _
  · rename_i u r hrest
    rw [hrest]
    exact Nat.le_succ _

theorem advance_error : p.advance.error = p.error := by
  unfold Parser.advance
  split <;> rfl

theorem advance_used : p.advance.used = p.used := by
  unfold Parser.advance
  split <;> rfl

theorem advance_subset : ∀ t ∈ p.advance.tokens, t ∈ p.tokens := by
  unfold Parser.advance
  split
  · exact fun _ => id
  · rename_i r hrest
    show ∀ t ∈ p.current :: r.filterMap id, t ∈ p.current :: p.rest.filterMap id
    rw [hrest]
    exact fun _ => id
  · rename_i u r hrest
    show ∀ t ∈ u :: r.filterMap id, t ∈ p.current :: p.rest.filterMap id
    rw [hrest]
    exact fun _ => List.mem_cons_of_mem _

end Parser

/-- **A token is read.** -/
theorem reads_advance {p : Parser} (hcurrent : p.current.type ≠ TokenType.eof) (hends : p.Ends) :
    Reads p p.advance p.current.items 0 := by
  refine ⟨Parser.Ends.advance, ?_, ?_, ?_, Parser.advance_subset, ?_⟩
  · have hlength := Parser.length_rest_advance hends hcurrent
    omega
  · rw [Parser.advance_error]
    exact id
  · rw [Parser.advance_used]
    exact le_refl _
  · intro _ hlex
    have hne := hends.rest_ne_nil hcurrent
    unfold Parser.advance
    split
    · rename_i hnil
      exact absurd hnil hne
    · rename_i r hrest
      exact absurd (by rw [hrest]; exact List.mem_cons_self) hlex
    · rename_i u r hrest
      refine ⟨fun hmem => hlex (by rw [hrest]; exact List.mem_cons_of_mem _ hmem), le_refl _, [p.current], ?_, ?_, ?_⟩
      · show p.current :: p.rest.filterMap id = [p.current] ++ u :: r.filterMap id
        rw [hrest]
        rfl
      · show p.current.items.length + p.dropped ≤ _
        simp
      · intro _
        simp

theorem reads_advance_of_error {p : Parser} (herror : p.error.isSome = true) (a : List Item) : Reads p p.advance a 0 := by
  refine ⟨Parser.Ends.advance, Parser.length_advance_le, ?_, ?_, Parser.advance_subset, fun hnone => ?_⟩
  · rw [Parser.advance_error]
    exact id
  · rw [Parser.advance_used]
    exact le_refl _
  · rw [Parser.advance_error] at hnone
    rw [hnone] at herror
    cases herror

def TokenType.Silent (type : TokenType) : Prop := ∀ t : Token, t.type = type → t.items = []

theorem silent_of_eq {type : TokenType} (h : ∀ text line col num, (Token.mk type text line col num).items = []) :
    type.Silent := by
  rintro ⟨type, text, line, col, num⟩ rfl
  exact h text line col num

theorem silent_comma : TokenType.comma.Silent := silent_of_eq fun _ _ _ _ => rfl

theorem silent_lparen : TokenType.lparen.Silent := silent_of_eq fun _ _ _ _ => rfl

theorem silent_rparen : TokenType.rparen.Silent := silent_of_eq fun _ _ _ _ => rfl

theorem silent_semicolon : TokenType.semicolon.Silent := silent_of_eq fun _ _ _ _ => rfl

theorem silent_newline : TokenType.newline.Silent := silent_of_eq fun _ _ _ _ => rfl

theorem Token.items_eq {t : Token} {type : TokenType} (h : t.type = type) :
    t.items = (Token.mk type t.text t.line t.col t.num).items := by
  obtain ⟨_, text, line, col, num⟩ := t
  obtain rfl := h
  rfl

section Steps

variable {p : Parser} {type : TokenType}

theorem check_iff : p.check type = true ↔ p.current.type = type := decide_eq_true_iff

theorem reads_advance_of_check (hcheck : p.check type = true) (htype : type ≠ TokenType.eof) (hends : p.Ends) :
    Reads p p.advance p.current.items 0 :=
  reads_advance (by rw [check_iff.mp hcheck]; exact htype) hends

theorem reads_silent (hcheck : p.check type = true) (htype : type ≠ TokenType.eof) (hsilent : type.Silent)
    (hends : p.Ends) : Reads p p.advance [] 0 :=
  (reads_advance_of_check hcheck htype hends).congr (hsilent _ (check_iff.mp hcheck)).symm (le_refl _)

theorem length_rest_of_check (hcheck : p.check type = true) (htype : type ≠ TokenType.eof) (hends : p.Ends) :
    p.advance.rest.length + 1 = p.rest.length :=
  Parser.length_rest_advance hends (by rw [check_iff.mp hcheck]; exact htype)

theorem reads_expect {a : List Item} (htype : type ≠ TokenType.eof) (hitems : ∀ t : Token, t.type = type → t.items = a)
    (text : ℕ → String) (hends : p.Ends) : Reads p (p.expect type text) a 0 := by
  unfold Parser.expect
  by_cases hcheck : p.check type = true
  · rw [if_pos hcheck]
    exact (reads_advance_of_check hcheck htype hends).congr (hitems _ (check_iff.mp hcheck)).symm (le_refl _)
  · rw [if_neg hcheck]
    exact Reads.fail p _ a

theorem reads_skipWhile {types : List TokenType} (htypes : ∀ type ∈ types, type ≠ TokenType.eof ∧ type.Silent) :
    ∀ (n : ℕ) (p : Parser), p.Ends → Reads p (p.skipWhile types n) [] 0
  | 0, p, _ => .refl p
  | n + 1, p, hends => by
    rw [Parser.skipWhile]
    by_cases hmem : p.current.type ∈ types
    · rw [if_pos hmem]
      have hread := reads_advance (htypes _ hmem).1 hends
      have hsilent : p.current.items = [] := (htypes _ hmem).2 _ rfl
      exact (hread.trans (reads_skipWhile htypes n p.advance (hread.ends hends))).congr (by rw [hsilent]; rfl) (le_refl _)
    · rw [if_neg hmem]
      exact .refl p

theorem reads_skipStmtNewlines (d : Dialect) (hends : p.Ends) : Reads p (skipStmtNewlines d p) [] 0 := by
  unfold skipStmtNewlines
  split
  · exact .refl p
  · exact reads_skipWhile (by simpa using silent_newline) _ p hends

theorem reads_skipTerm (d : Dialect) (hends : p.Ends) : Reads p (skipTerm d p) [] 0 := by
  unfold skipTerm
  split
  · exact reads_skipWhile (by simpa using silent_semicolon) _ p hends
  · exact reads_skipWhile (by simpa using ⟨silent_newline, silent_semicolon⟩) _ p hends

end Steps

/-! ## Trees are built -/

/-- Nothing ahead compares with `!=`. -/
def Parser.NoNeq (p : Parser) : Prop := ∀ t ∈ p.tokens, t.type ≠ TokenType.neq

structure Builds (p q : Parser) (built : List Item) (bytes : ℕ) (ok : Prop) : Prop where
  reads : Reads p q built bytes
  ok : p.NoNeq → ok

namespace Builds

variable {p q r : Parser} {a b : List Item} {m n : ℕ} {P Q : Prop}

theorem of_reads (h : Reads p q a m) : Builds p q a m True := ⟨h, fun _ => trivial⟩

theorem trans (h : Builds p q a m P) (h' : Builds q r b n Q) : Builds p r (a ++ b) (m + n) (P ∧ Q) :=
  ⟨h.reads.trans h'.reads, fun hp => ⟨h.ok hp, h'.ok fun t ht => hp t (h.reads.subset t ht)⟩⟩

theorem andThen (h : Builds p q a m P) (h' : Reads q r b n) : Builds p r (a ++ b) (m + n) P :=
  ⟨h.reads.trans h', h.ok⟩

theorem after (h' : Reads p q b n) (h : Builds q r a m P) : Builds p r (b ++ a) (n + m) P :=
  ⟨h'.trans h.reads, fun hp => h.ok fun t ht => hp t (h'.subset t ht)⟩

theorem congr (h : Builds p q a m P) (hitems : b = a) (hbytes : n ≤ m) (hok : P → Q) : Builds p q b n Q :=
  ⟨h.reads.congr hitems hbytes, hok ∘ h.ok⟩

end Builds

/-- What a grammar function does: unless there is an error, a token has been read, and there is something to show. -/
structure Makes (p : Parser) (a : Ast) (q : Parser) : Prop where
  builds : Builds p q a.items a.cost a.Ordinary
  progress : q.error = none → q.rest.length < p.rest.length
  present : q.error = none → a.items ≠ []

/-- The grammar function comes to its end wherever less than `k` lexemes lie ahead. -/
def Meets (k : ℕ) (f : Parser → Parsed) : Prop :=
  ∀ p : Parser, p.Ends → p.rest.length < k → ∃ a q, f p = .done (a, q) ∧ Makes p a q

namespace Makes

variable {p q r : Parser} {a : Ast} {m : ℕ}

theorem ends (h : Makes p a q) (hp : p.Ends) : q.Ends := h.builds.reads.ends hp

theorem shorter (h : Makes p a q) : q.rest.length ≤ p.rest.length := h.builds.reads.shorter

theorem around (hbefore : Reads p q [] m) (h : Makes q a r) {s : Parser} {n : ℕ} (hafter : Reads r s [] n) :
    Makes p a s := by
  refine ⟨((Builds.after hbefore h.builds).andThen hafter).congr (by simp) (by omega) id, fun herror => ?_,
    fun herror => h.present (hafter.error_none herror)⟩
  have hprogress := h.progress (hafter.error_none herror)
  have hshorter := hbefore.shorter
  have hshorter' := hafter.shorter
  omega

theorem before (hbefore : Reads p q [] m) (h : Makes q a r) : Makes p a r := h.around hbefore (.refl r)

theorem of_error (h : Builds p q a.items a.cost a.Ordinary) (herror : q.error.isSome = true) : Makes p a q := by
  have hsome : q.error ≠ none := fun hnone => by
    rw [hnone] at herror
    cases herror
  exact ⟨h, fun hnone => absurd hnone hsome, fun hnone => absurd hnone hsome⟩

end Makes

end VelocityMcp.Interp
