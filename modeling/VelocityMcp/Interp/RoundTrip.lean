import VelocityMcp.Interp.Coverage
import VelocityMcp.Interp.Encodings
import VelocityMcp.Interp.Spelling

/-!
# Interp.RoundTrip — the expression parser on printed trees (`interp_core/interp.c`)

`parsesBack_iff`: which trees the parser makes of their texts.
-/

namespace VelocityMcp.Interp

open Lib
open Guest (Strtod)

-- the equations that the grammar's proofs below rewrite with
attribute [grind =] Expr.ast Expr.astAll Expr.astEntries Expr.lexemes Expr.body Expr.bodyAll Expr.bodyEntries
  Expr.isTarget Ast.isTarget Ast.cost Ast.costAll Ast.costEntries parsePostfixes parsePrimary parseAssignment parseUnary
  parseArgs parseElements

/-! ## Trees without lines -/

namespace Ast

mutual

/-- The tree without the lines of its tokens. -/
@[grind =] def unlined : Ast → Ast
  | absent => absent
  | numberLit bits => numberLit bits
  | stringLit text => stringLit text
  | boolLit b => boolLit b
  | nullLit => nullLit
  | arrayLit elements => arrayLit (unlinedAll elements)
  | mapLit entries => mapLit (unlinedEntries entries)
  | ident name _ => ident name 0
  | binary op left right _ => binary op (unlined left) (unlined right) 0
  | unary op operand => unary op (unlined operand)
  | call func args _ => call (unlined func) (unlinedAll args) 0
  | index object i => index (unlined object) (unlined i)
  | member object name => member (unlined object) name
  | block stmts => block (unlinedAll stmts)
  | assign target value => assign (unlined target) (unlined value)
  | ifStmt cond thenBody elseBody => ifStmt (unlined cond) (unlined thenBody) (unlined elseBody)
  | whileStmt cond body => whileStmt (unlined cond) (unlined body)
  | forStmt init cond step body => forStmt (unlined init) (unlined cond) (unlined step) (unlined body)
  | returnStmt value => returnStmt (unlined value)
  | funcDef name params body => funcDef name params (unlined body)
  | print value => print (unlined value)

@[grind =] def unlinedAll : List Ast → List Ast
  | [] => []
  | a :: as => unlined a :: unlinedAll as

@[grind =] def unlinedEntries : List (Ast × Ast) → List (Ast × Ast)
  | [] => []
  | (k, v) :: es => (unlined k, unlined v) :: unlinedEntries es

end

@[simp] theorem length_unlinedAll (as : List Ast) : (unlinedAll as).length = as.length := by
  induction as with
  | nil => rfl
  | cons a as ih => rw [unlinedAll, List.length_cons, List.length_cons, ih]

@[simp] theorem length_unlinedEntries (es : List (Ast × Ast)) : (unlinedEntries es).length = es.length := by
  induction es with
  | nil => rfl
  | cons e es ih => rw [unlinedEntries, List.length_cons, List.length_cons, ih]

mutual

theorem cost_unlined : ∀ a : Ast, a.unlined.cost = a.cost
  | absent | numberLit _ | stringLit _ | boolLit _ | nullLit | ident .. => rfl
  | arrayLit elements => by simp only [unlined, cost, costAll_unlined elements, length_unlinedAll]
  | mapLit entries => by simp only [unlined, cost, costEntries_unlined entries, length_unlinedEntries]
  | binary _ left right _ => by simp only [unlined, cost, cost_unlined left, cost_unlined right]
  | unary _ operand => by simp only [unlined, cost, cost_unlined operand]
  | call func args _ => by simp only [unlined, cost, cost_unlined func, costAll_unlined args, length_unlinedAll]
  | index object i => by simp only [unlined, cost, cost_unlined object, cost_unlined i]
  | member object _ => by simp only [unlined, cost, cost_unlined object]
  | block stmts => by simp only [unlined, cost, costAll_unlined stmts, length_unlinedAll]
  | assign target value => by simp only [unlined, cost, cost_unlined target, cost_unlined value]
  | ifStmt cond thenBody elseBody => by
    simp only [unlined, cost, cost_unlined cond, cost_unlined thenBody, cost_unlined elseBody]
  | whileStmt cond body => by simp only [unlined, cost, cost_unlined cond, cost_unlined body]
  | forStmt init cond step body => by
    simp only [unlined, cost, cost_unlined init, cost_unlined cond, cost_unlined step, cost_unlined body]
  | returnStmt value => by simp only [unlined, cost, cost_unlined value]
  | funcDef _ _ body => by simp only [unlined, cost, cost_unlined body]
  | print value => by simp only [unlined, cost, cost_unlined value]

theorem costAll_unlined : ∀ as : List Ast, costAll (unlinedAll as) = costAll as
  | [] => rfl
  | a :: as => by rw [unlinedAll, costAll, costAll, cost_unlined a, costAll_unlined as]

theorem costEntries_unlined : ∀ es : List (Ast × Ast), costEntries (unlinedEntries es) = costEntries es
  | [] => rfl
  | (k, v) :: es => by
    rw [unlinedEntries, costEntries, costEntries, cost_unlined k, cost_unlined v, costEntries_unlined es]

end

mutual

theorem ordinary_unlined : ∀ a : Ast, a.unlined.Ordinary ↔ a.Ordinary
  | absent | numberLit _ | stringLit _ | boolLit _ | nullLit | ident .. => Iff.rfl
  | arrayLit elements => by simp only [unlined, Ordinary, ordinaryAll_unlined elements, length_unlinedAll]
  | mapLit entries => by simp only [unlined, Ordinary, ordinaryEntries_unlined entries, length_unlinedEntries]
  | binary _ left right _ => by simp only [unlined, Ordinary, ordinary_unlined left, ordinary_unlined right]
  | unary _ operand => by simp only [unlined, Ordinary, ordinary_unlined operand]
  | call func args _ => by
    simp only [unlined, Ordinary, ordinary_unlined func, ordinaryAll_unlined args, length_unlinedAll]
  | index object i => by simp only [unlined, Ordinary, ordinary_unlined object, ordinary_unlined i]
  | member object _ => by simp only [unlined, Ordinary, ordinary_unlined object]
  | block stmts => by simp only [unlined, Ordinary, ordinaryAll_unlined stmts]
  | assign target value => by simp only [unlined, Ordinary, ordinary_unlined target, ordinary_unlined value]
  | ifStmt cond thenBody elseBody => by
    simp only [unlined, Ordinary, ordinary_unlined cond, ordinary_unlined thenBody, ordinary_unlined elseBody]
  | whileStmt cond body => by simp only [unlined, Ordinary, ordinary_unlined cond, ordinary_unlined body]
  | forStmt init cond step body => by
    simp only [unlined, Ordinary, ordinary_unlined init, ordinary_unlined cond, ordinary_unlined step,
      ordinary_unlined body]
  | returnStmt value => by simp only [unlined, Ordinary, ordinary_unlined value]
  | funcDef _ _ body => by simp only [unlined, Ordinary, ordinary_unlined body]
  | print value => by simp only [unlined, Ordinary, ordinary_unlined value]

theorem ordinaryAll_unlined : ∀ as : List Ast, OrdinaryAll (unlinedAll as) ↔ OrdinaryAll as
  | [] => Iff.rfl
  | a :: as => by rw [unlinedAll, OrdinaryAll, OrdinaryAll, ordinary_unlined a, ordinaryAll_unlined as]

theorem ordinaryEntries_unlined : ∀ es : List (Ast × Ast), OrdinaryEntries (unlinedEntries es) ↔ OrdinaryEntries es
  | [] => Iff.rfl
  | (k, v) :: es => by
    rw [unlinedEntries, OrdinaryEntries, OrdinaryEntries, ordinary_unlined k, ordinary_unlined v,
      ordinaryEntries_unlined es]

end

theorem isTarget_unlined (a : Ast) : a.unlined.isTarget = a.isTarget := by
  cases a <;> rfl

end Ast

/-! ## States before tokens -/

namespace Parser

/-- So much more of the arena is used. -/
def spend (p : Parser) (bytes : ℕ) : Parser := { p with used := p.used + bytes }

/-- The state before these tokens. -/
def ahead : List Token → Parser → Parser
  | [], q => q
  | t :: ts, q => { q with current := t, rest := ts.map some ++ some q.current :: q.rest }

variable {p q r : Parser}

@[simp] theorem spend_current (n : ℕ) : (p.spend n).current = p.current := rfl
@[simp] theorem spend_rest (n : ℕ) : (p.spend n).rest = p.rest := rfl
@[simp] theorem spend_zero : p.spend 0 = p := rfl

theorem spend_spend (m n : ℕ) : (p.spend m).spend n = p.spend (m + n) := by
  simp only [spend, Nat.add_assoc]

theorem check_spend (type : TokenType) (n : ℕ) : (p.spend n).check type = p.check type := rfl

theorem advance_spend (n : ℕ) : (p.spend n).advance = p.advance.spend n := by
  obtain ⟨current, rest, error, used, dropped⟩ := p
  match rest with
  | [] => rfl
  | none :: _ => rfl
  | some _ :: _ => rfl

theorem node_eq : p.node = p.spend 32 := rfl

theorem pointers_eq (n : ℕ) : p.pointers n = p.spend ((4 * n + 7) / 8 * 8) := rfl

theorem ahead_append (ts us : List Token) : ahead (ts ++ us) q = ahead ts (ahead us q) := by
  cases ts with
  | nil => rfl
  | cons t ts =>
    cases us with
    | nil => rw [List.append_nil]; rfl
    | cons u us => simp [ahead]

theorem advance_ahead (t : Token) (ts : List Token) : (ahead (t :: ts) q).advance = ahead ts q := by
  cases ts with
  | nil => rfl
  | cons u ts => rfl

theorem spend_ahead (ts : List Token) (n : ℕ) : (ahead ts q).spend n = ahead ts (q.spend n) := by
  cases ts with
  | nil => rfl
  | cons t ts => rfl

end Parser

/-- Between the states lie the tokens of these lexemes. -/
def Before (xs : List Lexeme) (p q : Parser) : Prop :=
  ∃ ts : List Token, ts.map Token.unplaced = xs.map Lexeme.token ∧ p = Parser.ahead ts q

namespace Before

variable {p q r : Parser} {x : Lexeme} {xs ys : List Lexeme}

theorem nil (h : Before [] p q) : p = q := by
  obtain ⟨ts, hts, rfl⟩ := h
  obtain rfl := List.map_eq_nil_iff.mp hts
  rfl

theorem append (h : Before (xs ++ ys) p q) : ∃ r, Before xs p r ∧ Before ys r q := by
  obtain ⟨ts, hts, rfl⟩ := h
  rw [List.map_append] at hts
  obtain ⟨us, vs, rfl, hus, hvs⟩ := List.map_eq_append_iff.mp hts
  exact ⟨Parser.ahead vs q, ⟨us, hus, Parser.ahead_append us vs⟩, vs, hvs, rfl⟩

theorem cons (h : Before (x :: xs) p q) : p.current.unplaced = x.token ∧ Before xs p.advance q := by
  obtain ⟨ts, hts, rfl⟩ := h
  obtain ⟨t, us, rfl, ht, hus⟩ := List.map_eq_cons_iff.mp hts
  exact ⟨ht, us, hus, Parser.advance_ahead t us⟩

theorem type (h : Before (x :: xs) p q) : p.current.type = x.token.type := type_of_unplaced h.cons.1

theorem text (h : Before (x :: xs) p q) : p.current.text = x.token.text := by
  rw [← h.cons.1]
  rfl

theorem last (h : Before [x] p q) : p.advance = q := h.cons.2.nil

theorem spend (h : Before xs p q) (n : ℕ) : Before xs (p.spend n) (q.spend n) := by
  obtain ⟨ts, hts, rfl⟩ := h
  exact ⟨ts, hts, Parser.spend_ahead ts n⟩

theorem length (h : Before xs p q) : p.rest.length = xs.length + q.rest.length := by
  obtain ⟨ts, hts, rfl⟩ := h
  have hlength : ts.length = xs.length := by simpa using congrArg List.length hts
  cases ts with
  | nil =>
    rw [← hlength]
    exact (Nat.zero_add _).symm
  | cons t ts =>
    rw [← hlength, Parser.ahead]
    simp only [List.length_append, List.length_map, List.length_cons]
    omega

end Before

/-! ## Levels -/

section Levels

variable (d : Dialect)

/-- The level on which a token goes on with what stands before it. -/
@[grind =] def binding : TokenType → ℕ
  | .assign | .arrow => 1
  | .or => 2
  | .and => 3
  | .eq | .neq => 4
  | .lt | .gt | .lte | .gte => 5
  | .plus | .minus => 6
  | .dot => if d.concatDot then 6 else 9
  | .star | .slash | .percent => 7
  | .lparen | .lbracket => 9
  | _ => 0

/-- The grammar function of a level.  `m`: the fuel for expressions inside. -/
@[grind =] def levelParser (m n : ℕ) : ℕ → Parser → Parsed
  | 1 => parseAssignment d (parseExpr d m) (parseStatement d m) n
  | 2 => parseLogicalOr d (parseExpr d m) (parseStatement d m) n
  | 3 => parseLogicalAnd d (parseExpr d m) (parseStatement d m) n
  | 4 => parseEquality d (parseExpr d m) (parseStatement d m) n
  | 5 => parseComparison d (parseExpr d m) (parseStatement d m) n
  | 6 => parseAdditive d (parseExpr d m) (parseStatement d m) n
  | 7 => parseMultiplicative d (parseExpr d m) (parseStatement d m) n
  | 8 => parseUnary d (parseExpr d m) (parseStatement d m) n
  | 9 => parsePostfix d (parseExpr d m) (parseStatement d m) n
  | _ => parsePrimary d (parseExpr d m) (parseStatement d m) n

/-- The loop of a level, behind a tree; most levels have none. -/
@[grind =] def loopParser (m n k i : ℕ) (a : Ast) (q : Parser) : Parsed :=
  if k = 9 then parsePostfixes d (parseExpr d m) i a q
  else if 2 ≤ k ∧ k ≤ 7 then parseOperands (binding d · = k) (levelParser d m n (k + 1)) i a q
  else .done (a, q)

/-- What may stand behind a tree of a level.  Behind an assignment there is no loop. -/
def bound (k : ℕ) : ℕ := if k = 1 then 1 else k + 1

theorem bound_le (k : ℕ) : bound k ≤ k + 1 := by
  unfold bound
  split <;> omega

theorem bound_of_two_le {k : ℕ} (hk : 2 ≤ k) : bound k = k + 1 := if_neg (by omega)

variable {d}

theorem isMultiplicative_eq : isMultiplicative = fun t => decide (binding d t = 7) := by
  funext t
  cases hd : d.concatDot <;> cases t <;> simp [isMultiplicative, binding, hd]

theorem isAdditive_eq : isAdditive d = fun t => decide (binding d t = 6) := by
  funext t
  cases hd : d.concatDot <;> cases t <;> simp [isAdditive, binding, hd]

theorem isComparison_eq : isComparison = fun t => decide (binding d t = 5) := by
  funext t
  cases hd : d.concatDot <;> cases t <;> simp [isComparison, binding, hd]

theorem isEquality_eq : isEquality = fun t => decide (binding d t = 4) := by
  funext t
  cases hd : d.concatDot <;> cases t <;> simp [isEquality, binding, hd]

theorem isAnd_eq : (fun t => decide (t = TokenType.and)) = fun t => decide (binding d t = 3) := by
  funext t
  cases hd : d.concatDot <;> cases t <;> simp [binding, hd]

theorem isOr_eq : (fun t => decide (t = TokenType.or)) = fun t => decide (binding d t = 2) := by
  funext t
  cases hd : d.concatDot <;> cases t <;> simp [binding, hd]

/-- **The levels of the binary operators** are alike. -/
theorem levelParser_eq (m n : ℕ) {k : ℕ} (hlow : 2 ≤ k) (hhigh : k ≤ 7) :
    levelParser d m n k = parseLevel (binding d · = k) (levelParser d m n (k + 1)) n := by
  obtain rfl | rfl | rfl | rfl | rfl | rfl : k = 2 ∨ k = 3 ∨ k = 4 ∨ k = 5 ∨ k = 6 ∨ k = 7 := by omega
  · rw [← isOr_eq]
    rfl
  · rw [← isAnd_eq]
    rfl
  · rw [← isEquality_eq]
    rfl
  · rw [← isComparison_eq]
    rfl
  · rw [← isAdditive_eq]
    rfl
  · rw [← isMultiplicative_eq]
    rfl

theorem loopParser_stops {m n k i : ℕ} {a : Ast} {q : Parser} (h : binding d q.current.type < k) (hi : 0 < i) :
    loopParser d m n k i a q = .done (a, q) := by
  obtain ⟨i, rfl⟩ : ∃ j, i = j + 1 := ⟨i - 1, by omega⟩
  unfold loopParser
  by_cases hlast : k = 9
  · subst hlast
    rw [if_pos rfl, parsePostfixes]
    split
    · rename_i htype
      rw [htype] at h
      exact absurd h (Nat.lt_irrefl 9)
    · rename_i htype
      rw [htype] at h
      exact absurd h (Nat.lt_irrefl 9)
    · rename_i htype
      rw [htype, binding] at h
      by_cases hconcat : d.concatDot = true
      · rw [if_pos hconcat]
      · rw [if_neg hconcat] at h
        exact absurd h (Nat.lt_irrefl 9)
    · rfl
  · rw [if_neg hlast]
    by_cases hoperators : 2 ≤ k ∧ k ≤ 7
    · rw [if_pos hoperators, parseOperands, if_neg (by simpa using h.ne)]
    · rw [if_neg hoperators]

theorem loopParser_operators {m n k i : ℕ} {a : Ast} {q : Parser} (hlow : 2 ≤ k) (hhigh : k ≤ 7) :
    loopParser d m n k i a q = parseOperands (binding d · = k) (levelParser d m n (k + 1)) i a q :=
  (if_neg (by omega)).trans (if_pos ⟨hlow, hhigh⟩)

theorem loopParser_nine {m n i : ℕ} {a : Ast} {q : Parser} :
    loopParser d m n 9 i a q = parsePostfixes d (parseExpr d m) i a q := if_pos rfl

theorem loopParser_done {m n k i : ℕ} {a : Ast} {q : Parser} (hlast : k ≠ 9) (hoperators : ¬ (2 ≤ k ∧ k ≤ 7)) :
    loopParser d m n k i a q = .done (a, q) :=
  (if_neg hlast).trans (if_neg hoperators)

variable (d)

/-- **What happens on a level**: the tokens are read, and the loop of the level goes on with a tree that is `tree`, up
to its lines. -/
def Reaches (xs : List Lexeme) (tree : Ast) (k : ℕ) : Prop :=
  ∀ (m n : ℕ) (p q : Parser), Before xs p q → p.rest.length < m → p.rest.length ≤ n → (k ≤ 8 → p.rest.length < n) →
    binding d q.current.type < bound k → ∃ i a, q.rest.length < i ∧ a.unlined = tree ∧
      levelParser d m n k p = loopParser d m n k i a (q.spend tree.cost)

/-- What an expression starts with; where postfixes may follow, it is no unary operator. -/
def Opens (k : ℕ) (xs : List Lexeme) : Prop :=
  ∃ x ys, xs = x :: ys ∧ x.token.type ∈ [TokenType.number, .string, .ident, .true, .false, .null, .lparen, .lbracket,
    .lbrace, .not, .minus] ∧ (9 ≤ k → x.token.type ≠ .not ∧ x.token.type ≠ .minus)

variable {d} {xs : List Lexeme} {tree : Ast} {k : ℕ}

theorem Reaches.down (h : Reaches d xs tree (k + 1)) (hlow : 1 ≤ k) (hhigh : k ≤ 9)
    (hopens : ∃ j, Opens j xs ∧ (k = 8 → 9 ≤ j)) : Reaches d xs tree k := by
  intro m n p q hbefore hm hn hn' hbound
  obtain ⟨j, ⟨x, ys, rfl, -, hunary⟩, hj⟩ := hopens
  have hlength := hbefore.length
  rw [List.length_cons] at hlength
  have hbound' := hbound.trans_le (bound_le k)
  have hnext : binding d q.current.type < bound (k + 1) := by
    rw [bound_of_two_le (by omega)]
    omega
  obtain rfl | rfl | rfl | hoperators : k = 1 ∨ k = 8 ∨ k = 9 ∨ (2 ≤ k ∧ k ≤ 7) := by omega
  · -- the left side of an assignment, if one follows
    obtain ⟨i, a, hi, hunlined, hparse⟩ := h m n p q hbefore hm hn (fun _ => hn' (by omega)) hnext
    have hzero : binding d q.current.type = 0 := Nat.lt_one_iff.mp hbound
    have hnone : (q.check .assign || q.check .arrow) = false := by
      simp only [Parser.check, Bool.or_eq_false_iff, decide_eq_false_iff_not]
      constructor
      · intro htype
        rw [htype] at hzero
        cases hzero
      · intro htype
        rw [htype] at hzero
        cases hzero
    refine ⟨i, a, hi, hunlined, ?_⟩
    have hor : parseLogicalOr d (parseExpr d m) (parseStatement d m) n p = .done (a, q.spend tree.cost) :=
      hparse.trans (loopParser_stops hbound' (by omega))
    show parseAssignment d (parseExpr d m) (parseStatement d m) n p = _
    rw [loopParser_done (by decide) (by decide), parseAssignment, hor, Run.done_bind]
    dsimp only
    rw [Parser.check_spend, Parser.check_spend, hnone, Bool.false_and, if_neg Bool.false_ne_true]
  · obtain ⟨n, rfl⟩ : ∃ l, n = l + 1 := ⟨n - 1, by have hpos := hn' (le_refl _); omega⟩
    obtain ⟨i, a, hi, hunlined, hparse⟩ := h m n p q hbefore hm (by have hlt := hn' (le_refl _); omega) (by omega) hnext
    obtain ⟨hnot, hminus⟩ := hunary (hj rfl)
    have hcheck : (p.check .not || p.check .minus) = false := by
      simp only [Parser.check, Bool.or_eq_false_iff, decide_eq_false_iff_not]
      rw [hbefore.type]
      exact ⟨hnot, hminus⟩
    refine ⟨i, a, hi, hunlined, ?_⟩
    show parseUnary d (parseExpr d m) (parseStatement d m) (n + 1) p = _
    rw [loopParser_done (by decide) (by decide), parseUnary, hcheck, if_neg Bool.false_ne_true]
    exact hparse.trans (loopParser_stops hbound' (by omega))
  · obtain ⟨i, a, hi, hunlined, hparse⟩ := h m n p q hbefore hm hn (by omega) hnext
    refine ⟨n, a, by omega, hunlined, ?_⟩
    rw [loopParser_done (by decide) (by decide)] at hparse
    show parsePostfix d (parseExpr d m) (parseStatement d m) n p = _
    have hprimary : parsePrimary d (parseExpr d m) (parseStatement d m) n p = .done (a, q.spend tree.cost) := hparse
    rw [parsePostfix, hprimary]
    rfl
  · have hlt := hn' (by omega)
    obtain ⟨i, a, hi, hunlined, hparse⟩ := h m n p q hbefore hm hn (fun _ => hlt) hnext
    refine ⟨n, a, by omega, hunlined, ?_⟩
    rw [levelParser_eq m n hoperators.1 hoperators.2, parseLevel, hparse,
      loopParser_stops (q := q.spend tree.cost) hbound' (by omega), Run.done_bind]
    unfold loopParser
    rw [if_neg (by omega), if_pos hoperators]

/-- **What is reached on a level is reached on the weaker ones.** -/
theorem Reaches.descend {j : ℕ} (h : Reaches d xs tree j) (hopens : Opens j xs) (hlow : 1 ≤ k) (hle : k ≤ j)
    (hhigh : j ≤ 10) : Reaches d xs tree k :=
  Nat.decreasingInduction' (fun i hi hki ih => ih.down (by omega) (by omega) ⟨j, hopens, fun _ => by omega⟩) hle h

theorem Reaches.parseExpr (h : Reaches d xs tree 1) {m : ℕ} {p q : Parser} (hbefore : Before xs p q)
    (hm : p.rest.length + 1 < m) (hq : binding d q.current.type = 0) :
    ∃ a, parseExpr d m p = .done (a, q.spend tree.cost) ∧ a.unlined = tree := by
  obtain ⟨m, rfl⟩ : ∃ l, m = l + 1 := ⟨m - 1, by omega⟩
  obtain ⟨i, a, -, hunlined, hparse⟩ := h m m p q hbefore (by omega) (by omega) (fun _ => by omega)
    (by rw [hq]; exact Nat.one_pos)
  exact ⟨a, hparse.trans (loopParser_done (by decide) (by decide)), hunlined⟩

theorem expect_eq {p : Parser} {type : TokenType} {text : ℕ → String} (h : p.current.type = type) :
    p.expect type text = p.advance := if_pos (check_iff.mpr h)

/-- **Parentheses leave the tree as it is.** -/
theorem Reaches.paren (h : Reaches d xs tree 1) : Reaches d (.lparen :: (xs ++ [.rparen])) tree 10 := by
  intro m n p q hbefore hm hn _ _
  obtain ⟨r, hxs, hclose⟩ := hbefore.cons.2.append
  have hlength := hbefore.length
  have hr := hxs.length
  have htype : r.current.type = .rparen := hclose.type
  simp only [List.length_cons, List.length_append, List.length_nil] at hlength
  rw [hclose.length, List.length_singleton] at hr
  obtain ⟨a, hparse, hunlined⟩ := h.parseExpr (m := m) hxs (by omega) (by rw [htype]; rfl)
  refine ⟨q.rest.length + 1, a, Nat.lt_succ_self _, hunlined, ?_⟩
  show parsePrimary d (VelocityMcp.Interp.parseExpr d m) (parseStatement d m) n p = _
  rw [loopParser_done (by decide) (by decide), parsePrimary, show p.current.type = .lparen from hbefore.type]
  dsimp only
  rw [hparse, Run.done_bind]
  dsimp only
  rw [expect_eq (p := r.spend tree.cost) htype, Parser.advance_spend, hclose.last]

end Levels

/-! ## Where trees start -/

section Opens

variable {d : Dialect} {strtod : Strtod} {style : Style} {xs ys : List Lexeme} {j k : ℕ}

theorem Opens.mono (h : Opens j xs) (hle : k ≤ j) : Opens k xs := by
  obtain ⟨x, ys, rfl, htype, hunary⟩ := h
  exact ⟨x, ys, rfl, htype, fun hk => hunary (hk.trans hle)⟩

theorem Opens.append (h : Opens k xs) : Opens k (xs ++ ys) := by
  obtain ⟨x, zs, rfl, htype, hunary⟩ := h
  exact ⟨x, zs ++ ys, rfl, htype, hunary⟩

theorem Opens.cons {x : Lexeme} (htype : x.token.type ∈ [TokenType.number, .string, .ident, .true, .false, .null, .lparen,
    .lbracket, .lbrace]) : Opens k (x :: xs) := by
  refine ⟨x, xs, rfl, ?_, fun _ => ⟨?_, ?_⟩⟩
  · exact List.mem_append_left [TokenType.not, .minus] htype
  · intro h
    rw [h] at htype
    revert htype
    decide
  · intro h
    rw [h] at htype
    revert htype
    decide

namespace Expr

theorem level_pos (e : Expr) : 1 ≤ e.level := by
  unfold level
  split
  · exact le_refl _
  · rename_i op _ _
    cases op <;> decide
  all_goals decide

theorem level_le (e : Expr) : e.level ≤ 10 := by
  unfold level
  split
  · decide
  · rename_i op _ _
    cases op <;> decide
  all_goals decide

theorem opens_wrap {level : ℕ} (hk : k ≤ 10) (h : Opens level xs) : Opens k (wrap style level k xs) := by
  unfold wrap
  by_cases hweak : level < if style.full then 10 else k
  · rw [if_pos hweak]
    exact .cons (by decide)
  · rw [if_neg hweak]
    refine h.mono ?_
    split at hweak <;> omega

/-- **What a tree starts with.** -/
theorem opens_body (e : Expr) : Opens e.level (e.body d strtod style) := by
  induction e using Expr.induction with
  | number n => exact .cons (by simp [Lexeme.number])
  | string s => exact .cons (by simp [Lexeme.string])
  | bool b => cases b <;> exact .cons (by decide)
  | null => exact .cons (by decide)
  | ident name => exact .cons (by simp [Lexeme.ident])
  | array elements => exact .cons (by decide)
  | map entries => exact .cons (by decide)
  | unary op operand =>
    refine ⟨_, _, rfl, ?_, fun h => absurd h (show ¬ 9 ≤ 8 by decide)⟩
    cases op <;> decide
  | binary op left right hleft =>
    have hop : op.level ≤ 10 := by cases op <;> decide
    exact (opens_wrap hop hleft).append
  | call func args hfunc => exact (opens_wrap (k := 9) (by decide) hfunc).append
  | index object i hobject => exact (opens_wrap (k := 9) (by decide) hobject).append
  | member object name hobject => exact (opens_wrap (k := 9) (by decide) hobject).append
  | assign target value htarget => exact ((opens_wrap (k := 2) (by decide) htarget).mono (Nat.le_succ 1)).append

/-- **A tree in its place**, with parentheses if it needs them. -/
theorem reaches_wrap {e : Expr} (h : Reaches d (e.body d strtod style) (e.ast strtod) e.level) (hlow : 1 ≤ k)
    (hhigh : k ≤ 10) : Reaches d (e.lexemes d strtod style k) (e.ast strtod) k := by
  have hopens : Opens e.level (e.body d strtod style) := opens_body e
  have hk := @opens_wrap style _ _ _ hhigh hopens
  unfold lexemes
  unfold wrap at hk ⊢
  by_cases hweak : e.level < if style.full then 10 else k
  · rw [if_pos hweak] at hk ⊢
    exact (h.descend hopens (le_refl _) e.level_pos e.level_le).paren.descend (.cons (by decide)) hlow hhigh (le_refl _)
  · rw [if_neg hweak]
    exact h.descend hopens hlow (by split at hweak <;> omega) e.level_le

end Expr

end Opens

/-! ## Trees are reached -/

section Reached

variable {d : Dialect} {strtod : Strtod} {style : Style} {m n : ℕ} {p q r : Parser}

theorem skipStmtNewlines_eq (h : p.current.type ≠ .newline) : skipStmtNewlines d p = p := by
  have hskip : ∀ n, p.skipWhile [.newline] n = p := fun n => by
    cases n with
    | zero => rfl
    | succ n => exact if_neg (by simpa using h)
  unfold skipStmtNewlines
  split
  · rfl
  · exact hskip _

theorem reaches_token {x : Lexeme} {tree : Ast} (hcost : tree.cost = 32)
    (h : ∀ (m n : ℕ) (p : Parser), p.current.unplaced = x.token → ∃ a, a.unlined = tree ∧
      parsePrimary d (parseExpr d m) (parseStatement d m) n p = .done (a, p.advance.node)) : Reaches d [x] tree 10 := by
  intro m n p q hbefore _ _ _ _
  obtain ⟨a, hunlined, hparse⟩ := h m n p hbefore.cons.1
  refine ⟨q.rest.length + 1, a, Nat.lt_succ_self _, hunlined, ?_⟩
  rw [loopParser_done (by decide) (by decide), hcost, ← hbefore.last]
  exact hparse

theorem Before.head_ne {xs ys : List Lexeme} {k : ℕ} {type : TokenType} (hbefore : Before (xs ++ ys) p q)
    (h : Opens k xs) (htype : type ∉ [TokenType.number, .string, .ident, .true, .false, .null, .lparen, .lbracket, .lbrace,
      .not, .minus]) : p.current.type ≠ type := by
  obtain ⟨x, zs, rfl, hopens, -⟩ := h
  rw [Before.type (x := x) hbefore]
  rintro rfl
  exact htype hopens

def Reached (d : Dialect) (strtod : Strtod) (style : Style) (e : Expr) : Prop :=
  Reaches d (e.body d strtod style) (e.ast strtod) e.level

theorem Reached.parseExpr {e : Expr} (h : Reached d strtod style e) {p q : Parser}
    (hbefore : Before (e.lexemes d strtod style 1) p q) (hm : p.rest.length + 1 < m)
    (hq : binding d q.current.type = 0) :
    ∃ a, parseExpr d m p = .done (a, q.spend (e.ast strtod).cost) ∧ a.unlined = e.ast strtod :=
  (Expr.reaches_wrap h (le_refl _) (by decide)).parseExpr hbefore hm hq

theorem opens_lexemes (e : Expr) : Opens 1 (e.lexemes d strtod style 1) := Expr.opens_wrap (by decide) (Expr.opens_body e)

theorem Before.tail_current {es : List Expr} (h : Before (Expr.bodyTail d strtod style es) p q)
    (hq : binding d q.current.type = 0) : binding d p.current.type = 0 := by
  cases es with
  | nil => rwa [h.nil]
  | cons e es =>
    rw [Expr.bodyTail] at h
    rw [h.type]
    rfl

theorem tail_step {e : Expr} {es : List Expr} (he : Reached d strtod style e)
    (hbefore : Before (Expr.bodyTail d strtod style (e :: es)) p q) (hm : p.rest.length < m)
    (hq : binding d q.current.type = 0) : p.current.type = .comma ∧ skipStmtNewlines d p.advance = p.advance ∧
      p.advance.current.type ≠ .rbracket ∧ ∃ a r, parseExpr d m p.advance = .done (a, r) ∧ a.unlined = e.ast strtod ∧
        Before (Expr.bodyTail d strtod style es) r (q.spend (e.ast strtod).cost) ∧ r.rest.length < p.rest.length := by
  rw [Expr.bodyTail] at hbefore
  have hlength := hbefore.length
  obtain ⟨r, hhead, htail⟩ := hbefore.cons.2.append
  have hadvance := hbefore.cons.2.length
  have hr := hhead.length
  have hne := fun type => @Before.head_ne _ _ _ _ _ type hbefore.cons.2 (opens_lexemes e)
  rw [List.length_cons] at hlength
  obtain ⟨a, hparse, hunlined⟩ := he.parseExpr (m := m) hhead (by omega) (htail.tail_current hq)
  exact ⟨hbefore.type, skipStmtNewlines_eq (hne _ (by decide)), hne _ (by decide), a, _, hparse, hunlined, htail.spend _,
    by rw [Parser.spend_rest]; omega⟩

/-- **The arguments behind the first.** -/
theorem parseArgs_reached : ∀ (es : List Expr) (n count : ℕ) (p q : Parser), (∀ e ∈ es, Reached d strtod style e) →
    Before (Expr.bodyTail d strtod style es) p q → p.rest.length < m → p.rest.length < n → q.current.type = .rparen →
    count + es.length ≤ 32 → ∃ as, parseArgs d (parseExpr d m) n count p =
      .done (as, q.spend (Ast.costAll (Expr.astAll strtod es))) ∧ Ast.unlinedAll as = Expr.astAll strtod es
  | _, 0, _, _, _, _, _, _, hn, _, _ => absurd hn (Nat.not_lt_zero _)
  | [], n + 1, count, p, q, _, hbefore, _, _, hq, _ => by
    obtain rfl := hbefore.nil
    refine ⟨[], ?_, rfl⟩
    rw [parseArgs, if_neg (by rw [check_iff, hq]; decide)]
    rfl
  | e :: es, n + 1, count, p, q, hes, hbefore, hm, hn, hq, hcount => by
    obtain ⟨he, hes⟩ := List.forall_mem_cons.mp hes
    rw [List.length_cons] at hcount
    obtain ⟨hcomma, hskip, -, a, r, hparse, hunlined, htail, hr⟩ := tail_step he hbefore hm (by rw [hq]; rfl)
    obtain ⟨as, hparse', hunlined'⟩ := parseArgs_reached es n (count + 1) _ _ hes htail (by omega) (by omega) hq (by omega)
    refine ⟨a :: as, ?_, by rw [Ast.unlinedAll, hunlined, hunlined']; rfl⟩
    rw [parseArgs, if_pos (check_iff.mpr hcomma)]
    dsimp only
    rw [hskip, if_pos (by omega), hparse, Run.done_bind]
    dsimp only
    rw [hparse', Run.done_bind, Parser.spend_spend]
    rfl

theorem parseElements_reached : ∀ (es : List Expr) (n count : ℕ) (p q : Parser), (∀ e ∈ es, Reached d strtod style e) →
    Before (Expr.bodyTail d strtod style es) p q → p.rest.length < m → p.rest.length < n → q.current.type = .rbracket →
    count + es.length ≤ 256 → ∃ as, parseElements d (parseExpr d m) n count p =
      .done (as, q.spend (Ast.costAll (Expr.astAll strtod es))) ∧ Ast.unlinedAll as = Expr.astAll strtod es
  | _, 0, _, _, _, _, _, _, hn, _, _ => absurd hn (Nat.not_lt_zero _)
  | [], n + 1, count, p, q, _, hbefore, _, _, hq, _ => by
    obtain rfl := hbefore.nil
    refine ⟨[], ?_, rfl⟩
    rw [parseElements, if_neg (by rw [check_iff, hq]; decide)]
    rfl
  | e :: es, n + 1, count, p, q, hes, hbefore, hm, hn, hq, hcount => by
    obtain ⟨he, hes⟩ := List.forall_mem_cons.mp hes
    rw [List.length_cons] at hcount
    obtain ⟨hcomma, hskip, hne, a, r, hparse, hunlined, htail, hr⟩ := tail_step he hbefore hm (by rw [hq]; rfl)
    obtain ⟨as, hparse', hunlined'⟩ :=
      parseElements_reached es n (count + 1) _ _ hes htail (by omega) (by omega) hq (by omega)
    refine ⟨a :: as, ?_, by rw [Ast.unlinedAll, hunlined, hunlined']; rfl⟩
    rw [parseElements, if_pos (check_iff.mpr hcomma)]
    dsimp only
    rw [hskip, if_neg (fun h => hne (check_iff.mp h)), if_pos (by omega), hparse, Run.done_bind]
    dsimp only
    rw [hparse', Run.done_bind, Parser.spend_spend]
    rfl

theorem all_step {e : Expr} {es : List Expr} (he : Reached d strtod style e)
    (hbefore : Before (Expr.bodyAll d strtod style (e :: es)) p q) (hm : p.rest.length + 1 < m)
    (hq : binding d q.current.type = 0) : skipStmtNewlines d p = p ∧ p.current.type ≠ .rparen ∧
      p.current.type ≠ .rbracket ∧ ∃ a r, parseExpr d m p = .done (a, r) ∧ a.unlined = e.ast strtod ∧
        Before (Expr.bodyTail d strtod style es) r (q.spend (e.ast strtod).cost) ∧ r.rest.length ≤ p.rest.length ∧
          binding d r.current.type = 0 := by
  rw [Expr.bodyAll] at hbefore
  have hlength := hbefore.length
  obtain ⟨r, hhead, htail⟩ := hbefore.append
  have hr := hhead.length
  have hne := fun type => @Before.head_ne _ _ _ _ _ type hbefore (opens_lexemes e)
  obtain ⟨a, hparse, hunlined⟩ := he.parseExpr (m := m) hhead hm (htail.tail_current hq)
  exact ⟨skipStmtNewlines_eq (hne _ (by decide)), hne _ (by decide), hne _ (by decide), a, _, hparse, hunlined,
    htail.spend _, by rw [Parser.spend_rest]; omega, htail.tail_current hq⟩

theorem parseArgList_reached {es : List Expr} (hes : ∀ e ∈ es, Reached d strtod style e)
    (hbefore : Before (Expr.bodyAll d strtod style es) p q) (hm : p.rest.length + 1 < m) (hn : p.rest.length < n)
    (hq : q.current.type = .rparen) (hcount : es.length ≤ 32) : ∃ as, parseArgList d (parseExpr d m) n p =
      .done (as, q.spend (Ast.costAll (Expr.astAll strtod es))) ∧ Ast.unlinedAll as = Expr.astAll strtod es := by
  cases es with
  | nil =>
    obtain rfl := hbefore.nil
    refine ⟨[], ?_, rfl⟩
    rw [parseArgList]
    dsimp only
    rw [skipStmtNewlines_eq (by rw [hq]; decide), if_pos (check_iff.mpr hq)]
    rfl
  | cons e es =>
    obtain ⟨he, hes⟩ := List.forall_mem_cons.mp hes
    rw [List.length_cons] at hcount
    obtain ⟨hskip, hne, -, a, r, hparse, hunlined, htail, hr, -⟩ := all_step he hbefore hm (by rw [hq]; rfl)
    obtain ⟨as, hparse', hunlined'⟩ :=
      parseArgs_reached (m := m) es n 1 _ _ hes htail (by omega) (by omega) hq (by omega)
    refine ⟨a :: as, ?_, by rw [Ast.unlinedAll, hunlined, hunlined']; rfl⟩
    rw [parseArgList]
    dsimp only
    rw [hskip, if_neg (fun h => hne (check_iff.mp h)), hparse, Run.done_bind]
    dsimp only
    rw [hparse', Run.done_bind, Parser.spend_spend]
    rfl

theorem finishArray_eq {as : List Ast} (h : q.current.type = .rbracket) :
    finishArray d as q = (.arrayLit as, q.advance.spend (32 + (4 * as.length + 7) / 8 * 8)) := by
  unfold finishArray
  rw [skipStmtNewlines_eq (by rw [h]; decide), expect_eq h]
  dsimp only
  rw [Parser.node_eq, Parser.pointers_eq, Parser.spend_spend]

/-- **An array literal is a tree.** -/
theorem parseBracket_reached {es : List Expr} (hes : ∀ e ∈ es, Reached d strtod style e)
    (hbefore : Before (Expr.bodyAll d strtod style es) p q) (hm : p.rest.length + 1 < m) (hn : p.rest.length < n)
    (hq : q.current.type = .rbracket) (hcount : es.length ≤ 256) : ∃ as, parseBracket d (parseExpr d m) n p =
      .done (.arrayLit as, q.advance.spend (Ast.arrayLit (Expr.astAll strtod es)).cost) ∧
        Ast.unlinedAll as = Expr.astAll strtod es := by
  cases es with
  | nil =>
    obtain rfl := hbefore.nil
    refine ⟨[], ?_, rfl⟩
    rw [parseBracket]
    dsimp only
    rw [skipStmtNewlines_eq (by rw [hq]; decide), if_pos (check_iff.mpr hq), finishArray_eq hq, Expr.astAll, Ast.cost,
      Ast.costAll]
    rfl
  | cons e es =>
    obtain ⟨he, hes⟩ := List.forall_mem_cons.mp hes
    rw [List.length_cons] at hcount
    obtain ⟨hskip, -, hne, a, r, hparse, hunlined, htail, hr, hr'⟩ := all_step he hbefore hm (by rw [hq]; rfl)
    obtain ⟨as, hparse', hunlined'⟩ :=
      parseElements_reached (m := m) es n 1 _ _ hes htail (by omega) (by omega) hq (by omega)
    have harrow : ¬ r.check .arrow = true := fun h => by
      rw [check_iff.mp h] at hr'
      cases hr'
    have hall : Ast.unlinedAll (a :: as) = Expr.astAll strtod (e :: es) := by
      rw [Ast.unlinedAll, hunlined, hunlined']
      rfl
    have hlength : (a :: as).length = (Expr.astAll strtod (e :: es)).length := by
      rw [← hall, Ast.length_unlinedAll]
    have hcost : (e.ast strtod).cost + Ast.costAll (Expr.astAll strtod es) + (32 + (4 * (a :: as).length + 7) / 8 * 8) =
        (Ast.arrayLit (Expr.astAll strtod (e :: es))).cost := by
      rw [hlength, Ast.cost, Expr.astAll, Ast.costAll]
      omega
    refine ⟨a :: as, ?_, hall⟩
    rw [parseBracket]
    dsimp only
    rw [hskip, if_neg (fun h => hne (check_iff.mp h)), hparse, Run.done_bind]
    dsimp only
    rw [if_neg harrow, hparse', Run.done_bind]
    dsimp only
    rw [Parser.spend_spend, finishArray_eq (q := q.spend _) hq, Parser.advance_spend, Parser.spend_spend, hcost]

theorem cost_keyAst (k : Key) : (Expr.keyAst k).cost = 32 := by
  cases k <;> rfl

theorem parseKey_reached {k : Key} {xs : List Lexeme} (hbefore : Before (.key d style k :: xs) p q) :
    ∃ a, parseKey p = some (a, p.advance.spend 32) ∧ a.unlined = Expr.keyAst k ∧ p.current.type ≠ .newline ∧
      p.current.type ≠ .rbrace := by
  have htype := hbefore.type
  have htext := hbefore.text
  cases k with
  | ident name =>
    have htype : p.current.type = .ident := htype
    refine ⟨.ident p.current.text p.current.line, by rw [parseKey, htype]; rfl, ?_, ?_, ?_⟩
    · rw [htext]
      rfl
    · rw [htype]
      decide
    · rw [htype]
      decide
  | string s =>
    have htype : p.current.type = .string := htype
    refine ⟨.stringLit p.current.text, by rw [parseKey, htype]; rfl, ?_, ?_, ?_⟩
    · rw [htext]
      rfl
    · rw [htype]
      decide
    · rw [htype]
      decide

/-- **The entries of a map literal.** -/
theorem parseBraceEntries_reached : ∀ (es : List (Key × Expr)) (n count : ℕ) (p q : Parser), es ≠ [] →
    (∀ x ∈ es, Reached d strtod style x.2) → Before (Expr.bodyEntries d strtod style es) p q → p.rest.length < m →
    p.rest.length < n → q.current.type = .rbrace → count + es.length ≤ 64 →
    ∃ entries, parseBraceEntries d (parseExpr d m) n count p =
      .done (entries, q.spend (Ast.costEntries (Expr.astEntries strtod es))) ∧
        Ast.unlinedEntries entries = Expr.astEntries strtod es
  | [], _, _, _, _, hne, _, _, _, _, _, _ => absurd rfl hne
  | _ :: _, 0, _, _, _, _, _, _, _, hn, _, _ => absurd hn (Nat.not_lt_zero _)
  | (k, e) :: es, n + 1, count, p, q, _, hes, hbefore, hm, hn, hq, hcount => by
    obtain ⟨he, hes⟩ := List.forall_mem_cons.mp hes
    rw [Expr.bodyEntries] at hbefore
    have hlength := hbefore.length
    obtain ⟨key, hkey, hunlined, hnewline, hbrace⟩ := parseKey_reached hbefore
    have hcolon := hbefore.cons.2
    obtain ⟨r, hhead, htail⟩ := hcolon.cons.2.append
    have hadvance := hcolon.cons.2.length
    have hr := hhead.length
    rw [List.length_cons, List.length_cons] at hlength
    rw [List.length_cons] at hcount
    have hcolon : p.advance.current.type = .colon := hcolon.type
    -- behind the value stands a comma or the brace, and neither goes on with it
    have hend : binding d r.current.type = 0 ∧ r.current.type ≠ .newline := by
      split at htail
      · rw [htail.nil, hq]
        exact ⟨rfl, by decide⟩
      · rw [htail.type]
        exact ⟨rfl, by decide⟩
    obtain ⟨a, hparse, hunlined'⟩ := he.parseExpr (m := m) (hhead.spend 32) (by rw [Parser.spend_rest]; omega) hend.1
    have hstart : skipStmtNewlines d p = p := skipStmtNewlines_eq hnewline
    have hskip : skipStmtNewlines d ((r.spend 32).spend (e.ast strtod).cost) = (r.spend 32).spend (e.ast strtod).cost :=
      skipStmtNewlines_eq hend.2
    have hkeep : keepItem 64 count (key, a) ((r.spend 32).spend (e.ast strtod).cost) =
        ([(key, a)], (r.spend 32).spend (e.ast strtod).cost) := if_pos (by omega)
    have hbinds : ((p.advance.spend 32).check .colon || (p.advance.spend 32).check .arrow) = true :=
      Bool.or_eq_true_iff.mpr (Or.inl (check_iff.mpr hcolon))
    rw [parseBraceEntries]
    dsimp only
    rw [hstart, if_neg (fun h => hbrace (check_iff.mp h)), hkey]
    dsimp only
    rw [if_pos hbinds, Parser.advance_spend, hparse, Run.done_bind]
    dsimp only
    rw [hkeep]
    dsimp only
    rw [hskip]
    -- the last entry has no comma behind it
    by_cases hlast : es = []
    · subst hlast
      rw [if_pos rfl] at htail
      obtain rfl := htail.nil
      refine ⟨[(key, a)], ?_, by rw [Ast.unlinedEntries, hunlined, hunlined']; rfl⟩
      rw [if_neg (fun h => by rw [check_iff] at h; exact absurd (hq.symm.trans h) (by decide)), Parser.spend_spend,
        Expr.astEntries, Ast.costEntries, cost_keyAst]
      rfl
    · rw [if_neg hlast] at htail
      have hcomma : r.current.type = .comma := htail.type
      have hadvance' := htail.length
      have hrest := htail.cons.2.length
      rw [List.length_cons] at hadvance'
      obtain ⟨entries, hparse', hunlined''⟩ := parseBraceEntries_reached es n (count + 1) _ _ hlast hes
        ((htail.cons.2.spend 32).spend (e.ast strtod).cost) (by simp only [Parser.spend_rest]; omega)
        (by simp only [Parser.spend_rest]; omega) hq (by omega)
      refine ⟨(key, a) :: entries, ?_, by rw [Ast.unlinedEntries, hunlined, hunlined', hunlined'']; rfl⟩
      rw [if_pos (check_iff (p := (r.spend 32).spend _).mpr hcomma), Parser.advance_spend, Parser.advance_spend,
        show count + [(key, a)].length = count + 1 from rfl, hparse', Run.done_bind,
        Parser.spend_spend, Parser.spend_spend, Expr.astEntries, Ast.costEntries, cost_keyAst, Nat.add_assoc]
      rfl

theorem finishMap_eq {entries : List (Ast × Ast)} {text : ℕ → String} (h : q.current.type = .rbrace) :
    finishMap d .rbrace text entries q =
      (.mapLit entries, q.advance.spend (32 + 2 * ((4 * entries.length + 7) / 8 * 8))) := by
  unfold finishMap
  rw [skipStmtNewlines_eq (by rw [h]; decide), expect_eq h]
  dsimp only
  rw [Parser.node_eq, Parser.pointers_eq, Parser.pointers_eq, Parser.spend_spend, Parser.spend_spend, Nat.two_mul]

/-- **A map literal is a tree.** -/
theorem parseBrace_reached {es : List (Key × Expr)} (hes : ∀ x ∈ es, Reached d strtod style x.2)
    (hbefore : Before (Expr.bodyEntries d strtod style es) p q) (hm : p.rest.length < m) (hn : p.rest.length < n)
    (hq : q.current.type = .rbrace) (hcount : es.length ≤ 64) : ∃ entries, parseBrace d (parseExpr d m) n p =
      .done (.mapLit entries, q.advance.spend (Ast.mapLit (Expr.astEntries strtod es)).cost) ∧
        Ast.unlinedEntries entries = Expr.astEntries strtod es := by
  by_cases hempty : es = []
  · subst hempty
    obtain rfl := hbefore.nil
    refine ⟨[], ?_, rfl⟩
    rw [parseBrace]
    dsimp only
    rw [skipStmtNewlines_eq (by rw [hq]; decide), if_pos (check_iff.mpr hq), finishMap_eq hq, Expr.astEntries, Ast.cost,
      Ast.costEntries]
    rfl
  · obtain ⟨entries, hparse, hunlined⟩ :=
      parseBraceEntries_reached es n 0 p q hempty hes hbefore hm hn hq (by omega)
    obtain ⟨k, e, es, rfl⟩ : ∃ k e es', es = (k, e) :: es' := by
      cases es with
      | nil => exact absurd rfl hempty
      | cons x es => exact ⟨x.1, x.2, es, rfl⟩
    rw [Expr.bodyEntries] at hbefore
    obtain ⟨-, -, -, hnewline, hbrace⟩ := parseKey_reached hbefore
    have hlength : entries.length = (Expr.astEntries strtod ((k, e) :: es)).length := by
      rw [← hunlined, Ast.length_unlinedEntries]
    have hcost : Ast.costEntries (Expr.astEntries strtod ((k, e) :: es)) +
        (32 + 2 * ((4 * entries.length + 7) / 8 * 8)) = (Ast.mapLit (Expr.astEntries strtod ((k, e) :: es))).cost := by
      rw [hlength, Ast.cost]
      omega
    refine ⟨entries, ?_, hunlined⟩
    rw [parseBrace]
    dsimp only
    rw [skipStmtNewlines_eq hnewline, if_neg (fun h => hbrace (check_iff.mp h)), hparse, Run.done_bind]
    dsimp only
    rw [finishMap_eq (q := q.spend _) hq, Parser.advance_spend, Parser.spend_spend, hcost]

theorem binding_binary {op : BinaryOp} (h : op = .concat → d.concatDot = true) : binding d op.type = op.level := by
  cases op with
  | concat => exact if_pos (h rfl)
  | _ => rfl

/-- **A binary operator binds to the left.** -/
theorem reaches_binary {op : BinaryOp} {left right : Expr} (hop : op = .concat → d.concatDot = true)
    (hleft : Reached d strtod style left) (hright : Reached d strtod style right) :
    Reached d strtod style (.binary op left right) := by
  obtain ⟨hlow, hhigh⟩ : 2 ≤ op.level ∧ op.level ≤ 7 := by cases op <;> decide
  have hbinding := binding_binary hop
  intro m n p q hbefore hm hn hn' hbound
  have hbound : binding d q.current.type < op.level + 1 := by
    rwa [← bound_of_two_le hlow]
  have hn' : p.rest.length < n := hn' (show op.level ≤ 8 by omega)
  obtain ⟨r, hl, hr⟩ := @Before.append _ _ _ (.binary op :: right.lexemes d strtod style (op.level + 1)) hbefore
  have hlength := hl.length
  have htype : r.current.type = op.type := hr.type
  have hadvance := hr.length
  have hright' := hr.cons.2.length
  rw [List.length_cons] at hadvance
  obtain ⟨i, a, hi, hunlined, hparse⟩ := Expr.reaches_wrap hleft (k := op.level) (by omega) (by omega) m n p r hl hm hn
    (fun _ => hn') (by rw [htype, hbinding, bound_of_two_le hlow]; omega)
  obtain ⟨j, b, hj, hunlined', hparse'⟩ := Expr.reaches_wrap hright (k := op.level + 1) (by omega) (by omega) m n _ _
    (hr.cons.2.spend (left.ast strtod).cost) (by rw [Parser.spend_rest]; omega) (by rw [Parser.spend_rest]; omega)
    (fun _ => by rw [Parser.spend_rest]; omega)
    (by rw [Parser.spend_current, bound_of_two_le (by omega)]; omega)
  rw [loopParser_stops (q := (q.spend _).spend _) (by simpa using hbound) (by omega)] at hparse'
  obtain ⟨i, rfl⟩ : ∃ l, i = l + 1 := ⟨i - 1, by omega⟩
  refine ⟨i, .binary op.type a b r.current.line, by omega, by rw [Ast.unlined, hunlined, hunlined']; rfl, ?_⟩
  have hspent : ((q.spend (left.ast strtod).cost).spend (right.ast strtod).cost).node =
      q.spend ((Expr.binary op left right).ast strtod).cost := by
    rw [Parser.node_eq, Parser.spend_spend, Parser.spend_spend, Expr.ast, Ast.cost]
    congr 1
    omega
  show levelParser d m n op.level p = loopParser d m n op.level _ _ _
  rw [hparse, loopParser_operators hlow hhigh, loopParser_operators hlow hhigh, parseOperands, Parser.spend_current, htype,
    if_pos (by simpa using hbinding), Parser.advance_spend, hparse', Run.done_bind]
  dsimp only
  rw [hspent]

theorem reaches_unary {op : UnaryOp} {operand : Expr} (h : Reached d strtod style operand) :
    Reached d strtod style (.unary op operand) := by
  intro m n p q hbefore hm hn hn' hbound
  have hn' := hn' (show 8 ≤ 8 by decide)
  obtain ⟨n, rfl⟩ : ∃ l, n = l + 1 := ⟨n - 1, by omega⟩
  have hoperand : Before (operand.lexemes d strtod style 8) p.advance q := hbefore.cons.2
  have hlength := hbefore.length
  have hadvance := hoperand.length
  have htype : p.current.type = op.type := hbefore.type
  have hlexemes : (operand.lexemes d strtod style 8).length + 1 + q.rest.length = p.rest.length := hlength.symm
  obtain ⟨i, a, hi, hunlined, hparse⟩ := Expr.reaches_wrap h (k := 8) (by decide) (by decide) m n _ _ (hoperand.spend 32)
    (by rw [Parser.spend_rest]; omega) (by rw [Parser.spend_rest]; omega)
    (fun _ => by rw [Parser.spend_rest]; omega) hbound
  rw [loopParser_done (by decide) (by decide)] at hparse
  have hunary : parseUnary d (parseExpr d m) (parseStatement d m) n (p.advance.spend 32) =
      .done (a, (q.spend 32).spend (operand.ast strtod).cost) := hparse
  have hcheck : (p.check .not || p.check .minus) = true := by
    cases op with
    | not => exact Bool.or_eq_true_iff.mpr (Or.inl (check_iff.mpr htype))
    | minus => exact Bool.or_eq_true_iff.mpr (Or.inr (check_iff.mpr htype))
  refine ⟨q.rest.length + 1, .unary op.type a, Nat.lt_succ_self _, by rw [Ast.unlined, hunlined]; rfl, ?_⟩
  show parseUnary d (parseExpr d m) (parseStatement d m) (n + 1) p = loopParser d m (n + 1) 8 _ _ _
  rw [loopParser_done (by decide) (by decide), parseUnary, hcheck, if_pos rfl, Parser.node_eq, hunary, Run.done_bind]
  dsimp only
  rw [Parser.spend_spend, htype]
  rfl

/-- **A call.** -/
theorem reaches_call {func : Expr} {args : List Expr} (hfunc : Reached d strtod style func)
    (hargs : ∀ e ∈ args, Reached d strtod style e) (hcount : args.length ≤ 32) :
    Reached d strtod style (.call func args) := by
  intro m n p q hbefore hm hn hn' hbound
  obtain ⟨r, hf, hr⟩ := @Before.append _ _ (func.lexemes d strtod style 9)
    (.lparen :: (Expr.bodyAll d strtod style args ++ [Lexeme.rparen])) hbefore
  obtain ⟨t, hall, hclose⟩ := hr.cons.2.append
  have hlength := hf.length
  have hadvance := hr.length
  have hall' := hr.cons.2.length
  have ht := hclose.length
  have htype : r.current.type = .lparen := hr.type
  have hparen : t.current.type = .rparen := hclose.type
  rw [List.length_cons] at hadvance
  obtain ⟨i, a, hi, hunlined, hparse⟩ := Expr.reaches_wrap hfunc (k := 9) (by decide) (by decide) m n p r hf hm hn hn' (by
    rw [htype]
    exact Nat.lt_succ_self 9)
  obtain ⟨i, rfl⟩ : ∃ l, i = l + 1 := ⟨i - 1, by omega⟩
  obtain ⟨as, hparse', hunlined'⟩ := parseArgList_reached (m := m) (n := i) hargs (hall.spend (func.ast strtod).cost)
    (by rw [Parser.spend_rest]; omega) (by rw [Parser.spend_rest]; omega) hparen hcount
  have hlast : t.advance = q := hclose.last
  have hlen : as.length = (Expr.astAll strtod args).length := by rw [← hunlined', Ast.length_unlinedAll]
  have hspent : ((q.spend (func.ast strtod).cost).spend (Ast.costAll (Expr.astAll strtod args))).node.pointers as.length =
      q.spend ((Expr.call func args).ast strtod).cost := by
    rw [Parser.node_eq, Parser.pointers_eq, Parser.spend_spend, Parser.spend_spend, Parser.spend_spend, Expr.ast, Ast.cost,
      hlen]
    congr 1
    omega
  refine ⟨i, .call a as r.current.line, by omega, by rw [Ast.unlined, hunlined, hunlined']; rfl, ?_⟩
  show levelParser d m n 9 p = loopParser d m n 9 _ _ _
  rw [hparse, loopParser_nine, loopParser_nine, parsePostfixes, Parser.spend_current, htype]
  dsimp only
  rw [Parser.advance_spend, hparse', Run.done_bind]
  dsimp only
  rw [skipStmtNewlines_eq (p := (t.spend _).spend _) (by simp only [Parser.spend_current]; rw [hparen]; decide),
    expect_eq (p := (t.spend _).spend _) hparen, Parser.advance_spend, Parser.advance_spend, hlast, hspent]

theorem reaches_index {object i : Expr} (hobject : Reached d strtod style object) (hi : Reached d strtod style i) :
    Reached d strtod style (.index object i) := by
  intro m n p q hbefore hm hn hn' hbound
  obtain ⟨r, ho, hr⟩ := @Before.append _ _ (object.lexemes d strtod style 9)
    (.lbracket :: (i.lexemes d strtod style 1 ++ [Lexeme.rbracket])) hbefore
  obtain ⟨t, hin, hclose⟩ := hr.cons.2.append
  have hlength := ho.length
  have hadvance := hr.length
  have hin' := hr.cons.2.length
  have ht := hclose.length
  have htype : r.current.type = .lbracket := hr.type
  have hbracket : t.current.type = .rbracket := hclose.type
  rw [List.length_cons, List.length_append] at hadvance
  rw [List.length_append] at hin'
  obtain ⟨j, a, hj, hunlined, hparse⟩ := Expr.reaches_wrap hobject (k := 9) (by decide) (by decide) m n p r ho hm hn hn' (by
    rw [htype]
    exact Nat.lt_succ_self 9)
  obtain ⟨j, rfl⟩ : ∃ l, j = l + 1 := ⟨j - 1, by omega⟩
  obtain ⟨b, hparse', hunlined'⟩ := hi.parseExpr (m := m) (hin.spend (object.ast strtod).cost)
    (by rw [Parser.spend_rest]; omega) (by rw [Parser.spend_current, hbracket]; rfl)
  have hlast : t.advance = q := hclose.last
  have hspent : ((q.spend (object.ast strtod).cost).spend (i.ast strtod).cost).node =
      q.spend ((Expr.index object i).ast strtod).cost := by
    rw [Parser.node_eq, Parser.spend_spend, Parser.spend_spend, Expr.ast, Ast.cost]
    congr 1
    omega
  refine ⟨j, .index a b, by omega, by rw [Ast.unlined, hunlined, hunlined']; rfl, ?_⟩
  show levelParser d m n 9 p = loopParser d m n 9 _ _ _
  rw [hparse, loopParser_nine, loopParser_nine, parsePostfixes, Parser.spend_current, htype]
  dsimp only
  rw [Parser.advance_spend, hparse', Run.done_bind]
  dsimp only
  rw [expect_eq (p := (t.spend _).spend _) hbracket, Parser.advance_spend, Parser.advance_spend, hlast, hspent]

theorem reaches_member {object : Expr} {name : Name} (hconcat : d.concatDot = false)
    (hobject : Reached d strtod style object) : Reached d strtod style (.member object name) := by
  intro m n p q hbefore hm hn hn' hbound
  obtain ⟨r, ho, hr⟩ := @Before.append _ _ (object.lexemes d strtod style 9) [.dot, .ident d style name] hbefore
  have hname := hr.cons.2
  have hlength := ho.length
  have hadvance := hr.length
  have htype : r.current.type = .dot := hr.type
  have hident : r.advance.current.type = .ident := hname.type
  have htext : r.advance.current.text = name.text := hname.text
  have hlast : r.advance.advance = q := hname.last
  rw [List.length_cons, List.length_singleton] at hadvance
  obtain ⟨i, a, hi, hunlined, hparse⟩ := Expr.reaches_wrap hobject (k := 9) (by decide) (by decide) m n p r ho hm hn hn' (by
    rw [htype, binding, hconcat]
    exact Nat.lt_succ_self 9)
  obtain ⟨i, rfl⟩ : ∃ l, i = l + 1 := ⟨i - 1, by omega⟩
  have hspent : (q.spend (object.ast strtod).cost).node = q.spend ((Expr.member object name).ast strtod).cost := by
    rw [Parser.node_eq, Parser.spend_spend, Expr.ast, Ast.cost, Nat.add_comm]
  refine ⟨i, .member a name.text, by omega, by rw [Ast.unlined, hunlined]; rfl, ?_⟩
  show levelParser d m n 9 p = loopParser d m n 9 _ _ _
  rw [hparse, loopParser_nine, loopParser_nine, parsePostfixes, Parser.spend_current, htype]
  dsimp only
  rw [hconcat, if_neg Bool.false_ne_true, Parser.advance_spend,
    if_pos (check_iff (p := r.advance.spend _).mpr hident), Parser.spend_current, htext, Parser.advance_spend, hlast, hspent]

theorem isTarget_ast (e : Expr) : (e.ast strtod).isTarget = e.isTarget := by
  cases e <;> rfl

/-- **An assignment** binds to the right. -/
theorem reaches_assign {target value : Expr} (htarget : target.isTarget = true) (ht : Reached d strtod style target)
    (hv : Reached d strtod style value) : Reached d strtod style (.assign target value) := by
  intro m n p q hbefore hm hn hn' hbound
  have hn' := hn' (show 1 ≤ 8 by decide)
  have hzero : binding d q.current.type = 0 := Nat.lt_one_iff.mp hbound
  obtain ⟨r, hleft, hr⟩ := @Before.append _ _ (target.lexemes d strtod style 2)
    (.assign :: value.lexemes d strtod style 1) hbefore
  have hlength := hleft.length
  have hadvance := hr.length
  have hvalue := hr.cons.2.length
  have htype : r.current.type = .assign := hr.type
  rw [List.length_cons] at hadvance
  have hpositive : 0 < (target.lexemes d strtod style 2).length := by
    obtain ⟨x, ys, hxs, -⟩ := @Expr.opens_wrap style _ 2 _ (by decide) (@Expr.opens_body d strtod style target)
    rw [Expr.lexemes, hxs]
    exact Nat.succ_pos _
  obtain ⟨i, a, hi, hunlined, hparse⟩ := Expr.reaches_wrap ht (k := 2) (by decide) (by decide) m n p r hleft hm hn
    (fun _ => hn') (by rw [htype]; exact (show 1 < 3 by decide))
  rw [loopParser_stops (by rw [Parser.spend_current, htype]; exact (show 1 < 2 by decide)) (by omega)] at hparse
  have hor : parseLogicalOr d (parseExpr d m) (parseStatement d m) n p = .done (a, r.spend (target.ast strtod).cost) :=
    hparse
  obtain ⟨b, hparse', hunlined'⟩ := hv.parseExpr (m := m) (hr.cons.2.spend (target.ast strtod).cost)
    (by rw [Parser.spend_rest]; omega) hzero
  have ha : a.isTarget = true := by rw [← Ast.isTarget_unlined, hunlined, isTarget_ast, htarget]
  have hcheck : (((r.spend (target.ast strtod).cost).check .assign || (r.spend (target.ast strtod).cost).check .arrow) &&
      a.isTarget) = true :=
    Bool.and_eq_true_iff.mpr ⟨Bool.or_eq_true_iff.mpr (Or.inl (check_iff.mpr htype)), ha⟩
  have hspent : ((q.spend (target.ast strtod).cost).spend (value.ast strtod).cost).node =
      q.spend ((Expr.assign target value).ast strtod).cost := by
    rw [Parser.node_eq, Parser.spend_spend, Parser.spend_spend, Expr.ast, Ast.cost]
    congr 1
    omega
  refine ⟨q.rest.length + 1, .assign a b, Nat.lt_succ_self _, by rw [Ast.unlined, hunlined, hunlined']; rfl, ?_⟩
  show parseAssignment d (parseExpr d m) (parseStatement d m) n p = loopParser d m n 1 _ _ _
  rw [loopParser_done (by decide) (by decide), parseAssignment, hor, Run.done_bind]
  dsimp only
  rw [if_pos hcheck, Parser.advance_spend, hparse', Run.done_bind]
  dsimp only
  rw [hspent]

theorem reaches_array {elements : List Expr} (hes : ∀ e ∈ elements, Reached d strtod style e)
    (hcount : elements.length ≤ 256) : Reached d strtod style (.array elements) := by
  intro m n p q hbefore hm hn _ _
  obtain ⟨r, hall, hclose⟩ := @Before.append _ _ _ [Lexeme.rbracket] (Before.cons (x := Lexeme.lbracket) hbefore).2
  have hlength := (Before.cons (x := Lexeme.lbracket) hbefore).2.length
  have hlength' := @Before.length _ _ (.lbracket :: (Expr.bodyAll d strtod style elements ++ [Lexeme.rbracket])) hbefore
  rw [List.length_cons] at hlength'
  obtain ⟨as, hparse, hunlined⟩ := parseBracket_reached (m := m) (n := n) hes hall (by omega) (by omega) hclose.type hcount
  have htype : p.current.type = .lbracket := Before.type (x := Lexeme.lbracket) hbefore
  refine ⟨q.rest.length + 1, .arrayLit as, Nat.lt_succ_self _, by rw [Ast.unlined, hunlined]; rfl, ?_⟩
  show parsePrimary d (parseExpr d m) (parseStatement d m) n p = loopParser d m n 10 _ _ _
  rw [loopParser_done (by decide) (by decide), parsePrimary, htype]
  dsimp only
  rw [hparse, hclose.last, Expr.ast]

theorem reaches_map {entries : List (Key × Expr)} (hes : ∀ x ∈ entries, Reached d strtod style x.2)
    (hcount : entries.length ≤ 64) : Reached d strtod style (.map entries) := by
  intro m n p q hbefore hm hn _ _
  obtain ⟨r, hall, hclose⟩ := @Before.append _ _ _ [Lexeme.rbrace] (Before.cons (x := Lexeme.lbrace) hbefore).2
  have hlength := (Before.cons (x := Lexeme.lbrace) hbefore).2.length
  have hlength' := @Before.length _ _ (.lbrace :: (Expr.bodyEntries d strtod style entries ++ [Lexeme.rbrace])) hbefore
  rw [List.length_cons] at hlength'
  obtain ⟨es, hparse, hunlined⟩ := parseBrace_reached (m := m) (n := n) hes hall (by omega) (by omega) hclose.type hcount
  have htype : p.current.type = .lbrace := Before.type (x := Lexeme.lbrace) hbefore
  refine ⟨q.rest.length + 1, .mapLit es, Nat.lt_succ_self _, by rw [Ast.unlined, hunlined]; rfl, ?_⟩
  show parsePrimary d (parseExpr d m) (parseStatement d m) n p = loopParser d m n 10 _ _ _
  rw [loopParser_done (by decide) (by decide), parsePrimary, htype]
  dsimp only
  rw [hparse, hclose.last, Expr.ast]

theorem length_astAll (es : List Expr) : (Expr.astAll strtod es).length = es.length := by
  induction es with
  | nil => rfl
  | cons e es ih => rw [Expr.astAll, List.length_cons, List.length_cons, ih]

theorem length_astEntries (es : List (Key × Expr)) : (Expr.astEntries strtod es).length = es.length := by
  induction es with
  | nil => rfl
  | cons e es ih => rw [Expr.astEntries, List.length_cons, List.length_cons, ih]

/-- What the induction gives for a tree that fits. -/
def WouldReach (d : Dialect) (strtod : Strtod) (style : Style) (e : Expr) : Prop :=
  e.WellFormed d style → (e.ast strtod).Ordinary → Reached d strtod style e

theorem reached_all : ∀ {es : List Expr}, (∀ e ∈ es, WouldReach d strtod style e) → Expr.WellFormedAll d style es →
    Ast.OrdinaryAll (Expr.astAll strtod es) → ∀ e ∈ es, Reached d strtod style e
  | [], _, _, _ => fun _ h => by cases h
  | e :: es, h, hform, hord =>
    List.forall_mem_cons.mpr ⟨h e List.mem_cons_self hform.1 hord.1,
      reached_all (fun e' he' => h e' (List.mem_cons_of_mem _ he')) hform.2 hord.2⟩

theorem reached_entries : ∀ {es : List (Key × Expr)}, (∀ x ∈ es, WouldReach d strtod style x.2) →
    Expr.WellFormedEntries d style es → Ast.OrdinaryEntries (Expr.astEntries strtod es) →
      ∀ x ∈ es, Reached d strtod style x.2
  | [], _, _, _ => fun _ h => by cases h
  | x :: es, h, hform, hord =>
    List.forall_mem_cons.mpr ⟨h x List.mem_cons_self hform.2.1 hord.2.1,
      reached_entries (fun y hy => h y (List.mem_cons_of_mem _ hy)) hform.2.2 hord.2.2⟩

/-- **Each tree that fits is reached on its level.** -/
theorem reaches_body (e : Expr) : WouldReach d strtod style e := by
  induction e using Expr.induction with
  | number n =>
    intro _ _
    refine reaches_token rfl fun m k p h => ?_
    have htype : p.current.type = .number := type_of_unplaced h
    have hnum : p.current.num = strtod n.text := congrArg Token.num h
    refine ⟨.numberLit p.current.num, by rw [hnum]; rfl, ?_⟩
    rw [parsePrimary, htype]
  | string s =>
    intro _ _
    refine reaches_token rfl fun m k p h => ?_
    have htype : p.current.type = .string := type_of_unplaced h
    have htext : p.current.text = s.text := congrArg Token.text h
    refine ⟨.stringLit p.current.text, by rw [htext]; rfl, ?_⟩
    rw [parsePrimary, htype]
    rfl
  | bool b =>
    intro _ _
    refine reaches_token rfl fun m k p h => ?_
    refine ⟨.boolLit b, rfl, ?_⟩
    cases b with
    | true => rw [parsePrimary, show p.current.type = .true from type_of_unplaced h]
    | false => rw [parsePrimary, show p.current.type = .false from type_of_unplaced h]
  | null =>
    intro _ _
    refine reaches_token rfl fun m k p h => ⟨.nullLit, rfl, ?_⟩
    rw [parsePrimary, show p.current.type = .null from type_of_unplaced h]
  | ident name =>
    intro _ _
    refine reaches_token rfl fun m k p h => ?_
    have htype : p.current.type = .ident := type_of_unplaced h
    have htext : p.current.text = name.text := congrArg Token.text h
    refine ⟨.ident p.current.text p.current.line, by rw [htext]; rfl, ?_⟩
    rw [parsePrimary, htype]
    rfl
  | array elements hes =>
    intro hform hord
    exact reaches_array (reached_all hes hform hord.2) ((@length_astAll strtod elements).symm.trans_le hord.1)
  | map entries hes =>
    intro hform hord
    exact reaches_map (reached_entries hes hform hord.2)
      ((@length_astEntries strtod entries).symm.trans_le hord.1)
  | unary op operand hoperand =>
    intro hform hord
    exact reaches_unary (hoperand hform hord)
  | binary op left right hleft hright =>
    intro hform hord
    exact reaches_binary hform.1 (hleft hform.2.1 hord.2.1) (hright hform.2.2 hord.2.2)
  | call func args hfunc hargs =>
    intro hform hord
    exact reaches_call (hfunc hform.1 hord.2.1) (reached_all hargs hform.2 hord.2.2)
      ((@length_astAll strtod args).symm.trans_le hord.1)
  | index object i hobject hi =>
    intro hform hord
    exact reaches_index (hobject hform.1 hord.1) (hi hform.2 hord.2)
  | member object name hobject =>
    intro hform hord
    exact reaches_member hform.1 (hobject hform.2.2 hord)
  | assign target value htarget hvalue =>
    intro hform hord
    exact reaches_assign hform.1 (htarget hform.2.1 hord.1) (hvalue hform.2.2 hord.2)

end Reached

/-! ## Source texts -/

/-- `parse_expr` at the start of a source. -/
def parseExpression (d : Dialect) (strtod : Strtod) (source : Bytes) : Parsed := do
  let lexemes := (lexemesOf d strtod source).1
  let p ← parserInit lexemes
  parseExpr d (parseFuel lexemes) p

/-- **The text of a tree is parsed**: up to its end, without an error, with its nodes in the arena; and it gives the
tree back. -/
def ParsesBack (d : Dialect) (strtod : Strtod) (style : Style) (e : Expr) : Prop :=
  ∃ a q, parseExpression d strtod (e.source d strtod style) = .done (a, q) ∧ q.error = none ∧ q.current.type = .eof ∧
    q.used ≤ arenaSize ∧ a.unlined = e.ast strtod

/-- The tree has no `!=`, no more elements, entries and arguments than an array of the parser has room for, and its nodes
fit into the arena. -/
structure Expr.Fits (strtod : Strtod) (e : Expr) : Prop where
  ordinary : (e.ast strtod).Ordinary
  room : (e.ast strtod).cost ≤ arenaSize

section Sources

variable {d : Dialect} {strtod : Strtod} {style : Style} {e : Expr}

theorem parsesBack_of_fits (hd : d.Regular) (hstrtod : ReadsNumerals strtod) (hform : e.WellFormed d style)
    (hfits : e.Fits strtod) : ParsesBack d strtod style e := by
  have hgood := @good_wrap _ _ style hd e.level 1 _ (Expr.good_body hd hstrtod e hform hfits.ordinary)
  obtain ⟨ts, eof, hlexemes, hts, heof⟩ := lexemesOf_sourceText hd hgood
  obtain ⟨x, xs, hxs, -⟩ := @opens_lexemes d strtod style e
  have hxs : Expr.wrap style e.level 1 (e.body d strtod style) = x :: xs := hxs
  -- the state at the end of the source, and the one before its tokens
  let q : Parser := ⟨eof, [], none, 0, 0⟩
  have hbefore : Before (e.lexemes d strtod style 1) (Parser.ahead ts q) q := ⟨ts, hts, rfl⟩
  obtain ⟨t, us, rfl⟩ : ∃ t us, ts = t :: us := by
    cases ts with
    | nil =>
      rw [hxs] at hts
      cases hts
    | cons t us => exact ⟨t, us, rfl⟩
  have hinit : parserInit (lexemesOf d strtod (e.source d strtod style)).1 = .done (Parser.ahead (t :: us) q) := by
    rw [show (lexemesOf d strtod (e.source d strtod style)).1 = (t :: us).map some ++ [some eof] from hlexemes]
    rfl
  have hfuel : (Parser.ahead (t :: us) q).rest.length + 1 <
      parseFuel (lexemesOf d strtod (e.source d strtod style)).1 := by
    rw [show (lexemesOf d strtod (e.source d strtod style)).1 = (t :: us).map some ++ [some eof] from hlexemes]
    show (us.map some ++ [some eof]).length + 1 < _
    simp only [parseFuel, List.length_append, List.length_map, List.length_cons]
    omega
  obtain ⟨a, hparse, hunlined⟩ := (reaches_body e hform hfits.ordinary).parseExpr hbefore hfuel (by
    show binding d eof.type = 0
    rw [heof]
    rfl)
  refine ⟨a, q.spend (e.ast strtod).cost, ?_, rfl, heof, ?_, hunlined⟩
  · unfold parseExpression
    dsimp only
    rw [hinit, Run.done_bind, hparse]
  · show 0 + (e.ast strtod).cost ≤ arenaSize
    rw [Nat.zero_add]
    exact hfits.room

theorem fits_of_parsesBack (h : ParsesBack d strtod style e) : e.Fits strtod := by
  obtain ⟨a, q, hparse, -, -, hused, hunlined⟩ := h
  unfold parseExpression at hparse
  obtain ⟨xs, eof, hxs, heof, hall⟩ := @lexemesOf_shape d strtod (e.source d strtod style)
  obtain ⟨p, hinit, hparse⟩ := Run.bind_eq_done.mp hparse
  have hlist : (lexemesOf d strtod (e.source d strtod style)).1 = some p.current :: p.rest ∧ p.used = 0 := by
    unfold parserInit at hinit
    split at hinit
    · rename_i t rest heq
      obtain rfl := Run.done.inj hinit
      exact ⟨heq, rfl⟩
    · cases hinit
  have hends : p.Ends := ⟨eof, heof, by rw [← hlist.1, hxs, List.getLast?_concat]⟩
  have hnoneq : p.NoNeq := by
    have htokens : p.tokens = (xs ++ [some eof]).filterMap id := by
      rw [← hxs, hlist.1]
      rfl
    intro t ht
    rw [htokens, List.filterMap_append] at ht
    rcases List.mem_append.mp ht with ht | ht
    · obtain ⟨y, hy, hsame⟩ := List.mem_filterMap.mp ht
      rw [id] at hsame
      exact (hall t (hsame ▸ hy)).2
    · obtain rfl : t = eof := by simpa using ht
      rw [heof]
      decide
  obtain ⟨a', q', hparse', hmakes⟩ := (meets_parse d (parseFuel (lexemesOf d strtod (e.source d strtod style)).1)).1
    (p.rest.length + 1) (by rw [hlist.1, parseFuel, List.length_cons]; omega) p hends (Nat.lt_succ_self _)
  obtain ⟨rfl, rfl⟩ := Prod.mk.inj (Run.done.inj (hparse.symm.trans hparse'))
  have hcost := hmakes.builds.reads.used
  refine ⟨?_, ?_⟩
  · rw [← hunlined]
    exact (Ast.ordinary_unlined a).mpr (hmakes.builds.ok hnoneq)
  · rw [← hunlined, Ast.cost_unlined]
    omega

end Sources

/-- **Which trees the parser makes of their texts**: in every language, with few or with all parentheses, those that
fit. -/
theorem parsesBack_iff (l : Language) {strtod : Strtod} (hstrtod : ReadsNumerals strtod) (style : Style) {e : Expr}
    (h : e.WellFormed l.dialect style) : ParsesBack l.dialect strtod style e ↔ e.Fits strtod :=
  ⟨fits_of_parsesBack, parsesBack_of_fits l.regular hstrtod h⟩

theorem readsNumerals_readDigits : ReadsNumerals readDigits := fun n rest => by
  rw [readDigits, readDigits, takeWhile_blank (by decide)]

/-- The variable `x`. -/
def variableX : Expr := .ident ⟨[0x78], by decide⟩

/-- `(x or 12) - 3`. -/
def mixedTree : Expr :=
  .binary .minus (.binary .or variableX (.number ⟨[0x31, 0x32], by decide, by decide⟩))
    (.number ⟨[0x33], by decide, by decide⟩)

theorem legible_variableX (l : Language) (style : Style) : variableX.WellFormed l.dialect style := fun _ => by
  cases l <;> exact ⟨by decide, by decide⟩

/-- Operators and parentheses. -/
theorem parsesBack_mixedTree : ParsesBack rDialect readDigits ⟨false, fun _ => true⟩ mixedTree :=
  (parsesBack_iff .r readsNumerals_readDigits ⟨false, fun _ => true⟩ (e := mixedTree)
    ⟨by simp, ⟨by simp, legible_variableX .r _, trivial⟩, trivial⟩).mpr
    ⟨⟨by decide, ⟨by decide, trivial, trivial⟩, trivial⟩, by decide⟩

/-- `x != x`. -/
def unequalTree : Expr := .binary .neq variableX variableX

/-- `!=` is read as `!`, where the tree ends. -/
theorem unequalTree_lost : ¬ ∀ (l : Language) (strtod : Strtod), ReadsNumerals strtod → ∀ (style : Style) (e : Expr),
    e.WellFormed l.dialect style → ParsesBack l.dialect strtod style e := by
  intro h
  obtain ⟨a, q, hparse, -, heof, -⟩ := h .csharp readDigits readsNumerals_readDigits ⟨false, fun _ => true⟩ unequalTree
    ⟨by simp, legible_variableX .csharp _, legible_variableX .csharp _⟩
  have hend : (parseExpression csharpDialect readDigits
      (unequalTree.source csharpDialect readDigits ⟨false, fun _ => true⟩)).map (fun r => r.2.current.type) = .done .not := by
    decide +kernel
  have hparse : parseExpression csharpDialect readDigits
      (unequalTree.source csharpDialect readDigits ⟨false, fun _ => true⟩) = .done (a, q) := hparse
  rw [hparse] at hend
  have hnot : q.current.type = .not := Run.done.inj hend
  rw [heof] at hnot
  cases hnot

end VelocityMcp.Interp
