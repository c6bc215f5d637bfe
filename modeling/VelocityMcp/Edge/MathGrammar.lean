import VelocityMcp.Edge.MathEval

/-!
# Edge.MathGrammar — what the calculator accepts, and what it computes

`math_eval_grammar`: the calculator accepts what has a derivation with a value, and computes that value.
-/

namespace VelocityMcp.Edge

open Lib

variable {F : Type} (ops : Floats F)

/-! ## The functions -/

def onDomain (inside : F → Bool) (f : F → F) : List F → Option F
  | [v] => if inside v then some (f v) else none
  | _ => none

def onSome (f : List F → F) : List F → Option F
  | [] => none
  | args => some (f args)

def onNone (v : F) : List F → Option F
  | [] => some v
  | _ => none

/-- The functions that a call may name, on the arguments that they have a value for. -/
def builtin (name : String) : List F → Option F :=
  match name with
  | "sqrt" => onDomain (fun v => !ops.ltZero v) ops.sqrt
  | "abs" => onDomain (fun _ => true) ops.abs
  | "floor" => onDomain (fun _ => true) ops.floor
  | "ceil" => onDomain (fun _ => true) ops.ceil
  | "round" => onDomain (fun _ => true) ops.round
  | "sin" => onDomain (fun _ => true) ops.sin
  | "cos" => onDomain (fun _ => true) ops.cos
  | "tan" => onDomain (fun _ => true) ops.tan
  | "log" => onDomain (fun v => !ops.leZero v) ops.ln
  | "log10" => onDomain (fun v => !ops.leZero v) ops.log10
  | "log2" => onDomain (fun v => !ops.leZero v) ops.log2
  | "exp" => onDomain (fun _ => true) ops.exp
  | "min" => onSome fun args => args.foldl ops.min ops.infinity
  | "max" => onSome fun args => args.foldl ops.max ops.negInfinity
  | "pow" => fun
    | [base, exponent] => some (ops.powf base exponent)
    | _ => none
  | "pi" => onNone ops.pi
  | "e" => onNone ops.e
  | _ => fun _ => none

/-- A computation that comes to a value exactly where there is one. -/
def Agrees (x : Outcome String F) (y : Option F) : Prop := x ≠ .panic ∧ ∀ v, x = .ok v ↔ y = some v

theorem agrees_ok (v : F) : Agrees (.ok v) (some v) := by
  refine ⟨(fun h => nomatch h), fun w => ?_⟩
  rw [Outcome.ok.injEq, Option.some.injEq]

theorem agrees_err (e : String) : Agrees (.err e : Outcome String F) none :=
  ⟨(fun h => nomatch h), fun _ => ⟨(fun h => nomatch h), fun h => nomatch h⟩⟩

/-- A function of one argument refuses those outside of its domain, and other numbers of arguments. -/
theorem callUnary_agrees (name : String) (args : List F) {refusal : F → Option String} {inside : F → Bool} (f : F → F)
    (h : ∀ v, refusal v = none ↔ inside v = true) :
    Agrees (callUnary name args refusal f) (onDomain inside f args) := by
  rcases args with _ | ⟨v, _ | ⟨w, rest⟩⟩
  · exact agrees_err _
  · rw [onDomain]
    cases hr : refusal v with
    | none =>
      have hone : callUnary name [v] refusal f = .ok (f v) := by simp [callUnary, requireArgs, itemAt, hr]
      rw [hone, if_pos ((h v).mp hr)]
      exact agrees_ok _
    | some text =>
      have hone : callUnary name [v] refusal f = .err text := by simp [callUnary, requireArgs, itemAt, hr]
      have hout : ¬inside v = true := fun hin => by
        rw [(h v).mpr hin] at hr
        cases hr
      rw [hone, if_neg hout]
      exact agrees_err _
  · exact agrees_err _

theorem callTotal_agrees (name : String) (args : List F) (f : F → F) :
    Agrees (callTotal name args f) (onDomain (fun _ => true) f args) :=
  callUnary_agrees name args f fun _ => ⟨fun _ => rfl, fun _ => rfl⟩

theorem callRefusing_agrees (name : String) (args : List F) (refused : F → Bool) (text : String) (f : F → F) :
    Agrees (callUnary name args (fun v => if refused v then some text else none) f)
      (onDomain (fun v => !refused v) f args) := by
  refine callUnary_agrees name args f fun v => ?_
  cases refused v <;> simp

theorem callSome_agrees (args : List F) (text : String) (f : List F → F) :
    Agrees (if args.isEmpty then .err text else .ok (f args)) (onSome f args) := by
  cases args with
  | nil => exact agrees_err _
  | cons a args => exact agrees_ok _

theorem callNone_agrees (args : List F) (text : String) (v : F) :
    Agrees (if args.isEmpty then .ok v else .err text) (onNone v args) := by
  cases args with
  | nil => exact agrees_ok _
  | cons a args => exact agrees_err _

/-- **The functions** of the source. -/
theorem evalMathFunc_agrees (name : String) (args : List F) :
    Agrees (evalMathFunc ops name args) (builtin ops name args) := by
  unfold evalMathFunc
  split
  · exact callRefusing_agrees _ args ops.ltZero _ ops.sqrt
  · exact callTotal_agrees _ args ops.abs
  · exact callTotal_agrees _ args ops.floor
  · exact callTotal_agrees _ args ops.ceil
  · exact callTotal_agrees _ args ops.round
  · exact callTotal_agrees _ args ops.sin
  · exact callTotal_agrees _ args ops.cos
  · exact callTotal_agrees _ args ops.tan
  · exact callRefusing_agrees _ args ops.leZero _ ops.ln
  · exact callRefusing_agrees _ args ops.leZero _ ops.log10
  · exact callRefusing_agrees _ args ops.leZero _ ops.log2
  · exact callTotal_agrees _ args ops.exp
  · exact callSome_agrees args _ _
  · exact callSome_agrees args _ _
  · match args with
    | [] => exact agrees_err _
    | [a] => exact agrees_err _
    | [a, b] => exact agrees_ok _
    | a :: b :: c :: rest => exact agrees_err _
  · exact callNone_agrees args _ _
  · exact callNone_agrees args _ _
  · -- no other name is a function here either
    have hunknown : builtin ops name = fun _ => none := by
      unfold builtin
      split <;> first | rfl | contradiction
    rw [hunknown]
    exact agrees_err _

/-! ## Derivations -/

/-- What a derivation may be of; the arguments of a call are none, or a list. -/
inductive Category where
  | sym (s : Symbol)
  | args
  | argList

abbrev Category.Value (F : Type) : Category → Type
  | .sym _ => F
  | .args => List F
  | .argList => List F

/-- The derivations. -/
inductive Tree (F : Type) : Category → Type
  | ofTerm (t : Tree F (.sym .term)) : Tree F (.sym .expr)
  | add (e : Tree F (.sym .expr)) (t : Tree F (.sym .term)) : Tree F (.sym .expr)
  | sub (e : Tree F (.sym .expr)) (t : Tree F (.sym .term)) : Tree F (.sym .expr)
  | ofPower (p : Tree F (.sym .power)) : Tree F (.sym .term)
  | mul (t : Tree F (.sym .term)) (p : Tree F (.sym .power)) : Tree F (.sym .term)
  | div (t : Tree F (.sym .term)) (p : Tree F (.sym .power)) : Tree F (.sym .term)
  | rem (t : Tree F (.sym .term)) (p : Tree F (.sym .power)) : Tree F (.sym .term)
  | ofUnary (u : Tree F (.sym .unary)) : Tree F (.sym .power)
  | pow (u : Tree F (.sym .unary)) (p : Tree F (.sym .power)) : Tree F (.sym .power)
  | ofPrimary (p : Tree F (.sym .primary)) : Tree F (.sym .unary)
  | neg (u : Tree F (.sym .unary)) : Tree F (.sym .unary)
  | pos (u : Tree F (.sym .unary)) : Tree F (.sym .unary)
  | number (n : F) : Tree F (.sym .primary)
  | call (name : String) (args : Tree F .args) : Tree F (.sym .primary)
  | paren (e : Tree F (.sym .expr)) : Tree F (.sym .primary)
  | noArgs : Tree F .args
  | someArgs (args : Tree F .argList) : Tree F .args
  | oneArg (e : Tree F (.sym .expr)) : Tree F .argList
  | moreArgs (args : Tree F .argList) (e : Tree F (.sym .expr)) : Tree F .argList

namespace Tree

/-- What is derived. -/
@[grind =] def tokens : {c : Category} → Tree F c → List (MathToken F)
  | _, ofTerm t => t.tokens
  | _, add e t => e.tokens ++ .plus :: t.tokens
  | _, sub e t => e.tokens ++ .minus :: t.tokens
  | _, ofPower p => p.tokens
  | _, mul t p => t.tokens ++ .star :: p.tokens
  | _, div t p => t.tokens ++ .slash :: p.tokens
  | _, rem t p => t.tokens ++ .percent :: p.tokens
  | _, ofUnary u => u.tokens
  | _, pow u p => u.tokens ++ .caret :: p.tokens
  | _, ofPrimary p => p.tokens
  | _, neg u => .minus :: u.tokens
  | _, pos u => .plus :: u.tokens
  | _, number n => [.number n]
  | _, call name args => .ident name :: .lParen :: (args.tokens ++ [.rParen])
  | _, paren e => .lParen :: (e.tokens ++ [.rParen])
  | _, noArgs => []
  | _, someArgs args => args.tokens
  | _, oneArg e => e.tokens
  | _, moreArgs args e => args.tokens ++ .comma :: e.tokens

/-- How many symbols are nested in each other; the operands of a chain are next to each other. -/
def depth : {c : Category} → Tree F c → ℕ
  | _, ofTerm t => t.depth + 1
  | _, add e t => max e.depth (t.depth + 1)
  | _, sub e t => max e.depth (t.depth + 1)
  | _, ofPower p => p.depth + 1
  | _, mul t p => max t.depth (p.depth + 1)
  | _, div t p => max t.depth (p.depth + 1)
  | _, rem t p => max t.depth (p.depth + 1)
  | _, ofUnary u => u.depth + 1
  | _, pow u p => max (u.depth + 1) (p.depth + 1)
  | _, ofPrimary p => p.depth + 1
  | _, neg u => u.depth + 1
  | _, pos u => u.depth + 1
  | _, number _ => 0
  | _, call _ args => args.depth
  | _, paren e => e.depth + 1
  | _, noArgs => 0
  | _, someArgs args => args.depth
  | _, oneArg e => e.depth + 1
  | _, moreArgs args e => max args.depth (e.depth + 1)

/-- The value from left to right, unless something is divided by zero, or a function is called with the wrong number of
arguments or outside of its domain. -/
@[grind =] def eval : {c : Category} → Tree F c → Option (c.Value F)
  | _, ofTerm t => t.eval
  | _, add e t => do
    let a ← e.eval
    let b ← t.eval
    some (ops.add a b)
  | _, sub e t => do
    let a ← e.eval
    let b ← t.eval
    some (ops.sub a b)
  | _, ofPower p => p.eval
  | _, mul t p => do
    let a ← t.eval
    let b ← p.eval
    some (ops.mul a b)
  | _, div t p => do
    let a ← t.eval
    let b ← p.eval
    if ops.isZero b then none else some (ops.div a b)
  | _, rem t p => do
    let a ← t.eval
    let b ← p.eval
    if ops.isZero b then none else some (ops.rem a b)
  | _, ofUnary u => u.eval
  | _, pow u p => do
    let a ← u.eval
    let b ← p.eval
    some (ops.powf a b)
  | _, ofPrimary p => p.eval
  | _, neg u => do
    let a ← u.eval
    some (ops.neg a)
  | _, pos u => u.eval
  | _, number n => some n
  | _, call name args => do
    let vs ← args.eval
    builtin ops name vs
  | _, paren e => e.eval
  | _, noArgs => some []
  | _, someArgs args => args.eval
  | _, oneArg e => do
    let a ← e.eval
    some [a]
  | _, moreArgs args e => do
    let vs ← args.eval
    let a ← e.eval
    some (vs ++ [a])

end Tree

/-! ## What the descent reads -/

theorem itemAt_of_lt {α : Type} {xs : List α} {i : ℕ} (h : i < xs.length) :
    ∃ x, itemAt xs i = .ok x ∧ xs.drop i = x :: xs.drop (i + 1) := by
  refine ⟨xs.get ⟨i, h⟩, ?_, List.drop_eq_getElem_cons h⟩
  rw [itemAt, List.getElem?_eq_getElem h]
  rfl

theorem itemAt_of_drop {α : Type} {xs ys : List α} {x : α} {i : ℕ} (h : xs.drop i = x :: ys) :
    i < xs.length ∧ itemAt xs i = .ok x ∧ xs.drop (i + 1) = ys := by
  have hlt : i < xs.length := by
    refine Nat.lt_of_not_le fun hle => ?_
    rw [List.drop_eq_nil_of_le hle] at h
    cases h
  obtain ⟨y, hy, hdrop⟩ := itemAt_of_lt hlt
  rw [hdrop, List.cons.injEq] at h
  rw [hy, h.1]
  exact ⟨hlt, rfl, h.2⟩

section Sound

variable (tokens : List (MathToken F))

/-- From a position to that behind it, a derivation of the tokens in between, with its value. -/
def Reads (n : ℕ) (c : Category) (pos : ℕ) (r : c.Value F × ℕ) : Prop :=
  pos ≤ r.2 ∧ r.2 ≤ tokens.length ∧
    ∃ t : Tree F c, t.depth < n ∧ t.eval ops = some r.1 ∧ tokens.drop pos = t.tokens ++ tokens.drop r.2

variable {ops tokens} {i j k pos p q : ℕ} {c d e : Category}

theorem Reads.of {a : c.Value F} {v : e.Value F} (h : Reads ops tokens i c pos (a, q)) (node : Tree F c → Tree F e)
    (htokens : ∀ t, (node t).tokens = t.tokens) (hdepth : ∀ t, t.depth < i → (node t).depth < k)
    (heval : ∀ t, t.eval ops = some a → (node t).eval ops = some v) : Reads ops tokens k e pos (v, q) := by
  obtain ⟨hle, hlen, t, htd, hte, htt⟩ := h
  exact ⟨hle, hlen, node t, hdepth t htd, heval t hte, by rw [htokens, htt]⟩

theorem Reads.behind {op : MathToken F} (node : Tree F c → Tree F e) {a : c.Value F} {v : e.Value F}
    (hop : tokens.drop pos = op :: tokens.drop (pos + 1)) (h : Reads ops tokens i c (pos + 1) (a, q))
    (htokens : ∀ t, (node t).tokens = op :: t.tokens) (hdepth : ∀ t, t.depth < i → (node t).depth < k)
    (heval : ∀ t, t.eval ops = some a → (node t).eval ops = some v) : Reads ops tokens k e pos (v, q) := by
  obtain ⟨hle, hlen, t, htd, hte, htt⟩ := h
  refine ⟨Nat.le_of_succ_le hle, hlen, node t, hdepth t htd, heval t hte, ?_⟩
  rw [htokens, hop, htt, List.cons_append]

theorem Reads.chain {op : MathToken F} (node : Tree F c → Tree F d → Tree F e) {a : c.Value F} {b : d.Value F}
    {v : e.Value F} (hs : Reads ops tokens i c pos (a, p)) (hop : tokens.drop p = op :: tokens.drop (p + 1))
    (ht : Reads ops tokens j d (p + 1) (b, q)) (htokens : ∀ s t, (node s t).tokens = s.tokens ++ op :: t.tokens)
    (hdepth : ∀ s t, s.depth < i → t.depth < j → (node s t).depth < k)
    (heval : ∀ s t, s.eval ops = some a → t.eval ops = some b → (node s t).eval ops = some v) :
    Reads ops tokens k e pos (v, q) := by
  obtain ⟨hle, -, s, hsd, hse, hst⟩ := hs
  obtain ⟨hle', hlen, t, htd, hte, htt⟩ := ht
  refine ⟨?_, hlen, node s t, hdepth s t hsd htd, heval s t hse hte, ?_⟩
  · exact Nat.le_trans hle (Nat.le_of_succ_le hle')
  · dsimp only at hst htt ⊢
    rw [htokens, hst, hop, htt, List.append_assoc, List.cons_append]

/-- What the functions that are called in the descent do. -/
def Descends (ops : Floats F) (tokens : List (MathToken F)) (n : ℕ) (s : Symbol) (f : Descent F) : Prop :=
  ∀ pos ≤ tokens.length, (f pos).Ensures (Reads ops tokens n (.sym s) pos)

theorem chain_depth {s t n : ℕ} (hs : s < n + 1) (ht : t < n) : max s (t + 1) < n + 1 := by omega

theorem exprLoop_ensures {term : Descent F} {n start : ℕ} (hterm : Descends ops tokens n .term term) {fuel : ℕ}
    {result : F} (h : Reads ops tokens (n + 1) (.sym .expr) start (result, pos)) (hfuel : tokens.length < fuel + pos) :
    (exprLoop ops tokens term fuel result pos).Ensures (Reads ops tokens (n + 1) (.sym .expr) start) := by
  induction fuel generalizing result pos with
  | zero =>
    have hle : pos ≤ tokens.length := h.2.1
    omega
  | succ fuel ih =>
    rw [exprLoop]
    split_ifs with hlt
    · obtain ⟨token, htoken, hdrop⟩ := itemAt_of_lt hlt
      rw [htoken, Outcome.ok_bind]
      cases token with
      | plus =>
        refine (hterm (pos + 1) hlt).bind fun r hr => ih ?_ ?_
        · refine h.chain .add hdrop hr (fun _ _ => rfl) (fun _ _ => chain_depth) fun s t hs ht => ?_
          rw [Tree.eval, hs, ht]
          rfl
        · have := hr.1
          omega
      | minus =>
        refine (hterm (pos + 1) hlt).bind fun r hr => ih ?_ ?_
        · refine h.chain .sub hdrop hr (fun _ _ => rfl) (fun _ _ => chain_depth) fun s t hs ht => ?_
          rw [Tree.eval, hs, ht]
          rfl
        · have := hr.1
          omega
      | _ => exact Outcome.ensures_ok h
    · exact Outcome.ensures_ok h

theorem termLoop_ensures {power : Descent F} {n start : ℕ} (hpower : Descends ops tokens n .power power) {fuel : ℕ}
    {result : F} (h : Reads ops tokens (n + 1) (.sym .term) start (result, pos)) (hfuel : tokens.length < fuel + pos) :
    (termLoop ops tokens power fuel result pos).Ensures (Reads ops tokens (n + 1) (.sym .term) start) := by
  induction fuel generalizing result pos with
  | zero =>
    have hle : pos ≤ tokens.length := h.2.1
    omega
  | succ fuel ih =>
    rw [termLoop]
    split_ifs with hlt
    · obtain ⟨token, htoken, hdrop⟩ := itemAt_of_lt hlt
      rw [htoken, Outcome.ok_bind]
      cases token with
      | star =>
        refine (hpower (pos + 1) hlt).bind fun r hr => ih ?_ ?_
        · refine h.chain .mul hdrop hr (fun _ _ => rfl) (fun _ _ => chain_depth) fun s t hs ht => ?_
          rw [Tree.eval, hs, ht]
          rfl
        · have := hr.1
          omega
      | slash =>
        refine (hpower (pos + 1) hlt).bind fun r hr => ?_
        dsimp only
        split_ifs with hzero
        · exact Outcome.ensures_err _
        · refine ih ?_ ?_
          · refine h.chain .div hdrop hr (fun _ _ => rfl) (fun _ _ => chain_depth) fun s t hs ht => ?_
            rw [Tree.eval, hs, ht]
            exact if_neg hzero
          · have := hr.1
            omega
      | percent =>
        refine (hpower (pos + 1) hlt).bind fun r hr => ?_
        dsimp only
        split_ifs with hzero
        · exact Outcome.ensures_err _
        · refine ih ?_ ?_
          · refine h.chain .rem hdrop hr (fun _ _ => rfl) (fun _ _ => chain_depth) fun s t hs ht => ?_
            rw [Tree.eval, hs, ht]
            exact if_neg hzero
          · have := hr.1
            omega
      | _ => exact Outcome.ensures_ok h
    · exact Outcome.ensures_ok h

theorem parseExpr_descends {term : Descent F} {n : ℕ} (hterm : Descends ops tokens n .term term) :
    Descends ops tokens (n + 1) .expr (parseExpr ops tokens term) := by
  intro pos hpos
  refine (hterm pos hpos).bind fun r hr => exprLoop_ensures hterm ?_ (by omega)
  exact hr.of .ofTerm (fun _ => rfl) (fun _ => Nat.succ_lt_succ) fun t ht => ht

theorem parseTerm_descends {power : Descent F} {n : ℕ} (hpower : Descends ops tokens n .power power) :
    Descends ops tokens (n + 1) .term (parseTerm ops tokens power) := by
  intro pos hpos
  refine (hpower pos hpos).bind fun r hr => termLoop_ensures hpower ?_ (by omega)
  exact hr.of .ofPower (fun _ => rfl) (fun _ => Nat.succ_lt_succ) fun t ht => ht

theorem parsePower_descends {unary power : Descent F} {n : ℕ} (hunary : Descends ops tokens n .unary unary)
    (hpower : Descends ops tokens n .power power) :
    Descends ops tokens (n + 1) .power (parsePower ops tokens unary power) := by
  intro pos hpos
  refine (hunary pos hpos).bind fun r hr => ?_
  have hbase : Reads ops tokens (n + 1) (.sym .power) pos (r.1, r.2) :=
    hr.of .ofUnary (fun _ => rfl) (fun _ => Nat.succ_lt_succ) fun t ht => ht
  dsimp only
  split_ifs with hlt
  · obtain ⟨token, htoken, hdrop⟩ := itemAt_of_lt hlt
    rw [htoken, Outcome.ok_bind]
    cases token with
    | caret =>
      refine (hpower (r.2 + 1) hlt).bind fun x hx => Outcome.ensures_ok ?_
      refine hr.chain .pow hdrop hx (fun _ _ => rfl) (fun s t hs ht => ?_) fun s t hs ht => ?_
      · rw [Tree.depth]
        omega
      · rw [Tree.eval, hs, ht]
        rfl
    | _ => exact Outcome.ensures_ok hbase
  · exact Outcome.ensures_ok hbase

theorem parseUnary_descends {unary primary : Descent F} {n : ℕ} (hunary : Descends ops tokens n .unary unary)
    (hprimary : Descends ops tokens n .primary primary) :
    Descends ops tokens (n + 1) .unary (parseUnary ops tokens unary primary) := by
  intro pos hpos
  have hplain : (primary pos).Ensures (Reads ops tokens (n + 1) (.sym .unary) pos) :=
    (hprimary pos hpos).mono fun r hr =>
      hr.of .ofPrimary (fun _ => rfl) (fun _ => Nat.succ_lt_succ) fun t ht => ht
  rw [parseUnary]
  split_ifs with hlt
  · obtain ⟨token, htoken, hdrop⟩ := itemAt_of_lt hlt
    rw [htoken, Outcome.ok_bind]
    cases token with
    | minus =>
      refine (hunary (pos + 1) hlt).bind fun r hr => Outcome.ensures_ok ?_
      refine Reads.behind .neg hdrop hr (fun _ => rfl) (fun _ => Nat.succ_lt_succ) fun t ht => ?_
      rw [Tree.eval, ht]
      rfl
    | plus =>
      refine (hunary (pos + 1) hlt).mono fun r hr => ?_
      exact Reads.behind .pos hdrop hr (fun _ => rfl) (fun _ => Nat.succ_lt_succ) fun t ht => ht
    | _ => exact hplain
  · exact hplain

theorem argsLoop_ensures {expr : Descent F} {n start : ℕ} (hexpr : Descends ops tokens n .expr expr) {fuel : ℕ}
    {args : List F} (h : Reads ops tokens (n + 1) .argList start (args, pos)) (hfuel : tokens.length < fuel + pos) :
    (argsLoop tokens expr fuel args pos).Ensures (Reads ops tokens (n + 1) .argList start) := by
  induction fuel generalizing args pos with
  | zero =>
    have hle : pos ≤ tokens.length := h.2.1
    omega
  | succ fuel ih =>
    rw [argsLoop]
    split_ifs with hlt
    · obtain ⟨token, htoken, hdrop⟩ := itemAt_of_lt hlt
      rw [htoken, Outcome.ok_bind]
      cases token with
      | comma =>
        refine (hexpr (pos + 1) hlt).bind fun r hr => ih ?_ ?_
        · refine h.chain .moreArgs hdrop hr (fun _ _ => rfl) (fun _ _ => chain_depth) fun s t hs ht => ?_
          rw [Tree.eval, hs, ht]
          rfl
        · have := hr.1
          omega
      | _ => exact Outcome.ensures_ok h
    · exact Outcome.ensures_ok h

theorem parseArgs_ensures {expr : Descent F} {n : ℕ} (hexpr : Descends ops tokens n .expr expr)
    (hpos : pos ≤ tokens.length) :
    (parseArgs tokens expr pos).Ensures (Reads ops tokens (n + 1) .args pos) := by
  have hnone : Reads ops tokens (n + 1) .args pos ([], pos) :=
    ⟨Nat.le_refl pos, hpos, .noArgs, Nat.succ_pos n, rfl, rfl⟩
  have hsome : (expr pos >>= fun r => argsLoop tokens expr (tokens.length + 1) [r.1] r.2).Ensures
      (Reads ops tokens (n + 1) .args pos) := by
    refine (hexpr pos hpos).bind fun r hr => ?_
    have hone : Reads ops tokens (n + 1) .argList pos ([r.1], r.2) := by
      refine hr.of .oneArg (fun _ => rfl) (fun _ => Nat.succ_lt_succ) fun t ht => ?_
      rw [Tree.eval, ht]
      rfl
    refine (argsLoop_ensures hexpr hone (by omega)).mono fun x hx => ?_
    exact hx.of .someArgs (fun _ => rfl) (fun _ h => h) fun t ht => ht
  rw [parseArgs]
  split_ifs with hlt
  · obtain ⟨token, htoken, -⟩ := itemAt_of_lt hlt
    rw [htoken, Outcome.ok_bind]
    cases token with
    | rParen => exact Outcome.ensures_ok hnone
    | _ => exact hsome
  · exact Outcome.ensures_ok hnone

theorem expectRParen_ensures (text : String) (pos : ℕ) :
    (expectRParen tokens text pos).Ensures fun q => q = pos + 1 ∧ pos < tokens.length ∧
      tokens.drop pos = .rParen :: tokens.drop (pos + 1) := by
  rw [expectRParen]
  split_ifs with hge
  · exact Outcome.ensures_err _
  · obtain ⟨token, htoken, hdrop⟩ := itemAt_of_lt (Nat.lt_of_not_le hge)
    rw [htoken, Outcome.ok_bind]
    cases token with
    | rParen => exact Outcome.ensures_ok ⟨rfl, Nat.lt_of_not_le hge, hdrop⟩
    | _ => exact Outcome.ensures_err _

theorem parsePrimary_descends {expr : Descent F} {n : ℕ} (hexpr : Descends ops tokens n .expr expr) :
    Descends ops tokens (n + 1) .primary (parsePrimary ops tokens expr) := by
  intro pos hpos
  rw [parsePrimary]
  by_cases hge : pos ≥ tokens.length
  · rw [if_pos hge]
    exact Outcome.ensures_err _
  rw [if_neg hge]
  have hlt : pos < tokens.length := Nat.lt_of_not_le hge
  obtain ⟨token, htoken, hdrop⟩ := itemAt_of_lt hlt
  rw [htoken, Outcome.ok_bind]
  cases token with
  | number v => exact Outcome.ensures_ok ⟨Nat.le_succ pos, hlt, .number v, Nat.succ_pos n, rfl, hdrop⟩
  | ident name =>
    dsimp only
    split_ifs with hend
    · exact Outcome.ensures_err _
    have hlt' : pos + 1 < tokens.length := Nat.lt_of_not_le hend
    obtain ⟨token', htoken', hdrop'⟩ := itemAt_of_lt hlt'
    rw [htoken', Outcome.ok_bind]
    cases token' with
    | lParen =>
      refine (parseArgs_ensures hexpr hlt').bind fun r hr => ?_
      refine (expectRParen_ensures _ r.2).bind fun q hq => ?_
      obtain ⟨rfl, hclose, hdropr⟩ := hq
      have hvalue : (evalMathFunc ops name r.1).Ensures fun v => builtin ops name r.1 = some v :=
        ⟨(evalMathFunc_agrees ops name r.1).1, fun v hv => ((evalMathFunc_agrees ops name r.1).2 v).mp hv⟩
      refine hvalue.bind fun v hv => Outcome.ensures_ok ?_
      obtain ⟨hle, -, t, htd, hte, htt⟩ := hr
      refine ⟨by dsimp only; omega, hclose, .call name t, htd, ?_, ?_⟩
      · rw [Tree.eval, hte]
        exact hv
      · rw [Tree.tokens, hdrop, hdrop', htt, hdropr]
        simp only [List.cons_append, List.append_assoc, List.nil_append]
    | _ => exact Outcome.ensures_err _
  | lParen =>
    refine (hexpr (pos + 1) hlt).bind fun r hr => ?_
    refine (expectRParen_ensures _ r.2).bind fun q hq => Outcome.ensures_ok ?_
    obtain ⟨rfl, hclose, hdropr⟩ := hq
    obtain ⟨hle, -, t, htd, hte, htt⟩ := hr
    refine ⟨by dsimp only; omega, hclose, .paren t, Nat.succ_lt_succ htd, hte, ?_⟩
    rw [Tree.tokens, hdrop, htt, hdropr]
    simp only [List.cons_append, List.append_assoc, List.nil_append]
  | _ => exact Outcome.ensures_err _

/-- **The descent is sound**: what it reads has a derivation, and it does not panic. -/
theorem descend_ensures (n : ℕ) (s : Symbol) : Descends ops tokens n s (descend ops tokens n s) := by
  induction n generalizing s with
  | zero => exact fun pos _ => Outcome.ensures_err _
  | succ n ih =>
    cases s with
    | expr => exact parseExpr_descends (ih .term)
    | term => exact parseTerm_descends (ih .power)
    | power => exact parsePower_descends (ih .unary) (ih .power)
    | unary => exact parseUnary_descends (ih .unary) (ih .primary)
    | primary => exact parsePrimary_descends (ih .expr)

end Sound

/-! ## What the descent finds -/

/-- The tokens that a text of a symbol would go on with. -/
def goesOn : Symbol → MathToken F → Bool
  | .expr, .plus => true
  | .expr, .minus => true
  | .expr, .star => true
  | .expr, .slash => true
  | .expr, .percent => true
  | .expr, .caret => true
  | .term, .star => true
  | .term, .slash => true
  | .term, .percent => true
  | .term, .caret => true
  | .power, .caret => true
  | _, _ => false

/-- A text of the symbol is at its end here. -/
def Stops (s : Symbol) (rest : List (MathToken F)) : Prop := ∀ token ∈ rest.head?, goesOn s token = false

theorem stops_cons {s : Symbol} {token : MathToken F} {rest : List (MathToken F)} (h : goesOn s token = false) :
    Stops s (token :: rest) := by
  intro t ht
  rw [List.head?_cons, Option.mem_some_iff] at ht
  exact ht ▸ h

theorem Stops.term {rest : List (MathToken F)} (h : Stops .expr rest) : Stops .term rest := by
  intro token htoken
  have hexpr := h token htoken
  cases token <;> first | rfl | exact hexpr

theorem Stops.power {rest : List (MathToken F)} (h : Stops .term rest) : Stops .power rest := by
  intro token htoken
  have hterm := h token htoken
  cases token <;> first | rfl | exact hterm

theorem Tree.head_ne_rParen {c : Category} (t : Tree F c) (hc : c ≠ .args) :
    ∃ token rest, t.tokens = token :: rest ∧ token ≠ .rParen := by
  induction t with
  | ofTerm t ih => exact ih (fun h => nomatch h)
  | ofPower t ih => exact ih (fun h => nomatch h)
  | ofUnary t ih => exact ih (fun h => nomatch h)
  | ofPrimary t ih => exact ih (fun h => nomatch h)
  | oneArg t ih => exact ih (fun h => nomatch h)
  | neg t => exact ⟨_, _, rfl, fun h => nomatch h⟩
  | pos t => exact ⟨_, _, rfl, fun h => nomatch h⟩
  | number n => exact ⟨_, _, rfl, fun h => nomatch h⟩
  | call name args => exact ⟨_, _, rfl, fun h => nomatch h⟩
  | paren e => exact ⟨_, _, rfl, fun h => nomatch h⟩
  | noArgs => exact absurd rfl hc
  | someArgs args => exact absurd rfl hc
  | add e t ih | sub e t ih | mul e t ih | div e t ih | rem e t ih | pow e t ih | moreArgs e t ih =>
    obtain ⟨token, rest, heq, hne⟩ := ih (fun h => nomatch h)
    exact ⟨token, rest ++ _ :: t.tokens, congrArg (· ++ _ :: t.tokens) heq, hne⟩

theorem Tree.head_of_primary (p : Tree F (.sym .primary)) :
    ∃ token rest, p.tokens = token :: rest ∧ token ≠ .minus ∧ token ≠ .plus := by
  cases p with
  | number n => exact ⟨_, _, rfl, (fun h => nomatch h), fun h => nomatch h⟩
  | call name args => exact ⟨_, _, rfl, (fun h => nomatch h), fun h => nomatch h⟩
  | paren e => exact ⟨_, _, rfl, (fun h => nomatch h), fun h => nomatch h⟩

section Complete

variable {ops} {tokens : List (MathToken F)} {n pos p q : ℕ} {c : Category} {rest : List (MathToken F)}

/-- A derivation that is not too deep stands at a position, and has a value. -/
structure Stands (ops : Floats F) (tokens : List (MathToken F)) (n : ℕ) (t : Tree F c) (pos : ℕ)
    (rest : List (MathToken F)) (v : c.Value F) : Prop where
  depth : t.depth < n
  text : tokens.drop pos = t.tokens ++ rest
  value : t.eval ops = some v

theorem Stands.behind {t : Tree F c} {v : c.Value F} (h : Stands ops tokens n t pos rest v) :
    tokens.drop (pos + t.tokens.length) = rest := by
  rw [← List.drop_drop, h.text, List.drop_left]

theorem Stands.le {t : Tree F c} {v : c.Value F} (h : Stands ops tokens n t pos rest v) (hc : c ≠ .args) :
    pos + t.tokens.length ≤ tokens.length := by
  obtain ⟨token, ts, htokens, -⟩ := t.head_ne_rParen hc
  have htext := congrArg List.length h.text
  rw [List.length_drop, List.length_append] at htext
  have hpos : 0 < t.tokens.length := by
    rw [htokens]
    exact Nat.succ_pos _
  omega

/-- How the descent finds a derivation: a chain is read to where its loop goes on. -/
def CompletesAt (ops : Floats F) (tokens : List (MathToken F)) : (c : Category) → Tree F c → Prop
  | .sym .expr, t => ∀ n pos rest v, Stands ops tokens (n + 1) t pos rest v → Stops .term rest →
      ∃ fuel, tokens.length < fuel + (pos + t.tokens.length) ∧ descend ops tokens (n + 1) .expr pos =
        exprLoop ops tokens (descend ops tokens n .term) fuel v (pos + t.tokens.length)
  | .sym .term, t => ∀ n pos rest v, Stands ops tokens (n + 1) t pos rest v → Stops .power rest →
      ∃ fuel, tokens.length < fuel + (pos + t.tokens.length) ∧ descend ops tokens (n + 1) .term pos =
        termLoop ops tokens (descend ops tokens n .power) fuel v (pos + t.tokens.length)
  | .sym s, t => ∀ n pos rest v, Stands ops tokens n t pos rest v → Stops s rest →
      descend ops tokens n s pos = .ok (v, pos + t.tokens.length)
  | .args, t => ∀ n pos rest v, Stands ops tokens (n + 1) t pos (.rParen :: rest) v →
      parseArgs tokens (descend ops tokens n .expr) pos = .ok (v, pos + t.tokens.length)
  | .argList, t => ∀ n pos rest v, Stands ops tokens (n + 1) t pos rest v → Stops .expr rest →
      ∃ fuel, tokens.length < fuel + (pos + t.tokens.length) ∧ parseArgs tokens (descend ops tokens n .expr) pos =
        argsLoop tokens (descend ops tokens n .expr) fuel v (pos + t.tokens.length)

/-! ### The loops -/

theorem exprLoop_stop {term : Descent F} {fuel : ℕ} (v : F) (hfuel : tokens.length < fuel + pos)
    (hpos : pos ≤ tokens.length) (hstop : Stops .expr (tokens.drop pos)) :
    exprLoop ops tokens term fuel v pos = .ok (v, pos) := by
  obtain ⟨fuel, rfl⟩ : ∃ f, fuel = f + 1 := ⟨fuel - 1, by omega⟩
  rw [exprLoop]
  split_ifs with hlt
  · obtain ⟨token, htoken, hdrop⟩ := itemAt_of_lt hlt
    have hend := hstop token (by rw [hdrop]; rfl)
    rw [htoken, Outcome.ok_bind]
    cases token with
    | plus => cases hend
    | minus => cases hend
    | _ => rfl
  · rfl

theorem termLoop_stop {power : Descent F} {fuel : ℕ} (v : F) (hfuel : tokens.length < fuel + pos)
    (hpos : pos ≤ tokens.length) (hstop : Stops .term (tokens.drop pos)) :
    termLoop ops tokens power fuel v pos = .ok (v, pos) := by
  obtain ⟨fuel, rfl⟩ : ∃ f, fuel = f + 1 := ⟨fuel - 1, by omega⟩
  rw [termLoop]
  split_ifs with hlt
  · obtain ⟨token, htoken, hdrop⟩ := itemAt_of_lt hlt
    have hend := hstop token (by rw [hdrop]; rfl)
    rw [htoken, Outcome.ok_bind]
    cases token with
    | star => cases hend
    | slash => cases hend
    | percent => cases hend
    | _ => rfl
  · rfl

/-! ### The derivations -/

theorem complete_expr {t : Tree F (.sym .expr)} (ht : CompletesAt ops tokens (.sym .expr) t) {v : F}
    (h : Stands ops tokens n t pos rest v) (hstop : Stops .expr rest) :
    descend ops tokens n .expr pos = .ok (v, pos + t.tokens.length) := by
  have hdepth := h.depth
  obtain ⟨n, rfl⟩ : ∃ m, n = m + 1 := ⟨n - 1, by omega⟩
  obtain ⟨fuel, hfuel, heq⟩ := ht n pos rest v h hstop.term
  rw [heq]
  exact exprLoop_stop v hfuel (h.le fun hc => nomatch hc) (h.behind ▸ hstop)

theorem complete_term {t : Tree F (.sym .term)} (ht : CompletesAt ops tokens (.sym .term) t) {v : F}
    (h : Stands ops tokens n t pos rest v) (hstop : Stops .term rest) :
    descend ops tokens n .term pos = .ok (v, pos + t.tokens.length) := by
  have hdepth := h.depth
  obtain ⟨n, rfl⟩ : ∃ m, n = m + 1 := ⟨n - 1, by omega⟩
  obtain ⟨fuel, hfuel, heq⟩ := ht n pos rest v h hstop.power
  rw [heq]
  exact termLoop_stop v hfuel (h.le fun hc => nomatch hc) (h.behind ▸ hstop)

theorem Stands.split {c d e : Category} {node : Tree F c → Tree F d → Tree F e} {s : Tree F c} {t : Tree F d}
    {op : MathToken F} {v : e.Value F} (h : Stands ops tokens (n + 1) (node s t) pos rest v)
    (htokens : (node s t).tokens = s.tokens ++ op :: t.tokens) (hdepth : (node s t).depth = max s.depth (t.depth + 1))
    {a : c.Value F} {b : d.Value F} (ha : s.eval ops = some a) (hb : t.eval ops = some b) :
    Stands ops tokens (n + 1) s pos (op :: (t.tokens ++ rest)) a ∧
      tokens.drop (pos + s.tokens.length) = op :: (t.tokens ++ rest) ∧
      Stands ops tokens n t (pos + s.tokens.length + 1) rest b := by
  obtain ⟨hd, htext, -⟩ := h
  rw [hdepth] at hd
  rw [htokens, List.append_assoc, List.cons_append] at htext
  have hs : Stands ops tokens (n + 1) s pos (op :: (t.tokens ++ rest)) a := ⟨by omega, htext, ha⟩
  refine ⟨hs, hs.behind, by omega, ?_, hb⟩
  exact (itemAt_of_drop hs.behind).2.2

/-- **A chain**: the loop takes another turn behind what it has got already. -/
theorem chain_completes {c d : Category} (node : Tree F c → Tree F d → Tree F c) {s : Tree F c} {t : Tree F d}
    {op : MathToken F} {a v : c.Value F} {b : d.Value F} {loop : ℕ → c.Value F → ℕ → Outcome String (c.Value F × ℕ)}
    {x : Outcome String (c.Value F × ℕ)} (h : Stands ops tokens (n + 1) (node s t) pos rest v)
    (htokens : (node s t).tokens = s.tokens ++ op :: t.tokens) (hdepth : (node s t).depth = max s.depth (t.depth + 1))
    (ha : s.eval ops = some a) (hb : t.eval ops = some b)
    (hprev : Stands ops tokens (n + 1) s pos (op :: (t.tokens ++ rest)) a →
      ∃ fuel, tokens.length < fuel + (pos + s.tokens.length) ∧ x = loop fuel a (pos + s.tokens.length))
    (hturn : ∀ p q fuel, p < tokens.length → itemAt tokens p = .ok op → q = p + 1 + t.tokens.length →
      Stands ops tokens n t (p + 1) rest b → loop (fuel + 1) a p = loop fuel v q) :
    ∃ fuel, tokens.length < fuel + (pos + (node s t).tokens.length) ∧
      x = loop fuel v (pos + (node s t).tokens.length) := by
  obtain ⟨hs, hmid, ht⟩ := h.split htokens hdepth ha hb
  obtain ⟨hlt, hitem, -⟩ := itemAt_of_drop hmid
  obtain ⟨fuel, hfuel, rfl⟩ := hprev hs
  obtain ⟨fuel, rfl⟩ : ∃ f, fuel = f + 1 := ⟨fuel - 1, by omega⟩
  have hend : (node s t).tokens.length = s.tokens.length + (t.tokens.length + 1) := by
    rw [htokens, List.length_append, List.length_cons]
  exact ⟨fuel, by omega, hturn _ _ fuel hlt hitem (by omega) ht⟩

theorem completes_add {e : Tree F (.sym .expr)} {t : Tree F (.sym .term)} (he : CompletesAt ops tokens (.sym .expr) e)
    (ht : CompletesAt ops tokens (.sym .term) t) : CompletesAt ops tokens (.sym .expr) (.add e t) := by
  intro n pos rest v h hstop
  obtain ⟨a, ha, hv⟩ := Option.bind_eq_some_iff.mp h.value
  obtain ⟨b, hb, hv⟩ := Option.bind_eq_some_iff.mp hv
  refine chain_completes .add h rfl rfl ha hb (fun hs => he n pos _ a hs (stops_cons rfl)) ?_
  intro p q fuel hlt hitem hq ht'
  rw [exprLoop, if_pos hlt, hitem, Outcome.ok_bind]
  dsimp only
  rw [complete_term ht ht' hstop, Outcome.ok_bind, ← Option.some.inj hv, ← hq]

theorem completes_sub {e : Tree F (.sym .expr)} {t : Tree F (.sym .term)} (he : CompletesAt ops tokens (.sym .expr) e)
    (ht : CompletesAt ops tokens (.sym .term) t) : CompletesAt ops tokens (.sym .expr) (.sub e t) := by
  intro n pos rest v h hstop
  obtain ⟨a, ha, hv⟩ := Option.bind_eq_some_iff.mp h.value
  obtain ⟨b, hb, hv⟩ := Option.bind_eq_some_iff.mp hv
  refine chain_completes .sub h rfl rfl ha hb (fun hs => he n pos _ a hs (stops_cons rfl)) ?_
  intro p q fuel hlt hitem hq ht'
  rw [exprLoop, if_pos hlt, hitem, Outcome.ok_bind]
  dsimp only
  rw [complete_term ht ht' hstop, Outcome.ok_bind, ← Option.some.inj hv, ← hq]

section Operands

variable {t : Tree F (.sym .term)} {p : Tree F (.sym .power)} (ht : CompletesAt ops tokens (.sym .term) t)
  (hp : CompletesAt ops tokens (.sym .power) p)
include ht hp

theorem completes_mul : CompletesAt ops tokens (.sym .term) (.mul t p) := by
  intro n pos rest v h hstop
  obtain ⟨a, ha, hv⟩ := Option.bind_eq_some_iff.mp h.value
  obtain ⟨b, hb, hv⟩ := Option.bind_eq_some_iff.mp hv
  refine chain_completes .mul h rfl rfl ha hb (fun hs => ht n pos _ a hs (stops_cons rfl)) ?_
  intro i j fuel hlt hitem hj hp'
  rw [termLoop, if_pos hlt, hitem, Outcome.ok_bind]
  dsimp only
  rw [hp n _ rest b hp' hstop, Outcome.ok_bind, ← Option.some.inj hv, ← hj]

theorem completes_div : CompletesAt ops tokens (.sym .term) (.div t p) := by
  intro n pos rest v h hstop
  obtain ⟨a, ha, hv⟩ := Option.bind_eq_some_iff.mp h.value
  obtain ⟨b, hb, hv⟩ := Option.bind_eq_some_iff.mp hv
  have hzero : ¬ops.isZero b = true := fun hz => by
    rw [if_pos hz] at hv
    cases hv
  rw [if_neg hzero] at hv
  refine chain_completes .div h rfl rfl ha hb (fun hs => ht n pos _ a hs (stops_cons rfl)) ?_
  intro i j fuel hlt hitem hj hp'
  rw [termLoop, if_pos hlt, hitem, Outcome.ok_bind]
  dsimp only
  rw [hp n _ rest b hp' hstop, Outcome.ok_bind, ← Option.some.inj hv, ← hj]
  exact if_neg hzero

theorem completes_rem : CompletesAt ops tokens (.sym .term) (.rem t p) := by
  intro n pos rest v h hstop
  obtain ⟨a, ha, hv⟩ := Option.bind_eq_some_iff.mp h.value
  obtain ⟨b, hb, hv⟩ := Option.bind_eq_some_iff.mp hv
  have hzero : ¬ops.isZero b = true := fun hz => by
    rw [if_pos hz] at hv
    cases hv
  rw [if_neg hzero] at hv
  refine chain_completes .rem h rfl rfl ha hb (fun hs => ht n pos _ a hs (stops_cons rfl)) ?_
  intro i j fuel hlt hitem hj hp'
  rw [termLoop, if_pos hlt, hitem, Outcome.ok_bind]
  dsimp only
  rw [hp n _ rest b hp' hstop, Outcome.ok_bind, ← Option.some.inj hv, ← hj]
  exact if_neg hzero

end Operands

theorem completes_moreArgs {args : Tree F .argList} {e : Tree F (.sym .expr)}
    (hargs : CompletesAt ops tokens .argList args) (he : CompletesAt ops tokens (.sym .expr) e) :
    CompletesAt ops tokens .argList (.moreArgs args e) := by
  intro n pos rest v h hstop
  obtain ⟨a, ha, hv⟩ := Option.bind_eq_some_iff.mp h.value
  obtain ⟨b, hb, hv⟩ := Option.bind_eq_some_iff.mp hv
  refine chain_completes .moreArgs h rfl rfl ha hb (fun hs => hargs n pos _ a hs (stops_cons rfl)) ?_
  intro p q fuel hlt hitem hq he'
  rw [argsLoop, if_pos hlt, hitem, Outcome.ok_bind]
  dsimp only
  rw [complete_expr he he' hstop, Outcome.ok_bind, ← Option.some.inj hv, ← hq]

theorem completes_ofTerm {t : Tree F (.sym .term)} (ht : CompletesAt ops tokens (.sym .term) t) :
    CompletesAt ops tokens (.sym .expr) (.ofTerm t) := by
  intro n pos rest v h hstop
  have ht' : Stands ops tokens n t pos rest v := ⟨Nat.lt_of_succ_lt_succ h.depth, h.text, h.value⟩
  refine ⟨tokens.length + 1, by omega, ?_⟩
  rw [descend, parseExpr, complete_term ht ht' hstop]
  rfl

theorem completes_ofPower {p : Tree F (.sym .power)} (hp : CompletesAt ops tokens (.sym .power) p) :
    CompletesAt ops tokens (.sym .term) (.ofPower p) := by
  intro n pos rest v h hstop
  have hp' : Stands ops tokens n p pos rest v := ⟨Nat.lt_of_succ_lt_succ h.depth, h.text, h.value⟩
  refine ⟨tokens.length + 1, by omega, ?_⟩
  rw [descend, parseTerm, hp n pos rest v hp' hstop]
  rfl

theorem completes_oneArg {e : Tree F (.sym .expr)} (he : CompletesAt ops tokens (.sym .expr) e) :
    CompletesAt ops tokens .argList (.oneArg e) := by
  intro n pos rest v h hstop
  obtain ⟨a, ha, hv⟩ := Option.bind_eq_some_iff.mp h.value
  have he' : Stands ops tokens n e pos rest a := ⟨Nat.lt_of_succ_lt_succ h.depth, h.text, ha⟩
  obtain ⟨token, ts, htokens, hne⟩ := e.head_ne_rParen fun hc => nomatch hc
  have htext := he'.text
  rw [htokens, List.cons_append] at htext
  obtain ⟨hlt, hitem, -⟩ := itemAt_of_drop htext
  refine ⟨tokens.length + 1, by omega, ?_⟩
  rw [parseArgs, if_pos hlt, hitem, Outcome.ok_bind, complete_expr he he' hstop, ← Option.some.inj hv]
  cases token with
  | rParen => exact absurd rfl hne
  | _ => rfl

theorem completes_noArgs : CompletesAt ops tokens .args .noArgs := by
  intro n pos rest v h
  obtain ⟨hlt, hitem, -⟩ := itemAt_of_drop h.text
  rw [parseArgs, if_pos hlt, hitem, Outcome.ok_bind, ← Option.some.inj h.value]
  rfl

theorem completes_someArgs {args : Tree F .argList} (hargs : CompletesAt ops tokens .argList args) :
    CompletesAt ops tokens .args (.someArgs args) := by
  intro n pos rest v h
  have hargs' : Stands ops tokens (n + 1) args pos (.rParen :: rest) v := ⟨h.depth, h.text, h.value⟩
  obtain ⟨fuel, hfuel, heq⟩ := hargs n pos _ v hargs' (stops_cons rfl)
  obtain ⟨hlt, hitem, -⟩ := itemAt_of_drop hargs'.behind
  obtain ⟨fuel, rfl⟩ : ∃ f, fuel = f + 1 := ⟨fuel - 1, by omega⟩
  rw [heq, argsLoop, if_pos hlt, hitem]
  rfl

theorem completes_ofUnary {u : Tree F (.sym .unary)} (hu : CompletesAt ops tokens (.sym .unary) u) :
    CompletesAt ops tokens (.sym .power) (.ofUnary u) := by
  intro n pos rest v h hstop
  have hdepth : u.depth + 1 < n := h.depth
  obtain ⟨n, rfl⟩ : ∃ m, n = m + 1 := ⟨n - 1, by omega⟩
  have hu' : Stands ops tokens n u pos rest v := ⟨Nat.lt_of_succ_lt_succ hdepth, h.text, h.value⟩
  rw [descend, parsePower, hu n pos rest v hu' (fun _ _ => rfl), Outcome.ok_bind]
  dsimp only
  split_ifs with hlt
  · obtain ⟨token, htoken, hdrop⟩ := itemAt_of_lt hlt
    have hend := hstop token (by rw [← hu'.behind, hdrop]; rfl)
    rw [htoken, Outcome.ok_bind]
    cases token with
    | caret => cases hend
    | _ => rfl
  · rfl

theorem completes_pow {u : Tree F (.sym .unary)} {p : Tree F (.sym .power)}
    (hu : CompletesAt ops tokens (.sym .unary) u) (hp : CompletesAt ops tokens (.sym .power) p) :
    CompletesAt ops tokens (.sym .power) (.pow u p) := by
  intro n pos rest v h hstop
  obtain ⟨a, ha, hv⟩ := Option.bind_eq_some_iff.mp h.value
  obtain ⟨b, hb, hv⟩ := Option.bind_eq_some_iff.mp hv
  have hdepth : max (u.depth + 1) (p.depth + 1) < n := h.depth
  have htext : tokens.drop pos = (u.tokens ++ .caret :: p.tokens) ++ rest := h.text
  rw [List.append_assoc, List.cons_append] at htext
  obtain ⟨n, rfl⟩ : ∃ m, n = m + 1 := ⟨n - 1, by omega⟩
  have hu' : Stands ops tokens n u pos (.caret :: (p.tokens ++ rest)) a := ⟨by omega, htext, ha⟩
  obtain ⟨hlt, hitem, hdrop⟩ := itemAt_of_drop hu'.behind
  have hp' : Stands ops tokens n p (pos + u.tokens.length + 1) rest b := ⟨by omega, hdrop, hb⟩
  have hend : pos + (Tree.pow u p).tokens.length = pos + u.tokens.length + 1 + p.tokens.length := by
    rw [Tree.tokens, List.length_append, List.length_cons]
    omega
  rw [descend, parsePower, hu n pos _ a hu' (fun _ _ => rfl), Outcome.ok_bind]
  dsimp only
  rw [if_pos hlt, hitem, Outcome.ok_bind]
  dsimp only
  rw [hp n _ rest b hp' hstop, Outcome.ok_bind, ← Option.some.inj hv, hend]
  rfl

theorem completes_ofPrimary {p : Tree F (.sym .primary)} (hp : CompletesAt ops tokens (.sym .primary) p) :
    CompletesAt ops tokens (.sym .unary) (.ofPrimary p) := by
  intro n pos rest v h hstop
  have hdepth : p.depth + 1 < n := h.depth
  obtain ⟨n, rfl⟩ : ∃ m, n = m + 1 := ⟨n - 1, by omega⟩
  have hp' : Stands ops tokens n p pos rest v := ⟨Nat.lt_of_succ_lt_succ hdepth, h.text, h.value⟩
  obtain ⟨token, ts, htokens, hminus, hplus⟩ := p.head_of_primary
  have htext := hp'.text
  rw [htokens, List.cons_append] at htext
  obtain ⟨hlt, hitem, -⟩ := itemAt_of_drop htext
  have hprimary := hp n pos rest v hp' (fun _ _ => rfl)
  rw [descend, parseUnary, if_pos hlt, hitem, Outcome.ok_bind]
  cases token with
  | minus => exact absurd rfl hminus
  | plus => exact absurd rfl hplus
  | _ => exact hprimary

section Signs

variable {u : Tree F (.sym .unary)} (hu : CompletesAt ops tokens (.sym .unary) u)
include hu

theorem completes_neg : CompletesAt ops tokens (.sym .unary) (.neg u) := by
  intro n pos rest v h hstop
  obtain ⟨a, ha, hv⟩ := Option.bind_eq_some_iff.mp h.value
  have hdepth : u.depth + 1 < n := h.depth
  obtain ⟨n, rfl⟩ : ∃ m, n = m + 1 := ⟨n - 1, by omega⟩
  obtain ⟨hlt, hitem, hdrop⟩ := itemAt_of_drop h.text
  have hu' : Stands ops tokens n u (pos + 1) rest a := ⟨Nat.lt_of_succ_lt_succ hdepth, hdrop, ha⟩
  rw [descend, parseUnary, if_pos hlt, hitem, Outcome.ok_bind]
  dsimp only
  rw [hu n (pos + 1) rest a hu' (fun _ _ => rfl), Outcome.ok_bind, ← Option.some.inj hv, Tree.tokens, List.length_cons,
    Nat.add_assoc, Nat.add_comm 1]
  rfl

theorem completes_pos : CompletesAt ops tokens (.sym .unary) (.pos u) := by
  intro n pos rest v h hstop
  have hdepth : u.depth + 1 < n := h.depth
  obtain ⟨n, rfl⟩ : ∃ m, n = m + 1 := ⟨n - 1, by omega⟩
  obtain ⟨hlt, hitem, hdrop⟩ := itemAt_of_drop h.text
  have hu' : Stands ops tokens n u (pos + 1) rest v := ⟨Nat.lt_of_succ_lt_succ hdepth, hdrop, h.value⟩
  rw [descend, parseUnary, if_pos hlt, hitem, Outcome.ok_bind]
  dsimp only
  rw [hu n (pos + 1) rest v hu' (fun _ _ => rfl), Tree.tokens, List.length_cons, Nat.add_assoc, Nat.add_comm 1]

end Signs

theorem completes_number (x : F) : CompletesAt ops tokens (.sym .primary) (.number x) := by
  intro n pos rest v h hstop
  have hdepth : 0 < n := h.depth
  obtain ⟨n, rfl⟩ : ∃ m, n = m + 1 := ⟨n - 1, by omega⟩
  obtain ⟨hlt, hitem, -⟩ := itemAt_of_drop h.text
  rw [descend, parsePrimary, if_neg (Nat.not_le_of_lt hlt), hitem, Outcome.ok_bind, ← Option.some.inj h.value]
  rfl

theorem expectRParen_eq {ts : List (MathToken F)} (text : String) (h : tokens.drop pos = .rParen :: ts) :
    expectRParen tokens text pos = .ok (pos + 1) := by
  obtain ⟨hlt, hitem, -⟩ := itemAt_of_drop h
  rw [expectRParen, if_neg (Nat.not_le_of_lt hlt), hitem]
  rfl

theorem completes_paren {e : Tree F (.sym .expr)} (he : CompletesAt ops tokens (.sym .expr) e) :
    CompletesAt ops tokens (.sym .primary) (.paren e) := by
  intro n pos rest v h hstop
  have hdepth : e.depth + 1 < n := h.depth
  have htext : tokens.drop pos = .lParen :: ((e.tokens ++ [.rParen]) ++ rest) := h.text
  rw [List.append_assoc] at htext
  obtain ⟨n, rfl⟩ : ∃ m, n = m + 1 := ⟨n - 1, by omega⟩
  obtain ⟨hlt, hitem, hdrop⟩ := itemAt_of_drop htext
  have he' : Stands ops tokens n e (pos + 1) (.rParen :: rest) v := ⟨Nat.lt_of_succ_lt_succ hdepth, hdrop, h.value⟩
  have hend : pos + (Tree.paren e).tokens.length = pos + 1 + e.tokens.length + 1 := by
    rw [Tree.tokens, List.length_cons, List.length_append, List.length_singleton]
    omega
  rw [descend, parsePrimary, if_neg (Nat.not_le_of_lt hlt), hitem, Outcome.ok_bind]
  dsimp only
  rw [complete_expr he he' (stops_cons rfl), Outcome.ok_bind]
  dsimp only
  rw [expectRParen_eq _ he'.behind, Outcome.ok_bind, hend]
  rfl

theorem completes_call (name : String) {args : Tree F .args} (hargs : CompletesAt ops tokens .args args) :
    CompletesAt ops tokens (.sym .primary) (.call name args) := by
  intro n pos rest v h hstop
  obtain ⟨vs, hvs, hv⟩ := Option.bind_eq_some_iff.mp h.value
  have hdepth : args.depth < n := h.depth
  have htext : tokens.drop pos = .ident name :: .lParen :: ((args.tokens ++ [.rParen]) ++ rest) := h.text
  rw [List.append_assoc] at htext
  obtain ⟨n, rfl⟩ : ∃ m, n = m + 1 := ⟨n - 1, by omega⟩
  obtain ⟨hlt, hitem, hdrop⟩ := itemAt_of_drop htext
  obtain ⟨hlt', hitem', hdrop'⟩ := itemAt_of_drop hdrop
  have hargs' : Stands ops tokens (n + 1) args (pos + 2) (.rParen :: rest) vs := ⟨hdepth, hdrop', hvs⟩
  have hend : pos + (Tree.call name args).tokens.length = pos + 2 + args.tokens.length + 1 := by
    rw [Tree.tokens, List.length_cons, List.length_cons, List.length_append, List.length_singleton]
    omega
  rw [descend, parsePrimary, if_neg (Nat.not_le_of_lt hlt), hitem, Outcome.ok_bind]
  dsimp only
  rw [if_neg (Nat.not_le_of_lt hlt'), hitem', Outcome.ok_bind]
  dsimp only
  rw [hargs n (pos + 2) rest vs hargs', Outcome.ok_bind]
  dsimp only
  rw [expectRParen_eq _ hargs'.behind, Outcome.ok_bind, ((evalMathFunc_agrees ops name vs).2 v).mpr hv,
    Outcome.ok_bind, hend]
  rfl

/-- **The descent is complete**: it finds every derivation that is not too deep. -/
theorem completesAt {c : Category} (t : Tree F c) : CompletesAt ops tokens c t := by
  induction t with
  | ofTerm t ih => exact completes_ofTerm ih
  | add e t ihe iht => exact completes_add ihe iht
  | sub e t ihe iht => exact completes_sub ihe iht
  | ofPower p ih => exact completes_ofPower ih
  | mul t p iht ihp => exact completes_mul iht ihp
  | div t p iht ihp => exact completes_div iht ihp
  | rem t p iht ihp => exact completes_rem iht ihp
  | ofUnary u ih => exact completes_ofUnary ih
  | pow u p ihu ihp => exact completes_pow ihu ihp
  | ofPrimary p ih => exact completes_ofPrimary ih
  | neg u ih => exact completes_neg ih
  | pos u ih => exact completes_pos ih
  | number x => exact completes_number x
  | call name args ih => exact completes_call name ih
  | paren e ih => exact completes_paren ih
  | noArgs => exact completes_noArgs
  | someArgs args ih => exact completes_someArgs ih
  | oneArg e ih => exact completes_oneArg ih
  | moreArgs args e ihargs ihe => exact completes_moreArgs ihargs ihe

end Complete

/-! ## The calculator -/

/-- A derivation that is not too deep, with its value. -/
def Means (ops : Floats F) (tokens : List (MathToken F)) (v : F) : Prop :=
  ∃ t : Tree F (.sym .expr), t.tokens = tokens ∧ t.depth ≤ maxMathRecursionDepth ∧ t.eval ops = some v

theorem evalTokens_ensures (tokens : List (MathToken F)) : (evalTokens ops tokens).Ensures (Means ops tokens) := by
  refine (descend_ensures _ .expr 0 (Nat.zero_le _)).bind fun r hr => ?_
  obtain ⟨-, hle, t, hdepth, heval, htext⟩ := hr
  dsimp only
  split_ifs with hlt
  · obtain ⟨token, htoken, -⟩ := itemAt_of_lt hlt
    rw [htoken]
    exact Outcome.ensures_err _
  · refine Outcome.ensures_ok ⟨t, ?_, Nat.le_of_lt_succ hdepth, heval⟩
    rw [List.drop_zero, List.drop_eq_nil_of_le (Nat.le_of_not_lt hlt), List.append_nil] at htext
    exact htext.symm

theorem evalTokens_of_means {tokens : List (MathToken F)} {v : F} (h : Means ops tokens v) :
    evalTokens ops tokens = .ok v := by
  obtain ⟨t, rfl, hdepth, heval⟩ := h
  have hstands : Stands ops t.tokens (maxMathRecursionDepth + 1) t 0 [] v :=
    ⟨Nat.lt_succ_of_le hdepth, (List.append_nil _).symm, heval⟩
  have hnil : Stops (F := F) .expr [] := fun token htoken => nomatch htoken
  rw [evalTokens, complete_expr (completesAt t) hstands hnil, Outcome.ok_bind]
  exact if_neg (by omega)

/-! ### The tokens of a text -/

section Tokens

variable {chars : List Char}

theorem numberEnd_ensures {fuel i : ℕ} {hasDot : Bool} (hi : i ≤ chars.length) (hfuel : chars.length < fuel + i) :
    (numberEnd chars fuel i hasDot).Ensures fun j => i ≤ j ∧ j ≤ chars.length := by
  induction fuel generalizing i hasDot with
  | zero => omega
  | succ fuel ih =>
    rw [numberEnd]
    split_ifs with hlt
    · obtain ⟨c, hc, -⟩ := itemAt_of_lt hlt
      rw [hc, Outcome.ok_bind]
      split_ifs
      · exact (ih hlt (by omega)).mono fun j hj => ⟨Nat.le_of_succ_le hj.1, hj.2⟩
      · exact Outcome.ensures_ok ⟨Nat.le_refl i, hi⟩
    · exact Outcome.ensures_ok ⟨Nat.le_refl i, hi⟩

theorem identEnd_ensures {fuel i : ℕ} (hi : i ≤ chars.length) (hfuel : chars.length < fuel + i) :
    (identEnd chars fuel i).Ensures fun j => i ≤ j ∧ j ≤ chars.length := by
  induction fuel generalizing i with
  | zero => omega
  | succ fuel ih =>
    rw [identEnd]
    split_ifs with hlt
    · obtain ⟨c, hc, -⟩ := itemAt_of_lt hlt
      rw [hc, Outcome.ok_bind]
      split_ifs
      · exact (ih hlt (by omega)).mono fun j hj => ⟨Nat.le_of_succ_le hj.1, hj.2⟩
      · exact Outcome.ensures_ok ⟨Nat.le_refl i, hi⟩
    · exact Outcome.ensures_ok ⟨Nat.le_refl i, hi⟩

theorem tokenizeFrom_ensures {fuel i : ℕ} {tokens : List (MathToken F)} (hi : i ≤ chars.length)
    (hfuel : chars.length < fuel + i) : (tokenizeFrom ops chars fuel i tokens).Ensures fun _ => True := by
  induction fuel generalizing i tokens with
  | zero => omega
  | succ fuel ih =>
    rw [tokenizeFrom]
    by_cases hlt : i < chars.length
    · rw [if_pos hlt]
      obtain ⟨c, hc, -⟩ := itemAt_of_lt hlt
      have htext {j : ℕ} (hj : i + 1 ≤ j ∧ j ≤ chars.length) :
          (textBetween chars i j).Ensures fun _ => True := by
        rw [textBetween, if_pos ⟨Nat.le_of_succ_le hj.1, hj.2⟩]
        exact Outcome.ensures_ok trivial
      rw [hc, Outcome.ok_bind]
      by_cases hblank : (c = ' ' || c = '\t') = true
      · rw [if_pos hblank]
        exact ih hlt (by omega)
      · rw [if_neg hblank]
        cases (symbol c : Option (MathToken F)) with
        | some token => exact ih hlt (by omega)
        | none =>
          dsimp only
          split_ifs
          · refine (numberEnd_ensures hlt (by omega)).bind fun j hj => ?_
            refine (htext hj).bind fun numStr _ => ?_
            cases ops.parse numStr with
            | some num => exact ih hj.2 (by omega)
            | none => exact Outcome.ensures_err _
          · refine (identEnd_ensures hlt (by omega)).bind fun j hj => ?_
            exact (htext hj).bind fun ident _ => ih hj.2 (by omega)
          · exact Outcome.ensures_err _
    · rw [if_neg hlt]
      exact Outcome.ensures_ok trivial

end Tokens

theorem tokenizeMath_ensures (input : String) : (tokenizeMath ops input).Ensures fun _ => True :=
  tokenizeFrom_ensures ops (Nat.zero_le _) (by omega)

/-- **The calculator** accepts what has a derivation with a value, in as many levels as it admits, and gives that value;
and neither the tokens nor the descent leave their bounds. -/
theorem math_eval_grammar :
    (∀ (tokens : List (MathToken F)) (v : F), evalTokens ops tokens = .ok v ↔ Means ops tokens v) ∧
      (∀ tokens : List (MathToken F), evalTokens ops tokens ≠ .panic) ∧
      (∀ (input : String) (v : F), evalMathExpr ops input = .ok v ↔
        ∃ tokens, tokenizeMath ops input = .ok tokens ∧ Means ops tokens v) ∧
      ∀ input : String, evalMathExpr ops input ≠ .panic := by
  have hiff (tokens : List (MathToken F)) (v : F) : evalTokens ops tokens = .ok v ↔ Means ops tokens v :=
    ⟨(evalTokens_ensures ops tokens).2 v, evalTokens_of_means ops⟩
  refine ⟨hiff, fun tokens => (evalTokens_ensures ops tokens).1, fun input v => ?_, fun input => ?_⟩
  · rw [evalMathExpr, Outcome.bind_eq_ok]
    exact exists_congr fun tokens => and_congr_right fun _ => hiff tokens v
  · exact Outcome.bind_ne_panic (tokenizeMath_ensures ops input).1 fun tokens _ => (evalTokens_ensures ops tokens).1

end VelocityMcp.Edge
