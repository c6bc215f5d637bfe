import Mathlib.Data.List.Induction
import VelocityMcp.Lib.Paths

/-!
# Lib.Layout — file systems with symbolic links, and where paths lead in them

`settle_append`, `settle_of_follow`, `placed_of_follow`, `settle_placed`: how the steps of a path compose.
-/

namespace Lib

/-! ## Layouts -/

/-- What stands at a place. -/
inductive Node (ν : Type) where
  | dir
  | file
  | link (target : List (Component ν))
deriving DecidableEq

/-- A file system; a place is given by the names on the way to it from the root. -/
structure Layout (ν : Type) where
  node : List ν → Option (Node ν)
  root : node [] = some .dir
  parent : ∀ p name, node (p ++ [name]) ≠ none → node p = some .dir

namespace Layout

variable {ν : Type} (L : Layout ν)

def isDir (p : List ν) : Bool :=
  match L.node p with
  | some .dir => true
  | _ => false

/-- Something stands there that is no link. -/
def Placed (p : List ν) : Prop := L.node p = some .dir ∨ L.node p = some .file

/-- The target of the link that a component names, if it does. -/
def linkAt (dir : List ν) : Component ν → Option (List (Component ν))
  | .normal name =>
    match L.node (dir ++ [name]) with
    | some (.link target) => some target
    | _ => none
  | _ => none

/-- One component from a directory: a place where something stands, or a link's target. -/
def enter (dir : List ν) (c : Component ν) : Option (List ν ⊕ List (Component ν)) :=
  if L.isDir dir then
    match L.linkAt dir c with
    | some target => some (.inr target)
    | none => if (L.node (walk dir c)).isSome then some (.inl (walk dir c)) else none
  else none

/-- The components up to the first link, and `jump` from there. -/
def followWith (jump : List ν → List (Component ν) → Option (List ν)) (dir : List ν) :
    List (Component ν) → Option (List ν)
  | [] => some dir
  | c :: cs =>
    match L.enter dir c with
    | none => none
    | some (.inl place) => followWith jump place cs
    | some (.inr target) => jump dir (target ++ cs)

/-- Where components lead through at most so many links, if something stands at every step. -/
def follow : ℕ → List ν → List (Component ν) → Option (List ν)
  | 0 => L.followWith fun _ _ => none
  | n + 1 => L.followWith (follow n)

/-- The components up to the first link, and `jump` from there; at the end, the links that may still be followed. -/
def settleWith (links : ℕ) (jump : List ν → List (Component ν) → ℕ × List ν) (dir : List ν) :
    List (Component ν) → ℕ × List ν
  | [] => (links, dir)
  | c :: cs =>
    match L.linkAt dir c with
    | none => settleWith links jump (walk dir c) cs
    | some target => jump dir (target ++ cs)

/-- Where components lead through so many links, and by their names from then on. -/
def settle : ℕ → List ν → List (Component ν) → ℕ × List ν
  | 0 => fun dir cs => (0, resolve dir cs)
  | n + 1 => L.settleWith (n + 1) (settle n)

/-- The components up to the first link, and `jump` from there. -/
def unlinkWith (jump : List ν → List (Component ν) → List (Component ν)) (dir : List ν) :
    List (Component ν) → List (Component ν)
  | [] => []
  | c :: cs =>
    match L.linkAt dir c with
    | none => c :: unlinkWith jump (walk dir c) cs
    | some target => jump dir (target ++ cs)

/-- The components with the targets of so many links written in their places. -/
def unlink : ℕ → List ν → List (Component ν) → List (Component ν)
  | 0 => fun _ cs => cs
  | n + 1 => L.unlinkWith (unlink n)

variable {L}

/-! ## Settling -/

theorem settle_nil (n : ℕ) (dir : List ν) : L.settle n dir [] = (n, dir) := by
  cases n <;> rfl

theorem settle_cons_of_none {n : ℕ} {dir : List ν} {c : Component ν} (hc : L.linkAt dir c = none)
    (cs : List (Component ν)) : L.settle n dir (c :: cs) = L.settle n (walk dir c) cs := by
  cases n with
  | zero => rfl
  | succ n =>
    rw [settle, settleWith, hc]

theorem settle_cons_of_some {n : ℕ} {dir : List ν} {c : Component ν} {target : List (Component ν)}
    (hc : L.linkAt dir c = some target) (cs : List (Component ν)) :
    L.settle (n + 1) dir (c :: cs) = L.settle n dir (target ++ cs) := by
  rw [settle, settleWith, hc]

/-- **What the written components amount to** is where the path leads. -/
theorem resolve_unlink (n : ℕ) (dir : List ν) (cs : List (Component ν)) :
    resolve dir (L.unlink n dir cs) = (L.settle n dir cs).2 := by
  induction n generalizing dir cs with
  | zero => rfl
  | succ n ih =>
    induction cs generalizing dir with
    | nil => rfl
    | cons c cs ihcs =>
      rw [unlink, unlinkWith]
      cases hc : L.linkAt dir c with
      | none =>
        rw [settle_cons_of_none hc, ← ihcs]
        rfl
      | some target => rw [settle_cons_of_some hc, ← ih]

/-- **Settling goes on where it has come to**, with the links that are left. -/
theorem settle_append (n : ℕ) (dir : List ν) (cs ds : List (Component ν)) :
    L.settle n dir (cs ++ ds) = L.settle (L.settle n dir cs).1 (L.settle n dir cs).2 ds := by
  induction n generalizing dir cs with
  | zero =>
    show (0, resolve dir (cs ++ ds)) = (0, resolve (resolve dir cs) ds)
    rw [resolve_append]
  | succ n ih =>
    induction cs generalizing dir with
    | nil => rw [List.nil_append, settle_nil]
    | cons c cs ihcs =>
      rw [List.cons_append]
      cases hc : L.linkAt dir c with
      | none => rw [settle_cons_of_none hc, settle_cons_of_none hc, ihcs]
      | some target => rw [settle_cons_of_some hc, settle_cons_of_some hc, ← List.append_assoc, ih]

/-- `.` makes no difference. -/
theorem settle_filter (keep : Component ν → Bool) (hkeep : ∀ c, c ≠ .curDir → keep c = true) (n : ℕ) (dir : List ν)
    (cs : List (Component ν)) : L.settle n dir (cs.filter keep) = L.settle n dir cs := by
  induction cs generalizing n dir with
  | nil => rfl
  | cons c cs ih =>
    by_cases hc : keep c = true
    · have hone : ∀ es, L.settle n dir (c :: es) =
          L.settle (L.settle n dir [c]).1 (L.settle n dir [c]).2 es := settle_append n dir [c]
      rw [List.filter_cons_of_pos hc, hone, ih, ← hone]
    · have hdot : c = .curDir := not_not.mp fun h => hc (hkeep c h)
      have hskip : L.settle n dir (.curDir :: cs) = L.settle n dir cs := settle_cons_of_none rfl cs
      rw [List.filter_cons_of_neg hc, ih, hdot, hskip]

/-! ## Following -/

theorem enter_eq_inl {dir place : List ν} {c : Component ν} (h : L.enter dir c = some (.inl place)) :
    L.linkAt dir c = none ∧ place = walk dir c ∧ (L.node place).isSome := by
  cases hlink : L.linkAt dir c with
  | some target =>
    simp only [enter, hlink] at h
    split_ifs at h
    cases h
  | none =>
    simp only [enter, hlink] at h
    split_ifs at h with hdir hnode
    obtain rfl := Sum.inl.inj (Option.some.inj h)
    exact ⟨rfl, rfl, hnode⟩

theorem enter_eq_inr {dir : List ν} {c : Component ν} {target : List (Component ν)}
    (h : L.enter dir c = some (.inr target)) : L.linkAt dir c = some target := by
  cases hlink : L.linkAt dir c with
  | some t =>
    simp only [enter, hlink] at h
    split_ifs at h
    rw [Sum.inr.inj (Option.some.inj h)]
  | none =>
    simp only [enter, hlink] at h
    split_ifs at h
    cases h

theorem follow_cons {n : ℕ} {dir : List ν} {c : Component ν} {cs : List (Component ν)} {q : List ν}
    (h : L.follow n dir (c :: cs) = some q) :
    (∃ place, L.enter dir c = some (.inl place) ∧ L.follow n place cs = some q) ∨
      ∃ target m, n = m + 1 ∧ L.enter dir c = some (.inr target) ∧ L.follow m dir (target ++ cs) = some q := by
  cases n with
  | zero =>
    rw [follow, followWith] at h
    split at h
    · cases h
    · exact Or.inl ⟨_, by assumption, h⟩
    · cases h
  | succ n =>
    rw [follow, followWith] at h
    split at h
    · cases h
    · exact Or.inl ⟨_, by assumption, h⟩
    · exact Or.inr ⟨_, n, rfl, by assumption, h⟩

theorem follow_nil (n : ℕ) (dir : List ν) : L.follow n dir [] = some dir := by
  cases n <;> rfl

theorem settle_of_follow {n : ℕ} {dir : List ν} {cs : List (Component ν)} {q : List ν}
    (h : L.follow n dir cs = some q) : (L.settle n dir cs).2 = q := by
  induction n generalizing dir cs with
  | zero =>
    induction cs generalizing dir with
    | nil => exact Option.some.inj ((follow_nil 0 dir).symm.trans h)
    | cons c cs ih =>
      rcases follow_cons h with ⟨place, henter, hrest⟩ | ⟨target, m, hm, -⟩
      · obtain ⟨hlink, rfl, -⟩ := enter_eq_inl henter
        rw [settle_cons_of_none hlink]
        exact ih hrest
      · cases hm
  | succ n ihn =>
    induction cs generalizing dir with
    | nil =>
      rw [settle_nil]
      exact Option.some.inj ((follow_nil _ dir).symm.trans h)
    | cons c cs ih =>
      rcases follow_cons h with ⟨place, henter, hrest⟩ | ⟨target, m, hm, henter, hrest⟩
      · obtain ⟨hlink, rfl, -⟩ := enter_eq_inl henter
        rw [settle_cons_of_none hlink]
        exact ih hrest
      · obtain rfl := Nat.succ.inj hm
        rw [settle_cons_of_some (enter_eq_inr henter)]
        exact ihn hrest

/-! ## Places -/

theorem placed_dropLast {p : List ν} (h : L.Placed p) : L.Placed p.dropLast := by
  cases p using List.reverseRecOn with
  | nil => exact h
  | append_singleton p name =>
    rw [List.dropLast_concat]
    exact Or.inl (L.parent p name (h.elim (fun h => h ▸ Option.some_ne_none _) fun h => h ▸ Option.some_ne_none _))

theorem placed_onTheWay {p q : List ν} (hq : L.Placed q) (h : p <+: q) : L.Placed p := by
  obtain ⟨rest, rfl⟩ := h
  induction rest using List.reverseRecOn with
  | nil => rwa [List.append_nil] at hq
  | append_singleton rest name ih =>
    refine ih ?_
    have := placed_dropLast hq
    rwa [← List.append_assoc, List.dropLast_concat] at this

theorem placed_of_enter {dir place : List ν} {c : Component ν} (hdir : L.Placed dir)
    (h : L.enter dir c = some (.inl place)) : L.Placed place := by
  obtain ⟨hlink, rfl, hnode⟩ := enter_eq_inl h
  cases c with
  | normal name =>
    rw [linkAt] at hlink
    rw [walk] at hnode ⊢
    cases hname : L.node (dir ++ [name]) with
    | none =>
      rw [hname] at hnode
      cases hnode
    | some node =>
      rw [hname] at hlink
      cases node with
      | dir => exact Or.inl hname
      | file => exact Or.inr hname
      | link target => cases hlink
  | rootDir => exact Or.inl L.root
  | curDir => exact hdir
  | parentDir => exact placed_dropLast hdir

theorem placed_of_follow {n : ℕ} {dir : List ν} {cs : List (Component ν)} {q : List ν} (hdir : L.Placed dir)
    (h : L.follow n dir cs = some q) : L.Placed q := by
  induction n generalizing dir cs with
  | zero =>
    induction cs generalizing dir with
    | nil =>
      obtain rfl := Option.some.inj ((follow_nil 0 dir).symm.trans h)
      exact hdir
    | cons c cs ih =>
      rcases follow_cons h with ⟨place, henter, hrest⟩ | ⟨target, m, hm, -⟩
      · exact ih (placed_of_enter hdir henter) hrest
      · cases hm
  | succ n ihn =>
    induction cs generalizing dir with
    | nil =>
      obtain rfl := Option.some.inj ((follow_nil _ dir).symm.trans h)
      exact hdir
    | cons c cs ih =>
      rcases follow_cons h with ⟨place, henter, hrest⟩ | ⟨target, m, hm, -, hrest⟩
      · exact ih (placed_of_enter hdir henter) hrest
      · obtain rfl := Nat.succ.inj hm
        exact ihn hdir hrest

theorem linkAt_of_placed {dir : List ν} {name : ν} (h : L.Placed (dir ++ [name])) :
    L.linkAt dir (.normal name) = none := by
  rw [linkAt]
  rcases h with h | h <;> rw [h]

theorem settle_placed (n : ℕ) {dir names : List ν} (h : L.Placed (dir ++ names)) :
    L.settle n dir (names.map .normal) = (n, dir ++ names) := by
  induction names generalizing dir with
  | nil => rw [List.map_nil, settle_nil, List.append_nil]
  | cons name names ih =>
    have hsplit : dir ++ name :: names = dir ++ [name] ++ names := (List.append_assoc dir [name] names).symm
    rw [hsplit] at h
    rw [List.map_cons, settle_cons_of_none (linkAt_of_placed (placed_onTheWay h (List.prefix_append _ _))), hsplit]
    exact ih h

end Layout

end Lib
