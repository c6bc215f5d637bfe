import Mathlib.Data.List.Induction
import Mathlib.Logic.Function.Basic
import Mathlib.Tactic.Common

/-!
# Lib.Machine — state machines whose steps are chosen from outside

A machine is a partial step function: `step s a` is the next state, if the action `a` can be taken in `s`.
`ReachableWhen Init step Ok` are the states of the runs all of whose actions satisfy `Ok` where they are
taken; `Ok` carries what the environment may do and what a theorem assumes of it.  `of_unless`: a
step that has to wait for something.  `update_some_cases`, `update_none_cases`: parties in a table, one of which goes
on or leaves.
`Along step P s as`: `P` holds of every action of a list where it is taken, for steps that are always taken.
`Since step A P s as`: an action with `A`, and `P` ever since; `holds_iff_since`: what comes about and stays so.
`trace step s as`: the actions with their states; `forall_trace_iff`: what is read there, if nothing before changes it.
-/

namespace Lib

variable {σ α : Type}

/-- The states that runs from `Init` reach, if `Ok` holds of every action where it is taken. -/
inductive ReachableWhen (Init : σ → Prop) (step : σ → α → Option σ) (Ok : σ → α → Prop) : σ → Prop where
  | init {s : σ} : Init s → ReachableWhen Init step Ok s
  | step {s s' : σ} {a : α} : ReachableWhen Init step Ok s → Ok s a → step s a = some s' →
      ReachableWhen Init step Ok s'

/-- A list of actions, one after the other, as long as each passes the check `ok` where it is taken. -/
def runActions (step : σ → α → Option σ) (ok : σ → α → Bool) (s : σ) (as : List α) : Option σ :=
  as.foldlM (fun s a => if ok s a then step s a else none) s

/-- A step that waits while `p` holds has been taken. -/
theorem of_unless {p : Prop} [Decidable p] {s s' : σ} (h : (if p then none else some s) = some s') : ¬ p ∧ s = s' := by
  by_cases hp : p
  · rw [if_pos hp] at h
    cases h
  · rw [if_neg hp] at h
    exact ⟨hp, Option.some.inj h⟩

namespace ReachableWhen

variable {Init : σ → Prop} {step : σ → α → Option σ} {Ok : σ → α → Prop}

/-- **Invariant rule.** -/
theorem invariant {I : σ → Prop} (hinit : ∀ s, Init s → I s)
    (hstep : ∀ s a s', I s → Ok s a → step s a = some s' → I s') {s : σ}
    (h : ReachableWhen Init step Ok s) : I s := by
  induction h with
  | init hs => exact hinit _ hs
  | step _ hok hs ih => exact hstep _ _ _ ih hok hs

/-- Runs with less assumed. -/
theorem mono {Ok' : σ → α → Prop} (hok : ∀ s a, Ok s a → Ok' s a) {s : σ} (h : ReachableWhen Init step Ok s) :
    ReachableWhen Init step Ok' s := by
  induction h with
  | init hs => exact .init hs
  | step _ ha hs ih => exact .step ih (hok _ _ ha) hs

theorem runActions {ok : σ → α → Bool} (hok : ∀ s a, ok s a = true → Ok s a) {as : List α} {s s' : σ}
    (h : ReachableWhen Init step Ok s) (hrun : runActions step ok s as = some s') :
    ReachableWhen Init step Ok s' := by
  induction as generalizing s with
  | nil => exact Option.some.inj hrun ▸ h
  | cons a as ih =>
    rw [Lib.runActions, List.foldlM_cons, Option.bind_eq_bind, Option.bind_eq_some_iff] at hrun
    obtain ⟨t, ht, hrun⟩ := hrun
    by_cases ha : ok s a
    · rw [if_pos ha] at ht
      exact ih (.step h (hok s a ha) ht) hrun
    · rw [if_neg ha] at ht
      cases ht

end ReachableWhen

/-! ## Steps that are always taken -/

section Total

variable {step : σ → α → σ} {P Q C : σ → α → Prop} {s : σ} {as : List α}

/-- `P` holds of every action, where it is taken. -/
def Along (step : σ → α → σ) (P : σ → α → Prop) : σ → List α → Prop
  | _, [] => True
  | s, a :: as => P s a ∧ Along step P (step s a) as

theorem Along.iff_of (h : ∀ s a, C s a → (P s a ↔ Q s a)) (hC : Along step C s as) :
    Along step P s as ↔ Along step Q s as := by
  induction as generalizing s with
  | nil => exact Iff.rfl
  | cons a as ih => exact and_congr (h s a hC.1) (ih hC.2)

theorem Along.iff_of_invariant {I : σ → Prop} (hstep : ∀ s a, I s → I (step s a))
    (h : ∀ s a, I s → (P s a ↔ Q s a)) (hs : I s) : Along step P s as ↔ Along step Q s as := by
  induction as generalizing s with
  | nil => exact Iff.rfl
  | cons a as ih => exact and_congr (h s a hs) (ih (hstep s a hs))

theorem along_of_forall (h : ∀ a ∈ as, ∀ s, P s a) : Along step P s as := by
  induction as generalizing s with
  | nil => exact trivial
  | cons a as ih => exact ⟨h a List.mem_cons_self s, ih fun b hb => h b (List.mem_cons_of_mem a hb)⟩

theorem along_append (as bs : List α) :
    Along step P s (as ++ bs) ↔ Along step P s as ∧ Along step P (as.foldl step s) bs := by
  induction as generalizing s with
  | nil => exact ⟨fun h => ⟨trivial, h⟩, And.right⟩
  | cons a as ih => rw [List.cons_append, Along, Along, ih, List.foldl_cons, and_assoc]

/-- `A` holds of some action where it is taken, and `P` of every later one. -/
def Since (step : σ → α → σ) (A P : σ → α → Prop) (s : σ) (as : List α) : Prop :=
  ∃ before a after, as = before ++ a :: after ∧ A (before.foldl step s) a ∧
    Along step P ((before ++ [a]).foldl step s) after

theorem not_since_nil {A : σ → α → Prop} : ¬Since step A P s [] := by
  rintro ⟨before, a, after, heq, -, -⟩
  exact absurd heq (by simp)

theorem since_concat_iff {A : σ → α → Prop} {b : α} :
    Since step A P s (as ++ [b]) ↔ A (as.foldl step s) b ∨ (Since step A P s as ∧ P (as.foldl step s) b) := by
  constructor
  · rintro ⟨before, a, after, heq, ha, hafter⟩
    rcases List.eq_nil_or_concat after with rfl | ⟨after, d, rfl⟩
    · obtain ⟨rfl, hb⟩ := List.append_inj' heq rfl
      exact .inl ((List.cons.inj hb).1 ▸ ha)
    · rw [List.concat_eq_append, ← List.cons_append, ← List.append_assoc] at heq
      obtain ⟨rfl, hd⟩ := List.append_inj' heq rfl
      rw [List.concat_eq_append, along_append] at hafter
      refine .inr ⟨⟨before, a, after, rfl, ha, hafter.1⟩, ?_⟩
      rw [(List.cons.inj hd).1, List.append_cons, List.foldl_append]
      exact hafter.2.1
  · rintro (hb | ⟨⟨before, a, after, rfl, ha, hafter⟩, hb⟩)
    · exact ⟨as, b, [], rfl, hb, trivial⟩
    · refine ⟨before, a, after ++ [b], by simp, ha, (along_append _ _).mpr ⟨hafter, ?_, trivial⟩⟩
      rwa [← List.foldl_append, ← List.append_cons]

/-- **What an action brings about and every later one keeps.** -/
theorem holds_iff_since {A : σ → α → Prop} {R : σ → Prop} (hinit : ¬R s)
    (hstep : ∀ s b, R (step s b) ↔ A s b ∨ (R s ∧ P s b)) : R (as.foldl step s) ↔ Since step A P s as := by
  induction as using List.reverseRecOn with
  | nil => exact iff_of_false hinit not_since_nil
  | append_singleton as b ih => rw [List.foldl_append, since_concat_iff, ← ih]; exact hstep _ b

/-- The actions, each with the state where it is taken. -/
def trace (step : σ → α → σ) : σ → List α → List (σ × α)
  | _, [] => []
  | s, a :: as => (s, a) :: trace step (step s a) as

theorem trace_concat (a : α) : trace step s (as ++ [a]) = trace step s as ++ [(as.foldl step s, a)] := by
  induction as generalizing s with
  | nil => rfl
  | cons b as ih => rw [List.cons_append, trace, trace, ih, List.cons_append, List.foldl_cons]

variable {t : σ} {a : α}

theorem mem_of_mem_trace (h : (t, a) ∈ trace step s as) : a ∈ as := by
  induction as generalizing s with
  | nil => cases h
  | cons b as ih =>
    rcases List.mem_cons.mp h with heq | h
    · exact List.mem_cons.mpr (Or.inl (Prod.mk.inj heq).2)
    · exact List.mem_cons_of_mem _ (ih h)

theorem exists_mem_trace (h : a ∈ as) : ∃ t, (t, a) ∈ trace step s as := by
  induction as generalizing s with
  | nil => cases h
  | cons b as ih =>
    rcases List.mem_cons.mp h with rfl | h
    · exact ⟨s, List.mem_cons_self⟩
    · obtain ⟨t, ht⟩ := ih h
      exact ⟨t, List.mem_cons_of_mem _ ht⟩

variable {β : Type} {read : σ → β} {Changes : α → Prop} {I : σ → Prop}

theorem read_eq_of_mem_trace (hstep : ∀ s b, I s → ¬ Changes b → I (step s b) ∧ read (step s b) = read s) (hs : I s)
    (has : as.Pairwise fun b c => Changes b → c ≠ a) (h : (t, a) ∈ trace step s as) : read t = read s := by
  induction as generalizing s with
  | nil => cases h
  | cons b as ih =>
    rw [List.pairwise_cons] at has
    rcases List.mem_cons.mp h with heq | h
    · rw [(Prod.mk.inj heq).1]
    · have hb : ¬ Changes b := fun hb => has.1 _ (mem_of_mem_trace h) hb rfl
      obtain ⟨hI, hread⟩ := hstep s b hs hb
      rw [ih hI has.2 h, hread]

theorem forall_trace_iff (hstep : ∀ s b, I s → ¬ Changes b → I (step s b) ∧ read (step s b) = read s) (hs : I s)
    (has : as.Pairwise fun b c => Changes b → c ≠ a) {v : β} :
    (∀ t, (t, a) ∈ trace step s as → read t = v) ↔ (a ∈ as → read s = v) := by
  constructor
  · intro h hmem
    obtain ⟨t, ht⟩ := exists_mem_trace (s := s) hmem
    rw [← h t ht, read_eq_of_mem_trace hstep hs has ht]
  · intro h t ht
    rw [read_eq_of_mem_trace hstep hs has ht, h (mem_of_mem_trace ht)]

end Total

section Parties

variable {ι : Type} [DecidableEq ι] {f : ι → Option α} {i j : ι} {v w : α}

theorem update_some_cases (h : Function.update f i (some v) j = some w) : (j = i ∧ w = v) ∨ (j ≠ i ∧ f j = some w) := by
  by_cases hji : j = i
  · rw [hji, Function.update_self] at h
    exact Or.inl ⟨hji, (Option.some.inj h).symm⟩
  · rw [Function.update_of_ne hji] at h
    exact Or.inr ⟨hji, h⟩

theorem update_none_cases (h : Function.update f i none j = some w) : j ≠ i ∧ f j = some w := by
  by_cases hji : j = i
  · rw [hji, Function.update_self] at h
    cases h
  · rw [Function.update_of_ne hji] at h
    exact ⟨hji, h⟩

end Parties

end Lib
