import VelocityMcp.Lib.Outcome

/-!
# Lib.Loop — counted loops over a loop state, and their rules

* `forCount body n` runs `body` `n` times and stops at the first error or panic.  The rules: an invariant, absence of
  panics, and where its errors come from.
* `forRange body n i` runs it on the indices from `i` on, and can be left; a turn that goes wrong is `none`.  The rule
  `forRange_isSome_iff`: where an unchecked `turn` says what a turn does if it goes right, the loop goes right exactly
  if every turn that `turn` reaches does.
-/

namespace Lib

variable {ε σ : Type}

/-- `for _ in 0..n { body }` on a loop state. -/
def forCount (body : σ → Outcome ε σ) : ℕ → σ → Outcome ε σ
  | 0, s => .ok s
  | n + 1, s => body s >>= forCount body n

variable {body : σ → Outcome ε σ}

@[simp] theorem forCount_zero (s : σ) : forCount body 0 s = .ok s := rfl

theorem forCount_succ (n : ℕ) (s : σ) : forCount body (n + 1) s = body s >>= forCount body n := rfl

/-- **Invariant rule.** -/
theorem forCount_inv {I : σ → Prop} (hstep : ∀ s s', I s → body s = .ok s' → I s') :
    ∀ (n : ℕ) (s s' : σ), I s → forCount body n s = .ok s' → I s'
  | 0, s, s', hs, h => by
    rw [forCount_zero, Outcome.ok.injEq] at h
    exact h ▸ hs
  | n + 1, s, s', hs, h => by
    obtain ⟨s₁, h₁, h₂⟩ := Outcome.bind_eq_ok.mp h
    exact forCount_inv hstep n s₁ s' (hstep s s₁ hs h₁) h₂

/-- **No panics**: a body that keeps the invariant and never panics under it. -/
theorem forCount_ne_panic {I : σ → Prop} (hstep : ∀ s s', I s → body s = .ok s' → I s')
    (hpanic : ∀ s, I s → body s ≠ .panic) : ∀ (n : ℕ) (s : σ), I s → forCount body n s ≠ .panic
  | 0, _, _ => by simp
  | n + 1, s, hs => Outcome.bind_ne_panic (hpanic s hs)
      fun s₁ h₁ => forCount_ne_panic hstep hpanic n s₁ (hstep s s₁ hs h₁)

/-- **Errors**: those of the loop are those of its body. -/
theorem forCount_errIn {P : ε → Prop} (hbody : ∀ s, (body s).ErrIn P) :
    ∀ (n : ℕ) (s : σ), (forCount body n s).ErrIn P
  | 0, s => Outcome.errIn_ok s
  | n + 1, s => (hbody s).bind fun s₁ _ => forCount_errIn hbody n s₁

/-! ## Loops that can be left -/

/-- How a turn ends: the loop goes on, or it breaks, or the function returns. -/
inductive Turn (ρ σ : Type) where
  | next (s : σ)
  | leave (s : σ)
  | ret (r : ρ) (s : σ)

section Range

variable {ρ : Type}

def Turn.state : Turn ρ σ → σ
  | next s => s
  | leave s => s
  | ret _ s => s

/-- `for i in i..i + n { body }` -/
def forRange (body : ℕ → σ → Option (Turn ρ σ)) : ℕ → ℕ → σ → Option (Turn ρ σ)
  | 0, _, s => some (.next s)
  | n + 1, i, s => do
    match ← body i s with
    | .next s => forRange body n (i + 1) s
    | t => some t

/-- The loop, if nothing goes wrong. -/
@[grind =] def ending (turn : ℕ → σ → Turn ρ σ) : ℕ → ℕ → σ → Turn ρ σ
  | 0, _, s => .next s
  | n + 1, i, s =>
    match turn i s with
    | .next s => ending turn n (i + 1) s
    | t => t

/-- If nothing goes wrong, the turn `j` starts in the state `t`. -/
inductive Reaches (turn : ℕ → σ → Turn ρ σ) (i : ℕ) (s : σ) : ℕ → σ → Prop where
  | start : Reaches turn i s i s
  | next {j : ℕ} {t t' : σ} : Reaches turn i s j t → turn j t = .next t' → Reaches turn i s (j + 1) t'

variable {body : ℕ → σ → Option (Turn ρ σ)} {turn : ℕ → σ → Turn ρ σ} {ok : ℕ → σ → Prop} {i j n : ℕ} {s t : σ}

theorem Reaches.head {s₁ : σ} (hfirst : turn i s = .next s₁) (h : Reaches turn (i + 1) s₁ j t) :
    Reaches turn i s j t := by
  induction h with
  | start => exact .next .start hfirst
  | next _ hturn ih => exact .next ih hturn

theorem Reaches.le (h : Reaches turn i s j t) : i ≤ j := by
  induction h with
  | start => exact Nat.le_refl _
  | next _ _ ih => exact Nat.le_succ_of_le ih

theorem Reaches.cases_head (h : Reaches turn i s j t) :
    (j = i ∧ t = s) ∨ ∃ s₁, turn i s = .next s₁ ∧ Reaches turn (i + 1) s₁ j t := by
  induction h with
  | start => exact Or.inl ⟨rfl, rfl⟩
  | next _ hturn ih =>
    right
    obtain ⟨rfl, rfl⟩ | ⟨s₁, hfirst, h⟩ := ih
    · exact ⟨_, hturn, .start⟩
    · exact ⟨s₁, hfirst, .next h hturn⟩

def AllTurns (turn : ℕ → σ → Turn ρ σ) (ok : ℕ → σ → Prop) (n i : ℕ) (s : σ) : Prop :=
  ∀ j t, j < i + n → Reaches turn i s j t → ok j t

theorem allTurns_succ : AllTurns turn ok (n + 1) i s ↔
    ok i s ∧ ∀ s₁, turn i s = .next s₁ → AllTurns turn ok n (i + 1) s₁ := by
  constructor
  · intro h
    exact ⟨h i s (by omega) .start, fun s₁ hfirst j t hj hreach => h j t (by omega) (hreach.head hfirst)⟩
  · rintro ⟨hok, hrest⟩ j t hj hreach
    obtain ⟨rfl, rfl⟩ | ⟨s₁, hfirst, hreach⟩ := hreach.cases_head
    · exact hok
    · exact hrest s₁ hfirst j t (by omega) hreach

/-- The body does what `turn` says where `ok` holds, and goes wrong elsewhere. -/
structure Checks (body : ℕ → σ → Option (Turn ρ σ)) (turn : ℕ → σ → Turn ρ σ) (ok : ℕ → σ → Prop) : Prop where
  right : ∀ i s, ok i s → body i s = some (turn i s)
  wrong : ∀ i s, ¬ok i s → body i s = none

theorem forRange_eq_ending (hbody : Checks body turn ok) (h : AllTurns turn ok n i s) :
    forRange body n i s = some (ending turn n i s) := by
  induction n generalizing i s with
  | zero => rfl
  | succ n ih =>
    obtain ⟨hfirst, hrest⟩ := allTurns_succ.mp h
    rw [forRange, ending, hbody.right i s hfirst, Option.bind_eq_bind, Option.bind_some]
    cases hturn : turn i s with
    | next s₁ => exact ih (hrest s₁ hturn)
    | leave s₁ => rfl
    | ret r s₁ => rfl

/-- **The loop goes right** exactly if every turn does. -/
theorem forRange_isSome_iff (hbody : Checks body turn ok) :
    (forRange body n i s).isSome = true ↔ AllTurns turn ok n i s := by
  refine ⟨fun h => ?_, fun h => by rw [forRange_eq_ending hbody h]; rfl⟩
  induction n generalizing i s with
  | zero =>
    intro j t hj hreach
    exact absurd hreach.le (by omega)
  | succ n ih =>
    have hfirst : ok i s := by
      by_contra hwrong
      rw [forRange, hbody.wrong i s hwrong] at h
      cases h
    refine allTurns_succ.mpr ⟨hfirst, fun s₁ hturn => ih ?_⟩
    rwa [forRange, hbody.right i s hfirst, Option.bind_eq_bind, Option.bind_some, hturn] at h

def ReturnsIn (turn : ℕ → σ → Turn ρ σ) (n i : ℕ) (s : σ) : Prop :=
  ∃ j t r t', j < i + n ∧ Reaches turn i s j t ∧ turn j t = .ret r t'

theorem ending_eq_ret_iff : (∃ r t, ending turn n i s = .ret r t) ↔ ReturnsIn turn n i s := by
  induction n generalizing i s with
  | zero =>
    constructor
    · rintro ⟨r, t, h⟩
      cases h
    · rintro ⟨j, t, r, t', hj, hreach, -⟩
      exact absurd hreach.le (by omega)
  | succ n ih =>
    rw [ending]
    cases hfirst : turn i s with
    | next s₁ =>
      refine ih.trans ⟨?_, ?_⟩
      · rintro ⟨j, t, r, t', hj, hreach, hret⟩
        exact ⟨j, t, r, t', by omega, hreach.head hfirst, hret⟩
      · rintro ⟨j, t, r, t', hj, hreach, hret⟩
        obtain ⟨rfl, rfl⟩ | ⟨s₂, hsecond, hreach⟩ := hreach.cases_head
        · exact nomatch hfirst.symm.trans hret
        · obtain rfl := Turn.next.inj (hfirst.symm.trans hsecond)
          exact ⟨j, t, r, t', by omega, hreach, hret⟩
    | leave s₁ =>
      refine ⟨fun ⟨r, t, h⟩ => (nomatch h), ?_⟩
      rintro ⟨j, t, r, t', hj, hreach, hret⟩
      obtain ⟨rfl, rfl⟩ | ⟨s₂, hsecond, -⟩ := hreach.cases_head
      · exact nomatch hfirst.symm.trans hret
      · exact nomatch hfirst.symm.trans hsecond
    | ret r s₁ => exact ⟨fun _ => ⟨i, s, r, s₁, by omega, .start, hfirst⟩, fun _ => ⟨r, s₁, rfl⟩⟩

theorem ending_state (turn : ℕ → σ → Turn ρ σ) {I : σ → Prop} (hturn : ∀ i s, I s → I (turn i s).state) (hs : I s) :
    I (ending turn n i s).state := by
  induction n generalizing i s with
  | zero => exact hs
  | succ n ih =>
    have h := hturn i s hs
    rw [ending]
    cases hfirst : turn i s with
    | next s₁ =>
      rw [hfirst] at h
      exact ih h
    | leave s₁ =>
      rw [hfirst] at h
      exact h
    | ret r s₁ =>
      rw [hfirst] at h
      exact h

/-- **A loop and what comes after it.** -/
theorem forRange_bind_isSome_iff {β : Type} {f : Turn ρ σ → Option β} (hbody : Checks body turn ok) :
    (forRange body n i s >>= f).isSome = true ↔ AllTurns turn ok n i s ∧ (f (ending turn n i s)).isSome = true := by
  constructor
  · intro h
    have hall : AllTurns turn ok n i s := by
      refine (forRange_isSome_iff hbody).mp ?_
      cases hloop : forRange body n i s with
      | none =>
        rw [hloop] at h
        cases h
      | some t => rfl
    rw [forRange_eq_ending hbody hall] at h
    exact ⟨hall, h⟩
  · rintro ⟨hall, hafter⟩
    rw [forRange_eq_ending hbody hall]
    exact hafter

/-- What comes after it, where a return needs nothing, and the rest needs what depends only on what the turns keep. -/
theorem after_isSome_iff {β : Type} (turn : ℕ → σ → Turn ρ σ) {f : Turn ρ σ → Option β} {after : Prop}
    {I : σ → Prop} (hturn : ∀ i s, I s → I (turn i s).state) (hs : I s) (hret : ∀ r t, (f (.ret r t)).isSome = true)
    (hnext : ∀ t, I t → ((f (.next t)).isSome = true ↔ after))
    (hleave : ∀ t, I t → ((f (.leave t)).isSome = true ↔ after)) :
    (f (ending turn n i s)).isSome = true ↔ ReturnsIn turn n i s ∨ after := by
  have hkept := ending_state (n := n) (i := i) turn hturn hs
  rw [← ending_eq_ret_iff]
  cases hend : ending turn n i s with
  | next t =>
    rw [hend] at hkept
    exact (hnext t hkept).trans ⟨Or.inr, fun h => h.resolve_left fun ⟨r, t', h⟩ => (nomatch h)⟩
  | leave t =>
    rw [hend] at hkept
    exact (hleave t hkept).trans ⟨Or.inr, fun h => h.resolve_left fun ⟨r, t', h⟩ => (nomatch h)⟩
  | ret r t => exact ⟨fun _ => Or.inl ⟨r, t, rfl⟩, fun _ => hret r t⟩

end Range

end Lib
