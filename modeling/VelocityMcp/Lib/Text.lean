import Mathlib.Data.List.Infix
import VelocityMcp.Lib.Bytes

/-!
# Lib.Text — substrings, letter case, lines and blanks of a text

`asciiLower`, `firstLine`, `trimText`.
-/

namespace Lib

/-- `sub` occurs in `s`. -/
def Occurs (sub s : String) : Prop := sub.toList <:+: s.toList

instance (sub s : String) : Decidable (Occurs sub s) := inferInstanceAs (Decidable (_ <:+: _))

theorem occurs_append_left {sub s : String} (h : Occurs sub s) (t : String) : Occurs sub (t ++ s) := by
  rw [Occurs, String.toList_append]
  exact h.trans (List.suffix_append _ _).isInfix

theorem occurs_append_right {sub s : String} (h : Occurs sub s) (t : String) : Occurs sub (s ++ t) := by
  rw [Occurs, String.toList_append]
  exact h.trans (List.prefix_append _ _).isInfix

theorem infix_of_notMem {α : Type} {l p q : List α} {x : α} (hx : x ∉ l) (h : l <:+: p ++ x :: q) :
    l <:+: p ∨ l <:+: q := by
  have hstart : ∀ m, m <+: x :: q → (∀ y ∈ m, y ∈ l) → m = [] := fun m hm hsub => by
    cases m with
    | nil => rfl
    | cons y m =>
      obtain ⟨rfl, -⟩ := List.cons_prefix_cons.mp hm
      exact absurd (hsub y List.mem_cons_self) hx
  rcases List.infix_append_iff.mp h with h | h | ⟨l₁, l₂, rfl, h₁, h₂⟩
  · exact Or.inl h
  · rcases List.infix_cons_iff.mp h with h | h
    · rw [hstart l h fun _ hy => hy]
      exact Or.inl List.nil_infix
    · exact Or.inr h
  · rw [hstart l₂ h₂ fun _ hy => List.mem_append_right _ hy, List.append_nil]
    exact Or.inl h₁.isInfix

theorem infix_of_forall_notMem {α : Type} {l d q : List α} (hd : ∀ x ∈ d, x ∉ l) (h : l <:+: d ++ q) : l <:+: q := by
  induction d with
  | nil => exact h
  | cons x d ih =>
    rcases infix_of_notMem (p := []) (hd x List.mem_cons_self) h with h | h
    · rw [List.infix_nil.mp h]
      exact List.nil_infix
    · exact ih (fun y hy => hd y (List.mem_cons_of_mem x hy)) h

theorem occurs_of_number {sub s t : String} {n : ℕ} (hsub : ∀ c ∈ sub.toList, c.isDigit = false)
    (h : Occurs sub (s ++ toString n ++ t)) : Occurs sub s ∨ Occurs sub t := by
  have hdigit : ∀ c ∈ Nat.toDigits 10 n, c ∉ sub.toList := fun c hc hmem => by
    have := Nat.isDigit_of_mem_toDigits (by decide) (by decide) hc
    rw [hsub c hmem] at this
    cases this
  have hrepr : (toString n).toList = Nat.toDigits 10 n := by
    rw [show toString n = String.ofList (Nat.toDigits 10 n) from Nat.repr_eq_ofList_toDigits, String.toList_ofList]
  rw [Occurs, String.toList_append, String.toList_append, hrepr, List.append_assoc] at h
  cases hd : Nat.toDigits 10 n with
  | nil => exact absurd hd Nat.toDigits_ne_nil
  | cons x d =>
    rw [hd] at h hdigit
    rcases infix_of_notMem (hdigit x List.mem_cons_self) h with h | h
    · exact Or.inl h
    · exact Or.inr (infix_of_forall_notMem (fun y hy => hdigit y (List.mem_cons_of_mem x hy)) h)

/-- `to_ascii_lowercase`. -/
def asciiLower (s : String) : String := String.ofList (s.toList.map Char.toLower)

@[simp] theorem asciiLower_append (s t : String) : asciiLower (s ++ t) = asciiLower s ++ asciiLower t := by
  rw [asciiLower, String.toList_append, List.map_append, String.ofList_append]
  rfl

/-- The characters with the Unicode property White_Space. -/
def isWhite (c : Char) : Bool :=
  (0x09 ≤ c.toNat && c.toNat ≤ 0x0d) || c.toNat = 0x20 || c.toNat = 0x85 || c.toNat = 0xa0 || c.toNat = 0x1680 ||
    (0x2000 ≤ c.toNat && c.toNat ≤ 0x200a) || c.toNat = 0x2028 || c.toNat = 0x2029 || c.toNat = 0x202f ||
    c.toNat = 0x205f || c.toNat = 0x3000

def trimText (s : String) : String :=
  String.ofList ((s.toList.dropWhile isWhite).reverse.dropWhile isWhite).reverse

def firstLine (s : String) : Option String :=
  if s.toList = [] then none
  else
    let line := s.toList.takeWhile (· ≠ '\n')
    some (String.ofList (if line.getLast? = some '\r' ∧ line ≠ s.toList then line.dropLast else line))

end Lib
