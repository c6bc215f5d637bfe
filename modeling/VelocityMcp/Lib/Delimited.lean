import Mathlib.Data.List.Basic
import Mathlib.Logic.Function.Basic

/-!
# Lib.Delimited — texts that can be told from what follows them

`DelimitedAt f a`: a text that begins with `f a` begins with no other `f b`, and the rest is the same.
-/

namespace Lib

variable {α β χ : Type}

/-- What begins with the text of `a` was written for `a`. -/
def DelimitedAt (f : α → List χ) (a : α) : Prop := ∀ b r s, f a ++ r = f b ++ s → a = b ∧ r = s

theorem DelimitedAt.eq {f : α → List χ} {a b : α} (h : DelimitedAt f a) (heq : f a = f b) : a = b :=
  (h b [] [] (by rw [heq])).1

/-- Two delimited texts, one after the other. -/
theorem DelimitedAt.append {f : α → List χ} {g : β → List χ} {p : α × β} (hf : DelimitedAt f p.1)
    (hg : DelimitedAt g p.2) : DelimitedAt (fun p : α × β => f p.1 ++ g p.2) p := by
  intro q r s heq
  show p = q ∧ r = s
  rw [List.append_assoc, List.append_assoc] at heq
  obtain ⟨h₁, hrest⟩ := hf q.1 _ _ heq
  obtain ⟨h₂, hrs⟩ := hg q.2 r s hrest
  exact ⟨Prod.ext h₁ h₂, hrs⟩

theorem DelimitedAt.prepend {f : α → List χ} {a : α} (h : DelimitedAt f a) (words : List χ) :
    DelimitedAt (fun a => words ++ f a) a := by
  intro b r s heq
  rw [List.append_assoc, List.append_assoc] at heq
  exact h b r s (List.append_cancel_left heq)

theorem eq_of_append_cons {x y r s : List χ} {stop : χ} (hx : stop ∉ x) (hy : stop ∉ y)
    (h : x ++ stop :: r = y ++ stop :: s) : x = y ∧ r = s := by
  induction x generalizing y with
  | nil =>
    cases y with
    | nil => exact ⟨rfl, (List.cons.inj h).2⟩
    | cons c y =>
      obtain ⟨rfl, -⟩ := List.cons.inj h
      exact absurd List.mem_cons_self hy
  | cons c x ih =>
    cases y with
    | nil =>
      obtain ⟨rfl, -⟩ := List.cons.inj h
      exact absurd List.mem_cons_self hx
    | cons d y =>
      obtain ⟨rfl, hrest⟩ := List.cons.inj h
      obtain ⟨rfl, hrs⟩ := ih (fun hmem => hx (List.mem_cons_of_mem _ hmem))
        (fun hmem => hy (List.mem_cons_of_mem _ hmem)) hrest
      exact ⟨rfl, hrs⟩

/-- An injective text up to a character that does not occur in it. -/
theorem delimited_terminated {f : α → List χ} (hinj : Function.Injective f) {stop : χ}
    (hstop : ∀ a, stop ∉ f a) (a : α) : DelimitedAt (fun a => f a ++ [stop]) a := by
  intro b r s heq
  show a = b ∧ r = s
  rw [List.append_assoc, List.append_assoc, List.singleton_append, List.singleton_append] at heq
  obtain ⟨h, hrs⟩ := eq_of_append_cons (hstop a) (hstop b) heq
  exact ⟨hinj h, hrs⟩

/-- A list, item by item, up to a character that no item begins with. -/
theorem delimitedAt_flatMap {f : α → List χ} {stop : χ} (hhead : ∀ a, ∃ c text, f a = c :: text ∧ c ≠ stop)
    {l : List α} (hf : ∀ a ∈ l, DelimitedAt f a) : DelimitedAt (fun l : List α => l.flatMap f ++ [stop]) l := by
  intro l' r s heq
  show l = l' ∧ r = s
  rw [List.append_assoc, List.append_assoc, List.singleton_append, List.singleton_append] at heq
  induction l generalizing l' with
  | nil =>
    cases l' with
    | nil => exact ⟨rfl, (List.cons.inj heq).2⟩
    | cons b l' =>
      obtain ⟨c, text, hb, hc⟩ := hhead b
      rw [List.flatMap_nil, List.nil_append, List.flatMap_cons, hb, List.append_assoc, List.cons_append] at heq
      exact absurd (List.cons.inj heq).1.symm hc
  | cons a l ih =>
    cases l' with
    | nil =>
      obtain ⟨c, text, ha, hc⟩ := hhead a
      rw [List.flatMap_nil, List.nil_append, List.flatMap_cons, ha, List.append_assoc, List.cons_append] at heq
      exact absurd (List.cons.inj heq).1 hc
    | cons b l' =>
      rw [List.flatMap_cons, List.flatMap_cons, List.append_assoc, List.append_assoc] at heq
      obtain ⟨rfl, hrest⟩ := hf a List.mem_cons_self b _ _ heq
      obtain ⟨rfl, hrs⟩ := ih (fun b hb => hf b (List.mem_cons_of_mem _ hb)) l' hrest
      exact ⟨rfl, hrs⟩

/-! ## Digits -/

theorem digitChar_injOn {d e : ℕ} (hd : d < 16) (he : e < 16) (h : Nat.digitChar d = Nat.digitChar e) : d = e := by
  have hall : ∀ i j : Fin 16, Nat.digitChar i = Nat.digitChar j → i = j := by decide
  exact congrArg Fin.val (hall ⟨d, hd⟩ ⟨e, he⟩ h)

theorem toDigits_ne_of_lt {b n m : ℕ} (hb : 1 < b) (hn : n < b) (hm : b ≤ m) : Nat.toDigits b n ≠ Nat.toDigits b m := by
  intro h
  rw [Nat.toDigits_of_lt_base hn, Nat.toDigits_of_base_le hb hm] at h
  rw [← List.nil_append [Nat.digitChar n]] at h
  exact Nat.toDigits_ne_nil (List.append_inj' h rfl).1.symm

/-- The digits of a number are delimited. -/
theorem toDigits_injective {b : ℕ} (hb : 1 < b) (hb' : b ≤ 16) : Function.Injective (Nat.toDigits b) := by
  intro n m h
  induction n using Nat.strongRecOn generalizing m with
  | ind n ih =>
    by_cases hn : n < b
    · by_cases hm : m < b
      · rw [Nat.toDigits_of_lt_base hn, Nat.toDigits_of_lt_base hm] at h
        exact digitChar_injOn (by omega) (by omega) (List.cons.inj h).1
      · exact absurd h (toDigits_ne_of_lt hb hn (by omega))
    · by_cases hm : m < b
      · exact absurd h.symm (toDigits_ne_of_lt hb hm (by omega))
      · rw [Nat.toDigits_of_base_le hb (show b ≤ n by omega), Nat.toDigits_of_base_le hb (show b ≤ m by omega)] at h
        obtain ⟨hdiv, hlast⟩ := List.append_inj' h rfl
        have hquot : n / b = m / b := ih (n / b) (Nat.div_lt_self (by omega) hb) hdiv
        have hmod : n % b = m % b := by
          have hlt := Nat.mod_lt n (show 0 < b by omega)
          have hlt' := Nat.mod_lt m (show 0 < b by omega)
          exact digitChar_injOn (by omega) (by omega) (List.cons.inj hlast).1
        calc n = b * (n / b) + n % b := (Nat.div_add_mod n b).symm
          _ = b * (m / b) + m % b := by rw [hquot, hmod]
          _ = m := Nat.div_add_mod m b

theorem mem_toDigits {b n : ℕ} (hb : 1 < b) (hb' : b ≤ 16) {c : Char} (h : c ∈ Nat.toDigits b n) :
    ∃ d < 16, c = Nat.digitChar d := by
  induction n using Nat.strongRecOn with
  | ind n ih =>
    by_cases hn : n < b
    · rw [Nat.toDigits_of_lt_base hn, List.mem_singleton] at h
      exact ⟨n, by omega, h⟩
    · rw [Nat.toDigits_of_base_le hb (by omega), List.mem_append, List.mem_singleton] at h
      rcases h with h | h
      · exact ih (n / b) (Nat.div_lt_self (by omega) hb) h
      · have hlt := Nat.mod_lt n (show 0 < b by omega)
        exact ⟨n % b, by omega, h⟩

end Lib
