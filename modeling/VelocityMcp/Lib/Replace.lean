import VelocityMcp.Lib.Search

/-!
# Lib.Replace — `String.replace`, on lists of characters

`toList_replace`: replacing a pattern in a string is `Search.replaceAll` on its characters.
-/

namespace Lib

open String.Slice.Pattern String.Slice.Pattern.Model Search

section Search

variable {α : Type} [DecidableEq α] {pat repl : List α}

theorem replaceAll_append_of_prefix (hne : pat ≠ []) (s : List α) :
    replaceAll pat repl (pat ++ s) = repl ++ replaceAll pat repl s := by
  have hfind : find pat (pat ++ s) = some 0 := find_of_prefix (List.prefix_append pat s)
  rw [replaceAll_of_some hne hfind, List.take_zero, List.nil_append, Nat.zero_add, List.drop_left]

theorem replaceAll_cons_of_not_prefix (hne : pat ≠ []) {x : α} {s : List α} (h : ¬pat <+: x :: s) :
    replaceAll pat repl (x :: s) = x :: replaceAll pat repl s := by
  cases hfind : find pat s with
  | none =>
    have hnone : find pat (x :: s) = none := by rw [find, if_neg h, hfind, Option.map_none]
    rw [replaceAll_of_none hnone, replaceAll_of_none hfind]
  | some i =>
    have hsome : find pat (x :: s) = some (i + 1) := by rw [find, if_neg h, hfind, Option.map_some]
    rw [replaceAll_of_some hne hsome, replaceAll_of_some hne hfind, List.take_succ_cons, List.cons_append,
      Nat.add_right_comm, List.drop_succ_cons]

/-- A stretch in which the pattern does not begin is left alone. -/
theorem replaceAll_append (hne : pat ≠ []) {x s : List α} (h : ∀ u v, x = u ++ v → v ≠ [] → ¬pat <+: v ++ s) :
    replaceAll pat repl (x ++ s) = x ++ replaceAll pat repl s := by
  induction x with
  | nil => rfl
  | cons c x ih =>
    have hhead : ¬pat <+: c :: (x ++ s) := h [] (c :: x) rfl (List.cons_ne_nil c x)
    rw [List.cons_append, replaceAll_cons_of_not_prefix hne hhead, ih]
    · rfl
    · intro u v hx hv
      exact h (c :: u) v (by rw [hx, List.cons_append]) hv

end Search

section Strings

variable {pat repl : String} {s : String.Slice}

def pieceOf (repl : String) : SearchStep s → List Char
  | .matched _ _ => repl.toList
  | .rejected start stop => (s.slice! start stop).copy.toList

theorem foldl_pieces (steps : List (SearchStep s)) (sofar : String) :
    (steps.foldl (fun
      | sofar, .matched .. => sofar ++ String.ToSlice.toSlice repl
      | sofar, .rejected start stop => sofar ++ s.slice! start stop) sofar).toList =
        sofar.toList ++ steps.flatMap (pieceOf repl) := by
  induction steps generalizing sofar with
  | nil => simp
  | cons step steps ih =>
    rw [List.foldl_cons, ih, List.flatMap_cons, ← List.append_assoc]
    congr 1
    cases step with
    | matched p q =>
      have hcopy : (String.ToSlice.toSlice repl).copy = repl := String.copy_toSlice
      dsimp only
      rw [pieceOf, String.appendSlice_eq, String.toList_append, hcopy]
    | rejected p q => simp [pieceOf, String.appendSlice_eq]

/-- **The pieces of a search make the replaced text.** -/
theorem flatMap_pieces (hne : pat ≠ "") {pos : s.Pos} {steps : List (SearchStep s)}
    (h : IsValidSearchFrom pat pos steps) {t u : String} (hsplits : pos.Splits t u) :
    steps.flatMap (pieceOf repl) = replaceAll pat.toList repl.toList u.toList := by
  have hpat : pat.toList ≠ [] := by simpa using hne
  induction h generalizing t u with
  | endPos =>
    obtain rfl : u = "" := by simpa using hsplits.eq_right s.splits_endPos
    exact (replaceAll_of_none (find_eq_none_iff.mpr (by simpa using hpat))).symm
  | matched hmatch _ ih =>
    obtain ⟨t₁, t₂, h1, h2⟩ := ForwardStringSearcher.isLongestMatchAt_iff_splits.mp hmatch
    obtain rfl := hsplits.eq_right h1
    rw [List.flatMap_cons, ih h2, String.toList_append, replaceAll_append_of_prefix hpat]
    rfl
  | @mismatched l p q hlt hnone _ ih =>
    have hle : p ≤ q := Std.le_of_lt hlt
    obtain ⟨t₁, t₂, h1, h2⟩ := String.Slice.copy_slice_eq_iff_splits.mp ⟨hle, rfl⟩
    obtain rfl := hsplits.eq_right h1
    have hpiece : pieceOf repl (.rejected p q) = (s.slice p q hle).copy.toList := by
      rw [pieceOf, ← String.Slice.slice_eq_slice!]
    rw [List.flatMap_cons, ih h2, hpiece, String.toList_append, replaceAll_append hpat]
    rintro x v hx hv ⟨z, hz⟩
    have hcopy : (s.slice p q hle).copy = String.ofList x ++ String.ofList v := by
      rw [← String.toList_inj, hx]
      simp
    rw [hcopy, String.append_assoc] at h1
    rw [hcopy] at h2
    obtain ⟨r, hr⟩ : ∃ r : s.Pos, r.Splits (t₁ ++ String.ofList x) (String.ofList v ++ t₂) := ⟨_, h1.splits_rotateRight⟩
    have hbehind : String.ofList v ++ t₂ = pat ++ String.ofList z := by
      rw [← String.toList_inj]
      simp [hz]
    have hpos : 0 < (String.ofList v).utf8ByteSize := by
      rw [Nat.pos_iff_ne_zero, ne_eq, String.utf8ByteSize_eq_zero_iff, ← String.toList_inj]
      simpa using hv
    have hpr : p ≤ r := by
      rw [String.Slice.Pos.le_iff, String.Pos.Raw.le_iff, h1.offset_eq_rawEndPos, hr.offset_eq_rawEndPos]
      simp
    have hrq : r < q := by
      rw [String.Slice.Pos.lt_iff, String.Pos.Raw.lt_iff, hr.offset_eq_rawEndPos, h2.offset_eq_rawEndPos]
      simp
      omega
    rw [hbehind] at hr
    exact hnone r hpr hrq (ForwardStringSearcher.matchesAt_iff_splits.mpr ⟨_, _, hr⟩)

/-- **`String.replace` is `Search.replaceAll`**, for a pattern that is not empty. -/
theorem toList_replace (hne : pat ≠ "") (text : String) :
    (text.replace pat repl).toList = replaceAll pat.toList repl.toList text.toList := by
  have hvalid := (ForwardStringSearcher.lawfulToForwardSearcherModel hne).isValidSearchFrom_toList text.toSlice
  have hpieces := @flatMap_pieces pat repl _ hne _ _ hvalid _ _ (String.Slice.splits_startPos text.toSlice)
  rw [String.copy_toSlice] at hpieces
  rw [String.replace, String.Slice.replace, ← Std.Iter.foldl_toList]
  exact (foldl_pieces _ "").trans hpieces

end Strings

end Lib
