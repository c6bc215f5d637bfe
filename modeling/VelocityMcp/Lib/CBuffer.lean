import VelocityMcp.Lib.Bytes
import VelocityMcp.Lib.Fuel

/-!
# Lib.CBuffer — a fixed buffer that C code fills from the front

The code keeps a position, which `snprintf` moves by the length of its text whether the text fits or not.
* `Goes limit ok p r`: a piece of code leaves the position at `p`, or at `limit` if that is less; or, unless `ok`, it is
  `Lost`, behind the limit.  `Goes.bind`, `Goes.andThen`: how pieces compose.
-/

namespace Lib

/-- The characters before the NUL, and the position. -/
structure Filled where
  chars : Bytes
  pos : ℕ
deriving DecidableEq

namespace Filled

variable (size : ℕ)

def empty : Filled := ⟨[], 0⟩

/-- `pos += snprintf(buf + pos, size - pos, ..)`: the room left must not be less than none. -/
def print (t : Bytes) (b : Filled) : Run Unit Filled :=
  if size < b.pos then .undefined
  else .done ⟨b.chars ++ t.take (size - b.pos - 1), b.pos + t.length⟩

/-- `buf[pos++] = c`. -/
def put (c : UInt8) (b : Filled) : Run Unit Filled :=
  if b.pos < size then .done ⟨b.chars ++ [c], b.pos + 1⟩ else .undefined

/-- `if (pos < bound) buf[pos++] = c`. -/
def putBelow (bound : ℕ) (c : UInt8) (b : Filled) : Run Unit Filled :=
  if b.pos < bound then b.put size c else .done b

/-- The buffer holds what has been printed, as far as there is room before the NUL. -/
def Tracks (b : Filled) : Prop := b.chars.length = min b.pos (size - 1)

end Filled

open Filled

variable {size limit : ℕ} {b : Filled} {p p' : ℕ} {ok ok' : Prop}

theorem tracks_empty : empty.Tracks size := by simp [Tracks, empty]

theorem print_of_le (h : b.pos ≤ size) (ht : b.Tracks size) (t : Bytes) :
    ∃ b', b.print size t = .done b' ∧ b'.pos = b.pos + t.length ∧ b'.Tracks size := by
  refine ⟨_, if_neg (Nat.not_lt.mpr h), rfl, ?_⟩
  show (b.chars ++ t.take (size - b.pos - 1)).length = _
  unfold Tracks at ht
  rw [List.length_append, List.length_take, ht]
  show _ = min (b.pos + t.length) (size - 1)
  omega

theorem print_eq_undefined (h : size < b.pos) (t : Bytes) : b.print size t = .undefined := if_pos h

theorem put_of_lt (h : b.pos < size - 1) (ht : b.Tracks size) (c : UInt8) :
    ∃ b', b.put size c = .done b' ∧ b'.pos = b.pos + 1 ∧ b'.Tracks size := by
  refine ⟨_, if_pos (by omega), rfl, ?_⟩
  unfold Tracks at ht ⊢
  rw [List.length_append, List.length_singleton, ht]
  show _ = min (b.pos + 1) (size - 1)
  omega

/-! ## Pieces of code -/

/-- The position is behind the limit, or nothing is defined any more. -/
def Lost (size limit : ℕ) (r : Run Unit Filled) : Prop :=
  r = .undefined ∨ ∃ b, r = .done b ∧ limit < b.pos ∧ b.Tracks size

def Goes (size limit : ℕ) (ok : Prop) (p : ℕ) (r : Run Unit Filled) : Prop :=
  (ok ∧ ∃ b, r = .done b ∧ b.pos = min p limit ∧ b.Tracks size) ∨ (¬ ok ∧ Lost size limit r)

variable {r : Run Unit Filled} {f : Filled → Run Unit Filled}

theorem Lost.bind (h : Lost size limit r) (hf : ∀ b, limit < b.pos → b.Tracks size → Lost size limit (f b)) :
    Lost size limit (r >>= f) := by
  obtain rfl | ⟨b, rfl, hb, ht⟩ := h
  · exact Or.inl rfl
  · exact hf b hb ht

theorem lost_done (h : limit < b.pos) (ht : b.Tracks size) : Lost size limit (.done b) := Or.inr ⟨b, rfl, h, ht⟩

theorem lost_print (h : limit < b.pos) (ht : b.Tracks size) (t : Bytes) : Lost size limit (b.print size t) := by
  rcases Nat.lt_or_ge size b.pos with hb | hb
  · exact Or.inl (print_eq_undefined hb t)
  · obtain ⟨b', hb', hpos, ht'⟩ := print_of_le hb ht t
    exact Or.inr ⟨b', hb', by omega, ht'⟩

theorem lost_putBelow {bound : ℕ} (hbound : bound ≤ limit + 1) (h : limit < b.pos) (ht : b.Tracks size) (c : UInt8) :
    Lost size limit (b.putBelow size bound c) := by
  rw [putBelow, if_neg (by omega)]
  exact lost_done h ht

theorem goes_done (h : b.pos = min p limit) (ht : b.Tracks size) : Goes size limit True p (.done b) :=
  Or.inl ⟨trivial, b, rfl, h, ht⟩

theorem Goes.congr (h : Goes size limit ok p r) (hok : ok ↔ ok') (hp : p = p') : Goes size limit ok' p' r := by
  subst hp
  rwa [Goes, ← hok]

/-- **One piece after the other.** -/
theorem Goes.bind (h : Goes size limit ok p r)
    (hf : ∀ b, b.pos = min p limit → b.Tracks size → Goes size limit ok' p' (f b))
    (hlost : ∀ b, limit < b.pos → b.Tracks size → Lost size limit (f b)) :
    Goes size limit (ok ∧ ok') p' (r >>= f) := by
  obtain ⟨hok, b, rfl, hb, ht⟩ | ⟨hok, hr⟩ := h
  · obtain ⟨hok', hdone⟩ | ⟨hok', hr⟩ := hf b hb ht
    · exact Or.inl ⟨⟨hok, hok'⟩, hdone⟩
    · exact Or.inr ⟨fun h => hok' h.2, hr⟩
  · exact Or.inr ⟨fun h => hok h.1, hr.bind hlost⟩

theorem Goes.andThen (h : Goes size limit True p r)
    (hf : ∀ b, b.pos = min p limit → b.Tracks size → Goes size limit ok p' (f b)) : Goes size limit ok p' (r >>= f) := by
  obtain ⟨-, b, rfl, hb, ht⟩ | ⟨hnot, -⟩ := h
  · exact hf b hb ht
  · exact absurd trivial hnot

theorem goes_putBelow {bound : ℕ} (hlimit : limit ≤ size - 1) (hbound : bound = limit) (hb : b.pos = min p limit)
    (ht : b.Tracks size) (c : UInt8) : Goes size limit True (p + 1) (b.putBelow size bound c) := by
  unfold putBelow
  split_ifs with h
  · obtain ⟨b', hb', hpos, ht'⟩ := @put_of_lt size _ (by omega) ht c
    exact Or.inl ⟨trivial, b', hb', by omega, ht'⟩
  · exact Or.inl ⟨trivial, b, rfl, by omega, ht⟩

theorem goes_print (hlimit : limit < size) (hb : b.pos = min p limit) (ht : b.Tracks size) {t : Bytes}
    (hne : t ≠ []) : Goes size limit (p + t.length ≤ limit) (p + t.length) (b.print size t) := by
  have hlen := List.length_pos_of_ne_nil hne
  obtain ⟨b', hb', hpos, ht'⟩ := @print_of_le size _ (by omega) ht t
  by_cases h : p + t.length ≤ limit
  · exact Or.inl ⟨h, b', hb', by omega, ht'⟩
  · exact Or.inr ⟨h, Or.inr ⟨b', hb', by omega, ht'⟩⟩

end Lib
