import VelocityMcp.Lib.JsonSyntax

/-!
# Lib.JsonLayout — JSON texts with blanks between their tokens

`denotes_array`, `denotes_object`: such a text, from the texts of its parts.
-/

namespace Lib.JsonSyntax

def Blank (b : Bytes) : Prop := ∀ c ∈ b, isBlank c = true

theorem Blank.nil : Blank [] := fun _ h => nomatch h

theorem Blank.cons {c : UInt8} {b : Bytes} (hc : isBlank c = true) (hb : Blank b) : Blank (c :: b) := by
  intro d hd
  rcases List.mem_cons.mp hd with rfl | hd
  · exact hc
  · exact hb d hd

theorem blank_replicate {c : UInt8} (h : isBlank c = true) (n : ℕ) : Blank (List.replicate n c) := by
  intro d hd
  rw [List.eq_of_mem_replicate hd]
  exact h

theorem Blank.skip {b : Bytes} (h : Blank b) (s : Bytes) : skipBlanks (b ++ s) = skipBlanks s := by
  induction b with
  | nil => rfl
  | cons c b ih =>
    have hc := h c List.mem_cons_self
    rw [List.cons_append, skipBlanks, List.dropWhile_cons_of_pos hc]
    exact ih fun d hd => h d (List.mem_cons_of_mem _ hd)

/-- **A text that is read as this value**, up to the blanks that follow. -/
def Denotes (t : Bytes) (v : Tree) : Prop :=
  ∀ n rest, t.length ≤ n → Stops (skipBlanks rest) →
    ∃ r, readValue n (t ++ rest) = some (v, r) ∧ skipBlanks r = skipBlanks rest

variable {t : Bytes} {v : Tree}

theorem Denotes.readTo (h : Denotes t v) {n : ℕ} (hn : t.length ≤ n) : ReadTo n t v := by
  intro rest hrest
  obtain ⟨r, hr, hskip⟩ := h n rest hn (hrest.skipBlanks.symm ▸ hrest)
  exact ⟨r, hr, hskip.trans hrest.skipBlanks⟩

theorem Denotes.read (h : Denotes t v) : read t = some v := by
  obtain ⟨r, hr, hskip⟩ := h t.length [] le_rfl stops_nil
  rw [List.append_nil] at hr
  rw [JsonSyntax.read, hr]
  dsimp only
  rw [hskip]
  exact if_pos rfl

/-- **Blanks on both sides change nothing.** -/
theorem denotes_pad {b b' : Bytes} (hb : Blank b) (hb' : Blank b') (h : Denotes t v) : Denotes (b ++ (t ++ b')) v := by
  intro n rest hn hrest
  rw [List.length_append, List.length_append] at hn
  obtain ⟨r, hr, hskip⟩ := h n (b' ++ rest) (by omega) (by rwa [hb'.skip])
  refine ⟨r, ?_, hskip.trans (hb'.skip rest)⟩
  rw [← readValue_skipBlanks] at hr
  rw [← readValue_skipBlanks, List.append_assoc, hb.skip, List.append_assoc]
  exact hr

theorem denotes_of_readValue (hne : t ≠ [])
    (h : ∀ n rest, Stops (skipBlanks rest) → readValue (n + 1) (t ++ rest) = some (v, rest)) : Denotes t v := by
  intro n rest hn hrest
  obtain ⟨m, rfl⟩ : ∃ m, n = m + 1 := ⟨n - 1, by have := List.length_pos_of_ne_nil hne; omega⟩
  exact ⟨rest, h m rest hrest, rfl⟩

theorem denotes_null : Denotes [0x6e, 0x75, 0x6c, 0x6c] .null :=
  denotes_of_readValue (List.cons_ne_nil _ _) fun _ _ _ => rfl

theorem denotes_true : Denotes [0x74, 0x72, 0x75, 0x65] (.bool true) :=
  denotes_of_readValue (List.cons_ne_nil _ _) fun _ _ _ => rfl

theorem denotes_false : Denotes [0x66, 0x61, 0x6c, 0x73, 0x65] (.bool false) :=
  denotes_of_readValue (List.cons_ne_nil _ _) fun _ _ _ => rfl

theorem denotes_quoted {esc : UInt8 → Bytes} {chars : Bytes} (h : ∀ c ∈ chars, SpellsByte (esc c) c)
    (hutf8 : (fromUtf8 chars).isSome = true) : Denotes (quotedBy esc chars) (.string chars) :=
  denotes_of_readValue (List.cons_ne_nil _ _) fun n rest _ => by rw [readValue_quoted h, if_pos hutf8]

theorem numberEnds_of_skipBlanks {rest : Bytes} (h : Stops (skipBlanks rest)) : NumberEnds rest := by
  cases rest with
  | nil => exact stops_nil.numberEnds
  | cons c rest =>
    by_cases hc : isBlank c = true
    · intro d hd
      obtain rfl : c = d := by simpa using hd
      simp only [isBlank, Bool.or_eq_true, decide_eq_true_eq, or_assoc] at hc
      rcases hc with rfl | rfl | rfl | rfl <;> decide
    · rw [skipBlanks_cons (Bool.eq_false_of_not_eq_true hc)] at h
      exact h.numberEnds

theorem denotes_number {sign whole fraction exponent : Bytes} (h : IsNumber sign whole fraction exponent) :
    Denotes (sign ++ whole ++ fraction ++ exponent) (.number (sign ++ whole ++ fraction ++ exponent)) := by
  obtain ⟨c, r, hcr, -⟩ := h.exists_cons
  exact denotes_of_readValue (hcr ▸ List.cons_ne_nil _ _) fun n rest hrest =>
    readValue_number h (numberEnds_of_skipBlanks hrest) n

/-- **An array is read from the texts of its items.** -/
theorem denotes_array {es : List (Bytes × Tree)} (h : ∀ e ∈ es, Denotes e.1 e.2) :
    Denotes (0x5b :: (listed (es.map Prod.fst) ++ [0x5d])) (.array (es.map Prod.snd)) := fun _ rest hn _ =>
  ⟨rest, readValue_array_of_le (fun e he _ => (h e he).readTo) hn rest, rfl⟩

theorem readsKey_pad {k key : Bytes} {b : Bytes} (hb : Blank b) (h : ReadsKey k key) : ReadsKey (b ++ k) key := by
  intro rest
  have hkey := h rest
  rw [readKey] at hkey
  rw [List.append_assoc, readKey, hb.skip]
  exact hkey

theorem readsKey_quoted {esc : UInt8 → Bytes} {chars : Bytes} (h : ∀ c ∈ chars, SpellsByte (esc c) c)
    (hutf8 : (fromUtf8 chars).isSome = true) : ReadsKey (quotedBy esc chars) chars :=
  (spellsKey_quoted h hutf8).2

def Member.Denotes (m : Member) : Prop := ReadsKey m.keyText m.key ∧ JsonSyntax.Denotes m.text m.value

/-- **An object is read from the texts of its members.** -/
theorem denotes_object {ms : List Member} (h : ∀ m ∈ ms, m.Denotes) :
    Denotes (0x7b :: (listed (ms.map Member.written) ++ [0x7d])) (.object (ms.map Member.read)) := fun _ rest hn _ =>
  ⟨rest, readValue_object_of_le (fun m hm _ hj => ⟨(h m hm).1, (h m hm).2.readTo hj⟩) hn rest, rfl⟩

end Lib.JsonSyntax
