import Mathlib.Data.List.Basic
import Mathlib.Data.List.Nodup
import Mathlib.Logic.Function.Basic
import VelocityMcp.Lib.Replace

/-!
# Lib.Template — filling in the placeholders of a template

The elements of a text look like characters, and what they look like is all that a search sees; so they may carry
marks that tell where they come from.
-/

namespace Lib.Template

variable {α β γ κ : Type} [DecidableEq α]

/-! ## Replacing what looks like a pattern -/

/-- The occurrences replaced, behind so many elements that are skipped. -/
@[grind =] def replaceBy (f : β → α) (pat : List α) (repl : List β) : ℕ → List β → List β
  | _, [] => []
  | n + 1, _ :: s => replaceBy f pat repl n s
  | 0, c :: s =>
    if pat <+: (c :: s).map f then repl ++ replaceBy f pat repl (pat.length - 1) s
    else c :: replaceBy f pat repl 0 s

/-- What is replaced, or skipped. -/
@[grind =] def removed (f : β → α) (pat : List α) : ℕ → List β → List β
  | _, [] => []
  | n + 1, c :: s => c :: removed f pat n s
  | 0, c :: s => if pat <+: (c :: s).map f then c :: removed f pat (pat.length - 1) s else removed f pat 0 s

/-- The pattern begins nowhere in `x`, before `s`. -/
def NoStart (f : β → α) (pat : List α) (x s : List β) : Prop :=
  ∀ u v, x = u ++ v → v ≠ [] → ¬pat <+: (v ++ s).map f

section Replace

variable {f : β → α} {pat : List α} {repl : List β}

omit [DecidableEq α] in
theorem NoStart.head {c : β} {x s : List β} (h : NoStart f pat (c :: x) s) : ¬pat <+: (c :: (x ++ s)).map f :=
  h [] (c :: x) rfl (List.cons_ne_nil c x)

omit [DecidableEq α] in
theorem NoStart.tail {c : β} {x s : List β} (h : NoStart f pat (c :: x) s) : NoStart f pat x s :=
  fun u v hx hv => h (c :: u) v (by rw [hx, List.cons_append]) hv

omit [DecidableEq α] in
theorem noStart_nil (s : List β) : NoStart f pat [] s :=
  fun _ _ hx hv => absurd (List.append_eq_nil_iff.mp hx.symm).2 hv

omit [DecidableEq α] in
theorem noStart_cons {c : β} {x s : List β} (hhead : ¬pat <+: (c :: (x ++ s)).map f) (htail : NoStart f pat x s) :
    NoStart f pat (c :: x) s := by
  intro u v hx hv
  cases u with
  | nil =>
    obtain rfl : c :: x = v := hx
    exact hhead
  | cons d u => exact htail u v (List.cons.inj hx).2 hv

omit [DecidableEq α] in
theorem noStart_iff_forall_lt {x s : List β} :
    NoStart f pat x s ↔ ∀ i < x.length, ¬pat <+: (x.drop i ++ s).map f := by
  constructor
  · intro h i hi
    apply h (x.take i) (x.drop i) (List.take_append_drop i x).symm
    exact List.ne_nil_of_length_pos (by rw [List.length_drop]; omega)
  · rintro h u v rfl hv
    have hpos := List.length_pos_of_ne_nil hv
    have hstart := h u.length (by rw [List.length_append]; omega)
    rwa [List.drop_left] at hstart

instance (x s : List β) : Decidable (NoStart f pat x s) := decidable_of_iff _ noStart_iff_forall_lt.symm

theorem replaceBy_skip (n : ℕ) (s : List β) : replaceBy f pat repl n s = replaceBy f pat repl 0 (s.drop n) := by
  induction n generalizing s with
  | zero => rfl
  | succ n ih =>
    cases s with
    | nil => rfl
    | cons c s => exact ih s

theorem removed_skip (n : ℕ) (s : List β) : removed f pat n s = s.take n ++ removed f pat 0 (s.drop n) := by
  induction n generalizing s with
  | zero => rfl
  | succ n ih =>
    cases s with
    | nil => rfl
    | cons c s =>
      rw [removed, ih, List.take_succ_cons, List.drop_succ_cons, List.cons_append]

omit [DecidableEq α] in
theorem drop_of_map_eq {c : β} {t : List β} (h : (c :: t).map f = pat) (s : List β) :
    (t ++ s).drop (pat.length - 1) = s ∧ (t ++ s).take (pat.length - 1) = t := by
  have hlen : pat.length - 1 = t.length := by rw [← h, List.length_map, List.length_cons, Nat.add_sub_cancel]
  rw [hlen]
  exact ⟨List.drop_left, List.take_left⟩

omit [DecidableEq α] in
theorem prefix_of_map_eq {t : List β} (h : t.map f = pat) (s : List β) : pat <+: (t ++ s).map f := by
  rw [List.map_append, h]
  exact List.prefix_append pat _

theorem replaceBy_append_of_eq (hne : pat ≠ []) {t : List β} (h : t.map f = pat) (s : List β) :
    replaceBy f pat repl 0 (t ++ s) = repl ++ replaceBy f pat repl 0 s := by
  cases t with
  | nil => exact absurd h.symm hne
  | cons c t =>
    have hprefix := prefix_of_map_eq h s
    rw [List.cons_append] at hprefix ⊢
    rw [replaceBy, if_pos hprefix, replaceBy_skip, (drop_of_map_eq h s).1]

theorem removed_append_of_eq (hne : pat ≠ []) {t : List β} (h : t.map f = pat) (s : List β) :
    removed f pat 0 (t ++ s) = t ++ removed f pat 0 s := by
  cases t with
  | nil => exact absurd h.symm hne
  | cons c t =>
    have hprefix := prefix_of_map_eq h s
    rw [List.cons_append] at hprefix ⊢
    rw [removed, if_pos hprefix, removed_skip, (drop_of_map_eq h s).1, (drop_of_map_eq h s).2, List.cons_append]

theorem replaceBy_append {x s : List β} (h : NoStart f pat x s) :
    replaceBy f pat repl 0 (x ++ s) = x ++ replaceBy f pat repl 0 s := by
  induction x with
  | nil => rfl
  | cons c x ih => rw [List.cons_append, replaceBy, if_neg h.head, ih h.tail, List.cons_append]

theorem removed_append {x s : List β} (h : NoStart f pat x s) : removed f pat 0 (x ++ s) = removed f pat 0 s := by
  induction x with
  | nil => rfl
  | cons c x ih => rw [List.cons_append, removed, if_neg h.head, ih h.tail]

theorem noStart_of_removed {x s : List β} (h : ∀ m ∈ x, m ∉ removed f pat 0 (x ++ s)) : NoStart f pat x s := by
  induction x with
  | nil => exact noStart_nil s
  | cons c x ih =>
    have hhead : ¬pat <+: (c :: (x ++ s)).map f := by
      intro hprefix
      apply h c List.mem_cons_self
      rw [List.cons_append, removed, if_pos hprefix]
      exact List.mem_cons_self
    refine noStart_cons hhead (ih fun m hm => ?_)
    have hkept := h m (List.mem_cons_of_mem c hm)
    rwa [List.cons_append, removed, if_neg hhead] at hkept

theorem map_replaceBy (g : γ → β) (repl : List γ) (n : ℕ) (s : List γ) :
    (replaceBy (f ∘ g) pat repl n s).map g = replaceBy f pat (repl.map g) n (s.map g) := by
  induction s generalizing n with
  | nil => rfl
  | cons c s ih =>
    cases n with
    | succ n => exact ih n
    | zero =>
      have hsame : (c :: s).map (f ∘ g) = (g c :: s.map g).map f := by simp
      change (replaceBy (f ∘ g) pat repl 0 (c :: s)).map g = replaceBy f pat (repl.map g) 0 (g c :: s.map g)
      rw [replaceBy, replaceBy, hsame]
      split_ifs
      · rw [List.map_append, ih]
      · rw [List.map_cons, ih]

theorem replaceBy_id {pat repl : List α} (hne : pat ≠ []) (s : List α) :
    replaceBy id pat repl 0 s = Search.replaceAll pat repl s := by
  induction hn : s.length using Nat.strong_induction_on generalizing s with
  | _ n ih =>
    by_cases hprefix : pat <+: s
    · obtain ⟨t, rfl⟩ := hprefix
      have hpos := List.length_pos_of_ne_nil hne
      rw [List.length_append] at hn
      rw [replaceBy_append_of_eq hne (List.map_id pat), replaceAll_append_of_prefix hne, ih t.length (by omega) t rfl]
    · cases s with
      | nil =>
        have hnone : ¬pat <:+: [] := by simpa using hne
        exact (Search.replaceAll_of_none (Search.find_eq_none_iff.mpr hnone)).symm
      | cons c s =>
        rw [List.length_cons] at hn
        rw [replaceBy, List.map_id, if_neg hprefix, replaceAll_cons_of_not_prefix hne hprefix,
          ih s.length (by omega) s rfl]

variable [DecidableEq β]

theorem count_replaceBy {m : β} (hm : m ∉ repl) (n : ℕ) (s : List β) :
    (replaceBy f pat repl n s).count m + (removed f pat n s).count m = s.count m := by
  induction s generalizing n with
  | nil => rfl
  | cons c s ih =>
    cases n with
    | succ n =>
      have hrest := ih n
      rw [replaceBy, removed, List.count_cons, List.count_cons]
      omega
    | zero =>
      rw [replaceBy, removed]
      split_ifs
      · have hrest := ih (pat.length - 1)
        rw [List.count_append, List.count_eq_zero_of_not_mem hm, List.count_cons, List.count_cons]
        omega
      · have hrest := ih 0
        rw [List.count_cons, List.count_cons]
        omega

end Replace

/-! ## Templates -/

/-- A piece of a template: a character of its own, or the placeholder of a key. -/
inductive Piece (κ β : Type) where
  | lit (c : β)
  | hole (k : κ) (text : List β)

/-- The pieces of a template: at each place the first of the keys whose placeholder is there. -/
@[grind =] def parse (f : β → α) (p : κ → List α) (keys : List κ) : ℕ → List β → List (Piece κ β)
  | _, [] => []
  | n + 1, _ :: s => parse f p keys n s
  | 0, c :: s =>
    match keys.find? fun k => p k <+: (c :: s).map f with
    | some k => .hole k ((c :: s).take (p k).length) :: parse f p keys ((p k).length - 1) s
    | none => .lit c :: parse f p keys 0 s

def Piece.key : Piece κ β → Option κ
  | lit _ => none
  | hole k _ => some k

/-- What stands at a piece when some keys have values. -/
@[grind =] def Piece.text (val : κ → Option (List β)) : Piece κ β → List β
  | lit c => [c]
  | hole k t => (val k).getD t

/-- **The template with its placeholders filled in at once**; those of keys without a value stay. -/
def fill (val : κ → Option (List β)) (ps : List (Piece κ β)) : List β := ps.flatMap (·.text val)

@[simp] theorem fill_nil (val : κ → Option (List β)) : fill val [] = [] := rfl

@[simp] theorem fill_cons (val : κ → Option (List β)) (q : Piece κ β) (ps : List (Piece κ β)) :
    fill val (q :: ps) = q.text val ++ fill val ps := rfl

/-- The text of each placeholder is the one of its key. -/
def Holes (f : β → α) (p : κ → List α) (ps : List (Piece κ β)) : Prop :=
  ∀ k t, Piece.hole k t ∈ ps → t.map f = p k

section Parse

variable {f : β → α} {p : κ → List α} {keys : List κ}

theorem hole_of_parse {k : κ} {t : List β} {n : ℕ} {s : List β} (h : .hole k t ∈ parse f p keys n s) :
    k ∈ keys ∧ t.map f = p k := by
  induction s generalizing n with
  | nil => exact nomatch h
  | cons c s ih =>
    cases n with
    | succ n => exact ih h
    | zero =>
      rw [parse] at h
      cases hfind : keys.find? fun k => p k <+: (c :: s).map f with
      | none =>
        rw [hfind] at h
        rcases List.mem_cons.mp h with h | h
        · exact nomatch h
        · exact ih h
      | some b =>
        rw [hfind] at h
        rcases List.mem_cons.mp h with h | h
        · obtain ⟨rfl, rfl⟩ := Piece.hole.inj h
          have hprefix : p k <+: (c :: s).map f := by simpa using List.find?_some hfind
          rw [List.map_take]
          exact ⟨List.mem_of_find?_eq_some hfind, (List.prefix_iff_eq_take.mp hprefix).symm⟩
        · exact ih h

theorem holes_parse (n : ℕ) (s : List β) : Holes f p (parse f p keys n s) := fun _ _ h => (hole_of_parse h).2

theorem fill_parse (hp : ∀ k, p k ≠ []) (n : ℕ) (s : List β) :
    fill (fun _ => none) (parse f p keys n s) = s.drop n := by
  induction s generalizing n with
  | nil => simp [parse]
  | cons c s ih =>
    cases n with
    | succ n => exact ih n
    | zero =>
      rw [parse]
      cases keys.find? fun k => p k <+: (c :: s).map f with
      | none => rw [fill_cons, ih, Piece.text, List.drop_zero, List.singleton_append, List.drop_zero]
      | some k =>
        have hlen : (p k).length = (p k).length - 1 + 1 := by
          have hpos := List.length_pos_of_ne_nil (hp k)
          omega
        rw [fill_cons, ih, Piece.text, Option.getD_none, hlen, List.take_succ_cons, Nat.add_sub_cancel,
          List.cons_append, List.take_append_drop, List.drop_zero]

/-- The pieces with other elements that look the same. -/
@[grind =] def Piece.map (g : γ → β) : Piece κ γ → Piece κ β
  | lit c => .lit (g c)
  | hole k t => .hole k (t.map g)

theorem parse_map (g : γ → β) (n : ℕ) (s : List γ) :
    (parse (f ∘ g) p keys n s).map (Piece.map g) = parse f p keys n (s.map g) := by
  induction s generalizing n with
  | nil => rfl
  | cons c s ih =>
    cases n with
    | succ n => exact ih n
    | zero =>
      have hsame : (c :: s).map (f ∘ g) = (g c :: s.map g).map f := by simp
      change (parse (f ∘ g) p keys 0 (c :: s)).map (Piece.map g) = parse f p keys 0 (g c :: s.map g)
      rw [parse, parse, hsame]
      cases keys.find? fun k => p k <+: (g c :: s.map g).map f with
      | none => rw [List.map_cons, ih]; rfl
      | some k => rw [List.map_cons, ih, Piece.map, List.map_take, List.map_cons]

theorem map_fill (g : γ → β) (val : κ → Option (List γ)) (ps : List (Piece κ γ)) :
    (fill val ps).map g = fill (fun k => (val k).map (·.map g)) (ps.map (Piece.map g)) := by
  induction ps with
  | nil => rfl
  | cons q ps ih =>
    rw [fill_cons, List.map_append, ih, List.map_cons, fill_cons]
    congr 1
    cases q with
    | lit c => rfl
    | hole k t =>
      rw [Piece.map, Piece.text, Piece.text]
      cases val k <;> rfl

end Parse

/-! ## The loop -/

variable [DecidableEq κ]

/-- One key after the other, in the whole text. -/
def loop (f : β → α) (p : κ → List α) (args : List (κ × List β)) (s : List β) : List β :=
  args.foldl (fun s a => replaceBy f (p a.1) a.2 0 s) s

/-- The values when more arguments are there. -/
def extend (val : κ → Option (List β)) (args : List (κ × List β)) : κ → Option (List β) :=
  args.foldl (fun val a => Function.update val a.1 (some a.2)) val

/-- The pattern begins only at the placeholders of this key. -/
def OwnOnly (f : β → α) (pat : List α) (val : κ → Option (List β)) (k : κ) : List (Piece κ β) → Prop
  | [] => True
  | q :: ps => (q.key ≠ some k → NoStart f pat (q.text val) (fill val ps)) ∧ OwnOnly f pat val k ps

/-- **Each placeholder begins only where the template has it**, whatever has been filled in before. -/
def Own (f : β → α) (p : κ → List α) (ps : List (Piece κ β)) (val : κ → Option (List β)) :
    List (κ × List β) → Prop
  | [] => True
  | a :: args => OwnOnly f (p a.1) val a.1 ps ∧ Own f p ps (Function.update val a.1 (some a.2)) args

instance decidableOwnOnly (f : β → α) (pat : List α) (val : κ → Option (List β)) (k : κ) :
    (ps : List (Piece κ β)) → Decidable (OwnOnly f pat val k ps)
  | [] => isTrue trivial
  | _ :: ps => @instDecidableAnd _ _ inferInstance (decidableOwnOnly f pat val k ps)

instance decidableOwn (f : β → α) (p : κ → List α) (ps : List (Piece κ β)) :
    (val : κ → Option (List β)) → (args : List (κ × List β)) → Decidable (Own f p ps val args)
  | _, [] => isTrue trivial
  | val, a :: args => @instDecidableAnd _ _ inferInstance
      (decidableOwn f p ps (Function.update val a.1 (some a.2)) args)

section Loop

variable {f : β → α} {p : κ → List α} {ps : List (Piece κ β)} {val : κ → Option (List β)} {k : κ} {v : List β}
  {args : List (κ × List β)}

/-- **A step that finds the key's own placeholders only** fills them in. -/
theorem replaceBy_fill (hne : p k ≠ []) (hholes : Holes f p ps) (hval : val k = none)
    (hown : OwnOnly f (p k) val k ps) :
    replaceBy f (p k) v 0 (fill val ps) = fill (Function.update val k (some v)) ps := by
  induction ps with
  | nil => rfl
  | cons q ps ih =>
    have hrest := ih (fun b t h => hholes b t (List.mem_cons_of_mem q h)) hown.2
    rw [fill_cons, fill_cons]
    by_cases hkey : q.key = some k
    · obtain ⟨t, rfl⟩ : ∃ t, q = .hole k t := by
        cases q with
        | lit c => exact nomatch hkey
        | hole b t => exact ⟨t, by rw [Option.some.inj hkey]⟩
      have ht := hholes k t List.mem_cons_self
      rw [Piece.text, Piece.text, hval, Option.getD_none, Function.update_self, Option.getD_some,
        replaceBy_append_of_eq hne ht, hrest]
    · have hsame : q.text (Function.update val k (some v)) = q.text val := by
        cases q with
        | lit c => rfl
        | hole b t =>
          have hb : b ≠ k := fun heq => hkey (congrArg some heq)
          rw [Piece.text, Piece.text, Function.update_of_ne hb]
      rw [replaceBy_append (hown.1 hkey), hrest, hsame]

/-- The arguments are those of a map, and have no value yet. -/
def Unfilled (val : κ → Option (List β)) (args : List (κ × List β)) : Prop :=
  (args.map Prod.fst).Nodup ∧ ∀ a ∈ args, val a.1 = none

theorem Unfilled.tail {a : κ × List β} (h : Unfilled val (a :: args)) :
    Unfilled (Function.update val a.1 (some a.2)) args := by
  obtain ⟨hnotin, hnodup⟩ := List.nodup_cons.mp h.1
  refine ⟨hnodup, fun b hb => ?_⟩
  have hne : b.1 ≠ a.1 := fun heq => hnotin (heq ▸ List.mem_map_of_mem hb)
  rw [Function.update_of_ne hne]
  exact h.2 b (List.mem_cons_of_mem a hb)

/-- **If each placeholder begins only where the template has it, the loop fills in all of them at once.** -/
theorem loop_eq_fill (hp : ∀ k, p k ≠ []) (hholes : Holes f p ps) (hargs : Unfilled val args)
    (hown : Own f p ps val args) : loop f p args (fill val ps) = fill (extend val args) ps := by
  induction args generalizing val with
  | nil => rfl
  | cons a args ih =>
    rw [loop, List.foldl_cons, replaceBy_fill (hp a.1) hholes (hargs.2 a List.mem_cons_self) hown.1]
    exact ih hargs.tail hown.2

theorem extend_of_not_mem (h : k ∉ args.map Prod.fst) : extend val args k = val k := by
  induction args generalizing val with
  | nil => rfl
  | cons a args ih =>
    rw [List.map_cons, List.mem_cons, not_or] at h
    rw [extend, List.foldl_cons]
    refine (ih h.2).trans ?_
    rw [Function.update_of_ne h.1]

theorem extend_of_mem (hnodup : (args.map Prod.fst).Nodup) (h : (k, v) ∈ args) : extend val args k = some v := by
  induction args generalizing val with
  | nil => exact nomatch h
  | cons a args ih =>
    obtain ⟨hnotin, hrest⟩ := List.nodup_cons.mp hnodup
    rw [extend, List.foldl_cons]
    rcases List.mem_cons.mp h with rfl | h
    · refine (extend_of_not_mem hnotin).trans ?_
      rw [Function.update_self]
    · exact ih hrest h

/-- The order of the arguments of a map does not matter for what the values are. -/
theorem extend_perm {args' : List (κ × List β)} (hnodup : (args.map Prod.fst).Nodup) (h : args'.Perm args) :
    extend val args' = extend val args := by
  have hnodup' : (args'.map Prod.fst).Nodup := (h.map Prod.fst).nodup_iff.mpr hnodup
  funext k
  by_cases hk : k ∈ args.map Prod.fst
  · obtain ⟨⟨b, v⟩, hmem, rfl⟩ := List.mem_map.mp hk
    rw [extend_of_mem hnodup hmem, extend_of_mem hnodup' (h.mem_iff.mpr hmem)]
  · have hk' : k ∉ args'.map Prod.fst := fun hmem => hk ((h.map Prod.fst).mem_iff.mp hmem)
    rw [extend_of_not_mem hk, extend_of_not_mem hk']

end Loop

end Lib.Template
