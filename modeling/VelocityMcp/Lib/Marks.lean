import Mathlib.Data.List.Pairwise
import VelocityMcp.Lib.Delimited
import VelocityMcp.Lib.Template

/-!
# Lib.Marks — where the characters of a filled template come from

`literal_of_own`, `own_of_literal`: the arguments are filled in literally if (and, for placeholders that do not
overlap, only if) each placeholder begins only where the template has it.
-/

namespace Lib.Template

variable {α β γ κ : Type}

/-! ## Marks -/

/-- Where a character comes from: its place in the template, or in the value of a key. -/
inductive Mark (κ : Type) where
  | template (i : ℕ)
  | argument (k : κ) (i : ℕ)
deriving DecidableEq

def markTemplate (κ : Type) (s : List α) : List (α × Mark κ) := s.zipIdx.map fun (c, i) => (c, .template i)

def markValue (k : κ) (v : List α) : List (α × Mark κ) := v.zipIdx.map fun (c, i) => (c, .argument k i)

def markArgs (args : List (κ × List α)) : List (κ × List (α × Mark κ)) := args.map fun (k, v) => (k, markValue k v)

section Marks

variable {args order : List (κ × List α)} {s : List α}

theorem map_fst_markTemplate : (markTemplate κ s).map Prod.fst = s := by
  rw [markTemplate, List.map_map]
  exact List.zipIdx_map_fst 0 s

theorem map_fst_markValue {k : κ} : (markValue k s).map Prod.fst = s := by
  rw [markValue, List.map_map]
  exact List.zipIdx_map_fst 0 s

theorem keys_markArgs : (markArgs args).map Prod.fst = args.map Prod.fst := by
  rw [markArgs, List.map_map]
  rfl

theorem map_fst_markArgs : ((markArgs args).map fun a => (a.1, a.2.map Prod.fst)) = args := by
  rw [markArgs, List.map_map]
  refine (List.map_congr_left fun a _ => ?_).trans (List.map_id args)
  exact Prod.ext rfl map_fst_markValue

theorem nodup_markTemplate : (markTemplate κ s).Nodup := by
  apply List.Nodup.of_map fun c => match c.2 with | .template i => i | .argument _ i => i
  rw [markTemplate, List.map_map]
  have hplaces : s.zipIdx.map Prod.snd = List.range' 0 s.length := List.zipIdx_map_snd 0 s
  exact hplaces ▸ List.nodup_range'

theorem of_mem_markTemplate {c : α × Mark κ} (h : c ∈ markTemplate κ s) : ∃ i, c.2 = .template i := by
  obtain ⟨⟨x, i⟩, -, rfl⟩ := List.mem_map.mp h
  exact ⟨i, rfl⟩

theorem of_mem_markArgs {a : κ × List (α × Mark κ)} (ha : a ∈ markArgs args) {c : α × Mark κ} (hc : c ∈ a.2) :
    ∃ i, c.2 = .argument a.1 i := by
  obtain ⟨⟨k, v⟩, -, rfl⟩ := List.mem_map.mp ha
  obtain ⟨⟨x, i⟩, -, rfl⟩ := List.mem_map.mp hc
  exact ⟨i, rfl⟩

end Marks

/-! ## One pass over the template -/

variable [DecidableEq α] [DecidableEq κ]

/-- **One pass over the template**: what stands at a placeholder is the value of its key. -/
def onePass (f : β → α) (p : κ → List α) (args : List (κ × List β)) (s : List β) : List β :=
  fill (extend (fun _ => none) args) (parse f p (args.map Prod.fst) 0 s)

/-- Placeholders of different keys do not overlap. -/
def Apart (p : κ → List α) : κ → κ → Prop :=
  fun k b => k ≠ b → ∀ u v, p b = u ++ v → v ≠ [] → ∀ s, ¬p k <+: v ++ s

/-! ## Elements that are all different -/

section Fresh

variable {f : β → α} {p : κ → List α} {ps : List (Piece κ β)} {val : κ → Option (List β)} {k : κ} {v : List β}
  {args : List (κ × List β)} {m : β}

def Piece.settled (val : κ → Option (List β)) : Piece κ β → List β
  | lit c => [c]
  | hole k _ => (val k).getD []

def Piece.unsettled (val : κ → Option (List β)) : Piece κ β → List β
  | lit _ => []
  | hole k t => if val k = none then t else []

theorem mem_settled_update {q : Piece κ β} (h : m ∈ q.settled (Function.update val k (some v))) :
    m ∈ v ∨ m ∈ q.settled val := by
  cases q with
  | lit c => exact .inr h
  | hole b t =>
    rw [Piece.settled] at h ⊢
    by_cases hb : b = k
    · subst hb
      rw [Function.update_self, Option.getD_some] at h
      exact .inl h
    · rw [Function.update_of_ne hb] at h
      exact .inr h

theorem mem_unsettled_of_update {q : Piece κ β} (h : m ∈ q.unsettled (Function.update val k (some v))) :
    m ∈ q.unsettled val := by
  cases q with
  | lit c => cases h
  | hole b t =>
    rw [Piece.unsettled] at h ⊢
    by_cases hb : b = k
    · subst hb
      rw [Function.update_self, if_neg (Option.some_ne_none v)] at h
      cases h
    · rwa [Function.update_of_ne hb] at h

/-- What stays is told apart from what is still to be replaced, and from the values that are still to come. -/
structure Fresh (ps : List (Piece κ β)) (val : κ → Option (List β)) (args : List (κ × List β)) : Prop where
  holes : ∀ q ∈ ps, ∀ m ∈ q.settled val, ∀ r ∈ ps, m ∉ r.unsettled val
  later : ∀ q ∈ ps, ∀ m ∈ q.settled val, ∀ a ∈ args, m ∉ a.2
  values : ∀ a ∈ args, ∀ m ∈ a.2, ∀ r ∈ ps, m ∉ r.unsettled val
  each : args.Pairwise fun a b => ∀ m ∈ a.2, m ∉ b.2

theorem Fresh.tail {a : κ × List β} (h : Fresh ps val (a :: args)) :
    Fresh ps (Function.update val a.1 (some a.2)) args := by
  obtain ⟨hhead, heach⟩ := List.pairwise_cons.mp h.each
  constructor
  · intro q hq m hm r hr hmr
    rcases mem_settled_update hm with hm | hm
    · exact h.values a List.mem_cons_self m hm r hr (mem_unsettled_of_update hmr)
    · exact h.holes q hq m hm r hr (mem_unsettled_of_update hmr)
  · intro q hq m hm b hb
    rcases mem_settled_update hm with hm | hm
    · exact hhead b hb m hm
    · exact h.later q hq m hm b (List.mem_cons_of_mem a hb)
  · intro b hb m hm r hr hmr
    exact h.values b (List.mem_cons_of_mem a hb) m hm r hr (mem_unsettled_of_update hmr)
  · exact heach

theorem ownOnly_of_kept (hp : ∀ k, p k ≠ []) (hholes : Holes f p ps) (hapart : ∀ b t, Piece.hole b t ∈ ps → Apart p k b)
    (hval : val k = none) (hkept : ∀ q ∈ ps, ∀ m ∈ q.settled val, m ∉ removed f (p k) 0 (fill val ps)) :
    OwnOnly f (p k) val k ps := by
  induction ps with
  | nil => exact trivial
  | cons q ps ih =>
    have hrest := ih (fun b t h => hholes b t (List.mem_cons_of_mem q h))
      fun b t h => hapart b t (List.mem_cons_of_mem q h)
    rw [fill_cons] at hkept
    by_cases hkey : q.key = some k
    · refine ⟨fun hne => absurd hkey hne, hrest fun r hr m hm hmem => ?_⟩
      obtain ⟨t, rfl⟩ : ∃ t, q = .hole k t := by
        cases q with
        | lit c => exact nomatch hkey
        | hole b t => exact ⟨t, by rw [Option.some.inj hkey]⟩
      apply hkept r (List.mem_cons_of_mem _ hr) m hm
      rw [Piece.text, hval, Option.getD_none, removed_append_of_eq (hp k) (hholes k t List.mem_cons_self)]
      exact List.mem_append_right t hmem
    · have hstart : NoStart f (p k) (q.text val) (fill val ps) := by
        by_cases hsettled : q.text val = q.settled val
        · apply noStart_of_removed
          intro m hm
          exact hkept q List.mem_cons_self m (hsettled ▸ hm)
        · obtain ⟨b, t, rfl, hb⟩ : ∃ b t, q = .hole b t ∧ val b = none := by
            cases q with
            | lit c => exact absurd rfl hsettled
            | hole b t =>
              refine ⟨b, t, rfl, ?_⟩
              cases hb : val b with
              | none => rfl
              | some w => exact absurd (by rw [Piece.text, Piece.settled, hb]; rfl) hsettled
          have hbk : k ≠ b := fun heq => hkey (congrArg some heq.symm)
          rw [Piece.text, hb, Option.getD_none]
          intro u v ht hv hprefix
          have ht' : p b = u.map f ++ v.map f := by
            rw [← hholes b t List.mem_cons_self, ht, List.map_append]
          rw [List.map_append] at hprefix
          exact hapart b t List.mem_cons_self hbk (u.map f) (v.map f) ht' (by simpa using hv) _ hprefix
      refine ⟨fun _ => hstart, hrest fun r hr m hm hmem => ?_⟩
      apply hkept r (List.mem_cons_of_mem _ hr) m hm
      rwa [removed_append hstart]

variable [DecidableEq β]

omit [DecidableEq κ] in
theorem count_loop_le (hm : ∀ a ∈ args, m ∉ a.2) (s : List β) : (loop f p args s).count m ≤ s.count m := by
  induction args generalizing s with
  | nil => exact le_refl _
  | cons a args ih =>
    have hstep : (replaceBy f (p a.1) a.2 0 s).count m + (removed f (p a.1) 0 s).count m = s.count m :=
      count_replaceBy (hm a List.mem_cons_self) 0 s
    have hrest := ih (fun b hb => hm b (List.mem_cons_of_mem a hb)) (replaceBy f (p a.1) a.2 0 s)
    rw [loop, List.foldl_cons]
    rw [loop] at hrest
    omega

theorem count_fill_le (hargs : Unfilled val args) (hm : ∀ r ∈ ps, m ∉ r.unsettled val) :
    (fill val ps).count m ≤ (fill (extend val args) ps).count m := by
  induction ps with
  | nil => exact le_refl _
  | cons q ps ih =>
    have hrest := ih fun r hr => hm r (List.mem_cons_of_mem q hr)
    have hhead : (q.text val).count m ≤ (q.text (extend val args)).count m := by
      cases q with
      | lit c => exact le_refl _
      | hole b t =>
        have hnone := hm _ List.mem_cons_self
        rw [Piece.unsettled] at hnone
        rw [Piece.text, Piece.text]
        cases hb : val b with
        | none =>
          rw [if_pos hb] at hnone
          rw [Option.getD_none, List.count_eq_zero_of_not_mem hnone]
          exact Nat.zero_le _
        | some w =>
          have hout : b ∉ args.map Prod.fst := by
            intro hmem
            obtain ⟨a, ha, rfl⟩ := List.mem_map.mp hmem
            rw [hargs.2 a ha] at hb
            cases hb
          rw [extend_of_not_mem hout, hb]
    rw [fill_cons, fill_cons, List.count_append, List.count_append]
    omega

omit [DecidableEq β] in
/-- **If the loop fills in all keys at once, each placeholder begins only where the template has it.** -/
theorem own_of_loop_eq (hp : ∀ k, p k ≠ []) (hholes : Holes f p ps) (hargs : Unfilled val args)
    (hapart : ∀ a ∈ args, ∀ b t, Piece.hole b t ∈ ps → Apart p a.1 b) (hfresh : Fresh ps val args)
    (h : loop f p args (fill val ps) = fill (extend val args) ps) : Own f p ps val args := by
  classical
  induction args generalizing val with
  | nil => exact trivial
  | cons a args ih =>
    have hval := hargs.2 a List.mem_cons_self
    have hown : OwnOnly f (p a.1) val a.1 ps := by
      refine ownOnly_of_kept hp hholes (hapart a List.mem_cons_self) hval fun q hq m hm hmem => ?_
      have hlater := hfresh.later q hq m hm
      have hstep : (replaceBy f (p a.1) a.2 0 (fill val ps)).count m +
          (removed f (p a.1) 0 (fill val ps)).count m = (fill val ps).count m :=
        count_replaceBy (hlater a List.mem_cons_self) 0 (fill val ps)
      have hremoved := List.count_pos_iff.mpr hmem
      have hloop := count_loop_le (f := f) (p := p) (fun b hb => hlater b (List.mem_cons_of_mem a hb))
        (replaceBy f (p a.1) a.2 0 (fill val ps))
      have hfill := count_fill_le hargs (hfresh.holes q hq m hm)
      rw [← h, loop, List.foldl_cons] at hfill
      rw [loop] at hloop
      omega
    refine ⟨hown, ih hargs.tail (fun b hb => hapart b (List.mem_cons_of_mem a hb)) hfresh.tail ?_⟩
    rwa [loop, List.foldl_cons, replaceBy_fill (hp a.1) hholes hval hown] at h

end Fresh

/-! ## What a search sees

Elements that look the same are the same to the loop and to the one pass. -/

section Looks

def mapValues (g : γ → β) (val : κ → Option (List γ)) : κ → Option (List β) := fun k => (val k).map (·.map g)

def mapArgs (g : γ → β) (args : List (κ × List γ)) : List (κ × List β) := args.map fun a => (a.1, a.2.map g)

variable {f : β → α} {p : κ → List α} (g : γ → β)

theorem mapValues_update (val : κ → Option (List γ)) (k : κ) (v : List γ) :
    mapValues g (Function.update val k (some v)) = Function.update (mapValues g val) k (some (v.map g)) := by
  funext b
  by_cases hb : b = k
  · subst hb
    rw [mapValues, Function.update_self, Function.update_self, Option.map_some]
  · rw [mapValues, Function.update_of_ne hb, Function.update_of_ne hb, mapValues]

theorem mapValues_extend (val : κ → Option (List γ)) (args : List (κ × List γ)) :
    mapValues g (extend val args) = extend (mapValues g val) (mapArgs g args) := by
  induction args generalizing val with
  | nil => rfl
  | cons a args ih =>
    rw [extend, List.foldl_cons, mapArgs, List.map_cons, extend, List.foldl_cons, ← mapValues_update]
    exact ih _

omit [DecidableEq κ] in
theorem map_loop (args : List (κ × List γ)) (s : List γ) :
    (loop (f ∘ g) p args s).map g = loop f p (mapArgs g args) (s.map g) := by
  induction args generalizing s with
  | nil => rfl
  | cons a args ih =>
    rw [loop, List.foldl_cons, mapArgs, List.map_cons, loop, List.foldl_cons, ← map_replaceBy]
    exact ih _

theorem map_onePass (args : List (κ × List γ)) (s : List γ) :
    (onePass (f ∘ g) p args s).map g = onePass f p (mapArgs g args) (s.map g) := by
  have hkeys : (mapArgs g args).map Prod.fst = args.map Prod.fst := by
    rw [mapArgs, List.map_map]
    rfl
  rw [onePass, map_fill, parse_map, onePass, hkeys]
  congr 1
  exact mapValues_extend g (fun _ => none) args

omit [DecidableEq α] [DecidableEq κ] in
theorem noStart_map {pat : List α} (x s : List γ) : NoStart f pat (x.map g) (s.map g) ↔ NoStart (f ∘ g) pat x s := by
  constructor
  · intro h u v hx hv hprefix
    apply h (u.map g) (v.map g) (by rw [hx, List.map_append]) (by simpa using hv)
    rwa [← List.map_append, List.map_map]
  · intro h u v hx hv hprefix
    obtain ⟨u, v, rfl, rfl, rfl⟩ := List.map_eq_append_iff.mp hx
    apply h u v rfl (by simpa using hv)
    rwa [← List.map_append, List.map_map] at hprefix

omit [DecidableEq α] [DecidableEq κ] in
theorem ownOnly_map {pat : List α} (val : κ → Option (List γ)) (k : κ) (ps : List (Piece κ γ)) :
    OwnOnly f pat (mapValues g val) k (ps.map (Piece.map g)) ↔ OwnOnly (f ∘ g) pat val k ps := by
  induction ps with
  | nil => exact Iff.rfl
  | cons q ps ih =>
    have hkey : (q.map g).key = q.key := by cases q <;> rfl
    have htext : (q.map g).text (mapValues g val) = (q.text val).map g := by
      have hone := map_fill g val [q]
      rw [fill_cons, fill_nil, List.append_nil, List.map_singleton, fill_cons, fill_nil, List.append_nil] at hone
      exact hone.symm
    rw [List.map_cons, OwnOnly, OwnOnly, hkey, htext, ih, ← noStart_map g, map_fill]
    rfl

omit [DecidableEq α] in
theorem own_map (ps : List (Piece κ γ)) (val : κ → Option (List γ)) (args : List (κ × List γ)) :
    Own f p (ps.map (Piece.map g)) (mapValues g val) (mapArgs g args) ↔ Own (f ∘ g) p ps val args := by
  induction args generalizing val with
  | nil => exact Iff.rfl
  | cons a args ih =>
    rw [mapArgs, List.map_cons, Own, Own, ownOnly_map, ← mapValues_update]
    exact and_congr_right fun _ => ih _

end Looks

/-! ## What the marks tell -/

section Literal

variable {p : κ → List α} {args order : List (κ × List α)} {s : List α}

/-- **The arguments, visited in this order, are filled in literally**: each character of the result, with the mark of
where it comes from, stands where the one pass over the template puts it. -/
def Literal (p : κ → List α) (args order : List (κ × List α)) (s : List α) : Prop :=
  loop Prod.fst p (markArgs order) (markTemplate κ s) = onePass Prod.fst p (markArgs args) (markTemplate κ s)

omit [DecidableEq κ] in
theorem settled_or_unsettled (q : Piece κ β) :
    (∃ c, q = .lit c ∧ q.settled (fun _ => none) = q.text (fun _ => none) ∧ q.unsettled (fun _ => none) = []) ∨
      (∃ k t, q = .hole k t ∧ q.settled (fun _ => none) = [] ∧
        q.unsettled (fun _ => none) = q.text (fun _ => none)) := by
  cases q with
  | lit c => exact .inl ⟨c, rfl, rfl, rfl⟩
  | hole k t => exact .inr ⟨k, t, rfl, rfl, rfl⟩

omit [DecidableEq κ] in
/-- **The marks tell a template's own characters from those of the values.** -/
theorem fresh_parse (hp : ∀ k, p k ≠ []) (keys : List κ) (hnodup : (args.map Prod.fst).Nodup) :
    Fresh (parse Prod.fst p keys 0 (markTemplate κ s)) (fun _ => none) (markArgs args) := by
  have hfill : fill (fun _ => none) (parse Prod.fst p keys 0 (markTemplate κ s)) = markTemplate κ s :=
    fill_parse hp 0 (markTemplate κ s)
  generalize parse Prod.fst p keys 0 (markTemplate κ s) = ps at hfill ⊢
  have hmem : ∀ q ∈ ps, ∀ m ∈ q.text (fun _ => none), ∃ i, m.2 = Mark.template i := by
    intro q hq m hm
    have hin : m ∈ fill (fun _ => none) ps := List.mem_flatMap.mpr ⟨q, hq, hm⟩
    rw [hfill] at hin
    exact of_mem_markTemplate hin
  have hall : (fill (fun _ => none) ps).Nodup := hfill.symm ▸ nodup_markTemplate
  have hdisjoint := (List.nodup_flatMap.mp hall).2
  have hsymm : Std.Symm (Function.onFun List.Disjoint fun q : Piece κ (α × Mark κ) => q.text fun _ => none) :=
    ⟨fun _ _ h _ ha hb => h hb ha⟩
  constructor
  · intro q hq m hm r hr hmr
    rcases settled_or_unsettled q with ⟨c, rfl, hsettled, -⟩ | ⟨b, t, rfl, hsettled, -⟩
    · rcases settled_or_unsettled r with ⟨d, rfl, -, hnone⟩ | ⟨b, t, rfl, -, hunsettled⟩
      · exact absurd (hnone ▸ hmr) List.not_mem_nil
      · rw [hsettled] at hm
        rw [hunsettled] at hmr
        have hne : Piece.lit c ≠ .hole b t := nofun
        exact hdisjoint.forall hq hr hne hm hmr
    · exact absurd (hsettled ▸ hm) List.not_mem_nil
  · intro q hq m hm a ha hma
    obtain ⟨j, hj⟩ := of_mem_markArgs ha hma
    rcases settled_or_unsettled q with ⟨c, rfl, hsettled, -⟩ | ⟨b, t, rfl, hsettled, -⟩
    · obtain ⟨i, hi⟩ := hmem _ hq m (hsettled ▸ hm)
      exact nomatch hi.symm.trans hj
    · exact absurd (hsettled ▸ hm) List.not_mem_nil
  · intro a ha m hma r hr hmr
    obtain ⟨j, hj⟩ := of_mem_markArgs ha hma
    rcases settled_or_unsettled r with ⟨c, rfl, -, hnone⟩ | ⟨b, t, rfl, -, hunsettled⟩
    · exact absurd (hnone ▸ hmr) List.not_mem_nil
    · obtain ⟨i, hi⟩ := hmem _ hr m (hunsettled ▸ hmr)
      exact nomatch hi.symm.trans hj
  · have hkeys : ((markArgs args).map Prod.fst).Nodup := by rwa [keys_markArgs]
    refine (List.pairwise_map.mp hkeys).imp_of_mem fun {a b} ha hb hne m hma hmb => hne ?_
    obtain ⟨i, hi⟩ := of_mem_markArgs ha hma
    obtain ⟨j, hj⟩ := of_mem_markArgs hb hmb
    exact (Mark.argument.inj (hi.symm.trans hj)).1

omit [DecidableEq α] [DecidableEq κ] in
theorem unfilled_none {args : List (κ × List β)} (h : (args.map Prod.fst).Nodup) : Unfilled (fun _ => none) args :=
  ⟨h, fun _ _ => rfl⟩

theorem loop_eq_onePass {f : β → α} {args order : List (κ × List β)} {s : List β} (hp : ∀ k, p k ≠ [])
    (hnodup : (args.map Prod.fst).Nodup) (horder : order.Perm args)
    (hown : Own f p (parse f p (args.map Prod.fst) 0 s) (fun _ => none) order) :
    loop f p order s = onePass f p args s := by
  have hnodup' : (order.map Prod.fst).Nodup := (horder.map Prod.fst).nodup_iff.mpr hnodup
  have hloop := loop_eq_fill hp (holes_parse 0 s) (unfilled_none hnodup') hown
  rwa [fill_parse hp, extend_perm hnodup horder] at hloop

theorem own_marked_iff (keys : List κ) :
    Own Prod.fst p (parse Prod.fst p keys 0 (markTemplate κ s)) (fun _ => none) (markArgs order) ↔
      Own id p (parse id p keys 0 s) (fun _ => none) order := by
  have hmap := own_map (f := id) (p := p) (Prod.fst : α × Mark κ → α)
    (parse Prod.fst p keys 0 (markTemplate κ s)) (fun _ => none) (markArgs order)
  have hparse : (parse Prod.fst p keys 0 (markTemplate κ s)).map (Piece.map Prod.fst) =
      parse id p keys 0 ((markTemplate κ s).map Prod.fst) := parse_map (f := id) Prod.fst 0 (markTemplate κ s)
  rw [map_fst_markTemplate] at hparse
  exact hmap.symm.trans (by rw [← hparse, mapArgs, map_fst_markArgs]; rfl)

/-- **If each placeholder begins only where the template has it, the arguments are filled in literally.** -/
theorem literal_of_own (hp : ∀ k, p k ≠ []) (hnodup : (args.map Prod.fst).Nodup) (horder : order.Perm args)
    (hown : Own id p (parse id p (args.map Prod.fst) 0 s) (fun _ => none) order) : Literal p args order s := by
  apply loop_eq_onePass hp
  · rwa [keys_markArgs]
  · exact horder.map _
  · rw [keys_markArgs]
    exact (own_marked_iff _).mpr hown

/-- **Only then**, where placeholders do not overlap. -/
theorem own_of_literal (hp : ∀ k, p k ≠ []) (hnodup : (args.map Prod.fst).Nodup) (horder : order.Perm args)
    (hapart : ∀ a ∈ args, ∀ b ∈ args, Apart p a.1 b.1) (h : Literal p args order s) :
    Own id p (parse id p (args.map Prod.fst) 0 s) (fun _ => none) order := by
  have hnodup' : (order.map Prod.fst).Nodup := (horder.map Prod.fst).nodup_iff.mpr hnodup
  have hmarked : (markArgs order).Perm (markArgs args) := horder.map _
  rw [← own_marked_iff, ← keys_markArgs]
  apply own_of_loop_eq hp (holes_parse 0 _)
  · exact unfilled_none (by rwa [keys_markArgs])
  · intro a ha b t hb
    have ha' : a.1 ∈ (markArgs order).map Prod.fst := List.mem_map_of_mem ha
    have hb' := (hole_of_parse hb).1
    rw [keys_markArgs] at ha' hb'
    obtain ⟨x, hx, hxa⟩ := List.mem_map.mp ha'
    obtain ⟨y, hy, rfl⟩ := List.mem_map.mp hb'
    exact hxa ▸ hapart x (horder.mem_iff.mp hx) y hy
  · exact fresh_parse hp _ hnodup'
  · rw [fill_parse hp, extend_perm (by rwa [keys_markArgs]) hmarked]
    exact h

theorem loop_eq_of_literal (h : Literal p args order s) : loop id p order s = onePass id p args s := by
  have hloop := map_loop (f := id) (p := p) (Prod.fst : α × Mark κ → α) (markArgs order) (markTemplate κ s)
  have hpass := map_onePass (f := id) (p := p) (Prod.fst : α × Mark κ → α) (markArgs args) (markTemplate κ s)
  rw [mapArgs, map_fst_markArgs, map_fst_markTemplate] at hloop hpass
  exact hloop.symm.trans ((congrArg (List.map Prod.fst) h).trans hpass)

end Literal

/-! ## Keys between delimiters -/

/-- A key between so many delimiters. -/
def around (n : ℕ) (o c : α) (k : List α) : List α := List.replicate n o ++ (k ++ List.replicate n c)

section Around

omit [DecidableEq α] [DecidableEq κ]

variable {n : ℕ} {o c : α} {e : κ → List α} {k b : κ}

/-- **Placeholders of keys without delimiters do not overlap.** -/
theorem apart_around (hn : 0 < n) (hoc : o ≠ c) (he : Function.Injective e) (hk : c ∉ e k) (hob : o ∉ e b)
    (hcb : c ∉ e b) : Apart (fun k => around n o c (e k)) k b := by
  rintro hne u v huv hv s ⟨z, hz⟩
  dsimp only at huv hz
  have hwhole : u ++ (around n o c (e k) ++ z) = around n o c (e b) ++ s := by
    rw [hz, ← List.append_assoc, ← huv]
  cases hu : u with
  | nil =>
    obtain ⟨m, rfl⟩ := Nat.exists_eq_add_one_of_ne_zero hn.ne'
    rw [hu, List.nil_append, around, around, List.append_assoc, List.append_assoc, List.append_assoc,
      List.append_assoc] at hwhole
    have hrest := List.append_cancel_left hwhole
    rw [List.replicate_succ, List.cons_append, List.cons_append] at hrest
    exact hne (he (eq_of_append_cons hk hcb hrest).1)
  | cons d u' =>
    have hlen : u.length < (around n o c (e b)).length := by
      have hpos := List.length_pos_of_ne_nil hv
      rw [huv, List.length_append]
      omega
    have hupos : 0 < u.length := by rw [hu]; exact Nat.succ_pos _
    rw [around, List.length_append, List.length_replicate, List.length_append, List.length_replicate] at hlen
    -- the element behind the opening delimiters, or the first of the rest if that is later
    have hleft : (u ++ (around n o c (e k) ++ z))[max n u.length]? = some o := by
      rw [List.getElem?_append_right (le_max_right _ _), around, List.append_assoc,
        List.getElem?_append_left (by rw [List.length_replicate]; omega), List.getElem?_replicate, if_pos (by omega)]
    have hright : ∃ y ∈ e b ++ List.replicate n c,
        (around n o c (e b) ++ s)[max n u.length]? = some y := by
      have hin : max n u.length - n < (e b ++ List.replicate n c).length := by
        rw [List.length_append, List.length_replicate]
        omega
      refine ⟨_, List.getElem_mem hin, ?_⟩
      rw [around, List.append_assoc, List.getElem?_append_right (by rw [List.length_replicate]; omega),
        List.length_replicate, List.getElem?_append_left hin, List.getElem?_eq_getElem hin]
    obtain ⟨y, hy, hright⟩ := hright
    obtain rfl : o = y := Option.some.inj (hleft.symm.trans (hwhole ▸ hright))
    rcases List.mem_append.mp hy with hy | hy
    · exact hob hy
    · exact hoc (List.eq_of_mem_replicate hy)

end Around

end Lib.Template
