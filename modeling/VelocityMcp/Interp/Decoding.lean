import VelocityMcp.Interp.EntryPoints

/-!
# Interp.Decoding — the arguments of a binary call

`answered_iff`: for which buffers a call reads its buffer only, and answers as it should.
-/

namespace VelocityMcp

open Lib Chained

/-- No key has a NUL in it, but for those inside members whose key comes again. -/
inductive Tlv.KeysClean : Tlv → Prop
  | string (t : Bytes) : KeysClean (string t)
  | int (i : Int64) : KeysClean (int i)
  | bool (b : UInt8) : KeysClean (bool b)
  | null : KeysClean null
  | array {items : List Tlv} (item : ∀ t ∈ items, KeysClean t) : KeysClean (array items)
  | object {entries : List (Bytes × Tlv)} (key : ∀ e ∈ entries, 0 ∉ e.1)
      (member : ∀ k t, lookup k entries.reverse = some t → KeysClean t) : KeysClean (object entries)
  | float (bits : UInt64) : KeysClean (float bits)

namespace Interp

/-- What a value on the wire stands for.  Of the members of one key, the last counts. -/
inductive Stands : Tlv → Val → Prop
  | string (t : Bytes) : Stands (.string t) (.string t)
  | int (i : Int64) : Stands (.int i) (.number (doubleOfInt i))
  | bool (b : UInt8) : Stands (.bool b) (.bool (b != 0))
  | null : Stands .null .null
  | array {items : List Tlv} {vs : List Val} (length : items.length = vs.length)
      (item : ∀ (i : ℕ) t v, items[i]? = some t → vs[i]? = some v → Stands t v) : Stands (.array items) (.array vs)
  | object {members : List (Bytes × Tlv)} {entries : List (Bytes × Val)}
      (found : ∀ k, (lookup k members.reverse).isSome = (lookup k entries).isSome)
      (member : ∀ k t v, lookup k members.reverse = some t → lookup k entries = some v → Stands t v) :
      Stands (.object members) (.map entries)
  | float (bits : UInt64) : Stands (.float bits) (.number bits)

/-- A scope in which the members are bound, over the builtins. -/
def Binds (members : List (Bytes × Tlv)) (scope : List (Bytes × Val)) : Prop :=
  ∀ k, match lookup k members.reverse with
    | some t => ∃ v, lookup k scope = some v ∧ Stands t v
    | none => lookup k scope = lookup k builtinScope

/-! ## Tables of C strings -/

section Tables

variable {ν : Type} {k : Bytes} {new es : List (Bytes × ν)}

theorem mapSetAll_eq (new es : List (Bytes × ν)) :
    mapSetAll new es = enterAll bucketOf (new.map fun e => (cString e.1, e.2)) es := by
  rw [mapSetAll, enterAll, List.foldl_map]
  rfl

theorem map_cString_eq_self (h : ∀ e ∈ new, 0 ∉ e.1) : (new.map fun e => (cString e.1, e.2)) = new := by
  refine (List.map_congr_left (g := id) fun e he => ?_).trans (List.map_id new)
  rw [cString_eq_self.mpr (h e he)]
  rfl

/-- **What is bound after several members**, if their keys are not cut. -/
theorem lookup_mapSetAll (h : ∀ e ∈ new, 0 ∉ e.1) :
    lookup k (mapSetAll new es) = (lookup k new.reverse).or (lookup k es) := by
  rw [mapSetAll_eq, map_cString_eq_self h, lookup_enterAll]

theorem mem_keys_mapSetAll : k ∈ keys (mapSetAll new es) ↔ (∃ e ∈ new, cString e.1 = k) ∨ k ∈ keys es := by
  rw [mapSetAll_eq, mem_keys_enterAll]
  simp [keys]

theorem lookup_mapSetAll_of_nul (h : 0 ∈ k) (hes : lookup k es = none) : lookup k (mapSetAll new es) = none := by
  rw [lookup_eq_none] at hes ⊢
  rw [mem_keys_mapSetAll]
  rintro (⟨e, -, rfl⟩ | hmem)
  · exact zero_notMem_cString _ h
  · exact hes hmem

theorem nodup_mapSetAll (h : (keys es).Nodup) : (keys (mapSetAll new es)).Nodup := by
  rw [mapSetAll_eq]
  exact nodup_enterAll h

theorem notMem_of_mem_mapSetAll {e : Bytes × ν} (h : e ∈ mapSetAll new []) : 0 ∉ e.1 := by
  rcases mem_keys_mapSetAll.mp (List.mem_map_of_mem (f := Prod.fst) h) with ⟨f, -, hf⟩ | h
  · rw [← hf]
    exact zero_notMem_cString _
  · cases h

end Tables

theorem ofItems_eq_map (ts : List Tlv) : Val.ofItems ts = ts.map Val.ofTlv := by
  induction ts with
  | nil => rfl
  | cons t ts ih => rw [Val.ofItems, ih, List.map_cons]

theorem ofEntries_eq_map (es : List (Bytes × Tlv)) : Val.ofEntries es = es.map fun e => (e.1, Val.ofTlv e.2) := by
  induction es with
  | nil => rfl
  | cons e es ih =>
    obtain ⟨k, t⟩ := e
    rw [Val.ofEntries, ih, List.map_cons]

theorem lookup_map {ν ν' : Type} (f : ν → ν') (k : Bytes) (es : List (Bytes × ν)) :
    lookup k (es.map fun e => (e.1, f e.2)) = (lookup k es).map f := by
  induction es with
  | nil => rfl
  | cons e es ih =>
    rw [List.map_cons, lookup_cons, lookup_cons, ih]
    split_ifs
    · rfl
    · rfl

theorem lookup_ofEntries {k : Bytes} {es : List (Bytes × Tlv)} (h : ∀ e ∈ es, 0 ∉ e.1) :
    lookup k (mapSetAll (Val.ofEntries es) []) = (lookup k es.reverse).map Val.ofTlv := by
  have hkeys : ∀ e ∈ Val.ofEntries es, 0 ∉ e.1 := by
    rw [ofEntries_eq_map]
    intro e he
    obtain ⟨f, hf, rfl⟩ := List.mem_map.mp he
    exact h f hf
  rw [lookup_mapSetAll hkeys, ofEntries_eq_map, ← List.map_reverse, lookup_map, lookup_nil, Option.or_none]

theorem isSome_lookup_of_mem {ν : Type} {es : List (Bytes × ν)} {e : Bytes × ν} (h : e ∈ es) :
    (lookup e.1 es.reverse).isSome := by
  rw [Option.isSome_iff_ne_none, Ne, lookup_eq_none, not_not, keys_reverse, List.mem_reverse]
  exact List.mem_map_of_mem h

/-- **The decoder makes the value that is meant**, if and only if no key is cut. -/
theorem stands_ofTlv (t : Tlv) : Stands t (.ofTlv t) ↔ t.KeysClean := by
  induction t using Tlv.ind with
  | string t => exact iff_of_true (.string t) (.string t)
  | int i => exact iff_of_true (.int i) (.int i)
  | bool b => exact iff_of_true (.bool b) (.bool b)
  | null => exact iff_of_true .null .null
  | float bits => exact iff_of_true (.float bits) (.float bits)
  | array items ih =>
    rw [Val.ofTlv, ofItems_eq_map]
    constructor
    · rintro (_ | _ | _ | _ | ⟨hlength, hitem⟩)
      refine .array fun t ht => (ih t ht).mp ?_
      obtain ⟨i, hi⟩ := List.getElem?_of_mem ht
      exact hitem i t (.ofTlv t) hi (by rw [List.getElem?_map, hi]; rfl)
    · rintro (_ | _ | _ | _ | hitem)
      refine .array (List.length_map _).symm fun i t v ht hv => ?_
      rw [List.getElem?_map, ht] at hv
      obtain rfl := Option.some.inj hv
      exact (ih t (List.mem_of_getElem? ht)).mpr (hitem t (List.mem_of_getElem? ht))
  | object es ih =>
    have hmem : ∀ {k t}, lookup k es.reverse = some t → (k, t) ∈ es := fun h =>
      List.mem_reverse.mp (mem_of_lookup h)
    rw [Val.ofTlv]
    constructor
    · rintro (_ | _ | _ | _ | _ | ⟨hfound, hmember⟩)
      have hclean : ∀ e ∈ es, 0 ∉ e.1 := fun e he hnul => by
        have hsome := hfound e.1
        rw [isSome_lookup_of_mem he, lookup_mapSetAll_of_nul hnul lookup_nil] at hsome
        cases hsome
      refine .object hclean fun k t ht => (ih (k, t) (hmem ht)).mp (hmember k t _ ht ?_)
      rw [lookup_ofEntries hclean, ht]
      rfl
    · rintro (_ | _ | _ | _ | _ | ⟨hclean, hmember⟩)
      refine .object (fun k => ?_) fun k t v ht hv => ?_
      · rw [lookup_ofEntries hclean, Option.isSome_map]
      · rw [lookup_ofEntries hclean, ht] at hv
        obtain rfl := Option.some.inj hv
        exact (ih (k, t) (hmem ht)).mpr (hmember k t ht)

theorem lookup_builtinScope_of_nul {k : Bytes} (h : 0 ∈ k) : lookup k builtinScope = none := by
  unfold builtinScope
  apply lookup_mapSetAll_of_nul h
  exact lookup_nil

theorem lookup_callScope (k : Bytes) (members : List (Bytes × Val)) :
    lookup k (callScope (.map (mapSetAll members []))) =
      (lookup k (mapSetAll members [])).or (lookup k builtinScope) := by
  unfold callScope
  generalize builtinScope = base
  rw [lookup_mapSetAll fun e he => notMem_of_mem_mapSetAll he,
    lookup_reverse (@nodup_mapSetAll _ _ [] List.nodup_nil)]

/-- **Exactly the members are bound**, if and only if no key is cut. -/
theorem binds_iff (es : List (Bytes × Tlv)) :
    Binds es (callScope (.ofTlv (.object es))) ↔ (Tlv.object es).KeysClean := by
  rw [Val.ofTlv]
  constructor
  · intro hbinds
    have hclean : ∀ e ∈ es, 0 ∉ e.1 := fun e he hnul => by
      obtain ⟨t, ht⟩ := Option.isSome_iff_exists.mp (isSome_lookup_of_mem he)
      have hbound := hbinds e.1
      rw [ht] at hbound
      obtain ⟨v, hv, -⟩ := hbound
      rw [lookup_callScope, lookup_mapSetAll_of_nul hnul lookup_nil, lookup_builtinScope_of_nul hnul] at hv
      cases hv
    refine .object hclean fun k t ht => (stands_ofTlv t).mp ?_
    have hbound := hbinds k
    rw [ht] at hbound
    obtain ⟨v, hv, hstands⟩ := hbound
    rw [lookup_callScope, lookup_ofEntries hclean, ht] at hv
    obtain rfl := Option.some.inj hv
    exact hstands
  · rintro (_ | _ | _ | _ | _ | ⟨hclean, hmember⟩)
    intro k
    rw [lookup_callScope, lookup_ofEntries hclean]
    cases ht : lookup k es.reverse with
    | none => exact Option.none_or
    | some t => exact ⟨_, rfl, (stands_ofTlv t).mpr (hmember k t ht)⟩

/-! ## What a buffer decodes to -/

theorem readBe_cons (c : UInt8) (r : Bytes) :
    TlvParser.readBe 1 ⟨c :: r, 0, 0, none⟩ = .done (c.toNat, ⟨c :: r, 1, 0, none⟩) :=
  (readBe_tag (p := ⟨c :: r, 0, 0, none⟩) (r := r) rfl).1

theorem decodeTlv_object (r : Bytes) : ∃ entries p, decodeTlv (0x06 :: r) = .done (.map entries, p) := by
  obtain ⟨count, q, hcount⟩ := readBe_done 4 ⟨0x06 :: r, 1, 0, none⟩
  obtain ⟨entries, p, hentries⟩ := @decodeMembers_done (decodeValue maxDepth) (decodeValue_done _) count [] q
  refine ⟨entries, p, ?_⟩
  rw [decodeTlv, decodeValue, readBe_cons, Run.done_bind]
  show TlvParser.readBe 4 _ >>= _ = _
  rw [hcount, Run.done_bind]
  show decodeMembers _ count [] q >>= _ = _
  rw [hentries, Run.done_bind]

theorem decodeTlv_other {tlv : Bytes} (h : tlv.head? ≠ some 0x06) :
    ∃ v p, decodeTlv tlv = .done (v, p) ∧ ∀ entries, v ≠ .map entries := by
  obtain ⟨tag, q, hread, htag⟩ : ∃ tag q, TlvParser.readBe 1 ⟨tlv, 0, 0, none⟩ = .done (tag, q) ∧ tag ≠ 6 := by
    cases tlv with
    | nil => exact ⟨0, _, rfl, by decide⟩
    | cons c r =>
      refine ⟨_, _, readBe_cons c r, fun heq => h ?_⟩
      have hc : c = 0x06 := UInt8.toNat_inj.mp heq
      rw [hc]
      rfl
  have hstring : ∃ s p, decodeString q = .done (.string s, p) := by
    obtain ⟨len, q', hq'⟩ := readBe_done 4 q
    rw [decodeString, hq', Run.done_bind]
    dsimp only
    split_ifs with hlong hshort
    · exact ⟨_, _, rfl⟩
    · exact ⟨_, _, rfl⟩
    · exact ⟨_, _, by rw [bytesAt, if_pos (Nat.not_lt.mp hshort)]; rfl⟩
  obtain ⟨long, q₈, hq₈⟩ := readBe_done 8 q
  obtain ⟨byte, q₁, hq₁⟩ := readBe_done 1 q
  obtain ⟨count, q₄, hq₄⟩ := readBe_done 4 q
  rw [decodeTlv, decodeValue, hread, Run.done_bind]
  dsimp only
  split
  · obtain ⟨s, p, hs⟩ := hstring
    exact ⟨_, _, hs, fun _ h => by cases h⟩
  · exact ⟨_, _, by rw [hq₈]; rfl, fun _ h => by cases h⟩
  · exact ⟨_, _, by rw [hq₁]; rfl, fun _ h => by cases h⟩
  · exact ⟨_, _, rfl, fun _ h => by cases h⟩
  · obtain ⟨vs, p, hvs⟩ := @decodeItems_done (decodeValue maxDepth) (decodeValue_done _) count q₄
    exact ⟨_, _, by rw [hq₄, Run.done_bind, hvs]; rfl, fun _ h => by cases h⟩
  · exact absurd rfl htag
  · exact ⟨_, _, by rw [hq₈]; rfl, fun _ h => by cases h⟩
  · exact ⟨_, _, rfl, fun _ h => by cases h⟩

/-- The buffer is the encoding of this object, which keeps the decoder's limits. -/
structure Encodes (tlv : Bytes) (members : List (Bytes × Tlv)) : Prop where
  bytes : tlv = (Tlv.object members).bytes
  limits : (Tlv.object members).Limits (maxDepth + 1)
  elements : (Tlv.object members).elements ≤ maxElements

theorem Encodes.decodeTlv {tlv : Bytes} {members : List (Bytes × Tlv)} (h : Encodes tlv members) :
    ∃ p, decodeTlv tlv = .done (.ofTlv (.object members), p) := by
  have hread := decodeValue_bytes h.limits ⟨tlv, 0, 0, none⟩ [] (by rw [List.append_nil, ← h.bytes]; rfl)
    (by rw [Nat.zero_add]; exact h.elements)
  exact ⟨_, hread⟩

/-! ## What a call does with a buffer -/

section Calls

variable {σ : Type} {numberText : NumberText} {eval : Evaluator σ} {g : Interpreter σ} {tlv : Bytes}

/-- The reply says that the arguments could not be decoded. -/
def CallEnd.ReportsDecodeError (e : CallEnd σ) : Prop :=
  e.status = some (-1) ∧ e.interpreter.output = Interpreter.decodeFailed.take 40

/-- The tool runs with exactly the members bound that the buffer encodes, or it does not run and the reply says why. -/
def Answered (source tlv : Bytes) (e : CallEnd σ) : Prop :=
  (∃ members scope, Encodes tlv members ∧ e.ran = some (source, scope) ∧ Binds members scope) ∨
    (e.ran = none ∧ e.ReportsDecodeError)

/-- **A binary call reads its buffer only, and answers as it should** exactly if the buffer starts with no object, or is
the encoding of an object within the limits, none of whose keys is cut. -/
theorem answered_iff (numberText : NumberText) (eval : Evaluator σ) {g : Interpreter σ} (hinit : g.initialized = true)
    (hsource : g.toolSource ≠ []) (tlv : Bytes) :
    ∃ e, g.callToolBinary numberText eval tlv = .done e ∧ (Answered (cString g.toolSource) tlv e ↔
      tlv.head? ≠ some 0x06 ∨ ∃ members, Encodes tlv members ∧ (Tlv.object members).KeysClean) := by
  by_cases hhead : tlv.head? = some 0x06
  · obtain ⟨r, rfl⟩ := List.head?_eq_some_iff.mp hhead
    obtain ⟨entries, p, hdecode⟩ := decodeTlv_object r
    obtain ⟨e, he, hran⟩ := @execRegisteredTool_done _ numberText eval (g.reset.withFault p) hsource
      (callScope (.map entries))
    refine ⟨e, (callToolBinary_map hinit hdecode).trans he, ?_⟩
    -- the scope is that of the object, if it is the encoding of one
    have hscope : ∀ members, Encodes (0x06 :: r) members → Val.map entries = .ofTlv (.object members) := by
      intro members hmembers
      obtain ⟨p', hp'⟩ := hmembers.decodeTlv
      rw [hdecode] at hp'
      exact (Prod.mk.inj (Run.done.inj hp')).1
    constructor
    · rintro (⟨members, scope, hmembers, hscope', hbinds⟩ | ⟨hnone, -⟩)
      · rw [hran] at hscope'
        obtain rfl := (Prod.mk.inj (Option.some.inj hscope')).2
        rw [hscope members hmembers, binds_iff] at hbinds
        exact Or.inr ⟨members, hmembers, hbinds⟩
      · rw [hran] at hnone
        cases hnone
    · rintro (hne | ⟨members, hmembers, hclean⟩)
      · exact absurd hhead hne
      · refine Or.inl ⟨members, _, hmembers, hran, ?_⟩
        rw [hscope members hmembers, binds_iff]
        exact hclean
  · obtain ⟨v, p, hdecode, hv⟩ := decodeTlv_other hhead
    exact ⟨_, callToolBinary_other hinit hdecode hv, iff_of_true (Or.inr ⟨rfl, rfl, rfl⟩) (Or.inl hhead)⟩

/-! ### Two buffers -/

/-- A library that prints numbers, and a tool that asks for a variable and does nothing with it. -/
def printDigit : NumberText := ⟨fun _ => [0x30], fun _ => List.cons_ne_nil _ _, fun _ => by decide⟩

def asksOnly : Evaluator Unit := fun _ _ _ => ⟨false, none, none, [], ()⟩

def asking : Interpreter Unit := ⟨true, utf8 "a", none, none, [], ()⟩

/-- The arguments are an object with one entry. -/
theorem answered_iff_one : ∃ e, asking.callToolBinary printDigit asksOnly (Tlv.object [([0x61], .int 1)]).bytes =
    .done e ∧ Answered (cString asking.toolSource) (Tlv.object [([0x61], .int 1)]).bytes e := by
  have hsource : asking.toolSource ≠ [] := by decide +kernel
  obtain ⟨e, he, hiff⟩ := answered_iff printDigit asksOnly (g := asking) rfl hsource
    (Tlv.object [([0x61], .int 1)]).bytes
  refine ⟨e, he, hiff.mpr (Or.inr ⟨[([0x61], .int 1)], ⟨rfl, ?_, by decide⟩, ?_⟩)⟩
  · exact .object (by decide) (List.forall_mem_singleton.mpr (by decide)) (List.forall_mem_singleton.mpr (.int 1))
  · refine .object (List.forall_mem_singleton.mpr (by decide)) fun k t ht => ?_
    obtain ⟨-, rfl⟩ := Prod.mk.inj (List.mem_singleton.mp (mem_of_lookup ht))
    exact .int 1

/-- Only the tag of an object: the tool runs, without arguments. -/
theorem truncated_answered :
    ∃ e, asking.callToolBinary printDigit asksOnly [0x06] = .done e ∧
      e.ran = some (cString asking.toolSource, callScope (.map [])) ∧ e.status = some 0 ∧
      ¬ Answered (cString asking.toolSource) [0x06] e := by
  refine ⟨⟨asking, some 0, some (cString asking.toolSource, callScope (.map []))⟩, rfl, rfl, rfl, ?_⟩
  rintro (⟨members, scope, hmembers, -⟩ | ⟨hnone, -⟩)
  · have hlength := congrArg List.length hmembers.bytes
    rw [Tlv.length_bytes_object, List.length_singleton] at hlength
    omega
  · cases hnone

end Calls

end Interp

end VelocityMcp
