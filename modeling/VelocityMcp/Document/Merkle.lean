import VelocityMcp.Lib.Delimited
import VelocityMcp.Lib.HashTree
import VelocityMcp.Document.Executor

/-!
# Document.Merkle — what a Merkle root says of the triples (`nda_document.rs`)

`merkle_confused`: the same root for different triples, without a collision.
-/

namespace VelocityMcp.Document

open Lib

/-! ## The levels as a tree -/

section Tree

variable (sha256 : Bytes → Bytes)

def nodeHash (a b : Bytes) : Bytes := sha256 (a ++ b)

theorem merkleLevel_eq : ∀ level : List Bytes, merkleLevel sha256 level = pairUp (nodeHash sha256) level
  | [] => rfl
  | [_] => rfl
  | a :: b :: level => by
    rw [merkleLevel, merkleLevel_eq level]
    rfl

theorem merkleLoop_eq (level : List Bytes) : merkleLoop sha256 level = reduce (nodeHash sha256) level := by
  induction level using merkleLoop.induct sha256 with
  | case1 level h ih => rw [merkleLoop, if_pos h, ih, reduce_of_lt h, merkleLevel_eq]
  | case2 level h => rw [merkleLoop, if_neg h, reduce_of_le h]

end Tree

theorem merkleTop_singleton (sha256 : Bytes → Bytes) (a : Bytes) : merkleTop sha256 [a] = .ok a := by
  rw [merkleTop, if_neg (List.cons_ne_nil _ _), merkleLoop_eq, reduce_singleton]
  rfl

theorem merkleTop_pair (sha256 : Bytes → Bytes) (a b : Bytes) : merkleTop sha256 [a, b] = .ok (sha256 (a ++ b)) := by
  rw [merkleTop, if_neg (List.cons_ne_nil _ _), merkleLoop_eq, reduce_pair]
  rfl

/-! ## Triples and their renderings -/

/-- `format!("{}|{}|{}", s, p, o)`. -/
def rendering (t : String × String × String) : String := s!"{t.1}|{t.2.1}|{t.2.2}"

/-- The three texts of every triple, read back through their offsets. -/
def tripleTexts (doc : NdaDocument) : List SemanticTriple → Outcome String (List (String × String × String))
  | [] => .ok []
  | t :: ts => do
    let s ← doc.getString t.subjectOffset
    let p ← doc.getString t.predicateOffset
    let o ← doc.getString t.objectOffset
    let texts ← tripleTexts doc ts
    .ok ((s, p, o) :: texts)

def leafHash (sha256 : Bytes → Bytes) (t : String × String × String) : Bytes := sha256 (utf8 (rendering t))

def hashedNodes (sha256 : Bytes → Bytes) (texts : List (String × String × String)) : List Bytes :=
  (allPairs (nodeHash sha256) (texts.map (leafHash sha256))).map fun p => p.1 ++ p.2

def hashed (sha256 : Bytes → Bytes) (texts : List (String × String × String)) : List Bytes :=
  texts.map (fun t => utf8 (rendering t)) ++ hashedNodes sha256 texts

variable {sha256 : Bytes → Bytes} {doc doc' : NdaDocument} {texts texts' : List (String × String × String)}

theorem leaves_eq (ts : List SemanticTriple) :
    doc.leaves sha256 ts = tripleTexts doc ts >>= fun texts => .ok (texts.map (leafHash sha256)) := by
  induction ts with
  | nil => rfl
  | cons t ts ih =>
    rw [NdaDocument.leaves, tripleTexts, ih]
    simp only [Outcome.bind_bind, Outcome.ok_bind]
    rfl

theorem verifyMerkle_eq_ok_iff : doc.verifyMerkle sha256 = .ok () ↔ ∃ texts, tripleTexts doc doc.triples = .ok texts ∧
    merkleTop sha256 (texts.map (leafHash sha256)) = .ok doc.merkleRoot := by
  rw [NdaDocument.verifyMerkle, NdaDocument.recomputeMerkleRoot, leaves_eq, Outcome.bind_eq_ok]
  constructor
  · rintro ⟨computed, hcomputed, h⟩
    rw [Outcome.bind_eq_ok] at hcomputed
    obtain ⟨level, hlevel, htop⟩ := hcomputed
    rw [Outcome.bind_eq_ok] at hlevel
    obtain ⟨texts, htexts, hlevel⟩ := hlevel
    obtain rfl := Outcome.ok.inj hlevel
    split_ifs at h with heq
    exact ⟨texts, htexts, heq ▸ htop⟩
  · rintro ⟨texts, htexts, htop⟩
    refine ⟨doc.merkleRoot, ?_, if_pos rfl⟩
    rw [htexts, Outcome.ok_bind, Outcome.ok_bind, htop]

theorem tripleTexts_of_matches (doc : NdaDocument) {ts : List SemanticTriple}
    (h : List.Forall₂ (NdaCompiler.TripleMatches doc.stringPool) texts ts) : tripleTexts doc ts = .ok texts := by
  induction h with
  | nil => rfl
  | cons hm _ ih =>
    obtain ⟨hs, hp, ho⟩ := hm
    rw [tripleTexts, NdaDocument.getString_of_resolves hs, Outcome.ok_bind, NdaDocument.getString_of_resolves hp,
      Outcome.ok_bind, NdaDocument.getString_of_resolves ho, Outcome.ok_bind, ih, Outcome.ok_bind]

/-! ## The root and what is hashed for it -/

/-- The bytes of an input: the rendering of a triple, or two nodes next to each other. -/
def inputBytes : HashInput String Bytes → Bytes
  | .leaf s => utf8 s
  | .node a b => a ++ b

theorem map_inputBytes_leaf (sha256 : Bytes → Bytes) (texts : List (String × String × String)) :
    (texts.map rendering).map (fun s => sha256 (inputBytes (.leaf s))) = texts.map (leafHash sha256) := by
  rw [List.map_map]
  rfl

/-- The levels of the two functions as a hash tree. -/
theorem merkleTop_eq (hne : texts ≠ []) {root : Bytes} (h : merkleTop sha256 (texts.map (leafHash sha256)) = .ok root) :
    hashRoot (fun i => sha256 (inputBytes i)) (texts.map rendering) = [root] := by
  have hne' : texts.map (leafHash sha256) ≠ [] := fun hnil => hne (List.map_eq_nil_iff.mp hnil)
  obtain ⟨a, ha⟩ := exists_reduce_eq (f := nodeHash sha256) hne'
  rw [merkleTop, if_neg hne', merkleLoop_eq, ha] at h
  obtain rfl := Outcome.ok.inj h
  rw [hashRoot, map_inputBytes_leaf]
  exact ha

theorem mem_rootInputs_iff {i : HashInput String Bytes} :
    i ∈ rootInputs (fun i => sha256 (inputBytes i)) (texts.map rendering) ↔ (∃ t ∈ texts, i = .leaf (rendering t)) ∨
      ∃ p ∈ allPairs (nodeHash sha256) (texts.map (leafHash sha256)), i = .node p.1 p.2 := by
  rw [rootInputs, map_inputBytes_leaf, List.mem_append, List.map_map, List.mem_map, List.mem_map]
  constructor
  · rintro (⟨t, ht, rfl⟩ | ⟨p, hp, rfl⟩)
    · exact Or.inl ⟨t, ht, rfl⟩
    · exact Or.inr ⟨p, hp, rfl⟩
  · rintro (⟨t, ht, rfl⟩ | ⟨p, hp, rfl⟩)
    · exact Or.inl ⟨t, ht, rfl⟩
    · exact Or.inr ⟨p, hp, rfl⟩

theorem inputBytes_mem_hashed {i : HashInput String Bytes}
    (h : i ∈ rootInputs (fun i => sha256 (inputBytes i)) (texts.map rendering)) :
    inputBytes i ∈ hashed sha256 texts := by
  rw [hashed, hashedNodes, List.mem_append]
  rcases mem_rootInputs_iff.mp h with ⟨t, ht, rfl⟩ | ⟨p, hp, rfl⟩
  · exact Or.inl (List.mem_map_of_mem ht)
  · exact Or.inr (List.mem_map_of_mem hp)

/-- SHA-256 does not collide between two documents with these triples. -/
def CollisionFree (sha256 : Bytes → Bytes) (texts texts' : List (String × String × String)) : Prop :=
  ∀ b ∈ hashed sha256 texts, ∀ b' ∈ hashed sha256 texts', sha256 b = sha256 b' → b = b'

/-- There is no collision, no rendering of the one is a node's input of the other, and nothing that is hashed for them
has the root of a document without triples. -/
structure Separate (sha256 : Bytes → Bytes) (texts texts' : List (String × String × String)) : Prop where
  collisionFree : CollisionFree sha256 texts texts'
  leafNode : ∀ t ∈ texts, utf8 (rendering t) ∉ hashedNodes sha256 texts'
  nodeLeaf : ∀ t ∈ texts', utf8 (rendering t) ∉ hashedNodes sha256 texts
  nonZero : ∀ b ∈ hashed sha256 texts ++ hashed sha256 texts', sha256 b ≠ List.replicate 32 0

theorem merkleTop_nil {root : Bytes}
    (h : merkleTop sha256 (([] : List (String × String × String)).map (leafHash sha256)) = .ok root) :
    root = List.replicate 32 0 := by
  rw [merkleTop, List.map_nil, if_pos rfl] at h
  exact (Outcome.ok.inj h).symm

theorem root_ne_zero (hne : texts ≠ []) {root : Bytes} (h : merkleTop sha256 (texts.map (leafHash sha256)) = .ok root)
    (hzero : ∀ b ∈ hashed sha256 texts, sha256 b ≠ List.replicate 32 0) : root ≠ List.replicate 32 0 := by
  obtain ⟨i, hi, rfl⟩ := exists_input_of_hashRoot (merkleTop_eq hne h)
  exact hzero _ (inputBytes_mem_hashed hi)

theorem input_eq (hsha : ∀ b, (sha256 b).length = 32) (hsep : Separate sha256 texts texts')
    {i j : HashInput String Bytes}
    (hi : i ∈ rootInputs (fun i => sha256 (inputBytes i)) (texts.map rendering))
    (hj : j ∈ rootInputs (fun i => sha256 (inputBytes i)) (texts'.map rendering))
    (h : sha256 (inputBytes i) = sha256 (inputBytes j)) : i = j := by
  have hbytes := hsep.collisionFree _ (inputBytes_mem_hashed hi) _ (inputBytes_mem_hashed hj) h
  have hlen : ∀ ts : List (String × String × String), ∀ p ∈ allPairs (nodeHash sha256) (ts.map (leafHash sha256)),
      p.1.length = 32 ∧ p.2.length = 32 := by
    intro ts
    refine forall_mem_allPairs (P := fun a : Bytes => a.length = 32) (fun _ _ => hsha _) fun a ha => ?_
    obtain ⟨t, -, rfl⟩ := List.mem_map.mp ha
    exact hsha _
  rcases mem_rootInputs_iff.mp hi with ⟨t, ht, rfl⟩ | ⟨p, hp, rfl⟩
  · rcases mem_rootInputs_iff.mp hj with ⟨t', -, rfl⟩ | ⟨p', hp', rfl⟩
    · rw [utf8_injective hbytes]
    · exact absurd (List.mem_map.mpr ⟨p', hp', hbytes.symm⟩) (hsep.leafNode t ht)
  · rcases mem_rootInputs_iff.mp hj with ⟨t', ht', rfl⟩ | ⟨p', hp', rfl⟩
    · exact absurd (List.mem_map.mpr ⟨p, hp, hbytes⟩) (hsep.nodeLeaf t' ht')
    · have hfirst : p.1.length = p'.1.length := ((hlen texts p hp).1).trans ((hlen texts' p' hp').1).symm
      obtain ⟨h₁, h₂⟩ := List.append_inj hbytes hfirst
      rw [h₁, h₂]

theorem renderings_eq (hsha : ∀ b, (sha256 b).length = 32) (hsep : Separate sha256 texts texts') {root : Bytes}
    (h : merkleTop sha256 (texts.map (leafHash sha256)) = .ok root)
    (h' : merkleTop sha256 (texts'.map (leafHash sha256)) = .ok root) : texts.map rendering = texts'.map rendering := by
  have hzero := List.forall_mem_append.mp hsep.nonZero
  by_cases hne : texts = []
  · subst hne
    by_cases hne' : texts' = []
    · rw [hne']
    · exact absurd (merkleTop_nil h) (root_ne_zero hne' h' hzero.2)
  · by_cases hne' : texts' = []
    · subst hne'
      exact absurd (merkleTop_nil h') (root_ne_zero hne h hzero.1)
    · refine eq_of_root_eq (fun i hi j hj heq => input_eq hsha hsep hi hj heq) ?_
      rw [merkleTop_eq hne h, merkleTop_eq hne' h']

/-! ## Renderings of triples -/

theorem toList_rendering (t : String × String × String) :
    (rendering t).toList = t.1.toList ++ '|' :: (t.2.1.toList ++ '|' :: t.2.2.toList) := by
  simp only [rendering, toString, String.toList_append, List.append_assoc]
  rfl

/-- Subject and predicate have no `|`. -/
def Barless (t : String × String × String) : Prop := '|' ∉ t.1.toList ∧ '|' ∉ t.2.1.toList

instance (t : String × String × String) : Decidable (Barless t) := inferInstanceAs (Decidable (_ ∧ _))

theorem rendering_inj {t t' : String × String × String} (ht : Barless t) (ht' : Barless t')
    (h : rendering t = rendering t') : t = t' := by
  have hlist := congrArg String.toList h
  rw [toList_rendering, toList_rendering] at hlist
  obtain ⟨hs, hrest⟩ := eq_of_append_cons ht.1 ht'.1 hlist
  obtain ⟨hp, ho⟩ := eq_of_append_cons ht.2 ht'.2 hrest
  exact Prod.ext (String.toList_inj.mp hs) (Prod.ext (String.toList_inj.mp hp) (String.toList_inj.mp ho))

theorem eq_of_renderings_eq (htexts : ∀ t ∈ texts ++ texts', Barless t)
    (h : texts.map rendering = texts'.map rendering) : texts = texts' := by
  induction texts generalizing texts' with
  | nil => exact (List.map_eq_nil_iff.mp h.symm).symm
  | cons t texts ih =>
    cases texts' with
    | nil => exact absurd h (List.cons_ne_nil _ _)
    | cons t' texts' =>
      rw [List.map_cons, List.map_cons, List.cons.injEq] at h
      have hhead : t = t' := rendering_inj (htexts t (by simp)) (htexts t' (by simp)) h.1
      have htail : texts = texts' := by
        refine ih (fun u hu => htexts u ?_) h.2
        rcases List.mem_append.mp hu with hu | hu
        · exact List.mem_append_left _ (List.mem_cons_of_mem _ hu)
        · exact List.mem_append_right _ (List.mem_cons_of_mem _ hu)
      rw [hhead, htail]

/-! ## Documents of given triples -/

/-- Every list of triples that fits is that of a document, whatever its commands. -/
theorem exists_document (hsha : ∀ b, (sha256 b).length = 32) {texts : List (String × String × String)}
    {infos : List CommandInfo} (hlimits : WithinLimits texts infos) (hfits : ∀ t ∈ texts, NdaCompiler.TripleFits t) :
    ∃ bytes doc, NdaDocument.read bytes = .ok doc ∧ doc.verifyMerkle sha256 = .ok () ∧
      tripleTexts doc doc.triples = .ok texts ∧ merkleTop sha256 (texts.map (leafHash sha256)) = .ok doc.merkleRoot ∧
      doc.commands.length = infos.length := by
  obtain ⟨bytes, doc, -, hread, hroot, hts, hcs⟩ := hlimits.read_compiled hsha
  have htop : merkleTop sha256 (texts.map (leafHash sha256)) = .ok doc.merkleRoot := by
    rw [NdaCompiler.computeMerkleRoot, CompilerCall.triples_run, triplesOf_converterCalls] at hroot
    exact hroot
  have htexts : tripleTexts doc doc.triples = .ok texts :=
    tripleTexts_of_matches doc (((List.forall₂_and_left _ _).mpr ⟨hfits, hts⟩).imp fun _ _ h => h.2.matches h.1)
  exact ⟨bytes, doc, hread, verifyMerkle_eq_ok_iff.mpr ⟨texts, htexts, htop⟩, htexts, htop, hcs.length_eq.symm⟩

def Short (texts : List (String × String × String)) : Prop :=
  texts.length ≤ 10 ∧ ∀ t ∈ texts, (utf8 t.1).length ≤ 1000 ∧ (utf8 t.2.1).length ≤ 1000 ∧ (utf8 t.2.2).length ≤ 1000

instance (texts : List (String × String × String)) : Decidable (Short texts) := inferInstanceAs (Decidable (_ ∧ _))

theorem exists_short_document (hsha : ∀ b, (sha256 b).length = 32) (hshort : Short texts) (infos : List CommandInfo)
    (hinfos : infos = [] ∨ infos = [⟨1, 0, 0, 0, 0, 0, ""⟩]) :
    ∃ bytes doc, NdaDocument.read bytes = .ok doc ∧ doc.verifyMerkle sha256 = .ok () ∧
      tripleTexts doc doc.triples = .ok texts ∧ merkleTop sha256 (texts.map (leafHash sha256)) = .ok doc.merkleRoot ∧
      doc.commands.length = infos.length := by
  obtain ⟨hlen, hstrings⟩ := hshort
  have htexts : (texts.map fun t => entrySize t.1 + entrySize t.2.1 + entrySize t.2.2).sum ≤ texts.length * 3006 := by
    refine sum_map_le fun t ht => ?_
    obtain ⟨hs, hp, ho⟩ := hstrings t ht
    simp only [entrySize]
    omega
  have hcontents : (infos.map fun info => entrySize info.content).sum ≤ 2 := by
    rcases hinfos with rfl | rfl
    · decide
    · decide
  have hone : infos.length ≤ 1 := by
    rcases hinfos with rfl | rfl
    · decide
    · decide
  have htypes : ∀ info ∈ infos, 1 ≤ info.commandType ∧ info.commandType ≤ 4 := by
    rcases hinfos with rfl | rfl
    · exact fun _ hinfo => absurd hinfo List.not_mem_nil
    · rintro info (_ | ⟨_, hinfo⟩)
      · exact ⟨by decide, by decide⟩
      · exact absurd hinfo List.not_mem_nil
  have hmax : maxStringPoolSize = 100000000 := rfl
  refine exists_document hsha ⟨hlen.trans (by decide), hone.trans (by decide), htypes, by omega⟩ fun t ht => ?_
  obtain ⟨hs, hp, ho⟩ := hstrings t ht
  exact ⟨hs.trans (by decide), hp.trans (by decide), ho.trans (by decide)⟩

def pairTexts : List (String × String × String) := [("p", "q", "r"), ("s", "t", "u")]

def zeroDigest (_ : Bytes) : Bytes := List.replicate 32 0

theorem length_zeroDigest (b : Bytes) : (zeroDigest b).length = 32 := List.length_replicate

/-- SHA-256 of `p|q|r`. -/
def leafDigestP : Bytes :=
  [0x34, 0x9c, 0x36, 0x9d, 0x48, 0x87, 0xc6, 0x63, 0x4e, 0xc4, 0x8a, 0x36, 0x5b, 0xaa, 0xd2, 0x45, 0x84, 0x2f, 0xe8,
   0x37, 0x9d, 0x45, 0x59, 0x92, 0xe9, 0xef, 0xd7, 0x8c, 0xfc, 0xba, 0xba, 0x58]

/-- SHA-256 of `s|t|u`. -/
def leafDigestS : Bytes :=
  [0x7a, 0x53, 0x5a, 0x90, 0xb6, 0xdb, 0x75, 0xfa, 0xf3, 0xcf, 0x5f, 0x17, 0x4a, 0xb4, 0xb2, 0xa5, 0xb7, 0x60, 0x21,
   0x1b, 0x8c, 0xbd, 0xb6, 0xe1, 0xb4, 0x50, 0xb1, 0x09, 0x78, 0xdd, 0xb7, 0xc8]

/-- SHA-256 of these two digests, one behind the other. -/
def nodeDigest : Bytes :=
  [0xa5, 0x9f, 0xf2, 0xe8, 0x86, 0x14, 0xa1, 0x04, 0x63, 0x04, 0xab, 0x03, 0x51, 0xa5, 0x7f, 0xe0, 0x58, 0x0e, 0x84,
   0x46, 0x9d, 0xf1, 0x6a, 0x48, 0x2a, 0xc1, 0x58, 0x2b, 0x4b, 0x04, 0x72, 0x9a]

/-- The digests of the texts of `pairTexts`. -/
def pairDigest (b : Bytes) : Bytes :=
  if b = utf8 "p|q|r" then leafDigestP
  else if b = utf8 "s|t|u" then leafDigestS
  else if b = leafDigestP ++ leafDigestS then nodeDigest
  else zeroDigest b

theorem length_pairDigest (b : Bytes) : (pairDigest b).length = 32 := by
  unfold pairDigest
  split_ifs
  · rfl
  · rfl
  · rfl
  · exact length_zeroDigest b

/-! ## What a root binds -/

/-- **Verified documents with one root have the same renderings**, and so the same triples where no subject or predicate
has a `|` in it. -/
theorem merkle_binds (hsha : ∀ b, (sha256 b).length = 32) (hverify : doc.verifyMerkle sha256 = .ok ())
    (hverify' : doc'.verifyMerkle sha256 = .ok ()) (hroot : doc.merkleRoot = doc'.merkleRoot) :
    ∃ texts texts', tripleTexts doc doc.triples = .ok texts ∧ tripleTexts doc' doc'.triples = .ok texts' ∧
      (Separate sha256 texts texts' → texts.map rendering = texts'.map rendering ∧
        ((∀ t ∈ texts ++ texts', Barless t) → texts = texts')) := by
  obtain ⟨texts, htexts, htop⟩ := verifyMerkle_eq_ok_iff.mp hverify
  obtain ⟨texts', htexts', htop'⟩ := verifyMerkle_eq_ok_iff.mp hverify'
  refine ⟨texts, texts', htexts, htexts', fun hsep => ?_⟩
  have hrenderings := renderings_eq hsha hsep htop (hroot ▸ htop')
  exact ⟨hrenderings, fun hbar => eq_of_renderings_eq hbar hrenderings⟩

theorem hashedNodes_pairTexts (sha256 : Bytes → Bytes) : hashedNodes sha256 pairTexts =
    [leafHash sha256 ("p", "q", "r") ++ leafHash sha256 ("s", "t", "u")] := by
  have hleaves : pairTexts.map (leafHash sha256) =
      [leafHash sha256 ("p", "q", "r"), leafHash sha256 ("s", "t", "u")] := rfl
  rw [hashedNodes, hleaves, allPairs_pair]
  rfl

theorem hashed_pairTexts (sha256 : Bytes → Bytes) : hashed sha256 pairTexts =
    [utf8 (rendering ("p", "q", "r")), utf8 (rendering ("s", "t", "u")),
      leafHash sha256 ("p", "q", "r") ++ leafHash sha256 ("s", "t", "u")] := by
  rw [hashed, hashedNodes_pairTexts]
  rfl

theorem separate_pairTexts : Separate pairDigest pairTexts pairTexts where
  collisionFree := by
    rw [CollisionFree, hashed_pairTexts]
    decide +kernel
  leafNode := by
    rw [hashedNodes_pairTexts]
    decide +kernel
  nodeLeaf := by
    rw [hashedNodes_pairTexts]
    decide +kernel
  nonZero := by
    rw [hashed_pairTexts]
    decide +kernel

/-- Documents that differ in their commands only. -/
theorem merkle_binds_pair : ∃ doc doc' : NdaDocument, doc.commands.length ≠ doc'.commands.length ∧
    ∃ texts texts', tripleTexts doc doc.triples = .ok texts ∧ tripleTexts doc' doc'.triples = .ok texts' ∧
      texts.map rendering = texts'.map rendering ∧ texts = texts' := by
  have hshort : Short pairTexts := by decide +kernel
  obtain ⟨bytes, doc, -, hverify, htexts, htop, hcommands⟩ :=
    exists_short_document length_pairDigest hshort [] (Or.inl rfl)
  obtain ⟨bytes', doc', -, hverify', htexts', htop', hcommands'⟩ :=
    exists_short_document length_pairDigest hshort [⟨1, 0, 0, 0, 0, 0, ""⟩] (Or.inr rfl)
  rw [htop', Outcome.ok.injEq] at htop
  obtain ⟨texts, texts', h, h', hbinds⟩ := merkle_binds length_pairDigest hverify hverify' htop.symm
  refine ⟨doc, doc', by rw [hcommands, hcommands']; decide, texts, texts', h, h', ?_⟩
  rw [htexts, Outcome.ok.injEq] at h
  rw [htexts', Outcome.ok.injEq] at h'
  subst h h'
  obtain ⟨hrenderings, htriples⟩ := hbinds separate_pairTexts
  exact ⟨hrenderings, htriples (by decide +kernel)⟩

/-! ## Roots of more than one list -/

/-- Accepted and verified documents with one root and different triples, without a collision. -/
def Confused (sha256 : Bytes → Bytes) (texts texts' : List (String × String × String)) : Prop :=
  (∀ b, (sha256 b).length = 32) ∧ CollisionFree sha256 texts texts' ∧ texts ≠ texts' ∧
    ∃ bytes bytes' doc doc', NdaDocument.read bytes = .ok doc ∧ NdaDocument.read bytes' = .ok doc' ∧
      doc.verifyMerkle sha256 = .ok () ∧ doc'.verifyMerkle sha256 = .ok () ∧
      tripleTexts doc doc.triples = .ok texts ∧ tripleTexts doc' doc'.triples = .ok texts' ∧
      doc.merkleRoot = doc'.merkleRoot

theorem confused_of_root {root : Bytes} (hsha : ∀ b, (sha256 b).length = 32) (hshort : Short texts)
    (hshort' : Short texts') (hne : texts ≠ texts') (hfree : CollisionFree sha256 texts texts')
    (h : merkleTop sha256 (texts.map (leafHash sha256)) = .ok root)
    (h' : merkleTop sha256 (texts'.map (leafHash sha256)) = .ok root) : Confused sha256 texts texts' := by
  obtain ⟨bytes, doc, hread, hverify, htexts, htop, -⟩ := exists_short_document hsha hshort [] (Or.inl rfl)
  obtain ⟨bytes', doc', hread', hverify', htexts', htop', -⟩ := exists_short_document hsha hshort' [] (Or.inl rfl)
  refine ⟨hsha, hfree, hne, bytes, bytes', doc, doc', hread, hread', hverify, hverify', htexts, htexts', ?_⟩
  rw [htop, Outcome.ok.injEq] at h
  rw [htop', Outcome.ok.injEq] at h'
  rw [h, h']

def endDigest (b : Bytes) : Bytes := (b.reverse ++ List.replicate 32 97).take 32

theorem length_endDigest (b : Bytes) : (endDigest b).length = 32 := by
  rw [endDigest, List.length_take, List.length_append, List.length_replicate]
  omega

def joinedText : String × String × String :=
  ("r", "q", "paaaaaaaaaaaaaaaaaaaaaaaaaaau|t|saaaaaaaaaaaaaaaaaaaaaaaaaaa")

theorem utf8_joinedText : utf8 (rendering joinedText) =
    leafHash endDigest ("p", "q", "r") ++ leafHash endDigest ("s", "t", "u") := by decide

/-- One root: for a `|` in a subject or in a predicate, whatever the digest; for two triples and one that looks like
their digests; and for no triple and one whose digest is zero. -/
theorem merkle_confused :
    (∀ sha256, (∀ b, (sha256 b).length = 32) → Confused sha256 [("a|b", "c", "d")] [("a", "b|c", "d")]) ∧
    Confused endDigest pairTexts [joinedText] ∧ Confused zeroDigest [] [("a", "b", "c")] := by
  refine ⟨?_, ?_, ?_⟩
  · intro sha256 hsha
    have hsame : rendering ("a|b", "c", "d") = rendering ("a", "b|c", "d") := by decide +kernel
    refine confused_of_root hsha (by decide +kernel) (by decide +kernel) (by decide) ?_
      (merkleTop_singleton _ _) ?_
    · intro b hb b' hb' _
      simp only [hashed, hashedNodes, List.map_cons, List.map_nil, allPairs_singleton, List.append_nil,
        List.mem_singleton] at hb hb'
      rw [hb, hb', hsame]
    · rw [List.map_cons, List.map_nil, merkleTop_singleton, leafHash, leafHash, hsame]
  · refine confused_of_root length_endDigest (by decide +kernel) (by decide +kernel) (by decide) ?_
      (merkleTop_pair _ _ _) ?_
    · have hjoined : hashed endDigest [joinedText] = [utf8 (rendering joinedText)] := by
        rw [hashed, hashedNodes, List.map_cons, List.map_nil, List.map_cons, List.map_nil, allPairs_singleton]
        rfl
      rw [CollisionFree, hashed_pairTexts, hjoined]
      decide +kernel
    · rw [List.map_cons, List.map_nil, merkleTop_singleton, ← utf8_joinedText, leafHash]
  · refine confused_of_root length_zeroDigest (by decide +kernel) (by decide +kernel) (by decide) ?_ rfl
      (merkleTop_singleton _ _)
    intro b hb
    simp [hashed, hashedNodes] at hb

end VelocityMcp.Document
