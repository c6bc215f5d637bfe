import Mathlib.Data.List.Forall2
import VelocityMcp.Lib.Bytes

/-!
# NdaDocument — the NDA binary document (`nda_document.rs`)

`read_compile`: a compiled document reads back as what was added, and its Merkle root verifies.
-/

namespace VelocityMcp

open Lib

def documentMagic : ℕ := 0x3141444E

def headerSize : ℕ := 52

def tripleSize : ℕ := 12

def commandSize : ℕ := 17

/-- `MAX_TRIPLES`. -/
def maxTriples : ℕ := 1000000

/-- `MAX_COMMANDS`. -/
def maxCommands : ℕ := 1000000

/-- `MAX_STRING_POOL_SIZE`. -/
def maxStringPoolSize : ℕ := 100000000

/-- A triple of string pool offsets. -/
structure SemanticTriple where
  subjectOffset : UInt32
  predicateOffset : UInt32
  objectOffset : UInt32
deriving DecidableEq, Repr

/-- A command as it is stored, its content an offset into the string pool. -/
structure DisplayCommand where
  commandType : UInt8
  color : UInt32
  x : UInt16
  y : UInt16
  width : UInt16
  height : UInt16
  contentOffset : UInt32
deriving DecidableEq, Repr

/-- A document as it is read. -/
structure NdaDocument where
  flags : UInt32
  merkleRoot : Bytes
  triples : List SemanticTriple
  commands : List DisplayCommand
  stringPool : Bytes
deriving DecidableEq, Repr

/-- Eight hexadecimal digits, `{:08X}`. -/
def hex08 (n : ℕ) : String :=
  String.ofList ((List.range 8).reverse.map fun i => (Nat.digitChar (n / 16 ^ i % 16)).toUpper)

def hexEncode (b : Bytes) : String :=
  String.ofList (b.flatMap fun x => [(Nat.digitChar (x.toNat / 16)).toUpper, (Nat.digitChar (x.toNat % 16)).toUpper])

/-! ## Merkle root -/

section Merkle

variable (sha256 : Bytes → Bytes)

/-- The leaf of a triple: the hash of `subject|predicate|object`. -/
def merkleLeaf (s p o : String) : Bytes := sha256 (utf8 s!"{s}|{p}|{o}")

/-- The level above: pairs are hashed together, an odd node at the end is promoted. -/
def merkleLevel : List Bytes → List Bytes
  | a :: b :: level => sha256 (a ++ b) :: merkleLevel level
  | level => level

theorem length_merkleLevel_le : ∀ level : List Bytes, (merkleLevel sha256 level).length ≤ level.length
  | [] => by simp [merkleLevel]
  | [a] => by simp [merkleLevel]
  | a :: b :: level => by
    have ih := length_merkleLevel_le level
    simp only [merkleLevel, List.length_cons]
    omega

theorem length_merkleLevel_lt {level : List Bytes} (h : 1 < level.length) :
    (merkleLevel sha256 level).length < level.length := by
  rcases level with _ | ⟨a, _ | ⟨b, level⟩⟩
  · simp at h
  · simp at h
  · have hle := length_merkleLevel_le sha256 level
    simp only [merkleLevel, List.length_cons]
    omega

/-- `while current_level.len() > 1`. -/
def merkleLoop (level : List Bytes) : List Bytes :=
  if 1 < level.length then merkleLoop (merkleLevel sha256 level) else level
termination_by level.length
decreasing_by exact length_merkleLevel_lt sha256 ‹_›

/-- The root above the leaves; all zero without leaves. -/
def merkleTop (leaves : List Bytes) : Outcome String Bytes :=
  if leaves = [] then .ok (List.replicate 32 0)
  else match (merkleLoop sha256 leaves)[0]? with
    | some root => .ok root
    | none => .panic

end Merkle

/-! ## The compiler -/

/-- A command as it is given to the compiler, with its text. -/
structure CommandInfo where
  commandType : UInt8
  color : UInt32
  x : UInt16
  y : UInt16
  width : UInt16
  height : UInt16
  content : String
deriving DecidableEq, Repr

/-- Strings deduplicated into a pool whose offset 0 is the empty string. -/
structure NdaCompiler where
  triples : List (String × String × String)
  commands : List CommandInfo
  stringPool : List (String × UInt32)
  stringPoolData : Bytes
deriving DecidableEq, Repr

namespace NdaCompiler

/-- Offset 0 is reserved for the empty string. -/
def new : NdaCompiler := ⟨[], [], [("", 0)], leBytes 2 0⟩

def addTriple (c : NdaCompiler) (subject predicate object : String) : NdaCompiler :=
  { c with triples := c.triples ++ [(subject, predicate, object)] }

def addCommand (c : NdaCompiler) (info : CommandInfo) : NdaCompiler :=
  { c with commands := c.commands ++ [info] }

def poolEntry (s : String) : Bytes := leBytes 2 (utf8 s).length ++ utf8 s

def getOrAddString (c : NdaCompiler) (s : String) : UInt32 × NdaCompiler :=
  match c.stringPool.lookup s with
  | some offset => (offset, c)
  | none =>
    let offset := UInt32.ofNat c.stringPoolData.length
    (offset, { c with stringPoolData := c.stringPoolData ++ poolEntry s,
                      stringPool := (s, offset) :: c.stringPool })

/-- Register the strings of the triples, in order. -/
def compileTriples (c : NdaCompiler) : List (String × String × String) → List SemanticTriple × NdaCompiler
  | [] => ([], c)
  | (s, p, o) :: ts =>
    let (subjectOffset, c) := c.getOrAddString s
    let (predicateOffset, c) := c.getOrAddString p
    let (objectOffset, c) := c.getOrAddString o
    let (rest, c) := c.compileTriples ts
    (⟨subjectOffset, predicateOffset, objectOffset⟩ :: rest, c)

/-- Register the strings of the commands, in order. -/
def compileCommands (c : NdaCompiler) : List CommandInfo → List DisplayCommand × NdaCompiler
  | [] => ([], c)
  | info :: infos =>
    let (contentOffset, c) := c.getOrAddString info.content
    let (rest, c) := c.compileCommands infos
    (⟨info.commandType, info.color, info.x, info.y, info.width, info.height, contentOffset⟩ :: rest, c)

/-- The compiled triples and commands, and the compiler with all strings in its pool. -/
def register (c : NdaCompiler) : List SemanticTriple × List DisplayCommand × NdaCompiler :=
  let (triples, c') := c.compileTriples c.triples
  let (commands, c') := c'.compileCommands c.commands
  (triples, commands, c')

def tripleBytes (t : SemanticTriple) : Bytes :=
  leBytes 4 t.subjectOffset.toNat ++ (leBytes 4 t.predicateOffset.toNat ++ leBytes 4 t.objectOffset.toNat)

def commandBytes (c : DisplayCommand) : Bytes :=
  c.commandType :: (leBytes 4 c.color.toNat ++ (leBytes 2 c.x.toNat ++ (leBytes 2 c.y.toNat ++
    (leBytes 2 c.width.toNat ++ (leBytes 2 c.height.toNat ++ leBytes 4 c.contentOffset.toNat)))))

def computeMerkleRoot (sha256 : Bytes → Bytes) (c : NdaCompiler) : Outcome String Bytes :=
  merkleTop sha256 (c.triples.map fun (s, p, o) => merkleLeaf sha256 s p o)

/-- The buffer `compile` writes. -/
def documentBytes (root : Bytes) (triples : List SemanticTriple) (commands : List DisplayCommand)
    (pool : Bytes) : Bytes :=
  leBytes 4 documentMagic ++ (leBytes 4 0 ++ (root ++ (leBytes 4 triples.length ++
    (leBytes 4 commands.length ++
      (leBytes 4 (headerSize + triples.length * tripleSize + commands.length * commandSize) ++
        (triples.flatMap tripleBytes ++ (commands.flatMap commandBytes ++ pool)))))))

/-- `compile`: the root first, then all texts are entered in the pool. -/
def compile (sha256 : Bytes → Bytes) (c : NdaCompiler) : Outcome String Bytes := do
  let root ← c.computeMerkleRoot sha256
  let (triples, commands, c') := c.register
  .ok (documentBytes root triples commands c'.stringPoolData)

end NdaCompiler

/-! ## The reader -/

namespace NdaDocument

def readTriple (data : Bytes) (offset : ℕ) : Outcome String SemanticTriple := do
  let subject ← leAt data offset 4
  let predicate ← leAt data (offset + 4) 4
  let object ← leAt data (offset + 8) 4
  .ok ⟨UInt32.ofNat subject, UInt32.ofNat predicate, UInt32.ofNat object⟩

def readTriples (data : Bytes) : ℕ → ℕ → Outcome String (List SemanticTriple)
  | 0, _ => .ok []
  | n + 1, offset => do
    let t ← readTriple data offset
    let ts ← readTriples data n (offset + tripleSize)
    .ok (t :: ts)

def readCommand (data : Bytes) (offset : ℕ) : Outcome String DisplayCommand := do
  let commandType ← byteAt data offset
  let color ← leAt data (offset + 1) 4
  let x ← leAt data (offset + 5) 2
  let y ← leAt data (offset + 7) 2
  let width ← leAt data (offset + 9) 2
  let height ← leAt data (offset + 11) 2
  let content ← leAt data (offset + 13) 4
  .ok ⟨commandType, UInt32.ofNat color, UInt16.ofNat x, UInt16.ofNat y, UInt16.ofNat width,
    UInt16.ofNat height, UInt32.ofNat content⟩

def readCommands (data : Bytes) : ℕ → ℕ → Outcome String (List DisplayCommand)
  | 0, _ => .ok []
  | n + 1, offset => do
    let c ← readCommand data offset
    let cs ← readCommands data n (offset + commandSize)
    .ok (c :: cs)

/-- The two checks of a pool offset; `outside` and `beyond` are the texts of their errors. -/
def checkOffset (pool : Bytes) (offset : UInt32) (outside beyond : String) : Outcome String Unit :=
  if offset ≠ 0 then
    if pool.length < offset.toNat + 2 then .err outside
    else do
      let slen ← leAt pool offset.toNat 2
      if pool.length < offset.toNat + 2 + slen then .err beyond else .ok ()
  else .ok ()

def checkTripleOffset (pool : Bytes) (i : ℕ) (name : String) (offset : UInt32) : Outcome String Unit :=
  checkOffset pool offset
    s!"Triple {i} {name} offset {offset.toNat} exceeds string pool size {pool.length}"
    s!"Triple {i} {name} string at offset {offset.toNat} extends beyond pool"

def checkTriples (pool : Bytes) : ℕ → List SemanticTriple → Outcome String Unit
  | _, [] => .ok ()
  | i, t :: ts => do
    checkTripleOffset pool i "subject" t.subjectOffset
    checkTripleOffset pool i "predicate" t.predicateOffset
    checkTripleOffset pool i "object" t.objectOffset
    checkTriples pool (i + 1) ts

def checkCommands (pool : Bytes) : ℕ → List DisplayCommand → Outcome String Unit
  | _, [] => .ok ()
  | i, c :: cs => do
    if c.commandType < 1 ∨ 4 < c.commandType then
      .err s!"Command {i} has invalid type {c.commandType.toNat} (expected 1-4)"
    else do
      checkOffset pool c.contentOffset
        s!"Command {i} content offset {c.contentOffset.toNat} exceeds string pool size {pool.length}"
        s!"Command {i} content string at offset {c.contentOffset.toNat} extends beyond pool"
      checkCommands pool (i + 1) cs

/-- `NdaDocument::read`.  With the counts bounded, the sizes computed from them do not overflow. -/
def read (data : Bytes) : Outcome String NdaDocument :=
  if data.length < headerSize then .err s!"Buffer too small for NDA header: {data.length} bytes"
  else do
    let magic ← leAt data 0 4
    if magic ≠ documentMagic then
      .err s!"Invalid NDA magic: 0x{hex08 magic} (expected 0x{hex08 documentMagic})"
    else do
      let flags ← leAt data 4 4
      let root ← slice data 8 40
      let tripleCount ← leAt data 40 4
      let commandCount ← leAt data 44 4
      let poolOffset ← leAt data 48 4
      if maxTriples < tripleCount then .err s!"Triple count {tripleCount} exceeds maximum {maxTriples}"
      else if maxCommands < commandCount then
        .err s!"Command count {commandCount} exceeds maximum {maxCommands}"
      else
        let expectedMin := headerSize + tripleCount * tripleSize + commandCount * commandSize
        if data.length < expectedMin then
          .err s!"NDA buffer corrupted: need {expectedMin} bytes, have {data.length}"
        else if data.length < poolOffset then
          .err s!"String pool offset {poolOffset} exceeds buffer size {data.length}"
        else if poolOffset < expectedMin then
          .err s!"String pool offset {poolOffset} overlaps with triples/commands (min {expectedMin})"
        else if maxStringPoolSize < data.length - poolOffset then
          .err s!"String pool size {data.length - poolOffset} exceeds maximum {maxStringPoolSize}"
        else do
          let triples ← readTriples data tripleCount headerSize
          let commands ← readCommands data commandCount (headerSize + tripleCount * tripleSize)
          let pool ← sliceFrom data poolOffset
          checkTriples pool 0 triples
          checkCommands pool 0 commands
          .ok ⟨UInt32.ofNat flags, root, triples, commands, pool⟩

/-- The reader checks the offset again. -/
def getString (doc : NdaDocument) (offset : UInt32) : Outcome String String :=
  if offset = 0 then .ok ""
  else if doc.stringPool.length < offset.toNat + 2 then
    .err s!"String offset {offset.toNat} exceeds string pool size {doc.stringPool.length}"
  else do
    let len ← leAt doc.stringPool offset.toNat 2
    if doc.stringPool.length < offset.toNat + 2 + len then
      .err s!"String at offset {offset.toNat} extends beyond string pool"
    else do
      let t ← slice doc.stringPool (offset.toNat + 2) (offset.toNat + 2 + len)
      match fromUtf8 t with
      | some s => .ok s
      | none => .err s!"Invalid UTF-8 in string pool at offset {offset.toNat}: {utf8ErrorText t}"

def leaves (sha256 : Bytes → Bytes) (doc : NdaDocument) : List SemanticTriple → Outcome String (List Bytes)
  | [] => .ok []
  | t :: ts => do
    let s ← doc.getString t.subjectOffset
    let p ← doc.getString t.predicateOffset
    let o ← doc.getString t.objectOffset
    let rest ← doc.leaves sha256 ts
    .ok (merkleLeaf sha256 s p o :: rest)

/-- `recompute_merkle_root`, from the texts that the offsets point to. -/
def recomputeMerkleRoot (sha256 : Bytes → Bytes) (doc : NdaDocument) : Outcome String Bytes := do
  let level ← doc.leaves sha256 doc.triples
  merkleTop sha256 level

/-- The root is computed again from the triples. -/
def verifyMerkle (sha256 : Bytes → Bytes) (doc : NdaDocument) : Outcome String Unit := do
  let computed ← doc.recomputeMerkleRoot sha256
  if computed = doc.merkleRoot then .ok ()
  else .err s!"Merkle root mismatch: stored={hexEncode doc.merkleRoot} computed={hexEncode computed}"

end NdaDocument

/-! ## The string pool -/

namespace NdaCompiler

/-- The pool gives the string back at this offset. -/
def Resolves (pool : Bytes) (offset : UInt32) (s : String) : Prop :=
  (offset = 0 ∧ s = "") ∨ (offset ≠ 0 ∧ (utf8 s).length ≤ 65535 ∧ At pool offset.toNat (poolEntry s))

/-- **The pool invariant**: every registered string is where its offset says. -/
structure PoolInv (c : NdaCompiler) : Prop where
  reserved : 2 ≤ c.stringPoolData.length
  resolves : ∀ s offset, (s, offset) ∈ c.stringPool → Resolves c.stringPoolData offset s

variable {c c' : NdaCompiler} {s : String}

/-- The pool has the entry of the string at this offset. -/
def Stored (pool : Bytes) (offset : UInt32) (s : String) : Prop :=
  (offset = 0 ∧ s = "") ∨ (offset ≠ 0 ∧ At pool offset.toNat (poolEntry s))

theorem resolves_iff {pool : Bytes} {offset : UInt32} :
    Resolves pool offset s ↔ Stored pool offset s ∧ (utf8 s).length ≤ 65535 := by
  constructor
  · rintro (⟨hoffset, rfl⟩ | ⟨hoffset, hs, hat⟩)
    · exact ⟨Or.inl ⟨hoffset, rfl⟩, by decide⟩
    · exact ⟨Or.inr ⟨hoffset, hat⟩, hs⟩
  · rintro ⟨hempty | ⟨hoffset, hat⟩, hs⟩
    · exact Or.inl hempty
    · exact Or.inr ⟨hoffset, hs, hat⟩

/-- Every registered string is stored where its offset says, whatever its length. -/
structure PoolStored (c : NdaCompiler) : Prop where
  reserved : 2 ≤ c.stringPoolData.length
  stored : ∀ s offset, (s, offset) ∈ c.stringPool → Stored c.stringPoolData offset s

theorem PoolInv.poolStored (h : PoolInv c) : PoolStored c :=
  ⟨h.reserved, fun s offset hmem => (resolves_iff.mp (h.resolves s offset hmem)).1⟩

theorem Stored.mono {pool pool' : Bytes} {offset : UInt32} (h : Stored pool offset s) (hpre : pool <+: pool') :
    Stored pool' offset s := by
  obtain ⟨r, rfl⟩ := hpre
  rcases h with h | ⟨hoffset, hat⟩
  · exact Or.inl h
  · exact Or.inr ⟨hoffset, hat.append r⟩

theorem poolInv_new : PoolInv new where
  reserved := by simp [new]
  resolves s offset h := by
    simp only [new, List.mem_singleton, Prod.mk.injEq] at h
    exact Or.inl ⟨h.2, h.1⟩

/-- One registration: the invariant stays, no byte moves, and the string is stored at the offset. -/
theorem getOrAddString_spec (hc : PoolStored c)
    (hsize : (c.getOrAddString s).2.stringPoolData.length ≤ maxStringPoolSize) :
    PoolStored (c.getOrAddString s).2 ∧ c.stringPoolData <+: (c.getOrAddString s).2.stringPoolData ∧
      Stored (c.getOrAddString s).2.stringPoolData (c.getOrAddString s).1 s := by
  unfold getOrAddString at hsize ⊢
  cases hlookup : c.stringPool.lookup s with
  | some offset =>
    simp only
    refine ⟨hc, List.prefix_rfl, hc.stored s offset ?_⟩
    obtain ⟨l₁, l₂, hl, -⟩ := List.lookup_eq_some_iff.mp hlookup
    rw [hl]
    simp
  | none =>
    simp only [hlookup] at hsize ⊢
    have hpre : c.stringPoolData <+: c.stringPoolData ++ poolEntry s := List.prefix_append _ _
    have hlen : c.stringPoolData.length < 2 ^ 32 := by
      rw [List.length_append] at hsize
      have hmax : maxStringPoolSize < 2 ^ 32 := by decide
      omega
    have hoff : (UInt32.ofNat c.stringPoolData.length).toNat = c.stringPoolData.length :=
      UInt32.toNat_ofNat_of_lt' hlen
    have hnew : Stored (c.stringPoolData ++ poolEntry s) (UInt32.ofNat c.stringPoolData.length) s := by
      refine Or.inr ⟨fun h => ?_, ?_⟩
      · have hzero := congrArg UInt32.toNat h
        rw [hoff] at hzero
        have hres := hc.reserved
        rw [hzero] at hres
        exact absurd hres (by simp)
      · rw [hoff]
        have hat := at_append c.stringPoolData (poolEntry s) []
        rwa [List.append_nil] at hat
    refine ⟨⟨by have := hc.reserved; simp only [List.length_append]; omega, ?_⟩, hpre, hnew⟩
    intro s' offset' hmem
    rcases List.mem_cons.mp hmem with heq | hmem
    · obtain ⟨rfl, rfl⟩ := Prod.mk.inj heq
      exact hnew
    · exact (hc.stored s' offset' hmem).mono hpre

theorem length_getOrAddString_le (c : NdaCompiler) (s : String) :
    c.stringPoolData.length ≤ (c.getOrAddString s).2.stringPoolData.length := by
  unfold getOrAddString
  cases c.stringPool.lookup s with
  | some offset => exact le_refl _
  | none => simp

theorem length_compileTriples_le (ts : List (String × String × String)) (c : NdaCompiler) :
    c.stringPoolData.length ≤ (c.compileTriples ts).2.stringPoolData.length := by
  induction ts generalizing c with
  | nil => exact le_refl _
  | cons t ts ih =>
    obtain ⟨s, p, o⟩ := t
    have h₁ := length_getOrAddString_le c s
    have h₂ := length_getOrAddString_le (c.getOrAddString s).2 p
    have h₃ := length_getOrAddString_le ((c.getOrAddString s).2.getOrAddString p).2 o
    exact ((h₁.trans h₂).trans h₃).trans (ih _)

theorem length_compileCommands_le (infos : List CommandInfo) (c : NdaCompiler) :
    c.stringPoolData.length ≤ (c.compileCommands infos).2.stringPoolData.length := by
  induction infos generalizing c with
  | nil => exact le_refl _
  | cons info infos ih => exact (length_getOrAddString_le c info.content).trans (ih _)

/-- The three texts have lengths of 16 bits, as the pool stores them. -/
def TripleFits (t : String × String × String) : Prop :=
  (utf8 t.1).length ≤ 65535 ∧ (utf8 t.2.1).length ≤ 65535 ∧ (utf8 t.2.2).length ≤ 65535

instance (t : String × String × String) : Decidable (TripleFits t) := inferInstanceAs (Decidable (_ ∧ _ ∧ _))

/-- A compiled triple stands for the strings it was made from. -/
def TripleMatches (pool : Bytes) (t : String × String × String) (d : SemanticTriple) : Prop :=
  Resolves pool d.subjectOffset t.1 ∧ Resolves pool d.predicateOffset t.2.1 ∧
    Resolves pool d.objectOffset t.2.2

/-- A compiled command has the fields of its source and stands for its content. -/
def CommandMatches (pool : Bytes) (info : CommandInfo) (d : DisplayCommand) : Prop :=
  d = ⟨info.commandType, info.color, info.x, info.y, info.width, info.height, d.contentOffset⟩ ∧
    Resolves pool d.contentOffset info.content

def TripleStored (pool : Bytes) (t : String × String × String) (d : SemanticTriple) : Prop :=
  Stored pool d.subjectOffset t.1 ∧ Stored pool d.predicateOffset t.2.1 ∧ Stored pool d.objectOffset t.2.2

/-- A compiled command has the fields of its source, and its content is stored at its offset. -/
def CommandStored (pool : Bytes) (info : CommandInfo) (d : DisplayCommand) : Prop :=
  d = ⟨info.commandType, info.color, info.x, info.y, info.width, info.height, d.contentOffset⟩ ∧
    Stored pool d.contentOffset info.content

theorem TripleStored.mono {pool pool' : Bytes} {t : String × String × String} {d : SemanticTriple}
    (h : TripleStored pool t d) (hpre : pool <+: pool') : TripleStored pool' t d :=
  ⟨h.1.mono hpre, h.2.1.mono hpre, h.2.2.mono hpre⟩

theorem CommandStored.mono {pool pool' : Bytes} {info : CommandInfo} {d : DisplayCommand}
    (h : CommandStored pool info d) (hpre : pool <+: pool') : CommandStored pool' info d := ⟨h.1, h.2.mono hpre⟩

theorem TripleStored.matches {pool : Bytes} {t : String × String × String} {d : SemanticTriple}
    (h : TripleStored pool t d) (ht : TripleFits t) : TripleMatches pool t d :=
  ⟨resolves_iff.mpr ⟨h.1, ht.1⟩, resolves_iff.mpr ⟨h.2.1, ht.2.1⟩, resolves_iff.mpr ⟨h.2.2, ht.2.2⟩⟩

theorem CommandStored.matches {pool : Bytes} {info : CommandInfo} {d : DisplayCommand}
    (h : CommandStored pool info d) (hinfo : (utf8 info.content).length ≤ 65535) : CommandMatches pool info d :=
  ⟨h.1, resolves_iff.mpr ⟨h.2, hinfo⟩⟩

theorem compileTriples_spec {ts : List (String × String × String)} (hc : PoolStored c)
    (hsize : (c.compileTriples ts).2.stringPoolData.length ≤ maxStringPoolSize) :
    PoolStored (c.compileTriples ts).2 ∧ c.stringPoolData <+: (c.compileTriples ts).2.stringPoolData ∧
      List.Forall₂ (TripleStored (c.compileTriples ts).2.stringPoolData) ts (c.compileTriples ts).1 := by
  induction ts generalizing c with
  | nil => exact ⟨hc, List.prefix_rfl, .nil⟩
  | cons t ts ih =>
    obtain ⟨s, p, o⟩ := t
    set c₁ := (c.getOrAddString s).2
    set c₂ := (c₁.getOrAddString p).2
    set c₃ := (c₂.getOrAddString o).2
    have hsize₃ : c₃.stringPoolData.length ≤ maxStringPoolSize :=
      (length_compileTriples_le ts c₃).trans hsize
    have hsize₂ := (length_getOrAddString_le c₂ o).trans hsize₃
    have hsize₁ := (length_getOrAddString_le c₁ p).trans hsize₂
    obtain ⟨hc₁, hpre₁, hat₁⟩ := getOrAddString_spec hc hsize₁
    obtain ⟨hc₂, hpre₂, hat₂⟩ := getOrAddString_spec hc₁ hsize₂
    obtain ⟨hc₃, hpre₃, hat₃⟩ := getOrAddString_spec hc₂ hsize₃
    obtain ⟨hc', hpre, hall⟩ := ih hc₃ hsize
    refine ⟨hc', ((hpre₁.trans hpre₂).trans hpre₃).trans hpre, .cons ⟨?_, ?_, ?_⟩ hall⟩
    · exact hat₁.mono ((hpre₂.trans hpre₃).trans hpre)
    · exact hat₂.mono (hpre₃.trans hpre)
    · exact hat₃.mono hpre

theorem compileCommands_spec {infos : List CommandInfo} (hc : PoolStored c)
    (hsize : (c.compileCommands infos).2.stringPoolData.length ≤ maxStringPoolSize) :
    PoolStored (c.compileCommands infos).2 ∧
      c.stringPoolData <+: (c.compileCommands infos).2.stringPoolData ∧
      List.Forall₂ (CommandStored (c.compileCommands infos).2.stringPoolData) infos
        (c.compileCommands infos).1 := by
  induction infos generalizing c with
  | nil => exact ⟨hc, List.prefix_rfl, .nil⟩
  | cons info infos ih =>
    set c₁ := (c.getOrAddString info.content).2
    have hsize₁ : c₁.stringPoolData.length ≤ maxStringPoolSize :=
      (length_compileCommands_le infos c₁).trans hsize
    obtain ⟨hc₁, hpre₁, hat⟩ := getOrAddString_spec hc hsize₁
    obtain ⟨hc', hpre, hall⟩ := ih hc₁ hsize
    exact ⟨hc', hpre₁.trans hpre, .cons ⟨rfl, hat.mono hpre⟩ hall⟩

theorem register_spec (hc : PoolStored c) (hsize : c.register.2.2.stringPoolData.length ≤ maxStringPoolSize) :
    List.Forall₂ (TripleStored c.register.2.2.stringPoolData) c.triples c.register.1 ∧
      List.Forall₂ (CommandStored c.register.2.2.stringPoolData) c.commands c.register.2.1 := by
  -- the pool after the triples is still below the bound, since it only grows
  have hsize' : (c.compileTriples c.triples).2.stringPoolData.length ≤ maxStringPoolSize :=
    (length_compileCommands_le c.commands _).trans hsize
  obtain ⟨hc', -, hts⟩ := compileTriples_spec hc hsize'
  obtain ⟨-, hpre, hcs⟩ := compileCommands_spec hc' hsize
  exact ⟨hts.imp fun _ _ h => h.mono hpre, hcs⟩

end NdaCompiler

/-! ## The reader on what the compiler writes -/

namespace NdaDocument

open NdaCompiler

variable {data pool : Bytes} {offset : ℕ}

theorem leAt_u32 {x : UInt32} (h : At data offset (leBytes 4 x.toNat)) :
    leAt (ε := String) data offset 4 = .ok x.toNat := h.leAt x.toNat_lt

theorem leAt_u16 {x : UInt16} (h : At data offset (leBytes 2 x.toNat)) :
    leAt (ε := String) data offset 2 = .ok x.toNat := h.leAt x.toNat_lt

theorem readTriple_of_at {t : SemanticTriple} (h : At data offset (tripleBytes t)) :
    readTriple data offset = .ok t := by
  obtain ⟨h₁, h⟩ := at_append_iff.mp h
  obtain ⟨h₂, h₃⟩ := at_append_iff.mp h
  simp only [length_leBytes, Nat.add_assoc, Nat.reduceAdd] at h₂ h₃
  rw [readTriple, leAt_u32 h₁, Outcome.ok_bind, leAt_u32 h₂, Outcome.ok_bind, leAt_u32 h₃, Outcome.ok_bind]
  simp

theorem readTriples_of_at {ts : List SemanticTriple} (h : At data offset (ts.flatMap tripleBytes)) :
    readTriples data ts.length offset = .ok ts := by
  induction ts generalizing offset with
  | nil => rfl
  | cons t ts ih =>
    rw [List.flatMap_cons] at h
    obtain ⟨h₁, h₂⟩ := at_append_iff.mp h
    rw [List.length_cons, readTriples, readTriple_of_at h₁, Outcome.ok_bind]
    have hlen : (tripleBytes t).length = tripleSize := by simp [tripleBytes, tripleSize]
    rw [hlen] at h₂
    rw [ih h₂, Outcome.ok_bind]

theorem readCommand_of_at {c : DisplayCommand} (h : At data offset (commandBytes c)) :
    readCommand data offset = .ok c := by
  obtain ⟨h₀, h⟩ := at_cons_iff.mp h
  obtain ⟨h₁, h⟩ := at_append_iff.mp h
  obtain ⟨h₂, h⟩ := at_append_iff.mp h
  obtain ⟨h₃, h⟩ := at_append_iff.mp h
  obtain ⟨h₄, h⟩ := at_append_iff.mp h
  obtain ⟨h₅, h₆⟩ := at_append_iff.mp h
  simp only [length_leBytes, Nat.add_assoc, Nat.reduceAdd] at h₂ h₃ h₄ h₅ h₆
  rw [readCommand, h₀.byteAt, Outcome.ok_bind, leAt_u32 h₁, Outcome.ok_bind, leAt_u16 h₂, Outcome.ok_bind,
    leAt_u16 h₃, Outcome.ok_bind, leAt_u16 h₄, Outcome.ok_bind, leAt_u16 h₅, Outcome.ok_bind, leAt_u32 h₆,
    Outcome.ok_bind]
  simp

theorem readCommands_of_at {cs : List DisplayCommand} (h : At data offset (cs.flatMap commandBytes)) :
    readCommands data cs.length offset = .ok cs := by
  induction cs generalizing offset with
  | nil => rfl
  | cons c cs ih =>
    rw [List.flatMap_cons] at h
    obtain ⟨h₁, h₂⟩ := at_append_iff.mp h
    rw [List.length_cons, readCommands, readCommand_of_at h₁, Outcome.ok_bind]
    have hlen : (commandBytes c).length = commandSize := by simp [commandBytes, commandSize]
    rw [hlen] at h₂
    rw [ih h₂, Outcome.ok_bind]

def storedLength (s : String) : ℕ := (utf8 s).length % 65536

theorem storedLength_le (s : String) : storedLength s ≤ (utf8 s).length := Nat.mod_le _ _

theorem checkOffset_of_stored {o : UInt32} {s outside beyond : String} (h : Stored pool o s) :
    checkOffset pool o outside beyond = .ok () := by
  rw [checkOffset]
  rcases h with ⟨rfl, -⟩ | ⟨hne, hat⟩
  · rw [if_neg (by simp)]
  · obtain ⟨hlen, hbody⟩ := at_append_iff.mp hat
    rw [length_leBytes] at hbody
    have hle := hbody.length_le
    have hmod : (utf8 s).length % 256 ^ 2 ≤ (utf8 s).length := Nat.mod_le _ _
    rw [if_pos hne, if_neg (by omega), hlen.leAt_mod, Outcome.ok_bind, if_neg (by omega)]

theorem checkTriples_of_stored {src : List (String × String × String)} {ts : List SemanticTriple}
    (h : List.Forall₂ (TripleStored pool) src ts) (i : ℕ) : checkTriples pool i ts = .ok () := by
  induction h generalizing i with
  | nil => rfl
  | cons hm _ ih =>
    obtain ⟨h₁, h₂, h₃⟩ := hm
    rw [checkTriples, checkTripleOffset, checkTripleOffset, checkTripleOffset, checkOffset_of_stored h₁,
      Outcome.ok_bind, checkOffset_of_stored h₂, Outcome.ok_bind, checkOffset_of_stored h₃,
      Outcome.ok_bind, ih]

theorem checkCommands_of_stored {src : List CommandInfo} {cs : List DisplayCommand}
    (h : List.Forall₂ (CommandStored pool) src cs)
    (htype : ∀ info ∈ src, 1 ≤ info.commandType ∧ info.commandType ≤ 4) (i : ℕ) :
    checkCommands pool i cs = .ok () := by
  induction h generalizing i with
  | nil => rfl
  | @cons info c _ _ hm _ ih =>
    obtain ⟨hc, hat⟩ := hm
    obtain ⟨hlo, hhi⟩ := htype info List.mem_cons_self
    have hct : c.commandType = info.commandType := by rw [hc]
    have hno : ¬ (c.commandType < 1 ∨ 4 < c.commandType) := by
      rw [hct]
      rintro (hlt | hlt)
      · exact absurd hlt (UInt8.not_lt.mpr hlo)
      · exact absurd hlt (UInt8.not_lt.mpr hhi)
    rw [checkCommands, if_neg hno, checkOffset_of_stored hat, Outcome.ok_bind,
      ih fun info hinfo => htype info (List.mem_cons_of_mem _ hinfo)]

def storedBytes (s : String) : Bytes := (utf8 s).take (storedLength s)

def storedText (s : String) : Option String := fromUtf8 (storedBytes s)

theorem storedText_of_le {s : String} (h : (utf8 s).length ≤ 65535) : storedText s = some s := by
  rw [storedText, storedBytes, storedLength, Nat.mod_eq_of_lt (by omega), List.take_length, fromUtf8_utf8]

theorem getString_of_stored {doc : NdaDocument} {o : UInt32} {s : String} (h : Stored doc.stringPool o s) :
    doc.getString o = match storedText s with
      | some t => .ok t
      | none => .err s!"Invalid UTF-8 in string pool at offset {o.toNat}: {utf8ErrorText (storedBytes s)}" := by
  rw [getString]
  rcases h with ⟨rfl, rfl⟩ | ⟨hne, hat⟩
  · rw [if_pos rfl]
    rfl
  · obtain ⟨hlen, hbody⟩ := at_append_iff.mp hat
    rw [length_leBytes] at hbody
    have hle := hbody.length_le
    have hmod := storedLength_le s
    have hstored : At doc.stringPool (o.toNat + 2) (storedBytes s) := by
      rw [← List.take_append_drop (storedLength s) (utf8 s)] at hbody
      exact (at_append_iff.mp hbody).1
    rw [if_neg hne, if_neg (by omega), hlen.leAt_mod, Outcome.ok_bind,
      show (utf8 s).length % 256 ^ 2 = storedLength s from rfl, if_neg (by omega),
      hstored.slice (by rw [storedBytes, List.length_take, Nat.min_eq_left hmod]), Outcome.ok_bind]
    rfl

theorem getString_of_storedText {doc : NdaDocument} {o : UInt32} {s t : String} (h : Stored doc.stringPool o s)
    (ht : storedText s = some t) : doc.getString o = .ok t := by rw [getString_of_stored h, ht]

theorem getString_of_resolves {doc : NdaDocument} {o : UInt32} {s : String}
    (h : Resolves doc.stringPool o s) : doc.getString o = .ok s := by
  obtain ⟨hat, hs⟩ := resolves_iff.mp h
  exact getString_of_storedText hat (storedText_of_le hs)

theorem leaves_of_matches (sha256 : Bytes → Bytes) (doc : NdaDocument)
    {src : List (String × String × String)} {ts : List SemanticTriple}
    (h : List.Forall₂ (TripleMatches doc.stringPool) src ts) :
    doc.leaves sha256 ts = .ok (src.map fun (s, p, o) => merkleLeaf sha256 s p o) := by
  induction h with
  | nil => rfl
  | @cons t _ _ _ hm _ ih =>
    obtain ⟨s, p, o⟩ := t
    obtain ⟨h₁, h₂, h₃⟩ := hm
    rw [leaves, getString_of_resolves h₁, Outcome.ok_bind, getString_of_resolves h₂, Outcome.ok_bind,
      getString_of_resolves h₃, Outcome.ok_bind, ih, Outcome.ok_bind]
    rfl

theorem length_flatMap_tripleBytes (ts : List SemanticTriple) :
    (ts.flatMap tripleBytes).length = ts.length * tripleSize := by
  induction ts with
  | nil => simp
  | cons t ts ih =>
    have hlen : (tripleBytes t).length = tripleSize := by simp [tripleBytes, tripleSize]
    rw [List.flatMap_cons, List.length_append, hlen, ih, List.length_cons]
    ring

theorem length_flatMap_commandBytes (cs : List DisplayCommand) :
    (cs.flatMap commandBytes).length = cs.length * commandSize := by
  induction cs with
  | nil => simp
  | cons c cs ih =>
    have hlen : (commandBytes c).length = commandSize := by simp [commandBytes, commandSize]
    rw [List.flatMap_cons, List.length_append, hlen, ih, List.length_cons]
    ring

/-- Where everything is in a buffer that the compiler lays out. -/
structure LaidOut (data root : Bytes) (ts : List SemanticTriple) (cs : List DisplayCommand) (pool : Bytes) : Prop where
  magicAt : At data 0 (leBytes 4 documentMagic)
  flagsAt : At data 4 (leBytes 4 0)
  rootAt : At data 8 root
  tripleCountAt : At data 40 (leBytes 4 ts.length)
  commandCountAt : At data 44 (leBytes 4 cs.length)
  poolOffsetAt : At data 48 (leBytes 4 (headerSize + ts.length * tripleSize + cs.length * commandSize))
  triplesAt : At data headerSize (ts.flatMap tripleBytes)
  commandsAt : At data (headerSize + ts.length * tripleSize) (cs.flatMap commandBytes)
  poolAt : data.drop (headerSize + ts.length * tripleSize + cs.length * commandSize) = pool
  size : data.length = headerSize + ts.length * tripleSize + cs.length * commandSize + pool.length

theorem laidOut_documentBytes {root : Bytes} {ts : List SemanticTriple} {cs : List DisplayCommand}
    (hroot : root.length = 32) : LaidOut (documentBytes root ts cs pool) root ts cs pool := by
  set data := documentBytes root ts cs pool with hdata
  have hall : At data 0 (documentBytes root ts cs pool) := by
    have h := at_zero data []
    rwa [List.append_nil] at h
  obtain ⟨hmagic, h⟩ := at_append_iff.mp hall
  obtain ⟨hflags, h⟩ := at_append_iff.mp h
  obtain ⟨hroot', h⟩ := at_append_iff.mp h
  obtain ⟨htcount, h⟩ := at_append_iff.mp h
  obtain ⟨hccount, h⟩ := at_append_iff.mp h
  obtain ⟨hoff, h⟩ := at_append_iff.mp h
  obtain ⟨htriples, h⟩ := at_append_iff.mp h
  obtain ⟨hcommands, hpool⟩ := at_append_iff.mp h
  simp only [length_leBytes, hroot, length_flatMap_tripleBytes, length_flatMap_commandBytes, Nat.zero_add,
    Nat.reduceAdd] at hflags hroot' htcount hccount hoff htriples hcommands hpool
  have hlen : data.length = headerSize + ts.length * tripleSize + cs.length * commandSize + pool.length := by
    rw [hdata, documentBytes]
    simp only [List.length_append, length_leBytes, hroot, length_flatMap_tripleBytes,
      length_flatMap_commandBytes]
    have hheader : headerSize = 52 := rfl
    omega
  have hpool : At data (headerSize + ts.length * tripleSize + cs.length * commandSize) pool := hpool
  refine ⟨hmagic, hflags, hroot', htcount, hccount, hoff, htriples, hcommands, ?_, hlen⟩
  -- nothing follows the pool
  obtain ⟨q, hq⟩ := hpool.drop
  have hlenq := congrArg List.length hq
  rw [List.length_drop, List.length_append, hlen] at hlenq
  have hq0 : q = [] := List.length_eq_zero_iff.mp (by omega)
  rw [hq, hq0, List.append_nil]

theorem read_documentBytes {root : Bytes} {ts : List SemanticTriple} {cs : List DisplayCommand}
    (hroot : root.length = 32) (hts : ts.length ≤ maxTriples) (hcs : cs.length ≤ maxCommands)
    (hpool : pool.length ≤ maxStringPoolSize) (hcheck : checkTriples pool 0 ts = .ok ())
    (hcheck' : checkCommands pool 0 cs = .ok ()) :
    read (documentBytes root ts cs pool) = .ok ⟨0, root, ts, cs, pool⟩ := by
  have h : LaidOut (documentBytes root ts cs pool) root ts cs pool := laidOut_documentBytes hroot
  set data := documentBytes root ts cs pool
  have hlen := h.size
  have htsize : ts.length * tripleSize ≤ maxTriples * tripleSize := Nat.mul_le_mul_right _ hts
  have hcsize : cs.length * commandSize ≤ maxCommands * commandSize := Nat.mul_le_mul_right _ hcs
  have hoffset : headerSize + maxTriples * tripleSize + maxCommands * commandSize < 256 ^ 4 := by decide
  have hm : maxTriples = 1000000 := rfl
  have hm' : maxCommands = 1000000 := rfl
  have hh : headerSize = 52 := rfl
  have hpoolAt : sliceFrom (ε := String) data
      (headerSize + ts.length * tripleSize + cs.length * commandSize) = .ok pool := by
    rw [sliceFrom_of_le (by omega), h.poolAt]
  rw [read, if_neg (by omega), h.magicAt.leAt (by decide), Outcome.ok_bind, if_neg (by simp),
    h.flagsAt.leAt (by decide), Outcome.ok_bind, h.rootAt.slice (by rw [hroot]), Outcome.ok_bind,
    h.tripleCountAt.leAt (by omega), Outcome.ok_bind, h.commandCountAt.leAt (by omega), Outcome.ok_bind,
    h.poolOffsetAt.leAt (by omega), Outcome.ok_bind, if_neg (by omega), if_neg (by omega)]
  simp only
  rw [if_neg (by omega), if_neg (by omega), if_neg (by omega), if_neg (by omega),
    readTriples_of_at h.triplesAt, Outcome.ok_bind, readCommands_of_at h.commandsAt, Outcome.ok_bind, hpoolAt,
    Outcome.ok_bind, hcheck, Outcome.ok_bind, hcheck', Outcome.ok_bind]
  rfl

/-- What the reader has found in a buffer that it accepts. -/
structure Accepts (data : Bytes) (doc : NdaDocument) (tripleCount commandCount poolOffset : ℕ) : Prop where
  tripleCountAt : leAt (ε := String) data 40 4 = .ok tripleCount
  commandCountAt : leAt (ε := String) data 44 4 = .ok commandCount
  poolOffsetAt : leAt (ε := String) data 48 4 = .ok poolOffset
  triplesLe : tripleCount ≤ maxTriples
  commandsLe : commandCount ≤ maxCommands
  inside : poolOffset ≤ data.length
  poolLe : data.length - poolOffset ≤ maxStringPoolSize
  triplesRead : readTriples data tripleCount headerSize = .ok doc.triples
  commandsRead : readCommands data commandCount (headerSize + tripleCount * tripleSize) = .ok doc.commands
  poolRead : data.drop poolOffset = doc.stringPool
  triplesChecked : checkTriples doc.stringPool 0 doc.triples = .ok ()
  commandsChecked : checkCommands doc.stringPool 0 doc.commands = .ok ()

theorem accepts_of_read {doc : NdaDocument} (h : read data = .ok doc) :
    ∃ tripleCount commandCount poolOffset, Accepts data doc tripleCount commandCount poolOffset := by
  rw [read, Outcome.ite_err_eq_ok] at h
  obtain ⟨-, h⟩ := h
  obtain ⟨magic, -, h⟩ := Outcome.bind_eq_ok.mp h
  rw [Outcome.ite_err_eq_ok] at h
  obtain ⟨-, h⟩ := h
  obtain ⟨flags, -, h⟩ := Outcome.bind_eq_ok.mp h
  obtain ⟨root, -, h⟩ := Outcome.bind_eq_ok.mp h
  obtain ⟨tripleCount, htcount, h⟩ := Outcome.bind_eq_ok.mp h
  obtain ⟨commandCount, hccount, h⟩ := Outcome.bind_eq_ok.mp h
  obtain ⟨poolOffset, hoffset, h⟩ := Outcome.bind_eq_ok.mp h
  simp only [Outcome.ite_err_eq_ok, not_lt] at h
  obtain ⟨htriples, hcommands, -, hinside, -, hsize, h⟩ := h
  obtain ⟨triples, hts, h⟩ := Outcome.bind_eq_ok.mp h
  obtain ⟨commands, hcs, h⟩ := Outcome.bind_eq_ok.mp h
  obtain ⟨pool, hpool, h⟩ := Outcome.bind_eq_ok.mp h
  obtain ⟨_, hcheck, h⟩ := Outcome.bind_eq_ok.mp h
  obtain ⟨_, hcheck', h⟩ := Outcome.bind_eq_ok.mp h
  obtain rfl := Outcome.ok.inj h
  rw [sliceFrom_of_le hinside, Outcome.ok.injEq] at hpool
  exact ⟨tripleCount, commandCount, poolOffset, htcount, hccount, hoffset, htriples, hcommands, hinside, hsize, hts,
    hcs, hpool, hcheck, hcheck'⟩

end NdaDocument

/-! ## Merkle roots have 32 bytes -/

section MerkleLength

variable {sha256 : Bytes → Bytes}

theorem length_of_mem_merkleLevel (hsha : ∀ b, (sha256 b).length = 32) :
    ∀ {level : List Bytes}, (∀ x ∈ level, x.length = 32) → ∀ x ∈ merkleLevel sha256 level, x.length = 32
  | [], _ => by simp [merkleLevel]
  | [a], h => by simpa [merkleLevel] using h
  | a :: b :: level, h => by
    intro x hx
    rw [merkleLevel] at hx
    rcases List.mem_cons.mp hx with rfl | hx
    · exact hsha _
    · exact length_of_mem_merkleLevel hsha
        (fun y hy => h y (List.mem_cons_of_mem _ (List.mem_cons_of_mem _ hy))) x hx

theorem merkleLoop_eq_singleton (hsha : ∀ b, (sha256 b).length = 32) (level : List Bytes) (hne : level ≠ [])
    (hlen : ∀ x ∈ level, x.length = 32) : ∃ root, merkleLoop sha256 level = [root] ∧ root.length = 32 := by
  induction level using merkleLoop.induct sha256 with
  | case1 level h ih =>
    rw [merkleLoop, if_pos h]
    refine ih ?_ (length_of_mem_merkleLevel hsha hlen)
    rcases level with _ | ⟨a, _ | ⟨b, level⟩⟩
    · exact hne
    · simp at h
    · simp [merkleLevel]
  | case2 level h =>
    rw [merkleLoop, if_neg h]
    rcases level with _ | ⟨a, _ | ⟨b, level⟩⟩
    · exact absurd rfl hne
    · exact ⟨a, rfl, hlen a (by simp)⟩
    · simp at h

theorem merkleTop_eq_ok (hsha : ∀ b, (sha256 b).length = 32) {leaves : List Bytes}
    (hlen : ∀ x ∈ leaves, x.length = 32) : ∃ root, merkleTop sha256 leaves = .ok root ∧ root.length = 32 := by
  rw [merkleTop]
  split_ifs with h
  · exact ⟨_, rfl, by simp⟩
  · obtain ⟨root, hroot, hl⟩ := merkleLoop_eq_singleton hsha leaves h hlen
    exact ⟨root, by rw [hroot]; rfl, hl⟩

end MerkleLength

/-! ## Round trip -/

namespace NdaCompiler

variable {sha256 : Bytes → Bytes} {c : NdaCompiler}

theorem computeMerkleRoot_eq_ok (hsha : ∀ b, (sha256 b).length = 32) (c : NdaCompiler) :
    ∃ root, c.computeMerkleRoot sha256 = .ok root ∧ root.length = 32 := by
  apply merkleTop_eq_ok hsha
  intro x hx
  obtain ⟨t, -, rfl⟩ := List.mem_map.mp hx
  exact hsha _

theorem compile_eq_ok {root : Bytes} (hroot : c.computeMerkleRoot sha256 = .ok root) : c.compile sha256 =
    .ok (documentBytes root c.register.1 c.register.2.1 c.register.2.2.stringPoolData) := by
  rw [compile, hroot, Outcome.ok_bind]

theorem documentBytes_append (root : Bytes) (ts : List SemanticTriple) (cs : List DisplayCommand)
    (pool trailer : Bytes) :
    documentBytes root ts cs pool ++ trailer = documentBytes root ts cs (pool ++ trailer) := by
  simp only [documentBytes, List.append_assoc]

/-- What was compiled is accepted, whatever its strings, also when something follows it. -/
theorem read_compiled {root : Bytes} (hc : PoolStored c) (hroot : root.length = 32)
    (htriples : c.triples.length ≤ maxTriples) (hcommands : c.commands.length ≤ maxCommands)
    (htype : ∀ info ∈ c.commands, 1 ≤ info.commandType ∧ info.commandType ≤ 4) (trailer : Bytes)
    (hpool : (c.register.2.2.stringPoolData ++ trailer).length ≤ maxStringPoolSize) :
    NdaDocument.read (documentBytes root c.register.1 c.register.2.1 c.register.2.2.stringPoolData ++ trailer) =
      .ok ⟨0, root, c.register.1, c.register.2.1, c.register.2.2.stringPoolData ++ trailer⟩ := by
  have hsize : c.register.2.2.stringPoolData.length ≤ maxStringPoolSize := by
    rw [List.length_append] at hpool
    omega
  obtain ⟨hts, hcs⟩ := register_spec hc hsize
  have hpre : c.register.2.2.stringPoolData <+: c.register.2.2.stringPoolData ++ trailer := List.prefix_append _ _
  rw [documentBytes_append]
  exact NdaDocument.read_documentBytes hroot (by rw [← hts.length_eq]; exact htriples)
    (by rw [← hcs.length_eq]; exact hcommands) hpool
    (NdaDocument.checkTriples_of_stored (hts.imp fun _ _ h => h.mono hpre) 0)
    (NdaDocument.checkCommands_of_stored (hcs.imp fun _ _ h => h.mono hpre) htype 0)

end NdaCompiler

/-- A call that adds something to the compiler. -/
inductive CompilerCall where
  | addTriple (subject predicate object : String)
  | addCommand (info : CommandInfo)
deriving DecidableEq, Repr

namespace CompilerCall

def apply (c : NdaCompiler) : CompilerCall → NdaCompiler
  | addTriple s p o => c.addTriple s p o
  | addCommand info => c.addCommand info

/-- A fresh compiler after these calls. -/
def run (calls : List CompilerCall) : NdaCompiler := calls.foldl apply .new

/-- The triples among the calls, in order. -/
def triplesOf (calls : List CompilerCall) : List (String × String × String) :=
  calls.filterMap fun call => match call with
    | addTriple s p o => some (s, p, o)
    | addCommand _ => none

/-- The commands among the calls, in order. -/
def commandsOf (calls : List CompilerCall) : List CommandInfo :=
  calls.filterMap fun call => match call with
    | addTriple _ _ _ => none
    | addCommand info => some info

theorem foldl_apply (calls : List CompilerCall) (c : NdaCompiler) :
    calls.foldl apply c =
      { c with triples := c.triples ++ triplesOf calls, commands := c.commands ++ commandsOf calls } := by
  induction calls generalizing c with
  | nil => simp [triplesOf, commandsOf]
  | cons call calls ih =>
    rw [List.foldl_cons, ih]
    cases call with
    | addTriple s p o => simp [apply, NdaCompiler.addTriple, triplesOf, commandsOf]
    | addCommand info => simp [apply, NdaCompiler.addCommand, triplesOf, commandsOf]

theorem run_eq (calls : List CompilerCall) :
    run calls = { NdaCompiler.new with triples := triplesOf calls, commands := commandsOf calls } := by
  rw [run, foldl_apply]
  rfl

theorem triples_run (calls : List CompilerCall) : (run calls).triples = triplesOf calls := by rw [run_eq]

theorem commands_run (calls : List CompilerCall) : (run calls).commands = commandsOf calls := by rw [run_eq]

theorem poolInv_run (calls : List CompilerCall) : (run calls).PoolInv := by
  rw [run_eq]
  exact ⟨NdaCompiler.poolInv_new.reserved, NdaCompiler.poolInv_new.resolves⟩

variable {sha256 : Bytes → Bytes} {calls : List CompilerCall}

/-- **The NDA document round trip.** -/
theorem read_compile (hsha : ∀ b, (sha256 b).length = 32)
    (htriples : (triplesOf calls).length ≤ maxTriples) (hcommands : (commandsOf calls).length ≤ maxCommands)
    (htype : ∀ info ∈ commandsOf calls, 1 ≤ info.commandType ∧ info.commandType ≤ 4)
    (hstrings : ∀ t ∈ triplesOf calls, NdaCompiler.TripleFits t)
    (hcontents : ∀ info ∈ commandsOf calls, (utf8 info.content).length ≤ 65535)
    (hpool : (run calls).register.2.2.stringPoolData.length ≤ maxStringPoolSize) :
    ∃ data doc, (run calls).compile sha256 = .ok data ∧ NdaDocument.read data = .ok doc ∧
      List.Forall₂ (fun t d => doc.getString d.subjectOffset = .ok t.1 ∧
          doc.getString d.predicateOffset = .ok t.2.1 ∧ doc.getString d.objectOffset = .ok t.2.2)
        (triplesOf calls) doc.triples ∧
      List.Forall₂ (fun info d => d.commandType = info.commandType ∧ d.color = info.color ∧ d.x = info.x ∧
          d.y = info.y ∧ d.width = info.width ∧ d.height = info.height ∧
          doc.getString d.contentOffset = .ok info.content)
        (commandsOf calls) doc.commands ∧
      doc.verifyMerkle sha256 = .ok () := by
  obtain ⟨root, hroot, hlen⟩ := NdaCompiler.computeMerkleRoot_eq_ok hsha (run calls)
  obtain ⟨hts, hcs⟩ := NdaCompiler.register_spec (poolInv_run calls).poolStored hpool
  rw [triples_run] at hts
  rw [commands_run] at hcs
  have hread := NdaCompiler.read_compiled (poolInv_run calls).poolStored hlen (by rwa [triples_run])
    (by rwa [commands_run]) (by rwa [commands_run]) [] (by rwa [List.append_nil])
  rw [List.append_nil, List.append_nil] at hread
  have hmatches : List.Forall₂ (NdaCompiler.TripleMatches (run calls).register.2.2.stringPoolData) (triplesOf calls)
      (run calls).register.1 :=
    ((List.forall₂_and_left _ _).mpr ⟨hstrings, hts⟩).imp fun _ _ h => h.2.matches h.1
  refine ⟨_, _, NdaCompiler.compile_eq_ok hroot, hread, ?_, ?_, ?_⟩
  · exact hmatches.imp fun _ _ h => ⟨NdaDocument.getString_of_resolves h.1,
      NdaDocument.getString_of_resolves h.2.1, NdaDocument.getString_of_resolves h.2.2⟩
  · refine ((List.forall₂_and_left _ _).mpr ⟨hcontents, hcs⟩).imp fun info d h => ?_
    obtain ⟨hd, hres⟩ := h.2.matches h.1
    rw [hd]
    exact ⟨rfl, rfl, rfl, rfl, rfl, rfl, NdaDocument.getString_of_resolves hres⟩
  · rw [NdaDocument.verifyMerkle, NdaDocument.recomputeMerkleRoot, NdaDocument.leaves_of_matches sha256 _ hmatches,
      Outcome.ok_bind, ← triples_run calls]
    rw [NdaCompiler.computeMerkleRoot] at hroot
    rw [hroot, Outcome.ok_bind, if_pos rfl]

/-- A triple and two commands, the second without content. -/
def exampleCalls : List CompilerCall :=
  [addTriple "a" "P" "b", addCommand ⟨1, 0xffffffff, 10, 20, 100, 50, "a"⟩,
    addCommand ⟨3, 0x00e5ffff, 0, 0, 640, 480, ""⟩]

/-- The SHA-256 digest of `a|P|b`. -/
def exampleDigest : Bytes :=
  [0x7f, 0x91, 0x02, 0x9f, 0x0b, 0xc9, 0x23, 0x86, 0xcc, 0x14, 0x9d, 0xdc, 0x93, 0x6b, 0xe1, 0x8a,
   0xbc, 0x44, 0x10, 0xdb, 0x74, 0xbc, 0xb3, 0xfc, 0xc9, 0x19, 0x5a, 0x60, 0x04, 0x2e, 0x1e, 0x5d]

/-- Triples and a command, read back from the bytes. -/
theorem read_compile_exampleCalls :
    ∃ data doc, (run exampleCalls).compile (fun _ => exampleDigest) = .ok data ∧
      NdaDocument.read data = .ok doc ∧
      List.Forall₂ (fun t d => doc.getString d.subjectOffset = .ok t.1 ∧
          doc.getString d.predicateOffset = .ok t.2.1 ∧ doc.getString d.objectOffset = .ok t.2.2)
        (triplesOf exampleCalls) doc.triples ∧
      List.Forall₂ (fun info d => d.commandType = info.commandType ∧ d.color = info.color ∧ d.x = info.x ∧
          d.y = info.y ∧ d.width = info.width ∧ d.height = info.height ∧
          doc.getString d.contentOffset = .ok info.content)
        (commandsOf exampleCalls) doc.commands ∧
      doc.verifyMerkle (fun _ => exampleDigest) = .ok () :=
  read_compile (fun _ => rfl) (by decide) (by decide) (by decide)
    (by decide +kernel) (by decide +kernel) (by decide +kernel)

end CompilerCall

end VelocityMcp
