import VelocityMcp.Document.Merkle
import VelocityMcp.Lib.Word

/-!
# Document.Safety — reading documents with machine words (`nda_document.rs`)

`read_safe`: what can still fail on a document that was accepted.
-/

namespace VelocityMcp.Document

open Lib

/-! ## The reader -/

namespace Machine

section Reader

variable (w : ℕ) (data pool : Bytes)

/-- `read_u32_le`, at a position of the cursor. -/
def readU32Le (pos : ℕ) : Outcome String ℕ :=
  if data.length < pos + 4 then .err "Failed to read u32: failed to fill whole buffer" else leAt data pos 4

/-- `read_exact` of the Merkle root. -/
def readMerkleRoot (pos : ℕ) : Outcome String Bytes :=
  if data.length < pos + 32 then .err "Failed to read merkle root: failed to fill whole buffer"
  else slice data pos (pos + 32)

def readTriple (offset : ℕ) : Outcome String SemanticTriple := do
  let subject ← indexedLe w data offset 0 4
  let predicate ← indexedLe w data offset 4 4
  let object ← indexedLe w data offset 8 4
  .ok ⟨UInt32.ofNat subject, UInt32.ofNat predicate, UInt32.ofNat object⟩

/-- The triples from the `i`-th one on. -/
def readTriples (start : ℕ) : ℕ → ℕ → Outcome String (List SemanticTriple)
  | 0, _ => .ok []
  | n + 1, i => do
    let k ← mulW w i tripleSize
    let offset ← addW w start k
    let t ← readTriple w data offset
    let ts ← readTriples start n (i + 1)
    .ok (t :: ts)

def readCommand (offset : ℕ) : Outcome String DisplayCommand := do
  let commandType ← byteAt data offset
  let color ← indexedLe w data offset 1 4
  let x ← indexedLe w data offset 5 2
  let y ← indexedLe w data offset 7 2
  let width ← indexedLe w data offset 9 2
  let height ← indexedLe w data offset 11 2
  let content ← indexedLe w data offset 13 4
  .ok ⟨commandType, UInt32.ofNat color, UInt16.ofNat x, UInt16.ofNat y, UInt16.ofNat width,
    UInt16.ofNat height, UInt32.ofNat content⟩

/-- The commands from the `i`-th one on. -/
def readCommands (start : ℕ) : ℕ → ℕ → Outcome String (List DisplayCommand)
  | 0, _ => .ok []
  | n + 1, i => do
    let k ← mulW w i commandSize
    let offset ← addW w start k
    let c ← readCommand w data offset
    let cs ← readCommands start n (i + 1)
    .ok (c :: cs)

def checkOffset (offset : UInt32) (outside beyond : String) : Outcome String Unit :=
  if offset ≠ 0 then
    if pool.length < saturatingAddW w offset.toNat 2 then .err outside
    else do
      let slen ← indexedLe w pool offset.toNat 0 2
      if pool.length < saturatingAddW w (saturatingAddW w offset.toNat 2) slen then .err beyond else .ok ()
  else .ok ()

def checkTripleOffset (i : ℕ) (name : String) (offset : UInt32) : Outcome String Unit :=
  checkOffset w pool offset
    s!"Triple {i} {name} offset {offset.toNat} exceeds string pool size {pool.length}"
    s!"Triple {i} {name} string at offset {offset.toNat} extends beyond pool"

def checkTriples : ℕ → List SemanticTriple → Outcome String Unit
  | _, [] => .ok ()
  | i, t :: ts => do
    checkTripleOffset w pool i "subject" t.subjectOffset
    checkTripleOffset w pool i "predicate" t.predicateOffset
    checkTripleOffset w pool i "object" t.objectOffset
    checkTriples (i + 1) ts

def checkCommands : ℕ → List DisplayCommand → Outcome String Unit
  | _, [] => .ok ()
  | i, c :: cs => do
    if c.commandType < 1 ∨ 4 < c.commandType then
      .err s!"Command {i} has invalid type {c.commandType.toNat} (expected 1-4)"
    else do
      checkOffset w pool c.contentOffset
        s!"Command {i} content offset {c.contentOffset.toNat} exceeds string pool size {pool.length}"
        s!"Command {i} content string at offset {c.contentOffset.toNat} extends beyond pool"
      checkCommands (i + 1) cs

/-- `NdaDocument::read`, with the index arithmetic of a machine of word size `w`. -/
def read : Outcome String NdaDocument :=
  if data.length < headerSize then .err s!"Buffer too small for NDA header: {data.length} bytes"
  else do
    let magic ← readU32Le data 0
    if magic ≠ documentMagic then
      .err s!"Invalid NDA magic: 0x{hex08 magic} (expected 0x{hex08 documentMagic})"
    else do
      let flags ← readU32Le data 4
      let root ← readMerkleRoot data 8
      let tripleCount ← readU32Le data 40
      let commandCount ← readU32Le data 44
      let poolOffset ← readU32Le data 48
      if maxTriples < tripleCount then .err s!"Triple count {tripleCount} exceeds maximum {maxTriples}"
      else if maxCommands < commandCount then
        .err s!"Command count {commandCount} exceeds maximum {maxCommands}"
      else match checkedMulW w tripleCount tripleSize with
      | none => .err "Integer overflow computing triples size"
      | some triplesSize =>
        match checkedMulW w commandCount commandSize with
        | none => .err "Integer overflow computing commands size"
        | some commandsSize =>
          match (checkedAddW w headerSize triplesSize).bind fun v => checkedAddW w v commandsSize with
          | none => .err "Integer overflow computing expected size"
          | some expectedMin =>
            if data.length < expectedMin then
              .err s!"NDA buffer corrupted: need {expectedMin} bytes, have {data.length}"
            else if data.length < poolOffset then
              .err s!"String pool offset {poolOffset} exceeds buffer size {data.length}"
            else if poolOffset < expectedMin then
              .err s!"String pool offset {poolOffset} overlaps with triples/commands (min {expectedMin})"
            else do
              let poolSize ← subW data.length poolOffset
              if maxStringPoolSize < poolSize then
                .err s!"String pool size {poolSize} exceeds maximum {maxStringPoolSize}"
              else do
                let triples ← readTriples w data headerSize tripleCount 0
                let size ← mulW w tripleCount tripleSize
                let commandsStart ← addW w headerSize size
                let commands ← readCommands w data commandsStart commandCount 0
                let pool ← sliceFrom data poolOffset
                checkTriples w pool 0 triples
                checkCommands w pool 0 commands
                .ok ⟨UInt32.ofNat flags, root, triples, commands, pool⟩

/-- `get_string`; offset 0 is the empty text. -/
def getString (doc : NdaDocument) (offset : UInt32) : Outcome String String :=
  if offset = 0 then .ok ""
  else if doc.stringPool.length < saturatingAddW w offset.toNat 2 then
    .err s!"String offset {offset.toNat} exceeds string pool size {doc.stringPool.length}"
  else do
    let len ← indexedLe w doc.stringPool offset.toNat 0 2
    if doc.stringPool.length < saturatingAddW w (saturatingAddW w offset.toNat 2) len then
      .err s!"String at offset {offset.toNat} extends beyond string pool"
    else do
      let start ← addW w offset.toNat 2
      let stop ← addW w start len
      let t ← slice doc.stringPool start stop
      match fromUtf8 t with
      | some s => .ok s
      | none => .err s!"Invalid UTF-8 in string pool at offset {offset.toNat}: {utf8ErrorText t}"

end Reader

/-! ## The words do not overflow -/

variable {w : ℕ} {data pool : Bytes}

theorem readTriple_eq (hw : data.length < 2 ^ w) {offset : ℕ} (h : offset + tripleSize ≤ data.length) :
    readTriple w data offset = NdaDocument.readTriple data offset := by
  have hsize : tripleSize = 12 := rfl
  rw [readTriple, NdaDocument.readTriple, indexedLe_eq hw (by omega), indexedLe_eq hw (by omega),
    indexedLe_eq hw (by omega), Nat.add_zero]

theorem readTriples_eq (hw : data.length < 2 ^ w) {start n i : ℕ} (h : start + (i + n) * tripleSize ≤ data.length) :
    readTriples w data start n i = NdaDocument.readTriples data n (start + i * tripleSize) := by
  induction n generalizing i with
  | zero => rfl
  | succ n ih =>
    have hall : (i + (n + 1)) * tripleSize = i * tripleSize + tripleSize + n * tripleSize := by ring
    have hnext : (i + 1) * tripleSize = i * tripleSize + tripleSize := by ring
    have hafter : (i + 1 + n) * tripleSize = i * tripleSize + tripleSize + n * tripleSize := by ring
    have hrest := ih (i := i + 1) (by omega)
    rw [hnext, ← Nat.add_assoc] at hrest
    rw [readTriples, NdaDocument.readTriples, mulW_of_lt (by omega), Outcome.ok_bind, addW_of_lt (by omega),
      Outcome.ok_bind, readTriple_eq hw (by omega), hrest]

theorem readCommand_eq (hw : data.length < 2 ^ w) {offset : ℕ} (h : offset + commandSize ≤ data.length) :
    readCommand w data offset = NdaDocument.readCommand data offset := by
  have hsize : commandSize = 17 := rfl
  rw [readCommand, NdaDocument.readCommand, indexedLe_eq hw (by omega), indexedLe_eq hw (by omega),
    indexedLe_eq hw (by omega), indexedLe_eq hw (by omega), indexedLe_eq hw (by omega), indexedLe_eq hw (by omega)]

theorem readCommands_eq (hw : data.length < 2 ^ w) {start n i : ℕ} (h : start + (i + n) * commandSize ≤ data.length) :
    readCommands w data start n i = NdaDocument.readCommands data n (start + i * commandSize) := by
  induction n generalizing i with
  | zero => rfl
  | succ n ih =>
    have hall : (i + (n + 1)) * commandSize = i * commandSize + commandSize + n * commandSize := by ring
    have hnext : (i + 1) * commandSize = i * commandSize + commandSize := by ring
    have hafter : (i + 1 + n) * commandSize = i * commandSize + commandSize + n * commandSize := by ring
    have hrest := ih (i := i + 1) (by omega)
    rw [hnext, ← Nat.add_assoc] at hrest
    rw [readCommands, NdaDocument.readCommands, mulW_of_lt (by omega), Outcome.ok_bind, addW_of_lt (by omega),
      Outcome.ok_bind, readCommand_eq hw (by omega), hrest]

theorem checkOffset_eq (hw : pool.length < 2 ^ w - 1) (offset : UInt32) (outside beyond : String) :
    checkOffset w pool offset outside beyond = NdaDocument.checkOffset pool offset outside beyond := by
  rw [checkOffset, NdaDocument.checkOffset]
  by_cases hroom : pool.length < offset.toNat + 2
  · rw [if_pos ((lt_saturatingAddW_iff hw).mpr hroom), if_pos hroom]
  · rw [if_neg (mt (lt_saturatingAddW_iff hw).mp hroom), if_neg hroom, indexedLe_eq (by omega) (by omega), Nat.add_zero]
    simp only [lt_saturatingAddW_saturatingAddW_iff hw]

theorem checkTriples_eq (hw : pool.length < 2 ^ w - 1) (i : ℕ) (ts : List SemanticTriple) :
    checkTriples w pool i ts = NdaDocument.checkTriples pool i ts := by
  induction ts generalizing i with
  | nil => rfl
  | cons t ts ih =>
    rw [checkTriples, NdaDocument.checkTriples, ih]
    simp only [checkTripleOffset, NdaDocument.checkTripleOffset, checkOffset_eq hw]

theorem checkCommands_eq (hw : pool.length < 2 ^ w - 1) (i : ℕ) (cs : List DisplayCommand) :
    checkCommands w pool i cs = NdaDocument.checkCommands pool i cs := by
  induction cs generalizing i with
  | nil => rfl
  | cons c cs ih => rw [checkCommands, NdaDocument.checkCommands, ih, checkOffset_eq hw]

theorem readU32Le_eq {pos : ℕ} (h : pos + 4 ≤ data.length) : readU32Le data pos = leAt data pos 4 := if_neg (by omega)

theorem readMerkleRoot_eq (h : 40 ≤ data.length) : readMerkleRoot data 8 = slice data 8 40 := if_neg (by omega)

theorem getString_eq {doc : NdaDocument} (hw : doc.stringPool.length < 2 ^ w - 1) (offset : UInt32) :
    getString w doc offset = doc.getString offset := by
  rw [getString, NdaDocument.getString]
  by_cases hzero : offset = 0
  · rw [if_pos hzero, if_pos hzero]
  rw [if_neg hzero, if_neg hzero]
  by_cases hroom : doc.stringPool.length < offset.toNat + 2
  · rw [if_pos ((lt_saturatingAddW_iff hw).mpr hroom), if_pos hroom]
  rw [if_neg (mt (lt_saturatingAddW_iff hw).mp hroom), if_neg hroom, indexedLe_eq (by omega) (by omega), Nat.add_zero]
  refine congrArg _ (funext fun len => ?_)
  by_cases hlen : doc.stringPool.length < offset.toNat + 2 + len
  · rw [if_pos ((lt_saturatingAddW_saturatingAddW_iff hw).mpr hlen), if_pos hlen]
  · rw [if_neg (mt (lt_saturatingAddW_saturatingAddW_iff hw).mp hlen), if_neg hlen, addW_of_lt (by omega),
      Outcome.ok_bind, addW_of_lt (by omega)]
    exact Outcome.ok_bind _ _

theorem two_pow_le (hw : 32 ≤ w) : 2 ^ 32 ≤ 2 ^ w := Nat.pow_le_pow_right (by decide) hw

theorem lt_of_slice (hw : 32 ≤ w) {n : ℕ} (hn : n < 2 ^ (w - 1)) : n < 2 ^ w - 1 := by
  have hdouble : 2 ^ w = 2 * 2 ^ (w - 1) := by rw [← pow_succ', Nat.sub_add_cancel (by omega)]
  omega

/-- **The words do not overflow and no index is out of range.** -/
theorem read_eq (hw : 32 ≤ w) (hdata : data.length < 2 ^ (w - 1)) : read w data = NdaDocument.read data := by
  have hword := lt_of_slice hw hdata
  have hpow := two_pow_le hw
  rw [read, NdaDocument.read]
  by_cases hheader : data.length < headerSize
  · rw [if_pos hheader, if_pos hheader]
  have hlen : 52 ≤ data.length := not_lt.mp hheader
  rw [if_neg hheader, if_neg hheader, readU32Le_eq (by omega), readU32Le_eq (by omega), readMerkleRoot_eq (by omega),
    readU32Le_eq (by omega), readU32Le_eq (by omega), readU32Le_eq (by omega)]
  refine congrArg _ (funext fun magic => ?_)
  by_cases hmagic : magic ≠ documentMagic
  · rw [if_pos hmagic, if_pos hmagic]
  rw [if_neg hmagic, if_neg hmagic]
  refine congrArg _ (funext fun flags => congrArg _ (funext fun root => congrArg _ (funext fun tripleCount =>
    congrArg _ (funext fun commandCount => congrArg _ (funext fun poolOffset => ?_)))))
  by_cases htriples : maxTriples < tripleCount
  · rw [if_pos htriples, if_pos htriples]
  by_cases hcommands : maxCommands < commandCount
  · rw [if_neg htriples, if_neg htriples, if_pos hcommands, if_pos hcommands]
  rw [if_neg htriples, if_neg htriples, if_neg hcommands, if_neg hcommands]
  -- from here the two limits bound every product and every sum
  have htsize : tripleCount * tripleSize ≤ 12000000 := Nat.mul_le_mul_right tripleSize (not_lt.mp htriples)
  have hcsize : commandCount * commandSize ≤ 17000000 := Nat.mul_le_mul_right commandSize (not_lt.mp hcommands)
  have hh : headerSize = 52 := rfl
  have htriplesSize : checkedMulW w tripleCount tripleSize = some (tripleCount * tripleSize) :=
    checkedMulW_of_lt (by omega)
  have hcommandsSize : checkedMulW w commandCount commandSize = some (commandCount * commandSize) :=
    checkedMulW_of_lt (by omega)
  have hexpected : (checkedAddW w headerSize (tripleCount * tripleSize)).bind
      (fun v => checkedAddW w v (commandCount * commandSize)) =
        some (headerSize + tripleCount * tripleSize + commandCount * commandSize) := by
    rw [checkedAddW_of_lt (by omega), Option.bind_some, checkedAddW_of_lt (by omega)]
  simp only [htriplesSize, hcommandsSize, hexpected]
  -- the checks of the sizes come in the same order in both
  by_cases hmin : data.length < headerSize + tripleCount * tripleSize + commandCount * commandSize
  · rw [if_pos hmin, if_pos hmin]
  by_cases hout : data.length < poolOffset
  · rw [if_neg hmin, if_neg hmin, if_pos hout, if_pos hout]
  by_cases hover : poolOffset < headerSize + tripleCount * tripleSize + commandCount * commandSize
  · rw [if_neg hmin, if_neg hmin, if_neg hout, if_neg hout, if_pos hover, if_pos hover]
  rw [if_neg hmin, if_neg hmin, if_neg hout, if_neg hout, if_neg hover, if_neg hover, subW_of_le (by omega),
    Outcome.ok_bind]
  by_cases hpool : maxStringPoolSize < data.length - poolOffset
  · rw [if_pos hpool, if_pos hpool]
  rw [if_neg hpool, if_neg hpool]
  have hts : readTriples w data headerSize tripleCount 0 = NdaDocument.readTriples data tripleCount headerSize := by
    rw [readTriples_eq (by omega) (by rw [Nat.zero_add]; omega), Nat.zero_mul, Nat.add_zero]
  have hsize : mulW (ε := String) w tripleCount tripleSize = .ok (tripleCount * tripleSize) := mulW_of_lt (by omega)
  have hstart : addW (ε := String) w headerSize (tripleCount * tripleSize) =
      .ok (headerSize + tripleCount * tripleSize) := addW_of_lt (by omega)
  have hcs : readCommands w data (headerSize + tripleCount * tripleSize) commandCount 0 =
      NdaDocument.readCommands data commandCount (headerSize + tripleCount * tripleSize) := by
    rw [readCommands_eq (by omega) (by rw [Nat.zero_add]; omega), Nat.zero_mul, Nat.add_zero]
  have hslice : sliceFrom (ε := String) data poolOffset = .ok (data.drop poolOffset) := sliceFrom_of_le (by omega)
  have hrest : (data.drop poolOffset).length < 2 ^ w - 1 := by
    rw [List.length_drop]
    omega
  simp only [hts, hsize, hstart, hcs, hslice, Outcome.ok_bind, checkTriples_eq hrest, checkCommands_eq hrest]

end Machine

/-! ## The report -/

section Report

variable (doc : NdaDocument)

def inspectTriples : List SemanticTriple → Outcome String String
  | [] => .ok ""
  | t :: ts => do
    let s ← doc.getString t.subjectOffset
    let p ← doc.getString t.predicateOffset
    let o ← doc.getString t.objectOffset
    let out ← inspectTriples ts
    .ok (s!"({s}, {p}, {o})\n" ++ out)

def inspectCommands : List DisplayCommand → Outcome String String
  | [] => .ok ""
  | c :: cs => do
    let content ← doc.getString c.contentOffset
    let out ← inspectCommands cs
    .ok (s!"Command Type: {c.commandType.toNat} | Color: {hex08 c.color.toNat} | X: {c.x.toNat} | Y: {c.y.toNat} | " ++
      s!"Width: {c.width.toNat} | Height: {c.height.toNat} | Content: {content}\n" ++ out)

/-- The report of `read_nda`. -/
def formatInspection (filename : String) : Outcome String String := do
  let triples ← inspectTriples doc doc.triples
  let commands ← inspectCommands doc doc.commands
  .ok (s!"=== NDA Document Inspection: {filename} ===\n" ++ s!"Merkle Root Signature: {hexEncode doc.merkleRoot}\n" ++
    s!"Triples Count: {doc.triples.length}\n" ++ s!"Display Commands Count: {doc.commands.length}\n" ++
    "\n--- Semantic Triples ---\n" ++ triples ++ "\n--- Visual Display Commands ---\n" ++ commands)

end Report

/-! ## Offsets of a pool -/

section Offsets

variable {pool : Bytes} {offset : UInt32} {outside beyond : String}

def poolLength (pool : Bytes) (offset : UInt32) : ℕ := leNat ((pool.drop offset.toNat).take 2)

def poolBytes (pool : Bytes) (offset : UInt32) : Bytes :=
  if offset = 0 then [] else (pool.drop (offset.toNat + 2)).take (poolLength pool offset)

def InPool (pool : Bytes) (offset : UInt32) : Prop :=
  offset = 0 ∨ offset.toNat + 2 + poolLength pool offset ≤ pool.length

theorem leAt_poolLength (h : offset.toNat + 2 ≤ pool.length) :
    leAt (ε := String) pool offset.toNat 2 = .ok (poolLength pool offset) := by
  rw [leAt, slice_of_le (by omega) h, Nat.add_sub_cancel_left]
  rfl

theorem checkOffset_eq_ok_iff : NdaDocument.checkOffset pool offset outside beyond = .ok () ↔ InPool pool offset := by
  rw [NdaDocument.checkOffset, InPool]
  by_cases hzero : offset = 0
  · rw [if_neg (not_not_intro hzero)]
    exact iff_of_true rfl (Or.inl hzero)
  rw [if_pos hzero, or_iff_right hzero, Outcome.ite_err_eq_ok]
  constructor
  · rintro ⟨hroom, h⟩
    rw [leAt_poolLength (by omega), Outcome.ok_bind, Outcome.ite_err_eq_ok] at h
    omega
  · intro h
    refine ⟨by omega, ?_⟩
    rw [leAt_poolLength (by omega), Outcome.ok_bind, if_neg (by omega)]

theorem checkOffset_ne_panic : NdaDocument.checkOffset pool offset outside beyond ≠ .panic := by
  rw [NdaDocument.checkOffset]
  by_cases hzero : offset = 0
  · rw [if_neg (not_not_intro hzero)]
    intro h
    cases h
  rw [if_pos hzero]
  by_cases hroom : pool.length < offset.toNat + 2
  · rw [if_pos hroom]
    intro h
    cases h
  rw [if_neg hroom, leAt_poolLength (by omega), Outcome.ok_bind]
  split_ifs
  · intro h
    cases h
  · intro h
    cases h

def invalidText (pool : Bytes) (offset : UInt32) : String :=
  s!"Invalid UTF-8 in string pool at offset {offset.toNat}: {utf8ErrorText (poolBytes pool offset)}"

theorem getString_of_inPool {doc : NdaDocument} (h : InPool doc.stringPool offset) : doc.getString offset =
    match fromUtf8 (poolBytes doc.stringPool offset) with
    | some s => .ok s
    | none => .err (invalidText doc.stringPool offset) := by
  rw [NdaDocument.getString]
  by_cases hzero : offset = 0
  · rw [if_pos hzero, poolBytes, if_pos hzero]
    rfl
  have hin : offset.toNat + 2 + poolLength doc.stringPool offset ≤ doc.stringPool.length := h.resolve_left hzero
  have hbytes : poolBytes doc.stringPool offset =
      (doc.stringPool.drop (offset.toNat + 2)).take (poolLength doc.stringPool offset) := if_neg hzero
  rw [if_neg hzero, if_neg (by omega), leAt_poolLength (by omega), Outcome.ok_bind, if_neg (by omega),
    slice_of_le (by omega) hin, Nat.add_sub_cancel_left, Outcome.ok_bind, ← hbytes]
  rfl

theorem InPool.append (h : InPool pool offset) (r : Bytes) :
    InPool (pool ++ r) offset ∧ poolBytes (pool ++ r) offset = poolBytes pool offset := by
  rcases h with rfl | h
  · exact ⟨Or.inl rfl, rfl⟩
  have hlen : poolLength (pool ++ r) offset = poolLength pool offset := by
    rw [poolLength, List.drop_append_of_le_length (by omega),
      List.take_append_of_le_length (by rw [List.length_drop]; omega), poolLength]
  refine ⟨Or.inr ?_, ?_⟩
  · rw [hlen, List.length_append]
    omega
  · rw [poolBytes, poolBytes, hlen, List.drop_append_of_le_length (by omega),
      List.take_append_of_le_length (by rw [List.length_drop]; omega)]

end Offsets

/-! ## Accepted documents -/

section Accepted

variable {data pool : Bytes} {doc : NdaDocument}

def TripleIn (pool : Bytes) (t : SemanticTriple) : Prop :=
  InPool pool t.subjectOffset ∧ InPool pool t.predicateOffset ∧ InPool pool t.objectOffset

theorem checkTriples_eq_ok_iff {i : ℕ} {ts : List SemanticTriple} :
    NdaDocument.checkTriples pool i ts = .ok () ↔ ∀ t ∈ ts, TripleIn pool t := by
  induction ts generalizing i with
  | nil => exact iff_of_true rfl fun _ ht => absurd ht List.not_mem_nil
  | cons t ts ih =>
    rw [NdaDocument.checkTriples, List.forall_mem_cons, ← ih (i := i + 1), TripleIn, Outcome.bind_eq_ok]
    constructor
    · rintro ⟨_, hs, h⟩
      obtain ⟨_, hp, h⟩ := Outcome.bind_eq_ok.mp h
      obtain ⟨_, ho, h⟩ := Outcome.bind_eq_ok.mp h
      exact ⟨⟨checkOffset_eq_ok_iff.mp hs, checkOffset_eq_ok_iff.mp hp, checkOffset_eq_ok_iff.mp ho⟩, h⟩
    · rintro ⟨⟨hs, hp, ho⟩, h⟩
      refine ⟨(), checkOffset_eq_ok_iff.mpr hs, Outcome.bind_eq_ok.mpr ⟨(), checkOffset_eq_ok_iff.mpr hp, ?_⟩⟩
      exact Outcome.bind_eq_ok.mpr ⟨(), checkOffset_eq_ok_iff.mpr ho, h⟩

theorem inPool_of_checkCommands {i : ℕ} {cs : List DisplayCommand} (h : NdaDocument.checkCommands pool i cs = .ok ()) :
    ∀ c ∈ cs, InPool pool c.contentOffset := by
  induction cs generalizing i with
  | nil => exact fun _ hc => absurd hc List.not_mem_nil
  | cons c cs ih =>
    rw [NdaDocument.checkCommands, Outcome.ite_err_eq_ok, Outcome.bind_eq_ok] at h
    obtain ⟨-, _, hoffset, hrest⟩ := h
    rw [List.forall_mem_cons]
    exact ⟨checkOffset_eq_ok_iff.mp hoffset, ih hrest⟩

theorem commandType_of_checkCommands {i : ℕ} {cs : List DisplayCommand}
    (h : NdaDocument.checkCommands pool i cs = .ok ()) : ∀ c ∈ cs, 1 ≤ c.commandType ∧ c.commandType ≤ 4 := by
  induction cs generalizing i with
  | nil => exact fun _ hc => absurd hc List.not_mem_nil
  | cons c cs ih =>
    rw [NdaDocument.checkCommands, Outcome.ite_err_eq_ok, Outcome.bind_eq_ok, not_or] at h
    obtain ⟨⟨hlo, hhi⟩, _, -, hrest⟩ := h
    rw [List.forall_mem_cons]
    exact ⟨⟨UInt8.not_lt.mp hlo, UInt8.not_lt.mp hhi⟩, ih hrest⟩

theorem checkTriples_ne_panic (i : ℕ) (ts : List SemanticTriple) : NdaDocument.checkTriples pool i ts ≠ .panic := by
  induction ts generalizing i with
  | nil => exact fun h => nomatch h
  | cons t ts ih =>
    refine Outcome.bind_ne_panic checkOffset_ne_panic fun _ _ => ?_
    refine Outcome.bind_ne_panic checkOffset_ne_panic fun _ _ => ?_
    exact Outcome.bind_ne_panic checkOffset_ne_panic fun _ _ => ih (i + 1)

theorem checkCommands_ne_panic (i : ℕ) (cs : List DisplayCommand) : NdaDocument.checkCommands pool i cs ≠ .panic := by
  induction cs generalizing i with
  | nil =>
    intro h
    cases h
  | cons c cs ih =>
    rw [NdaDocument.checkCommands]
    split_ifs
    · intro h
      cases h
    · exact Outcome.bind_ne_panic checkOffset_ne_panic fun _ _ => ih (i + 1)

theorem readTriple_ne_panic {offset : ℕ} (h : offset + tripleSize ≤ data.length) :
    NdaDocument.readTriple data offset ≠ .panic := by
  have hsize : tripleSize = 12 := rfl
  refine Outcome.bind_ne_panic (leAt_ne_panic (by omega)) fun _ _ => ?_
  refine Outcome.bind_ne_panic (leAt_ne_panic (by omega)) fun _ _ => ?_
  exact Outcome.bind_ne_panic (leAt_ne_panic (by omega)) fun _ _ h => nomatch h

theorem readTriples_ne_panic {n offset : ℕ} (h : offset + n * tripleSize ≤ data.length) :
    NdaDocument.readTriples data n offset ≠ .panic := by
  induction n generalizing offset with
  | zero => exact fun h => nomatch h
  | succ n ih =>
    have hnext : (n + 1) * tripleSize = tripleSize + n * tripleSize := by ring
    refine Outcome.bind_ne_panic (readTriple_ne_panic (by omega)) fun _ _ => ?_
    exact Outcome.bind_ne_panic (ih (by omega)) fun _ _ h => nomatch h

theorem readCommand_ne_panic {offset : ℕ} (h : offset + commandSize ≤ data.length) :
    NdaDocument.readCommand data offset ≠ .panic := by
  have hsize : commandSize = 17 := rfl
  refine Outcome.bind_ne_panic (byteAt_ne_panic (by omega)) fun _ _ => ?_
  refine Outcome.bind_ne_panic (leAt_ne_panic (by omega)) fun _ _ => ?_
  refine Outcome.bind_ne_panic (leAt_ne_panic (by omega)) fun _ _ => ?_
  refine Outcome.bind_ne_panic (leAt_ne_panic (by omega)) fun _ _ => ?_
  refine Outcome.bind_ne_panic (leAt_ne_panic (by omega)) fun _ _ => ?_
  refine Outcome.bind_ne_panic (leAt_ne_panic (by omega)) fun _ _ => ?_
  exact Outcome.bind_ne_panic (leAt_ne_panic (by omega)) fun _ _ h => nomatch h

theorem readCommands_ne_panic {n offset : ℕ} (h : offset + n * commandSize ≤ data.length) :
    NdaDocument.readCommands data n offset ≠ .panic := by
  induction n generalizing offset with
  | zero => exact fun h => nomatch h
  | succ n ih =>
    have hnext : (n + 1) * commandSize = commandSize + n * commandSize := by ring
    refine Outcome.bind_ne_panic (readCommand_ne_panic (by omega)) fun _ _ => ?_
    exact Outcome.bind_ne_panic (ih (by omega)) fun _ _ h => nomatch h

theorem read_ne_panic (data : Bytes) : NdaDocument.read data ≠ .panic := by
  refine Outcome.ite_err_ne_panic fun hheader => ?_
  have hlen : 52 ≤ data.length := not_lt.mp hheader
  refine Outcome.bind_ne_panic (leAt_ne_panic (by omega)) fun magic _ => Outcome.ite_err_ne_panic fun _ => ?_
  refine Outcome.bind_ne_panic (leAt_ne_panic (by omega)) fun _ _ => ?_
  refine Outcome.bind_ne_panic (slice_ne_panic (by omega) (by omega)) fun _ _ => ?_
  refine Outcome.bind_ne_panic (leAt_ne_panic (by omega)) fun _ _ => ?_
  refine Outcome.bind_ne_panic (leAt_ne_panic (by omega)) fun _ _ => ?_
  refine Outcome.bind_ne_panic (leAt_ne_panic (by omega)) fun _ _ => ?_
  refine Outcome.ite_err_ne_panic fun _ => Outcome.ite_err_ne_panic fun _ => Outcome.ite_err_ne_panic fun hmin => ?_
  refine Outcome.ite_err_ne_panic fun hout => Outcome.ite_err_ne_panic fun _ => Outcome.ite_err_ne_panic fun _ => ?_
  refine Outcome.bind_ne_panic (readTriples_ne_panic (by omega)) fun _ _ => ?_
  refine Outcome.bind_ne_panic (readCommands_ne_panic (by omega)) fun _ _ => ?_
  refine Outcome.bind_ne_panic (sliceFrom_ne_panic (by omega)) fun _ _ => ?_
  refine Outcome.bind_ne_panic (checkTriples_ne_panic _ _) fun _ _ => ?_
  exact Outcome.bind_ne_panic (checkCommands_ne_panic _ _) fun _ _ h => nomatch h

theorem inPool_of_read (h : NdaDocument.read data = .ok doc) : (∀ t ∈ doc.triples, TripleIn doc.stringPool t) ∧
    (∀ c ∈ doc.commands, InPool doc.stringPool c.contentOffset) ∧ doc.stringPool.length ≤ data.length := by
  obtain ⟨tripleCount, commandCount, poolOffset, hread⟩ := NdaDocument.accepts_of_read h
  refine ⟨checkTriples_eq_ok_iff.mp hread.triplesChecked, inPool_of_checkCommands hread.commandsChecked, ?_⟩
  rw [← hread.poolRead, List.length_drop]
  omega

end Accepted

/-! ## What can fail -/

section Failures

variable {α β : Type} {doc : NdaDocument} {offsets : List UInt32}

/-- Nothing fails but that one of the strings is not valid UTF-8. -/
def FailsOnText (doc : NdaDocument) (offsets : List UInt32) (x : Outcome String α) : Prop :=
  (∃ a, x = .ok a) ∨ ∃ offset ∈ offsets, fromUtf8 (poolBytes doc.stringPool offset) = none ∧
    x = .err (invalidText doc.stringPool offset)

theorem FailsOnText.ok (a : α) : FailsOnText doc offsets (.ok a : Outcome String α) := Or.inl ⟨a, rfl⟩

theorem FailsOnText.bind {x : Outcome String α} {f : α → Outcome String β} (hx : FailsOnText doc offsets x)
    (hf : ∀ a, FailsOnText doc offsets (f a)) : FailsOnText doc offsets (x >>= f) := by
  rcases hx with ⟨a, rfl⟩ | ⟨offset, hmem, hbad, rfl⟩
  · exact hf a
  · exact Or.inr ⟨offset, hmem, hbad, rfl⟩

theorem failsOnText_getString {offset : UInt32} (h : InPool doc.stringPool offset) (hmem : offset ∈ offsets) :
    FailsOnText doc offsets (doc.getString offset) := by
  rw [getString_of_inPool h]
  cases htext : fromUtf8 (poolBytes doc.stringPool offset) with
  | some s => exact .ok s
  | none => exact Or.inr ⟨offset, hmem, htext, rfl⟩

def tripleOffsets (t : SemanticTriple) : List UInt32 := [t.subjectOffset, t.predicateOffset, t.objectOffset]

/-- Every offset into the string pool that a document holds. -/
def storedOffsets (doc : NdaDocument) : List UInt32 :=
  doc.triples.flatMap tripleOffsets ++ doc.commands.map DisplayCommand.contentOffset

theorem failsOnText_triple {t : SemanticTriple} (h : TripleIn doc.stringPool t) (hsub : tripleOffsets t ⊆ offsets)
    {f : String → String → String → Outcome String β} (hf : ∀ s p o, FailsOnText doc offsets (f s p o)) :
    FailsOnText doc offsets (do
      let s ← doc.getString t.subjectOffset
      let p ← doc.getString t.predicateOffset
      let o ← doc.getString t.objectOffset
      f s p o) := by
  refine (failsOnText_getString h.1 (hsub ?_)).bind fun s => ?_
  · exact List.mem_cons_self
  refine (failsOnText_getString h.2.1 (hsub ?_)).bind fun p => ?_
  · exact List.mem_cons_of_mem _ List.mem_cons_self
  refine (failsOnText_getString h.2.2 (hsub ?_)).bind fun o => ?_
  · exact List.mem_cons_of_mem _ (List.mem_cons_of_mem _ List.mem_cons_self)
  exact hf s p o

theorem failsOnText_leaves (sha256 : Bytes → Bytes) {ts : List SemanticTriple} (h : ∀ t ∈ ts, TripleIn doc.stringPool t)
    (hsub : ts.flatMap tripleOffsets ⊆ offsets) : FailsOnText doc offsets (doc.leaves sha256 ts) := by
  induction ts with
  | nil => exact .ok []
  | cons t ts ih =>
    rw [List.flatMap_cons, List.append_subset] at hsub
    rw [List.forall_mem_cons] at h
    exact failsOnText_triple h.1 hsub.1 fun s p o => (ih h.2 hsub.2).bind fun rest => .ok _

theorem failsOnText_inspectTriples {ts : List SemanticTriple} (h : ∀ t ∈ ts, TripleIn doc.stringPool t)
    (hsub : ts.flatMap tripleOffsets ⊆ offsets) : FailsOnText doc offsets (inspectTriples doc ts) := by
  induction ts with
  | nil => exact .ok ""
  | cons t ts ih =>
    rw [List.flatMap_cons, List.append_subset] at hsub
    rw [List.forall_mem_cons] at h
    exact failsOnText_triple h.1 hsub.1 fun s p o => (ih h.2 hsub.2).bind fun out => .ok _

theorem failsOnText_inspectCommands {cs : List DisplayCommand} (h : ∀ c ∈ cs, InPool doc.stringPool c.contentOffset)
    (hsub : cs.map DisplayCommand.contentOffset ⊆ offsets) : FailsOnText doc offsets (inspectCommands doc cs) := by
  induction cs with
  | nil => exact .ok ""
  | cons c cs ih =>
    rw [List.map_cons, List.cons_subset] at hsub
    rw [List.forall_mem_cons] at h
    refine (failsOnText_getString h.1 hsub.1).bind fun content => ?_
    exact (ih h.2 hsub.2).bind fun out => .ok _

theorem failsOnText_formatInspection (htriples : ∀ t ∈ doc.triples, TripleIn doc.stringPool t)
    (hcommands : ∀ c ∈ doc.commands, InPool doc.stringPool c.contentOffset) (filename : String) :
    FailsOnText doc (storedOffsets doc) (formatInspection doc filename) := by
  refine (failsOnText_inspectTriples htriples (List.subset_append_left _ _)).bind fun triples => ?_
  refine (failsOnText_inspectCommands hcommands (List.subset_append_right _ _)).bind fun commands => ?_
  exact .ok _

theorem exists_merkleTop (sha256 : Bytes → Bytes) (leaves : List Bytes) :
    ∃ root, merkleTop sha256 leaves = .ok root := by
  by_cases hne : leaves = []
  · exact ⟨List.replicate 32 0, if_pos hne⟩
  · obtain ⟨root, hroot⟩ := exists_reduce_eq (f := nodeHash sha256) hne
    refine ⟨root, ?_⟩
    rw [merkleTop, if_neg hne, merkleLoop_eq, hroot]
    rfl

/-- A root that is not the one of the triples is the only other reason for a failed verification. -/
theorem verifyMerkle_cases (htriples : ∀ t ∈ doc.triples, TripleIn doc.stringPool t) (sha256 : Bytes → Bytes) :
    FailsOnText doc (storedOffsets doc) (doc.verifyMerkle sha256) ∨
      ∃ root, doc.recomputeMerkleRoot sha256 = .ok root ∧ root ≠ doc.merkleRoot := by
  have hleaves := failsOnText_leaves sha256 htriples
    (List.subset_append_left _ (doc.commands.map DisplayCommand.contentOffset))
  have hroot : FailsOnText doc (storedOffsets doc) (doc.recomputeMerkleRoot sha256) := by
    refine hleaves.bind fun level => ?_
    obtain ⟨root, hroot⟩ := exists_merkleTop sha256 level
    rw [hroot]
    exact .ok root
  rcases hroot with ⟨root, hroot⟩ | ⟨offset, hmem, hbad, herr⟩
  · by_cases heq : root = doc.merkleRoot
    · refine Or.inl (Or.inl ⟨(), ?_⟩)
      rw [NdaDocument.verifyMerkle, hroot, Outcome.ok_bind, if_pos heq]
    · exact Or.inr ⟨root, hroot, heq⟩
  · refine Or.inl (Or.inr ⟨offset, hmem, hbad, ?_⟩)
    rw [NdaDocument.verifyMerkle, herr]
    rfl

end Failures

/-! ## Safety -/

section Safety

variable {w : ℕ} {data : Bytes}

theorem inPool_of_mem_storedOffsets {doc : NdaDocument} (h : NdaDocument.read data = .ok doc) :
    ∀ offset ∈ storedOffsets doc, InPool doc.stringPool offset := by
  obtain ⟨htriples, hcommands, -⟩ := inPool_of_read h
  intro offset hoffset
  rcases List.mem_append.mp hoffset with hoffset | hoffset
  · obtain ⟨t, ht, hoffset⟩ := List.mem_flatMap.mp hoffset
    obtain ⟨hs, hp, ho⟩ := htriples t ht
    simp only [tripleOffsets, List.mem_cons, List.not_mem_nil, or_false] at hoffset
    rcases hoffset with rfl | rfl | rfl
    · exact hs
    · exact hp
    · exact ho
  · obtain ⟨c, hc, rfl⟩ := List.mem_map.mp hoffset
    exact hcommands c hc

/-- **Reading is safe**: no index is out of range, no offset overflows, and on a document that was accepted only a
string that is not valid UTF-8, or for `verify_merkle` the wrong root, makes anything fail. -/
theorem read_safe (hw : 32 ≤ w) (hdata : data.length < 2 ^ (w - 1)) :
    Machine.read w data ≠ .panic ∧ ∀ doc, Machine.read w data = .ok doc →
      (∀ offset ∈ storedOffsets doc, FailsOnText doc [offset] (Machine.getString w doc offset)) ∧
      (∀ offset, Machine.getString w doc offset = doc.getString offset) ∧
      (∀ filename, FailsOnText doc (storedOffsets doc) (formatInspection doc filename)) ∧
      ∀ sha256, FailsOnText doc (storedOffsets doc) (doc.verifyMerkle sha256) ∨
        ∃ root, doc.recomputeMerkleRoot sha256 = .ok root ∧ root ≠ doc.merkleRoot := by
  rw [Machine.read_eq hw hdata]
  refine ⟨read_ne_panic data, fun doc hread => ?_⟩
  obtain ⟨htriples, hcommands, hpool⟩ := inPool_of_read hread
  have hsame : ∀ offset, Machine.getString w doc offset = doc.getString offset :=
    Machine.getString_eq (Machine.lt_of_slice hw (lt_of_le_of_lt hpool hdata))
  refine ⟨fun offset hoffset => ?_, hsame, ?_, ?_⟩
  · rw [hsame]
    exact failsOnText_getString (inPool_of_mem_storedOffsets hread offset hoffset) (List.mem_singleton_self offset)
  · exact failsOnText_formatInspection htriples hcommands
  · exact verifyMerkle_cases htriples

def wrongRootDoc : NdaDocument := ⟨0, List.replicate 32 1, [], [⟨1, 0, 0, 0, 0, 0, 0⟩], [0, 0]⟩

def wrongRootData : Bytes :=
  NdaCompiler.documentBytes wrongRootDoc.merkleRoot wrongRootDoc.triples wrongRootDoc.commands wrongRootDoc.stringPool

theorem length_wrongRootData : wrongRootData.length < 2 ^ 63 := by
  have hlen : wrongRootData.length = 71 := by decide +kernel
  rw [hlen]
  decide

theorem read_wrongRootData : Machine.read 64 wrongRootData = .ok wrongRootDoc := by
  rw [Machine.read_eq (by decide) length_wrongRootData]
  exact NdaDocument.read_documentBytes (by decide) (by decide) (by decide) (by decide) rfl rfl

/-- A document whose root does not match. -/
theorem read_safe_wrongRoot : Machine.read 64 wrongRootData ≠ .panic ∧
    ∀ filename, FailsOnText wrongRootDoc (storedOffsets wrongRootDoc) (formatInspection wrongRootDoc filename) := by
  obtain ⟨hpanic, hsafe⟩ := read_safe (w := 64) (by decide) length_wrongRootData
  exact ⟨hpanic, (hsafe wrongRootDoc read_wrongRootData).2.2.1⟩

/-- Its strings are valid, and its root does not verify. -/
theorem wrongRoot_fails : ∃ data doc, Machine.read 64 data = .ok doc ∧
    (∀ offset ∈ storedOffsets doc, ∃ s, Machine.getString 64 doc offset = .ok s) ∧
      ∀ sha256, doc.verifyMerkle sha256 ≠ .ok () := by
  refine ⟨wrongRootData, wrongRootDoc, read_wrongRootData, ?_, fun sha256 h => ?_⟩
  · intro offset hoffset
    obtain rfl := List.mem_singleton.mp hoffset
    exact ⟨"", rfl⟩
  · obtain ⟨texts, htexts, htop⟩ := verifyMerkle_eq_ok_iff.mp h
    obtain rfl := Outcome.ok.inj htexts
    exact absurd (merkleTop_nil htop) (by decide)

end Safety

end VelocityMcp.Document
