import Mathlib.Algebra.Order.BigOperators.Group.List
import VelocityMcp.Lib.Base64
import VelocityMcp.Lib.Text
import VelocityMcp.NdaDocument

/-!
# Document.Executor — what an NDA document has the executor run (`nda_executor.rs`)

`WithinLimits.read_compiled`: a converter's document is accepted, and stores the triples and commands that were added.
-/

namespace VelocityMcp.Document

open Lib

/-- What goes into the sandbox: a .NET assembly, or a program with the name of its file. -/
inductive Job where
  | binary (assembly : Bytes)
  | source (filename : Option String) (code : String)
deriving DecidableEq

structure Metadata where
  filename : Option String
  base64Data : Option String
  language : Option String

/-- The metadata with one more triple of the asset. -/
def Metadata.set (x : Metadata) (p o : String) : Metadata :=
  if p = "FILENAME" then { x with filename := some o }
  else if p = "BASE64_DATA" then { x with base64Data := some o }
  else if p = "LANGUAGE" then { x with language := some o }
  else x

section Execute

variable (doc : NdaDocument)

/-- The first pass: the type of the payload and its asset. -/
def findPayload : List SemanticTriple → Outcome String (Option (String × String))
  | [] => .ok none
  | t :: ts => do
    let s ← doc.getString t.subjectOffset
    let p ← doc.getString t.predicateOffset
    let o ← doc.getString t.objectOffset
    if p = "TYPE" ∧ (o = "BinaryPayload" ∨ o = "SourceCode") then .ok (some (o, s)) else findPayload ts

/-- The second pass: the metadata of the asset; the last triple of a kind wins. -/
def collectMetadata (assetId : String) : List SemanticTriple → Metadata → Outcome String Metadata
  | [], x => .ok x
  | t :: ts, x => do
    let s ← doc.getString t.subjectOffset
    if s ≠ assetId then collectMetadata assetId ts x
    else do
      let p ← doc.getString t.predicateOffset
      let o ← doc.getString t.objectOffset
      collectMetadata assetId ts (x.set p o)

def codeLines : List DisplayCommand → Outcome String (List String)
  | [] => .ok []
  | c :: cs =>
    if c.commandType = 1 ∧ c.x = 85 then do
      let text ← doc.getString c.contentOffset
      let texts ← codeLines cs
      .ok (text :: texts)
    else codeLines cs

end Execute

/-- `execute_binary_payload`, up to the sandbox; `decodeError` writes the error of the decoder. -/
def executeBinaryPayload (decodeError : String → String) : Option String → Outcome String Job
  | none => .err "BinaryPayload is missing BASE64_DATA."
  | some b64 =>
    match Base64.decode b64 with
    | none => .err s!"Failed to decode BASE64_DATA: {decodeError b64}"
    | some assembly =>
      if 30 * 1024 * 1024 < assembly.length then .err "Binary payload exceeds 30MB limit" else .ok (.binary assembly)

/-- `execute_source_code`, up to the sandbox. -/
def executeSourceCode (doc : NdaDocument) (filename : Option String) : Outcome String Job := do
  let texts ← codeLines doc doc.commands
  let code := String.intercalate "\n" texts
  if trimText code = "" then .err "SourceCode payload contains no code lines in the command buffer."
  else .ok (.source filename code)

/-- `execute_nda` on a document that has been read. -/
def execute (decodeError : String → String) (doc : NdaDocument) : Outcome String Job := do
  match ← findPayload doc doc.triples with
  | none => .err "NDA file does not contain a runnable payload type (BinaryPayload or SourceCode)."
  | some (payloadType, assetId) =>
    let x ← collectMetadata doc assetId doc.triples ⟨none, none, none⟩
    if payloadType = "BinaryPayload" then executeBinaryPayload decodeError x.base64Data
    else if payloadType = "SourceCode" then executeSourceCode doc x.filename
    else .err s!"Unsupported execution payload type: {payloadType}"

/-- `execute_nda`, up to the sandbox. -/
def executeNda (decodeError : String → String) (ndaBytes : Bytes) : Outcome String Job := do
  let doc ← NdaDocument.read ndaBytes
  execute decodeError doc

/-! ## How large a pool becomes -/

section PoolSize

theorem sum_map_le {α : Type*} {f : α → ℕ} {l : List α} {n : ℕ} (h : ∀ a ∈ l, f a ≤ n) :
    (l.map f).sum ≤ l.length * n := by
  have hall : ∀ m ∈ l.map f, m ≤ n := by
    intro m hm
    obtain ⟨a, ha, rfl⟩ := List.mem_map.mp hm
    exact h a ha
  have hsum := List.sum_le_card_nsmul (l.map f) n hall
  rwa [List.length_map, nsmul_eq_mul, Nat.cast_id] at hsum

def entrySize (s : String) : ℕ := 2 + (utf8 s).length

theorem length_getOrAddString_le_add (c : NdaCompiler) (s : String) :
    (c.getOrAddString s).2.stringPoolData.length ≤ c.stringPoolData.length + entrySize s := by
  rw [NdaCompiler.getOrAddString]
  split
  · exact Nat.le_add_right _ _
  · simp [NdaCompiler.poolEntry, entrySize]

theorem length_compileTriples_le_add (ts : List (String × String × String)) (c : NdaCompiler) :
    (c.compileTriples ts).2.stringPoolData.length ≤
      c.stringPoolData.length + (ts.map fun t => entrySize t.1 + entrySize t.2.1 + entrySize t.2.2).sum := by
  induction ts generalizing c with
  | nil => exact Nat.le_add_right _ _
  | cons t ts ih =>
    obtain ⟨s, p, o⟩ := t
    have hs := length_getOrAddString_le_add c s
    have hp := length_getOrAddString_le_add (c.getOrAddString s).2 p
    have ho := length_getOrAddString_le_add ((c.getOrAddString s).2.getOrAddString p).2 o
    have hrest := ih (((c.getOrAddString s).2.getOrAddString p).2.getOrAddString o).2
    rw [List.map_cons, List.sum_cons]
    show (((((c.getOrAddString s).2.getOrAddString p).2.getOrAddString o).2.compileTriples ts).2.stringPoolData).length
      ≤ _ + (entrySize s + entrySize p + entrySize o + _)
    omega

theorem length_compileCommands_le_add (infos : List CommandInfo) (c : NdaCompiler) :
    (c.compileCommands infos).2.stringPoolData.length ≤
      c.stringPoolData.length + (infos.map fun info => entrySize info.content).sum := by
  induction infos generalizing c with
  | nil => exact Nat.le_add_right _ _
  | cons info infos ih =>
    have hcontent := length_getOrAddString_le_add c info.content
    have hrest := ih (c.getOrAddString info.content).2
    rw [List.map_cons, List.sum_cons]
    show ((c.getOrAddString info.content).2.compileCommands infos).2.stringPoolData.length ≤ _
    omega

/-- How large a compiled pool becomes. -/
theorem length_register_le (calls : List CompilerCall) :
    (CompilerCall.run calls).register.2.2.stringPoolData.length ≤
      2 + ((CompilerCall.triplesOf calls).map fun t => entrySize t.1 + entrySize t.2.1 + entrySize t.2.2).sum +
        ((CompilerCall.commandsOf calls).map fun info => entrySize info.content).sum := by
  have htriples := length_compileTriples_le_add (CompilerCall.run calls).triples (CompilerCall.run calls)
  have hcommands := length_compileCommands_le_add (CompilerCall.run calls).commands
    ((CompilerCall.run calls).compileTriples (CompilerCall.run calls).triples).2
  have hnew : (CompilerCall.run calls).stringPoolData.length = 2 := by
    rw [CompilerCall.run_eq]
    rfl
  rw [CompilerCall.triples_run, hnew] at htriples
  rw [CompilerCall.commands_run, CompilerCall.triples_run] at hcommands
  show ((CompilerCall.run calls).compileTriples (CompilerCall.run calls).triples).2.compileCommands
    (CompilerCall.run calls).commands |>.2.stringPoolData.length ≤ _
  rw [CompilerCall.commands_run, CompilerCall.triples_run]
  omega

end PoolSize

/-! ## Converted files -/

/-- A file's name: file systems hold no longer ones. -/
structure FileName where
  text : String
  short : (utf8 text).length ≤ 4096

/-- `random_hex_id`, from the nanoseconds of the clock. -/
def randomHexId (nanos : UInt32) : String := hex08 (nanos * 2654435761).toNat

def converterCalls (triples : List (String × String × String)) (commands : List CommandInfo) : List CompilerCall :=
  triples.map (fun t => .addTriple t.1 t.2.1 t.2.2) ++ commands.map .addCommand

theorem triplesOf_converterCalls (triples : List (String × String × String)) (commands : List CommandInfo) :
    CompilerCall.triplesOf (converterCalls triples commands) = triples := by
  have htriples : CompilerCall.triplesOf (triples.map fun t => .addTriple t.1 t.2.1 t.2.2) = triples := by
    induction triples with
    | nil => rfl
    | cons t triples ih => exact congrArg (t :: ·) ih
  have hcommands : CompilerCall.triplesOf (commands.map .addCommand) = [] := by
    induction commands with
    | nil => rfl
    | cons info commands ih => exact ih
  rw [converterCalls, CompilerCall.triplesOf, List.filterMap_append]
  exact (congrArg₂ (· ++ ·) htriples hcommands).trans (List.append_nil _)

theorem commandsOf_converterCalls (triples : List (String × String × String)) (commands : List CommandInfo) :
    CompilerCall.commandsOf (converterCalls triples commands) = commands := by
  have htriples : CompilerCall.commandsOf (triples.map fun t => .addTriple t.1 t.2.1 t.2.2) = [] := by
    induction triples with
    | nil => rfl
    | cons t triples ih => exact ih
  have hcommands : CompilerCall.commandsOf (commands.map .addCommand) = commands := by
    induction commands with
    | nil => rfl
    | cons info commands ih => exact congrArg (info :: ·) ih
  rw [converterCalls, CompilerCall.commandsOf, List.filterMap_append]
  exact (congrArg₂ (· ++ ·) htriples hcommands).trans (List.nil_append _)

theorem length_randomHexId (nanos : UInt32) : (utf8 (randomHexId nanos)).length ≤ 32 := length_utf8_ofList_le _

/-- What a converter writes keeps the limits that documents are read with. -/
structure WithinLimits (triples : List (String × String × String)) (commands : List CommandInfo) : Prop where
  tripleCount : triples.length ≤ maxTriples
  commandCount : commands.length ≤ maxCommands
  commandTypes : ∀ info ∈ commands, 1 ≤ info.commandType ∧ info.commandType ≤ 4
  poolSize : 2 + (triples.map fun t => entrySize t.1 + entrySize t.2.1 + entrySize t.2.2).sum +
    (commands.map fun info => entrySize info.content).sum ≤ maxStringPoolSize

/-- The converter's document is accepted, has the root of its triples, and stores all strings. -/
theorem WithinLimits.read_compiled {sha256 : Bytes → Bytes} {triples : List (String × String × String)}
    {commands : List CommandInfo} (h : WithinLimits triples commands) (hsha : ∀ b, (sha256 b).length = 32) :
    ∃ bytes doc, (CompilerCall.run (converterCalls triples commands)).compile sha256 = .ok bytes ∧
      NdaDocument.read bytes = .ok doc ∧
      (CompilerCall.run (converterCalls triples commands)).computeMerkleRoot sha256 = .ok doc.merkleRoot ∧
      List.Forall₂ (NdaCompiler.TripleStored doc.stringPool) triples doc.triples ∧
      List.Forall₂ (NdaCompiler.CommandStored doc.stringPool) commands doc.commands := by
  set c := CompilerCall.run (converterCalls triples commands) with hc
  have htriples : c.triples = triples := by rw [hc, CompilerCall.triples_run, triplesOf_converterCalls]
  have hcommands : c.commands = commands := by rw [hc, CompilerCall.commands_run, commandsOf_converterCalls]
  have hstored := (CompilerCall.poolInv_run (converterCalls triples commands)).poolStored
  have hpool := length_register_le (converterCalls triples commands)
  rw [triplesOf_converterCalls, commandsOf_converterCalls] at hpool
  have hsize := hpool.trans h.poolSize
  obtain ⟨root, hroot, hlen⟩ := NdaCompiler.computeMerkleRoot_eq_ok hsha c
  have hread := NdaCompiler.read_compiled hstored hlen (by rw [← hc, htriples]; exact h.tripleCount)
    (by rw [← hc, hcommands]; exact h.commandCount) (by rw [← hc, hcommands]; exact h.commandTypes) []
    (by rwa [List.append_nil])
  obtain ⟨hts, hcs⟩ := NdaCompiler.register_spec hstored hsize
  rw [← hc, htriples] at hts
  rw [← hc, hcommands] at hcs
  rw [List.append_nil, List.append_nil] at hread
  exact ⟨_, _, NdaCompiler.compile_eq_ok hroot, hread, hroot, hts, hcs⟩

/-! ## Documents of one asset -/

variable {doc : NdaDocument} {texts : List (String × String × String)} {ts : List SemanticTriple}
  {assetId payloadType : String} {decodeError : String → String}

def TripleReads (doc : NdaDocument) (t : String × String × String) (d : SemanticTriple) : Prop :=
  doc.getString d.subjectOffset = .ok t.1 ∧ doc.getString d.predicateOffset = .ok t.2.1 ∧
    doc.getString d.objectOffset = .ok t.2.2

theorem TripleReads.of_stored_texts {t t' : String × String × String} {d : SemanticTriple}
    (h : NdaCompiler.TripleStored doc.stringPool t d) (hs : NdaDocument.storedText t.1 = some t'.1)
    (hp : NdaDocument.storedText t.2.1 = some t'.2.1) (ho : NdaDocument.storedText t.2.2 = some t'.2.2) :
    TripleReads doc t' d :=
  ⟨NdaDocument.getString_of_storedText h.1 hs, NdaDocument.getString_of_storedText h.2.1 hp,
    NdaDocument.getString_of_storedText h.2.2 ho⟩

theorem collectMetadata_of_reads (h : List.Forall₂ (TripleReads doc) texts ts) (hid : ∀ t ∈ texts, t.1 = assetId)
    (x : Metadata) :
    collectMetadata doc assetId ts x = .ok (texts.foldl (fun (x : Metadata) t => x.set t.2.1 t.2.2) x) := by
  induction h generalizing x with
  | nil => rfl
  | @cons t d texts ts hd _ ih =>
    obtain ⟨hs, hp, ho⟩ := hd
    rw [collectMetadata, hs, Outcome.ok_bind, if_neg (not_not_intro (hid t List.mem_cons_self)), hp, Outcome.ok_bind,
      ho, Outcome.ok_bind, ih fun t ht => hid t (List.mem_cons_of_mem _ ht)]
    rfl

def metadataOf (texts : List (String × String × String)) : Metadata :=
  texts.foldl (fun (x : Metadata) t => x.set t.2.1 t.2.2) ⟨none, none, none⟩

/-- **A document whose triples read as those of one asset** is executed as that asset. -/
theorem execute_of_reads (htype : payloadType = "BinaryPayload" ∨ payloadType = "SourceCode")
    (h : List.Forall₂ (TripleReads doc) ((assetId, "TYPE", payloadType) :: texts) doc.triples)
    (hid : ∀ t ∈ texts, t.1 = assetId) : execute decodeError doc =
      if payloadType = "BinaryPayload" then
        executeBinaryPayload decodeError (metadataOf texts).base64Data
      else executeSourceCode doc (metadataOf texts).filename := by
  have hall : ∀ t ∈ (assetId, "TYPE", payloadType) :: texts, t.1 = assetId := List.forall_mem_cons.mpr ⟨rfl, hid⟩
  have hcollect : collectMetadata doc assetId doc.triples ⟨none, none, none⟩ = .ok (metadataOf texts) :=
    collectMetadata_of_reads h hall ⟨none, none, none⟩
  have hfind : findPayload doc doc.triples = .ok (some (payloadType, assetId)) := by
    cases hts : doc.triples with
    | nil =>
      rw [hts] at h
      cases h
    | cons t ts =>
      rw [hts, List.forall₂_cons] at h
      obtain ⟨⟨hs, hp, ho⟩, -⟩ := h
      rw [findPayload, hs, Outcome.ok_bind, hp, Outcome.ok_bind, ho, Outcome.ok_bind, if_pos ⟨rfl, htype⟩]
  rw [execute, hfind, Outcome.ok_bind]
  simp only [hcollect, Outcome.ok_bind]
  rcases htype with rfl | rfl
  · rfl
  · rfl

end VelocityMcp.Document
