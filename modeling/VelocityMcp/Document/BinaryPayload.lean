import VelocityMcp.Document.Executor
import VelocityMcp.Lib.Lines
import VelocityMcp.Lib.Digests

/-!
# Document.BinaryPayload — binary files in NDA documents (`nda_converter.rs`, `nda_executor.rs`)

`payload_recovered_iff`: which files come out of their documents again.
-/

namespace VelocityMcp.Document

open Lib

/-! ## The converter -/

/-- `{:02X} `. -/
def hexPair (b : UInt8) : List Char :=
  [(Nat.digitChar (b.toNat / 16)).toUpper, (Nat.digitChar (b.toNat % 16)).toUpper, ' ']

def asciiChar (b : UInt8) : Char := if 32 ≤ b ∧ b ≤ 126 then Char.ofNat b.toNat else '.'

def dumpLine (bytes : Bytes) (l : ℕ) : String :=
  let hexParts := (List.range 16).flatMap fun i => ((bytes[l * 16 + i]?).map hexPair).getD [' ', ' ', ' ']
  let asciiParts := (List.range 16).filterMap fun i => (bytes[l * 16 + i]?).map asciiChar
  hex08 (l * 16) ++ String.ofList ([' ', ' '] ++ hexParts ++ [' ', '|'] ++ asciiParts ++ ['|'])

def binaryTriples (filename : FileName) (binId : String) (bytes : Bytes) : List (String × String × String) :=
  [(binId, "TYPE", "BinaryPayload"), (binId, "FILENAME", filename.text), (binId, "SIZE_BYTES", toString bytes.length),
    (binId, "BASE64_DATA", Base64.encode bytes)]

def binaryCommands (filename : FileName) (bytes : Bytes) : List CommandInfo :=
  [⟨1, 0x00E5FFFF, 30, 35, 400, 22, "Binary Ingestion: " ++ filename.text⟩, ⟨3, 0x0D0E12FF, 20, 55, 600, 330, ""⟩] ++
    (List.range ((min bytes.length 160 + 15) / 16)).map (fun l =>
      ⟨1, 0x90A4AEFF, 40, UInt16.ofNat (90 + 22 * l), 560, 16, dumpLine bytes l⟩) ++
    [⟨3, 0x00E676FF, 120, 400, 400, 40, ""⟩, ⟨1, 0x073B1BFF, 195, 425, 250, 18, "UNPACK & DOWNLOAD ORIGINAL FILE"⟩]

/-- `convert_binary`, of a file with this name and these bytes. -/
def convertBinary (sha256 : Bytes → Bytes) (filename : FileName) (nanos : UInt32) (bytes : Bytes) :
    Outcome String Bytes :=
  if 50 * 1024 * 1024 < bytes.length then .err "Binary file exceeds 50MB limit"
  else
    (CompilerCall.run (converterCalls (binaryTriples filename ("BIN_ASSET_" ++ randomHexId nanos) bytes)
      (binaryCommands filename bytes))).compile sha256

/-! ## The size of the document -/

theorem entrySize_dumpLine (bytes : Bytes) (l : ℕ) : entrySize (dumpLine bytes l) ≤ 400 := by
  have hhex :
      ((List.range 16).flatMap fun i => ((bytes[l * 16 + i]?).map hexPair).getD [' ', ' ', ' ']).length = 48 := by
    have heach : ∀ i, (((bytes[l * 16 + i]?).map hexPair).getD [' ', ' ', ' ']).length = 3 := by
      intro i
      cases bytes[l * 16 + i]? with
      | none => rfl
      | some b => rfl
    rw [List.length_flatMap]
    simp only [heach]
    rfl
  have hascii : ((List.range 16).filterMap fun i => (bytes[l * 16 + i]?).map asciiChar).length ≤ 16 :=
    List.length_filterMap_le _ _
  have hoffset : (utf8 (hex08 (l * 16))).length ≤ 4 * 8 := length_utf8_ofList_le _
  have hrest := length_utf8_ofList_le ([' ', ' '] ++ ((List.range 16).flatMap fun i =>
    ((bytes[l * 16 + i]?).map hexPair).getD [' ', ' ', ' ']) ++ [' ', '|'] ++
      ((List.range 16).filterMap fun i => (bytes[l * 16 + i]?).map asciiChar) ++ ['|'])
  simp only [List.length_append, hhex, List.length_cons, List.length_nil] at hrest
  rw [entrySize, dumpLine, utf8_append, List.length_append]
  omega

theorem utf8_encode (bytes : Bytes) : utf8 (Base64.encode bytes) = encode (Base64.encodeChars bytes) := utf8_ofList _

theorem length_utf8_encode (bytes : Bytes) : (utf8 (Base64.encode bytes)).length = 4 * ((bytes.length + 2) / 3) := by
  rw [utf8_encode]
  exact (byteSize_of_ascii fun _ hc => Base64.utf8Size_of_mem_encodeChars hc).trans (Base64.length_encodeChars bytes)

variable {sha256 : Bytes → Bytes} {filename : FileName} {nanos : UInt32} {bytes : Bytes} {decodeError : String → String}

theorem length_binId (nanos : UInt32) : (utf8 ("BIN_ASSET_" ++ randomHexId nanos)).length ≤ 42 := by
  have hid := length_randomHexId nanos
  have hprefix : (utf8 "BIN_ASSET_").length = 10 := by decide
  rw [utf8_append, List.length_append, hprefix]
  omega

theorem length_binaryCommands (filename : FileName) (bytes : Bytes) : (binaryCommands filename bytes).length ≤ 14 := by
  rw [binaryCommands, List.length_append, List.length_append, List.length_map, List.length_range]
  simp only [List.length_cons, List.length_nil]
  omega

theorem commandType_binaryCommands :
    ∀ info ∈ binaryCommands filename bytes, 1 ≤ info.commandType ∧ info.commandType ≤ 4 := by
  have hone : (1 : UInt8) ≤ 1 ∧ (1 : UInt8) ≤ 4 := by decide
  have hthree : (1 : UInt8) ≤ 3 ∧ (3 : UInt8) ≤ 4 := by decide
  intro info hinfo
  rw [binaryCommands, List.append_assoc, List.mem_append, List.mem_append] at hinfo
  rcases hinfo with hinfo | hinfo | hinfo
  · simp only [List.mem_cons, List.not_mem_nil, or_false] at hinfo
    rcases hinfo with rfl | rfl
    · exact hone
    · exact hthree
  · obtain ⟨l, -, rfl⟩ := List.mem_map.mp hinfo
    exact hone
  · simp only [List.mem_cons, List.not_mem_nil, or_false] at hinfo
    rcases hinfo with rfl | rfl
    · exact hthree
    · exact hone

theorem sum_entrySize_binaryCommands (filename : FileName) (bytes : Bytes) :
    ((binaryCommands filename bytes).map fun info => entrySize info.content).sum ≤ 10000 := by
  have hdump :
      ((List.range ((min bytes.length 160 + 15) / 16)).map fun l => entrySize (dumpLine bytes l)).sum ≤ 10 * 400 := by
    refine (sum_map_le fun l _ => entrySize_dumpLine bytes l).trans (Nat.mul_le_mul_right 400 ?_)
    rw [List.length_range]
    omega
  have hname : entrySize ("Binary Ingestion: " ++ filename.text) ≤ 4116 := by
    have hprefix : (utf8 "Binary Ingestion: ").length = 18 := by decide
    have hshort := filename.short
    rw [entrySize, utf8_append, List.length_append, hprefix]
    omega
  have hempty : entrySize "" = 2 := by decide
  have hbutton : entrySize "UNPACK & DOWNLOAD ORIGINAL FILE" = 33 := by decide
  simp only [binaryCommands, List.map_append, List.map_cons, List.map_nil, List.map_map, List.sum_append, List.sum_cons,
    List.sum_nil, hempty, hbutton, Function.comp_def]
  omega

theorem entrySize_encode (hsize : bytes.length ≤ 50 * 1024 * 1024) : entrySize (Base64.encode bytes) ≤ 70000000 := by
  rw [entrySize, length_utf8_encode]
  omega

theorem entrySize_length (hsize : bytes.length ≤ 50 * 1024 * 1024) : entrySize (toString bytes.length) ≤ 34 := by
  have hlen := length_utf8_toString (n := bytes.length) (k := 8) (by decide) (by omega)
  rw [entrySize]
  omega

theorem sum_entrySize_binaryTriples (filename : FileName) (binId : String) (bytes : Bytes) :
    ((binaryTriples filename binId bytes).map fun t => entrySize t.1 + entrySize t.2.1 + entrySize t.2.2).sum =
      4 * entrySize binId + 56 + entrySize filename.text + entrySize (toString bytes.length) +
        entrySize (Base64.encode bytes) := by
  have htype : entrySize "TYPE" = 6 := by decide
  have hpayload : entrySize "BinaryPayload" = 15 := by decide
  have hfilename : entrySize "FILENAME" = 10 := by decide
  have hsizebytes : entrySize "SIZE_BYTES" = 12 := by decide
  have hbase64 : entrySize "BASE64_DATA" = 13 := by decide
  simp only [binaryTriples, List.map_cons, List.map_nil, List.sum_cons, List.sum_nil, htype, hpayload, hfilename,
    hsizebytes, hbase64]
  omega

theorem sum_entrySize_binaryTriples_le (filename : FileName) (nanos : UInt32)
    (hsize : bytes.length ≤ 50 * 1024 * 1024) :
    ((binaryTriples filename ("BIN_ASSET_" ++ randomHexId nanos) bytes).map fun t =>
      entrySize t.1 + entrySize t.2.1 + entrySize t.2.2).sum ≤ 80000000 := by
  have hid : entrySize ("BIN_ASSET_" ++ randomHexId nanos) ≤ 44 := by
    have hlen := length_binId nanos
    rw [entrySize]
    omega
  have hname : entrySize filename.text ≤ 4098 := by
    have hshort := filename.short
    rw [entrySize]
    omega
  have hcount := entrySize_length hsize
  have hdata := entrySize_encode hsize
  rw [sum_entrySize_binaryTriples]
  omega

theorem withinLimits_binary (filename : FileName) (nanos : UInt32) (hsize : bytes.length ≤ 50 * 1024 * 1024) :
    WithinLimits (binaryTriples filename ("BIN_ASSET_" ++ randomHexId nanos) bytes) (binaryCommands filename bytes) where
  tripleCount := by
    show 4 ≤ maxTriples
    decide
  commandCount := (length_binaryCommands filename bytes).trans (by decide)
  commandTypes := commandType_binaryCommands
  poolSize := by
    have htriples := sum_entrySize_binaryTriples_le filename nanos hsize
    have hcommands := sum_entrySize_binaryCommands filename bytes
    have hmax : maxStringPoolSize = 100000000 := rfl
    omega

/-! ## What is read of the base64 text -/

/-- What is read of a base64 text. -/
theorem storedText_encode (bytes : Bytes) : NdaDocument.storedText (Base64.encode bytes) =
    some (String.ofList ((Base64.encodeChars bytes).take (4 * ((bytes.length + 2) / 3) % 65536))) := by
  have hascii : ∀ c ∈ Base64.encodeChars bytes, c.utf8Size = 1 := fun _ hc => Base64.utf8Size_of_mem_encodeChars hc
  have hmod : 4 * ((bytes.length + 2) / 3) % 65536 ≤ (Base64.encodeChars bytes).length := by
    rw [Base64.length_encodeChars]
    exact Nat.mod_le _ _
  rw [NdaDocument.storedText, NdaDocument.storedBytes, NdaDocument.storedLength, length_utf8_encode, utf8_encode,
    fromUtf8_take (by rwa [byteSize_of_ascii hascii]), cutAt_of_ascii hascii hmod]
  rfl

theorem executeBinaryPayload_iff (hsize : bytes.length ≤ 50 * 1024 * 1024) :
    executeBinaryPayload decodeError
        (some (String.ofList ((Base64.encodeChars bytes).take (4 * ((bytes.length + 2) / 3) % 65536)))) =
      .ok (.binary bytes) ↔ bytes.length ≤ 49149 := by
  rw [executeBinaryPayload, Base64.decode, String.toList_ofList]
  constructor
  · intro h
    cases hdecode : Base64.decodeChars ((Base64.encodeChars bytes).take (4 * ((bytes.length + 2) / 3) % 65536)) with
    | none =>
      rw [hdecode] at h
      cases h
    | some assembly =>
      rw [hdecode] at h
      simp only at h
      split_ifs at h
      obtain rfl : assembly = bytes := Job.binary.inj (Outcome.ok.inj h)
      -- a shorter text has fewer bytes
      have hlen := Base64.length_of_decodeChars _ hdecode
      have htake := List.length_take_le (4 * ((assembly.length + 2) / 3) % 65536) (Base64.encodeChars assembly)
      omega
  · intro h
    have hall : (Base64.encodeChars bytes).length ≤ 4 * ((bytes.length + 2) / 3) % 65536 := by
      rw [Base64.length_encodeChars]
      omega
    rw [List.take_of_length_le hall, Base64.decodeChars_encodeChars]
    simp only
    rw [if_neg (by omega)]

/-! ## The way of a file through its document -/

def recoveredTriples (filename : FileName) (binId : String) (bytes : Bytes) : List (String × String × String) :=
  [(binId, "FILENAME", filename.text), (binId, "SIZE_BYTES", toString bytes.length),
    (binId, "BASE64_DATA",
      String.ofList ((Base64.encodeChars bytes).take (4 * ((bytes.length + 2) / 3) % 65536)))]

theorem reads_of_stored {doc : NdaDocument} {binId : String} (hid : (utf8 binId).length ≤ 65535)
    (hsize : bytes.length ≤ 50 * 1024 * 1024)
    (h : List.Forall₂ (NdaCompiler.TripleStored doc.stringPool) (binaryTriples filename binId bytes) doc.triples) :
    List.Forall₂ (TripleReads doc) ((binId, "TYPE", "BinaryPayload") :: recoveredTriples filename binId bytes)
      doc.triples := by
  have hbin := NdaDocument.storedText_of_le hid
  have hname := NdaDocument.storedText_of_le (filename.short.trans (by decide))
  have hcount : NdaDocument.storedText (toString bytes.length) = some (toString bytes.length) := by
    have hlen := entrySize_length hsize
    rw [entrySize] at hlen
    exact NdaDocument.storedText_of_le (by omega)
  rw [binaryTriples, List.forall₂_cons_left_iff] at h
  obtain ⟨d₁, ds, h₁, h, hdoc⟩ := h
  rw [List.forall₂_cons_left_iff] at h
  obtain ⟨d₂, ds, h₂, h, rfl⟩ := h
  rw [List.forall₂_cons_left_iff] at h
  obtain ⟨d₃, ds, h₃, h, rfl⟩ := h
  rw [List.forall₂_cons_left_iff] at h
  obtain ⟨d₄, ds, h₄, h, rfl⟩ := h
  rw [hdoc, List.forall₂_nil_left_iff.mp h]
  have hwords : ∀ s ∈ ["TYPE", "BinaryPayload", "FILENAME", "SIZE_BYTES", "BASE64_DATA"],
      NdaDocument.storedText s = some s := by decide
  refine .cons ?_ (.cons ?_ (.cons ?_ (.cons ?_ .nil)))
  · exact .of_stored_texts h₁ hbin (hwords "TYPE" (by simp)) (hwords "BinaryPayload" (by simp))
  · exact .of_stored_texts h₂ hbin (hwords "FILENAME" (by simp)) hname
  · exact .of_stored_texts h₃ hbin (hwords "SIZE_BYTES" (by simp)) hcount
  · exact .of_stored_texts h₄ hbin (hwords "BASE64_DATA" (by simp)) (storedText_encode bytes)

theorem convertBinary_executed (hsha : ∀ b, (sha256 b).length = 32) (filename : FileName) (nanos : UInt32)
    (hsize : bytes.length ≤ 50 * 1024 * 1024) : (convertBinary sha256 filename nanos bytes >>= executeNda decodeError) =
      executeBinaryPayload decodeError
        (some (String.ofList ((Base64.encodeChars bytes).take (4 * ((bytes.length + 2) / 3) % 65536)))) := by
  obtain ⟨ndaBytes, doc, hcompile, hread, -, hts, -⟩ := (withinLimits_binary filename nanos hsize).read_compiled hsha
  have hreads := reads_of_stored ((length_binId nanos).trans (by decide)) hsize hts
  rw [convertBinary, if_neg (by omega), hcompile, Outcome.ok_bind, executeNda, hread, Outcome.ok_bind,
    execute_of_reads (Or.inl rfl) hreads (by simp [recoveredTriples]), if_pos rfl]
  rfl

/-- **A binary file comes out of its document exactly if it has at most 49149 bytes.** -/
theorem payload_recovered_iff (hsha : ∀ b, (sha256 b).length = 32) (filename : FileName) (nanos : UInt32)
    (hsize : bytes.length ≤ 50 * 1024 * 1024) :
    (convertBinary sha256 filename nanos bytes >>= executeNda decodeError) = .ok (.binary bytes) ↔
      bytes.length ≤ 49149 := by
  rw [convertBinary_executed hsha filename nanos hsize, executeBinaryPayload_iff hsize]

def plainName : FileName := ⟨"a.bin", by decide +kernel⟩

/-- Two bytes. -/
theorem payload_recovered_iff_small :
    (convertBinary Sha256.digest plainName 7 [0x4d, 0x5a] >>= executeNda fun _ => "Invalid padding") =
      .ok (.binary [0x4d, 0x5a]) :=
  (payload_recovered_iff Sha256.length_digest plainName 7 (by decide)).mpr (by decide)

/-- A byte more: its base64 text is too long for a length of two bytes. -/
theorem payload_truncated : ¬ ∀ (decodeError : String → String) (sha256 : Bytes → Bytes) (filename : FileName)
    (nanos : UInt32) (bytes : Bytes), (∀ b, (sha256 b).length = 32) → bytes.length ≤ 50 * 1024 * 1024 →
      (convertBinary sha256 filename nanos bytes >>= executeNda decodeError) = .ok (.binary bytes) := by
  intro h
  have hlen : (List.replicate 49150 (0 : UInt8)).length = 49150 := List.length_replicate
  have hsize : (List.replicate 49150 (0 : UInt8)).length ≤ 50 * 1024 * 1024 := by omega
  have hrun := h (fun _ => "Invalid padding") Sha256.digest plainName 7 (List.replicate 49150 0)
    Sha256.length_digest hsize
  rw [convertBinary_executed Sha256.length_digest plainName 7 hsize, executeBinaryPayload_iff hsize, hlen] at hrun
  omega

end VelocityMcp.Document
