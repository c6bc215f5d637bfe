import VelocityMcp.Document.Executor
import VelocityMcp.Lib.Lines
import VelocityMcp.Lib.Digests

/-!
# Document.SourceCode — source files in NDA documents (`nda_converter.rs`, `nda_executor.rs`)

`source_recovered_iff`: which files give the interpreter their own lines again.
-/

namespace VelocityMcp.Document

open Lib

/-! ## The converter -/

def codeExtensions : List String :=
  ["cs", "js", "ts", "py", "rs", "html", "css", "json", "xml", "md", "sh", "ps1", "txt", "go", "java", "cpp", "c", "h",
    "hpp"]

/-- A file of source code: its extension is one the converter knows. -/
structure SourceFile where
  name : FileName
  ext : String
  content : String
  known : ext ∈ codeExtensions

/-- `lines`. -/
def linesOf (text : String) : List String := (strLines text.toList).map String.ofList

/-- The lines of a file, as `str::lines` cuts them. -/
def SourceFile.lines (file : SourceFile) : List String := linesOf file.content

def startsWithAny (s : String) (starts : List String) : Bool := starts.any fun start => start.toList.isPrefixOf s.toList

def lineColor (line : String) : UInt32 :=
  if startsWithAny (trimText line) ["//", "#", "/*", "*"] then 0x00E676FF
  else if startsWithAny (trimText line) ["using ", "import ", "namespace ", "public ", "private ", "class ", "struct ",
      "return ", "void ", "fn ", "let ", "const ", "package "] then 0xF48FB1FF
  else 0xECEFF1FF

/-- `{:>3} |`. -/
def lineNum (i : ℕ) : String := String.ofList (List.leftpad 3 ' ' (toString (i + 1)).toList ++ [' ', '|'])

def lineY (i : ℕ) : UInt16 := UInt16.ofNat (80 + 20 * i)

def lineCommands (i : ℕ) (line : String) : List CommandInfo :=
  [⟨1, 0x546E7AFF, 30, lineY i, 40, 16, lineNum i⟩, ⟨1, lineColor line, 85, lineY i, 500, 16, line⟩]

/-- The lines from the `i`-th one on. -/
def linesCommands (i : ℕ) : List String → List CommandInfo
  | [] => []
  | line :: lines => lineCommands i line ++ linesCommands (i + 1) lines

namespace SourceFile

variable (file : SourceFile)

def triples (codeId : String) : List (String × String × String) :=
  [(codeId, "TYPE", "SourceCode"), (codeId, "FILENAME", file.name.text), (codeId, "LANGUAGE", file.ext.toUpper),
    (codeId, "LINE_COUNT", toString file.lines.length)]

def commands : List CommandInfo :=
  [⟨1, 0x00E5FFFF, 30, 35, 400, 22, "Code Editor: " ++ file.name.text⟩, ⟨3, 0x0A0B0EFF, 20, 50, 600, 420, ""⟩] ++
    linesCommands 0 (file.lines.take 18)

end SourceFile

/-- The first lines of a file as display commands, each with its number. -/
def convertCode (sha256 : Bytes → Bytes) (nanos : UInt32) (file : SourceFile) : Outcome String Bytes :=
  if 10 * 1024 * 1024 < (utf8 file.content).length then .err "Source file exceeds 10MB limit"
  else
    (CompilerCall.run (converterCalls (file.triples ("CODE_ASSET_" ++ randomHexId nanos)) file.commands)).compile sha256

/-! ## What the executor reads of the commands -/

def codeContents (infos : List CommandInfo) : List String :=
  (infos.filter fun info => info.commandType = 1 ∧ info.x = 85).map CommandInfo.content

theorem codeContents_linesCommands (i : ℕ) (lines : List String) : codeContents (linesCommands i lines) = lines := by
  induction lines generalizing i with
  | nil => rfl
  | cons line lines ih =>
    have hrest := ih (i + 1)
    rw [codeContents] at hrest
    rw [linesCommands, lineCommands, codeContents, List.filter_append, List.map_append, hrest]
    rfl

variable {doc : NdaDocument} {infos : List CommandInfo} {cs : List DisplayCommand} {texts : List String}

/-- The lines that the executor reads of the commands. -/
theorem codeLines_eq_ok_iff (h : List.Forall₂ (NdaCompiler.CommandStored doc.stringPool) infos cs) :
    codeLines doc cs = .ok texts ↔
      List.Forall₂ (fun line text => NdaDocument.storedText line = some text) (codeContents infos) texts := by
  induction h generalizing texts with
  | nil =>
    show Outcome.ok [] = Outcome.ok texts ↔ List.Forall₂ _ [] texts
    rw [Outcome.ok.injEq, List.forall₂_nil_left_iff, eq_comm]
  | @cons info c infos cs hc _ ih =>
    obtain ⟨heq, hat⟩ := hc
    have hsame : c.commandType = info.commandType ∧ c.x = info.x := by rw [heq]; exact ⟨rfl, rfl⟩
    rw [codeLines, hsame.1, hsame.2]
    by_cases hcode : info.commandType = 1 ∧ info.x = 85
    · have hcontents : codeContents (info :: infos) = info.content :: codeContents infos := by
        rw [codeContents, List.filter_cons_of_pos (by simpa using hcode)]
        rfl
      rw [if_pos hcode, hcontents, List.forall₂_cons_left_iff, NdaDocument.getString_of_stored hat]
      cases htext : NdaDocument.storedText info.content with
      | none =>
        constructor
        · intro h
          cases h
        · rintro ⟨text, texts', htext', -⟩
          cases htext'
      | some text =>
        simp only [Outcome.ok_bind, Outcome.bind_eq_ok, Outcome.ok.injEq, Option.some.injEq]
        constructor
        · rintro ⟨texts', hrest, rfl⟩
          exact ⟨text, texts', rfl, ih.mp hrest, rfl⟩
        · rintro ⟨text', texts', rfl, hrest, rfl⟩
          exact ⟨texts', ih.mpr hrest, rfl⟩
    · have hcontents : codeContents (info :: infos) = codeContents infos := by
        rw [codeContents, List.filter_cons_of_neg (by simpa using hcode)]
        rfl
      rw [if_neg hcode, hcontents]
      exact ih

theorem executeSourceCode_eq_ok_iff {filename filename' : Option String} {code : String} :
    executeSourceCode doc filename = .ok (.source filename' code) ↔
      filename = filename' ∧ ∃ texts, codeLines doc doc.commands = .ok texts ∧ String.intercalate "\n" texts = code ∧
        trimText code ≠ "" := by
  rw [executeSourceCode, Outcome.bind_eq_ok]
  constructor
  · rintro ⟨texts, htexts, h⟩
    by_cases hblank : trimText (String.intercalate "\n" texts) = ""
    · rw [if_pos hblank] at h
      cases h
    · rw [if_neg hblank, Outcome.ok.injEq, Job.source.injEq] at h
      obtain ⟨rfl, rfl⟩ := h
      exact ⟨rfl, texts, htexts, rfl, hblank⟩
  · rintro ⟨rfl, texts, htexts, rfl, hblank⟩
    exact ⟨texts, htexts, if_neg hblank⟩

/-! ## Which lines come back -/

/-- At most 18 lines, none longer than 65535 bytes, not all of them blank, the last one not empty, and no other one
with a CR at its end. -/
structure LinesFit (lines : List String) : Prop where
  count : lines.length ≤ 18
  size : ∀ line ∈ lines, (utf8 line).length ≤ 65535
  visible : ∃ line ∈ lines, ¬ isBlank line.toList
  last : lines.getLast? ≠ some ""
  noReturn : ∀ line ∈ lines.dropLast, line.toList.getLast? ≠ some '\r'

theorem byteSize_toList (s : String) : byteSize s.toList = (utf8 s).length := by
  rw [byteSize, ← utf8_ofList, String.ofList_toList]

theorem prefix_of_storedText {line text : String} (h : NdaDocument.storedText line = some text) :
    text.toList <+: line.toList ∧ byteSize text.toList = NdaDocument.storedLength line := by
  have hbytes := eq_encode_of_fromUtf8 h
  have hline : utf8 line = encode line.toList := by rw [← utf8_ofList, String.ofList_toList]
  constructor
  · have hsplit : encode text.toList ++ (utf8 line).drop (NdaDocument.storedLength line) = encode line.toList := by
      rw [← hbytes, ← hline]
      exact List.take_append_drop _ _
    obtain ⟨q, hq, -⟩ := exists_of_encode_prefix hsplit
    exact ⟨q, hq.symm⟩
  · rw [byteSize, ← hbytes, NdaDocument.storedBytes, List.length_take,
      Nat.min_eq_left (NdaDocument.storedLength_le line)]

theorem toList_linesOf (text : String) : (linesOf text).map String.toList = strLines text.toList := by
  rw [linesOf, List.map_map]
  exact List.map_id'' (fun line => String.toList_ofList) _

theorem newline_notMem_linesOf {text line : String} (h : line ∈ linesOf text) : '\n' ∉ line.toList := by
  obtain ⟨l, hl, rfl⟩ := List.mem_map.mp h
  rw [String.toList_ofList]
  exact not_mem_of_mem_strLines hl

theorem toList_intercalate_newline (texts : List String) :
    (String.intercalate "\n" texts).toList = List.intercalate ['\n'] (texts.map String.toList) := by
  rw [String.toList_intercalate]
  rfl

theorem linesOf_intercalate (h : ∀ text ∈ texts, '\n' ∉ text.toList) :
    (linesOf (String.intercalate "\n" texts)).map String.toList = rejoined (texts.map String.toList) := by
  rw [toList_linesOf, toList_intercalate_newline, strLines_intercalate]
  intro t ht
  obtain ⟨text, htext, rfl⟩ := List.mem_map.mp ht
  exact h text htext

theorem trimText_intercalate_eq_empty :
    trimText (String.intercalate "\n" texts) = "" ↔ ∀ text ∈ texts, isBlank text.toList := by
  rw [← String.toList_inj, toList_trimText, toList_intercalate_newline]
  show trim _ = [] ↔ _
  rw [trim_eq_nil_iff, isBlank_intercalate, List.all_map, List.all_eq_true]
  rfl

theorem toList_injective : Function.Injective String.toList := fun _ _ => String.toList_inj.mp

theorem newline_notMem_of_stored {lines : List String} (hlines : ∀ line ∈ lines, '\n' ∉ line.toList)
    (h : List.Forall₂ (fun line text => NdaDocument.storedText line = some text) lines texts) :
    ∀ text ∈ texts, '\n' ∉ text.toList := by
  induction h with
  | nil => exact fun _ htext => absurd htext List.not_mem_nil
  | @cons line text lines texts htext _ ih =>
    rw [List.forall_mem_cons] at hlines ⊢
    exact ⟨fun hmem => hlines.1 ((prefix_of_storedText htext).1.mem hmem), ih hlines.2⟩

theorem ends_iff {lines : List String} :
    ((lines.map String.toList).getLast? ≠ some [] ∧
        ∀ l ∈ (lines.map String.toList).dropLast, l.getLast? ≠ some '\r') ↔
      lines.getLast? ≠ some "" ∧ ∀ line ∈ lines.dropLast, line.toList.getLast? ≠ some '\r' := by
  have hempty : some ([] : List Char) = (some "").map String.toList := rfl
  rw [List.getLast?_map, hempty, (Option.map_injective toList_injective).ne_iff, ← List.map_dropLast,
    List.forall_mem_map]

/-- **The lines that are read make up the same lines exactly if they fit.** -/
theorem recovered_lines_iff {lines : List String} (hlines : ∀ line ∈ lines, '\n' ∉ line.toList) :
    (∃ texts, List.Forall₂ (fun line text => NdaDocument.storedText line = some text) (lines.take 18) texts ∧
      trimText (String.intercalate "\n" texts) ≠ "" ∧ linesOf (String.intercalate "\n" texts) = lines) ↔
    LinesFit lines := by
  constructor
  · rintro ⟨texts, hread, hvisible, heq⟩
    have hnewline := newline_notMem_of_stored (fun line hline => hlines line (List.mem_of_mem_take hline)) hread
    have hrejoined : rejoined (texts.map String.toList) = lines.map String.toList := by
      rw [← linesOf_intercalate hnewline, heq]
    -- no more lines come out than were read
    have hcount : lines.length ≤ 18 := by
      have hle := length_rejoined_le (texts.map String.toList)
      rw [hrejoined, List.length_map, List.length_map, ← hread.length_eq, List.length_take] at hle
      omega
    rw [List.take_of_length_le hcount] at hread
    have hsizes : List.Forall₂ (fun t l => byteSize t ≤ byteSize l) (texts.map String.toList)
        (lines.map String.toList) := by
      rw [List.forall₂_map_left_iff, List.forall₂_map_right_iff]
      refine hread.flip.imp fun text line htext => ?_
      rw [(prefix_of_storedText htext).2, byteSize_toList]
      exact NdaDocument.storedLength_le line
    obtain ⟨hsame, hends⟩ := (rejoined_eq_iff hsizes).mp hrejoined
    obtain rfl : texts = lines := List.map_injective_iff.mpr toList_injective hsame
    obtain ⟨hlast, hreturn⟩ := ends_iff.mp hends
    refine ⟨hcount, ?_, ?_, hlast, hreturn⟩
    · intro line hline
      have hsize := (prefix_of_storedText (List.forall₂_same.mp hread line hline)).2
      rw [byteSize_toList, NdaDocument.storedLength] at hsize
      omega
    · by_contra hblank
      refine hvisible (trimText_intercalate_eq_empty.mpr fun text htext => ?_)
      by_contra hshown
      exact hblank ⟨text, htext, hshown⟩
  · intro hfit
    refine ⟨lines, ?_, ?_, ?_⟩
    · rw [List.take_of_length_le hfit.count]
      exact List.forall₂_same.mpr fun line hline => NdaDocument.storedText_of_le (hfit.size line hline)
    · obtain ⟨line, hline, hshown⟩ := hfit.visible
      exact fun hblank => hshown (trimText_intercalate_eq_empty.mp hblank line hline)
    · apply List.map_injective_iff.mpr toList_injective
      rw [linesOf_intercalate hlines]
      have hsizes : List.Forall₂ (fun t l => byteSize t ≤ byteSize l) (lines.map String.toList)
          (lines.map String.toList) :=
        List.forall₂_same.mpr fun _ _ => le_rfl
      exact (rejoined_eq_iff hsizes).mpr ⟨rfl, ends_iff.mpr ⟨hfit.last, hfit.noReturn⟩⟩

/-! ## The size of the document -/

variable {sha256 : Bytes → Bytes} {file : SourceFile} {nanos : UInt32} {decodeError : String → String}

theorem sum_byteSize_lines (file : SourceFile) :
    ((file.lines.take 18).map fun line => (utf8 line).length).sum ≤ (utf8 file.content).length := by
  have hall : (file.lines.map fun line => (utf8 line).length) = (strLines file.content.toList).map byteSize := by
    rw [SourceFile.lines, linesOf, List.map_map]
    refine List.map_congr_left fun l _ => ?_
    show (utf8 (String.ofList l)).length = _
    rw [utf8_ofList, byteSize]
  have htake : ((file.lines.take 18).map fun line => (utf8 line).length).sum ≤
      (file.lines.map fun line => (utf8 line).length).sum :=
    ((List.take_sublist 18 file.lines).map _).sum_le_sum fun _ _ => Nat.zero_le _
  have hsize := (byteSize_strLines file.content.toList).1
  rw [← hall, byteSize_toList] at hsize
  exact htake.trans hsize

theorem size_of_linesFit (h : LinesFit file.lines) : (utf8 file.content).length ≤ 10 * 1024 * 1024 := by
  have hsize := (byteSize_strLines file.content.toList).2
  have hline : ∀ l ∈ strLines file.content.toList, byteSize l + 2 ≤ 65537 := by
    intro l hl
    have hsize := h.size (String.ofList l) (List.mem_map_of_mem hl)
    rw [utf8_ofList] at hsize
    exact Nat.add_le_add_right hsize 2
  have hsum := sum_map_le hline
  have hcount := h.count
  rw [SourceFile.lines, linesOf, List.length_map] at hcount
  rw [byteSize_toList] at hsize
  exact (hsize.trans hsum).trans ((Nat.mul_le_mul_right 65537 hcount).trans (by decide))

theorem entrySize_lineNum {i : ℕ} (h : i < 900) : entrySize (lineNum i) ≤ 22 := by
  have hdigits : (toString (i + 1)).toList.length ≤ 3 := by
    show (i + 1).repr.toList.length ≤ 3
    rw [Nat.toList_repr]
    exact (Nat.length_toDigits_le_iff (by decide) (by decide)).mpr (by omega)
  have hlen := length_utf8_ofList_le (List.leftpad 3 ' ' (toString (i + 1)).toList ++ [' ', '|'])
  rw [List.length_append, List.length_leftpad] at hlen
  simp only [List.length_cons, List.length_nil] at hlen
  rw [entrySize, lineNum]
  omega

theorem sum_entrySize_linesCommands (i : ℕ) (lines : List String) (h : i + lines.length ≤ 900) :
    ((linesCommands i lines).map fun info => entrySize info.content).sum ≤
      24 * lines.length + (lines.map fun line => (utf8 line).length).sum := by
  induction lines generalizing i with
  | nil => exact Nat.zero_le _
  | cons line lines ih =>
    rw [List.length_cons] at h
    have hnum := entrySize_lineNum (i := i) (by omega)
    have hrest := ih (i + 1) (by omega)
    rw [linesCommands, List.map_append, List.sum_append, List.map_cons, List.sum_cons, List.length_cons]
    have hline : ((lineCommands i line).map fun info => entrySize info.content).sum =
        entrySize (lineNum i) + (2 + (utf8 line).length + 0) := rfl
    rw [hline]
    omega

theorem sum_entrySize_commands (hsize : (utf8 file.content).length ≤ 10 * 1024 * 1024) :
    (file.commands.map fun info => entrySize info.content).sum ≤ 20000000 := by
  have hcount : (file.lines.take 18).length ≤ 18 := List.length_take_le _ _
  have hlines := sum_entrySize_linesCommands 0 (file.lines.take 18) (by omega)
  have hbytes := sum_byteSize_lines file
  have hname : entrySize ("Code Editor: " ++ file.name.text) ≤ 4111 := by
    have hprefix : (utf8 "Code Editor: ").length = 13 := by decide
    have hshort := file.name.short
    rw [entrySize, utf8_append, List.length_append, hprefix]
    omega
  have hempty : entrySize "" = 2 := by decide
  rw [SourceFile.commands, List.map_append, List.sum_append]
  show entrySize ("Code Editor: " ++ file.name.text) + (entrySize "" + 0) + _ ≤ _
  omega

theorem length_commands (file : SourceFile) : file.commands.length ≤ 38 := by
  have hlines : ∀ (i : ℕ) (lines : List String), (linesCommands i lines).length = 2 * lines.length := by
    intro i lines
    induction lines generalizing i with
    | nil => rfl
    | cons line lines ih =>
      rw [linesCommands, List.length_append, ih, List.length_cons]
      show 2 + _ = _
      omega
  have hcount : (file.lines.take 18).length ≤ 18 := List.length_take_le _ _
  rw [SourceFile.commands, List.length_append, hlines]
  show 2 + _ ≤ _
  omega

theorem commandType_commands : ∀ info ∈ file.commands, 1 ≤ info.commandType ∧ info.commandType ≤ 4 := by
  have hone : (1 : UInt8) ≤ 1 ∧ (1 : UInt8) ≤ 4 := by decide
  have hthree : (1 : UInt8) ≤ 3 ∧ (3 : UInt8) ≤ 4 := by decide
  have hlines : ∀ (i : ℕ) (lines : List String), ∀ info ∈ linesCommands i lines,
      1 ≤ info.commandType ∧ info.commandType ≤ 4 := by
    intro i lines
    induction lines generalizing i with
    | nil => exact fun _ hinfo => absurd hinfo List.not_mem_nil
    | cons line lines ih =>
      intro info hinfo
      rcases List.mem_append.mp hinfo with hinfo | hinfo
      · simp only [lineCommands, List.mem_cons, List.not_mem_nil, or_false] at hinfo
        rcases hinfo with rfl | rfl
        · exact hone
        · exact hone
      · exact ih (i + 1) info hinfo
  intro info hinfo
  rcases List.mem_append.mp hinfo with hinfo | hinfo
  · simp only [List.mem_cons, List.not_mem_nil, or_false] at hinfo
    rcases hinfo with rfl | rfl
    · exact hone
    · exact hthree
  · exact hlines _ _ info hinfo

theorem fits_triples (nanos : UInt32) (hsize : (utf8 file.content).length ≤ 10 * 1024 * 1024) :
    ∀ t ∈ file.triples ("CODE_ASSET_" ++ randomHexId nanos), (utf8 t.1).length ≤ 5000 ∧ (utf8 t.2.1).length ≤ 5000 ∧
      (utf8 t.2.2).length ≤ 5000 := by
  have hid : (utf8 ("CODE_ASSET_" ++ randomHexId nanos)).length ≤ 5000 := by
    have hlen := length_randomHexId nanos
    have hprefix : (utf8 "CODE_ASSET_").length = 11 := by decide
    rw [utf8_append, List.length_append, hprefix]
    omega
  have hwords : ∀ s ∈ ["TYPE", "SourceCode", "FILENAME", "LANGUAGE", "LINE_COUNT"], (utf8 s).length ≤ 5000 := by
    decide
  have hext : (utf8 file.ext.toUpper).length ≤ 5000 := by
    have hall : (codeExtensions.all fun ext => decide ((utf8 ext.toUpper).length ≤ 5000)) = true := by decide +kernel
    exact of_decide_eq_true (List.all_eq_true.mp hall file.ext file.known)
  have hcount : (utf8 (toString file.lines.length)).length ≤ 5000 := by
    have hlines := length_strLines_le file.content.toList
    rw [byteSize_toList] at hlines
    have hlen : file.lines.length < 10 ^ 8 := by
      rw [SourceFile.lines, linesOf, List.length_map]
      omega
    exact (length_utf8_toString (by decide) hlen).trans (by decide)
  intro t ht
  simp only [SourceFile.triples, List.mem_cons, List.not_mem_nil, or_false] at ht
  rcases ht with rfl | rfl | rfl | rfl
  · exact ⟨hid, hwords "TYPE" (by simp), hwords "SourceCode" (by simp)⟩
  · exact ⟨hid, hwords "FILENAME" (by simp), file.name.short.trans (by decide)⟩
  · exact ⟨hid, hwords "LANGUAGE" (by simp), hext⟩
  · exact ⟨hid, hwords "LINE_COUNT" (by simp), hcount⟩

theorem withinLimits_code (nanos : UInt32) (hsize : (utf8 file.content).length ≤ 10 * 1024 * 1024) :
    WithinLimits (file.triples ("CODE_ASSET_" ++ randomHexId nanos)) file.commands where
  tripleCount := by
    show 4 ≤ maxTriples
    decide
  commandCount := (length_commands file).trans (by decide)
  commandTypes := commandType_commands
  poolSize := by
    have htriples : ((file.triples ("CODE_ASSET_" ++ randomHexId nanos)).map fun t =>
        entrySize t.1 + entrySize t.2.1 + entrySize t.2.2).sum ≤ 4 * 15006 := by
      refine sum_map_le fun t ht => ?_
      obtain ⟨hs, hp, ho⟩ := fits_triples nanos hsize t ht
      simp only [entrySize]
      omega
    have hcommands := sum_entrySize_commands hsize
    have hmax : maxStringPoolSize = 100000000 := rfl
    omega

theorem convertCode_executed (hsha : ∀ b, (sha256 b).length = 32) (nanos : UInt32) (file : SourceFile)
    (hsize : (utf8 file.content).length ≤ 10 * 1024 * 1024) :
    ∃ doc, (convertCode sha256 nanos file >>= executeNda decodeError) = executeSourceCode doc (some file.name.text) ∧
      List.Forall₂ (NdaCompiler.CommandStored doc.stringPool) file.commands doc.commands := by
  obtain ⟨ndaBytes, doc, hcompile, hread, -, hts, hcs⟩ := (withinLimits_code nanos hsize).read_compiled hsha
  refine ⟨doc, ?_, hcs⟩
  have hreads : List.Forall₂ (TripleReads doc) (file.triples ("CODE_ASSET_" ++ randomHexId nanos)) doc.triples := by
    refine ((List.forall₂_and_left _ _).mpr ⟨fits_triples nanos hsize, hts⟩).imp fun t d h => ?_
    obtain ⟨⟨hs, hp, ho⟩, hstored⟩ := h
    exact .of_stored_texts hstored (NdaDocument.storedText_of_le (by omega)) (NdaDocument.storedText_of_le (by omega))
      (NdaDocument.storedText_of_le (by omega))
  rw [convertCode, if_neg (by omega), hcompile, Outcome.ok_bind, executeNda, hread, Outcome.ok_bind,
    execute_of_reads (Or.inr rfl) hreads (by simp), if_neg (by decide)]
  rfl

/-! ## The way of a program through its document -/

theorem newline_notMem_lines : ∀ line ∈ file.lines, '\n' ∉ line.toList := fun _ hline => newline_notMem_linesOf hline

theorem codeContents_commands (file : SourceFile) : codeContents file.commands = file.lines.take 18 := by
  have hlines := codeContents_linesCommands 0 (file.lines.take 18)
  rw [codeContents] at hlines ⊢
  rw [SourceFile.commands, List.filter_append, List.map_append, hlines]
  rfl

/-- **The interpreter gets the lines of the file, in their order, exactly if they fit.** -/
theorem source_recovered_iff (hsha : ∀ b, (sha256 b).length = 32) (nanos : UInt32) (file : SourceFile) :
    (∃ filename code, (convertCode sha256 nanos file >>= executeNda decodeError) = .ok (.source filename code) ∧
      linesOf code = file.lines) ↔ LinesFit file.lines := by
  by_cases hsize : (utf8 file.content).length ≤ 10 * 1024 * 1024
  · obtain ⟨doc, hrun, hstored⟩ := convertCode_executed hsha nanos file hsize
    rw [← recovered_lines_iff newline_notMem_lines, ← codeContents_commands file, hrun]
    constructor
    · rintro ⟨filename, code, hcode, hlines⟩
      obtain ⟨-, texts, htexts, rfl, hvisible⟩ := executeSourceCode_eq_ok_iff.mp hcode
      exact ⟨texts, (codeLines_eq_ok_iff hstored).mp htexts, hvisible, hlines⟩
    · rintro ⟨texts, htexts, hvisible, hlines⟩
      refine ⟨some file.name.text, String.intercalate "\n" texts, ?_, hlines⟩
      exact executeSourceCode_eq_ok_iff.mpr ⟨rfl, texts, (codeLines_eq_ok_iff hstored).mpr htexts, rfl, hvisible⟩
  · constructor
    · rintro ⟨filename, code, hcode, -⟩
      rw [convertCode, if_pos (by omega)] at hcode
      cases hcode
    · intro hfit
      exact absurd (size_of_linesFit hfit) hsize

def helloFile : SourceFile :=
  ⟨⟨"a.py", by decide +kernel⟩, "py", "import os\nprint(os.name)\n", by decide⟩

theorem lines_helloFile : helloFile.lines = ["import os", "print(os.name)"] := by decide

theorem linesFit_helloFile : LinesFit helloFile.lines := by
  rw [lines_helloFile]
  refine ⟨by decide, by decide, ?_, by decide, by decide⟩
  exact ⟨"import os", List.mem_cons_self, by decide⟩

/-- A program of two lines. -/
theorem source_recovered_iff_hello :
    ∃ filename code,
      (convertCode Sha256.digest 7 helloFile >>= executeNda fun _ => "Invalid padding") = .ok (.source filename code) ∧
      linesOf code = helloFile.lines :=
  (source_recovered_iff Sha256.length_digest 7 helloFile).mpr linesFit_helloFile

def longFile : SourceFile :=
  ⟨⟨"b.py", by decide +kernel⟩, "py", String.intercalate "\n" (List.replicate 19 "x = 1"), by decide⟩

/-- A file of nineteen lines comes out with eighteen. -/
theorem source_truncated : ¬ ∀ (decodeError : String → String) (sha256 : Bytes → Bytes) (nanos : UInt32)
    (file : SourceFile), (∀ b, (sha256 b).length = 32) → ∃ filename code,
      (convertCode sha256 nanos file >>= executeNda decodeError) = .ok (.source filename code) ∧
        linesOf code = file.lines := by
  intro h
  obtain ⟨filename, code, hcode, hlines⟩ := h (fun _ => "Invalid padding") Sha256.digest 7 longFile Sha256.length_digest
  have hlong : longFile.lines.length = 19 := by decide +kernel
  obtain ⟨doc, hrun, hstored⟩ := convertCode_executed Sha256.length_digest 7 longFile (by decide +kernel)
  rw [hrun] at hcode
  obtain ⟨-, texts, htexts, rfl, hvisible⟩ := executeSourceCode_eq_ok_iff.mp hcode
  have hread := (codeLines_eq_ok_iff hstored).mp htexts
  rw [codeContents_commands] at hread
  have hfit := (recovered_lines_iff newline_notMem_lines).mp ⟨texts, hread, hvisible, hlines⟩
  have hcount := hfit.count
  omega

end VelocityMcp.Document
