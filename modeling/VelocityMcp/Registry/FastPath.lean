import VelocityMcp.Lib.Text
import VelocityMcp.Registry.Frames

/-!
# Registry.FastPath — `bench_echo` and `file_read`, run from a frame and by name (`registry.rs`)

`execute_cached_nmcp_frame` runs the two tools from the encoded arguments of the frame, if it finds the field
there; otherwise it decodes them and calls the built-in tool.
-/

namespace VelocityMcp.Registry

open Lib NdaNative

/-! ## The file system -/

structure Metadata where
  isFile : Bool
  len : UInt64

/-- What `std::fs` and `std::path` answer. -/
structure Disk where
  isAbsolute : String → Bool
  /-- The path, and what `pop` leaves of it time after time. -/
  ancestors : String → List String
  isSymlink : String → Bool
  openFile : String → Except String Unit
  metadata : String → Except String Metadata
  canonicalize : String → Except String String
  readToString : String → Except String String
  /-- `{:.2}` of a number of bytes, in MB. -/
  megabytes : UInt64 → String

def validateFilePath (disk : Disk) (path : String) : Except String Unit :=
  if path = "" then .error "File path cannot be empty. Please provide a valid file path."
  else if Occurs ".." path then
    .error (s!"Security error: File path contains traversal sequence '..': {path}\n" ++
      "For security reasons, paths with '..' are not allowed.\n" ++
      "Suggestion: Use an absolute path instead, e.g., /home/user/file.txt or C:\\Users\\user\\file.txt")
  else if ¬ disk.isAbsolute path then
    .error (s!"File path must be absolute: {path}\n" ++
      "Relative paths are not allowed for security reasons.\n" ++
      "Suggestion: Use the full path, e.g., /home/user/file.txt or C:\\Users\\user\\file.txt\n" ++
      "You can get the absolute path with: pwd (Linux/macOS) or cd (Windows)")
  else match (disk.ancestors path).find? disk.isSymlink with
    | some check =>
      .error (s!"Security error: Path contains symlink component: {check}\n" ++
        "Symlinks are not allowed for security reasons.\n" ++
        "Suggestion: Use the real path instead of a symbolic link.")
    | none => .ok ()

def maxFileReadSize : UInt64 := 10 * 1024 * 1024

def fileTooLarge (disk : Disk) (len : UInt64) : String :=
  s!"File too large: {len} bytes ({disk.megabytes len} MB)\n" ++
    s!"Maximum allowed size: {maxFileReadSize} bytes (10 MB)\n" ++
    "The file exceeds the maximum size limit for security and performance reasons.\n" ++
    "Suggestions:\n" ++
    "- Process the file in chunks using shell commands (head, tail, split)\n" ++
    "- Use shell_exec with grep/awk to extract specific parts\n" ++
    "- Compress the file first and read the compressed version\n" ++
    "- Use a streaming approach for large files"

/-- The checks of `file_read` on a file that is open. -/
def checkOpened (disk : Disk) (path : String) : Except String Unit := do
  let metadata ← disk.metadata path
  if ¬ metadata.isFile then .error s!"Path is not a file: {path}"
  else do
    let canonical ← (disk.canonicalize path).mapError fun e => s!"Cannot resolve canonical path: {e}"
    validateFilePath disk canonical
    if maxFileReadSize < metadata.len then .error (fileTooLarge disk metadata.len) else .ok ()

/-! ## The two tools -/

/-- `"x".repeat(size)`; the capacity may not pass `isize::MAX`. -/
def repeatX (size : UInt64) : Outcome String String :=
  if 2 ^ 63 ≤ size.toNat then .panic else .ok (String.ofList (List.replicate size.toNat 'x'))

def benchEchoImpl (size : UInt64) : Outcome String String := repeatX size

/-- `file_read_impl`; `read_to_string` opens the file and reads it. -/
def fileReadImpl (disk : Disk) (path : String) : Except String String := do
  validateFilePath disk path
  disk.openFile path
  disk.readToString path

def maxBenchSize : UInt64 := 16 * 1024 * 1024

/-- `arguments["size"].as_u64().unwrap_or(64) as usize`. -/
def sizeArgument (arguments : Value) : UInt64 := (arguments.index "size").asU64.getD 64

/-- `bench_echo` of `call_tool`. -/
def benchEcho (arguments : Value) : Outcome String String :=
  let size := sizeArgument arguments
  if maxBenchSize < size then .err s!"size {size} exceeds maximum {maxBenchSize}" else repeatX size

/-- `file_read` of `call_tool`, from the path on. -/
def readChecked (disk : Disk) (path : String) : Except String String := do
  validateFilePath disk path
  disk.openFile path
  checkOpened disk path
  disk.readToString path

/-- `file_read` of `call_tool`. -/
def fileRead (disk : Disk) (arguments : Value) : Outcome String String := do
  let path ← strOr (arguments.index "path") "path is required"
  Outcome.ofExcept (readChecked disk path)

/-- What else the dispatcher calls: the other built-in tools, and the C# engine. -/
structure Others where
  builtin : String → Value → Outcome String String
  csharp : String → Value → Outcome String String

/-- `call_tool`, on the name of a built-in tool. -/
def callBuiltin (disk : Disk) (others : Others) (toolName : String) (arguments : Value) : Outcome String String :=
  if toolName = "bench_echo" then benchEcho arguments
  else if toolName = "file_read" then fileRead disk arguments
  else others.builtin toolName arguments

def runFrameCall (disk : Disk) (others : Others) (toolName : String) : FrameCall → Outcome String String
  | .benchEcho size => benchEchoImpl size
  | .fileRead path => Outcome.ofExcept (fileReadImpl disk path)
  | .builtin args => callBuiltin disk others toolName args
  | .csharp args => others.csharp toolName args

/-- `execute_cached_nmcp_frame`. -/
def executeCachedFrame (disk : Disk) (others : Others) (toolName : String) (arguments : Value) (nda : Bytes) :
    Outcome String String := do
  let call ← planCachedFrame toolName arguments nda
  runFrameCall disk others toolName call

/-- The arguments of the slow path: those of the frame, or the caller's. -/
def decodedArgs (arguments : Value) (args : Bytes) : Outcome String Value := do
  let (original, _) ← (decodeJsonValue args).mapErr DecodeError.text
  .ok (effectiveArgs arguments original)

/-- The slow path: the arguments of the frame are decoded, and the built-in tool is called with them or with the
caller's. -/
def decodeAndCall (disk : Disk) (others : Others) (toolName : String) (arguments : Value) (nda : Bytes) :
    Outcome String String := do
  let args ← parseCachedFrame toolName nda
  let arguments ← decodedArgs arguments args
  callBuiltin disk others toolName arguments

/-! ## When they answer alike -/

/-- The size that is stored is the one that the built-in tool would take, and within its bound. -/
def SizesAgree (stored : Outcome String UInt64) : Outcome String Value → Prop
  | .ok arguments => stored = .ok (sizeArgument arguments) ∧ sizeArgument arguments ≤ maxBenchSize
  | _ => False

/-- Why the built-in tool does not read a file that can be opened. -/
def Disk.obstacle (disk : Disk) (path : String) : Option String :=
  match validateFilePath disk path, disk.openFile path, checkOpened disk path with
  | .ok _, .ok _, .error text => some text
  | _, _, _ => none

def pathArgument (arguments : Outcome String Value) : Outcome String String := do
  let arguments ← arguments
  strOr (arguments.index "path") "path is required"

/-- The path that is stored is the one that the built-in tool would take, and nothing keeps it from being read. -/
def PathsAgree (disk : Disk) (stored effective : Outcome String String) : Prop :=
  ∃ path, stored = .ok path ∧ effective = .ok path ∧ disk.obstacle path = none

/-- The condition on encoded arguments, by what the search finds there: nothing, or the field of the arguments that the
slow path takes.  Where the search fails, the slow path fails with another text. -/
def FastPathAgrees (disk : Disk) (toolName : String) (arguments : Value) (args : Bytes) : Prop :=
  if toolName = "bench_echo" then
    match extractTlvField args (utf8 "size") with
    | .ok none => True
    | .ok (some tlv) => SizesAgree (sizeOfTlv tlv) (decodedArgs arguments args)
    | _ => False
  else
    match extractTlvField args (utf8 "path") with
    | .ok none => True
    | .ok (some tlv) => PathsAgree disk (tlvToStr tlv) (pathArgument (decodedArgs arguments args))
    | _ => False

/-! ### The texts of the two decoders -/

/-- The first six characters. -/
def start (s : String) : List Char := s.toList.take 6

theorem start_append {a : String} (h : 6 ≤ a.toList.length) (b : String) : start (a ++ b) = start a := by
  rw [start, String.toList_append, List.take_append_of_le_length h, start]

theorem start_append₃ {a : String} (h : 6 ≤ a.toList.length) (b c d : String) :
    start (a ++ b ++ c ++ d) = start a := by
  rw [String.append_assoc, String.append_assoc, start_append h]

theorem start_skipError (e : SkipError) : start e.text = "TLV sk".toList := by
  cases e with
  | unknownTag tag => exact (start_append (a := "TLV skip: unknown tag 0x") (by decide) _).trans (by decide)
  | stringTooLong len => exact (start_append₃ (a := "TLV skip: string length ") (by decide) _ _ _).trans (by decide)
  | arrayTooLong count => exact (start_append₃ (a := "TLV skip: array count ") (by decide) _ _ _).trans (by decide)
  | objectTooLong count => exact (start_append₃ (a := "TLV skip: object count ") (by decide) _ _ _).trans (by decide)
  | _ => decide

def decodeStarts : List (List Char) :=
  ["TLV ne", "Unexpe", "TLV st", "invali", "incomp", "TLV in", "TLV fl", "TLV bo", "TLV ar", "TLV ob",
    "Unknow"].map String.toList

theorem mem_of_start {s : String} {x : List Char} (h : start s = x) (hx : x ∈ decodeStarts) :
    start s ∈ decodeStarts := h ▸ hx

theorem start_utf8ErrorText (t : Bytes) :
    start (utf8ErrorText t) = "invali".toList ∨ start (utf8ErrorText t) = "incomp".toList := by
  unfold utf8ErrorText
  split
  · exact Or.inl ((start_append₃ (a := "invalid utf-8 sequence of ") (by decide) _ _ _).trans (by decide))
  · exact Or.inr ((start_append (a := "incomplete utf-8 byte sequence from index ") (by decide) _).trans (by decide))

theorem start_decodeError (e : DecodeError) : start e.text ∈ decodeStarts := by
  cases e with
  | utf8 t =>
    rcases start_utf8ErrorText t with h | h
    · exact mem_of_start h (by decide)
    · exact mem_of_start h (by decide)
  | stringTooLong len => exact mem_of_start (start_append₃ (a := "TLV string length ") (by decide) _ _ _) (by decide)
  | arrayTooLong count => exact mem_of_start (start_append₃ (a := "TLV array count ") (by decide) _ _ _) (by decide)
  | objectTooLong count => exact mem_of_start (start_append₃ (a := "TLV object count ") (by decide) _ _ _) (by decide)
  | unknownTag tag => exact mem_of_start (start_append (a := "Unknown TLV type tag: 0x") (by decide) _) (by decide)
  | _ => decide

theorem decodeError_text_ne (d : DecodeError) (e : FieldError) : d.text ≠ e.text := by
  intro heq
  have hd := start_decodeError d
  rw [heq] at hd
  cases e with
  | skip e =>
    rw [FieldError.text, start_skipError] at hd
    exact absurd hd (by decide)
  | _ => exact absurd hd (by decide)

/-! ### The pieces of the two ways -/

theorem repeatX_of_le {size : UInt64} (h : size ≤ maxBenchSize) :
    repeatX size = .ok (String.ofList (List.replicate size.toNat 'x')) := by
  have hle : size.toNat ≤ 16777216 := h
  exact if_neg (by omega)

theorem repeatX_ne_err (size : UInt64) (text : String) : repeatX size ≠ .err text := by
  unfold repeatX
  split_ifs <;> simp

theorem repeatX_eq_iff {size size' : UInt64} (h : size' ≤ maxBenchSize) :
    repeatX size = repeatX size' ↔ size = size' := by
  constructor
  · intro heq
    rw [repeatX_of_le h, repeatX] at heq
    split_ifs at heq
    have hlen := congrArg List.length (String.ofList_injective (Outcome.ok.inj heq))
    rw [List.length_replicate, List.length_replicate] at hlen
    exact UInt64.toNat_inj.mp hlen
  · rintro rfl
    rfl

theorem sizeOfTlv_eq_ok (tlv : Bytes) : ∃ size, sizeOfTlv tlv = .ok size := by
  rw [sizeOfTlv]
  cases h : tlvToI64 tlv with
  | ok i => exact ⟨_, rfl⟩
  | err e => exact ⟨_, rfl⟩
  | panic => exact absurd h (tlvToI64_ne_panic tlv)

/-- **The stored size** gives what the built-in tool gives. -/
theorem benchEcho_eq_iff (size : UInt64) (arguments : Value) :
    benchEchoImpl size = benchEcho arguments ↔
      size = sizeArgument arguments ∧ sizeArgument arguments ≤ maxBenchSize := by
  rw [benchEchoImpl, benchEcho]
  by_cases hcap : maxBenchSize < sizeArgument arguments
  · rw [if_pos hcap]
    constructor
    · intro h
      exact absurd h (repeatX_ne_err size _)
    · rintro ⟨-, hle⟩
      exact absurd hcap (UInt64.not_lt.mpr hle)
  · rw [if_neg hcap, repeatX_eq_iff (UInt64.not_lt.mp hcap)]
    simp [UInt64.not_lt.mp hcap]

theorem readChecked_eq (disk : Disk) (path : String) : readChecked disk path =
    match disk.obstacle path with
    | none => fileReadImpl disk path
    | some text => .error text := by
  rw [readChecked, fileReadImpl, Disk.obstacle]
  cases validateFilePath disk path with
  | error e => rfl
  | ok _ =>
    cases disk.openFile path with
    | error e => rfl
    | ok _ => cases checkOpened disk path <;> rfl

section Paths

variable {disk : Disk} {others : Others} {arguments : Value} {args : Bytes}

/-- **The stored path** gives what the built-in tool gives, if they agree. -/
theorem PathsAgree.run {stored : Outcome String String} {decoded : Outcome String Value}
    (h : PathsAgree disk stored (pathArgument decoded)) :
    (stored >>= fun path => Outcome.ofExcept (fileReadImpl disk path)) = (decoded >>= fileRead disk) := by
  obtain ⟨path, rfl, heffective, hobstacle⟩ := h
  have hread : (decoded >>= fileRead disk) =
      (pathArgument decoded >>= fun path => Outcome.ofExcept (readChecked disk path)) := by
    cases decoded <;> rfl
  rw [hread, heffective, Outcome.ok_bind, Outcome.ok_bind, readChecked_eq, hobstacle]

theorem decodedArgs_ne_panic (arguments : Value) (args : Bytes) : decodedArgs arguments args ≠ .panic :=
  Outcome.bind_ne_panic (mt Outcome.mapErr_eq_panic.mp (decode_ne_panic _ args)) fun _ _ => by simp

theorem decodedArgs_of_search (arguments : Value) {key : Bytes} {e : FieldError}
    (h : extractTlvField args key = .err e) :
    ∃ d : DecodeError, decodedArgs arguments args = .err d.text ∧ d.text ≠ e.text := by
  cases hdecode : decodeJsonValue args with
  | ok p =>
    obtain ⟨field, hfield⟩ := extract_field_of_decode hdecode key
    rw [h] at hfield
    cases hfield
  | err d => exact ⟨d, by rw [decodedArgs, hdecode]; rfl, decodeError_text_ne d e⟩
  | panic => exact absurd hdecode (decode_ne_panic _ args)

theorem plan_of_fast {toolName : String} {call : FrameCall} (h : fastPath toolName args = .ok (some call)) :
    planArgs toolName arguments args = .ok call := by
  rw [planArgs, h]
  rfl

theorem plan_of_slow {toolName : String} (hbuiltin : toolName ∈ Wasm.builtinToolNames)
    (h : fastPath toolName args = .ok none) : (planArgs toolName arguments args >>= runFrameCall disk others toolName) =
      (decodedArgs arguments args >>= callBuiltin disk others toolName) := by
  rw [planArgs, h, Outcome.ok_bind, decodedArgs]
  dsimp only
  cases (decodeJsonValue args).mapErr DecodeError.text with
  | ok p =>
    rw [Outcome.ok_bind, Outcome.ok_bind, Outcome.ok_bind, if_pos hbuiltin]
    rfl
  | err e => rfl
  | panic => rfl

theorem search_failed {toolName : String} {key : Bytes} {e : FieldError} (h : extractTlvField args key = .err e)
    (hfast : fastPath toolName args = .err e.text) :
    (planArgs toolName arguments args >>= runFrameCall disk others toolName) ≠
      (decodedArgs arguments args >>= callBuiltin disk others toolName) := by
  obtain ⟨d, hdecoded, hne⟩ := decodedArgs_of_search arguments h
  rw [planArgs, hfast, hdecoded]
  intro heq
  exact hne (Outcome.err.inj heq).symm

theorem echo_eq_iff : (planArgs "bench_echo" arguments args >>= runFrameCall disk others "bench_echo") =
    (decodedArgs arguments args >>= callBuiltin disk others "bench_echo") ↔
      FastPathAgrees disk "bench_echo" arguments args := by
  have hcall : callBuiltin disk others "bench_echo" = benchEcho := funext fun v => if_pos rfl
  rw [FastPathAgrees, if_pos rfl]
  cases hfield : extractTlvField args (utf8 "size") with
  | panic => exact absurd hfield (extractTlvField_ne_panic _ _)
  | err e =>
    have hfast : fastPath "bench_echo" args = .err e.text := by rw [fastPath, if_pos rfl, hfield]; rfl
    exact iff_of_false (search_failed hfield hfast) not_false
  | ok field =>
    cases field with
    | none =>
      have hfast : fastPath "bench_echo" args = .ok none := by rw [fastPath, if_pos rfl, hfield]; rfl
      exact iff_of_true (plan_of_slow (by decide) hfast) trivial
    | some tlv =>
      obtain ⟨size, hsize⟩ := sizeOfTlv_eq_ok tlv
      have hfast : fastPath "bench_echo" args = .ok (some (.benchEcho size)) := by
        rw [fastPath, if_pos rfl, hfield]
        show (sizeOfTlv tlv >>= _) = _
        rw [hsize]
        rfl
      rw [plan_of_fast hfast, Outcome.ok_bind, hcall]
      dsimp only
      rw [hsize]
      show benchEchoImpl size = _ ↔ SizesAgree _ (decodedArgs arguments args)
      cases hdecoded : decodedArgs arguments args with
      | panic => exact absurd hdecoded (decodedArgs_ne_panic _ _)
      | err text => exact iff_of_false (repeatX_ne_err size text) not_false
      | ok v =>
        rw [Outcome.ok_bind, benchEcho_eq_iff, SizesAgree, Outcome.ok.injEq]

theorem read_of_agrees (h : FastPathAgrees disk "file_read" arguments args) :
    (planArgs "file_read" arguments args >>= runFrameCall disk others "file_read") =
      (decodedArgs arguments args >>= callBuiltin disk others "file_read") := by
  have hother : "file_read" ≠ "bench_echo" := by decide
  have hcall : callBuiltin disk others "file_read" = fileRead disk := funext fun v => by
    rw [callBuiltin, if_neg hother, if_pos rfl]
  rw [FastPathAgrees, if_neg hother] at h
  cases hfield : extractTlvField args (utf8 "path") with
  | panic => exact absurd hfield (extractTlvField_ne_panic _ _)
  | err e =>
    rw [hfield] at h
    exact h.elim
  | ok field =>
    cases field with
    | none =>
      have hfast : fastPath "file_read" args = .ok none := by
        rw [fastPath, if_neg hother, if_pos rfl, hfield]
        rfl
      exact plan_of_slow (by decide) hfast
    | some tlv =>
      rw [hfield] at h
      have hfast : fastPath "file_read" args = (tlvToStr tlv >>= fun path => .ok (some (.fileRead path))) := by
        rw [fastPath, if_neg hother, if_pos rfl, hfield]
        rfl
      have hrun : (planArgs "file_read" arguments args >>= runFrameCall disk others "file_read") =
          (tlvToStr tlv >>= fun path => Outcome.ofExcept (fileReadImpl disk path)) := by
        rw [planArgs, hfast]
        cases tlvToStr tlv <;> rfl
      rw [hrun, hcall]
      exact PathsAgree.run h

/-- **When the two ways answer alike**, for any encoded arguments. -/
theorem execute_agrees {toolName : String} (hname : toolName = "bench_echo" ∨ toolName = "file_read") :
    (FastPathAgrees disk toolName arguments args →
      (planArgs toolName arguments args >>= runFrameCall disk others toolName) =
        (decodedArgs arguments args >>= callBuiltin disk others toolName)) ∧
      (toolName = "bench_echo" →
        (planArgs toolName arguments args >>= runFrameCall disk others toolName) =
          (decodedArgs arguments args >>= callBuiltin disk others toolName) →
        FastPathAgrees disk toolName arguments args) := by
  rcases hname with rfl | rfl
  · exact ⟨echo_eq_iff.mpr, fun _ => echo_eq_iff.mp⟩
  · exact ⟨read_of_agrees, fun h => absurd h (by decide)⟩

end Paths

/-- The arguments that a frame of the request is read with. -/
def storedArgs (request : Value) : Bytes :=
  let args := (Tlv.ofValue (requestArguments request)).bytes
  args.take (args.length % 256 ^ 4)

theorem parse_of_frame {request : Value} {sha256 : Bytes → Bytes} (hsha : ∀ b, (sha256 b).length = 32) {frame : Bytes}
    {toolName : String} (hlen : (utf8 toolName).length < 256 ^ 2) (htool : requestName request = .string toolName)
    (hframe : frameOfRequest sha256 request = .ok frame) :
    parseCachedFrame toolName frame = .ok (storedArgs request) := by
  obtain ⟨method, name, code, -, hname', -, -, rfl⟩ := frameOfRequest_eq_ok.mp hframe
  obtain rfl : toolName = name := Value.string.inj (htool.symm.trans hname')
  exact parse_nmcpFrame hsha hlen

/-- **The fast path and the slow path** answer alike under the condition on the stored arguments, and for `bench_echo`
only there. -/
theorem fastPath_agrees (disk : Disk) (others : Others) (sha256 : Bytes → Bytes)
    (hsha : ∀ b, (sha256 b).length = 32) (request arguments : Value) (frame : Bytes) (toolName : String)
    (hname : toolName = "bench_echo" ∨ toolName = "file_read") (htool : requestName request = .string toolName)
    (hframe : frameOfRequest sha256 request = .ok frame) :
    (FastPathAgrees disk toolName arguments (storedArgs request) →
      executeCachedFrame disk others toolName arguments frame =
        decodeAndCall disk others toolName arguments frame) ∧
      (toolName = "bench_echo" →
        executeCachedFrame disk others toolName arguments frame =
          decodeAndCall disk others toolName arguments frame →
        FastPathAgrees disk toolName arguments (storedArgs request)) := by
  have hparse := parse_of_frame hsha (by rcases hname with rfl | rfl <;> decide) htool hframe
  rw [executeCachedFrame, planCachedFrame, decodeAndCall, hparse, Outcome.ok_bind, Outcome.ok_bind]
  exact execute_agrees hname

/-! ### Arguments within the limits of the decoder -/

/-- `as_i64().unwrap_or(64) as u64`. -/
def storedSize : Value → UInt64
  | .number n => (n.asI64.map Int64.toUInt64).getD 64
  | _ => 64

def storedPath (v : Value) : Outcome String String := strOr v "expected string TLV"

theorem tlvToI64_cons_of_ne {x : UInt8} (hx : x ≠ 0x02) (rest : Bytes) :
    tlvToI64 (x :: rest) = .err "expected integer TLV" := by
  have hat : At (x :: rest) 0 [x] := ⟨[], rest, rfl, rfl⟩
  rw [tlvToI64, if_neg (List.cons_ne_nil _ _), hat.byteAt, Outcome.ok_bind, if_pos hx]

theorem tlvToI64_int (i : Int64) : tlvToI64 (Tlv.int i).bytes = .ok i := by
  have hat : At (Tlv.int i).bytes 0 (0x02 :: beBytes 8 i.toUInt64.toNat) :=
    ⟨[], [], by rw [List.append_nil]; rfl, rfl⟩
  obtain ⟨htag, hbody⟩ := at_cons_iff.mp hat
  have hlen : (Tlv.int i).bytes.length = 9 := by rw [Tlv.bytes, List.length_cons, length_beBytes]
  rw [tlvToI64, if_neg (Tlv.bytes_ne_nil _), htag.byteAt, Outcome.ok_bind, if_neg (by simp), if_neg (by omega),
    hbody.beAt i.toUInt64.toNat_lt, Outcome.ok_bind, UInt64.ofNat_toNat, Int64.toInt64_toUInt64]

theorem sizeOfTlv_ofValue (v : Value) : sizeOfTlv (Tlv.ofValue v).bytes = .ok (storedSize v) := by
  have hother : ∀ {x : UInt8} {rest : Bytes}, x ≠ 0x02 → sizeOfTlv (x :: rest) = .ok 64 := fun hx => by
    rw [sizeOfTlv, tlvToI64_cons_of_ne hx]
  cases v with
  | number n =>
    rw [Tlv.ofValue, storedSize]
    cases hn : n.asI64 with
    | some i =>
      rw [sizeOfTlv, tlvToI64_int]
      rfl
    | none =>
      have hfloat : ∃ f, n.asF64 = some f := by cases n <;> exact ⟨_, rfl⟩
      obtain ⟨f, hf⟩ := hfloat
      rw [hf]
      exact hother (by decide)
  | null => exact hother (by decide)
  | bool b => exact hother (by decide)
  | string s => exact hother (by decide)
  | array items => exact hother (by decide)
  | object m => exact hother (by decide)

theorem tlvToStr_cons_of_ne {x : UInt8} (hx : x ≠ 0x01) (rest : Bytes) :
    tlvToStr (x :: rest) = .err "expected string TLV" := by
  have hat : At (x :: rest) 0 [x] := ⟨[], rest, rfl, rfl⟩
  rw [tlvToStr, if_neg (List.cons_ne_nil _ _), hat.byteAt, Outcome.ok_bind, if_pos hx]

theorem tlvToStr_ofValue {v : Value} (h : v.StringLe tlvMaxStringLen) :
    tlvToStr (Tlv.ofValue v).bytes = storedPath v := by
  cases v with
  | string s =>
    have hat : At (Tlv.string (utf8 s)).bytes 0 (0x01 :: (beBytes 4 (utf8 s).length ++ utf8 s)) :=
      ⟨[], [], by rw [List.append_nil]; rfl, rfl⟩
    obtain ⟨htag, hbody⟩ := at_cons_iff.mp hat
    obtain ⟨hlen, hs⟩ := at_append_iff.mp hbody
    rw [length_beBytes] at hs
    have hle := hs.length_le
    have hlim : (utf8 s).length < 256 ^ 4 := lt_of_le_of_lt h (by decide)
    rw [Tlv.ofValue, tlvToStr, if_neg (Tlv.bytes_ne_nil _), htag.byteAt, Outcome.ok_bind, if_neg (by simp),
      if_neg (by omega), hlen.beAt hlim, Outcome.ok_bind, if_neg (by omega), hs.slice rfl, Outcome.ok_bind, fromUtf8_utf8]
    rfl
  | number n =>
    rw [Tlv.ofValue]
    cases hn : n.asI64 with
    | some i => exact tlvToStr_cons_of_ne (by decide) _
    | none =>
      have hfloat : ∃ f, n.asF64 = some f := by cases n <;> exact ⟨_, rfl⟩
      obtain ⟨f, hf⟩ := hfloat
      rw [hf]
      exact tlvToStr_cons_of_ne (by decide) _
  | null => exact tlvToStr_cons_of_ne (by decide) _
  | bool b => exact tlvToStr_cons_of_ne (by decide) _
  | array items => exact tlvToStr_cons_of_ne (by decide) _
  | object m => exact tlvToStr_cons_of_ne (by decide) _

section WithinLimits

variable {disk : Disk} {request arguments : Value}

theorem storedArgs_of_fits (hfits : FitsFrame request) :
    storedArgs request = (Tlv.ofValue (requestArguments request)).bytes := by
  rw [storedArgs, Nat.mod_eq_of_lt hfits.args, List.take_length]

/-- The condition, by what the stored arguments have. -/
def FieldsAgree (disk : Disk) (toolName : String) (arguments stored : Value) : Prop :=
  if toolName = "bench_echo" then
    ∀ size, stored.get "size" = some size →
      storedSize size = sizeArgument (effectiveArgs arguments stored) ∧
        sizeArgument (effectiveArgs arguments stored) ≤ maxBenchSize
  else
    ∀ path, stored.get "path" = some path →
      PathsAgree disk (storedPath path) (strOr ((effectiveArgs arguments stored).index "path") "path is required")

theorem decodedArgs_of_fits (hlimits : WithinLimits (requestArguments request)) (hfits : FitsFrame request) :
    decodedArgs arguments (storedArgs request) = .ok (effectiveArgs arguments (requestArguments request)) := by
  have hdecode := hlimits.decode []
  rw [List.append_nil] at hdecode
  rw [decodedArgs, storedArgs_of_fits hfits, hdecode]
  rfl

/-- **The condition for arguments within the limits.** -/
theorem fastPathAgrees_iff_of_fits (hlimits : WithinLimits (requestArguments request)) (hfits : FitsFrame request)
    (toolName : String) : FastPathAgrees disk toolName arguments (storedArgs request) ↔
      FieldsAgree disk toolName arguments (requestArguments request) := by
  have hfield : ∀ key, extractTlvField (storedArgs request) (utf8 key) =
      .ok (((requestArguments request).get key).map fun w => (Tlv.ofValue w).bytes) := fun key => by
    rw [storedArgs_of_fits hfits, extract_field_ofValue hlimits]
  rw [FastPathAgrees, FieldsAgree]
  split_ifs
  · rw [hfield]
    cases (requestArguments request).get "size" with
    | none => simp
    | some size =>
      simp only [Option.map_some, Option.some.injEq, forall_eq']
      rw [sizeOfTlv_ofValue, decodedArgs_of_fits hlimits hfits, SizesAgree, Outcome.ok.injEq]
  · rw [hfield]
    cases hget : (requestArguments request).get "path" with
    | none => simp
    | some path =>
      simp only [Option.map_some, Option.some.injEq, forall_eq']
      rw [tlvToStr_ofValue (hfits.strings.get hget).self, decodedArgs_of_fits hlimits hfits]
      rfl

theorem echo_of_fits (disk : Disk) (others : Others) (arguments : Value) {sha256 : Bytes → Bytes}
    (hsha : ∀ b, (sha256 b).length = 32) {frame : Bytes} (htool : requestName request = .string "bench_echo")
    (hframe : frameOfRequest sha256 request = .ok frame) (hlimits : WithinLimits (requestArguments request))
    (hfits : FitsFrame request) {size : Value} (hget : (requestArguments request).get "size" = some size) :
    executeCachedFrame disk others "bench_echo" arguments frame = benchEchoImpl (storedSize size) ∧
      decodeAndCall disk others "bench_echo" arguments frame =
        benchEcho (effectiveArgs arguments (requestArguments request)) := by
  have hparse := parse_of_frame hsha (by decide) htool hframe
  have hfast : fastPath "bench_echo" (storedArgs request) = .ok (some (.benchEcho (storedSize size))) := by
    rw [fastPath, if_pos rfl, storedArgs_of_fits hfits, extract_field_ofValue hlimits, hget]
    show (sizeOfTlv (Tlv.ofValue size).bytes >>= _) = _
    rw [sizeOfTlv_ofValue]
    rfl
  constructor
  · rw [executeCachedFrame, planCachedFrame, hparse, Outcome.ok_bind, plan_of_fast hfast]
    rfl
  · rw [decodeAndCall, hparse, Outcome.ok_bind, decodedArgs_of_fits hlimits hfits]
    rfl

end WithinLimits

/-! ### A size of the caller's, and a negative size -/

def emptyDisk : Disk where
  isAbsolute path := path.toList.head? = some '/'
  ancestors path := [path]
  isSymlink _ := false
  openFile _ := .error "No such file or directory (os error 2)"
  metadata _ := .error "No such file or directory (os error 2)"
  canonicalize _ := .error "No such file or directory (os error 2)"
  readToString _ := .error "No such file or directory (os error 2)"
  megabytes _ := "0.00"

def noOthers : Others where
  builtin _ _ := .err "not called"
  csharp _ _ := .err "C# core engine not found. Check VELOCITY_CSHARP_PATH configuration."

/-- `{"size":-1}` -/
def negativeSize : Value := sizeArguments (.negInt (-1) (by decide))

/-- The SHA-256 digest of the payload of the frame for it. -/
def negativeDigest : Bytes :=
  [0xce, 0x91, 0x10, 0x47, 0xad, 0xc4, 0xdf, 0x87, 0x6a, 0x47, 0x84, 0xd5, 0x37, 0xed, 0x63, 0x5d, 0x24, 0xd2,
    0x38, 0xe1, 0x93, 0x25, 0xb9, 0xc2, 0xc9, 0x7c, 0x04, 0x80, 0x24, 0xdd, 0xef, 0xf2]

theorem fits_echo {n : Number} (h : (Value.number n).IntFits)
    (hargs : (Tlv.ofValue (sizeArguments n)).bytes.length < 256 ^ 4) :
    FitsFrame (callRequest "bench_echo" (sizeArguments n)) :=
  fits_of_withinLimits (withinLimits_sizeArguments h) (by decide) hargs

/-- The stored size 8 is run though the caller asks for 16; a stored size of -1 asks for more than there can be,
where the built-in tool takes its default. -/
theorem fastPath_disagrees :
    (∃ frame, frameOfRequest echoSha256 (callRequest "bench_echo" echoArguments) = .ok frame ∧
      executeCachedFrame emptyDisk noOthers "bench_echo" (sizeArguments (.posInt 16)) frame = .ok "xxxxxxxx" ∧
      decodeAndCall emptyDisk noOthers "bench_echo" (sizeArguments (.posInt 16)) frame = .ok "xxxxxxxxxxxxxxxx") ∧
    ∃ frame, frameOfRequest (fun _ => negativeDigest) (callRequest "bench_echo" negativeSize) = .ok frame ∧
      executeCachedFrame emptyDisk noOthers "bench_echo" .null frame = .panic ∧
      decodeAndCall emptyDisk noOthers "bench_echo" .null frame = .ok (String.ofList (List.replicate 64 'x')) := by
  have h₈ : (Value.number (.posInt 8)).IntFits := by simp [Value.IntFits, Number.i64Max]
  have hneg : (Value.number (.negInt (-1) (by decide))).IntFits := by simp [Value.IntFits]
  have hframe := frameOfRequest_callRequest echoSha256 "bench_echo" (withinLimits_sizeArguments h₈).keys
  have hframe' := frameOfRequest_callRequest (fun _ => negativeDigest) "bench_echo"
    (withinLimits_sizeArguments hneg).keys
  obtain ⟨hfast, hslow⟩ := echo_of_fits emptyDisk noOthers (sizeArguments (.posInt 16)) (fun _ => rfl) rfl hframe
    (withinLimits_sizeArguments h₈) (fits_echo h₈ (by decide)) rfl
  obtain ⟨hfast', hslow'⟩ := echo_of_fits emptyDisk noOthers .null (fun _ => rfl) rfl hframe'
    (withinLimits_sizeArguments hneg) (fits_echo hneg (by decide)) rfl
  refine ⟨⟨_, hframe, hfast.trans ?_, hslow.trans ?_⟩, _, hframe', hfast'.trans ?_, hslow'.trans ?_⟩
  · decide
  · decide
  · decide
  · decide

/-- Without arguments of the caller's, the stored size is what the built-in tool takes. -/
theorem fastPath_agrees_echo :
    ∃ frame, frameOfRequest echoSha256 (callRequest "bench_echo" echoArguments) = .ok frame ∧
      executeCachedFrame emptyDisk noOthers "bench_echo" .null frame =
        decodeAndCall emptyDisk noOthers "bench_echo" .null frame := by
  have h₈ : (Value.number (.posInt 8)).IntFits := by simp [Value.IntFits, Number.i64Max]
  have hlimits : WithinLimits (requestArguments (callRequest "bench_echo" echoArguments)) :=
    withinLimits_sizeArguments h₈
  have hframe := frameOfRequest_callRequest echoSha256 "bench_echo" hlimits.keys
  have hagrees : FastPathAgrees emptyDisk "bench_echo" .null
      (storedArgs (callRequest "bench_echo" echoArguments)) := by
    refine (fastPathAgrees_iff_of_fits hlimits (fits_echo h₈ (by decide)) "bench_echo").mpr ?_
    rintro size hsize
    obtain rfl := Option.some.inj hsize
    decide
  exact ⟨_, hframe, (fastPath_agrees emptyDisk noOthers echoSha256 (fun _ => rfl) _ .null _ "bench_echo"
    (Or.inl rfl) rfl hframe).1 hagrees⟩

end VelocityMcp.Registry
