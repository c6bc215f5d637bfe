import VelocityMcp.Lib.Base64
import VelocityMcp.Lib.Machine
import VelocityMcp.Registry.Dispatch
import VelocityMcp.Registry.Frames
import Mathlib.Data.Finmap

/-!
# Registry.Convert — `cache_nmcp_frame` (`registry.rs`)

A conversion enters a frame in the frame cache, which holds 256 and then drops an entry, and a definition in
the registry of converted tools, which has no bound.
-/

namespace VelocityMcp.Registry

open Lib NdaNative

/-! ## The conversion -/

/-- `NMCP_FRAME_CACHE`. -/
abbrev Frames := Finmap fun _ : String => Bytes

/-- The tables that a conversion changes, and those that the listing reads with them. -/
structure Tables where
  registries : Registries
  frames : Frames

/-- What `serde_json`, `sha2` and `base64` compute. -/
structure Crates where
  fromStr : String → Except String Value
  sha256 : Bytes → Bytes
  encode : Bytes → String
  decode : String → Except String Bytes
  length_sha256 : ∀ b, (sha256 b).length = 32
  decode_encode : ∀ b, decode (encode b) = .ok b

/-- What the host answers during a conversion: to the write of the file, to the two reads of it, and which key
the iterator over the frame cache gives first. -/
structure Host where
  write : Except String Unit
  read : Except String Bytes
  reread : Except String Bytes
  firstKey : Option String

def maxNmcpFrames : ℕ := 256

/-- `registry.insert(tool_name, binary_data)`, after room was made for a new name. -/
def insertFrame (frames : Frames) (firstKey : Option String) (toolName : String) (binaryData : Bytes) : Frames :=
  if maxNmcpFrames ≤ frames.keys.card ∧ toolName ∉ frames then
    match firstKey with
    | some key => (frames.erase key).insert toolName binaryData
    | none => frames.insert toolName binaryData
  else frames.insert toolName binaryData

/-- `reg.insert(tool_name, tool_def)`; the place of an entry is the choice of the `HashMap`. -/
def ConvertedTools.insert (c : ConvertedTools) (t : Tool) : ConvertedTools where
  entries := (t.name, t) :: c.entries.filter fun e => e.1 ≠ t.name
  nodup := by
    have hsub := (List.filter_sublist (l := c.entries) (p := fun e => e.1 ≠ t.name)).map Prod.fst
    refine List.nodup_cons.mpr ⟨?_, c.nodup.sublist hsub⟩
    simp
  named e he := by
    obtain rfl | he := List.mem_cons.mp he
    · rfl
    · exact c.named e (List.mem_filter.mp he).1

def passThroughSchema : Value :=
  .object [("description", .string "Arguments passed through to NDA binary executor"), ("properties", .object []),
    ("required", .array []), ("type", .string "object")]

/-- `tool_def`, from what `get_tools` gives. -/
def convertedTool (tools : List Tool) (toolName : String) : Tool :=
  { name := toolName
    description := s!"NDA-converted tool '{toolName}' — executes via fast binary path"
    inputSchema :=
      match tools.find? fun t => t.name = toolName with
      | some t => t.inputSchema
      | none => passThroughSchema }

def jsonToNmcpFrame (crates : Crates) (write : Except String Unit) (jsonRequest outputPath : String) :
    Outcome String String := do
  let request ← Outcome.ofExcept (crates.fromStr jsonRequest)
  let frame ← frameOfRequest crates.sha256 request
  if outputPath = "" then .ok (crates.encode frame)
  else do
    let _ ← Outcome.ofExcept write
    .ok s!"NDA binary written to {outputPath}"

structure Conversion where
  base64Result : String
  toolName : String
  binaryData : Bytes

/-- `cache_nmcp_frame` before the tables change. -/
def convertRequest (crates : Crates) (host : Host) (jsonRequest outputPath : String) :
    Outcome String Conversion := do
  let base64Result ← jsonToNmcpFrame crates host.write jsonRequest outputPath
  let request ← Outcome.ofExcept (crates.fromStr jsonRequest)
  let toolName ← strOr (requestName request) "Missing 'params.name' in JSON request"
  let binaryData ← Outcome.ofExcept (if outputPath = "" then crates.decode base64Result else host.read)
  .ok { base64Result, toolName, binaryData }

/-- The two tables after it; the listing is computed anew, since the first insertion advances the generation. -/
def Tables.register (s : Tables) (firstKey : Option String) (toolName : String) (binaryData : Bytes) : Tables :=
  { registries :=
      { s.registries with converted := s.registries.converted.insert (convertedTool (listTools s.registries) toolName) }
    frames := insertFrame s.frames firstKey toolName binaryData }

def Conversion.answer (c : Conversion) (crates : Crates) (host : Host) (outputPath : String) :
    Outcome String String :=
  if outputPath = "" then .ok c.base64Result
  else do
    let data ← Outcome.ofExcept host.reread
    .ok (crates.encode data)

/-- `cache_nmcp_frame`: the frame is made first, and registered only if that succeeds. -/
def cacheNmcpFrame (crates : Crates) (host : Host) (s : Tables) (jsonRequest outputPath : String) :
    Outcome String String × Tables :=
  match convertRequest crates host jsonRequest outputPath with
  | .ok c => (c.answer crates host outputPath, s.register host.firstKey c.toolName c.binaryData)
  | .err e => (.err e, s)
  | .panic => (.panic, s)

/-- The name and the frame of a request. -/
def built (crates : Crates) (jsonRequest : String) : Option (String × Bytes) := do
  let request ← (Outcome.ofExcept (crates.fromStr jsonRequest)).toOption
  let frame ← (frameOfRequest crates.sha256 request).toOption
  let toolName ← (requestName request).asStr
  some (toolName, frame)

section Conversion

variable {crates : Crates} {host : Host} {jsonRequest outputPath : String} {c : Conversion} {s : Tables}

theorem built_eq_some {toolName : String} {frame : Bytes} : built crates jsonRequest = some (toolName, frame) ↔
    ∃ request, crates.fromStr jsonRequest = .ok request ∧ frameOfRequest crates.sha256 request = .ok frame ∧
      requestName request = .string toolName := by
  rw [built]
  cases hrequest : crates.fromStr jsonRequest with
  | error e => simp [Outcome.toOption]
  | ok request =>
    cases hframe : frameOfRequest crates.sha256 request with
    | err e => simp [Outcome.toOption, hframe]
    | panic => simp [Outcome.toOption, hframe]
    | ok frame' => cases hname : requestName request <;> simp [Outcome.toOption, hframe, hname, Value.asStr, and_comm]

/-- **The bytes that are entered**: without a file they are the frame, with one they are read from it. -/
theorem convertRequest_eq_ok (h : convertRequest crates host jsonRequest outputPath = .ok c) :
    ∃ frame, built crates jsonRequest = some (c.toolName, frame) ∧
      (outputPath = "" → c.binaryData = frame) ∧ (outputPath ≠ "" → host.read = .ok c.binaryData) := by
  obtain ⟨base64Result, hbase64, h⟩ := Outcome.bind_eq_ok.mp h
  obtain ⟨request, hrequest, h⟩ := Outcome.bind_eq_ok.mp h
  obtain ⟨toolName, hname, h⟩ := Outcome.bind_eq_ok.mp h
  obtain ⟨binaryData, hbinary, h⟩ := Outcome.bind_eq_ok.mp h
  obtain rfl := Outcome.ok.inj h
  rw [jsonToNmcpFrame, hrequest, Outcome.ok_bind] at hbase64
  obtain ⟨frame, hframe, hbase64⟩ := Outcome.bind_eq_ok.mp hbase64
  refine ⟨frame, built_eq_some.mpr ⟨request, Outcome.ofExcept_eq_ok.mp hrequest, hframe, strOr_eq_ok.mp hname⟩,
    fun hpath => ?_, fun hpath => ?_⟩
  · rw [if_pos hpath, Outcome.ok.injEq] at hbase64
    rw [if_pos hpath, ← hbase64, crates.decode_encode] at hbinary
    exact (Outcome.ok.inj hbinary).symm
  · rw [if_neg hpath] at hbinary
    exact Outcome.ofExcept_eq_ok.mp hbinary

/-- **What a conversion enters**: its frame, or nothing. -/
theorem cacheNmcpFrame_cases (crates : Crates) (host : Host) (s : Tables) (jsonRequest outputPath : String) :
    (∃ c, convertRequest crates host jsonRequest outputPath = .ok c ∧
        cacheNmcpFrame crates host s jsonRequest outputPath =
          (c.answer crates host outputPath, s.register host.firstKey c.toolName c.binaryData)) ∨
      ∃ result, (∀ text, result ≠ .ok text) ∧
        cacheNmcpFrame crates host s jsonRequest outputPath = (result, s) := by
  rw [cacheNmcpFrame]
  cases convertRequest crates host jsonRequest outputPath with
  | ok c => exact Or.inl ⟨c, rfl, rfl⟩
  | err e => exact Or.inr ⟨_, by simp, rfl⟩
  | panic => exact Or.inr ⟨_, by simp, rfl⟩

theorem cacheNmcpFrame_noFile (host : Host) (s : Tables) {toolName : String} {frame : Bytes}
    (h : built crates jsonRequest = some (toolName, frame)) : cacheNmcpFrame crates host s jsonRequest "" =
      (.ok (crates.encode frame), s.register host.firstKey toolName frame) := by
  obtain ⟨request, hrequest, hframe, hname⟩ := built_eq_some.mp h
  have hbase64 : jsonToNmcpFrame crates host.write jsonRequest "" = .ok (crates.encode frame) := by
    rw [jsonToNmcpFrame, hrequest, Outcome.ofExcept_ok, Outcome.ok_bind, hframe, Outcome.ok_bind, if_pos rfl]
  have hconvert : convertRequest crates host jsonRequest "" = .ok ⟨crates.encode frame, toolName, frame⟩ := by
    rw [convertRequest, hbase64, Outcome.ok_bind, hrequest, Outcome.ofExcept_ok, Outcome.ok_bind,
      strOr_eq_ok.mpr hname, Outcome.ok_bind, if_pos rfl, crates.decode_encode, Outcome.ofExcept_ok, Outcome.ok_bind]
  rw [cacheNmcpFrame, hconvert]
  rfl

theorem lookup_insertFrame (frames : Frames) (firstKey : Option String) (toolName : String) (binaryData : Bytes) :
    (insertFrame frames firstKey toolName binaryData).lookup toolName = some binaryData := by
  unfold insertFrame
  split_ifs
  · cases firstKey <;> exact Finmap.lookup_insert _
  · exact Finmap.lookup_insert _

theorem insertFrame_of_room {frames : Frames} {toolName : String}
    (hroom : frames.keys.card < maxNmcpFrames ∨ toolName ∈ frames) (firstKey : Option String) (binaryData : Bytes) :
    insertFrame frames firstKey toolName binaryData = frames.insert toolName binaryData := by
  refine if_neg ?_
  rintro ⟨hfull, hnew⟩
  exact hroom.elim (fun hlt => absurd hfull (by omega)) hnew

theorem insertFrame_of_full {frames : Frames} {toolName : String} (hfull : maxNmcpFrames ≤ frames.keys.card)
    (hnew : toolName ∉ frames) (key : String) (binaryData : Bytes) :
    insertFrame frames (some key) toolName binaryData = (frames.erase key).insert toolName binaryData :=
  if_pos ⟨hfull, hnew⟩

theorem mem_insert_iff (c : ConvertedTools) (t : Tool) (name : String) :
    (∃ e ∈ (c.insert t).entries, e.1 = name) ↔ name = t.name ∨ ∃ e ∈ c.entries, e.1 = name := by
  constructor
  · rintro ⟨e, he, rfl⟩
    obtain rfl | he := List.mem_cons.mp he
    · exact Or.inl rfl
    · exact Or.inr ⟨e, (List.mem_filter.mp he).1, rfl⟩
  · by_cases hname : name = t.name
    · intro _
      exact ⟨_, List.mem_cons_self, hname.symm⟩
    · rintro (heq | ⟨e, he, rfl⟩)
      · exact absurd heq hname
      · exact ⟨e, List.mem_cons_of_mem _ (List.mem_filter.mpr ⟨he, decide_eq_true hname⟩), rfl⟩

theorem hasConverted_register (s : Tables) (firstKey : Option String) (toolName : String) (binaryData : Bytes)
    (name : String) : (s.register firstKey toolName binaryData).registries.HasConverted name ↔
      name = toolName ∨ s.registries.HasConverted name := mem_insert_iff _ _ name

end Conversion

/-! ## Runs of conversions -/

/-- The tables, and the frame of the last successful conversion of each name. -/
structure History where
  tables : Tables
  latest : String → Option Bytes

/-- What changes the tables that a listing is made of. -/
inductive Event where
  | convert (host : Host) (jsonRequest outputPath : String)
  /-- The other sources of the listing change. -/
  | others (csharp macroTools : List Tool) (plugins : List (List ManifestTool))

/-- After a conversion with this result, which left these tables. -/
def History.record (crates : Crates) (h : History) (jsonRequest : String) :
    Outcome String String × Tables → History
  | (.ok _, tables) =>
    { tables
      latest := match built crates jsonRequest with
        | some (toolName, frame) => Function.update h.latest toolName (some frame)
        | none => h.latest }
  | (_, tables) => { tables, latest := h.latest }

/-- A conversion is recorded with its answer; another source changes for itself. -/
def History.step (crates : Crates) (h : History) : Event → Option History
  | .convert host jsonRequest outputPath =>
    some (h.record crates jsonRequest (cacheNmcpFrame crates host h.tables jsonRequest outputPath))
  | .others csharp macroTools plugins =>
    let registries := { h.tables.registries with csharp, macroTools, plugins }
    some { h with tables := { h.tables with registries } }

/-- Nothing was converted yet. -/
def History.Fresh (h : History) : Prop :=
  h.tables.registries.converted.entries = [] ∧ h.tables.frames = ∅ ∧ h.latest = fun _ => none

/-- Every tool that is listed as converted has a frame, and what is kept and run for a name is the frame of its
last successful conversion (for the name of a built-in tool the dispatcher runs no frame). -/
def History.Callable (h : History) : Prop :=
  (∀ toolName t, advertised h.tables.registries toolName = some (.converted, t) → toolName ∈ h.tables.frames) ∧
    ∀ toolName frame, h.latest toolName = some frame → h.tables.frames.lookup toolName = some frame ∧
      (toolName ∉ Wasm.builtinToolNames →
        route h.tables.registries.plugins h.tables.frames.lookup toolName = .frame frame)

def History.FirstKey (h : History) : Event → Prop
  | .convert host _ _ =>
    match host.firstKey with
    | some key => key ∈ h.tables.frames
    | none => h.tables.frames = ∅
  | .others _ _ _ => True

/-- A conversion finds room or replaces an entry, and reads twice from its file what it wrote there. -/
def History.Keeps (crates : Crates) (h : History) : Event → Prop
  | .convert host jsonRequest outputPath => ∀ toolName frame, built crates jsonRequest = some (toolName, frame) →
      (h.tables.frames.keys.card < maxNmcpFrames ∨ toolName ∈ h.tables.frames) ∧
        (outputPath ≠ "" → ∀ bytes, host.read = .ok bytes → bytes = frame ∧ ∃ data, host.reread = .ok data)
  | .others _ _ _ => True

/-- Every converted tool has a frame, and the last frame of a name is the one in the cache. -/
structure History.Inv (h : History) : Prop where
  converted : ∀ toolName, h.tables.registries.HasConverted toolName → toolName ∈ h.tables.frames
  latest : ∀ toolName frame, h.latest toolName = some frame → h.tables.frames.lookup toolName = some frame

section Runs

variable {crates : Crates} {h h' : History} {host : Host} {jsonRequest outputPath : String}

theorem History.Fresh.inv (hfresh : h.Fresh) : h.Inv := by
  obtain ⟨hconverted, -, hlatest⟩ := hfresh
  refine ⟨fun toolName ⟨e, he, _⟩ => ?_, fun toolName frame hframe => ?_⟩
  · rw [hconverted] at he
    cases he
  · rw [hlatest] at hframe
    cases hframe

theorem History.Inv.register (hinv : h.Inv) {toolName : String} {frame : Bytes}
    (hroom : h.tables.frames.keys.card < maxNmcpFrames ∨ toolName ∈ h.tables.frames) (firstKey : Option String) :
    History.Inv ⟨h.tables.register firstKey toolName frame, Function.update h.latest toolName (some frame)⟩ := by
  have hframes : (h.tables.register firstKey toolName frame).frames = h.tables.frames.insert toolName frame :=
    insertFrame_of_room hroom firstKey frame
  refine ⟨fun other hother => ?_, fun other bytes hother => ?_⟩
  · rw [hframes, Finmap.mem_insert]
    exact ((hasConverted_register _ _ _ _ _).mp hother).imp_right (hinv.converted other)
  · show (h.tables.register firstKey toolName frame).frames.lookup other = some bytes
    rw [hframes]
    obtain ⟨rfl, rfl⟩ | ⟨hne, hold⟩ := update_eq_some hother
    · exact Finmap.lookup_insert _
    · rw [Finmap.lookup_insert_of_ne _ hne]
      exact hinv.latest other bytes hold

/-- What a conversion that keeps its file does: nothing, or it registers the frame and succeeds. -/
theorem History.step_convert (hstep : h.step crates (.convert host jsonRequest outputPath) = some h')
    (hkeeps : h.Keeps crates (.convert host jsonRequest outputPath)) :
    h' = h ∨ ∃ toolName frame, built crates jsonRequest = some (toolName, frame) ∧
      h' = ⟨h.tables.register host.firstKey toolName frame, Function.update h.latest toolName (some frame)⟩ := by
  obtain rfl := Option.some.inj hstep
  obtain ⟨c, hc, hresult⟩ | ⟨result, hfailed, hresult⟩ :=
    cacheNmcpFrame_cases crates host h.tables jsonRequest outputPath
  · right
    obtain ⟨frame, hbuilt, hbytes, hread⟩ := convertRequest_eq_ok hc
    refine ⟨c.toolName, frame, hbuilt, ?_⟩
    rw [hresult]
    by_cases hpath : outputPath = ""
    · rw [Conversion.answer, if_pos hpath, hbytes hpath, History.record, hbuilt]
    · obtain ⟨hframe, data, hdata⟩ := (hkeeps _ _ hbuilt).2 hpath _ (hread hpath)
      rw [Conversion.answer, if_neg hpath, hdata, hframe, Outcome.ofExcept_ok, Outcome.ok_bind, History.record,
        hbuilt]
  · left
    rw [hresult]
    cases result with
    | ok text => exact absurd rfl (hfailed text)
    | err e => rfl
    | panic => rfl

/-- **A step that keeps its file and finds room** keeps the invariant. -/
theorem History.Inv.step (hinv : h.Inv) {event : Event} (hkeeps : h.Keeps crates event)
    (hstep : h.step crates event = some h') : h'.Inv := by
  cases event with
  | convert host jsonRequest outputPath =>
    obtain rfl | ⟨toolName, frame, hbuilt, rfl⟩ := History.step_convert hstep hkeeps
    · exact hinv
    · exact hinv.register (hkeeps toolName frame hbuilt).1 host.firstKey
  | others csharp macroTools plugins =>
    obtain rfl := Option.some.inj hstep
    exact ⟨hinv.converted, hinv.latest⟩

theorem History.Inv.callable (hinv : h.Inv) : h.Callable := by
  refine ⟨fun toolName t hlisted => ?_, fun toolName frame hlatest => ?_⟩
  · exact hinv.converted toolName (hasConverted_of_advertised hlisted)
  · have hframe := hinv.latest toolName frame hlatest
    refine ⟨hframe, fun hbuiltin => ?_⟩
    rw [route, if_neg hbuiltin, hframe]

/-- **Converted tools stay callable** as long as conversions find room and their files keep what was written. -/
theorem converted_callable (crates : Crates)
    (hrun : ReachableWhen History.Fresh (History.step crates) (History.Keeps crates) h) : h.Callable := by
  have hinv : h.Inv := hrun.invariant (fun _ hfresh => hfresh.inv) fun _ _ _ hinv hkeeps hstep =>
    hinv.step hkeeps hstep
  exact hinv.callable

end Runs

/-! ### One conversion, and 257 of them -/

/-- The text of `callRequest`, for a name that needs no escapes. -/
def callText (toolName arguments : String) : String :=
  "\x7b\"method\":\"tools/call\",\"params\":\x7b\"arguments\":" ++ arguments ++ ",\"name\":\"" ++ toolName ++
    "\"\x7d\x7d"

/-- `{"query":"lean"}` -/
def queryArguments : Value := .object [("query", .string "lean")]

def searchText : String := callText "search" "\x7b\"query\":\"lean\"\x7d"

/-- The SHA-256 digest of the payload of its frame. -/
def searchDigest : Bytes :=
  [0x01, 0x23, 0xbe, 0x39, 0x4f, 0x9c, 0xc0, 0x2b, 0xe4, 0x47, 0x0d, 0xed, 0x56, 0x35, 0xf5, 0x2b,
    0x94, 0x30, 0xf0, 0xf0, 0x6b, 0x6a, 0xf7, 0x1a, 0xbe, 0x95, 0xc3, 0x56, 0xe5, 0xc0, 0x74, 0x06]

def searchCrates : Crates where
  fromStr s :=
    if s = searchText then .ok (callRequest "search" queryArguments) else .error "expected value at line 1 column 1"
  sha256 _ := searchDigest
  encode := Base64.encode
  decode s := (Base64.decode s).elim (.error "Invalid padding") .ok
  length_sha256 _ := rfl
  decode_encode b := by rw [Base64.decode_encode, Option.elim_some]

/-- The frame of `callRequest`. -/
def callFrame (crates : Crates) (toolName : String) (arguments : Value) : Bytes :=
  nmcpFrame crates.sha256 (nmcpPayload 1 toolName (Tlv.ofValue arguments).bytes)

theorem built_callRequest {crates : Crates} {jsonRequest toolName : String} {arguments : Value}
    (hrequest : crates.fromStr jsonRequest = .ok (callRequest toolName arguments))
    (hkeys : arguments.All (Value.KeysLe 65535)) :
    built crates jsonRequest = some (toolName, callFrame crates toolName arguments) :=
  built_eq_some.mpr ⟨_, hrequest, frameOfRequest_callRequest _ _ hkeys, rfl⟩

theorem keysLe_query : queryArguments.All (Value.KeysLe 65535) := by
  have hsize : (utf8 "query").length = 5 := by decide
  simp [queryArguments, Value.All, Value.AllFields, Value.KeysLe, hsize]

theorem fromStr_search : searchCrates.fromStr searchText = .ok (callRequest "search" queryArguments) := by
  simp [searchCrates]

/-- A host that is not asked for files, with this first key. -/
def noFiles (firstKey : Option String) : Host :=
  { write := .error "", read := .error "", reread := .error "", firstKey }

/-- After a conversion without a file. -/
def History.converted (crates : Crates) (h : History) (firstKey : Option String) (toolName : String)
    (arguments : Value) : History :=
  let frame := callFrame crates toolName arguments
  ⟨h.tables.register firstKey toolName frame, Function.update h.latest toolName (some frame)⟩

theorem History.step_noFiles {crates : Crates} {jsonRequest toolName : String} {arguments : Value}
    (hrequest : crates.fromStr jsonRequest = .ok (callRequest toolName arguments))
    (hkeys : arguments.All (Value.KeysLe 65535)) (h : History) (firstKey : Option String) :
    h.step crates (.convert (noFiles firstKey) jsonRequest "") =
      some (h.converted crates firstKey toolName arguments) := by
  have hbuilt := built_callRequest hrequest hkeys
  rw [History.step, cacheNmcpFrame_noFile _ _ hbuilt, History.record, hbuilt]
  rfl

/-- Nothing was converted, and there are no tools but the built-in ones. -/
def freshHistory : History := { tables := { registries := noTools, frames := ∅ }, latest := fun _ => none }

theorem fresh_freshHistory : freshHistory.Fresh := ⟨rfl, rfl, rfl⟩

/-- The conversion again, which finds its own frame in the table. -/
theorem converted_callable_search :
    ((freshHistory.converted searchCrates none "search" queryArguments).converted searchCrates (some "search") "search"
      queryArguments).Callable := by
  have hkeeps : ∀ h : History, h.tables.frames.keys.card < maxNmcpFrames ∨ "search" ∈ h.tables.frames →
      ∀ firstKey, h.Keeps searchCrates (.convert (noFiles firstKey) searchText "") := by
    intro h hroom firstKey toolName frame hbuilt
    rw [built_callRequest fromStr_search keysLe_query] at hbuilt
    obtain ⟨rfl, -⟩ := Prod.mk.inj (Option.some.inj hbuilt)
    exact ⟨hroom, fun hpath => absurd rfl hpath⟩
  have hfirst := (ReachableWhen.init fresh_freshHistory).step (hkeeps _ (Or.inl (by decide)) none)
    (History.step_noFiles fromStr_search keysLe_query _ none)
  refine converted_callable searchCrates (hfirst.step (hkeeps _ (Or.inr ?_) _)
    (History.step_noFiles fromStr_search keysLe_query _ _))
  have hinserted : insertFrame freshHistory.tables.frames none "search" (callFrame searchCrates "search" queryArguments) =
      freshHistory.tables.frames.insert "search" (callFrame searchCrates "search" queryArguments) :=
    insertFrame_of_room (Or.inl (by decide)) none _
  show "search" ∈ insertFrame freshHistory.tables.frames none "search" _
  rw [hinserted]
  exact Finmap.mem_insert.mpr (Or.inl rfl)

def nameOf (i : ℕ) : String := String.ofList (List.replicate (i + 1) 'a')

theorem nameOf_inj {i j : ℕ} (h : nameOf i = nameOf j) : i = j := by
  have hlen := congrArg String.length h
  rw [nameOf, nameOf, String.length_ofList, String.length_ofList, List.length_replicate, List.length_replicate] at hlen
  omega

theorem keysLe_empty : (Value.object []).All (Value.KeysLe 65535) :=
  Value.all_object.mpr ⟨by simp [Value.KeysLe], by simp⟩

def ReadsNames (crates : Crates) : Prop :=
  ∀ i, crates.fromStr (callText (nameOf i) "\x7b\x7d") = .ok (callRequest (nameOf i) (.object []))

/-- `n` of the names are converted. -/
structure Filled (n : ℕ) (h : History) : Prop where
  card : h.tables.frames.keys.card = n
  rest : ∀ i, n ≤ i → nameOf i ∉ h.tables.frames
  first : 0 < n → nameOf 0 ∈ h.tables.frames
  listed : 0 < n → h.tables.registries.HasConverted (nameOf 0)
  csharp : h.tables.registries.csharp = []

/-- The name that the `HashMap` gives first. -/
def firstName (n : ℕ) : Option String := if n = 0 then none else some (nameOf 0)

section Names

variable {crates : Crates} {n : ℕ} {h : History}

theorem Filled.converted (hfilled : Filled n h) (hn : n < maxNmcpFrames) :
    Filled (n + 1) (h.converted crates (firstName n) (nameOf n) (.object [])) := by
  have hframes : (h.converted crates (firstName n) (nameOf n) (.object [])).tables.frames =
      h.tables.frames.insert (nameOf n) (callFrame crates (nameOf n) (.object [])) :=
    insertFrame_of_room (Or.inl (hfilled.card ▸ hn)) _ _
  have hkeys : (h.converted crates (firstName n) (nameOf n) (.object [])).tables.frames.keys =
      insert (nameOf n) h.tables.frames.keys := by
    ext name
    rw [Finset.mem_insert, Finmap.mem_keys, Finmap.mem_keys, hframes, Finmap.mem_insert]
  refine ⟨?_, ?_, ?_, ?_, hfilled.csharp⟩
  · rw [hkeys, Finset.card_insert_of_notMem (mt Finmap.mem_keys.mp (hfilled.rest n le_rfl)), hfilled.card]
  · intro i hi
    rw [hframes, Finmap.mem_insert]
    rintro (heq | hmem)
    · have := nameOf_inj heq
      omega
    · exact hfilled.rest i (by omega) hmem
  · intro _
    rw [hframes, Finmap.mem_insert]
    rcases Nat.eq_zero_or_pos n with rfl | hpos
    · exact Or.inl rfl
    · exact Or.inr (hfilled.first hpos)
  · intro _
    refine (hasConverted_register _ _ _ _ _).mpr ?_
    rcases Nat.eq_zero_or_pos n with rfl | hpos
    · exact Or.inl rfl
    · exact Or.inr (hfilled.listed hpos)

theorem Filled.firstKey (hfilled : Filled n h) (text : String) :
    h.FirstKey (.convert (noFiles (firstName n)) text "") := by
  rcases Nat.eq_zero_or_pos n with rfl | hpos
  · have hempty : h.tables.frames.keys = ∅ := Finset.card_eq_zero.mp hfilled.card
    show h.tables.frames = ∅
    refine Finmap.ext_lookup fun name => ?_
    rw [Finmap.lookup_empty, Finmap.lookup_eq_none, ← Finmap.mem_keys, hempty]
    exact Finset.notMem_empty name
  · have hfirst : (noFiles (firstName n)).firstKey = some (nameOf 0) := if_neg hpos.ne'
    rw [History.FirstKey, hfirst]
    exact hfilled.first hpos

/-- The `n` conversions, one after the other. -/
theorem exists_filled (hreads : ReadsNames crates) (hn : n ≤ maxNmcpFrames) :
    ∃ h, ReachableWhen History.Fresh (History.step crates) History.FirstKey h ∧ Filled n h := by
  induction n with
  | zero =>
    refine ⟨freshHistory, .init fresh_freshHistory, rfl, fun i _ => Finmap.notMem_empty, ?_, ?_, rfl⟩ <;>
      exact fun h => absurd h (by omega)
  | succ n ih =>
    obtain ⟨h, hrun, hfilled⟩ := ih (by omega)
    exact ⟨_, .step hrun (hfilled.firstKey _) (History.step_noFiles (hreads n) keysLe_empty h (firstName n)),
      hfilled.converted hn⟩

theorem firstName_not_builtin : nameOf 0 ∉ Wasm.builtinToolNames := by decide

theorem advertised_converted {r : Registries} {name : String} (hbuiltin : name ∉ Wasm.builtinToolNames)
    (hcsharp : r.csharp = []) (hconverted : r.HasConverted name) : ∃ t, advertised r name = some (.converted, t) := by
  obtain ⟨t, ht⟩ := Option.isSome_iff_exists.mp ((find_converted r name).mpr hconverted)
  rw [advertised_of_not_builtin r hbuiltin, ht, hcsharp]
  exact ⟨t, rfl⟩

end Names

theorem exists_not_callable {crates : Crates} (hreads : ReadsNames crates) :
    ∃ h, ReachableWhen History.Fresh (History.step crates) History.FirstKey h ∧ ¬ h.Callable := by
  obtain ⟨h, hrun, hfilled⟩ := exists_filled hreads le_rfl
  refine ⟨_, .step hrun (hfilled.firstKey _)
    (History.step_noFiles (hreads maxNmcpFrames) keysLe_empty h (firstName maxNmcpFrames)), ?_⟩
  have hframes : (h.converted crates (firstName maxNmcpFrames) (nameOf maxNmcpFrames) (.object [])).tables.frames =
      (h.tables.frames.erase (nameOf 0)).insert (nameOf maxNmcpFrames) _ :=
    insertFrame_of_full hfilled.card.ge (hfilled.rest maxNmcpFrames le_rfl) _ _
  have hconverted : (h.converted crates (firstName maxNmcpFrames) (nameOf maxNmcpFrames)
      (.object [])).tables.registries.HasConverted (nameOf 0) :=
    (hasConverted_register _ _ _ _ _).mpr (Or.inr (hfilled.listed (by decide)))
  obtain ⟨t, ht⟩ := advertised_converted firstName_not_builtin (by exact hfilled.csharp) hconverted
  rintro ⟨hlisted, -⟩
  have hmem := hlisted _ t ht
  rw [hframes, Finmap.mem_insert] at hmem
  rcases hmem with heq | hmem
  · exact absurd (nameOf_inj heq) (by decide)
  · exact Finmap.notMem_erase_self hmem

def namesCrates : Crates :=
  { searchCrates with
    fromStr := fun s =>
      let i := s.length - (callText (nameOf 0) "\x7b\x7d").length
      if s = callText (nameOf i) "\x7b\x7d" then .ok (callRequest (nameOf i) (.object []))
      else .error "expected value at line 1 column 1" }

theorem readsNames_namesCrates : ReadsNames namesCrates := by
  intro i
  have hdiff : ∀ before after : String,
      (before ++ nameOf i ++ after).length - (before ++ nameOf 0 ++ after).length = i := by
    intro before after
    simp only [nameOf, String.length_append, String.length_ofList, List.length_replicate]
    omega
  have hlen : (callText (nameOf i) "\x7b\x7d").length - (callText (nameOf 0) "\x7b\x7d").length = i := hdiff _ _
  unfold namesCrates
  dsimp only
  rw [hlen, if_pos rfl]

/-- After 257 conversions of different names, whatever the crates do besides. -/
theorem conversions_not_callable :
    (∀ crates, ReadsNames crates →
      ∃ h, ReachableWhen History.Fresh (History.step crates) History.FirstKey h ∧ ¬ h.Callable) ∧
    ∃ crates, ReadsNames crates :=
  ⟨fun _ hreads => exists_not_callable hreads, _, readsNames_namesCrates⟩

end VelocityMcp.Registry
