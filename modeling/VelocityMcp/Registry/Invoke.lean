import VelocityMcp.Registry.Convert

/-!
# Registry.Invoke — what a call invokes, before and after a conversion

`conversion_keeps_iff`: when a call of a plugin's tool or of a C# tool reaches the executor that it reached
before the conversion of the tool.
-/

namespace VelocityMcp.Registry

open Lib NdaNative

/-- The executor that a call reaches, and with which arguments. -/
inductive Invocation where
  | call (call : FrameCall)
  | plugin (tool : ManifestTool) (args : Value)

/-- `call_tool`, up to the call of the executor. -/
def invoke (s : Tables) (name : String) (arguments : Value) : Outcome String Invocation :=
  match route s.registries.plugins s.frames.lookup name with
  | .builtin => .ok (.call (.builtin arguments))
  | .frame nda => do
    let call ← planCachedFrame name arguments nda
    .ok (.call call)
  | .plugin tool => .ok (.plugin tool arguments)
  | .csharp => .ok (.call (.csharp arguments))

/-- The call reaches a plugin or the C# engine, with these arguments. -/
def Dynamic (arguments : Value) (result : Outcome String Invocation) : Prop :=
  result = .ok (.call (.csharp arguments)) ∨ ∃ tool, result = .ok (.plugin tool arguments)

def Decodes (args : Bytes) : Prop := ∃ v n, decodeJsonValue args = .ok (v, n)

/-- The condition of `conversion_keeps_iff`: the call goes to the C# engine, and the frame can be read.  Without a
file this means that the name fits its length field, and that the encoded arguments, cut to their length modulo
2^32, decode; with one it means that the file holds such a frame. -/
structure Keeps (s : Tables) (host : Host) (request : Value) (outputPath name : String) : Prop where
  csharp : name ∈ s.frames ∨ findPluginTool s.registries.plugins name = none
  noFile : outputPath = "" → (utf8 name).length < 256 ^ 2 ∧
    Decodes ((Tlv.ofValue (requestArguments request)).bytes.take
      ((Tlv.ofValue (requestArguments request)).bytes.length % 256 ^ 4))
  file : outputPath ≠ "" → ∀ data, host.read = .ok data →
    ∃ args, parseCachedFrame name data = .ok args ∧ Decodes args

section Invoke

variable {crates : Crates} {host : Host} {s : Tables} {jsonRequest outputPath text name : String}
  {request arguments : Value} {nda : Bytes}

theorem invoke_builtin (h : name ∈ Wasm.builtinToolNames) (arguments : Value) :
    invoke s name arguments = .ok (.call (.builtin arguments)) := by
  rw [invoke, route, if_pos h]

theorem Dynamic.not_builtin (h : Dynamic arguments (invoke s name arguments)) : name ∉ Wasm.builtinToolNames := by
  intro hbuiltin
  rw [invoke_builtin hbuiltin] at h
  obtain h | ⟨tool, h⟩ := h <;> cases h

theorem invoke_frame (h : name ∉ Wasm.builtinToolNames) (hframe : s.frames.lookup name = some nda) :
    invoke s name arguments = (planCachedFrame name arguments nda >>= fun call => .ok (.call call)) := by
  rw [invoke, route, if_neg h, hframe]

/-- A frame is run by the C# engine, with the caller's arguments, if it can be read; it is never run by a plugin. -/
theorem planCachedFrame_dynamic (h : name ∉ Wasm.builtinToolNames) {entry : String × Value}
    {entries : List (String × Value)} {call : FrameCall} :
    planCachedFrame name (.object (entry :: entries)) nda = .ok call ↔
      (∃ args, parseCachedFrame name nda = .ok args ∧ Decodes args) ∧
        call = .csharp (.object (entry :: entries)) := by
  have hecho : name ≠ "bench_echo" := fun heq => h (heq ▸ by decide)
  have hread : name ≠ "file_read" := fun heq => h (heq ▸ by decide)
  have hfast : ∀ args, fastPath name args = .ok none := fun args => by
    rw [fastPath, if_neg hecho, if_neg hread]
  rw [planCachedFrame, Outcome.bind_eq_ok]
  constructor
  · rintro ⟨args, hargs, hplan⟩
    rw [planArgs, hfast, Outcome.ok_bind] at hplan
    obtain ⟨⟨v, n⟩, hdecode, hplan⟩ := Outcome.bind_eq_ok.mp hplan
    dsimp only at hplan
    rw [if_neg h] at hplan
    exact ⟨⟨args, hargs, v, n, Outcome.mapErr_eq_ok.mp hdecode⟩, (Outcome.ok.inj hplan).symm⟩
  · rintro ⟨⟨args, hargs, v, n, hdecode⟩, rfl⟩
    refine ⟨args, hargs, ?_⟩
    rw [planArgs, hfast, Outcome.ok_bind, Outcome.mapErr_eq_ok.mpr hdecode]
    exact if_neg h

theorem Dynamic.csharp_iff {entry : String × Value} {entries : List (String × Value)}
    (h : Dynamic (.object (entry :: entries)) (invoke s name (.object (entry :: entries)))) :
    invoke s name (.object (entry :: entries)) = .ok (.call (.csharp (.object (entry :: entries)))) ↔
      name ∈ s.frames ∨ findPluginTool s.registries.plugins name = none := by
  have hbuiltin := h.not_builtin
  cases hframe : s.frames.lookup name with
  | some nda =>
    have hmem := Finmap.mem_of_lookup_eq_some hframe
    rw [invoke_frame hbuiltin hframe] at h ⊢
    refine ⟨fun _ => Or.inl hmem, fun _ => ?_⟩
    obtain h | ⟨tool, h⟩ := h
    · exact h
    · obtain ⟨call, -, hcall⟩ := Outcome.bind_eq_ok.mp h
      cases hcall
  | none =>
    have hnew : name ∉ s.frames := Finmap.lookup_eq_none.mp hframe
    rw [invoke, route, if_neg hbuiltin, hframe]
    cases findPluginTool s.registries.plugins name <;> simp [hnew]

/-- **Which frames can be read** after a conversion. -/
theorem readable_iff (hrequest : crates.fromStr jsonRequest = .ok request) (hname : requestName request = .string name)
    {c : Conversion} (h : convertRequest crates host jsonRequest outputPath = .ok c) : c.toolName = name ∧
      ((∃ args, parseCachedFrame name c.binaryData = .ok args ∧ Decodes args) ↔
        (outputPath = "" → (utf8 name).length < 256 ^ 2 ∧
          Decodes ((Tlv.ofValue (requestArguments request)).bytes.take
            ((Tlv.ofValue (requestArguments request)).bytes.length % 256 ^ 4))) ∧
        (outputPath ≠ "" → ∀ data, host.read = .ok data →
          ∃ args, parseCachedFrame name data = .ok args ∧ Decodes args)) := by
  obtain ⟨frame, hbuilt, hbytes, hread⟩ := convertRequest_eq_ok h
  obtain ⟨request', hrequest', hframe, hname'⟩ := built_eq_some.mp hbuilt
  obtain rfl : request = request' := Except.ok.inj (hrequest.symm.trans hrequest')
  obtain rfl : name = c.toolName := Value.string.inj (hname.symm.trans hname')
  refine ⟨rfl, ?_⟩
  by_cases hpath : outputPath = ""
  · obtain ⟨method, toolName, code, -, htool, -, -, hframe⟩ := frameOfRequest_eq_ok.mp hframe
    obtain rfl : c.toolName = toolName := Value.string.inj (hname.symm.trans htool)
    rw [hbytes hpath, hframe]
    constructor
    · rintro ⟨args, hargs, hdecodes⟩
      have hlen := nameLen_of_parse hargs
      rw [parse_nmcpFrame crates.length_sha256 hlen, Outcome.ok.injEq] at hargs
      exact ⟨fun _ => ⟨hlen, hargs ▸ hdecodes⟩, fun hne => absurd hpath hne⟩
    · rintro ⟨hfits, -⟩
      obtain ⟨hlen, hdecodes⟩ := hfits hpath
      exact ⟨_, parse_nmcpFrame crates.length_sha256 hlen, hdecodes⟩
  · constructor
    · intro hreadable
      refine ⟨fun heq => absurd heq hpath, fun _ data hdata => ?_⟩
      obtain rfl : c.binaryData = data := Except.ok.inj ((hread hpath).symm.trans hdata)
      exact hreadable
    · rintro ⟨-, hfile⟩
      exact hfile hpath _ (hread hpath)

end Invoke

/-- **When a conversion keeps what a tool does**: just when the C# engine runs it, and the frame can be read. -/
theorem conversion_keeps_iff (crates : Crates) (host : Host) (s : Tables) (jsonRequest outputPath text name : String)
    (request : Value) (entry : String × Value) (entries : List (String × Value))
    (hrequest : crates.fromStr jsonRequest = .ok request) (hname : requestName request = .string name)
    (hok : (cacheNmcpFrame crates host s jsonRequest outputPath).1 = .ok text)
    (hdynamic : Dynamic (.object (entry :: entries)) (invoke s name (.object (entry :: entries)))) :
    invoke (cacheNmcpFrame crates host s jsonRequest outputPath).2 name (.object (entry :: entries)) =
        invoke s name (.object (entry :: entries)) ↔ Keeps s host request outputPath name := by
  have hbuiltin := hdynamic.not_builtin
  obtain ⟨c, hc, hresult⟩ | ⟨result, hfailed, hresult⟩ :=
    cacheNmcpFrame_cases crates host s jsonRequest outputPath
  · obtain ⟨rfl, hreadable⟩ := readable_iff hrequest hname hc
    have hframe : (cacheNmcpFrame crates host s jsonRequest outputPath).2.frames.lookup c.toolName =
        some c.binaryData := by
      rw [hresult]
      exact lookup_insertFrame _ _ _ _
    rw [invoke_frame hbuiltin hframe]
    constructor
    · intro hsame
      obtain hcall | ⟨tool, hcall⟩ := hdynamic
      · rw [hcall] at hsame
        obtain ⟨call, hplan, -⟩ := Outcome.bind_eq_ok.mp hsame
        obtain ⟨hnoFile, hfile⟩ := hreadable.mp ((planCachedFrame_dynamic hbuiltin).mp hplan).1
        exact ⟨(Dynamic.csharp_iff (Or.inl hcall)).mp hcall, hnoFile, hfile⟩
      · rw [hcall] at hsame
        obtain ⟨call, -, hcall⟩ := Outcome.bind_eq_ok.mp hsame
        cases hcall
    · intro hkeeps
      rw [hdynamic.csharp_iff.mpr hkeeps.csharp,
        (planCachedFrame_dynamic hbuiltin).mpr ⟨hreadable.mpr ⟨hkeeps.noFile, hkeeps.file⟩, rfl⟩,
        Outcome.ok_bind]
  · rw [hresult] at hok
    exact absurd hok (hfailed text)

/-! ### `search`, of a plugin and of the C# engine -/

/-- No frame is cached, and these plugins are loaded. -/
def withPlugins (plugins : List (List ManifestTool)) : Tables :=
  { registries := { noTools with plugins }, frames := ∅ }

/-- The conversion of `searchText`, without a file. -/
def convertSearch (s : Tables) : Outcome String String × Tables :=
  cacheNmcpFrame searchCrates (noFiles none) s searchText ""

theorem convertSearch_eq (s : Tables) : convertSearch s =
    (.ok (searchCrates.encode (callFrame searchCrates "search" queryArguments)),
      s.register none "search" (callFrame searchCrates "search" queryArguments)) :=
  cacheNmcpFrame_noFile _ s (built_callRequest fromStr_search keysLe_query)

theorem decodes_query : Decodes ((Tlv.ofValue queryArguments).bytes.take
    ((Tlv.ofValue queryArguments).bytes.length % 256 ^ 4)) :=
  ⟨queryArguments, 21, by decide +kernel⟩

/-- A plugin tool of that name is not called any more once the request is converted. -/
theorem conversion_changes_executor :
    invoke (withPlugins [[pluginSearch]]) "search" queryArguments = .ok (.plugin pluginSearch queryArguments) ∧
      (∃ text, (convertSearch (withPlugins [[pluginSearch]])).1 = .ok text) ∧
      invoke (convertSearch (withPlugins [[pluginSearch]])).2 "search" queryArguments =
        .ok (.call (.csharp queryArguments)) := by
  rw [convertSearch_eq]
  refine ⟨?_, ⟨_, rfl⟩, ?_⟩
  · rw [invoke, route, if_neg search_not_builtin]
    rfl
  · rw [invoke_frame search_not_builtin (lookup_insertFrame _ _ _ _)]
    have hplan : planCachedFrame "search" queryArguments (callFrame searchCrates "search" queryArguments) =
        .ok (.csharp queryArguments) :=
      (planCachedFrame_dynamic search_not_builtin).mpr
        ⟨⟨_, parse_nmcpFrame searchCrates.length_sha256 (by decide), decodes_query⟩, rfl⟩
    rw [hplan, Outcome.ok_bind]

/-- Without the plugin the conversion changes nothing. -/
theorem conversion_keeps_iff_search :
    invoke (convertSearch (withPlugins [])).2 "search" queryArguments =
      invoke (withPlugins []) "search" queryArguments := by
  have hinvoke : invoke (withPlugins []) "search" queryArguments = .ok (.call (.csharp queryArguments)) := by
    rw [invoke, route, if_neg search_not_builtin]
    rfl
  have hok : (convertSearch (withPlugins [])).1 =
      .ok (searchCrates.encode (callFrame searchCrates "search" queryArguments)) := by
    rw [convertSearch_eq]
  refine (conversion_keeps_iff searchCrates (noFiles none) (withPlugins []) searchText "" _ "search" _ _ _
    fromStr_search rfl hok (Or.inl hinvoke)).mpr ⟨Or.inr rfl, fun _ => ⟨by decide, decodes_query⟩, ?_⟩
  exact fun hpath => absurd rfl hpath

end VelocityMcp.Registry
