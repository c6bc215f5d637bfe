import Mathlib.Data.List.Permutation
import VelocityMcp.Lib.Marks
import VelocityMcp.Resources

/-!
# Prompts — filling in URI templates and prompts (`resources.rs`)

`expandUriTemplate`, `getPrompt`, `getStructuredPrompt`: each argument is replaced in the whole text, in the order in
which the hash map is walked.  `Filling`: the three together.
-/

namespace VelocityMcp

open Lib Template

/-! ## The code -/

/-- `expand_uri_template`, for the order in which the map of the parameters is walked. -/
def expandUriTemplate (template : String) (params : List (String × String)) : String :=
  params.foldl (fun result (key, value) => result.replace ("\x7b" ++ key ++ "\x7d") value) template

inductive PromptContentBlock where
  | text (text : String)
  | resource (uri : String)
deriving DecidableEq, Repr

structure PromptMessageTemplate where
  role : String
  content : List PromptContentBlock
deriving DecidableEq, Repr

structure StructuredPrompt where
  name : String
  description : String
  arguments : List PromptArgument
  messages : List PromptMessageTemplate
deriving DecidableEq, Repr

/-- What the registry's `read_resource` answers for a URI. -/
abbrev ResourceReader := String → Except String ResourceReadResult

def readResource (store : ResourceReader) (uri : String) : Except String Value := handleResourcesRead (store uri)

/-- One content of a resource that was read. -/
def embedded (expandedUri : String) (content : Value) : Value :=
  .object [("resource", .object [("mimeType", content.index "mimeType"), ("text", content.index "text"),
    ("uri", .string expandedUri)]), ("type", .string "resource")]

def textContent (text : String) : Value := .object [("text", .string text), ("type", .string "text")]

/-- What `get_structured_prompt` makes of one content block. -/
def processBlock (store : ResourceReader) (arguments : List (String × String)) : PromptContentBlock → List Value
  | .text text => [textContent (substitute text arguments)]
  | .resource uri =>
    let expandedUri := expandUriTemplate uri arguments
    match readResource store expandedUri with
    | .ok resourceData =>
      match resourceData.get "contents" with
      | some (.array contents) => contents.map (embedded expandedUri)
      | _ => []
    | .error e => [textContent s!"[Resource {expandedUri} not available: {e}]"]

/-- `get_structured_prompt`, for the order in which the map of the arguments is walked. -/
def getStructuredPrompt (store : ResourceReader) (prompts : List StructuredPrompt) (name : String)
    (arguments : List (String × String)) : Except String Value :=
  match prompts.find? (·.name = name) with
  | none => .error s!"Structured prompt not found: {name}"
  | some prompt =>
    match prompt.arguments.find? fun arg => arg.required ∧ arg.name ∉ arguments.map Prod.fst with
    | some arg => .error s!"Missing required argument: {arg.name}"
    | none => .ok (.object [("description", .string prompt.description),
        ("messages", .array (prompt.messages.map fun msg => .object [
          ("content", .array (msg.content.flatMap (processBlock store arguments))),
          ("role", .string msg.role)]))])

/-! ## The three functions together -/

/-- The three places where arguments are filled in one after another. -/
inductive Filling where
  | expandUriTemplate (template : String)
  | getPrompt (prompts : List Prompt) (name : String)
  | getStructuredPrompt (store : ResourceReader) (prompts : List StructuredPrompt) (name : String)

def PromptContentBlock.template : PromptContentBlock → String
  | .text t => t
  | .resource uri => uri

def missingArgument (required : List PromptArgument) (arguments : List (String × String)) : Option PromptArgument :=
  required.find? fun arg => arg.required ∧ arg.name ∉ arguments.map Prod.fst

namespace Filling

/-- The call, when the map of the arguments is walked in this order. -/
def run : Filling → List (String × String) → Except String Value
  | expandUriTemplate template, arguments => .ok (.string (VelocityMcp.expandUriTemplate template arguments))
  | getPrompt prompts name, arguments => VelocityMcp.getPrompt prompts name arguments
  | getStructuredPrompt store prompts name, arguments => VelocityMcp.getStructuredPrompt store prompts name arguments

/-- The templates that the call fills in: none if the prompt is not there, or a required argument is not. -/
def templates : Filling → List (String × String) → List String
  | expandUriTemplate template, _ => [template]
  | getPrompt prompts name, arguments =>
    match prompts.find? (·.name = name) with
    | none => []
    | some prompt => if (missingArgument prompt.arguments arguments).isSome then [] else [prompt.description]
  | getStructuredPrompt _ prompts name, arguments =>
    match prompts.find? (·.name = name) with
    | none => []
    | some prompt =>
      if (missingArgument prompt.arguments arguments).isSome then []
      else prompt.messages.flatMap fun msg => msg.content.map PromptContentBlock.template

end Filling

/-! ## One pass over the template -/

def placeholder (key : String) : List Char := ("\x7b" ++ key ++ "\x7d").toList

def chars (arguments : List (String × String)) : List (String × List Char) :=
  arguments.map fun (key, value) => (key, value.toList)

/-- **Every placeholder of the original template is replaced by its argument, in one pass.** -/
def simultaneous (arguments : List (String × String)) (template : String) : String :=
  String.ofList (onePass id placeholder (chars arguments) template.toList)

/-- **The order of the arguments does not matter**: every order gives the same result, in which every template is
filled in as by one pass; and so it is when each character carries the mark of where it comes from. -/
def Filling.OrderFree (call : Filling) (arguments : List (String × String)) : Prop :=
  ∀ order, order.Perm arguments → call.run order = call.run arguments ∧ ∀ template ∈ call.templates arguments,
    substitute template order = simultaneous arguments template ∧
      Literal placeholder (chars arguments) (chars order) template.toList

/-- **In every order, the placeholder of the argument that is replaced next stands only where the template has it**. -/
def Filling.OwnPlaceholders (call : Filling) (arguments : List (String × String)) : Prop :=
  ∀ order, order.Perm arguments → ∀ template ∈ call.templates arguments,
    Own id placeholder (parse id placeholder (arguments.map Prod.fst) 0 template.toList) (fun _ => none) (chars order)

/-- In every order, each template that the call fills in becomes the same text. -/
def Filling.FilledAlike (call : Filling) (arguments : List (String × String)) : Prop :=
  ∀ order, order.Perm arguments → ∀ template ∈ call.templates arguments,
    substitute template order = substitute template arguments

/-- A name without braces. -/
def PlainKey (key : String) : Prop := '\x7b' ∉ key.toList ∧ '\x7d' ∉ key.toList

section Filling

variable {arguments order : List (String × String)} {template : String}

theorem placeholder_ne_nil (key : String) : placeholder key ≠ [] := by simp [placeholder]

theorem keys_chars : (chars arguments).map Prod.fst = arguments.map Prod.fst := by
  rw [chars, List.map_map]
  rfl

theorem substitute_eq_expandUriTemplate : substitute template arguments = expandUriTemplate template arguments := rfl

theorem toList_substitute : (substitute template order).toList = loop id placeholder (chars order) template.toList := by
  induction order generalizing template with
  | nil => rfl
  | cons a order ih =>
    have hne : "\x7b" ++ a.1 ++ "\x7d" ≠ "" := by simp [← String.toList_inj]
    have hstep : (template.replace ("\x7b" ++ a.1 ++ "\x7d") a.2).toList =
        replaceBy id (placeholder a.1) a.2.toList 0 template.toList :=
      (toList_replace hne template).trans (replaceBy_id (placeholder_ne_nil a.1) _).symm
    rw [substitute, List.foldl_cons]
    refine ih.trans ?_
    rw [hstep]
    rfl

theorem substitute_eq_simultaneous
    (h : loop id placeholder (chars order) template.toList = onePass id placeholder (chars arguments) template.toList) :
    substitute template order = simultaneous arguments template := by
  rw [simultaneous, ← h, ← toList_substitute, String.ofList_toList]

theorem missingArgument_perm (horder : order.Perm arguments) (required : List PromptArgument) :
    missingArgument required order = missingArgument required arguments := by
  have hmem : ∀ key, key ∉ order.map Prod.fst ↔ key ∉ arguments.map Prod.fst := fun key =>
    not_congr (horder.map Prod.fst).mem_iff
  simp only [missingArgument, hmem]

theorem getPrompt_eq (prompts : List Prompt) (name : String) : getPrompt prompts name arguments =
    match prompts.find? (·.name = name) with
    | none => .error s!"Prompt not found: {name}"
    | some prompt =>
      match missingArgument prompt.arguments arguments with
      | some arg => .error s!"Missing required argument: {arg.name}"
      | none => .ok (.object [("description", .string prompt.description),
          ("messages", .array [.object [("content", textContent (substitute prompt.description arguments)),
            ("role", .string "user")]])]) := rfl

theorem getStructuredPrompt_eq (store : ResourceReader) (prompts : List StructuredPrompt) (name : String) :
    getStructuredPrompt store prompts name arguments =
    match prompts.find? (·.name = name) with
    | none => .error s!"Structured prompt not found: {name}"
    | some prompt =>
      match missingArgument prompt.arguments arguments with
      | some arg => .error s!"Missing required argument: {arg.name}"
      | none => .ok (.object [("description", .string prompt.description),
          ("messages", .array (prompt.messages.map fun msg => .object [
            ("content", .array (msg.content.flatMap (processBlock store arguments))),
            ("role", .string msg.role)]))]) := rfl

theorem processBlock_congr {store : ResourceReader} {block : PromptContentBlock}
    (h : substitute block.template order = substitute block.template arguments) :
    processBlock store order block = processBlock store arguments block := by
  cases block with
  | text text => exact congrArg (fun text => [textContent text]) h
  | resource uri =>
    have huri : expandUriTemplate uri order = expandUriTemplate uri arguments := h
    rw [processBlock, processBlock, huri]

/-- **A call sees the order of the arguments only through the templates it fills in.** -/
theorem Filling.run_congr (call : Filling) (horder : order.Perm arguments)
    (h : ∀ template ∈ call.templates arguments, substitute template order = substitute template arguments) :
    call.run order = call.run arguments := by
  cases call with
  | expandUriTemplate template =>
    exact congrArg (fun text => Except.ok (Value.string text)) (h template List.mem_cons_self)
  | getPrompt prompts name =>
    rw [run, run, getPrompt_eq, getPrompt_eq]
    rw [templates] at h
    cases hfind : prompts.find? (·.name = name) with
    | none => rfl
    | some prompt =>
      rw [hfind] at h
      dsimp only at h ⊢
      rw [missingArgument_perm horder]
      cases hmissing : missingArgument prompt.arguments arguments with
      | some arg => rfl
      | none =>
        rw [hmissing] at h
        dsimp only
        rw [h prompt.description (List.mem_cons_self)]
  | getStructuredPrompt store prompts name =>
    rw [run, run, getStructuredPrompt_eq, getStructuredPrompt_eq]
    rw [templates] at h
    cases hfind : prompts.find? (·.name = name) with
    | none => rfl
    | some prompt =>
      rw [hfind] at h
      dsimp only at h ⊢
      rw [missingArgument_perm horder]
      cases hmissing : missingArgument prompt.arguments arguments with
      | some arg => rfl
      | none =>
        rw [hmissing] at h
        have hcontent : ∀ msg ∈ prompt.messages, msg.content.flatMap (processBlock store order) =
            msg.content.flatMap (processBlock store arguments) := by
          intro msg hmsg
          refine List.flatMap_congr fun block hblock => processBlock_congr (h _ ?_)
          exact List.mem_flatMap.mpr ⟨msg, hmsg, List.mem_map_of_mem hblock⟩
        dsimp only
        rw [List.map_congr_left fun msg hmsg => by rw [hcontent msg hmsg]]

theorem apart_placeholder {k b : String} (hk : PlainKey k) (hb : PlainKey b) : Apart placeholder k b := by
  have haround : placeholder = fun key => around 1 '\x7b' '\x7d' key.toList := by
    funext key
    simp [placeholder, around]
  rw [haround]
  have hinjective : Function.Injective String.toList := fun _ _ h => String.toList_injective h
  exact apart_around Nat.one_pos (by decide) hinjective hk.2 hb.1 hb.2

/-- **If each placeholder stands only where the template has it, the order does not matter.** -/
theorem orderFree_of_ownPlaceholders (hkeys : (arguments.map Prod.fst).Nodup) {call : Filling}
    (h : call.OwnPlaceholders arguments) : call.OrderFree arguments := by
  have hnodup : ((chars arguments).map Prod.fst).Nodup := by rwa [keys_chars]
  have hliteral : ∀ order, order.Perm arguments → ∀ template ∈ call.templates arguments,
      Literal placeholder (chars arguments) (chars order) template.toList := by
    intro order horder template htemplate
    apply literal_of_own placeholder_ne_nil hnodup (horder.map _)
    rw [keys_chars]
    exact h order horder template htemplate
  have hsame : ∀ order, order.Perm arguments → ∀ template ∈ call.templates arguments,
      substitute template order = simultaneous arguments template := fun order horder template htemplate =>
    substitute_eq_simultaneous (loop_eq_of_literal (hliteral order horder template htemplate))
  intro order horder
  refine ⟨call.run_congr horder fun template htemplate => ?_, fun template htemplate => ?_⟩
  · rw [hsame order horder template htemplate, hsame arguments (.refl _) template htemplate]
  · exact ⟨hsame order horder template htemplate, hliteral order horder template htemplate⟩

theorem filledAlike_of_ownPlaceholders (hkeys : (arguments.map Prod.fst).Nodup) {call : Filling}
    (h : call.OwnPlaceholders arguments) : call.FilledAlike arguments := by
  intro order horder template htemplate
  have hfree := orderFree_of_ownPlaceholders hkeys h
  rw [((hfree order horder).2 template htemplate).1, ((hfree arguments (.refl _)).2 template htemplate).1]

theorem getPrompt_eq_error_iff (horder : order.Perm arguments) (prompts : List Prompt) (name e : String) :
    getPrompt prompts name order = .error e ↔ getPrompt prompts name arguments = .error e := by
  rw [getPrompt_eq, getPrompt_eq]
  cases prompts.find? (·.name = name) with
  | none => rfl
  | some prompt =>
    simp only [missingArgument_perm horder]
    cases missingArgument prompt.arguments arguments <;> simp

/-- **The answer of `get_prompt` shows the order of the arguments** just where its text does. -/
theorem getPrompt_perm_iff (prompts : List Prompt) (name : String) :
    (∀ order, order.Perm arguments → getPrompt prompts name order = getPrompt prompts name arguments) ↔
      (Filling.getPrompt prompts name).FilledAlike arguments := by
  refine ⟨fun h order horder template htemplate => ?_, fun h order horder =>
    (Filling.getPrompt prompts name).run_congr horder (h order horder)⟩
  have hsame := h order horder
  rw [getPrompt_eq, getPrompt_eq] at hsame
  rw [Filling.templates] at htemplate
  cases hfind : prompts.find? (·.name = name) with
  | none =>
    rw [hfind] at htemplate
    cases htemplate
  | some prompt =>
    rw [hfind] at hsame htemplate
    dsimp only at hsame htemplate
    rw [missingArgument_perm horder] at hsame
    cases hmissing : missingArgument prompt.arguments arguments with
    | some arg =>
      rw [hmissing] at htemplate
      cases htemplate
    | none =>
      rw [hmissing] at hsame htemplate
      obtain rfl := List.mem_singleton.mp htemplate
      simpa [textContent] using hsame

/-- **The calls fill in their templates literally, whatever the order, exactly when** in every order each placeholder
stands only where the template has it; for keys with braces that is enough. -/
theorem fills_literally_iff (call : Filling) (arguments : List (String × String))
    (hkeys : (arguments.map Prod.fst).Nodup) :
    (call.OwnPlaceholders arguments → call.OrderFree arguments) ∧
      ((∀ a ∈ arguments, PlainKey a.1) → (call.OrderFree arguments ↔ call.OwnPlaceholders arguments)) := by
  refine ⟨orderFree_of_ownPlaceholders hkeys, fun hplain => ⟨fun h => ?_, orderFree_of_ownPlaceholders hkeys⟩⟩
  intro order horder template htemplate
  rw [← keys_chars]
  apply own_of_literal placeholder_ne_nil
  · rwa [keys_chars]
  · exact horder.map _
  · intro a ha b hb
    obtain ⟨a', ha', rfl⟩ := List.mem_map.mp ha
    obtain ⟨b', hb', rfl⟩ := List.mem_map.mp hb
    exact apart_placeholder (hplain a' ha') (hplain b' hb')
  · exact ((h order horder).2 template htemplate).2

/-- Two arguments, neither of which has a placeholder in it. -/
theorem fills_literally_iff_path :
    (Filling.expandUriTemplate "\x7bscheme\x7d://\x7bpath\x7d").OrderFree [("scheme", "file"), ("path", "test.txt")] := by
  refine (fills_literally_iff _ _ (by decide)).1 fun order horder template htemplate => ?_
  obtain rfl := List.mem_singleton.mp htemplate
  obtain rfl | rfl := List.perm_pair.mp horder
  · decide +kernel
  · decide +kernel

/-- A value that looks like the placeholder of the other argument. -/
theorem order_matters : ¬∀ (call : Filling) (arguments order : List (String × String)),
    (arguments.map Prod.fst).Nodup → order.Perm arguments → call.run order = call.run arguments := by
  intro h
  have hsame := h (.expandUriTemplate "\x7ba\x7d\x7bb\x7d") [("a", "\x7bb\x7d"), ("b", "x")]
    [("b", "x"), ("a", "\x7bb\x7d")] (by decide) (List.Perm.swap _ _ _)
  have htext := congrArg String.toList (Value.string.inj (Except.ok.inj hsame))
  rw [← substitute_eq_expandUriTemplate, ← substitute_eq_expandUriTemplate, toList_substitute,
    toList_substitute] at htext
  revert htext
  decide +kernel

end Filling

end VelocityMcp
