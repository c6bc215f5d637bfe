import VelocityMcp.Registry.FastPath

/-!
# Registry.EditFile — the built-in tool `edit_file` (`registry.rs`)

`edit_all_or_nothing`: the file is written once, with the final text, or not at all; `full_device_truncates`: that
one write may fail, and leave a part of the text.
-/

namespace VelocityMcp.Registry

open Lib

/-! ## The code -/

def okOr {α : Type} (e : String) : Option α → Except String α
  | some a => .ok a
  | none => .error e

/-- The path, the edits and the content of the file, when everything is well so far. -/
def prepare (disk : Disk) (arguments : Value) : Except String (String × List Value × String) := do
  let path ← okOr "path is required" (arguments.index "path").asStr
  let edits ← match arguments.index "edits" with
    | .array edits => .ok edits
    | _ => .error "edits is required"
  if edits.length > 1000 then .error s!"Too many edits: {edits.length} (maximum is 1000)"
  else do
    validateFilePath disk path
    let metadata ← disk.metadata path
    if metadata.len > 10 * 1024 * 1024 then .error "File exceeds 10MB limit for editing"
    else do
      disk.openFile path
      let content ← disk.readToString path
      .ok (path, edits, content)

def editTexts (edit : Value) : Except String (String × String) := do
  let oldText ← okOr "each edit must have oldText" (edit.index "oldText").asStr
  let newText ← okOr "each edit must have newText" (edit.index "newText").asStr
  if (utf8 oldText).length > 1000000 ∨ (utf8 newText).length > 1000000 then
    .error "Each edit text (oldText/newText) must be under 1MB"
  else .ok (oldText, newText)

def showEdit (path : String) (dryRun : Bool) (diffOutput oldText newText : String) : String :=
  if dryRun then diffOutput ++ s!"--- {path}\n+++ {path}\n@@ -old +new @@\n-{oldText}\n+{newText}\n\n" else diffOutput

/-- A turn of the loop, on the content and on what a dry run is to show. -/
def editStep (path : String) (dryRun : Bool) (sofar : String × String) (edit : Value) :
    Except String (String × String) := do
  let (oldText, newText) ← editTexts edit
  if Occurs oldText sofar.1 then
    .ok (sofar.1.replace oldText newText, showEdit path dryRun sofar.2 oldText newText)
  else .error s!"Text not found: {oldText}"

/-- How `std::fs::write` ends: with the text in the file; with an error before the file is opened, and truncated by
that; or with an error behind a part of the text. -/
inductive Written where
  | done
  | refused (e : String)
  | cut (e : String) (written : ℕ)

namespace Written

def answer : Written → Except String Unit
  | done => .ok ()
  | refused e => .error e
  | cut e _ => .error e

/-- What the file holds then. -/
def file (before after : Bytes) : Written → Bytes
  | done => after
  | refused _ => before
  | cut _ written => after.take written

end Written

/-- What a call answers, and its writes: the path of each, and what the file there holds after it. -/
structure EditRun where
  answer : Except String String
  writes : List (String × Bytes)

/-- The call from `dryRun` on; `write` is how `std::fs::write` ends. -/
def editFileWith (disk : Disk) (write : String → String → Written) (arguments : Value) (dryRun : Bool) :
    EditRun :=
  match prepare disk arguments with
  | .error e => ⟨.error e, []⟩
  | .ok (path, edits, before) =>
    match edits.foldlM (editStep path dryRun) (before, "") with
    | .error e => ⟨.error e, []⟩
    | .ok (content, diffOutput) =>
      if ¬dryRun then
        ⟨(write path content).answer.map fun _ => s!"Applied {edits.length} edit(s) to {path}",
          [(path, (write path content).file (utf8 before) (utf8 content))]⟩
      else ⟨.ok s!"Dry run - would apply {edits.length} edit(s):\n\n{diffOutput}", []⟩

/-- `edit_file` of `call_tool`. -/
def editFile (disk : Disk) (write : String → String → Written) (arguments : Value) : EditRun :=
  editFileWith disk write arguments (match arguments.index "dryRun" with | .bool dryRun => dryRun | _ => false)

/-! ## What is to hold -/

/-- The edits make one text of another: each has its texts, the old one occurs in what the edits before it have made,
and the new one takes its place. -/
inductive Applies : String → List Value → String → Prop where
  | nil {content : String} : Applies content [] content
  | cons {content oldText newText final : String} {edit : Value} {edits : List Value} :
      editTexts edit = .ok (oldText, newText) → Occurs oldText content →
      Applies (content.replace oldText newText) edits final → Applies content (edit :: edits) final

/-- The file at the path can be edited, and what it holds then becomes the final text. -/
def Editable (disk : Disk) (arguments : Value) (path before final : String) : Prop :=
  ∃ edits, prepare disk arguments = .ok (path, edits, before) ∧ Applies before edits final

/-- **All or nothing.** If the file can be edited, it is written once: either the call is answered `Ok` and the file
holds the final text, or this write has failed, the answer is `Err`, and the file holds what it held before or the
first part of the final text.  Otherwise the answer is `Err` and nothing is written.  A dry run is answered `Ok` exactly
if the file can be edited, and writes nothing. -/
structure AllOrNothing (disk : Disk) (write : String → String → Written) (arguments : Value) : Prop where
  applied : ∀ path before final, Editable disk arguments path before final → ∃ left,
    (editFileWith disk write arguments false).writes = [(path, left)] ∧
      ((editFileWith disk write arguments false).answer.isOk ∧ write path final = .done ∧ left = utf8 final ∨
        ¬(editFileWith disk write arguments false).answer.isOk ∧ write path final ≠ .done ∧
          (left = utf8 before ∨ left <+: utf8 final))
  refused : (¬∃ path before final, Editable disk arguments path before final) →
    (editFileWith disk write arguments false).writes = [] ∧ ¬(editFileWith disk write arguments false).answer.isOk
  dryRun : (editFileWith disk write arguments true).writes = [] ∧
    ((editFileWith disk write arguments true).answer.isOk ↔
      ∃ path before final, Editable disk arguments path before final)

section Edits

variable {path content diff final : String} {dryRun : Bool} {edit : Value} {edits : List Value}

/-- **A turn of the loop** goes on exactly if the edit applies. -/
theorem editStep_eq_ok {next : String × String} : editStep path dryRun (content, diff) edit = .ok next →
    ∃ oldText newText, editTexts edit = .ok (oldText, newText) ∧ Occurs oldText content ∧
      next.1 = content.replace oldText newText := by
  intro h
  rw [editStep] at h
  cases htexts : editTexts edit with
  | error e =>
    rw [htexts] at h
    exact nomatch h
  | ok texts =>
    obtain ⟨oldText, newText⟩ := texts
    rw [htexts] at h
    dsimp only [bind, Except.bind] at h
    split_ifs at h with hoccurs
    all_goals exact ⟨oldText, newText, rfl, hoccurs, by rw [← Except.ok.inj h]⟩

theorem editStep_of_applies {oldText newText : String} (path : String) (dryRun : Bool) (diff : String)
    (htexts : editTexts edit = .ok (oldText, newText)) (hoccurs : Occurs oldText content) :
    editStep path dryRun (content, diff) edit =
      .ok (content.replace oldText newText, showEdit path dryRun diff oldText newText) := by
  rw [editStep, htexts]
  exact if_pos hoccurs

/-- **The loop** ends well exactly if all edits apply. -/
theorem foldlM_editStep_iff : (∃ diff', edits.foldlM (editStep path dryRun) (content, diff) = .ok (final, diff')) ↔
    Applies content edits final := by
  induction edits generalizing content diff with
  | nil =>
    constructor
    · rintro ⟨diff', h⟩
      obtain rfl := (Prod.mk.inj (Except.ok.inj h)).1
      exact .nil
    · rintro ⟨⟩
      exact ⟨diff, rfl⟩
  | cons edit edits ih =>
    rw [List.foldlM_cons]
    constructor
    · rintro ⟨diff', h⟩
      cases hstep : editStep path dryRun (content, diff) edit with
      | error e =>
        rw [hstep] at h
        exact nomatch h
      | ok next =>
        obtain ⟨oldText, newText, htexts, hoccurs, hnext⟩ := editStep_eq_ok hstep
        obtain ⟨content', diff''⟩ := next
        obtain rfl := hnext
        rw [hstep] at h
        exact .cons htexts hoccurs (ih.mp ⟨diff', h⟩)
    · rintro (_ | ⟨htexts, hoccurs, hrest⟩)
      obtain ⟨diff', hloop⟩ := ih.mpr hrest
      refine ⟨diff', ?_⟩
      rw [editStep_of_applies path dryRun diff htexts hoccurs]
      exact hloop

theorem Applies.unique {final' : String} (h : Applies content edits final) (h' : Applies content edits final') :
    final = final' := by
  induction h with
  | nil =>
    cases h'
    rfl
  | cons htexts _ _ ih =>
    obtain _ | ⟨htexts', -, hrest'⟩ := h'
    obtain ⟨rfl, rfl⟩ := Prod.mk.inj (Except.ok.inj (htexts.symm.trans htexts'))
    exact ih hrest'

end Edits

section Calls

variable {disk : Disk} {write : String → String → Written} {arguments : Value} {dryRun : Bool}

/-- **What a call comes to**: the file cannot be edited, or its final text is at hand. -/
theorem editFileWith_cases (disk : Disk) (write : String → String → Written) (arguments : Value) (dryRun : Bool) :
    ((¬∃ path before final, Editable disk arguments path before final) ∧
      ∃ e, editFileWith disk write arguments dryRun = ⟨.error e, []⟩) ∨
    ∃ path before final text, Editable disk arguments path before final ∧
      editFileWith disk write arguments dryRun =
        if ¬dryRun then
          ⟨(write path final).answer.map fun _ => text, [(path, (write path final).file (utf8 before) (utf8 final))]⟩
        else ⟨.ok text, []⟩ := by
  rw [editFileWith]
  cases hprepare : prepare disk arguments with
  | error e =>
    refine .inl ⟨?_, e, rfl⟩
    rintro ⟨path, before, final, edits, hok, -⟩
    exact nomatch hprepare.symm.trans hok
  | ok prepared =>
    obtain ⟨path, edits, before⟩ := prepared
    dsimp only
    cases hloop : edits.foldlM (editStep path dryRun) (before, "") with
    | error e =>
      refine .inl ⟨?_, e, rfl⟩
      rintro ⟨path', before', final, edits', hok, happlies⟩
      obtain ⟨rfl, heq⟩ := Prod.mk.inj (Except.ok.inj (hprepare.symm.trans hok))
      obtain ⟨rfl, rfl⟩ := Prod.mk.inj heq
      obtain ⟨diff', hdiff⟩ := foldlM_editStep_iff.mpr happlies
      exact nomatch hloop.symm.trans hdiff
    | ok result =>
      obtain ⟨final, diff⟩ := result
      have heditable : Editable disk arguments path before final :=
        ⟨edits, hprepare, foldlM_editStep_iff.mp ⟨diff, hloop⟩⟩
      cases dryRun with
      | false => exact .inr ⟨path, before, final, _, heditable, rfl⟩
      | true => exact .inr ⟨path, before, final, _, heditable, rfl⟩

theorem Editable.unique {path path' before before' final final' : String}
    (h : Editable disk arguments path before final) (h' : Editable disk arguments path' before' final') :
    path = path' ∧ before = before' ∧ final = final' := by
  obtain ⟨edits, hok, happlies⟩ := h
  obtain ⟨edits', hok', happlies'⟩ := h'
  obtain ⟨rfl, heq⟩ := Prod.mk.inj (Except.ok.inj (hok.symm.trans hok'))
  obtain ⟨rfl, rfl⟩ := Prod.mk.inj heq
  exact ⟨rfl, rfl, happlies.unique happlies'⟩

/-- **`edit_file` is all or nothing**, up to what writing the file does. -/
theorem edit_all_or_nothing (disk : Disk) (write : String → String → Written) (arguments : Value) :
    AllOrNothing disk write arguments := by
  constructor
  · intro path before final heditable
    rcases editFileWith_cases disk write arguments false with
      ⟨hnone, -⟩ | ⟨path', before', final', text, heditable', heq⟩
    · exact absurd ⟨path, before, final, heditable⟩ hnone
    · obtain ⟨rfl, rfl, rfl⟩ := heditable.unique heditable'
      rw [heq, if_pos Bool.false_ne_true]
      refine ⟨_, rfl, ?_⟩
      cases write path final with
      | done => exact Or.inl ⟨rfl, rfl, rfl⟩
      | refused e => exact Or.inr ⟨Bool.false_ne_true, by simp, Or.inl rfl⟩
      | cut e written => exact Or.inr ⟨Bool.false_ne_true, by simp, Or.inr (List.take_prefix _ _)⟩
  · intro hnone
    rcases editFileWith_cases disk write arguments false with ⟨-, e, heq⟩ | ⟨path, before, final, text, heditable, -⟩
    · rw [heq]
      exact ⟨rfl, Bool.false_ne_true⟩
    · exact absurd ⟨path, before, final, heditable⟩ hnone
  · rcases editFileWith_cases disk write arguments true with
      ⟨hnone, e, heq⟩ | ⟨path, before, final, text, heditable, heq⟩
    · rw [heq]
      exact ⟨rfl, iff_of_false Bool.false_ne_true hnone⟩
    · rw [heq, if_neg (not_not.mpr rfl)]
      exact ⟨rfl, iff_of_true rfl ⟨path, before, final, heditable⟩⟩

/-! ### A write that fails -/

def oneFile : Disk where
  isAbsolute path := path.toList.head? = some '/'
  ancestors path := [path, "/"]
  isSymlink _ := false
  openFile path := if path = "/a.txt" then .ok () else .error "No such file or directory (os error 2)"
  metadata path := if path = "/a.txt" then .ok ⟨true, 5⟩ else .error "No such file or directory (os error 2)"
  canonicalize path := .ok path
  readToString path := if path = "/a.txt" then .ok "hello" else .error "No such file or directory (os error 2)"
  megabytes _ := "0.00"

/-- Its greeting is changed. -/
def jello : Value := .object [("newText", .string "jello"), ("oldText", .string "hello")]

def oneEdit : Value := .object [("edits", .array [jello]), ("path", .string "/a.txt")]

/-- The device is full: the file is opened, and nothing of the text gets into it. -/
def fullDevice (_ _ : String) : Written := .cut "No space left on device (os error 28)" 0

theorem editable_oneFile : Editable oneFile oneEdit "/a.txt" "hello" ("hello".replace "hello" "jello") :=
  ⟨[jello], by decide, .cons (by decide) (by decide) .nil⟩

/-- A dry run succeeds; the call itself is answered `Err`, and "hello" is gone from the file. -/
theorem full_device_truncates :
    (editFileWith oneFile fullDevice oneEdit true).answer.isOk ∧
      ¬(editFileWith oneFile fullDevice oneEdit false).answer.isOk ∧
        (editFileWith oneFile fullDevice oneEdit false).writes = [("/a.txt", [])] ∧
          oneFile.readToString "/a.txt" = .ok "hello" := by
  refine ⟨?_, ?_, ?_, by decide⟩
  · rcases editFileWith_cases oneFile fullDevice oneEdit true with ⟨hnone, -⟩ | ⟨path, before, final, text, -, heq⟩
    · exact absurd ⟨_, _, _, editable_oneFile⟩ hnone
    · rw [heq]
      rfl
  · rcases editFileWith_cases oneFile fullDevice oneEdit false with ⟨-, e, heq⟩ | ⟨path, before, final, text, -, heq⟩
    · rw [heq]
      exact Bool.false_ne_true
    · rw [heq]
      exact Bool.false_ne_true
  · rcases editFileWith_cases oneFile fullDevice oneEdit false with ⟨hnone, -⟩ | ⟨path, before, final, text, h, heq⟩
    · exact absurd ⟨_, _, _, editable_oneFile⟩ hnone
    · obtain ⟨rfl, rfl, rfl⟩ := editable_oneFile.unique h
      rw [heq]
      rfl

end Calls

end VelocityMcp.Registry
