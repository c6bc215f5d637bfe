import Mathlib.Algebra.BigOperators.Group.List.Basic
import Mathlib.Algebra.GroupWithZero.Nat
import Mathlib.Tactic.Common

/-!
# Lib.Csv — comma-separated values

`readCsv` reads the records of a text by the rules of RFC 4180, with lines that end in CR LF or in LF alone: a field in
quotes may hold anything, a quote in it doubled; another field holds no comma, quote or line break.
-/

namespace Lib

/-- The characters a field must be put in quotes for. -/
def csvSpecial (c : Char) : Bool := c = ',' || c = '"' || c = '\r' || c = '\n'

def PlainField (field : List Char) : Prop := ∀ c ∈ field, csvSpecial c = false

instance : DecidablePred PlainField := List.decidableBAll fun c => csvSpecial c = false

/-! ## The reader -/

/-- Where the reader is: before a field, in one without or with quotes, after a quote in the latter, or after the CR of
a line's end. -/
inductive CsvMode where
  | field
  | plain
  | quoted
  | closing
  | carriage

/-- What is still to be read of the current field, the rest of its record, and the records after it. -/
structure CsvRest where
  field : List Char
  record : List (List Char)
  records : List (List (List Char))

namespace CsvRest

/-- Nothing is left. -/
def done : CsvRest := ⟨[], [], []⟩

/-- One more character of the field. -/
def cons (c : Char) (x : CsvRest) : CsvRest := { x with field := c :: x.field }

def endField (x : CsvRest) : CsvRest := ⟨[], x.field :: x.record, x.records⟩

def toRecords (x : CsvRest) : List (List (List Char)) := (x.field :: x.record) :: x.records

def endRecord (x : CsvRest) : CsvRest := ⟨[], [], x.toRecords⟩

end CsvRest

/-- What a character does: it belongs to the field, it is skipped, or a field or a record ends. -/
inductive CsvAct where
  | add (mode : CsvMode)
  | skip (mode : CsvMode)
  | endField
  | endRecord
  | refuse

def endsField (c : Char) (other : CsvAct) : CsvAct :=
  if c = ',' then .endField else if c = '\n' then .endRecord else if c = '\r' then .skip .carriage else other

/-- What a character does where the reader is. -/
def CsvMode.act (c : Char) : CsvMode → CsvAct
  | .field => endsField c (if c = '"' then .skip .quoted else .add .plain)
  | .plain => endsField c (if c = '"' then .refuse else .add .plain)
  | .quoted => if c = '"' then .skip .closing else .add .quoted
  | .closing => if c = '"' then .add .quoted else endsField c .refuse
  | .carriage => if c = '\n' then .endRecord else .refuse

/-- The rest of a text; a last line without its end is a record too. -/
def readRest : List Char → CsvMode → Option CsvRest
  | [], .quoted => none
  | [], .carriage => none
  | [], _ => some .done
  | c :: cs, mode =>
    match mode.act c with
    | .add next => (readRest cs next).map (.cons c)
    | .skip next => readRest cs next
    | .endField => (readRest cs .field).map .endField
    | .endRecord => if cs = [] then some .done else (readRest cs .field).map .endRecord
    | .refuse => none

def readCsv (text : List Char) : Option (List (List (List Char))) :=
  if text = [] then some [] else (readRest text .field).map CsvRest.toRecords

/-! ## The writer -/

def recordText (fields : List (List Char)) : List Char := List.intercalate [','] fields ++ ['\n']

def recordSize (fields : List (List Char)) : ℕ := (fields.map fun field => field.length + 1).sum

variable {field : List Char} {fields : List (List Char)} {records : List (List (List Char))} {cs : List Char} {c : Char}

theorem recordText_singleton (field : List Char) : recordText [field] = field ++ ['\n'] := by
  rw [recordText, List.intercalate_singleton]

theorem recordText_cons_cons (field next : List Char) (fields : List (List Char)) :
    recordText (field :: next :: fields) = field ++ ',' :: recordText (next :: fields) := by
  rw [recordText, recordText, List.intercalate_cons_cons]
  simp

theorem length_recordText (h : fields ≠ []) : (recordText fields).length = recordSize fields := by
  induction fields with
  | nil => exact absurd rfl h
  | cons field fields ih =>
    cases fields with
    | nil => simp [recordText_singleton, recordSize]
    | cons next fields =>
      rw [recordText_cons_cons, List.length_append, List.length_cons, ih (List.cons_ne_nil _ _)]
      simp only [recordSize, List.map_cons, List.sum_cons]
      omega

theorem recordText_ne_nil (fields : List (List Char)) : recordText fields ≠ [] := by simp [recordText]

/-! ## Plain fields are read back -/

theorem act_of_plain (h : csvSpecial c = false) :
    CsvMode.act c .field = .add .plain ∧ CsvMode.act c .plain = .add .plain := by
  have hne : c ≠ ',' ∧ c ≠ '"' ∧ c ≠ '\r' ∧ c ≠ '\n' := by simpa [csvSpecial, and_assoc] using h
  obtain ⟨hcomma, hquote, hcr, hlf⟩ := hne
  constructor
  · rw [CsvMode.act, endsField, if_neg hcomma, if_neg hlf, if_neg hcr, if_neg hquote]
  · rw [CsvMode.act, endsField, if_neg hcomma, if_neg hlf, if_neg hcr, if_neg hquote]

theorem readRest_plain_append (h : PlainField field) (cs : List Char) :
    readRest (field ++ cs) .plain = (readRest cs .plain).map fun x => { x with field := field ++ x.field } := by
  induction field with
  | nil => simp
  | cons c field ih =>
    rw [List.cons_append, readRest, (act_of_plain (h c List.mem_cons_self)).2]
    show (readRest (field ++ cs) .plain).map (CsvRest.cons c) = _
    rw [ih fun d hd => h d (List.mem_cons_of_mem _ hd), Option.map_map]
    rfl

theorem readRest_field_append (h : PlainField field) (hends : readRest cs .field = readRest cs .plain) :
    readRest (field ++ cs) .field = (readRest cs .plain).map fun x => { x with field := field ++ x.field } := by
  rw [← readRest_plain_append h cs]
  cases field with
  | nil => exact hends
  | cons c field =>
    obtain ⟨hfield, hplain⟩ := act_of_plain (h c List.mem_cons_self)
    rw [List.cons_append, readRest, readRest, hfield, hplain]

theorem readRest_comma (cs : List Char) (mode : CsvMode) (h : mode = .field ∨ mode = .plain) :
    readRest (',' :: cs) mode = (readRest cs .field).map .endField := by
  rcases h with rfl | rfl
  · rfl
  · rfl

theorem readRest_newline (cs : List Char) (mode : CsvMode) (h : mode = .field ∨ mode = .plain) :
    readRest ('\n' :: cs) mode = if cs = [] then some .done else (readRest cs .field).map .endRecord := by
  rcases h with rfl | rfl
  · rfl
  · rfl

theorem readCsv_newline (cs : List Char) :
    (if cs = [] then some CsvRest.done else (readRest cs .field).map .endRecord) =
      (readCsv cs).map fun records => ⟨[], [], records⟩ := by
  rw [readCsv]
  by_cases hcs : cs = []
  · rw [if_pos hcs, if_pos hcs]
    rfl
  · rw [if_neg hcs, if_neg hcs, Option.map_map]
    rfl

theorem readRest_recordText (hne : fields ≠ []) (h : ∀ field ∈ fields, PlainField field) (cs : List Char) :
    (readRest (recordText fields ++ cs) .field).map CsvRest.toRecords = (readCsv cs).map (fields :: ·) := by
  induction fields with
  | nil => exact absurd rfl hne
  | cons field fields ih =>
    have hfield := h field List.mem_cons_self
    cases fields with
    | nil =>
      rw [recordText_singleton, List.append_assoc, List.singleton_append, readRest_field_append hfield
        ((readRest_newline cs _ (Or.inl rfl)).trans (readRest_newline cs _ (Or.inr rfl)).symm),
        readRest_newline cs _ (Or.inr rfl), readCsv_newline, Option.map_map, Option.map_map]
      refine congrArg (fun f => (readCsv cs).map f) (funext fun records => ?_)
      simp [CsvRest.toRecords]
    | cons next fields =>
      have hrest := ih (List.cons_ne_nil _ _) fun other hmem => h other (List.mem_cons_of_mem _ hmem)
      rw [recordText_cons_cons, List.append_assoc, List.cons_append, readRest_field_append hfield
        ((readRest_comma _ _ (Or.inl rfl)).trans (readRest_comma _ _ (Or.inr rfl)).symm),
        readRest_comma _ _ (Or.inr rfl), Option.map_map, Option.map_map]
      cases hread : readRest (recordText (next :: fields) ++ cs) .field with
      | none =>
        rw [hread] at hrest
        cases hcsv : readCsv cs with
        | none => rfl
        | some records => simp [hcsv] at hrest
      | some x =>
        rw [hread] at hrest
        cases hcsv : readCsv cs with
        | none => simp [hcsv] at hrest
        | some records =>
          rw [hcsv, Option.map_some, Option.map_some, Option.some.injEq, CsvRest.toRecords, List.cons.injEq] at hrest
          simp [CsvRest.toRecords, CsvRest.endField, hrest.1, hrest.2]

/-- **Records of plain fields are read back.** -/
theorem readCsv_records (hne : ∀ fields ∈ records, fields ≠ [])
    (h : ∀ fields ∈ records, ∀ field ∈ fields, PlainField field) :
    readCsv (records.flatMap recordText) = some records := by
  induction records with
  | nil => rfl
  | cons fields records ih =>
    have hrest := ih (fun other hmem => hne other (List.mem_cons_of_mem _ hmem))
      fun other hmem => h other (List.mem_cons_of_mem _ hmem)
    rw [List.flatMap_cons, readCsv, if_neg (by simp [recordText_ne_nil]),
      readRest_recordText (hne fields List.mem_cons_self) (h fields List.mem_cons_self), hrest]
    rfl

/-! ## The characters a reading takes -/

/-- How many characters records of plain fields take. -/
def recordsSize (records : List (List (List Char))) : ℕ := (records.map recordSize).sum

theorem length_flatMap_recordText (hne : ∀ fields ∈ records, fields ≠ []) :
    (records.flatMap recordText).length = recordsSize records := by
  rw [List.length_flatMap, recordsSize]
  congr 1
  exact List.map_congr_left fun fields hmem => length_recordText (hne fields hmem)

def PlainRecords (records : List (List (List Char))) : Prop := ∀ fields ∈ records, ∀ field ∈ fields, PlainField field

section Sizes

variable {x : CsvRest} {mode : CsvMode}

theorem size_cons (c : Char) (x : CsvRest) : recordsSize (x.cons c).toRecords = recordsSize x.toRecords + 1 := by
  simp only [recordsSize, recordSize, CsvRest.toRecords, CsvRest.cons, List.map_cons, List.sum_cons, List.length_cons]
  omega

theorem size_endField (x : CsvRest) : recordsSize x.endField.toRecords = recordsSize x.toRecords + 1 := by
  simp only [recordsSize, recordSize, CsvRest.toRecords, CsvRest.endField, List.map_cons, List.sum_cons,
    List.length_nil]
  omega

theorem size_endRecord (x : CsvRest) : recordsSize x.endRecord.toRecords = recordsSize x.toRecords + 1 := by
  simp only [recordsSize, recordSize, CsvRest.toRecords, CsvRest.endRecord, List.map_cons, List.map_nil, List.sum_cons,
    List.sum_nil, List.length_nil]
  omega

theorem plain_cons (h : PlainRecords x.toRecords) (hc : csvSpecial c = false) : PlainRecords (x.cons c).toRecords := by
  intro fields hfields field hfield
  rcases List.mem_cons.mp hfields with rfl | hfields
  · rcases List.mem_cons.mp hfield with rfl | hfield
    · intro d hd
      rcases List.mem_cons.mp hd with rfl | hd
      · exact hc
      · exact h _ List.mem_cons_self _ List.mem_cons_self d hd
    · exact h _ List.mem_cons_self field (List.mem_cons_of_mem _ hfield)
  · exact h fields (List.mem_cons_of_mem _ hfields) field hfield

theorem plain_nil : PlainField [] := fun _ hc => absurd hc List.not_mem_nil

theorem plain_endField (h : PlainRecords x.toRecords) : PlainRecords x.endField.toRecords := by
  intro fields hfields field hfield
  rcases List.mem_cons.mp hfields with rfl | hfields
  · rcases List.mem_cons.mp hfield with rfl | hfield
    · exact plain_nil
    · exact h _ List.mem_cons_self field hfield
  · exact h fields (List.mem_cons_of_mem _ hfields) field hfield

theorem plain_endRecord (h : PlainRecords x.toRecords) : PlainRecords x.endRecord.toRecords := by
  intro fields hfields field hfield
  rcases List.mem_cons.mp hfields with rfl | hfields
  · rw [List.mem_singleton.mp hfield]
    exact plain_nil
  · exact h fields hfields field hfield

/-- The quote that a field in quotes still needs. -/
def CsvMode.due : CsvMode → ℕ
  | .quoted => 1
  | _ => 0

/-- Before or within a field without quotes. -/
def CsvMode.free : CsvMode → Bool
  | .field => true
  | .plain => true
  | _ => false

theorem due_of_free (h : mode.free = true) : mode.due = 0 := by
  cases mode with
  | field => rfl
  | plain => rfl
  | quoted => cases h
  | closing => cases h
  | carriage => cases h

theorem endsField_cases (c : Char) (other : CsvAct) :
    endsField c other = .endField ∨ endsField c other = .endRecord ∨ endsField c other = .skip .carriage ∨
      (endsField c other = other ∧ (c ≠ '"' → csvSpecial c = false)) := by
  rw [endsField]
  by_cases hcomma : c = ','
  · rw [if_pos hcomma]
    exact Or.inl rfl
  by_cases hlf : c = '\n'
  · rw [if_neg hcomma, if_pos hlf]
    exact Or.inr (Or.inl rfl)
  by_cases hcr : c = '\r'
  · rw [if_neg hcomma, if_neg hlf, if_pos hcr]
    exact Or.inr (Or.inr (Or.inl rfl))
  · rw [if_neg hcomma, if_neg hlf, if_neg hcr]
    refine Or.inr (Or.inr (Or.inr ⟨rfl, fun hquote => ?_⟩))
    simp [csvSpecial, hcomma, hquote, hlf, hcr]

/-- What a character may do: it pays for itself or for the end of a field, or it is skipped. -/
inductive Pays (c : Char) (mode : CsvMode) : CsvAct → Prop where
  | add {next : CsvMode} : mode.due ≤ next.due → (mode.free = true → next.free = true ∧ csvSpecial c = false) →
      Pays c mode (.add next)
  | skip {next : CsvMode} : mode.due ≤ next.due + 1 → Pays c mode (.skip next)
  | endField : mode.due = 0 → Pays c mode .endField
  | endRecord : mode.due = 0 → Pays c mode .endRecord
  | refuse : Pays c mode .refuse

theorem pays_endsField {other : CsvAct} (hdue : mode.due = 0)
    (hother : (c ≠ '"' → csvSpecial c = false) → Pays c mode other) : Pays c mode (endsField c other) := by
  rcases endsField_cases c other with h | h | h | ⟨h, hc⟩
  · rw [h]
    exact .endField hdue
  · rw [h]
    exact .endRecord hdue
  · rw [h]
    exact .skip (by omega)
  · rw [h]
    exact hother hc

theorem pays_act (c : Char) (mode : CsvMode) : Pays c mode (mode.act c) := by
  cases mode with
  | field =>
    apply pays_endsField rfl
    intro hc
    by_cases hquote : c = '"'
    · rw [if_pos hquote]
      exact .skip (by decide)
    · rw [if_neg hquote]
      exact .add (by decide) fun _ => ⟨rfl, hc hquote⟩
  | plain =>
    apply pays_endsField rfl
    intro hc
    by_cases hquote : c = '"'
    · rw [if_pos hquote]
      exact .refuse
    · rw [if_neg hquote]
      exact .add (by decide) fun _ => ⟨rfl, hc hquote⟩
  | quoted =>
    rw [CsvMode.act]
    by_cases hquote : c = '"'
    · rw [if_pos hquote]
      exact .skip (by decide)
    · rw [if_neg hquote]
      exact .add (by decide) (fun h => by cases h)
  | closing =>
    rw [CsvMode.act]
    by_cases hquote : c = '"'
    · rw [if_pos hquote]
      exact .add (by decide) (fun h => by cases h)
    · rw [if_neg hquote]
      exact pays_endsField rfl fun _ => .refuse
  | carriage =>
    rw [CsvMode.act]
    by_cases hlf : c = '\n'
    · rw [if_pos hlf]
      exact .endRecord rfl
    · rw [if_neg hlf]
      exact .refuse

/-- A reading takes at least as many characters as its fields have, with one for the end of each; where it takes no
more, no field was in quotes. -/
theorem size_readRest (h : readRest (cs ++ ['\n']) mode = some x) :
    recordsSize x.toRecords + mode.due ≤ cs.length + 1 ∧
      (mode.free = true → recordsSize x.toRecords = cs.length + 1 → PlainRecords x.toRecords) := by
  induction cs generalizing mode x with
  | nil =>
    have hdone : x = .done ∧ mode.due = 0 := by
      cases mode with
      | quoted => cases h
      | field => exact ⟨(Option.some.inj h).symm, rfl⟩
      | plain => exact ⟨(Option.some.inj h).symm, rfl⟩
      | closing => exact ⟨(Option.some.inj h).symm, rfl⟩
      | carriage => exact ⟨(Option.some.inj h).symm, rfl⟩
    rw [hdone.1, hdone.2]
    refine ⟨by decide, fun _ _ => ?_⟩
    intro fields hfields field hfield
    rw [List.mem_singleton.mp hfields] at hfield
    rw [List.mem_singleton.mp hfield]
    exact plain_nil
  | cons c cs ih =>
    rw [List.cons_append, readRest] at h
    have hact := pays_act c mode
    generalize mode.act c = act at h hact
    rw [List.length_cons]
    cases hact with
    | add hdue hfree =>
      obtain ⟨y, hy, rfl⟩ := Option.map_eq_some_iff.mp h
      obtain ⟨hsize, hplain⟩ := ih hy
      rw [size_cons]
      refine ⟨by omega, fun hmode heq => ?_⟩
      obtain ⟨hnext, hc⟩ := hfree hmode
      exact plain_cons (hplain hnext (by omega)) hc
    | skip hdue =>
      obtain ⟨hsize, -⟩ := ih h
      refine ⟨by omega, fun hmode heq => ?_⟩
      -- the character that was skipped is missing in the sum
      have hzero := due_of_free hmode
      omega
    | endField hdue =>
      obtain ⟨y, hy, rfl⟩ := Option.map_eq_some_iff.mp h
      obtain ⟨hsize, hplain⟩ := ih hy
      rw [size_endField]
      exact ⟨by omega, fun _ heq => plain_endField (hplain rfl (by omega))⟩
    | endRecord hdue =>
      rw [if_neg (by simp)] at h
      obtain ⟨y, hy, rfl⟩ := Option.map_eq_some_iff.mp h
      obtain ⟨hsize, hplain⟩ := ih hy
      rw [size_endRecord]
      exact ⟨by omega, fun _ heq => plain_endRecord (hplain rfl (by omega))⟩
    | refuse => cases h

end Sizes

/-- **Where what is read has as many characters as what was written, all fields read are plain.** -/
theorem plain_of_readCsv {written : List (List (List Char))} (hne : written ≠ [])
    (hfields : ∀ fields ∈ written, fields ≠ [])
    (hsize : recordsSize records = recordsSize written) (h : readCsv (written.flatMap recordText) = some records) :
    PlainRecords records := by
  obtain ⟨cs, hcs⟩ : ∃ cs, written.flatMap recordText = cs ++ ['\n'] := by
    obtain ⟨init, last, rfl⟩ := (List.eq_nil_or_concat written).resolve_left hne
    refine ⟨init.flatMap recordText ++ List.intercalate [','] last, ?_⟩
    rw [List.concat_eq_append, List.flatMap_append, List.flatMap_cons, List.flatMap_nil, List.append_nil, recordText,
      List.append_assoc]
  have hlength := length_flatMap_recordText hfields
  rw [hcs, List.length_append, List.length_singleton, ← hsize] at hlength
  rw [hcs, readCsv, if_neg (by simp)] at h
  obtain ⟨x, hx, rfl⟩ := Option.map_eq_some_iff.mp h
  exact (size_readRest hx).2 rfl hlength.symm

end Lib
