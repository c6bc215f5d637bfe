import VelocityMcp.Audit.Log
import VelocityMcp.JsonRpc.IdKeys
import VelocityMcp.Lib.Csv

/-!
# Audit.Csv — audit entries as comma-separated values (`audit.rs`, `http.rs`)
-/

namespace VelocityMcp.Audit

open Lib Http.Audit

/-! ## The writers -/

def csvColumns : List String :=
  ["sequence", "timestamp_ms", "tool_name", "duration_us", "outcome", "transport", "payload_size", "response_size",
    "merkle_root", "session_id"]

/-- `msg.replace(',', ";")`. -/
def replaceCommas (msg : String) : String := msg.map fun c => if c = ',' then ';' else c

def outcomeStr : AuditOutcome → String
  | .success => "success"
  | .error msg => "error:" ++ replaceCommas msg
  | .timeout => "timeout"
  | .rejected reason => "rejected:" ++ replaceCommas reason

def sizeStr (size : Option UInt64) : String := (size.map fun n => toString n.toNat).getD ""

def csvFields (entry : AuditEntry) : List String :=
  [toString entry.sequence.toNat, toString entry.timestampMs.toNat, entry.toolName, toString entry.durationUs.toNat,
    outcomeStr entry.outcome, entry.transport.getD "", sizeStr entry.payloadSize, sizeStr entry.responseSize,
    entry.merkleRoot.getD "", entry.sessionId.getD ""]

def csvLine (fields : List String) : String := String.intercalate "," fields ++ "\n"

def csvText (entries : List AuditEntry) : String :=
  entries.foldl (fun csv entry => csv ++ csvLine (csvFields entry)) (csvLine csvColumns)

/-- One writer of the ten fields of an entry. -/
def AuditLog.exportCsv (log : AuditLog) : String := csvText log.all

/-- The other one. -/
def formatAuditCsv (entries : List AuditEntry) : String := csvText entries

/-! ## The values -/

def outcomeText : AuditOutcome → String
  | .success => "success"
  | .error msg => "error:" ++ msg
  | .timeout => "timeout"
  | .rejected reason => "rejected:" ++ reason

/-- The values of the fields. -/
def fieldTexts (entry : AuditEntry) : List String :=
  [toString entry.sequence.toNat, toString entry.timestampMs.toNat, entry.toolName, toString entry.durationUs.toNat,
    outcomeText entry.outcome, entry.transport.getD "", sizeStr entry.payloadSize, sizeStr entry.responseSize,
    entry.merkleRoot.getD "", entry.sessionId.getD ""]

/-- What a reader of RFC 4180 makes of a text. -/
def readRecords (csv : String) : Option (List (List String)) :=
  (readCsv csv.toList).map fun records => records.map fun fields => fields.map String.ofList

/-- The text gives back the header and the values of every entry, in one record each. -/
def Recovered (csv : String) (entries : List AuditEntry) : Prop :=
  readRecords csv = some (csvColumns :: entries.map fieldTexts)

def message : AuditOutcome → String
  | .error msg => msg
  | .rejected reason => reason
  | _ => ""

def givenTexts (entry : AuditEntry) : List String :=
  [entry.toolName, message entry.outcome, entry.transport.getD "", entry.merkleRoot.getD "", entry.sessionId.getD ""]

/-- None of them has a comma, a quote or a line break. -/
def AuditEntry.Plain (entry : AuditEntry) : Prop := ∀ text ∈ givenTexts entry, PlainField text.toList

/-! ## Lines as records -/

def chars (fields : List String) : List (List Char) := fields.map String.toList

variable {entry : AuditEntry} {entries : List AuditEntry} {records : List (List (List Char))}

theorem toList_csvLine (fields : List String) : (csvLine fields).toList = recordText (chars fields) := by
  rw [csvLine, String.toList_append, String.toList_intercalate]
  rfl

theorem toList_csvText (entries : List AuditEntry) :
    (csvText entries).toList =
      (chars csvColumns :: entries.map fun entry => chars (csvFields entry)).flatMap recordText := by
  rw [csvText, List.flatMap_cons]
  generalize hstart : csvLine csvColumns = start
  rw [← toList_csvLine, hstart]
  clear hstart
  induction entries generalizing start with
  | nil => simp
  | cons entry entries ih =>
    rw [List.foldl_cons, ih, String.toList_append, toList_csvLine, List.map_cons, List.flatMap_cons, List.append_assoc]

theorem ofList_chars (fields : List String) : (chars fields).map String.ofList = fields := by
  rw [chars, List.map_map]
  exact List.map_id'' (fun text => String.ofList_toList) fields

theorem chars_ofList (fields : List (List Char)) : chars (fields.map String.ofList) = fields := by
  rw [chars, List.map_map]
  exact List.map_id'' (fun field => String.toList_ofList) fields

theorem recovered_iff (csv : String) (entries : List AuditEntry) : Recovered csv entries ↔
    readCsv csv.toList = some (chars csvColumns :: entries.map fun entry => chars (fieldTexts entry)) := by
  have htexts : csvColumns :: entries.map fieldTexts =
      (chars csvColumns :: entries.map fun entry => chars (fieldTexts entry)).map fun fields =>
        fields.map String.ofList := by
    rw [List.map_cons, ofList_chars, List.map_map]
    refine congrArg (csvColumns :: ·) (List.map_congr_left fun entry _ => ?_)
    exact (ofList_chars _).symm
  have hinj : Function.Injective fun records : List (List (List Char)) =>
      records.map fun fields => fields.map String.ofList :=
    Function.LeftInverse.injective (g := fun records => records.map chars) fun records => by
      show (records.map fun fields => fields.map String.ofList).map chars = records
      rw [List.map_map]
      exact List.map_id'' chars_ofList records
  rw [Recovered, readRecords, htexts]
  exact (Option.map_injective hinj).eq_iff' rfl

/-! ## What is written and the values -/

theorem plain_toString_nat (n : ℕ) : PlainField (toString n).toList := by
  intro c hc
  rw [toList_toString_nat] at hc
  have hdigit := JsonRpc.isDigit_of_mem hc
  simp only [csvSpecial, Bool.or_eq_false_iff, decide_eq_false_iff_not]
  refine ⟨⟨⟨?_, ?_⟩, ?_⟩, ?_⟩
  · rintro rfl
    exact absurd hdigit (by decide)
  · rintro rfl
    exact absurd hdigit (by decide)
  · rintro rfl
    exact absurd hdigit (by decide)
  · rintro rfl
    exact absurd hdigit (by decide)

theorem plain_sizeStr (size : Option UInt64) : PlainField (sizeStr size).toList := by
  cases size with
  | none => exact fun c hc => absurd hc List.not_mem_nil
  | some n => exact plain_toString_nat n.toNat

theorem plain_append {a b : List Char} : PlainField (a ++ b) ↔ PlainField a ∧ PlainField b := List.forall_mem_append

theorem plain_outcomeText (outcome : AuditOutcome) :
    PlainField (outcomeText outcome).toList ↔ PlainField (message outcome).toList := by
  cases outcome with
  | success => exact iff_of_true (by decide) (by decide)
  | timeout => exact iff_of_true (by decide) (by decide)
  | error msg =>
    rw [outcomeText, String.toList_append, plain_append]
    exact and_iff_right (by decide)
  | rejected reason =>
    rw [outcomeText, String.toList_append, plain_append]
    exact and_iff_right (by decide)

theorem plain_fieldTexts (entry : AuditEntry) :
    (∀ field ∈ chars (fieldTexts entry), PlainField field) ↔ entry.Plain := by
  simp only [chars, fieldTexts, AuditEntry.Plain, givenTexts, List.map_cons, List.map_nil, List.forall_mem_cons,
    plain_toString_nat, plain_sizeStr, plain_outcomeText, true_and, List.not_mem_nil, false_imp_iff, implies_true]

theorem length_replaceCommas (msg : String) : (replaceCommas msg).toList.length = msg.toList.length := by
  rw [replaceCommas, String.toList_map, List.length_map]

theorem replaceCommas_of_plain {msg : String} (h : PlainField msg.toList) : replaceCommas msg = msg := by
  rw [← String.toList_inj, replaceCommas, String.toList_map]
  conv_rhs => rw [← List.map_id msg.toList]
  refine List.map_congr_left ?_
  intro c hc
  refine if_neg ?_
  rintro rfl
  exact absurd (h _ hc) (by decide)

theorem length_outcomeStr (outcome : AuditOutcome) :
    (outcomeStr outcome).toList.length = (outcomeText outcome).toList.length := by
  cases outcome with
  | success => rfl
  | timeout => rfl
  | error msg => rw [outcomeStr, outcomeText, String.toList_append, String.toList_append, List.length_append,
      List.length_append, length_replaceCommas]
  | rejected reason => rw [outcomeStr, outcomeText, String.toList_append, String.toList_append, List.length_append,
      List.length_append, length_replaceCommas]

theorem outcomeStr_of_plain {outcome : AuditOutcome} (h : PlainField (message outcome).toList) :
    outcomeStr outcome = outcomeText outcome := by
  cases outcome with
  | success => rfl
  | timeout => rfl
  | error msg => exact congrArg ("error:" ++ ·) (replaceCommas_of_plain h)
  | rejected reason => exact congrArg ("rejected:" ++ ·) (replaceCommas_of_plain h)

theorem recordSize_csvFields (entry : AuditEntry) :
    recordSize (chars (csvFields entry)) = recordSize (chars (fieldTexts entry)) := by
  simp only [recordSize, chars, csvFields, fieldTexts, List.map_cons, List.map_nil, length_outcomeStr]

theorem csvFields_of_plain (h : entry.Plain) : csvFields entry = fieldTexts entry := by
  have hmessage : PlainField (message entry.outcome).toList :=
    h _ (List.mem_cons_of_mem _ List.mem_cons_self)
  rw [csvFields, fieldTexts, outcomeStr_of_plain hmessage]

/-! ## What is read back -/

theorem plain_csvColumns : ∀ field ∈ chars csvColumns, PlainField field := by
  have hall : (chars csvColumns).all (fun field => field.all fun c => !csvSpecial c) = true := by decide
  intro field hfield c hc
  simpa using List.all_eq_true.mp (List.all_eq_true.mp hall field hfield) c hc

theorem csvColumns_ne_nil : chars csvColumns ≠ [] := List.cons_ne_nil _ _

theorem csvFields_ne_nil (entry : AuditEntry) : chars (csvFields entry) ≠ [] := List.cons_ne_nil _ _

theorem fieldTexts_ne_nil (entry : AuditEntry) : chars (fieldTexts entry) ≠ [] := List.cons_ne_nil _ _

/-- **The values are read back exactly if none of the texts that others choose has a character that needs quotes.** -/
theorem recovered_csvText_iff (entries : List AuditEntry) :
    Recovered (csvText entries) entries ↔ ∀ entry ∈ entries, entry.Plain := by
  rw [recovered_iff, toList_csvText]
  constructor
  · intro h entry hentry
    refine (plain_fieldTexts entry).mp ?_
    have hplain := plain_of_readCsv (List.cons_ne_nil _ _) ?_ ?_ h
    · exact hplain _ (List.mem_cons_of_mem _ (List.mem_map_of_mem hentry))
    · intro fields hfields
      rcases List.mem_cons.mp hfields with rfl | hfields
      · exact csvColumns_ne_nil
      · obtain ⟨other, -, rfl⟩ := List.mem_map.mp hfields
        exact csvFields_ne_nil other
    · have hsizes : (entries.map fun entry => chars (fieldTexts entry)).map recordSize =
          (entries.map fun entry => chars (csvFields entry)).map recordSize := by
        rw [List.map_map, List.map_map]
        exact List.map_congr_left fun other _ => (recordSize_csvFields other).symm
      rw [recordsSize, recordsSize, List.map_cons, List.map_cons, hsizes]
  · intro h
    have hwritten : (entries.map fun entry => chars (csvFields entry)) =
        entries.map fun entry => chars (fieldTexts entry) :=
      List.map_congr_left fun entry hentry => congrArg chars (csvFields_of_plain (h entry hentry))
    rw [hwritten]
    apply readCsv_records
    · intro fields hfields
      rcases List.mem_cons.mp hfields with rfl | hfields
      · exact csvColumns_ne_nil
      · obtain ⟨entry, -, rfl⟩ := List.mem_map.mp hfields
        exact fieldTexts_ne_nil entry
    · intro fields hfields
      rcases List.mem_cons.mp hfields with rfl | hfields
      · exact plain_csvColumns
      · obtain ⟨entry, hentry, rfl⟩ := List.mem_map.mp hfields
        exact (plain_fieldTexts entry).mpr (h entry hentry)

/-- **The values are read back** exactly of these entries. -/
theorem export_recovered_iff (log : AuditLog) (entries : List AuditEntry) :
    (Recovered log.exportCsv log.all ↔ ∀ entry ∈ log.all, entry.Plain) ∧
      (Recovered (formatAuditCsv entries) entries ↔ ∀ entry ∈ entries, entry.Plain) :=
  ⟨recovered_csvText_iff log.all, recovered_csvText_iff entries⟩

def commaEntry : AuditEntry := recordFull 1 5 5 ⟨⟨"a,b", .success, none, none, none⟩, some "http", some "session-A"⟩

/-- A comma in a tool name makes one field into two. -/
theorem comma_not_recovered : ¬ ∀ (log : AuditLog) (entries : List AuditEntry),
    Recovered log.exportCsv log.all ∧ Recovered (formatAuditCsv entries) entries := by
  intro h
  have hplain := (recovered_csvText_iff [commaEntry]).mp (h .new [commaEntry]).2 commaEntry List.mem_cons_self
  exact absurd (hplain "a,b" List.mem_cons_self) (by decide)

end VelocityMcp.Audit
