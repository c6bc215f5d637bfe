import VelocityMcp.Client.Parity
import VelocityMcp.Lib.Lines

/-!
# Client.Stdio — the client's transport over a child's pipes (`StdioTransport` of `client/src/transport/mod.rs`)

`Step.Right`: what a send should do to the replies and to the lines; `steps_right_iff` says which sends do.
-/

namespace VelocityMcp.Client.Stdio

open Lib

/-! ## Sending -/

/-- The errors of `send`. -/
inductive SendError where
  | connectionClosed
  | json
  | transport (text : String)
deriving DecidableEq

/-- What one read of the child's output brings. -/
abbrev Chunk := {b : Bytes // b ≠ []}

/-- All that the reads bring. -/
def received (output : List Chunk) : Bytes := output.flatMap Subtype.val

/-- `read_line` of a fresh `BufReader`: the line, what is left in the buffer, and the reads to come. -/
def readLine : List Chunk → Bytes × Bytes × List Chunk
  | [] => ([], [], [])
  | chunk :: more =>
    if 0x0a ∈ chunk.val then ((cutLine chunk.val).1, (cutLine chunk.val).2, more)
    else (chunk.val ++ (readLine more).1, (readLine more).2)

/-- `from_str`, for a response. -/
def parseResponse (text : JsonText) (line : String) : Option JsonRpcResponse :=
  (text.parse line).toOption.bind JsonRpcResponse.fromValue

def notificationAcked : JsonRpcResponse := ⟨"2.0", some (.object []), none, none⟩

/-- The child's `stdin` and `stdout`, if they are there: what reads of `stdout` are going to bring. -/
abbrev Pipes := Option (List Chunk)

/-- `StdioTransport::send`, where `write` says how it goes with the writes to `stdin`. -/
def send (text : JsonText) (pipes : Pipes) (request : JsonRpcRequest) (write : Bytes → Except String Unit) :
    Except SendError JsonRpcResponse × Pipes :=
  match pipes with
  | none => (.error .connectionClosed, none)
  | some output =>
    match write (utf8 (text.ofRequest request) ++ [0x0a]) with
    | .error e => (.error (.transport e), none)
    | .ok () =>
      if request.id = none then (.ok notificationAcked, some output)
      else
        match fromUtf8 (readLine output).1 with
        | none => (.error (.transport "stream did not contain valid UTF-8"), none)
        | some responseLine =>
          if responseLine = "" then (.error .connectionClosed, none)
          else match parseResponse text responseLine with
            | none => (.error .json, none)
            | some response => (.ok response, some (readLine output).2.2)

/-! ## Runs -/

/-- A call of `send`, and what the writes meet. -/
structure Call where
  request : JsonRpcRequest
  write : Bytes → Except String Unit

/-- A call where it is made, and what comes of it. -/
structure Step where
  before : Pipes
  call : Call
  outcome : Except SendError JsonRpcResponse
  after : Pipes

/-- One call after the other. -/
def steps (text : JsonText) : Pipes → List Call → List Step
  | _, [] => []
  | pipes, call :: calls =>
    let r := send text pipes call.request call.write
    ⟨pipes, call, r.1, r.2⟩ :: steps text r.2 calls

/-- What the server has written, or is going to write, and a later send can read. -/
def unread : Pipes → Bytes
  | some output => received output
  | none => []

/-- The request has been written to a child, which is to answer. -/
def Step.Waits (text : JsonText) (s : Step) : Prop :=
  s.before.isSome ∧ s.call.write (utf8 (text.ofRequest s.call.request) ++ [0x0a]) = .ok () ∧
    s.call.request.id ≠ none

/-- A reply belongs to its request; of the server's lines only the one is taken that a send waits for; and after a
reply with an error, or one that cannot be parsed, the transport is still there. -/
structure Step.Right (text : JsonText) (s : Step) : Prop where
  id : ∀ i r, s.call.request.id = some i → s.outcome = .ok r → r.id = some i
  waits : s.Waits text → unread s.after = (cutLine (unread s.before)).2
  idle : ¬ s.Waits text → unread s.after = unread s.before
  usable : (s.outcome = .error .json ∨ ∃ r, s.outcome = .ok r ∧ r.error.isSome) → s.after.isSome

def EndsWithRead (output : List Chunk) : Prop :=
  ∃ first more, output = first ++ more ∧ received first = (cutLine (received output)).1

/-- What a waiting send finds: nothing; or a line that is a response with the request's id, and that ends with a read;
or a last line that is no text. -/
def Answers (text : JsonText) (output : List Chunk) (id : Value) : Prop :=
  received output = [] ∨
  match fromUtf8 (cutLine (received output)).1 with
  | some line => (∃ r, parseResponse text line = some r ∧ r.id = some id) ∧ EndsWithRead output
  | none => (cutLine (received output)).2 = []

/-- The transport is gone; or the writes fail, and the server has nothing to say; or the request is a notification, or
is answered. -/
def Step.Orderly (text : JsonText) (s : Step) : Prop :=
  match s.before with
  | none => True
  | some output =>
    match s.call.write (utf8 (text.ofRequest s.call.request) ++ [0x0a]) with
    | .error _ => received output = []
    | .ok () => ∀ i, s.call.request.id = some i → Answers text output i

section Reading

variable {output : List Chunk}

@[simp] theorem received_cons (chunk : Chunk) (more : List Chunk) :
    received (chunk :: more) = chunk.val ++ received more := List.flatMap_cons

theorem readLine_eq (output : List Chunk) :
    (readLine output).1 = (cutLine (received output)).1 ∧
      (readLine output).2.1 ++ received (readLine output).2.2 = (cutLine (received output)).2 := by
  induction output with
  | nil => exact ⟨rfl, rfl⟩
  | cons chunk more ih =>
    rw [readLine, received_cons]
    by_cases h : (0x0a : UInt8) ∈ chunk.val
    · rw [if_pos h, cutLine_of_mem h]
      exact ⟨rfl, rfl⟩
    · rw [if_neg h, cutLine_of_not_mem h]
      exact ⟨congrArg _ ih.1, ih.2⟩

theorem readLine_buffer_eq_nil_iff (output : List Chunk) : (readLine output).2.1 = [] ↔ EndsWithRead output := by
  induction output with
  | nil => exact ⟨fun _ => ⟨[], [], rfl, rfl⟩, fun _ => rfl⟩
  | cons chunk more ih =>
    rw [readLine, EndsWithRead, received_cons]
    by_cases h : (0x0a : UInt8) ∈ chunk.val
    · rw [if_pos h, cutLine_of_mem h]
      have hcut := cutLine_append chunk.val
      constructor
      · intro hrest
        change (cutLine chunk.val).2 = [] at hrest
        rw [hrest, List.append_nil] at hcut
        exact ⟨[chunk], more, rfl, by rw [hcut, received_cons]; exact List.append_nil _⟩
      · rintro ⟨first, more', hfirst, hline⟩
        rcases List.cons_eq_append_iff.mp hfirst with ⟨rfl, -⟩ | ⟨first', rfl, -⟩
        · exact absurd (cutLine_eq_nil hline.symm) chunk.property
        · rw [received_cons] at hline
          have hwhole : chunk.val ++ (received first' ++ (cutLine chunk.val).2) = chunk.val ++ [] := by
            rw [← List.append_assoc, hline, hcut, List.append_nil]
          exact (List.append_eq_nil_iff.mp (List.append_cancel_left hwhole)).2
    · rw [if_neg h, cutLine_of_not_mem h]
      show (readLine more).2.1 = [] ↔ _
      rw [ih]
      constructor
      · rintro ⟨first, more', rfl, hline⟩
        exact ⟨chunk :: first, more', rfl, by rw [received_cons, hline]⟩
      · rintro ⟨first, more', hfirst, hline⟩
        rcases List.cons_eq_append_iff.mp hfirst with ⟨rfl, -⟩ | ⟨first', rfl, hmore⟩
        · exact absurd (List.append_eq_nil_iff.mp hline.symm).1 chunk.property
        · rw [received_cons] at hline
          exact ⟨first', more', hmore, List.append_cancel_left hline⟩

end Reading

section Sending

variable {text : JsonText} {output : List Chunk} {call : Call} {i : Value}

def stepOf (text : JsonText) (pipes : Pipes) (call : Call) : Step :=
  ⟨pipes, call, (send text pipes call.request call.write).1, (send text pipes call.request call.write).2⟩

theorem eq_json_of_counts {e : SendError} (h : (.error e : Except SendError JsonRpcResponse) = .error .json ∨
    ∃ r : JsonRpcResponse, (.error e : Except SendError JsonRpcResponse) = .ok r ∧ r.error.isSome) : e = .json := by
  rcases h with h | ⟨r, h, -⟩
  · exact Except.error.inj h
  · cases h

theorem right_of_gone : (stepOf text none call).Right text where
  id _ _ _ h := by cases h
  waits h := by cases h.1
  idle _ := rfl
  usable h := by cases eq_json_of_counts h

section WriteError

variable {e : String} (hwrite : call.write (utf8 (text.ofRequest call.request) ++ [0x0a]) = .error e)

include hwrite

theorem send_of_writeError : send text (some output) call.request call.write = (.error (.transport e), none) := by
  simp only [send, hwrite]

theorem right_iff_of_writeError : (stepOf text (some output) call).Right text ↔ received output = [] := by
  rw [stepOf, send_of_writeError hwrite]
  constructor
  · intro h
    refine (h.idle ?_).symm
    rintro ⟨-, hok, -⟩
    cases hwrite.symm.trans hok
  · intro hnone
    refine ⟨?_, ?_, ?_, ?_⟩
    · intro i r _ h
      cases h
    · rintro ⟨-, hok, -⟩
      cases hwrite.symm.trans hok
    · intro _
      exact hnone.symm
    · intro h
      cases eq_json_of_counts h

end WriteError

section Written

variable (hwrite : call.write (utf8 (text.ofRequest call.request) ++ [0x0a]) = .ok ())

include hwrite

theorem right_of_notification (hid : call.request.id = none) : (stepOf text (some output) call).Right text := by
  have hsend : send text (some output) call.request call.write = (.ok notificationAcked, some output) := by
    simp only [send, hwrite, hid, if_true]
  rw [stepOf, hsend]
  refine ⟨?_, ?_, ?_, ?_⟩
  · intro i r h _
    cases hid.symm.trans h
  · rintro ⟨-, -, h⟩
    exact absurd hid h
  · intro _
    rfl
  · intro _
    rfl

variable (hid : call.request.id = some i)

include hid

theorem right_iff_of_send {r : Except SendError JsonRpcResponse × Pipes}
    (hsend : send text (some output) call.request call.write = r) :
    (stepOf text (some output) call).Right text ↔
      (∀ response, r.1 = .ok response → response.id = some i) ∧
      unread r.2 = (cutLine (received output)).2 ∧
      (r.1 = .error .json ∨ (∃ response, r.1 = .ok response ∧ response.error.isSome) → r.2.isSome) := by
  subst hsend
  have hwaits : (stepOf text (some output) call).Waits text := ⟨rfl, hwrite, by rw [stepOf, hid]; simp⟩
  constructor
  · intro h
    exact ⟨fun response => h.id i response hid, h.waits hwaits, h.usable⟩
  · rintro ⟨hreply, hline, husable⟩
    refine ⟨?_, fun _ => hline, fun h => absurd hwaits h, husable⟩
    intro j response hj
    rw [Option.some.inj (hj.symm.trans hid)]
    exact hreply response

theorem right_iff_of_error {e : SendError} (hsend : send text (some output) call.request call.write = (.error e, none)) :
    (stepOf text (some output) call).Right text ↔ e ≠ .json ∧ (cutLine (received output)).2 = [] := by
  rw [right_iff_of_send hwrite hid hsend]
  constructor
  · rintro ⟨-, hline, husable⟩
    refine ⟨?_, hline.symm⟩
    rintro rfl
    cases husable (Or.inl rfl)
  · rintro ⟨he, hline⟩
    refine ⟨?_, hline.symm, ?_⟩
    · intro response h
      cases h
    · intro h
      exact absurd (eq_json_of_counts h) he

theorem right_iff_of_reply {response : JsonRpcResponse}
    (hsend : send text (some output) call.request call.write = (.ok response, some (readLine output).2.2)) :
    (stepOf text (some output) call).Right text ↔ response.id = some i ∧ EndsWithRead output := by
  have hrest : received (readLine output).2.2 = (cutLine (received output)).2 ↔ EndsWithRead output := by
    rw [← readLine_buffer_eq_nil_iff, ← (readLine_eq output).2]
    exact List.self_eq_append_left
  rw [right_iff_of_send hwrite hid hsend]
  show _ ∧ received (readLine output).2.2 = _ ∧ _ ↔ _
  rw [hrest]
  constructor
  · rintro ⟨hreply, hread, -⟩
    exact ⟨hreply response rfl, hread⟩
  · rintro ⟨hreply, hread⟩
    refine ⟨?_, hread, fun _ => rfl⟩
    intro response' h
    rw [← Except.ok.inj h]
    exact hreply

theorem send_of_request : send text (some output) call.request call.write =
    match fromUtf8 (cutLine (received output)).1 with
    | none => (.error (.transport "stream did not contain valid UTF-8"), none)
    | some line =>
      if line = "" then (.error .connectionClosed, none)
      else match parseResponse text line with
        | none => (.error .json, none)
        | some response => (.ok response, some (readLine output).2.2) := by
  have hne : ¬ call.request.id = none := by rw [hid]; simp
  simp only [send, hwrite, if_neg hne, (readLine_eq output).1]

theorem right_iff_answers : (stepOf text (some output) call).Right text ↔ Answers text output i := by
  have hsend := @send_of_request text output call i hwrite hid
  rw [Answers]
  cases hline : fromUtf8 (cutLine (received output)).1 with
  | none =>
    have hsome : ¬ received output = [] := by
      intro hnothing
      rw [hnothing] at hline
      cases hline.symm.trans (fromUtf8_utf8 "")
    rw [hline] at hsend
    rw [right_iff_of_error hwrite hid hsend, or_iff_right hsome]
    exact and_iff_right SendError.noConfusion
  | some line =>
    rw [hline] at hsend
    by_cases hempty : line = ""
    · have hnothing : received output = [] := by
        subst hempty
        exact cutLine_eq_nil (utf8_of_fromUtf8 hline).symm
      simp only [if_pos hempty] at hsend
      rw [right_iff_of_error hwrite hid hsend, hnothing]
      exact iff_of_true ⟨SendError.noConfusion, rfl⟩ (Or.inl rfl)
    · have hsome : ¬ received output = [] := by
        intro hnothing
        rw [hnothing] at hline
        exact hempty (Option.some.inj (hline.symm.trans (fromUtf8_utf8 "")))
      simp only [if_neg hempty] at hsend
      rw [or_iff_right hsome]
      cases hparse : parseResponse text line with
      | none =>
        rw [hparse] at hsend
        rw [right_iff_of_error hwrite hid hsend]
        refine iff_of_false (fun h => h.1 rfl) ?_
        rintro ⟨⟨response, h, -⟩, -⟩
        cases hparse.symm.trans h
      | some response =>
        rw [hparse] at hsend
        rw [right_iff_of_reply hwrite hid hsend]
        refine and_congr_left fun _ => ⟨fun h => ⟨response, hparse, h⟩, ?_⟩
        rintro ⟨response', h, hreply⟩
        rw [Option.some.inj (hparse.symm.trans h)]
        exact hreply

end Written

theorem stepOf_right_iff (text : JsonText) (pipes : Pipes) (call : Call) :
    (stepOf text pipes call).Right text ↔ (stepOf text pipes call).Orderly text := by
  cases pipes with
  | none => exact iff_of_true right_of_gone trivial
  | some output =>
    cases hwrite : call.write (utf8 (text.ofRequest call.request) ++ [0x0a]) with
    | error e =>
      rw [right_iff_of_writeError hwrite]
      simp only [Step.Orderly, stepOf, hwrite]
    | ok =>
      simp only [Step.Orderly, stepOf, hwrite]
      cases hid : call.request.id with
      | none => exact iff_of_true (right_of_notification hwrite hid) (fun i h => by cases h)
      | some i =>
        refine (right_iff_answers hwrite hid).trans ⟨?_, fun h => h i rfl⟩
        intro h j hj
        cases hj
        exact h

end Sending

/-! ## The steps that are right -/

section Run

variable (text : JsonText)

theorem exists_of_mem_steps {pipes : Pipes} {calls : List Call} {s : Step} (h : s ∈ steps text pipes calls) :
    ∃ pipes' call, s = stepOf text pipes' call := by
  induction calls generalizing pipes with
  | nil => cases h
  | cons call calls ih =>
    rcases List.mem_cons.mp h with rfl | h
    · exact ⟨pipes, call, rfl⟩
    · exact ih h

/-- **The sends that correlate and recover**, among those of any run, are the orderly ones. -/
theorem steps_right_iff (pipes : Pipes) (calls : List Call) :
    (∀ s ∈ steps text pipes calls, s.Right text) ↔ ∀ s ∈ steps text pipes calls, s.Orderly text := by
  refine forall₂_congr fun s hs => ?_
  obtain ⟨pipes', call, rfl⟩ := exists_of_mem_steps text hs
  exact stepOf_right_iff text pipes' call

end Run

/-- A log message, where a client with one request waits for the reply. -/
def loggingText : JsonText :=
  exchangeText "\x7b\"jsonrpc\":\"2.0\",\"method\":\"ping\",\"params\":\x7b\x7d,\"id\":1\x7d"
    (numbered 1 "ping" (.object [])) "\x7b\"jsonrpc\":\"2.0\",\"method\":\"notifications/message\"\x7d"
    (.object [("jsonrpc", .string "2.0"), ("method", .string "notifications/message")])

def loggingRead : Chunk :=
  ⟨utf8 "\x7b\"jsonrpc\":\"2.0\",\"method\":\"notifications/message\"\x7d\n", by decide +kernel⟩

/-- A notification that comes first is taken for the reply. -/
theorem notification_taken_for_reply :
    ¬ ∀ s ∈ steps loggingText (some [loggingRead]) [⟨numbered 1 "ping" (.object []), fun _ => .ok ()⟩],
      s.Right loggingText := by
  intro h
  have hreply : (send loggingText (some [loggingRead]) (numbered 1 "ping" (.object [])) fun _ => .ok ()).1 =
      .ok ⟨"2.0", none, none, none⟩ := by decide +kernel
  cases (h _ List.mem_cons_self).id _ _ rfl hreply

end VelocityMcp.Client.Stdio
