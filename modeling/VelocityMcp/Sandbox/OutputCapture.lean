import VelocityMcp.Lib.Bytes

/-!
# Sandbox.OutputCapture — what is kept of a child's output (`spawn_and_collect` of `sandbox.rs`)

`capture_iff`: when it is the start of both streams, for every way the reads cut them.
-/

namespace VelocityMcp.OutputCapture

open Lib

/-! ## The code -/

/-- `MAX_OUTPUT_SIZE`. -/
def maxOutputSize : ℕ := 1048576

/-- `MAX_STDERR_SIZE`. -/
def maxStderrSize : ℕ := 262144

/-- The variables of a reader loop; no stream is so long that its total leaves a `usize`. -/
structure Capture where
  buf : Bytes
  limited : Bool
  total : ℕ
deriving DecidableEq

/-- One chunk. -/
def Capture.extend (limit : ℕ) (c : Capture) (chunk : Bytes) : Capture :=
  if c.total + chunk.length ≤ limit then ⟨c.buf ++ chunk, c.limited, c.total + chunk.length⟩
  else ⟨c.buf, true, c.total + chunk.length⟩

/-- A reader loop, on what its reads give: it ends at a read of nothing and at an error. -/
def collect (limit : ℕ) : Capture → List (Except Unit Bytes) → Capture
  | c, .ok [] :: _ => c
  | c, .ok chunk :: reads => collect limit (c.extend limit chunk) reads
  | c, _ => c

/-- One stream, and whether it was cut. -/
def collectStdout (reads : List (Except Unit Bytes)) : Capture := collect maxOutputSize ⟨[], false, 0⟩ reads

def collectStderr (reads : List (Except Unit Bytes)) : Capture := collect maxStderrSize ⟨[], false, 0⟩ reads

/-- What `spawn_and_collect` captures, before it is made a text. -/
structure Captured where
  stdout : Bytes
  stderr : Bytes
  outputTruncated : Bool
deriving DecidableEq

def spawnAndCollect (stdout stderr : List (Except Unit Bytes)) : Captured :=
  ⟨(collectStdout stdout).buf, (collectStderr stderr).buf,
    (collectStdout stdout).limited || (collectStderr stderr).limited⟩

/-! ## What the reads see of a stream -/

/-- A stream, cut by reads into a buffer of so many bytes. -/
structure Chunked (size : ℕ) where
  chunks : List Bytes
  read : ∀ chunk ∈ chunks, chunk ≠ [] ∧ chunk.length ≤ size

namespace Chunked

variable {size : ℕ} (cut : Chunked size)

/-- The bytes that the child writes. -/
def stream : Bytes := cut.chunks.flatten

def reads : List (Except Unit Bytes) := cut.chunks.map .ok ++ [.ok []]

/-- The stream is within the limit, or one of the chunks ends there. -/
def EndsAt (limit : ℕ) : Prop := cut.stream.length ≤ limit ∨ ∃ k, (cut.chunks.take k).flatten.length = limit

end Chunked

/-! ## What is kept -/

section Kept

variable {limit : ℕ} {c : Capture} {cs : List Bytes}

theorem collect_reads (hcs : ∀ chunk ∈ cs, chunk ≠ []) :
    collect limit c (cs.map .ok ++ [.ok []]) = cs.foldl (Capture.extend limit) c := by
  induction cs generalizing c with
  | nil => rfl
  | cons chunk cs ih =>
    have hrest := ih (c := c.extend limit chunk) fun d hd => hcs d (List.mem_cons_of_mem chunk hd)
    cases hchunk : chunk with
    | nil => exact absurd hchunk (hcs chunk List.mem_cons_self)
    | cons x xs =>
      rw [hchunk] at hrest
      exact hrest

theorem extend_of_lt (h : limit < c.total) (cs : List Bytes) :
    (cs.foldl (Capture.extend limit) c).buf = c.buf ∧
      ((cs.foldl (Capture.extend limit) c).limited = true ↔ c.limited = true ∨ cs ≠ []) := by
  induction cs generalizing c with
  | nil => simp
  | cons chunk cs ih =>
    have hstep : c.extend limit chunk = ⟨c.buf, true, c.total + chunk.length⟩ := if_neg (by omega)
    have hrest := @ih (c.extend limit chunk) (by rw [hstep]; dsimp only; omega)
    rw [List.foldl_cons, hrest.1, hrest.2, hstep]
    simp

/-- **The flag tells whether the stream is longer than the limit.** -/
theorem limited_iff (hc : c.total ≤ limit) (hcs : ∀ chunk ∈ cs, chunk ≠ []) :
    (cs.foldl (Capture.extend limit) c).limited = true ↔ c.limited = true ∨ limit < c.total + cs.flatten.length := by
  induction cs generalizing c with
  | nil => simp [Nat.not_lt.mpr hc]
  | cons chunk cs ih =>
    have htail : ∀ d ∈ cs, d ≠ [] := fun d hd => hcs d (List.mem_cons_of_mem chunk hd)
    rw [List.foldl_cons, List.flatten_cons, List.length_append, ← Nat.add_assoc]
    by_cases hfit : c.total + chunk.length ≤ limit
    · have hstep : c.extend limit chunk = ⟨c.buf ++ chunk, c.limited, c.total + chunk.length⟩ := if_pos hfit
      rw [hstep, ih hfit htail]
    · have hstep : c.extend limit chunk = ⟨c.buf, true, c.total + chunk.length⟩ := if_neg hfit
      rw [hstep, (extend_of_lt (by dsimp only; omega) cs).2]
      simp only [true_or, true_iff]
      omega

/-- **What is kept is the start of the stream up to the limit exactly if** the stream is within the limit or a chunk
ends there. -/
theorem kept_iff (hc : c.total ≤ limit) (hcs : ∀ chunk ∈ cs, chunk ≠ []) :
    (cs.foldl (Capture.extend limit) c).buf = c.buf ++ cs.flatten.take (limit - c.total) ↔
      c.total + cs.flatten.length ≤ limit ∨ ∃ k, c.total + (cs.take k).flatten.length = limit := by
  induction cs generalizing c with
  | nil => simp [hc]
  | cons chunk cs ih =>
    have hpos := List.length_pos_of_ne_nil (hcs chunk List.mem_cons_self)
    rw [List.foldl_cons, List.flatten_cons, List.length_append]
    by_cases hfit : c.total + chunk.length ≤ limit
    · have hstep : c.extend limit chunk = ⟨c.buf ++ chunk, c.limited, c.total + chunk.length⟩ := if_pos hfit
      have hrest := @ih ⟨c.buf ++ chunk, c.limited, c.total + chunk.length⟩ hfit
        fun d hd => hcs d (List.mem_cons_of_mem chunk hd)
      dsimp only at hrest
      have htake : (chunk ++ cs.flatten).take (limit - c.total) =
          chunk ++ cs.flatten.take (limit - (c.total + chunk.length)) := by
        rw [List.take_append, List.take_of_length_le (by omega), Nat.sub_sub]
      rw [hstep, htake, ← List.append_assoc, hrest, Nat.add_assoc]
      apply or_congr_right
      constructor
      · rintro ⟨k, hk⟩
        refine ⟨k + 1, ?_⟩
        rw [List.take_succ_cons, List.flatten_cons, List.length_append, ← Nat.add_assoc, hk]
      · rintro ⟨k, hk⟩
        cases k with
        | zero =>
          rw [List.take_zero, List.flatten_nil, List.length_nil] at hk
          omega
        | succ k =>
          rw [List.take_succ_cons, List.flatten_cons, List.length_append, ← Nat.add_assoc] at hk
          exact ⟨k, hk⟩
    · have hstep : c.extend limit chunk = ⟨c.buf, true, c.total + chunk.length⟩ := if_neg hfit
      have hlost : (cs.foldl (Capture.extend limit) (c.extend limit chunk)).buf = c.buf := by
        rw [hstep, (extend_of_lt (by dsimp only; omega) cs).1]
      rw [hlost, List.self_eq_append_right, List.take_eq_nil_iff]
      constructor
      · rintro (hzero | hnil)
        · exact .inr ⟨0, by rw [List.take_zero, List.flatten_nil, List.length_nil]; omega⟩
        · exact absurd (List.append_eq_nil_iff.mp hnil).1 (hcs chunk List.mem_cons_self)
      · rintro (hle | ⟨k, hk⟩)
        · omega
        · cases k with
          | zero =>
            rw [List.take_zero, List.flatten_nil, List.length_nil] at hk
            exact .inl (by omega)
          | succ k =>
            rw [List.take_succ_cons, List.flatten_cons, List.length_append] at hk
            omega

end Kept

/-! ## Both streams -/

/-- The start of each stream up to its limit, and the flag if one of them is longer. -/
structure KeepsPrefixes (out : Chunked 4096) (err : Chunked 1024) : Prop where
  stdout : (spawnAndCollect out.reads err.reads).stdout = out.stream.take maxOutputSize
  stderr : (spawnAndCollect out.reads err.reads).stderr = err.stream.take maxStderrSize
  flag : (spawnAndCollect out.reads err.reads).outputTruncated = true ↔
    maxOutputSize < out.stream.length ∨ maxStderrSize < err.stream.length

section Streams

variable {size : ℕ}

theorem collect_eq (limit : ℕ) (cut : Chunked size) :
    collect limit ⟨[], false, 0⟩ cut.reads = cut.chunks.foldl (Capture.extend limit) ⟨[], false, 0⟩ :=
  collect_reads fun chunk hchunk => (cut.read chunk hchunk).1

theorem buf_collect_iff (limit : ℕ) (cut : Chunked size) :
    (collect limit ⟨[], false, 0⟩ cut.reads).buf = cut.stream.take limit ↔ cut.EndsAt limit := by
  have hkept := @kept_iff limit ⟨[], false, 0⟩ cut.chunks (Nat.zero_le limit) fun chunk h => (cut.read chunk h).1
  simp only [List.nil_append, Nat.sub_zero, Nat.zero_add] at hkept
  rw [collect_eq]
  exact hkept

theorem limited_collect_iff (limit : ℕ) (cut : Chunked size) :
    (collect limit ⟨[], false, 0⟩ cut.reads).limited = true ↔ limit < cut.stream.length := by
  have hlimited := @limited_iff limit ⟨[], false, 0⟩ cut.chunks (Nat.zero_le limit) fun chunk h => (cut.read chunk h).1
  simp only [Bool.false_eq_true, false_or, Nat.zero_add] at hlimited
  rw [collect_eq]
  exact hlimited

theorem stdout_iff (out : Chunked 4096) (err : Chunked 1024) :
    (spawnAndCollect out.reads err.reads).stdout = out.stream.take maxOutputSize ↔ out.EndsAt maxOutputSize :=
  buf_collect_iff maxOutputSize out

theorem stderr_iff (out : Chunked 4096) (err : Chunked 1024) :
    (spawnAndCollect out.reads err.reads).stderr = err.stream.take maxStderrSize ↔ err.EndsAt maxStderrSize :=
  buf_collect_iff maxStderrSize err

theorem outputTruncated_iff (out : Chunked 4096) (err : Chunked 1024) :
    (spawnAndCollect out.reads err.reads).outputTruncated = true ↔
      maxOutputSize < out.stream.length ∨ maxStderrSize < err.stream.length := by
  rw [spawnAndCollect, Bool.or_eq_true]
  exact or_congr (limited_collect_iff maxOutputSize out) (limited_collect_iff maxStderrSize err)

/-- **When the captured output is the start of each stream**: each is within its limit, or one of its chunks ends
there; the flag is always right. -/
theorem capture_iff (out : Chunked 4096) (err : Chunked 1024) :
    KeepsPrefixes out err ↔ out.EndsAt maxOutputSize ∧ err.EndsAt maxStderrSize := by
  constructor
  · intro h
    exact ⟨(stdout_iff out err).mp h.stdout, (stderr_iff out err).mp h.stderr⟩
  · rintro ⟨hout, herr⟩
    exact ⟨(stdout_iff out err).mpr hout, (stderr_iff out err).mpr herr, outputTruncated_iff out err⟩

def fullChunk : Bytes := List.replicate 4096 0x61

theorem length_fullChunk : fullChunk.length = 4096 := List.length_replicate

/-- One byte, and then full buffers. -/
def shifted : Chunked 4096 where
  chunks := [0x61] :: List.replicate 256 fullChunk
  read := by
    intro chunk hchunk
    rcases List.mem_cons.mp hchunk with rfl | hchunk
    · exact ⟨List.cons_ne_nil _ _, Nat.le_add_left 1 4095⟩
    · rw [List.eq_of_mem_replicate hchunk, length_fullChunk]
      exact ⟨List.ne_nil_of_length_pos (by rw [length_fullChunk]; omega), le_refl _⟩

theorem length_flatten_fullChunks (n : ℕ) : (List.replicate n fullChunk).flatten.length = n * 4096 := by
  induction n with
  | zero => rfl
  | succ n ih =>
    rw [List.replicate_succ, List.flatten_cons, List.length_append, ih, length_fullChunk]
    omega

theorem chunks_shifted : shifted.chunks = [0x61] :: List.replicate 256 fullChunk := rfl

theorem length_shifted : shifted.stream.length = 1 + 256 * 4096 := by
  rw [Chunked.stream, chunks_shifted, List.flatten_cons, List.length_append, length_flatten_fullChunks,
    List.length_singleton]

/-- The last chunk is dropped as a whole: the limit falls into it. -/
theorem capture_lost : ¬∀ (out : Chunked 4096) (err : Chunked 1024), KeepsPrefixes out err := by
  intro h
  rcases (stdout_iff shifted ⟨[], nofun⟩).mp (h shifted ⟨[], nofun⟩).stdout with hle | ⟨k, hk⟩
  · rw [length_shifted, maxOutputSize] at hle
    omega
  · rw [chunks_shifted, maxOutputSize] at hk
    cases k with
    | zero =>
      rw [List.take_zero, List.flatten_nil, List.length_nil] at hk
      omega
    | succ k =>
      rw [List.take_succ_cons, List.take_replicate, List.flatten_cons, List.length_append,
        length_flatten_fullChunks, List.length_singleton] at hk
      omega

end Streams

end VelocityMcp.OutputCapture
