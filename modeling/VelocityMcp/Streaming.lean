import VelocityMcp.Json
import VelocityMcp.Lib.Chunks
import VelocityMcp.Lib.Outcome

/-!
# Streaming — a large result in pieces (`chunk_result` of `streaming.rs`)

`chunk_result_iff`: when the pieces can be put together again.
-/

namespace VelocityMcp.Streaming

open Lib

/-! ## The code -/

/-- `StreamingChunk`; the index of a chunk fits into its `u64`. -/
structure StreamingChunk where
  chunkId : ℕ
  data : Value
  isFinal : Option Bool

def chunksOf {α : Type} (xs : List α) (chunkSize : ℕ) (toData : List α → Value) : List StreamingChunk :=
  (chunks chunkSize xs).mapIdx fun i chunk =>
    ⟨i, toData chunk, some (i = (xs.length + chunkSize - 1) / chunkSize - 1)⟩

/-- `chunk_result`; a chunk size of zero panics in `slice::chunks`. -/
def chunkResult (data : Value) (chunkSize : ℕ) : Outcome Empty (List StreamingChunk) :=
  match data with
  | .string s =>
    if chunkSize = 0 then .panic else .ok (chunksOf s.toList chunkSize fun chunk => .string (String.ofList chunk))
  | .array arr => if chunkSize = 0 then .panic else .ok (chunksOf arr chunkSize .array)
  | data => .ok [⟨0, data, some true⟩]

/-! ## The receiver -/

/-- These parts, put together, are the value. -/
def Joins (parts : List Value) : Value → Prop
  | .string s => ∃ ts : List String, parts = ts.map .string ∧ String.join ts = s
  | .array vs => ∃ tss : List (List Value), parts = tss.map .array ∧ tss.flatten = vs
  | data => parts = [data]

/-- The parts are the value; the ids count from zero; there is a chunk, and the last one is final, no other. -/
structure Reassembles (cs : List StreamingChunk) (data : Value) : Prop where
  joins : Joins (cs.map StreamingChunk.data) data
  ids : cs.map StreamingChunk.chunkId = List.range cs.length
  ne_nil : cs ≠ []
  isFinal : cs.map StreamingChunk.isFinal = (List.range cs.length).map fun i => some (decide (i + 1 = cs.length))

section Receiver

variable {α : Type} {xs : List α} {n : ℕ} (toData : List α → Value)

theorem length_chunksOf : (chunksOf xs n toData).length = (chunks n xs).length := List.length_mapIdx

theorem data_chunksOf : (chunksOf xs n toData).map StreamingChunk.data = (chunks n xs).map toData := by
  apply List.ext_getElem
  · rw [List.length_map, List.length_map, length_chunksOf]
  · intro i hi hi'
    simp [chunksOf]

theorem ids_chunksOf :
    (chunksOf xs n toData).map StreamingChunk.chunkId = List.range (chunksOf xs n toData).length := by
  apply List.ext_getElem
  · rw [List.length_map, List.length_range]
  · intro i hi hi'
    simp [chunksOf]

theorem isFinal_chunksOf (hn : 0 < n) (hxs : xs ≠ []) :
    (chunksOf xs n toData).map StreamingChunk.isFinal =
      (List.range (chunksOf xs n toData).length).map fun i =>
        some (decide (i + 1 = (chunksOf xs n toData).length)) := by
  have hpos : 0 < (chunks n xs).length := by
    apply List.length_pos_of_ne_nil
    rwa [ne_eq, chunks_eq_nil_iff hn]
  apply List.ext_getElem
  · rw [List.length_map, List.length_map, List.length_range]
  · intro i hi hi'
    have hlast : i = (xs.length + n - 1) / n - 1 ↔ i + 1 = (chunks n xs).length := by
      rw [length_chunks hn] at hpos ⊢
      omega
    simp only [List.getElem_map, List.getElem_range, chunksOf, List.getElem_mapIdx, List.length_mapIdx]
    exact congrArg some (decide_eq_decide.mpr hlast)

theorem chunksOf_eq_nil_iff (hn : 0 < n) : chunksOf xs n toData = [] ↔ xs = [] := by
  rw [← List.length_eq_zero_iff, length_chunksOf, List.length_eq_zero_iff, chunks_eq_nil_iff hn]

theorem reassembles_chunksOf (hn : 0 < n) (hxs : xs ≠ []) {data : Value}
    (hjoins : Joins ((chunks n xs).map toData) data) : Reassembles (chunksOf xs n toData) data where
  joins := by rwa [data_chunksOf]
  ids := ids_chunksOf toData
  ne_nil := mt (chunksOf_eq_nil_iff toData hn).mp hxs
  isFinal := isFinal_chunksOf toData hn hxs

theorem join_chunks (hn : 0 < n) (s : String) : String.join ((chunks n s.toList).map String.ofList) = s := by
  apply String.toList_injective
  rw [String.toList_join, List.flatMap_map]
  simp only [String.toList_ofList]
  rw [List.flatMap_id', flatten_chunks hn]

end Receiver

/-- **When a chunked result can be put together**: a string or an array must not be empty, for then it has no chunk. -/
theorem chunk_result_iff (data : Value) {chunkSize : ℕ} (h : 1 ≤ chunkSize) :
    (∃ cs, chunkResult data chunkSize = .ok cs ∧ Reassembles cs data) ↔ data ≠ .string "" ∧ data ≠ .array [] := by
  have hzero : ¬chunkSize = 0 := Nat.ne_of_gt h
  constructor
  · rintro ⟨cs, hrun, hcs⟩
    refine ⟨?_, ?_⟩
    · rintro rfl
      rw [chunkResult, if_neg hzero] at hrun
      exact hcs.ne_nil (Outcome.ok.inj hrun).symm
    · rintro rfl
      rw [chunkResult, if_neg hzero] at hrun
      exact hcs.ne_nil (Outcome.ok.inj hrun).symm
  · rintro ⟨hstring, harray⟩
    have hsingle : Joins [data] data → Reassembles [⟨0, data, some true⟩] data := fun hjoins =>
      ⟨hjoins, rfl, List.cons_ne_nil _ _, rfl⟩
    cases data with
    | null => exact ⟨_, rfl, hsingle rfl⟩
    | bool b => exact ⟨_, rfl, hsingle rfl⟩
    | number k => exact ⟨_, rfl, hsingle rfl⟩
    | object fields => exact ⟨_, rfl, hsingle rfl⟩
    | string s =>
      refine ⟨_, if_neg hzero, reassembles_chunksOf _ h (fun hnil => hstring ?_) ⟨_, ?_, join_chunks h s⟩⟩
      · rw [String.toList_eq_nil_iff.mp hnil]
      · rw [List.map_map]
        rfl
    | array items =>
      refine ⟨_, if_neg hzero, reassembles_chunksOf _ h (fun hnil => harray (congrArg _ hnil)) ⟨_, rfl, ?_⟩⟩
      exact flatten_chunks h items

/-- Chunks of two characters. -/
theorem chunk_result_hello :
    ∃ cs, chunkResult (.string "hello") 2 = .ok cs ∧ Reassembles cs (.string "hello") :=
  (chunk_result_iff (.string "hello") (show 1 ≤ 2 by decide)).mpr
    ⟨fun h => absurd (Value.string.inj h) (by decide), fun h => nomatch h⟩

/-- The empty string has no chunks. -/
theorem chunk_result_empty :
    chunkResult (.string "") 10 = .ok [] ∧
      ¬∃ cs, chunkResult (.string "") 10 = .ok cs ∧ Reassembles cs (.string "") := by
  refine ⟨rfl, fun ⟨cs, hrun, hcs⟩ => ?_⟩
  exact hcs.ne_nil (Outcome.ok.inj hrun).symm

end VelocityMcp.Streaming
