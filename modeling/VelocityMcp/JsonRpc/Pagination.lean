import VelocityMcp.JsonRpc.Dispatch
import VelocityMcp.Lib.Decimal
import VelocityMcp.Lib.Fuel

/-!
# JsonRpc.Pagination — the paged listings, from the first page to the last

`pages_enumerate`: a client that follows the cursors gets every item once; every other cursor gets a page as well.
-/

namespace VelocityMcp.JsonRpc

open Lib

/-! ## One page -/

/-- `&items[start..end]`. -/
def slice {α : Type} (items : List α) (start stop : ℕ) : Outcome Empty (List α) :=
  if start ≤ stop ∧ stop ≤ items.length then .ok ((items.take stop).drop start) else .panic

/-- The code that `handle_resources_list`, `handle_resource_templates_list`, `handle_prompts_list`, the tools/list arm
of `dispatch` and `tools_list_page_response` each have. -/
def page (key : String) (items : List Value) (cursor : Option String) : Outcome Empty Value := do
  let start := pageStart cursor
  let last := min (min (start + defaultPageSize) usizeMax) items.length
  let items' ← if start < items.length then slice items start last else .ok []
  .ok (.object ((if last < items.length then [("nextCursor", .string (toString last))] else []) ++
    [(key, .array items')]))

/-- At most a hundred items in a row, and the cursor of the next one where there are more. -/
structure IsPage (key : String) (items : List Value) (start : ℕ) (result : Value) : Prop where
  page : result.get key = some (.array ((items.drop start).take defaultPageSize))
  next : result.get "nextCursor" = if start + defaultPageSize < items.length then
    some (.string (toString (start + defaultPageSize))) else none

section Page

variable {key : String} {items : List Value} {cursor : Option String}

/-- **No index is out of range.** -/
theorem page_eq (hvec : items.length ≤ usizeMax) : page key items cursor = .ok (listPage key items cursor) := by
  rw [page, listPage]
  dsimp only
  by_cases hstart : pageStart cursor < items.length
  · have hle : pageStart cursor ≤ min (min (pageStart cursor + defaultPageSize) usizeMax) items.length := by omega
    rw [if_pos hstart, if_pos hstart, slice, if_pos ⟨hle, Nat.min_le_right _ _⟩]
    rfl
  · rw [if_neg hstart, if_neg hstart]
    rfl

theorem isPage_listPage (hvec : items.length ≤ usizeMax) (hkey : key ≠ "nextCursor") :
    IsPage key items (pageStart cursor) (listPage key items cursor) := by
  have hsize : defaultPageSize = 100 := rfl
  generalize hstart : pageStart cursor = start
  have hdrop : (if start < items.length then
      (items.take (min (min (start + defaultPageSize) usizeMax) items.length)).drop start else []) =
        (items.drop start).take defaultPageSize := by
    split_ifs with hlt
    · rw [List.drop_take]
      by_cases hmore : start + defaultPageSize < items.length
      · rw [show min (min (start + defaultPageSize) usizeMax) items.length - start = defaultPageSize by omega]
      · rw [show min (min (start + defaultPageSize) usizeMax) items.length - start = items.length - start by omega,
          List.take_of_length_le (by rw [List.length_drop]), List.take_of_length_le (by rw [List.length_drop]; omega)]
    · rw [List.drop_of_length_le (Nat.not_lt.mp hlt), List.take_nil]
  have hlast : min (min (start + defaultPageSize) usizeMax) items.length < items.length ↔
      start + defaultPageSize < items.length := by omega
  rw [listPage, hstart, hdrop]
  by_cases hmore : start + defaultPageSize < items.length
  · have hcut : min (min (start + defaultPageSize) usizeMax) items.length = start + defaultPageSize := by omega
    rw [if_pos (hlast.mpr hmore), hcut]
    refine ⟨?_, ?_⟩
    · simp [Value.get, getKey_cons, hkey.symm]
    · rw [if_pos hmore]
      simp [Value.get, getKey_cons]
  · rw [if_neg (mt hlast.mp hmore)]
    refine ⟨?_, ?_⟩
    · simp [Value.get, getKey_cons]
    · rw [if_neg hmore]
      simp [Value.get, getKey_cons, hkey]

theorem le_ofDigitChars (cs : List Char) (n : ℕ) : n ≤ Nat.ofDigitChars 10 cs n := by
  induction cs generalizing n with
  | nil => exact Nat.ofDigitChars_nil.ge
  | cons c cs ih =>
    rw [Nat.ofDigitChars_cons]
    exact le_trans (by omega) (ih _)

theorem parseDigits_of_le {cs : List Char} (hdigits : ∀ c ∈ cs, c.isDigit = true) {n : ℕ}
    (h : Nat.ofDigitChars 10 cs n ≤ usizeMax) :
    cs.foldlM (fun n c => if c.isDigit ∧ 10 * n + (c.toNat - '0'.toNat) ≤ usizeMax then
      some (10 * n + (c.toNat - '0'.toNat)) else none) n = some (Nat.ofDigitChars 10 cs n) := by
  induction cs generalizing n with
  | nil => rw [List.foldlM_nil, Nat.ofDigitChars_nil]; rfl
  | cons c cs ih =>
    rw [Nat.ofDigitChars_cons] at h ⊢
    have hstep := le_trans (le_ofDigitChars cs _) h
    rw [List.foldlM_cons, if_pos ⟨hdigits c List.mem_cons_self, hstep⟩]
    exact ih (fun d hd => hdigits d (List.mem_cons_of_mem _ hd)) h

theorem parseUsize_toString {n : ℕ} (h : n ≤ usizeMax) : parseUsize (toString n) = some n := by
  have hdigits : ∀ c ∈ Nat.toDigits 10 n, c.isDigit = true := fun c hc =>
    Nat.isDigit_of_mem_toDigits (by decide) (by decide) hc
  have hvalue : Nat.ofDigitChars 10 (Nat.toDigits 10 n) 0 = n := Nat.ofDigitChars_toDigits (by decide) (by decide)
  have hparse := parseDigits_of_le (n := 0) hdigits (by rwa [hvalue])
  rw [hvalue] at hparse
  obtain ⟨c, cs, hcs⟩ := List.exists_cons_of_ne_nil (@Nat.toDigits_ne_nil n 10)
  have hplus : c ≠ '+' := by
    rintro rfl
    exact absurd (hdigits '+' (hcs ▸ List.mem_cons_self)) (by decide)
  rw [parseUsize, toList_toString_nat, hcs]
  rw [hcs] at hparse
  split
  · contradiction
  · rename_i heq
    exact absurd (List.cons.inj heq).1 hplus
  · rename_i heq
    exact absurd (List.cons.inj heq).1 hplus
  · exact hparse

end Page

/-! ## Every page -/

/-- The four listings that are cut into pages. -/
inductive Listing where
  | tools
  | resources
  | templates
  | prompts
deriving DecidableEq

def Listing.method : Listing → String
  | tools => "tools/list"
  | resources => "resources/list"
  | templates => "resources/templates/list"
  | prompts => "prompts/list"

/-- The member of the result that holds a listing's items. -/
def Listing.key : Listing → String
  | tools => "tools"
  | resources => "resources"
  | templates => "resourceTemplates"
  | prompts => "prompts"

/-- All items of a listing, before they are cut into pages. -/
def Listing.items (srv : Server) : Listing → List Value
  | tools => srv.tools.map Tool.toValue
  | resources => srv.resources.map Resource.toValue
  | templates => srv.templates.map ResourceTemplate.toValue
  | prompts => srv.prompts.map Prompt.toValue

/-- A request for one page, from the cursor on. -/
def Listing.request (l : Listing) (id : Value) (cursor : Option String) : Value :=
  .object [("id", id), ("jsonrpc", .string "2.0"), ("method", .string l.method),
    ("params", .object (optionalField "cursor" cursor))]

theorem dispatch_request (ctx : Context) (l : Listing) (id : Value) (cursor : Option String) :
    dispatch ctx (l.request id cursor) = some (rpcResult id (listPage l.key (l.items ctx.srv) cursor)) := by
  have hcursor : (((l.request id cursor).index "params").index "cursor").asStr = cursor := by
    cases cursor <;> rfl
  calc dispatch ctx (l.request id cursor)
      = some (rpcResult id (listPage l.key (l.items ctx.srv)
          (((l.request id cursor).index "params").index "cursor").asStr)) := by cases l <;> rfl
    _ = _ := by rw [hcursor]

/-- What a client reads in a response: the items, and the cursor of the next page. -/
def readPage (key : String) (response : Value) : Option (List Value × Option String) :=
  match (response.index "result").index key with
  | .array items => some (items, ((response.index "result").index "nextCursor").asStr)
  | _ => none

/-- A client that follows `nextCursor` until it is absent, for at most so many pages. -/
def follow (ctx : Context) (l : Listing) (id : Value) : ℕ → Option String → Run (List Value) (List Value)
  | 0, _ => .outOfFuel []
  | n + 1, cursor =>
    match (dispatch ctx (l.request id cursor)).bind (readPage l.key) with
    | none => .undefined
    | some (items, none) => .done items
    | some (items, some next) => (follow ctx l id n (some next)).map (items ++ ·)

/-- The length of a `Vec` is a `usize`. -/
def Listing.Fits (srv : Server) (l : Listing) : Prop := (l.items srv).length ≤ usizeMax

section Follow

variable {ctx : Context} {l : Listing} {id : Value}

theorem readPage_dispatch (hfits : l.Fits ctx.srv) (cursor : Option String) :
    (dispatch ctx (l.request id cursor)).bind (readPage l.key) =
      some ((((l.items ctx.srv).drop (pageStart cursor)).take defaultPageSize),
        if pageStart cursor + defaultPageSize < (l.items ctx.srv).length then
          some (toString (pageStart cursor + defaultPageSize)) else none) := by
  have hpage := @isPage_listPage l.key _ cursor hfits (by cases l <;> decide)
  have hresult (result : Value) : (rpcResult id result).index "result" = result := rfl
  rw [dispatch_request, Option.bind_some, readPage, hresult, Value.index, hpage.page, Value.index, hpage.next]
  dsimp only [Option.getD_some]
  split_ifs <;> rfl

theorem follow_eq (hfits : l.Fits ctx.srv) {n : ℕ} {cursor : Option String}
    (hn : (l.items ctx.srv).length < pageStart cursor + defaultPageSize * (n + 1)) :
    follow ctx l id (n + 1) cursor = .done ((l.items ctx.srv).drop (pageStart cursor)) := by
  have hsize : defaultPageSize = 100 := rfl
  rw [hsize] at hn
  induction n generalizing cursor with
  | zero =>
    rw [follow, readPage_dispatch hfits, if_neg (by omega)]
    exact congrArg Run.done (List.take_of_length_le (by rw [List.length_drop]; omega))
  | succ n ih =>
    rw [follow, readPage_dispatch hfits]
    split_ifs with hmore
    · have hle : (l.items ctx.srv).length ≤ usizeMax := hfits
      have hnext : pageStart (some (toString (pageStart cursor + defaultPageSize))) =
          pageStart cursor + defaultPageSize := by
        rw [pageStart, parseUsize_toString (by omega), Option.getD_some]
      dsimp only
      rw [ih (by rw [hnext, hsize]; omega), hnext, ← List.drop_drop, Run.map, List.take_append_drop]
    · exact congrArg Run.done (List.take_of_length_le (by rw [List.length_drop]; omega))

theorem toolsListPageResponse_eq (ctx : Context) (id : Value) (cursor : Option String) :
    dispatch ctx (Listing.tools.request id cursor) = some (toolsListPageResponse ctx.srv.tools id cursor) :=
  dispatch_request ctx .tools id cursor

/-- **A listing is enumerated, every item once**, page after page; and every cursor gets a page, from each copy of the
code. -/
theorem pages_enumerate (hfits : l.Fits ctx.srv) (id : Value) :
    follow ctx l id ((l.items ctx.srv).length / defaultPageSize + 1) none = .done (l.items ctx.srv) ∧
      ∀ cursor, ∃ result, page l.key (l.items ctx.srv) cursor = .ok result ∧
        dispatch ctx (l.request id cursor) = some (rpcResult id result) ∧
        (l = .tools → toolsListPageResponse ctx.srv.tools id cursor = rpcResult id result) ∧
        ∃ start, IsPage l.key (l.items ctx.srv) start result := by
  refine ⟨?_, fun cursor => ⟨_, page_eq hfits, dispatch_request ctx l id cursor, ?_, pageStart cursor, ?_⟩⟩
  · have hsize : defaultPageSize = 100 := rfl
    have hstart : pageStart none = 0 := rfl
    rw [follow_eq hfits (by rw [hsize]; omega), hstart, List.drop_zero]
  · rintro rfl
    exact Option.some.inj ((toolsListPageResponse_eq ctx id cursor).symm.trans (dispatch_request ctx .tools id cursor))
  · exact isPage_listPage hfits (by cases l <;> decide)

def promptsContext (n : ℕ) : Context :=
  { bareContext with srv := { NdaNative.bareServer with prompts := List.replicate n ⟨"p", "", []⟩ } }

/-- 150 prompts, on two pages. -/
theorem pages_enumerate_prompts :
    follow (promptsContext 150) .prompts .null 2 none = .done (Listing.prompts.items (promptsContext 150).srv) := by
  have hlength : (Listing.prompts.items (promptsContext 150).srv).length = 150 := by
    simp [Listing.items, promptsContext]
  have hfits : Listing.prompts.Fits (promptsContext 150).srv := by
    rw [Listing.Fits, hlength]
    decide
  have hfollow := (pages_enumerate hfits .null).1
  rwa [hlength] at hfollow

end Follow

end VelocityMcp.JsonRpc
