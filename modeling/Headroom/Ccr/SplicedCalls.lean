import Mathlib.Data.List.Basic
import Headroom.Foundation.Conversation
import Headroom.LiveZone.ToolExclusion

/-!
# Retrievals answered in place

A turn that calls the retrieval tool next to a tool of the client cannot be continued by the proxy. What was retrieved
takes the place of the call as text. Which calls are retrievals is told by their names; which result belongs to a call is
told by its id.

## Main statements

* `splices_iff` : when exactly the retrievals are answered, each with its own result.
-/

open Foundation Headroom.LiveZone

namespace Headroom.Ccr

/-- The shapes of a response. -/
inductive Provider where
  | anthropic
  | openai
  | openaiResponses
  deriving DecidableEq

/-! ### Calls -/

structure CcrToolCall where
  toolCallId : String
  hashKey : String
  query : Option String

structure CcrToolResult where
  toolCallId : String
  content : String
  success : Bool
  itemsRetrieved : ℕ

def MAX_CCR_QUERY_LEN : ℕ := 2000

/-- The message of a chat response. -/
def chatMessage (response : Json) : Option Json :=
  ((response.getArr? "choices").bind List.head?).bind (Json.get? "message")

def extractToolCalls (provider : Provider) (response : Json) : List Json :=
  match provider with
  | .anthropic => ((response.getArr? "content").getD []).filter fun b => b.getStr? "type" == some "tool_use"
  | .openai => ((chatMessage response).bind (Json.getArr? "tool_calls")).getD []
  | .openaiResponses => ((response.getArr? "output").getD []).filter fun item =>
      item.getStr? "type" == some "function_call"

variable (parse : String → Option Json)

/-- The name of the tool, and what it is called with. -/
def nameAndInput (provider : Provider) (call : Json) : Option (String × Json) :=
  let read (holder : Json) := ((holder.getStr? "arguments").bind parse).getD (.obj [])
  match provider with
  | .anthropic => (call.getStr? "name").map fun name => (name, (call.get? "input").getD (.obj []))
  | .openai => (call.get? "function").bind fun function => (function.getStr? "name").map fun name =>
      (name, read function)
  | .openaiResponses => (call.getStr? "name").map fun name => (name, read call)

/-- The input of a retrieval. -/
def retrievalInput? (provider : Provider) (call : Json) : Option Json :=
  ((nameAndInput parse provider call).filter fun p => p.1 = CCR_TOOL_NAME).map Prod.snd

def isHexDigit (c : Char) : Bool :=
  c.isDigit || ('a' ≤ c && c ≤ 'f') || ('A' ≤ c && c ≤ 'F')

/-- The hash of a retrieval, if it looks like one. -/
def parseToolCall (provider : Provider) (call : Json) : Option String :=
  ((retrievalInput? parse provider call).bind (Json.getStr? "hash")).filter fun hash =>
    (Text.byteLength hash = 12 || Text.byteLength hash = 24) && hash.toList.all isHexDigit

/-- The hash of a retrieval as it was sent. -/
def rawCcrHash (provider : Provider) (call : Json) : Option String :=
  (retrievalInput? parse provider call).map fun input => (input.getStr? "hash").getD ""

def parseToolCallQuery (provider : Provider) (call : Json) : Option String :=
  (((retrievalInput? parse provider call).bind (Json.getStr? "query")).map fun q => Text.trim q.toList).bind fun q =>
    if q = [] ∨ MAX_CCR_QUERY_LEN < q.length then none else some (String.ofList q)

/-- The id that a call is answered by. -/
def callId (provider : Provider) (call : Json) : String :=
  match provider with
  | .openaiResponses => ((call.getStr? "call_id").or (call.getStr? "id")).getD ""
  | .anthropic | .openai => (call.getStr? "id").getD ""

def ccrHash (provider : Provider) (call : Json) : Option String :=
  (parseToolCall parse provider call).or (rawCcrHash parse provider call)

/-- The retrievals of a response, and its other calls. -/
def parseCcrToolCalls (response : Json) (provider : Provider) : List CcrToolCall × List Json :=
  let calls := extractToolCalls provider response
  (calls.filterMap fun call => (ccrHash parse provider call).map fun hash =>
      ⟨callId provider call, hash, if hash = "" then parseToolCallQuery parse provider call else none⟩,
    calls.filter fun call => (ccrHash parse provider call).isNone)

/-! ### The splice -/

def resultFor (results : List CcrToolResult) (id : String) : Option CcrToolResult :=
  results.find? fun r => r.toolCallId = id

def retrievedText (content : String) : String :=
  "<retrieved_context>\n" ++ content ++ "\n</retrieved_context>"

/-- A block that was there, or the content of a result. -/
inductive Piece where
  | kept (block : Json)
  | spliced (content : String)

namespace Piece

def isToolUse : Piece → Bool
  | kept block => block.getStr? "type" == some "tool_use"
  | spliced _ => false

def isSpliced : Piece → Bool
  | kept _ => false
  | spliced _ => true

def kept? : Piece → Option Json
  | kept block => some block
  | spliced _ => none

def content? : Piece → Option String
  | kept _ => none
  | spliced content => some content

/-- A piece as a block of a message, and as an item of a Responses turn. -/
def toBlock : Piece → Json
  | kept block => block
  | spliced content => .obj [("type", .str "text"), ("text", .str (retrievedText content))]

def toItem : Piece → Json
  | kept item => item
  | spliced content => .obj [("type", .str "message"), ("role", .str "assistant"),
      ("content", .arr [.obj [("type", .str "output_text"), ("text", .str (retrievedText content))]])]

end Piece

/-- A call of some type with a result is replaced. -/
def spliceBlock (provider : Provider) (type : String) (results : List CcrToolResult) (block : Json) : Piece :=
  if block.getStr? "type" = some type then
    match resultFor results (callId provider block) with
    | none => .kept block
    | some result => .spliced result.content
  else .kept block

/-- What is spliced in behind the first call goes before it. -/
def leadSplicedText (pieces : List Piece) : List Piece :=
  let before := pieces.takeWhile (!·.isToolUse)
  let behind := pieces.dropWhile (!·.isToolUse)
  before ++ behind.filter Piece.isSpliced ++ behind.filter (!·.isSpliced)

/-- The calls with a result, by their ids. -/
def chatHits (results : List CcrToolResult) (calls : List Json) : List (String × String) :=
  calls.filterMap fun call => (call.getStr? "id").bind fun id =>
    (resultFor results id).map fun r => (id, r.content)

/-- The calls that stay. -/
def chatKept (hits : List (String × String)) (calls : List Json) : List Json :=
  calls.filter fun call => !hits.any fun hit => hit.1 = callId .openai call

/-- A content that says more. -/
def moreContent (content : Option Json) (joined : String) : Json :=
  match content with
  | some (.str prev) => .str (if prev = "" then joined else prev ++ "\n" ++ joined)
  | some (.arr blocks) => .arr (blocks ++ [.obj [("type", .str "text"), ("text", .str joined)]])
  | _ => .str joined

def joinedTexts (contents : List String) : String := "\n".intercalate (contents.map retrievedText)

def pieces (results : List CcrToolResult) (provider : Provider) (response : Json) : List Piece :=
  match provider with
  | .anthropic => leadSplicedText (((response.getArr? "content").getD []).map (spliceBlock .anthropic "tool_use" results))
  | .openaiResponses => ((response.getArr? "output").getD []).map (spliceBlock .openaiResponses "function_call" results)
  | .openai => []

/-- A chat response with another message. -/
def withMessage (response message : Json) : Json :=
  match response.getArr? "choices" with
  | some (choice :: choices) => response.insert "choices" (.arr (choice.insert "message" message :: choices))
  | _ => response

def spliceCcrResultsAsText (results : List CcrToolResult) (provider : Provider) (response : Json) : Json × ℕ :=
  match provider with
  | .anthropic =>
    match response.getArr? "content" with
    | none => (response, 0)
    | some _ =>
      let out := pieces results .anthropic response
      (response.insert "content" (.arr (out.map Piece.toBlock)), out.countP Piece.isSpliced)
  | .openaiResponses =>
    match response.getArr? "output" with
    | none => (response, 0)
    | some _ =>
      let out := pieces results .openaiResponses response
      (response.insert "output" (.arr (out.map Piece.toItem)), out.countP Piece.isSpliced)
  | .openai =>
    let calls := extractToolCalls .openai response
    let hits := chatHits results calls
    match hits, chatMessage response with
    | [], _ | _, none => (response, 0)
    | hits, some message =>
      let message := message.insert "tool_calls" (.arr (chatKept hits calls))
      (withMessage response
        (message.insert "content" (moreContent (message.get? "content") (joinedTexts (hits.map Prod.snd)))), hits.length)

/-! ### What the splice is for -/

def isRetrievalCall (provider : Provider) (call : Json) : Bool := (ccrHash parse provider call).isSome

/-- The blocks, items or calls of a response. -/
def blocksOf (provider : Provider) (response : Json) : List Json :=
  match provider with
  | .anthropic => (response.getArr? "content").getD []
  | .openai => extractToolCalls .openai response
  | .openaiResponses => (response.getArr? "output").getD []

/-- Whether a block is a call. -/
def isCall (provider : Provider) (block : Json) : Bool :=
  match provider with
  | .anthropic => block.getStr? "type" == some "tool_use"
  | .openai => true
  | .openaiResponses => block.getStr? "type" == some "function_call"

/-- The contents that are spliced in, in order. -/
def answered (results : List CcrToolResult) (provider : Provider) (response : Json) : List String :=
  match provider with
  | .openai => (chatHits results (blocksOf .openai response)).map Prod.snd
  | .anthropic | .openaiResponses => (pieces results provider response).filterMap Piece.content?

/-- The blocks, items or calls that stay, in order. -/
def unspliced (results : List CcrToolResult) (provider : Provider) (response : Json) : List Json :=
  match provider with
  | .openai => chatKept (chatHits results (blocksOf .openai response)) (blocksOf .openai response)
  | .anthropic | .openaiResponses => (pieces results provider response).filterMap Piece.kept?

/-- What is written into the response: the pieces, or the calls that stay and the contents. -/
def Written (results : List CcrToolResult) (provider : Provider) (response : Json) : Prop :=
  match provider with
  | .anthropic => blocksOf .anthropic (spliceCcrResultsAsText results .anthropic response).1 =
      (pieces results .anthropic response).map Piece.toBlock
  | .openaiResponses => blocksOf .openaiResponses (spliceCcrResultsAsText results .openaiResponses response).1 =
      (pieces results .openaiResponses response).map Piece.toItem
  | .openai => blocksOf .openai (spliceCcrResultsAsText results .openai response).1 =
        unspliced results .openai response ∧
      (answered results .openai response ≠ [] → ∃ message, chatMessage response = some message ∧
        (chatMessage (spliceCcrResultsAsText results .openai response).1).bind (Json.get? "content") =
          some (moreContent (message.get? "content") (joinedTexts (answered results .openai response))))

/-- Each retrieval is answered once, in order, and all else stays. -/
structure Splices (results : List CcrToolResult) (provider : Provider) (response : Json) : Prop where
  written : Written results provider response
  each : answered results provider response = results.map CcrToolResult.content
  others : unspliced results provider response = (blocksOf provider response).filter fun b =>
    !(isCall provider b && isRetrievalCall parse provider b)
  count : (spliceCcrResultsAsText results provider response).2 = (parseCcrToolCalls parse response provider).1.length
  lead : provider = .anthropic →
    (pieces results provider response).Pairwise fun a b => a.isToolUse = true → b.isSpliced = false

/-- Calls of the client have ids of their own, results of the same call say the same, and chat retrievals have ids. -/
structure Apart (results : List CcrToolResult) (provider : Provider) (response : Json) : Prop where
  clients : ∀ c ∈ extractToolCalls provider response, isRetrievalCall parse provider c = false →
    ∀ r ∈ extractToolCalls provider response, isRetrievalCall parse provider r = true →
      callId provider c ≠ callId provider r
  contents : ∀ r ∈ results, ∀ r' ∈ results, r.toolCallId = r'.toolCallId → r.content = r'.content
  named : provider = .openai → ∀ r ∈ extractToolCalls provider response, isRetrievalCall parse provider r = true →
    (r.getStr? "id").isSome

/-! ### Results by ids -/

section

variable {results : List CcrToolResult} {blocks : List Json} {call retr : Json → Bool} {id : Json → String}

/-- Whether a block is a call with a result. -/
def isHit (results : List CcrToolResult) (call : Json → Bool) (id : Json → String) (b : Json) : Bool :=
  call b && (resultFor results (id b)).isSome

theorem isSome_resultFor {key : String} :
    (resultFor results key).isSome = true ↔ key ∈ results.map CcrToolResult.toolCallId := by
  rw [resultFor, List.find?_isSome, List.mem_map]
  exact exists_congr fun r => and_congr_right fun _ => decide_eq_true_iff

/-- The content of the first result with the id of another. -/
def firstContent (results : List CcrToolResult) (r : CcrToolResult) : String :=
  ((resultFor results r.toolCallId).map CcrToolResult.content).getD ""

theorem resultFor_toolCallId {r : CcrToolResult} (h : r ∈ results) :
    ∃ first ∈ results, resultFor results r.toolCallId = some first ∧ first.toolCallId = r.toolCallId := by
  obtain ⟨first, hfirst⟩ := Option.isSome_iff_exists.mp (isSome_resultFor.mpr (List.mem_map_of_mem h))
  have hid : decide (first.toolCallId = r.toolCallId) = true :=
    @List.find?_some _ (fun r' : CcrToolResult => decide (r'.toolCallId = r.toolCallId)) first results hfirst
  exact ⟨first, List.mem_of_find?_eq_some hfirst, hfirst, of_decide_eq_true hid⟩

theorem firstContent_eq_iff : (∀ r ∈ results, firstContent results r = r.content) ↔
    ∀ r ∈ results, ∀ r' ∈ results, r.toolCallId = r'.toolCallId → r.content = r'.content := by
  constructor
  · intro h r hr r' hr' heq
    rw [← h r hr, ← h r' hr', firstContent, firstContent, heq]
  · intro h r hr
    obtain ⟨first, hfirst, heq, hid⟩ := resultFor_toolCallId hr
    rw [firstContent, heq]
    exact h first hfirst r hr hid

/-- Where the retrievals are the calls with a result, each is answered by its own if and only if results of one id say
the same. -/
theorem texts_eq_iff (hids : results.map CcrToolResult.toolCallId = (blocks.filter retr).map id)
    (hhit : ∀ b ∈ blocks, isHit results call id b = retr b) :
    (blocks.filterMap fun b => if call b then (resultFor results (id b)).map CcrToolResult.content else none) =
        results.map CcrToolResult.content ↔
      ∀ r ∈ results, ∀ r' ∈ results, r.toolCallId = r'.toolCallId → r.content = r'.content := by
  have htexts : (blocks.filterMap fun b =>
      if call b then (resultFor results (id b)).map CcrToolResult.content else none) =
        ((blocks.filter retr).map id).filterMap fun key => (resultFor results key).map CcrToolResult.content := by
    rw [List.filterMap_map, List.filterMap_filter]
    refine List.filterMap_congr fun b hb => ?_
    rw [← hhit b hb, isHit]
    cases call b <;> cases hresult : resultFor results (id b) <;> simp [hresult]
  have hown : results.filterMap (fun r => (resultFor results r.toolCallId).map CcrToolResult.content) =
      results.map (firstContent results) := by
    rw [← List.filterMap_eq_map]
    refine List.filterMap_congr fun r hr => ?_
    obtain ⟨first, -, heq, -⟩ := resultFor_toolCallId hr
    rw [Function.comp, firstContent, heq]
    rfl
  rw [htexts, ← hids, List.filterMap_map]
  show results.filterMap (fun r => (resultFor results r.toolCallId).map CcrToolResult.content) = _ ↔ _
  rw [hown, List.map_inj_left, firstContent_eq_iff]

/-- The calls with a result are the retrievals where no other call has the id of one. -/
theorem isHit_eq_iff (hids : results.map CcrToolResult.toolCallId = (blocks.filter retr).map id)
    (hcall : ∀ b ∈ blocks, retr b = true → call b = true) :
    (∀ b ∈ blocks, isHit results call id b = retr b) ↔
      ∀ c ∈ blocks, call c = true → retr c = false → ∀ r ∈ blocks, retr r = true → id c ≠ id r := by
  have hresult (b : Json) : (resultFor results (id b)).isSome = true ↔ ∃ r ∈ blocks, retr r = true ∧ id r = id b := by
    rw [isSome_resultFor, hids, List.mem_map]
    simp only [List.mem_filter, and_assoc]
  constructor
  · intro h c hc hcallc hretr r hr hretrr heq
    have hhit := h c hc
    rw [isHit, hcallc, (hresult c).mpr ⟨r, hr, hretrr, heq.symm⟩, hretr] at hhit
    exact absurd hhit (by decide)
  · intro h b hb
    rw [Bool.eq_iff_iff, isHit, Bool.and_eq_true_iff, hresult]
    constructor
    · rintro ⟨hcallb, r, hr, hretr, heq⟩
      refine Bool.eq_true_of_not_eq_false fun hnot => ?_
      exact h b hb hcallb hnot r hr hretr heq.symm
    · intro hretr
      exact ⟨hcall b hb hretr, b, hb, hretr, rfl⟩

theorem filter_not_eq_iff {p q : Json → Bool} :
    (blocks.filter (!p ·)) = blocks.filter (!q ·) ↔ ∀ b ∈ blocks, p b = q b := by
  constructor
  · intro h b hb
    have hmem : b ∈ blocks.filter (!p ·) ↔ b ∈ blocks.filter (!q ·) := by rw [h]
    simp only [List.mem_filter, hb, true_and, Bool.not_eq_true'] at hmem
    cases hp : p b <;> cases hq : q b <;> simp_all
  · intro h
    exact List.filter_congr fun b hb => by rw [h b hb]

end

/-! ### Pieces -/

section

variable {results : List CcrToolResult} {blocks : List Json} {provider : Provider} {type : String}

theorem spliceBlock_eq (b : Json) : spliceBlock provider type results b =
    match (if b.getStr? "type" == some type then resultFor results (callId provider b) else none) with
    | none => .kept b
    | some r => .spliced r.content := by
  rw [spliceBlock]
  by_cases htype : b.getStr? "type" = some type <;> simp [htype]

theorem content?_spliceBlock (blocks : List Json) :
    (blocks.map (spliceBlock provider type results)).filterMap Piece.content? = blocks.filterMap fun b =>
      if b.getStr? "type" == some type then (resultFor results (callId provider b)).map CcrToolResult.content
      else none := by
  rw [List.filterMap_map]
  refine List.filterMap_congr fun b _ => ?_
  rw [Function.comp, spliceBlock_eq]
  split_ifs
  · cases resultFor results (callId provider b) <;> rfl
  · rfl

theorem kept?_spliceBlock (blocks : List Json) :
    (blocks.map (spliceBlock provider type results)).filterMap Piece.kept? = blocks.filter fun b =>
      !isHit results (fun b => b.getStr? "type" == some type) (callId provider) b := by
  rw [List.filterMap_map, ← List.filterMap_eq_filter]
  refine List.filterMap_congr fun b _ => ?_
  rw [Function.comp, spliceBlock_eq, Option.guard]
  cases htype : b.getStr? "type" == some type
  · simp [isHit, htype, Piece.kept?]
  · cases hresult : resultFor results (callId provider b) <;> simp [isHit, htype, hresult, Piece.kept?]

theorem filterMap_leadSplicedText {α : Type} (f : Piece → Option α) (ps : List Piece)
    (hf : (∀ p, p.isSpliced = true → f p = none) ∨ ∀ p, p.isSpliced = false → f p = none) :
    (leadSplicedText ps).filterMap f = ps.filterMap f := by
  have hsplit (l : List Piece) : (l.filter Piece.isSpliced).filterMap f ++ (l.filter (!·.isSpliced)).filterMap f =
      l.filterMap f := by
    rcases hf with hnone | hnone
    · rw [List.filterMap_filter, List.filterMap_filter, List.filterMap_eq_nil_iff.mpr fun p _ => ?_, List.nil_append]
      · refine List.filterMap_congr fun p _ => ?_
        cases hp : p.isSpliced <;> simp [hnone p, hp]
      · cases hp : p.isSpliced <;> simp [hnone p, hp]
    · rw [List.filterMap_filter, List.filterMap_filter, List.append_right_eq_self.mpr <|
        List.filterMap_eq_nil_iff.mpr fun p _ => ?_]
      · refine List.filterMap_congr fun p _ => ?_
        cases hp : p.isSpliced <;> simp [hnone p, hp]
      · cases hp : p.isSpliced <;> simp [hnone p, hp]
  rw [leadSplicedText, List.filterMap_append, List.filterMap_append, List.append_assoc, hsplit, ← List.filterMap_append,
    List.takeWhile_append_dropWhile]

/-- No text stands behind a call. -/
theorem pairwise_leadSplicedText (ps : List Piece) :
    (leadSplicedText ps).Pairwise fun a b => a.isToolUse = true → b.isSpliced = false := by
  have hbefore : ∀ p ∈ ps.takeWhile (!·.isToolUse) ++ (ps.dropWhile (!·.isToolUse)).filter Piece.isSpliced,
      p.isToolUse = false := by
    intro p hp
    rcases List.mem_append.mp hp with hbefore | hspliced
    · have hnot := List.mem_takeWhile_imp hbefore
      rwa [Bool.not_eq_true'] at hnot
    · cases p with
      | kept block => exact absurd (List.mem_filter.mp hspliced).2 Bool.false_ne_true
      | spliced content => rfl
  rw [leadSplicedText, List.pairwise_append]
  refine ⟨?_, ?_, ?_⟩
  · exact List.pairwise_of_forall_mem_list fun a ha b _ hcall => absurd (hcall.symm.trans (hbefore a ha)) (by decide)
  · refine List.pairwise_of_forall_mem_list fun a _ b hb _ => ?_
    have hnot := (List.mem_filter.mp hb).2
    rwa [Bool.not_eq_true'] at hnot
  · exact fun a ha b _ hcall => absurd (hcall.symm.trans (hbefore a ha)) (by decide)

theorem countP_isSpliced (ps : List Piece) : ps.countP Piece.isSpliced = (ps.filterMap Piece.content?).length := by
  induction ps with
  | nil => rfl
  | cons p ps ih =>
    cases p <;> simp [List.countP_cons, List.filterMap_cons, Piece.isSpliced, Piece.content?, ih]

end

/-! ### All shapes -/

section

variable {parse : String → Option Json} {results : List CcrToolResult} {provider : Provider} {response : Json}

/-- A block that is a retrieval. -/
def retrieves (provider : Provider) (b : Json) : Bool := isCall provider b && isRetrievalCall parse provider b

theorem extractToolCalls_eq :
    extractToolCalls provider response = (blocksOf provider response).filter (isCall provider) := by
  cases provider with
  | openai => exact (List.filter_eq_self.mpr fun _ _ => rfl).symm
  | anthropic | openaiResponses => rfl

theorem mem_extractToolCalls {b : Json} :
    b ∈ extractToolCalls provider response ↔ b ∈ blocksOf provider response ∧ isCall provider b = true := by
  rw [extractToolCalls_eq, List.mem_filter]

theorem map_toolCallId : (parseCcrToolCalls parse response provider).1.map CcrToolCall.toolCallId =
    ((blocksOf provider response).filter (@retrieves parse provider)).map (callId provider) := by
  have hretrieves : (blocksOf provider response).filter (@retrieves parse provider) =
      (extractToolCalls provider response).filter (isRetrievalCall parse provider) := by
    rw [extractToolCalls_eq, List.filter_filter]
    exact List.filter_congr fun b _ => Bool.and_comm _ _
  rw [parseCcrToolCalls, hretrieves, List.map_filterMap, ← List.filterMap_eq_map, List.filterMap_filter]
  refine List.filterMap_congr fun b _ => ?_
  rw [isRetrievalCall]
  cases ccrHash parse provider b <;> rfl

theorem clients_iff : (∀ c ∈ blocksOf provider response, isCall provider c = true → @retrieves parse provider c = false →
      ∀ r ∈ blocksOf provider response, @retrieves parse provider r = true → callId provider c ≠ callId provider r) ↔
    ∀ c ∈ extractToolCalls provider response, isRetrievalCall parse provider c = false →
      ∀ r ∈ extractToolCalls provider response, isRetrievalCall parse provider r = true →
        callId provider c ≠ callId provider r := by
  constructor
  · intro h c hc hclient r hr hretr
    obtain ⟨hcb, hcall⟩ := mem_extractToolCalls.mp hc
    obtain ⟨hrb, hcallr⟩ := mem_extractToolCalls.mp hr
    exact h c hcb hcall (by rw [retrieves, hclient, Bool.and_false]) r hrb (by rw [retrieves, hcallr, hretr]; rfl)
  · intro h c hc hcall hclient r hr hretr
    rw [retrieves, Bool.and_eq_true_iff] at hretr
    rw [retrieves, hcall, Bool.true_and] at hclient
    exact h c (mem_extractToolCalls.mpr ⟨hc, hcall⟩) hclient r (mem_extractToolCalls.mpr ⟨hr, hretr.1⟩) hretr.2

/-- As many are counted as are spliced in. -/
theorem count_eq : (spliceCcrResultsAsText results provider response).2 = (answered results provider response).length := by
  cases provider with
  | anthropic =>
    rw [spliceCcrResultsAsText, answered]
    cases hcontent : response.getArr? "content" with
    | none => rw [pieces, hcontent]; rfl
    | some blocks => exact countP_isSpliced _
  | openaiResponses =>
    rw [spliceCcrResultsAsText, answered]
    cases hcontent : response.getArr? "output" with
    | none => rw [pieces, hcontent]; rfl
    | some blocks => exact countP_isSpliced _
  | openai =>
    rw [spliceCcrResultsAsText, answered, blocksOf, List.length_map]
    cases hmessage : chatMessage response with
    | none =>
      rw [extractToolCalls, hmessage]
      rfl
    | some message => cases chatHits results (extractToolCalls .openai response) <;> rfl

theorem chatMessage_withMessage {message message' : Json} (h : chatMessage response = some message) :
    chatMessage (withMessage response message') = some message' := by
  obtain ⟨choice, hchoice, hmessage⟩ := Option.bind_eq_some_iff.mp h
  obtain ⟨choices, hchoices, hhead⟩ := Option.bind_eq_some_iff.mp hchoice
  cases choices with
  | nil => exact absurd hhead nofun
  | cons first rest =>
    obtain rfl := Option.some.inj hhead
    rw [withMessage, hchoices, chatMessage]
    dsimp only
    rw [getArr?_insert_self hchoices]
    exact Json.get?_insert_self hmessage

theorem written : Written results provider response := by
  cases provider with
  | anthropic =>
    rw [Written, spliceCcrResultsAsText]
    cases hcontent : response.getArr? "content" with
    | none => rw [blocksOf, pieces, hcontent]; rfl
    | some blocks => rw [blocksOf, getArr?_insert_self hcontent]; rfl
  | openaiResponses =>
    rw [Written, spliceCcrResultsAsText]
    cases hcontent : response.getArr? "output" with
    | none => rw [blocksOf, pieces, hcontent]; rfl
    | some items => rw [blocksOf, getArr?_insert_self hcontent]; rfl
  | openai =>
    rw [Written, answered, unspliced, blocksOf, blocksOf, spliceCcrResultsAsText]
    cases hmessage : chatMessage response with
    | none =>
      have hnil : extractToolCalls .openai response = [] := by rw [extractToolCalls, hmessage]; rfl
      rw [hnil]
      exact ⟨hnil, fun h => absurd rfl h⟩
    | some message =>
      cases hhits : chatHits results (extractToolCalls .openai response) with
      | nil => exact ⟨(List.filter_eq_self.mpr fun _ _ => rfl).symm, fun h => absurd rfl h⟩
      | cons hit hits =>
        cases hcalls : message.getArr? "tool_calls" with
        | none =>
          have hnil : extractToolCalls .openai response = [] := by rw [extractToolCalls, hmessage, Option.bind_some, hcalls]; rfl
          rw [hnil] at hhits
          exact absurd hhits nofun
        | some calls =>
          obtain ⟨value, hvalue, -⟩ := Option.bind_eq_some_iff.mp hcalls
          obtain ⟨fields, rfl⟩ := Json.isObj_of_get? hvalue
          have hobj (v : Json) : ((Json.obj fields).insert "tool_calls" v).isObj = true := rfl
          dsimp only
          rw [chatMessage_withMessage hmessage, extractToolCalls, chatMessage_withMessage hmessage, Option.bind_some,
            Option.bind_some, Json.get?_insert_self_of_isObj (hobj _),
            Json.get?_insert_of_ne (show "content" ≠ "tool_calls" by decide), Json.getArr?,
            Json.get?_insert_of_ne (show "tool_calls" ≠ "content" by decide), Json.get?_insert_self hvalue]
          exact ⟨rfl, fun _ => ⟨_, rfl, rfl⟩⟩

/-- Blocks and items: those of a type, with a result. -/
theorem splices_blocks_iff {type : String} (hprovider : provider ≠ .openai)
    (hids : results.map CcrToolResult.toolCallId =
      (parseCcrToolCalls parse response provider).1.map CcrToolCall.toolCallId)
    (hcall : ∀ b, isCall provider b = (b.getStr? "type" == some type))
    (hanswered : answered results provider response =
      ((blocksOf provider response).map (spliceBlock provider type results)).filterMap Piece.content?)
    (hunspliced : unspliced results provider response =
      ((blocksOf provider response).map (spliceBlock provider type results)).filterMap Piece.kept?)
    (hlead : provider = .anthropic →
      (pieces results provider response).Pairwise fun a b => a.isToolUse = true → b.isSpliced = false) :
    Splices parse results provider response ↔ Apart parse results provider response := by
  have hcall' : isCall provider = fun b => b.getStr? "type" == some type := funext hcall
  have hids' := hids.trans map_toolCallId
  rw [content?_spliceBlock] at hanswered
  rw [kept?_spliceBlock, ← hcall'] at hunspliced
  have hothers : unspliced results provider response =
        (blocksOf provider response).filter (fun b => !(isCall provider b && isRetrievalCall parse provider b)) ↔
      ∀ b ∈ blocksOf provider response,
        isHit results (isCall provider) (callId provider) b = @retrieves parse provider b := by
    rw [hunspliced]
    exact filter_not_eq_iff
  have hclients := @isHit_eq_iff results _ (isCall provider) _ _ hids' fun b _ hb => (Bool.and_eq_true_iff.mp hb).1
  constructor
  · intro h
    have hhit := hothers.mp h.others
    have heach := h.each
    rw [hanswered] at heach
    refine ⟨clients_iff.mp (hclients.mp hhit), ?_, fun hopenai => absurd hopenai hprovider⟩
    rw [hcall'] at hhit
    exact (texts_eq_iff hids' hhit).mp heach
  · intro h
    have hhit := hclients.mpr (clients_iff.mpr h.clients)
    have heach : answered results provider response = results.map CcrToolResult.content := by
      rw [hanswered]
      rw [hcall'] at hhit
      exact (texts_eq_iff hids' hhit).mpr h.contents
    refine ⟨written, heach, hothers.mpr hhit, ?_, hlead⟩
    have hlength := congrArg List.length hids
    rw [List.length_map, List.length_map] at hlength
    rw [count_eq, heach, List.length_map, hlength]

theorem getStr?_id {b : Json} (h : (b.getStr? "id").isSome = true) : b.getStr? "id" = some (callId .openai b) := by
  obtain ⟨id, hid⟩ := Option.isSome_iff_exists.mp h
  rw [callId, hid]
  rfl

/-- Chat calls that are hit: they have an id, and a result. -/
def isChatHit (results : List CcrToolResult) (b : Json) : Bool :=
  isHit results (fun b => (b.getStr? "id").isSome) (callId .openai) b

theorem chatHits_eq (calls : List Json) : chatHits results calls = (calls.filter (isChatHit results)).map fun b =>
    (callId .openai b, ((resultFor results (callId .openai b)).map CcrToolResult.content).getD "") := by
  rw [← List.filterMap_eq_map, List.filterMap_filter, chatHits]
  refine List.filterMap_congr fun b _ => ?_
  rw [isChatHit, isHit]
  cases hb : (b.getStr? "id").isSome with
  | false =>
    rw [Option.isSome_eq_false_iff, Option.isNone_iff_eq_none] at hb
    rw [hb]
    rfl
  | true =>
    rw [getStr?_id hb, Option.bind_some]
    cases hresult : resultFor results (callId .openai b) <;> simp [hresult]

theorem any_chatHits {calls : List Json} {b : Json} :
    ((chatHits results calls).any fun hit => hit.1 = callId .openai b) = true ↔
      ∃ h ∈ calls, isChatHit results h = true ∧ callId .openai h = callId .openai b := by
  rw [chatHits_eq, List.any_map, List.any_eq_true]
  simp only [List.mem_filter, Function.comp, decide_eq_true_iff, and_assoc]

theorem answered_chat : answered results .openai response = (blocksOf .openai response).filterMap fun b =>
    if (b.getStr? "id").isSome then (resultFor results (callId .openai b)).map CcrToolResult.content else none := by
  rw [answered, chatHits_eq, List.map_map, ← List.filterMap_eq_map, List.filterMap_filter]
  refine List.filterMap_congr fun b _ => ?_
  rw [isChatHit, isHit]
  cases (b.getStr? "id").isSome <;> cases hresult : resultFor results (callId .openai b) <;> simp [hresult]

/-- Chat calls: those with the id of one that is hit go. -/
theorem splices_chat_iff (hids : results.map CcrToolResult.toolCallId =
      (parseCcrToolCalls parse response .openai).1.map CcrToolCall.toolCallId) :
    Splices parse results .openai response ↔ Apart parse results .openai response := by
  have hids' := hids.trans map_toolCallId
  have hothers : unspliced results .openai response =
        (blocksOf .openai response).filter (fun b => !(isCall .openai b && isRetrievalCall parse .openai b)) ↔
      ∀ b ∈ blocksOf .openai response,
        ((chatHits results (blocksOf .openai response)).any fun hit => hit.1 = callId .openai b) =
          @retrieves parse .openai b := filter_not_eq_iff
  have hlength := congrArg List.length hids'
  rw [List.length_map, List.length_map] at hlength
  constructor
  · intro h
    have hgone := hothers.mp h.others
    have hretr : ∀ b ∈ blocksOf .openai response, isChatHit results b = true → @retrieves parse .openai b = true := by
      intro b hb hhit
      rw [← hgone b hb]
      exact any_chatHits.mpr ⟨b, hb, hhit, rfl⟩
    -- there are as many hits as retrievals
    have hall : ∀ b ∈ (blocksOf .openai response).filter (@retrieves parse .openai), isChatHit results b = true := by
      rw [← List.length_filter_eq_length_iff, ← hlength, List.filter_filter]
      have heach := congrArg List.length h.each
      rw [answered, chatHits_eq, List.length_map, List.length_map, List.length_map] at heach
      rw [← heach]
      refine congrArg List.length (List.filter_congr fun b hb => ?_)
      cases hhit : isChatHit results b
      · rfl
      · rw [hretr b hb hhit]
        rfl
    have hhit : ∀ b ∈ blocksOf .openai response, isChatHit results b = @retrieves parse .openai b := fun b hb =>
      Bool.eq_iff_iff.mpr ⟨hretr b hb, fun hr => hall b (List.mem_filter.mpr ⟨hb, hr⟩)⟩
    have heach := h.each
    rw [answered_chat] at heach
    refine ⟨clients_iff.mp ?_, (texts_eq_iff hids' hhit).mp heach, fun _ r hr hretrieval => ?_⟩
    · intro c hc _ hclient r hr hretrieval heq
      rw [← hgone c hc] at hclient
      have hsame : ((chatHits results (blocksOf .openai response)).any fun hit => hit.1 = callId .openai c) = true :=
        any_chatHits.mpr ⟨r, hr, (hhit r hr).trans hretrieval, heq.symm⟩
      exact absurd (hclient.symm.trans hsame) (by decide)
    · have hr' := (hhit r hr).trans hretrieval
      exact (Bool.and_eq_true_iff.mp hr').1
  · intro h
    have hclients := clients_iff.mpr h.clients
    have hhit : ∀ b ∈ blocksOf .openai response, isChatHit results b = @retrieves parse .openai b :=
      (isHit_eq_iff hids' fun b hb hr => h.named rfl b hb hr).mpr fun c hc _ => hclients c hc rfl
    have heach : answered results .openai response = results.map CcrToolResult.content := by
      rw [answered_chat]
      exact (texts_eq_iff hids' hhit).mpr h.contents
    refine ⟨written, heach, hothers.mpr fun b hb => ?_, ?_, nofun⟩
    · rw [Bool.eq_iff_iff, any_chatHits]
      constructor
      · rintro ⟨r, hr, hr', heq⟩
        refine Bool.eq_true_of_not_eq_false fun hclient => ?_
        exact hclients b hb rfl hclient r hr ((hhit r hr).symm.trans hr') heq.symm
      · intro hretrieval
        exact ⟨b, hb, (hhit b hb).trans hretrieval, rfl⟩
    · rw [count_eq, heach, List.length_map, ← List.length_map (f := CcrToolResult.toolCallId), hids, List.length_map]

theorem splices_iff (hids : results.map CcrToolResult.toolCallId =
      (parseCcrToolCalls parse response provider).1.map CcrToolCall.toolCallId) :
    Splices parse results provider response ↔ Apart parse results provider response := by
  cases provider with
  | openai => exact splices_chat_iff hids
  | anthropic =>
    refine splices_blocks_iff nofun hids (fun _ => rfl) ?_ ?_ fun _ => pairwise_leadSplicedText _
    · exact filterMap_leadSplicedText _ _ (.inr fun p hp => by cases p <;> first | rfl | cases hp)
    · exact filterMap_leadSplicedText _ _ (.inl fun p hp => by cases p <;> first | rfl | cases hp)
  | openaiResponses => exact splices_blocks_iff nofun hids (fun _ => rfl) rfl rfl nofun

end

/-- A turn that calls a tool of the client, then the retrieval tool. -/
def mixedTurn (clientId retrievalId : List (String × Json)) : Json :=
  .obj [("content", .arr [.obj ([("type", .str "tool_use"), ("name", .str "Bash")] ++ clientId),
    .obj ([("type", .str "tool_use"), ("name", .str CCR_TOOL_NAME)] ++ retrievalId)])]

theorem splices_mixedTurn : Splices (fun _ => none) [⟨"r1", "the original", true, 1⟩] .anthropic
    (mixedTurn [("id", .str "b1")] [("id", .str "r1")]) :=
  (splices_iff (by decide +kernel)).mpr ⟨by decide +kernel, by decide +kernel, nofun⟩

/-- Without ids the call of the client is answered too. -/
theorem not_splices_mixedTurn :
    [(⟨"", "the original", true, 1⟩ : CcrToolResult)].map CcrToolResult.toolCallId =
        (parseCcrToolCalls (fun _ => none) (mixedTurn [] []) .anthropic).1.map CcrToolCall.toolCallId ∧
      ¬ Splices (fun _ => none) [⟨"", "the original", true, 1⟩] .anthropic (mixedTurn [] []) := by
  refine ⟨by decide +kernel, fun h => ?_⟩
  have hcount : (unspliced [⟨"", "the original", true, 1⟩] .anthropic (mixedTurn [] [])).length ≠
      ((blocksOf .anthropic (mixedTurn [] [])).filter fun b =>
        !(isCall .anthropic b && isRetrievalCall (fun _ => none) .anthropic b)).length := by decide +kernel
  exact hcount (congrArg List.length h.others)

end Headroom.Ccr
