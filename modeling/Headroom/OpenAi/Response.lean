import Headroom.OpenAi.Stream

/-!
# Buffered Chat Completions

A stream of Chat Completions is folded into one body, with the fragments of the tool calls put
together by their index, and the body is reshaped into an Anthropic message. A call without an id or
a name is left out of it.
-/

open Foundation

namespace Headroom.OpenAi

/-! ### Fragments -/

def fragmentIndex (tc : Json) : ℕ := ((tc.get? "index").bind Json.asU64?).getD 0

def fragmentName (tc : Json) : Option String := (tc.get? "function").bind (Json.getStr? "name")

def fragmentArguments (tc : Json) : Option String := (tc.get? "function").bind (Json.getStr? "arguments")

/-- A call as it comes together. -/
structure ChatCall where
  index : ℕ
  id : String := ""
  name : String := ""
  arguments : String := ""
  deriving DecidableEq

/-- The call with what a fragment adds. -/
def ChatCall.add (tc : Json) (call : ChatCall) : ChatCall :=
  { call with
    id := (tc.getStr? "id").getD call.id
    name := call.name ++ (fragmentName tc).getD ""
    arguments := call.arguments ++ (fragmentArguments tc).getD "" }

/-- Change the call of an index; the first time it is seen, it is a new one. -/
def updateCall (index : ℕ) (f : ChatCall → ChatCall) : List ChatCall → List ChatCall
  | [] => [f { index }]
  | call :: calls => if call.index = index then f call :: calls else call :: updateCall index f calls

def addFragment (calls : List ChatCall) (tc : Json) : List ChatCall :=
  updateCall (fragmentIndex tc) (ChatCall.add tc) calls

/-! ### Chunks -/

/-- What was read of a stream. -/
structure ChatFold where
  model : Json := .null
  content : String := ""
  reasoning : String := ""
  calls : List ChatCall := []
  finishReason : Json := .null
  usage : Json := .null

/-- A field that is not null. -/
def present (key : String) (j : Json) : Option Json := (j.get? key).filter (· ≠ .null)

def ChatFold.addDelta (s : ChatFold) (delta : Json) : ChatFold :=
  { s with
    content := s.content ++ (delta.getStr? "content").getD ""
    reasoning := s.reasoning ++ (delta.getStr? "reasoning_content").getD ""
    calls := ((delta.getArr? "tool_calls").getD []).foldl addFragment s.calls }

def ChatFold.addChoice (s : ChatFold) (choice : Json) : ChatFold :=
  let s := { s with finishReason := (present "finish_reason" choice).getD s.finishReason }
  (choice.get? "delta").elim s s.addDelta

def ChatFold.addChunk (s : ChatFold) (chunk : Json) : ChatFold :=
  let s := { s with
    model := (present "model" chunk).getD s.model
    usage := (present "usage" chunk).getD s.usage }
  (StreamTranslator.firstChoice chunk).elim s s.addChoice

/-- A call in the body. -/
def ChatCall.toJson (call : ChatCall) : Json :=
  .obj [("id", .str call.id), ("type", .str "function"),
    ("function", .obj [("name", .str call.name), ("arguments", .str call.arguments)])]

def ChatFold.message (s : ChatFold) : Json :=
  .obj ([("role", .str "assistant"), ("content", .str s.content)] ++
    (if s.reasoning = "" then [] else [("reasoning_content", .str s.reasoning)]) ++
      if s.calls = [] then [] else [("tool_calls", .arr (s.calls.map ChatCall.toJson))])

def ChatFold.toCompletion (s : ChatFold) : Json :=
  .obj [("object", .str "chat.completion"), ("model", s.model),
    ("choices", .arr [.obj [("index", .num "0"), ("message", s.message), ("finish_reason", s.finishReason)]]),
    ("usage", s.usage)]

/-- What is read of the chunks of a stream. -/
def readChunks (chunks : List Json) : ChatFold := chunks.foldl ChatFold.addChunk {}

/-- The body of a stream, from its chunks. -/
def chatStreamToCompletion (chunks : List Json) : Option Json :=
  if chunks = [] then none else some (readChunks chunks).toCompletion

/-! ### Messages -/

/-- A content block of a message. -/
inductive Content
  | thinking (thinking : String)
  | text (text : String)
  | toolUse (id name : String) (input : Json)
  deriving DecidableEq

structure AnthropicMessage where
  content : List Content
  model : String
  stopReason : String
  inputTokens : ℕ
  outputTokens : ℕ

def thinkingOf (message : Json) : List Content :=
  match StreamTranslator.nonEmptyField "reasoning_content" message with
  | some reasoning => [.thinking reasoning]
  | none => []

def textOf (message : Json) : List Content :=
  match message.get? "content" with
  | some (.str text) => if text = "" then [] else [.text text]
  | some (.arr parts) =>
    let text := String.join (parts.filterMap fun p => (p.getStr? "text").or (p.getStr? "refusal"))
    if text = "" then [] else [.text text]
  | _ => []

def refusalOf (message : Json) : List Content :=
  match StreamTranslator.nonEmptyField "refusal" message with
  | some refusal => [.text refusal]
  | none => []

/-- A call of the body; `parse` reads its arguments. -/
def toolUseOf (parse : String → Option Json) (tc : Json) : Option Content :=
  let id := (tc.getStr? "id").getD ""
  let name := (fragmentName tc).getD ""
  -- A call without identity cannot be answered.
  if id = "" ∨ name = "" then none
  else some (.toolUse id name ((parse ((fragmentArguments tc).getD "\x7b\x7d")).getD (.obj [])))

def contentOf (parse : String → Option Json) (message : Json) : List Content :=
  thinkingOf message ++ textOf message ++ refusalOf message ++
    ((message.getArr? "tool_calls").getD []).filterMap (toolUseOf parse)

def Content.isToolUse : Content → Bool
  | .toolUse _ _ _ => true
  | _ => false

def openaiToAnthropicResponse (parse : String → Option Json) (openai original : Json) : AnthropicMessage :=
  let choice := StreamTranslator.firstChoice openai
  let stopReason :=
    StreamTranslator.chatStopReason ((choice.bind (Json.getStr? "finish_reason")).getD "stop")
  let content := (choice.bind (Json.get? "message")).elim [] (contentOf parse)
  let usage := (openai.get? "usage").getD (.obj [])
  { content
    model := (original.getStr? "model").getD "unknown"
    -- A call that was promised and did not survive is no reason to stop.
    stopReason := if stopReason = "tool_use" ∧ ¬ content.any Content.isToolUse then "end_turn" else stopReason
    inputTokens := ((usage.get? "prompt_tokens").bind Json.asU64?).getD 0
    outputTokens := ((usage.get? "completion_tokens").bind Json.asU64?).getD 0 }

/-! ### The message of a stream -/

/-- Whether the call can be answered. -/
def ChatCall.survives (call : ChatCall) : Bool := call.id ≠ "" && call.name ≠ ""

def ChatCall.toContent (parse : String → Option Json) (call : ChatCall) : Content :=
  .toolUse call.id call.name ((parse call.arguments).getD (.obj []))

theorem toolUseOf_toJson (parse : String → Option Json) (call : ChatCall) :
    toolUseOf parse call.toJson = if call.survives then some (call.toContent parse) else none := by
  show (if call.id = "" ∨ call.name = "" then none else some (call.toContent parse)) = _
  rw [ChatCall.survives]
  by_cases hid : call.id = ""
  · rw [if_pos (Or.inl hid), hid]
    rfl
  · by_cases hname : call.name = ""
    · rw [if_pos (Or.inr hname), hname, decide_eq_true hid]
      rfl
    · rw [if_neg (not_or.mpr ⟨hid, hname⟩), decide_eq_true hid, decide_eq_true hname]
      rfl

theorem filterMap_toolUseOf (parse : String → Option Json) (calls : List ChatCall) :
    (calls.map ChatCall.toJson).filterMap (toolUseOf parse) =
      (calls.filter ChatCall.survives).map (ChatCall.toContent parse) := by
  induction calls with
  | nil => rfl
  | cons call calls ih =>
    rw [List.map_cons, List.filterMap_cons, toolUseOf_toJson, List.filter_cons, ih]
    split_ifs <;> rfl

theorem contentOf_message (parse : String → Option Json) (s : ChatFold) :
    contentOf parse s.message =
      (if s.reasoning = "" then [] else [.thinking s.reasoning]) ++
        (if s.content = "" then [] else [.text s.content]) ++
          (s.calls.filter ChatCall.survives).map (ChatCall.toContent parse) := by
  have hthinking : thinkingOf s.message = if s.reasoning = "" then [] else [.thinking s.reasoning] := by
    rw [thinkingOf]
    by_cases hreasoning : s.reasoning = ""
    · rw [if_pos hreasoning, ChatFold.message, if_pos hreasoning]
      split_ifs <;> rfl
    · have hfield : s.message.getStr? "reasoning_content" = some s.reasoning := by
        rw [ChatFold.message, if_neg hreasoning]
        rfl
      rw [if_neg hreasoning, StreamTranslator.nonEmptyField, hfield, Option.filter,
        if_pos (decide_eq_true hreasoning)]
  have htext : textOf s.message = if s.content = "" then [] else [.text s.content] := rfl
  have hrefusal : refusalOf s.message = [] := by
    rw [refusalOf, ChatFold.message]
    split_ifs <;> rfl
  have hcalls : (s.message.getArr? "tool_calls").getD [] = s.calls.map ChatCall.toJson := by
    rw [ChatFold.message]
    split_ifs with hreasoning hcalls hcalls
    · rw [hcalls]
      rfl
    · rfl
    · rw [hcalls]
      rfl
    · rfl
  rw [contentOf, hthinking, htext, hrefusal, hcalls, List.append_nil, filterMap_toolUseOf]

theorem openaiToAnthropicResponse_toCompletion (parse : String → Option Json) (s : ChatFold)
    (original : Json) :
    (openaiToAnthropicResponse parse s.toCompletion original).content = contentOf parse s.message ∧
      (openaiToAnthropicResponse parse s.toCompletion original).stopReason =
        if StreamTranslator.chatStopReason (s.finishReason.asStr?.getD "stop") = "tool_use" ∧
          s.calls.filter ChatCall.survives = [] then "end_turn"
        else StreamTranslator.chatStopReason (s.finishReason.asStr?.getD "stop") := by
  have hcontent : (openaiToAnthropicResponse parse s.toCompletion original).content =
      contentOf parse s.message := rfl
  refine ⟨hcontent, ?_⟩
  have hany : (contentOf parse s.message).any Content.isToolUse = true ↔
      s.calls.filter ChatCall.survives ≠ [] := by
    rw [contentOf_message, List.any_append, List.any_append]
    have hno : ∀ (P : Prop) [Decidable P] (c : Content), c.isToolUse = false →
        (if P then [] else [c]).any Content.isToolUse = false := by
      intro P _ c hc
      split_ifs
      · rfl
      · rw [List.any_cons, hc]
        rfl
    rw [hno _ _ rfl, hno _ _ rfl, Bool.false_or, Bool.false_or, List.any_map]
    cases s.calls.filter ChatCall.survives with
    | nil => exact iff_of_false Bool.false_ne_true (not_not.mpr rfl)
    | cons call calls => exact iff_of_true rfl (List.cons_ne_nil _ _)
  exact if_congr (and_congr_right fun _ => (not_congr hany).trans not_not) rfl rfl

end Headroom.OpenAi
