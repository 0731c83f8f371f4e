import Mathlib.Data.List.AList
import Headroom.Foundation.JsonText
import Headroom.Sse.Framing

/-!
# The state of an Anthropic stream

The events of a stream are folded into what is known of the message: its blocks by their index, each
with the text and the deltas that have come for it, and the token counts. An event that cannot be read
changes nothing.
-/

open Foundation

namespace Headroom.Sse

inductive StreamStatus where
  | opened | messageStop | errored
  deriving DecidableEq

/-- One block of the message. -/
structure BlockState where
  blockType : String := ""
  /-- The text of `text_delta` and `thinking_delta`. -/
  textBuffer : String := ""
  /-- The fragments of `input_json_delta`. -/
  partialJson : String := ""
  signature : Option String := none
  citations : List Json := []
  /-- The block as it came with its start. -/
  metadata : Json := .null
  complete : Bool := false

/-- Token counts; within a stream they only grow. -/
structure UsageBuilder where
  inputTokens : ℕ := 0
  outputTokens : ℕ := 0
  cacheCreationInputTokens : ℕ := 0
  cacheReadInputTokens : ℕ := 0
  cacheCreation5mInputTokens : ℕ := 0
  cacheCreation1hInputTokens : ℕ := 0
  deriving DecidableEq

structure AnthropicStreamState where
  messageId : Option String := none
  model : Option String := none
  blocks : AList (fun _ : ℕ => BlockState) := ∅
  thinkingDeltas : ℕ := 0
  currentBlockIndex : Option ℕ := none
  stopReason : Option String := none
  usage : UsageBuilder := {}
  status : StreamStatus := .opened
  clearedInputTokens : ℕ := 0

inductive StateError where
  | payloadNotUtf8
  | payloadNotJson
  | missingField (field : String)
  deriving DecidableEq

/-- Take the larger of each count that is there. -/
def UsageBuilder.mergeFrom (u : UsageBuilder) (v : Json) : UsageBuilder :=
  let count (v : Json) (key : String) (old : ℕ) : ℕ :=
    max old (((v.get? key).bind Json.asU64?).getD 0)
  let split := (v.get? "cache_creation").getD .null
  { inputTokens := count v "input_tokens" u.inputTokens
    outputTokens := count v "output_tokens" u.outputTokens
    cacheCreationInputTokens := count v "cache_creation_input_tokens" u.cacheCreationInputTokens
    cacheReadInputTokens := count v "cache_read_input_tokens" u.cacheReadInputTokens
    cacheCreation5mInputTokens :=
      count split "ephemeral_5m_input_tokens" u.cacheCreation5mInputTokens
    cacheCreation1hInputTokens :=
      count split "ephemeral_1h_input_tokens" u.cacheCreation1hInputTokens }

/-- The value of a payload. -/
def parseJson (text : JsonText) (data : Bytes) : Except StateError Json :=
  match fromUtf8? data with
  | none => .error .payloadNotUtf8
  | some s =>
    match text.read s with
    | none => .error .payloadNotJson
    | some v => .ok v

/-- A field that has to be there. -/
def required {α : Type} (field : String) : Option α → Except StateError α
  | some value => .ok value
  | none => .error (.missingField field)

namespace AnthropicStreamState

def onMessageStart (s : AnthropicStreamState) (v : Json) : Except StateError AnthropicStreamState := do
  let msg ← required "message" (v.get? "message")
  return { s with
    messageId := (msg.getStr? "id").or s.messageId
    model := (msg.getStr? "model").or s.model
    usage := ((msg.get? "usage").map s.usage.mergeFrom).getD s.usage
    status := .opened }

/-- A block as it starts. Some start with content already. -/
def startedBlock (cb : Json) : BlockState where
  blockType := (cb.getStr? "type").getD ""
  metadata := cb
  textBuffer := (cb.getStr? "text").getD "" ++ (cb.getStr? "thinking").getD ""

def onContentBlockStart (s : AnthropicStreamState) (v : Json) :
    Except StateError AnthropicStreamState := do
  let index ← required "index" ((v.get? "index").bind Json.asU64?)
  let cb ← required "content_block" (v.get? "content_block")
  return { s with
    blocks := s.blocks.insert index (startedBlock cb)
    currentBlockIndex := some index }

/-- What a delta adds to its block. -/
def addDelta (block : BlockState) (deltaType : String) (delta : Json) : BlockState :=
  match deltaType with
  | "text_delta" => { block with textBuffer := block.textBuffer ++ (delta.getStr? "text").getD "" }
  | "thinking_delta" =>
    { block with textBuffer := block.textBuffer ++ (delta.getStr? "thinking").getD "" }
  | "input_json_delta" =>
    { block with partialJson := block.partialJson ++ (delta.getStr? "partial_json").getD "" }
  | "signature_delta" =>
    match delta.getStr? "signature" with
    | some sig => { block with signature := some (block.signature.getD "" ++ sig) }
    | none => block
  | "citations_delta" =>
    match delta.get? "citation" with
    | some c => { block with citations := block.citations ++ [c] }
    | none => block
  | _ => block

def onContentBlockDelta (s : AnthropicStreamState) (v : Json) :
    Except StateError AnthropicStreamState := do
  let index ← required "index" ((v.get? "index").bind Json.asU64?)
  let delta ← required "delta" (v.get? "delta")
  let deltaType ← required "delta.type" (delta.getStr? "type")
  let block := (s.blocks.lookup index).getD {}
  return { s with
    blocks := s.blocks.insert index (addDelta block deltaType delta)
    thinkingDeltas := s.thinkingDeltas + if deltaType = "thinking_delta" then 1 else 0 }

def onContentBlockStop (s : AnthropicStreamState) (v : Json) :
    Except StateError AnthropicStreamState := do
  let index ← required "index" ((v.get? "index").bind Json.asU64?)
  match s.blocks.lookup index with
  | some block => return { s with blocks := s.blocks.insert index { block with complete := true } }
  | none => return s

/-- The tokens that the server removed, over all edits. -/
def clearedTokens (v : Json) : Option ℕ := do
  let contextManagement ← v.get? "context_management"
  let edits ← contextManagement.getArr? "applied_edits"
  return (edits.filterMap fun e => (e.get? "cleared_input_tokens").bind Json.asU64?).sum

def onMessageDelta (s : AnthropicStreamState) (v : Json) : AnthropicStreamState :=
  { s with
    stopReason := ((v.get? "delta").bind (Json.getStr? "stop_reason")).or s.stopReason
    usage := ((v.get? "usage").map s.usage.mergeFrom).getD s.usage
    clearedInputTokens := ((clearedTokens v).map (max s.clearedInputTokens)).getD s.clearedInputTokens }

/-- One event. -/
def apply (text : JsonText) (s : AnthropicStreamState) (event : SseEvent) :
    Except StateError AnthropicStreamState :=
  match event.eventName with
  | some "message_start" => parseJson text event.data >>= s.onMessageStart
  | some "content_block_start" => parseJson text event.data >>= s.onContentBlockStart
  | some "content_block_delta" => parseJson text event.data >>= s.onContentBlockDelta
  | some "content_block_stop" => parseJson text event.data >>= s.onContentBlockStop
  | some "message_delta" => (parseJson text event.data).map s.onMessageDelta
  | some "message_stop" => .ok { s with status := .messageStop }
  | some "error" => .ok { s with status := .errored }
  -- pings, events without a name, and events that are not known
  | _ => .ok s

/-- One event; one that cannot be read changes nothing. -/
def applied (text : JsonText) (s : AnthropicStreamState) (event : SseEvent) : AnthropicStreamState :=
  match s.apply text event with
  | .ok s' => s'
  | .error _ => s

end AnthropicStreamState

end Headroom.Sse
