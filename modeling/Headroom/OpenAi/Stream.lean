import Mathlib.Data.List.Infix
import Headroom.OpenAi.ReasoningSignature

/-!
# The stream translator

The events of a provider's stream, of the Responses API or of Chat Completions, become the events of
an Anthropic message. One content block is open at a time; the blocks are numbered in the order
they are opened.
-/

open Foundation

namespace Headroom.OpenAi

/-! ### Events -/

inductive ContentBlock
  | text
  | thinking
  | toolUse (id name : String)
  deriving DecidableEq

inductive Delta
  | text (text : String)
  | thinking (thinking : String)
  | signature (signature : String)
  | inputJson (partialJson : String)
  deriving DecidableEq

/-- What the client is sent. -/
inductive Event
  | messageStart (model : String)
  | contentBlockStart (index : ℕ) (block : ContentBlock)
  | contentBlockDelta (index : ℕ) (delta : Delta)
  | contentBlockStop (index : ℕ)
  | messageDelta (stopReason : String) (usage : Json)
  | messageStop
  | apiError (message : String)
  deriving DecidableEq

/-! ### Tool names -/

/-- The names of the client's tools, by the names the provider knows. -/
structure ToolAlias where
  reverse : List (String × String)
  ciUnique : List (String × String)

/-- The text with its ASCII letters in lower case. -/
def toAsciiLowercase (text : String) : String :=
  String.ofList (text.toList.map fun c => if 'A' ≤ c ∧ c ≤ 'Z' then Char.ofNat (c.toNat + 32) else c)

def ToolAlias.reverseName (aliases : ToolAlias) (name : String) : String :=
  match aliases.reverse.lookup name with
  | some mapped => mapped
  | none => (aliases.ciUnique.lookup (toAsciiLowercase name)).getD name

/-! ### State -/

/-- Which content block is open. -/
inductive OpenBlock
  | text
  | thinking
  | tool
  deriving DecidableEq

structure StreamTranslator where
  model : String
  contentBlockIndex : ℕ := 0
  started : Bool := false
  openBlock : Option OpenBlock := none
  currentToolId : String := ""
  currentToolName : String := ""
  claimedToolIds : List String := []
  announcedToolIndices : List ℕ := []
  openToolIndex : Option ℕ := none
  totalOutputTokens : ℕ := 0
  sawToolUse : Bool := false
  sawTextDelta : Bool := false
  sawRefusalDelta : Bool := false
  sawArgDelta : Bool := false
  sawThinkingText : Bool := false
  terminated : Bool := false
  terminalEmitted : Bool := false
  pendingReasoning : PendingReasoning := {}
  lastUsage : Option Json := none
  toolAliases : Option ToolAlias := none
  reportTrueUsage : Bool := false
  /-- What was sent so far. -/
  events : List Event := []

/-- The `output_index` that a chunk names. -/
def outputIndex (chunk : Json) : Option ℕ := (chunk.get? "output_index").bind Json.asU64?

namespace StreamTranslator

variable (t : StreamTranslator)

def emit (event : Event) : StreamTranslator := { t with events := t.events ++ [event] }

/-! ### Blocks -/

/-- Close the open block and move to the next index. -/
def closeBlock : StreamTranslator :=
  match t.openBlock with
  | some _ =>
    { ({ t with openBlock := none }).emit (.contentBlockStop t.contentBlockIndex) with
      contentBlockIndex := t.contentBlockIndex + 1 }
  | none => t

/-- Close the open block only if it is of a kind. -/
def closeBlockIf (kind : OpenBlock) : StreamTranslator :=
  if t.openBlock = some kind then t.closeBlock else t

/-- Close the open block at the end of the stream. -/
def closeBlockFinal : StreamTranslator :=
  match t.openBlock with
  | some _ => ({ t with openBlock := none }).emit (.contentBlockStop t.contentBlockIndex)
  | none => t

def startOf (kind : OpenBlock) : ContentBlock :=
  match kind with
  | .text => .text
  | .thinking => .thinking
  | .tool => .toolUse t.currentToolId t.currentToolName

/-- Open a block of a kind, and close what else was open. -/
def startBlock (kind : OpenBlock) : StreamTranslator :=
  let t := t.closeBlock
  { t.emit (.contentBlockStart t.contentBlockIndex (t.startOf kind)) with openBlock := some kind }

/-- Make a block of a kind the open one. -/
def ensureBlock (kind : OpenBlock) : StreamTranslator :=
  if t.openBlock = some kind then t else t.startBlock kind

/-- Open a tool block. Unlike other blocks, one that is open already does not serve. -/
def openToolBlock : StreamTranslator := t.startBlock .tool

def emitDelta (delta : Delta) : StreamTranslator := t.emit (.contentBlockDelta t.contentBlockIndex delta)

/-! ### Tool calls -/

/-- The id that a repeat of a call takes. -/
def candidateId (raw : String) (n : ℕ) : String := raw ++ "_" ++ toString (n + 2)

/-- A tool-call id for this turn; a repeat takes the first suffix that is free. -/
def claimedId (raw : String) : String :=
  if raw ∉ t.claimedToolIds then raw
  else
    (((List.range (t.claimedToolIds.length + 1)).map (candidateId raw)).find? fun candidate =>
      candidate ∉ t.claimedToolIds).getD raw

/-- Claim an id for the call that starts. -/
def claimToolId (raw : String) : StreamTranslator :=
  { t with currentToolId := t.claimedId raw, claimedToolIds := t.claimedId raw :: t.claimedToolIds }

/-- The name of the call that starts, as the client knows it. -/
def captureToolName (upstreamName : String) : StreamTranslator :=
  { t with
    currentToolName := (t.toolAliases.map fun aliases => aliases.reverseName upstreamName).getD upstreamName }

/-- Whether the open block is the call that a chunk belongs to. -/
def toolBlockOpenFor (chunk : Json) : Bool :=
  t.openBlock = some .tool &&
    match t.openToolIndex, outputIndex chunk with
    | some opened, some event => opened = event
    | _, _ => true

/-! ### The end of a message -/

/-- The usage that the last event of a turn tells. -/
def deltaUsage (truth : Option Json) : Json :=
  let legacy := Json.obj [("output_tokens", .num (toString t.totalOutputTokens))]
  if !t.reportTrueUsage then legacy
  else
    match truth with
    | none => legacy
    | some u =>
      match (u.get? "input_tokens").or (u.get? "prompt_tokens"),
          (u.get? "output_tokens").or (u.get? "completion_tokens") with
      | some input, some output =>
        let told (input cached : Json) : Json :=
          .obj [("input_tokens", input), ("output_tokens", output), ("cache_read_input_tokens", cached)]
        match u.get? "cache_read_input_tokens" with
        | some cached => told input cached
        | none =>
          let details := (u.get? "input_tokens_details").or (u.get? "prompt_tokens_details")
          let cached := ((details.bind (Json.get? "cached_tokens")).bind Json.asU64?).getD 0
          match input.asU64? with
          | some n => told (.num (toString (n - cached))) (.num (toString cached))
          | none => legacy
      | _, _ => legacy

def emitMessageDelta (stopReason : String) : StreamTranslator :=
  t.emit (.messageDelta stopReason (.obj [("output_tokens", .num (toString t.totalOutputTokens))]))

def emitMessageDeltaWithUsage (stopReason : String) (truth : Option Json) : StreamTranslator :=
  t.emit (.messageDelta stopReason (t.deltaUsage truth))

/-- The end of a turn whose provider stopped in the middle. A tool block is left open. -/
def abortTerminal : StreamTranslator :=
  if !t.started then t
  else
    let t := { t with terminated := true }
    (if t.openBlock ≠ some .tool then t.closeBlockFinal else t).emitMessageDelta "end_turn"

/-! ### Chat Completions -/

/-- The first choice of a chunk. -/
def firstChoice (chunk : Json) : Option Json := (chunk.getArr? "choices").bind List.head?

/-- One fragment of a tool call. -/
def onToolCallFragment (tc : Json) : StreamTranslator :=
  let function := tc.get? "function"
  let t :=
    match tc.getStr? "id" with
    | some id =>
      ((t.claimToolId id).captureToolName
        ((function.bind (Json.getStr? "name")).getD "")).openToolBlock
    | none => t
  match function.bind (Json.getStr? "arguments") with
  | some args => if args = "" then t else (t.ensureBlock .tool).emitDelta (.inputJson args)
  | none => t

/-- A text of a chunk that is not empty. -/
def nonEmptyField (key : String) (delta : Json) : Option String :=
  (delta.getStr? key).filter (· ≠ "")

/-- What one choice adds. -/
def onChatDelta (delta : Json) : StreamTranslator :=
  let t :=
    match nonEmptyField "reasoning_content" delta with
    | some thinking => (t.ensureBlock .thinking).emitDelta (.thinking thinking)
    | none => t
  let t :=
    match nonEmptyField "content" delta with
    | some text => (t.ensureBlock .text).emitDelta (.text text)
    | none => t
  ((delta.getArr? "tool_calls").getD []).foldl onToolCallFragment t

/-- The stop reason of a finish reason. -/
def chatStopReason (reason : String) : String :=
  if reason = "stop" then "end_turn"
  else if reason = "tool_calls" then "tool_use"
  else if reason = "length" then "max_tokens"
  else "end_turn"

def start : StreamTranslator :=
  if t.started then t else { t.emit (.messageStart t.model) with started := true }

/-- The usage that a chunk carries. -/
def noteUsage (usage : Json) : StreamTranslator :=
  let t := { t with
    totalOutputTokens := ((usage.get? "completion_tokens").bind Json.asU64?).getD t.totalOutputTokens }
  if usage = .null then t else { t with lastUsage := some usage }

def processChatChunk (chunk : Json) : StreamTranslator :=
  let t := t.start
  let choice := firstChoice chunk
  let t := (chunk.get? "usage").elim t t.noteUsage
  let t := (choice.bind (Json.get? "delta")).elim t t.onChatDelta
  match choice.bind (Json.getStr? "finish_reason") with
  | some reason =>
    (t.closeBlockFinal.emitMessageDeltaWithUsage (chatStopReason reason) t.lastUsage).emit .messageStop
  | none => t

/-! ### The Responses API -/

/-- The type of the item of a chunk. -/
def itemType (chunk : Json) : Option String := (chunk.get? "item").bind (Json.getStr? "type")

/-- The id under which a call is answered. -/
def rawId (item : Json) : String :=
  (((item.get? "call_id").or (item.get? "id")).bind Json.asStr?).getD ""

def deltaOf (chunk : Json) : String := (chunk.getStr? "delta").getD ""

def noteText : StreamTranslator := { t with sawTextDelta := true }

def noteRefusal : StreamTranslator := { t with sawRefusalDelta := true }

def noteThinking : StreamTranslator := { t with sawThinkingText := true }

def onOutputTextDelta (chunk : Json) : StreamTranslator :=
  if deltaOf chunk = "" then t
  else ((t.ensureBlock .text).emitDelta (.text (deltaOf chunk))).noteText

def onRefusalDelta (chunk : Json) : StreamTranslator :=
  if deltaOf chunk = "" then t
  else ((t.ensureBlock .text).emitDelta (.text (deltaOf chunk))).noteRefusal

/-- A whole text in a block that is closed behind it. -/
def wholeText (text : String) : StreamTranslator := ((t.ensureBlock .text).emitDelta (.text text)).closeBlock

def onOutputTextDone (chunk : Json) : StreamTranslator :=
  match nonEmptyField "text" chunk with
  | some text => if t.sawTextDelta then t else (t.wholeText text).noteText
  | none => t

def onRefusalDone (chunk : Json) : StreamTranslator :=
  match nonEmptyField "refusal" chunk with
  | some refusal => if t.sawRefusalDelta then t else (t.wholeText refusal).noteRefusal
  | none => t

def onReasoningDelta (chunk : Json) : StreamTranslator :=
  match nonEmptyField "delta" chunk with
  | some delta => ((t.ensureBlock .thinking).emitDelta (.thinking delta)).noteThinking
  | none => t

/-- Start the block of a call. -/
def startCall (rawId upstreamName : String) : StreamTranslator :=
  ((t.claimToolId rawId).captureToolName upstreamName).openToolBlock

/-- The call whose block is open now. -/
def noteCall (index : Option ℕ) : StreamTranslator :=
  { t with openToolIndex := index, sawToolUse := true, sawArgDelta := false }

/-- Remember that a call was announced. -/
def announce (index : Option ℕ) : StreamTranslator :=
  { t with announcedToolIndices := index.toList ++ t.announcedToolIndices }

/-- The item of a chunk. -/
def itemOf (chunk : Json) : Json := (chunk.get? "item").getD .null

def itemName (item : Json) : String := (item.getStr? "name").getD ""

/-- A reasoning item starts. -/
def captureReasoning (item : Json) : StreamTranslator :=
  { t with pendingReasoning := t.pendingReasoning.capture item, sawThinkingText := false }

def onOutputItemAdded (chunk : Json) : StreamTranslator :=
  if itemType chunk = some "function_call" then
    ((t.startCall (rawId (itemOf chunk)) (itemName (itemOf chunk))).noteCall
      (outputIndex chunk)).announce (outputIndex chunk)
  else if itemType chunk = some "reasoning" then t.captureReasoning (itemOf chunk)
  else t

/-- Arguments for the open block. -/
def emitArgs (args : String) : StreamTranslator :=
  { t.emitDelta (.inputJson args) with sawArgDelta := true }

def onFunctionArgsDelta (chunk : Json) : StreamTranslator :=
  match nonEmptyField "delta" chunk with
  | some delta => if t.toolBlockOpenFor chunk then t.emitArgs delta else t
  | none => t

def onFunctionArgsDone (chunk : Json) : StreamTranslator :=
  match nonEmptyField "arguments" chunk with
  | some args => if t.toolBlockOpenFor chunk && !t.sawArgDelta then t.emitArgs args else t
  | none => t

/-- A call whose start never came, from the item that ends it. -/
def recoverUnannouncedCall (chunk : Json) : StreamTranslator :=
  let t := (t.startCall (rawId (itemOf chunk)) (itemName (itemOf chunk))).noteCall (outputIndex chunk)
  match nonEmptyField "arguments" (itemOf chunk) with
  | some args => t.emitArgs args
  | none => t

def onFunctionCallDone (chunk : Json) : StreamTranslator :=
  if (outputIndex chunk).any (· ∈ t.announcedToolIndices) then
    if t.toolBlockOpenFor chunk then t.closeBlock else t
  else
    (if t.toolBlockOpenFor chunk then t else t.recoverUnannouncedCall chunk).closeBlockIf .tool

/-- The text of a message item. -/
def messageText (item : Json) : String :=
  String.join (((item.getArr? "content").getD []).filterMap fun b =>
    (b.getStr? "text").or (b.getStr? "refusal"))

/-- A message item is over. -/
def resetMessage : StreamTranslator := { t with sawTextDelta := false, sawRefusalDelta := false }

def onMessageDone (chunk : Json) : StreamTranslator :=
  let text := messageText (itemOf chunk)
  (if !t.sawTextDelta && !t.sawRefusalDelta && text ≠ "" then t.wholeText text else t).resetMessage

/-- A character in lower case, as far as the letters of "spark" are concerned: besides the ASCII
letters, the kelvin sign has one of them. -/
def lowercase (c : Char) : Char :=
  if 'A' ≤ c ∧ c ≤ 'Z' then Char.ofNat (c.toNat + 32) else if c = '\u212a' then 'k' else c

/-- Whether the model discards reasoning. -/
def isSpark : Bool := "spark".toList <:+: t.model.toList.map lowercase

/-- A reasoning item is over. -/
def resetReasoning : StreamTranslator := { t with pendingReasoning := {}, sawThinkingText := false }

def onReasoningDone (B : Base64) (chunk : Json) : StreamTranslator :=
  let pending := t.pendingReasoning.capture (itemOf chunk)
  let visibleThinking := t.sawThinkingText
  let t := t.resetReasoning
  match pending.replay.bind (encodeReasoningSignature B) with
  | some signature =>
    if !visibleThinking && t.isSpark then t
    else ((t.ensureBlock .thinking).emitDelta (.signature signature)).closeBlock
  | none => t

def onOutputItemDone (B : Base64) (chunk : Json) : StreamTranslator :=
  if itemType chunk = some "function_call" then t.onFunctionCallDone chunk
  else if itemType chunk = some "message" then t.onMessageDone chunk
  else if itemType chunk = some "reasoning" then t.onReasoningDone B chunk
  else t

def noteUnstreamedCall : StreamTranslator := { t with openToolIndex := none, sawToolUse := true }

/-- A call of the final payload that the stream never sent. -/
def recoverUnstreamedCall (item : Json) : StreamTranslator :=
  if item.getStr? "type" ≠ some "function_call" then t
  else if rawId item = "" ∨ rawId item ∈ t.claimedToolIds then t
  else
    let t := (t.startCall (rawId item) (itemName item)).noteUnstreamedCall
    match nonEmptyField "arguments" item with
    | some args => (t.emitDelta (.inputJson args)).closeBlock
    | none => t.closeBlock

def recoverUnstreamedCalls (chunk : Json) : StreamTranslator :=
  (((chunk.get? "response").bind (Json.getArr? "output")).getD []).foldl recoverUnstreamedCall t

/-- Why the response of a chunk stopped short. -/
def incompleteReason (chunk : Json) : Option String :=
  ((chunk.get? "response").bind (Json.get? "incomplete_details")).bind (Json.getStr? "reason")

def responseUsage (chunk : Json) : Option Json := (chunk.get? "response").bind (Json.get? "usage")

/-- The provider's count of the tokens of a turn. -/
def noteOutputTokens (usage : Option Json) : StreamTranslator :=
  { t with
    totalOutputTokens :=
      ((usage.bind (Json.get? "output_tokens")).bind Json.asU64?).getD t.totalOutputTokens }

/-- The last events of a turn. -/
def endTurn (stopReason : String) (usage : Option Json) : StreamTranslator :=
  (({ t with terminalEmitted := true }).emitMessageDeltaWithUsage stopReason usage).emit .messageStop

/-- Why a turn that is complete stops. Being cut off outranks a call. -/
def completedStopReason (chunk : Json) : String :=
  if incompleteReason chunk = some "max_output_tokens" then "max_tokens"
  else if t.sawToolUse then "tool_use"
  else "end_turn"

def onCompleted (chunk : Json) : StreamTranslator :=
  let t := t.noteOutputTokens (responseUsage chunk)
  let t := (if t.terminalEmitted then t else t.recoverUnstreamedCalls chunk).closeBlockFinal
  if t.terminalEmitted then t else t.endTurn (t.completedStopReason chunk) (responseUsage chunk)

/-- A failure that the client can retry. -/
def endFailed (message : String) : StreamTranslator :=
  ({ t with terminalEmitted := true }).emit (.apiError message)

def onFailed (chunk : Json) : StreamTranslator :=
  let t := t.closeBlockFinal
  let error := (chunk.get? "response").bind (Json.get? "error")
  if t.terminalEmitted then t
  else t.endFailed ((error.bind (Json.getStr? "message")).getD "upstream response failed")

def onIncomplete (chunk : Json) : StreamTranslator :=
  let t := t.closeBlockFinal
  if t.terminalEmitted then t
  else
    t.endTurn (if incompleteReason chunk = some "max_output_tokens" then "max_tokens" else "end_turn")
      (responseUsage chunk)

/-- The events of the Responses API that are translated. -/
inductive Arm
  | outputTextDelta
  | outputTextDone
  | refusalDelta
  | refusalDone
  | reasoningDelta
  | summaryPartAdded
  | outputItemAdded
  | functionArgsDelta
  | functionArgsDone
  | outputItemDone
  | completed
  | failed
  | incomplete
  | unhandled
  deriving DecidableEq

def armOf (eventName : String) : Arm :=
  if eventName = "response.output_text.delta" ∨ eventName = "output_text.delta" then .outputTextDelta
  else if eventName = "response.output_text.done" ∨ eventName = "output_text.done" then .outputTextDone
  else if eventName = "response.refusal.delta" ∨ eventName = "refusal.delta" then .refusalDelta
  else if eventName = "response.refusal.done" ∨ eventName = "refusal.done" then .refusalDone
  else if eventName = "response.reasoning_summary_text.delta" ∨
      eventName = "response.reasoning_text.delta" then .reasoningDelta
  else if eventName = "response.reasoning_summary_part.added" then .summaryPartAdded
  else if eventName = "response.output_item.added" then .outputItemAdded
  else if eventName = "response.function_call_arguments.delta" then .functionArgsDelta
  else if eventName = "response.function_call_arguments.done" then .functionArgsDone
  else if eventName = "response.output_item.done" then .outputItemDone
  else if eventName = "response.completed" then .completed
  else if eventName = "response.failed" then .failed
  else if eventName = "response.incomplete" then .incomplete
  else .unhandled

/-- The model that answers, before anything was sent. -/
def noteModel (eventName : String) (chunk : Json) : StreamTranslator :=
  if !t.started && eventName = "response.created" then
    { t with model := ((chunk.get? "response").bind (Json.getStr? "model")).getD t.model }
  else t

def onArm (B : Base64) (chunk : Json) : Arm → StreamTranslator
  | .outputTextDelta => t.onOutputTextDelta chunk
  | .outputTextDone => t.onOutputTextDone chunk
  | .refusalDelta => t.onRefusalDelta chunk
  | .refusalDone => t.onRefusalDone chunk
  | .reasoningDelta => t.onReasoningDelta chunk
  -- The next part of a summary is a block of its own.
  | .summaryPartAdded => t.closeBlockIf .thinking
  | .outputItemAdded => t.onOutputItemAdded chunk
  | .functionArgsDelta => t.onFunctionArgsDelta chunk
  | .functionArgsDone => t.onFunctionArgsDone chunk
  | .outputItemDone => t.onOutputItemDone B chunk
  | .completed => t.onCompleted chunk
  | .failed => if t.terminated then t else t.onFailed chunk
  | .incomplete => t.onIncomplete chunk
  | .unhandled => t

def processResponsesFrame (B : Base64) (eventName : String) (chunk : Json) : StreamTranslator :=
  ((t.noteModel eventName chunk).start).onArm B chunk (armOf eventName)

/-! ### Frames -/

end StreamTranslator

/-- The data of a frame, as it is read. -/
inductive Data
  | blank
  | done
  | malformed
  | chunk (chunk : Json)

/-- A frame of the provider's stream. -/
structure Frame where
  eventName : Option String
  data : Data

namespace StreamTranslator

variable (t : StreamTranslator)

/-- The provider says that the stream is over. -/
def onDone : StreamTranslator :=
  if t.openBlock.isNone then t
  -- A call that still streams is not released as a whole one.
  else if t.openBlock = some .tool && !t.terminalEmitted then t.abortTerminal
  else (t.closeBlockFinal.emitMessageDeltaWithUsage "end_turn" t.lastUsage).emit .messageStop

def processFrame (B : Base64) (t : StreamTranslator) (frame : Frame) : StreamTranslator :=
  if t.terminated then t
  else
    match frame.data with
    | .blank => t
    | .done => t.onDone
    | .malformed => t
    | .chunk chunk =>
      match frame.eventName with
      | some name =>
        if "response.".toList <+: name.toList ∨ "output_".toList <+: name.toList then
          t.processResponsesFrame B name chunk
        else t.processChatChunk chunk
      | none => t.processChatChunk chunk

end StreamTranslator

end Headroom.OpenAi
