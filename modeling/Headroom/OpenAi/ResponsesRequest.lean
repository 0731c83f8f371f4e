import Headroom.Foundation.Text
import Headroom.OpenAi.ChatRequest

/-!
# Requests to Responses

The client's messages become input items. What a user says is cut at every tool result, which is an item
of its own; a system message that comes before the first item belongs to the instructions, a later one
stays where it was sent.
-/

open Foundation

namespace Headroom.OpenAi

/-! ### Results -/

/-- One piece of a rendered tool result. -/
inductive ToolResultPart
  | text (text : String)
  | image (url : String)
  deriving DecidableEq

namespace ToolResultPart

def isImage : ToolResultPart → Bool
  | .text _ => false
  | .image _ => true

def text? : ToolResultPart → Option String
  | .text s => some s
  | .image _ => none

def toJson : ToolResultPart → Json
  | .text s => .obj [("type", .str "input_text"), ("text", .str s)]
  | .image url => .obj [("type", .str "input_image"), ("image_url", .str url)]

end ToolResultPart

/-- A user message's content: the joined text when no image survived, otherwise the parts in order. -/
def userMessageContent (parts : List ToolResultPart) : Json :=
  if parts.any ToolResultPart.isImage then .arr (parts.map ToolResultPart.toJson)
  else .str (joinLines (parts.filterMap ToolResultPart.text?))

variable (B : Base64) (outside : ChatOutside)

/-- An image block as a part, with a placeholder if it cannot be carried. -/
def imagePart? (block : Json) : ToolResultPart :=
  match imageBlockToDataUrl outside block with
  | some url => .image url
  | none => .text (omittedBlock "image")

def toolResultPart (block : Json) : ToolResultPart :=
  match block with
  | .str s => .text s
  | _ =>
    match block.getStr? "type" with
    | some type =>
      if type = "text" then .text ((block.getStr? "text").getD "")
      else if type = "image" then imagePart? outside block
      else .text (omittedBlock type)
    | none => .text (omittedBlock "unknown")

def renderToolResultParts : Option Json → List ToolResultPart
  | some (.str s) => [.text s]
  | some (.arr blocks) => blocks.map (toolResultPart outside)
  | some other => [.text (String.ofList other.compact)]
  | none => []

/-- The output of a call: a text unless an image survived. -/
def toolResultOutputValue (content : Option Json) (isError : Bool) : Json :=
  let parts := renderToolResultParts outside content
  if parts.any ToolResultPart.isImage then
    let items := parts.map ToolResultPart.toJson
    .arr (if isError then ToolResultPart.toJson (.text "Error:") :: items else items)
  else
    let joined := joinLines (parts.filterMap ToolResultPart.text?)
    .str (if isError then "Error: " ++ joined else joined)

/-! ### A user's message -/

def userItem (content : Json) : Json :=
  .obj [("type", .str "message"), ("role", .str "user"), ("content", content)]

/-- A result as an item. -/
def functionCallOutput (block : Json) : Json :=
  let isError := match block.get? "is_error" with
    | some (.bool b) => b
    | _ => false
  .obj [("type", .str "function_call_output"), ("call_id", .str ((block.getStr? "tool_use_id").getD "")),
    ("output", toolResultOutputValue outside (block.get? "content") isError)]

/-- The items of a message so far, and the parts that wait for the next one. -/
structure UserDraft where
  parts : List ToolResultPart := []
  emittedMessage : Bool := false
  emittedToolResult : Bool := false
  out : List Json := []

namespace UserDraft

def push (s : UserDraft) (part : ToolResultPart) : UserDraft := { s with parts := s.parts ++ [part] }

/-- What is said so far becomes an item before a result. -/
def flush (s : UserDraft) : UserDraft :=
  if s.parts = [] then s
  else { s with parts := [], emittedMessage := true, out := s.out ++ [userItem (userMessageContent s.parts)] }

def addBlock (s : UserDraft) (block : Json) : UserDraft :=
  match block.getStr? "type" with
  | some type =>
    if type = "text" then
      match block.getStr? "text" with
      | some text => s.push (.text text)
      | none => s
    else if type = "tool_result" then
      { s.flush with emittedToolResult := true, out := s.flush.out ++ [functionCallOutput outside block] }
    else if type = "image" then s.push (imagePart? outside block)
    else s.push (.text (omittedBlock type))
  | none => s.push (.text (omittedBlock "unknown"))

/-- A message that gave nothing is an empty one. -/
def finish (s : UserDraft) : List Json :=
  if s.parts ≠ [] ∨ !s.emittedMessage ∧ !s.emittedToolResult then
    s.out ++ [userItem (userMessageContent s.parts)]
  else s.out

end UserDraft

def translateUserMessageToResponses (msg : Json) : List Json :=
  match msg.get? "content" with
  | some (.str s) => [userItem (.str s)]
  | some (.arr blocks) => (blocks.foldl (UserDraft.addBlock outside) {}).finish
  | some .null | none => [userItem (.str "")]
  | some other => [userItem (.str (String.ofList other.compact))]

/-! ### The messages -/

/-- The input so far, and the texts that come before it. -/
structure ResponsesDraft where
  input : List Json := []
  instructions : List String := []
  deriving DecidableEq

def developerItem (text : String) : Json := textMessage "developer" text

/-- What one message of the client adds. -/
def ResponsesDraft.step (s : ResponsesDraft) (msg : Json) : ResponsesDraft :=
  if roleOf msg = "user" then { s with input := s.input ++ translateUserMessageToResponses outside msg }
  else if roleOf msg = "assistant" then
    { s with input := s.input ++ translateAssistantMessageToResponses B msg }
  else if roleOf msg = "system" ∨ roleOf msg = "developer" then
    let text := plainMessageText msg
    if text = "" then s
    else if s.input = [] then { s with instructions := s.instructions ++ [text] }
    -- A text that went to the front here would move everything behind it.
    else { s with input := s.input ++ [developerItem text] }
  else s

def systemInstructions (anthropic : Json) : List String :=
  match anthropic.get? "system" with
  | some (.str s) => if s = "" then [] else [s]
  | some (.arr blocks) =>
    let text := joinLines (blocks.filterMap (Json.getStr? "text"))
    if text = "" then [] else [text]
  | _ => []

/-- The input and the instructions of a request. -/
def responsesDraft (anthropic : Json) : ResponsesDraft :=
  ((anthropic.getArr? "messages").getD []).foldl (ResponsesDraft.step B outside)
    { instructions := systemInstructions anthropic }

/-! ### The request -/

/-- The fields that are copied, with their names on the other side. -/
def scalarFields : List (String × String) := [("top_p", "top_p"), ("stop_sequences", "stop")]

def copyScalarFields (anthropic : Json) : List (String × Json) :=
  scalarFields.filterMap fun field => (anthropic.get? field.1).map fun value => (field.2, value)

/-- A subagent inherits the mode of its session. -/
def withoutMode (params : Json) : Json :=
  match params.get? "properties" with
  | some (.obj props) => params.insert "properties" ((Json.obj props).remove "mode")
  | _ => params

def responsesTool? (tool : Json) : Option Json :=
  (tool.getStr? "name").map fun name =>
    let params := (tool.get? "input_schema").getD (.obj [])
    .obj [("type", .str "function"), ("name", .str name),
      ("description", .str ((tool.getStr? "description").getD "")),
      ("parameters", if name = "Agent" then withoutMode params else params), ("strict", .bool false)]

def responsesTools (anthropic : Json) : List Json :=
  ((anthropic.getArr? "tools").getD []).filterMap responsesTool?

def translateToolChoice (toolChoice : Json) : Option Json :=
  match toolChoice.getStr? "type" with
  | some type =>
    if type = "auto" then some (.str "auto")
    else if type = "any" then some (.str "required")
    else if type = "none" then some (.str "none")
    else if type = "tool" then
      (toolChoice.getStr? "name").map fun name => .obj [("type", .str "function"), ("name", .str name)]
    else none
  | none => none

def toolChoiceOf (anthropic : Json) : Option Json :=
  ((anthropic.get? "tool_choice").bind translateToolChoice).or
    (if responsesTools anthropic = [] then none else some (.str "auto"))

def effortRank (s : String) : Option ℤ :=
  if s = "minimal" then some (-1)
  else if s = "low" then some 0
  else if s = "medium" then some 1
  else if s = "high" then some 2
  else if s = "xhigh" then some 3
  else if s = "max" then some 4
  else none

/-- The effort that the client asked for, if it named one. -/
def requestedEffort (body : Json) : Option String := do
  let effort ← (← body.get? "output_config").getStr? "effort"
  let effort := String.ofList (Text.trim effort.toList)
  (effortRank effort).map fun _ => effort

/-- The effort that a thinking budget stands for. -/
def budgetEffort (thinking : Json) : Option String :=
  if thinking.getStr? "type" = some "enabled" then
    match (thinking.get? "budget_tokens").bind Json.asU64? with
    | some budget => some (if budget ≤ 4096 then "low" else if budget ≤ 16384 then "medium" else "high")
    | none => some "medium"
  else none

def effortOf (anthropic : Json) : Option String :=
  match requestedEffort anthropic with
  -- Nothing above `high` is known there.
  | some effort => some (if effort = "xhigh" ∨ effort = "max" then "high" else effort)
  | none => (anthropic.get? "thinking").bind budgetEffort

def reasoningFields (anthropic : Json) : List (String × Json) :=
  match effortOf anthropic with
  | some effort => [("reasoning", .obj [("effort", .str effort), ("summary", .str "auto")]),
      ("stream_options", .obj [("reasoning_summary_delivery", .str "sequential_cutoff")])]
  | none => []

def joinParagraphs (texts : List String) : String :=
  String.ofList (List.intercalate ['\n', '\n'] (texts.map String.toList))

def instructionsField (instructions : List String) : List (String × Json) :=
  if instructions = [] then [] else [("instructions", .str (joinParagraphs instructions))]

def anthropicToOpenaiResponsesRequest (anthropic : Json) (includeMaxOutputTokens : Bool) :
    Except String Json :=
  match anthropic.getStr? "model" with
  | none => .error "missing model field"
  | some model =>
    let draft := responsesDraft B outside anthropic
    let stream := match anthropic.get? "stream" with
      | some (.bool b) => b
      | _ => false
    let tools := responsesTools anthropic
    let maxTokens := if includeMaxOutputTokens then (anthropic.get? "max_tokens").bind Json.asU64? else none
    .ok (.obj ([("model", .str model), ("input", .arr draft.input), ("stream", .bool stream)] ++
      copyScalarFields anthropic ++
      (if tools = [] then [] else [("tools", .arr tools)]) ++
      ((toolChoiceOf anthropic).map fun choice => ("tool_choice", choice)).toList ++
      [("parallel_tool_calls", .bool false), ("include", .arr [.str "reasoning.encrypted_content"])] ++
      instructionsField draft.instructions ++
      (maxTokens.map fun n => ("max_output_tokens", Json.num (toString n))).toList ++
      reasoningFields anthropic ++
      ((((anthropic.get? "metadata").bind (Json.getStr? "user_id"))).map
        fun id => ("prompt_cache_key", Json.str id)).toList))

end Headroom.OpenAi
