import Headroom.Foundation.Bytes
import Headroom.Foundation.JsonObject
import Headroom.Foundation.Text

/-!
# Cut continuations

A continuation whose stream ended in the middle of an answer is sent again. Whether one did is told by the
names of the events that end a turn, which are looked for in the text of the body.
-/

open Foundation

namespace Headroom.Proxy

/-! ### Streams and JSON -/

/-- Whether a body begins with a field of an event. -/
def looksLikeSse (body : Bytes) : Bool :=
  let head := fromUtf8Lossy (body.take 64)
  let first := head.dropWhile fun c => c == '\r' || c == '\n'
  "event:".toList.isPrefixOf first || "data:".toList.isPrefixOf first

/-- A header says whether a body is a stream, and without one the body does. -/
def continuationBodyIsSse (body : Bytes) (contentType : Option String) : Bool :=
  match (contentType.map fun ct => Text.trim ct.toList).filter (!·.isEmpty) with
  | some ct => Text.contains "text/event-stream".toList ct
  | none => looksLikeSse body

/-- JSON that does not end with a bracket. -/
def continuationJsonLooksTruncated (body : Bytes) : Bool :=
  match body.reverse.find? (!isAsciiWhitespace ·) with
  | none => true
  | some b => !(b = 125 || b = 93)

/-! ### Chat streams -/

/-- A tool call so far. -/
structure ChatCall where
  index : ℕ
  id : String := ""
  name : String := ""
  arguments : String := ""

/-- A chat stream so far; the tool calls are in the order in which they came first. -/
structure ChatFold where
  model : Json := .null
  content : String := ""
  reasoning : String := ""
  calls : List ChatCall := []
  finishReason : Json := .null
  usage : Json := .null
  chunks : ℕ := 0

/-- The lines of a text without their endings. -/
def textLines (text : List Char) : List (List Char) :=
  let pieces := text.splitOn '\n'
  let ended := pieces.dropLast.map fun line => if line.getLast? = some '\r' then line.dropLast else line
  ended ++ (pieces.getLast?.filter (!·.isEmpty)).toList

namespace ChatCall

/-- More of a tool call. -/
def add (call : ChatCall) (tc : Json) : ChatCall :=
  let function := tc.get? "function"
  { call with
    id := (tc.getStr? "id").getD call.id
    name := call.name ++ ((function.bind (Json.getStr? "name")).getD "")
    arguments := call.arguments ++ ((function.bind (Json.getStr? "arguments")).getD "") }

def toJson (call : ChatCall) : Json :=
  .obj [("id", .str call.id), ("type", .str "function"),
    ("function", .obj [("name", .str call.name), ("arguments", .str call.arguments)])]

end ChatCall

namespace ChatFold

def toolCall (f : ChatFold) (tc : Json) : ChatFold :=
  let index := ((tc.get? "index").bind Json.asU64?).getD 0
  let calls := if f.calls.any (·.index = index) then f.calls else f.calls ++ [{ index := index }]
  { f with calls := calls.map fun call => if call.index = index then call.add tc else call }

/-- A field that is there and not null. -/
def present? (key : String) (j : Json) : Option Json :=
  (j.get? key).filter fun v => v != .null

/-- One chunk of a chat stream. -/
def chunk (f : ChatFold) (chunk : Json) : ChatFold :=
  let f := { f with chunks := f.chunks + 1, model := (present? "model" chunk).getD f.model,
                    usage := (present? "usage" chunk).getD f.usage }
  match (chunk.getArr? "choices").bind List.head? with
  | none => f
  | some choice =>
    let f := { f with finishReason := (present? "finish_reason" choice).getD f.finishReason }
    match choice.get? "delta" with
    | none => f
    | some delta =>
      let f := { f with content := f.content ++ (delta.getStr? "content").getD "",
                        reasoning := f.reasoning ++ (delta.getStr? "reasoning_content").getD "" }
      ((delta.getArr? "tool_calls").getD []).foldl toolCall f

/-- The message of a completion. -/
def message (f : ChatFold) : Json :=
  .obj ([("role", .str "assistant"), ("content", .str f.content)] ++
    (if f.reasoning.isEmpty then [] else [("reasoning_content", .str f.reasoning)]) ++
    (if f.calls.isEmpty then [] else [("tool_calls", .arr (f.calls.map ChatCall.toJson))]))

def completion (f : ChatFold) : Json :=
  .obj [("object", .str "chat.completion"), ("model", f.model),
    ("choices", .arr [.obj [("index", .num "0"), ("message", f.message), ("finish_reason", f.finishReason)]]),
    ("usage", f.usage)]

end ChatFold

variable (read : String → Option Json)

/-- A chat stream as one completion; none for a text without chunks. -/
def chatStreamToCompletion (body : List Char) : Option Json :=
  let chunks := (textLines body).filterMap fun line =>
    if "data:".toList.isPrefixOf line then read (String.ofList (Text.trim (line.drop 5))) else none
  let fold := chunks.foldl ChatFold.chunk {}
  if fold.chunks = 0 then none else some fold.completion

/-! ### The verdict -/

/-- The verdict of a Responses stream, and the name that tells it. -/
def responsesMarkers : List (String × String) :=
  [("response.failed", "failed"), ("response.incomplete", "incomplete"), ("response.completed", "completed")]

/-- The verdict of a stream that came to its end. -/
def continuationStreamTerminal (body : Bytes) (provider : String) : Option String :=
  if provider ≠ "openai_responses" ∧ provider ≠ "anthropic" then none
  else
    let text := fromUtf8Lossy body
    if provider = "openai_responses" then
      (responsesMarkers.find? fun marker => Text.contains marker.1.toList text).map Prod.snd
    else if Text.contains "message_delta".toList text then some "message_delta"
    else none

/-- Whether a body is worth sending again. -/
def continuationCutRetryable (body : Bytes) (contentType provider : String) : Bool :=
  if provider = "openai_responses" ∨ provider = "anthropic" then
    (continuationStreamTerminal body provider).isNone && continuationBodyIsSse body (some contentType)
  else if provider = "openai" then
    if continuationBodyIsSse body (some contentType) then
      (chatStreamToCompletion read (fromUtf8Lossy body)).all fun turn =>
        ((turn.getArr? "choices").bind List.head?).bind (Json.get? "finish_reason") == some .null
    else continuationJsonLooksTruncated body
  else false

end Headroom.Proxy
