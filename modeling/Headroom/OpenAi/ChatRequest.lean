import Headroom.OpenAi.Request

/-!
# Requests to Chat Completions

The client's messages become messages of Chat Completions. A tool result is a message of its own; what
else a user says is sent before the results. A system message that comes while calls wait for their
results is held until they are there.
-/

open Foundation

namespace Headroom.OpenAi

/-! ### Results as text -/

/-- A character as an escape with four hexadecimal digits. -/
def unicodeEscape (unit : ℕ) : List Char :=
  ['\\', 'u', Nat.digitChar (unit / 4096), Nat.digitChar (unit / 256 % 16), Nat.digitChar (unit / 16 % 16),
    Nat.digitChar (unit % 16)]

/-- One character inside a string, in ASCII. -/
def asciiEscape (c : Char) : List Char :=
  if c = '"' then ['\\', '"']
  else if c = '\\' then ['\\', '\\']
  else if c = '\n' then ['\\', 'n']
  else if c = '\r' then ['\\', 'r']
  else if c = '\t' then ['\\', 't']
  else if c.toNat = 8 then ['\\', 'b']
  else if c.toNat = 12 then ['\\', 'f']
  else if c.toNat < 32 then unicodeEscape c.toNat
  else if c.toNat < 128 then [c]
  else if c.toNat < 65536 then unicodeEscape c.toNat
  -- A character beyond the first plane is a pair of surrogates.
  else unicodeEscape (55296 + (c.toNat - 65536) / 1024) ++ unicodeEscape (56320 + (c.toNat - 65536) % 1024)

def writeJsonString (s : String) : List Char := '"' :: s.toList.flatMap asciiEscape ++ ['"']

/-- A value in the form of Python, with blanks behind commas and colons. -/
def jsonDumps : Json → List Char
  | .null => "null".toList
  | .bool true => "true".toList
  | .bool false => "false".toList
  | .num literal => literal.toList
  | .str s => writeJsonString s
  | .arr items => '[' :: dumpItems true items ++ [']']
  | .obj fields => '\x7b' :: dumpFields true fields ++ ['\x7d']
where
  /-- The items of an array. -/
  dumpItems : Bool → List Json → List Char
    | _, [] => []
    | first, j :: js => (if first then [] else [',', ' ']) ++ jsonDumps j ++ dumpItems false js
  /-- The fields of an object. -/
  dumpFields : Bool → List (String × Json) → List Char
    | _, [] => []
    | first, (k, j) :: fs =>
      (if first then [] else [',', ' ']) ++ writeJsonString k ++ ':' :: ' ' :: jsonDumps j ++ dumpFields false fs

/-- What is used of code that is not here: two base64 codecs, and how Python writes a number. -/
structure ChatOutside where
  standard : Base64
  standardNoPad : Base64
  pythonNumber : String → String

variable (outside : ChatOutside)

/-- A value that is no text, array or object, as Python writes it. -/
def pythonStr : Json → String
  | .null => "None"
  | .bool true => "True"
  | .bool false => "False"
  | .num literal => outside.pythonNumber literal
  | .str s => s
  | .arr _ | .obj _ => ""

/-- The text of one item of a result. -/
def resultPiece? (item : Json) : Option String :=
  match item with
  | .obj _ =>
    if item.getStr? "type" = some "text" then some ((item.getStr? "text").getD "")
    else if (item.get? "type").isSome then none
    else
      match item.getStr? "text", item.get? "json" with
      | some text, _ => some text
      | none, some json => some (String.ofList (jsonDumps json))
      | none, none => none
  | .str s => some s
  | _ => none

def extractToolResultText (payload : Json) : String :=
  match payload.get? "content" with
  | none | some .null => ""
  | some (.str s) => s
  | some (.arr items) => joinLines (items.filterMap resultPiece?)
  | some (.obj fields) => String.ofList (jsonDumps (.obj fields))
  | some other => pythonStr outside other

/-! ### Images -/

def responsesImageMediaTypes : List String := ["image/jpeg", "image/png", "image/gif", "image/webp"]

def isAsciiWhitespace (c : Char) : Bool := c = ' ' || c = '\t' || c = '\n' || c.toNat = 12 || c = '\r'

/-- An image as a data URL, if it can be carried. -/
def imageBlockToDataUrl (block : Json) : Option String := do
  let source ← block.get? "source"
  if source.getStr? "type" ≠ some "base64" then none
  let mediaType ← source.getStr? "media_type"
  if mediaType ∉ responsesImageMediaTypes then none
  let data ← source.getStr? "data"
  let compact := String.ofList (data.toList.filter fun c => !isAsciiWhitespace c)
  if compact = "" then none
  let decoded ← (outside.standard.decode compact).or (outside.standardNoPad.decode compact)
  some ("data:" ++ mediaType ++ ";base64," ++ outside.standard.encode decoded)

/-! ### Messages -/

def roleOf (msg : Json) : String := (msg.getStr? "role").getD "user"

def textMessage (role text : String) : Json := .obj [("role", .str role), ("content", .str text)]

/-- A result as a message. -/
def toolMessage (block : Json) : Json :=
  let result := extractToolResultText outside block
  let isError := match block.get? "is_error" with
    | some (.bool b) => b
    | _ => false
  .obj [("role", .str "tool"), ("tool_call_id", .str ((block.getStr? "tool_use_id").getD "")),
    ("content", .str (if isError then "Error: " ++ result else result))]

def omittedBlock (kind : String) : String := "[unsupported content block omitted: " ++ kind ++ "]"

/-- What a user's message is made of. -/
structure UserParts where
  textParts : List String := []
  toolResults : List Json := []
  imageUrls : List String := []

def UserParts.addBlock (parts : UserParts) (block : Json) : UserParts :=
  match block.getStr? "type" with
  | some type =>
    if type = "text" then
      match block.getStr? "text" with
      | some text => { parts with textParts := parts.textParts ++ [text] }
      | none => parts
    else if type = "tool_result" then { parts with toolResults := parts.toolResults ++ [block] }
    else if type = "image" then
      match imageBlockToDataUrl outside block with
      | some url => { parts with imageUrls := parts.imageUrls ++ [url] }
      | none => { parts with textParts := parts.textParts ++ [omittedBlock "image"] }
    else { parts with textParts := parts.textParts ++ [omittedBlock type] }
  | none => { parts with textParts := parts.textParts ++ [omittedBlock "unknown"] }

def textPart (text : String) : Json := .obj [("type", .str "text"), ("text", .str text)]

def imagePart (url : String) : Json :=
  .obj [("type", .str "image_url"), ("image_url", .obj [("url", .str url)])]

/-- What a user says besides results. -/
def UserParts.said (parts : UserParts) : List Json :=
  if parts.textParts = [] ∧ parts.imageUrls = [] then []
  else if parts.imageUrls = [] then [textMessage "user" (joinLines parts.textParts)]
  else [.obj [("role", .str "user"),
    ("content", .arr (parts.textParts.map textPart ++ parts.imageUrls.map imagePart))]]

def translateUserBlocks (blocks : List Json) : List Json :=
  let parts := blocks.foldl (UserParts.addBlock outside) {}
  parts.said ++ parts.toolResults.map (toolMessage outside)

def translateUserMessage (msg : Json) : List Json :=
  match msg.get? "content" with
  | some (.str s) => [textMessage "user" s]
  | some (.arr blocks) =>
    match blocks with
    | [block] =>
      if block.getStr? "type" = some "tool_result" then [toolMessage outside block]
      else translateUserBlocks outside blocks
    | _ => translateUserBlocks outside blocks
  | _ => [textMessage "user" ""]

/-- The text of a block, if it is a text block. -/
def blockText? (block : Json) : Option String :=
  if block.getStr? "type" = some "text" then block.getStr? "text" else none

def toolCall (block : Json) : Json :=
  .obj [("id", .str ((block.getStr? "id").getD "")), ("type", .str "function"),
    ("function", .obj [("name", .str ((block.getStr? "name").getD "")),
      ("arguments", .str (String.ofList ((block.get? "input").getD (.obj [])).compact))])]

def isToolUse (block : Json) : Bool := block.getStr? "type" = some "tool_use"

def translateAssistantMessage (includeToolCalls : Bool) (msg : Json) : List Json :=
  match msg.get? "content" with
  | some (.str s) => [textMessage "assistant" s]
  | some (.arr blocks) =>
    let textParts := blocks.filterMap blockText?
    let toolCalls := (blocks.filter isToolUse).map toolCall
    let content := if textParts = [] then "" else joinLines textParts
    if includeToolCalls ∧ toolCalls ≠ [] then
      [.obj [("role", .str "assistant"), ("content", .str content), ("tool_calls", .arr toolCalls)]]
    else [textMessage "assistant" content]
  | _ => [textMessage "assistant" ""]

def plainMessageText (msg : Json) : String :=
  match msg.get? "content" with
  | some (.str s) => s
  | some .null | none => ""
  | some (.arr blocks) => joinLines (blocks.filterMap (Json.getStr? "text"))
  | some other => String.ofList other.compact

/-- The messages so far, and the system messages that wait. -/
structure ChatDraft where
  messages : List Json := []
  held : List Json := []

/-- Whether the last message has calls. -/
def awaitingReplies (messages : List Json) : Bool := (messages.getLast?.bind (Json.get? "tool_calls")).isSome

namespace ChatDraft

/-- What one message of the client adds. -/
def add (includeToolCalls : Bool) (s : ChatDraft) (msg : Json) : ChatDraft :=
  if roleOf msg = "user" then { s with messages := s.messages ++ translateUserMessage outside msg }
  else if roleOf msg = "assistant" then
    { s with messages := s.messages ++ translateAssistantMessage includeToolCalls msg }
  else if roleOf msg = "system" ∨ roleOf msg = "developer" then
    let text := plainMessageText msg
    if text = "" then s else { s with held := s.held ++ [textMessage "system" text] }
  else s

/-- Release what is held. -/
def flush (s : ChatDraft) : ChatDraft := { messages := s.messages ++ s.held, held := [] }

def step (includeToolCalls : Bool) (s : ChatDraft) (msg : Json) : ChatDraft :=
  let s := s.add outside includeToolCalls msg
  if awaitingReplies s.messages then s else s.flush

end ChatDraft

/-- The system prompt as a message. -/
def systemPrompt (anthropic : Json) : List Json :=
  match anthropic.get? "system" with
  | some (.str s) => [textMessage "system" s]
  | some (.arr blocks) => [textMessage "system" (joinLines (blocks.filterMap (Json.getStr? "text")))]
  | _ => []

/-- The messages of a request. -/
def chatMessages (includeToolCalls : Bool) (anthropic : Json) : List Json :=
  match anthropic.getArr? "messages" with
  | some msgs =>
    (msgs.foldl (ChatDraft.step outside includeToolCalls) { messages := systemPrompt anthropic }).flush.messages
  | none => systemPrompt anthropic

/-! ### The request -/

def chatTool? (tool : Json) : Option Json :=
  (tool.getStr? "name").map fun name =>
    .obj [("type", .str "function"), ("function", .obj [("name", .str name),
      ("description", .str ((tool.getStr? "description").getD "")),
      ("parameters", (tool.get? "input_schema").getD (.obj []))])]

def anthropicToOpenaiRequest (anthropic : Json) (includeMaxOutputTokens includeToolCalls : Bool) :
    Except String Json :=
  match anthropic.getStr? "model" with
  | none => .error "missing model field"
  | some model =>
    let stream := match anthropic.get? "stream" with
      | some (.bool b) => b
      | _ => false
    let maxTokens := if includeMaxOutputTokens then (anthropic.get? "max_tokens").bind Json.asU64? else none
    let tools := ((anthropic.getArr? "tools").getD []).filterMap chatTool?
    .ok (.obj ([("model", .str model), ("messages", .arr (chatMessages outside includeToolCalls anthropic)),
        ("stream", .bool stream)] ++
      (maxTokens.map fun n => ("max_tokens", Json.num (toString n))).toList ++
      ((anthropic.get? "temperature").map fun t => ("temperature", t)).toList ++
      (if tools = [] then [] else [("tools", .arr tools)])))

end Headroom.OpenAi
