import Headroom.Foundation.RawValue
import Headroom.LiveZone.ToolExclusion

/-!
# Planning the replacements of a message

A request body is read twice: as a value, which says who sent what, and as views of its bytes, which say
where the texts stand. The tools that were called in the conversation guard their results. The plan for a
message says of each of its blocks whether its text may be compressed, folded, or neither, and at which
bytes it stands.
-/

open Foundation

namespace Headroom.LiveZone

/-- The rules of the names, and the rules that look at contents, and the settings of the process. -/
structure Rules extends NameRules where
  readOutputShouldBeProtected : List Char → Bool
  /-- Whether a text has a command in a fence. -/
  fencedShellCommand : String → Bool
  protectReads : Bool
  mcpResultMinChars : ℕ
  shellResultMinChars : ℕ

/-- A request body: a written value with blanks around it. -/
structure Body where
  before : List Char
  root : Raw
  after : List Char

namespace Body

def text (b : Body) : List Char := b.before ++ b.root.text ++ b.after

/-- The bytes of a body. -/
def bytes (b : Body) : List UInt8 := Text.encode b.text

def view (b : Body) : View := ⟨Text.utf8Length b.before, b.root⟩

/-- The bytes at which a body begins and ends. -/
def span (b : Body) : ℕ × ℕ := (0, Text.utf8Length b.text)

/-- Whether the body is JSON. -/
def valid (b : Body) : Bool := isBlank b.before && b.root.valid && isBlank b.after

end Body

/-! ### Guards -/

/-- What must be done with a result because of the tool that gave it. -/
inductive ToolGuard where
  | ccrRetrieve
  | verbatim
  | byteExact
  | losslessOnly
  | protectedRead
  | smallMcpResult (minChars : ℕ)
  | smallShellResult (minChars : ℕ)
  deriving DecidableEq

variable (R : Rules)

/-- The guard for the result of a call, by the name that the call comes to. -/
def guardOf (name : String) (input : Option Json) (excludeTools : List String) (lossless : Bool) :
    Option ToolGuard :=
  let excluded := lossless || isToolExcluded R.toNameRules name excludeTools
  if isCcrRetrieveTool R.toNameRules name then some .ccrRetrieve
  else if excluded && isVerbatimExcluded R.toNameRules name then some .verbatim
  else if excluded && isByteExactExcluded R.toNameRules name then some .byteExact
  else if R.protectReads && input.any fun input =>
      R.isReadCommand (toolCallCommandText R.toNameRules input) then some .protectedRead
  else if excluded then some .losslessOnly
  else if isMcpToolName name then some (.smallMcpResult R.mcpResultMinChars)
  else if isShellToolName name then some (.smallShellResult R.shellResultMinChars)
  else none

/-- The guard that a block of a message adds, if it is a call. -/
def guardEntry (excludeTools : List String) (lossless : Bool) (block : Json) :
    Option (String × ToolGuard) :=
  if block.getStr? "type" ≠ some "tool_use" then none
  else match block.getStr? "id", block.getStr? "name" with
  | some id, some wireName =>
    let name := unwrapToolCallName R.toNameRules wireName (block.get? "input")
    (guardOf R name (block.get? "input") excludeTools lossless).map fun guard => (id, guard)
  | _, _ => none

/-- The guards of a conversation, in the order of the calls. -/
def collectToolGuards (messages : List Json) (excludeTools : List String) (lossless : Bool) :
    List (String × ToolGuard) :=
  messages.flatMap fun message =>
    ((message.getArr? "content").getD []).filterMap (guardEntry R excludeTools lossless)

/-- The guard for a call; of several calls of one id the last counts. -/
def guardFor (guards : List (String × ToolGuard)) (id : String) : Option ToolGuard :=
  guards.reverse.lookup id

/-! ### The caller's words -/

def roleOf (message : Json) : Option String := message.getStr? "role"

/-- Whether the nearest message behind which a message stands is a command of the assistant. -/
def repliesToFence : List Json → Bool
  | [] => false
  | message :: earlier =>
    if roleOf message = some "assistant" then (message.getStr? "content").any R.fencedShellCommand
    else if roleOf message = some "user" then false
    else repliesToFence earlier

/-- Whether the message at an index answers a command that the assistant wrote into a fence. -/
def answersFencedCommand (messages : List Json) (index : ℕ) : Bool :=
  repliesToFence R (messages.take index).reverse

/-! ### Records read from views -/

/-- The field of a record under a name; an error where the name comes up twice. -/
def fieldNamed {α : Type} (fields : List (List Char × α)) (name : String) : Option (Option α) :=
  match fields.filter fun f => f.1 = name.toList with
  | [] => some none
  | [(_, w)] => some (some w)
  | _ => none

/-- The fields of a value read as those of a record: from an object by their names, from an array by
their positions. -/
def structViews (names : List String) (v : View) : Option (List (Option View)) :=
  match v.fields?, v.items? with
  | some fields, _ => names.mapM (fieldNamed fields)
  | none, some items =>
    if items.length ≤ names.length then some ((List.range names.length).map fun i => items[i]?) else none
  | none, none => none

/-- An optional field; null counts as absent. -/
def optRaw (w : Option View) : Option View :=
  w.bind fun w => match w.raw with
  | .token literal => if literal = "null".toList then none else some w
  | _ => some w

/-- An optional field that is borrowed as a text: it must be a string without escapes. -/
def optStr (w : Option View) : Option (Option String) :=
  match optRaw w with
  | none => some none
  | some w => match w.string? with
    | some escaped => if '\\' ∈ escaped then none else some (some (String.ofList escaped))
    | none => none

/-- Where a slice begins in another that holds it; both are given by their bytes in the body. -/
def bytesOffsetOf (parent child : ℕ × ℕ) : Option ℕ :=
  if child.1 < parent.1 ∨ parent.2 < child.2 then none else some (child.1 - parent.1)

/-! ### Plans -/

inductive ExclusionReason where
  | hotZoneBlockType
  | ccrRetrieveResult
  | ctxOffloadDigest
  | excludedTool
  | protectedRead
  | smallMcpResult
  | smallShellResult
  | promptText
  deriving DecidableEq

/-- What may be done with a block. -/
inductive SlotKind where
  | compressible (blockType : String) (contentText : List Char) (contentByteRange : ℕ × ℕ)
  | stringContent (contentText : List Char) (contentByteRange : ℕ × ℕ)
  | losslessOnly (blockType : String) (contentText : List Char) (contentByteRange : ℕ × ℕ)
  | excluded (blockType : String) (reason : ExclusionReason)

structure PlanSlot where
  blockIndex : ℕ
  kind : SlotKind

inductive PlanError where
  | parseFailed
  | offsetMissing
  | targetOutOfBounds

def CTX_OFFLOAD_MARKER_PREFIX : List Char := "<<ctx:".toList

def HOT_ZONE_BLOCK_TYPES : List String := ["tool_use", "thinking", "redacted_thinking", "compaction"]

/-- What is there, or an error. -/
def orError {α : Type*} (error : PlanError) : Option α → Except PlanError α
  | some a => .ok a
  | none => .error error

/-- Whether a block has a string in the field of its text. -/
def blockHasStringTextField (block : View) : Bool :=
  match structViews ["text"] block with
  | some [text] => (optRaw text).any fun w => w.string?.isSome
  | _ => false

/-- The head of a block: its type, its content and the call that it answers. -/
structure BlockHeader where
  type : Option String
  content : Option View
  toolUseId : Option String

def blockHeader (block : View) : Option BlockHeader := do
  let fields ← structViews ["type", "content", "tool_use_id"] block
  let type ← optStr (fields[0]?.bind id)
  let toolUseId ← optStr (fields[2]?.bind id)
  return ⟨type, optRaw (fields[1]?.bind id), toolUseId⟩

def blockTypeOf (block : View) (header : BlockHeader) : String :=
  match header.type with
  | some t => t
  | none => if blockHasStringTextField block then "text" else "unknown"

/-- The field of a block that holds its text, if the block is one of text or a result. -/
def textField (block : View) (header : BlockHeader) (blockType : String) :
    Except PlanError (Option View) :=
  if blockType = "tool_result" then .ok header.content
  else if blockType = "text" then do
    let fields ← orError .parseFailed (structViews ["text"] block)
    return optRaw (fields[0]?.bind id)
  else .ok none

/-- A guard that the content settles: why the text stays as it is, if it does. -/
def settleGuard (guard : Option ToolGuard) (text : List Char) : Option ExclusionReason :=
  match guard with
  | some .protectedRead => if R.readOutputShouldBeProtected text then some .protectedRead else none
  | some (.smallMcpResult minChars) => if mcpResultIsSmall text minChars then some .smallMcpResult else none
  | some (.smallShellResult minChars) =>
    if mcpResultIsSmall text minChars then some .smallShellResult else none
  | _ => none

/-- A guard that is settled by itself. -/
def guardExclusion : Option ToolGuard → Option ExclusionReason
  | some .ccrRetrieve => some .ccrRetrieveResult
  | some .verbatim => some .excludedTool
  | some .byteExact => some .excludedTool
  | _ => none

/-- The plan for the text of a block that is neither excluded by its type nor by its guard. -/
def planText (guard : Option ToolGuard) (blockOffset : ℕ) (block : View) (header : BlockHeader)
    (blockType : String) : Except PlanError SlotKind := do
  match ← textField block header blockType with
  | none => return .compressible blockType [] (blockOffset, blockOffset)
  | some field =>
    let offset ← orError .offsetMissing (bytesOffsetOf block.span field.span)
    match field.string? with
    | none => return .compressible blockType [] (blockOffset, blockOffset)
    | some escaped =>
      let unescaped ← orError .parseFailed (unescape escaped)
      let start := blockOffset + offset
      let range := (start, start + Text.utf8Length field.raw.text)
      match settleGuard R guard unescaped with
      | some reason => return .excluded blockType reason
      | none =>
        if guard = some .losslessOnly then return .losslessOnly blockType unescaped range
        else return .compressible blockType unescaped range

/-- The plan for a block. -/
def planBlock (guards : List (String × ToolGuard)) (protectText : Bool) (blockOffset : ℕ) (block : View) :
    Except PlanError SlotKind := do
  let header ← orError .parseFailed (blockHeader block)
  let blockType := blockTypeOf block header
  if protectText && blockType == "text" then return .excluded blockType .promptText
  let guard := if blockType = "tool_result" then header.toolUseId.bind (guardFor guards) else none
  if Text.contains CTX_OFFLOAD_MARKER_PREFIX block.raw.text then
    return .excluded blockType .ctxOffloadDigest
  match guardExclusion guard with
  | some reason => return .excluded blockType reason
  | none =>
    if HOT_ZONE_BLOCK_TYPES.contains blockType then return .excluded blockType .hotZoneBlockType
    planText R guard blockOffset block header blockType

/-- The plans for the blocks of a content. -/
def planBlocks (guards : List (String × ToolGuard)) (protectText : Bool) (contentOffset : ℕ)
    (content : View) : List (View × ℕ) → Except PlanError (List PlanSlot)
  | [] => .ok []
  | (block, blockIndex) :: blocks => do
    let offset ← orError .offsetMissing (bytesOffsetOf content.span block.span)
    let kind ← planBlock R guards protectText (contentOffset + offset) block
    let slots ← planBlocks guards protectText contentOffset content blocks
    return ⟨blockIndex, kind⟩ :: slots

/-- The plan for the content of a message. -/
def planContent (guards : List (String × ToolGuard)) (protectText : Bool) (contentOffset : ℕ)
    (content : View) : Except PlanError (List PlanSlot) :=
  match content.string? with
  | some escaped =>
    if protectText then .ok [⟨0, .excluded "string_content" .promptText⟩]
    else do
      let unescaped ← orError .parseFailed (unescape escaped)
      return [⟨0, .stringContent unescaped
        (contentOffset, contentOffset + Text.utf8Length content.raw.text)⟩]
  | none => do
    let blocks ← orError .parseFailed content.items?
    planBlocks R guards protectText contentOffset content blocks.zipIdx

/-- The messages of a body as views. -/
def messageViews (body : Body) : Option (List View) :=
  match structViews ["messages"] body.view with
  | some [some messages] => messages.items?
  | _ => none

/-- The content of a message as a view; an error where the message is no record. -/
def contentView (message : View) : Option (Option View) :=
  match structViews ["content"] message with
  | some [content] => some (optRaw content)
  | _ => none

/-- The plan for a message of which the view is known. -/
def planMessage (bodySpan : ℕ × ℕ) (guards : List (String × ToolGuard)) (protectText : Bool)
    (message : View) : Except PlanError (List PlanSlot) := do
  match ← orError .parseFailed (contentView message) with
  | none => return []
  | some content =>
    let inMessage ← orError .offsetMissing (bytesOffsetOf message.span content.span)
    let inBody ← orError .offsetMissing (bytesOffsetOf bodySpan message.span)
    planContent R guards protectText (inBody + inMessage) content

def planBlockReplacements (body : Body) (target : ℕ) (guards : List (String × ToolGuard))
    (protectText : Bool) : Except PlanError (List PlanSlot) := do
  let messages ← orError .parseFailed (messageViews body)
  let message ← orError .targetOutOfBounds messages[target]?
  planMessage R body.span guards protectText message

end Headroom.LiveZone
