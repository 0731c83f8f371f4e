import Headroom.Foundation.JsonObject
import Headroom.Sse.AnthropicState

/-!
# Content blocks as events

A message that was resolved by the proxy goes to the client as events: each block opens empty, is
filled by a delta, and is closed. In the other direction the message is rebuilt from the state of a
stream, each block from its start and what its deltas carried.
-/

open Foundation

namespace Headroom.Sse

/-! ### From a stream -/

def isToolBlock (t : String) : Bool := t ∈ ["tool_use", "server_tool_use", "mcp_tool_use"]

/-- The block that its deltas have filled. -/
def blockToValue (text : JsonText) (block : BlockState) : Json :=
  let v := if block.metadata.isObj then block.metadata else .obj [("type", .str block.blockType)]
  if block.blockType = "text" then
    let v := v.insert "text" (.str block.textBuffer)
    if block.citations.isEmpty then v else v.insert "citations" (.arr block.citations)
  else if block.blockType = "thinking" then
    let v := v.insert "thinking" (.str block.textBuffer)
    match block.signature with
    | some sig => v.insert "signature" (.str sig)
    | none => v
  else if isToolBlock block.blockType then
    -- no fragments mean no arguments
    v.insert "input" (if Text.trim block.partialJson.toList = [] then .obj []
      else (text.read block.partialJson).getD (.obj []))
  else v

/-- The blocks of a stream, in the order of their indices. -/
def rebuiltContent (text : JsonText) (s : AnthropicStreamState) : List Json :=
  ((s.blocks.keys.mergeSort (· ≤ ·)).filterMap s.blocks.lookup).map (blockToValue text)

/-! ### To a stream -/

/-- An event as it goes over the wire. -/
def eventBytes (name : String) (data : Bytes) : Bytes :=
  ascii "event: " ++ utf8 name ++ [lf] ++ ascii "data: " ++ data ++ [lf, lf]

/-- The fields of one block's events that the proxy does not read. -/
structure BlockExtras where
  blockType : String := ""
  start : List (String × Json) := []
  deltaEvent : List (String × Json) := []
  delta : List (String × Json) := []
  stop : List (String × Json) := []

/-- Add the fields that are not there yet. -/
def withExtras (known : Json) : Option (List (String × Json)) → Json
  | none => known
  | some extras => extras.foldl
    (fun out (key, value) => if (out.get? key).isSome then out else out.insert key value) known

/-- A block with one field emptied and the fields that its deltas carry removed. -/
def withEmpty (block : Json) (streamed : String) (deltaBorne : List String) : Json :=
  deltaBorne.foldl (fun shell key => shell.remove key) (block.insert streamed (.str ""))

/-- What a block starts with, and the delta that fills it. -/
def shellAndDelta (text : JsonText) (block : Json) (blockType : String) : Json × Option Json :=
  if blockType = "text" then
    (withEmpty block "text" ["citations"],
      some (.obj [("type", .str "text_delta"), ("text", .str ((block.getStr? "text").getD ""))]))
  else if blockType = "thinking" then
    (withEmpty block "thinking" ["signature"],
      some (.obj [("type", .str "thinking_delta"),
        ("thinking", .str ((block.getStr? "thinking").getD ""))]))
  else if isToolBlock blockType then
    (block.insert "input" (.obj []),
      some (.obj [("type", .str "input_json_delta"),
        ("partial_json", .str (text.write ((block.get? "input").getD (.obj []))))]))
  -- anything else goes out whole
  else (block, none)

/-- The events of one block. -/
def blockEvents (text : JsonText) (block : Json) (index : ℕ) (extras : Option BlockExtras) :
    List (String × Json) :=
  let blockType := (block.getStr? "type").getD "text"
  let (shell, delta) := shellAndDelta text block blockType
  let event (name : String) (fields : List (String × Json)) : Json :=
    .obj ([("type", .str name), ("index", .num (toString index))] ++ fields)
  let start := [("content_block_start", withExtras
    (event "content_block_start" [("content_block", shell)]) (extras.map BlockExtras.start))]
  let filled := delta.toList.map fun delta => ("content_block_delta", withExtras
    (event "content_block_delta" [("delta", withExtras delta (extras.map BlockExtras.delta))])
    (extras.map BlockExtras.deltaEvent))
  -- the signature has a delta of its own
  let signed := (if blockType = "thinking" then block.getStr? "signature" else none).toList.map
    fun sig => ("content_block_delta", event "content_block_delta"
      [("delta", .obj [("type", .str "signature_delta"), ("signature", .str sig)])])
  let stop := [("content_block_stop", withExtras
    (event "content_block_stop" []) (extras.map BlockExtras.stop))]
  start ++ filled ++ signed ++ stop

/-- The events of a message, numbered from an index. The numbers are checked sums, so there are none
past 64 bits. -/
def synthesizeEvents (text : JsonText) :
    List Json → ℕ → List (Option BlockExtras) → Option (List (String × Json))
  | [], _, _ => some []
  | block :: content, index, extras =>
    if index < 2 ^ 64 then
      (synthesizeEvents text content (index + 1) extras.tail).map
        (blockEvents text block index extras.head?.join ++ ·)
    else none

def synthesizeBlocks (text : JsonText) (content : List Json) (startIndex : ℕ)
    (extras : List (Option BlockExtras)) : Option (List Bytes) :=
  (synthesizeEvents text content startIndex extras).map
    (List.map fun e => eventBytes e.1 (text.toVec e.2))

end Headroom.Sse
