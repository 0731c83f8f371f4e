import Headroom.Sse.AnthropicState

/-!
# The state of a Responses stream

The events of a Responses stream are folded into the items of the output, each under its wire `id` or,
without one, under its `call_id`, and in the order in which they came up. The turn is made of the
`output` of the last envelope or, when it has none, of what was gathered.

The items are in a hash map; `scan` is the order in which it goes through its keys.
-/

open Foundation

namespace Headroom.Sse.OpenaiResponses

inductive StreamStatus where
  | opened | completed | failed | incomplete
  deriving DecidableEq

structure ContentPartState where
  partType : String := ""
  text : String := ""
  complete : Bool := false

structure ItemState where
  itemType : String := ""
  /-- The text of `output_text`. -/
  outputText : String := ""
  reasoningSummary : String := ""
  functionCallArguments : String := ""
  /-- The item as it was announced, then as it ended. -/
  metadata : Json := .null
  complete : Bool := false
  contentParts : ℕ → Option ContentPartState := fun _ => none

structure ResponseState where
  responseId : Option String := none
  model : Option String := none
  items : String → Option ItemState := fun _ => none
  /-- The keys of the items in the order in which they were first seen. -/
  order : List String := []
  /-- The output of the `response.completed` envelope. -/
  completedOutput : Option (List Json) := none
  usage : Option Json := none
  status : StreamStatus := .opened
  serviceTier : Option String := none
  incompleteReason : Option String := none

/-- The state after an event, and what was wrong with the event. -/
abbrev Outcome := ResponseState × Option StateError

/-- The key of an item: its wire `id`, or else its `call_id`. -/
def itemKey (item : Json) : Option String := (item.getStr? "id").or (item.getStr? "call_id")

namespace ResponseState

/-! ### Items -/

def noteSeen (s : ResponseState) (id : String) : ResponseState :=
  { s with order := if id ∈ s.order then s.order else s.order ++ [id] }

/-- The item under a key, created if there is none, changes. -/
def entry (s : ResponseState) (key : String) (change : ItemState → ItemState) : ResponseState :=
  { s with items := Function.update s.items key (some (change ((s.items key).getD {}))) }

/-- The first item whose metadata has a `call_id`. -/
def keyByCallId (scan : List String → List String) (s : ResponseState) (target : String) :
    Option String :=
  (scan s.order).find? fun key =>
    ((s.items key).bind fun state => state.metadata.getStr? "call_id") == some target

/-- Where an item that names itself `id` is kept. -/
def resolve (scan : List String → List String) (s : ResponseState) (item : Json) (id : String) :
    String :=
  if (item.getStr? "id").isSome then id else (s.keyByCallId scan id).getD id

/-! ### Events -/

def missing (s : ResponseState) (field : String) : Outcome := (s, some (.missingField field))

def onResponseCreated (s : ResponseState) (v : Json) : Outcome :=
  match v.get? "response" with
  | none => s.missing "response"
  | some resp =>
    ({ s with
      responseId := (resp.getStr? "id").or s.responseId
      model := (resp.getStr? "model").or s.model }, none)

def onOutputItemAdded (scan : List String → List String) (s : ResponseState) (v : Json) : Outcome :=
  match v.get? "item" with
  | none => s.missing "item"
  | some item =>
    match itemKey item with
    | none => (s, none)
    | some id =>
      let key := s.resolve scan item id
      -- what has come for the item before is kept
      ((s.noteSeen key).entry key fun state =>
        { state with itemType := (item.getStr? "type").getD "", metadata := item }, none)

def onOutputItemDone (scan : List String → List String) (s : ResponseState) (v : Json) : Outcome :=
  match v.get? "item" with
  | none => s.missing "item"
  | some item =>
    match itemKey item with
    | none =>
      let generated := "__done_" ++ toString s.order.length
      ({ s.noteSeen generated with
        items := Function.update s.items generated (some
          { itemType := (item.getStr? "type").getD "", metadata := item, complete := true }) }, none)
    | some id =>
      let key := s.resolve scan item id
      ((s.noteSeen key).entry key fun state =>
        { state with
          complete := true
          metadata := item
          itemType :=
            if state.itemType.isEmpty then (item.getStr? "type").getD state.itemType
            else state.itemType }, none)

/-- The index of the content part that an event is about. -/
def partIndex (v : Json) : Option ℕ :=
  ((v.get? "content_index").or (v.get? "part_index")).bind Json.asU64?

def onContentPartAdded (s : ResponseState) (v : Json) : Outcome :=
  match v.getStr? "item_id" with
  | none => s.missing "item_id"
  | some itemId =>
    let s := s.noteSeen itemId
    match partIndex v with
    | none => s.missing "content_index"
    | some index =>
      match v.get? "part" with
      | none => s.missing "part"
      | some part =>
        (s.entry itemId fun state =>
          { state with
            contentParts := Function.update state.contentParts index
              (some { partType := (part.getStr? "type").getD "" }) }, none)

def onContentPartDone (s : ResponseState) (v : Json) : Outcome :=
  match v.getStr? "item_id" with
  | none => s.missing "item_id"
  | some itemId =>
    match partIndex v with
    | none => s.missing "content_index"
    | some index =>
      match s.items itemId with
      | none => (s, none)
      | some state =>
        ({ s with
          items := Function.update s.items itemId (some
            { state with
              contentParts := Function.update state.contentParts index
                ((state.contentParts index).map fun part => { part with complete := true }) }) }, none)

/-- A delta: what it adds to its item. -/
def onDelta (push : String → ItemState → ItemState) (s : ResponseState) (v : Json) : Outcome :=
  match v.getStr? "item_id" with
  | none => s.missing "item_id"
  | some itemId =>
    let s := s.noteSeen itemId
    match v.getStr? "delta" with
    | none => s.missing "delta"
    | some delta => (s.entry itemId (push delta), none)

/-- The text goes to its item and, if it is there, to the content part. -/
def onOutputTextDelta (s : ResponseState) (v : Json) : Outcome :=
  s.onDelta (fun delta state =>
    { state with
      outputText := state.outputText ++ delta
      contentParts :=
        match partIndex v with
        | none => state.contentParts
        | some index => Function.update state.contentParts index
            ((state.contentParts index).map fun part => { part with text := part.text ++ delta }) }) v

def onFunctionCallArgumentsDelta (s : ResponseState) (v : Json) : Outcome :=
  s.onDelta (fun delta state =>
    { state with functionCallArguments := state.functionCallArguments ++ delta }) v

def onFunctionCallArgumentsDone (s : ResponseState) (v : Json) : Outcome :=
  match v.getStr? "item_id" with
  | none => s.missing "item_id"
  | some itemId =>
    let s := s.noteSeen itemId
    match v.getStr? "arguments" with
    | none => (s, none)
    | some args =>
      -- once there are deltas, they count
      (s.entry itemId fun state =>
        if state.functionCallArguments.isEmpty then
          { state with functionCallArguments := state.functionCallArguments ++ args }
        else state, none)

def onReasoningSummaryDelta (s : ResponseState) (v : Json) : Outcome :=
  s.onDelta (fun delta state => { state with reasoningSummary := state.reasoningSummary ++ delta }) v

/-- The reason of an incomplete response. -/
def incompleteDetails (resp : Json) : Option String :=
  (resp.get? "incomplete_details").bind (Json.getStr? "reason")

def captureEnvelopeMetadata (s : ResponseState) (v : Json) : ResponseState :=
  match v.get? "response" with
  | none => s
  | some resp =>
    { s with
      serviceTier := (resp.getStr? "service_tier").or s.serviceTier
      incompleteReason := (incompleteDetails resp).or s.incompleteReason }

/-- The output of an envelope; an empty one counts as none. -/
def envelopeOutput (resp : Json) : Option (List Json) :=
  match resp.getArr? "output" with
  | some (item :: items) => some (item :: items)
  | _ => none

def onResponseCompleted (s : ResponseState) (v : Json) : Outcome :=
  let s := { s with status := StreamStatus.completed }
  let s :=
    match v.get? "response" with
    | none => s
    | some resp =>
      { s with
        usage := ((resp.get? "usage").filter fun usage => usage ≠ Json.null).or s.usage
        completedOutput := (envelopeOutput resp).or s.completedOutput
        responseId := (resp.getStr? "id").or s.responseId }
  (s.captureEnvelopeMetadata v, none)

def onResponseIncomplete (s : ResponseState) (v : Json) : Outcome :=
  let s := { s with
    status := StreamStatus.incomplete
    incompleteReason := ((v.get? "response").bind incompleteDetails).or s.incompleteReason }
  (s.captureEnvelopeMetadata v, none)

/-- An event by its name. -/
def handle (scan : List String → List String) (s : ResponseState) (name : String) (v : Json) :
    Outcome :=
  match name with
  | "response.created" => s.onResponseCreated v
  | "response.in_progress" => (s, none)
  | "response.output_item.added" | "output_item.added" => s.onOutputItemAdded scan v
  | "response.output_item.done" | "output_item.done" => s.onOutputItemDone scan v
  | "response.content_part.added" | "content_part.added" => s.onContentPartAdded v
  | "response.content_part.done" | "content_part.done" => s.onContentPartDone v
  | "response.output_text.delta" | "output_text.delta" => s.onOutputTextDelta v
  -- the sum of the deltas is kept
  | "response.output_text.done" | "output_text.done" => (s, none)
  | "response.function_call_arguments.delta" | "function_call_arguments.delta" =>
    s.onFunctionCallArgumentsDelta v
  | "response.function_call_arguments.done" | "function_call_arguments.done" =>
    s.onFunctionCallArgumentsDone v
  | "response.reasoning_summary.delta" | "response.reasoning_summary_text.delta"
  | "reasoning_summary.delta" => s.onReasoningSummaryDelta v
  | "response.completed" => s.onResponseCompleted v
  | "error" => ({ s with status := .failed }, none)
  | "response.failed" => ({ s with status := .failed }.captureEnvelopeMetadata v, none)
  | "response.incomplete" => s.onResponseIncomplete v
  -- ends and parts of reasoning summaries, and events that are not known
  | _ => (s, none)

/-- One event. -/
def apply (scan : List String → List String) (text : JsonText) (s : ResponseState)
    (event : SseEvent) : Outcome :=
  match event.eventName with
  | none => (s, none)
  | some name =>
    if name = "ping" then (s, none)
    else
      match parseJson text event.data with
      | .error e => (s, some e)
      | .ok v => s.handle scan name v

/-- The events of a stream; what is wrong with one is left at that. -/
def run (scan : List String → List String) (text : JsonText) (events : List SseEvent) :
    ResponseState :=
  events.foldl (fun s event => (s.apply scan text event).1) {}

/-! ### The turn -/

/-- A function call: the item as it ended, with the arguments of the deltas if it has none. -/
def callItem (id : String) (item : ItemState) : Json :=
  let merged :=
    if item.metadata.isObj then item.metadata
    else .obj [("type", .str "function_call"), ("id", .str id)]
  let hasArgs := (merged.getStr? "arguments").any fun args => !args.isEmpty
  let merged :=
    if !hasArgs ∧ !item.functionCallArguments.isEmpty then
      merged.insert "arguments" (.str item.functionCallArguments)
    else merged
  if (merged.get? "id").isNone then merged.insert "id" (.str id) else merged

/-- The content that stands for a text. -/
def textContent (text : String) : Json :=
  .arr [.obj [("type", .str "output_text"), ("text", .str text)]]

/-- A message: the item as it ended if it has content, or else with the text of the deltas. -/
def messageItem (id : String) (item : ItemState) : Option Json :=
  let completeMessage :=
    item.complete && (item.metadata.getArr? "content").any fun content => !content.isEmpty
  if completeMessage then some item.metadata
  else if !item.outputText.isEmpty then
    let msg :=
      if item.metadata.isObj then item.metadata
      else .obj [("type", .str "message"), ("id", .str id), ("role", .str "assistant")]
    some (msg.insert "content" (textContent item.outputText))
  else if item.metadata.isObj then some item.metadata
  else none

/-- An item of another type. -/
def otherItem (id : String) (item : ItemState) : Option Json :=
  if item.metadata.isObj then some item.metadata
  else if !item.outputText.isEmpty then
    some (.obj [("type", .str "message"), ("id", .str id), ("role", .str "assistant"),
      ("content", textContent item.outputText)])
  else none

/-- What an item is in the output. -/
def outputItem (id : String) (item : ItemState) : Option Json :=
  let itemType :=
    if item.itemType.isEmpty then (item.metadata.getStr? "type").getD "" else item.itemType
  match itemType with
  | "function_call" => some (callItem id item)
  | "message" => messageItem id item
  | _ => otherItem id item

/-- The items of the output. -/
def output (s : ResponseState) : List Json :=
  s.completedOutput.getD (s.order.filterMap fun id => (s.items id).bind (outputItem id))

/-- The turn, and the number of its output tokens. -/
def toResponsesTurn (s : ResponseState) : Json × ℕ :=
  let outputTokens := ((s.usage.bind (Json.get? "output_tokens")).bind Json.asU64?).getD 0
  let usage := s.usage.getD
    (.obj [("input_tokens", .num "0"), ("output_tokens", .num (toString outputTokens))])
  let turn := Json.obj [("output", .arr s.output), ("usage", usage)]
  (match s.responseId with
    | some id => turn.insert "id" (.str id)
    | none => turn, outputTokens)

theorem getArr?_toResponsesTurn (s : ResponseState) :
    s.toResponsesTurn.1.getArr? "output" = some s.output := by
  rcases h : s.responseId with _ | id
  · simp only [toResponsesTurn, h]
    rfl
  · have hne : "output" ≠ "id" := by decide
    simp only [toResponsesTurn, h, Json.getArr?, Json.get?_insert_of_ne hne]
    rfl

end ResponseState

end Headroom.Sse.OpenaiResponses
