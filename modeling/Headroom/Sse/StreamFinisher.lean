import Headroom.Foundation.Json
import Headroom.Foundation.Text
import Headroom.Sse.Framing

/-!
# Closing a stream that is cut off

The finisher forwards the events of a stream to the client. A block that calls a tool is held back
until it has ended, and given up when the message ends before; a message that claims a tool call the
client never got has the claim taken back. When the stream breaks off in the middle of a message, the
finisher closes the message itself, or reports an error.
-/

open Foundation

namespace Headroom.Sse

/-- How a stream that breaks off is closed. -/
inductive DropClose where
  | tail | error
  deriving DecidableEq

/-! ### Markers -/

def TRUNCATION_MARKER : String := "\n\n[truncated: the connection to the API dropped mid-response]"

/-- The marker for a tool call that was given up, by its name and what it was aimed at. -/
def toolTruncationMarker : Option String → Option String → String
  | some name, some target =>
    "\n\n[truncated: the connection to the API dropped mid-response. " ++
      "A pending `" ++ name ++ "` tool call (" ++ target ++ ") was discarded and did NOT run. " ++
      "Re-issue it if it is still wanted.]"
  | some name, none =>
    "\n\n[truncated: the connection to the API dropped mid-response. " ++
      "A pending `" ++ name ++ "` tool call was discarded and did NOT run. " ++
      "Re-issue it if it is still wanted.]"
  | none, _ =>
    "\n\n[truncated: the connection to the API dropped mid-response. " ++
      "A pending tool call was discarded and did NOT run. " ++
      "Re-issue it if it is still wanted.]"

def TARGET_SCAN_BYTES : ℕ := 1024
def TARGET_SHOWN_CHARS : ℕ := 120

/-- The characters of a string literal up to its end, if it has one. -/
def literalValue : List Char → Option (List Char)
  | [] => none
  | '"' :: _ => some []
  | '\\' :: c :: cs => (literalValue cs).map (c :: ·)
  | ['\\'] => none
  | c :: cs => (literalValue cs).map (c :: ·)

/-- The value of one key of unfinished arguments, with the key, when all of it is there. -/
def targetOf? (partialJson : List Char) (key : String) : Option String := do
  let pattern := ("\"" ++ key ++ "\":\"").toList
  let i ← Text.find? pattern partialJson
  let value ← literalValue (partialJson.drop (i + pattern.length))
  if value = [] then none
  else
    let shown := value.take TARGET_SHOWN_CHARS
    some (key ++ ": " ++ String.ofList shown ++ if shown.length < value.length then "..." else "")

/-- What a tool call was aimed at, from the front of its arguments. -/
def callTarget (partialJson : List Char) : Option String :=
  ["file_path", "path", "notebook_path", "command", "pattern", "url"].findSome? (targetOf? partialJson)

/-! ### Events -/

/-- The kind of a content block. -/
inductive Kind where
  | text
  /-- A tool call, held back until complete. -/
  | toolUse
  /-- Anything else: it can be closed, but the marker cannot be appended to it. -/
  | closable
  deriving DecidableEq

def typeOf (v : Json) : String := (v.getStr? "type").getD ""

/-- The value at a path of keys. -/
def pointer (path : List String) (v : Json) : Option Json := path.foldlM (fun v key => v.get? key) v

def indexOf (v : Json) : ℕ := ((v.get? "index").bind Json.asU64?).getD 0

/-- The type of the block that an event starts. -/
def blockType (v : Json) : String := ((pointer ["content_block", "type"] v).bind Json.asStr?).getD ""

def kindOf (blockType : String) : Kind :=
  if blockType = "text" then .text
  else if blockType ∈ ["tool_use", "server_tool_use", "mcp_tool_use"] then .toolUse
  else .closable

/-- The events that the finisher makes itself. -/
inductive Made where
  | blockStart (index : ℕ)
  | blockDelta (index : ℕ) (text : String)
  | blockStop (index : ℕ)
  | messageDelta (data : Json)
  | messageStop
  | error
  deriving DecidableEq

/-- The name and the data of an event. -/
def Made.frame : Made → String × Json
  | .blockStart index => ("content_block_start", .obj [("type", .str "content_block_start"),
      ("index", .num (toString index)),
      ("content_block", .obj [("type", .str "text"), ("text", .str "")])])
  | .blockDelta index text => ("content_block_delta", .obj [("type", .str "content_block_delta"),
      ("index", .num (toString index)),
      ("delta", .obj [("type", .str "text_delta"), ("text", .str text)])])
  | .blockStop index => ("content_block_stop", .obj [("type", .str "content_block_stop"),
      ("index", .num (toString index))])
  | .messageDelta data => ("message_delta", data)
  | .messageStop => ("message_stop", .obj [("type", .str "message_stop")])
  | .error => ("error", .obj [("type", .str "error"), ("error", .obj [("type", .str "api_error"),
      ("message", .str "the connection to the API dropped mid-response")])])

/-- An event sent to the client: a block of the upstream as it came, or an event of the finisher's
own. -/
inductive Out (ρ : Type*) where
  | upstream (raw : ρ)
  | made (event : Made)
  deriving DecidableEq

variable {ρ : Type*}

/-- The message delta with another stop reason. -/
def rewriteStopReason (v : Json) (reason : String) : Made :=
  .messageDelta (match v.get? "delta" with
    | some delta => v.insert "delta" (delta.insert "stop_reason" (.str reason))
    | none => v)

/-! ### What the client has been told -/

structure Wire where
  sawMessageStart : Bool := false
  sawMessageStop : Bool := false
  /-- The block that is open, on the wire or held back. -/
  opened : Option (ℕ × Kind) := none
  openToolName : Option String := none
  openToolArgs : List Char := []
  maxIndex : ℕ := 0
  anyBlock : Bool := false
  outputTokens : ℕ := 0
  sawError : Bool := false
  deriving DecidableEq

/-- A tool call is open. -/
def Wire.inTool (w : Wire) : Bool := w.opened.any fun o => o.2 = .toolUse

/-- Fold one event into the picture. -/
def Wire.observe (w : Wire) (v : Json) : Wire :=
  match typeOf v with
  -- a second message starts from nothing
  | "message_start" =>
    { sawMessageStart := true
      outputTokens := ((pointer ["message", "usage", "output_tokens"] v).bind Json.asU64?).getD 0 }
  | "error" => { w with sawError := true }
  | "content_block_start" =>
    let index := indexOf v
    let kind := kindOf (blockType v)
    { w with
      openToolName :=
        if kind = .toolUse then (pointer ["content_block", "name"] v).bind Json.asStr? else none
      openToolArgs := []
      opened := some (index, kind)
      maxIndex := max w.maxIndex index
      anyBlock := true }
  | "content_block_stop" => { w with opened := none, openToolName := none, openToolArgs := [] }
  | "content_block_delta" =>
    if w.openToolName.isSome ∧ Text.utf8Length w.openToolArgs < TARGET_SCAN_BYTES then
      match (pointer ["delta", "partial_json"] v).bind Json.asStr? with
      | some part => { w with openToolArgs := w.openToolArgs ++ part.toList }
      | none => w
    else w
  | "message_delta" =>
    { w with
      outputTokens := ((pointer ["usage", "output_tokens"] v).bind Json.asU64?).getD w.outputTokens }
  | "message_stop" => { w with sawMessageStop := true }
  | _ => w

/-- The text of a marker in a block of its own. -/
def trimmedStart (text : String) : String := String.ofList (Text.trimStart text.toList)

/-- A block with the marker. -/
def markerBlock (index : ℕ) (marker : String) : List Made :=
  [.blockStart index, .blockDelta index (trimmedStart marker), .blockStop index]

/-- The marker for the block that is open. -/
def Wire.marker (w : Wire) : String :=
  match w.opened with
  | some (_, .toolUse) => toolTruncationMarker w.openToolName (callTarget w.openToolArgs)
  | _ => TRUNCATION_MARKER

/-- What closes the open block and places the marker. -/
def Wire.closing (w : Wire) : List Made :=
  match w.opened with
  | some (index, .text) => [.blockDelta index w.marker, .blockStop index]
  | some (index, .closable) => .blockStop index :: markerBlock (index + 1) w.marker
  -- the block never reached the client, so its index is free
  | some (index, .toolUse) => markerBlock index w.marker
  | none => markerBlock (if w.anyBlock then w.maxIndex + 1 else 0) w.marker

/-- The events that the stream still owes the client. -/
def Wire.tail (w : Wire) (close : DropClose) : List Made :=
  if !w.sawMessageStart || w.sawMessageStop || w.sawError then []
  else match close with
    | .error => [.error]
    | .tail =>
      w.closing ++
        [.messageDelta (.obj [("type", .str "message_delta"),
          ("delta", .obj [("stop_reason", .str "end_turn"), ("stop_sequence", .null)]),
          ("usage", .obj [("output_tokens", .num (toString w.outputTokens))])]), .messageStop]

/-! ### The finisher -/

structure FinisherState (ρ : Type*) where
  wire : Wire := {}
  /-- The blocks of a tool call that has not ended yet. -/
  withheld : List ρ := []
  /-- A complete tool call has reached the client. -/
  deliveredToolUse : Bool := false
  /-- The open tool call was given up. -/
  abandoned : Bool := false

def isBlockType (ty : String) : Bool :=
  ty ∈ ["content_block_start", "content_block_delta", "content_block_stop"]

/-- The message delta says that the message stops for a tool call. -/
def claimsTool (v : Json) : Bool :=
  (pointer ["delta", "stop_reason"] v).bind Json.asStr? = some "tool_use"

/-- A block that says which tool call was dropped, and the message delta without its claim. -/
def downgrade (w : Wire) (v : Json) : List Made :=
  markerBlock (w.maxIndex + 1) (toolTruncationMarker w.openToolName (callTarget w.openToolArgs)) ++
    [rewriteStopReason v "end_turn"]

/-- The event as it goes out. A message delta that claims a tool call without one delivered loses the
claim. -/
def gated (s : FinisherState ρ) (raw : ρ) (v : Json) : List (Out ρ) :=
  if typeOf v = "message_delta" ∧ s.deliveredToolUse = false ∧ claimsTool v then
    (downgrade s.wire v).map .made
  else [.upstream raw]

/-- One event of the stream: what goes out, and the state after it. -/
def onEvent (s : FinisherState ρ) (raw : ρ) (v : Json) : List (Out ρ) × FinisherState ρ :=
  let ty := typeOf v
  let wasOpen := s.wire.inTool
  let s : FinisherState ρ :=
    if ty = "message_start" then { wire := s.wire.observe v }
    else { s with wire := s.wire.observe v }
  if isBlockType ty then
    if s.wire.inTool then
      if s.abandoned then ([], s) else ([], { s with withheld := s.withheld ++ [raw] })
    else if wasOpen then
      if s.abandoned then ([], { s with abandoned := false })
      else if ty = "content_block_stop" then
        (s.withheld.map .upstream ++ [.upstream raw],
          { s with withheld := [], deliveredToolUse := true })
      else ([.upstream raw], { s with withheld := [] })
    else ([.upstream raw], s)
  else if wasOpen ∧ ty ∈ ["message_delta", "message_stop", "error"] then
    let s := { s with withheld := [], abandoned := true }
    (gated s raw v, s)
  else (gated s raw v, s)

/-- One block of the stream. A block without data goes straight out. -/
def onBlock (payload : ρ → Option Json) (s : FinisherState ρ) (raw : ρ) : List (Out ρ) × FinisherState ρ :=
  match payload raw with
  | none => ([.upstream raw], s)
  | some v => onEvent s raw v

/-- The blocks of a stream: what goes out, and the state after them. -/
def onBlocks (payload : ρ → Option Json) (s : FinisherState ρ) : List ρ → List (Out ρ) × FinisherState ρ
  | [] => ([], s)
  | raw :: raws =>
    ((onBlock payload s raw).1 ++ (onBlocks payload (onBlock payload s raw).2 raws).1,
      (onBlocks payload (onBlock payload s raw).2 raws).2)

/-- Everything the client receives of the blocks of a stream that then ends, with the error that it
ended in, if there was one. -/
def finishBlocks {ε : Type*} (payload : ρ → Option Json) (close : DropClose) (dropErr : Option ε)
    (raws : List ρ) : List (Except ε (Out ρ)) :=
  let (sent, s) := onBlocks payload {} raws
  let tail := s.wire.tail close
  sent.map .ok ++
    if tail.isEmpty then
      match dropErr with
      | some e => if s.wire.sawMessageStart then [] else [.error e]
      | none => []
    else tail.map fun event => .ok (.made event)

/-- The JSON of a raw block: the first data line that parses. -/
def payloadOf (fromSlice : Bytes → Option Json) (raw : Bytes) : Option Json :=
  ((raw.splitOn lf).filterMap fun line =>
    if (ascii "data:").isPrefixOf line then some (line.drop 5) else none).findSome? fromSlice

/-- The raw blocks that a framer has, for as many rounds as there are bytes. -/
def takeBlocks : ℕ → SseFramer → List Bytes × SseFramer
  | 0, f => ([], f)
  | rounds + 1, f =>
    match f.nextRawBlock with
    | (none, f) => ([], f)
    | (some raw, f) => (raw :: (takeBlocks rounds f).1, (takeBlocks rounds f).2)

/-- The raw blocks of a stream of chunks, in the order in which the loop takes them. -/
def blocksOfChunks (f : SseFramer) : List Bytes → List Bytes
  | [] => []
  | chunk :: chunks =>
    let taken := takeBlocks (f.push chunk).buf.length (f.push chunk)
    taken.1 ++ blocksOfChunks taken.2 chunks

/-- Everything the client receives of a stream of chunks. -/
def finishOnDropWith {ε : Type*} (fromSlice : Bytes → Option Json) (close : DropClose)
    (dropErr : Option ε) (chunks : List Bytes) : List (Except ε (Out Bytes)) :=
  finishBlocks (payloadOf fromSlice) close dropErr (blocksOfChunks SseFramer.new chunks)

/-! ### What an event does -/

/-- What an event says about the message, with the index and type of the block that it starts. -/
inductive Move where
  | messageStart
  | start (index : ℕ) (blockType : String)
  | delta (index : ℕ)
  | stop (index : ℕ)
  | messageDelta (claimsTool : Bool)
  | messageStop
  | error
  | other
  deriving DecidableEq

def moveOf (v : Json) : Move :=
  match typeOf v with
  | "message_start" => .messageStart
  | "error" => .error
  | "content_block_start" => .start (indexOf v) (blockType v)
  | "content_block_stop" => .stop (indexOf v)
  | "content_block_delta" => .delta (indexOf v)
  | "message_delta" => .messageDelta (claimsTool v)
  | "message_stop" => .messageStop
  | _ => .other

theorem typeOf_moveOf (v : Json) :
    (typeOf v = "message_start" ∧ moveOf v = .messageStart) ∨
    (typeOf v = "error" ∧ moveOf v = .error) ∨
    (typeOf v = "content_block_start" ∧ moveOf v = .start (indexOf v) (blockType v)) ∨
    (typeOf v = "content_block_stop" ∧ moveOf v = .stop (indexOf v)) ∨
    (typeOf v = "content_block_delta" ∧ moveOf v = .delta (indexOf v)) ∨
    (typeOf v = "message_delta" ∧ moveOf v = .messageDelta (claimsTool v)) ∨
    (typeOf v = "message_stop" ∧ moveOf v = .messageStop) ∨
    (isBlockType (typeOf v) = false ∧
      typeOf v ∉ ["message_start", "message_delta", "message_stop", "error"] ∧ moveOf v = .other) := by
  unfold moveOf isBlockType
  split <;> simp_all

theorem claimsTool_of_moveOf {v : Json} {claims : Bool} (h : moveOf v = .messageDelta claims) :
    claimsTool v = claims := by
  unfold moveOf at h
  split at h <;> simp_all

/-- What a block of the stream says; one without data says nothing. -/
def move (payload : ρ → Option Json) (raw : ρ) : Move := ((payload raw).map moveOf).getD .other

def Made.move : Made → Move
  | .blockStart index => .start index "text"
  | .blockDelta index _ => .delta index
  | .blockStop index => .stop index
  | .messageDelta data => .messageDelta (claimsTool data)
  | .messageStop => .messageStop
  | .error => .error

/-- What an event that goes out says. -/
def Out.move (payload : ρ → Option Json) : Out ρ → Move
  | .upstream raw => Sse.move payload raw
  | .made event => event.move

@[simp] theorem Out.move_upstream (payload : ρ → Option Json) (raw : ρ) :
    (Out.upstream raw).move payload = Sse.move payload raw := rfl

@[simp] theorem Out.move_made (payload : ρ → Option Json) (event : Made) :
    (Out.made event).move payload = event.move := rfl

/-- What the client has been told, without the texts of markers. -/
structure Told where
  sawMessageStart : Bool := false
  sawMessageStop : Bool := false
  opened : Option (ℕ × Kind) := none
  maxIndex : ℕ := 0
  anyBlock : Bool := false
  sawError : Bool := false
  deriving DecidableEq

def Wire.told (w : Wire) : Told :=
  ⟨w.sawMessageStart, w.sawMessageStop, w.opened, w.maxIndex, w.anyBlock, w.sawError⟩

def Told.next (t : Told) : Move → Told
  | .messageStart => { sawMessageStart := true }
  | .start index ty =>
    { t with opened := some (index, kindOf ty), maxIndex := max t.maxIndex index, anyBlock := true }
  | .stop _ => { t with opened := none }
  | .messageStop => { t with sawMessageStop := true }
  | .error => { t with sawError := true }
  | .delta _ | .messageDelta _ | .other => t

theorem told_observe (w : Wire) (v : Json) : (w.observe v).told = w.told.next (moveOf v) := by
  unfold Wire.observe moveOf
  split
  · rfl
  · rfl
  · rfl
  · rfl
  · split_ifs
    · split <;> rfl
    · rfl
  · rfl
  · rfl
  · rfl

theorem opened_observe (w : Wire) (v : Json) :
    (w.observe v).opened = (w.told.next (moveOf v)).opened := by
  rw [← told_observe]
  rfl

/-- A tool call is open once the event is folded in. -/
theorem inTool_observe (w : Wire) (v : Json) : (w.observe v).inTool =
    match moveOf v with
    | .messageStart | .stop _ => false
    | .start _ ty => kindOf ty = .toolUse
    | _ => w.inTool := by
  rw [Wire.inTool, opened_observe]
  cases moveOf v <;> rfl

theorem observe_of_other {v : Json} (h : moveOf v = .other) (w : Wire) : w.observe v = w := by
  unfold moveOf at h
  unfold Wire.observe
  split at h <;> simp_all

/-- What one event does, by what it says. -/
theorem onEvent_eq (s : FinisherState ρ) (raw : ρ) (v : Json) :
    onEvent s raw v =
      let s' : FinisherState ρ := { s with wire := s.wire.observe v }
      match moveOf v with
      | .messageStart => ([.upstream raw], { wire := s.wire.observe v })
      | .start _ ty =>
        if kindOf ty = .toolUse then
          ([], if s.abandoned then s' else { s' with withheld := s.withheld ++ [raw] })
        else if s.wire.inTool then
          if s.abandoned then ([], { s' with abandoned := false })
          else ([.upstream raw], { s' with withheld := [] })
        else ([.upstream raw], s')
      | .delta _ =>
        if s.wire.inTool then
          ([], if s.abandoned then s' else { s' with withheld := s.withheld ++ [raw] })
        else ([.upstream raw], s')
      | .stop _ =>
        if s.wire.inTool then
          if s.abandoned then ([], { s' with abandoned := false })
          else (s.withheld.map .upstream ++ [.upstream raw],
            { s' with withheld := [], deliveredToolUse := true })
        else ([.upstream raw], s')
      | .messageDelta claims =>
        (if claims ∧ s.deliveredToolUse = false then (downgrade (s.wire.observe v) v).map .made
          else [.upstream raw],
          if s.wire.inTool then { s' with withheld := [], abandoned := true } else s')
      | .messageStop | .error =>
        ([.upstream raw],
          if s.wire.inTool then { s' with withheld := [], abandoned := true } else s')
      | .other => ([.upstream raw], s') := by
  have hin := inTool_observe s.wire v
  unfold onEvent gated
  rcases typeOf_moveOf v with ⟨h, hm⟩ | ⟨h, hm⟩ | ⟨h, hm⟩ | ⟨h, hm⟩ | ⟨h, hm⟩ | ⟨h, hm⟩ | ⟨h, hm⟩ |
    ⟨h, h', hm⟩
  all_goals simp only [hm] at hin ⊢
  · simp [h, isBlockType]
  · simp [h, isBlockType]
    split <;> rfl
  · simp [h, isBlockType, hin]
    split_ifs <;> rfl
  · simp [h, isBlockType, hin]
  · simp [h, isBlockType, hin]
    split_ifs <;> rfl
  · simp [h, isBlockType, and_comm]
    split_ifs <;> rfl
  · simp [h, isBlockType]
    split_ifs <;> rfl
  · simp at h'
    simp [h, h']

theorem onBlock_other {payload : ρ → Option Json} {raw : ρ} (h : move payload raw = .other)
    (s : FinisherState ρ) : onBlock payload s raw = ([.upstream raw], s) := by
  unfold onBlock move at *
  split
  · rfl
  next v hv =>
    have hm : moveOf v = .other := by simpa [hv] using h
    simp only [onEvent_eq, hm, observe_of_other hm]

/-- A block that says something has data that says it. -/
theorem onBlock_of_move {payload : ρ → Option Json} {raw : ρ} {m : Move}
    (h : move payload raw = m) (hm : m ≠ .other) (s : FinisherState ρ) :
    ∃ v, moveOf v = m ∧ onBlock payload s raw = onEvent s raw v := by
  unfold onBlock
  unfold move at h
  split
  next hv => exact absurd (by simpa [hv] using h.symm) hm
  next v hv => exact ⟨v, by simpa [hv] using h, rfl⟩

theorem wire_onEvent (s : FinisherState ρ) (raw : ρ) (v : Json) :
    (onEvent s raw v).2.wire = s.wire.observe v := by
  rw [onEvent_eq]
  cases moveOf v with
  | messageStart => rfl
  | other => rfl
  | _ =>
    dsimp only
    split_ifs <;> rfl

theorem told_onBlock (payload : ρ → Option Json) (s : FinisherState ρ) (raw : ρ) :
    (onBlock payload s raw).2.wire.told = s.wire.told.next (move payload raw) := by
  unfold onBlock move
  cases payload raw with
  | none => rfl
  | some v => exact (congrArg Wire.told (wire_onEvent s raw v)).trans (told_observe s.wire v)

/-! ### Concrete events -/

namespace Sample

def messageStart : Json := .obj [("type", .str "message_start")]

def blockStart (index : ℕ) (ty : String) : Json :=
  .obj [("type", .str "content_block_start"), ("index", .num (toString index)),
    ("content_block", .obj [("type", .str ty)])]

def blockDelta (index : ℕ) : Json :=
  .obj [("type", .str "content_block_delta"), ("index", .num (toString index))]

def blockStop (index : ℕ) : Json :=
  .obj [("type", .str "content_block_stop"), ("index", .num (toString index))]

def messageDelta (reason : String) : Json :=
  .obj [("type", .str "message_delta"), ("delta", .obj [("stop_reason", .str reason)])]

def messageStop : Json := .obj [("type", .str "message_stop")]

/-- The text of a value, behind a blank. -/
def text (v : Json) : Bytes := 32 :: v.compact.map fun c => c.val.toUInt8

def frame (v : Json) : Bytes := ascii "data:" ++ text v ++ [lf, lf]

/-- The value whose text it is. -/
def read (vs : List Json) (bytes : Bytes) : Option Json := vs.find? fun v => text v = bytes

end Sample

end Headroom.Sse
