import Headroom.Redact.Restore
import Headroom.Sse.Framing

/-!
# Placeholders in event streams

An event stream is framed first. A delta whose text ends inside a placeholder is held until the
next delta of the same stream, which takes over the unfinished placeholder. Then every event is
restored inside its decoded JSON. A body that is no event stream passes through.
-/

open Foundation Headroom.Redact

namespace Headroom.Sse

/-! ### Paths -/

/-- One step from the root of an event towards its text. -/
inductive Seg
  | key (k : String)
  | index (i : ℕ)
  deriving DecidableEq

def Seg.get? : Seg → Json → Option Json
  | .key k, v => v.get? k
  | .index i, v => v.asArr?.bind fun items => items[i]?

def leaf (v : Json) (path : List Seg) : Option Json := path.foldlM (fun v seg => seg.get? v) v

/-- The value with another one at the end of a path, if the path leads to one. -/
def setLeaf (new : Json) : List Seg → Json → Json
  | [], _ => new
  | .key k :: path, v =>
    match v.get? k with
    | some item => v.insert k (setLeaf new path item)
    | none => v
  | .index i :: path, .arr items =>
    match items[i]? with
    | some item => .arr (items.set i (setLeaf new path item))
    | none => .arr items
  | .index _ :: _, v => v

def isString : Json → Bool
  | .str _ => true
  | _ => false

def asBool? : Json → Option Bool
  | .bool b => some b
  | _ => none

/-! ### The stream of an event -/

/-- The JSON text of a field, empty when absent. -/
def field (outside : Outside) (v : Json) (key : String) : Bytes :=
  ((v.get? key).map outside.printJson).getD []

/-- A `content_block_delta`: one stream for each block and kind. -/
def anthropicLeaf (outside : Outside) (v : Json) : Option (Bytes × List Seg) := do
  let kind ← (← v.get? "type").asStr?
  if kind ≠ "content_block_delta" then none
  else
    let deltaType ← (← (← v.get? "delta").get? "type").asStr?
    let text ←
      if deltaType = "text_delta" then some "text"
      else if deltaType = "input_json_delta" then some "partial_json"
      else if deltaType = "thinking_delta" then some "thinking"
      else none
    some (ascii "anthropic:" ++ field outside v "index" ++ ascii ":" ++ utf8 deltaType,
      [.key "delta", .key text])

/-- A `response.*.delta` carries its text in `delta`. -/
def responsesLeaf (outside : Outside) (v : Json) : Option (Bytes × List Seg) := do
  let kind ← (← v.get? "type").asStr?
  if !((ascii "response.").isPrefixOf (utf8 kind)) || !((ascii ".delta").isSuffixOf (utf8 kind)) then none
  else
    let delta ← v.get? "delta"
    if !isString delta then none
    else
      some (ascii "responses:" ++ utf8 kind ++ ascii ":" ++ field outside v "item_id" ++ ascii ":" ++
        field outside v "output_index" ++ ascii ":" ++ field outside v "content_index" ++ ascii ":" ++
        field outside v "summary_index", [.key "delta"])

/-- One choice whose delta has exactly one text. -/
def chatLeaf (outside : Outside) (v : Json) : Option (Bytes × List Seg) := do
  let [choice] ← (← v.get? "choices").asArr? | none
  let delta ← choice.get? "delta"
  let texts := (["content", "reasoning_content", "reasoning"].filter fun text =>
    (delta.get? text).any isString).map fun text => (utf8 text, [Seg.key text])
  let calls := ((delta.get? "tool_calls").bind Json.asArr?).getD []
  let arguments := calls.zipIdx.filterMap fun (call, j) =>
    if ((call.get? "function").bind (Json.get? "arguments")).any isString then
      some (ascii "tool:" ++ field outside call "index",
        [Seg.key "tool_calls", .index j, .key "function", .key "arguments"])
    else none
  let [(name, tail)] ← some (texts ++ arguments) | none
  some (ascii "chat:" ++ field outside choice "index" ++ ascii ":" ++ name,
    [.key "choices", .index 0, .key "delta"] ++ tail)

/-- One candidate with exactly one text; thoughts stream apart. -/
def geminiLeaf (outside : Outside) (v : Json) : Option (Bytes × List Seg) := do
  let [candidate] ← (← v.get? "candidates").asArr? | none
  let parts ← (← (← candidate.get? "content").get? "parts").asArr?
  let [(part, k)] ← some (parts.zipIdx.filter fun p => (p.1.get? "text").any isString) | none
  let thought := ((part.get? "thought").bind asBool?).getD false
  some (ascii "gemini:" ++ field outside candidate "index" ++ ascii ":" ++
      ascii (if thought then "true" else "false"),
    [.key "candidates", .index 0, .key "content", .key "parts", .index k, .key "text"])

/-- The stream of a delta and the path to its text. -/
def streamLeaf (outside : Outside) (v : Json) : Option (Bytes × List Seg) :=
  anthropicLeaf outside v <|> responsesLeaf outside v <|> chatLeaf outside v <|> geminiLeaf outside v

/-! ### The lines of an event -/

/-- The lines of a block, each with its line feed. -/
def splitInclusive : Bytes → List Bytes
  | [] => []
  | b :: bytes =>
    if b = lf then [b] :: splitInclusive bytes
    else
      match splitInclusive bytes with
      | [] => [[b]]
      | line :: lines => (b :: line) :: lines

/-- A line without the line feeds and carriage returns at its end. -/
def trimEol (line : Bytes) : Bytes := (line.reverse.dropWhile fun b => b = lf || b = cr).reverse

/-- The range and the payload of every `data:` line, from a position on. -/
def dataLinesFrom (at_ : ℕ) : List Bytes → List ((ℕ × ℕ) × Bytes)
  | [] => []
  | line :: lines =>
    let body := trimEol line
    let rest := dataLinesFrom (at_ + line.length) lines
    match (ascii "data:").isPrefixOf? body with
    | some payload => ((at_, at_ + body.length), ((ascii " ").isPrefixOf? payload).getD payload) :: rest
    | none => rest

/-- The range and the payload of the one `data:` line of a block. -/
def singleDataLine (block : Bytes) : Option ((ℕ × ℕ) × Bytes) :=
  match dataLinesFrom 0 (splitInclusive block) with
  | [found] => some found
  | _ => none

/-- A line without its line feed, and without the carriage return before that. -/
def stripEol (line : Bytes) : Bytes :=
  if line.getLast? = some lf then stripCr line.dropLast else line

/-- A comment or a `ping`: no text, and it may pass a held delta. -/
def isKeepalive (block : Bytes) : Bool :=
  (fromUtf8? block).isSome &&
    let lines := (splitInclusive block).map stripEol
    (!lines.any fun l => (ascii "data:").isPrefixOf l) || lines.any fun l => l == ascii "event: ping"

/-! ### Deltas -/

/-- A streamed text, as received and as it goes out. -/
structure Delta where
  /-- Only deltas of one stream join. -/
  stream : Bytes
  block : Bytes
  data : ℕ × ℕ
  value : Json
  path : List Seg
  original : Bytes
  text : Bytes

def fromUtf8Lossy (outside : Outside) (bytes : Bytes) : String :=
  (fromUtf8? bytes).getD (outside.lossy bytes)

namespace Delta

def parse (outside : Outside) (block : Bytes) : Option Delta := do
  let _ ← fromUtf8? block
  let (data, payload) ← singleDataLine block
  let value ← outside.parseJson payload
  let (stream, path) ← streamLeaf outside value
  let text ← (← leaf value path).asStr?
  some { stream, block, data, value, path, original := utf8 text, text := utf8 text }

/-- The block with another payload in its data line. -/
def replacePayload (block : Bytes) (data : ℕ × ℕ) (payload : Bytes) : Bytes :=
  block.take data.1 ++ ascii "data: " ++ payload ++ block.drop data.2

/-- The event as it goes out: the same bytes unless its text changed. -/
def render (outside : Outside) (d : Delta) : Bytes :=
  if d.text = d.original then d.block
  else
    let value := setLeaf (.str (fromUtf8Lossy outside d.text)) d.path d.value
    replacePayload d.block d.data (outside.printJson value)

end Delta

/-- Where a held text may end: before any placeholder that the next text would split, from a
position on. -/
def uncutFrom (joined : Bytes) (headLength : ℕ) (i : ℕ) : ℕ :=
  if i < headLength then
    match _h : parseToken joined i with
    | some (_, len) => if headLength < i + len then i else uncutFrom joined headLength (i + len)
    | none => uncutFrom joined headLength (i + 1)
  else headLength
termination_by headLength - i
decreasing_by
  · have := parseToken_pos ‹_›
    omega
  · omega

/-- Where the held text may end once another one follows it. -/
def safeCut (head tail : Bytes) : ℕ :=
  let joined := head ++ tail
  let cut := uncutFrom joined head.length 0
  match holdFrom joined MAX_TOKEN_LEN with
  | some start => min cut start
  | none => cut

/-! ### One event -/

/-- The escape of a string, by the key it stands under. -/
def stringEscape (key : Option String) (argumentsEvent : Bool) : Escape :=
  if key = some "partial_json" ∨ key = some "arguments" then .json
  else if key = some "delta" ∧ argumentsEvent = true then .json
  else .raw

/-- Whether the prefix of a placeholder stands somewhere. -/
def holdsPrefix (bytes : Bytes) : Bool := bytes.tails.any PREFIX.isPrefixOf

/-- A value with its strings restored, and the number of misses. -/
def restoreStrings (table : RestoreTable) (argumentsEvent : Bool) (key : Option String) : Json → Json × ℕ
  | .str s =>
    if holdsPrefix (utf8 s) then
      let (out, misses) := table.restoreBytesAs (stringEscape key argumentsEvent) (utf8 s)
      (.str (fromUtf8Lossy table.global.outside out), misses)
    else (.str s, 0)
  | .arr items =>
    let (items, misses) := restoreItems key items
    (.arr items, misses)
  | .obj fields =>
    let (fields, misses) := restoreFields fields
    (.obj fields, misses)
  | v => (v, 0)
where
  restoreItems (key : Option String) : List Json → List Json × ℕ
    | [] => ([], 0)
    | item :: items =>
      let (item, m) := restoreStrings table argumentsEvent key item
      let (items, misses) := restoreItems key items
      (item :: items, m + misses)
  restoreFields : List (String × Json) → List (String × Json) × ℕ
    | [] => ([], 0)
    | (k, item) :: fields =>
      let (item, m) := restoreStrings table argumentsEvent (some k) item
      let (fields, misses) := restoreFields fields
      ((k, item) :: fields, m + misses)

/-- The JSON payload of an event, with the range of its data line. -/
def eventPayload (outside : Outside) (event : Bytes) : Option ((ℕ × ℕ) × Json) := do
  let _ ← fromUtf8? event
  let (range, payload) ← singleDataLine event
  let v ← outside.parseJson payload
  some (range, v)

/-- Whether the text of the event is tool arguments. -/
def isArgumentsEvent (v : Json) : Bool :=
  ((v.get? "type").bind Json.asStr?).any fun t => (utf8 t).tails.any (ascii "arguments").isPrefixOf

/-- One whole event restored, and the number of misses. -/
def restoreEvent (table : RestoreTable) (event : Bytes) : Bytes × ℕ :=
  if !holdsPrefix event then (event, 0)
  else
    match eventPayload table.global.outside event with
    -- There is nothing to decode into.
    | none => table.restoreBytesAs .raw event
    | some (range, v) =>
      let (v, misses) := restoreStrings table (isArgumentsEvent v) none v
      (Delta.replacePayload event range (table.global.outside.printJson v), misses)

/-! ### The adapter -/

/-- What a body is. -/
inductive Shape
  | unknown
  | sse
  | json
  | other
  deriving DecidableEq

structure PlaceholderJoin where
  shape : Shape := .unknown
  /-- Opening bytes that are too short to tell the shape by. -/
  undecided : Bytes := []
  framer : SseFramer := .new
  held : Option Delta := none

def trimAsciiStart (bytes : Bytes) : Bytes := bytes.dropWhile isAsciiWhitespace

/-- How an event stream starts. -/
def markers : List Bytes := [ascii "event:", ascii "data:", ascii ":"]

/-- The shape of a body by its first bytes, when they are enough. -/
def shapeOf (start : Bytes) : Option Shape :=
  if markers.any fun p => start.length < p.length && start.isPrefixOf p then none
  else if markers.any fun p => p.isPrefixOf start then some .sse
  else if (ascii "\x7b").isPrefixOf start || (ascii "[").isPrefixOf start then some .json
  else some .other

namespace PlaceholderJoin

/-- The escape of a restoration by bytes; an event stream is restored already. -/
def byteEscape (self : PlaceholderJoin) : Option Escape :=
  match self.shape with
  | .sse => none
  | .json => some .json
  | .unknown | .other => some .raw

/-- The events that a block becomes. -/
def join (outside : Outside) (self : PlaceholderJoin) (block : Bytes) : List Bytes × PlaceholderJoin :=
  match Delta.parse outside block with
  | none =>
    if isKeepalive block then ([block], self)
    else ((self.held.map (Delta.render outside)).toList ++ [block], { self with held := none })
  | some next =>
    let (out, next) :=
      match self.held with
      | some held =>
        if held.stream = next.stream then
          let cut := safeCut held.text next.text
          ([{ held with text := held.text.take cut }.render outside],
            { next with text := held.text.drop cut ++ next.text })
        else ([held.render outside], next)
      | none => ([], next)
    if (holdFrom next.text MAX_TOKEN_LEN).isSome then (out, { self with held := some next })
    else (out ++ [next.render outside], { self with held := none })

/-- Events restored one by one, and the number of misses. -/
def restoreEvents (table : RestoreTable) (events : List Bytes) : Bytes × ℕ :=
  let restored := events.map (restoreEvent table)
  ((restored.map Prod.fst).flatten, (restored.map Prod.snd).sum)

/-- The blocks of the framer joined and restored, for as many rounds as there are bytes. -/
def drain (table : RestoreTable) : ℕ → PlaceholderJoin → (Bytes × ℕ) × PlaceholderJoin
  | 0, self => (([], 0), self)
  | fuel + 1, self =>
    match self.framer.nextRawBlock with
    | (none, framer) => (([], 0), { self with framer })
    | (some block, framer) =>
      let (events, self) := { self with framer }.join table.global.outside block
      let (out, misses) := restoreEvents table events
      let ((rest, more), self) := drain table fuel self
      ((out ++ rest, misses + more), self)

/-- What is handed back for a chunk of decided shape. -/
def pushDecided (table : RestoreTable) (self : PlaceholderJoin) (chunk : Bytes) :
    (Bytes × ℕ) × PlaceholderJoin :=
  if self.shape ≠ .sse then ((chunk, 0), self)
  else
    let framer := self.framer.push chunk
    drain table framer.buf.length { self with framer }

/-- Feed a chunk: whole restored events of an event stream, anything else as it is. -/
def push (table : RestoreTable) (self : PlaceholderJoin) (chunk : Bytes) :
    (Bytes × ℕ) × PlaceholderJoin :=
  if self.shape = .unknown then
    let undecided := self.undecided ++ chunk
    let start := trimAsciiStart undecided
    if start.isEmpty then ((undecided, 0), { self with undecided := [] })
    else
      match shapeOf start with
      | none => (([], 0), { self with undecided })
      | some shape => { self with shape, undecided := [] }.pushDecided table undecided
  else self.pushDecided table chunk

/-- The end of the stream. -/
def finish (table : RestoreTable) (self : PlaceholderJoin) : (Bytes × ℕ) × PlaceholderJoin :=
  if self.shape ≠ .sse then ((self.undecided, 0), { self with undecided := [] })
  else
    let (out, misses) := restoreEvents table ((self.held.map (Delta.render table.global.outside)).toList)
    let (rest, framer) := self.framer.takeRemaining
    let (restored, m) := table.restoreBytesAs .raw rest
    ((out ++ restored, misses + m), { self with held := none, framer })

end PlaceholderJoin

end Headroom.Sse
