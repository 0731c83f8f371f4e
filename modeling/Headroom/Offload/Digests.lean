import Headroom.LiveZone.Planner
import Headroom.Foundation.Threading
import Headroom.Offload.Gate

/-!
# Digests in place of contents

A large tool result is replaced with a digest: a part of it, or what a compressor makes of it, and a pointer to
the original. So are the large strings in the inputs of tool calls. A content that was not converted before may
be converted where that costs little, at the tail of the conversation or on a turn that rebuilds the cache; one
that was is converted everywhere.
-/

open Foundation

namespace Headroom.Offload

/-- What is taken from elsewhere: the key of a content, the compressors, the tokenizer and the rules of names. -/
structure Tools where
  computeKey : String → String
  compressBlock : String → Option String
  countText : String → ℕ
  rules : LiveZone.NameRules
  /-- A key is written in hexadecimal digits. -/
  key_hex : ∀ text, ∀ c ∈ (computeKey text).toList, c ∈ "0123456789abcdef".toList

structure CtxOffloadConfig where
  minBytes : ℕ
  staleMargin : ℕ
  staleWindow : ℕ

/-- The session of a request, and whether its turn rebuilds the cache. The gate is passed on its own, as the
set of the session. -/
structure OffloadPolicy where
  sessionKey : String
  rebuildBoundary : Bool

structure OffloadOutcome where
  blocksOffloaded : ℕ := 0
  blocksDeferred : ℕ := 0
  bytesDeferred : ℕ := 0
  deferredMinDistance : Option ℕ := none
  deferredMaxDistance : Option ℕ := none
  bytesAfterDeepestDeferral : ℕ := 0
  frozenNewOffloads : ℕ := 0
  windowOffloads : ℕ := 0
  tokensSaved : ℕ := 0
  records : List OffloadRecord := []

def OffloadOutcome.noteDeferredDistance (o : OffloadOutcome) (distance : ℕ) : OffloadOutcome :=
  { o with
    deferredMinDistance := some ((o.deferredMinDistance.map (min · distance)).getD distance)
    deferredMaxDistance := some ((o.deferredMaxDistance.map (max · distance)).getD distance) }

def MARKER_PREFIX : List Char := LiveZone.CTX_OFFLOAD_MARKER_PREFIX

def PREVIEW_BYTES : ℕ := 3072

def PREVIEW_FLOOR_BYTES : ℕ := 600

def PREVIEW_CAP_BYTES : ℕ := 512

def PREVIEW_CAP_GATE_NS : String := "p512:"

def TOOL_USE_GATE_NS : String := "tool_use:"

def TOOL_USE_KEEP_VERBATIM : List String := ["Agent", "Task", "SendMessage"]

def previewBudget (len : ℕ) : ℕ := min PREVIEW_BYTES (max PREVIEW_FLOOR_BYTES (len / 4))

/-- Whether a content was converted before in this session, the entry it is recorded under, and the budget its
digest is cut with. An entry without the namespace is one that was cut with the former budget. -/
def gateLookup (gate : Finset String) (policy : Option OffloadPolicy) (key : String) (len : ℕ) :
    Bool × String × ℕ :=
  let cappedKey := PREVIEW_CAP_GATE_NS ++ key
  match policy with
  | none => (false, cappedKey, PREVIEW_CAP_BYTES)
  | some _ =>
    if key ∈ gate then (true, key, previewBudget len)
    else (decide (cappedKey ∈ gate), cappedKey, PREVIEW_CAP_BYTES)

/-- The longest beginning of a text that has no more than some bytes. -/
def cutAt (maxBytes : ℕ) : List Char → List Char
  | [] => []
  | c :: cs => if c.utf8Size ≤ maxBytes then c :: cutAt (maxBytes - c.utf8Size) cs else []

def preview (text : String) (maxBytes : ℕ) : String :=
  String.ofList (cutAt maxBytes text.toList) ++ "\n…[truncated — retrieval pointer below]"

def footer (hash : String) (origLen : ℕ) : String :=
  "\n" ++ String.ofList MARKER_PREFIX ++ hash ++ ">> (" ++ toString origLen ++
    " bytes offloaded; use the headroom_retrieve tool with hash=\"" ++ hash ++ "\")"

/-- The text of a block of text. -/
def textOf (b : Json) : Option String := if b.getStr? "type" = some "text" then b.getStr? "text" else none

/-- A text with the text of a block below it. -/
def appendText (out : String) (b : Json) : String :=
  match textOf b with
  | some t => if out = "" then t else out ++ "\n" ++ t
  | none => out

/-- The texts of a content, one below the other. -/
def toolResultText : Json → Option String
  | .str s => some s
  | .arr blocks =>
    let out := blocks.foldl appendText ""
    if out = "" then none else some out
  | _ => none

/-! ### One block -/

inductive BlockOutcome where
  | offloaded (record : OffloadRecord) (prior : Bool) (tokensSaved : ℕ)
  | deferred (bytes : ℕ)
  | skipped

variable (T : Tools)

/-- A text is too small for a digest, or is one. -/
def isTooSmall (config : CtxOffloadConfig) (original : String) : Bool :=
  Text.contains MARKER_PREFIX original.toList || Text.byteLength original ≤ config.minBytes

/-- What stands in place of a tool result. -/
def resultDigest (original : String) (budget : ℕ) : String :=
  (T.compressBlock original).getD (preview original budget) ++
    footer (T.computeKey original) (Text.byteLength original)

/-- The blocks of a content with a digest in place of the first text. All other texts go. -/
def keepDigest (digest : String) : List Json → List Json
  | [] => []
  | b :: bs =>
    if b.getStr? "type" = some "text" then
      .obj [("type", .str "text"), ("text", .str digest)] ::
        bs.filter fun b => b.getStr? "type" ≠ some "text"
    else b :: keepDigest digest bs

/-- A content with a digest in place of its texts. -/
def digestContent (digest : String) : Json → Json
  | .arr blocks => .arr (keepDigest digest blocks)
  | _ => .str digest

def offloadToolResult (config : CtxOffloadConfig) (title : String) (policy : Option OffloadPolicy)
    (isLive nearTail : Bool) (block : Json) (gate : Finset String) : (BlockOutcome × Json) × Finset String :=
  match block.get? "content" with
  | none => ((.skipped, block), gate)
  | some content =>
    match toolResultText content with
    | none => ((.skipped, block), gate)
    | some original =>
      if isTooSmall config original then ((.skipped, block), gate)
      else
        let hash := T.computeKey original
        let (prior, gateKey, budget) := gateLookup gate policy hash (Text.byteLength original)
        if policy.any (fun p => !prior && !isLive && !nearTail && !p.rebuildBoundary) then
          ((.deferred (Text.byteLength original), block), gate)
        else
          let digest := resultDigest T original budget
          let digestTokens := T.countText digest
          let originalTokens := T.countText original
          if originalTokens ≤ digestTokens then ((.skipped, block), gate)
          else
            let record : OffloadRecord := {
              hash, original, title
              gateRollback := if prior then none else policy.map fun p => (p.sessionKey, gateKey) }
            ((.offloaded record prior (originalTokens - digestTokens),
                block.insert "content" (digestContent digest content)),
              if policy.isSome then insert gateKey gate else gate)

/-! ### Tool results -/

/-- What a pass over the messages has so far. -/
structure Pass where
  gate : Finset String
  outcome : OffloadOutcome := {}
  deepestDeferredMsg : Option ℕ := none

/-- The titles and names of the tool calls of a conversation by their ids, the last call of an id first. -/
def collectToolTitles (messages : List Json) : List (String × String × String) :=
  messages.foldl (fun map message =>
    ((message.getArr? "content").getD []).foldl (fun map block =>
      if block.getStr? "type" = some "tool_use" then
        match block.getStr? "id" with
        | none => map
        | some id =>
          let name := (block.getStr? "name").getD ""
          let title := (((block.get? "input").bind fun i => i.getStr? "command")).getD name
          (id, title, name) :: map
      else map) map) []

/-- The title and name of the tool whose result a block is. -/
def titleOf (titles : List (String × String × String)) (block : Json) : String × String :=
  (titles.lookup ((block.getStr? "tool_use_id").getD "")).getD ("", "")

/-- Book what became of a block. -/
def BlockOutcome.note (isLive nearTail : Bool) (msgIdx distance : ℕ) (pass : Pass) : BlockOutcome → Pass
  | .offloaded record prior tokensSaved =>
    let o := pass.outcome
    { pass with outcome := { o with
        blocksOffloaded := o.blocksOffloaded + 1
        windowOffloads := o.windowOffloads + if !prior && !isLive && nearTail then 1 else 0
        frozenNewOffloads := o.frozenNewOffloads + if !prior && !isLive && !nearTail then 1 else 0
        tokensSaved := o.tokensSaved + tokensSaved
        records := o.records ++ [record] } }
  | .deferred bytes =>
    let o := pass.outcome
    { pass with
      outcome := { o with
        blocksDeferred := o.blocksDeferred + 1
        bytesDeferred := o.bytesDeferred + bytes }.noteDeferredDistance distance
      deepestDeferredMsg := some ((pass.deepestDeferredMsg.map (min · msgIdx)).getD msgIdx) }
  | .skipped => pass

/-- A message is close enough to the tail for a first conversion. -/
def isNearTail (config : CtxOffloadConfig) (distance : ℕ) : Bool :=
  0 < config.staleWindow && distance < config.staleMargin + config.staleWindow

def offloadResultBlock (config : CtxOffloadConfig) (policy : Option OffloadPolicy)
    (titles : List (String × String × String)) (lastIdx msgIdx : ℕ) (block : Json) (pass : Pass) :
    Json × Pass :=
  if block.getStr? "type" = some "tool_result" then
    let (title, toolName) := titleOf titles block
    if LiveZone.isVerbatimExcluded T.rules toolName then (block, pass)
    else
      let isLive := decide (msgIdx = lastIdx)
      let nearTail := isNearTail config (lastIdx - msgIdx)
      let ((outcome, block), gate) := offloadToolResult T config title policy isLive nearTail block pass.gate
      (block, outcome.note isLive nearTail msgIdx (lastIdx - msgIdx) { pass with gate })
  else (block, pass)

/-- The blocks of a message, each rewritten; a content that is no list stays. -/
def rewriteBlocks (f : Json → Pass → Json × Pass) (message : Json) (pass : Pass) : Json × Pass :=
  match message.getArr? "content" with
  | none => (message, pass)
  | some blocks =>
    let (blocks, pass) := thread f blocks pass
    (message.insert "content" (.arr blocks), pass)

def offloadAnthropicRequest (config : CtxOffloadConfig) (policy : Option OffloadPolicy) (parsed : Json)
    (gate : Finset String) : (Json × OffloadOutcome) × Finset String :=
  match parsed.getArr? "messages" with
  | none => ((parsed, {}), gate)
  | some messages =>
    let titles := collectToolTitles messages
    let (messages, pass) := thread (fun (message, msgIdx) =>
      rewriteBlocks (offloadResultBlock T config policy titles (messages.length - 1) msgIdx) message)
      messages.zipIdx { gate }
    let outcome :=
      match pass.deepestDeferredMsg with
      | some first =>
        { pass.outcome with
          bytesAfterDeepestDeferral := ((messages.drop (first + 1)).map Json.compactLength).sum }
      | none => pass.outcome
    ((parsed.insert "messages" (.arr messages), outcome), pass.gate)

/-! ### Inputs of tool calls -/

/-- What stands in place of a string of an input. -/
def inputDigest (original : String) (budget : ℕ) : String :=
  preview original budget ++ footer (T.computeKey original) (Text.byteLength original)

/-- A string of an input, or its digest. -/
def offloadInputValue (config : CtxOffloadConfig) (policy : OffloadPolicy) (put : OffloadRecord → Bool)
    (firstAllowed : Bool) (toolName : String) (distance : ℕ) (field : String × Json) (pass : Pass) :
    (String × Json) × Pass :=
  match field.2 with
  | .str original =>
    if Text.contains MARKER_PREFIX original.toList || Text.byteLength original < config.minBytes then
      (field, pass)
    else
      let hash := T.computeKey original
      let (prior, gateKey, budget) :=
        gateLookup pass.gate (some policy) (TOOL_USE_GATE_NS ++ hash) (Text.byteLength original)
      let o := pass.outcome
      if !prior && !firstAllowed then
        (field, { pass with outcome := { o with
          blocksDeferred := o.blocksDeferred + 1
          bytesDeferred := o.bytesDeferred + Text.byteLength original }.noteDeferredDistance distance })
      else
        let digest := inputDigest T original budget
        let digestTokens := T.countText digest
        let originalTokens := T.countText original
        if originalTokens ≤ digestTokens then (field, pass)
        else
          let record : OffloadRecord := {
            hash, original
            title := toolName
            gateRollback := if prior then none else some (policy.sessionKey, gateKey) }
          if !prior && !put record then (field, pass)
          else
            ((field.1, .str digest),
              { pass with
                gate := if prior then pass.gate else insert gateKey pass.gate
                outcome := { o with
                  blocksOffloaded := o.blocksOffloaded + 1
                  tokensSaved := o.tokensSaved + (originalTokens - digestTokens)
                  records := o.records ++ [record] } })
  | _ => (field, pass)

def offloadUseBlock (config : CtxOffloadConfig) (policy : OffloadPolicy) (put : OffloadRecord → Bool)
    (firstAllowed : Bool) (distance : ℕ) (block : Json) (pass : Pass) : Json × Pass :=
  if block.getStr? "type" = some "tool_use" then
    let toolName := (block.getStr? "name").getD ""
    if toolName ∈ TOOL_USE_KEEP_VERBATIM then (block, pass)
    else
      match block.get? "input" with
      | some (.obj input) =>
        let (input, pass) :=
          thread (offloadInputValue T config policy put firstAllowed toolName distance) input pass
        (block.insert "input" (.obj input), pass)
      | _ => (block, pass)
  else (block, pass)

/-- The place of the last message of the assistant. -/
def newestAssistant (messages : List Json) : Option ℕ :=
  (messages.zipIdx.reverse.find? fun m => m.1.getStr? "role" = some "assistant").map Prod.snd

/-- A string at a message may be converted for the first time: the turn rebuilds the cache, or the message is
the newest of the assistant and was never forwarded. -/
def firstAllowed (policy : OffloadPolicy) (newest forwardedBefore : Option ℕ) (msgIdx : ℕ) : Bool :=
  policy.rebuildBoundary ||
    (decide (some msgIdx = newest) && forwardedBefore.any fun sent => decide (sent ≤ msgIdx))

def offloadToolUseInputs (config : CtxOffloadConfig) (policy : OffloadPolicy) (forwardedBefore : Option ℕ)
    (put : OffloadRecord → Bool) (parsed : Json) (gate : Finset String) :
    (Json × OffloadOutcome) × Finset String :=
  match parsed.getArr? "messages" with
  | none => ((parsed, {}), gate)
  | some messages =>
    let lastIdx := messages.length - 1
    let newest := newestAssistant messages
    let (messages, pass) := thread (fun (message, msgIdx) pass =>
      if msgIdx = lastIdx then (message, pass)
      else
        rewriteBlocks (offloadUseBlock T config policy put (firstAllowed policy newest forwardedBefore msgIdx)
          (lastIdx - msgIdx)) message pass) messages.zipIdx { gate }
    ((parsed.insert "messages" (.arr messages), pass.outcome), pass.gate)

/-! ### A turn -/

/-- A request with what is known about its turn: whether it rebuilds the cache, how many messages of the session
were forwarded before it, and which originals the store takes. -/
structure Turn where
  parsed : Json
  rebuildBoundary : Bool
  forwardedBefore : Option ℕ
  put : OffloadRecord → Bool

/-- What is set for all turns of a session. -/
structure Setup where
  config : CtxOffloadConfig
  sessionKey : String
  /-- The inputs of tool calls are converted too. -/
  ctxOffloadToolUse : Bool

def Turn.policy (setup : Setup) (turn : Turn) : OffloadPolicy := ⟨setup.sessionKey, turn.rebuildBoundary⟩

/-- The request that is forwarded, and the gate after it. -/
def runCtxOffloadRecords (setup : Setup) (turn : Turn) (gate : Finset String) : Json × Finset String :=
  let policy := turn.policy setup
  let ((parsed, _), gate) := offloadAnthropicRequest T setup.config (some policy) turn.parsed gate
  if setup.ctxOffloadToolUse then
    let ((parsed, _), gate) :=
      offloadToolUseInputs T setup.config policy turn.forwardedBefore turn.put parsed gate
    (parsed, gate)
  else (parsed, gate)

end Headroom.Offload
