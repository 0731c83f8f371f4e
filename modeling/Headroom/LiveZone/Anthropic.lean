import Headroom.LiveZone.Dispatch
import Headroom.LiveZone.Planner

/-!
# Compressing the messages of a request

Each block of a plan is compressed, folded, or left alone. What is put in the place of a text must cost
fewer tokens than the text, and where a store is given the text goes there first, under the hash that a
marker behind the compressed text names. The replacements of all blocks are then spliced into the bytes
of the body.
-/

open Foundation Headroom.Transforms

namespace Headroom.LiveZone

/-! ### Folds -/

inductive LosslessKind where
  | log
  | search
  | config
  deriving DecidableEq

/-- The folds of the formats of logs and of search results, with the inverses that check them. -/
structure Folds where
  stripAnsi : List Char → List Char
  searchHeading : List Char → List Char
  searchUnheading : List Char → List Char
  searchDirHeading : List Char → List Char
  searchDirUnheading : List Char → List Char
  /-- The value of the environment variable that turns the folds off. -/
  switch : Option String

/-- A fold that its inverse undoes, if it is shorter than what there is. -/
def betterFold (content best : List Char) (attempt : List Char × (List Char → List Char)) : List Char :=
  if attempt.2 attempt.1 = content ∧ Text.utf8Length attempt.1 < Text.utf8Length best then attempt.1 else best

def compactLossless (F : Folds) (content : List Char) (kind : LosslessKind) : List Char :=
  if content = [] then content
  else if !enabledForValue F.switch then content
  else match kind with
  | .log =>
    let baseline := F.stripAnsi content
    let candidate := collapseRuns baseline
    if expandRuns candidate ≠ baseline then content
    else if Text.utf8Length candidate < Text.utf8Length content then candidate
    else content
  | .search =>
    [(F.searchHeading content, F.searchUnheading), (F.searchDirHeading content, F.searchDirUnheading)].foldl
      (betterFold content) content
  | .config => foldConfig content

/-- The fold that fits a content type. -/
def losslessKindFor : ContentType → Option LosslessKind
  | .buildOutput => some .log
  | .searchResults => some .search
  | .structuredConfig => some .config
  | _ => none

/-! ### Outcomes -/

inductive BlockAction where
  | noCompressionApplied (contentType : String) (declinedBy : Option String)
  | compressed (strategy : String) (originalBytes compressedBytes originalTokens compressedTokens : ℕ)
  | compressorError (strategy error : String)
  | rejectedNotSmaller (strategy : String)
      (originalBytes compressedBytes originalTokens compressedTokens : ℕ)
  | belowByteThreshold (contentType : String) (byteCount thresholdBytes : ℕ)
  | excluded (reason : ExclusionReason)
  deriving DecidableEq

structure BlockOutcome where
  messageIndex : ℕ
  blockIndex : Option ℕ
  blockType : String
  action : BlockAction
  deriving DecidableEq

structure CompressionManifest where
  messagesTotal : ℕ
  messagesBelowFrozenFloor : ℕ
  latestUserMessageIndex : Option ℕ
  blockOutcomes : List BlockOutcome

def CompressionManifest.empty : CompressionManifest := ⟨0, 0, none, []⟩

def BlockAction.isCompressed : BlockAction → Bool
  | .compressed .. => true
  | _ => false

def CompressionManifest.hasCompressedBlock (m : CompressionManifest) : Bool :=
  m.blockOutcomes.any fun outcome => outcome.action.isCompressed

inductive LiveZoneOutcome where
  | noChange (manifest : CompressionManifest)
  | modified (newBody : List UInt8) (manifest : CompressionManifest)

inductive LiveZoneError where
  | bodyNotJson
  | noMessagesArray

/-! ### One block -/

structure LiveZoneConfig extends DispatchConfig where
  excludeTools : List String
  lossless : Bool

/-- What the pass over a request asks: the detector, the tokenizer of the model, the hash, the dispatch to
the compressors, and the store. The dispatch and the store may remember what they were asked. -/
structure Engine (σ : Type) where
  rules : Rules
  folds : Folds
  detectContentNative : List Char → ContentType
  countText : List Char → ℕ
  computeKey : List Char → String
  dispatch : σ → List Char → ContentType → DispatchConfig → DispatchResult × σ
  put : σ → String → List Char → Bool × σ

def STRATEGY_EXCLUDED_TOOL_LOSSLESS : String := "excluded_tool_lossless"

/-- The number of bytes from which on a content type is compressed. -/
def thresholdFor : ContentType → ℕ
  | .jsonArray => 512
  | .buildOutput => 512
  | .searchResults => 512
  | .gitDiff => 512
  | .sourceCode => 512
  | .plainText => 512
  | .html => 512
  | .tabular => 512
  | .structuredConfig => 512

def markerFor (hash : String) : List Char := "<<ccr:".toList ++ hash.toList ++ ">>".toList

/-- The compressed text with the marker behind it, where there is a store. -/
def maybeInjectCcrMarker {σ : Type} (E : Engine σ) (original compressed : List Char) (ccrStore : Bool) :
    List Char × Option String :=
  if !ccrStore then (compressed, none)
  else
    let hash := E.computeKey original
    let separator := if compressed.getLast? = some '\n' then [] else ['\n']
    (compressed ++ separator ++ markerFor hash, some hash)

/-- The range of a text, and the string that is written there. -/
def replacementOf (range : ℕ × ℕ) (text : List Char) : Edit UInt8 :=
  ⟨range.1, range.2, Raw.quoted (escape text)⟩

/-- What became of a block: the replacement, if there is one, and what the engine remembers. -/
structure BlockResult (σ : Type) where
  action : BlockAction
  replacement : Option (Edit UInt8)
  state : σ

section

variable {σ : Type} (E : Engine σ)

def compactOneBlockLossless (contentText : List Char) (range : ℕ × ℕ) (s : σ) : BlockResult σ :=
  match losslessKindFor (E.detectContentNative contentText) with
  | none => ⟨.excluded .excludedTool, none, s⟩
  | some kind =>
    let compacted := compactLossless E.folds contentText kind
    if Text.utf8Length contentText ≤ Text.utf8Length compacted then ⟨.excluded .excludedTool, none, s⟩
    else
      let originalTokens := E.countText contentText
      let compressedTokens := E.countText compacted
      if originalTokens ≤ compressedTokens then
        ⟨.rejectedNotSmaller STRATEGY_EXCLUDED_TOOL_LOSSLESS (Text.utf8Length contentText)
          (Text.utf8Length compacted) originalTokens compressedTokens, none, s⟩
      else
        ⟨.compressed STRATEGY_EXCLUDED_TOOL_LOSSLESS (Text.utf8Length contentText)
          (Text.utf8Length compacted) originalTokens compressedTokens,
          some (replacementOf range compacted), s⟩

/-- The dispatch of a text; nothing is done with an empty one. -/
def dispatchText (config : LiveZoneConfig) (contentText : List Char) (contentType : ContentType) (s : σ) :
    DispatchResult × σ :=
  if contentText = [] then (.noOp contentType.asStr none, s)
  else E.dispatch s contentText contentType config.toDispatchConfig

/-- A compressed text that costs fewer tokens. The original is stored first; without it there is nothing
that the marker could bring back, and the block stays as it came. -/
def acceptCompressed (strategy : String) (contentText compressed : List Char) (hash : Option String)
    (range : ℕ × ℕ) (s : σ) : BlockResult σ :=
  let action := .compressed strategy (Text.utf8Length contentText) (Text.utf8Length compressed)
    (E.countText contentText) (E.countText compressed)
  match hash with
  | none => ⟨action, some (replacementOf range compressed), s⟩
  | some hash =>
    let (stored, s') := E.put s hash contentText
    if stored then ⟨action, some (replacementOf range compressed), s'⟩
    else ⟨.compressorError strategy "ccr store refused the original", none, s'⟩

def compressOneBlock (contentText : List Char) (contentType : ContentType) (range : ℕ × ℕ)
    (ccrStore : Bool) (config : LiveZoneConfig) (s : σ) : BlockResult σ :=
  if contentText ≠ [] ∧ Text.utf8Length contentText < thresholdFor contentType then
    ⟨.belowByteThreshold contentType.asStr (Text.utf8Length contentText) (thresholdFor contentType), none, s⟩
  else if config.lossless then compactOneBlockLossless E contentText range s
  else
    match dispatchText E config contentText contentType s with
    | (.noOp contentType declinedBy, s) => ⟨.noCompressionApplied contentType declinedBy, none, s⟩
    | (.compressed strategy compressed, s) =>
      let (forReplacement, hash) := maybeInjectCcrMarker E contentText compressed ccrStore
      let originalTokens := E.countText contentText
      let compressedTokens := E.countText forReplacement
      if originalTokens ≤ compressedTokens then
        ⟨.rejectedNotSmaller strategy (Text.utf8Length contentText) (Text.utf8Length forReplacement)
          originalTokens compressedTokens, none, s⟩
      else acceptCompressed E strategy contentText forReplacement hash range s
    | (.error strategy error, s) => ⟨.compressorError strategy error, none, s⟩

/-! ### One plan -/

/-- The store that a slot may use; `forString` says whether the content of a message that is a string may. -/
def processSlot (ccrStore forString : Bool) (config : LiveZoneConfig) (slot : SlotKind) (s : σ) :
    BlockResult σ :=
  match slot with
  | .excluded _ reason => ⟨.excluded reason, none, s⟩
  | .compressible _ text range =>
    compressOneBlock E text (E.detectContentNative text) range ccrStore config s
  | .losslessOnly _ text range => compactOneBlockLossless E text range s
  | .stringContent text range =>
    compressOneBlock E text (E.detectContentNative text) range (ccrStore && forString) config s

def SlotKind.blockType : SlotKind → String
  | .excluded blockType _ => blockType
  | .compressible blockType _ _ => blockType
  | .losslessOnly blockType _ _ => blockType
  | .stringContent _ _ => "string_content"

/-- The block that an outcome names; none for a content that is a string. An exclusion names the first. -/
def PlanSlot.outcomeIndex (slot : PlanSlot) : Option ℕ :=
  match slot.kind with
  | .stringContent _ _ => none
  | _ => some slot.blockIndex

/-- The outcomes and the replacements of some blocks, and what the engine remembers behind them. -/
structure PassResult (σ : Type) where
  outcomes : List BlockOutcome
  replacements : List (Edit UInt8)
  state : σ

def runSlots (ccrStore forString : Bool) (config : LiveZoneConfig) (messageIndex : ℕ) :
    List PlanSlot → σ → PassResult σ
  | [], s => ⟨[], [], s⟩
  | slot :: slots, s =>
    let result := processSlot E ccrStore forString config slot.kind s
    let rest := runSlots ccrStore forString config messageIndex slots result.state
    ⟨⟨messageIndex, slot.outcomeIndex, slot.kind.blockType, result.action⟩ :: rest.outcomes,
      result.replacement.toList ++ rest.replacements, rest.state⟩

/-! ### The body -/

def applyReplacements (original : List UInt8) (replacements : List (Edit UInt8)) : List UInt8 :=
  splice 0 original (replacements.insertionSort Edit.Before)

def isBlankByte (b : UInt8) : Bool := b == 32 || b == 10 || b == 9 || b == 13

/-- The bytes of the value that a text holds. The text is JSON whenever it comes here: strings were
replaced by strings. -/
def rawValueFromString (text : List UInt8) : List UInt8 :=
  ((text.dropWhile isBlankByte).reverse.dropWhile isBlankByte).reverse

/-- The outcome of a pass. -/
def finish (body : Body) (manifest : CompressionManifest) (replacements : List (Edit UInt8)) :
    LiveZoneOutcome :=
  if !manifest.hasCompressedBlock || replacements.isEmpty then .noChange manifest
  else .modified (rawValueFromString (applyReplacements body.bytes replacements)) manifest

/-- The messages of a body that is JSON. -/
def parsedMessages (body : Body) : Except LiveZoneError (List Json) :=
  if !body.valid then .error .bodyNotJson
  else match body.root.value.getArr? "messages" with
  | none => .error .noMessagesArray
  | some messages => .ok messages

/-! ### The latest message of the user -/

/-- The latest message of the user, if it is not below the floor. -/
def findLatestUserMessageIndex (messages : List Json) (floor : ℕ) : Option ℕ :=
  match (messages.zipIdx.reverse.find? fun (message, i) =>
      i < min floor messages.length || roleOf message == some "user") with
  | some (_, i) => if i < min floor messages.length then none else some i
  | none => none

/-- The outcomes for a message for which there is no plan. -/
def inspectLatestUserBlocksValue (message : Json) (messageIndex : ℕ) : Option (List BlockOutcome) :=
  match message.get? "content" with
  | some (.str _) => some [⟨messageIndex, none, "string_content", .noCompressionApplied "text" none⟩]
  | some (.arr blocks) => some (blocks.zipIdx.map fun (block, i) =>
      let blockType := (block.getStr? "type").getD "unknown"
      ⟨messageIndex, some i, blockType,
        if HOT_ZONE_BLOCK_TYPES.contains blockType then .excluded .hotZoneBlockType
        else .noCompressionApplied "unknown" none⟩)
  | _ => none

def compressAnthropicLiveZoneWithCcr (body : Body) (frozenMessageCount : ℕ) (ccrStore : Bool)
    (config : LiveZoneConfig) (s : σ) : Except LiveZoneError (LiveZoneOutcome × σ) := do
  let messages ← parsedMessages body
  if messages.isEmpty then return (.noChange CompressionManifest.empty, s)
  let below := min frozenMessageCount messages.length
  match findLatestUserMessageIndex messages frozenMessageCount with
  | none => return (.noChange ⟨messages.length, below, none, []⟩, s)
  | some target =>
    let guards := collectToolGuards E.rules messages config.excludeTools config.lossless
    let protectText := !answersFencedCommand E.rules messages target
    match planBlockReplacements E.rules body target guards protectText with
    | .error _ =>
      let outcomes := ((messages[target]?.bind fun message =>
        inspectLatestUserBlocksValue message target)).getD []
      return (.noChange ⟨messages.length, below, some target, outcomes⟩, s)
    | .ok plan =>
      let pass := runSlots E ccrStore true config target plan s
      return (finish body ⟨messages.length, below, some target, pass.outcomes⟩ pass.replacements, pass.state)

/-! ### All messages of the user -/

/-- The pass over the messages from an index on; a message that cannot be planned is skipped. -/
def runMessages (body : Body) (guards : List (String × ToolGuard)) (messages : List Json)
    (ccrStore : Bool) (config : LiveZoneConfig) : List (Json × ℕ) → σ → PassResult σ
  | [], s => ⟨[], [], s⟩
  | (message, i) :: rest, s =>
    if roleOf message ≠ some "user" then runMessages body guards messages ccrStore config rest s
    else
      match planBlockReplacements E.rules body i guards (!answersFencedCommand E.rules messages i) with
      | .error _ => runMessages body guards messages ccrStore config rest s
      | .ok plan =>
        let pass := runSlots E ccrStore false config i plan s
        let behind := runMessages body guards messages ccrStore config rest pass.state
        ⟨pass.outcomes ++ behind.outcomes, pass.replacements ++ behind.replacements, behind.state⟩

def compressAnthropicAllMessages (body : Body) (ccrStore : Bool) (config : LiveZoneConfig) (s : σ) :
    Except LiveZoneError (LiveZoneOutcome × σ) := do
  let messages ← parsedMessages body
  if messages.isEmpty then return (.noChange CompressionManifest.empty, s)
  let guards := collectToolGuards E.rules messages config.excludeTools config.lossless
  let pass := runMessages E body guards messages ccrStore config messages.zipIdx s
  let latest := (messages.zipIdx.reverse.find? fun (message, _) => roleOf message == some "user").map Prod.snd
  return (finish body ⟨messages.length, 0, latest, pass.outcomes⟩ pass.replacements, pass.state)

end

end Headroom.LiveZone
