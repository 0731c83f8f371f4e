import Headroom.SmartCrusher.Crushers

/-!
# Crushing documents

A document is crushed from the top down, fifty levels deep: arrays with enough items by what their items
are, the items of other arrays and the fields of objects each on its own, and strings that spell an object
or an array as what they spell. In audit-safe mode the rows that match a protected pattern are brought
back if they were dropped.
-/

open Foundation

namespace Headroom.SmartCrusher.Crusher

variable {σ : Type} (c : Crusher σ)

/-- What prose is compressed with, if anything: the text, the question, the compressed text and a key. -/
abbrev ProseHook := String → String → Option (String × String)

/-- What a value became, and how. -/
abbrev Processed := Json × String

/-- Descriptions with commas between them; the empty ones are left out. -/
def joinInfo (infos : List String) : String := ",".intercalate (infos.filter (· ≠ ""))

/-- How often an array of so many items shrank to so many. -/
def shrunk (strategy : String) (n kept : ℕ) : String :=
  strategy ++ "(" ++ toString n ++ "->" ++ toString kept ++ ")"

section

variable (query : String) (bias : Float) (hook : Option ProseHook)
  (process : Json → σ → Processed × σ)

/-! ### Strings -/

def emitOpaqueCcrMarker (payload : String) (kind : OpaqueKind) (s : σ) : Option String × σ :=
  let hash := hashOpaque c.sha256 payload
  if (c.ccrPut hash payload s).1 then
    (some (String.ofList (formatCcrMarker hash (Text.byteLength payload) kind)), (c.ccrPut hash payload s).2)
  else (none, (c.ccrPut hash payload s).2)

def opaqueMarkersEnabled : Bool := c.settings.enableCcrMarker && !c.settings.losslessOnly

/-- A string as it is. -/
def plainString (text : String) (s : σ) : Processed × σ := ((.str text, ""), s)

/-- A string replaced by its marker, if the store takes it. -/
def offload (text : String) (kind : OpaqueKind) (s : σ) : Processed × σ :=
  match c.emitOpaqueCcrMarker text kind s with
  | (some marker, s) => ((.str marker, "string_ccr:" ++ kind.label), s)
  | (none, s) => plainString text s

/-- A string that spells no container, or one that did not change. -/
def processLeaf (containerUnchanged : Bool) (text : String) (s : σ) : Processed × σ :=
  let kind? := match classifyCell c.reader (.standard c.opaqueMarkersEnabled) (.str text) with
    | .isOpaque kind => some kind
    | _ => none
  if kind? = some .base64Blob ∨ kind? = some .htmlChunk then c.offload text (kind?.getD .longString) s
  else
    match if containerUnchanged then none else hook.bind fun hook => hook text query with
    | some (compressed, key) => ((.str compressed, "string_prose:" ++ key), s)
    | none =>
      match kind? with
      | some kind => c.offload text kind s
      | none => plainString text s

/-- A container as the string that takes the place of its text. -/
def renderProcessed : Json → String
  | .str rendered => rendered
  | value => String.ofList value.compact

def processString (text : String) (s : σ) : Processed × σ :=
  match tryParseJsonContainer c.reader text with
  | none => c.processLeaf query hook false text s
  | some parsed =>
    let processed := process parsed s
    if Json.SameValue processed.1.1 parsed then c.processLeaf query hook true text processed.2
    else ((.str (renderProcessed processed.1.1),
      if processed.1.2 = "" then "string_json" else "string_json[" ++ processed.1.2 ++ "]"), processed.2)

/-! ### Objects -/

/-- The fields of an object, each with its value processed. -/
def processFields (fields : List (String × Json)) (s : σ) : (List (String × Json) × String) × σ :=
  let processed := thread (fun field => process field.2) fields s
  (((fields.map Prod.fst).zip (processed.1.map Prod.fst), joinInfo (processed.1.map Prod.snd)), processed.2)

def processObject (fields : List (String × Json)) (s : σ) : Processed × σ :=
  let processed := processFields process fields s
  ((.obj processed.1.1, processed.1.2), processed.2)

/-! ### Arrays -/

def recurseItems (items : List Json) (s : σ) : Processed × σ :=
  let processed := thread process items s
  ((.arr (processed.1.map Prod.fst), joinInfo (processed.1.map Prod.snd)), processed.2)

/-- The rows of an array of objects. Where there is a hook, their values are processed first. -/
def processRow (item : Json) (s : σ) : Processed × σ :=
  match hook, item with
  | some _, .obj fields => processObject process fields s
  | _, item => ((item, ""), s)

def droppedSentinel (summary : String) : Json := .obj [("_ccr_dropped", .str summary)]

/-- The items that are left, with the marker behind them. -/
def withSentinel (result : CrushArrayResult) : List Json :=
  result.items ++ if result.droppedSummary = "" then [] else [droppedSentinel result.droppedSummary]

/-- What takes the place of an array of objects whose rows were crushed. -/
def placeDicts (items rows : List Json) (infos : List String) (result : CrushArrayResult) (s : σ) :
    Processed × σ :=
  let info := joinInfo (infos ++ [shrunk result.strategyInfo items.length result.items.length])
  if result.strategyInfo = STRATEGY_ADAPTIVE_AT_LIMIT then
    if hook.isSome then ((.arr rows, info), s)
    else
      let deeper := recurseItems process items s
      ((deeper.1.1, joinInfo [info, deeper.1.2]), deeper.2)
  else match result.compacted with
  | some rendered =>
    ((.str rendered, joinInfo (infos ++ [result.strategyInfo ++ "(" ++ toString items.length ++ "->len=" ++
      toString (Text.byteLength rendered) ++ ")"])), s)
  | none => ((.arr (withSentinel result), info), s)

def processDicts (items : List Json) (s : σ) : Processed × σ :=
  let rows := thread (processRow hook process) items s
  let crushed := c.crushArrayWithSource (rows.1.map Prod.fst) items query bias rows.2
  placeDicts hook process items (rows.1.map Prod.fst) (rows.1.map Prod.snd) crushed.1 crushed.2

/-- An array of scalars that was crushed, with its marker. -/
def processScalars (items kept : List Json) (strategy : String) (s : σ) : Processed × σ :=
  let finished := c.appendScalarDropSentinel kept items s
  ((.arr finished.1, shrunk strategy items.length kept.length), finished.2)

def processArray (items : List Json) (s : σ) : Processed × σ :=
  if items.length < c.settings.minItemsToAnalyze then recurseItems process items s
  else match classifyArray items with
  | .dictArray => c.processDicts query bias hook process items s
  | .stringArray =>
    let crushed := c.crushStringArray (items.filterMap Json.asStr?) bias
    c.processScalars items (crushed.1.map Json.str) crushed.2 s
  | .numberArray =>
    let crushed := c.crushNumberArray items bias
    c.processScalars items crushed.1 crushed.2 s
  | .mixedArray =>
    let crushed := c.crushMixedArray items query bias s
    c.processScalars items crushed.1.1 crushed.1.2 crushed.2
  | _ => recurseItems process items s

end

/-! ### Values -/

/-- How deep a document is processed. -/
def MAX_PROCESS_DEPTH : ℕ := 50

/-- A value processed; the number says how many levels are left. -/
def processLevels (query : String) (bias : Float) (hook : Option ProseHook) : ℕ → Json → σ → Processed × σ
  | 0, value, s => ((value, ""), s)
  | levels + 1, value, s =>
    let process := processLevels query bias hook levels
    match value with
    | .arr items => c.processArray query bias hook process items s
    | .obj fields => processObject process fields s
    | .str text => c.processString query hook process text s
    | value => ((value, ""), s)

def processValue (value : Json) (depth : ℕ) (query : String) (bias : Float) (hook : Option ProseHook)
    (s : σ) : Processed × σ :=
  c.processLevels query bias hook (MAX_PROCESS_DEPTH - depth) value s

end Headroom.SmartCrusher.Crusher
