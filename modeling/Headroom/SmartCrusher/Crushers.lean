import Headroom.SmartCrusher.Compaction.Formatter
import Headroom.SmartCrusher.Planning

/-!
# Crushing arrays

What becomes of the items of an array, by what the items are. Strings and numbers are sampled; objects
are written as a table where that saves enough, and otherwise kept as a plan says; items of many kinds are
crushed kind by kind. The array that is cut short goes to the store as a whole, and what is left of it
names it.
-/

open Foundation

namespace Headroom.SmartCrusher

/-! ### Kinds of arrays -/

inductive ArrayType where
  | dictArray
  | stringArray
  | numberArray
  | boolArray
  | nestedArray
  | mixedArray
  | empty
  deriving DecidableEq

/-- The kind of an item, by the names that mixed arrays are grouped by. -/
def groupKey : Json → String
  | .obj _ => "dict"
  | .str _ => "str"
  | .bool _ => "bool"
  | .num _ => "number"
  | .arr _ => "list"
  | .null => "none"

def classifyArray (items : List Json) : ArrayType :=
  if items = [] then .empty
  else if items.all (groupKey · == "bool") then .boolArray
  else if items.all (groupKey · == "dict") then .dictArray
  else if items.all (groupKey · == "str") then .stringArray
  else if items.all (groupKey · == "number") then .numberArray
  else if items.all (groupKey · == "list") then .nestedArray
  else .mixedArray

/-! ### Statistics -/

def mean (values : List Float) : Option Float :=
  if values.isEmpty then none
  else
    let m := values.foldl (· + ·) 0 / Float.ofNat values.length
    if m.isFinite then some m else none

def sampleStdev (values : List Float) : Option Float :=
  if values.length < 2 then none
  else (mean values).bind fun m =>
    let var := (values.map fun v => (v - m) * (v - m)).foldl (· + ·) 0 / Float.ofNat (values.length - 1)
    if var.isFinite then some var.sqrt else none

/-- The nearest integer, halves to even. -/
def roundTiesEven (x : Float) : Float :=
  let lower := x.floor
  if x - lower < 0.5 then lower
  else if x - lower > 0.5 then lower + 1
  else if (lower / 2).floor * 2 == lower then lower
  else lower + 1

/-! ### The crusher -/

/-- The settings that the planner does not read. -/
structure CrusherSettings where
  minItemsToAnalyze : ℕ
  firstFraction : Float
  lastFraction : Float
  enableCcrMarker : Bool
  losslessOnly : Bool
  auditSafe : Bool
  failClosedOnProtectedLoss : Bool

/-- A stage that writes arrays as tables. -/
structure CompactionStage where
  config : CompactConfig
  format : Compaction → String

/-- A compiled expression: whether it matches a text, and how many matches there are. -/
structure Pattern where
  isMatch : String → Bool
  count : String → ℕ

/-- The crusher: the planner and its settings, and what else is asked. A ratio of savings is given by
whether so many bytes save enough of so many. -/
structure Crusher (σ : Type) extends Planner where
  settings : CrusherSettings
  reader : JsonReader
  sha256 : String → String
  analyzeArray : List Json → ArrayAnalysis
  /-- Why an array is not crushed, where that is known. -/
  crushabilityReason : List Json → Option String
  computeOptimalK : List String → Float → ℕ → Option ℕ → ℕ
  normalizeConcatenatedJson : String → Option String
  describeNumbers : List Json → String
  compaction : Option CompactionStage
  savesEnough : ℕ → ℕ → Bool
  ccrStore : Option (CcrStore σ)
  protectedPatterns : List Pattern

def STRATEGY_ADAPTIVE_AT_LIMIT : String := "none:adaptive_at_limit"

/-- What became of an array of objects. -/
structure CrushArrayResult where
  items : List Json
  strategyInfo : String
  ccrHash : Option String
  droppedSummary : String
  compacted : Option String

/-- All items, with the strategy that kept them. -/
def CrushArrayResult.whole (items : List Json) (strategyInfo : String) : CrushArrayResult :=
  ⟨items, strategyInfo, none, "", none⟩

def CrushArrayResult.keptWhole (items : List Json) : CrushArrayResult := .whole items "skip:ccr_put_failed"

/-- The text of some items, as it is stored and hashed. -/
def canonicalArrayJson (items : List Json) : String := String.ofList (Json.arr items).compact

/-- The length of the text of an array, from the texts of its items. -/
def estimateArrayBytes (itemStrings : List String) : ℕ :=
  (itemStrings.map Text.byteLength).sum + (itemStrings.length - 1) + 2

/-! ### What is kept of a plan -/

/-- An item without the fields that have the value of a constant. -/
def stripConstants (constants : List (String × Json)) (item : Json) : Json :=
  constants.foldl (fun item (key, constant) =>
    if (item.get? key).any fun v => decide (Json.SameValue v constant) then item.remove key else item) item

/-- Whether an item has a field with the value of a constant. -/
def hasConstant (constants : List (String × Json)) (item : Json) : Bool :=
  constants.any fun (key, constant) => (item.get? key).any fun v => decide (Json.SameValue v constant)

def constantsSentinel (constants : List (String × Json)) : Json :=
  .obj [("_constant_fields", .obj constants)]

/-- The items at some indices, in order. -/
def itemsAt (items : List Json) (indices : List ℕ) : List Json :=
  (indices.insertionSort (· ≤ ·)).filterMap fun i => items[i]?

namespace Crusher

variable {σ : Type} (c : Crusher σ)

/-- Whether constants are taken out of the kept items. -/
def factorsOut (plan : CompressionPlan) (items : List Json) : Bool :=
  let kept := itemsAt items plan.keepIndices
  c.config.factorOutConstants && !plan.constantFields.isEmpty && 2 ≤ kept.length &&
    kept.any (hasConstant plan.constantFields)

def executePlan (plan : CompressionPlan) (items : List Json) : List Json :=
  let kept := itemsAt items plan.keepIndices
  if c.factorsOut plan items then
    constantsSentinel plan.constantFields :: kept.map (stripConstants plan.constantFields)
  else kept

/-! ### How many items are kept -/

def maxK : Option ℕ := if 0 < c.config.maxItemsAfterCrush then some c.config.maxItemsAfterCrush else none

/-- A share of a number, one at least. -/
def share (total : ℕ) (fraction : Float) : ℕ :=
  max 1 (roundTiesEven (Float.ofNat total * fraction)).toUInt64.toNat

/-- How many items are kept in all, from the start, and from the end. -/
def computeKSplit (texts : List String) (bias : Float) : ℕ × ℕ × ℕ :=
  let total := c.computeOptimalK texts bias 3 c.maxK
  let first := min (share total c.settings.firstFraction) total
  (total, first, min (share total c.settings.lastFraction) (total - first))

/-- The positions far from the mean of the values. -/
def farOff (values : List (Option Float)) : List ℕ :=
  let finite := values.filterMap id
  match mean finite, sampleStdev finite with
  | some m, some std =>
    if std > 0 then
      (values.zipIdx.filter fun (value, _) =>
        value.any fun v => (v - m).abs > c.config.varianceThreshold * std).map Prod.snd
    else []
  | _, _ => []

/-- The values of numbers that are finite. -/
def finiteValue : Json → Option Float
  | .num literal => if (c.codecs.asF64 literal).isFinite then some (c.codecs.asF64 literal) else none
  | _ => none

/-- The first and the last positions. -/
def ends (n first last : ℕ) : List ℕ := List.range (min first n) ++ List.range' (n - last) (n - (n - last))

/-- The positions from the start on in strides. -/
def strideFrom (stride n : ℕ) : List ℕ := List.range' 0 ((n + stride - 1) / stride) stride

/-! ### Strings -/

/-- What a run over the positions has kept, the texts among it, and how often a text came again. -/
structure StringSample where
  keep : List ℕ
  seen : List String
  dedupCount : ℕ

/-- One more position, while there is room. -/
def StringSample.visit (items : List String) (cap : ℕ) (a : StringSample) (i : ℕ) : StringSample :=
  if cap ≤ a.keep.length ∨ i ∈ a.keep then a
  else
    let item := items.getD i ""
    if item ∈ a.seen then { a with dedupCount := a.dedupCount + 1 }
    else ⟨i :: a.keep, item :: a.seen, a.dedupCount⟩

def errorStrings (items : List String) : List ℕ :=
  (items.zipIdx.filter fun (item, _) => hasErrorKeyword item.toList).map Prod.snd

/-- The positions of strings whose length stands out. -/
def lengthAnomalies (items : List String) : List ℕ :=
  c.farOff (items.map fun item => some (Float.ofNat item.length))

def sampleStrings (items : List String) (bias : Float) : StringSample :=
  let n := items.length
  let split := c.computeKSplit items bias
  let marked := errorStrings items ++ c.lengthAnomalies items ++ ends n split.2.1 split.2.2
  let keep := (List.range n).filter (· ∈ marked)
  let start : StringSample := ⟨keep, keep.map fun i => items.getD i "", 0⟩
  let remaining := split.1 - keep.length
  if remaining = 0 then start
  else
    let stride := max ((n - 1) / (remaining + 1)) 1
    let cap := split.1 + (errorStrings items).length + (c.lengthAnomalies items).length
    (strideFrom stride n).foldl (StringSample.visit items cap) start

/-- The items at kept positions, in order. -/
def keptAt {α : Type} (items : List α) (keep : List ℕ) : List α :=
  (items.zipIdx.filter fun (_, i) => i ∈ keep).map Prod.fst

/-- A part of a description, unless it counts none. -/
def note (name : String) (n : ℕ) : String := if n = 0 then "" else "," ++ name ++ "=" ++ toString n

def crushStringArray (items : List String) (bias : Float) : List String × String :=
  if items.length ≤ 8 then (items, "string:passthrough")
  else if c.settings.losslessOnly then (items, "string:lossless_only")
  else
    let sample := c.sampleStrings items bias
    let kept := keptAt items sample.keep
    (kept, "string:adaptive(" ++ toString items.length ++ "->" ++ toString kept.length ++
      note "dedup" sample.dedupCount ++ note "errors" (errorStrings items).length ++ ")")

/-! ### Numbers -/

/-- The positions where the mean of the next five values is far from that of the five before. -/
def changePoints (values : List (Option Float)) : List ℕ :=
  let n := values.length
  if !c.config.preserveChangePoints || n ≤ 10 then []
  else
    let finite := values.filterMap id
    let std := (if 1 < finite.length then sampleStdev finite else none).getD 0
    (List.range' 5 (n - 5 - 5)).filter fun i =>
      let left := ((values.drop (i - 5)).take 5).filterMap id
      let right := ((values.drop i).take 5).filterMap id
      !left.isEmpty && !right.isEmpty && std > 0 &&
        ((mean right).getD 0 - (mean left).getD 0).abs > c.config.varianceThreshold * std

/-- One more position, while there is room. -/
def visitNumber (cap : ℕ) (keep : List ℕ) (i : ℕ) : List ℕ :=
  if cap ≤ keep.length ∨ i ∈ keep then keep else i :: keep

def sampleNumbers (items : List Json) (bias : Float) : List ℕ :=
  let n := items.length
  let values := items.map c.finiteValue
  let split := c.computeKSplit (items.map fun item => String.ofList item.compact) bias
  let marked := c.farOff values ++ c.changePoints values ++ ends n split.2.1 split.2.2
  let keep := (List.range n).filter (· ∈ marked)
  let remaining := split.1 - keep.length
  if remaining = 0 then keep
  else
    let stride := max ((n - 1) / (remaining + 1)) 1
    (strideFrom stride n).foldl (visitNumber (split.1 + (c.farOff values).length)) keep

def crushNumberArray (items : List Json) (bias : Float) : List Json × String :=
  let values := items.map c.finiteValue
  if items.length ≤ 8 then (items, "number:passthrough")
  else if c.settings.losslessOnly then (items, "number:lossless_only")
  else if (values.filterMap id).isEmpty then (items, "number:no_finite")
  else
    let kept := keptAt items (c.sampleNumbers items bias)
    (kept, "number:adaptive(" ++ toString items.length ++ "->" ++ toString kept.length ++ "," ++
      c.describeNumbers items ++ note "outliers" (c.farOff values).length ++
      note "change_points" (c.changePoints values).length ++ ")")

/-! ### Objects -/

/-- The first twelve digits of the digest of a text. -/
def hashCanonical (canonical : String) : String := ((c.sha256 canonical).take 12).toString

/-- A write to the store of the crusher. -/
def ccrPut (hash payload : String) (s : σ) : Bool × σ := putIn c.ccrStore hash payload s

/-- The table of some items and its text, if it was worth it, and the store behind. -/
def tryTable (items : List Json) (itemStrings : List String) (s : σ) : Option (Compaction × String) × σ :=
  match c.compaction with
  | none => (none, s)
  | some stage =>
    let compacted := compactWithStore c.reader c.sha256 stage.config c.ccrStore items s
    let rendered := stage.format compacted.1
    if compacted.1.wasCompacted && c.savesEnough (Text.byteLength rendered) (estimateArrayBytes itemStrings)
    then (some (compacted.1, rendered), compacted.2)
    else (none, compacted.2)

/-- The plan for some items. -/
def planFor (items : List Json) (itemStrings : List String) (queryContext : String) (adaptiveK : ℕ) :
    CompressionPlan :=
  c.toPlanner.createPlan ⟨c.analyzeArray items, items, queryContext, none, some adaptiveK, some itemStrings⟩

/-- The marker for rows that are not shown. -/
def droppedMarker (droppedCount : ℕ) (hash : String) : String :=
  CCR_MARKER_PREFIX ++ hash ++ " " ++ toString droppedCount ++ "_rows_offloaded>>"

/-- What is left of some items under a plan. `ccrSource` is the array as it came, and goes to the store
if an item was dropped. -/
def cutShort (items ccrSource result : List Json) (strategy : String) (s : σ) : CrushArrayResult × σ :=
  let droppedCount := items.length - result.length
  if 0 < droppedCount && c.settings.enableCcrMarker then
    let canonical := canonicalArrayJson ccrSource
    let hash := c.hashCanonical canonical
    if (c.ccrPut hash canonical s).1 then
      (⟨result, strategy, some hash, droppedMarker droppedCount hash, none⟩, (c.ccrPut hash canonical s).2)
    else (.keptWhole items, (c.ccrPut hash canonical s).2)
  else (⟨result, strategy, none, "", none⟩, s)

def strategyName : CompressionStrategy → String
  | .none => "none"
  | .skip => "skip"
  | .timeSeries => "time_series"
  | .clusterSample => "cluster"
  | .topN => "top_n"
  | .smartSample => "smart_sample"

def itemTexts (items : List Json) : List String := items.map fun item => String.ofList item.compact

/-- How many objects of an array are kept. -/
def adaptiveK (items : List Json) (bias : Float) : ℕ :=
  c.computeOptimalK (itemTexts items) bias 3 c.maxK

/-- The plan for some objects. -/
def planOf (items : List Json) (queryContext : String) (bias : Float) : CompressionPlan :=
  c.planFor items (itemTexts items) queryContext (c.adaptiveK items bias)

/-- What the plan for some objects leaves of them. -/
def planned (items : List Json) (queryContext : String) (bias : Float) : List Json :=
  c.executePlan (c.planOf items queryContext bias) items

def crushArrayWithSource (items ccrSource : List Json) (queryContext : String) (bias : Float) (s : σ) :
    CrushArrayResult × σ :=
  if items.length ≤ c.adaptiveK items bias then (.whole items STRATEGY_ADAPTIVE_AT_LIMIT, s)
  else
    match c.tryTable items (itemTexts items) s with
    | (some (table, rendered), s) =>
      (⟨items, "lossless:" ++ table.kindStr, none, "", some rendered⟩, s)
    | (none, s) =>
      if c.settings.losslessOnly then (.whole items "lossless_only:uncompacted", s)
      else if (c.analyzeArray items).recommendedStrategy = .skip then
        (.whole items (((c.crushabilityReason items).map ("skip:" ++ ·)).getD ""), s)
      else
        c.cutShort items ccrSource (c.planned items queryContext bias)
          (strategyName (c.analyzeArray items).recommendedStrategy) s

def crushArray (items : List Json) (queryContext : String) (bias : Float) (s : σ) : CrushArrayResult × σ :=
  c.crushArrayWithSource items items queryContext bias s

/-! ### Items of many kinds -/

/-- The positions of items that are among others, by their texts with sorted keys. -/
def survivors (group : List (Json × ℕ)) (crushed : List Json) : List ℕ :=
  let keys := crushed.map pythonJsonDumpsSortKeys
  (group.filter fun (item, _) => pythonJsonDumpsSortKeys item ∈ keys).map Prod.snd

/-- The positions that are kept of a group of numbers. -/
def keptNumbers (group : List (Json × ℕ)) (bias : Float) : List ℕ :=
  let split := c.computeKSplit (group.map fun (item, _) => String.ofList item.compact) bias
  let first := min split.2.1 group.length
  let last := min split.2.2 (group.length - first)
  let values := group.map fun (item, _) => c.finiteValue item
  let far := if 1 < (values.filterMap id).length then c.farOff values else []
  ((group.take first).map Prod.snd) ++ ((group.drop (group.length - last)).map Prod.snd) ++
    far.filterMap fun i => group[i]?.map Prod.snd

/-- What is kept of a group, and how it is described; small groups are kept. -/
def crushGroup (queryContext : String) (bias : Float) (group : String × List (Json × ℕ)) (s : σ) :
    (List ℕ × Option String) × σ :=
  let items := group.2.map Prod.fst
  let n := toString group.2.length
  if group.2.length < c.settings.minItemsToAnalyze then ((group.2.map Prod.snd, none), s)
  else if group.1 = "dict" then
    let crushed := c.crushArray items queryContext bias s
    ((survivors group.2 crushed.1.items,
      some ("dict:" ++ n ++ "->" ++ toString crushed.1.items.length)), crushed.2)
  else if group.1 = "str" then
    let crushed := (c.crushStringArray (items.filterMap Json.asStr?) bias).1
    (((group.2.filter fun (item, _) => (item.asStr?).any (· ∈ crushed)).map Prod.snd,
      some ("str:" ++ n ++ "->" ++ toString crushed.length)), s)
  else if group.1 = "number" then ((c.keptNumbers group.2 bias, some ("num:" ++ n)), s)
  else ((group.2.map Prod.snd, none), s)

/-- The items of each kind with their positions, in the order in which the kinds come up. -/
def groupsOf (items : List Json) : List (String × List (Json × ℕ)) :=
  (items.map groupKey).eraseDups.map fun key =>
    (key, items.zipIdx.filter fun (item, _) => groupKey item == key)

def crushMixedArray (items : List Json) (queryContext : String) (bias : Float) (s : σ) :
    (List Json × String) × σ :=
  if items.length ≤ 8 then ((items, "mixed:passthrough"), s)
  else if c.settings.losslessOnly then ((items, "mixed:lossless_only"), s)
  else
    let crushed := thread (c.crushGroup queryContext bias) (groupsOf items) s
    let kept := keptAt items (crushed.1.flatMap Prod.fst)
    ((kept, "mixed:adaptive(" ++ toString items.length ++ "->" ++ toString kept.length ++ "," ++
      ",".intercalate (crushed.1.filterMap Prod.snd) ++ ")"), crushed.2)

/-! ### The marker behind scalars -/

def scalarSentinel (dropped : ℕ) (hash : String) : Json :=
  .str ("… " ++ toString dropped ++ " more items " ++ CCR_MARKER_PREFIX ++ hash ++ " " ++ toString dropped ++
    "_items_offloaded>>")

def appendScalarDropSentinel (kept original : List Json) (s : σ) : List Json × σ :=
  let dropped := original.length - kept.length
  if dropped = 0 ∨ c.settings.enableCcrMarker = false then (kept, s)
  else
    let canonical := canonicalArrayJson original
    let hash := c.hashCanonical canonical
    if (c.ccrPut hash canonical s).1 then
      (kept ++ [scalarSentinel dropped hash], (c.ccrPut hash canonical s).2)
    else (original, (c.ccrPut hash canonical s).2)

end Crusher

end Headroom.SmartCrusher
