import Headroom.SmartCrusher.Orchestration

/-!
# Compression plans

A plan says which items of an array are kept. Each strategy gathers indices by signals of its own, and
those that the constraints mark. All but the ranking strategy then hand what they gathered over to
`prioritizeIndices`.
-/

open Foundation

namespace Headroom.SmartCrusher

/-! ### Constraints -/

/-- A rule that marks the items to be kept, whatever their score and whatever the budget. -/
structure Constraint where
  name : String
  mustKeep : List Json → Option (List String) → List ℕ
  lt_length : ∀ {items itemStrings i}, i ∈ mustKeep items itemStrings → i < items.length

/-- Indices that a filter of the numbered items gives are indices of items. -/
theorem lt_length_of_mem_zipIdx {items : List Json} {p : Json × ℕ → Bool} {i : ℕ}
    (h : i ∈ (items.zipIdx.filter p).map Prod.snd) : i < items.length := by
  obtain ⟨⟨item, j⟩, hmem, rfl⟩ := List.mem_map.1 h
  have := List.snd_lt_of_mem_zipIdx (List.mem_of_mem_filter hmem)
  omega

theorem lt_length_of_mem_outliers {items : List Json} {i : ℕ}
    (h : i ∈ detectStructuralOutliers items) : i < items.length := by
  rw [detectStructuralOutliers] at h
  split_ifs at h
  · exact absurd h List.not_mem_nil
  · rw [List.mem_insertionSort, List.mem_dedup, List.mem_append, detectRareStatusValues,
      List.mem_flatMap] at h
    rcases h with h | ⟨field, -, h⟩
    · exact lt_length_of_mem_zipIdx h
    · rw [rareStatusOf] at h
      dsimp only at h
      split_ifs at h
      · exact absurd h List.not_mem_nil
      · exact lt_length_of_mem_zipIdx h
      · exact absurd h List.not_mem_nil

def keepErrorsConstraint : Constraint where
  name := "keep_errors"
  mustKeep := detectErrorItemsForPreservation
  lt_length := lt_length_of_mem_zipIdx

def keepStructuralOutliersConstraint : Constraint where
  name := "keep_structural_outliers"
  mustKeep := fun items _ => detectStructuralOutliers items
  lt_length := lt_length_of_mem_outliers

def defaultOssConstraints : List Constraint := [keepErrorsConstraint, keepStructuralOutliersConstraint]

/-! ### Plans -/

inductive DataPattern where
  | searchResults
  | logs
  | timeSeries
  | generic

structure CompressionPlan where
  strategy : CompressionStrategy
  keepIndices : List ℕ
  constantFields : List (String × Json)
  clusterField : Option String
  sortField : Option String
  keepCount : ℕ

/-- The planner with its settings, its constraints and the components it asks: the anchor selector, the
scorer, the matcher of query anchors, and the detector of score fields. -/
structure Planner where
  config : SmartCrusherConfig
  constraints : List Constraint
  codecs : Codecs
  selectAnchors : List Json → ℕ → DataPattern → Option String → List ℕ
  scoreBatch : List String → String → List Float
  matchesQueryAnchors : String → Json → Bool
  detectScoreField : FieldStats → List Json → Bool × Float
  hashFieldName : String → String
  toLowercase : String → String

/-- What a planner is asked to plan for. -/
structure Request where
  analysis : ArrayAnalysis
  items : List Json
  queryContext : String
  preserveFields : Option (List String)
  effectiveMaxItems : Option ℕ
  itemStrings : Option (List String)

namespace Planner

variable (p : Planner) (r : Request)

def maxItems : ℕ := r.effectiveMaxItems.getD p.config.maxItemsAfterCrush

/-- The indices that the constraints mark. -/
def applyConstraints : List ℕ := p.constraints.flatMap fun c => c.mustKeep r.items r.itemStrings

def anchorsFor (pattern : DataPattern) : List ℕ :=
  p.selectAnchors r.items (p.maxItems r) pattern
    (if r.queryContext.isEmpty then none else some r.queryContext)

/-- The texts that are scored. -/
def scoredTexts (r : Request) : List String :=
  r.itemStrings.getD (r.items.map fun item => String.ofList item.compact)

/-- The items that match an anchor of the query, and those that are relevant to it. -/
def applyQuerySignals : List ℕ :=
  if r.queryContext.isEmpty then []
  else
    let anchored := (r.items.zipIdx.filter fun (item, _) =>
      p.matchesQueryAnchors r.queryContext item).map Prod.snd
    let scores := p.scoreBatch (scoredTexts r) r.queryContext
    anchored ++ (scores.zipIdx.filter fun (score, _) => score ≥ p.config.relevanceThreshold).map Prod.snd

/-- The value of a field as text. -/
def valueText : Json → String
  | .str s => s
  | value => String.ofList value.compact

/-- Whether an item has, in one of the fields, a value that goes with the query. -/
def itemHasPreserveFieldMatch (item : Json) (preserveFieldHashes : List String) (query : String) : Bool :=
  if query.isEmpty then false
  else
    let queryLower := (p.toLowercase query).toList
    match item with
    | .obj fields => fields.any fun (name, value) =>
      let valueLower := (p.toLowercase (valueText value)).toList
      preserveFieldHashes.contains (p.hashFieldName name) && value != .null &&
        (Text.contains queryLower valueLower || Text.contains valueLower queryLower)
    | _ => false

def applyPreserveFieldMatches : List ℕ :=
  match r.preserveFields with
  | none => []
  | some fields =>
    if fields.isEmpty || r.queryContext.isEmpty then []
    else (r.items.zipIdx.filter fun (item, _) =>
      p.itemHasPreserveFieldMatch item fields r.queryContext).map Prod.snd

/-- The indices about the change points of a field. -/
def aroundChangePoints (radius n : ℕ) (stats : FieldStats) : List ℕ :=
  stats.changePoints.flatMap fun cp =>
    (List.range (2 * radius + 1)).filterMap fun offset =>
      if radius ≤ cp + offset ∧ cp + offset - radius < n then some (cp + offset - radius) else none

/-- The anomalies in all numeric fields. -/
def anomalies : List ℕ :=
  r.analysis.fieldStats.flatMap fun (field, stats) =>
    if stats.fieldType != "numeric" then []
    else anomaliesOf p.codecs p.config.varianceThreshold r.items field stats

/-! ### What each strategy gathers -/

def gatherSmartSample : Finset ℕ :=
  (p.anchorsFor r .generic ++ p.applyConstraints r ++ p.anomalies r ++
    (if p.config.preserveChangePoints then
      r.analysis.fieldStats.flatMap fun (_, stats) => aroundChangePoints 1 r.items.length stats
    else []) ++
    p.applyQuerySignals r ++ p.applyPreserveFieldMatches r).toFinset

def gatherTimeSeries : Finset ℕ :=
  (p.anchorsFor r .timeSeries ++
    (r.analysis.fieldStats.flatMap fun (_, stats) => aroundChangePoints 2 r.items.length stats) ++
    p.applyConstraints r ++ p.applyQuerySignals r ++ p.applyPreserveFieldMatches r).toFinset

/-- The string field with the most distinct values, where more than a few are distinct. -/
def messageField (r : Request) : Option String :=
  (r.analysis.fieldStats.foldl (fun (best : Option String × Float) (name, stats) =>
    if stats.fieldType == "string" && stats.uniqueRatio > best.2 && stats.uniqueRatio > 0.3 then
      (some name, stats.uniqueRatio)
    else best) (none, 0)).1

/-- The key of the cluster that an item belongs to by a field. -/
def clusterKey (field : String) (item : Json) : String :=
  let message := match item.get? field with
    | some (.str s) => s
    | _ => ""
  ((p.codecs.md5 (String.ofList (message.toList.take 50))).take 8).toString

/-- The first two items of each cluster. -/
def clusterRepresentatives (field : String) : List ℕ :=
  let keys := r.items.map (p.clusterKey field)
  keys.dedup.flatMap fun key => ((keys.zipIdx.filter fun (key', _) => key' == key).map Prod.snd).take 2

def gatherClusterSample : Finset ℕ :=
  (p.anchorsFor r .logs ++ p.applyConstraints r ++
    (match messageField r with
    | some field => p.clusterRepresentatives r field
    | none => []) ++
    p.applyQuerySignals r ++ p.applyPreserveFieldMatches r).toFinset

/-- The field that is a score with the most confidence. -/
def scoreField : Option String :=
  (r.analysis.fieldStats.foldl (fun (best : Option String × Float) (name, stats) =>
    let verdict := p.detectScoreField stats r.items
    if verdict.1 && verdict.2 > best.2 then (some name, verdict.2) else best) (none, 0)).1

/-- The score of an item. -/
def scoreOf (field : String) (item : Json) : Float :=
  match item.get? field with
  | some (.num literal) => p.codecs.asF64 literal
  | _ => 0

/-- The relevant items that are not in a list, three at most. -/
def relevanceAdds (keep : List ℕ) : List ℕ :=
  let doubled := p.config.relevanceThreshold * 2
  let highThreshold := if doubled ≥ 0.5 then doubled else 0.5
  let scores := p.scoreBatch (scoredTexts r) r.queryContext
  ((scores.zipIdx.filter fun (score, i) => i ∉ keep && score ≥ highThreshold).map Prod.snd).take 3

/-- Ranked items: what is gathered is kept. -/
def gatherTopN (field : String) : Finset ℕ :=
  let scored := (r.items.zipIdx.map fun (item, i) => (i, p.scoreOf field item)).insertionSort
    fun a b => b.2 ≤ a.2
  let keep := (scored.map Prod.fst).take (p.maxItems r - 3) ++ p.applyConstraints r
  let keep := if r.queryContext.isEmpty then keep
    else keep ++ (r.items.zipIdx.filter fun (item, _) =>
      p.matchesQueryAnchors r.queryContext item).map Prod.snd
  let keep := if r.queryContext.isEmpty then keep else keep ++ p.relevanceAdds r keep
  (keep ++ p.applyPreserveFieldMatches r).toFinset

/-! ### The plan -/

/-- A plan with what is left of the gathered indices. -/
def prioritized (plan : CompressionPlan) (keep : Finset ℕ) : CompressionPlan :=
  { plan with
    keepIndices :=
      (prioritizeIndices p.codecs p.config keep r.items (some r.analysis) (p.maxItems r)).sort }

def planSmartSample (plan : CompressionPlan) : CompressionPlan :=
  p.prioritized r plan (p.gatherSmartSample r)

def planTimeSeries (plan : CompressionPlan) : CompressionPlan :=
  p.prioritized r plan (p.gatherTimeSeries r)

def planClusterSample (plan : CompressionPlan) : CompressionPlan :=
  p.prioritized r { plan with clusterField := messageField r } (p.gatherClusterSample r)

def planTopN (plan : CompressionPlan) : CompressionPlan :=
  match p.scoreField r with
  | none => p.planSmartSample r plan
  | some field =>
    { plan with
      sortField := some field
      keepCount := (p.gatherTopN r field).card
      keepIndices := (p.gatherTopN r field).sort }

/-- The plan of which only the strategy is known. -/
def initialPlan : CompressionPlan where
  strategy := r.analysis.recommendedStrategy
  keepIndices := []
  constantFields := if p.config.factorOutConstants then r.analysis.constantFields else []
  clusterField := none
  sortField := none
  keepCount := 10

def createPlan : CompressionPlan :=
  match r.analysis.recommendedStrategy with
  | .skip => { p.initialPlan r with keepIndices := List.range r.items.length }
  | .timeSeries => p.planTimeSeries r (p.initialPlan r)
  | .clusterSample => p.planClusterSample r (p.initialPlan r)
  | .topN => p.planTopN r (p.initialPlan r)
  | _ => p.planSmartSample r (p.initialPlan r)

end Planner

end Headroom.SmartCrusher
