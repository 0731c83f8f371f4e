import Mathlib.Data.Finset.Sort
import Headroom.Foundation.Quota
import Headroom.SmartCrusher.Outliers
import Headroom.SmartCrusher.PythonJson

/-!
# The indices that are kept

The planners gather the indices of the items to be kept. Indices of the same content are merged, what
room is left is filled with other contents, and where the indices are more than the budget the set is
built anew from what the detectors find, the first and the last items, and as many of the gathered
indices as there is room for.
-/

open Foundation Foundation.Quota

namespace Headroom.SmartCrusher

/-! ### Settings and statistics -/

structure SmartCrusherConfig where
  varianceThreshold : Float
  maxItemsAfterCrush : ℕ
  preserveChangePoints : Bool
  factorOutConstants : Bool
  dedupIdenticalItems : Bool
  relevanceThreshold : Float

inductive CompressionStrategy where
  | none
  | skip
  | timeSeries
  | clusterSample
  | topN
  | smartSample
  deriving DecidableEq

/-- Statistics for one field of the items. -/
structure FieldStats where
  name : String
  fieldType : String
  count : ℕ
  uniqueCount : ℕ
  uniqueRatio : Float
  isConstant : Bool
  constantValue : Option Json
  minVal : Option Float
  maxVal : Option Float
  meanVal : Option Float
  variance : Option Float
  changePoints : List ℕ
  avgLength : Option Float
  topValues : List (String × ℕ)

/-- What is known of an array; the fields are in the order of their names. -/
structure ArrayAnalysis where
  fieldStats : List (String × FieldStats)
  recommendedStrategy : CompressionStrategy
  constantFields : List (String × Json)

/-- What numbers are as floats, and the hexadecimal digest of a text. -/
structure Codecs where
  asF64 : String → Float
  md5 : String → String

variable (K : Codecs)

/-! ### Contents -/

def computeItemHash (item : Json) : String := ((K.md5 (pythonJsonDumpsSortKeys item)).take 16).toString

/-- The hash of an item. The index that would stand in for an item that cannot be written is never used. -/
def itemContentHash : Json → String
  | .str s => ((K.md5 s).take 16).toString
  | .num literal => ((K.md5 literal).take 16).toString
  | .bool b => ((K.md5 (if b then "true" else "false")).take 16).toString
  | .null => ((K.md5 "None").take 16).toString
  | item => computeItemHash K item

/-- The hash of the item at an index, where there is one. -/
def hashAt (items : List Json) (idx : ℕ) : Option String := items[idx]?.map (itemContentHash K)

/-- Two indices of items with the same content. -/
def SameContent (items : List Json) (i j : ℕ) : Prop :=
  ∃ a b, items[i]? = some a ∧ items[j]? = some b ∧ Json.SameValue a b

/-! ### Merging contents -/

/-- The indices whose hash did not come up before. -/
def firstByContent (hash : ℕ → Option String) : List String → List ℕ → List ℕ
  | _, [] => []
  | seen, idx :: indices =>
    match hash idx with
    | none => firstByContent hash seen indices
    | some h =>
      if h ∈ seen then firstByContent hash seen indices
      else idx :: firstByContent hash (h :: seen) indices

def deduplicateIndicesByContent (keepIndices : Finset ℕ) (items : List Json) : Finset ℕ :=
  (firstByContent (hashAt K items) [] keepIndices.sort).toFinset

/-! ### Filling up -/

/-- The set that is filled, the hashes of its items, and how many were added. -/
structure Filling where
  result : Finset ℕ
  seen : Finset (Option String)
  added : ℕ

/-- A candidate is added if there is room and its content is new. -/
def Filling.visit (hash : ℕ → Option String) (remaining : ℕ) (f : Filling) (idx : ℕ) : Filling :=
  if remaining ≤ f.added then f
  else if hash idx ∈ f.seen then f
  else ⟨insert idx f.result, insert (hash idx) f.seen, f.added + 1⟩

/-- The positions from each offset in strides of a step. -/
def strides (step len : ℕ) : List ℕ :=
  (List.range step).flatMap fun start => List.range' start ((len - start + step - 1) / step) step

/-- Fill up with candidates of new content, spread over the array. -/
def fillRemainingSlots (keepIndices : Finset ℕ) (items : List Json) (effectiveMax : ℕ) : Finset ℕ :=
  let remaining := effectiveMax - keepIndices.card
  if remaining = 0 then keepIndices
  else
    let seen := (keepIndices.filter (· < items.length)).image (hashAt K items)
    let candidates := (List.range items.length).filter (· ∉ keepIndices)
    if candidates = [] then keepIndices
    else
      let step := max (candidates.length / (remaining + 1)) 1
      let visited := (strides step candidates.length).filterMap fun i => candidates[i]?
      (visited.foldl (Filling.visit (hashAt K items) remaining) ⟨keepIndices, seen, 0⟩).result

/-! ### What stands out -/

def isNumericFieldWithVariance (stats : FieldStats) : Bool :=
  stats.fieldType == "numeric" && stats.meanVal.isSome && stats.variance.getD 0 > 0

/-- The indices of the items whose value in a field is a number far from a mean. -/
def farFromMean (items : List Json) (field : String) (mean threshold : Float) : List ℕ :=
  (items.zipIdx.filter fun (item, _) =>
    match item.get? field with
    | some (.num literal) => !(K.asF64 literal).isNaN && (K.asF64 literal - mean).abs > threshold
    | _ => false).map Prod.snd

/-- The anomalies in a field whose values vary. -/
def anomaliesOf (varianceThreshold : Float) (items : List Json) (field : String) (stats : FieldStats) :
    List ℕ :=
  match stats.meanVal, stats.variance with
  | some mean, some var =>
    if var ≤ 0 then [] else if var.sqrt ≤ 0 then []
    else farFromMean K items field mean (varianceThreshold * var.sqrt)
  | _, _ => []

def numericAnomalyIndices (config : SmartCrusherConfig) (items : List Json)
    (analysis : Option ArrayAnalysis) : List ℕ :=
  match analysis with
  | none => []
  | some analysis => analysis.fieldStats.flatMap fun (field, stats) =>
    if isNumericFieldWithVariance stats then anomaliesOf K config.varianceThreshold items field stats
    else []

/-- Errors, outliers and anomalies. Fields that others learned to be important are not known here. -/
def criticalIndices (config : SmartCrusherConfig) (items : List Json) (analysis : Option ArrayAnalysis) :
    Finset ℕ :=
  (detectErrorItemsForPreservation items none ++ detectStructuralOutliers items ++
    numericAnomalyIndices K config items analysis).toFinset

/-! ### The budget -/

def firstThree (n : ℕ) : List ℕ := List.range (min 3 n)

def lastTwo (n : ℕ) : List ℕ := List.range' (n - 2) (n - (n - 2))

/-- The gathered indices, with those of the same content merged where this is set. -/
def mergeContents (config : SmartCrusherConfig) (keepIndices : Finset ℕ) (items : List Json) : Finset ℕ :=
  if config.dedupIdenticalItems then deduplicateIndicesByContent K keepIndices items else keepIndices

def prioritizeIndices (config : SmartCrusherConfig) (keepIndices : Finset ℕ) (items : List Json)
    (analysis : Option ArrayAnalysis) (effectiveMax : ℕ) : Finset ℕ :=
  let merged := mergeContents K config keepIndices items
  let current :=
    if merged.card < effectiveMax ∧ merged.card < items.length then
      fillRemainingSlots K merged items effectiveMax
    else merged
  if current.card ≤ effectiveMax then current
  else
    let prioritized := criticalIndices K config items analysis
    let remaining := effectiveMax - prioritized.card
    let anchored :=
      if 0 < remaining then
        enroll (lastTwo items.length) (enroll (firstThree items.length) (prioritized, remaining))
      else (prioritized, remaining)
    -- none of the others is in the set, each takes room
    if 0 < anchored.2 then (enroll (current \ anchored.1).sort anchored).1 else anchored.1

/-- What is kept of a set beyond the budget. -/
def lastResort (config : SmartCrusherConfig) (current : Finset ℕ) (items : List Json)
    (analysis : Option ArrayAnalysis) (effectiveMax : ℕ) : Finset ℕ :=
  let critical := criticalIndices K config items analysis
  let queue := firstThree items.length ++ lastTwo items.length ++ current.sort
  critical ∪ ((fresh critical queue).take (effectiveMax - critical.card)).toFinset

variable {K} {items : List Json} {keepIndices current : Finset ℕ} {config : SmartCrusherConfig}
  {analysis : Option ArrayAnalysis} {effectiveMax : ℕ}

/-! ### The same content -/

variable {i : ℕ}

theorem SameContent.refl (h : i < items.length) : SameContent items i i :=
  ⟨items[i], items[i], List.getElem?_eq_getElem h, List.getElem?_eq_getElem h, rfl⟩

theorem itemContentHash_congr {a b : Json} (h : Json.SameValue a b) :
    itemContentHash K a = itemContentHash K b := by
  have hnorm : a.norm = b.norm := h
  have hhash : computeItemHash K a = computeItemHash K b := by
    rw [computeItemHash, computeItemHash, pythonJsonDumpsSortKeys_congr h]
  -- only values of the same kind have the same normal form
  cases a <;> cases b <;> simp only [Json.norm, reduceCtorEq, Json.bool.injEq, Json.num.injEq,
    Json.str.injEq] at hnorm
  · rfl
  · rw [hnorm]
  · rw [hnorm]
  · rw [hnorm]
  · exact hhash
  · exact hhash

theorem SameContent.hashAt_eq {i j : ℕ} (h : SameContent items i j) :
    hashAt K items i = hashAt K items j := by
  obtain ⟨a, b, ha, hb, hab⟩ := h
  rw [hashAt, hashAt, ha, hb, Option.map_some, Option.map_some, itemContentHash_congr hab]

/-! ### Merging keeps every content -/

theorem firstByContent_sublist (hash : ℕ → Option String) (seen : List String) (indices : List ℕ) :
    (firstByContent hash seen indices).Sublist indices := by
  induction indices generalizing seen with
  | nil => exact List.Sublist.slnil
  | cons idx indices ih =>
    rw [firstByContent]
    split
    · exact (ih seen).cons idx
    · split_ifs
      · exact (ih seen).cons idx
      · exact (ih _).cons_cons idx

variable {hash : ℕ → Option String}

theorem exists_firstByContent {seen : List String} {indices : List ℕ}
    {h : String} (hi : i ∈ indices) (hhash : hash i = some h) (hseen : h ∉ seen) :
    ∃ r ∈ firstByContent hash seen indices, hash r = some h := by
  induction indices generalizing seen with
  | nil => exact absurd hi List.not_mem_nil
  | cons idx indices ih =>
    rw [firstByContent]
    rcases List.mem_cons.1 hi with rfl | hi
    · rw [hhash]
      dsimp only
      rw [if_neg hseen]
      exact ⟨i, List.mem_cons_self, hhash⟩
    · cases hidx : hash idx with
      | none => exact ih hi hseen
      | some h' =>
        dsimp only
        split_ifs with hold
        · exact ih hi hseen
        · by_cases heq : h = h'
          · exact ⟨idx, List.mem_cons_self, by rw [hidx, heq]⟩
          · have hseen' : h ∉ h' :: seen := by simp [heq, hseen]
            obtain ⟨r, hr, hrh⟩ := ih hi hseen'
            exact ⟨r, List.mem_cons_of_mem _ hr, hrh⟩

theorem mergeContents_subset : mergeContents K config keepIndices items ⊆ keepIndices := by
  rw [mergeContents]
  split_ifs
  · intro i hi
    have hmem := (firstByContent_sublist _ _ _).subset (List.mem_toFinset.1 hi)
    exact (Finset.mem_sort (· ≤ ·)).1 hmem
  · exact Finset.Subset.refl keepIndices

theorem exists_mergeContents (K : Codecs) (config : SmartCrusherConfig) (hi : i ∈ keepIndices)
    (hlen : i < items.length) :
    ∃ r ∈ mergeContents K config keepIndices items, hashAt K items r = hashAt K items i := by
  rw [mergeContents]
  split_ifs
  · have hhash : hashAt K items i = some (itemContentHash K items[i]) := by
      rw [hashAt, List.getElem?_eq_getElem hlen, Option.map_some]
    obtain ⟨r, hr, hrh⟩ := exists_firstByContent ((Finset.mem_sort (· ≤ ·)).2 hi) hhash List.not_mem_nil
    exact ⟨r, List.mem_toFinset.2 hr, hrh.trans hhash.symm⟩
  · exact ⟨i, hi, rfl⟩

/-! ### Filling adds new contents only -/

/-- What holds of a set while it is filled. -/
structure Filling.Sound (hash : ℕ → Option String) (start : Finset ℕ) (seen : Finset (Option String))
    (remaining : ℕ) (f : Filling) : Prop where
  subset : start ⊆ f.result
  card_le : f.result.card ≤ start.card + f.added
  added_le : f.added ≤ remaining
  seen_subset : seen ⊆ f.seen
  fresh : ∀ j ∈ f.result, j ∈ start ∨ hash j ∉ seen

theorem Filling.Sound.visit {start : Finset ℕ} {seen : Finset (Option String)}
    {remaining : ℕ} {f : Filling} (h : f.Sound hash start seen remaining) (idx : ℕ) :
    (f.visit hash remaining idx).Sound hash start seen remaining := by
  rw [Filling.visit]
  split_ifs with hroom hold
  · exact h
  · exact h
  · refine ⟨h.subset.trans (Finset.subset_insert _ _), ?_, ?_,
      h.seen_subset.trans (Finset.subset_insert _ _), ?_⟩
    · have hcard := Finset.card_insert_le idx f.result
      have := h.card_le
      dsimp only
      omega
    · dsimp only
      omega
    · intro j hj
      rcases Finset.mem_insert.1 hj with rfl | hj
      · exact Or.inr fun hseen => hold (h.seen_subset hseen)
      · exact h.fresh j hj

theorem Filling.Sound.foldl {start : Finset ℕ} {seen : Finset (Option String)}
    {remaining : ℕ} {f : Filling} (h : f.Sound hash start seen remaining) (visited : List ℕ) :
    (visited.foldl (Filling.visit hash remaining) f).Sound hash start seen remaining := by
  induction visited generalizing f with
  | nil => exact h
  | cons idx visited ih => exact ih (h.visit idx)

theorem fillRemainingSlots_spec (K : Codecs) (items : List Json)
    (h : keepIndices.card ≤ effectiveMax) :
    keepIndices ⊆ fillRemainingSlots K keepIndices items effectiveMax ∧
      (fillRemainingSlots K keepIndices items effectiveMax).card ≤ effectiveMax ∧
      ∀ j ∈ fillRemainingSlots K keepIndices items effectiveMax, j ∈ keepIndices ∨
        ∀ i ∈ keepIndices, i < items.length → hashAt K items i ≠ hashAt K items j := by
  have hstart : keepIndices ⊆ keepIndices ∧ keepIndices.card ≤ effectiveMax ∧
      ∀ j ∈ keepIndices, j ∈ keepIndices ∨
        ∀ i ∈ keepIndices, i < items.length → hashAt K items i ≠ hashAt K items j :=
    ⟨Finset.Subset.refl _, h, fun j hj => Or.inl hj⟩
  rw [fillRemainingSlots]
  dsimp only
  split_ifs
  · exact hstart
  · exact hstart
  · set seen := (keepIndices.filter (· < items.length)).image (hashAt K items) with hseen
    set visited := (strides _ _).filterMap fun i => _
    have hsound : (Filling.mk keepIndices seen 0).Sound (hashAt K items) keepIndices seen
        (effectiveMax - keepIndices.card) :=
      ⟨Finset.Subset.refl _, Nat.le_refl _, Nat.zero_le _, Finset.Subset.refl _, fun j hj => Or.inl hj⟩
    have hdone := hsound.foldl visited
    refine ⟨hdone.subset, ?_, ?_⟩
    · have := hdone.card_le
      have := hdone.added_le
      omega
    · intro j hj
      refine (hdone.fresh j hj).imp_right fun hnew i hi hlen heq => hnew ?_
      rw [hseen, ← heq]
      exact Finset.mem_image_of_mem _ (Finset.mem_filter.2 ⟨hi, hlen⟩)

/-! ### Within the budget and beyond -/

/-- Within the budget all contents stay, and whatever is added has a content of its own. -/
theorem prioritizeIndices_of_le (analysis : Option ArrayAnalysis)
    (h : (mergeContents K config keepIndices items).card ≤ effectiveMax) :
    mergeContents K config keepIndices items ⊆
        prioritizeIndices K config keepIndices items analysis effectiveMax ∧
      ∀ j ∈ prioritizeIndices K config keepIndices items analysis effectiveMax,
        j ∈ mergeContents K config keepIndices items ∨
          ∀ i ∈ mergeContents K config keepIndices items, i < items.length →
            hashAt K items i ≠ hashAt K items j := by
  obtain ⟨hsub, hcard, hnew⟩ := fillRemainingSlots_spec K items h
  rw [prioritizeIndices]
  dsimp only
  by_cases hfill : (mergeContents K config keepIndices items).card < effectiveMax ∧
      (mergeContents K config keepIndices items).card < items.length
  · rw [if_pos hfill, if_pos hcard]
    exact ⟨hsub, hnew⟩
  · rw [if_neg hfill, if_pos h]
    exact ⟨Finset.Subset.refl _, fun j hj => Or.inl hj⟩

theorem sort_sdiff (s t : Finset ℕ) : (s \ t).sort = s.sort.filter fun a => a ∉ t := by
  refine List.Perm.eq_of_pairwise (fun a b _ _ => le_antisymm) (Finset.pairwise_sort _ _)
    ((Finset.pairwise_sort _ _).filter _) ?_
  rw [List.perm_ext_iff_of_nodup (Finset.sort_nodup _ _) ((Finset.sort_nodup _ _).filter _)]
  intro a
  simp

/-- Beyond the budget the gathered indices are only the last of what is taken up. -/
theorem prioritizeIndices_of_lt (h : effectiveMax < (mergeContents K config keepIndices items).card) :
    prioritizeIndices K config keepIndices items analysis effectiveMax =
      lastResort K config (mergeContents K config keepIndices items) items analysis effectiveMax := by
  rw [prioritizeIndices, lastResort]
  dsimp only
  rw [if_neg (show ¬(_ ∧ _) by omega), if_neg (by omega)]
  set critical := criticalIndices K config items analysis
  set room := effectiveMax - critical.card
  set first := firstThree items.length
  set last := lastTwo items.length
  set merged := mergeContents K config keepIndices items
  have hanchored : (if 0 < room then enroll last (enroll first (critical, room)) else (critical, room)) =
      enroll (first ++ last) (critical, room) := by
    rcases Nat.eq_zero_or_pos room with hroom | hroom
    · rw [hroom, if_neg (Nat.lt_irrefl 0), enroll_of_no_room]
    · rw [if_pos hroom, enroll_append]
  rw [hanchored]
  have hothers : ∀ state : Finset ℕ × ℕ,
      (if 0 < state.2 then (enroll (merged \ state.1).sort state).1 else state.1) =
        (enroll merged.sort state).1 := by
    rintro ⟨s, k⟩
    rcases Nat.eq_zero_or_pos k with rfl | hk
    · rw [if_neg (Nat.lt_irrefl 0), enroll_of_no_room]
    · rw [if_pos hk, sort_sdiff, enroll_filter _ _ (Finset.Subset.refl s)]
  rw [hothers, ← enroll_append, enroll_eq]

end Headroom.SmartCrusher
