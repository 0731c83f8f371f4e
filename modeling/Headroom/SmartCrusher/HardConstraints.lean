import Headroom.SmartCrusher.Planning

/-!
# Constraints and the budget

A constraint is to hold whatever the budget: an item that it marks is kept, or another item of the same
content is. A plan that keeps all that it gathered respects the constraints. Beyond the budget the kept
set is built anew, and a marked item that no detector finds is kept as long as there is room for it.

## Main statements

* `Planner.respects_iff` : a plan respects the constraints exactly when the marked items are spared.
-/

open Foundation Foundation.Quota

namespace Headroom.SmartCrusher.Planner

variable {p : Planner} {r : Request}

/-! ### What is to hold, and when it does -/

/-- The plan keeps every marked item, or another of the same content. -/
def Respects (p : Planner) (r : Request) : Prop :=
  ∀ i ∈ p.applyConstraints r, ∃ j ∈ (p.createPlan r).keepIndices, SameContent r.items i j

instance (items : List Json) (i j : ℕ) : Decidable (SameContent items i j) :=
  match hi : items[i]?, hj : items[j]? with
  | some a, some b => decidable_of_iff (Json.SameValue a b)
    ⟨fun h => ⟨a, b, hi, hj, h⟩, fun ⟨a', b', ha, hb, h⟩ => by
      rw [hi] at ha
      rw [hj] at hb
      cases ha
      cases hb
      exact h⟩
  | none, _ => isFalse fun ⟨a, _, ha, _, _⟩ => by simp [hi] at ha
  | some _, none => isFalse fun ⟨_, b, _, hb, _⟩ => by simp [hj] at hb

/-- What is handed over to be cut back to the budget; nothing where all that was gathered is kept. -/
def gathered (p : Planner) (r : Request) : Option (Finset ℕ) :=
  match r.analysis.recommendedStrategy with
  | .skip => none
  | .timeSeries => some (p.gatherTimeSeries r)
  | .clusterSample => some (p.gatherClusterSample r)
  | .topN => if (p.scoreField r).isSome then none else some (p.gatherSmartSample r)
  | _ => some (p.gatherSmartSample r)

/-- What is left of a set: all contents within the budget, the last resort beyond. -/
def spared (p : Planner) (r : Request) (keep : Finset ℕ) : Finset ℕ :=
  let merged := mergeContents p.codecs p.config keep r.items
  if merged.card ≤ p.maxItems r then merged
  else lastResort p.codecs p.config merged r.items (some r.analysis) (p.maxItems r)

/-- The content of every marked item is among what is spared of the gathered indices. -/
def Spared (p : Planner) (r : Request) : Prop :=
  match p.gathered r with
  | none => True
  | some keep => ∀ i ∈ p.applyConstraints r, ∃ j ∈ p.spared r keep, SameContent r.items i j

/-! ### Marked items are gathered -/

variable {i : ℕ}

theorem lt_length_of_mem_applyConstraints (h : i ∈ p.applyConstraints r) :
    i < r.items.length := by
  obtain ⟨c, -, hi⟩ := List.mem_flatMap.1 h
  exact c.lt_length hi

theorem mem_gatherTopN (field : String) (h : i ∈ p.applyConstraints r) :
    i ∈ p.gatherTopN r field := by
  rw [gatherTopN, List.mem_toFinset]
  refine List.mem_append_left _ ?_
  split_ifs
  · exact List.mem_append_right _ h
  · exact List.mem_append_left _ (List.mem_append_left _ (List.mem_append_right _ h))

theorem mem_gathered {keep : Finset ℕ} (h : i ∈ p.applyConstraints r)
    (hkeep : p.gathered r = some keep) : i ∈ keep := by
  have hsmart : i ∈ p.gatherSmartSample r := by simp [gatherSmartSample, h]
  have htime : i ∈ p.gatherTimeSeries r := by simp [gatherTimeSeries, h]
  have hcluster : i ∈ p.gatherClusterSample r := by
    rw [gatherClusterSample, List.mem_toFinset]
    simp only [List.mem_append]
    tauto
  rw [gathered] at hkeep
  split at hkeep
  · exact absurd hkeep (by simp)
  · exact Option.some.inj hkeep ▸ htime
  · exact Option.some.inj hkeep ▸ hcluster
  · split_ifs at hkeep
    exact Option.some.inj hkeep ▸ hsmart
  · exact Option.some.inj hkeep ▸ hsmart

theorem createPlan_keepIndices (p : Planner) (r : Request) :
    match p.gathered r with
    | some keep => (p.createPlan r).keepIndices =
        (prioritizeIndices p.codecs p.config keep r.items (some r.analysis) (p.maxItems r)).sort
    | none => ∀ i ∈ p.applyConstraints r, i ∈ (p.createPlan r).keepIndices := by
  rw [gathered, createPlan]
  cases r.analysis.recommendedStrategy with
  | none => rfl
  | skip =>
    intro i hi
    exact List.mem_range.2 (lt_length_of_mem_applyConstraints hi)
  | timeSeries => rfl
  | clusterSample => rfl
  | topN =>
    dsimp only
    rw [planTopN]
    cases hfield : p.scoreField r with
    | none => rfl
    | some field =>
      intro i hi
      exact (Finset.mem_sort _).2 (mem_gatherTopN field hi)
  | smartSample => rfl

/-! ### Exactly the spared contents are kept -/

theorem exists_prioritizeIndices_iff {keep : Finset ℕ} (hi : i ∈ keep)
    (hlen : i < r.items.length) :
    (∃ j ∈ prioritizeIndices p.codecs p.config keep r.items (some r.analysis) (p.maxItems r),
        SameContent r.items i j) ↔
      ∃ j ∈ p.spared r keep, SameContent r.items i j := by
  rw [spared]
  split_ifs with hbudget
  · obtain ⟨hsub, hnew⟩ := prioritizeIndices_of_le (some r.analysis) hbudget
    refine ⟨fun ⟨j, hj, hij⟩ => ?_, fun ⟨j, hj, hij⟩ => ⟨j, hsub hj, hij⟩⟩
    rcases hnew j hj with hj | hj
    · exact ⟨j, hj, hij⟩
    · obtain ⟨s, hs, hsi⟩ := exists_mergeContents p.codecs p.config hi hlen
      have hslen : s < r.items.length := by
        by_contra hover
        rw [hashAt, List.getElem?_eq_none (by omega), hashAt, List.getElem?_eq_getElem hlen] at hsi
        exact absurd hsi (by simp)
      exact absurd (hsi.trans hij.hashAt_eq) (hj s hs hslen)
  · rw [prioritizeIndices_of_lt (by omega)]

/-- A plan respects the constraints exactly when the content of every marked item is spared. -/
theorem respects_iff (p : Planner) (r : Request) : p.Respects r ↔ p.Spared r := by
  have hplan := createPlan_keepIndices p r
  rw [Respects, Spared]
  cases hkeep : p.gathered r with
  | none =>
    rw [hkeep] at hplan
    refine ⟨fun _ => trivial, fun _ i hi => ⟨i, hplan i hi, ?_⟩⟩
    exact SameContent.refl (lt_length_of_mem_applyConstraints hi)
  | some keep =>
    rw [hkeep] at hplan
    rw [hplan]
    refine forall₂_congr fun i hi => ?_
    simp only [Finset.mem_sort]
    exact exists_prioritizeIndices_iff (mem_gathered hi hkeep) (lt_length_of_mem_applyConstraints hi)

/-! ### The default constraints -/

/-! ### An array of seven records under a rule that marks all of them -/

/-- A rule that no item may be dropped. -/
def markAll : Constraint where
  name := "business_rule"
  mustKeep := fun items _ => List.range items.length
  lt_length := fun h => List.mem_range.1 h

/-- The digests of the records. -/
def recordDigests : List (String × String) :=
  [("\x7b\"id\": 0\x7d", "89e412cabc2300a734873ff43b2dd367"),
    ("\x7b\"id\": 1\x7d", "f3e56c602771e9541aef61d502562b89"),
    ("\x7b\"id\": 2\x7d", "e535d5106574b0506407aebaec71318e"),
    ("\x7b\"id\": 3\x7d", "c7426fb8d903c232eeb81f6454c81069"),
    ("\x7b\"id\": 4\x7d", "810055d7141c0bb0a305531c238b0b4a"),
    ("\x7b\"id\": 5\x7d", "21ff9cb04ec9866e06b89924760cc847"),
    ("\x7b\"id\": 6\x7d", "e8edae0aa87aa905e8e9ea19fbdb411f")]

/-- A planner whose components find nothing, with the default settings. -/
def ruledPlanner : Planner where
  config := ⟨2, 15, true, false, true, 0.3⟩
  constraints := defaultOssConstraints ++ [markAll]
  codecs := ⟨fun _ => 0, fun text => (recordDigests.lookup text).getD ""⟩
  selectAnchors := fun _ _ _ _ => []
  scoreBatch := fun texts _ => texts.map fun _ => 0
  matchesQueryAnchors := fun _ _ => false
  detectScoreField := fun _ _ => (false, 0)
  hashFieldName := id
  toLowercase := id

/-- Seven records with a budget of six. -/
def sevenRecords : Request where
  analysis := ⟨[], .smartSample, []⟩
  items := ["0", "1", "2", "3", "4", "5", "6"].map fun id => .obj [("id", .num id)]
  queryContext := ""
  preserveFields := none
  effectiveMaxItems := some 6
  itemStrings := none

theorem mergeContents_sevenRecords : mergeContents ruledPlanner.codecs ruledPlanner.config
    (ruledPlanner.gatherSmartSample sevenRecords) sevenRecords.items = Finset.range 7 := by
  have hgather : ruledPlanner.gatherSmartSample sevenRecords = Finset.range 7 := by decide +kernel
  rw [hgather, mergeContents, if_pos (show ruledPlanner.config.dedupIdenticalItems = true from rfl),
     deduplicateIndicesByContent, Finset.sort_range]
  decide +kernel

/-- The fifth record is dropped though the rule marks it. -/
theorem not_respects_sevenRecords : ¬ruledPlanner.Respects sevenRecords := by
  intro h
  have hmarked : 4 ∈ ruledPlanner.applyConstraints sevenRecords := by decide +kernel
  obtain ⟨j, hj, hsame⟩ := h 4 hmarked
  have hmerged := mergeContents_sevenRecords
  have hkept : (ruledPlanner.createPlan sevenRecords).keepIndices =
      (lastResort ruledPlanner.codecs ruledPlanner.config (Finset.range 7) sevenRecords.items
        (some sevenRecords.analysis) 6).sort := by
    rw [← hmerged]
    have hover : 6 < (mergeContents ruledPlanner.codecs ruledPlanner.config
        (ruledPlanner.gatherSmartSample sevenRecords) sevenRecords.items).card := by
      rw [hmerged]
      decide
    exact congrArg Finset.sort (prioritizeIndices_of_lt hover)
  have hcritical : criticalIndices ruledPlanner.codecs ruledPlanner.config sevenRecords.items
      (some sevenRecords.analysis) = ∅ := by decide +kernel
  rw [hkept, Finset.mem_sort, lastResort, hcritical, Finset.sort_range] at hj
  have hlast : ∀ j ∈ ∅ ∪ ((fresh ∅ (firstThree 7 ++ lastTwo 7 ++ List.range 7)).take 6).toFinset,
      j ≠ 4 ∧ j < 7 := by decide
  have hother : ∀ j < 7, j ≠ 4 → ¬SameContent sevenRecords.items 4 j := by decide +kernel
  exact hother j (hlast j hj).2 (hlast j hj).1 hsame

end Headroom.SmartCrusher.Planner
