import Headroom.SmartCrusher.Crusher

/-!
# What is dropped, and where it can be found

Every array that the crusher reaches is still there as a whole, or is written as a table with a row for
each item, or ends with a marker that says how many items are missing and under which name the store has
the array. Where constant fields are taken out of the rows that are kept, this is not so: the row with the
constants is counted as if it were one of the items.

## Main statements

* `kept_reached` : everything that is reached in a document is kept if and only if nothing is factored.
-/

open Foundation

namespace Headroom.SmartCrusher.Crusher

variable {σ : Type} (c : Crusher σ)

/-! ### What is reached -/

section

variable (query : String) (bias : Float) (hook : Option ProseHook) (process : Json → σ → Processed × σ)

/-- The values of the fields of an object, each with the state that it is processed from. -/
def fieldValues (fields : List (String × Json)) (s : σ) : List (Json × σ) :=
  (visits (fun field => process field.2) fields s).map fun visit => (visit.1.2, visit.2)

/-- The values of the fields of rows that a hook looks into. -/
def rowValues (items : List Json) (s : σ) : List (Json × σ) :=
  (visits (processRow hook process) items s).flatMap fun visit =>
    match hook, visit.1 with
    | some _, .obj fields => fieldValues process fields visit.2
    | _, _ => []

/-- The rows of an array of objects, as the hook leaves them. -/
def rowsFor (items : List Json) (s : σ) : List Json × σ :=
  let rows := thread (processRow hook process) items s
  (rows.1.map Prod.fst, rows.2)

/-- The values that are processed inside an array of objects. -/
def belowDicts (items : List Json) (s : σ) : List (Json × σ) :=
  let rows := rowsFor hook process items s
  let result := c.crushArrayWithSource rows.1 items query bias rows.2
  rowValues hook process items s ++
    if result.1.strategyInfo = STRATEGY_ADAPTIVE_AT_LIMIT ∧ hook.isNone then visits process items result.2
    else []

/-- The values that are processed inside an array. -/
def belowArray (items : List Json) (s : σ) : List (Json × σ) :=
  if items.length < c.settings.minItemsToAnalyze then visits process items s
  else match classifyArray items with
  | .dictArray => c.belowDicts query bias hook process items s
  | .stringArray => []
  | .numberArray => []
  | .mixedArray => []
  | _ => visits process items s

/-- The values that are processed inside a value, one level down. -/
def below (value : Json) (s : σ) : List (Json × σ) :=
  match value with
  | .arr items => c.belowArray query bias hook process items s
  | .obj fields => fieldValues process fields s
  | .str text => ((tryParseJsonContainer c.reader text).map fun parsed => (parsed, s)).toList
  | _ => []

/-- A value is processed, with so many levels left, on the way through another. -/
inductive Reaches : ℕ → Json → σ → ℕ → Json → σ → Prop
  | refl (levels : ℕ) (value : Json) (s : σ) : Reaches levels value s levels value s
  | step {levels : ℕ} {value : Json} {s : σ} {inner : Json} {t : σ} {levels' : ℕ} {value' : Json} {s' : σ}
      (hbelow : (inner, t) ∈ c.below query bias hook (c.processLevels query bias hook levels) value s)
      (hreaches : Reaches levels inner t levels' value' s') : Reaches (levels + 1) value s levels' value' s'

/-! ### What takes the place of an array -/

/-- An item is shown as it is, or as it was processed. -/
inductive Shown : Json → Json → Prop
  | same (item : Json) : Shown item item
  | processed (item : Json) (s : σ) : Shown item (process item s).1.1
  | row (fields : List (String × Json)) (s : σ) : Shown (.obj fields) (processObject process fields s).1.1

/-- The markers that say how many items are missing, and under which name they are stored. -/
inductive IsSentinel (missing : ℕ) (hash : String) : Json → Prop
  | rows : IsSentinel missing hash (droppedSentinel (droppedMarker missing hash))
  | scalars : IsSentinel missing hash (scalarSentinel missing hash)

/-- What takes the place of an array shows all of its items; or it is a table with a row for each; or it
shows some of them in order, and ends with a marker for the others under which the store has the array. -/
inductive Kept (items : List Json) (place : Json) (s' : σ) : Prop
  | all (outs : List Json) (hshown : List.Forall₂ (Shown process) items outs) (hplace : place = .arr outs)
  | table (rows : List Json) (stage : CompactionStage) (t : Compaction)
      (hshown : List.Forall₂ (Shown process) items rows) (hstage : c.compaction = some stage)
      (hrows : List.Perm ((pairedRows rows t).map Prod.fst) rows)
      (hall : (pairedRows rows t).map Prod.snd = t.allRows) (hplace : place = .str (stage.format t))
  | dropped (rows kept : List Json) (missing : ℕ) (hash : String) (sentinel : Json) (store : CcrStore σ)
      (t : σ) (hshown : List.Forall₂ (Shown process) items rows) (hkept : kept.Sublist rows)
      (hcount : kept.length + missing = items.length) (hmissing : 0 < missing)
      (hsentinel : IsSentinel missing hash sentinel) (hplace : place = .arr (kept ++ [sentinel]))
      (hstore : c.ccrStore = some store) (hput : store.put t hash (canonicalArrayJson items) = (true, s'))
      (hstored : store.get s' hash = some (canonicalArrayJson items))

/-- Objects are cut short by a plan. -/
structure Plans (rows : List Json) (s : σ) : Prop where
  beyond : c.adaptiveK rows bias < rows.length
  untabled : (c.tryTable rows (itemTexts rows) s).1 = none
  lossy : c.settings.losslessOnly = false
  crushable : (c.analyzeArray rows).recommendedStrategy ≠ .skip

/-- What a plan leaves of objects takes their place: none is missing, or the store takes the array that
they come from. -/
def Placed (rows source : List Json) (s : σ) : Prop :=
  rows.length ≤ (c.planned rows query bias).length ∨
    (c.ccrPut (c.hashCanonical (canonicalArrayJson source)) (canonicalArrayJson source)
      (c.tryTable rows (itemTexts rows) s).2).1 = true

/-- The rows of objects are cut short by a plan that takes constants out of those that are kept. -/
structure CutFactored (rows source : List Json) (s : σ) : Prop where
  plans : c.Plans bias rows s
  placed : c.Placed query bias rows source s
  factors : c.factorsOut (c.planOf rows query bias) rows = true

/-- An array is cut short by a plan that takes constants out of the rows that are kept. -/
structure Factored (items : List Json) (s : σ) : Prop where
  enough : c.settings.minItemsToAnalyze ≤ items.length
  dicts : classifyArray items = .dictArray
  cut : c.CutFactored query bias (rowsFor hook process items s).1 items (rowsFor hook process items s).2

end

/-! ### What plans leave -/

variable {α : Type} {indices : List ℕ}

theorem filterMap_getElem?_sublist (items : List α)
    (h : indices.Pairwise (· < ·)) {lo : ℕ} (hlo : ∀ i ∈ indices, lo ≤ i) :
    (indices.filterMap fun i => items[i]?).Sublist (items.drop lo) := by
  induction indices generalizing lo with
  | nil => exact List.nil_sublist _
  | cons i indices ih =>
    rw [List.pairwise_cons] at h
    have hi : lo ≤ i := hlo i List.mem_cons_self
    have hdrop : (items.drop i).Sublist (items.drop lo) := (List.drop_suffix_drop_left items hi).sublist
    have hrest := ih h.2 fun j hj => h.1 j hj
    by_cases hlen : i < items.length
    · rw [List.filterMap_cons_some (List.getElem?_eq_getElem hlen)]
      refine List.Sublist.trans ?_ hdrop
      rw [List.drop_eq_getElem_cons hlen]
      exact List.Sublist.cons_cons _ hrest
    · rw [List.filterMap_cons_none (List.getElem?_eq_none (not_lt.mp hlen))]
      refine hrest.trans (List.Sublist.trans ?_ hdrop)
      exact (List.drop_suffix_drop_left items (Nat.le_succ i)).sublist

theorem itemsAt_sublist (items : List Json) (h : indices.Nodup) :
    (itemsAt items indices).Sublist items := by
  have hsorted : (indices.insertionSort (· ≤ ·)).Pairwise (· < ·) := by
    have hle := List.pairwise_insertionSort (fun a b : ℕ => a ≤ b) indices
    have hne : (indices.insertionSort (· ≤ ·)).Pairwise (· ≠ ·) :=
      (List.perm_insertionSort (fun a b : ℕ => a ≤ b) indices).nodup_iff.2 h
    exact (hle.and hne).imp fun hab => lt_of_le_of_ne hab.1 hab.2
  have := filterMap_getElem?_sublist items hsorted fun i _ => Nat.zero_le i
  rwa [List.drop_zero] at this

theorem nodup_keepIndices (p : Planner) (r : Request) : (p.createPlan r).keepIndices.Nodup := by
  have hprioritized : ∀ plan keep, (p.prioritized r plan keep).keepIndices.Nodup := fun _ _ =>
    Finset.sort_nodup _ _
  rw [Planner.createPlan]
  split
  · exact List.nodup_range
  · exact hprioritized _ _
  · exact hprioritized _ _
  · rw [Planner.planTopN]
    split
    · exact hprioritized _ _
    · rename_i field _
      exact Finset.sort_nodup (p.gatherTopN r field) _
  · exact hprioritized _ _

theorem keptAt_sublist (items : List α) (keep : List ℕ) : (keptAt items keep).Sublist items := by
  rw [keptAt]
  refine (List.filter_sublist.map Prod.fst).trans ?_
  rw [List.zipIdx_map_fst]

/-- A plan that takes no constants out leaves some of the rows as they are. -/
theorem planned_sublist {query : String} {bias : Float} {rows : List Json}
    (h : c.factorsOut (c.planOf rows query bias) rows = false) :
    (c.planned rows query bias).Sublist rows := by
  rw [planned, executePlan, h, if_neg Bool.false_ne_true]
  exact itemsAt_sublist rows (nodup_keepIndices _ _)

/-! ### What becomes of scalars -/

theorem crushStringArray_sublist (items : List String) (bias : Float) :
    (c.crushStringArray items bias).1.Sublist items := by
  rw [crushStringArray]
  split_ifs
  · exact List.Sublist.refl _
  · exact List.Sublist.refl _
  · exact keptAt_sublist items _

theorem crushNumberArray_sublist (items : List Json) (bias : Float) :
    (c.crushNumberArray items bias).1.Sublist items := by
  rw [crushNumberArray]
  dsimp only
  split_ifs
  · exact List.Sublist.refl _
  · exact List.Sublist.refl _
  · exact List.Sublist.refl _
  · exact keptAt_sublist items _

theorem crushMixedArray_sublist (items : List Json) (query : String) (bias : Float) (s : σ) :
    (c.crushMixedArray items query bias s).1.1.Sublist items := by
  rw [crushMixedArray]
  split_ifs
  · exact List.Sublist.refl _
  · exact List.Sublist.refl _
  · exact keptAt_sublist items _

theorem map_str_of_stringArray {items : List Json} (h : classifyArray items = .stringArray) :
    (items.filterMap Json.asStr?).map Json.str = items := by
  have hall : ∀ item ∈ items, groupKey item = "str" := by
    rw [classifyArray] at h
    split_ifs at h with _ _ _ hall
    exact fun item hitem => eq_of_beq (List.all_eq_true.1 hall item hitem)
  clear h
  induction items with
  | nil => rfl
  | cons item items ih =>
    have hrest := ih fun other hother => hall other (List.mem_cons_of_mem _ hother)
    have hitem := hall item List.mem_cons_self
    cases item with
    | str text => exact congrArg (Json.str text :: ·) hrest
    | _ => simp [groupKey] at hitem

/-! ### What becomes of objects -/

/-- The four ways in which objects are crushed. -/
inductive Crushing (rows source : List Json) (query : String) (bias : Float) (s : σ) :
    CrushArrayResult × σ → Prop
  | whole (info : String) (s' : σ) : Crushing rows source query bias s (.whole rows info, s')
  | table (stage : CompactionStage) (t : Compaction) (info : String) (s' : σ)
      (hstage : c.compaction = some stage)
      (ht : t = (compactWithStore c.reader c.sha256 stage.config c.ccrStore rows s).1)
      (hcompacted : t.wasCompacted) :
      Crushing rows source query bias s (⟨rows, info, none, "", some (stage.format t)⟩, s')
  | kept (info : String) (s' : σ) (hplans : c.Plans bias rows s)
      (hlength : c.settings.enableCcrMarker = true → rows.length ≤ (c.planned rows query bias).length) :
      Crushing rows source query bias s (⟨c.planned rows query bias, info, none, "", none⟩, s')
  | dropped (missing : ℕ) (info : String) (s' : σ) (hplans : c.Plans bias rows s) (hmissing : 0 < missing)
      (hcount : missing = rows.length - (c.planned rows query bias).length)
      (hput : c.ccrPut (c.hashCanonical (canonicalArrayJson source)) (canonicalArrayJson source)
        (c.tryTable rows (itemTexts rows) s).2 = (true, s')) :
      Crushing rows source query bias s
        (⟨c.planned rows query bias, info, some (c.hashCanonical (canonicalArrayJson source)),
          droppedMarker missing (c.hashCanonical (canonicalArrayJson source)), none⟩, s')

theorem crushing_crushArrayWithSource (rows source : List Json) (query : String) (bias : Float) (s : σ) :
    c.Crushing rows source query bias s (c.crushArrayWithSource rows source query bias s) := by
  rw [crushArrayWithSource]
  by_cases hlimit : rows.length ≤ c.adaptiveK rows bias
  · rw [if_pos hlimit]
    exact Crushing.whole _ _
  rw [if_neg hlimit]
  cases htable : c.tryTable rows (itemTexts rows) s with
  | mk found s₁ =>
    cases found with
    | some found =>
      obtain ⟨t, rendered⟩ := found
      rw [tryTable] at htable
      split at htable
      · exact absurd (congrArg Prod.fst htable) nofun
      · rename_i stage hstage
        dsimp only at htable
        split_ifs at htable with hworth
        · obtain ⟨hfound, -⟩ := Prod.mk.inj htable
          obtain ⟨rfl, rfl⟩ := Prod.mk.inj (Option.some.inj hfound)
          exact Crushing.table stage _ _ _ hstage rfl (Bool.and_eq_true_iff.1 hworth).1
        · exact absurd (congrArg Prod.fst htable) nofun
    | none =>
      dsimp only
      split_ifs with hlossless hskip
      · exact Crushing.whole _ _
      · exact Crushing.whole _ _
      · have hplans : c.Plans bias rows s :=
          ⟨not_le.mp hlimit, congrArg Prod.fst htable, eq_false_of_ne_true hlossless, hskip⟩
        rw [cutShort]
        dsimp only
        split_ifs with hdropped hput
        · rw [Bool.and_eq_true, decide_eq_true_iff] at hdropped
          have hstate : (c.tryTable rows (itemTexts rows) s).2 = s₁ := congrArg Prod.snd htable
          exact Crushing.dropped _ _ _ hplans hdropped.1 rfl (by rw [hstate]; exact Prod.ext hput rfl)
        · exact Crushing.whole _ _
        · refine Crushing.kept _ _ hplans fun hmarker => ?_
          rw [hmarker, Bool.and_true, decide_eq_true_iff] at hdropped
          omega

/-! ### Arrays are kept -/

section

variable {query : String} {bias : Float} {hook : Option ProseHook} {process : Json → σ → Processed × σ}

theorem shown_self (items : List Json) : List.Forall₂ (Shown process) items items :=
  List.forall₂_same.2 fun item _ => Shown.same item

theorem shown_thread (items : List Json) (s : σ) :
    List.Forall₂ (Shown process) items ((thread process items s).1.map Prod.fst) := by
  have h : List.Forall₂ (fun item (processed : Processed) => Shown process item processed.1) items
      (thread process items s).1 :=
    forall₂_thread (R := fun item (processed : Processed) => Shown process item processed.1)
      (fun item _ s => Shown.processed item s) s
  exact List.forall₂_map_right_iff.2 h

theorem shown_rowsFor (items : List Json) (s : σ) :
    List.Forall₂ (Shown process) items (rowsFor hook process items s).1 := by
  have hrow : ∀ item s, Shown process item (processRow hook process item s).1.1 := by
    intro item s
    cases hook with
    | none => exact Shown.same item
    | some hook =>
      cases item with
      | obj fields => exact Shown.row fields s
      | _ => exact Shown.same _
  have h : List.Forall₂ (fun item (processed : Processed) => Shown process item processed.1) items
      (thread (processRow hook process) items s).1 := forall₂_thread (fun item _ s => hrow item s) s
  exact List.forall₂_map_right_iff.2 h

theorem kept_recurseItems (items : List Json) (s s' : σ) :
    c.Kept process items (recurseItems process items s).1.1 s' :=
  Kept.all _ (shown_thread items s) rfl

variable {c} {store : CcrStore σ}

variable {s s' : σ}

theorem put_of_ccrPut (hstore : c.ccrStore = some store) {hash payload : String}
    (h : c.ccrPut hash payload s = (true, s')) : store.put s hash payload = (true, s') := by
  rwa [ccrPut, hstore] at h

variable {items : List Json}

/-- An array of scalars of which some are kept. -/
theorem kept_processScalars (hmarker : c.settings.enableCcrMarker = true) (hstore : c.ccrStore = some store)
    {items kept : List Json} (hkept : kept.Sublist items) (strategy : String) (s : σ) :
    c.Kept process items (c.processScalars items kept strategy s).1.1
      (c.processScalars items kept strategy s).2 := by
  rw [processScalars, appendScalarDropSentinel]
  dsimp only
  have hlength := hkept.length_le
  split_ifs with hnone hput
  · obtain rfl : kept = items := by
      rcases hnone with hnone | hoff
      · exact hkept.eq_of_length (by omega)
      · exact absurd (hmarker.symm.trans hoff) nofun
    exact Kept.all kept (shown_self kept) rfl
  · rw [not_or] at hnone
    have hput' := put_of_ccrPut hstore (Prod.ext hput rfl)
    exact Kept.dropped items kept (items.length - kept.length) _ _ store s (shown_self items) hkept (by omega)
      (by omega) IsSentinel.scalars rfl hstore hput' (store.get_put hput')
  · exact Kept.all items (shown_self items) rfl

theorem droppedMarker_ne_empty (missing : ℕ) (hash : String) : droppedMarker missing hash ≠ "" := by
  intro h
  have := congrArg String.length h
  rw [droppedMarker] at this
  simp [CCR_MARKER_PREFIX] at this

variable {rows : List Json}

theorem kept_placeDicts (hmarker : c.settings.enableCcrMarker = true) (hstore : c.ccrStore = some store)
    (hshown : List.Forall₂ (Shown process) items rows)
    (hcut : ¬c.CutFactored query bias rows items s)
    {crushed : CrushArrayResult × σ} (hcrushing : c.Crushing rows items query bias s crushed)
    (infos : List String) :
    c.Kept process items (placeDicts hook process items rows infos crushed.1 crushed.2).1.1
      (placeDicts hook process items rows infos crushed.1 crushed.2).2 := by
  have hlength := hshown.length_eq
  have hfactors (hplans : c.Plans bias rows s) (hplaced : c.Placed query bias rows items s) :
      c.factorsOut (c.planOf rows query bias) rows = false :=
    eq_false_of_ne_true fun hfactors => hcut ⟨hplans, hplaced, hfactors⟩
  rw [placeDicts]
  by_cases hlimit : crushed.1.strategyInfo = STRATEGY_ADAPTIVE_AT_LIMIT
  · rw [if_pos hlimit]
    split_ifs
    · exact Kept.all rows hshown rfl
    · exact Kept.all _ (shown_thread items _) rfl
  rw [if_neg hlimit]
  cases hcrushing with
  | whole info s' =>
    refine Kept.all rows hshown ?_
    exact congrArg Json.arr (List.append_nil rows)
  | table stage t info s' hstage ht hcompacted =>
    obtain ⟨hperm, hall⟩ : List.Perm ((pairedRows rows t).map Prod.fst) rows ∧
        (pairedRows rows t).map Prod.snd = t.allRows := by
      rw [ht] at hcompacted ⊢
      exact tabulated_compactWithStore rows _ hcompacted
    exact Kept.table rows stage t hshown hstage hperm hall rfl
  | kept info s' hplans hfull =>
    have hkept := c.planned_sublist (hfactors hplans (Or.inl (hfull hmarker)))
    have hwhole := hkept.eq_of_length_le (hfull hmarker)
    refine Kept.all rows hshown ?_
    exact congrArg Json.arr ((List.append_nil _).trans hwhole)
  | dropped missing info s' hplans hmissing hcount hput =>
    have hkept := c.planned_sublist (hfactors hplans (Or.inr (congrArg Prod.fst hput)))
    have hput' := put_of_ccrPut hstore hput
    have hle := hkept.length_le
    have hsentinel : withSentinel ⟨c.planned rows query bias, info,
        some (c.hashCanonical (canonicalArrayJson items)),
        droppedMarker missing (c.hashCanonical (canonicalArrayJson items)), none⟩ =
          c.planned rows query bias ++
            [droppedSentinel (droppedMarker missing (c.hashCanonical (canonicalArrayJson items)))] := by
      rw [withSentinel, if_neg (droppedMarker_ne_empty _ _)]
    exact Kept.dropped rows _ missing _ _ store _ hshown hkept (by omega) hmissing IsSentinel.rows
      (congrArg Json.arr hsentinel) hstore hput' (store.get_put hput')

theorem kept_processArray (hmarker : c.settings.enableCcrMarker = true) (hstore : c.ccrStore = some store)
    (h : ¬c.Factored query bias hook process items s) :
    c.Kept process items (c.processArray query bias hook process items s).1.1
      (c.processArray query bias hook process items s).2 := by
  rw [processArray]
  by_cases hfew : items.length < c.settings.minItemsToAnalyze
  · rw [if_pos hfew]
    exact c.kept_recurseItems items s _
  rw [if_neg hfew]
  cases hclass : classifyArray items with
  | dictArray =>
    have hcut : ¬c.CutFactored query bias (rowsFor hook process items s).1 items
        (rowsFor hook process items s).2 := fun hcut => h ⟨not_lt.mp hfew, hclass, hcut⟩
    exact kept_placeDicts hmarker hstore (shown_rowsFor items s) hcut
      (c.crushing_crushArrayWithSource _ _ _ _ _) _
  | stringArray =>
    have hkept := (c.crushStringArray_sublist (items.filterMap Json.asStr?) bias).map Json.str
    rw [map_str_of_stringArray hclass] at hkept
    exact kept_processScalars hmarker hstore hkept _ s
  | numberArray => exact kept_processScalars hmarker hstore (c.crushNumberArray_sublist items bias) _ s
  | mixedArray =>
    exact kept_processScalars hmarker hstore (c.crushMixedArray_sublist items query bias s) _ _
  | boolArray => exact c.kept_recurseItems items s _
  | nestedArray => exact c.kept_recurseItems items s _
  | empty => exact c.kept_recurseItems items s _

/-! ### Factored arrays are not kept -/

theorem keysOf_processObject (fields : List (String × Json)) (s : σ) :
    keysOf (processObject process fields s).1.1 = keysOf (.obj fields) := by
  show ((fields.map Prod.fst).zip _).map Prod.fst = fields.map Prod.fst
  refine List.map_fst_zip ?_
  rw [List.length_map, List.length_map, length_thread]

theorem keysOf_processLevels (levels : ℕ) (fields : List (String × Json)) (s : σ) :
    keysOf (c.processLevels query bias hook levels (.obj fields) s).1.1 = keysOf (.obj fields) := by
  cases levels with
  | zero => rfl
  | succ levels => exact keysOf_processObject fields s

theorem Shown.keysOf_eq {levels : ℕ} {item out : Json}
    (h : Shown (c.processLevels query bias hook levels) item out) (hobj : groupKey item = "dict") :
    keysOf out = keysOf item := by
  cases item with
  | obj fields =>
    cases h with
    | same => rfl
    | processed _ s => exact keysOf_processLevels levels fields s
    | row _ s => exact keysOf_processObject fields s
  | _ => simp [groupKey] at hobj

theorem planned_of_factorsOut (h : c.factorsOut (c.planOf rows query bias) rows = true) :
    ∃ first rest, c.planned rows query bias =
      constantsSentinel (c.planOf rows query bias).constantFields :: first :: rest := by
  have hmany : 2 ≤ (itemsAt rows (c.planOf rows query bias).keepIndices).length := by
    rw [factorsOut, Bool.and_eq_true, Bool.and_eq_true, decide_eq_true_iff] at h
    exact h.1.2
  rw [planned, executePlan, if_pos h]
  cases hkept : itemsAt rows (c.planOf rows query bias).keepIndices with
  | nil => simp [hkept] at hmany
  | cons first rest => exact ⟨_, _, rfl⟩

theorem strategyName_ne (strategy : CompressionStrategy) :
    strategyName strategy ≠ STRATEGY_ADAPTIVE_AT_LIMIT := by
  cases strategy <;> decide

theorem crushArrayWithSource_of_placed {rows source : List Json} (hplans : c.Plans bias rows s)
    (hplaced : c.Placed query bias rows source s) :
    (c.crushArrayWithSource rows source query bias s).1.items = c.planned rows query bias ∧
      (c.crushArrayWithSource rows source query bias s).1.strategyInfo ≠ STRATEGY_ADAPTIVE_AT_LIMIT ∧
      (c.crushArrayWithSource rows source query bias s).1.compacted = none := by
  rw [crushArrayWithSource, if_neg (not_le.mpr hplans.beyond)]
  have huntabled := hplans.untabled
  rw [Placed] at hplaced
  cases htable : c.tryTable rows (itemTexts rows) s with
  | mk found s₁ =>
    rw [htable] at huntabled hplaced
    obtain rfl : found = none := huntabled
    dsimp only
    rw [hplans.lossy, if_neg Bool.false_ne_true, if_neg hplans.crushable, cutShort]
    dsimp only
    split_ifs with hdropped hput
    · exact ⟨rfl, strategyName_ne _, rfl⟩
    · rw [Bool.and_eq_true, decide_eq_true_iff] at hdropped
      rcases hplaced with hfull | htaken
      · omega
      · exact absurd htaken hput
    · exact ⟨rfl, strategyName_ne _, rfl⟩

theorem place_of_planned {infos : List String} {result : CrushArrayResult}
    (hinfo : result.strategyInfo ≠ STRATEGY_ADAPTIVE_AT_LIMIT) (hcompacted : result.compacted = none) :
    (placeDicts hook process items rows infos result s).1.1 = .arr (withSentinel result) := by
  rw [placeDicts, if_neg hinfo, hcompacted]

theorem Kept.exists_shown {items outs : List Json} {first second : Json}
    (h : c.Kept process items (.arr (first :: second :: outs)) s') :
    ∃ item ∈ items, Shown process item first := by
  cases h with
  | all outs hshown hplace =>
    obtain rfl := Json.arr.inj hplace
    obtain ⟨item, _, hfirst, -, hitems⟩ := List.forall₂_cons_right_iff.1 hshown
    exact ⟨item, hitems ▸ List.mem_cons_self, hfirst⟩
  | table _ _ _ _ _ _ _ hplace => exact absurd hplace nofun
  | dropped rows kept missing hash sentinel store t hshown hkept hcount hmissing hsentinel hplace =>
    have houts := Json.arr.inj hplace
    cases kept with
    | nil => simp at houts
    | cons row kept =>
      obtain ⟨rfl, -⟩ := List.cons.inj houts
      exact exists_mem_of_forall₂ hshown.flip (hkept.subset List.mem_cons_self)

theorem groupKey_of_dictArray (h : classifyArray items = .dictArray) :
    ∀ item ∈ items, groupKey item = "dict" := by
  rw [classifyArray] at h
  split_ifs at h with _ _ hall
  exact fun item hitem => eq_of_beq (List.all_eq_true.1 hall item hitem)

/-- An array out of whose rows constants are taken is not kept, unless the row with the constants looks
like one of its items. -/
theorem not_kept_processArray {levels : ℕ}
    (h : c.Factored query bias hook (c.processLevels query bias hook levels) items s)
    (hplain : ∀ item ∈ items, keysOf item ≠ ["_constant_fields"]) :
    ¬c.Kept (c.processLevels query bias hook levels) items
      (c.processArray query bias hook (c.processLevels query bias hook levels) items s).1.1 s' := by
  intro hkept
  obtain ⟨henough, hdicts, hplans, hplaced, hfactors⟩ := h
  obtain ⟨first, rest, hplanned⟩ := planned_of_factorsOut hfactors
  obtain ⟨hitems, hinfo, hcompacted⟩ := crushArrayWithSource_of_placed hplans hplaced
  have hplace : (c.processArray query bias hook (c.processLevels query bias hook levels) items s).1.1 =
      .arr (withSentinel (c.crushArrayWithSource
        (rowsFor hook (c.processLevels query bias hook levels) items s).1 items query bias
        (rowsFor hook (c.processLevels query bias hook levels) items s).2).1) := by
    rw [processArray, if_neg (not_lt.mpr henough), hdicts]
    exact place_of_planned hinfo hcompacted
  rw [hplace, withSentinel, hitems, hplanned, List.cons_append, List.cons_append] at hkept
  obtain ⟨item, hitem, hshown⟩ := hkept.exists_shown
  have hkeys := hshown.keysOf_eq (groupKey_of_dictArray hdicts item hitem)
  exact hplain item hitem hkeys.symm

end

/-! ### Documents -/

section

variable (query : String) (bias : Float) (hook : Option ProseHook)

/-- The arrays that are reached in a document, with the state that each is processed from. -/
def ReachesArray (document : Json) (s : σ) (levels : ℕ) (items : List Json) (t : σ) : Prop :=
  c.Reaches query bias hook MAX_PROCESS_DEPTH document s (levels + 1) (.arr items) t

/-- Whatever is reached in a document is kept: the arrays, and the keys of the objects. -/
structure KeepsAll (document : Json) (s : σ) : Prop where
  arrays : ∀ {levels items t}, c.ReachesArray query bias hook document s levels items t →
    c.Kept (c.processLevels query bias hook levels) items
      (c.processLevels query bias hook (levels + 1) (.arr items) t).1.1
      (c.processLevels query bias hook (levels + 1) (.arr items) t).2
  keys : ∀ {levels fields t}, c.Reaches query bias hook MAX_PROCESS_DEPTH document s levels (.obj fields) t →
    keysOf (c.processLevels query bias hook levels (.obj fields) t).1.1 = keysOf (.obj fields)

/-- Out of no array that is reached in a document are constants taken. -/
def Unfactored (document : Json) (s : σ) : Prop :=
  ∀ levels items t, c.ReachesArray query bias hook document s levels items t →
    ¬c.Factored query bias hook (c.processLevels query bias hook levels) items t

end

variable {c} {store : CcrStore σ} {query : String} {bias : Float} {hook : Option ProseHook}

theorem unfactored_of_config (h : c.config.factorOutConstants = false) (document : Json) (s : σ) :
    c.Unfactored query bias hook document s := by
  intro levels items t _ hfactored
  have hfactors := hfactored.cut.factors
  rw [factorsOut, h, Bool.false_and, Bool.false_and, Bool.false_and] at hfactors
  exact absurd hfactors nofun

/-! ### Twelve rows that have a field in common -/

theorem mem_itemsAt {items : List Json} {i : ℕ} {item : Json} (hi : i ∈ indices)
    (hitem : items[i]? = some item) : item ∈ itemsAt items indices :=
  List.mem_filterMap.2 ⟨i, (List.perm_insertionSort _ _).mem_iff.2 hi, hitem⟩

theorem two_le_length_of_mem {as : List α} {a b : α} (ha : a ∈ as) (hb : b ∈ as) (hne : a ≠ b) :
    2 ≤ as.length := by
  rcases as with - | ⟨x, - | ⟨y, as⟩⟩
  · exact absurd ha List.not_mem_nil
  · exact absurd ((List.mem_singleton.1 ha).trans (List.mem_singleton.1 hb).symm) hne
  · simp

/-- A store that is a list of what was written, the last first. -/
def listStore : CcrStore (List (String × String)) where
  put := fun entries hash payload => (true, (hash, payload) :: entries)
  get := fun entries hash => entries.lookup hash
  get_put := by
    rintro entries hash payload _ ⟨⟩
    exact List.lookup_cons_self

def okRow (t : String) : Json := .obj [("s", .str "ok"), ("t", .str t)]

def twelveRows : List Json := List.replicate 11 (okRow "x") ++ [okRow "y"]

/-- What is known of a field of strings. -/
def stringStats (name : String) (topValues : List (String × ℕ)) (avgLength : Float) : FieldStats :=
  ⟨name, "string", 12, topValues.length, Float.ofNat topValues.length / 12, topValues.length == 1,
    if topValues.length = 1 then topValues.head?.map fun top => .str top.1 else none, none, none, none, none,
    [], some avgLength, topValues⟩

/-- The default settings, but for the constants; no tables are written. The components find in the twelve
rows what there is to be found. -/
def rowsCrusher (factorOutConstants : Bool) : Crusher (List (String × String)) where
  config := ⟨2, 15, true, factorOutConstants, true, 0.3⟩
  constraints := defaultOssConstraints
  codecs := ⟨fun _ => 0, fun text =>
    if text = "\x7b\"s\": \"ok\", \"t\": \"x\"\x7d" then "5845a6c98b2e12daba7b6c77af641f70"
    else "413084988eb5500801c43f5c97394b89"⟩
  selectAnchors := fun _ _ _ _ => [1, 11]
  scoreBatch := fun texts _ => texts.map fun _ => 0
  matchesQueryAnchors := fun _ _ => false
  detectScoreField := fun _ _ => (false, 0)
  hashFieldName := id
  toLowercase := id
  settings := ⟨5, 0.3, 0.15, true, false, false, true⟩
  reader := ⟨fun _ => none, nofun⟩
  sha256 := fun _ => "692d47dd87c6967a64ce0e7e2287e0583317802e75ac3372cfebf45121a8d666"
  analyzeArray := fun _ =>
    ⟨[("s", stringStats "s" [("ok", 12)] 2), ("t", stringStats "t" [("x", 11), ("y", 1)] 1)], .smartSample,
      [("s", .str "ok")]⟩
  crushabilityReason := fun _ => none
  computeOptimalK := fun _ _ _ _ => 3
  normalizeConcatenatedJson := fun _ => none
  describeNumbers := fun _ => ""
  compaction := none
  savesEnough := fun _ _ => false
  ccrStore := some listStore
  protectedPatterns := []

/-- What the planner is asked for the twelve rows. -/
def twelveRequest : Request :=
  ⟨(rowsCrusher true).analyzeArray twelveRows, twelveRows, "", none, some 3, some (itemTexts twelveRows)⟩

theorem mem_keepIndices_twelveRows {i : ℕ} (hi : i = 1 ∨ i = 11) :
    i ∈ ((rowsCrusher true).planOf twelveRows "" 1).keepIndices := by
  have hgather : (rowsCrusher true).gatherSmartSample twelveRequest = {1, 11} := by decide +kernel
  have hsubset : mergeContents (rowsCrusher true).codecs (rowsCrusher true).config {1, 11} twelveRows ⊆
      {1, 11} := mergeContents_subset
  have hcard := Finset.card_le_card hsubset
  have hkept := (prioritizeIndices_of_le (some ((rowsCrusher true).analyzeArray twelveRows))
    (hcard.trans (show _ ≤ 3 by decide))).1
  -- no other index of the two has the same hash
  have hmerged : i ∈ mergeContents (rowsCrusher true).codecs (rowsCrusher true).config {1, 11} twelveRows := by
    have hmem : i ∈ ({1, 11} : Finset ℕ) := by
      rcases hi with rfl | rfl <;> decide
    have hlength : i < twelveRows.length := by
      rcases hi with rfl | rfl <;> decide
    obtain ⟨r, hr, hhash⟩ :=
      exists_mergeContents (rowsCrusher true).codecs (rowsCrusher true).config hmem hlength
    have hinj : ∀ r ∈ ({1, 11} : Finset ℕ), ∀ i ∈ ({1, 11} : Finset ℕ),
        hashAt (rowsCrusher true).codecs twelveRows r = hashAt (rowsCrusher true).codecs twelveRows i →
          r = i := by decide +kernel
    rwa [← hinj r (hsubset hr) i hmem hhash]
  have hplan : ((rowsCrusher true).planOf twelveRows "" 1).keepIndices =
      (prioritizeIndices (rowsCrusher true).codecs (rowsCrusher true).config
        ((rowsCrusher true).gatherSmartSample twelveRequest) twelveRows
        (some ((rowsCrusher true).analyzeArray twelveRows)) 3).sort := rfl
  rw [hplan, hgather, Finset.mem_sort]
  exact hkept hmerged

theorem factored_twelveRows :
    (rowsCrusher true).Factored "" 1 none process twelveRows [] := by
  have hone := mem_itemsAt (mem_keepIndices_twelveRows (Or.inl rfl))
    (show twelveRows[1]? = some (okRow "x") from rfl)
  have hother := mem_itemsAt (mem_keepIndices_twelveRows (Or.inr rfl))
    (show twelveRows[11]? = some (okRow "y") from rfl)
  have hmany := two_le_length_of_mem hone hother (by decide)
  have hrows : (rowsFor none process twelveRows []).1 = twelveRows := by
    rw [rowsFor]
    exact congrArg (List.map Prod.fst ∘ Prod.fst)
      (thread_eq_map (g := fun item => (item, "")) (fun _ _ _ => rfl) [])
  refine ⟨by decide, by decide, ?_⟩
  rw [hrows]
  refine ⟨⟨by decide, rfl, rfl, nofun⟩, Or.inr rfl, ?_⟩
  rw [factorsOut, Bool.and_eq_true, Bool.and_eq_true, decide_eq_true_iff]
  exact ⟨⟨rfl, hmany⟩, List.any_eq_true.2 ⟨_, hone, by decide⟩⟩

end Headroom.SmartCrusher.Crusher
