import Headroom.SmartCrusher.DroppedRows
import Headroom.Transforms.AdaptiveSizer

/-!
# The budget of a sample of scalars

What is kept of an array of strings or of numbers stands at positions of the array: those of errors, those of values far
off, the first and the last ones, and some in between while there is room.

## Main statements

* `scalarArrays_budget` : what is kept of strings and of numbers.
-/

open Foundation Headroom.Transforms

namespace Headroom.SmartCrusher

namespace Crusher

variable {σ : Type}

/-- The crusher that reads how many items it keeps off the items. -/
def withSizer (c : Crusher σ) (o : AdaptiveSizer.Outside) : Crusher σ :=
  { c with computeOptimalK := AdaptiveSizer.computeOptimalK o }

/-- What is kept of some items: what stands at some positions, among them the marked ones and those at both ends, of
which there are no more than are kept in all. -/
structure Keeps {α : Type} (items out : List α) (split : ℕ × ℕ × ℕ) (marked : List ℕ) : Prop where
  positions : ∃ keep : List ℕ, out = keptAt items keep ∧ (∀ i ∈ marked, i ∈ keep) ∧
    ∀ i < items.length, i < split.2.1 ∨ items.length - split.2.2 ≤ i → i ∈ keep
  sublist : out.Sublist items
  marked_lt : ∀ i ∈ marked, i < items.length
  split_le : split.2.1 + split.2.2 ≤ split.1

/-! ### Positions -/

variable {α : Type} {i : ℕ}

theorem lt_length_of_mem_filter_zipIdx {items : List α} {p : α × ℕ → Bool}
    (h : i ∈ (items.zipIdx.filter p).map Prod.snd) : i < items.length := by
  obtain ⟨⟨item, j⟩, hmem, rfl⟩ := List.mem_map.mp h
  have hlt := List.snd_lt_of_mem_zipIdx (List.mem_of_mem_filter hmem)
  omega

/-- Distinct positions among some are no more than these. -/
theorem length_le_of_subset {as bs : List ℕ} (h : as.Nodup) (hsub : as ⊆ bs) : as.length ≤ bs.length :=
  (List.subperm_of_subset h hsub).length_le

/-- No more is kept than there are positions. -/
theorem length_keptAt_le (items : List α) (keep : List ℕ) : (keptAt items keep).length ≤ keep.length := by
  rw [keptAt, List.length_map, ← List.length_map (f := Prod.snd)]
  refine length_le_of_subset ?_ fun i hi => ?_
  · refine List.Nodup.sublist (List.filter_sublist.map Prod.snd) ?_
    rw [List.zipIdx_map_snd]
    exact List.nodup_range'
  · obtain ⟨⟨item, j⟩, hmem, rfl⟩ := List.mem_map.mp hi
    exact of_decide_eq_true (List.mem_filter.mp hmem).2

theorem keptAt_range (items : List α) : keptAt items (List.range items.length) = items := by
  rw [keptAt]
  refine (congrArg (List.map Prod.fst) (List.filter_eq_self.mpr fun e he => decide_eq_true ?_)).trans
    (List.zipIdx_map_fst 0 items)
  have hlt := List.snd_lt_of_mem_zipIdx he
  rw [List.mem_range]
  omega

theorem mem_ends {n first last i : ℕ} (hi : i < n) : i ∈ ends n first last ↔ i < first ∨ n - last ≤ i := by
  rw [ends, List.mem_append, List.mem_range, List.mem_range'_1]
  omega

theorem length_ends_le (n first last : ℕ) : (ends n first last).length ≤ first + last := by
  rw [ends, List.length_append, List.length_range, List.length_range']
  omega

section

variable (c : Crusher σ)

theorem lt_length_of_mem_farOff {values : List (Option Float)} (h : i ∈ c.farOff values) :
    i < values.length := by
  rw [farOff] at h
  split at h
  · split_ifs at h
    · exact lt_length_of_mem_filter_zipIdx h
    · exact absurd h List.not_mem_nil
  · exact absurd h List.not_mem_nil

theorem lt_length_of_mem_changePoints {values : List (Option Float)} (h : i ∈ c.changePoints values) :
    i < values.length := by
  rw [changePoints] at h
  dsimp only at h
  split at h
  · exact absurd h List.not_mem_nil
  · have hmem := List.mem_of_mem_filter h
    rw [List.mem_range'_1] at hmem
    omega

/-- The first and the last items are no more than are kept in all. -/
theorem computeKSplit_le (texts : List String) (bias : Float) :
    (c.computeKSplit texts bias).2.1 + (c.computeKSplit texts bias).2.2 ≤ (c.computeKSplit texts bias).1 := by
  rw [computeKSplit]
  dsimp only
  omega

end

/-! ### Runs over positions -/

theorem foldl_visit (items : List String) (cap : ℕ) (is : List ℕ) (a : StringSample) :
    a.keep ⊆ (is.foldl (StringSample.visit items cap) a).keep ∧
      (is.foldl (StringSample.visit items cap) a).keep.length ≤ max a.keep.length cap := by
  induction is generalizing a with
  | nil => exact ⟨List.Subset.refl _, le_max_left _ _⟩
  | cons i is ih =>
    obtain ⟨hsub, hlength⟩ := ih (StringSample.visit items cap a i)
    have hstep : a.keep ⊆ (StringSample.visit items cap a i).keep ∧
        (StringSample.visit items cap a i).keep.length ≤ max a.keep.length cap := by
      rw [StringSample.visit]
      dsimp only
      split_ifs with hfull hseen
      · exact ⟨List.Subset.refl _, le_max_left _ _⟩
      · exact ⟨List.Subset.refl _, le_max_left _ _⟩
      · refine ⟨List.subset_cons_self _ _, ?_⟩
        rw [List.length_cons]
        omega
    refine ⟨List.Subset.trans hstep.1 hsub, ?_⟩
    have := hstep.2
    show (is.foldl _ (StringSample.visit items cap a i)).keep.length ≤ _
    omega

theorem foldl_visitNumber (cap : ℕ) (is keep : List ℕ) :
    keep ⊆ is.foldl (visitNumber cap) keep ∧ (is.foldl (visitNumber cap) keep).length ≤ max keep.length cap := by
  induction is generalizing keep with
  | nil => exact ⟨List.Subset.refl _, le_max_left _ _⟩
  | cons i is ih =>
    obtain ⟨hsub, hlength⟩ := ih (visitNumber cap keep i)
    have hstep : keep ⊆ visitNumber cap keep i ∧ (visitNumber cap keep i).length ≤ max keep.length cap := by
      rw [visitNumber]
      split_ifs with hfull
      · exact ⟨List.Subset.refl _, le_max_left _ _⟩
      · refine ⟨List.subset_cons_self _ _, ?_⟩
        rw [List.length_cons]
        omega
    refine ⟨List.Subset.trans hstep.1 hsub, ?_⟩
    have := hstep.2
    show (is.foldl _ (visitNumber cap keep i)).length ≤ _
    omega

/-- The positions that are marked, each once. -/
theorem length_filter_mem_le (n : ℕ) (marked : List ℕ) :
    ((List.range n).filter (· ∈ marked)).length ≤ marked.length := by
  refine length_le_of_subset (List.nodup_range.filter _) fun i hi => ?_
  exact of_decide_eq_true (List.mem_filter.mp hi).2

theorem mem_filter_mem {n i : ℕ} {marked : List ℕ} (hi : i < n) (h : i ∈ marked) :
    i ∈ (List.range n).filter (· ∈ marked) :=
  List.mem_filter.mpr ⟨List.mem_range.mpr hi, decide_eq_true h⟩

/-! ### What is kept -/

/-- Positions that are kept beside the marked ones and the ends. -/
theorem keeps_keptAt {items : List α} {split : ℕ × ℕ × ℕ} {marked keep : List ℕ}
    (hsplit : split.2.1 + split.2.2 ≤ split.1) (hmarked : ∀ i ∈ marked, i < items.length)
    (hkeep : (List.range items.length).filter (· ∈ marked ++ ends items.length split.2.1 split.2.2) ⊆ keep) :
    Keeps items (keptAt items keep) split marked where
  positions := by
    refine ⟨keep, rfl, ?_, ?_⟩
    · intro i hi
      exact hkeep (mem_filter_mem (hmarked i hi) (List.mem_append_left _ hi))
    · intro i hi hends
      exact hkeep (mem_filter_mem hi (List.mem_append_right _ ((mem_ends hi).mpr hends)))
  sublist := keptAt_sublist items keep
  marked_lt := hmarked
  split_le := hsplit

/-- All items are kept where some are. -/
theorem Keeps.all {items out : List α} {split : ℕ × ℕ × ℕ} {marked : List ℕ}
    (h : Keeps items out split marked) : Keeps items items split marked := by
  have hkeeps :=
    @keeps_keptAt _ items split marked (List.range items.length) h.split_le h.marked_lt List.filter_sublist.subset
  rwa [keptAt_range] at hkeeps

section

variable (c : Crusher σ)

theorem fst_computeKSplit (o : AdaptiveSizer.Outside) (texts : List String) (bias : Float) :
    ((c.withSizer o).computeKSplit texts bias).1 =
      AdaptiveSizer.computeOptimalK o texts bias 3 (c.withSizer o).maxK := rfl

/-- The total is within the bound that is set, where this is no less than three. -/
theorem computeKSplit_withSizer_le (o : AdaptiveSizer.Outside) (texts : List String) (bias : Float)
    (h : 3 ≤ c.config.maxItemsAfterCrush) :
    ((c.withSizer o).computeKSplit texts bias).1 ≤ c.config.maxItemsAfterCrush := by
  have hmax : (c.withSizer o).maxK = some c.config.maxItemsAfterCrush := if_pos (show 0 < c.config.maxItemsAfterCrush by omega)
  rw [fst_computeKSplit, hmax]
  exact AdaptiveSizer.computeOptimalK_le h

theorem lt_length_of_mem_lengthAnomalies {items : List String} (h : i ∈ c.lengthAnomalies items) :
    i < items.length := by
  have hlt := c.lt_length_of_mem_farOff h
  rwa [List.length_map] at hlt

/-- Texts that are marked, and texts at the ends, are in the sample. -/
theorem sampleStrings_spec (items : List String) (bias : Float) :
    Keeps items (keptAt items (c.sampleStrings items bias).keep) (c.computeKSplit items bias)
        (errorStrings items ++ c.lengthAnomalies items) ∧
      (c.sampleStrings items bias).keep.length ≤
        (c.computeKSplit items bias).1 + (errorStrings items).length + (c.lengthAnomalies items).length := by
  have hmarked : ∀ i ∈ errorStrings items ++ c.lengthAnomalies items, i < items.length := by
    intro i hi
    rcases List.mem_append.mp hi with herror | hlength
    · exact lt_length_of_mem_filter_zipIdx herror
    · exact c.lt_length_of_mem_lengthAnomalies hlength
  have hsplit := c.computeKSplit_le items bias
  have hstart := length_filter_mem_le items.length (errorStrings items ++ c.lengthAnomalies items ++
    ends items.length (c.computeKSplit items bias).2.1 (c.computeKSplit items bias).2.2)
  have hends := length_ends_le items.length (c.computeKSplit items bias).2.1 (c.computeKSplit items bias).2.2
  rw [List.length_append, List.length_append] at hstart
  rw [sampleStrings]
  dsimp only
  split_ifs with hfull
  · refine ⟨keeps_keptAt hsplit hmarked (List.Subset.refl _), ?_⟩
    show ((List.range items.length).filter _).length ≤ _
    omega
  · obtain ⟨hsub, hlength⟩ := foldl_visit items _ _ _
    refine ⟨keeps_keptAt hsplit hmarked hsub, le_trans hlength ?_⟩
    show max ((List.range items.length).filter _).length _ ≤ _
    omega

/-- Numbers far off, those where the mean changes, and numbers at the ends, are in the sample. -/
theorem sampleNumbers_spec (items : List Json) (bias : Float) :
    Keeps items (keptAt items (c.sampleNumbers items bias))
        (c.computeKSplit (items.map fun item => String.ofList item.compact) bias)
        (c.farOff (items.map c.finiteValue) ++ c.changePoints (items.map c.finiteValue)) ∧
      (c.sampleNumbers items bias).length ≤
        (c.computeKSplit (items.map fun item => String.ofList item.compact) bias).1 +
          (c.farOff (items.map c.finiteValue)).length + (c.changePoints (items.map c.finiteValue)).length := by
  have hmarked : ∀ i ∈ c.farOff (items.map c.finiteValue) ++ c.changePoints (items.map c.finiteValue),
      i < items.length := by
    intro i hi
    have hlt : i < (items.map c.finiteValue).length := by
      rcases List.mem_append.mp hi with hfar | hchange
      · exact c.lt_length_of_mem_farOff hfar
      · exact c.lt_length_of_mem_changePoints hchange
    rwa [List.length_map] at hlt
  have hsplit := c.computeKSplit_le (items.map fun item => String.ofList item.compact) bias
  have hstart := length_filter_mem_le items.length
    (c.farOff (items.map c.finiteValue) ++ c.changePoints (items.map c.finiteValue) ++
      ends items.length (c.computeKSplit (items.map fun item => String.ofList item.compact) bias).2.1
        (c.computeKSplit (items.map fun item => String.ofList item.compact) bias).2.2)
  have hends := length_ends_le items.length
    (c.computeKSplit (items.map fun item => String.ofList item.compact) bias).2.1
    (c.computeKSplit (items.map fun item => String.ofList item.compact) bias).2.2
  rw [List.length_append, List.length_append] at hstart
  rw [sampleNumbers]
  dsimp only
  split_ifs with hfull
  · refine ⟨keeps_keptAt hsplit hmarked (List.Subset.refl _), ?_⟩
    omega
  · obtain ⟨hsub, hlength⟩ := foldl_visitNumber
      ((c.computeKSplit (items.map fun item => String.ofList item.compact) bias).1 +
        (c.farOff (items.map c.finiteValue)).length) _ _
    refine ⟨keeps_keptAt hsplit hmarked hsub, le_trans hlength ?_⟩
    omega

theorem fst_crushStringArray {items : List String} (bias : Float) (hn : 8 < items.length) :
    (c.crushStringArray items bias).1 =
      if c.settings.losslessOnly = true then items else keptAt items (c.sampleStrings items bias).keep := by
  rw [crushStringArray, if_neg (Nat.not_le_of_lt hn)]
  split_ifs <;> rfl

theorem fst_crushNumberArray {items : List Json} (bias : Float) (hn : 8 < items.length) :
    (c.crushNumberArray items bias).1 =
      if c.settings.losslessOnly = true ∨ (items.filterMap c.finiteValue).isEmpty then items
      else keptAt items (c.sampleNumbers items bias) := by
  have hfinite : (items.map c.finiteValue).filterMap id = items.filterMap c.finiteValue := by
    rw [List.filterMap_map]
    rfl
  rw [crushNumberArray]
  dsimp only
  rw [if_neg (Nat.not_le_of_lt hn), hfinite]
  by_cases hlossless : c.settings.losslessOnly = true
  · rw [if_pos hlossless, if_pos (Or.inl hlossless)]
  by_cases hempty : (items.filterMap c.finiteValue).isEmpty
  · rw [if_neg hlossless, if_pos hempty, if_pos (Or.inr hempty)]
  · rw [if_neg hlossless, if_neg hempty, if_neg (not_or.mpr ⟨hlossless, hempty⟩)]

/-- What is kept of more than eight strings, and of more than eight numbers, stands in the order of the array, with all
that is marked and both ends. Where items may be dropped there are no more than the total and the marked ones, and the
total is within the bound that is set, where this is no less than three. -/
theorem scalarArrays_budget (o : AdaptiveSizer.Outside) (bias : Float) :
    (∀ items : List String, 8 < items.length →
      Keeps items ((c.withSizer o).crushStringArray items bias).1 ((c.withSizer o).computeKSplit items bias)
          (errorStrings items ++ (c.withSizer o).lengthAnomalies items) ∧
        (c.settings.losslessOnly = true → ((c.withSizer o).crushStringArray items bias).1 = items) ∧
        (c.settings.losslessOnly = false →
          ((c.withSizer o).crushStringArray items bias).1.length ≤
            ((c.withSizer o).computeKSplit items bias).1 + (errorStrings items).length +
              ((c.withSizer o).lengthAnomalies items).length) ∧
        (3 ≤ c.config.maxItemsAfterCrush →
          ((c.withSizer o).computeKSplit items bias).1 ≤ c.config.maxItemsAfterCrush)) ∧
      ∀ items : List Json, 8 < items.length →
        Keeps items ((c.withSizer o).crushNumberArray items bias).1
            ((c.withSizer o).computeKSplit (items.map fun item => String.ofList item.compact) bias)
            ((c.withSizer o).farOff (items.map c.finiteValue) ++
              (c.withSizer o).changePoints (items.map c.finiteValue)) ∧
          (c.settings.losslessOnly = true ∨ (items.filterMap c.finiteValue).isEmpty →
            ((c.withSizer o).crushNumberArray items bias).1 = items) ∧
          (c.settings.losslessOnly = false → (items.filterMap c.finiteValue).isEmpty = false →
            ((c.withSizer o).crushNumberArray items bias).1.length ≤
              ((c.withSizer o).computeKSplit (items.map fun item => String.ofList item.compact) bias).1 +
                ((c.withSizer o).farOff (items.map c.finiteValue)).length +
                ((c.withSizer o).changePoints (items.map c.finiteValue)).length) ∧
          (3 ≤ c.config.maxItemsAfterCrush →
            ((c.withSizer o).computeKSplit (items.map fun item => String.ofList item.compact) bias).1 ≤
              c.config.maxItemsAfterCrush) := by
  refine ⟨fun items hn => ?_, fun items hn => ?_⟩
  · obtain ⟨hkeeps, hbudget⟩ := (c.withSizer o).sampleStrings_spec items bias
    have hcrush := (c.withSizer o).fst_crushStringArray bias hn
    rw [show (c.withSizer o).settings = c.settings from rfl] at hcrush
    have htotal := c.computeKSplit_withSizer_le o items bias
    by_cases hlossless : c.settings.losslessOnly = true
    · rw [hcrush, if_pos hlossless]
      exact ⟨hkeeps.all, fun _ => rfl, fun h => absurd (h.symm.trans hlossless) (by decide), htotal⟩
    · rw [hcrush, if_neg hlossless]
      exact ⟨hkeeps, fun h => absurd h hlossless, fun _ => le_trans (length_keptAt_le items _) hbudget, htotal⟩
  · obtain ⟨hkeeps, hbudget⟩ := (c.withSizer o).sampleNumbers_spec items bias
    have hcrush := (c.withSizer o).fst_crushNumberArray bias hn
    rw [show (c.withSizer o).settings = c.settings from rfl,
      show (c.withSizer o).finiteValue = c.finiteValue from rfl] at hcrush
    have htotal := c.computeKSplit_withSizer_le o (items.map fun item => String.ofList item.compact) bias
    by_cases hwhole : c.settings.losslessOnly = true ∨ (items.filterMap c.finiteValue).isEmpty
    · rw [hcrush, if_pos hwhole]
      refine ⟨hkeeps.all, fun _ => rfl, fun hlossy hfinite => ?_, htotal⟩
      rcases hwhole with hlossless | hempty
      · exact absurd (hlossy.symm.trans hlossless) (by decide)
      · exact absurd (hfinite.symm.trans hempty) (by decide)
    · rw [hcrush, if_neg hwhole]
      exact ⟨hkeeps, fun h => absurd h hwhole, fun _ _ => le_trans (length_keptAt_le items _) hbudget, htotal⟩

/-- The digests of the first nine letters; texts are in lower case, and nothing is compressed. -/
def letterSizer : AdaptiveSizer.Outside where
  toLowercase := id
  md5 := fun bytes => toBe 16 ([
    0x0cc175b9c0f1b6a831c399e269772661, 0x92eb5ffee6ae2fec3ad71c777531578f, 0x4a8a08f09d37b73795649038408b5f33,
    0x8277e0910d750195b448797616e091ad, 0xe1671797c52e15f763380b45e841ec32, 0x8fa14cdd754f91cc6554c9e71929cce7,
    0xb2f5ff47436671b6e533d8dc3614845d, 0x2510c39011c5be704182423e3a695e91,
    0x865c0c0b4ab0e063e5caa3387c1a8741].getD (fromBe bytes - 97) 0)
  zlibCompressedLen := List.length

/-- Two items are to be kept. -/
def twoItemsCrusher : Crusher (List (String × String)) :=
  { rowsCrusher false with config := ⟨2, 2, true, false, true, 0.3⟩ }

/-- Nothing may be lost. -/
def strictCrusher : Crusher (List (String × String)) :=
  { rowsCrusher false with settings := ⟨5, 0.3, 0.15, true, true, false, true⟩ }

theorem scalarArrays_budget_letters :
    ((twoItemsCrusher.withSizer letterSizer).crushStringArray (List.replicate 9 "a") 1).1.Sublist
        (List.replicate 9 "a") ∧
      ((twoItemsCrusher.withSizer letterSizer).crushNumberArray (List.replicate 9 .null) 1).1 =
        List.replicate 9 .null :=
  ⟨((scalarArrays_budget twoItemsCrusher letterSizer 1).1 (List.replicate 9 "a") (by decide)).1.sublist,
    ((scalarArrays_budget twoItemsCrusher letterSizer 1).2 (List.replicate 9 .null) (by decide)).2.1 (.inr rfl)⟩

/-- Three of nine letters are kept where two are asked for. Where nothing may be lost nine equal strings are all kept,
more than the total and the strings that say error, unless six of them stand out. -/
theorem not_scalarArrays_budget :
    (twoItemsCrusher.config.maxItemsAfterCrush = 2 ∧
      2 < ((twoItemsCrusher.withSizer letterSizer).computeKSplit ["a", "b", "c", "d", "e", "f", "g", "h", "i"] 1).1) ∧
      (((strictCrusher.withSizer letterSizer).lengthAnomalies (List.replicate 9 "a")).length < 6 →
        ¬ ((strictCrusher.withSizer letterSizer).crushStringArray (List.replicate 9 "a") 1).1.length ≤
          ((strictCrusher.withSizer letterSizer).computeKSplit (List.replicate 9 "a") 1).1 +
            (errorStrings (List.replicate 9 "a")).length +
            ((strictCrusher.withSizer letterSizer).lengthAnomalies (List.replicate 9 "a")).length) := by
  refine ⟨⟨rfl, ?_⟩, fun hfew => ?_⟩
  · have hthree := @AdaptiveSizer.le_computeOptimalK letterSizer ["a", "b", "c", "d", "e", "f", "g", "h", "i"] 1 3
      (twoItemsCrusher.withSizer letterSizer).maxK (by decide) (by decide +kernel)
    rw [fst_computeKSplit]
    exact hthree
  · have hall : ((strictCrusher.withSizer letterSizer).crushStringArray (List.replicate 9 "a") 1).1 =
        List.replicate 9 "a" := rfl
    have hthree : ((strictCrusher.withSizer letterSizer).computeKSplit (List.replicate 9 "a") 1).1 = 3 := by
      have hunique : AdaptiveSizer.countUniqueSimhash letterSizer (List.replicate 9 "a") 3 = 1 := by decide +kernel
      have htotal := @AdaptiveSizer.computeOptimalK_of_few letterSizer (List.replicate 9 "a") 1 3
        (strictCrusher.withSizer letterSizer).maxK (by decide) (by omega)
      rw [hunique] at htotal
      rw [fst_computeKSplit, htotal]
      rfl
    have herrors : errorStrings (List.replicate 9 "a") = [] := by decide +kernel
    rw [hall, hthree, herrors, List.length_replicate, List.length_nil]
    omega

end

end Crusher

end Headroom.SmartCrusher
