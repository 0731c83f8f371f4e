import Headroom.Foundation.Replace
import Mathlib.Algebra.Order.BigOperators.Group.Finset
import Mathlib.Data.List.GetD

/-!
# Marks that are lost

A text is filled with marks, and some of the marks are lost before the parts are put back. A part comes back
where its mark is found. What comes back is the text with the parts of the marks that were found and without the
other parts exactly if each mark that was kept is found at its place only, and no mark that was lost is found:
a second occurrence would bring in a part once more, and an occurrence of a lost mark would have to be made of
the gaps.
-/

namespace Foundation

variable {α : Type*} [DecidableEq α]

/-- A list, or nothing. -/
def keptIf (b : Bool) (l : List α) : List α := if b then l else []

/-- A whole text with some of its parts. -/
def wholeKept : (ℕ → Bool) → List (List α × List α) → List α → List α
  | _, [], last => last
  | keep, (gap, part) :: segs, last => gap ++ (keptIf (keep 0) part ++ wholeKept (fun i => keep (i + 1)) segs last)

/-- The part at an index. -/
def partAt (segs : List (List α × List α)) (i : ℕ) : List α := (segs.getD i ([], [])).2

/-! ### Weights -/

section Weight

variable {a : α} {p s : List α} {f : List α → ℕ}

theorem weight_replaceAll (hadd : ∀ l l', f (l ++ l') = f l + f l') (hp : IsMark a p) (l : List α) :
    f (replaceAll p s l) + occurrences p l * f p = f l + occurrences p l * f s := by
  generalize hn : l.length = n
  induction n using Nat.strongRecOn generalizing l with
  | ind n ih =>
    cases l with
    | nil => rw [replaceAll_nil, occurrences, Nat.zero_mul, Nat.zero_mul]
    | cons b l =>
      by_cases hpre : p <+: b :: l
      · obtain ⟨l', hl'⟩ := hpre
        have hlt : l'.length < n := by
          have hlength := congrArg List.length hl'
          rw [List.length_append, hn] at hlength
          have := List.length_pos_iff.mpr hp.ne_nil
          omega
        have hoccurs : occurrences p (p ++ l') = occurrences p l' + 1 := by
          have hsplit : occurrences p ([] ++ (p ++ l')) = _ := occurrences_append_mark hp hp fun _ => rfl
          rw [List.nil_append, occurrences, occurrences_self hp] at hsplit
          omega
        have hrest := ih _ hlt l' rfl
        rw [← hl', replaceAll_of_prefix hp.ne_nil, hoccurs, hadd, hadd, Nat.add_mul, Nat.add_mul, Nat.one_mul,
          Nat.one_mul]
        omega
      · have hrest := ih l.length (by rw [← hn, List.length_cons]; omega) l rfl
        have hstart : ¬ p.isPrefixOf (b :: l) = true := mt List.isPrefixOf_iff_prefix.mp hpre
        rw [replaceAll_of_not_start hpre, occurrences, if_neg hstart, Nat.zero_add, ← List.singleton_append,
          hadd, ← List.singleton_append (l := l), hadd]
        omega

end Weight

namespace MarkFamily

variable (M : MarkFamily α)

/-- A filled text with some of its marks. -/
def fillKept : (ℕ → Bool) → ℕ → List (List α × List α) → List α → List α
  | _, _, [], last => last
  | keep, k, (gap, _) :: segs, last =>
    gap ++ (keptIf (keep 0) (M.mark k) ++ fillKept (fun i => keep (i + 1)) (k + 1) segs last)

/-- Whether the mark of a part is found when its turn comes. -/
def found : ℕ → List (List α × List α) → List α → ℕ → Bool
  | _, [], _, _ => false
  | k, _ :: _, text, 0 => contains (M.mark k) text
  | k, (_, part) :: segs, text, i + 1 => found (k + 1) segs (replaceAll (M.mark k) part text) i

/-- How often it is found. -/
def times : ℕ → List (List α × List α) → List α → ℕ → ℕ
  | _, [], _, _ => 0
  | k, _ :: _, text, 0 => occurrences (M.mark k) text
  | k, (_, part) :: segs, text, i + 1 => times (k + 1) segs (replaceAll (M.mark k) part text) i

/-- A mark that was kept occurs neither in the text before its part nor behind it, and a mark that was lost does
not occur. -/
def Unmistakable (keep : ℕ → Bool) (k : ℕ) (front : List α) (segs : List (List α × List α)) (last : List α) :
    Prop :=
  ∀ before gap part behind, segs = before ++ (gap, part) :: behind →
    if keep before.length then
      ¬ M.mark (k + before.length) <:+: front ++ wholeKept keep before gap ∧
        ¬ M.mark (k + before.length) <:+:
          M.fillKept (fun i => keep (before.length + 1 + i)) (k + before.length + 1) behind last
    else
      ¬ M.mark (k + before.length) <:+: front ++ wholeKept keep before gap ++
        M.fillKept (fun i => keep (before.length + 1 + i)) (k + before.length + 1) behind last

variable {M} {k : ℕ} {keep : ℕ → Bool} {segs : List (List α × List α)} {front gap part last text : List α}
  {f : List α → ℕ}

theorem found_iff (k : ℕ) (segs : List (List α × List α)) (text : List α) (i : ℕ) :
    M.found k segs text i = true ↔ 0 < M.times k segs text i := by
  induction segs generalizing k text i with
  | nil => simp only [found, times, Bool.false_eq_true, lt_self_iff_false]
  | cons seg segs ih =>
    obtain ⟨gap, part⟩ := seg
    cases i with
    | zero =>
      rw [found, times, contains_iff, Nat.pos_iff_ne_zero, Ne, occurrences_eq_zero_iff (M.isMark k).ne_nil, not_not]
    | succ i => exact ih _ _ i

theorem weight_unfill (hadd : ∀ l l', f (l ++ l') = f l + f l') (k : ℕ) (segs : List (List α × List α))
    (text : List α) :
    f (M.unfill k segs text) + ∑ i ∈ Finset.range segs.length, M.times k segs text i * f (M.mark (k + i)) =
      f text + ∑ i ∈ Finset.range segs.length, M.times k segs text i * f (partAt segs i) := by
  induction segs generalizing k text with
  | nil => rfl
  | cons seg segs ih =>
    obtain ⟨gap, part⟩ := seg
    have hfirst := weight_replaceAll (s := part) hadd (M.isMark k) text
    have hrest := ih (k + 1) (replaceAll (M.mark k) part text)
    have hmarks : ∑ i ∈ Finset.range segs.length,
        M.times k ((gap, part) :: segs) text (i + 1) * f (M.mark (k + (i + 1))) =
        ∑ i ∈ Finset.range segs.length,
          M.times (k + 1) segs (replaceAll (M.mark k) part text) i * f (M.mark (k + 1 + i)) :=
      Finset.sum_congr rfl fun i _ => by rw [Nat.add_right_comm, times]; rfl
    rw [List.length_cons, Finset.sum_range_succ', Finset.sum_range_succ', hmarks]
    show f (M.unfill (k + 1) segs (replaceAll (M.mark k) part text)) +
        (∑ i ∈ Finset.range segs.length,
            M.times (k + 1) segs (replaceAll (M.mark k) part text) i * f (M.mark (k + 1 + i)) +
          occurrences (M.mark k) text * f (M.mark k)) =
      f text + (∑ i ∈ Finset.range segs.length,
            M.times (k + 1) segs (replaceAll (M.mark k) part text) i * f (partAt segs i) +
          occurrences (M.mark k) text * f part)
    omega

omit [DecidableEq α] in
theorem weight_keptIf (hadd : ∀ l l', f (l ++ l') = f l + f l') (b : Bool) (l : List α) :
    f (keptIf b l) = if b then f l else 0 := by
  have hnil : f [] = 0 := by
    have := hadd [] []
    rw [List.append_nil] at this
    omega
  rw [keptIf, apply_ite f, hnil]

omit [DecidableEq α] in
theorem weight_wholeKept (hadd : ∀ l l', f (l ++ l') = f l + f l') (keep : ℕ → Bool)
    (segs : List (List α × List α)) (last : List α) :
    f (wholeKept keep segs last) = ((gaps segs last).map f).sum +
      ∑ i ∈ Finset.range segs.length, if keep i then f (partAt segs i) else 0 := by
  induction segs generalizing keep with
  | nil => rfl
  | cons seg segs ih =>
    obtain ⟨gap, part⟩ := seg
    have hgaps : gaps ((gap, part) :: segs) last = gap :: gaps segs last := rfl
    rw [wholeKept, hadd, hadd, weight_keptIf hadd, ih, hgaps, List.map_cons, List.sum_cons, List.length_cons,
      Finset.sum_range_succ']
    show f gap + ((if keep 0 then f part else 0) + (_ + _)) =
      f gap + _ + (∑ i ∈ Finset.range segs.length, (if keep (i + 1) then f (partAt segs i) else 0) +
        if keep 0 then f part else 0)
    omega

omit [DecidableEq α] in
theorem weight_fillKept (hadd : ∀ l l', f (l ++ l') = f l + f l') (keep : ℕ → Bool) (k : ℕ)
    (segs : List (List α × List α)) (last : List α) :
    f (M.fillKept keep k segs last) = ((gaps segs last).map f).sum +
      ∑ i ∈ Finset.range segs.length, if keep i then f (M.mark (k + i)) else 0 := by
  induction segs generalizing keep k with
  | nil => rfl
  | cons seg segs ih =>
    obtain ⟨gap, part⟩ := seg
    have hgaps : gaps ((gap, part) :: segs) last = gap :: gaps segs last := rfl
    have hmarks : ∑ i ∈ Finset.range segs.length, (if keep (i + 1) then f (M.mark (k + (i + 1))) else 0) =
        ∑ i ∈ Finset.range segs.length, if keep (i + 1) then f (M.mark (k + 1 + i)) else 0 :=
      Finset.sum_congr rfl fun i _ => by rw [Nat.add_right_comm]; rfl
    rw [fillKept, hadd, hadd, weight_keptIf hadd, ih, hgaps, List.map_cons, List.sum_cons, List.length_cons,
      Finset.sum_range_succ', hmarks]
    show f gap + ((if keep 0 then f (M.mark k) else 0) + (_ + _)) =
      f gap + _ + (∑ i ∈ Finset.range segs.length, (if keep (i + 1) then f (M.mark (k + 1 + i)) else 0) +
        if keep 0 then f (M.mark k) else 0)
    omega

/-! ### Marks that were kept are found -/

theorem infix_replaceAll {j : ℕ} (hne : j ≠ k) (h : M.mark j <:+: text) :
    M.mark j <:+: replaceAll (M.mark k) part text := by
  obtain ⟨before, behind, rfl⟩ := h
  have habsent : ¬ M.mark k <:+: M.mark j := fun hoccurs =>
    hne (M.prefix_free ((M.isMark k).prefix_of_occurs (M.isMark j) hoccurs)).symm
  rw [List.append_assoc, replaceAll_append_mark (M.isMark k) (M.isMark j) eq_of_prefix,
    replaceAll_of_absent habsent]
  exact ((List.prefix_append _ _).isInfix).trans (List.suffix_append _ _).isInfix

theorem found_of_infix {i : ℕ} (hi : i < segs.length) (h : M.mark (k + i) <:+: text) :
    M.found k segs text i = true := by
  induction segs generalizing k text i with
  | nil => exact absurd hi (Nat.not_lt_zero _)
  | cons seg segs ih =>
    obtain ⟨gap, part⟩ := seg
    cases i with
    | zero => exact contains_iff.mpr h
    | succ i =>
      have hmark : k + (i + 1) = k + 1 + i := by omega
      rw [hmark] at h
      exact ih (Nat.lt_of_succ_lt_succ hi) (infix_replaceAll (by omega) h)

omit [DecidableEq α] in
theorem infix_fillKept {i : ℕ} (hi : i < segs.length) (hkeep : keep i = true) :
    M.mark (k + i) <:+: M.fillKept keep k segs last := by
  induction segs generalizing keep k i with
  | nil => exact absurd hi (Nat.not_lt_zero _)
  | cons seg segs ih =>
    obtain ⟨gap, part⟩ := seg
    cases i with
    | zero =>
      rw [fillKept, hkeep]
      exact ((List.prefix_append _ _).isInfix).trans (List.suffix_append _ _).isInfix
    | succ i =>
      have hmark : k + (i + 1) = k + 1 + i := by omega
      have hrest : M.mark (k + 1 + i) <:+: M.fillKept (fun i => keep (i + 1)) (k + 1) segs last :=
        ih (Nat.lt_of_succ_lt_succ hi) hkeep
      rw [hmark, fillKept]
      exact hrest.trans ((List.suffix_append _ _).trans (List.suffix_append _ _)).isInfix

/-! ### Marks at their places only -/

omit [DecidableEq α] in
theorem unmistakable_cons : M.Unmistakable keep k front ((gap, part) :: segs) last ↔
    (if keep 0 then
      ¬ M.mark k <:+: front ++ gap ∧
        ¬ M.mark k <:+: M.fillKept (fun i => keep (i + 1)) (k + 1) segs last
    else
      ¬ M.mark k <:+: front ++ gap ++ M.fillKept (fun i => keep (i + 1)) (k + 1) segs last) ∧
      M.Unmistakable (fun i => keep (i + 1)) (k + 1) (front ++ gap ++ keptIf (keep 0) part) segs last := by
  have hcons := forall_split_cons (a := (gap, part)) (l := segs)
    (P := fun before seg behind => if keep before.length then
        ¬ M.mark (k + before.length) <:+: front ++ wholeKept keep before seg.1 ∧
          ¬ M.mark (k + before.length) <:+:
            M.fillKept (fun i => keep (before.length + 1 + i)) (k + before.length + 1) behind last
      else
        ¬ M.mark (k + before.length) <:+: front ++ wholeKept keep before seg.1 ++
          M.fillKept (fun i => keep (before.length + 1 + i)) (k + before.length + 1) behind last)
  have hshift : ∀ before : List (List α × List α), k + (before.length + 1) = k + 1 + before.length := by
    intro before
    omega
  have hkeep : ∀ (before : List (List α × List α)) (i : ℕ), before.length + 1 + 1 + i = before.length + 1 + i + 1 := by
    intro before i
    omega
  have hfirst : ∀ i, 0 + 1 + i = i + 1 := by
    intro i
    omega
  simp only [hshift, Prod.forall, List.length_cons, List.length_nil, Nat.add_zero, hkeep, hfirst,
    wholeKept, ← List.append_assoc] at hcons
  rw [Unmistakable]
  exact hcons

theorem occurrences_place_iff (b : Bool) (front rest : List α) :
    occurrences (M.mark k) (front ++ (keptIf b (M.mark k) ++ rest)) = (if b then 1 else 0) ↔
      if b then ¬ M.mark k <:+: front ∧ ¬ M.mark k <:+: rest else ¬ M.mark k <:+: front ++ rest := by
  have hzero : ∀ l, occurrences (M.mark k) l = 0 ↔ ¬ M.mark k <:+: l := fun l =>
    occurrences_eq_zero_iff (M.isMark k).ne_nil
  cases b with
  | true =>
    show occurrences (M.mark k) (front ++ (M.mark k ++ rest)) = 1 ↔ _ ∧ _
    rw [occurrences_append_mark (M.isMark k) (M.isMark k) eq_of_prefix, occurrences_self (M.isMark k), ← hzero,
      ← hzero]
    omega
  | false => exact hzero _

/-- One replacement, when the mark is found at its place only. -/
theorem replaceAll_place {b : Bool} {front rest : List α}
    (h : if b then ¬ M.mark k <:+: front ∧ ¬ M.mark k <:+: rest else ¬ M.mark k <:+: front ++ rest) :
    replaceAll (M.mark k) part (front ++ (keptIf b (M.mark k) ++ rest)) = front ++ keptIf b part ++ rest := by
  cases b with
  | true =>
    obtain ⟨hfront, hrest⟩ : ¬ M.mark k <:+: front ∧ ¬ M.mark k <:+: rest := h
    show replaceAll (M.mark k) part (front ++ (M.mark k ++ rest)) = front ++ part ++ rest
    rw [replaceAll_append_mark (M.isMark k) (M.isMark k) eq_of_prefix, replaceAll_of_absent hfront,
      replaceAll_of_absent hrest, replaceAll_self (M.isMark k).ne_nil, List.append_assoc]
  | false =>
    show replaceAll (M.mark k) part (front ++ rest) = front ++ [] ++ rest
    rw [replaceAll_of_absent h, List.append_nil]

theorem times_eq_iff (keep : ℕ → Bool) (k : ℕ) (front : List α) (segs : List (List α × List α))
    (last : List α) :
    (∀ i < segs.length, M.times k segs (front ++ M.fillKept keep k segs last) i = if keep i then 1 else 0) ↔
      M.Unmistakable keep k front segs last := by
  induction segs generalizing keep k front with
  | nil =>
    refine ⟨fun _ before gap part behind hsplit => ?_, fun _ i hi => absurd hi (Nat.not_lt_zero i)⟩
    exact absurd hsplit.symm (List.append_ne_nil_of_right_ne_nil before (List.cons_ne_nil _ _))
  | cons seg segs ih =>
    obtain ⟨gap, part⟩ := seg
    have hplace := occurrences_place_iff (M := M) (k := k) (keep 0) (front ++ gap)
      (M.fillKept (fun i => keep (i + 1)) (k + 1) segs last)
    have htext : front ++ M.fillKept keep k ((gap, part) :: segs) last = front ++ gap ++
        (keptIf (keep 0) (M.mark k) ++ M.fillKept (fun i => keep (i + 1)) (k + 1) segs last) := by
      rw [fillKept, List.append_assoc]
    rw [unmistakable_cons, ← hplace, ← ih, htext]
    constructor
    · intro h
      have hfirst : occurrences (M.mark k) _ = _ := h 0 (Nat.succ_pos _)
      refine ⟨hfirst, fun i hi => ?_⟩
      rw [← replaceAll_place (hplace.mp hfirst)]
      exact h (i + 1) (Nat.succ_lt_succ hi)
    · rintro ⟨hfirst, hrest⟩ i hi
      cases i with
      | zero => exact hfirst
      | succ i =>
        have hnext := hrest i (Nat.lt_of_succ_lt_succ hi)
        rw [← replaceAll_place (hplace.mp hfirst)] at hnext
        exact hnext

theorem Unmistakable.unfill_eq (h : M.Unmistakable keep k front segs last) :
    M.unfill k segs (front ++ M.fillKept keep k segs last) = front ++ wholeKept keep segs last := by
  induction segs generalizing keep k front with
  | nil => rfl
  | cons seg segs ih =>
    obtain ⟨gap, part⟩ := seg
    obtain ⟨hfirst, hrest⟩ := unmistakable_cons.mp h
    rw [fillKept, ← List.append_assoc, unfill, replaceAll_place hfirst, ih hrest, wholeKept]
    simp only [List.append_assoc]

theorem Unmistakable.found_eq (h : M.Unmistakable keep k front segs last) {i : ℕ} (hi : i < segs.length) :
    M.found k segs (front ++ M.fillKept keep k segs last) i = keep i := by
  have htimes := (times_eq_iff keep k front segs last).mpr h i hi
  rw [Bool.eq_iff_iff, found_iff, htimes]
  cases keep i with
  | true => exact iff_of_true Nat.one_pos rfl
  | false => exact iff_of_false (lt_irrefl 0) Bool.false_ne_true

omit [DecidableEq α] in
theorem wholeKept_congr {keep keep' : ℕ → Bool} (h : ∀ i < segs.length, keep i = keep' i) :
    wholeKept keep segs last = wholeKept keep' segs last := by
  induction segs generalizing keep keep' with
  | nil => rfl
  | cons seg segs ih =>
    obtain ⟨gap, part⟩ := seg
    rw [wholeKept, wholeKept, h 0 (Nat.succ_pos _), ih fun i hi => h (i + 1) (Nat.succ_lt_succ hi)]

theorem unfill_fillKept_iff {c : α} (keep : ℕ → Bool) (k : ℕ) (front last : List α) (hc : ∀ k, c ∉ M.mark k)
    (hparts : ∀ i < segs.length, c ∈ partAt segs i) :
    M.unfill k segs (front ++ M.fillKept keep k segs last) =
        front ++ wholeKept (M.found k segs (front ++ M.fillKept keep k segs last)) segs last ↔
      M.Unmistakable keep k front segs last := by
  constructor
  · intro h
    generalize htext : front ++ M.fillKept keep k segs last = text at h
    have hback : ∀ f : List α → ℕ, (∀ l l', f (l ++ l') = f l + f l') →
        (∑ i ∈ Finset.range segs.length, if M.found k segs text i then f (partAt segs i) else 0) +
            ∑ i ∈ Finset.range segs.length, M.times k segs text i * f (M.mark (k + i)) =
          (∑ i ∈ Finset.range segs.length, if keep i then f (M.mark (k + i)) else 0) +
            ∑ i ∈ Finset.range segs.length, M.times k segs text i * f (partAt segs i) := by
      intro f hadd
      have hunfill := weight_unfill (M := M) hadd k segs text
      have hfill := weight_fillKept (M := M) hadd keep k segs last
      have hwhole := weight_wholeKept hadd (M.found k segs text) segs last
      have hfront := congrArg f htext
      rw [h, hadd] at hunfill
      rw [hadd] at hfront
      omega
    -- Each part that comes back brings the letter in, so that none comes back twice.
    have honce : ∀ i < segs.length, M.times k segs text i = if M.found k segs text i then 1 else 0 := by
      have hcount := hback (List.count c) fun l l' => List.count_append
      simp only [List.count_eq_zero.mpr (hc _), Nat.mul_zero, ite_self, Finset.sum_const_zero, Nat.add_zero,
        Nat.zero_add] at hcount
      have hle : ∀ i ∈ Finset.range segs.length, (if M.found k segs text i then (partAt segs i).count c else 0) ≤
          M.times k segs text i * (partAt segs i).count c := by
        intro i _
        split_ifs with hfound
        · exact Nat.le_mul_of_pos_left _ ((found_iff k segs text i).mp hfound)
        · exact Nat.zero_le _
      intro i hi
      have heq := (Finset.sum_eq_sum_iff_of_le hle).mp hcount i (Finset.mem_range.mpr hi)
      have hpos := List.count_pos_iff.mpr (hparts i hi)
      split_ifs at heq ⊢ with hfound
      · exact Nat.eq_of_mul_eq_mul_right hpos (heq.symm.trans (Nat.one_mul _).symm)
      · exact (Nat.mul_eq_zero.mp heq.symm).resolve_right (by omega)
    -- The marks that are taken away are as long as those that were kept.
    have hsame : ∀ i < segs.length, M.found k segs text i = keep i := by
      have hlength := hback List.length fun l l' => List.length_append
      have htimes : ∀ g : ℕ → ℕ, ∑ i ∈ Finset.range segs.length, M.times k segs text i * g i =
          ∑ i ∈ Finset.range segs.length, if M.found k segs text i then g i else 0 := by
        intro g
        refine Finset.sum_congr rfl fun i hi => ?_
        rw [honce i (Finset.mem_range.mp hi), ite_mul, Nat.one_mul, Nat.zero_mul]
      rw [htimes, htimes, Nat.add_comm] at hlength
      have hfound : ∀ i < segs.length, keep i = true → M.found k segs text i = true := by
        intro i hi hkeep
        refine found_of_infix hi ?_
        rw [← htext]
        exact (infix_fillKept hi hkeep).trans (List.suffix_append _ _).isInfix
      have hle : ∀ i ∈ Finset.range segs.length, (if keep i then (M.mark (k + i)).length else 0) ≤
          if M.found k segs text i then (M.mark (k + i)).length else 0 := by
        intro i hi
        split_ifs with hkeep hnot
        · exact le_rfl
        · exact absurd (hfound i (Finset.mem_range.mp hi) hkeep) hnot
        · exact Nat.zero_le _
        · exact le_rfl
      intro i hi
      have heq := (Finset.sum_eq_sum_iff_of_le hle).mp (Nat.add_right_cancel hlength).symm i (Finset.mem_range.mpr hi)
      have hpos := (M.isMark (k + i)).two_lt_length
      rw [Bool.eq_iff_iff]
      refine ⟨fun hf => ?_, hfound i hi⟩
      by_contra hkeep
      rw [if_neg hkeep, if_pos hf] at heq
      omega
    rw [← times_eq_iff, htext]
    intro i hi
    rw [honce i hi, hsame i hi]
  · intro h
    rw [h.unfill_eq, wholeKept_congr fun i hi => h.found_eq hi]

end MarkFamily

end Foundation
