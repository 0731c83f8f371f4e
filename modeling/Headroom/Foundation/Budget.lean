import Mathlib.Algebra.GroupWithZero.Nat
import Mathlib.Algebra.Order.BigOperators.Group.List
import Mathlib.Data.List.Sort
import Mathlib.Algebra.Order.Group.Nat

/-!
# Trimming a list to a budget, the largest first

A greedy pass over weighted entries: the largest entry first and the earlier one among equals,
each kept when it still fits a bound on the number and a bound on the total weight. The first
entry is kept whatever it weighs, and an entry that does not fit is skipped, not a stop.
-/

namespace Foundation.Budget

variable {α : Type*} (size : α → ℕ) (maxCount maxWeight : ℕ)

/-- The total weight of the entries. -/
def weight (entries : List α) : ℕ := (entries.map size).sum

/-- At most `maxCount` entries, and at most one or a total of at most `maxWeight`. -/
def Within (entries : List α) : Prop :=
  entries.length ≤ maxCount ∧ (entries.length ≤ 1 ∨ weight size entries ≤ maxWeight)

instance (entries : List α) : Decidable (Within size maxCount maxWeight entries) :=
  inferInstanceAs (Decidable (_ ∧ _))

/-- The larger entry comes first, and the earlier one of two equals. -/
def Precedes (a b : α × ℕ) : Prop := size b.1 < size a.1 ∨ size a.1 = size b.1 ∧ a.2 ≤ b.2

instance : DecidableRel (Precedes size) := fun a b =>
  inferInstanceAs (Decidable (size b.1 < size a.1 ∨ size a.1 = size b.1 ∧ a.2 ≤ b.2))

instance : Std.Total (Precedes size) := ⟨fun a b => by unfold Precedes; omega⟩

instance : IsTrans (α × ℕ) (Precedes size) := ⟨fun a b c => by unfold Precedes; omega⟩

/-- The entries with their positions, the largest first. -/
def bySize (entries : List α) : List (α × ℕ) := entries.zipIdx.insertionSort (Precedes size)

/-- The greedy pass, with the weight held and the number kept so far. -/
def select (held kept : ℕ) : List (α × ℕ) → List (α × ℕ)
  | [] => []
  | e :: es =>
    if maxCount ≤ kept then []
    else if 0 < kept ∧ maxWeight < held + size e.1 then select held kept es
    else e :: select (held + size e.1) (kept + 1) es

/-- The positions that the pass keeps. -/
def keptPositions (entries : List α) : List ℕ :=
  (select size maxCount maxWeight 0 0 (bySize size entries)).map Prod.snd

/-- The entries that the pass keeps, in their own order. -/
def trim (entries : List α) : List α :=
  (entries.zipIdx.filter fun e => e.2 ∈ keptPositions size maxCount maxWeight entries).map Prod.fst

/-- The entries that the pass drops, in their own order. -/
def dropped (entries : List α) : List α :=
  (entries.zipIdx.filter fun e => e.2 ∉ keptPositions size maxCount maxWeight entries).map Prod.fst

variable {size maxCount maxWeight}

/-! ### The greedy pass -/

variable {held kept : ℕ} {es : List (α × ℕ)}

theorem select_sublist :
    (select size maxCount maxWeight held kept es).Sublist es := by
  induction es generalizing held kept with
  | nil => exact List.Sublist.refl _
  | cons e es ih =>
    simp only [select]
    split_ifs
    · exact List.nil_sublist _
    · exact ih.cons e
    · exact ih.cons_cons e

theorem length_select (h : kept ≤ maxCount) :
    kept + (select size maxCount maxWeight held kept es).length ≤ maxCount := by
  induction es generalizing held kept with
  | nil => simpa [select] using h
  | cons e es ih =>
    simp only [select]
    split_ifs with h1 h2
    · simpa using h
    · exact ih h
    · have := @ih (held + size e.1) (kept + 1) (by omega)
      simp only [List.length_cons]
      omega

theorem weight_select (hk : 0 < kept)
    (h : held ≤ maxWeight) :
    held + ((select size maxCount maxWeight held kept es).map fun e => size e.1).sum ≤
      maxWeight := by
  induction es generalizing held kept with
  | nil => simpa [select] using h
  | cons e es ih =>
    simp only [select]
    split_ifs with h1 h2
    · simpa using h
    · exact ih hk h
    · have := @ih (held + size e.1) (kept + 1) (by omega) (by omega)
      simp only [List.map_cons, List.sum_cons]
      omega

theorem select_eq_nil (hk : 0 < kept)
    (h : maxWeight < held) : select size maxCount maxWeight held kept es = [] := by
  induction es with
  | nil => rfl
  | cons e es ih =>
    have hskip : 0 < kept ∧ maxWeight < held + size e.1 := ⟨hk, by omega⟩
    simp only [select, hskip, and_self, if_true, ih, ite_self]

theorem select_no_room (hsorted : es.Pairwise (Precedes size)) {d e : α × ℕ} (hd : d ∈ es)
    (hdrop : d ∉ select size maxCount maxWeight held kept es)
    (he : e ∈ select size maxCount maxWeight held kept es) (hlt : size e.1 < size d.1) :
    2 ≤ kept + (select size maxCount maxWeight held kept es).length ∧
      maxWeight + size e.1 < held +
        ((select size maxCount maxWeight held kept es).map fun e => size e.1).sum + size d.1 := by
  induction es generalizing held kept with
  | nil => simp at hd
  | cons a es ih =>
    obtain ⟨ha, hsorted⟩ := List.pairwise_cons.mp hsorted
    simp only [select] at hdrop he ⊢
    split_ifs at hdrop he ⊢ with h1 h2
    · simp at he
    · rcases List.mem_cons.mp hd with rfl | hd
      · have hle : size e.1 ≤
            ((select size maxCount maxWeight held kept es).map fun e => size e.1).sum :=
          List.single_le_sum (by simp) _ (List.mem_map_of_mem he)
        have hpos := List.length_pos_of_mem he
        omega
      · exact ih hsorted hd hdrop he
    · simp only [List.mem_cons, not_or] at hdrop he
      have hmem : d ∈ es := (List.mem_cons.mp hd).resolve_left hdrop.1
      rcases he with rfl | he
      · have := ha d hmem
        unfold Precedes at this
        omega
      · have := ih hsorted hmem hdrop.2 he
        simp only [List.length_cons, List.map_cons, List.sum_cons]
        omega

theorem select_eq_self (hcount : kept + es.length ≤ maxCount)
    (hweight : kept + es.length ≤ 1 ∨ held + (es.map fun e => size e.1).sum ≤ maxWeight) :
    select size maxCount maxWeight held kept es = es := by
  induction es generalizing held kept with
  | nil => rfl
  | cons e es ih =>
    simp only [List.length_cons, List.map_cons, List.sum_cons] at hcount hweight
    have h1 : ¬ maxCount ≤ kept := by omega
    have h2 : ¬ (0 < kept ∧ maxWeight < held + size e.1) := by omega
    simp only [select, h1, h2, if_false]
    rw [ih (by omega) (by omega)]

/-! ### The entries kept -/

theorem perm_bySize (entries : List α) : (bySize size entries).Perm entries.zipIdx :=
  List.perm_insertionSort _ _

private theorem nodup_zipIdx (entries : List α) : (entries.zipIdx.map Prod.snd).Nodup := by
  rw [List.zipIdx_map_snd]
  exact List.nodup_range'

variable {entries : List α}

private theorem mem_keptPositions {e : α × ℕ} (he : e ∈ entries.zipIdx) :
    e.2 ∈ keptPositions size maxCount maxWeight entries ↔
      e ∈ select size maxCount maxWeight 0 0 (bySize size entries) := by
  constructor
  · intro h
    obtain ⟨e', he', heq⟩ := List.mem_map.mp h
    have hmem : e' ∈ entries.zipIdx := (perm_bySize entries).mem_iff.mp (select_sublist.subset he')
    rwa [List.inj_on_of_nodup_map (nodup_zipIdx entries) hmem he heq] at he'
  · exact fun h => List.mem_map_of_mem h

private theorem perm_select (entries : List α) :
    (entries.zipIdx.filter fun e => e.2 ∈ keptPositions size maxCount maxWeight entries).Perm
      (select size maxCount maxWeight 0 0 (bySize size entries)) := by
  have hnodup : entries.zipIdx.Nodup := (nodup_zipIdx entries).of_map _
  have hselect : (select size maxCount maxWeight 0 0 (bySize size entries)).Nodup :=
    ((perm_bySize entries).nodup_iff.mpr hnodup).sublist select_sublist
  refine (List.perm_ext_iff_of_nodup (hnodup.filter _) hselect).mpr fun e => ?_
  simp only [List.mem_filter, decide_eq_true_eq]
  constructor
  · rintro ⟨he, hk⟩
    exact (mem_keptPositions he).mp hk
  · intro h
    have he : e ∈ entries.zipIdx := (perm_bySize entries).mem_iff.mp (select_sublist.subset h)
    exact ⟨he, (mem_keptPositions he).mpr h⟩

theorem trim_sublist (entries : List α) :
    (trim size maxCount maxWeight entries).Sublist entries := by
  have := (List.filter_sublist (p := fun e : α × ℕ =>
    decide (e.2 ∈ keptPositions size maxCount maxWeight entries)) (l := entries.zipIdx)).map Prod.fst
  rwa [List.zipIdx_map_fst] at this

/-- What is kept and what is dropped make up the entries. -/
theorem trim_append_dropped_perm (entries : List α) :
    (trim size maxCount maxWeight entries ++ dropped size maxCount maxWeight entries).Perm
      entries := by
  have h := (List.filter_append_perm (fun e : α × ℕ =>
    decide (e.2 ∈ keptPositions size maxCount maxWeight entries)) entries.zipIdx).map Prod.fst
  rw [List.map_append, List.zipIdx_map_fst] at h
  simpa only [trim, dropped, decide_not] using h

private theorem trim_perm (entries : List α) : (trim size maxCount maxWeight entries).Perm
    ((select size maxCount maxWeight 0 0 (bySize size entries)).map Prod.fst) :=
  (perm_select entries).map _

private theorem weight_trim (entries : List α) : weight size (trim size maxCount maxWeight entries) =
    ((select size maxCount maxWeight 0 0 (bySize size entries)).map fun e => size e.1).sum := by
  have hperm : (trim size maxCount maxWeight entries).Perm _ := trim_perm entries
  have h := (hperm.map size).sum_eq
  rwa [List.map_map] at h

theorem within_trim (entries : List α) :
    Within size maxCount maxWeight (trim size maxCount maxWeight entries) := by
  rw [Within, weight_trim, (trim_perm entries).length_eq, List.length_map]
  have hcount : 0 + (select size maxCount maxWeight 0 0 (bySize size entries)).length ≤ maxCount :=
    length_select (Nat.zero_le maxCount)
  refine ⟨by simpa using hcount, ?_⟩
  cases bySize size entries with
  | nil => exact Or.inl (by simp [select])
  | cons e es =>
    simp only [select]
    split_ifs with h1 h2
    · exact Or.inl (by simp)
    · omega
    · by_cases hw : size e.1 ≤ maxWeight
      · right
        have hfirst : 0 + size e.1 ≤ maxWeight := by omega
        have : 0 + size e.1 + ((select size maxCount maxWeight (0 + size e.1) (0 + 1) es).map
            fun e => size e.1).sum ≤ maxWeight := weight_select (by omega) hfirst
        simp only [List.map_cons, List.sum_cons]
        omega
      · left
        rw [select_eq_nil (by omega) (by omega)]
        simp

theorem trim_eq_self (h : Within size maxCount maxWeight entries) :
    trim size maxCount maxWeight entries = entries := by
  have hperm : (bySize size entries).Perm entries.zipIdx := perm_bySize entries
  have hlen : (bySize size entries).length = entries.length := by
    rw [hperm.length_eq, List.length_zipIdx]
  have hsum : ((bySize size entries).map fun e => size e.1).sum = weight size entries := by
    rw [(hperm.map _).sum_eq, weight]
    conv_rhs => rw [← List.zipIdx_map_fst 0 entries, List.map_map]
    rfl
  have hall : select size maxCount maxWeight 0 0 (bySize size entries) = bySize size entries := by
    refine select_eq_self ?_ ?_
    · rw [hlen, Nat.zero_add]
      exact h.1
    · rw [hlen, hsum, Nat.zero_add, Nat.zero_add]
      exact h.2
  refine List.Sublist.eq_of_length (trim_sublist entries) ?_
  rw [(trim_perm entries).length_eq, List.length_map, hall, hlen]

/-! ### Fair use of the budget -/

theorem weight_cons (a : α) (l : List α) : weight size (a :: l) = size a + weight size l := by
  simp only [weight, List.map_cons, List.sum_cons]

/-- Fewer entries stay within the budget. -/
theorem Within.sublist {l l' : List α} (h : Within size maxCount maxWeight l)
    (hsub : l'.Sublist l) : Within size maxCount maxWeight l' := by
  obtain ⟨hcount, hweight⟩ := h
  refine ⟨hsub.length_le.trans hcount, hweight.imp hsub.length_le.trans fun h => ?_⟩
  exact ((hsub.map size).sum_le_sum fun _ _ => Nat.zero_le _).trans h

variable [DecidableEq α]

/-- Taking in `x` for a kept `y` leaves the budget when there is another entry and the weight does
not fit. -/
theorem swap_not_within_iff {kept : List α} {x y : α} (hy : y ∈ kept)
    (hcount : kept.length ≤ maxCount) :
    ¬ Within size maxCount maxWeight (x :: kept.erase y) ↔
      2 ≤ kept.length ∧ maxWeight + size y < weight size kept + size x := by
  have hlen : (x :: kept.erase y).length = kept.length := by
    have := List.length_pos_of_mem hy
    rw [List.length_cons, List.length_erase_of_mem hy]
    omega
  have hweight : weight size kept = size y + weight size (kept.erase y) := by
    have := ((List.perm_cons_erase hy).map size).sum_eq
    simpa only [weight, List.map_cons, List.sum_cons] using this
  rw [Within, hlen, weight_cons]
  omega

/-- Of the candidates some are kept, and none of the others could take the place of a smaller kept
one within the budget. -/
def Fair (size : α → ℕ) (maxCount maxWeight : ℕ) (candidates kept : List α) : Prop :=
  ∃ others, (kept ++ others).Perm candidates ∧ ∀ x ∈ others, ∀ y ∈ kept, size y < size x →
    ¬ Within size maxCount maxWeight (x :: kept.erase y)

/-- Fairness over a known remainder. -/
theorem fair_iff {candidates kept others : List α} (hperm : (kept ++ others).Perm candidates)
    (hcount : kept.length ≤ maxCount) :
    Fair size maxCount maxWeight candidates kept ↔
      ∀ x ∈ others, ∀ y ∈ kept, size y < size x →
        2 ≤ kept.length ∧ maxWeight + size y < weight size kept + size x := by
  constructor
  · rintro ⟨others', hperm', hfair⟩ x hx y hy hlt
    have hsame : others'.Perm others := (List.perm_append_left_iff kept).mp (hperm'.trans hperm.symm)
    exact (swap_not_within_iff hy hcount).mp (hfair x (hsame.mem_iff.mpr hx) y hy hlt)
  · intro h
    exact ⟨others, hperm, fun x hx y hy hlt =>
      (swap_not_within_iff hy hcount).mpr (h x hx y hy hlt)⟩

theorem fair_trim (entries : List α) :
    Fair size maxCount maxWeight entries (trim size maxCount maxWeight entries) := by
  refine (fair_iff (trim_append_dropped_perm entries) (within_trim entries).1).mpr ?_
  intro d hd e he hlt
  obtain ⟨⟨d, i⟩, hfilter, rfl⟩ := List.mem_map.mp hd
  obtain ⟨hdmem, hdrop⟩ := List.mem_filter.mp hfilter
  obtain ⟨⟨e', j⟩, hsel, rfl⟩ := List.mem_map.mp ((trim_perm entries).mem_iff.mp he)
  have hroom := select_no_room (List.pairwise_insertionSort (Precedes size) entries.zipIdx)
    ((perm_bySize entries).mem_iff.mpr hdmem)
    (fun h => by simp [(mem_keptPositions hdmem).mpr h] at hdrop) hsel hlt
  rw [weight_trim, (trim_perm entries).length_eq, List.length_map]
  simpa only [Nat.zero_add, bySize] using hroom

omit [DecidableEq α] in
theorem mem_trim_of_largest {a : α} (hcount : 0 < maxCount)
    (ha : a ∈ entries) (hlarge : ∀ b ∈ entries, b = a ∨ size b < size a) :
    a ∈ trim size maxCount maxWeight entries := by
  rw [(trim_perm entries).mem_iff]
  have hmem : ∀ e : α × ℕ, e ∈ bySize size entries → e.1 ∈ entries := by
    intro e he
    have := List.mem_map_of_mem (f := Prod.fst) ((perm_bySize entries).mem_iff.mp he)
    rwa [List.zipIdx_map_fst] at this
  obtain ⟨⟨a', i⟩, hi, rfl⟩ : ∃ e ∈ bySize size entries, e.1 = a := by
    have : a ∈ entries.zipIdx.map Prod.fst := by rwa [List.zipIdx_map_fst]
    obtain ⟨e, he, rfl⟩ := List.mem_map.mp this
    exact ⟨e, (perm_bySize entries).mem_iff.mpr he, rfl⟩
  have hsorted := List.pairwise_insertionSort (Precedes size) entries.zipIdx
  change (bySize size entries).Pairwise _ at hsorted
  cases hes : bySize size entries with
  | nil => simp [hes] at hi
  | cons e es =>
    rw [hes] at hi hsorted hmem
    have hfirst : e.1 = a' := by
      rcases List.mem_cons.mp hi with rfl | hi
      · rfl
      · rcases hlarge e.1 (hmem e List.mem_cons_self) with h | h
        · exact h
        · have := (List.pairwise_cons.mp hsorted).1 _ hi
          unfold Precedes at this
          exact absurd h (by dsimp only at this ⊢; omega)
    have hsel : select size maxCount maxWeight 0 0 (e :: es) =
        e :: select size maxCount maxWeight (0 + size e.1) (0 + 1) es := by
      rw [select, if_neg (by omega), if_neg (by omega)]
    rw [hsel, List.map_cons]
    exact List.mem_cons.mpr (Or.inl hfirst.symm)

end Foundation.Budget
