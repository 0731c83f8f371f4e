import Mathlib.Data.List.Basic

/-!
# Calls and their results

Rows of items, some of which are calls and some results. A result names the call it belongs to, and
stands anywhere behind it; a call is to be answered in the next row. Items that violate one of the
two rules are blanked: first the results, then the calls.
-/

namespace Foundation.Pairing

variable {α κ : Type*}

/-- The item at a place. -/
def item (rows : List (List α)) (i p : ℕ) : Option α := (rows[i]?).bind fun row => row[p]?

/-- The order of places. -/
def Before (i p j q : ℕ) : Prop := i < j ∨ i = j ∧ p < q

variable (call? : α → Option κ) (result? : α → Option (Option κ)) (blank : α → α)

/-- A call of the name stands before a place. -/
def Called (rows : List (List α)) (j q : ℕ) (k : κ) : Prop :=
  ∃ i p a, Before i p j q ∧ item rows i p = some a ∧ call? a = some k

/-- Unless it is the last, the row behind a call has a result of its name. -/
def Answered (rows : List (List α)) (i : ℕ) (k : κ) : Prop :=
  i + 1 < rows.length → ∃ q a, item rows (i + 1) q = some a ∧ result? a = some (some k)

/-- The call of a result stands before it. -/
def HasCall (rows : List (List α)) (j q : ℕ) (a : α) : Prop :=
  ∃ k, result? a = some (some k) ∧ Called call? rows j q k

/-- A result without a call. -/
def Orphan (rows : List (List α)) (j q : ℕ) (a : α) : Prop :=
  (result? a).isSome ∧ ¬ HasCall call? result? rows j q a

/-- A call without an answer. -/
def Dangling (rows : List (List α)) (i : ℕ) (a : α) : Prop :=
  ∃ k, call? a = some k ∧ ¬ Answered result? rows i k

/-- Every result has a call, and every call is answered. -/
structure Paired (rows : List (List α)) : Prop where
  results : ∀ j q a, item rows j q = some a → (result? a).isSome → HasCall call? result? rows j q a
  calls : ∀ i p a k, item rows i p = some a → call? a = some k → Answered result? rows i k

/-- Every result that has a call has one that is answered. -/
def AnsweredBefore (rows : List (List α)) : Prop :=
  ∀ j q a k, item rows j q = some a → result? a = some (some k) → Called call? rows j q k →
    ∃ i p b, Before i p j q ∧ item rows i p = some b ∧ call? b = some k ∧ Answered result? rows i k

open Classical in
/-- The rows with every result blanked that has no call. -/
noncomputable def blankOrphans (rows : List (List α)) : List (List α) :=
  rows.mapIdx fun j row => row.mapIdx fun q a => if Orphan call? result? rows j q a then blank a else a

open Classical in
/-- The rows with every call blanked that is not answered. -/
noncomputable def blankDangling (rows : List (List α)) : List (List α) :=
  rows.mapIdx fun i row => row.map fun a => if Dangling call? result? rows i a then blank a else a

/-- The rows behind both passes. -/
noncomputable def repair (rows : List (List α)) : List (List α) :=
  blankDangling call? result? blank (blankOrphans call? result? blank rows)

variable {call? result? blank} {rows : List (List α)} {row : List α} {i j p q : ℕ} {k : κ} {a b : α}

/-! ### Places -/

theorem lt_length_of_item (h : item rows i p = some a) : i < rows.length := by
  obtain ⟨row, hrow, -⟩ := Option.bind_eq_some_iff.mp h
  exact (List.getElem?_eq_some_iff.mp hrow).1

open Classical in
theorem item_blankOrphans : item (blankOrphans call? result? blank rows) j q =
    (item rows j q).map fun a => if Orphan call? result? rows j q a then blank a else a := by
  rw [item, item, blankOrphans, List.getElem?_mapIdx]
  cases rows[j]? with
  | none => rfl
  | some row =>
    rw [Option.map_some, Option.bind_some, Option.bind_some, List.getElem?_mapIdx]

open Classical in
theorem item_blankDangling : item (blankDangling call? result? blank rows) i p =
    (item rows i p).map fun a => if Dangling call? result? rows i a then blank a else a := by
  rw [item, item, blankDangling, List.getElem?_mapIdx]
  cases rows[i]? with
  | none => rfl
  | some row =>
    rw [Option.map_some, Option.bind_some, Option.bind_some, List.getElem?_map]

theorem length_blankOrphans : (blankOrphans call? result? blank rows).length = rows.length :=
  List.length_mapIdx

theorem length_blankDangling : (blankDangling call? result? blank rows).length = rows.length :=
  List.length_mapIdx

theorem called_cons_succ : Called call? (row :: rows) (j + 1) q k ↔
    (∃ a ∈ row, call? a = some k) ∨ Called call? rows j q k := by
  refine ⟨?_, ?_⟩
  · rintro ⟨i, p, a, hbefore, hitem, hcall⟩
    cases i with
    | zero => exact Or.inl ⟨a, List.mem_of_getElem? hitem, hcall⟩
    | succ i =>
      refine Or.inr ⟨i, p, a, ?_, hitem, hcall⟩
      rw [Before] at hbefore ⊢
      omega
  · rintro (⟨a, hmem, hcall⟩ | ⟨i, p, a, hbefore, hitem, hcall⟩)
    · obtain ⟨p, hp⟩ := List.getElem?_of_mem hmem
      exact ⟨0, p, a, Or.inl (Nat.succ_pos j), hp, hcall⟩
    · refine ⟨i + 1, p, a, ?_, hitem, hcall⟩
      rw [Before] at hbefore ⊢
      omega

theorem called_cons_zero : Called call? (row :: rows) 0 q k ↔ ∃ a ∈ row.take q, call? a = some k := by
  refine ⟨?_, ?_⟩
  · rintro ⟨i, p, a, hbefore, hitem, hcall⟩
    have hplace : i = 0 ∧ p < q := by
      rw [Before] at hbefore
      omega
    obtain ⟨rfl, hp⟩ := hplace
    refine ⟨a, ?_, hcall⟩
    refine List.mem_of_getElem? (i := p) ?_
    rw [List.getElem?_take_of_lt hp]
    exact hitem
  · rintro ⟨a, hmem, hcall⟩
    obtain ⟨p, hp⟩ := List.getElem?_of_mem hmem
    rw [List.getElem?_take] at hp
    split_ifs at hp with hlt
    exact ⟨0, p, a, Or.inr ⟨rfl, hlt⟩, hp, hcall⟩

theorem answered_cons_succ : Answered result? (row :: rows) (i + 1) k ↔ Answered result? rows i k := by
  rw [Answered, Answered, List.length_cons]
  exact imp_congr_left Nat.add_lt_add_iff_right

theorem answered_singleton : Answered result? [row] 0 k := by
  intro hlt
  exact absurd hlt (Nat.lt_irrefl _)

theorem answered_cons_cons {next : List α} :
    Answered result? (row :: next :: rows) 0 k ↔ ∃ a ∈ next, result? a = some (some k) := by
  rw [Answered]
  refine ⟨fun hanswered => ?_, ?_⟩
  · obtain ⟨q, a, hitem, hk⟩ := hanswered (by rw [List.length_cons, List.length_cons]; omega)
    exact ⟨a, List.mem_of_getElem? hitem, hk⟩
  · rintro ⟨a, hmem, hk⟩ -
    obtain ⟨q, hq⟩ := List.getElem?_of_mem hmem
    exact ⟨q, a, hq, hk⟩

/-! ### The passes -/

theorem blankOrphans_eq_self (h : Paired call? result? rows) : blankOrphans call? result? blank rows = rows := by
  classical
  refine List.ext_getElem? fun j => ?_
  rw [blankOrphans, List.getElem?_mapIdx]
  cases hrow : rows[j]? with
  | none => rfl
  | some row =>
    refine congrArg some (List.ext_getElem? fun q => ?_)
    rw [List.getElem?_mapIdx]
    cases ha : row[q]? with
    | none => rfl
    | some a =>
      refine congrArg some (if_neg ?_)
      rintro ⟨hresult, hnot⟩
      exact hnot (h.results j q a (by rw [item, hrow, Option.bind_some, ha]) hresult)

theorem blankDangling_eq_self (h : Paired call? result? rows) : blankDangling call? result? blank rows = rows := by
  classical
  refine List.ext_getElem? fun i => ?_
  rw [blankDangling, List.getElem?_mapIdx]
  cases hrow : rows[i]? with
  | none => rfl
  | some row =>
    refine congrArg some (List.ext_getElem? fun p => ?_)
    rw [List.getElem?_map]
    cases ha : row[p]? with
    | none => rfl
    | some a =>
      refine congrArg some (if_neg ?_)
      rintro ⟨k, hk, hnot⟩
      exact hnot (h.calls i p a k (by rw [item, hrow, Option.bind_some, ha]) hk)

/-- A result is no call, and what is blanked is neither. -/
structure Inert (call? : α → Option κ) (result? : α → Option (Option κ)) (blank : α → α) : Prop where
  disjoint : ∀ a, (call? a).isSome → result? a = none
  call : ∀ a, call? (blank a) = none
  result : ∀ a, result? (blank a) = none

variable (h : Inert call? result? blank)
include h

theorem not_orphan_of_call (hcall : call? a = some k) : ¬ Orphan call? result? rows j q a := by
  rintro ⟨hresult, -⟩
  rw [h.disjoint a (by rw [hcall]; rfl)] at hresult
  exact Bool.false_ne_true hresult

theorem item_call_blankOrphans : (item (blankOrphans call? result? blank rows) i p = some a ∧ call? a = some k) ↔
    item rows i p = some a ∧ call? a = some k := by
  rw [item_blankOrphans]
  refine ⟨?_, ?_⟩
  · rintro ⟨hitem, hcall⟩
    obtain ⟨b, hb, heq⟩ := Option.map_eq_some_iff.mp hitem
    split_ifs at heq with horphan
    · rw [← heq, h.call] at hcall
      exact absurd hcall (by simp)
    · exact ⟨heq ▸ hb, hcall⟩
  · rintro ⟨hitem, hcall⟩
    rw [hitem, Option.map_some, if_neg (not_orphan_of_call h hcall)]
    exact ⟨rfl, hcall⟩

/-- A result stays if it has a call. -/
theorem item_result_blankOrphans :
    (item (blankOrphans call? result? blank rows) j q = some a ∧ (result? a).isSome) ↔
      item rows j q = some a ∧ HasCall call? result? rows j q a := by
  rw [item_blankOrphans]
  refine ⟨?_, ?_⟩
  · rintro ⟨hitem, hresult⟩
    obtain ⟨b, hb, heq⟩ := Option.map_eq_some_iff.mp hitem
    split_ifs at heq with horphan
    · rw [← heq, h.result] at hresult
      exact absurd hresult Bool.false_ne_true
    · rw [heq] at hb horphan
      exact ⟨hb, by_contra fun hnot => horphan ⟨hresult, hnot⟩⟩
  · rintro ⟨hitem, hcall⟩
    rw [hitem, Option.map_some, if_neg (fun horphan => horphan.2 hcall)]
    obtain ⟨k, hk, -⟩ := hcall
    exact ⟨rfl, by rw [hk]; rfl⟩

theorem answered_blankOrphans (hitem : item rows i p = some a) (hcall : call? a = some k) :
    Answered result? (blankOrphans call? result? blank rows) i k ↔ Answered result? rows i k := by
  rw [Answered, Answered, length_blankOrphans]
  refine imp_congr_right fun _ => exists_congr fun q => exists_congr fun b => ⟨?_, ?_⟩
  · rintro ⟨hb, hk⟩
    exact ⟨((item_result_blankOrphans h).mp ⟨hb, by rw [hk]; rfl⟩).1, hk⟩
  · rintro ⟨hb, hk⟩
    refine ⟨((item_result_blankOrphans h).mpr ⟨hb, k, hk, ?_⟩).1, hk⟩
    exact ⟨i, p, a, Or.inl (Nat.lt_succ_self i), hitem, hcall⟩

/-- The results stay when the calls go. -/
theorem item_result_blankDangling :
    (item (blankDangling call? result? blank rows) j q = some a ∧ (result? a).isSome) ↔
      item rows j q = some a ∧ (result? a).isSome := by
  rw [item_blankDangling]
  refine ⟨?_, ?_⟩
  · rintro ⟨hitem, hresult⟩
    obtain ⟨b, hb, heq⟩ := Option.map_eq_some_iff.mp hitem
    split_ifs at heq with hdangling
    · rw [← heq, h.result] at hresult
      exact absurd hresult Bool.false_ne_true
    · exact ⟨heq ▸ hb, hresult⟩
  · rintro ⟨hitem, hresult⟩
    rw [hitem, Option.map_some, if_neg]
    · exact ⟨rfl, hresult⟩
    · rintro ⟨k, hk, -⟩
      rw [h.disjoint a (by rw [hk]; rfl)] at hresult
      exact Bool.false_ne_true hresult

theorem item_call_blankDangling :
    (item (blankDangling call? result? blank rows) i p = some a ∧ call? a = some k) ↔
      item rows i p = some a ∧ call? a = some k ∧ Answered result? rows i k := by
  rw [item_blankDangling]
  refine ⟨?_, ?_⟩
  · rintro ⟨hitem, hcall⟩
    obtain ⟨b, hb, heq⟩ := Option.map_eq_some_iff.mp hitem
    split_ifs at heq with hdangling
    · rw [← heq, h.call] at hcall
      exact absurd hcall (by simp)
    · rw [heq] at hb hdangling
      exact ⟨hb, hcall, by_contra fun hnot => hdangling ⟨k, hcall, hnot⟩⟩
  · rintro ⟨hitem, hcall, hanswered⟩
    rw [hitem, Option.map_some, if_neg]
    · exact ⟨rfl, hcall⟩
    · rintro ⟨k', hk', hnot⟩
      rw [Option.some.inj (hk'.symm.trans hcall)] at hnot
      exact hnot hanswered

theorem answered_blankDangling :
    Answered result? (blankDangling call? result? blank rows) i k ↔ Answered result? rows i k := by
  rw [Answered, Answered, length_blankDangling]
  refine imp_congr_right fun _ => exists_congr fun q => exists_congr fun b => ⟨?_, ?_⟩
  · rintro ⟨hb, hk⟩
    exact ⟨((item_result_blankDangling h).mp ⟨hb, by rw [hk]; rfl⟩).1, hk⟩
  · rintro ⟨hb, hk⟩
    exact ⟨((item_result_blankDangling h).mpr ⟨hb, by rw [hk]; rfl⟩).1, hk⟩

/-! ### Behind both passes -/

/-- The calls that are left are those that are answered. -/
theorem item_call_repair : (item (repair call? result? blank rows) i p = some a ∧ call? a = some k) ↔
    item rows i p = some a ∧ call? a = some k ∧ Answered result? rows i k := by
  rw [repair, item_call_blankDangling h, ← and_assoc, item_call_blankOrphans h, and_assoc]
  refine and_congr_right fun hitem => and_congr_right fun hcall => ?_
  exact answered_blankOrphans h hitem hcall

theorem item_result_repair : (item (repair call? result? blank rows) j q = some a ∧ (result? a).isSome) ↔
    item rows j q = some a ∧ HasCall call? result? rows j q a := by
  rw [repair, item_result_blankDangling h, item_result_blankOrphans h]

theorem answered_repair (hitem : item (repair call? result? blank rows) i p = some a)
    (hcall : call? a = some k) : Answered result? (repair call? result? blank rows) i k := by
  obtain ⟨hold, -, hanswered⟩ := (item_call_repair h).mp ⟨hitem, hcall⟩
  rw [repair, answered_blankDangling h]
  exact (answered_blankOrphans h hold hcall).mpr hanswered

/-- Behind both passes every result has a call exactly if it had one that was answered. -/
theorem hasCall_repair_iff :
    (∀ j q a, item (repair call? result? blank rows) j q = some a → (result? a).isSome →
        HasCall call? result? (repair call? result? blank rows) j q a) ↔
      AnsweredBefore call? result? rows := by
  refine ⟨fun hall j q a k hitem hk hcalled => ?_, fun hbefore j q a hitem hresult => ?_⟩
  · obtain ⟨hleft, hsome⟩ := (item_result_repair h).mpr ⟨hitem, k, hk, hcalled⟩
    obtain ⟨k', hk', i, p, b, hplace, hb, hcall⟩ := hall j q a hleft hsome
    obtain rfl : k' = k := Option.some.inj (Option.some.inj (hk'.symm.trans hk))
    obtain ⟨hold, hcall, hanswered⟩ := (item_call_repair h).mp ⟨hb, hcall⟩
    exact ⟨i, p, b, hplace, hold, hcall, hanswered⟩
  · obtain ⟨hold, k, hk, hcalled⟩ := (item_result_repair h).mp ⟨hitem, hresult⟩
    obtain ⟨i, p, b, hplace, hb, hcall, hanswered⟩ := hbefore j q a k hold hk hcalled
    obtain ⟨hleft, -⟩ := (item_call_repair h).mpr ⟨hb, hcall, hanswered⟩
    exact ⟨k, hk, i, p, b, hplace, hleft, hcall⟩

theorem paired_repair_iff :
    Paired call? result? (repair call? result? blank rows) ↔ AnsweredBefore call? result? rows := by
  refine ⟨fun hpaired => (hasCall_repair_iff h).mp hpaired.results, fun hbefore => ?_⟩
  exact ⟨(hasCall_repair_iff h).mpr hbefore, fun i p a k hitem hcall => answered_repair h hitem hcall⟩

end Foundation.Pairing
