import Mathlib.Data.List.Nodup

/-!
# First occurrences

The elements of a list whose key stands nowhere before them, in order, and a loop that gathers them one list at a
time with a set of the keys that it has met.
-/

namespace Foundation

variable {α κ : Type*} [DecidableEq κ] (key : α → κ)

/-- The elements whose key stands nowhere before them. -/
def firstSeen : List α → List α
  | [] => []
  | a :: l => a :: (firstSeen l).filter fun b => key b ≠ key a

/-- Push the elements whose key is not in the set, which takes every key that is pushed. -/
def pushUnseen (seen : List κ) (held : List α) : List α → List α
  | [] => held
  | a :: l =>
    if key a ∈ seen then pushUnseen seen held l
    else pushUnseen (key a :: seen) (held ++ [a]) l

@[simp] theorem firstSeen_nil : firstSeen key ([] : List α) = [] := rfl

theorem firstSeen_eq_nil_iff {l : List α} : firstSeen key l = [] ↔ l = [] := by
  rcases l with _ | ⟨a, l⟩
  · exact iff_of_true rfl rfl
  · exact iff_of_false (List.cons_ne_nil _ _) (List.cons_ne_nil _ _)

theorem firstSeen_sublist (l : List α) : (firstSeen key l).Sublist l := by
  induction l with
  | nil => exact List.Sublist.slnil
  | cons a l ih => exact (List.filter_sublist.trans ih).cons_cons a

theorem mem_of_mem_firstSeen {l : List α} {a : α} (h : a ∈ firstSeen key l) : a ∈ l :=
  (firstSeen_sublist key l).subset h

theorem mem_map_firstSeen {l : List α} {k : κ} : k ∈ (firstSeen key l).map key ↔ k ∈ l.map key := by
  induction l with
  | nil => rfl
  | cons a l ih =>
    rw [firstSeen, List.map_cons, List.map_cons, List.mem_cons, List.mem_cons]
    by_cases hk : k = key a
    · exact iff_of_true (Or.inl hk) (Or.inl hk)
    · rw [or_iff_right hk, or_iff_right hk, ← ih, List.mem_map, List.mem_map]
      constructor
      · rintro ⟨b, hb, rfl⟩
        exact ⟨b, List.mem_of_mem_filter hb, rfl⟩
      · rintro ⟨b, hb, rfl⟩
        exact ⟨b, List.mem_filter.mpr ⟨hb, decide_eq_true hk⟩, rfl⟩

/-- A longer list keeps the first occurrences and adds those of keys that are new. -/
theorem firstSeen_append (l m : List α) :
    firstSeen key (l ++ m) = firstSeen key l ++ (firstSeen key m).filter fun b => key b ∉ l.map key := by
  induction l with
  | nil => simp
  | cons a l ih =>
    rw [List.cons_append, firstSeen, firstSeen, ih, List.filter_append, List.filter_filter, List.cons_append]
    refine congrArg (fun rest => a :: (_ ++ rest)) (List.filter_congr fun b _ => ?_)
    simp [not_or]

theorem firstSeen_prefix_append (l m : List α) : firstSeen key l <+: firstSeen key (l ++ m) := by
  rw [firstSeen_append]
  exact List.prefix_append _ _

theorem pushUnseen_eq (seen : List κ) (held l : List α) :
    pushUnseen key seen held l = held ++ (firstSeen key l).filter fun b => key b ∉ seen := by
  induction l generalizing seen held with
  | nil => rw [pushUnseen, firstSeen, List.filter_nil, List.append_nil]
  | cons a l ih =>
    rw [pushUnseen, firstSeen]
    split_ifs with hseen
    · rw [ih, List.filter_cons_of_neg (by simpa using hseen), List.filter_filter]
      refine congrArg (held ++ ·) (List.filter_congr fun b _ => ?_)
      by_cases hb : key b ∈ seen
      · simp [hb]
      · have hne : key b ≠ key a := fun heq => hb (heq ▸ hseen)
        simp [hb, hne]
    · rw [ih, List.filter_cons_of_pos (by simpa using hseen), List.filter_filter, List.append_assoc,
        List.singleton_append]
      refine congrArg (fun rest => held ++ a :: rest) (List.filter_congr fun b _ => ?_)
      simp [not_or, Bool.and_comm]

theorem pushUnseen_firstSeen (l m : List α) :
    pushUnseen key ((firstSeen key l).map key) (firstSeen key l) m = firstSeen key (l ++ m) := by
  rw [pushUnseen_eq, firstSeen_append]
  refine congrArg (firstSeen key l ++ ·) (List.filter_congr fun b _ => ?_)
  rw [decide_eq_decide, not_iff_not]
  exact mem_map_firstSeen key

end Foundation
