import Mathlib.Data.List.ReduceOption

/-!
# Aligning a stored sequence with a current one

A walk over a stored sequence and a current one in step. A stored item takes the current item
that is the same; a stored item that may be missing is stepped over, and takes the current item
in its place when that one may stand in for it. Everything current is taken in order, so the walk
yields how much of the current sequence the stored one covers.
-/

namespace Foundation.Alignment

variable {α β : Type*} (same : α → β → Bool) (missing : ℕ → α → Bool) (standIn : ℕ → β → Bool)
  (current : List β)

/-- Whether the stored item at `s` takes the current item at `c`. -/
def takes (s c : ℕ) (a : α) : Bool :=
  (current[c]?).any (same a) || (missing s a && (current[c]?).any (standIn c))

/-- The position after the last current item that the stored items take, from the stored
position `s` and the current position `c` on; `none` when the two sequences disagree. -/
def align (s c : ℕ) : List α → Option ℕ
  | [] => some c
  | a :: as =>
    if (current[c]?).any (same a) then align (s + 1) (c + 1) as
    else if missing s a then
      if (current[c]?).any (standIn c) then align (s + 1) (c + 1) as else align (s + 1) c as
    else none

/-- The current position that each stored item takes. -/
def places (s c : ℕ) : List α → List (Option ℕ)
  | [] => []
  | a :: as =>
    if takes same missing standIn current s c a then some c :: places (s + 1) (c + 1) as
    else none :: places (s + 1) c as

variable {same missing standIn current} {s c n : ℕ} {stored : List α}

variable {a : α}

theorem align_cons_of_takes (h : takes same missing standIn current s c a) :
    align same missing standIn current s c (a :: stored) =
      align same missing standIn current (s + 1) (c + 1) stored := by
  simp only [takes, Bool.or_eq_true, Bool.and_eq_true] at h
  rcases h with h | ⟨hm, hs⟩
  · simp only [align, h, if_true]
  · simp only [align, hm, hs, if_true, ite_self]

theorem align_cons_of_missing (h : ¬ takes same missing standIn current s c a)
    (hm : missing s a) :
    align same missing standIn current s c (a :: stored) =
      align same missing standIn current (s + 1) c stored := by
  simp only [takes, hm, Bool.true_and, Bool.or_eq_true, not_or] at h
  simp only [align, h.1, h.2, hm, if_true, Bool.false_eq_true, if_false]

/-- The two ways a walk goes on past a stored item. -/
theorem align_cons (h : align same missing standIn current s c (a :: stored) = some n) :
    (takes same missing standIn current s c a = true ∧
      align same missing standIn current (s + 1) (c + 1) stored = some n) ∨
    (takes same missing standIn current s c a = false ∧ missing s a = true ∧
      align same missing standIn current (s + 1) c stored = some n) := by
  by_cases ht : takes same missing standIn current s c a = true
  · exact Or.inl ⟨ht, by rw [← h, align_cons_of_takes ht]⟩
  · by_cases hm : missing s a = true
    · exact Or.inr ⟨by simpa using ht, hm, by rw [← h, align_cons_of_missing ht hm]⟩
    · have hsame : (current[c]?).any (same a) = false := by
        simp only [takes, Bool.or_eq_true, not_or] at ht
        simpa using ht.1
      simp only [align, hsame, hm, Bool.false_eq_true, if_false, reduceCtorEq] at h

@[simp] theorem length_places :
    (places same missing standIn current s c stored).length = stored.length := by
  induction stored generalizing s c with
  | nil => rfl
  | cons a as ih =>
    simp only [places]
    split_ifs <;> simp only [List.length_cons, ih]

theorem le_align (h : align same missing standIn current s c stored = some n) : c ≤ n := by
  induction stored generalizing s c with
  | nil => exact Nat.le_of_eq (Option.some.inj h)
  | cons a as ih =>
    rcases align_cons h with ⟨-, h⟩ | ⟨-, -, h⟩
    · exact Nat.le_of_succ_le (ih h)
    · exact ih h

theorem lt_length_of_takes (h : takes same missing standIn current s c a = true) :
    c < current.length := by
  by_contra hc
  simp [takes, List.getElem?_eq_none (Nat.le_of_not_lt hc)] at h

theorem align_le_length (hc : c ≤ current.length)
    (h : align same missing standIn current s c stored = some n) : n ≤ current.length := by
  induction stored generalizing s c with
  | nil => exact Option.some.inj h ▸ hc
  | cons a as ih =>
    rcases align_cons h with ⟨ht, h⟩ | ⟨-, -, h⟩
    · exact ih (lt_length_of_takes ht) h
    · exact ih hc h

theorem align_le_add (h : align same missing standIn current s c stored = some n) :
    n ≤ c + stored.length := by
  induction stored generalizing s c with
  | nil => exact Nat.le_of_eq (Option.some.inj h).symm
  | cons a as ih =>
    rw [List.length_cons]
    rcases align_cons h with ⟨-, h⟩ | ⟨-, -, h⟩
    · have := ih h
      omega
    · have := ih h
      omega

theorem reduceOption_places (h : align same missing standIn current s c stored = some n) :
    (places same missing standIn current s c stored).reduceOption = List.range' c (n - c) := by
  induction stored generalizing s c with
  | nil =>
    obtain rfl : c = n := Option.some.inj h
    simp [places]
  | cons a as ih =>
    rcases align_cons h with ⟨ht, h⟩ | ⟨ht, -, h⟩
    · have hle := le_align h
      obtain ⟨d, rfl⟩ : ∃ d, n = c + 1 + d := ⟨n - (c + 1), by omega⟩
      have hd : c + 1 + d - c = d + 1 := by omega
      simp only [places, ht, if_true, List.reduceOption_cons_of_some, ih h, hd,
        Nat.add_sub_cancel_left, List.range'_succ]
    · simp only [places, ht, Bool.false_eq_true, if_false, List.reduceOption_cons_of_none, ih h]

theorem places_eq_some {j i : ℕ} (h : (places same missing standIn current s c stored)[j]? = some (some i))
    (ha : stored[j]? = some a) :
    ∃ b, current[i]? = some b ∧ (same a b ∨ missing (s + j) a ∧ standIn i b) := by
  induction stored generalizing s c j with
  | nil => simp at ha
  | cons a' as ih =>
    cases j with
    | zero =>
      obtain rfl : a' = a := by simpa using ha
      by_cases ht : takes same missing standIn current s c a' = true
      · obtain rfl : c = i := by simpa [places, ht] using h
        obtain ⟨b, hb⟩ : ∃ b, current[c]? = some b :=
          ⟨_, List.getElem?_eq_getElem (lt_length_of_takes ht)⟩
        exact ⟨b, hb, by simpa [takes, hb] using ht⟩
      · simp [places, ht] at h
    | succ j =>
      have hs : s + (j + 1) = s + 1 + j := by omega
      rw [hs]
      simp only [places] at h
      split_ifs at h
      · exact ih h ha
      · exact ih h ha

theorem places_eq_none {j : ℕ} (halign : align same missing standIn current s c stored = some n)
    (h : (places same missing standIn current s c stored)[j]? = some none)
    (ha : stored[j]? = some a) : missing (s + j) a := by
  induction stored generalizing s c j with
  | nil => simp at ha
  | cons a' as ih =>
    rcases align_cons halign with ⟨ht, halign⟩ | ⟨ht, hm, halign⟩
    · cases j with
      | zero => simp [places, ht] at h
      | succ j =>
        rw [show s + (j + 1) = s + 1 + j by omega]
        exact ih halign (by simpa [places, ht] using h) ha
    · cases j with
      | zero =>
        obtain rfl : a' = a := by simpa using ha
        exact hm
      | succ j =>
        rw [show s + (j + 1) = s + 1 + j by omega]
        exact ih halign (by simpa [places, ht] using h) ha

theorem align_of_forall₂ (h : ∀ j a, stored[j]? = some a → (current[c + j]?).any (same a)) :
    align same missing standIn current s c stored = some (c + stored.length) := by
  induction stored generalizing s c with
  | nil => rfl
  | cons a as ih =>
    have ha : (current[c]?).any (same a) = true := h 0 a rfl
    have has := ih (s := s + 1) (c := c + 1) fun j b hb => by
      rw [show c + 1 + j = c + (j + 1) by omega]
      exact h (j + 1) b hb
    simp only [align, ha, if_true, has, List.length_cons, Option.some.injEq]
    omega

end Foundation.Alignment
