import Mathlib.Data.Finset.Card

/-!
# Enrolment within a quota

The elements of a queue are enrolled to a set in order, as long as there is room. An element that is
in the set takes no room. Which elements are enrolled depends only on the order in which they first
come up.
-/

namespace Foundation.Quota

variable {α : Type*} [DecidableEq α]

/-- Enroll the elements of a queue while there is room. -/
def enroll : List α → Finset α × ℕ → Finset α × ℕ
  | [], state => state
  | a :: queue, (s, room) =>
    if a ∉ s ∧ 0 < room then enroll queue (insert a s, room - 1) else enroll queue (s, room)

/-- The elements of a queue that are not in a set, each where it first comes up. -/
def fresh (s : Finset α) : List α → List α
  | [] => []
  | a :: queue => if a ∈ s then fresh s queue else a :: fresh (insert a s) queue

variable {s t : Finset α} {a : α}

theorem enroll_append (queue queue' : List α) (state : Finset α × ℕ) :
    enroll (queue ++ queue') state = enroll queue' (enroll queue state) := by
  induction queue generalizing state with
  | nil => rfl
  | cons a queue ih =>
    rw [List.cons_append, enroll, enroll]
    split_ifs
    · exact ih _
    · exact ih _

theorem enroll_of_no_room (queue : List α) : enroll queue (s, 0) = (s, 0) := by
  induction queue with
  | nil => rfl
  | cons a queue ih => rw [enroll, if_neg (by omega), ih]

/-- The first fresh elements of the queue are enrolled, as many as there is room for. -/
theorem enroll_eq (queue : List α) (s : Finset α) (room : ℕ) : enroll queue (s, room) =
    (s ∪ ((fresh s queue).take room).toFinset, room - (fresh s queue).length) := by
  induction queue generalizing s room with
  | nil => simp [enroll, fresh]
  | cons a queue ih =>
    rw [enroll, fresh]
    by_cases ha : a ∈ s
    · rw [if_neg (fun h => h.1 ha), if_pos ha, ih]
    · rcases Nat.eq_zero_or_pos room with rfl | hroom
      · rw [if_neg (by omega), enroll_of_no_room]
        simp
      · obtain ⟨room, rfl⟩ : ∃ k, room = k + 1 := ⟨room - 1, by omega⟩
        rw [if_pos ⟨ha, hroom⟩, if_neg ha, Nat.add_sub_cancel, ih, List.take_succ_cons,
          List.toFinset_cons, List.length_cons]
        refine Prod.ext ?_ (by dsimp only; omega)
        ext x
        simp only [Finset.mem_union, Finset.mem_insert]
        tauto

theorem fresh_filter (queue : List α) (h : t ⊆ s) :
    fresh s (queue.filter fun a => a ∉ t) = fresh s queue := by
  induction queue generalizing s with
  | nil => rfl
  | cons a queue ih =>
    by_cases ha : a ∈ t
    · rw [List.filter_cons_of_neg (by simpa using ha), fresh, if_pos (h ha), ih h]
    · rw [List.filter_cons_of_pos (by simpa using ha), fresh, fresh, ih h,
        ih (h.trans (Finset.subset_insert a s))]

theorem enroll_filter (queue : List α) (room : ℕ) (h : t ⊆ s) :
    enroll (queue.filter fun a => a ∉ t) (s, room) = enroll queue (s, room) := by
  rw [enroll_eq, enroll_eq, fresh_filter queue h]

end Foundation.Quota
