import Mathlib.Data.List.Nodup
import Mathlib.Algebra.GroupWithZero.Nat
import Mathlib.Algebra.Order.BigOperators.Group.List
import Mathlib.Algebra.Order.Group.Nat

/-!
# Least-recently-used caches within a budget

A map that keeps its entries from the most to the least recently used, each at a cost, and drops
the last ones while they cost more than a budget. The newest entry stays whatever it costs.
-/

namespace Foundation

/-- A least-recently-used cache with costs, its entries from the most to the least recently used. -/
structure BudgetedLru (κ ν : Type*) (cost : ν → ℕ) where
  budget : ℕ
  entries : List (κ × ν)
  nodup : (entries.map Prod.fst).Nodup
  within : (entries.map fun e => cost e.2).sum ≤ budget ∨ entries.length ≤ 1

namespace BudgetedLru

variable {κ ν : Type*} {cost : ν → ℕ}

/-- The empty cache of a budget. -/
def empty (budget : ℕ) : BudgetedLru κ ν cost where
  budget := budget
  entries := []
  nodup := List.nodup_nil
  within := Or.inr (Nat.zero_le _)

/-- Drop entries from the end while they cost more than the budget, for so many rounds. -/
def evict (cost : ν → ℕ) (budget : ℕ) : ℕ → List (κ × ν) → List (κ × ν)
  | 0, entries => entries
  | rounds + 1, entries =>
    if budget < (entries.map fun e => cost e.2).sum ∧ 1 < entries.length then
      evict cost budget rounds entries.dropLast
    else entries

theorem evict_sublist (cost : ν → ℕ) (budget rounds : ℕ) (entries : List (κ × ν)) :
    List.Sublist (evict cost budget rounds entries) entries := by
  induction rounds generalizing entries with
  | zero => exact List.Sublist.refl _
  | succ rounds ih =>
    rw [evict]
    split_ifs
    · exact (ih _).trans (List.dropLast_sublist entries)
    · exact List.Sublist.refl _

theorem evict_within (cost : ν → ℕ) (budget rounds : ℕ) {entries : List (κ × ν)}
    (h : entries.length ≤ rounds + 1) :
    ((evict cost budget rounds entries).map fun e => cost e.2).sum ≤ budget ∨
      (evict cost budget rounds entries).length ≤ 1 := by
  induction rounds generalizing entries with
  | zero => exact Or.inr h
  | succ rounds ih =>
    rw [evict]
    split_ifs with hover
    · refine ih ?_
      rw [List.length_dropLast]
      omega
    · omega

variable [DecidableEq κ]

/-- The value of a key, without touching its recency. -/
def peek (c : BudgetedLru κ ν cost) (k : κ) : Option ν :=
  (c.entries.find? fun e => e.1 = k).map Prod.snd

/-- The entries of all keys but one, in order. -/
def others (c : BudgetedLru κ ν cost) (k : κ) : List (κ × ν) := c.entries.filter fun e => e.1 ≠ k

theorem notMem_others (c : BudgetedLru κ ν cost) (k : κ) : k ∉ (c.others k).map Prod.fst := by
  simp [others]

theorem others_sublist (c : BudgetedLru κ ν cost) (k : κ) : List.Sublist (c.others k) c.entries :=
  List.filter_sublist

theorem nodup_others (c : BudgetedLru κ ν cost) (k : κ) : ((c.others k).map Prod.fst).Nodup :=
  c.nodup.sublist ((c.others_sublist k).map _)

variable {c : BudgetedLru κ ν cost} {k : κ} {v : ν}

theorem mem_of_peek (h : c.peek k = some v) :
    (k, v) ∈ c.entries := by
  obtain ⟨e, he, rfl⟩ := Option.map_eq_some_iff.mp h
  have hk : e.1 = k := of_decide_eq_true (List.find?_some (p := fun e : κ × ν => decide (e.1 = k)) he)
  rw [← hk]
  exact List.mem_of_find?_eq_some he

theorem perm_of_mem (h : (k, v) ∈ c.entries) :
    List.Perm c.entries ((k, v) :: c.others k) := by
  have general : ∀ l : List (κ × ν), (l.map Prod.fst).Nodup → (k, v) ∈ l →
      List.Perm l ((k, v) :: l.filter fun e => e.1 ≠ k) := by
    intro l
    induction l with
    | nil => exact fun _ h => absurd h List.not_mem_nil
    | cons e l ih =>
      intro hl hmem
      obtain ⟨hk, hl⟩ := List.nodup_cons.mp hl
      rcases List.mem_cons.mp hmem with rfl | hmem
      · have hrest : l.filter (fun e => decide (e.1 ≠ k)) = l :=
          List.filter_eq_self.mpr fun e he => decide_eq_true fun h => hk (List.mem_map.mpr ⟨e, he, h⟩)
        rw [List.filter_cons_of_neg (by simp), hrest]
      · have hne : e.1 ≠ k := fun h => hk (h ▸ List.mem_map_of_mem (f := Prod.fst) hmem)
        rw [List.filter_cons_of_pos (by simpa using hne)]
        exact ((ih hl hmem).cons e).trans (List.Perm.swap _ _ _)
  exact general _ c.nodup h

omit [DecidableEq κ] in
theorem within_of_sublist {entries : List (κ × ν)}
    (h : List.Sublist entries c.entries) :
    (entries.map fun e => cost e.2).sum ≤ c.budget ∨ entries.length ≤ 1 :=
  c.within.imp (fun hc => ((h.map fun e : κ × ν => cost e.2).sum_le_sum fun _ _ => Nat.zero_le _).trans hc)
    fun hc => h.length_le.trans hc

/-- Make a held key the most recently used, with a value of the same cost. -/
def refresh (c : BudgetedLru κ ν cost) (k : κ) (f : ν → ν) (hf : ∀ v, cost (f v) = cost v) :
    BudgetedLru κ ν cost :=
  match h : c.peek k with
  | none => c
  | some v =>
    { c with
      entries := (k, f v) :: c.others k
      nodup := List.nodup_cons.mpr ⟨c.notMem_others k, c.nodup_others k⟩
      within := by
        have hperm := perm_of_mem (mem_of_peek h)
        have hsum := (hperm.map fun e => cost e.2).sum_eq
        have hlen := hperm.length_eq
        rw [List.map_cons, List.sum_cons, hf]
        rw [List.map_cons, List.sum_cons] at hsum
        rw [List.length_cons] at hlen ⊢
        rw [← hsum, ← hlen]
        exact c.within }

/-- Remove a key. -/
def remove (c : BudgetedLru κ ν cost) (k : κ) : BudgetedLru κ ν cost where
  budget := c.budget
  entries := c.others k
  nodup := c.nodup_others k
  within := within_of_sublist (c.others_sublist k)

/-- The cache with the key's value set and the key made most recent; past the budget the least
recently used entries go. -/
def put (c : BudgetedLru κ ν cost) (k : κ) (v : ν) : BudgetedLru κ ν cost where
  budget := c.budget
  entries := evict cost c.budget (c.others k).length ((k, v) :: c.others k)
  nodup := (List.nodup_cons.mpr ⟨c.notMem_others k, c.nodup_others k⟩ :
    (((k, v) :: c.others k).map Prod.fst).Nodup).sublist ((evict_sublist ..).map _)
  within := evict_within cost c.budget _ le_rfl

/-! ### What a cache holds -/

variable {e : κ × ν}

theorem mem_remove (h : e ∈ (c.remove k).entries) :
    e ∈ c.entries :=
  (c.others_sublist k).subset h

/-- An entry of a cache after an insertion is the new one or an old one. -/
theorem mem_put (h : e ∈ (c.put k v).entries) : e = (k, v) ∨ e ∈ c.entries :=
  (List.mem_cons.mp ((evict_sublist ..).subset h)).imp_right fun h => (c.others_sublist k).subset h

theorem mem_refresh {f : ν → ν} (hf : ∀ v, cost (f v) = cost v) (h : e ∈ (c.refresh k f hf).entries) :
    e ∈ c.entries ∨ ∃ v, (k, v) ∈ c.entries ∧ e = (k, f v) := by
  unfold refresh at h
  split at h
  · exact Or.inl h
  · rename_i v hv
    rcases List.mem_cons.mp h with rfl | h
    · exact Or.inr ⟨v, mem_of_peek hv, rfl⟩
    · exact Or.inl ((c.others_sublist k).subset h)

end BudgetedLru

end Foundation
