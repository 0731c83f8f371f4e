import Mathlib.Data.List.Nodup
import Mathlib.Data.List.Perm.Basic

/-!
# Least-recently-used caches

A bounded map that keeps its entries from the most to the least recently used and drops the last
one when a new key does not fit. The structure carries its own invariant: the keys are distinct
and their number stays within the capacity.
-/

namespace Foundation

/-- A least-recently-used cache, its entries from the most to the least recently used. -/
structure Lru (κ ν : Type*) where
  capacity : ℕ
  entries : List (κ × ν)
  capacity_pos : 0 < capacity
  nodup : (entries.map Prod.fst).Nodup
  length_le : entries.length ≤ capacity

namespace Lru

variable {κ ν : Type*} [DecidableEq κ]

/-- The empty cache of a capacity, at least one. -/
def empty (capacity : ℕ) (h : 0 < capacity) : Lru κ ν where
  capacity := capacity
  entries := []
  capacity_pos := h
  nodup := List.nodup_nil
  length_le := Nat.zero_le _

/-- The value of a key, without touching its recency. -/
def peek (c : Lru κ ν) (k : κ) : Option ν := (c.entries.find? fun e => e.1 = k).map Prod.snd

/-- Whether a key is held. -/
def contains (c : Lru κ ν) (k : κ) : Bool := (c.peek k).isSome

/-- The entries of all keys but one, in order. -/
def others (c : Lru κ ν) (k : κ) : List (κ × ν) := c.entries.filter fun e => e.1 ≠ k

theorem notMem_others (c : Lru κ ν) (k : κ) : k ∉ (c.others k).map Prod.fst := by
  simp [others]

theorem nodup_others (c : Lru κ ν) (k : κ) : ((c.others k).map Prod.fst).Nodup :=
  c.nodup.sublist (List.filter_sublist.map _)

theorem peek_eq_some_iff (c : Lru κ ν) (k : κ) (v : ν) : c.peek k = some v ↔ (k, v) ∈ c.entries := by
  have general : ∀ l : List (κ × ν), (l.map Prod.fst).Nodup →
      ((l.find? fun e => decide (e.1 = k)).map Prod.snd = some v ↔ (k, v) ∈ l) := by
    intro l
    induction l with
    | nil => simp
    | cons e l ih =>
      intro hl
      obtain ⟨hk, hl⟩ := List.nodup_cons.mp hl
      by_cases he : e.1 = k
      · have hnot : (k, v) ∉ l := fun h => hk (he ▸ List.mem_map_of_mem (f := Prod.fst) h)
        simp only [List.find?_cons, he, decide_true, Option.map_some, Option.some.injEq,
          List.mem_cons, hnot, or_false]
        constructor
        · rintro rfl
          exact Prod.ext he.symm rfl
        · intro h
          rw [← h]
      · have hne : (k, v) ≠ e := fun h => he (h ▸ rfl)
        simp only [List.find?_cons, he, decide_false, List.mem_cons, hne, false_or]
        exact ih hl
  exact general _ c.nodup

variable {k : κ} {v : ν}

theorem length_others_lt (c : Lru κ ν) (h : c.peek k = some v) :
    (c.others k).length < c.entries.length := by
  refine List.length_filter_lt_length_iff_exists.mpr ⟨(k, v), (c.peek_eq_some_iff k v).mp h, ?_⟩
  simp

/-- Make a held key the most recently used and return its value. -/
def get (c : Lru κ ν) (k : κ) : Option ν × Lru κ ν :=
  match h : c.peek k with
  | none => (none, c)
  | some v => (some v,
    { c with
      entries := (k, v) :: c.others k
      nodup := List.nodup_cons.mpr ⟨c.notMem_others k, c.nodup_others k⟩
      length_le := Nat.le_trans (Nat.succ_le_of_lt (c.length_others_lt h)) c.length_le })

/-- The cache with the key's value set and the key made most recent; past the capacity the least
recently used entry goes. -/
def put (c : Lru κ ν) (k : κ) (v : ν) : Lru κ ν where
  capacity := c.capacity
  entries := ((k, v) :: c.others k).take c.capacity
  capacity_pos := c.capacity_pos
  nodup := (List.nodup_cons.mpr ⟨c.notMem_others k, c.nodup_others k⟩ :
    (((k, v) :: c.others k).map Prod.fst).Nodup).sublist ((List.take_sublist _ _).map _)
  length_le := List.length_take_le _ _

/-- The entry that putting a key pushes out: its previous value under the same key, or the least
recently used entry of a full cache. -/
def displaced (c : Lru κ ν) (k : κ) : Option (κ × ν) :=
  match c.peek k with
  | some v => some (k, v)
  | none => if c.entries.length < c.capacity then none else c.entries.getLast?

/-- `put`, with the entry it pushes out. -/
def push (c : Lru κ ν) (k : κ) (v : ν) : Option (κ × ν) × Lru κ ν := (c.displaced k, c.put k v)

/-- Remove a key and return its value. -/
def pop (c : Lru κ ν) (k : κ) : Option ν × Lru κ ν :=
  (c.peek k,
    { c with
      entries := c.others k
      nodup := c.nodup_others k
      length_le := Nat.le_trans (List.length_filter_le _ _) c.length_le })

/-- Remove the least recently used entry and return it. -/
def popLru (c : Lru κ ν) : Option (κ × ν) × Lru κ ν :=
  (c.entries.getLast?,
    { c with
      entries := c.entries.dropLast
      nodup := c.nodup.sublist ((List.dropLast_sublist _).map _)
      length_le := Nat.le_trans (List.dropLast_sublist _).length_le c.length_le })

/-- Change the value of a held key and make the key most recent. -/
def modify (c : Lru κ ν) (k : κ) (f : ν → ν) : Lru κ ν :=
  match c.peek k with
  | none => c
  | some v => c.put k (f v)

/-! ### What a cache holds -/

theorem put_entries (c : Lru κ ν) (k : κ) (v : ν) :
    (c.put k v).entries = (k, v) :: (c.others k).take (c.capacity - 1) := by
  obtain ⟨n, hn⟩ : ∃ n, c.capacity = n + 1 := ⟨c.capacity - 1, by have := c.capacity_pos; omega⟩
  simp only [put, hn, List.take_succ_cons, Nat.add_sub_cancel]

@[simp] theorem peek_put_self (c : Lru κ ν) (k : κ) (v : ν) : (c.put k v).peek k = some v := by
  rw [peek_eq_some_iff, put_entries]
  exact List.mem_cons_self

variable {c : Lru κ ν} {e : κ × ν}

/-- An entry of a cache after an insertion is the new one or an old one. -/
theorem mem_put (h : e ∈ (c.put k v).entries) :
    e = (k, v) ∨ (e ∈ c.entries ∧ e.1 ≠ k) := by
  rw [put_entries, List.mem_cons] at h
  refine h.imp_right fun h => ?_
  simpa [others] using List.mem_of_mem_take h

variable {k' : κ} {v' : ν}

theorem peek_put_of_ne (hk : k' ≠ k)
    (h : (c.put k v).peek k' = some v') : c.peek k' = some v' := by
  rw [peek_eq_some_iff] at h ⊢
  rcases mem_put h with h | h
  · exact absurd (congrArg Prod.fst h) hk
  · exact h.1

theorem put_entries_of_mem (h : c.peek k = some v') :
    (c.put k v).entries = (k, v) :: c.others k := by
  have hlt : (c.others k).length < c.capacity := Nat.lt_of_lt_of_le (c.length_others_lt h) c.length_le
  rw [put_entries, List.take_of_length_le (by omega)]

theorem put_entries_of_lt (h : (c.others k).length < c.capacity) :
    (c.put k v).entries = (k, v) :: c.others k := by
  rw [put_entries, List.take_of_length_le (by omega)]

theorem others_of_peek_eq_none (h : c.peek k = none) : c.others k = c.entries := by
  refine List.filter_eq_self.2 fun e he => decide_eq_true ?_
  rintro rfl
  exact absurd (h.symm.trans ((c.peek_eq_some_iff e.1 e.2).2 he)) nofun

theorem mem_of_displaced (hnone : c.peek k = none)
    (h : c.displaced k = some e) : e ∈ c.entries := by
  simp only [displaced, hnone] at h
  split_ifs at h
  exact List.mem_of_getLast? h

/-- Putting a key that is not held drops the least recently used entry of a full cache, and nothing else. -/
theorem peek_put_of_ne_iff (hk : k' ≠ k) (hnone : c.peek k = none)
    (h : c.peek k' = some v') : (c.put k v).peek k' = some v' ↔ c.displaced k ≠ some (k', v') := by
  have hmem := (c.peek_eq_some_iff k' v').1 h
  have hne : (k', v') ≠ (k, v) := fun heq => hk (congrArg Prod.fst heq)
  have hrest : (c.put k v).peek k' = some v' ↔ (k', v') ∈ c.entries.take (c.capacity - 1) := by
    rw [peek_eq_some_iff, put_entries, others_of_peek_eq_none hnone, List.mem_cons]
    exact or_iff_right hne
  rw [hrest]
  simp only [displaced, hnone]
  split_ifs with hroom
  · rw [List.take_of_length_le (by omega)]
    exact iff_of_true hmem nofun
  have hlength : c.entries.length = c.capacity := Nat.le_antisymm c.length_le (Nat.le_of_not_lt hroom)
  obtain ⟨init, last, hentries⟩ := (List.eq_nil_or_concat' c.entries).resolve_left (List.ne_nil_of_mem hmem)
  have hnodup : init.Nodup ∧ ∀ e ∈ init, e ≠ last := by
    have hnodup := c.nodup.of_map
    rw [hentries, List.nodup_append] at hnodup
    exact ⟨hnodup.1, fun e he => hnodup.2.2 e he last (by simp)⟩
  have htake : c.entries.take (c.capacity - 1) = init := by
    rw [← hlength, hentries, List.length_append, List.length_singleton, Nat.add_sub_cancel, List.take_left]
  rw [htake, hentries, List.getLast?_concat, ne_eq, Option.some.injEq]
  rw [hentries, List.mem_append, List.mem_singleton] at hmem
  constructor
  · intro hin heq
    exact hnodup.2 _ hin heq.symm
  · intro hlast
    exact hmem.resolve_right fun heq => hlast heq.symm

/-- Putting a key leaves every other key that it does not push out. -/
theorem peek_put_of_not_displaced (hk : k' ≠ k)
    (h : ∀ v', c.displaced k ≠ some (k', v')) : (c.put k v).peek k' = c.peek k' := by
  rcases hheld : c.peek k with _ | w
  · rcases hother : c.peek k' with _ | v'
    · rw [Option.eq_none_iff_forall_ne_some]
      intro v' hv'
      rw [peek_put_of_ne hk hv'] at hother
      exact Option.some_ne_none _ hother
    · exact (peek_put_of_ne_iff hk hheld hother).mpr (h v')
  · ext v'
    rw [peek_eq_some_iff, peek_eq_some_iff, put_entries_of_mem hheld]
    simp [others, hk]

theorem peek_put_of_displaced (hk : k' ≠ k)
    (h : c.displaced k = some (k', v')) : c.peek k' = some v' ∧ (c.put k v).peek k' = none := by
  have hnone : c.peek k = none := by
    rw [Option.eq_none_iff_forall_ne_some]
    intro w hw
    rw [displaced, hw] at h
    exact hk (congrArg Prod.fst (Option.some.inj h)).symm
  have hheld : c.peek k' = some v' := (c.peek_eq_some_iff k' v').mpr (mem_of_displaced hnone h)
  refine ⟨hheld, ?_⟩
  rw [Option.eq_none_iff_forall_ne_some]
  intro w hw
  obtain rfl := Option.some.inj ((peek_put_of_ne hk hw).symm.trans hheld)
  exact (peek_put_of_ne_iff hk hnone hheld).mp hw h

theorem get_fst (c : Lru κ ν) (k : κ) : (c.get k).1 = c.peek k := by
  unfold get
  split <;> simp_all

theorem mem_get (c : Lru κ ν) (k : κ) (e : κ × ν) : e ∈ (c.get k).2.entries ↔ e ∈ c.entries := by
  unfold get
  split
  · rfl
  · rename_i v hv
    have hmem : (k, v) ∈ c.entries := (c.peek_eq_some_iff k v).mp hv
    simp only [others, List.mem_cons, List.mem_filter, decide_not, Bool.not_eq_eq_eq_not,
      Bool.not_true, decide_eq_false_iff_not]
    constructor
    · rintro (rfl | h)
      · exact hmem
      · exact h.1
    · intro he
      by_cases hk : e.1 = k
      · left
        have : c.peek e.1 = some e.2 := (c.peek_eq_some_iff _ _).mpr he
        rw [hk, hv] at this
        exact Prod.ext hk (Option.some.inj this).symm
      · exact Or.inr ⟨he, hk⟩

@[simp] theorem peek_get (c : Lru κ ν) (k k' : κ) : (c.get k).2.peek k' = c.peek k' := by
  ext v
  rw [peek_eq_some_iff, peek_eq_some_iff, mem_get]

@[simp] theorem peek_pop_self (c : Lru κ ν) (k : κ) : (c.pop k).2.peek k = none := by
  rw [Option.eq_none_iff_forall_ne_some]
  intro v h
  rw [peek_eq_some_iff] at h
  simp [pop, others] at h

theorem mem_pop :
    e ∈ (c.pop k).2.entries ↔ e ∈ c.entries ∧ e.1 ≠ k := by
  simp [pop, others]

theorem peek_pop_of_ne (hk : k' ≠ k) :
    (c.pop k).2.peek k' = c.peek k' := by
  ext v
  rw [peek_eq_some_iff, peek_eq_some_iff, mem_pop]
  simp [hk]

/-- What is held after a removal was held before it. -/
theorem peek_of_peek_pop (h : (c.pop k).2.peek k' = some v) :
    c.peek k' = some v := by
  rw [peek_eq_some_iff] at h ⊢
  exact (mem_pop.mp h).1

theorem peek_of_peek_popLru (h : c.popLru.2.peek k = some v) :
    c.peek k = some v := by
  rw [peek_eq_some_iff] at h ⊢
  exact (List.dropLast_sublist _).mem h

theorem peek_modify_of_ne {f : ν → ν} (hk : k' ≠ k)
    (h : (c.modify k f).peek k' = some v) : c.peek k' = some v := by
  unfold modify at h
  split at h
  · exact h
  · exact peek_put_of_ne hk h

theorem peek_modify_self (c : Lru κ ν) (k : κ) (f : ν → ν) :
    (c.modify k f).peek k = (c.peek k).map f := by
  unfold modify
  split
  · rename_i h
    simp [h]
  · rename_i v h
    simp [h]

@[simp] theorem peek_empty (capacity : ℕ) (h : 0 < capacity) (k : κ) :
    (empty capacity h : Lru κ ν).peek k = none := rfl

end Lru

end Foundation
