import Mathlib.Data.List.Perm.Basic

/-!
# Shelves

A shelf keeps entries in the order in which their keys came. Setting a key that is there changes its value
in its place; a key that is not there goes to the end, and where the shelf is full the first entry makes
room for it. `laidOut` is the shelf of a queue of keys and the values that some of them have: a key of the
queue without a value takes no place.
-/

namespace Foundation

variable {κ ν : Type*}

/-- Entries in the order in which their keys came. -/
abbrev Shelf (κ ν : Type*) := List (κ × ν)

namespace Shelf

/-- The keys of a queue that have a value, in order, each with its value. -/
def laidOut (order : List κ) (value : κ → Option ν) : Shelf κ ν :=
  order.filterMap fun k => (value k).map fun v => (k, v)

variable {order : List κ} {value : κ → Option ν} {k : κ} {v : ν}

theorem laidOut_cons_some (h : value k = some v) :
    laidOut (k :: order) value = (k, v) :: laidOut order value := by
  simp [laidOut, h]

theorem laidOut_cons_none (h : value k = none) : laidOut (k :: order) value = laidOut order value := by
  simp [laidOut, h]

theorem laidOut_append (order order' : List κ) (value : κ → Option ν) :
    laidOut (order ++ order') value = laidOut order value ++ laidOut order' value := List.filterMap_append

theorem map_fst_laidOut (order : List κ) (value : κ → Option ν) :
    (laidOut order value).map Prod.fst = order.filter fun k => (value k).isSome := by
  induction order with
  | nil => rfl
  | cons k order ih =>
    cases hv : value k with
    | none => rw [laidOut_cons_none hv, ih, List.filter_cons_of_neg (by simp [hv])]
    | some v => rw [laidOut_cons_some hv, List.map_cons, ih, List.filter_cons_of_pos (by simp [hv])]

theorem laidOut_congr {value' : κ → Option ν} (h : ∀ k ∈ order, value k = value' k) :
    laidOut order value = laidOut order value' :=
  List.filterMap_congr fun k hk => by rw [h k hk]

variable [DecidableEq κ]

/-- The value under a key. -/
def find? (l : Shelf κ ν) (k : κ) : Option ν := (List.find? (fun e => e.1 = k) l).map Prod.snd

/-- The shelf with another value under a key, in the same place. -/
def replace (l : Shelf κ ν) (k : κ) (v : ν) : Shelf κ ν := l.map fun e => if e.1 = k then (k, v) else e

def without (l : Shelf κ ν) (k : κ) : Shelf κ ν := l.filter fun e => e.1 ≠ k

/-- Set a key: in its place, or at the end, where on a full shelf the first entry makes room. -/
def put (capacity : ℕ) (l : Shelf κ ν) (k : κ) (v : ν) : Shelf κ ν :=
  if (l.find? k).isSome then l.replace k v
  else (if capacity ≤ l.length then l.tail else l) ++ [(k, v)]

theorem find?_laidOut (h : (value k).isSome → k ∈ order) : (laidOut order value).find? k = value k := by
  induction order with
  | nil =>
    have hnone : value k = none := by simpa using h
    rw [hnone]
    rfl
  | cons k' order ih =>
    by_cases hk : k' = k
    · subst hk
      cases hv : value k' with
      | none =>
        rw [laidOut_cons_none hv, ih (by simp [hv]), hv]
      | some v =>
        rw [laidOut_cons_some hv]
        simp [find?]
    · have hrest := ih fun hsome => (List.mem_cons.1 (h hsome)).resolve_left (Ne.symm hk)
      cases hv : value k' with
      | none => rw [laidOut_cons_none hv, hrest]
      | some v =>
        rw [laidOut_cons_some hv, ← hrest]
        simp [find?, hk]

theorem laidOut_update (h : (value k).isSome) :
    laidOut order (Function.update value k (some v)) = (laidOut order value).replace k v := by
  induction order with
  | nil => rfl
  | cons k' order ih =>
    by_cases hk : k' = k
    · subst hk
      obtain ⟨w, hw⟩ := Option.isSome_iff_exists.1 h
      rw [laidOut_cons_some (Function.update_self ..), laidOut_cons_some hw, ih]
      simp [replace]
    · have hother : Function.update value k (some v) k' = value k' := Function.update_of_ne hk ..
      cases hv : value k' with
      | none => rw [laidOut_cons_none (hother.trans hv), laidOut_cons_none hv, ih]
      | some w =>
        rw [laidOut_cons_some (hother.trans hv), laidOut_cons_some hv, ih]
        simp [replace, hk]

theorem laidOut_erase : laidOut order (Function.update value k none) = (laidOut order value).without k := by
  induction order with
  | nil => rfl
  | cons k' order ih =>
    by_cases hk : k' = k
    · subst hk
      rw [laidOut_cons_none (Function.update_self ..), ih]
      cases hv : value k' with
      | none => rw [laidOut_cons_none hv]
      | some w => simp [laidOut_cons_some hv, without]
    · have hother : Function.update value k none k' = value k' := Function.update_of_ne hk ..
      cases hv : value k' with
      | none => rw [laidOut_cons_none (hother.trans hv), laidOut_cons_none hv, ih]
      | some w =>
        rw [laidOut_cons_some (hother.trans hv), laidOut_cons_some hv, ih]
        simp [without, hk]

theorem laidOut_pop {before after : List κ} (hbefore : ∀ k' ∈ before, value k' = none)
    (hk : (value k).isSome) (hafter : k ∉ after) :
    laidOut after (Function.update value k none) = (laidOut (before ++ k :: after) value).tail := by
  obtain ⟨v, hv⟩ := Option.isSome_iff_exists.1 hk
  have hnone : laidOut before value = [] :=
    List.filterMap_eq_nil_iff.2 fun k' hk' => by rw [hbefore k' hk', Option.map_none]
  rw [laidOut_append, hnone, List.nil_append, laidOut_cons_some hv, List.tail_cons]
  refine laidOut_congr fun k' hk' => ?_
  have hne : k' ≠ k := fun heq => hafter (heq ▸ hk')
  exact Function.update_of_ne hne ..

end Shelf

end Foundation
