import Mathlib.Data.Set.Basic

/-!
# A cache with an index beside it

A cache holds values under keys, and an index lists keys under labels that it reads off the values. Neither knows of
the other: an operation that brings in a value adds a label, one that drops a value takes away the labels of the value
it drops. Whether the two stay in step is a matter of one key at a time.
-/

namespace Foundation

/-- The value that a cache holds of a key, with the labels that an index lists the key under. -/
@[ext]
structure Listing (ν η : Type*) where
  value : Option ν
  labels : Set η

variable {ν η : Type*} (own : ν → Set η)

namespace Listing

/-- The value is listed under its own labels. -/
def Covered (e : Listing ν η) : Prop := ∀ v, e.value = some v → own v ⊆ e.labels

/-- The key is listed under the labels of its value, and not at all without one. -/
structure InStep (e : Listing ν η) : Prop where
  live : e.value = none → e.labels = ∅
  covered : e.Covered own

/-- The key without its value and without the labels of that. -/
def without (e : Listing ν η) (v : ν) : Listing ν η where
  value := none
  labels := e.labels \ own v

end Listing

open Listing

/-- What an operation does for a key that it does not name: nothing, or it drops the key. -/
inductive Passes (e e' : Listing ν η) : Prop
  | same (h : e' = e)
  | dropped (v : ν) (hv : e.value = some v) (h : e' = e.without own v)

/-- What an operation does for a key: it passes, or it holds a value that is listed. -/
inductive Moves (e e' : Listing ν η) : Prop
  | passes (h : Passes own e e')
  | holds (v : ν) (hv : e'.value = some v) (hcovered : e.Covered own → own v ⊆ e'.labels)

variable {own} {e e' e'' : Listing ν η}

theorem Passes.trans (h : Passes own e e') (h' : Passes own e' e'') : Passes own e e'' := by
  rcases h with rfl | ⟨v, hv, rfl⟩
  · exact h'
  · rcases h' with rfl | ⟨w, hw, -⟩
    · exact .dropped v hv rfl
    · cases hw

theorem Moves.inStep_iff (h : Moves own e e') (hin : e.InStep own) :
    e'.InStep own ↔ ∀ v, e.value = some v → e'.value = none → e.labels ⊆ own v := by
  rcases h with (rfl | ⟨v, hv, rfl⟩) | ⟨v, hv, hcovered⟩
  · refine iff_of_true hin fun v hv hnone => ?_
    rw [hv] at hnone
    cases hnone
  · constructor
    · intro hafter w hw _ label hlabel
      obtain rfl := Option.some.inj (hv.symm.trans hw)
      by_contra hother
      have hlisted : label ∈ (e.without own v).labels := ⟨hlabel, hother⟩
      rw [hafter.live rfl] at hlisted
      exact hlisted
    · intro hown
      refine ⟨fun _ => ?_, fun w hw => ?_⟩
      · ext label
        exact iff_of_false (fun hlabel => hlabel.2 (hown v hv rfl hlabel.1)) (Set.notMem_empty label)
      · cases hw
  · refine iff_of_true ⟨fun hnone => ?_, fun w hw => ?_⟩ fun w _ hnone => ?_
    · rw [hv] at hnone
      cases hnone
    · obtain rfl := Option.some.inj (hv.symm.trans hw)
      exact hcovered hin.covered
    · rw [hv] at hnone
      cases hnone

end Foundation
