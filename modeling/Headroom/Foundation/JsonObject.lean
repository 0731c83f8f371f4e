import Mathlib.Data.List.Nodup
import Mathlib.Data.List.Perm.Basic
import Headroom.Foundation.Json

/-!
# Objects with distinct keys

An object whose keys are distinct is the same as another one exactly if both have the same value under
every key, whatever the order of the fields. Setting and removing fields keep the keys distinct and
touch no other field.
-/

namespace Foundation

namespace Json

/-- The fields of an object. -/
def fields : Json → List (String × Json)
  | .obj fields => fields
  | _ => []

/-- No key of the object comes twice. -/
def Distinct (j : Json) : Prop := (j.fields.map Prod.fst).Nodup

instance (j : Json) : Decidable (Distinct j) := inferInstanceAs (Decidable (List.Nodup _))

variable {j : Json} {key : String} {value : Json} {as bs : List (String × Json)}

theorem get?_eq_some_iff_mem {f : String × Json} (h : (as.map Prod.fst).Nodup) :
    (obj as).get? f.1 = some f.2 ↔ f ∈ as := by
  induction as with
  | nil => simp [get?]
  | cons g as ih =>
    obtain ⟨hg, has⟩ := List.nodup_cons.mp h
    by_cases hgf : g.1 = f.1
    · have hnot : f ∉ as := fun hf => hg (hgf ▸ List.mem_map_of_mem hf)
      simp only [get?, List.find?_cons, hgf, beq_self_eq_true, Option.map_some, Option.some.injEq,
        List.mem_cons, hnot, or_false]
      exact ⟨fun hv => (Prod.ext hgf hv).symm, fun hv => by rw [hv]⟩
    · have hne : f ≠ g := fun hfg => hgf (hfg ▸ rfl)
      have hfind : (obj (g :: as)).get? f.1 = (obj as).get? f.1 := by
        simp [get?, hgf]
      rw [hfind, ih has]
      simp [hne]

theorem perm_of_get? (ha : (as.map Prod.fst).Nodup) (hb : (bs.map Prod.fst).Nodup)
    (h : ∀ key, (obj as).get? key = (obj bs).get? key) : as.Perm bs := by
  refine (List.perm_ext_iff_of_nodup ha.of_map hb.of_map).mpr fun f => ?_
  rw [← get?_eq_some_iff_mem ha, h, get?_eq_some_iff_mem hb]

theorem normFields_perm (h : as.Perm bs) (ha : (as.map Prod.fst).Nodup) :
    norm.normFields as = norm.normFields bs := by
  induction h with
  | nil => rfl
  | cons f _ ih => rw [norm.normFields, norm.normFields, ih (List.nodup_cons.mp ha).2]
  | swap f g l =>
    have hne : g.1 ≠ f.1 := by
      intro hgf
      simp [hgf] at ha
    simp only [norm.normFields]
    exact insertSorted_comm (f := (g.1, g.2.norm)) (g := (f.1, f.2.norm)) hne _
  | trans h₁ _ ih₁ ih₂ =>
    rw [ih₁ ha, ih₂ ((h₁.map Prod.fst).nodup_iff.mp ha)]

theorem sameValue_of_get? (ha : (as.map Prod.fst).Nodup) (hb : (bs.map Prod.fst).Nodup)
    (h : ∀ key, (obj as).get? key = (obj bs).get? key) : SameValue (obj as) (obj bs) :=
  congrArg obj (normFields_perm (perm_of_get? ha hb h) ha)

/-- The same values have the same fields. -/
theorem SameValue.get? {a b : Json} (h : SameValue a b) (key : String) :
    (a.get? key).map norm = (b.get? key).map norm := by
  rw [← get?_norm, ← get?_norm, show a.norm = b.norm from h]

/-! ### Setting and removing fields -/

theorem get?_eq_none_iff : (obj as).get? key = none ↔ key ∉ as.map Prod.fst := by
  simp only [Json.get?, Option.map_eq_none_iff, List.find?_eq_none, List.mem_map, not_exists, not_and,
    beq_iff_eq]

theorem get?_append (key : String) :
    (obj (as ++ bs)).get? key = ((obj as).get? key).or ((obj bs).get? key) := by
  simp only [Json.get?, List.find?_append, Option.map_or]

/-- A removal leaves the other fields, in some order. -/
theorem removeField_perm (key : String) (as : List (String × Json)) :
    (removeField key as).Perm (as.filter fun f => f.1 != key) := by
  simp only [removeField]
  generalize as.filter (fun f => f.1 != key) = rest
  generalize as.findIdx (fun f => f.1 == key) = i
  split_ifs with h
  · have hne : rest.drop i ≠ [] := by
      simpa using h
    have hlast : rest.getLast? = some ((rest.drop i).getLast hne) := by
      rw [← List.getLast?_eq_some_getLast hne, List.getLast?_drop, if_neg (by omega)]
    have hsplit : rest.take i ++ ((rest.drop i).dropLast ++ [(rest.drop i).getLast hne]) = rest := by
      rw [List.dropLast_append_getLast, List.take_append_drop]
    rw [hlast, Option.toList_some, List.append_assoc]
    refine (List.Perm.append_left _ List.perm_append_comm).trans ?_
    rw [hsplit]
  · exact List.Perm.refl _

theorem get?_congr_of_perm (h : as.Perm bs) (ha : (as.map Prod.fst).Nodup) (key : String) :
    (obj as).get? key = (obj bs).get? key := by
  have hb : (bs.map Prod.fst).Nodup := (h.map Prod.fst).nodup_iff.mp ha
  refine Option.ext fun value => ?_
  exact (get?_eq_some_iff_mem (f := (key, value)) ha).trans
    (h.mem_iff.trans (get?_eq_some_iff_mem (f := (key, value)) hb).symm)

theorem nodup_removeField (ha : (as.map Prod.fst).Nodup) (key : String) :
    ((removeField key as).map Prod.fst).Nodup :=
  ((removeField_perm key as).map Prod.fst).nodup_iff.mpr (ha.sublist (List.filter_sublist.map _))

variable {key' : String}

theorem get?_removeField_of_ne (ha : (as.map Prod.fst).Nodup) (hne : key' ≠ key) :
    (obj (removeField key as)).get? key' = (obj as).get? key' := by
  rw [get?_congr_of_perm (removeField_perm key as) (nodup_removeField ha key)]
  simp only [get?, List.find?_filter]
  congr 2
  funext f
  by_cases hf : f.1 = key'
  · simp [hf, hne]
  · simp [hf]

theorem get?_insertField_self : (obj (insertField key value as)).get? key = some value := by
  induction as with
  | nil => simp [insertField, get?]
  | cons f as ih =>
    by_cases hf : f.1 = key
    · simp [insertField, hf, get?]
    · simpa [insertField, hf, get?] using ih

theorem mem_keys_insertField :
    key' ∈ (insertField key value as).map Prod.fst ↔ key' = key ∨ key' ∈ as.map Prod.fst := by
  by_cases hne : key' = key
  · subst hne
    have := get?_eq_none_iff.not.mp (by rw [get?_insertField_self]; nofun :
      (obj (insertField key' value as)).get? key' ≠ none)
    simpa using this
  · have hget : (obj (insertField key value as)).get? key' = (obj as).get? key' :=
      get?_insert_of_ne (j := .obj as) hne
    rw [← not_iff_not, ← get?_eq_none_iff, hget, get?_eq_none_iff]
    simp [hne]

theorem nodup_insertField (ha : (as.map Prod.fst).Nodup) :
    ((insertField key value as).map Prod.fst).Nodup := by
  induction as with
  | nil => simp [insertField]
  | cons f as ih =>
    obtain ⟨hf, has⟩ := List.nodup_cons.mp ha
    rw [insertField]
    split_ifs with hkey
    · obtain rfl : f.1 = key := by simpa using hkey
      exact List.nodup_cons.mpr ⟨hf, has⟩
    · refine List.nodup_cons.mpr ⟨?_, ih has⟩
      rw [mem_keys_insertField]
      rintro (h | h)
      · exact hkey (by simpa using h)
      · exact hf h

theorem insert_comm {value' : Json} (hne : key ≠ key') (h : (j.get? key).isSome)
    (h' : (j.get? key').isSome) :
    (j.insert key' value').insert key value = (j.insert key value).insert key' value' := by
  obtain ⟨v, hv⟩ := Option.isSome_iff_exists.mp h
  obtain ⟨as, rfl⟩ := isObj_of_get? hv
  clear hv
  simp only [Json.get?, Option.isSome_map, List.find?_isSome, beq_iff_eq] at h h'
  refine congrArg obj ?_
  induction as with
  | nil => simp at h
  | cons f as ih =>
    by_cases hf : f.1 = key
    · have hf' : f.1 ≠ key' := fun hf' => hne (hf.symm.trans hf')
      simp [insertField, hf, hne]
    · by_cases hf' : f.1 = key'
      · simp [insertField, hf', Ne.symm hne]
      · have hmem : ∀ k, f.1 ≠ k → (∃ g ∈ f :: as, g.1 = k) → ∃ g ∈ as, g.1 = k := by
          rintro k hk ⟨g, hg, rfl⟩
          rcases List.mem_cons.mp hg with rfl | hg
          · exact absurd rfl hk
          · exact ⟨g, hg, rfl⟩
        simp [insertField, hf, hf', ih (hmem key hf h) (hmem key' hf' h')]

/-! ### Values that are objects -/

@[simp] theorem isObj_insert : (j.insert key value).isObj = j.isObj := by cases j <;> rfl

@[simp] theorem isObj_remove : (j.remove key).isObj = j.isObj := by cases j <;> rfl

theorem Distinct.insert (h : j.Distinct) : (j.insert key value).Distinct := by
  cases j with
  | obj as => exact nodup_insertField h
  | _ => exact h

theorem Distinct.remove (h : j.Distinct) : (j.remove key).Distinct := by
  cases j with
  | obj as => exact nodup_removeField h key
  | _ => exact h

theorem get?_insert_self_of_isObj (h : j.isObj) : (j.insert key value).get? key = some value := by
  cases j with
  | obj as => exact get?_insertField_self
  | _ => exact absurd h nofun

theorem get?_remove_of_ne (h : j.Distinct) (hne : key' ≠ key) :
    (j.remove key).get? key' = j.get? key' := by
  cases j with
  | obj as => exact get?_removeField_of_ne h hne
  | _ => rfl

/-- Two objects with distinct keys are the same when they agree on every key. -/
theorem sameValue_of_agree {a b : Json} (ha : a.isObj) (hb : b.isObj) (ha' : a.Distinct)
    (hb' : b.Distinct) (h : ∀ key, a.get? key = b.get? key) : SameValue a b := by
  cases a with
  | obj as =>
    cases b with
    | obj bs => exact sameValue_of_get? ha' hb' h
    | _ => exact absurd hb nofun
  | _ => exact absurd ha nofun

end Json

end Foundation
