import Headroom.PrefixReplay.Compare

/-!
# Equal messages compare equal

A client may send the fields of an object in another order. The projection that messages are
compared by does not see that order: each of its passes reads fields by name, and what it makes of
an object is sorted before it is compared.
-/

open Foundation

namespace Headroom.PrefixReplay

/-! ### Fields read by name -/

section

variable {a b : Json} (h : Json.SameValue a b)

include h

theorem getStr?_of_sameValue (key : String) : a.getStr? key = b.getStr? key := by
  have text : ∀ j : Json, (Json.norm j).asStr? = j.asStr? := by
    intro j
    cases j <;> rfl
  have field : ∀ j : Json, j.getStr? key = ((j.norm).get? key).bind Json.asStr? := by
    intro j
    rw [Json.getStr?, Json.get?_norm]
    cases j.get? key with
    | none => rfl
    | some v => exact (text v).symm
  rw [field a, field b, h]

theorem isTextBlock_of_sameValue : isTextBlock a = isTextBlock b := by
  rw [isTextBlock, isTextBlock, getStr?_of_sameValue h]

theorem isEphemeralClientBlock_of_sameValue :
    isEphemeralClientBlock a = isEphemeralClientBlock b := by
  rw [isEphemeralClientBlock, isEphemeralClientBlock, isTextBlock_of_sameValue h,
    getStr?_of_sameValue h]

theorem blockCarriesEphemeralSpan_of_sameValue :
    blockCarriesEphemeralSpan a = blockCarriesEphemeralSpan b := by
  rw [blockCarriesEphemeralSpan, blockCarriesEphemeralSpan, isTextBlock_of_sameValue h,
    getStr?_of_sameValue h]

theorem eq_empty_of_sameValue (ha : a = .obj []) : b = .obj [] := by
  have nonempty : ∀ (f : String × Json) fields, Json.insertSorted f fields ≠ [] := by
    intro f fields
    cases fields with
    | nil => exact List.cons_ne_nil _ _
    | cons g gs =>
      simp only [Json.insertSorted]
      split_ifs
      · exact List.cons_ne_nil _ _
      · exact List.cons_ne_nil _ _
  subst ha
  cases b with
  | obj fields =>
    cases fields with
    | nil => rfl
    | cons f fs => exact absurd (Json.obj.inj h).symm (nonempty _ _)
  | null => cases h
  | bool v => cases h
  | num literal => cases h
  | str s => cases h
  | arr items => cases h

end

/-! ### The passes over an array -/

theorem isSome_get?_of_getStr? {key : String} {j : Json} {text : String}
    (h : j.getStr? key = some text) : (j.get? key).isSome := by
  obtain ⟨v, hv, -⟩ := Option.bind_eq_some_iff.mp h
  exact Option.isSome_iff_exists.mpr ⟨v, hv⟩

variable {a b : Json}

theorem withoutEphemeralSpans_congr (h : Json.SameValue a b) :
    (withoutEphemeralSpans a).map Json.norm = (withoutEphemeralSpans b).map Json.norm := by
  simp only [withoutEphemeralSpans, blockCarriesEphemeralSpan_of_sameValue h,
    getStr?_of_sameValue h]
  split_ifs with hcarries hspans hkept
  · exact congrArg some h
  · exact congrArg some h
  · rfl
  · refine congrArg some (Json.SameValue.insert h ?_)
    simp only [Bool.not_eq_true', Bool.not_eq_false, blockCarriesEphemeralSpan,
      Bool.and_eq_true] at hcarries
    cases htext : b.getStr? "text" with
    | none => simp [htext] at hcarries
    | some text => exact isSome_get?_of_getStr? ((getStr?_of_sameValue h "text").trans htext)

theorem trimTextBlock_congr (h : Json.SameValue a b) :
    (trimTextBlock a).map Json.norm = (trimTextBlock b).map Json.norm := by
  simp only [trimTextBlock, isTextBlock_of_sameValue h, getStr?_of_sameValue h]
  split_ifs
  · exact congrArg some h
  · cases htext : b.getStr? "text" with
    | none => exact congrArg some h
    | some text =>
      dsimp only
      split_ifs
      · rfl
      · exact congrArg some h
      · exact congrArg some (Json.SameValue.insert h
          (isSome_get?_of_getStr? ((getStr?_of_sameValue h "text").trans htext)))

variable {xs ys : List Json}

/-- A pass that makes the same of values that are the same, on items that are the same. -/
theorem filterMap_congr_norm {f : Json → Option Json}
    (hf : ∀ a b, Json.SameValue a b → (f a).map Json.norm = (f b).map Json.norm) (h : xs.map Json.norm = ys.map Json.norm) :
    (xs.filterMap f).map Json.norm = (ys.filterMap f).map Json.norm := by
  induction xs generalizing ys with
  | nil =>
    rw [List.map_eq_nil_iff.mp h.symm]
  | cons x xs ih =>
    cases ys with
    | nil => cases h
    | cons y ys =>
      obtain ⟨hxy, hrest⟩ := List.cons.inj h
      have hhead := hf x y hxy
      simp only [List.filterMap_cons]
      cases hx : f x with
      | none =>
        rw [hx] at hhead
        rw [Option.map_eq_none_iff.mp hhead.symm]
        exact ih hrest
      | some v =>
        rw [hx, Option.map_some] at hhead
        obtain ⟨w, hw, hwv⟩ := Option.map_eq_some_iff.mp hhead.symm
        simp only [hw, List.map_cons, hwv, ih hrest]

theorem filter_congr_norm {p : Json → Bool} (hp : ∀ a b, Json.SameValue a b → p a = p b)
    (h : xs.map Json.norm = ys.map Json.norm) :
    (xs.filter p).map Json.norm = (ys.filter p).map Json.norm := by
  have hguard : ∀ l : List Json, l.filter p = l.filterMap (Option.guard fun x => p x) := by
    intro l
    rw [List.filterMap_eq_filter]
  rw [hguard, hguard]
  refine filterMap_congr_norm (fun a b hab => ?_) h
  simp only [Option.guard, hp a b hab]
  split_ifs
  · exact congrArg some hab
  · rfl

theorem keepCanonical_congr (h : xs.map Json.norm = ys.map Json.norm) :
    (keepCanonical xs).map Json.norm = (keepCanonical ys).map Json.norm := by
  refine filterMap_congr_norm (fun a b => trimTextBlock_congr) ?_
  refine filter_congr_norm (fun a b hab => ?_) ?_
  · rw [isEphemeralClientBlock_of_sameValue hab]
  refine filterMap_congr_norm (fun a b => withoutEphemeralSpans_congr) ?_
  refine filter_congr_norm (fun a b hab => ?_) h
  by_cases ha : a = .obj []
  · simp [ha, eq_empty_of_sameValue hab ha]
  · have hb : b ≠ .obj [] := fun hb => ha (eq_empty_of_sameValue hab.symm hb)
    simp [ha, hb]

/-! ### The fields of an object -/

/-- What the projection keeps of a field. -/
def canonicalField (key : String) (val : Json) : Option Json :=
  if isNonSemantic key then none
  else if isOpaquePayload key then some val
  else
    match key == "content", val.asStr? with
    | true, some text => some (.arr (keepCanonical [textBlock text]))
    | _, _ => some (canonicalizeForPrefixCompare val)

/-- Insert what is kept of a field among sorted fields. -/
def insertKept (key : String) (kept : Option Json) (fields : List (String × Json)) :
    List (String × Json) :=
  match kept with
  | none => fields
  | some val => Json.insertSorted (key, val.norm) fields

/-- The projection of an object goes field by field. -/
theorem normFields_canonicalFields_cons (key : String) (val : Json)
    (fields : List (String × Json)) :
    Json.norm.normFields (canonicalizeForPrefixCompare.canonicalFields ((key, val) :: fields)) =
      insertKept key (canonicalField key val)
        (Json.norm.normFields (canonicalizeForPrefixCompare.canonicalFields fields)) := by
  simp only [canonicalizeForPrefixCompare.canonicalFields, canonicalField]
  split_ifs
  · rfl
  · rfl
  · cases key == "content" with
    | false => rfl
    | true =>
      cases val.asStr? with
      | none => rfl
      | some text => rfl

theorem insertKept_comm {key key' : String} (h : key ≠ key') (kept kept' : Option Json)
    (fields : List (String × Json)) :
    insertKept key kept (insertKept key' kept' fields) =
      insertKept key' kept' (insertKept key kept fields) := by
  cases kept with
  | none => rfl
  | some val =>
    cases kept' with
    | none => rfl
    | some val' => exact Json.insertSorted_comm h fields

theorem normFields_canonicalFields_insertSorted (key : String) (val : Json)
    (fields : List (String × Json)) :
    Json.norm.normFields
        (canonicalizeForPrefixCompare.canonicalFields (Json.insertSorted (key, val) fields)) =
      insertKept key (canonicalField key val)
        (Json.norm.normFields (canonicalizeForPrefixCompare.canonicalFields fields)) := by
  induction fields with
  | nil => exact normFields_canonicalFields_cons key val []
  | cons g gs ih =>
    simp only [Json.insertSorted]
    split_ifs with hle
    · exact normFields_canonicalFields_cons key val (g :: gs)
    · have hne : key ≠ g.1 := fun heq => hle (le_of_eq heq)
      rw [normFields_canonicalFields_cons, normFields_canonicalFields_cons, ih,
        insertKept_comm hne]

/-! ### The projection -/

mutual

/-- The projection of a normal form is that of the value. -/
theorem norm_canonicalize : ∀ j : Json,
    (canonicalizeForPrefixCompare j.norm).norm = (canonicalizeForPrefixCompare j).norm
  | .null => rfl
  | .bool _ => rfl
  | .num _ => rfl
  | .str _ => rfl
  | .arr items => by
    simp only [Json.norm, canonicalizeForPrefixCompare, Json.arr.injEq, Json.normItems_eq_map]
    exact keepCanonical_congr (map_norm_canonicalItems items)
  | .obj fields => congrArg Json.obj (normFields_canonicalFields fields)

theorem map_norm_canonicalItems : ∀ items : List Json,
    (canonicalizeForPrefixCompare.canonicalItems (items.map Json.norm)).map Json.norm =
      (canonicalizeForPrefixCompare.canonicalItems items).map Json.norm
  | [] => rfl
  | j :: js => by
    simp only [List.map_cons, canonicalizeForPrefixCompare.canonicalItems, norm_canonicalize j,
      map_norm_canonicalItems js]

theorem normFields_canonicalFields : ∀ fields : List (String × Json),
    Json.norm.normFields
        (canonicalizeForPrefixCompare.canonicalFields (Json.norm.normFields fields)) =
      Json.norm.normFields (canonicalizeForPrefixCompare.canonicalFields fields)
  | [] => rfl
  | (key, val) :: fs => by
    have hval : (canonicalField key val.norm).map Json.norm =
        (canonicalField key val).map Json.norm := by
      simp only [canonicalField]
      split_ifs
      · rfl
      · exact congrArg some (Json.norm_norm val)
      · have htext : val.norm.asStr? = val.asStr? := by
          cases val <;> rfl
        rw [htext]
        split
        · rfl
        · exact congrArg some (norm_canonicalize val)
    have hkept : ∀ fields, insertKept key (canonicalField key val.norm) fields =
        insertKept key (canonicalField key val) fields := by
      intro fields
      cases hl : canonicalField key val.norm with
      | none =>
        rw [hl] at hval
        rw [Option.map_eq_none_iff.mp hval.symm]
      | some v =>
        rw [hl, Option.map_some] at hval
        obtain ⟨w, hw, hwv⟩ := Option.map_eq_some_iff.mp hval.symm
        simp only [hw, insertKept, hwv]
    simp only [Json.norm.normFields, normFields_canonicalFields_insertSorted,
      normFields_canonicalFields_cons, normFields_canonicalFields fs, hkept]

end

theorem messageKey_eq_of_sameValue (h : Json.SameValue a b) :
    messageKey a = messageKey b := by
  rw [messageKey, messageKey, ← norm_canonicalize a, ← norm_canonicalize b, h]

end Headroom.PrefixReplay
