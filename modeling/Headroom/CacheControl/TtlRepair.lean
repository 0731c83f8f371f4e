import Mathlib.Data.List.TakeDrop
import Headroom.CacheControl.TtlOrder

/-!
# What the lane repair keeps

The repair drops the `ttl` of a leaked marker, or lifts the short markers ahead of the last long one. After
it the lanes are in order. Every marker is where it was, and so is all that is not a marker. In a marker only
the `ttl` comes or goes, except that the field that stands last takes the place of a dropped one.

## Main statements

* `enforceTtlOrder_ordered` : the lanes after the repair, what it keeps, and that a second run does nothing.
-/

namespace Headroom.CacheControl

open Foundation

/-! ### One marker -/

variable {m : Json} {ms : List Json}

theorem isObj_of_lane (h : lane m ≠ .other) : m.isObj := by
  by_contra hobj
  exact h (if_neg hobj)

/-- A marker whose hour is dropped. -/
def strip (m : Json) : Json := if lane m = .long then m.remove "ttl" else m

/-- A marker that is lifted to the hour. -/
def lift (m : Json) : Json := if lane m = .short then m.insert "ttl" (.str oneHour) else m

theorem lane_strip (m : Json) : lane (strip m) = if lane m = .long then .short else lane m := by
  rw [strip]
  split_ifs with h
  · have hobj : (m.remove "ttl").isObj := by
      rw [Json.isObj_remove]
      exact isObj_of_lane (by rw [h]; nofun)
    rw [lane, if_pos hobj, Json.get?_remove_self]
  · rfl

theorem lane_lift (m : Json) : lane (lift m) = if lane m = .short then .long else lane m := by
  rw [lift]
  split_ifs with h
  · have hobj : m.isObj := isObj_of_lane (by rw [h]; nofun)
    rw [lane, if_pos (by rw [Json.isObj_insert]; exact hobj), Json.get?_insert_self_of_isObj hobj]
    exact if_pos rfl
  · rfl

theorem lane_strip_ne_long (m : Json) : lane (strip m) ≠ .long := by
  rw [lane_strip]
  split_ifs with h
  · nofun
  · exact h

theorem lane_lift_ne_short (m : Json) : lane (lift m) ≠ .short := by
  rw [lane_lift]
  split_ifs with h
  · nofun
  · exact h

theorem fst_demote (m : Json) (repair : TtlOrderRepair) : (demote m repair).1 = strip m := by
  rw [demote, strip]
  split_ifs with hlong hobj
  · rfl
  · exact absurd (isObj_of_lane (by rw [hlong]; nofun)) hobj
  · rfl

variable {lastLong : ℕ} {s : ℕ × TtlOrderRepair}

theorem fst_promote (h : s.1 < lastLong) :
    (promote lastLong m s).1 = lift m := by
  rw [promote, lift]
  split_ifs with hlate hshort hobj hshort hshort
  · exact absurd (hlate.resolve_right (not_not.2 hshort)) (by omega)
  · rfl
  · rfl
  · exact absurd (not_or.1 hlate).2 (not_not.2 hshort)
  · exact absurd (isObj_of_lane (by rw [hshort]; nofun)) hobj
  · rfl

theorem index_promote (lastLong : ℕ) (m : Json) (s : ℕ × TtlOrderRepair) :
    (promote lastLong m s).2.1 = s.1 + 1 := by
  rw [promote]
  split_ifs <;> rfl

/-! ### The markers in their order -/

theorem fst_thread_demote (ms : List Json) (repair : TtlOrderRepair) :
    (thread demote ms repair).1 = ms.map strip := by
  induction ms generalizing repair with
  | nil => rfl
  | cons m ms ih => rw [thread_cons, fst_demote, ih, List.map_cons]

theorem thread_demote_of_not_long (h : ∀ m ∈ ms, lane m ≠ .long) (repair : TtlOrderRepair) :
    thread demote ms repair = (ms, repair) := by
  have hstep : ∀ m ∈ ms, ∀ s, demote m s = (id m, s) := fun m hm s => if_neg (h m hm)
  rw [thread_eq_map hstep, List.map_id]

theorem thread_promote_before (h : s.1 + ms.length ≤ lastLong) :
    (thread (promote lastLong) ms s).1 = ms.map lift ∧
      (thread (promote lastLong) ms s).2.1 = s.1 + ms.length := by
  induction ms generalizing s with
  | nil => exact ⟨rfl, rfl⟩
  | cons m ms ih =>
    rw [List.length_cons] at h
    have hindex := index_promote lastLong m s
    obtain ⟨hmap, hlen⟩ := ih (s := (promote lastLong m s).2) (by omega)
    rw [thread_cons, fst_promote (by omega), hmap, hlen, List.map_cons, List.length_cons]
    exact ⟨rfl, by omega⟩

/-- The second repair leaves markers alone that are not short, and the last long marker and those behind it. -/
theorem thread_promote_kept (h : lastLong ≤ s.1 ∨ ∀ m ∈ ms, lane m ≠ .short) :
    thread (promote lastLong) ms s = (ms, (s.1 + ms.length, s.2)) := by
  induction ms generalizing s with
  | nil => rfl
  | cons m ms ih =>
    have hstep : promote lastLong m s = (m, (s.1 + 1, s.2)) :=
      if_pos (h.imp_right fun h => h m List.mem_cons_self)
    have hrest : thread (promote lastLong) ms (s.1 + 1, s.2) = (ms, (s.1 + 1 + ms.length, s.2)) :=
      ih (h.imp (fun h => h.trans (Nat.le_succ _)) fun h m hm => h m (List.mem_cons_of_mem _ hm))
    rw [thread_cons, hstep, hrest, List.length_cons]
    refine Prod.ext rfl (Prod.ext ?_ rfl)
    show s.1 + 1 + ms.length = s.1 + (ms.length + 1)
    omega

theorem lastLong?_eq_none {lanes : List Lane} (h : .long ∉ lanes) : lastLong? lanes = none := by
  rw [lastLong?, Option.map_eq_none_iff, List.findIdx?_eq_none_iff]
  intro l hl
  have hne : l ≠ .long := by
    rintro rfl
    exact h (List.mem_reverse.1 hl)
  simpa using hne

theorem lastLong?_append {before behind : List Lane} (h : .long ∉ behind) :
    lastLong? (before ++ .long :: behind) = some before.length := by
  have hfind : (behind.reverse ++ .long :: before.reverse).findIdx? (· == Lane.long) =
      some behind.length := by
    rw [List.findIdx?_append]
    have hnone : behind.reverse.findIdx? (· == Lane.long) = none := by
      rw [List.findIdx?_eq_none_iff]
      intro l hl
      have hne : l ≠ .long := by
        rintro rfl
        exact h (List.mem_reverse.1 hl)
      simpa using hne
    rw [hnone, List.findIdx?_cons]
    simp
  have hreverse : (before ++ .long :: behind).reverse = behind.reverse ++ .long :: before.reverse := by
    simp
  rw [lastLong?, hreverse, hfind, Option.map_some, List.length_append, List.length_cons]
  congr 1
  omega

/-- A list without a long marker, or split at the last one. -/
theorem split_at_lastLong (ms : List Json) : (∀ m ∈ ms, lane m ≠ .long) ∨
    ∃ before m behind, ms = before ++ m :: behind ∧ lane m = .long ∧ ∀ b ∈ behind, lane b ≠ .long := by
  induction ms with
  | nil => exact Or.inl nofun
  | cons m ms ih =>
    rcases ih with hnone | ⟨before, l, behind, rfl, hl, hbehind⟩
    · by_cases hm : lane m = .long
      · exact Or.inr ⟨[], m, ms, rfl, hm, hnone⟩
      · exact Or.inl (List.forall_mem_cons.2 ⟨hm, hnone⟩)
    · exact Or.inr ⟨m :: before, l, behind, rfl, hl, hbehind⟩

/-! ### What the repair does to the markers -/

theorem fst_repairMarkers_false (ms : List Json) : (repairMarkers false ms).1 = ms.map strip :=
  fst_thread_demote ms {}

/-- Where no marker is long there is nothing to repair. -/
theorem repairMarkers_of_not_long (h : ∀ m ∈ ms, lane m ≠ .long) (clientAskedFor1h : Bool) :
    repairMarkers clientAskedFor1h ms = (ms, {}) := by
  cases clientAskedFor1h with
  | false => exact thread_demote_of_not_long h {}
  | true =>
    have hnone : lastLong? (ms.map lane) = none := by
      refine lastLong?_eq_none fun hmem => ?_
      obtain ⟨m, hm, hlong⟩ := List.mem_map.1 hmem
      exact h m hm hlong
    simp only [repairMarkers, hnone, not_true, if_false]

section Promotion

variable {before behind : List Json}

theorem lastLong?_map (hm : lane m = .long) (hbehind : ∀ b ∈ behind, lane b ≠ .long) :
    lastLong? ((before ++ m :: behind).map lane) = some before.length := by
  rw [List.map_append, List.map_cons, hm, lastLong?_append, List.length_map]
  intro hmem
  obtain ⟨b, hb, hlong⟩ := List.mem_map.1 hmem
  exact hbehind b hb hlong

theorem repairMarkers_true (hm : lane m = .long) (hbehind : ∀ b ∈ behind, lane b ≠ .long) :
    (repairMarkers true (before ++ m :: behind)).1 = before.map lift ++ m :: behind := by
  have hbefore : ∀ s : ℕ × TtlOrderRepair, s.1 = 0 → s.1 + before.length ≤ before.length := by omega
  obtain ⟨hmap, hindex⟩ := thread_promote_before (hbefore (0, {}) rfl)
  simp only [repairMarkers, lastLong?_map hm hbehind, not_true, if_false, thread_append, hmap]
  rw [thread_promote_kept (Or.inl (by omega))]

theorem repairMarkers_true_of_not_short (hm : lane m = .long) (hbehind : ∀ b ∈ behind, lane b ≠ .long)
    (hbefore : ∀ b ∈ before, lane b ≠ .short) :
    repairMarkers true (before ++ m :: behind) = (before ++ m :: behind, {}) := by
  simp only [repairMarkers, lastLong?_map hm hbehind, not_true, if_false, thread_append]
  rw [thread_promote_kept (Or.inr hbefore), thread_promote_kept (Or.inl (by show _ ≤ 0 + before.length; omega))]

end Promotion

/-! ### What stays of a marker -/

/-- The fields of a marker other than its `ttl`. -/
def restOf (m : Json) : List (String × Json) := m.fields.filter fun f => f.1 != "ttl"

/-- The fields of a marker behind its `ttl`. -/
def behindTtl (m : Json) : List (String × Json) := m.fields.drop (m.fields.findIdx (fun f => f.1 == "ttl") + 1)

/-- A marker without its `ttl`, nothing else of it moved. -/
def withoutTtl (m : Json) : Json := if m.isObj then .obj (restOf m) else m

/-- How the repair may change a marker. -/
structure Kept (m m' : Json) : Prop where
  /-- A lane that is not modelled is left alone. -/
  other : lane m = .other → m' = m
  /-- The `ttl` is set, or dropped. -/
  ttl : m' = m ∨ m' = m.insert "ttl" (.str oneHour) ∨ m' = m.remove "ttl"
  /-- The other fields stay, in some order. -/
  rest : (restOf m').Perm (restOf m)

theorem Kept.refl (m : Json) : Kept m m := ⟨fun _ => rfl, Or.inl rfl, List.Perm.refl _⟩

theorem withoutTtl_insert (m value : Json) : withoutTtl (m.insert "ttl" value) = withoutTtl m := by
  cases m with
  | obj fields => exact congrArg Json.obj (Json.filter_insertField "ttl" value fields)
  | _ => rfl

theorem withoutTtl_remove (h : (behindTtl m).length ≤ 1) : withoutTtl (m.remove "ttl") = withoutTtl m := by
  cases m with
  | obj fields =>
    refine congrArg Json.obj ?_
    show (Json.removeField "ttl" fields).filter (fun f => f.1 != "ttl") = _
    have hall : ∀ f ∈ Json.removeField "ttl" fields, (f.1 != "ttl") = true := by
      intro f hf
      simpa using (Json.mem_removeField hf).2
    rw [List.filter_eq_self.2 hall]
    show _ = fields.filter fun f => f.1 != "ttl"
    have hbehind : (fields.drop (fields.findIdx (fun f => f.1 == "ttl") + 1)).length ≤ 1 := h
    rw [List.length_drop] at hbehind
    simp only [Json.removeField]
    generalize hrest : fields.filter (fun f => f.1 != "ttl") = rest
    generalize hi : fields.findIdx (fun f => f.1 == "ttl") = i at hbehind
    split_ifs with hlt
    · have hpresent : i < fields.length := by
        have := List.length_filter_le (fun f : String × Json => f.1 != "ttl") fields
        rw [hrest] at this
        omega
      have hfewer : rest.length < fields.length := by
        rw [← hrest]
        refine List.length_filter_lt_length_iff_exists.2 ⟨fields[i], List.getElem_mem _, ?_⟩
        subst hi
        simpa using List.findIdx_getElem (w := hpresent)
      have hlast : i = rest.length - 1 := by omega
      have hne : rest ≠ [] := List.ne_nil_of_length_pos (by omega)
      have htail : rest.drop i = [rest.getLast hne] := by
        rw [hlast, List.drop_length_sub_one hne]
      rw [htail, List.getLast?_eq_some_getLast hne]
      calc rest.take i ++ [rest.getLast hne] ++ [] = rest.take i ++ rest.drop i := by
            rw [htail, List.append_nil]
        _ = rest := List.take_append_drop i rest
    · rfl
  | _ => rfl

theorem restOf_remove_perm (m : Json) : (restOf (m.remove "ttl")).Perm (restOf m) := by
  cases m with
  | obj fields =>
    refine ((Json.removeField_perm "ttl" fields).filter _).trans ?_
    rw [List.filter_filter]
    simp only [Bool.and_self]
    exact List.Perm.refl _
  | _ => exact List.Perm.refl _

theorem restOf_insert (m value : Json) : restOf (m.insert "ttl" value) = restOf m := by
  cases m with
  | obj fields => exact Json.filter_insertField "ttl" value fields
  | _ => rfl

theorem kept_strip (m : Json) : Kept m (strip m) := by
  rw [strip]
  split_ifs with h
  · exact ⟨fun hother => absurd (hother.symm.trans h) nofun, Or.inr (Or.inr rfl), restOf_remove_perm m⟩
  · exact Kept.refl m

theorem kept_lift (m : Json) : Kept m (lift m) := by
  rw [lift]
  split_ifs with h
  · refine ⟨fun hother => absurd (hother.symm.trans h) nofun, Or.inr (Or.inl rfl), ?_⟩
    rw [restOf_insert]
  · exact Kept.refl m

/-! ### The markers after the repair -/

/-- No long marker comes after a short one. -/
def Ordered (ms : List Json) : Prop := ms.Pairwise fun a b => lane a = .short → lane b ≠ .long

theorem ordered_of_not_long (h : ∀ m ∈ ms, lane m ≠ .long) : Ordered ms :=
  List.pairwise_of_forall_mem_list fun _ _ b hb _ => h b hb

theorem ordered_lifted {before behind : List Json} (m : Json) (hbehind : ∀ b ∈ behind, lane b ≠ .long) :
    Ordered (before.map lift ++ m :: behind) := by
  have hlifted : ∀ a ∈ before.map lift, lane a ≠ .short := by
    intro a ha
    obtain ⟨a, -, rfl⟩ := List.mem_map.1 ha
    exact lane_lift_ne_short a
  refine List.pairwise_append.2 ⟨?_, ?_, fun a ha b _ hshort => absurd hshort (hlifted a ha)⟩
  · exact List.pairwise_of_forall_mem_list fun a ha b _ hshort => absurd hshort (hlifted a ha)
  · refine List.pairwise_cons.2 ⟨fun b hb _ => hbehind b hb, ordered_of_not_long hbehind⟩

theorem repairMarkers_ordered (clientAskedFor1h : Bool) (ms : List Json) :
    Ordered (repairMarkers clientAskedFor1h ms).1 ∧
      (clientAskedFor1h = false → ∀ m ∈ (repairMarkers clientAskedFor1h ms).1, lane m ≠ .long) := by
  cases clientAskedFor1h with
  | false =>
    have hshort : ∀ m ∈ (repairMarkers false ms).1, lane m ≠ .long := by
      intro m hm
      rw [fst_repairMarkers_false] at hm
      obtain ⟨m, -, rfl⟩ := List.mem_map.1 hm
      exact lane_strip_ne_long m
    exact ⟨ordered_of_not_long hshort, fun _ => hshort⟩
  | true =>
    refine ⟨?_, nofun⟩
    rcases split_at_lastLong ms with hnone | ⟨before, m, behind, rfl, hm, hbehind⟩
    · rw [repairMarkers_of_not_long hnone]
      exact ordered_of_not_long hnone
    · rw [repairMarkers_true hm hbehind]
      exact ordered_lifted m hbehind

theorem repairMarkers_again (clientAskedFor1h : Bool) (ms : List Json) :
    repairMarkers clientAskedFor1h (repairMarkers clientAskedFor1h ms).1 =
      ((repairMarkers clientAskedFor1h ms).1, {}) := by
  cases clientAskedFor1h with
  | false => exact repairMarkers_of_not_long ((repairMarkers_ordered false ms).2 rfl) false
  | true =>
    rcases split_at_lastLong ms with hnone | ⟨before, m, behind, rfl, hm, hbehind⟩
    · rw [repairMarkers_of_not_long hnone]
      exact repairMarkers_of_not_long hnone true
    · rw [repairMarkers_true hm hbehind]
      refine repairMarkers_true_of_not_short hm hbehind fun b hb => ?_
      obtain ⟨b, -, rfl⟩ := List.mem_map.1 hb
      exact lane_lift_ne_short b

theorem forall₂_map_right {R : Json → Json → Prop} {f : Json → Json} (h : ∀ m, R m (f m)) (ms : List Json) :
    List.Forall₂ R ms (ms.map f) := by
  rw [List.forall₂_map_right_iff]
  exact List.forall₂_same.2 fun m _ => h m

theorem kept_repairMarkers (clientAskedFor1h : Bool) (ms : List Json) :
    List.Forall₂ Kept ms (repairMarkers clientAskedFor1h ms).1 := by
  have hsame : ∀ ms, List.Forall₂ Kept ms ms := fun ms => List.forall₂_same.2 fun m _ => Kept.refl m
  cases clientAskedFor1h with
  | false =>
    rw [fst_repairMarkers_false]
    exact forall₂_map_right kept_strip ms
  | true =>
    rcases split_at_lastLong ms with hnone | ⟨before, m, behind, rfl, hm, hbehind⟩
    · rw [repairMarkers_of_not_long hnone]
      exact hsame ms
    · rw [repairMarkers_true hm hbehind]
      exact List.rel_append (forall₂_map_right kept_lift before) (hsame (m :: behind))

theorem map_withoutTtl_repairMarkers {clientAskedFor1h : Bool}
    (h : clientAskedFor1h = true ∨ ∀ m ∈ ms, lane m = .long → (behindTtl m).length ≤ 1) :
    (repairMarkers clientAskedFor1h ms).1.map withoutTtl = ms.map withoutTtl := by
  cases clientAskedFor1h with
  | false =>
    rw [fst_repairMarkers_false, List.map_map]
    refine List.map_congr_left fun m hm => ?_
    show withoutTtl (strip m) = withoutTtl m
    rw [strip]
    split_ifs with hlong
    · exact withoutTtl_remove (h.resolve_left nofun m hm hlong)
    · rfl
  | true =>
    have hlift : ∀ m, withoutTtl (lift m) = withoutTtl m := by
      intro m
      rw [lift]
      split_ifs with hshort
      · exact withoutTtl_insert m _
      · rfl
    rcases split_at_lastLong ms with hnone | ⟨before, m, behind, rfl, hm, hbehind⟩
    · rw [repairMarkers_of_not_long hnone]
    · rw [repairMarkers_true hm hbehind, List.map_append, List.map_append, List.map_map]
      exact congrArg (· ++ _) (List.map_congr_left fun b _ => hlift b)

/-! ### The body after the repair -/

/-- A body with each of its markers blanked. -/
def outsideMarkers (body : Json) : Json := markers.fill body ((markers.see body).map fun _ => .null)

/-- A body without the `ttl` of its markers, nothing else moved. -/
def outsideTtl (body : Json) : Json := markers.fill body ((markers.see body).map withoutTtl)

/-- After the repair no long marker comes after a short one, and none is long if the client asked for no hour.
The body outside of the markers is untouched, each marker stays in its place and keeps its fields, nothing
but a `ttl` changes at all if the client asked for the hour or no dropped `ttl` has two fields behind it, and
a second run does nothing. -/
theorem enforceTtlOrder_ordered (body : Json) (clientAskedFor1h : Bool) :
    let repaired := (enforceTtlOrder true body clientAskedFor1h).1
    Ordered (markers.see repaired) ∧
      (clientAskedFor1h = false → ∀ m ∈ markers.see repaired, lane m ≠ .long) ∧
      outsideMarkers repaired = outsideMarkers body ∧
      List.Forall₂ Kept (markers.see body) (markers.see repaired) ∧
      (clientAskedFor1h = true ∨ (∀ m ∈ markers.see body, lane m = .long → (behindTtl m).length ≤ 1) →
        outsideTtl repaired = outsideTtl body) ∧
      enforceTtlOrder true repaired clientAskedFor1h = (repaired, {}) := by
  intro repaired
  have hrepaired : repaired = markers.fill body (repairMarkers clientAskedFor1h (markers.see body)).1 :=
    congrArg Prod.fst (enforceTtlOrder_eq body clientAskedFor1h)
  have hkept := kept_repairMarkers clientAskedFor1h (markers.see body)
  have hsee : markers.see repaired = (repairMarkers clientAskedFor1h (markers.see body)).1 := by
    rw [hrepaired]
    exact markers.see_fill _ _ hkept.length_eq.symm
  have hfill : ∀ ms : List Json, ms.length = (markers.see body).length →
      markers.fill repaired ms = markers.fill body ms := by
    intro ms hms
    rw [hrepaired]
    exact markers.fill_fill _ _ _ hkept.length_eq.symm hms
  obtain ⟨hordered, hshort⟩ := repairMarkers_ordered clientAskedFor1h (markers.see body)
  refine ⟨hsee ▸ hordered, hsee ▸ hshort, ?_, hsee ▸ hkept, fun h => ?_, ?_⟩
  · have hblank : (markers.see repaired).map (fun _ => Json.null) =
        (markers.see body).map fun _ => Json.null := by
      rw [hsee, List.map_const', List.map_const', hkept.length_eq]
    rw [outsideMarkers, outsideMarkers, hblank, hfill _ (List.length_map _)]
  · rw [outsideTtl, outsideTtl, hsee, map_withoutTtl_repairMarkers h, hfill _ (List.length_map _)]
  · rw [enforceTtlOrder_eq, hsee, repairMarkers_again, ← hsee, markers.fill_see]

/-- A dropped `ttl` can move a field of its marker: bytes outside of the `ttl` keys change. -/
theorem hour_moves_field :
    ¬ ∀ (body : Json) (clientAskedFor1h : Bool),
      outsideTtl (enforceTtlOrder true body clientAskedFor1h).1 = outsideTtl body := by
  intro h
  have hmoved := h (.obj [("tools", .arr [.obj [("name", .str "a"), ("cache_control",
    .obj [("ttl", .str "1h"), ("type", .str "ephemeral"), ("scope", .str "global")])]])]) false
  exact absurd hmoved (by decide +kernel)

end Headroom.CacheControl
