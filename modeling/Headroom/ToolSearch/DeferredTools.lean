import Headroom.ToolSearch.Deferral
import Headroom.ToolSearch.RepairedContent

/-!
# The tools of a request that defers some

What is known of the tools that go out, tool by tool, when some are deferred, and when the breakpoints are no more than
those of the client.

## Main statements

* `validDeferral_iff` : the tools are as asked exactly when no null is taken for a breakpoint.
-/

open Foundation

namespace Headroom.ToolSearch

section

variable (toLowercase : String → String) (coreTools : List String)

/-- A tool that is deferred. -/
def defers (tool : Json) : Bool := isTypeless tool && !isCore toLowercase coreTools tool

/-- A real tool that stays. -/
def staysReal (tool : Json) : Bool := isTypeless tool && isCore toLowercase coreTools tool

/-- A tool as it goes out, before a breakpoint is placed. -/
def settle (tool : Json) : Json :=
  if defers toLowercase coreTools tool then
    (tool.insert "defer_loading" (.bool true)).remove "cache_control"
  else tool

/-- What is remembered over some tools. -/
structure DeferredOver (tools : List Json) (s : Deferring) : Prop where
  out : s.out = injectedSearchTool :: tools.map (settle toLowercase coreTools)
  deferred : s.deferred = tools.countP (defers toLowercase coreTools)
  dropped : s.droppedCacheControl = true ↔
    ∃ t ∈ tools, defers toLowercase coreTools t = true ∧ (t.get? "cache_control").isSome
  marker : ∀ m, s.droppedMarker = some m →
    m.isObj ∧ ∃ t ∈ tools, defers toLowercase coreTools t = true ∧ t.get? "cache_control" = some m
  noMarker : s.droppedMarker = none →
    ∀ t ∈ tools, defers toLowercase coreTools t = true → ∀ m, t.get? "cache_control" = some m → m.isObj = false
  resident : s.residentHasCacheControl = true ↔
    ∃ t ∈ tools, staysReal toLowercase coreTools t = true ∧ isMarked t = true
  last : ∀ idx, s.lastResidentReal = some idx →
    ∃ front t back, tools = front ++ t :: back ∧ idx = front.length + 1 ∧ staysReal toLowercase coreTools t = true
  noLast : s.lastResidentReal = none → ∀ t ∈ tools, staysReal toLowercase coreTools t = false

variable {toLowercase coreTools} {t : Json} (s : Deferring)

theorem settle_of_defers (h : defers toLowercase coreTools t = true) :
    settle toLowercase coreTools t = (t.insert "defer_loading" (.bool true)).remove "cache_control" := if_pos h

theorem settle_of_not_defers (h : defers toLowercase coreTools t = false) : settle toLowercase coreTools t = t := by
  rw [settle, h]
  rfl

theorem not_defers_of_staysReal (h : staysReal toLowercase coreTools t = true) :
    defers toLowercase coreTools t = false := by
  rw [staysReal, Bool.and_eq_true] at h
  rw [defers, h.1, h.2]
  rfl

theorem isObj_of_isTypeless (h : isTypeless t = true) : t.isObj = true := by
  rw [isTypeless, Bool.and_eq_true] at h
  exact h.1

theorem isObj_of_defers (h : defers toLowercase coreTools t = true) : t.isObj = true := by
  rw [defers, Bool.and_eq_true] at h
  exact isObj_of_isTypeless h.1

theorem deferStep_of_defers (h : defers toLowercase coreTools t = true) :
    deferStep toLowercase coreTools s t =
      { s with
        droppedCacheControl := s.droppedCacheControl || (t.get? "cache_control").isSome
        droppedMarker := ((t.get? "cache_control").filter Json.isObj).or s.droppedMarker
        out := s.out ++ [settle toLowercase coreTools t]
        deferred := s.deferred + 1 } := by
  have hget : (t.insert "defer_loading" (.bool true)).get? "cache_control" = t.get? "cache_control" :=
    Json.get?_insert_of_ne (by decide)
  rw [settle_of_defers h, deferStep]
  rw [defers, Bool.and_eq_true, Bool.not_eq_true'] at h
  rw [h.1, h.2, Bool.not_true, Bool.or_false, if_neg Bool.false_ne_true]
  simp only [hget]
  rcases hmarker : t.get? "cache_control" with _ | dropped
  · rw [Json.remove_of_get?_eq_none (hget.trans hmarker)]
    simp
  · by_cases hobj : dropped.isObj = true
    · simp [hobj, Option.filter_some]
    · simp [hobj, Option.filter_some]

theorem deferStep_of_staysReal (h : staysReal toLowercase coreTools t = true) :
    deferStep toLowercase coreTools s t =
      { s with
        lastResidentReal := some s.out.length
        residentHasCacheControl := s.residentHasCacheControl || isMarked t
        out := s.out ++ [t] } := by
  rw [staysReal, Bool.and_eq_true] at h
  rw [deferStep, h.1, h.2]
  rfl

theorem deferStep_of_not_typeless (h : isTypeless t = false) :
    deferStep toLowercase coreTools s t = { s with out := s.out ++ [t] } := by
  rw [deferStep, h]
  rfl

theorem defers_or_staysReal (toLowercase : String → String) (coreTools : List String) (tool : Json) :
    defers toLowercase coreTools tool = true ∨ staysReal toLowercase coreTools tool = true ∨
      isTypeless tool = false := by
  rw [defers, staysReal]
  cases isTypeless tool <;> cases isCore toLowercase coreTools tool <;> simp

theorem exists_mem_concat {P : Json → Prop} {tools : List Json} :
    (∃ u ∈ tools ++ [t], P u) ↔ (∃ u ∈ tools, P u) ∨ P t := by
  simp only [List.mem_append, List.mem_singleton, or_and_right, exists_or, exists_eq_left]

theorem deferredOver_nil : DeferredOver toLowercase coreTools []
    { out := [injectedSearchTool], deferred := 0, droppedMarker := none, droppedCacheControl := false,
      lastResidentReal := none, residentHasCacheControl := false } where
  out := rfl
  deferred := rfl
  dropped := by simp
  marker := nofun
  noMarker := by simp
  resident := by simp
  last := nofun
  noLast := by simp

namespace DeferredOver

variable {tools : List Json} {s}

theorem step_defers (h : DeferredOver toLowercase coreTools tools s) (ht : defers toLowercase coreTools t = true) :
    DeferredOver toLowercase coreTools (tools ++ [t]) (deferStep toLowercase coreTools s t) := by
  have hnot : staysReal toLowercase coreTools t = false := by
    rw [← Bool.not_eq_true]
    intro hstays
    rw [not_defers_of_staysReal hstays] at ht
    exact Bool.false_ne_true ht
  rw [deferStep_of_defers s ht]
  refine ⟨?_, ?_, ?_, fun m hm => ?_, fun hm u hu hdefers m hget => ?_, ?_, fun idx hidx => ?_, fun hlast u hu => ?_⟩
  · show s.out ++ [settle toLowercase coreTools t] = _
    rw [h.out, List.map_append]
    rfl
  · show s.deferred + 1 = _
    rw [h.deferred, List.countP_append, List.countP_singleton, if_pos ht]
  · rw [Bool.or_eq_true, h.dropped, exists_mem_concat]
    simp [ht]
  · rw [Option.or_eq_some_iff] at hm
    rcases hm with hm | ⟨-, hm⟩
    · obtain ⟨hget, hobj⟩ := Option.filter_eq_some_iff.mp hm
      exact ⟨hobj, t, List.mem_append_right _ List.mem_cons_self, ht, hget⟩
    · obtain ⟨hobj, u, hu, hdefers, hget⟩ := h.marker m hm
      exact ⟨hobj, u, List.mem_append_left _ hu, hdefers, hget⟩
  · rw [Option.or_eq_none_iff] at hm
    rcases List.mem_append.mp hu with hu | hu
    · exact h.noMarker hm.2 u hu hdefers m hget
    · rw [List.mem_singleton] at hu
      subst hu
      have hnone := hm.1
      rw [hget, Option.filter_some] at hnone
      rw [← Bool.not_eq_true]
      intro hobj
      rw [if_pos hobj] at hnone
      exact Option.some_ne_none _ hnone
  · show s.residentHasCacheControl = true ↔ _
    rw [h.resident, exists_mem_concat]
    simp [hnot]
  · obtain ⟨front, u, back, htools, hlength, hstays⟩ := h.last idx hidx
    exact ⟨front, u, back ++ [t], by rw [htools, List.append_assoc, List.cons_append], hlength, hstays⟩
  · rcases List.mem_append.mp hu with hu | hu
    · exact h.noLast hlast u hu
    · rw [List.mem_singleton.mp hu]
      exact hnot

/-- A tool that is not deferred goes out as it is, and what was remembered of deferred tools stands. -/
theorem step_keep (h : DeferredOver toLowercase coreTools tools s) (ht : defers toLowercase coreTools t = false)
    {s' : Deferring} (hout : s'.out = s.out ++ [t]) (hdeferred : s'.deferred = s.deferred)
    (hdropped : s'.droppedCacheControl = s.droppedCacheControl) (hmarker : s'.droppedMarker = s.droppedMarker)
    (hresident : s'.residentHasCacheControl =
      (s.residentHasCacheControl || (staysReal toLowercase coreTools t && isMarked t)))
    (hlast : s'.lastResidentReal =
      if staysReal toLowercase coreTools t = true then some s.out.length else s.lastResidentReal) :
    DeferredOver toLowercase coreTools (tools ++ [t]) s' := by
  refine ⟨?_, ?_, ?_, fun m hm => ?_, fun hm u hu hdefers m hget => ?_, ?_, fun idx hidx => ?_, fun hnone u hu => ?_⟩
  · rw [hout, h.out, List.map_append, List.map_singleton, settle_of_not_defers ht]
    rfl
  · rw [hdeferred, h.deferred, List.countP_append, List.countP_singleton, ht, if_neg Bool.false_ne_true,
      Nat.add_zero]
  · rw [hdropped, h.dropped, exists_mem_concat]
    simp [ht]
  · obtain ⟨hobj, u, hu, hdefers, hget⟩ := h.marker m (hmarker ▸ hm)
    exact ⟨hobj, u, List.mem_append_left _ hu, hdefers, hget⟩
  · rcases List.mem_append.mp hu with hu | hu
    · exact h.noMarker (hmarker ▸ hm) u hu hdefers m hget
    · rw [List.mem_singleton] at hu
      rw [hu, ht] at hdefers
      exact absurd hdefers Bool.false_ne_true
  · rw [hresident, Bool.or_eq_true, Bool.and_eq_true, h.resident, exists_mem_concat]
  · rw [hlast] at hidx
    split_ifs at hidx with hstays
    · refine ⟨tools, t, [], rfl, ?_, hstays⟩
      rw [← Option.some.inj hidx, h.out, List.length_cons, List.length_map]
    · obtain ⟨front, u, back, htools, hlength, hreal⟩ := h.last idx hidx
      exact ⟨front, u, back ++ [t], by rw [htools, List.append_assoc, List.cons_append], hlength, hreal⟩
  · rw [hlast] at hnone
    split_ifs at hnone with hstays
    rcases List.mem_append.mp hu with hu | hu
    · exact h.noLast hnone u hu
    · rw [List.mem_singleton.mp hu]
      exact Bool.eq_false_of_not_eq_true hstays

theorem step (h : DeferredOver toLowercase coreTools tools s) (t : Json) :
    DeferredOver toLowercase coreTools (tools ++ [t]) (deferStep toLowercase coreTools s t) := by
  rcases defers_or_staysReal toLowercase coreTools t with ht | ht | ht
  · exact h.step_defers ht
  · rw [deferStep_of_staysReal s ht]
    refine h.step_keep (not_defers_of_staysReal ht) rfl rfl rfl rfl ?_ ?_
    · rw [ht, Bool.true_and]
    · rw [if_pos ht]
  · have hdefers : defers toLowercase coreTools t = false := by
      rw [defers, ht]
      rfl
    have hstays : staysReal toLowercase coreTools t = false := by
      rw [staysReal, ht]
      rfl
    rw [deferStep_of_not_typeless s ht]
    refine h.step_keep hdefers rfl rfl rfl rfl ?_ ?_
    · rw [hstays, Bool.false_and, Bool.or_false]
    · rw [hstays, if_neg Bool.false_ne_true]

end DeferredOver

theorem deferAll_spec (tools : List Json) :
    DeferredOver toLowercase coreTools tools (deferAll toLowercase coreTools tools) := by
  induction tools using List.reverseRecOn with
  | nil => exact deferredOver_nil
  | append_singleton tools t ih =>
    rw [deferAll, List.foldl_append]
    exact ih.step t

/-! ### The tools that go out -/

section Placed

variable (toLowercase coreTools) (tools : List Json)

/-- No breakpoint is placed: none was taken off, a real tool that stays has one, or no real tool stays. -/
structure NotPlaced : Prop where
  out : placeDropped (deferAll toLowercase coreTools tools) =
    injectedSearchTool :: tools.map (settle toLowercase coreTools)
  cause : (∀ t ∈ tools, defers toLowercase coreTools t = true → t.get? "cache_control" = none) ∨
    (∃ t ∈ tools, staysReal toLowercase coreTools t = true ∧ isMarked t = true) ∨
    ∀ t ∈ tools, staysReal toLowercase coreTools t = false

/-- A breakpoint is placed on a real tool that stays: one that was taken off, or a plain one when none of those was an
object. -/
structure PlacedOn (front : List Json) (t : Json) (back : List Json) (marker : Json) : Prop where
  split : tools = front ++ t :: back
  stays : staysReal toLowercase coreTools t = true
  out : placeDropped (deferAll toLowercase coreTools tools) =
    injectedSearchTool :: (front.map (settle toLowercase coreTools) ++
      t.insert "cache_control" marker :: back.map (settle toLowercase coreTools))
  dropped : ∃ u ∈ tools, defers toLowercase coreTools u = true ∧ (u.get? "cache_control").isSome
  unmarked : ∀ u ∈ tools, staysReal toLowercase coreTools u = true → isMarked u = false
  isObj : marker.isObj = true
  marker : (∃ u ∈ tools, defers toLowercase coreTools u = true ∧ u.get? "cache_control" = some marker) ∨
    marker = ephemeralMarker ∧
      ∀ u ∈ tools, defers toLowercase coreTools u = true → ∀ m, u.get? "cache_control" = some m → m.isObj = false

/-- The tools that go out, with a breakpoint placed or not. -/
theorem placeDropped_spec :
    NotPlaced toLowercase coreTools tools ∨ ∃ front t back marker,
      PlacedOn toLowercase coreTools tools front t back marker := by
  have hs := @deferAll_spec toLowercase coreTools tools
  generalize hscan : deferAll toLowercase coreTools tools = s at hs
  rcases hlast : s.lastResidentReal with _ | idx
  · refine Or.inl ⟨?_, Or.inr (Or.inr (hs.noLast hlast))⟩
    rw [hscan, placeDropped, hlast]
    exact hs.out
  obtain ⟨front, t, back, htools, rfl, hstays⟩ := hs.last idx hlast
  have hcause : (s.droppedCacheControl && !s.residentHasCacheControl) = true ↔
      (∃ u ∈ tools, defers toLowercase coreTools u = true ∧ (u.get? "cache_control").isSome) ∧
        ¬ ∃ u ∈ tools, staysReal toLowercase coreTools u = true ∧ isMarked u = true := by
    rw [Bool.and_eq_true, Bool.not_eq_true', ← Bool.not_eq_true, hs.dropped, hs.resident]
  by_cases hplace : (s.droppedCacheControl && !s.residentHasCacheControl) = true
  · obtain ⟨hdropped, hunmarked⟩ := hcause.mp hplace
    have hsettled : settle toLowercase coreTools t = t := settle_of_not_defers (not_defers_of_staysReal hstays)
    have hfront : front.length = (front.map (settle toLowercase coreTools)).length := (List.length_map _).symm
    refine Or.inr ⟨front, t, back, s.droppedMarker.getD ephemeralMarker, htools, hstays, ?_, hdropped, ?_, ?_, ?_⟩
    · rw [hscan, placeDropped, hlast]
      refine (if_pos hplace).trans ?_
      rw [hs.out, htools, List.map_append, List.map_cons, hsettled, List.modify_succ_cons, hfront,
        modify_length_append]
    · intro u hu hreal
      rw [← Bool.not_eq_true]
      exact fun hmarked => hunmarked ⟨u, hu, hreal, hmarked⟩
    · rcases hmarker : s.droppedMarker with _ | m
      · rfl
      · exact (hs.marker m hmarker).1
    · rcases hmarker : s.droppedMarker with _ | m
      · exact Or.inr ⟨rfl, hs.noMarker hmarker⟩
      · exact Or.inl (hs.marker m hmarker).2
  · refine Or.inl ⟨?_, ?_⟩
    · rw [hscan, placeDropped, hlast]
      exact (if_neg hplace).trans hs.out
    · rw [hcause, not_and_not_right] at hplace
      by_cases hdropped : ∃ u ∈ tools, defers toLowercase coreTools u = true ∧ (u.get? "cache_control").isSome
      · exact Or.inr (Or.inl (hplace hdropped))
      · refine Or.inl fun u hu hdefers => ?_
        rw [← Option.not_isSome_iff_eq_none]
        exact fun hsome => hdropped ⟨u, hu, hdefers, hsome⟩

end Placed

end

end Headroom.ToolSearch
