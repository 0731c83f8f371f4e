import Headroom.ToolSearch.DeferredTools

/-!
# A valid tools array behind a search tool

The tools of a request that defers some are those of the client in order, with one search tool in front, no deferred
tool with a breakpoint, and no more breakpoints than the client has set, unless a null is taken for one.

## Main statements

* `validDeferral_iff` : the tools are as asked exactly when no null becomes a breakpoint.
-/

open Foundation

namespace Headroom.ToolSearch

/-- Two values agree on every key but some, and entirely when they are no objects. -/
structure SameBut (keys : List String) (a b : Json) : Prop where
  isObj : b.isObj = a.isObj
  get? : ∀ key ∉ keys, b.get? key = a.get? key
  eq : a.isObj = false → b = a

/-- How many tools have a breakpoint. -/
def markers (tools : List Json) : ℕ := tools.countP isMarked

/-- The time for which a breakpoint asks. -/
def ttl (marker : Json) : Option Json := marker.get? "ttl"

/-- What is asked of the tools that go out for those of a request. -/
structure ValidDeferral (toLowercase : String → String) (coreTools : List String) (tools out : List Json) :
    Prop where
  /-- The search tool, which is not deferred, and the tools in order; a typed tool, a core tool and the one that
  resolves the tools of the client are not deferred. -/
  searchFirst : ∃ rest, out = injectedSearchTool :: rest ∧ isDeferred injectedSearchTool = false ∧
    List.Forall₂ (fun t t' => SameBut ["defer_loading", "cache_control"] t t' ∧
      ((t.get? "type").isSome ∨ toolKey toLowercase t ∈ coreTools ∨ toolKey toLowercase t = "toolsearch" →
        isDeferred t' = false)) tools rest
  /-- No deferred tool has a breakpoint. -/
  deferred : ∀ t ∈ out, isDeferred t = true → t.get? "cache_control" = none
  /-- There are no more breakpoints than before. -/
  markers_le : markers out ≤ markers tools
  /-- When a real tool stays, one of the breakpoints is left, for the time that the client asked for. -/
  remains : (∃ t ∈ tools, staysReal toLowercase coreTools t = true) → (∃ t ∈ tools, isMarked t = true) →
    ∃ t' ∈ out, ∃ m', t'.get? "cache_control" = some m' ∧ m' ≠ .null ∧
      ∃ t ∈ tools, ∃ m, t.get? "cache_control" = some m ∧ m ≠ .null ∧ ttl m' = ttl m
  /-- A second time nothing changes. -/
  again : injectDeferralWithCore toLowercase coreTools out = unchanged out
  /-- Without the mechanism these are the tools of the client, but for breakpoints and its own marks of a tool. -/
  stripped : List.Forall₂ (fun t t' => SameBut ["defer_loading", "cache_control"] t t' ∧
      (t'.get? "defer_loading" = t.get? "defer_loading" ∨
        (t.get? "defer_loading").isSome ∧ t'.get? "defer_loading" = none))
    tools (stripForThirdPartyUpstream out).tools

/-- A null is taken off a deferred tool and no breakpoint is, and a real tool stays, none of them with a
breakpoint. -/
structure OnlyNull (toLowercase : String → String) (coreTools : List String) (tools : List Json) : Prop where
  null : ∃ t ∈ tools, defers toLowercase coreTools t = true ∧ t.get? "cache_control" = some .null
  noneDropped : ∀ t ∈ tools, defers toLowercase coreTools t = true → isMarked t = false
  stays : ∃ t ∈ tools, staysReal toLowercase coreTools t = true
  noneStays : ∀ t ∈ tools, staysReal toLowercase coreTools t = true → isMarked t = false

variable {toLowercase : String → String} {coreTools : List String} {tools : List Json} {t t' : Json}

theorem isMarked_iff : isMarked t = true ↔ ∃ m, t.get? "cache_control" = some m ∧ m ≠ .null := by
  rw [isMarked]
  rcases t.get? "cache_control" with _ | m <;> simp

/-! ### What becomes of one tool -/

/-- A tool goes out settled, or with a breakpoint placed on it. -/
inductive TakenOut (toLowercase : String → String) (coreTools : List String) (t : Json) : Json → Prop
  | settled : TakenOut toLowercase coreTools t (settle toLowercase coreTools t)
  | marked (m : Json) (h : staysReal toLowercase coreTools t = true) :
      TakenOut toLowercase coreTools t (t.insert "cache_control" m)

theorem get?_settle_defer (h : defers toLowercase coreTools t = true) (hdistinct : t.Distinct) :
    (settle toLowercase coreTools t).get? "defer_loading" = some (.bool true) := by
  rw [settle_of_defers h, Json.get?_remove_of_ne hdistinct.insert (by decide),
    Json.get?_insert_self_of_isObj (isObj_of_defers h)]

theorem get?_settle_marker (h : defers toLowercase coreTools t = true) :
    (settle toLowercase coreTools t).get? "cache_control" = none := by
  rw [settle_of_defers h]
  exact Json.get?_remove_self

theorem sameBut_settle (hdistinct : t.Distinct) :
    SameBut ["defer_loading", "cache_control"] t (settle toLowercase coreTools t) := by
  by_cases h : defers toLowercase coreTools t = true
  · rw [settle_of_defers h]
    refine ⟨by rw [Json.isObj_remove, Json.isObj_insert], fun key hkey => ?_, fun hobj => ?_⟩
    · rw [List.mem_cons, List.mem_singleton, not_or] at hkey
      rw [Json.get?_remove_of_ne hdistinct.insert hkey.2, Json.get?_insert_of_ne hkey.1]
    · rw [isObj_of_defers h] at hobj
      exact absurd hobj.symm Bool.false_ne_true
  · rw [settle_of_not_defers (Bool.eq_false_of_not_eq_true h)]
    exact ⟨rfl, fun _ _ => rfl, fun _ => rfl⟩

theorem isObj_of_staysReal (h : staysReal toLowercase coreTools t = true) : t.isObj = true := by
  rw [staysReal, Bool.and_eq_true] at h
  exact isObj_of_isTypeless h.1

namespace TakenOut

variable (h : TakenOut toLowercase coreTools t t')
include h

theorem sameBut (hdistinct : t.Distinct) : SameBut ["defer_loading", "cache_control"] t t' := by
  rcases h with _ | ⟨m, hstays⟩
  · exact sameBut_settle hdistinct
  · refine ⟨Json.isObj_insert, fun key hkey => ?_, fun hobj => ?_⟩
    · rw [List.mem_cons, List.mem_singleton, not_or] at hkey
      exact Json.get?_insert_of_ne hkey.2
    · rw [isObj_of_staysReal hstays] at hobj
      exact absurd hobj.symm Bool.false_ne_true

/-- A tool of a client that defers none goes out deferred when it is to be deferred, and else with the mark it had. -/
theorem deferLoading :
    (defers toLowercase coreTools t = true ∧ t' = settle toLowercase coreTools t) ∨
      (defers toLowercase coreTools t = false ∧ t'.get? "defer_loading" = t.get? "defer_loading") := by
  by_cases hdefers : defers toLowercase coreTools t = true
  · refine Or.inl ⟨hdefers, ?_⟩
    rcases h with _ | ⟨m, hstays⟩
    · rfl
    · rw [not_defers_of_staysReal hstays] at hdefers
      exact absurd hdefers Bool.false_ne_true
  · have hnot := Bool.eq_false_of_not_eq_true hdefers
    refine Or.inr ⟨hnot, ?_⟩
    rcases h with _ | ⟨m, hstays⟩
    · rw [settle_of_not_defers hnot]
    · exact Json.get?_insert_of_ne (by decide)

/-- Of a client that defers none, a tool is deferred exactly when it is to be. -/
theorem isDeferred_eq (hdistinct : t.Distinct) (hclean : isDeferred t = false) :
    isDeferred t' = defers toLowercase coreTools t := by
  rcases h.deferLoading with ⟨hdefers, rfl⟩ | ⟨hnot, hget⟩
  · rw [hdefers, isDeferred, get?_settle_defer hdefers hdistinct]
    exact decide_eq_true rfl
  · rw [hnot, isDeferred, hget]
    exact hclean

theorem unmarked (hdistinct : t.Distinct) (hclean : isDeferred t = false) (hdeferred : isDeferred t' = true) :
    t'.get? "cache_control" = none := by
  rw [h.isDeferred_eq hdistinct hclean] at hdeferred
  rcases h.deferLoading with ⟨hdefers, rfl⟩ | ⟨hnot, -⟩
  · exact get?_settle_marker hdefers
  · rw [hnot] at hdeferred
    exact absurd hdeferred Bool.false_ne_true

end TakenOut

/-- Without its mark a tool is the one of the client, but for the breakpoint and a mark that the client had set. -/
theorem TakenOut.stripped (h : TakenOut toLowercase coreTools t t') (hdistinct : t.Distinct)
    (hclean : isDeferred t = false) :
    let back := if isDeferred t' = true then t'.remove "defer_loading" else t'
    SameBut ["defer_loading", "cache_control"] t back ∧
      (back.get? "defer_loading" = t.get? "defer_loading" ∨
        (t.get? "defer_loading").isSome ∧ back.get? "defer_loading" = none) := by
  have hsame := h.sameBut hdistinct
  rw [h.isDeferred_eq hdistinct hclean]
  rcases h.deferLoading with ⟨hdefers, rfl⟩ | ⟨hnot, hget⟩
  · rw [if_pos hdefers]
    have hnone : ((settle toLowercase coreTools t).remove "defer_loading").get? "defer_loading" = none :=
      Json.get?_remove_self
    refine ⟨⟨?_, fun key hkey => ?_, fun hobj => ?_⟩, ?_⟩
    · rw [Json.isObj_remove, hsame.isObj]
    · have hkey' := hkey
      rw [List.mem_cons, not_or] at hkey'
      have hsettled : (settle toLowercase coreTools t).Distinct := by
        rw [settle_of_defers hdefers]
        exact hdistinct.insert.remove
      rw [Json.get?_remove_of_ne hsettled hkey'.1, hsame.get? key hkey]
    · rw [isObj_of_defers hdefers] at hobj
      exact absurd hobj.symm Bool.false_ne_true
    · rcases hmark : t.get? "defer_loading" with _ | mark
      · exact Or.inl hnone
      · exact Or.inr ⟨rfl, hnone⟩
  · rw [if_neg (by rw [hnot]; exact Bool.false_ne_true)]
    exact ⟨hsame, Or.inl hget⟩

/-! ### The tools that go out -/

theorem clean_of_not_clientUsesToolSearch (h : clientUsesToolSearch toLowercase tools = false) (ht : t ∈ tools) :
    isDeferred t = false ∧ isTypedSearchTool t = false := by
  have hentry : t ∈ toolEntries tools := List.mem_flatMap.mpr ⟨t, ht, List.mem_cons_self⟩
  have hnone := List.any_eq_false.mp h t hentry
  rw [Bool.or_eq_true, not_or] at hnone
  refine ⟨Bool.eq_false_of_not_eq_true hnone.2, Bool.eq_false_of_not_eq_true fun htyped => hnone.1 ?_⟩
  rw [isToolSearchMetaTool, Bool.or_eq_true]
  rw [isTypedSearchTool, Option.any_eq_true_iff_get] at htyped
  refine Or.inl ?_
  rw [Option.any_eq_true_iff_get]
  obtain ⟨hsome, hstarts⟩ := htyped
  exact ⟨hsome, by rw [isMeta, hstarts, Bool.true_or]⟩

theorem injectDeferralWithCore_changed (h : (injectDeferralWithCore toLowercase coreTools tools).changed = true) :
    clientUsesToolSearch toLowercase tools = false ∧
      (injectDeferralWithCore toLowercase coreTools tools).tools =
        placeDropped (deferAll toLowercase coreTools tools) := by
  rw [injectDeferralWithCore] at h ⊢
  by_cases hcandidate : (decide (tools.length < MIN_TOOLS) || clientUsesToolSearch toLowercase tools) = true
  · rw [if_pos hcandidate] at h
    exact absurd h Bool.false_ne_true
  rw [if_neg hcandidate] at h ⊢
  rw [Bool.or_eq_true, not_or] at hcandidate
  refine ⟨Bool.eq_false_of_not_eq_true hcandidate.2, ?_⟩
  dsimp only at h ⊢
  split_ifs at h ⊢ with hnone
  · exact absurd h Bool.false_ne_true
  · rfl

theorem forall₂_settle (tools : List Json) :
    List.Forall₂ (TakenOut toLowercase coreTools) tools (tools.map (settle toLowercase coreTools)) := by
  rw [List.forall₂_map_right_iff, List.forall₂_same]
  exact fun t _ => .settled

theorem exists_takenOut (tools : List Json) :
    ∃ rest, placeDropped (deferAll toLowercase coreTools tools) = injectedSearchTool :: rest ∧
      List.Forall₂ (TakenOut toLowercase coreTools) tools rest := by
  rcases placeDropped_spec toLowercase coreTools tools with h | ⟨front, t, back, marker, h⟩
  · exact ⟨_, h.out, forall₂_settle tools⟩
  · refine ⟨_, h.out, ?_⟩
    rw [h.split]
    exact List.rel_append (forall₂_settle front) (.cons (.marked marker h.stays) (forall₂_settle back))

variable {rest : List Json}

theorem forall₂_of_mem {R S : Json → Json → Prop} (h : List.Forall₂ R tools rest)
    (himp : ∀ t ∈ tools, ∀ t', R t t' → S t t') : List.Forall₂ S tools rest := by
  refine List.forall₂_iff_zip.mpr ⟨h.length_eq, fun {t t'} hmem => ?_⟩
  exact himp t (List.of_mem_zip hmem).1 t' ((List.forall₂_iff_zip.mp h).2 hmem)

theorem exists_of_mem_right {R : Json → Json → Prop} (h : List.Forall₂ R tools rest)
    (ht' : t' ∈ rest) : ∃ t ∈ tools, R t t' := by
  induction h with
  | nil => exact absurd ht' List.not_mem_nil
  | cons hhead _ ih =>
    rcases List.mem_cons.mp ht' with rfl | ht'
    · exact ⟨_, List.mem_cons_self, hhead⟩
    · obtain ⟨t, ht, h⟩ := ih ht'
      exact ⟨t, List.mem_cons_of_mem _ ht, h⟩

theorem strip_tools (hrest : ∀ t ∈ rest, isTypedSearchTool t = false) :
    (stripForThirdPartyUpstream (injectedSearchTool :: rest)).tools =
      rest.map fun t => if isDeferred t then t.remove "defer_loading" else t := by
  have htyped : hasTypedSearchTool (injectedSearchTool :: rest) = true := by
    rw [hasTypedSearchTool, List.any_cons, Bool.or_eq_true]
    exact Or.inl (by decide)
  have hfilter : (injectedSearchTool :: rest).filter (fun t => !isTypedSearchTool t) = rest := by
    rw [List.filter_cons_of_neg (by decide), List.filter_eq_self]
    intro t ht
    rw [hrest t ht]
    rfl
  rw [stripForThirdPartyUpstream, htyped, Bool.not_true, if_neg Bool.false_ne_true]
  show ((injectedSearchTool :: rest).filter fun t => !isTypedSearchTool t).map _ = _
  rw [hfilter]

/-! ### Breakpoints -/

theorem isMarked_settle (t : Json) :
    isMarked (settle toLowercase coreTools t) = (isMarked t && !defers toLowercase coreTools t) := by
  by_cases h : defers toLowercase coreTools t = true
  · rw [isMarked, get?_settle_marker h, h, Bool.not_true, Bool.and_false]
    rfl
  · have hnot := Bool.eq_false_of_not_eq_true h
    rw [settle_of_not_defers hnot, hnot, Bool.not_false, Bool.and_true]

theorem markers_settle (tools : List Json) :
    markers tools = markers (tools.map (settle toLowercase coreTools)) +
      tools.countP fun t => isMarked t && defers toLowercase coreTools t := by
  rw [markers, markers, List.countP_map]
  induction tools with
  | nil => rfl
  | cons t tools ih =>
    rw [List.countP_cons, List.countP_cons, List.countP_cons, ih, Function.comp_apply, isMarked_settle]
    cases isMarked t <;> cases defers toLowercase coreTools t <;> simp <;> omega

theorem isMarked_insert (ht : t.isObj = true) {m : Json} (hm : m.isObj = true) :
    isMarked (t.insert "cache_control" m) = true := by
  rw [isMarked_iff]
  refine ⟨m, Json.get?_insert_self_of_isObj ht, ?_⟩
  rintro rfl
  exact Bool.false_ne_true hm

theorem markers_search (rest : List Json) : markers (injectedSearchTool :: rest) = markers rest := by
  rw [markers, List.countP_cons_of_neg (by decide)]
  rfl

/-- A breakpoint is placed besides those that stay. -/
theorem PlacedOn.markers {front back : List Json} {marker : Json}
    (h : PlacedOn toLowercase coreTools tools front t back marker) :
    markers (placeDropped (deferAll toLowercase coreTools tools)) =
      markers (tools.map (settle toLowercase coreTools)) + 1 := by
  have hobj := isObj_of_staysReal h.stays
  have hunmarked : isMarked t = false := h.unmarked t (h.split ▸ List.mem_append_right _ List.mem_cons_self) h.stays
  rw [h.out, markers_search, h.split, ToolSearch.markers, ToolSearch.markers, List.map_append, List.map_cons,
    List.countP_append, List.countP_append, List.countP_cons, List.countP_cons, isMarked_insert hobj h.isObj,
    settle_of_not_defers (not_defers_of_staysReal h.stays), hunmarked]
  simp only [if_true, Bool.false_eq_true, if_false]
  omega

theorem markers_le_iff (tools : List Json) :
    markers (placeDropped (deferAll toLowercase coreTools tools)) ≤ markers tools ↔
      ¬ OnlyNull toLowercase coreTools tools := by
  have hsettle := @markers_settle toLowercase coreTools tools
  rcases placeDropped_spec toLowercase coreTools tools with h | ⟨front, t, back, marker, h⟩
  · refine iff_of_true ?_ fun hnull => ?_
    · rw [h.out, markers_search]
      omega
    · obtain ⟨u, hu, hdefers, hget⟩ := hnull.null
      rcases h.cause with hnone | ⟨v, hv, hstays, hmarked⟩ | hnone
      · rw [hnone u hu hdefers] at hget
        exact Option.some_ne_none _ hget.symm
      · rw [hnull.noneStays v hv hstays] at hmarked
        exact Bool.false_ne_true hmarked
      · obtain ⟨v, hv, hstays⟩ := hnull.stays
        rw [hnone v hv] at hstays
        exact Bool.false_ne_true hstays
  · have hsplit : t ∈ tools := h.split ▸ List.mem_append_right _ List.mem_cons_self
    rw [h.markers]
    constructor
    · intro hle hnull
      have hzero : (tools.countP fun u => isMarked u && defers toLowercase coreTools u) = 0 := by
        rw [List.countP_eq_zero]
        intro u hu
        rw [Bool.and_eq_true]
        rintro ⟨hmarked, hdefers⟩
        rw [hnull.noneDropped u hu hdefers] at hmarked
        exact Bool.false_ne_true hmarked
      omega
    · intro hnull
      by_contra hlt
      have hzero : (tools.countP fun u => isMarked u && defers toLowercase coreTools u) = 0 := by omega
      have hnone : ∀ u ∈ tools, defers toLowercase coreTools u = true → isMarked u = false := by
        intro u hu hdefers
        have hnot := List.countP_eq_zero.mp hzero u hu
        rw [hdefers, Bool.and_true] at hnot
        exact Bool.eq_false_of_not_eq_true hnot
      refine hnull ⟨?_, hnone, ⟨t, hsplit, h.stays⟩, h.unmarked⟩
      obtain ⟨u, hu, hdefers, hsome⟩ := h.dropped
      obtain ⟨m, hm⟩ := Option.isSome_iff_exists.mp hsome
      refine ⟨u, hu, hdefers, ?_⟩
      by_cases hm' : m = .null
      · rw [hm, hm']
      · have hmarked : isMarked u = true := isMarked_iff.mpr ⟨m, hm, hm'⟩
        rw [hnone u hu hdefers] at hmarked
        exact absurd hmarked Bool.false_ne_true

/-- A tool that is not deferred keeps its breakpoint, unless one is placed on it. -/
theorem remains_of_not_defers (ht : t ∈ tools) (hmarked : isMarked t = true)
    (hnot : defers toLowercase coreTools t = false) :
    t ∈ placeDropped (deferAll toLowercase coreTools tools) := by
  have hsettle : settle toLowercase coreTools t = t := settle_of_not_defers hnot
  rcases placeDropped_spec toLowercase coreTools tools with h | ⟨front, u, back, marker, h⟩
  · rw [h.out]
    exact List.mem_cons_of_mem _ (List.mem_map.mpr ⟨t, ht, hsettle⟩)
  · rw [h.out]
    refine List.mem_cons_of_mem _ ?_
    rw [List.mem_append, List.mem_cons]
    have hsplit := ht
    rw [h.split, List.mem_append, List.mem_cons] at hsplit
    rcases hsplit with hfront | rfl | hback
    · exact Or.inl (List.mem_map.mpr ⟨t, hfront, hsettle⟩)
    · rw [h.unmarked t ht h.stays] at hmarked
      exact absurd hmarked Bool.false_ne_true
    · exact Or.inr (Or.inr (List.mem_map.mpr ⟨t, hback, hsettle⟩))

/-- When a real tool stays, one of the breakpoints is left, for the time that the client asked for. -/
theorem exists_remaining (hstays : ∃ t ∈ tools, staysReal toLowercase coreTools t = true)
    (hmarked : ∃ t ∈ tools, isMarked t = true) :
    ∃ t' ∈ placeDropped (deferAll toLowercase coreTools tools), ∃ m', t'.get? "cache_control" = some m' ∧ m' ≠ .null ∧
      ∃ t ∈ tools, ∃ m, t.get? "cache_control" = some m ∧ m ≠ .null ∧ ttl m' = ttl m := by
  obtain ⟨t, ht, hmarked⟩ := hmarked
  obtain ⟨m, hm, hne⟩ := isMarked_iff.mp hmarked
  by_cases hdefers : defers toLowercase coreTools t = true
  · rcases placeDropped_spec toLowercase coreTools tools with h | ⟨front, u, back, marker, h⟩
    · rcases h.cause with hnone | ⟨v, hv, hreal, hmarked'⟩ | hnone
      · rw [hnone t ht hdefers] at hm
        exact absurd hm.symm (Option.some_ne_none _)
      · obtain ⟨m', hm', hne'⟩ := isMarked_iff.mp hmarked'
        exact ⟨v, remains_of_not_defers hv hmarked' (not_defers_of_staysReal hreal), m', hm', hne', v, hv, m', hm',
          hne', rfl⟩
      · obtain ⟨v, hv, hreal⟩ := hstays
        rw [hnone v hv] at hreal
        exact absurd hreal Bool.false_ne_true
    · have hobj : marker ≠ .null := by
        rintro rfl
        exact Bool.false_ne_true h.isObj
      refine ⟨u.insert "cache_control" marker, ?_, marker,
        Json.get?_insert_self_of_isObj (isObj_of_staysReal h.stays), hobj, ?_⟩
      · rw [h.out]
        exact List.mem_cons_of_mem _ (List.mem_append_right _ List.mem_cons_self)
      · rcases h.marker with ⟨v, hv, -, hget⟩ | ⟨hplain, hnone⟩
        · exact ⟨v, hv, marker, hget, hobj, rfl⟩
        · refine ⟨t, ht, m, hm, hne, ?_⟩
          have hnotObj := hnone t ht hdefers m hm
          have httl : ttl m = none := by
            cases m with
            | obj fields => exact absurd hnotObj.symm Bool.false_ne_true
            | _ => rfl
          rw [hplain, httl]
          rfl
  · have hnot := Bool.eq_false_of_not_eq_true hdefers
    exact ⟨t, remains_of_not_defers ht hmarked hnot, m, hm, hne, t, ht, m, hm, hne, rfl⟩

/-! ### The whole array -/

theorem not_defers_of_resident
    (h : (t.get? "type").isSome ∨ toolKey toLowercase t ∈ coreTools ∨ toolKey toLowercase t = "toolsearch") :
    defers toLowercase coreTools t = false := by
  rw [defers]
  rcases h with htype | hcore | hsearch
  · have htypeless : isTypeless t = false := by
      rw [isTypeless, Option.isNone_eq_false_iff.mpr htype, Bool.and_false]
    rw [htypeless, Bool.false_and]
  · have hisCore : isCore toLowercase coreTools t = true := by
      rw [isCore, Bool.or_eq_true, List.any_eq_true]
      exact Or.inr ⟨_, hcore, decide_eq_true rfl⟩
    rw [hisCore, Bool.not_true, Bool.and_false]
  · have hisCore : isCore toLowercase coreTools t = true := by
      rw [isCore, Bool.or_eq_true]
      exact Or.inl (decide_eq_true hsearch)
    rw [hisCore, Bool.not_true, Bool.and_false]

theorem clientUsesToolSearch_search (rest : List Json) :
    clientUsesToolSearch toLowercase (injectedSearchTool :: rest) = true := by
  refine List.any_eq_true.mpr ⟨injectedSearchTool, ?_, ?_⟩
  · exact List.mem_flatMap.mpr ⟨injectedSearchTool, List.mem_cons_self, List.mem_cons_self⟩
  · rw [Bool.or_eq_true, isToolSearchMetaTool, Bool.or_eq_true]
    exact Or.inl (Or.inl (by decide))

/-- When the tools are changed, what goes out is a valid array of the tools of the client exactly when no null that is
taken off a tool becomes a breakpoint. -/
theorem validDeferral_iff (toLowercase : String → String) (coreTools : List String) (tools : List Json)
    (hdistinct : ∀ t ∈ tools, t.Distinct)
    (hchanged : (injectDeferralWithCore toLowercase coreTools tools).changed = true) :
    ValidDeferral toLowercase coreTools tools (injectDeferralWithCore toLowercase coreTools tools).tools ↔
      ¬ OnlyNull toLowercase coreTools tools := by
  obtain ⟨hclient, hout⟩ := injectDeferralWithCore_changed hchanged
  rw [hout, ← markers_le_iff]
  refine ⟨ValidDeferral.markers_le, fun hle => ?_⟩
  obtain ⟨rest, hrest, htaken⟩ := @exists_takenOut toLowercase coreTools tools
  have hclean := fun t ht => @clean_of_not_clientUsesToolSearch _ _ t hclient ht
  have htyped : ∀ t' ∈ rest, isTypedSearchTool t' = false := by
    intro t' ht'
    obtain ⟨t, ht, h⟩ := exists_of_mem_right htaken ht'
    rw [isTypedSearchTool, Json.getStr?, (h.sameBut (hdistinct t ht)).get? "type" (by decide)]
    exact (hclean t ht).2
  refine ⟨⟨rest, hrest, by decide, forall₂_of_mem htaken fun t ht t' h => ⟨h.sameBut (hdistinct t ht), fun hstay => ?_⟩⟩,
    fun t' ht' hdeferred => ?_, hle, exists_remaining, ?_, ?_⟩
  · rw [h.isDeferred_eq (hdistinct t ht) (hclean t ht).1]
    exact not_defers_of_resident hstay
  · rw [hrest] at ht'
    rcases List.mem_cons.mp ht' with rfl | ht'
    · exact absurd hdeferred (by decide)
    · obtain ⟨t, ht, h⟩ := exists_of_mem_right htaken ht'
      exact h.unmarked (hdistinct t ht) (hclean t ht).1 hdeferred
  · rw [hrest, injectDeferralWithCore, clientUsesToolSearch_search, Bool.or_true, if_pos rfl]
  · rw [hrest, strip_tools htyped, List.forall₂_map_right_iff]
    exact forall₂_of_mem htaken fun t ht t' h => h.stripped (hdistinct t ht) (hclean t ht).1

namespace Sample

/-- A tool of a client. -/
def tool (name : String) (more : List (String × Json)) : Json :=
  .obj ([("name", .str name), ("input_schema", .obj [("type", .str "object")])] ++ more)

/-- A core tool and eleven others, the first of them with a breakpoint. -/
def request (marker : Json) : List Json :=
  tool "Bash" [] :: tool "post" [("cache_control", marker)] :: (List.range 10).map fun n => tool (toString n) []

def hour : Json := .obj [("type", .str "ephemeral"), ("ttl", .str "1h")]

def toLower (name : String) : String := String.ofList (name.toList.map Char.toLower)

end Sample

/-- A breakpoint of an hour moves from a tool that is deferred to the one that stays. -/
theorem validDeferral_sample : ValidDeferral Sample.toLower CORE_TOOLS (Sample.request Sample.hour)
    (injectDeferralWithCore Sample.toLower CORE_TOOLS (Sample.request Sample.hour)).tools := by
  refine (validDeferral_iff _ _ _ (by decide +kernel) (by decide +kernel)).mpr fun h => ?_
  exact absurd (h.noneDropped (Sample.tool "post" [("cache_control", Sample.hour)]) (by decide +kernel)
    (by decide +kernel)) (by decide +kernel)

/-- A null that is taken off a deferred tool makes a breakpoint where the client had none. -/
theorem not_validDeferral :
    (injectDeferralWithCore Sample.toLower CORE_TOOLS (Sample.request .null)).changed = true ∧
      ¬ ValidDeferral Sample.toLower CORE_TOOLS (Sample.request .null)
        (injectDeferralWithCore Sample.toLower CORE_TOOLS (Sample.request .null)).tools := by
  refine ⟨by decide +kernel, fun h => ?_⟩
  exact absurd h.markers_le (by decide +kernel)

end Headroom.ToolSearch
