import Headroom.Foundation.Parts

/-!
# The order of cache lanes

A request is read for its cache breakpoints in one walk: the tools, the system blocks, then each message with
its blocks and the blocks nested in them. A breakpoint of the one-hour lane must not come after one of the
five-minute lane. The repair surveys the walk, and then walks again over the body that it rewrites: if the
client asked for no hour, the `ttl` of each leaked marker is dropped, and otherwise every five-minute marker
ahead of the last one-hour marker is lifted.
-/

namespace Headroom.CacheControl

open Foundation

/-! ### Lanes -/

/-- `ONE_HOUR`. -/
def oneHour : String := "1h"

/-- `FIVE_MINUTES`. -/
def fiveMinutes : String := "5m"

/-- Which lane a marker asks for. -/
inductive Lane where
  | long
  | short
  | other
  deriving DecidableEq, Repr

/-- `lane`. -/
def lane (marker : Json) : Lane :=
  if marker.isObj then
    match marker.get? "ttl" with
    | none => .short
    | some (.str ttl) => if ttl = oneHour then .long else if ttl = fiveMinutes then .short else .other
    | some _ => .other
  else .other

/-! ### The two walks -/

variable {σ : Type*}

/-- The items of an array field, none if there is no such array. -/
def array (holder : Json) (key : String) : List Json := (holder.getArr? key).getD []

/-- `at` of `walk_markers`. -/
def visitAt (visit : σ → Json → σ) (s : σ) (holder : Json) : σ :=
  match holder.get? "cache_control" with
  | some marker => visit s marker
  | none => s

/-- `walk_markers`. -/
def walkMarkers (visit : σ → Json → σ) (body : Json) (s : σ) : σ :=
  let tools := (array body "tools").foldl (visitAt visit) s
  let system := (array body "system").foldl (visitAt visit) tools
  (array body "messages").foldl (fun s message =>
    (array message "content").foldl (fun s block =>
      (array block "content").foldl (visitAt visit) (visitAt visit s block)) (visitAt visit s message)) system

/-- `at` of `walk_markers_mut`. -/
def visitAtMut (visit : Json → σ → Json × σ) (holder : Json) (s : σ) : Json × σ :=
  match holder.get? "cache_control" with
  | some marker => (holder.insert "cache_control" (visit marker s).1, (visit marker s).2)
  | none => (holder, s)

/-- The items of an array field, one after the other, in the body that holds them. -/
def inArrayMut (key : String) (visit : Json → σ → Json × σ) (holder : Json) (s : σ) : Json × σ :=
  match holder.getArr? key with
  | some items => (holder.insert key (.arr (thread visit items s).1), (thread visit items s).2)
  | none => (holder, s)

/-- `walk_markers_mut`. -/
def walkMarkersMut (visit : Json → σ → Json × σ) (body : Json) (s : σ) : Json × σ :=
  let tools := inArrayMut "tools" (visitAtMut visit) body s
  let system := inArrayMut "system" (visitAtMut visit) tools.1 tools.2
  inArrayMut "messages" (fun message s =>
    let own := visitAtMut visit message s
    inArrayMut "content" (fun block s =>
      let own := visitAtMut visit block s
      inArrayMut "content" (visitAtMut visit) own.1 own.2) own.1 own.2) system.1 system.2

/-! ### The repair -/

/-- `TtlOrderRepair`. -/
structure TtlOrderRepair where
  demoted : ℕ := 0
  promoted : ℕ := 0
  deriving DecidableEq, Repr

/-- The visitor of the first repair. -/
def demote (marker : Json) (repair : TtlOrderRepair) : Json × TtlOrderRepair :=
  if lane marker = .long then
    if marker.isObj then (marker.remove "ttl", { repair with demoted := repair.demoted + 1 })
    else (marker, repair)
  else (marker, repair)

/-- The visitor of the second repair, which counts the markers that it has seen. -/
def promote (lastLong : ℕ) (marker : Json) (s : ℕ × TtlOrderRepair) : Json × (ℕ × TtlOrderRepair) :=
  if lastLong ≤ s.1 ∨ lane marker ≠ .short then (marker, (s.1 + 1, s.2))
  else if marker.isObj then
    (marker.insert "ttl" (.str oneHour), (s.1 + 1, { s.2 with promoted := s.2.promoted + 1 }))
  else (marker, (s.1 + 1, s.2))

/-- The place of the last long lane. -/
def lastLong? (lanes : List Lane) : Option ℕ :=
  (lanes.reverse.findIdx? (· == .long)).map fun i => lanes.length - 1 - i

/-- `enforce_ttl_order`, with what the guard's variable says. -/
def enforceTtlOrder (guardEnabled : Bool) (body : Json) (clientAskedFor1h : Bool) : Json × TtlOrderRepair :=
  if ¬ guardEnabled then (body, {})
  else if ¬ clientAskedFor1h then walkMarkersMut demote body {}
  else
    match lastLong? (walkMarkers (fun lanes marker => lanes ++ [lane marker]) body []) with
    | none => (body, {})
    | some lastLong =>
      ((walkMarkersMut (promote lastLong) body (0, {})).1,
        (walkMarkersMut (promote lastLong) body (0, {})).2.2)

/-! ### The places of the markers -/

/-- The marker of a holder. -/
def ownMarker : Parts Json Json := .field "cache_control"

/-- The items of an array field. -/
def itemsOf (key : String) : Parts Json Json := (Parts.field key).comp .items

theorem apart_marker_content (q : Parts Json Json) : Parts.Apart ownMarker ((itemsOf "content").comp q) :=
  ((Parts.apart_field (by decide)).comp_right .items).comp_right q

theorem apart_itemsOf {key key' : String} (h : key ≠ key') (p q : Parts Json Json) :
    Parts.Apart ((itemsOf key).comp p) ((itemsOf key').comp q) :=
  ((Parts.apart_field h).comp .items .items).comp p q

/-- The markers of a block: its own, then those nested in it. -/
def blockMarkers : Parts Json Json :=
  ownMarker.both ((itemsOf "content").comp ownMarker) (apart_marker_content ownMarker)

/-- The markers of a message: its own, then those of its blocks. -/
def messageMarkers : Parts Json Json :=
  ownMarker.both ((itemsOf "content").comp blockMarkers) (apart_marker_content blockMarkers)

/-- The markers ahead of the messages. -/
def preambleMarkers : Parts Json Json :=
  ((itemsOf "tools").comp ownMarker).both ((itemsOf "system").comp ownMarker)
    (apart_itemsOf (by decide) ownMarker ownMarker)

theorem apart_preamble_messages (q : Parts Json Json) :
    Parts.Apart preambleMarkers ((itemsOf "messages").comp q) :=
  Parts.Apart.both (apart_itemsOf (by decide) ownMarker q) (apart_itemsOf (by decide) ownMarker q)

/-- The markers of a body in the order in which they are read. -/
def markers : Parts Json Json :=
  preambleMarkers.both ((itemsOf "messages").comp messageMarkers) (apart_preamble_messages messageMarkers)

theorem see_itemsOf (key : String) (holder : Json) : (itemsOf key).see holder = array holder key := by
  show (holder.get? key).toList.flatMap Parts.items.see = ((holder.get? key).bind Json.asArr?).getD []
  cases holder.get? key with
  | none => rfl
  | some v => exact List.append_nil _

theorem walkMarkers_eq (visit : σ → Json → σ) (body : Json) (s : σ) :
    walkMarkers visit body s = (markers.see body).foldl visit s := by
  have hown : visitAt visit = fun s holder => (ownMarker.see holder).foldl visit s := by
    funext s holder
    show _ = (holder.get? "cache_control").toList.foldl visit s
    rw [visitAt]
    cases holder.get? "cache_control" with
    | none => rfl
    | some marker => rfl
  have hitems : ∀ (key : String) (p : Parts Json Json) (holder : Json) (s : σ),
      (((itemsOf key).comp p).see holder).foldl visit s =
        (array holder key).foldl (fun s item => (p.see item).foldl visit s) s := by
    intro key p holder s
    show (((itemsOf key).see holder).flatMap p.see).foldl visit s = _
    rw [see_itemsOf, List.foldl_flatMap]
  have hboth : ∀ (p q : Parts Json Json) (h : Parts.Apart p q) (holder : Json) (s : σ),
      ((p.both q h).see holder).foldl visit s = (q.see holder).foldl visit ((p.see holder).foldl visit s) :=
    fun p q h holder s => List.foldl_append
  rw [markers, hboth, hitems, preambleMarkers, hboth, hitems, hitems]
  simp only [walkMarkers, hown, messageMarkers, hboth, hitems, blockMarkers]

theorem walk_ownMarker (visit : Json → σ → Json × σ) : ownMarker.walk visit = visitAtMut visit := by
  funext holder s
  show (ownMarker.fill holder (thread visit (holder.get? "cache_control").toList s).1,
    (thread visit (holder.get? "cache_control").toList s).2) = _
  rw [visitAtMut]
  cases holder.get? "cache_control" with
  | none => rfl
  | some marker => rfl

theorem walk_itemsOf (key : String) (visit : Json → σ → Json × σ) :
    (itemsOf key).walk visit = inArrayMut key visit := by
  funext holder s
  rw [itemsOf, Parts.walk_comp, inArrayMut, Json.getArr?]
  show ((Parts.field key).fill holder (thread (Parts.items.walk visit) (holder.get? key).toList s).1,
    (thread (Parts.items.walk visit) (holder.get? key).toList s).2) = _
  cases hv : holder.get? key with
  | none => rfl
  | some v =>
    cases v with
    | arr items => rfl
    | _ => exact Prod.ext (Json.insert_self hv) rfl

/-- The repair visits the markers that the survey visits, in the same order. -/
theorem walkMarkersMut_eq (visit : Json → σ → Json × σ) (body : Json) (s : σ) :
    walkMarkersMut visit body s = markers.walk visit body s := by
  rw [markers, Parts.walk_both, preambleMarkers, Parts.walk_both, Parts.walk_comp, Parts.walk_comp,
    Parts.walk_comp, walk_itemsOf, walk_itemsOf, walk_itemsOf, walk_ownMarker]
  have hblock : blockMarkers.walk visit = fun block s =>
      inArrayMut "content" (visitAtMut visit) (visitAtMut visit block s).1 (visitAtMut visit block s).2 := by
    funext block s
    rw [blockMarkers, Parts.walk_both, Parts.walk_comp, walk_itemsOf, walk_ownMarker]
  have hmessage : messageMarkers.walk visit = fun message s =>
      inArrayMut "content" (blockMarkers.walk visit) (visitAtMut visit message s).1
        (visitAtMut visit message s).2 := by
    funext message s
    rw [messageMarkers, Parts.walk_both, Parts.walk_comp, walk_itemsOf, walk_ownMarker]
  rw [hmessage, hblock]
  rfl

/-! ### The repair of a list of markers -/

/-- The repair of the markers, in their order. -/
def repairMarkers (clientAskedFor1h : Bool) (ms : List Json) : List Json × TtlOrderRepair :=
  if ¬ clientAskedFor1h then thread demote ms {}
  else
    match lastLong? (ms.map lane) with
    | none => (ms, {})
    | some lastLong =>
      ((thread (promote lastLong) ms (0, {})).1, (thread (promote lastLong) ms (0, {})).2.2)

theorem enforceTtlOrder_eq (body : Json) (clientAskedFor1h : Bool) :
    enforceTtlOrder true body clientAskedFor1h =
      (markers.fill body (repairMarkers clientAskedFor1h (markers.see body)).1,
        (repairMarkers clientAskedFor1h (markers.see body)).2) := by
  have hsurvey : ∀ (ms : List Json) (lanes : List Lane),
      ms.foldl (fun lanes marker => lanes ++ [lane marker]) lanes = lanes ++ ms.map lane := by
    intro ms
    induction ms with
    | nil => exact fun lanes => (List.append_nil lanes).symm
    | cons m ms ih =>
      intro lanes
      rw [List.foldl_cons, ih, List.map_cons, List.append_assoc, List.singleton_append]
  cases clientAskedFor1h with
  | false => exact walkMarkersMut_eq demote body {}
  | true =>
    simp only [enforceTtlOrder, repairMarkers, walkMarkers_eq, hsurvey, List.nil_append, not_true,
      if_false]
    cases lastLong? ((markers.see body).map lane) with
    | none => exact Prod.ext (markers.fill_see body).symm rfl
    | some lastLong =>
      simp only [walkMarkersMut_eq]
      rfl

end Headroom.CacheControl
