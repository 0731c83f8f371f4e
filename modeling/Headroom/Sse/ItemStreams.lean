import Mathlib.Data.List.Lattice
import Headroom.Sse.GatheredItems

/-!
# Streams of several items

The events of a stream are labelled with the item that they are about. An event is settled when it has
the name under which its item came up, or when it has only the `call_id` that was last seen with its
item. In a stream whose events are all settled each item is kept under one key, and what is kept is
made of its own events.
-/

open Foundation

namespace Headroom.Sse.OpenaiResponses

/-! ### What the events of an item make -/

/-- What the events of an item make of it. -/
def gatherAll (said : List ItemEvent) : Option Gathered :=
  said.foldl (fun g said => said.refresh g) none

/-- The item as it was last announced or ended. -/
def latest (said : List ItemEvent) : Option Json := (said.filterMap ItemEvent.item?).getLast?

theorem gatherAll_concat (said : List ItemEvent) (e : ItemEvent) :
    gatherAll (said ++ [e]) = e.refresh (gatherAll said) := by
  simp only [gatherAll, List.foldl_append, List.foldl_cons, List.foldl_nil]

theorem getD_gatherAll_concat (said : List ItemEvent) (e : ItemEvent) :
    (gatherAll (said ++ [e])).getD {} = e.change ((gatherAll said).getD {}) := by
  rw [gatherAll_concat, ItemEvent.getD_refresh]

theorem metadata_change (e : ItemEvent) (g : Gathered) :
    (e.change g).metadata = e.item?.getD g.metadata := by
  unfold ItemEvent.change
  split
  · rfl
  · rfl
  · rfl
  · split
    · rfl
    · rfl
  · rfl
  · rfl
  · rfl

theorem latest_concat (said : List ItemEvent) (e : ItemEvent) :
    latest (said ++ [e]) = e.item?.or (latest said) := by
  rw [latest, List.filterMap_append]
  rcases h : e.item? with _ | item
  · rw [List.filterMap_cons_none h, List.filterMap_nil, List.append_nil, Option.none_or]
    rfl
  · rw [List.filterMap_cons_some h, List.filterMap_nil, List.getLast?_concat, Option.some_or]

theorem metadata_gatherAll (said : List ItemEvent) :
    ((gatherAll said).getD {}).metadata = (latest said).getD .null := by
  induction said using List.reverseRecOn with
  | nil => rfl
  | append_singleton said e ih =>
    rw [getD_gatherAll_concat, metadata_change, ih, latest_concat]
    rcases e.item? with _ | item
    · rfl
    · rfl

/-- The `call_id` that is looked up is the one that was last seen with the item. -/
theorem callId_gatherAll (said : List ItemEvent) :
    ((gatherAll said).bind fun g => g.metadata.getStr? "call_id") =
      (latest said).bind (Json.getStr? "call_id") := by
  have hmetadata := metadata_gatherAll said
  rcases hgathered : gatherAll said with _ | g
  · rw [hgathered] at hmetadata
    rcases hlatest : latest said with _ | item
    · rfl
    · rw [hlatest] at hmetadata
      show none = item.getStr? "call_id"
      rw [← show Json.null = item from hmetadata]
      rfl
  · rw [hgathered] at hmetadata
    rcases hlatest : latest said with _ | item
    · rw [hlatest] at hmetadata
      show g.metadata.getStr? "call_id" = none
      rw [show g.metadata = Json.null from hmetadata]
      rfl
    · rw [hlatest] at hmetadata
      show g.metadata.getStr? "call_id" = item.getStr? "call_id"
      rw [show g.metadata = item from hmetadata]

/-! ### Labelled streams -/

/-- An event of a stream, and what it says about which item. -/
structure Entry (ι : Type*) where
  event : SseEvent
  label : Option (ι × ItemEvent)

variable {ι : Type*}

def Entry.Reads (text : JsonText) (e : Entry ι) : Prop :=
  match e.label with
  | none => Quiet text e.event
  | some mark => Says text e.event mark.2

/-- What a stream says about its items. -/
def marks (stream : List (Entry ι)) : List (ι × ItemEvent) := stream.filterMap Entry.label

/-- What is said about one item. -/
def own [DecidableEq ι] (i : ι) (said : List (ι × ItemEvent)) : List ItemEvent :=
  (said.filter fun mark => mark.1 = i).map Prod.snd

/-- The items in the order in which they first appear. -/
def appearances [DecidableEq ι] (stream : List (Entry ι)) : List ι := ((marks stream).map Prod.fst).eraseDups

/-- What an item is, and what it is called. -/
structure Item where
  kind : String
  wireId : Option String := none
  callId : Option String := none
  name : Option String := none

/-- The identifiers of an item. -/
def Item.ids (it : Item) : List String := it.wireId.toList ++ it.callId.toList

/-- An event names its item. -/
def Item.Names (it : Item) (said : ItemEvent) : Prop :=
  match said.item? with
  | some item => item.getStr? "type" = some it.kind ∧
      (∀ id ∈ item.getStr? "id", it.wireId = some id) ∧
      ∀ id ∈ item.getStr? "call_id", it.callId = some id
  | none => said.direct ∈ it.ids

instance (it : Item) (said : ItemEvent) : Decidable (it.Names said) := by
  unfold Item.Names
  split
  · infer_instance
  · infer_instance

/-- The events of an item: it may be announced, then there are deltas, and it ends. The deltas of the
arguments come before their end. -/
def Ordered (said : List ItemEvent) : Prop :=
  ∃ start middle final, said = start ++ middle ++ [ItemEvent.done final] ∧
    (start = [] ∨ ∃ item, start = [ItemEvent.added item]) ∧
    (∀ e ∈ middle, e.item? = none) ∧
    middle.Pairwise fun e e' => (∃ id arguments, e = .argumentsDone id arguments) → e'.arguments = ""

/-- A stream of items that are told apart by their identifiers, mixed in any way. -/
structure Stream [DecidableEq ι] (text : JsonText) (items : ι → Item) (stream : List (Entry ι)) :
    Prop where
  reads : ∀ e ∈ stream, e.Reads text
  names : ∀ mark ∈ marks stream, (items mark.1).Names mark.2
  apart : ∀ i j, i ≠ j → List.Disjoint (items i).ids (items j).ids
  ordered : ∀ i ∈ appearances stream, Ordered (own i (marks stream))

/-- The name under which an item comes up. -/
def homeOf (said : List ItemEvent) : Option String := said.head?.map ItemEvent.direct

/-- An event finds its item: by the name under which the item came up or, when it has no wire id, by
the `call_id` that was last seen with the item. -/
def Settled (before : List ItemEvent) (said : ItemEvent) : Prop :=
  homeOf (before ++ [said]) = some said.direct ∨
    ∃ item ∈ said.item?, item.getStr? "id" = none ∧
      (latest before).bind (Json.getStr? "call_id") = some said.direct

instance (before : List ItemEvent) (said : ItemEvent) : Decidable (Settled before said) :=
  inferInstanceAs (Decidable (_ ∨ _))

/-- Every event of an item finds it, and the end of a call has its name and its `call_id`. -/
structure Steady (it : Item) (said : List ItemEvent) : Prop where
  settled : ∀ before e after, said = before ++ e :: after → Settled before e
  finished : it.kind = "function_call" → ∀ final, ItemEvent.done final ∈ said →
    final.getStr? "name" = it.name ∧ final.getStr? "call_id" = it.callId

/-! ### Names -/

theorem direct_of_item? {said : ItemEvent} {item : Json} (h : said.item? = some item) :
    said.direct = (itemKey item).getD "" := by
  rcases said with shell | id | ⟨id, delta⟩ | ⟨id, delta⟩ | ⟨id, arguments⟩ | final
  · obtain rfl : shell = item := Option.some.inj h
    rfl
  · cases h
  · cases h
  · cases h
  · cases h
  · obtain rfl : final = item := Option.some.inj h
    rfl

theorem Says.key_isSome {text : JsonText} {event : SseEvent} {said : ItemEvent}
    (h : Says text event said) : ∀ item ∈ said.item?, (itemKey item).isSome := by
  rintro item hitem
  rcases h with ⟨-, -, -, -, hkey⟩ | - | - | - | - | - | ⟨-, -, -, -, hkey⟩
  · obtain rfl := Option.some.inj hitem
    exact hkey
  · cases hitem
  · cases hitem
  · cases hitem
  · cases hitem
  · cases hitem
  · obtain rfl := Option.some.inj hitem
    exact hkey

namespace Item

variable {it : Item} {said : ItemEvent} {item : Json}

theorem Names.callId_mem_ids (h : it.Names said) (hitem : item ∈ said.item?) {c : String}
    (hc : item.getStr? "call_id" = some c) : c ∈ it.ids := by
  rw [Names, hitem] at h
  rw [ids, h.2.2 c hc]
  exact List.mem_append_right _ List.mem_cons_self

theorem Names.direct_mem_ids (h : it.Names said)
    (hkey : ∀ item ∈ said.item?, (itemKey item).isSome) : said.direct ∈ it.ids := by
  rcases hitem : said.item? with _ | item
  · rwa [Names, hitem] at h
  · have hdirect : said.direct = (itemKey item).getD "" := direct_of_item? hitem
    rcases hid : item.getStr? "id" with _ | id
    · have hcall : itemKey item = item.getStr? "call_id" := by rw [itemKey, hid, Option.none_or]
      obtain ⟨c, hc⟩ := Option.isSome_iff_exists.mp (hkey item hitem)
      rw [hdirect, hc, Option.getD_some]
      exact h.callId_mem_ids hitem (hcall.symm.trans hc)
    · rw [Names, hitem] at h
      rw [hdirect, itemKey, hid, Option.some_or, Option.getD_some, ids, h.2.1 id hid]
      exact List.mem_append_left _ List.mem_cons_self

end Item

/-! ### Where events are filed -/

/-- What is kept when every event is filed under the key of its item. -/
def ledger (home : ι → String) (said : List (ι × ItemEvent)) : Ledger String Gathered :=
  ({} : Ledger String Gathered).recordAll (said.map fun mark => (home mark.1, mark.2.refresh))

/-- Keys that are identifiers of their items, which are told apart by them. -/
structure Homes (items : ι → Item) (home : ι → String) (said : List (ι × ItemEvent)) : Prop where
  names : ∀ mark ∈ said, (items mark.1).Names mark.2
  apart : ∀ i j, i ≠ j → List.Disjoint (items i).ids (items j).ids
  home_mem : ∀ mark ∈ said, home mark.1 ∈ (items mark.1).ids

variable {items : ι → Item} {home : ι → String} {said : List (ι × ItemEvent)}

theorem order_ledger (home : ι → String) (said : List (ι × ItemEvent)) :
    (ledger home said).order = (said.map fun mark => home mark.1).eraseDups := by
  rw [ledger, Ledger.order_recordAll, List.map_map]
  rfl

theorem items_ledger (home : ι → String) (said : List (ι × ItemEvent)) (key : String) :
    (ledger home said).items key =
      gatherAll ((said.filter fun mark => home mark.1 = key).map Prod.snd) := by
  rw [ledger, Ledger.items_recordAll, List.filter_map, List.foldl_map, gatherAll, List.foldl_map]
  rfl

namespace Homes

/-- Two items have no identifier in common. -/
theorem eq_of_mem_ids (h : Homes items home said) {i j : ι} {id : String} (hi : id ∈ (items i).ids)
    (hj : id ∈ (items j).ids) : i = j := by
  by_contra hne
  exact h.apart i j hne hi hj

theorem injOn (h : Homes items home said) : Set.InjOn home {i | i ∈ said.map Prod.fst} := by
  rintro i hi j hj heq
  obtain ⟨mark, hmark, rfl⟩ := List.mem_map.mp hi
  obtain ⟨mark', hmark', rfl⟩ := List.mem_map.mp hj
  exact h.eq_of_mem_ids (heq ▸ h.home_mem mark hmark) (h.home_mem mark' hmark')

theorem eq_home_of_callId (h : Homes items home said) {i : ι} {e : ItemEvent} {item : Json}
    (hnames : (items i).Names e) (hitem : item ∈ e.item?) {c key : String}
    (hc : item.getStr? "call_id" = some c)
    (hkey : (((ledger home said).items key).bind fun g => g.metadata.getStr? "call_id") = some c) :
    key = home i := by
  rw [items_ledger, callId_gatherAll] at hkey
  obtain ⟨item', hlatest, hc'⟩ := Option.bind_eq_some_iff.mp hkey
  obtain ⟨e', he', hitem'⟩ := List.mem_filterMap.mp (List.mem_of_getLast? hlatest)
  obtain ⟨mark, hmark, rfl⟩ := List.mem_map.mp he'
  obtain ⟨hmark, hhome⟩ := List.mem_filter.mp hmark
  have hi : c ∈ (items i).ids := hnames.callId_mem_ids hitem hc
  have hj : c ∈ (items mark.1).ids := (h.names mark hmark).callId_mem_ids hitem' hc'
  rw [h.eq_of_mem_ids hi hj]
  exact (of_decide_eq_true hhome).symm

variable [DecidableEq ι]

/-- The items are kept in the order in which they appear. -/
theorem order (h : Homes items home said) :
    (ledger home said).order = (said.map Prod.fst).eraseDups.map home := by
  rw [order_ledger, ← eraseDups_map h.injOn, List.map_map]
  rfl

/-- What is kept of an item is made of its own events. -/
theorem kept (h : Homes items home said) {i : ι} (hi : home i ∈ (items i).ids) :
    (ledger home said).items (home i) = gatherAll (own i said) := by
  rw [items_ledger]
  refine congrArg (fun said => gatherAll (List.map Prod.snd said)) ?_
  refine List.filter_congr fun mark hmark => ?_
  rw [decide_eq_decide]
  refine ⟨fun heq => ?_, fun heq => heq ▸ rfl⟩
  exact h.eq_of_mem_ids (h.home_mem mark hmark) (heq ▸ hi)

end Homes

namespace ResponseState

variable {scan : List String → List String} {s : ResponseState}

theorem keyByCallId_view (target : String) :
    s.keyByCallId scan target = (scan s.view.order).find? fun key =>
      ((s.view.items key).bind fun g => g.metadata.getStr? "call_id") == some target := by
  refine congrArg (fun found => List.find? found (scan s.order)) ?_
  funext key
  show (((s.items key).bind fun state => state.metadata.getStr? "call_id") == some target) =
    ((((s.items key).map ItemState.gathered).bind fun g => g.metadata.getStr? "call_id") ==
      some target)
  rcases s.items key with _ | state
  · rfl
  · rfl

theorem place_of_item? {said : ItemEvent} {item : Json} (h : said.item? = some item) :
    s.place scan said = s.resolve scan item said.direct := by
  rcases said with shell | id | ⟨id, delta⟩ | ⟨id, delta⟩ | ⟨id, arguments⟩ | final
  · obtain rfl : shell = item := Option.some.inj h
    rfl
  · cases h
  · cases h
  · cases h
  · cases h
  · obtain rfl : final = item := Option.some.inj h
    rfl

theorem place_of_no_item {said : ItemEvent} (h : said.item? = none) :
    s.place scan said = said.direct := by
  rcases said with shell | id | ⟨id, delta⟩ | ⟨id, delta⟩ | ⟨id, arguments⟩ | final
  · cases h
  · rfl
  · rfl
  · rfl
  · rfl
  · cases h

theorem place_eq_home [DecidableEq ι] (h : Homes items home said)
    (hscan : ∀ keys, (scan keys).Perm keys) (hview : s.view = ledger home said) {i : ι}
    {e : ItemEvent} (hnames : (items i).Names e) (hmem : home i ∈ (items i).ids)
    (hkey : ∀ item ∈ e.item?, (itemKey item).isSome)
    (hsettled : e.direct = home i ∨ ∃ item ∈ e.item?, item.getStr? "id" = none ∧
      (latest (own i said)).bind (Json.getStr? "call_id") = some e.direct) :
    s.place scan e = home i := by
  rcases hitem : e.item? with _ | item
  · rcases hsettled with hdirect | ⟨item, hitem', -⟩
    · rw [place_of_no_item hitem, hdirect]
    · exact absurd hitem' (by simp [hitem])
  rw [place_of_item? hitem, resolve]
  rcases hid : item.getStr? "id" with _ | id
  · have hcall : item.getStr? "call_id" = some e.direct := by
      obtain ⟨c, hc⟩ := Option.isSome_iff_exists.mp (hkey item hitem)
      rw [direct_of_item? hitem, hc, Option.getD_some, ← hc, itemKey, hid, Option.none_or]
    rw [Option.isSome_none, if_neg Bool.false_ne_true]
    rcases hfind : s.keyByCallId scan e.direct with _ | key
    · rw [Option.getD_none]
      rcases hsettled with hdirect | ⟨item', hitem', -, hlatest⟩
      · exact hdirect
      · -- the `call_id` is with the item, so it is found
        rw [keyByCallId_view, hview, List.find?_eq_none] at hfind
        have hseen : home i ∈ (ledger home said).order := by
          obtain ⟨last, hlast, -⟩ := Option.bind_eq_some_iff.mp hlatest
          obtain ⟨e', he', -⟩ := List.mem_filterMap.mp (List.mem_of_getLast? hlast)
          obtain ⟨mark, hmark, -⟩ := List.mem_map.mp he'
          obtain ⟨hmark, hlabel⟩ := List.mem_filter.mp hmark
          rw [order_ledger, List.mem_eraseDups]
          exact List.mem_map.mpr ⟨mark, hmark, congrArg home (of_decide_eq_true hlabel)⟩
        refine absurd ?_ (hfind (home i) ((hscan _).mem_iff.mpr hseen))
        rw [h.kept hmem, callId_gatherAll, hlatest]
        exact beq_self_eq_true _
    · rw [Option.getD_some]
      rw [keyByCallId_view, hview] at hfind
      have hfound := List.find?_some hfind
      exact h.eq_home_of_callId hnames hitem hcall (eq_of_beq hfound)
  · rw [Option.isSome_some, if_pos rfl]
    rcases hsettled with hdirect | ⟨item', hitem', hnone, -⟩
    · exact hdirect
    · obtain rfl : item = item' := Option.some.inj (hitem.symm.trans hitem')
      rw [hid] at hnone
      cases hnone

/-- An event of a stream finds its item. -/
def Finds [DecidableEq ι] (home : ι → String) (before : List (ι × ItemEvent)) (mark : ι × ItemEvent) :
    Prop :=
  mark.2.direct = home mark.1 ∨ ∃ item ∈ mark.2.item?, item.getStr? "id" = none ∧
    (latest (own mark.1 before)).bind (Json.getStr? "call_id") = some mark.2.direct

theorem run_concat {text : JsonText} (events : List SseEvent) (event : SseEvent) :
    run scan text (events ++ [event]) = ((run scan text events).apply scan text event).1 := by
  simp only [run, List.foldl_append, List.foldl_cons, List.foldl_nil]

theorem view_run [DecidableEq ι] {text : JsonText} {stream : List (Entry ι)}
    (hscan : ∀ keys, (scan keys).Perm keys) (hreads : ∀ e ∈ stream, e.Reads text)
    (h : Homes items home (marks stream))
    (hfinds : ∀ before mark after, marks stream = before ++ mark :: after →
      Finds home before mark) :
    (run scan text (stream.map Entry.event)).view = ledger home (marks stream) ∧
      (run scan text (stream.map Entry.event)).completedOutput = none := by
  induction stream using List.reverseRecOn with
  | nil => exact ⟨rfl, rfl⟩
  | append_singleton stream entry ih =>
    have hmarks : marks (stream ++ [entry]) = marks stream ++ entry.label.toList := by
      rw [marks, List.filterMap_append]
      rcases hlabel : entry.label with _ | mark
      · rw [List.filterMap_cons_none hlabel]
        rfl
      · rw [List.filterMap_cons_some hlabel]
        rfl
    rw [hmarks] at h hfinds
    have hfront : Homes items home (marks stream) :=
      ⟨fun mark hmark => h.names mark (List.mem_append_left _ hmark), h.apart,
        fun mark hmark => h.home_mem mark (List.mem_append_left _ hmark)⟩
    obtain ⟨hview, hcompleted⟩ := ih (fun e he => hreads e (List.mem_append_left _ he)) hfront
      fun before mark after hsplit => by
        refine hfinds before mark (after ++ entry.label.toList) ?_
        rw [hsplit, List.append_assoc, List.cons_append]
    have hread := hreads entry (List.mem_append_right _ List.mem_cons_self)
    rw [List.map_append, List.map_singleton, run_concat, hmarks]
    rcases hlabel : entry.label with _ | ⟨i, e⟩
    · rw [Entry.Reads, hlabel] at hread
      obtain ⟨hstep, houtput⟩ := @view_apply_of_quiet scan _ _ _ hread
      rw [hstep, houtput, Option.toList_none, List.append_nil]
      exact ⟨hview, hcompleted⟩
    · rw [Entry.Reads, hlabel] at hread
      rw [hlabel] at h hfinds
      obtain ⟨hstep, houtput⟩ := @view_apply_of_itemEvent scan _ _ _ _ hread
      have hlast : (i, e) ∈ marks stream ++ [(i, e)] :=
        List.mem_append_right _ List.mem_cons_self
      have hplace := place_eq_home hfront hscan hview (h.names _ hlast) (h.home_mem _ hlast)
        hread.key_isSome (hfinds (marks stream) (i, e) [] rfl)
      refine ⟨?_, houtput.trans hcompleted⟩
      rw [hstep, hplace, hview, Option.toList_some, ledger, ledger, List.map_append,
        List.map_singleton, Ledger.recordAll_concat]

end ResponseState

end Headroom.Sse.OpenaiResponses
