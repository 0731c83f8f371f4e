import Headroom.Foundation.Ledger
import Headroom.Sse.OpenaiResponses

/-!
# What a Responses stream gathers

The turn reads only a part of what is kept of an item. Over this part the state is a ledger: an event
about an item is one entry, for the key under which the event is filed, and every other event leaves
the ledger as it is.
-/

open Foundation

namespace Headroom.Sse.OpenaiResponses

/-! ### Events about items -/

/-- What an event says about its item. -/
inductive ItemEvent where
  | added (item : Json)
  /-- A content part or a piece of a reasoning summary. -/
  | touched (id : String)
  | textDelta (id delta : String)
  | argumentsDelta (id delta : String)
  | argumentsDone (id : String) (arguments : Option String)
  | done (item : Json)
  deriving DecidableEq

namespace ItemEvent

/-- The item as the event has it. -/
def item? : ItemEvent → Option Json
  | added item | done item => some item
  | _ => none

/-- The name that the event has for its item. -/
def direct : ItemEvent → String
  | added item | done item => (itemKey item).getD ""
  | touched id | textDelta id _ | argumentsDelta id _ | argumentsDone id _ => id

/-- The text that the event adds. -/
def text : ItemEvent → String
  | textDelta _ delta => delta
  | _ => ""

/-- The arguments that the event adds. -/
def arguments : ItemEvent → String
  | argumentsDelta _ delta => delta
  | _ => ""

end ItemEvent

def addedNames : List String := ["response.output_item.added", "output_item.added"]

def doneNames : List String := ["response.output_item.done", "output_item.done"]

def partAddedNames : List String := ["response.content_part.added", "content_part.added"]

def textDeltaNames : List String := ["response.output_text.delta", "output_text.delta"]

def argumentsDeltaNames : List String :=
  ["response.function_call_arguments.delta", "function_call_arguments.delta"]

def argumentsDoneNames : List String :=
  ["response.function_call_arguments.done", "function_call_arguments.done"]

def summaryDeltaNames : List String :=
  ["response.reasoning_summary.delta", "response.reasoning_summary_text.delta",
    "reasoning_summary.delta"]

/-- The names of the events that add to an item. -/
def itemNames : List String :=
  addedNames ++ doneNames ++ partAddedNames ++ textDeltaNames ++ argumentsDeltaNames ++
    argumentsDoneNames ++ summaryDeltaNames

/-- What an event about an item says. -/
inductive Says (text : JsonText) (event : SseEvent) : ItemEvent → Prop
  | added {name : String} {v item : Json} (hname : event.eventName = some name)
      (hv : parseJson text event.data = .ok v) (hnames : name ∈ addedNames)
      (hitem : v.get? "item" = some item) (hkey : (itemKey item).isSome) :
      Says text event (.added item)
  | partAdded {name id : String} {v : Json} (hname : event.eventName = some name)
      (hv : parseJson text event.data = .ok v) (hnames : name ∈ partAddedNames)
      (hid : v.getStr? "item_id" = some id) (hindex : (ResponseState.partIndex v).isSome)
      (hpart : (v.get? "part").isSome) : Says text event (.touched id)
  | summaryDelta {name id : String} {v : Json} (hname : event.eventName = some name)
      (hv : parseJson text event.data = .ok v) (hnames : name ∈ summaryDeltaNames)
      (hid : v.getStr? "item_id" = some id) (hdelta : (v.getStr? "delta").isSome) :
      Says text event (.touched id)
  | textDelta {name id delta : String} {v : Json} (hname : event.eventName = some name)
      (hv : parseJson text event.data = .ok v) (hnames : name ∈ textDeltaNames)
      (hid : v.getStr? "item_id" = some id) (hdelta : v.getStr? "delta" = some delta) :
      Says text event (.textDelta id delta)
  | argumentsDelta {name id delta : String} {v : Json} (hname : event.eventName = some name)
      (hv : parseJson text event.data = .ok v) (hnames : name ∈ argumentsDeltaNames)
      (hid : v.getStr? "item_id" = some id) (hdelta : v.getStr? "delta" = some delta) :
      Says text event (.argumentsDelta id delta)
  | argumentsDone {name id : String} {v : Json} (hname : event.eventName = some name)
      (hv : parseJson text event.data = .ok v) (hnames : name ∈ argumentsDoneNames)
      (hid : v.getStr? "item_id" = some id) :
      Says text event (.argumentsDone id (v.getStr? "arguments"))
  | done {name : String} {v item : Json} (hname : event.eventName = some name)
      (hv : parseJson text event.data = .ok v) (hnames : name ∈ doneNames)
      (hitem : v.get? "item" = some item) (hkey : (itemKey item).isSome) :
      Says text event (.done item)

/-- An event that is not about an item, or ends a part of one. An envelope has no output. -/
inductive Quiet (text : JsonText) (event : SseEvent) : Prop
  | nameless (h : event.eventName = none)
  | ping (h : event.eventName = some "ping")
  | unread {e : StateError} (h : parseJson text event.data = .error e)
  | other {name : String} {v : Json} (hname : event.eventName = some name)
      (hv : parseJson text event.data = .ok v) (hnames : name ∉ itemNames)
      (houtput : name = "response.completed" → ∀ resp, v.get? "response" = some resp →
        (resp.getArr? "output").getD [] = [])

/-! ### What the turn reads -/

/-- What the turn reads of an item. -/
structure Gathered where
  itemType : String := ""
  outputText : String := ""
  functionCallArguments : String := ""
  metadata : Json := .null
  complete : Bool := false

def ItemState.gathered (item : ItemState) : Gathered where
  itemType := item.itemType
  outputText := item.outputText
  functionCallArguments := item.functionCallArguments
  metadata := item.metadata
  complete := item.complete

/-- An item of which nothing else is known. -/
def Gathered.item (g : Gathered) : ItemState where
  itemType := g.itemType
  outputText := g.outputText
  functionCallArguments := g.functionCallArguments
  metadata := g.metadata
  complete := g.complete

theorem getD_gathered (item : Option ItemState) :
    (item.map ItemState.gathered).getD {} = (item.getD {}).gathered := by
  rcases item with _ | item
  · rfl
  · rfl

/-- The items as a ledger of what the turn reads. -/
def ResponseState.view (s : ResponseState) : Ledger String Gathered where
  order := s.order
  items key := (s.items key).map ItemState.gathered

namespace ItemEvent

/-- What an event changes of its item. -/
def change : ItemEvent → Gathered → Gathered
  | added item, g => { g with itemType := (item.getStr? "type").getD "", metadata := item }
  | textDelta _ delta, g => { g with outputText := g.outputText ++ delta }
  | argumentsDelta _ delta, g =>
    { g with functionCallArguments := g.functionCallArguments ++ delta }
  | argumentsDone _ (some arguments), g =>
    if g.functionCallArguments.isEmpty then
      { g with functionCallArguments := g.functionCallArguments ++ arguments }
    else g
  | done item, g =>
    { g with
      complete := true
      metadata := item
      itemType :=
        if g.itemType.isEmpty then (item.getStr? "type").getD g.itemType else g.itemType }
  | touched _, g | argumentsDone _ none, g => g

/-- The entry for an event. An end of arguments that has none makes no item. -/
def refresh (said : ItemEvent) (g : Option Gathered) : Option Gathered :=
  match said with
  | argumentsDone _ none => g
  | _ => some (said.change (g.getD {}))

theorem getD_refresh (said : ItemEvent) (g : Option Gathered) :
    (said.refresh g).getD {} = said.change (g.getD {}) := by
  unfold refresh
  split
  · rfl
  · rfl

end ItemEvent

namespace ResponseState

variable {scan : List String → List String} {text : JsonText} {s : ResponseState} {event : SseEvent}

/-! ### Entries -/

/-- The key under which an event is filed. -/
def place (scan : List String → List String) (s : ResponseState) : ItemEvent → String
  | .added item | .done item => s.resolve scan item ((itemKey item).getD "")
  | said => said.direct

theorem view_noteSeen (key : String) : (s.noteSeen key).view = s.view.record key id := by
  refine congrArg₂ Ledger.mk rfl ?_
  show s.view.items = Function.update s.view.items key (s.view.items key)
  rw [Function.update_eq_self]

variable {said : ItemEvent}

theorem view_entry {key : String} {change : ItemState → ItemState}
    (hmakes : ∀ g, said.refresh g = some (said.change (g.getD {})))
    (hchange : ∀ state : ItemState, said.change state.gathered = (change state).gathered) :
    ((s.noteSeen key).entry key change).view = s.view.record key said.refresh := by
  refine congrArg₂ Ledger.mk rfl ?_
  funext key'
  show ((Function.update s.items key (some (change ((s.items key).getD {})))) key').map
    ItemState.gathered = Function.update s.view.items key (said.refresh (s.view.items key)) key'
  by_cases hkey : key' = key
  · subst hkey
    have hvalue : (s.view.items key').getD {} = ((s.items key').getD {}).gathered := getD_gathered _
    rw [Function.update_self, Function.update_self, hmakes, hvalue, hchange, Option.map_some]
  · rw [Function.update_of_ne hkey, Function.update_of_ne hkey]
    rfl

variable {v : Json}

/-- A delta is an entry for the item that it names. -/
theorem view_onDelta {id delta : String} {push : String → ItemState → ItemState}
    (hid : v.getStr? "item_id" = some id) (hdelta : v.getStr? "delta" = some delta)
    (hmakes : ∀ g, said.refresh g = some (said.change (g.getD {})))
    (hchange : ∀ state : ItemState, said.change state.gathered = (push delta state).gathered) :
    (s.onDelta push v).1.view = s.view.record id said.refresh ∧
      (s.onDelta push v).1.completedOutput = s.completedOutput := by
  simp only [onDelta, hid, hdelta]
  exact ⟨view_entry hmakes hchange, rfl⟩

theorem forall_mem_pair {P : String → Prop} {a b : String} (ha : P a) (hb : P b) :
    ∀ name ∈ [a, b], P name :=
  List.forall_mem_cons.mpr ⟨ha, List.forall_mem_singleton.mpr hb⟩

theorem ne_ping {name : String} (h : name ∈ itemNames) : name ≠ "ping" := by
  rintro rfl
  exact absurd h (by decide)

theorem apply_named {name : String} (hname : event.eventName = some name)
    (hping : name ≠ "ping") (hv : parseJson text event.data = .ok v) :
    s.apply scan text event = s.handle scan name v := by
  simp only [apply, hname, hping, if_false, hv]

theorem view_apply_of_itemEvent (h : Says text event said) :
    (s.apply scan text event).1.view = s.view.record (s.place scan said) said.refresh ∧
      (s.apply scan text event).1.completedOutput = s.completedOutput := by
  rcases h with ⟨hname, hv, hnames, hitem, hkey⟩ | ⟨hname, hv, hnames, hid, hindex, hpart⟩ |
    ⟨hname, hv, hnames, hid, hdelta⟩ | ⟨hname, hv, hnames, hid, hdelta⟩ |
    ⟨hname, hv, hnames, hid, hdelta⟩ | ⟨hname, hv, hnames, hid⟩ | ⟨hname, hv, hnames, hitem, hkey⟩
  · have hhandle : ∀ n ∈ addedNames, ∀ v, s.handle scan n v = s.onOutputItemAdded scan v :=
      forall_mem_pair (fun _ => rfl) fun _ => rfl
    obtain ⟨id, hid⟩ := Option.isSome_iff_exists.mp hkey
    rw [apply_named hname (ne_ping (by simp [itemNames, hnames])) hv, hhandle _ hnames]
    simp only [onOutputItemAdded, hitem, hid, place, Option.getD_some]
    exact ⟨view_entry (fun _ => rfl) fun _ => rfl, rfl⟩
  · have hhandle : ∀ n ∈ partAddedNames, ∀ v, s.handle scan n v = s.onContentPartAdded v :=
      forall_mem_pair (fun _ => rfl) fun _ => rfl
    obtain ⟨index, hindex⟩ := Option.isSome_iff_exists.mp hindex
    obtain ⟨part, hpart⟩ := Option.isSome_iff_exists.mp hpart
    rw [apply_named hname (ne_ping (by simp [itemNames, hnames])) hv, hhandle _ hnames]
    simp only [onContentPartAdded, hid, hindex, hpart]
    exact ⟨view_entry (fun _ => rfl) fun _ => rfl, rfl⟩
  · have hhandle : ∀ n ∈ summaryDeltaNames, ∀ v, s.handle scan n v = s.onReasoningSummaryDelta v :=
      List.forall_mem_cons.mpr ⟨fun _ => rfl, forall_mem_pair (fun _ => rfl) fun _ => rfl⟩
    obtain ⟨delta, hdelta⟩ := Option.isSome_iff_exists.mp hdelta
    rw [apply_named hname (ne_ping (by simp [itemNames, hnames])) hv, hhandle _ hnames]
    exact view_onDelta hid hdelta (fun _ => rfl) fun _ => rfl
  · have hhandle : ∀ n ∈ textDeltaNames, ∀ v, s.handle scan n v = s.onOutputTextDelta v :=
      forall_mem_pair (fun _ => rfl) fun _ => rfl
    rw [apply_named hname (ne_ping (by simp [itemNames, hnames])) hv, hhandle _ hnames]
    exact view_onDelta hid hdelta (fun _ => rfl) fun _ => rfl
  · have hhandle : ∀ n ∈ argumentsDeltaNames, ∀ v,
        s.handle scan n v = s.onFunctionCallArgumentsDelta v :=
      forall_mem_pair (fun _ => rfl) fun _ => rfl
    rw [apply_named hname (ne_ping (by simp [itemNames, hnames])) hv, hhandle _ hnames]
    exact view_onDelta hid hdelta (fun _ => rfl) fun _ => rfl
  · rename_i name id v
    have hhandle : ∀ n ∈ argumentsDoneNames, ∀ v,
        s.handle scan n v = s.onFunctionCallArgumentsDone v :=
      forall_mem_pair (fun _ => rfl) fun _ => rfl
    rw [apply_named hname (ne_ping (by simp [itemNames, hnames])) hv, hhandle _ hnames]
    rcases hargs : v.getStr? "arguments" with _ | arguments
    · simp only [onFunctionCallArgumentsDone, hid, hargs]
      exact ⟨view_noteSeen id, rfl⟩
    · simp only [onFunctionCallArgumentsDone, hid, hargs]
      refine ⟨view_entry (fun _ => rfl) fun state => ?_, rfl⟩
      show (if state.functionCallArguments.isEmpty then _ else _) = _
      split
      · rfl
      · rfl
  · have hhandle : ∀ n ∈ doneNames, ∀ v, s.handle scan n v = s.onOutputItemDone scan v :=
      forall_mem_pair (fun _ => rfl) fun _ => rfl
    obtain ⟨id, hid⟩ := Option.isSome_iff_exists.mp hkey
    rw [apply_named hname (ne_ping (by simp [itemNames, hnames])) hv, hhandle _ hnames]
    simp only [onOutputItemDone, hitem, hid, place, Option.getD_some]
    exact ⟨view_entry (fun _ => rfl) fun _ => rfl, rfl⟩

theorem view_onContentPartDone (v : Json) :
    (s.onContentPartDone v).1.view = s.view ∧
      (s.onContentPartDone v).1.completedOutput = s.completedOutput := by
  rcases hid : v.getStr? "item_id" with _ | id
  · simp only [onContentPartDone, hid]
    exact ⟨rfl, rfl⟩
  rcases hindex : partIndex v with _ | index
  · simp only [onContentPartDone, hid, hindex]
    exact ⟨rfl, rfl⟩
  rcases hitem : s.items id with _ | state
  · simp only [onContentPartDone, hid, hindex, hitem]
    exact ⟨trivial, trivial⟩
  · simp only [onContentPartDone, hid, hindex, hitem]
    refine ⟨congrArg₂ Ledger.mk rfl ?_, trivial⟩
    funext key
    by_cases hkey : key = id
    · subst hkey
      simp only [Function.update_self, hitem]
      rfl
    · simp only [Function.update_of_ne hkey]

theorem envelopeOutput_eq_none {resp : Json} (h : (resp.getArr? "output").getD [] = []) :
    envelopeOutput resp = none := by
  unfold envelopeOutput
  split
  · rename_i item items hitems
    rw [hitems] at h
    exact absurd h (List.cons_ne_nil item items)
  · rfl

theorem view_captureEnvelopeMetadata (v : Json) :
    (s.captureEnvelopeMetadata v).view = s.view ∧
      (s.captureEnvelopeMetadata v).completedOutput = s.completedOutput := by
  rcases hresp : v.get? "response" with _ | resp
  · simp only [captureEnvelopeMetadata, hresp]
    exact ⟨trivial, trivial⟩
  · simp only [captureEnvelopeMetadata, hresp]
    exact ⟨rfl, trivial⟩

theorem view_onResponseCreated (v : Json) :
    (s.onResponseCreated v).1.view = s.view ∧
      (s.onResponseCreated v).1.completedOutput = s.completedOutput := by
  rcases hresp : v.get? "response" with _ | resp
  · simp only [onResponseCreated, hresp]
    exact ⟨rfl, rfl⟩
  · simp only [onResponseCreated, hresp]
    exact ⟨rfl, trivial⟩

theorem view_onResponseCompleted (houtput : ∀ resp, v.get? "response" = some resp →
      (resp.getArr? "output").getD [] = []) :
    (s.onResponseCompleted v).1.view = s.view ∧
      (s.onResponseCompleted v).1.completedOutput = s.completedOutput := by
  rcases hresp : v.get? "response" with _ | resp
  · simp only [onResponseCompleted, hresp]
    exact view_captureEnvelopeMetadata v
  · have hnone : (envelopeOutput resp).or s.completedOutput = s.completedOutput := by
      rw [envelopeOutput_eq_none (houtput resp hresp), Option.none_or]
    simp only [onResponseCompleted, hresp]
    obtain ⟨hview, hcompleted⟩ := @view_captureEnvelopeMetadata { s with
      status := StreamStatus.completed
      usage := ((resp.get? "usage").filter fun usage => usage ≠ Json.null).or s.usage
      completedOutput := (envelopeOutput resp).or s.completedOutput
      responseId := (resp.getStr? "id").or s.responseId } v
    exact ⟨hview, hcompleted.trans hnone⟩

theorem view_apply_of_quiet (h : Quiet text event) :
    (s.apply scan text event).1.view = s.view ∧
      (s.apply scan text event).1.completedOutput = s.completedOutput := by
  rcases h with h | h | h | ⟨hname, hv, hnames, houtput⟩
  · simp only [apply, h]
    exact ⟨trivial, trivial⟩
  · simp only [apply, h, if_true]
    exact ⟨trivial, trivial⟩
  · rcases hname : event.eventName with _ | name
    · simp only [apply, hname]
      exact ⟨trivial, trivial⟩
    · simp only [apply, hname, h]
      split
      · exact ⟨rfl, rfl⟩
      · exact ⟨rfl, rfl⟩
  · rename_i name v
    by_cases hping : name = "ping"
    · simp only [apply, hname, hping, if_true]
      exact ⟨trivial, trivial⟩
    rw [apply_named hname hping hv]
    unfold handle
    split
    -- the names of the events about items are excluded, and what is left keeps the items
    all_goals first
      | exact ⟨rfl, rfl⟩
      | exact absurd (by decide) hnames
      | exact view_onResponseCreated v
      | exact view_onContentPartDone v
      | exact view_onResponseCompleted (houtput rfl)
      | exact view_captureEnvelopeMetadata v

end ResponseState

end Headroom.Sse.OpenaiResponses
