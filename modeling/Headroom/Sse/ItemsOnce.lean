import Headroom.Sse.BlockRoundTrip
import Headroom.Sse.ItemContent

/-!
# Every item once

In a stream whose events all find their items, the output of the turn has each item once, in the order
in which they first appear, and with what a stream of this item alone gives. An item that comes up
under its `call_id` and ends under its wire id is there twice.

## Main results

* `items_once` : every item once, with its content.
-/

open Foundation

namespace Headroom.Sse.OpenaiResponses

variable {ι : Type*}

/-- The name under which an item of a stream comes up. -/
def home [DecidableEq ι] (stream : List (Entry ι)) (i : ι) : String :=
  (homeOf (own i (marks stream))).getD ""

/-- The events of one item alone. -/
def alone [DecidableEq ι] (i : ι) (stream : List (Entry ι)) : List (Entry ι) :=
  stream.filter fun e => e.label.map Prod.fst = some i

/-- The output of the turn that is made of a stream. -/
def outputOf (scan : List String → List String) (text : JsonText) (stream : List (Entry ι)) :
    Option (List Json) :=
  (ResponseState.run scan text (stream.map Entry.event)).toResponsesTurn.1.getArr? "output"

/-- A call in the output. -/
structure CallShown (it : Item) (said : List ItemEvent) (v : Json) : Prop where
  type : v.getStr? "type" = some it.kind
  name : v.getStr? "name" = it.name
  callId : v.getStr? "call_id" = it.callId
  arguments : (v.getStr? "arguments").getD "" = fullArguments said

/-- A message in the output. -/
structure MessageShown (it : Item) (said : List ItemEvent) (v : Json) : Prop where
  type : v.getStr? "type" = some it.kind
  text : contentText v = fullText said

/-! ### The items of a stream -/

theorem mem_own [DecidableEq ι] {i : ι} {said : List (ι × ItemEvent)} {e : ItemEvent} :
    e ∈ own i said ↔ (i, e) ∈ said := by
  rw [own, List.mem_map]
  constructor
  · rintro ⟨⟨j, e'⟩, hmark, rfl⟩
    obtain ⟨hmark, hlabel⟩ := List.mem_filter.mp hmark
    obtain rfl : i = j := (of_decide_eq_true hlabel).symm
    exact hmark
  · intro hmark
    exact ⟨(i, e), List.mem_filter.mpr ⟨hmark, decide_eq_true rfl⟩, rfl⟩

theorem mem_appearances [DecidableEq ι] {i : ι} {stream : List (Entry ι)} :
    i ∈ appearances stream ↔ ∃ e, (i, e) ∈ marks stream := by
  rw [appearances, List.mem_eraseDups, List.mem_map]
  constructor
  · rintro ⟨⟨j, e⟩, hmark, rfl⟩
    exact ⟨e, hmark⟩
  · rintro ⟨e, hmark⟩
    exact ⟨(i, e), hmark, rfl⟩

namespace Stream

variable [DecidableEq ι] {scan : List String → List String} {text : JsonText} {items : ι → Item}
  {stream : List (Entry ι)}

theorem key_isSome (h : Stream text items stream) {mark : ι × ItemEvent}
    (hmark : mark ∈ marks stream) : ∀ item ∈ mark.2.item?, (itemKey item).isSome := by
  obtain ⟨entry, hentry, hlabel⟩ := List.mem_filterMap.mp hmark
  have hread := h.reads entry hentry
  rw [Entry.Reads, hlabel] at hread
  exact hread.key_isSome

theorem names_own (h : Stream text items stream) (i : ι) :
    ∀ e ∈ own i (marks stream), (items i).Names e := fun e he =>
  h.names (i, e) (mem_own.mp he)

variable {i : ι}

theorem home_mem (h : Stream text items stream) (hi : i ∈ appearances stream) :
    home stream i ∈ (items i).ids := by
  obtain ⟨e, hmark⟩ := mem_appearances.mp hi
  obtain ⟨first, rest, hown⟩ := List.exists_cons_of_ne_nil (List.ne_nil_of_mem (mem_own.mpr hmark))
  have hfirst : first ∈ own i (marks stream) := hown ▸ List.mem_cons_self
  rw [home, hown]
  exact (h.names_own i first hfirst).direct_mem_ids (h.key_isSome (mem_own.mp hfirst))

theorem homes (h : Stream text items stream) : Homes items (home stream) (marks stream) where
  names := h.names
  apart := h.apart
  home_mem mark hmark := h.home_mem (mem_appearances.mpr ⟨mark.2, hmark⟩)

theorem finds_of_steady
    (hsteady : ∀ i ∈ appearances stream, Steady (items i) (own i (marks stream)))
    (before : List (ι × ItemEvent)) (mark : ι × ItemEvent) (after : List (ι × ItemEvent))
    (hsplit : marks stream = before ++ mark :: after) :
    ResponseState.Finds (home stream) before mark := by
  have hmark : mark ∈ marks stream := hsplit ▸ List.mem_append_right _ List.mem_cons_self
  have hown : own mark.1 (marks stream) = own mark.1 before ++ mark.2 :: own mark.1 after := by
    simp [hsplit, own]
  have hhome : homeOf (own mark.1 before ++ [mark.2]) = homeOf (own mark.1 (marks stream)) := by
    rw [hown, homeOf, homeOf, List.head?_append, List.head?_append, List.head?_cons, List.head?_cons]
  rcases (hsteady mark.1 (mem_appearances.mpr ⟨mark.2, hmark⟩)).settled _ _ _ hown with hdirect | hcall
  · rw [hhome] at hdirect
    exact Or.inl (by rw [home, hdirect, Option.getD_some])
  · exact Or.inr hcall

theorem output_eq (h : Stream text items stream) (hscan : ∀ keys, (scan keys).Perm keys)
    (hsteady : ∀ i ∈ appearances stream, Steady (items i) (own i (marks stream))) :
    outputOf scan text stream =
      some ((appearances stream).filterMap fun i => itemOf (own i (marks stream))) := by
  obtain ⟨hview, hcompleted⟩ :=
    ResponseState.view_run hscan h.reads h.homes (finds_of_steady hsteady)
  rw [outputOf, ResponseState.getArr?_toResponsesTurn, ResponseState.output, hcompleted,
    Option.getD_none]
  generalize ResponseState.run scan text (stream.map Entry.event) = s at hview
  have horder : s.order = (appearances stream).map (home stream) :=
    (congrArg Ledger.order hview).trans h.homes.order
  have hkept : ∀ key, (s.items key).bind (ResponseState.outputItem key) =
      (s.view.items key).bind fun g => ResponseState.outputItem key g.item := by
    intro key
    show _ = ((s.items key).map ItemState.gathered).bind _
    rcases s.items key with _ | state
    · rfl
    · rfl
  rw [horder, List.filterMap_map]
  refine congrArg some (List.filterMap_congr fun i hi => ?_)
  show (s.items (home stream i)).bind (ResponseState.outputItem (home stream i)) = _
  rw [hkept, hview, h.homes.kept (h.home_mem hi), itemOf, home]

/-! ### One item alone -/

omit [DecidableEq ι] in
theorem appearances_eq_singleton [DecidableEq ι] (hi : i ∈ appearances stream)
    (h : ∀ mark ∈ marks stream, mark.1 = i) : appearances stream = [i] := by
  refine eraseDups_of_forall_eq ?_ fun j hj => ?_
  · obtain ⟨e, hmark⟩ := mem_appearances.mp hi
    exact List.ne_nil_of_mem (List.mem_map_of_mem hmark)
  · obtain ⟨mark, hmark, rfl⟩ := List.mem_map.mp hj
    exact h mark hmark

theorem marks_alone (i : ι) (stream : List (Entry ι)) :
    marks (alone i stream) = (marks stream).filter fun mark => mark.1 = i := by
  rw [marks, alone, List.filterMap_filter, marks, List.filter_filterMap]
  refine List.filterMap_congr fun e _ => ?_
  rcases e.label with _ | mark
  · simp
  · by_cases hlabel : mark.1 = i
    · simp [hlabel, Option.filter]
    · simp [hlabel, Option.filter]

theorem own_alone (i : ι) (stream : List (Entry ι)) :
    own i (marks (alone i stream)) = own i (marks stream) := by
  rw [marks_alone, own, List.filter_filter, own]
  simp only [Bool.and_self]

theorem label_of_mem_alone {mark : ι × ItemEvent} (h : mark ∈ marks (alone i stream)) :
    mark ∈ marks stream ∧ mark.1 = i := by
  rw [marks_alone] at h
  obtain ⟨hmark, hlabel⟩ := List.mem_filter.mp h
  exact ⟨hmark, of_decide_eq_true hlabel⟩

theorem appearances_alone (hi : i ∈ appearances stream) :
    appearances (alone i stream) = [i] := by
  refine appearances_eq_singleton ?_ fun mark hmark => (label_of_mem_alone hmark).2
  obtain ⟨e, hmark⟩ := mem_appearances.mp hi
  refine mem_appearances.mpr ⟨e, ?_⟩
  rw [marks_alone]
  exact List.mem_filter.mpr ⟨hmark, decide_eq_true rfl⟩

/-- The events of one item make a stream of their own. -/
theorem alone (h : Stream text items stream) (hi : i ∈ appearances stream) :
    Stream text items (OpenaiResponses.alone i stream) where
  reads e he := h.reads e (List.mem_of_mem_filter he)
  names mark hmark := h.names mark (label_of_mem_alone hmark).1
  apart := h.apart
  ordered j hj := by
    rw [appearances_alone hi] at hj
    obtain rfl := List.mem_singleton.mp hj
    rw [own_alone]
    exact h.ordered j hi

end Stream

section Once

variable [DecidableEq ι] {scan : List String → List String} {text : JsonText} {items : ι → Item}
  {stream : List (Entry ι)}

theorem itemOf_eq_some {it : Item} {said : List ItemEvent} (hordered : Ordered said)
    (hnames : ∀ e ∈ said, it.Names e) (hsteady : Steady it said) :
    ∃ v, itemOf said = some v ∧ (it.kind = "function_call" → CallShown it said v) ∧
      (it.kind = "message" → MessageShown it said v) := by
  obtain ⟨final, g, h⟩ := ended_of_ordered hordered hnames
  rw [itemOf, h.gathered, Option.bind_some, h.outputItem]
  split
  · rename_i hkind
    obtain ⟨hfields, harguments⟩ := h.callItem ((homeOf said).getD "")
    obtain ⟨hname, hcall⟩ := hsteady.finished hkind final h.done_mem
    refine ⟨_, rfl, fun _ => ⟨?_, ?_, ?_, harguments⟩, fun hmessage => ?_⟩
    · rw [hfields "type" (by decide) (by decide), h.kind]
    · rw [hfields "name" (by decide) (by decide), hname]
    · rw [hfields "call_id" (by decide) (by decide), hcall]
    · exact absurd (hkind.symm.trans hmessage) (by decide)
  · rename_i hkind
    obtain ⟨v, hv, hfields, htext⟩ := h.messageItem ((homeOf said).getD "")
    refine ⟨v, hv, fun hcall => ?_, fun _ => ⟨?_, htext⟩⟩
    · exact absurd (hkind.symm.trans hcall) (by decide)
    · rw [hfields "type" (by decide), h.kind]
  · rename_i hcall hmessage
    exact ⟨final, h.otherItem _, fun hkind => absurd hkind hcall, fun hkind => absurd hkind hmessage⟩

/-- In a stream whose events all find their items, every item is in the output once, in the order in
which they first appear, with its own content: that of a stream of this item alone. -/
theorem items_once (hscan : ∀ keys, (scan keys).Perm keys) (h : Stream text items stream)
    (hsteady : ∀ i ∈ appearances stream, Steady (items i) (own i (marks stream))) :
    ∃ shown : ι → Json, outputOf scan text stream = some ((appearances stream).map shown) ∧
      ∀ i ∈ appearances stream,
        outputOf scan text (alone i stream) = some [shown i] ∧
        ((items i).kind = "function_call" →
          CallShown (items i) (own i (marks stream)) (shown i)) ∧
        ((items i).kind = "message" →
          MessageShown (items i) (own i (marks stream)) (shown i)) := by
  have hitem : ∀ i ∈ appearances stream, ∃ v, itemOf (own i (marks stream)) = some v ∧
      ((items i).kind = "function_call" → CallShown (items i) (own i (marks stream)) v) ∧
      ((items i).kind = "message" → MessageShown (items i) (own i (marks stream)) v) := fun i hi =>
    itemOf_eq_some (h.ordered i hi) (h.names_own i) (hsteady i hi)
  refine ⟨fun i => (itemOf (own i (marks stream))).getD .null, ?_, fun i hi => ?_⟩
  · rw [h.output_eq hscan hsteady, ← List.filterMap_eq_map]
    refine congrArg some (List.filterMap_congr fun i hi => ?_)
    obtain ⟨v, hv, -⟩ := hitem i hi
    show _ = some ((itemOf (own i (marks stream))).getD .null)
    rw [hv, Option.getD_some]
  · obtain ⟨v, hv, hcall, hmessage⟩ := hitem i hi
    have hsteady' : ∀ j ∈ appearances (alone i stream),
        Steady (items j) (own j (marks (alone i stream))) := by
      intro j hj
      rw [Stream.appearances_alone hi] at hj
      obtain rfl := List.mem_singleton.mp hj
      rw [Stream.own_alone]
      exact hsteady j hi
    have hv' : itemOf (own i (marks (alone i stream))) = some v := by rw [Stream.own_alone, hv]
    have hsingle : [i].filterMap (fun j => itemOf (own j (marks (alone i stream)))) = [v] :=
      List.filterMap_cons_some hv'
    rw [(h.alone hi).output_eq hscan hsteady', Stream.appearances_alone hi, hsingle]
    simp only [hv, Option.getD_some]
    exact ⟨trivial, hcall, hmessage⟩

end Once

/-! ### Two streams -/

theorem settled_of_forall {said : List ItemEvent}
    (h : ∀ n : Fin said.length, Settled (said.take n) (said.get n)) (before : List ItemEvent)
    (e : ItemEvent) (after : List ItemEvent) (hsplit : said = before ++ e :: after) :
    Settled before e := by
  subst hsplit
  have hplace := h ⟨before.length, by simp⟩
  simpa using hplace

namespace Sample

def itemEvent (item : Json) : Json := .obj [("item", item)]

def deltaEvent (id delta : String) : Json := .obj [("item_id", .str id), ("delta", .str delta)]

def shell : Json := .obj [("type", .str "function_call"), ("id", .str "fc_1"),
  ("call_id", .str "call_1"), ("name", .str "run")]

def ended : Json := .obj [("type", .str "function_call"), ("call_id", .str "call_1"),
  ("name", .str "run")]

def answer : Json := .obj [("type", .str "message"), ("id", .str "msg_1")]

def completed : Json := .obj [("response", .obj [("output", .arr [])])]

/-- The text of the events of the streams. -/
def text : JsonText := Sse.Sample.table [itemEvent shell, itemEvent ended, itemEvent answer,
  deltaEvent "fc_1" "\x7b\x7d", deltaEvent "msg_1" "Hi", completed]

/-- A call and a message. -/
def items : Bool → Item
  | true => { kind := "function_call", wireId := some "fc_1", callId := some "call_1",
              name := some "run" }
  | false => { kind := "message", wireId := some "msg_1" }

/-- A call that ends without its wire id, mixed with a message. -/
def mixed : List (Entry Bool) := [
  ⟨framed text ("response.output_item.added", itemEvent shell), some (true, .added shell)⟩,
  ⟨framed text ("response.output_text.delta", deltaEvent "msg_1" "Hi"),
    some (false, .textDelta "msg_1" "Hi")⟩,
  ⟨framed text ("response.function_call_arguments.delta", deltaEvent "fc_1" "\x7b\x7d"),
    some (true, .argumentsDelta "fc_1" "\x7b\x7d")⟩,
  ⟨framed text ("response.output_item.done", itemEvent ended), some (true, .done ended)⟩,
  ⟨framed text ("response.output_item.done", itemEvent answer), some (false, .done answer)⟩,
  ⟨framed text ("response.completed", completed), none⟩]

/-- A call that comes up under its `call_id` and ends under its wire id. -/
def forked : List (Entry Bool) := [
  ⟨framed text ("response.output_item.added", itemEvent ended), some (true, .added ended)⟩,
  ⟨framed text ("response.output_item.done", itemEvent shell), some (true, .done shell)⟩,
  ⟨framed text ("response.completed", completed), none⟩]

theorem writes : ∀ v ∈ [itemEvent shell, itemEvent ended, itemEvent answer,
    deltaEvent "fc_1" "\x7b\x7d", deltaEvent "msg_1" "Hi", completed], text.Writes v := by
  decide +kernel

theorem apart_items : ∀ i j, i ≠ j → List.Disjoint (items i).ids (items j).ids := by
  rintro (_ | _) (_ | _) hne
  · exact absurd rfl hne
  · simp [items, Item.ids]
  · simp [items, Item.ids]
  · exact absurd rfl hne

theorem quiet_completed : Quiet text (framed text ("response.completed", completed)) := by
  refine .other rfl (parseJson_toVec (writes _ (by simp))) (by decide) fun _ resp hresp => ?_
  obtain rfl : Json.obj [("output", .arr [])] = resp := Option.some.inj hresp
  rfl

theorem stream_mixed : Stream text items mixed where
  reads := by
    refine List.forall_mem_cons.mpr ⟨?_, List.forall_mem_cons.mpr ⟨?_, List.forall_mem_cons.mpr ⟨?_,
      List.forall_mem_cons.mpr ⟨?_, List.forall_mem_cons.mpr ⟨?_,
        List.forall_mem_singleton.mpr quiet_completed⟩⟩⟩⟩⟩
    · exact .added rfl (parseJson_toVec (writes _ (by simp))) (by decide) rfl rfl
    · exact .textDelta rfl (parseJson_toVec (writes _ (by simp))) (by decide) rfl rfl
    · exact .argumentsDelta rfl (parseJson_toVec (writes _ (by simp))) (by decide) rfl rfl
    · exact .done rfl (parseJson_toVec (writes _ (by simp))) (by decide) rfl rfl
    · exact .done rfl (parseJson_toVec (writes _ (by simp))) (by decide) rfl rfl
  names := by decide
  apart := apart_items
  ordered := by
    rintro (_ | _) -
    · exact ⟨[], [.textDelta "msg_1" "Hi"], answer, rfl, Or.inl rfl, by simp [ItemEvent.item?],
        List.pairwise_singleton _ _⟩
    · exact ⟨[.added shell], [.argumentsDelta "fc_1" "\x7b\x7d"], ended, rfl, Or.inr ⟨shell, rfl⟩,
        by simp [ItemEvent.item?], List.pairwise_singleton _ _⟩

theorem stream_forked : Stream text items forked where
  reads := by
    refine List.forall_mem_cons.mpr ⟨?_, List.forall_mem_cons.mpr ⟨?_,
      List.forall_mem_singleton.mpr quiet_completed⟩⟩
    · exact .added rfl (parseJson_toVec (writes _ (by simp))) (by decide) rfl rfl
    · exact .done rfl (parseJson_toVec (writes _ (by simp))) (by decide) rfl rfl
  names := by decide
  apart := apart_items
  ordered := by
    rintro i hi
    obtain rfl : i = true := by simpa [appearances, marks, forked] using hi
    exact ⟨[.added ended], [], shell, rfl, Or.inr ⟨ended, rfl⟩, by simp, List.Pairwise.nil⟩

theorem steady_mixed : ∀ i, Steady (items i) (own i (marks mixed)) := by
  rintro (_ | _)
  · exact ⟨settled_of_forall (by decide), fun hkind => absurd hkind (by decide)⟩
  · refine ⟨settled_of_forall (by decide), fun _ final hfinal => ?_⟩
    obtain rfl : final = ended := by simpa [own, marks, mixed] using hfinal
    exact ⟨rfl, rfl⟩

end Sample

theorem items_once_mixed : ∃ shown : Bool → Json,
    outputOf id Sample.text Sample.mixed = some ((appearances Sample.mixed).map shown) ∧
      ∀ i ∈ appearances Sample.mixed,
        outputOf id Sample.text (alone i Sample.mixed) = some [shown i] ∧
        ((Sample.items i).kind = "function_call" →
          CallShown (Sample.items i) (own i (marks Sample.mixed)) (shown i)) ∧
        ((Sample.items i).kind = "message" →
          MessageShown (Sample.items i) (own i (marks Sample.mixed)) (shown i)) :=
  items_once (fun keys => List.Perm.refl keys) Sample.stream_mixed fun i _ => Sample.steady_mixed i

/-- A call that ends under another name than it came up with is there twice. -/
theorem forked_call : Stream Sample.text Sample.items Sample.forked ∧
    ¬ ∃ shown : Bool → Json,
      outputOf id Sample.text Sample.forked = some ((appearances Sample.forked).map shown) := by
  refine ⟨Sample.stream_forked, ?_⟩
  rintro ⟨shown, hshown⟩
  have hlength : (outputOf id Sample.text Sample.forked).map List.length = some 2 := by
    decide +kernel
  have hone : appearances Sample.forked = [true] := by decide
  rw [hshown, hone] at hlength
  cases hlength

end Headroom.Sse.OpenaiResponses
