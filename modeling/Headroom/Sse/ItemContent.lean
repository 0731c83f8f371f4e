import Headroom.Foundation.JsonObject
import Headroom.Sse.ItemStreams

/-!
# What an item has in the output

An item that has ended is one value of the output. A call has the arguments of its end or, when there
are none, what its deltas and the end of its arguments gave; a message has the content of its end or,
when there is none, the text of its deltas.
-/

open Foundation

namespace Headroom.Sse.OpenaiResponses

/-! ### Texts -/

theorem join_concat (l : List String) (s : String) : String.join (l ++ [s]) = String.join l ++ s := by
  simp only [String.join, List.foldl_append, List.foldl_cons, List.foldl_nil]

/-- The text of the deltas. -/
def spokenText (said : List ItemEvent) : String := String.join (said.map ItemEvent.text)

/-- The arguments of the deltas. -/
def spokenArguments (said : List ItemEvent) : String := String.join (said.map ItemEvent.arguments)

/-- The arguments that an end of arguments has. -/
def ItemEvent.ended? : ItemEvent → Option String
  | argumentsDone _ arguments => arguments
  | _ => none

/-- The first arguments that an end of arguments has, if any. -/
def endedArguments (said : List ItemEvent) : String :=
  ((said.filterMap ItemEvent.ended?).find? fun arguments => arguments ≠ "").getD ""

/-- The arguments of the deltas or, without any, of an end of arguments. -/
def streamedArguments (said : List ItemEvent) : String :=
  if spokenArguments said = "" then endedArguments said else spokenArguments said

/-- The arguments of a call. -/
def fullArguments (said : List ItemEvent) : String :=
  let given := ((latest said).bind (Json.getStr? "arguments")).getD ""
  if given = "" then streamedArguments said else given

/-- The text of a content. -/
def contentText (v : Json) : String :=
  String.join (((v.getArr? "content").getD []).map fun part => (part.getStr? "text").getD "")

/-- The text of a message. -/
def fullText (said : List ItemEvent) : String :=
  let given := (latest said).getD .null
  if (given.getArr? "content").getD [] = [] then spokenText said else contentText given

/-- What comes after an end of arguments adds none. -/
def ArgumentsLast (said : List ItemEvent) : Prop :=
  said.Pairwise fun e e' => (∃ id arguments, e = .argumentsDone id arguments) → e'.arguments = ""

theorem outputText_change (e : ItemEvent) (g : Gathered) :
    (e.change g).outputText = g.outputText ++ e.text := by
  rcases e with item | id | ⟨id, delta⟩ | ⟨id, delta⟩ | ⟨id, _ | arguments⟩ | item
  · exact String.append_empty.symm
  · exact String.append_empty.symm
  · rfl
  · exact String.append_empty.symm
  · exact String.append_empty.symm
  · show (if g.functionCallArguments.isEmpty then _ else _ : Gathered).outputText = _
    split
    · exact String.append_empty.symm
    · exact String.append_empty.symm
  · exact String.append_empty.symm

theorem outputText_gatherAll (said : List ItemEvent) :
    ((gatherAll said).getD {}).outputText = spokenText said := by
  induction said using List.reverseRecOn with
  | nil => rfl
  | append_singleton said e ih =>
    rw [getD_gatherAll_concat, outputText_change, ih, spokenText, spokenText, List.map_append,
      List.map_singleton, join_concat]

theorem spokenArguments_concat (said : List ItemEvent) (e : ItemEvent) :
    spokenArguments (said ++ [e]) = spokenArguments said ++ e.arguments := by
  rw [spokenArguments, spokenArguments, List.map_append, List.map_singleton, join_concat]

theorem endedArguments_concat (said : List ItemEvent) (e : ItemEvent) :
    endedArguments (said ++ [e]) =
      if endedArguments said = "" then e.ended?.getD "" else endedArguments said := by
  rcases hfind : (said.filterMap ItemEvent.ended?).find? fun arguments => arguments ≠ "" with _ | first
  · have hnone : endedArguments said = "" := by rw [endedArguments, hfind, Option.getD_none]
    rw [if_pos hnone, endedArguments, List.filterMap_append, List.find?_append, hfind, Option.none_or]
    rcases hended : e.ended? with _ | arguments
    · rw [List.filterMap_cons_none hended, List.filterMap_nil, List.find?_nil]
    · rw [List.filterMap_cons_some hended, List.filterMap_nil]
      by_cases hempty : arguments = ""
      · simp [hempty]
      · simp [hempty]
  · have hfirst : endedArguments said = first := by rw [endedArguments, hfind, Option.getD_some]
    have hfound := List.find?_some hfind
    have hne : first ≠ "" := of_decide_eq_true hfound
    rw [hfirst, if_neg hne, endedArguments, List.filterMap_append, List.find?_append, hfind,
      Option.some_or, Option.getD_some]

variable {said : List ItemEvent}

theorem endedArguments_of_forall (h : ∀ e ∈ said, e.ended? = none) :
    endedArguments said = "" := by
  rw [endedArguments, List.filterMap_eq_nil_iff.mpr h]
  rfl

theorem arguments_change (e : ItemEvent) (g : Gathered) :
    (e.change g).functionCallArguments =
      match e.ended? with
      | some arguments =>
        if g.functionCallArguments = "" then arguments else g.functionCallArguments
      | none => g.functionCallArguments ++ e.arguments := by
  rcases e with item | id | ⟨id, delta⟩ | ⟨id, delta⟩ | ⟨id, _ | arguments⟩ | item
  · exact String.append_empty.symm
  · exact String.append_empty.symm
  · exact String.append_empty.symm
  · rfl
  · exact String.append_empty.symm
  · show (if g.functionCallArguments.isEmpty then _ else _ : Gathered).functionCallArguments =
      if g.functionCallArguments = "" then arguments else g.functionCallArguments
    by_cases hempty : g.functionCallArguments = ""
    · rw [if_pos (String.isEmpty_iff.mpr hempty), if_pos hempty]
      show g.functionCallArguments ++ arguments = arguments
      rw [hempty, String.empty_append]
    · rw [if_neg (String.isEmpty_iff.not.mpr hempty), if_neg hempty]
  · exact String.append_empty.symm

theorem arguments_of_ended {e : ItemEvent} {arguments : String} (h : e.ended? = some arguments) :
    e.arguments = "" := by
  rcases e with item | id | ⟨id, delta⟩ | ⟨id, delta⟩ | ⟨id, ended⟩ | item
  · rfl
  · rfl
  · rfl
  · cases h
  · rfl
  · rfl

theorem arguments_gatherAll (h : ArgumentsLast said) :
    ((gatherAll said).getD {}).functionCallArguments = streamedArguments said := by
  induction said using List.reverseRecOn with
  | nil => rfl
  | append_singleton said e ih =>
    obtain ⟨hfront, -, hlast⟩ := List.pairwise_append.mp h
    rw [getD_gatherAll_concat, arguments_change, ih hfront, streamedArguments, streamedArguments,
      spokenArguments_concat, endedArguments_concat]
    rcases hended : e.ended? with _ | arguments
    · show (if spokenArguments said = "" then endedArguments said else spokenArguments said) ++
        e.arguments = _
      by_cases hadds : e.arguments = ""
      · rw [hadds, String.append_empty, String.append_empty, Option.getD_none]
        by_cases hempty : endedArguments said = ""
        · rw [if_pos hempty, hempty]
        · rw [if_neg hempty]
      · -- a delta: no end of arguments has come before it
        have hnone : endedArguments said = "" := by
          refine endedArguments_of_forall fun e' he' => ?_
          rcases hended' : e'.ended? with _ | arguments'
          · rfl
          · refine absurd (hlast e' he' e List.mem_cons_self ?_) hadds
            rcases e' with item | id | ⟨id, delta⟩ | ⟨id, delta⟩ | ⟨id, ended⟩ | item
            · cases hended'
            · cases hended'
            · cases hended'
            · cases hended'
            · exact ⟨id, ended, rfl⟩
            · cases hended'
        have hne : spokenArguments said ++ e.arguments ≠ "" := fun h =>
          hadds (String.append_eq_empty_iff.mp h).2
        rw [hnone, if_neg hne]
        by_cases hempty : spokenArguments said = ""
        · rw [if_pos hempty, hempty]
        · rw [if_neg hempty]
    · show (if (if spokenArguments said = "" then endedArguments said else spokenArguments said) = ""
        then arguments else _) = _
      rw [arguments_of_ended hended, String.append_empty, Option.getD_some]
      by_cases hempty : spokenArguments said = ""
      · rw [if_pos hempty, if_pos hempty]
      · rw [if_neg hempty, if_neg hempty, if_neg hempty]

/-! ### An item that has ended -/

/-- The value of an item that comes up under the first name that its events have. -/
def itemOf (said : List ItemEvent) : Option Json :=
  (gatherAll said).bind fun g => ResponseState.outputItem ((homeOf said).getD "") g.item

theorem itemType_gatherAll {it : Item} (h : ∀ e ∈ said, it.Names e) :
    ((gatherAll said).getD {}).itemType = "" ∨ ((gatherAll said).getD {}).itemType = it.kind := by
  induction said using List.reverseRecOn with
  | nil => exact Or.inl rfl
  | append_singleton said e ih =>
    have ih := ih fun e' he' => h e' (List.mem_append_left _ he')
    have hnames := h e (List.mem_append_right _ List.mem_cons_self)
    rw [getD_gatherAll_concat]
    generalize (gatherAll said).getD {} = g at ih
    rcases e with item | id | ⟨id, delta⟩ | ⟨id, delta⟩ | ⟨id, _ | arguments⟩ | item
    · have hkind : item.getStr? "type" = some it.kind := hnames.1
      exact Or.inr (by rw [ItemEvent.change, hkind, Option.getD_some])
    · exact ih
    · exact ih
    · exact ih
    · exact ih
    · show (if g.functionCallArguments.isEmpty then _ else _ : Gathered).itemType = "" ∨
        (if g.functionCallArguments.isEmpty then _ else _ : Gathered).itemType = it.kind
      split
      · exact ih
      · exact ih
    · have hkind : item.getStr? "type" = some it.kind := hnames.1
      show (if g.itemType.isEmpty then (item.getStr? "type").getD g.itemType else g.itemType) = "" ∨
        (if g.itemType.isEmpty then (item.getStr? "type").getD g.itemType else g.itemType) = it.kind
      split
      · exact Or.inr (by rw [hkind, Option.getD_some])
      · exact ih

/-- What is gathered of an item that has ended. -/
structure Ended (it : Item) (said : List ItemEvent) (final : Json) (g : Gathered) : Prop where
  gathered : gatherAll said = some g
  latest : latest said = some final
  kind : final.getStr? "type" = some it.kind
  itemType : g.itemType = it.kind
  metadata : g.metadata = final
  complete : g.complete = true
  outputText : g.outputText = spokenText said
  arguments : g.functionCallArguments = streamedArguments said
  done_mem : ItemEvent.done final ∈ said

theorem ended_of_ordered {it : Item} (h : Ordered said)
    (hnames : ∀ e ∈ said, it.Names e) : ∃ final g, Ended it said final g := by
  obtain ⟨start, middle, final, rfl, hstart, hmiddle, hpairs⟩ := h
  have hkind : final.getStr? "type" = some it.kind :=
    (hnames (.done final) (List.mem_append_right _ List.mem_cons_self)).1
  have htype := itemType_gatherAll fun e (he : e ∈ start ++ middle) =>
    hnames e (List.mem_append_left _ he)
  have hlast : ArgumentsLast (start ++ middle ++ [.done final]) := by
    refine List.pairwise_append.mpr ⟨List.pairwise_append.mpr ⟨?_, hpairs, ?_⟩,
      List.pairwise_singleton _ _, ?_⟩
    · rcases hstart with rfl | ⟨item, rfl⟩
      · exact List.Pairwise.nil
      · exact List.pairwise_singleton _ _
    · rintro e he e' - ⟨id, arguments, rfl⟩
      rcases hstart with rfl | ⟨item, rfl⟩
      · exact absurd he List.not_mem_nil
      · exact absurd (List.mem_singleton.mp he) ItemEvent.noConfusion
    · rintro e - e' he' -
      obtain rfl := List.mem_singleton.mp he'
      rfl
  have hgathered : gatherAll (start ++ middle ++ [.done final]) =
      some (ItemEvent.change (.done final) ((gatherAll (start ++ middle)).getD {})) :=
    gatherAll_concat (start ++ middle) (.done final)
  have htext := outputText_gatherAll (start ++ middle ++ [.done final])
  have harguments := arguments_gatherAll hlast
  rw [hgathered, Option.getD_some] at htext harguments
  refine ⟨final, _, hgathered, latest_concat _ _, hkind, ?_, rfl, rfl, htext, harguments,
    List.mem_append_right _ List.mem_cons_self⟩
  generalize (gatherAll (start ++ middle)).getD {} = g at htype
  show (if g.itemType.isEmpty then (final.getStr? "type").getD g.itemType else g.itemType) = it.kind
  rw [hkind, Option.getD_some]
  rcases htype with hempty | heq
  · rw [if_pos (String.isEmpty_iff.mpr hempty)]
  · rw [heq, ite_self]

namespace Ended

variable {it : Item} {said : List ItemEvent} {final : Json} {g : Gathered}

theorem isObj (h : Ended it said final g) : final.isObj := by
  obtain ⟨value, hvalue, -⟩ := Option.bind_eq_some_iff.mp h.kind
  obtain ⟨fields, rfl⟩ := Json.isObj_of_get? hvalue
  rfl

/-- An item that has ended is shown by its type. -/
theorem outputItem (h : Ended it said final g) (id : String) :
    ResponseState.outputItem id g.item =
      match it.kind with
      | "function_call" => some (ResponseState.callItem id g.item)
      | "message" => ResponseState.messageItem id g.item
      | _ => ResponseState.otherItem id g.item := by
  have htype : (if g.item.itemType.isEmpty then (g.item.metadata.getStr? "type").getD ""
      else g.item.itemType) = it.kind := by
    show (if g.itemType.isEmpty then (g.metadata.getStr? "type").getD "" else g.itemType) = it.kind
    rw [h.metadata, h.kind, h.itemType, Option.getD_some, ite_self]
  simp only [ResponseState.outputItem, htype] <;> rfl

/-- The end of a call, filled in with the arguments that came before it. -/
def filled (said : List ItemEvent) (final : Json) : Json :=
  if (final.getStr? "arguments").getD "" = "" ∧ streamedArguments said ≠ "" then
    final.insert "arguments" (.str (streamedArguments said))
  else final

theorem callItem_eq (h : Ended it said final g) (id : String) :
    ResponseState.callItem id g.item =
      if ((filled said final).get? "id").isNone then (filled said final).insert "id" (.str id)
      else filled said final := by
  have hmetadata : g.item.metadata = final := h.metadata
  have hstreamed : g.item.functionCallArguments = streamedArguments said := h.arguments
  have hcondition : (!((final.getStr? "arguments").any fun args => !args.isEmpty)) = true ∧
      (!(streamedArguments said).isEmpty) = true ↔
        (final.getStr? "arguments").getD "" = "" ∧ streamedArguments said ≠ "" := by
    refine and_congr ?_ ?_
    · rcases final.getStr? "arguments" with _ | args
      · simp
      · simp
    · rw [Bool.not_eq_true', ← Bool.not_eq_true, String.isEmpty_iff]
  rw [ResponseState.callItem, hmetadata, hstreamed, if_pos h.isObj]
  simp only [hcondition]
  rfl

theorem get?_filled {key : String} (hkey : key ≠ "arguments") :
    (filled said final).get? key = final.get? key := by
  unfold filled
  split
  · exact Json.get?_insert_of_ne hkey
  · rfl

theorem arguments_filled (h : Ended it said final g) :
    ((filled said final).getStr? "arguments").getD "" = fullArguments said := by
  rw [fullArguments, h.latest, Option.bind_some, filled]
  by_cases hempty : (final.getStr? "arguments").getD "" = ""
  · rw [if_pos hempty]
    by_cases hstreamed : streamedArguments said = ""
    · rw [if_neg fun hboth => hboth.2 hstreamed, hempty, hstreamed]
    · rw [if_pos ⟨hempty, hstreamed⟩, Json.getStr?, Json.get?_insert_self_of_isObj h.isObj]
      rfl
  · rw [if_neg fun hboth => hempty hboth.1, if_neg hempty]

/-- A call as it ended, with its arguments. -/
theorem callItem (h : Ended it said final g) (id : String) :
    (∀ key, key ≠ "id" → key ≠ "arguments" →
      (ResponseState.callItem id g.item).getStr? key = final.getStr? key) ∧
      ((ResponseState.callItem id g.item).getStr? "arguments").getD "" = fullArguments said := by
  have hother : ∀ key, key ≠ "id" →
      (ResponseState.callItem id g.item).get? key = (filled said final).get? key := by
    intro key hkey
    rw [h.callItem_eq]
    split
    · exact Json.get?_insert_of_ne hkey
    · rfl
  refine ⟨fun key hid harguments => ?_, ?_⟩
  · rw [Json.getStr?, hother key hid, get?_filled harguments]
    rfl
  · have hne : "arguments" ≠ "id" := by decide
    rw [← h.arguments_filled, Json.getStr?, hother _ hne]
    rfl

/-- A message as it ended, with its text. -/
theorem messageItem (h : Ended it said final g) (id : String) :
    ∃ v, ResponseState.messageItem id g.item = some v ∧
      (∀ key, key ≠ "content" → v.getStr? key = final.getStr? key) ∧
      contentText v = fullText said := by
  have hmetadata : g.item.metadata = final := h.metadata
  have hcomplete : g.item.complete = true := h.complete
  have htext : g.item.outputText = spokenText said := h.outputText
  rw [ResponseState.messageItem, hmetadata, hcomplete, htext, Bool.true_and, fullText, h.latest,
    Option.getD_some, if_pos h.isObj, if_pos h.isObj]
  by_cases hcontent : (final.getArr? "content").getD [] = []
  · have hnone : ¬ ((final.getArr? "content").any fun content => !content.isEmpty) = true := by
      rcases hc : final.getArr? "content" with _ | content
      · simp
      · rw [hc, Option.getD_some] at hcontent
        simp [hcontent]
    rw [if_neg hnone, if_pos hcontent]
    by_cases hspoken : spokenText said = ""
    · have hempty : ¬ (!(spokenText said).isEmpty) = true := by simp [hspoken]
      refine ⟨final, if_neg hempty, fun _ _ => rfl, ?_⟩
      rw [contentText, hcontent, hspoken]
      rfl
    · have hsome : (!(spokenText said).isEmpty) = true := by simp [hspoken]
      refine ⟨_, if_pos hsome, fun key hkey => ?_, ?_⟩
      · rw [Json.getStr?, Json.get?_insert_of_ne hkey]
        rfl
      · rw [contentText, Json.getArr?, Json.get?_insert_self_of_isObj h.isObj]
        show "" ++ spokenText said = spokenText said
        exact String.empty_append
  · have hsome : ((final.getArr? "content").any fun content => !content.isEmpty) = true := by
      rcases hc : final.getArr? "content" with _ | content
      · rw [hc] at hcontent
        exact absurd rfl hcontent
      · rw [hc, Option.getD_some] at hcontent
        simp [hcontent]
    exact ⟨final, if_pos hsome, fun _ _ => rfl, (if_neg hcontent).symm⟩

theorem otherItem (h : Ended it said final g) (id : String) :
    ResponseState.otherItem id g.item = some final := by
  have hobj : g.item.metadata.isObj := by
    show g.metadata.isObj
    rw [h.metadata]
    exact h.isObj
  rw [ResponseState.otherItem, if_pos hobj]
  exact congrArg some h.metadata

end Ended

end Headroom.Sse.OpenaiResponses
