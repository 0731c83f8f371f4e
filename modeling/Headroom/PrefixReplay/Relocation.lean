import Headroom.PrefixReplay.Compare
import Headroom.PrefixReplay.TrailingSpans

/-!
# Relocation of scaffolding

The reminder spans that end the texts of user messages are taken out and put behind the blocks of the
newest one, the destination. A message that was nothing but scaffolding leaves with it.

## Main statements

* `relocate_relocated` : spans are conserved, and what is no scaffolding is left alone.
-/

open Foundation

namespace Headroom.PrefixReplay

/-! ### The report -/

/-- What one pass did. -/
structure RelocationReport where
  blocksMoved : ℕ := 0
  spansIn : ℕ := 0
  spansOut : ℕ := 0
  bytesMoved : ℕ := 0
  sourceIndices : List ℕ := []
  sourceRoles : List String := []
  spanKinds : List String := []
  tailShape : String := ""
  tailPromoted : Bool := false
  skipReason : String := ""
  deriving DecidableEq

def isUser (message : Json) : Bool := message.getStr? "role" == some "user"

/-- How many opening tags the text of a block carries. -/
def blockSpanCount (block : Json) : ℕ :=
  ((block.getStr? "text").map fun text => spanCount text.toList).getD 0

/-- How many opening tags a message carries, in whatever text. -/
def messageSpanCount (message : Json) : ℕ :=
  match message.get? "content" with
  | some (.str text) => spanCount text.toList
  | some (.arr blocks) => (blocks.map blockSpanCount).sum
  | _ => 0

def countEphemeralSpans (messages : List Json) : ℕ := (messages.map messageSpanCount).sum

def contentShape (message : Json) : String :=
  match message.get? "content" with
  | some (.str _) => "string"
  | some (.arr _) => "array"
  | _ => "absent"

def textKind (text : String) : String :=
  if isEphemeralClientText text then "system-reminder"
  else if Text.contains systemReminderOpenTag text.toList then "plain+system-reminder"
  else if (Text.trimStart text.toList).head? = some '<' then "other-tag"
  else "plain"

/-- The kinds of a message's texts. -/
def textBlockKinds (message : Json) : List String :=
  match message.get? "content" with
  | some (.str text) => [textKind text]
  | some (.arr blocks) => (blocks.filter isTextBlock).map fun block => textKind ((block.getStr? "text").getD "")
  | _ => []

def noteTextKinds (seen : List String) (message : Json) : List String :=
  (textBlockKinds message).foldl (fun seen kind => if kind ∈ seen then seen else seen ++ [kind]) seen

def roleLabel (message : Json) : String :=
  match message.getStr? "role" with
  | some "user" => "user"
  | some "assistant" => "assistant"
  | _ => "other"

/-! ### The pass -/

/-- A user message without the spans at the end of its texts, whether that leaves nothing of it, and
the spans; `none` when there are none to take. -/
def takeFromMessage (msg : Json) : Option (Json × Bool × List (List Char)) :=
  -- only the client puts scaffolding on a request, and only on a turn of the user
  if !isUser msg then none
  else
    match msg.get? "content" with
    | some (.str text) =>
      (splitTrailingEphemeralSpans text.toList).map fun (kept, spans) =>
        (msg.insert "content" (.str (String.ofList kept)), kept.isEmpty, spans)
    | some (.arr blocks) =>
      if blocks.any fun block => (takeTrailingEphemeralSpans block).isSome then
        let keep := blocks.filterMap fun block =>
          match takeTrailingEphemeralSpans block with
          | none => some block
          | some (keptBlock, _) => keptBlock
        let spans := blocks.flatMap fun block =>
          match takeTrailingEphemeralSpans block with
          | none => []
          | some (_, spans) => spans
        some (msg.insert "content" (.arr keep), keep.isEmpty, spans)
      else none
    | _ => none

/-- A span as a block of its own. -/
def spanBlock (span : List Char) : Json := textBlock (String.ofList span)

/-- What has been collected from the messages so far. -/
structure Raid where
  report : RelocationReport := {}
  spanKinds : List String := []
  collected : List Json := []
  out : List Json := []

def raidMessage (dest : ℕ) (raid : Raid) : Json × ℕ → Raid
  | (msg, index) =>
    match takeFromMessage msg with
    | none => { raid with out := raid.out ++ [msg] }
    | some (left, nothing, spans) =>
      let role := roleLabel msg
      let raid := { raid with
        report := { raid.report with
          sourceIndices := raid.report.sourceIndices ++ [index]
          sourceRoles :=
            if role ∈ raid.report.sourceRoles then raid.report.sourceRoles
            else raid.report.sourceRoles ++ [role]
          bytesMoved := raid.report.bytesMoved + (spans.map Text.utf8Length).sum }
        spanKinds := noteTextKinds raid.spanKinds msg
        collected := raid.collected ++ spans.map spanBlock }
      -- a message that was nothing but scaffolding leaves with it, unless it is the destination
      if nothing && index ≠ dest then raid else { raid with out := raid.out ++ [left] }

/-- The destination with blocks behind its own, and whether it had to be given block form. -/
def land (collected : List Json) (tail : Json) : Option (Json × Bool) :=
  match tail.get? "content" with
  | some (.str text) =>
    let blocks := if text.toList = [] then [] else [textBlock text]
    some (tail.insert "content" (.arr (blocks ++ collected)), true)
  | some (.arr blocks) => some (tail.insert "content" (.arr (blocks ++ collected)), false)
  | _ => none

/-- The last position at which something holds. -/
def rposition {α : Type*} (p : α → Bool) : List α → Option ℕ
  | [] => none
  | a :: l =>
    match rposition p l with
    | some i => some (i + 1)
    | none => if p a then some 0 else none

def relocateEphemeralBlocksReported (messages : List Json) : List Json × RelocationReport :=
  let spansIn := countEphemeralSpans messages
  if messages.isEmpty then (messages, { spansIn := spansIn, skipReason := "empty_messages" })
  else
    match rposition isUser messages with
    | none =>
      (messages, { spansIn := spansIn, spansOut := spansIn, skipReason := "no_user_message" })
    | some dest =>
      let raid := (messages.take (dest + 1)).zipIdx.foldl (raidMessage dest)
        { report := { spansIn := spansIn, tailShape := (messages[dest]?.map contentShape).getD "" } }
      let after := messages.drop (dest + 1)
      if raid.collected.isEmpty then
        (raid.out ++ after,
          { raid.report with spansOut := spansIn, skipReason := "nothing_to_move" })
      else
        let report := { raid.report with spanKinds := raid.spanKinds }
        match raid.out.getLast?.bind (land raid.collected) with
        | some (tail, promoted) =>
          let out := raid.out.dropLast ++ tail :: after
          (out, { report with
            tailPromoted := promoted
            blocksMoved := raid.collected.length
            spansOut := countEphemeralSpans out })
        | none =>
          -- there is no content for the spans to land on
          let out := raid.out ++ after
          (out, { report with
            skipReason := "no_block_tail"
            spansOut := countEphemeralSpans out })

/-! ### What the pass keeps -/

/-- What stays of a message that is not the destination. -/
def lifted (msg : Json) : Option Json :=
  match takeFromMessage msg with
  | none => some msg
  | some (left, nothing, _) => if nothing then none else some left

/-- The spans that are taken from a message. -/
def takenSpans (msg : Json) : List (List Char) :=
  match takeFromMessage msg with
  | none => []
  | some (_, _, spans) => spans

/-- What stays of the destination. -/
def stripped (msg : Json) : Json :=
  match takeFromMessage msg with
  | none => msg
  | some (left, _, _) => left

/-- The spans in the text of a block. -/
def blockSpans (block : Json) : List (List Char) :=
  ((block.getStr? "text").map fun text => spansOf text.toList).getD []

/-- The spans of a message. -/
def messageSpans (message : Json) : List (List Char) :=
  match message.get? "content" with
  | some (.str text) => spansOf text.toList
  | some (.arr blocks) => blocks.flatMap blockSpans
  | _ => []

/-- Blocks that have lost the spans at the end of their texts, and nothing else but whitespace. -/
inductive Shed : List Json → List Json → List (List Char) → Prop
  | nil : Shed [] [] []
  | keep {block : Json} {blocks left : List Json} {spans : List (List Char)}
      (h : Shed blocks left spans) : Shed (block :: blocks) (block :: left) spans
  | cut {block : Json} {blocks left : List Json} {taken spans : List (List Char)} {text : String}
      {prose tail : List Char} (htext : block.getStr? "text" = some text)
      (hcut : text.toList = prose ++ tail) (hprose : prose ≠ []) (htail : Scaffold tail taken)
      (h : Shed blocks left spans) :
      Shed (block :: blocks) (block.insert "text" (.str (String.ofList prose)) :: left) (taken ++ spans)
  | drop {block : Json} {blocks left : List Json} {taken spans : List (List Char)} {text : String}
      (htext : block.getStr? "text" = some text) (htail : Scaffold text.toList taken)
      (h : Shed blocks left spans) : Shed (block :: blocks) left (taken ++ spans)

/-- A message that has lost the spans at the end of its texts, and nothing else but whitespace. -/
inductive ShedMessage (msg : Json) : Json → List (List Char) → Prop
  | same : ShedMessage msg msg []
  | text {text : String} {prose tail : List Char} {spans : List (List Char)}
      (hcontent : msg.get? "content" = some (.str text)) (hcut : text.toList = prose ++ tail)
      (htail : Scaffold tail spans) :
      ShedMessage msg (msg.insert "content" (.str (String.ofList prose))) spans
  | blocks {blocks left : List Json} {spans : List (List Char)}
      (hcontent : msg.get? "content" = some (.arr blocks)) (h : Shed blocks left spans) :
      ShedMessage msg (msg.insert "content" (.arr left)) spans

/-- A message with nothing in its content. -/
def EmptyContent (msg : Json) : Prop :=
  msg.get? "content" = some (.str "") ∨ msg.get? "content" = some (.arr [])

/-! ### One block -/

theorem getStr?_insert_self {j : Json} {key value : String} (h : (j.get? key).isSome) :
    (j.insert key (.str value)).getStr? key = some value := by
  obtain ⟨old, hold⟩ := Option.isSome_iff_exists.mp h
  rw [Json.getStr?, Json.get?_insert_self hold]
  rfl

theorem isSome_of_getStr? {j : Json} {key s : String} (h : j.getStr? key = some s) :
    (j.get? key).isSome := by
  obtain ⟨value, hvalue, -⟩ := Option.bind_eq_some_iff.mp h
  rw [hvalue]
  rfl

variable {block : Json} {spans : List (List Char)}

/-- What is taken from a block: its text was prose and spans, and the prose is what is kept. -/
theorem take_spec {kept : Option Json}
    (h : takeTrailingEphemeralSpans block = some (kept, spans)) :
    ∃ text prose, block.getStr? "text" = some text ∧
      splitTrailingEphemeralSpans text.toList = some (prose, spans) ∧
      kept = if prose = [] then none else some (block.insert "text" (.str (String.ofList prose))) := by
  rw [takeTrailingEphemeralSpans] at h
  split_ifs at h with hcarries
  cases htext : block.getStr? "text" with
  | none => simp [htext] at h
  | some text =>
    cases hsplit : splitTrailingEphemeralSpans text.toList with
    | none => simp [htext, hsplit] at h
    | some taken =>
      obtain ⟨prose, spans'⟩ := taken
      simp only [htext, hsplit] at h
      by_cases hprose : prose = []
      · simp only [hprose, List.isEmpty_nil, if_true, Option.some.injEq, Prod.mk.injEq] at h
        exact ⟨text, prose, rfl, h.2 ▸ hsplit, by rw [if_pos hprose, h.1]⟩
      · simp only [List.isEmpty_iff, hprose, if_false, Option.some.injEq, Prod.mk.injEq] at h
        exact ⟨text, prose, rfl, h.2 ▸ hsplit, by rw [if_neg hprose, h.1]⟩

theorem take_of_absent {text : String} (htext : block.getStr? "text" = some text)
    (h : ¬ systemReminderOpenTag <:+: text.toList) :
    takeTrailingEphemeralSpans block = none ∧ blockSpans block = [] ∧ blockSpanCount block = 0 := by
  obtain ⟨-, hspans, hcount⟩ := of_absent h
  refine ⟨?_, ?_, ?_⟩
  · have hnot : blockCarriesEphemeralSpan block = false := by
      rw [blockCarriesEphemeralSpan, htext, Option.any_some, Text.contains,
        (Text.find?_eq_none_iff openTag_ne_nil).mpr h, Option.isSome_none, Bool.and_false]
    rw [takeTrailingEphemeralSpans, hnot]
    rfl
  · rw [blockSpans, htext]
    exact hspans
  · rw [blockSpanCount, htext]
    exact hcount

variable {span : List Char}

theorem take_spanBlock (h : IsSpan span) :
    takeTrailingEphemeralSpans (spanBlock span) = some (none, [span]) := by
  have hsplit := h.splitTrailing
  have htext : (spanBlock span).getStr? "text" = some (String.ofList span) := rfl
  have hcarries : blockCarriesEphemeralSpan (spanBlock span) = true := by
    have htype : isTextBlock (spanBlock span) = true := rfl
    rw [blockCarriesEphemeralSpan, htype, htext, Option.any_some, String.toList_ofList, Text.contains,
      Bool.true_and]
    cases hfind : Text.find? systemReminderOpenTag span with
    | none => simp [splitTrailingEphemeralSpans, hfind] at hsplit
    | some i => rfl
  rw [takeTrailingEphemeralSpans, hcarries]
  simp only [htext, String.toList_ofList, hsplit]
  rfl

theorem blockSpans_spanBlock (h : IsSpan span) :
    blockSpans (spanBlock span) = [span] := by
  have htext : (spanBlock span).getStr? "text" = some (String.ofList span) := rfl
  rw [blockSpans, htext, Option.map_some, Option.getD_some, String.toList_ofList, h.spansOf_eq]

/-! ### The blocks of a message -/

/-- The blocks that are kept. -/
def keptBlocks (blocks : List Json) : List Json :=
  blocks.filterMap fun block =>
    match takeTrailingEphemeralSpans block with
    | none => some block
    | some (keptBlock, _) => keptBlock

/-- The spans that are taken from blocks. -/
def takenFromBlocks (blocks : List Json) : List (List Char) :=
  blocks.flatMap fun block =>
    match takeTrailingEphemeralSpans block with
    | none => []
    | some (_, spans) => spans

theorem keptBlocks_cons (block : Json) (blocks : List Json) : keptBlocks (block :: blocks) =
    (match takeTrailingEphemeralSpans block with
      | none => some block
      | some (keptBlock, _) => keptBlock).toList ++ keptBlocks blocks := by
  rw [keptBlocks, List.filterMap_cons]
  cases takeTrailingEphemeralSpans block with
  | none => rfl
  | some taken =>
    obtain ⟨_ | kept, spans⟩ := taken
    · rfl
    · rfl

theorem takenFromBlocks_cons (block : Json) (blocks : List Json) : takenFromBlocks (block :: blocks) =
    (match takeTrailingEphemeralSpans block with
      | none => []
      | some (_, spans) => spans) ++ takenFromBlocks blocks := rfl

theorem shed_keptBlocks (blocks : List Json) : Shed blocks (keptBlocks blocks) (takenFromBlocks blocks) ∧
    (blocks.flatMap blockSpans).Perm ((keptBlocks blocks).flatMap blockSpans ++ takenFromBlocks blocks) ∧
    (blocks.map blockSpanCount).sum = ((keptBlocks blocks).map blockSpanCount).sum +
      ((takenFromBlocks blocks).map spanCount).sum ∧
    (∀ block ∈ keptBlocks blocks, takeTrailingEphemeralSpans block = none) ∧
    ∀ span ∈ takenFromBlocks blocks, IsSpan span := by
  induction blocks with
  | nil => exact ⟨.nil, List.Perm.refl _, rfl, by simp [keptBlocks], by simp [takenFromBlocks]⟩
  | cons block blocks ih =>
    obtain ⟨hshed, hperm, hcount, hnone, hspan⟩ := ih
    rw [keptBlocks_cons, takenFromBlocks_cons]
    cases htake : takeTrailingEphemeralSpans block with
    | none =>
      refine ⟨hshed.keep, ?_, ?_, fun b hb => ?_, hspan⟩
      · simpa using hperm.append_left (blockSpans block)
      · simp only [Option.toList_some, List.singleton_append, List.map_cons, List.sum_cons, hcount,
          List.nil_append]
        omega
      · rcases List.mem_cons.mp hb with rfl | hb
        · exact htake
        · exact hnone b hb
    | some taken =>
      obtain ⟨kept, spans⟩ := taken
      obtain ⟨text, prose, htext, hsplit, rfl⟩ := take_spec htake
      obtain ⟨⟨tail, hcut, htail⟩, habsent, -, hspans, hspanCount, hall⟩ := splitTrailing_spec hsplit
      have hblock : blockSpans block = spans := by
        rw [blockSpans, htext]
        exact hspans
      have hblockCount : blockSpanCount block = (spans.map spanCount).sum := by
        rw [blockSpanCount, htext]
        exact hspanCount
      have hspan' : ∀ span ∈ spans ++ takenFromBlocks blocks, IsSpan span := fun span hmem =>
        (List.mem_append.mp hmem).elim (hall span) (hspan span)
      dsimp only
      by_cases hprose : prose = []
      · rw [if_pos hprose, Option.toList_none, List.nil_append]
        subst hprose
        rw [List.nil_append] at hcut
        refine ⟨hshed.drop htext (hcut ▸ htail), ?_, ?_, hnone, hspan'⟩
        · rw [List.flatMap_cons, hblock]
          refine (hperm.append_left spans).trans ?_
          rw [← List.append_assoc, ← List.append_assoc]
          exact List.perm_append_comm.append_right _
        · rw [List.map_cons, List.sum_cons, hblockCount, hcount, List.map_append, List.sum_append]
          omega
      · rw [if_neg hprose, Option.toList_some, List.singleton_append]
        have hkept : (block.insert "text" (.str (String.ofList prose))).getStr? "text" =
            some (String.ofList prose) := getStr?_insert_self (isSome_of_getStr? htext)
        obtain ⟨hnone', hspans', hcount'⟩ :=
          take_of_absent hkept (by rwa [String.toList_ofList])
        refine ⟨hshed.cut htext hcut hprose htail, ?_, ?_, fun b hb => ?_, hspan'⟩
        · rw [List.flatMap_cons, List.flatMap_cons, hblock, hspans', List.nil_append]
          refine (hperm.append_left spans).trans ?_
          rw [← List.append_assoc, ← List.append_assoc]
          exact List.perm_append_comm.append_right _
        · rw [List.map_cons, List.sum_cons, hblockCount, hcount, List.map_cons, List.sum_cons, hcount',
            List.map_append, List.sum_append]
          omega
        · rcases List.mem_cons.mp hb with rfl | hb
          · exact hnone'
          · exact hnone b hb

/-! ### One message -/

variable {msg : Json} {blocks : List Json}

theorem takeFromMessage_of_arr (huser : isUser msg)
    (hcontent : msg.get? "content" = some (.arr blocks)) : takeFromMessage msg =
      if blocks.any fun block => (takeTrailingEphemeralSpans block).isSome then
        some (msg.insert "content" (.arr (keptBlocks blocks)), (keptBlocks blocks).isEmpty,
          takenFromBlocks blocks)
      else none := by
  rw [takeFromMessage, huser]
  simp only [Bool.not_true, Bool.false_eq_true, if_false, hcontent]
  rfl

theorem takeFromMessage_of_str {text : String} (huser : isUser msg)
    (hcontent : msg.get? "content" = some (.str text)) : takeFromMessage msg =
      (splitTrailingEphemeralSpans text.toList).map fun (kept, spans) =>
        (msg.insert "content" (.str (String.ofList kept)), kept.isEmpty, spans) := by
  rw [takeFromMessage, huser]
  simp only [Bool.not_true, Bool.false_eq_true, if_false, hcontent]

variable {left : Json}

/-- What is taken from a message are the spans of its content, which is a string or blocks. -/
theorem takeFromMessage_eq_some {nothing : Bool}
    (h : takeFromMessage msg = some (left, nothing, spans)) : isUser msg ∧
    ((∃ text prose, msg.get? "content" = some (.str text) ∧
      splitTrailingEphemeralSpans text.toList = some (prose, spans) ∧
      left = msg.insert "content" (.str (String.ofList prose)) ∧ nothing = prose.isEmpty) ∨
    (∃ blocks, msg.get? "content" = some (.arr blocks) ∧
      (blocks.any fun block => (takeTrailingEphemeralSpans block).isSome) ∧
      left = msg.insert "content" (.arr (keptBlocks blocks)) ∧ nothing = (keptBlocks blocks).isEmpty ∧
      spans = takenFromBlocks blocks)) := by
  have huser : isUser msg := by
    by_contra hnot
    rw [takeFromMessage, Bool.not_eq_true _ |>.mp hnot] at h
    cases h
  refine ⟨huser, ?_⟩
  cases hcontent : msg.get? "content" with
  | none => simp [takeFromMessage, huser, hcontent] at h
  | some content =>
    cases content with
    | str text =>
      rw [takeFromMessage_of_str huser hcontent] at h
      obtain ⟨⟨prose, spans'⟩, hsplit, heq⟩ := Option.map_eq_some_iff.mp h
      simp only [Prod.mk.injEq] at heq
      obtain ⟨rfl, rfl, rfl⟩ := heq
      exact Or.inl ⟨text, prose, rfl, hsplit, rfl, rfl⟩
    | arr blocks =>
      rw [takeFromMessage_of_arr huser hcontent] at h
      split_ifs at h with hany
      simp only [Option.some.injEq, Prod.mk.injEq] at h
      obtain ⟨rfl, rfl, rfl⟩ := h
      exact Or.inr ⟨blocks, rfl, hany, rfl, rfl, rfl⟩
    | _ => simp [takeFromMessage, huser, hcontent] at h

theorem isUser_insert_content (msg content : Json) : isUser (msg.insert "content" content) = isUser msg := by
  have hrole : (msg.insert "content" content).get? "role" = msg.get? "role" :=
    Json.get?_insert_of_ne (by decide)
  rw [isUser, isUser, Json.getStr?, hrole, Json.getStr?]

theorem mem_takenFromBlocks {taken : Option Json × List (List Char)}
    (hblock : block ∈ blocks) (htake : takeTrailingEphemeralSpans block = some taken) :
    ∀ span ∈ taken.2, span ∈ takenFromBlocks blocks := by
  intro span hspan
  refine List.mem_flatMap.mpr ⟨block, hblock, ?_⟩
  rw [htake]
  exact hspan

theorem takenFromBlocks_ne_nil (h : blocks.any fun block => (takeTrailingEphemeralSpans block).isSome) :
    takenFromBlocks blocks ≠ [] := by
  obtain ⟨block, hblock, hsome⟩ := List.any_eq_true.mp h
  obtain ⟨⟨kept, spans⟩, htake⟩ := Option.isSome_iff_exists.mp hsome
  obtain ⟨text, prose, -, hsplit, -⟩ := take_spec htake
  obtain ⟨-, -, hne, -⟩ := splitTrailing_spec hsplit
  obtain ⟨span, hspan⟩ := List.exists_mem_of_ne_nil _ hne
  exact List.ne_nil_of_mem (mem_takenFromBlocks hblock htake span hspan)

theorem take_eq_none_of_kept (h : ∀ block ∈ blocks, takeTrailingEphemeralSpans block = none) :
    (blocks.any fun block => (takeTrailingEphemeralSpans block).isSome) = false := by
  rw [List.any_eq_false]
  intro block hblock
  rw [h block hblock]
  simp

/-- A message from which spans are taken has lost these and nothing else, and no more can be taken. -/
theorem takeFromMessage_spec {nothing : Bool}
    (h : takeFromMessage msg = some (left, nothing, spans)) :
    ShedMessage msg left spans ∧ spans ≠ [] ∧ isUser left ∧ takeFromMessage left = none ∧
      (nothing ↔ EmptyContent left) ∧ (messageSpans msg).Perm (messageSpans left ++ spans) ∧
      messageSpanCount msg = messageSpanCount left + (spans.map spanCount).sum ∧
      ∀ span ∈ spans, IsSpan span := by
  obtain ⟨huser, ⟨text, prose, hcontent, hsplit, rfl, rfl⟩ |
    ⟨blocks, hcontent, hany, rfl, rfl, rfl⟩⟩ := takeFromMessage_eq_some h
  · obtain ⟨⟨tail, hcut, htail⟩, habsent, hne, hspans, hcount, hall⟩ := splitTrailing_spec hsplit
    obtain ⟨hnone, hspans', hcount'⟩ := of_absent habsent
    have hleft : (msg.insert "content" (.str (String.ofList prose))).get? "content" =
        some (.str (String.ofList prose)) := Json.get?_insert_self hcontent
    have huser' := isUser_insert_content msg (.str (String.ofList prose))
    refine ⟨.text hcontent hcut htail, hne, huser'.trans huser, ?_, ?_, ?_, ?_, hall⟩
    · rw [takeFromMessage_of_str (huser'.trans huser) hleft, String.toList_ofList, hnone]
      rfl
    · rw [EmptyContent, hleft, List.isEmpty_iff]
      simp [String.ofList_eq_empty_iff]
    · rw [messageSpans, hcontent, messageSpans, hleft]
      simp only [String.toList_ofList, hspans, hspans', List.nil_append]
      exact List.Perm.refl _
    · rw [messageSpanCount, hcontent, messageSpanCount, hleft]
      simp only [String.toList_ofList, hcount, hcount', Nat.zero_add]
  · obtain ⟨hshed, hperm, hcount, hnone, hall⟩ := shed_keptBlocks blocks
    have hleft : (msg.insert "content" (.arr (keptBlocks blocks))).get? "content" =
        some (.arr (keptBlocks blocks)) := Json.get?_insert_self hcontent
    have huser' := isUser_insert_content msg (.arr (keptBlocks blocks))
    refine ⟨.blocks hcontent hshed, takenFromBlocks_ne_nil hany, huser'.trans huser, ?_, ?_, ?_, ?_, hall⟩
    · rw [takeFromMessage_of_arr (huser'.trans huser) hleft, take_eq_none_of_kept hnone]
      rfl
    · rw [EmptyContent, hleft, List.isEmpty_iff]
      simp
    · rw [messageSpans, hcontent, messageSpans, hleft]
      exact hperm
    · rw [messageSpanCount, hcontent, messageSpanCount, hleft]
      exact hcount

theorem lifted_of_none (h : takeFromMessage msg = none) :
    lifted msg = some msg ∧ takenSpans msg = [] ∧ stripped msg = msg := by
  refine ⟨?_, ?_, ?_⟩
  · rw [lifted, h]
  · rw [takenSpans, h]
  · rw [stripped, h]

theorem takeFromMessage_eq_none_iff : takeFromMessage msg = none ↔ takenSpans msg = [] := by
  refine ⟨fun h => (lifted_of_none h).2.1, fun h => ?_⟩
  cases htake : takeFromMessage msg with
  | none => rfl
  | some taken =>
    obtain ⟨left, nothing, spans⟩ := taken
    rw [takenSpans, htake] at h
    exact absurd h (takeFromMessage_spec htake).2.1

theorem isSpan_of_mem_takenSpans (h : span ∈ takenSpans msg) :
    IsSpan span := by
  cases htake : takeFromMessage msg with
  | none => simp [takenSpans, htake] at h
  | some taken =>
    obtain ⟨left, nothing, spans⟩ := taken
    rw [takenSpans, htake] at h
    exact (takeFromMessage_spec htake).2.2.2.2.2.2.2 span h

/-- The destination has lost its own spans, and is still a message of the user. -/
theorem stripped_spec (msg : Json) : ShedMessage msg (stripped msg) (takenSpans msg) ∧
    isUser (stripped msg) = isUser msg ∧ takeFromMessage (stripped msg) = none ∧
    (messageSpans msg).Perm (messageSpans (stripped msg) ++ takenSpans msg) ∧
    messageSpanCount msg = messageSpanCount (stripped msg) + ((takenSpans msg).map spanCount).sum := by
  cases htake : takeFromMessage msg with
  | none =>
    obtain ⟨-, hspans, hstripped⟩ := lifted_of_none htake
    rw [hspans, hstripped, List.append_nil]
    exact ⟨.same, rfl, htake, List.Perm.refl _, rfl⟩
  | some taken =>
    obtain ⟨left, nothing, spans⟩ := taken
    obtain ⟨hshed, -, huser, hnone, -, hperm, hcount, -⟩ := takeFromMessage_spec htake
    have huser' := (takeFromMessage_eq_some htake).1
    have hspans : takenSpans msg = spans := by rw [takenSpans, htake]
    have hstripped : stripped msg = left := by rw [stripped, htake]
    rw [hspans, hstripped]
    exact ⟨hshed, huser.trans huser'.symm, hnone, hperm, hcount⟩

/-- A message that stays has lost its spans; one that leaves was nothing else. -/
theorem lifted_spec (msg : Json) :
    (lifted msg = some (stripped msg) ∧ (stripped msg = msg ∨ ¬ EmptyContent (stripped msg))) ∨
    (lifted msg = none ∧ isUser msg ∧ EmptyContent (stripped msg)) := by
  cases htake : takeFromMessage msg with
  | none =>
    obtain ⟨hlifted, -, hstripped⟩ := lifted_of_none htake
    exact Or.inl ⟨by rw [hlifted, hstripped], Or.inl hstripped⟩
  | some taken =>
    obtain ⟨left, nothing, spans⟩ := taken
    obtain ⟨-, -, -, -, hempty, -⟩ := takeFromMessage_spec htake
    rw [lifted, stripped, htake]
    dsimp only
    split_ifs with hnothing
    · exact Or.inr ⟨rfl, (takeFromMessage_eq_some htake).1, hempty.mp hnothing⟩
    · exact Or.inl ⟨rfl, Or.inr fun h => hnothing (hempty.mpr h)⟩

theorem of_emptyContent (h : EmptyContent msg) :
    messageSpans msg = [] ∧ messageSpanCount msg = 0 := by
  rcases h with h | h
  · rw [messageSpans, messageSpanCount, h]
    exact ⟨rfl, rfl⟩
  · rw [messageSpans, messageSpanCount, h]
    exact ⟨rfl, rfl⟩

theorem filterMap_lifted_cons (m : Json) (ms : List Json) :
    (m :: ms).filterMap lifted = (lifted m).toList ++ ms.filterMap lifted := by
  rw [List.filterMap_cons]
  cases lifted m with
  | none => rfl
  | some left => rfl

theorem spans_lifted (ms : List Json) :
    (ms.flatMap messageSpans).Perm
      ((ms.filterMap lifted).flatMap messageSpans ++ ms.flatMap takenSpans) ∧
    countEphemeralSpans ms = countEphemeralSpans (ms.filterMap lifted) +
      ((ms.flatMap takenSpans).map spanCount).sum := by
  induction ms with
  | nil => exact ⟨List.Perm.refl _, rfl⟩
  | cons m ms ih =>
    obtain ⟨hperm, hcount⟩ := ih
    obtain ⟨-, -, -, hperm', hcount'⟩ := stripped_spec m
    rw [List.flatMap_cons, List.flatMap_cons]
    -- a message that leaves has no spans left
    have hleft : ((lifted m).toList ++ ms.filterMap lifted).flatMap messageSpans =
        messageSpans (stripped m) ++ (ms.filterMap lifted).flatMap messageSpans ∧
        countEphemeralSpans ((lifted m).toList ++ ms.filterMap lifted) =
          messageSpanCount (stripped m) + countEphemeralSpans (ms.filterMap lifted) := by
      rcases lifted_spec m with ⟨hlifted, -⟩ | ⟨hlifted, -, hempty⟩
      · rw [hlifted]
        exact ⟨rfl, rfl⟩
      · rw [hlifted, (of_emptyContent hempty).1, (of_emptyContent hempty).2, Nat.zero_add]
        exact ⟨rfl, rfl⟩
    rw [filterMap_lifted_cons, hleft.1, hleft.2]
    refine ⟨?_, ?_⟩
    · refine (hperm'.append hperm).trans ?_
      rw [List.append_assoc, List.append_assoc]
      refine List.Perm.append_left _ ?_
      rw [← List.append_assoc, ← List.append_assoc]
      exact List.perm_append_comm.append_right _
    · rw [List.map_append, List.sum_append]
      show messageSpanCount m + countEphemeralSpans ms = _
      omega

/-! ### The whole pass -/

variable {α : Type*} {p : α → Bool}

theorem rposition_eq_none {l : List α} :
    rposition p l = none ↔ ∀ a ∈ l, p a = false := by
  induction l with
  | nil => simp [rposition]
  | cons a l ih =>
    rw [rposition]
    cases hl : rposition p l with
    | some i => simpa using fun _ => mt ih.mpr (by rw [hl]; nofun)
    | none =>
      dsimp only
      rw [List.forall_mem_cons]
      split_ifs with ha
      · simp [ha]
      · simpa [ha] using ih.mp hl

theorem rposition_append {before after : List α} {a : α} (ha : p a)
    (hafter : ∀ b ∈ after, p b = false) : rposition p (before ++ a :: after) = some before.length := by
  induction before with
  | nil => rw [List.nil_append, rposition, rposition_eq_none.mpr hafter, if_pos ha]; rfl
  | cons b before ih => rw [List.cons_append, rposition, ih]; rfl

theorem exists_split_of_rposition {l : List α} (h : rposition p l ≠ none) :
    ∃ before a after, l = before ++ a :: after ∧ p a ∧ ∀ b ∈ after, p b = false := by
  induction l with
  | nil => exact absurd rfl h
  | cons a l ih =>
    by_cases hl : rposition p l = none
    · refine ⟨[], a, l, rfl, ?_, rposition_eq_none.mp hl⟩
      by_contra ha
      exact h (by rw [rposition, hl, if_neg ha])
    · obtain ⟨before, b, after, rfl, hb, hafter⟩ := ih hl
      exact ⟨a :: before, b, after, rfl, hb, hafter⟩

theorem raidMessage_spec (dest : ℕ) (raid : Raid) (msg : Json) (index : ℕ) :
    (raidMessage dest raid (msg, index)).out =
      raid.out ++ (if index = dest then [stripped msg] else (lifted msg).toList) ∧
    (raidMessage dest raid (msg, index)).collected =
      raid.collected ++ (takenSpans msg).map spanBlock ∧
    (raidMessage dest raid (msg, index)).report.spansIn = raid.report.spansIn := by
  rw [raidMessage, stripped, lifted, takenSpans]
  cases htake : takeFromMessage msg with
  | none => simp
  | some taken =>
    obtain ⟨left, nothing, spans⟩ := taken
    dsimp only
    by_cases hdest : index = dest
    · simp [hdest]
    · cases nothing with
      | true => simp [hdest]
      | false => simp [hdest]

variable {before : List Json}

theorem foldl_raidMessage {dest k : ℕ} (h : k + before.length ≤ dest) (raid : Raid) :
    ((before.zipIdx k).foldl (raidMessage dest) raid).out = raid.out ++ before.filterMap lifted ∧
    ((before.zipIdx k).foldl (raidMessage dest) raid).collected =
      raid.collected ++ (before.flatMap takenSpans).map spanBlock ∧
    ((before.zipIdx k).foldl (raidMessage dest) raid).report.spansIn = raid.report.spansIn := by
  induction before generalizing k raid with
  | nil => simp
  | cons m before ih =>
    rw [List.length_cons] at h
    obtain ⟨hout, hcollected, hspansIn⟩ := raidMessage_spec dest raid m k
    obtain ⟨hout', hcollected', hspansIn'⟩ := ih (k := k + 1) (by omega) (raidMessage dest raid (m, k))
    rw [List.zipIdx_cons, List.foldl_cons, hout', hcollected', hspansIn', hout, hcollected, hspansIn,
      if_neg (by omega), filterMap_lifted_cons, List.flatMap_cons, List.map_append]
    simp

/-- The destination with the spans behind its blocks. -/
def landed (spans : List (List Char)) (dest : Json) : Json :=
  if spans = [] then dest else ((land (spans.map spanBlock) dest).map Prod.fst).getD dest

variable {ms : List Json}

theorem filterMap_lifted_of_nil (h : ms.flatMap takenSpans = []) :
    ms.filterMap lifted = ms := by
  have hsome : ∀ m ∈ ms, lifted m = some m := fun m hm =>
    (lifted_of_none (takeFromMessage_eq_none_iff.mpr (List.flatMap_eq_nil_iff.mp h m hm))).1
  rw [List.filterMap_congr hsome]
  exact List.filterMap_some

variable {after : List Json} {dest : Json}

/-- The messages before the destination one by one, the destination with the spans, and the messages
behind it as they are. -/
theorem relocate_eq (hdest : isUser dest)
    (hafter : ∀ m ∈ after, isUser m = false) :
    (relocateEphemeralBlocksReported (before ++ dest :: after)).1 =
      before.filterMap lifted ++
        landed ((before ++ [dest]).flatMap takenSpans) (stripped dest) :: after ∧
    (relocateEphemeralBlocksReported (before ++ dest :: after)).2.spansIn =
      countEphemeralSpans (before ++ dest :: after) ∧
    (relocateEphemeralBlocksReported (before ++ dest :: after)).2.spansOut =
      countEphemeralSpans (relocateEphemeralBlocksReported (before ++ dest :: after)).1 := by
  have hne : (before ++ dest :: after).isEmpty = false := by simp
  have hposition : rposition isUser (before ++ dest :: after) = some before.length :=
    rposition_append hdest hafter
  have htake : (before ++ dest :: after).take (before.length + 1) = before ++ [dest] := by
    rw [List.take_append, List.take_of_length_le (by omega), Nat.add_sub_cancel_left]
    rfl
  have hdrop : (before ++ dest :: after).drop (before.length + 1) = after := by
    rw [List.drop_append, List.drop_of_length_le (by omega), Nat.add_sub_cancel_left]
    rfl
  generalize hraid : (before ++ [dest]).zipIdx.foldl (raidMessage before.length)
    { report := { spansIn := countEphemeralSpans (before ++ dest :: after)
                  tailShape := ((before ++ dest :: after)[before.length]?.map contentShape).getD "" } } =
      raid
  obtain ⟨hout, hcollected, hspansIn⟩ : raid.out = before.filterMap lifted ++ [stripped dest] ∧
      raid.collected = ((before ++ [dest]).flatMap takenSpans).map spanBlock ∧
      raid.report.spansIn = countEphemeralSpans (before ++ dest :: after) := by
    subst hraid
    rw [List.zipIdx_append, List.foldl_append, Nat.zero_add, List.zipIdx_cons, List.zipIdx_nil,
      List.foldl_cons, List.foldl_nil]
    obtain ⟨hout, hcollected, hspansIn⟩ := foldl_raidMessage
      (show 0 + before.length ≤ before.length by omega)
      { report := { spansIn := countEphemeralSpans (before ++ dest :: after)
                    tailShape := ((before ++ dest :: after)[before.length]?.map contentShape).getD "" } }
    obtain ⟨hout', hcollected', hspansIn'⟩ := raidMessage_spec before.length
      ((before.zipIdx 0).foldl (raidMessage before.length) _) dest before.length
    rw [hout', hcollected', hspansIn', hout, hcollected, hspansIn, if_pos rfl]
    simp
  rw [relocateEphemeralBlocksReported]
  simp only [hne, Bool.false_eq_true, if_false, hposition, htake, hdrop, hraid, hcollected]
  generalize hspans : (before ++ [dest]).flatMap takenSpans = spans
  by_cases hnil : spans = []
  · -- nothing is taken, so the messages are as they came
    have hsame : raid.out = before ++ [dest] := by
      rw [hnil, List.flatMap_append, List.append_eq_nil_iff] at hspans
      have hdest' : takenSpans dest = [] := by simpa using hspans.2
      rw [hout, filterMap_lifted_of_nil hspans.1,
        (lifted_of_none (takeFromMessage_eq_none_iff.mpr hdest')).2.2]
    have hall : raid.out ++ after = before ++ dest :: after := by
      rw [hsame, List.append_assoc]
      rfl
    have hall' : before.filterMap lifted ++ stripped dest :: after = before ++ dest :: after := by
      rw [← hall, hout, List.append_assoc]
      rfl
    rw [hnil, landed, if_pos rfl, hall']
    simp [hall, hspansIn]
  · have hsome : (spans.map spanBlock).isEmpty = false := by simpa using hnil
    have hlast : raid.out.getLast? = some (stripped dest) := by
      rw [hout, List.getLast?_append_of_ne_nil _ (List.cons_ne_nil _ _)]
      rfl
    have hfront : raid.out.dropLast = before.filterMap lifted := by
      rw [hout, List.dropLast_concat]
    rw [landed, if_neg hnil]
    simp only [hsome, Bool.false_eq_true, if_false, hlast, Option.bind_some]
    cases hland : land (spans.map spanBlock) (stripped dest) with
    | none =>
      refine ⟨?_, hspansIn, rfl⟩
      show raid.out ++ after = _
      rw [hout, List.append_assoc]
      rfl
    | some tail =>
      obtain ⟨tail, promoted⟩ := tail
      refine ⟨?_, hspansIn, rfl⟩
      show raid.out.dropLast ++ tail :: after = _
      rw [hfront]
      rfl

/-! ### The destination -/

theorem contentShape_stripped (msg : Json) : contentShape (stripped msg) = contentShape msg := by
  cases htake : takeFromMessage msg with
  | none => rw [(lifted_of_none htake).2.2]
  | some taken =>
    obtain ⟨left, nothing, spans⟩ := taken
    rw [stripped, htake]
    obtain ⟨-, ⟨text, prose, hcontent, -, rfl, -⟩ | ⟨blocks, hcontent, -, rfl, -⟩⟩ :=
      takeFromMessage_eq_some htake
    · rw [contentShape, contentShape, hcontent]
      dsimp only
      rw [Json.get?_insert_self hcontent]
    · rw [contentShape, contentShape, hcontent]
      dsimp only
      rw [Json.get?_insert_self hcontent]

theorem string_ne_absent : "string" ≠ "absent" := by decide

theorem array_ne_absent : "array" ≠ "absent" := by decide

theorem land_spec (huser : isUser msg) (hnone : takeFromMessage msg = none)
    (collected : List Json) :
    (contentShape msg = "absent" ∧ land collected msg = none) ∨
    ∃ content blocks promoted, contentShape msg ≠ "absent" ∧ msg.get? "content" = some content ∧
      land collected msg = some (msg.insert "content" (.arr (blocks ++ collected)), promoted) ∧
      (∀ block ∈ blocks, takeTrailingEphemeralSpans block = none) ∧
      messageSpans msg = blocks.flatMap blockSpans ∧
      messageSpanCount msg = (blocks.map blockSpanCount).sum := by
  cases hcontent : msg.get? "content" with
  | none => exact Or.inl ⟨by rw [contentShape, hcontent], by rw [land, hcontent]⟩
  | some content =>
    cases content with
    | str text =>
      refine Or.inr ⟨_, if text.toList = [] then [] else [textBlock text], true,
        by rw [contentShape, hcontent]; exact string_ne_absent, rfl, by rw [land, hcontent], ?_, ?_, ?_⟩
      · intro block hblock
        split_ifs at hblock with hempty
        · cases hblock
        · obtain rfl : block = textBlock text := by simpa using hblock
          rw [takeFromMessage_of_str huser hcontent, Option.map_eq_none_iff] at hnone
          have htext : (textBlock text).getStr? "text" = some text := rfl
          rw [takeTrailingEphemeralSpans, htext]
          split_ifs
          · rfl
          · simp only [hnone]
      · rw [messageSpans, hcontent]
        split_ifs with hempty
        · show spansOf text.toList = []
          rw [hempty]
          rfl
        · exact (List.append_nil _).symm
      · rw [messageSpanCount, hcontent]
        split_ifs with hempty
        · show spanCount text.toList = 0
          rw [hempty]
          rfl
        · rfl
    | arr blocks =>
      refine Or.inr ⟨_, blocks, false, by rw [contentShape, hcontent]; exact array_ne_absent, rfl,
        by rw [land, hcontent], fun block hblock => ?_, by rw [messageSpans, hcontent],
        by rw [messageSpanCount, hcontent]⟩
      rw [takeFromMessage_of_arr huser hcontent] at hnone
      split_ifs at hnone with hany
      have hblock' := List.any_eq_false.mp (Bool.not_eq_true _ |>.mp hany) block hblock
      exact Option.not_isSome_iff_eq_none.mp hblock'
    | _ => exact Or.inl ⟨by rw [contentShape, hcontent], by rw [land, hcontent]⟩

theorem kept_append_spanBlocks (hblocks : ∀ block ∈ blocks, takeTrailingEphemeralSpans block = none)
    (hspans : ∀ span ∈ spans, IsSpan span) :
    keptBlocks (blocks ++ spans.map spanBlock) = blocks ∧
      takenFromBlocks (blocks ++ spans.map spanBlock) = spans := by
  induction blocks with
  | nil =>
    rw [List.nil_append]
    induction spans with
    | nil => exact ⟨rfl, rfl⟩
    | cons span spans ih =>
      obtain ⟨hkept, htaken⟩ := ih fun span hspan => hspans span (List.mem_cons_of_mem _ hspan)
      rw [List.map_cons, keptBlocks_cons, takenFromBlocks_cons,
        take_spanBlock (hspans span List.mem_cons_self), hkept, htaken]
      exact ⟨rfl, rfl⟩
  | cons block blocks ih =>
    obtain ⟨hkept, htaken⟩ := ih fun block hblock => hblocks block (List.mem_cons_of_mem _ hblock)
    rw [List.cons_append, keptBlocks_cons, takenFromBlocks_cons, hblocks block List.mem_cons_self,
      hkept, htaken]
    exact ⟨rfl, rfl⟩

/-- The destination with the spans: it has them and its own, it is not empty, and the pass would put
it together in the same way. -/
theorem landed_spec (huser : isUser msg)
    (hnone : takeFromMessage msg = none) (hspans : ∀ span ∈ spans, IsSpan span) :
    isUser (landed spans msg) ∧
    (contentShape msg ≠ "absent" →
      (messageSpans (landed spans msg)).Perm (messageSpans msg ++ spans) ∧
      messageSpanCount (landed spans msg) = messageSpanCount msg + (spans.map spanCount).sum) ∧
    (EmptyContent (landed spans msg) → spans = []) ∧
    landed (takenSpans (landed spans msg)) (stripped (landed spans msg)) = landed spans msg := by
  have hsame : landed (takenSpans msg) (stripped msg) = msg := by
    rw [(lifted_of_none hnone).2.1, (lifted_of_none hnone).2.2, landed, if_pos rfl]
  by_cases hnil : spans = []
  · rw [hnil]
    have : landed [] msg = msg := if_pos rfl
    rw [this]
    exact ⟨huser, fun _ => ⟨by rw [List.append_nil], rfl⟩, fun _ => rfl, hsame⟩
  rcases land_spec huser hnone (spans.map spanBlock) with ⟨habsent, hland⟩ |
    ⟨content, blocks, promoted, -, hcontent, hland, hblocks, hmsg, hcount⟩
  · have : landed spans msg = msg := by rw [landed, if_neg hnil, hland]; rfl
    rw [this]
    refine ⟨huser, fun h => absurd habsent h, fun hempty => ?_, hsame⟩
    rcases hempty with h | h
    · simp [contentShape, h] at habsent
    · simp [contentShape, h] at habsent
  · have hlanded : landed spans msg = msg.insert "content" (.arr (blocks ++ spans.map spanBlock)) := by
      rw [landed, if_neg hnil, hland]
      rfl
    have hget : (landed spans msg).get? "content" = some (.arr (blocks ++ spans.map spanBlock)) := by
      rw [hlanded]
      exact Json.get?_insert_self hcontent
    have huser' : isUser (landed spans msg) := by
      rw [hlanded, isUser_insert_content]
      exact huser
    obtain ⟨hkept, htaken⟩ := kept_append_spanBlocks hblocks hspans
    refine ⟨huser', fun _ => ⟨?_, ?_⟩, fun hempty => ?_, ?_⟩
    · have hall : (spans.map spanBlock).flatMap blockSpans = spans := by
        rw [List.flatMap_map]
        have : spans.flatMap (fun span => blockSpans (spanBlock span)) = spans.flatMap fun span => [span] :=
          List.flatMap_congr fun span hspan => blockSpans_spanBlock (hspans span hspan)
        rw [this, List.flatMap_singleton']
      rw [messageSpans, hget, hmsg]
      dsimp only
      rw [List.flatMap_append, hall]
    · have hall : ((spans.map spanBlock).map blockSpanCount) = spans.map spanCount := by
        rw [List.map_map]
        refine List.map_congr_left fun span _ => ?_
        show spanCount (String.ofList span).toList = _
        rw [String.toList_ofList]
      rw [messageSpanCount, hget, hcount]
      dsimp only
      rw [List.map_append, List.sum_append, hall]
    · rcases hempty with h | h
      · rw [hget] at h
        cases h
      · rw [hget] at h
        have := Json.arr.inj (Option.some.inj h)
        simp only [List.append_eq_nil_iff, List.map_eq_nil_iff] at this
        exact this.2
    · have hany : (blocks ++ spans.map spanBlock).any fun block =>
          (takeTrailingEphemeralSpans block).isSome := by
        obtain ⟨span, hspan⟩ := List.exists_mem_of_ne_nil _ hnil
        refine List.any_eq_true.mpr ⟨spanBlock span,
          List.mem_append_right _ (List.mem_map_of_mem hspan), ?_⟩
        rw [take_spanBlock (hspans span hspan)]
        rfl
      have htake := takeFromMessage_of_arr huser' hget
      rw [if_pos hany, hkept, htaken] at htake
      have hstripped : stripped (landed spans msg) = msg.insert "content" (.arr blocks) := by
        rw [stripped, htake]
        dsimp only
        rw [hlanded, Json.insert_insert]
      have htakenSpans : takenSpans (landed spans msg) = spans := by rw [takenSpans, htake]
      have hget' : (msg.insert "content" (.arr blocks)).get? "content" = some (.arr blocks) :=
        Json.get?_insert_self hcontent
      have hagain : land (spans.map spanBlock) (msg.insert "content" (.arr blocks)) =
          some (msg.insert "content" (.arr (blocks ++ spans.map spanBlock)), false) := by
        rw [land, hget']
        dsimp only
        rw [Json.insert_insert]
      rw [htakenSpans, hstripped, hlanded, landed, if_neg hnil, hagain]
      rfl

/-! ### What the pass guarantees -/

def isAssistant (message : Json) : Bool := message.getStr? "role" == some "assistant"

/-- The newest message of the user, if there is one, has content on which blocks can land. -/
def Lands (ms : List Json) : Prop :=
  ∀ before dest after, ms = before ++ dest :: after → isUser dest → (∀ m ∈ after, isUser m = false) →
    contentShape dest ≠ "absent"

/-- Messages after the pass. -/
structure Relocated (ms out : List Json) (report : RelocationReport) : Prop where
  /-- Without a message of the user nothing happens. -/
  untouched : (∀ m ∈ ms, isUser m = false) → out = ms
  /-- Each message but the destination goes out in a form of its own, and in order. -/
  order : ∀ before dest after, ms = before ++ dest :: after → isUser dest →
    (∀ m ∈ after, isUser m = false) → out =
      before.filterMap lifted ++
        landed ((before ++ [dest]).flatMap takenSpans) (stripped dest) :: after.filterMap lifted
  /-- A message that stays has lost its spans and nothing else. -/
  stays : ∀ m left, lifted m = some left → ShedMessage m left (takenSpans m)
  /-- A message leaves if it was a message of the user with spans and nothing else. -/
  leaves : ∀ m, lifted m = none ↔ isUser m ∧ takenSpans m ≠ [] ∧ EmptyContent (stripped m)
  /-- So has the destination, before the spans land on it. -/
  destination : ∀ m, ShedMessage m (stripped m) (takenSpans m)
  /-- The words of the model are left alone. -/
  assistant : out.filter isAssistant = ms.filter isAssistant
  /-- No span comes or goes. -/
  spans : Lands ms → (out.flatMap messageSpans).Perm (ms.flatMap messageSpans)
  spansIn : report.spansIn = countEphemeralSpans ms
  spansOut : report.spansOut = countEphemeralSpans out
  counted : Lands ms → report.spansOut = report.spansIn
  /-- No message is emptied. -/
  nonempty : ∀ m ∈ out, EmptyContent m → m ∈ ms
  /-- A second pass changes nothing. -/
  again : (relocateEphemeralBlocksReported out).1 = out

theorem lifted_of_not_user (h : isUser msg = false) : lifted msg = some msg := by
  refine (lifted_of_none ?_).1
  rw [takeFromMessage, h]
  rfl

theorem filterMap_lifted_of_not_user (h : ∀ m ∈ ms, isUser m = false) :
    ms.filterMap lifted = ms := by
  rw [List.filterMap_congr fun m hm => lifted_of_not_user (h m hm)]
  exact List.filterMap_some

theorem lifted_eq_none_iff :
    lifted msg = none ↔ isUser msg ∧ takenSpans msg ≠ [] ∧ EmptyContent (stripped msg) := by
  cases htake : takeFromMessage msg with
  | none =>
    obtain ⟨hlifted, hspans, -⟩ := lifted_of_none htake
    rw [hlifted, hspans]
    simp
  | some taken =>
    obtain ⟨left, nothing, spans⟩ := taken
    obtain ⟨-, hne, -, -, hempty, -⟩ := takeFromMessage_spec htake
    rw [lifted, takenSpans, stripped, htake]
    simp [hne, ← hempty, (takeFromMessage_eq_some htake).1]

theorem stripped_of_lifted (h : lifted msg = some left) : left = stripped msg := by
  rcases lifted_spec msg with ⟨hlifted, -⟩ | ⟨hlifted, -⟩
  · exact Option.some.inj (h.symm.trans hlifted)
  · rw [h] at hlifted
    cases hlifted

theorem not_isAssistant_of_isUser (h : isUser msg) : isAssistant msg = false := by
  rw [isUser, beq_iff_eq] at h
  rw [isAssistant, h]
  decide

theorem filter_isAssistant_lifted (ms : List Json) :
    (ms.filterMap lifted).filter isAssistant = ms.filter isAssistant := by
  induction ms with
  | nil => rfl
  | cons m ms ih =>
    rw [filterMap_lifted_cons, List.filter_append, ih, List.filter_cons]
    cases huser : isUser m with
    | false =>
      rw [lifted_of_not_user huser, Option.toList_some, List.filter_cons]
      split_ifs with h
      · rfl
      · rfl
    | true =>
      rw [not_isAssistant_of_isUser huser]
      have hleft : (lifted m).toList.filter isAssistant = [] := by
        rw [List.filter_eq_nil_iff]
        intro left hleft
        rw [stripped_of_lifted (Option.mem_toList.mp hleft),
          not_isAssistant_of_isUser ((stripped_spec m).2.1.trans huser)]
        decide
      rw [hleft]
      rfl

theorem lifted_again (ms : List Json) :
    (ms.filterMap lifted).filterMap lifted = ms.filterMap lifted ∧
      (ms.filterMap lifted).flatMap takenSpans = [] := by
  have hnone : ∀ left ∈ ms.filterMap lifted, takeFromMessage left = none := by
    intro left hleft
    obtain ⟨m, -, hm⟩ := List.mem_filterMap.mp hleft
    rw [stripped_of_lifted hm]
    exact (stripped_spec m).2.2.1
  have hnil : (ms.filterMap lifted).flatMap takenSpans = [] :=
    List.flatMap_eq_nil_iff.mpr fun left hleft => takeFromMessage_eq_none_iff.mp (hnone left hleft)
  exact ⟨filterMap_lifted_of_nil hnil, hnil⟩

theorem relocate_of_no_user (h : ∀ m ∈ ms, isUser m = false) :
    (relocateEphemeralBlocksReported ms).1 = ms ∧
    (relocateEphemeralBlocksReported ms).2.spansIn = countEphemeralSpans ms ∧
    (relocateEphemeralBlocksReported ms).2.spansOut = countEphemeralSpans ms := by
  rw [relocateEphemeralBlocksReported]
  cases ms with
  | nil => exact ⟨rfl, rfl, rfl⟩
  | cons m ms =>
    rw [rposition_eq_none.mpr h]
    exact ⟨rfl, rfl, rfl⟩

/-- All spans that are taken up to the destination are spans of texts of their own. -/
theorem isSpan_of_mem_flatMap (ms : List Json) :
    ∀ span ∈ ms.flatMap takenSpans, IsSpan span := by
  intro span hspan
  obtain ⟨m, -, hm⟩ := List.mem_flatMap.mp hspan
  exact isSpan_of_mem_takenSpans hm

theorem relocate_again (hdest : isUser dest)
    (hafter : ∀ m ∈ after, isUser m = false) :
    (relocateEphemeralBlocksReported (relocateEphemeralBlocksReported (before ++ dest :: after)).1).1 =
      (relocateEphemeralBlocksReported (before ++ dest :: after)).1 := by
  obtain ⟨hout, -⟩ := @relocate_eq before after dest hdest hafter
  obtain ⟨-, huser, hnone, -⟩ := stripped_spec dest
  obtain ⟨huser', -, -, hagain⟩ :=
    landed_spec (huser.trans hdest) hnone (isSpan_of_mem_flatMap (before ++ [dest]))
  obtain ⟨hlifted, hnil⟩ := lifted_again before
  rw [hout, (relocate_eq huser' hafter).1, hlifted, List.flatMap_append, hnil, List.nil_append]
  have hsingle (m : Json) : [m].flatMap takenSpans = takenSpans m := by simp
  rw [hsingle, hagain]

theorem relocate_spans (hdest : isUser dest)
    (hafter : ∀ m ∈ after, isUser m = false) (hshape : contentShape dest ≠ "absent") :
    ((relocateEphemeralBlocksReported (before ++ dest :: after)).1.flatMap messageSpans).Perm
      ((before ++ dest :: after).flatMap messageSpans) ∧
    countEphemeralSpans (relocateEphemeralBlocksReported (before ++ dest :: after)).1 =
      countEphemeralSpans (before ++ dest :: after) := by
  obtain ⟨hout, -⟩ := @relocate_eq before after dest hdest hafter
  obtain ⟨-, huser, hnone, hperm, hcount⟩ := stripped_spec dest
  obtain ⟨-, hland, -⟩ :=
    landed_spec (huser.trans hdest) hnone (isSpan_of_mem_flatMap (before ++ [dest]))
  obtain ⟨hperm', hcount'⟩ := hland (by rwa [contentShape_stripped])
  obtain ⟨hperm'', hcount''⟩ := spans_lifted before
  rw [hout]
  have hsplit : (before ++ [dest]).flatMap takenSpans = before.flatMap takenSpans ++ takenSpans dest := by
    simp
  rw [hsplit] at hperm' hcount' ⊢
  refine ⟨?_, ?_⟩
  · rw [List.flatMap_append, List.flatMap_append, List.flatMap_cons, List.flatMap_cons,
      ← List.append_assoc, ← List.append_assoc]
    refine List.Perm.append_right _ ?_
    have hfront := (hperm'.append_left ((before.filterMap lifted).flatMap messageSpans))
    refine hfront.trans ((List.Perm.append hperm'' hperm).trans ?_).symm
    rw [List.append_assoc]
    refine List.Perm.append_left _ ?_
    rw [← List.append_assoc, ← List.append_assoc]
    exact List.perm_append_comm.append_right _
  · simp only [countEphemeralSpans, List.map_append, List.sum_append, List.map_cons, List.sum_cons]
      at hcount' hcount'' ⊢
    omega

/-- Spans are conserved, and what is no scaffolding is left alone. -/
theorem relocate_relocated (ms : List Json) :
    Relocated ms (relocateEphemeralBlocksReported ms).1 (relocateEphemeralBlocksReported ms).2 := by
  have hstays : ∀ m left, lifted m = some left → ShedMessage m left (takenSpans m) := by
    intro m left h
    rw [stripped_of_lifted h]
    exact (stripped_spec m).1
  by_cases hnone : rposition isUser ms = none
  · have hall := rposition_eq_none.mp hnone
    obtain ⟨hout, hspansIn, hspansOut⟩ := relocate_of_no_user hall
    refine ⟨fun _ => hout, ?_, hstays, fun m => lifted_eq_none_iff, fun m => (stripped_spec m).1, ?_,
      fun _ => ?_, hspansIn, hspansOut.trans (by rw [hout]), fun _ => hspansOut.trans hspansIn.symm, ?_,
      by rw [hout, hout]⟩
    · rintro before dest after rfl hdest -
      have := hall dest (List.mem_append_right _ List.mem_cons_self)
      rw [hdest] at this
      cases this
    · rw [hout]
    · rw [hout]
    · rw [hout]
      exact fun m hm _ => hm
  · obtain ⟨before, dest, after, rfl, hdest, hafter⟩ := exists_split_of_rposition hnone
    obtain ⟨hout, hspansIn, hspansOut⟩ := @relocate_eq before after dest hdest hafter
    obtain ⟨-, huser, htake, -⟩ := stripped_spec dest
    obtain ⟨huser', -, hempty, -⟩ :=
      landed_spec (huser.trans hdest) htake (isSpan_of_mem_flatMap (before ++ [dest]))
    refine ⟨fun hall => ?_, ?_, hstays, fun m => lifted_eq_none_iff, fun m => (stripped_spec m).1, ?_,
      fun hlands => ?_, hspansIn, hspansOut, fun hlands => ?_, ?_, relocate_again hdest hafter⟩
    · have := hall dest (List.mem_append_right _ List.mem_cons_self)
      rw [hdest] at this
      cases this
    · intro before' dest' after' hsplit hdest' hafter'
      rw [hsplit, (relocate_eq hdest' hafter').1, filterMap_lifted_of_not_user hafter']
    · rw [hout, List.filter_append, filter_isAssistant_lifted, List.filter_cons,
        not_isAssistant_of_isUser huser', List.filter_append, List.filter_cons,
        not_isAssistant_of_isUser hdest]
      rfl
    · exact (relocate_spans hdest hafter (hlands before dest after rfl hdest hafter)).1
    · rw [hspansOut, hspansIn]
      exact (relocate_spans hdest hafter (hlands before dest after rfl hdest hafter)).2
    · rw [hout]
      intro m hm hm'
      rcases List.mem_append.mp hm with hm | hm
      · obtain ⟨m', hmem, hlifted⟩ := List.mem_filterMap.mp hm
        obtain rfl := stripped_of_lifted hlifted
        rcases lifted_spec m' with ⟨-, hsame | hnot⟩ | ⟨hgone, -⟩
        · rw [hsame]
          exact List.mem_append_left _ hmem
        · exact absurd hm' hnot
        · rw [hgone] at hlifted
          cases hlifted
      · rcases List.mem_cons.mp hm with rfl | hm
        · have hnil := hempty hm'
          have hdest' : takenSpans dest = [] := by
            rw [List.flatMap_append, List.append_eq_nil_iff] at hnil
            simpa using hnil.2
          rw [landed, if_pos hnil, (lifted_of_none (takeFromMessage_eq_none_iff.mpr hdest')).2.2]
          exact List.mem_append_right _ List.mem_cons_self
        · exact List.mem_append_right _ (List.mem_cons_of_mem _ hm)

/-! ### A message leaves, and spans are lost -/

namespace Sample

/-- A message that is nothing but scaffolding. -/
def reminder : Json := plainMessage "user" "<system-reminder>be brief</system-reminder>"

/-- A message without content. -/
def blank : Json := .obj [("role", .str "user"), ("content", .null)]

end Sample

/-- A message of nothing but scaffolding leaves, and its spans are lost when the newest message of the
user has no content. -/
theorem not_conserved :
    (relocateEphemeralBlocksReported [Sample.reminder, plainMessage "user" "hi"]).1.length ≠
      [Sample.reminder, plainMessage "user" "hi"].length ∧
    (relocateEphemeralBlocksReported [Sample.reminder, Sample.blank]).2.spansIn = 1 ∧
    (relocateEphemeralBlocksReported [Sample.reminder, Sample.blank]).2.spansOut = 0 := by
  decide +kernel

end Headroom.PrefixReplay
