import Headroom.Foundation.Json
import Headroom.Foundation.Pairing
import Headroom.Foundation.Text

/-!
# Repair of a history

The provider refuses a tool result without its call, and a call without its result in the next
message. A result that no call stands before becomes text, and then a call that the next message
does not answer does.
-/

open Foundation Foundation.Pairing

namespace Headroom.History

/-! ### Text in the place of a block -/

def orphanResultPlaceholderText : String := "[tool result omitted: no matching call]"

/-- A text block in the place of another, with its `cache_control`. -/
def textBlockLike (block : Json) (text : String) : Json :=
  .obj ([("type", .str "text"), ("text", .str text)] ++
    ((block.get? "cache_control").map fun marker => ("cache_control", marker)).toList)

/-- Whether nothing but whitespace is said. -/
def isBlank (text : String) : Bool := Text.trim text.toList = []

/-- The text of an item of a result, if it is a text block that is not empty. -/
def itemText? (item : Json) : Option String :=
  if item.getStr? "type" ≠ some "text" then none else some ((item.getStr? "text").getD "") |>.filter (· ≠ "")

/-- The content of a result as plain text. -/
def resultAsText (block : Json) : String :=
  match block.get? "content" with
  | some (.str s) => if isBlank s then orphanResultPlaceholderText else s
  | some (.arr items) =>
    let joined := String.ofList (List.intercalate ['\n'] ((items.filterMap itemText?).map String.toList))
    if isBlank joined then orphanResultPlaceholderText else joined
  | _ => orphanResultPlaceholderText

/-- What stands for a call without a result. -/
def omittedCallText (block : Json) : String :=
  "[tool call to " ++ ((block.getStr? "name").filter (· ≠ "")).getD "?" ++ " omitted: no result arrived]"

/-! ### The passes -/

/-- The messages behind a pass, and how many blocks became text. -/
structure OrphanRepairOutcome where
  messages : List Json
  neutralized : ℕ
  deriving DecidableEq

/-- Add the id of a call to those that were seen. -/
def seeCall (seen : List String) (block : Json) : List String :=
  match block.getStr? "id" with
  | some id => if id ≠ "" then id :: seen else seen
  | none => seen

/-- Whether a result belongs to a call that was seen. -/
def pairedResult (seen : List String) (block : Json) : Bool :=
  (block.getStr? "tool_use_id").any fun id => id ≠ "" && id ∈ seen

/-- The blocks of a message, in order. -/
def stripOrphanBlocks (seen : List String) : List Json → List String × List Json × ℕ
  | [] => (seen, [], 0)
  | block :: blocks =>
    if block.getStr? "type" = some "tool_use" then
      let (seen, out, neutralized) := stripOrphanBlocks (seeCall seen block) blocks
      (seen, block :: out, neutralized)
    else if block.getStr? "type" ≠ some "tool_result" ∨ pairedResult seen block then
      let (seen, out, neutralized) := stripOrphanBlocks seen blocks
      (seen, block :: out, neutralized)
    else
      let (seen, out, neutralized) := stripOrphanBlocks seen blocks
      (seen, textBlockLike block (resultAsText block) :: out, neutralized + 1)

def stripOrphanMessage (seen : List String) (message : Json) : List String × Json × ℕ :=
  match message.getArr? "content" with
  | none => (seen, message, 0)
  | some blocks =>
    let (seen, blocks, neutralized) := stripOrphanBlocks seen blocks
    (seen, message.insert "content" (.arr blocks), neutralized)

def stripOrphanMessages (seen : List String) : List Json → List Json × ℕ
  | [] => ([], 0)
  | message :: messages =>
    let (seen, message, here) := stripOrphanMessage seen message
    let (out, neutralized) := stripOrphanMessages seen messages
    (message :: out, here + neutralized)

/-- Results without a call before them become text. -/
def stripOrphanToolResults (messages : List Json) : OrphanRepairOutcome :=
  let (out, neutralized) := stripOrphanMessages [] messages
  ⟨out, neutralized⟩

/-- The ids that the results of a message name. -/
def resultIds (message : Json) : List String :=
  (((message.getArr? "content").getD []).filter fun b => b.getStr? "type" = some "tool_result").filterMap
    fun b => (b.getStr? "tool_use_id").filter (· ≠ "")

/-- Whether a block passes: it is no call, or one that is answered by the next message. -/
def pairedCall (nextResults : Option (List String)) (block : Json) : Bool :=
  block.getStr? "type" ≠ some "tool_use" ||
    match nextResults, block.getStr? "id" with
    | some next, some id => id = "" || id ∈ next
    -- Calls of the last message wait for their results; a call without an id is not ours to judge.
    | _, _ => true

def stripDanglingBlocks (nextResults : Option (List String)) : List Json → List Json × ℕ
  | [] => ([], 0)
  | block :: blocks =>
    let (out, neutralized) := stripDanglingBlocks nextResults blocks
    if pairedCall nextResults block then (block :: out, neutralized)
    else (textBlockLike block (omittedCallText block) :: out, neutralized + 1)

def stripDanglingMessage (nextResults : Option (List String)) (message : Json) : Json × ℕ :=
  match message.getArr? "content" with
  | none => (message, 0)
  | some blocks =>
    let (blocks, neutralized) := stripDanglingBlocks nextResults blocks
    (message.insert "content" (.arr blocks), neutralized)

def stripDanglingMessages : List Json → List Json × ℕ
  | [] => ([], 0)
  | message :: messages =>
    let (message, here) := stripDanglingMessage (messages.head?.map resultIds) message
    let (out, neutralized) := stripDanglingMessages messages
    (message :: out, here + neutralized)

/-- Calls that the next message does not answer become text. -/
def stripDanglingToolCalls (messages : List Json) : OrphanRepairOutcome :=
  let (out, neutralized) := stripDanglingMessages messages
  ⟨out, neutralized⟩

/-- Both passes; the number is that of the blocks that became text. -/
def repairMessages (messages : List Json) : OrphanRepairOutcome :=
  let first := stripOrphanToolResults messages
  let second := stripDanglingToolCalls first.messages
  ⟨second.messages, first.neutralized + second.neutralized⟩

/-! ### What the blocks are -/

/-- The id of a call. -/
def callId? (block : Json) : Option String :=
  if block.getStr? "type" = some "tool_use" then (block.getStr? "id").filter (· ≠ "") else none

/-- The id that a result names, if it names one. -/
def resultId? (block : Json) : Option (Option String) :=
  if block.getStr? "type" = some "tool_result" then some ((block.getStr? "tool_use_id").filter (· ≠ "")) else none

/-- What a block becomes. -/
def asText (block : Json) : Json :=
  if block.getStr? "type" = some "tool_result" then textBlockLike block (resultAsText block)
  else textBlockLike block (omittedCallText block)

def contentOf (message : Json) : List Json := (message.getArr? "content").getD []

/-- The blocks of the messages. -/
def contents (messages : List Json) : List (List Json) := messages.map contentOf

theorem type_textBlockLike (block : Json) (text : String) :
    (textBlockLike block text).getStr? "type" = some "text" := rfl

theorem inert_asText : Inert callId? resultId? asText := by
  have htype : ∀ block, (asText block).getStr? "type" = some "text" := by
    intro block
    rw [asText]
    split <;> exact type_textBlockLike block _
  refine ⟨fun block hcall => ?_, fun block => ?_, fun block => ?_⟩
  · rw [callId?] at hcall
    split_ifs at hcall with h
    · rw [resultId?, h]
      rfl
    · exact absurd hcall Bool.false_ne_true
  · rw [callId?, htype]
    rfl
  · rw [resultId?, htype]
    rfl

variable {seen : List String} {block : Json} {id : String}

theorem mem_seeCall (h : block.getStr? "type" = some "tool_use") :
    id ∈ seeCall seen block ↔ id ∈ seen ∨ callId? block = some id := by
  rw [seeCall, callId?, if_pos h]
  cases block.getStr? "id" with
  | none => simp
  | some id' =>
    by_cases hempty : id' = ""
    · simp [hempty]
    · simp [hempty, Option.filter_some, or_comm, eq_comm]

theorem pairedResult_iff (h : block.getStr? "type" = some "tool_result") :
    pairedResult seen block = true ↔ ∃ id, resultId? block = some (some id) ∧ id ∈ seen := by
  rw [pairedResult, resultId?, if_pos h]
  cases block.getStr? "tool_use_id" with
  | none => simp
  | some id =>
    by_cases hempty : id = ""
    · simp [hempty]
    · simp [hempty]

/-! ### The pass over the results -/

/-- The calls that were seen behind a block. -/
def seenBehind (seen : List String) (block : Json) : List String :=
  if block.getStr? "type" = some "tool_use" then seeCall seen block else seen

theorem mem_seenBehind :
    id ∈ seenBehind seen block ↔ id ∈ seen ∨ callId? block = some id := by
  rw [seenBehind]
  split_ifs with h
  · exact mem_seeCall h
  · rw [callId?, if_neg h]
    simp

/-- A result without a call among those that were seen. -/
def Unpaired (seen : List String) (block : Json) : Prop :=
  (resultId? block).isSome ∧ ¬ ∃ id, resultId? block = some (some id) ∧ id ∈ seen

theorem unpaired_iff : Unpaired seen block ↔
    block.getStr? "type" = some "tool_result" ∧ pairedResult seen block = false := by
  rw [Unpaired]
  by_cases h : block.getStr? "type" = some "tool_result"
  · rw [← pairedResult_iff h, resultId?, if_pos h]
    simp [h]
  · rw [resultId?, if_neg h]
    simp [h]

open Classical in
/-- One block of the pass. -/
theorem stripOrphanBlocks_cons (seen : List String) (block : Json) (blocks : List Json) :
    stripOrphanBlocks seen (block :: blocks) =
      ((stripOrphanBlocks (seenBehind seen block) blocks).1,
        (if Unpaired seen block then asText block else block) ::
          (stripOrphanBlocks (seenBehind seen block) blocks).2.1,
        (stripOrphanBlocks (seenBehind seen block) blocks).2.2 + if Unpaired seen block then 1 else 0) := by
  rw [stripOrphanBlocks, seenBehind]
  by_cases hcall : block.getStr? "type" = some "tool_use"
  · have hpaired : ¬ Unpaired seen block := by
      rw [unpaired_iff, hcall]
      simp
    rw [if_pos hcall, if_pos hcall, if_neg hpaired, if_neg hpaired]
    rfl
  · rw [if_neg hcall, if_neg hcall]
    by_cases hunpaired : Unpaired seen block
    · obtain ⟨hresult, hlost⟩ := unpaired_iff.mp hunpaired
      rw [if_pos hunpaired, if_pos hunpaired, if_neg (by simp [hresult, hlost]), asText, if_pos hresult]
    · have hkeep : block.getStr? "type" ≠ some "tool_result" ∨ pairedResult seen block = true := by
        by_contra hnot
        rw [not_or, not_not, Bool.not_eq_true] at hnot
        exact hunpaired (unpaired_iff.mpr hnot)
      rw [if_neg hunpaired, if_neg hunpaired, if_pos hkeep]
      rfl

variable {blocks : List Json}

theorem mem_stripOrphanBlocks :
    id ∈ (stripOrphanBlocks seen blocks).1 ↔ id ∈ seen ∨ ∃ block ∈ blocks, callId? block = some id := by
  induction blocks generalizing seen with
  | nil => simp [stripOrphanBlocks]
  | cons block blocks ih =>
    rw [stripOrphanBlocks_cons, ih, mem_seenBehind, or_assoc, List.exists_mem_cons_iff]

open Classical in
theorem blocks_stripOrphanBlocks (seen : List String) (blocks : List Json) :
    (stripOrphanBlocks seen blocks).2.1 = blocks.mapIdx fun q block =>
      if (resultId? block).isSome ∧ ¬ ∃ id, resultId? block = some (some id) ∧
        (id ∈ seen ∨ ∃ call ∈ blocks.take q, callId? call = some id) then asText block else block := by
  induction blocks generalizing seen with
  | nil => rfl
  | cons block blocks ih =>
    rw [stripOrphanBlocks_cons, ih, List.mapIdx_cons]
    refine congrArg₂ List.cons ?_ (congrArg (List.mapIdx · blocks) (funext fun q => funext fun b => ?_))
    · refine if_congr ?_ rfl rfl
      simp only [Unpaired, List.take_zero, List.not_mem_nil, false_and, exists_false, or_false]
    · refine if_congr ?_ rfl rfl
      simp only [mem_seenBehind, List.take_succ_cons, List.exists_mem_cons_iff, or_assoc]

variable {message : Json}

theorem contentOf_none (h : message.getArr? "content" = none) : contentOf message = [] := by
  rw [contentOf, h]
  rfl

theorem contentOf_insert {blocks blocks' : List Json}
    (h : message.getArr? "content" = some blocks) :
    contentOf (message.insert "content" (.arr blocks')) = blocks' := by
  obtain ⟨value, hvalue, -⟩ := Option.bind_eq_some_iff.mp h
  rw [contentOf, Json.getArr?, Json.get?_insert_self hvalue]
  rfl

/-- One message of the pass. -/
theorem contentOf_stripOrphanMessage (seen : List String) (message : Json) :
    (stripOrphanMessage seen message).1 = (stripOrphanBlocks seen (contentOf message)).1 ∧
      contentOf (stripOrphanMessage seen message).2.1 = (stripOrphanBlocks seen (contentOf message)).2.1 ∧
      (stripOrphanMessage seen message).2.2 = (stripOrphanBlocks seen (contentOf message)).2.2 := by
  rw [stripOrphanMessage]
  cases h : message.getArr? "content" with
  | none =>
    dsimp only
    rw [contentOf_none h]
    exact ⟨rfl, rfl, rfl⟩
  | some blocks =>
    have hcontent : contentOf message = blocks := by
      rw [contentOf, h]
      rfl
    rw [hcontent]
    exact ⟨rfl, contentOf_insert h, rfl⟩

open Classical in
theorem contents_stripOrphanMessages (seen : List String) (messages : List Json) :
    contents (stripOrphanMessages seen messages).1 = (contents messages).mapIdx fun j row =>
      row.mapIdx fun q block => if (resultId? block).isSome ∧ ¬ ∃ id, resultId? block = some (some id) ∧
        (id ∈ seen ∨ Called callId? (contents messages) j q id) then asText block else block := by
  induction messages generalizing seen with
  | nil => rfl
  | cons message messages ih =>
    obtain ⟨hseen, hcontent, -⟩ := contentOf_stripOrphanMessage seen message
    show contentOf (stripOrphanMessage seen message).2.1 ::
      contents (stripOrphanMessages (stripOrphanMessage seen message).1 messages).1 = _
    rw [hcontent, hseen, blocks_stripOrphanBlocks, ih]
    show _ = List.mapIdx _ (contentOf message :: contents messages)
    rw [List.mapIdx_cons]
    refine congrArg₂ List.cons ?_ (congrArg (List.mapIdx · (contents messages)) ?_)
    · refine congrArg (List.mapIdx · (contentOf message)) (funext fun q => funext fun b => ?_)
      refine if_congr ?_ rfl rfl
      show _ ↔ _ ∧ ¬ ∃ id, _ ∧ (id ∈ seen ∨ Called callId? (contentOf message :: contents messages) 0 q id)
      simp only [called_cons_zero]
    · refine funext fun j => funext fun row => congrArg (List.mapIdx · row) (funext fun q => funext fun b => ?_)
      refine if_congr ?_ rfl rfl
      show _ ↔ _ ∧ ¬ ∃ id, _ ∧
        (id ∈ seen ∨ Called callId? (contentOf message :: contents messages) (j + 1) q id)
      simp only [called_cons_succ, mem_stripOrphanBlocks, or_assoc]

open Classical in
theorem contents_stripOrphan (messages : List Json) : contents (stripOrphanToolResults messages).messages =
    blankOrphans callId? resultId? asText (contents messages) := by
  refine (contents_stripOrphanMessages [] messages).trans ?_
  refine congrArg (List.mapIdx · (contents messages)) (funext fun j => funext fun row => ?_)
  refine congrArg (List.mapIdx · row) (funext fun q => funext fun block => if_congr ?_ rfl rfl)
  simp only [Orphan, HasCall, List.not_mem_nil, false_or]

/-! ### The pass over the calls -/

theorem pairedCall_none (block : Json) : pairedCall none block = true := by
  unfold pairedCall
  exact Bool.or_true _

variable {nextResults : Option (List String)}

theorem type_of_unpairedCall
    (h : ¬ pairedCall nextResults block = true) : block.getStr? "type" = some "tool_use" := by
  by_contra hnot
  unfold pairedCall at h
  rw [decide_eq_true hnot, Bool.true_or] at h
  exact h rfl

theorem pairedCall_some_iff {next : List String} :
    pairedCall (some next) block = false ↔ ∃ id, callId? block = some id ∧ id ∉ next := by
  unfold pairedCall
  rw [callId?]
  by_cases hcall : block.getStr? "type" = some "tool_use"
  · rw [if_pos hcall, decide_eq_false (not_not.mpr hcall), Bool.false_or]
    cases hid : block.getStr? "id" with
    | none => simp
    | some id =>
      by_cases hempty : id = ""
      · simp [hempty]
      · simp [hempty, Option.filter_some]
  · rw [if_neg hcall, decide_eq_true hcall, Bool.true_or]
    simp

theorem mem_resultIds :
    id ∈ resultIds message ↔ ∃ block ∈ contentOf message, resultId? block = some (some id) := by
  rw [resultIds, List.mem_filterMap]
  refine exists_congr fun block => ?_
  rw [List.mem_filter, resultId?, ← contentOf, and_assoc, decide_eq_true_eq]
  refine and_congr_right fun _ => ?_
  by_cases h : block.getStr? "type" = some "tool_result"
  · simp [h]
  · simp [h]

theorem blocks_stripDanglingBlocks (nextResults : Option (List String)) (blocks : List Json) :
    (stripDanglingBlocks nextResults blocks).1 =
      blocks.map fun block => if pairedCall nextResults block then block
        else textBlockLike block (omittedCallText block) := by
  induction blocks with
  | nil => rfl
  | cons block blocks ih =>
    rw [stripDanglingBlocks, List.map_cons, ← ih]
    dsimp only
    split_ifs <;> rfl

theorem contentOf_stripDanglingMessage (nextResults : Option (List String)) (message : Json) :
    contentOf (stripDanglingMessage nextResults message).1 =
        (stripDanglingBlocks nextResults (contentOf message)).1 ∧
      (stripDanglingMessage nextResults message).2 = (stripDanglingBlocks nextResults (contentOf message)).2 := by
  rw [stripDanglingMessage]
  cases h : message.getArr? "content" with
  | none =>
    dsimp only
    rw [contentOf_none h]
    exact ⟨rfl, rfl⟩
  | some blocks =>
    have hcontent : contentOf message = blocks := by
      rw [contentOf, h]
      rfl
    rw [hcontent]
    exact ⟨contentOf_insert h, rfl⟩

open Classical in
theorem contents_stripDangling (messages : List Json) : contents (stripDanglingToolCalls messages).messages =
    blankDangling callId? resultId? asText (contents messages) := by
  show contents (stripDanglingMessages messages).1 = _
  have hpaired : ∀ (message : Json) (messages : List Json) (block : Json),
      pairedCall (messages.head?.map resultIds) block = false ↔
        Dangling callId? resultId? (contents (message :: messages)) 0 block := by
    intro message messages block
    cases messages with
    | nil =>
      show pairedCall none block = false ↔ _
      rw [pairedCall_none]
      refine ⟨fun h => absurd h (by simp), ?_⟩
      rintro ⟨k, -, hnot⟩
      exact absurd answered_singleton hnot
    | cons next messages =>
      show pairedCall (some (resultIds next)) block = false ↔ _
      rw [pairedCall_some_iff, Dangling]
      refine exists_congr fun k => and_congr_right fun _ => not_congr ?_
      exact mem_resultIds.trans answered_cons_cons.symm
  induction messages with
  | nil => rfl
  | cons message messages ih =>
    show contentOf (stripDanglingMessage _ message).1 :: contents (stripDanglingMessages messages).1 =
      List.mapIdx _ (contentOf message :: contents messages)
    rw [(contentOf_stripDanglingMessage _ message).1, blocks_stripDanglingBlocks, ih, List.mapIdx_cons]
    refine congrArg₂ List.cons (List.map_congr_left fun block _ => ?_) ?_
    · have hblock := hpaired message messages block
      by_cases hdangling : Dangling callId? resultId? (contents (message :: messages)) 0 block
      · have hcall : block.getStr? "type" = some "tool_use" := by
          obtain ⟨k, hk, -⟩ := hdangling
          rw [callId?] at hk
          split_ifs at hk with h
          exact h
        rw [if_neg (by rw [hblock.mpr hdangling]; exact Bool.false_ne_true)]
        refine Eq.trans ?_ (if_pos hdangling).symm
        rw [asText, hcall]
        rfl
      · rw [if_pos (Bool.of_not_eq_false fun h => hdangling (hblock.mp h))]
        exact (if_neg hdangling).symm
    · refine congrArg (List.mapIdx · (contents messages)) (funext fun i => funext fun row => ?_)
      refine List.map_congr_left fun block _ => if_congr ?_ rfl rfl
      show _ ↔ Dangling callId? resultId? (contentOf message :: contents messages) (i + 1) block
      rw [Dangling, Dangling]
      simp only [answered_cons_succ]

/-! ### Nothing to repair -/

theorem asText_ne (h : block.getStr? "type" ≠ some "text") : asText block ≠ block := by
  intro heq
  refine h ?_
  rw [← heq, asText]
  split <;> exact type_textBlockLike block _

theorem type_of_unpaired (h : Unpaired seen block) :
    block.getStr? "type" ≠ some "text" := by
  rw [(unpaired_iff.mp h).1]
  decide

theorem stripOrphanBlocks_zero_iff :
    (stripOrphanBlocks seen blocks).2.2 = 0 ↔ (stripOrphanBlocks seen blocks).2.1 = blocks := by
  classical
  induction blocks generalizing seen with
  | nil => exact iff_of_true rfl rfl
  | cons block blocks ih =>
    rw [stripOrphanBlocks_cons]
    show _ + _ = 0 ↔ _ :: _ = _ :: _
    rw [List.cons.injEq, Nat.add_eq_zero_iff, ih]
    by_cases hunpaired : Unpaired seen block
    · rw [if_pos hunpaired, if_pos hunpaired]
      exact iff_of_false (fun h => absurd h.2 (by simp)) (fun h => asText_ne (type_of_unpaired hunpaired) h.1)
    · rw [if_neg hunpaired, if_neg hunpaired]
      exact ⟨fun h => ⟨rfl, h.1⟩, fun h => ⟨h.2, rfl⟩⟩

theorem insert_contentOf (h : message.getArr? "content" = some blocks) :
    message.insert "content" (.arr blocks) = message := by
  obtain ⟨value, hvalue, harr⟩ := Option.bind_eq_some_iff.mp h
  refine Json.insert_self ?_
  cases value with
  | arr items =>
    rw [hvalue]
    exact congrArg (fun items => some (Json.arr items)) (Option.some.inj harr)
  | _ => cases harr

theorem contentOf_some (h : message.getArr? "content" = some blocks) :
    contentOf message = blocks := by
  rw [contentOf, h]
  rfl

theorem stripOrphanMessage_zero_iff :
    (stripOrphanMessage seen message).2.2 = 0 ↔
      contentOf (stripOrphanMessage seen message).2.1 = contentOf message := by
  obtain ⟨-, hcontent, hcount⟩ := contentOf_stripOrphanMessage seen message
  rw [hcount, hcontent]
  exact stripOrphanBlocks_zero_iff

theorem stripOrphanMessage_of_zero
    (h : (stripOrphanMessage seen message).2.2 = 0) : (stripOrphanMessage seen message).2.1 = message := by
  have hcontent := stripOrphanMessage_zero_iff.mp h
  rw [(contentOf_stripOrphanMessage seen message).2.1] at hcontent
  rw [stripOrphanMessage]
  cases harr : message.getArr? "content" with
  | none => rfl
  | some blocks =>
    rw [contentOf_some harr] at hcontent
    show message.insert "content" (.arr (stripOrphanBlocks seen blocks).2.1) = message
    rw [hcontent, insert_contentOf harr]

variable {messages : List Json}

theorem stripOrphanMessages_zero_iff :
    (stripOrphanMessages seen messages).2 = 0 ↔
      contents (stripOrphanMessages seen messages).1 = contents messages := by
  induction messages generalizing seen with
  | nil => exact iff_of_true rfl rfl
  | cons message messages ih =>
    show (stripOrphanMessage seen message).2.2 +
        (stripOrphanMessages (stripOrphanMessage seen message).1 messages).2 = 0 ↔
      contentOf (stripOrphanMessage seen message).2.1 ::
        contents (stripOrphanMessages (stripOrphanMessage seen message).1 messages).1 =
          contentOf message :: contents messages
    rw [List.cons.injEq, Nat.add_eq_zero_iff, ih, stripOrphanMessage_zero_iff]

theorem stripOrphanMessages_of_zero
    (h : (stripOrphanMessages seen messages).2 = 0) : (stripOrphanMessages seen messages).1 = messages := by
  induction messages generalizing seen with
  | nil => rfl
  | cons message messages ih =>
    obtain ⟨hhere, hrest⟩ : (stripOrphanMessage seen message).2.2 = 0 ∧
        (stripOrphanMessages (stripOrphanMessage seen message).1 messages).2 = 0 := Nat.add_eq_zero_iff.mp h
    exact congrArg₂ List.cons (stripOrphanMessage_of_zero hhere) (ih hrest)

theorem stripDanglingBlocks_zero_iff :
    (stripDanglingBlocks nextResults blocks).2 = 0 ↔ (stripDanglingBlocks nextResults blocks).1 = blocks := by
  induction blocks with
  | nil => exact iff_of_true rfl rfl
  | cons block blocks ih =>
    rw [stripDanglingBlocks]
    dsimp only
    by_cases hpaired : pairedCall nextResults block = true
    · rw [if_pos hpaired]
      show (stripDanglingBlocks nextResults blocks).2 = 0 ↔ _ :: _ = _ :: _
      rw [List.cons.injEq, ih]
      exact (and_iff_right rfl).symm
    · rw [if_neg hpaired]
      refine iff_of_false (Nat.succ_ne_zero _) fun h => ?_
      have htype := type_textBlockLike block (omittedCallText block)
      rw [(List.cons.inj h).1, type_of_unpairedCall hpaired] at htype
      exact absurd htype (by decide)

theorem stripDanglingMessage_zero_iff :
    (stripDanglingMessage nextResults message).2 = 0 ↔
      contentOf (stripDanglingMessage nextResults message).1 = contentOf message := by
  obtain ⟨hcontent, hcount⟩ := contentOf_stripDanglingMessage nextResults message
  rw [hcount, hcontent]
  exact stripDanglingBlocks_zero_iff

theorem stripDanglingMessage_of_zero (h : (stripDanglingMessage nextResults message).2 = 0) :
    (stripDanglingMessage nextResults message).1 = message := by
  have hcontent := stripDanglingMessage_zero_iff.mp h
  rw [(contentOf_stripDanglingMessage nextResults message).1] at hcontent
  rw [stripDanglingMessage]
  cases harr : message.getArr? "content" with
  | none => rfl
  | some blocks =>
    rw [contentOf_some harr] at hcontent
    show message.insert "content" (.arr (stripDanglingBlocks nextResults blocks).1) = message
    rw [hcontent, insert_contentOf harr]

theorem stripDanglingMessages_zero_iff :
    (stripDanglingMessages messages).2 = 0 ↔
      contents (stripDanglingMessages messages).1 = contents messages := by
  induction messages with
  | nil => exact iff_of_true rfl rfl
  | cons message messages ih =>
    show (stripDanglingMessage (messages.head?.map resultIds) message).2 +
        (stripDanglingMessages messages).2 = 0 ↔
      contentOf (stripDanglingMessage (messages.head?.map resultIds) message).1 ::
        contents (stripDanglingMessages messages).1 = contentOf message :: contents messages
    rw [List.cons.injEq, Nat.add_eq_zero_iff, ih, stripDanglingMessage_zero_iff]

theorem stripDanglingMessages_of_zero
    (h : (stripDanglingMessages messages).2 = 0) : (stripDanglingMessages messages).1 = messages := by
  induction messages with
  | nil => rfl
  | cons message messages ih =>
    obtain ⟨hhere, hrest⟩ : (stripDanglingMessage (messages.head?.map resultIds) message).2 = 0 ∧
        (stripDanglingMessages messages).2 = 0 := Nat.add_eq_zero_iff.mp h
    exact congrArg₂ List.cons (stripDanglingMessage_of_zero hhere) (ih hrest)

end Headroom.History
