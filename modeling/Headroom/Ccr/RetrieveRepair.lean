import Headroom.Foundation.Conversation
import Headroom.History.OrphanToolResult
import Headroom.LiveZone.ToolExclusion

/-!
# Retrievals in a history

The provider refuses a call in the history to a tool that the request does not declare. Where the retrieval tool is not
declared, its calls and their results become text.

## Main statements

* `retrievals_repaired_iff` : no half of a retrieval is left, and all but the markers is kept.
-/

open Foundation Headroom.LiveZone

namespace Headroom.Ccr

def CALL_OMITTED : String := "[headroom_retrieve call omitted: tool not available this turn]"

def RESULT_OMITTED : String := "[headroom_retrieve result omitted]"

/-- The content of a result as plain text. -/
def resultAsText (block : Json) : String :=
  match block.get? "content" with
  | some (.str s) => if History.isBlank s then RESULT_OMITTED else s
  | some (.arr items) =>
    let joined := String.ofList (List.intercalate ['\n'] ((items.filterMap History.itemText?).map String.toList))
    if History.isBlank joined then RESULT_OMITTED else joined
  | _ => RESULT_OMITTED

/-- The messages behind the repair, and how many blocks became text. -/
structure CcrRepairOutcome where
  messages : List Json
  neutralized : ℕ

def isToolUse (block : Json) : Bool := block.getStr? "type" == some "tool_use"

def isToolResult (block : Json) : Bool := block.getStr? "type" == some "tool_result"

/-- Whether a block calls the retrieval tool. -/
def isRetrieval (block : Json) : Bool := isToolUse block && block.getStr? "name" == some CCR_TOOL_NAME

/-- The ids of the retrievals of some messages. -/
def retrieveIds (messages : List Json) : List String :=
  ((messages.flatMap messageBlocks).filter isRetrieval).filterMap (Json.getStr? "id")

/-- Whether a block answers one of some calls. -/
def isAnswer (ids : List String) (block : Json) : Bool :=
  isToolResult block && (block.getStr? "tool_use_id").any (· ∈ ids)

def isReplaced (ids : List String) (block : Json) : Bool := isRetrieval block || isAnswer ids block

def textOf (text : String) : Json := .obj [("type", .str "text"), ("text", .str text)]

/-- What a block becomes. -/
def neutralize (ids : List String) (block : Json) : Json :=
  if isRetrieval block then textOf CALL_OMITTED
  else if isAnswer ids block then textOf (resultAsText block)
  else block

def repairMessage (ids : List String) (message : Json) : Json :=
  match message.getArr? "content" with
  | none => message
  | some blocks =>
    if blocks.any (isReplaced ids) then
      -- The results of other tools have to lead the content of a turn.
      let out := blocks.map (neutralize ids)
      message.insert "content" (.arr (out.filter isToolResult ++ out.filter (!isToolResult ·)))
    else message

def stripUnsupportedCcrBlocks (messages tools : List Json) : CcrRepairOutcome :=
  if tools.any fun t => t.getStr? "name" == some CCR_TOOL_NAME then ⟨messages, 0⟩
  else
    let ids := retrieveIds messages
    if ids.isEmpty then ⟨messages, 0⟩
    else ⟨messages.map (repairMessage ids), (messages.map fun m => (messageBlocks m).countP (isReplaced ids)).sum⟩

/-! ### What a history has to be -/

/-- The ids of all calls. -/
def useIds (messages : List Json) : List String :=
  ((messages.flatMap messageBlocks).filter isToolUse).filterMap (Json.getStr? "id")

/-- Calls have ids of their own, and results stand in user messages behind their calls. -/
structure Paired (messages : List Json) : Prop where
  ids : ∀ b ∈ messages.flatMap messageBlocks, isToolUse b → (b.getStr? "id").isSome
  distinct : (useIds messages).Nodup
  results : ∀ (i : ℕ) (message : Json), messages[i]? = some message → ∀ b ∈ messageBlocks message, isToolResult b →
    message.getStr? "role" = some "user" ∧ ∃ id, b.getStr? "tool_use_id" = some id ∧ id ∈ useIds (messages.take i)

/-- The texts of a result. -/
def textParts (block : Json) : List String :=
  match block.get? "content" with
  | some (.str s) => [s]
  | some (.arr items) =>
    (items.filter fun item => item.getStr? "type" = some "text").map fun item => (item.getStr? "text").getD ""
  | _ => []

/-- What may become of a block: a retrieval and its answer become text, which says what the answer said and has its
marker, and all other blocks stay. -/
structure Stays (ids : List String) (block block' : Json) : Prop where
  other : isReplaced ids block = false → block' = block
  text : isReplaced ids block → block'.getStr? "type" = some "text"
  said : isAnswer ids block → (∃ part ∈ textParts block, History.isBlank part = false) →
    block'.getStr? "text" = some (String.ofList (List.intercalate ['\n']
      (((textParts block).filter (· ≠ "")).map String.toList)))
  marker : isReplaced ids block → ∀ marker, marker ≠ .null → block.get? "cache_control" = some marker →
    block'.get? "cache_control" = some marker

/-- Whether a block is the result of another tool. -/
def isRemaining (ids : List String) (block : Json) : Bool := isToolResult block && !isAnswer ids block

/-- What may become of a message. -/
structure KeptMessage (ids : List String) (message message' : Json) : Prop where
  fields : ∀ key, key ≠ "content" → message'.get? key = message.get? key
  length : (messageBlocks message').length = (messageBlocks message).length
  untouched : (messageBlocks message).any (isReplaced ids) = false → message' = message
  order : message.getStr? "role" ≠ some "user" → (messageBlocks message).Forall₂ (Stays ids) (messageBlocks message')
  touched : (messageBlocks message).any (isReplaced ids) → ∃ rest,
    messageBlocks message' = (messageBlocks message).filter (isRemaining ids) ++ rest ∧
      ((messageBlocks message).filter (!isRemaining ids ·)).Forall₂ (Stays ids) rest

/-- What the repair of a history is for. -/
structure Repaired (messages tools : List Json) (out : CcrRepairOutcome) : Prop where
  calls : ∀ b ∈ out.messages.flatMap messageBlocks, isRetrieval b = false
  answers : ∀ b ∈ out.messages.flatMap messageBlocks, isAnswer (retrieveIds messages) b = false
  kept : messages.Forall₂ (KeptMessage (retrieveIds messages)) out.messages
  count : out.neutralized = (messages.flatMap messageBlocks).countP (isReplaced (retrieveIds messages))
  zero : out.neutralized = 0 ↔ out.messages = messages
  again : stripUnsupportedCcrBlocks out.messages tools = ⟨out.messages, 0⟩
  longer : ∀ more, Paired (messages ++ more) →
    (stripUnsupportedCcrBlocks (messages ++ more) tools).messages.take messages.length = out.messages

/-! ### Blocks -/

variable {ids : List String} {block message : Json}

theorem isToolUse_of_isRetrieval (h : isRetrieval block) : isToolUse block :=
  (Bool.and_eq_true_iff.mp h).1

theorem isToolResult_of_isRetrieval (h : isRetrieval block) : isToolResult block = false := by
  have htype : block.getStr? "type" = some "tool_use" := beq_iff_eq.mp (isToolUse_of_isRetrieval h)
  rw [isToolResult, htype]
  decide

/-- What a replaced block becomes. -/
def replacement (block : Json) : String := if isRetrieval block then CALL_OMITTED else resultAsText block

theorem neutralize_eq : neutralize ids block =
    if isReplaced ids block then textOf (replacement block) else block := by
  rw [neutralize, isReplaced, replacement]
  by_cases hcall : isRetrieval block = true
  · rw [if_pos hcall, if_pos (by rw [hcall]; rfl), if_pos hcall]
  · rw [if_neg hcall, if_neg hcall]
    simp only [Bool.eq_false_of_not_eq_true hcall, Bool.false_or]

theorem isReplaced_neutralize : isReplaced ids (neutralize ids block) = false := by
  rw [neutralize_eq]
  split_ifs with hreplaced
  · rfl
  · exact Bool.eq_false_of_not_eq_true hreplaced

theorem isToolResult_neutralize : isToolResult (neutralize ids block) = isRemaining ids block := by
  rw [neutralize_eq, isRemaining, isReplaced]
  split_ifs with hreplaced
  · rcases Bool.or_eq_true_iff.mp hreplaced with hcall | hanswer
    · rw [isToolResult_of_isRetrieval hcall]
      rfl
    · rw [hanswer, Bool.not_true, Bool.and_false]
      rfl
  · rw [(Bool.or_eq_false_iff.mp (Bool.eq_false_of_not_eq_true hreplaced)).2, Bool.not_false, Bool.and_true]

theorem isReplaced_of_isRemaining (h : isRemaining ids block = true) : isReplaced ids block = false := by
  rw [isRemaining, Bool.and_eq_true_iff, Bool.not_eq_true'] at h
  rw [isReplaced, h.2, Bool.or_false]
  refine Bool.eq_false_of_not_eq_true fun hcall => ?_
  rw [isToolResult_of_isRetrieval hcall] at h
  exact absurd h.1 (by decide)

/-! ### What results say -/

theorem filterMap_itemText? (items : List Json) : items.filterMap History.itemText? =
    ((items.filter fun item => item.getStr? "type" = some "text").map fun item => (item.getStr? "text").getD "").filter
      (· ≠ "") := by
  induction items with
  | nil => rfl
  | cons item items ih =>
    rw [List.filterMap_cons, List.filter_cons, ih, History.itemText?]
    by_cases htype : item.getStr? "type" = some "text"
    · by_cases htext : (item.getStr? "text").getD "" = "" <;> simp [htype, htext, Option.filter]
    · simp [htype]

theorem isBlank_iff {text : String} : History.isBlank text = true ↔ ∀ c ∈ text.toList, Text.isWhitespace c := by
  rw [History.isBlank, decide_eq_true_iff, Text.trim_eq_nil_iff]

theorem mem_intercalate {c : Char} {text : List Char} {texts : List (List Char)} (htext : text ∈ texts)
    (hc : c ∈ text) : c ∈ List.intercalate ['\n'] texts := by
  induction texts with
  | nil => exact absurd htext List.not_mem_nil
  | cons head rest ih =>
    cases rest with
    | nil =>
      rw [List.intercalate_singleton, ← List.mem_singleton.mp htext]
      exact hc
    | cons next rest =>
      rw [List.intercalate_cons_cons, List.mem_append, List.mem_append]
      rcases List.mem_cons.mp htext with rfl | hrest
      · exact .inl (.inl hc)
      · exact .inr (ih hrest)

/-- A result of which a part says something is not blank. -/
theorem resultAsText_eq (h : ∃ part ∈ textParts block, History.isBlank part = false) : resultAsText block =
    String.ofList (List.intercalate ['\n'] (((textParts block).filter (· ≠ "")).map String.toList)) := by
  obtain ⟨part, hpart, hspeaks⟩ := h
  have hne : part ≠ "" := by
    rintro rfl
    exact absurd hspeaks (by decide)
  rw [textParts] at hpart ⊢
  rw [resultAsText]
  cases hcontent : block.get? "content" with
  | none => exact absurd (hcontent ▸ hpart) List.not_mem_nil
  | some content =>
    rw [hcontent] at hpart
    cases content with
    | str s =>
      obtain rfl := List.mem_singleton.mp hpart
      simp [hspeaks, hne]
    | arr items =>
      dsimp only at hpart ⊢
      rw [filterMap_itemText?, if_neg]
      intro hblank
      have hwhole : History.isBlank part = true := isBlank_iff.mpr fun c hc => by
        refine isBlank_iff.mp hblank c ?_
        rw [String.toList_ofList]
        exact mem_intercalate (List.mem_map.mpr ⟨part, List.mem_filter.mpr ⟨hpart, decide_eq_true hne⟩, rfl⟩) hc
      exact absurd (hspeaks.symm.trans hwhole) (by decide)
    | null | bool | num | obj => exact absurd hpart List.not_mem_nil

/-! ### Messages -/

theorem stays_neutralize (h : isReplaced ids block → block.get? "cache_control" = none ∨
    block.get? "cache_control" = some .null) : Stays ids block (neutralize ids block) where
  other := fun hreplaced => by
    rw [neutralize_eq, if_neg (by rw [hreplaced]; decide)]
  text := fun hreplaced => by
    rw [neutralize_eq, if_pos hreplaced]
    rfl
  said := fun hanswer hspeaks => by
    have hcall : ¬ isRetrieval block = true := fun hcall => by
      rw [isAnswer, isToolResult_of_isRetrieval hcall] at hanswer
      exact Bool.false_ne_true hanswer
    rw [neutralize, if_neg hcall, if_pos hanswer, resultAsText_eq hspeaks]
    rfl
  marker := fun hreplaced marker hne hmarker => by
    rcases h hreplaced with hnone | hnull
    · exact absurd (hnone.symm.trans hmarker) (Option.some_ne_none marker).symm
    · exact absurd (Option.some.inj (hmarker.symm.trans hnull)) hne

/-- The blocks of a message behind the repair. -/
theorem messageBlocks_repairMessage : messageBlocks (repairMessage ids message) =
    if (messageBlocks message).any (isReplaced ids) then
      (messageBlocks message).filter (isRemaining ids) ++
        ((messageBlocks message).filter (!isRemaining ids ·)).map (neutralize ids)
    else messageBlocks message := by
  have hresults : isToolResult ∘ neutralize ids = isRemaining ids := funext fun b => isToolResult_neutralize
  have hothers : (fun b => !isToolResult b) ∘ neutralize ids = fun b => !isRemaining ids b :=
    funext fun b => congrArg (!·) isToolResult_neutralize
  cases hcontent : message.getArr? "content" with
  | none =>
    have hblocks : messageBlocks message = [] := by rw [messageBlocks, hcontent]; rfl
    rw [repairMessage, hcontent, hblocks]
    rfl
  | some blocks =>
    have hblocks : messageBlocks message = blocks := by rw [messageBlocks, hcontent]; rfl
    rw [repairMessage, hcontent, hblocks]
    dsimp only
    split_ifs with htouched
    · rw [messageBlocks_insert hcontent, List.filter_map, List.filter_map, hresults, hothers]
      congr 1
      rw [List.map_congr_left fun b hb => ?_, List.map_id]
      rw [neutralize_eq, if_neg (by rw [isReplaced_of_isRemaining (List.mem_filter.mp hb).2]; decide)]
      rfl
    · exact hblocks

theorem repairMessage_of_untouched (h : (messageBlocks message).any (isReplaced ids) = false) :
    repairMessage ids message = message := by
  rw [repairMessage]
  cases hcontent : message.getArr? "content" with
  | none => rfl
  | some blocks =>
    rw [messageBlocks, hcontent, Option.getD_some] at h
    dsimp only
    rw [if_neg (by rw [h]; decide)]

/-- Each block behind the repair was there or became text. -/
theorem mem_messageBlocks_repairMessage {b : Json} (h : b ∈ messageBlocks (repairMessage ids message)) :
    isReplaced ids b = false := by
  rw [messageBlocks_repairMessage] at h
  split_ifs at h with htouched
  · rcases List.mem_append.mp h with hresult | hother
    · exact isReplaced_of_isRemaining (List.mem_filter.mp hresult).2
    · obtain ⟨b, -, rfl⟩ := List.mem_map.mp hother
      exact isReplaced_neutralize
  · exact Bool.eq_false_of_not_eq_true fun hreplaced => htouched (List.any_eq_true.mpr ⟨b, h, hreplaced⟩)

/-- Whether no replaced block carries a marker. -/
def Unmarked (messages : List Json) : Prop :=
  ∀ b ∈ messages.flatMap messageBlocks, isReplaced (retrieveIds messages) b →
    b.get? "cache_control" = none ∨ b.get? "cache_control" = some .null

theorem keptMessage_repairMessage
    (hmarks : ∀ b ∈ messageBlocks message, isReplaced ids b →
      b.get? "cache_control" = none ∨ b.get? "cache_control" = some .null)
    (hresults : ∀ b ∈ messageBlocks message, isToolResult b → message.getStr? "role" = some "user") :
    KeptMessage ids message (repairMessage ids message) where
  fields := by
    intro key hkey
    rw [repairMessage]
    cases message.getArr? "content" with
    | none => rfl
    | some blocks =>
      dsimp only
      split_ifs
      · exact Json.get?_insert_of_ne hkey
      · rfl
  length := by
    rw [messageBlocks_repairMessage]
    split_ifs
    · rw [List.length_append, List.length_map, ← List.length_eq_length_filter_add]
    · rfl
  untouched := repairMessage_of_untouched
  order := by
    intro hrole
    have hnone : ∀ b ∈ messageBlocks message, isRemaining ids b = false := by
      intro b hb
      have hresult : isToolResult b = false := Bool.eq_false_of_not_eq_true fun h => hrole (hresults b hb h)
      rw [isRemaining, hresult, Bool.false_and]
    have hall : (messageBlocks message).filter (!isRemaining ids ·) = messageBlocks message :=
      List.filter_eq_self.mpr fun b hb => by rw [hnone b hb]; rfl
    have hnil : (messageBlocks message).filter (isRemaining ids) = [] :=
      List.filter_eq_nil_iff.mpr fun b hb => by rw [hnone b hb]; decide
    rw [messageBlocks_repairMessage, hall, hnil, List.nil_append]
    split_ifs with htouched
    · exact List.forall₂_map_right_iff.mpr (List.forall₂_same.mpr fun b hb => stays_neutralize (hmarks b hb))
    · refine List.forall₂_same.mpr fun b hb => ?_
      have hstays := stays_neutralize (hmarks b hb)
      rwa [neutralize_eq, if_neg fun hreplaced => htouched (List.any_eq_true.mpr ⟨b, hb, hreplaced⟩)] at hstays
  touched := by
    intro htouched
    refine ⟨_, (messageBlocks_repairMessage).trans (if_pos htouched), ?_⟩
    exact List.forall₂_map_right_iff.mpr (List.forall₂_same.mpr fun b hb =>
      stays_neutralize (hmarks b (List.mem_of_mem_filter hb)))

/-! ### Histories -/

variable {messages more tools : List Json}

theorem retrieveIds_append (messages more : List Json) :
    retrieveIds (messages ++ more) = retrieveIds messages ++ retrieveIds more := by
  rw [retrieveIds, List.flatMap_append, List.filter_append, List.filterMap_append]
  rfl

theorem useIds_append (messages more : List Json) : useIds (messages ++ more) = useIds messages ++ useIds more := by
  rw [useIds, List.flatMap_append, List.filter_append, List.filterMap_append]
  rfl

theorem retrieveIds_subset (messages : List Json) : retrieveIds messages ⊆ useIds messages := by
  intro id hid
  obtain ⟨b, hb, hbid⟩ := List.mem_filterMap.mp hid
  obtain ⟨hmem, hcall⟩ := List.mem_filter.mp hb
  exact List.mem_filterMap.mpr ⟨b, List.mem_filter.mpr ⟨hmem, isToolUse_of_isRetrieval hcall⟩, hbid⟩

/-- The repair is that of each message, also where no retrieval is found. -/
theorem stripUnsupportedCcrBlocks_eq (hids : ∀ b ∈ messages.flatMap messageBlocks, isToolUse b → (b.getStr? "id").isSome)
    (htools : (tools.any fun t => t.getStr? "name" == some CCR_TOOL_NAME) = false) :
    stripUnsupportedCcrBlocks messages tools = ⟨messages.map (repairMessage (retrieveIds messages)),
      (messages.flatMap messageBlocks).countP (isReplaced (retrieveIds messages))⟩ := by
  rw [stripUnsupportedCcrBlocks, if_neg (by rw [htools]; decide), List.countP_flatMap]
  dsimp only
  split_ifs with hempty
  · have hnone : ∀ b ∈ messages.flatMap messageBlocks, isReplaced [] b = false := by
      intro b hb
      have hcall : isRetrieval b = false := by
        refine Bool.eq_false_of_not_eq_true fun hcall => ?_
        obtain ⟨id, hid⟩ := Option.isSome_iff_exists.mp (hids b hb (isToolUse_of_isRetrieval hcall))
        have hmem : id ∈ retrieveIds messages := List.mem_filterMap.mpr ⟨b, List.mem_filter.mpr ⟨hb, hcall⟩, hid⟩
        rw [List.isEmpty_iff.mp hempty] at hmem
        exact absurd hmem List.not_mem_nil
      rw [isReplaced, hcall, isAnswer]
      cases b.getStr? "tool_use_id" <;> simp
    have hmessages : ∀ m ∈ messages, (messageBlocks m).any (isReplaced []) = false := fun m hm =>
      List.any_eq_false.mpr fun b hb => by rw [hnone b (List.mem_flatMap_of_mem hm hb)]; decide
    rw [List.isEmpty_iff.mp hempty]
    congr 1
    · rw [List.map_congr_left fun m hm => repairMessage_of_untouched (hmessages m hm), List.map_id']
    · symm
      rw [← List.countP_flatMap, List.countP_eq_zero]
      intro b hb
      rw [hnone b hb]
      decide
  · rfl

/-- What later messages say changes nothing for earlier results. -/
theorem isReplaced_append (hpaired : Paired (messages ++ more)) {b : Json} (hmessage : message ∈ messages)
    (hb : b ∈ messageBlocks message) :
    isReplaced (retrieveIds (messages ++ more)) b = isReplaced (retrieveIds messages) b := by
  rw [isReplaced, isReplaced, isAnswer, isAnswer]
  cases hresult : isToolResult b with
  | false => rfl
  | true =>
    obtain ⟨i, hi, rfl⟩ := List.getElem_of_mem hmessage
    have hat : (messages ++ more)[i]? = some messages[i] := by
      rw [List.getElem?_append_left hi, List.getElem?_eq_getElem hi]
    obtain ⟨-, id, hid, hbefore⟩ := hpaired.results i _ hat b hb hresult
    rw [List.take_append_of_le_length (by omega)] at hbefore
    have hown : id ∈ useIds messages := by
      rw [← List.take_append_drop i messages, useIds_append]
      exact List.mem_append_left _ hbefore
    have hlater : id ∉ retrieveIds more := by
      intro hmem
      have hdistinct := hpaired.distinct
      rw [useIds_append] at hdistinct
      exact List.disjoint_of_nodup_append hdistinct hown (retrieveIds_subset more hmem)
    rw [hid, retrieveIds_append]
    simp [List.mem_append, hlater]

theorem repairMessage_congr {ids' : List String}
    (h : ∀ b ∈ messageBlocks message, isReplaced ids b = isReplaced ids' b) :
    repairMessage ids message = repairMessage ids' message := by
  cases hcontent : message.getArr? "content" with
  | none => rw [repairMessage, repairMessage, hcontent]
  | some blocks =>
    rw [messageBlocks, hcontent, Option.getD_some] at h
    have hany : blocks.any (isReplaced ids) = blocks.any (isReplaced ids') := by
      rw [Bool.eq_iff_iff, List.any_eq_true, List.any_eq_true]
      exact exists_congr fun b => and_congr_right fun hb => by rw [h b hb]
    have hmap : blocks.map (neutralize ids) = blocks.map (neutralize ids') :=
      List.map_congr_left fun b hb => by rw [neutralize_eq, neutralize_eq, h b hb]
    rw [repairMessage, repairMessage, hcontent]
    dsimp only
    rw [hany, hmap]

/-- The marker of a retrieval, or of an answer, is not kept. -/
theorem unmarked_of_repaired (hpaired : Paired messages)
    (htools : (tools.any fun t => t.getStr? "name" == some CCR_TOOL_NAME) = false)
    (hrepaired : Repaired messages tools (stripUnsupportedCcrBlocks messages tools)) : Unmarked messages := by
  have hout := stripUnsupportedCcrBlocks_eq hpaired.ids htools
  intro b hb hreplaced
  obtain ⟨m, hm, hb⟩ := List.mem_flatMap.mp hb
  have hkept := hrepaired.kept
  rw [hout, List.forall₂_map_right_iff, List.forall₂_same] at hkept
  have htouched : (messageBlocks m).any (isReplaced (retrieveIds messages)) = true :=
    List.any_eq_true.mpr ⟨b, hb, hreplaced⟩
  obtain ⟨rest, hrest, hstays⟩ := (hkept m hm).touched htouched
  rw [messageBlocks_repairMessage, if_pos htouched] at hrest
  rw [← List.append_cancel_left hrest, List.forall₂_map_right_iff, List.forall₂_same] at hstays
  have hother : (!isRemaining (retrieveIds messages) b) = true := by
    rw [Bool.not_eq_true']
    refine Bool.eq_false_of_not_eq_true fun h => ?_
    exact absurd (hreplaced.symm.trans (isReplaced_of_isRemaining h)) (by decide)
  have hmarker := (hstays b (List.mem_filter.mpr ⟨hb, hother⟩)).marker hreplaced
  rw [neutralize_eq, if_pos hreplaced] at hmarker
  cases hcache : b.get? "cache_control" with
  | none => exact .inl rfl
  | some marker =>
    by_cases hnull : marker = .null
    · exact .inr (congrArg some hnull)
    · exact absurd (hmarker marker hnull hcache) nofun

/-- The repair does what it is for exactly where no retrieval and no answer carries a marker. -/
theorem retrievals_repaired_iff (hpaired : Paired messages)
    (htools : (tools.any fun t => t.getStr? "name" == some CCR_TOOL_NAME) = false) :
    Repaired messages tools (stripUnsupportedCcrBlocks messages tools) ↔ Unmarked messages := by
  have hout := stripUnsupportedCcrBlocks_eq hpaired.ids htools
  have hclean : ∀ b ∈ (stripUnsupportedCcrBlocks messages tools).messages.flatMap messageBlocks,
      isReplaced (retrieveIds messages) b = false := by
    intro b hb
    rw [hout] at hb
    obtain ⟨m', hm', hb⟩ := List.mem_flatMap.mp hb
    obtain ⟨m, -, rfl⟩ := List.mem_map.mp hm'
    exact mem_messageBlocks_repairMessage hb
  have hresults : ∀ m ∈ messages, ∀ b ∈ messageBlocks m, isToolResult b → m.getStr? "role" = some "user" := by
    intro m hm b hb hresult
    obtain ⟨i, hi, rfl⟩ := List.getElem_of_mem hm
    exact (hpaired.results i _ (List.getElem?_eq_getElem hi) b hb hresult).1
  refine ⟨unmarked_of_repaired hpaired htools, fun hmarks => ?_⟩
  refine ⟨fun b hb => (Bool.or_eq_false_iff.mp (hclean b hb)).1, fun b hb => (Bool.or_eq_false_iff.mp (hclean b hb)).2,
    ?_, by rw [hout], ?_, ?_, ?_⟩
  · rw [hout, List.forall₂_map_right_iff, List.forall₂_same]
    intro m hm
    exact keptMessage_repairMessage (fun b hb => hmarks b (List.mem_flatMap_of_mem hm hb)) (hresults m hm)
  · constructor
    · intro hzero
      rw [hout, List.countP_eq_zero] at hzero
      rw [hout]
      refine (List.map_congr_left fun m hm => repairMessage_of_untouched ?_).trans (List.map_id' messages)
      exact List.any_eq_false.mpr fun b hb => hzero b (List.mem_flatMap_of_mem hm hb)
    · intro hsame
      rw [hsame] at hclean
      rw [hout, List.countP_eq_zero]
      intro b hb
      rw [hclean b hb]
      decide
  · have hnone : retrieveIds (stripUnsupportedCcrBlocks messages tools).messages = [] := by
      rw [retrieveIds, List.filter_eq_nil_iff.mpr fun b hb => ?_]
      · rfl
      · rw [(Bool.or_eq_false_iff.mp (hclean b hb)).1]
        decide
    rw [stripUnsupportedCcrBlocks, if_neg (by rw [htools]; decide)]
    dsimp only
    rw [hnone]
    rfl
  · intro more hmore
    rw [stripUnsupportedCcrBlocks_eq hmore.ids htools, hout, List.map_append]
    dsimp only
    rw [List.take_left' (List.length_map _)]
    exact List.map_congr_left fun m hm => repairMessage_congr fun b hb => isReplaced_append hmore hm hb

/-- The call of a retrieval. -/
def callBlock (marker : List (String × Json)) : Json :=
  .obj ([("type", .str "tool_use"), ("id", .str "r1"), ("name", .str CCR_TOOL_NAME)] ++ marker)

def answerBlock : Json :=
  .obj [("type", .str "tool_result"), ("tool_use_id", .str "r1"), ("content", .str "the original")]

/-- A retrieval and its result. -/
def retrieval (marker : List (String × Json)) : List Json :=
  [.obj [("role", .str "assistant"), ("content", .arr [callBlock marker])],
    .obj [("role", .str "user"), ("content", .arr [answerBlock])]]

theorem paired_retrieval (marker : List (String × Json)) : Paired (retrieval marker) where
  ids := by
    intro b hb _
    have hmem : b ∈ [callBlock marker, answerBlock] := hb
    rcases List.mem_pair.mp hmem with rfl | rfl
    · rfl
    · contradiction
  distinct := List.nodup_singleton "r1"
  results := by
    intro i message hat b hb hresult
    match i, hat with
    | 0, hat =>
      obtain rfl := Option.some.inj hat
      obtain rfl := List.mem_singleton.mp hb
      contradiction
    | 1, hat =>
      obtain rfl := Option.some.inj hat
      obtain rfl := List.mem_singleton.mp hb
      exact ⟨rfl, "r1", rfl, List.mem_singleton_self "r1"⟩

theorem repaired_retrieval : Repaired (retrieval []) [] (stripUnsupportedCcrBlocks (retrieval []) []) := by
  refine (retrievals_repaired_iff (paired_retrieval []) rfl).mpr fun b hb _ => .inl ?_
  have hmem : b ∈ [callBlock [], answerBlock] := hb
  rcases List.mem_pair.mp hmem with rfl | rfl <;> rfl

/-- The marker of a retrieval is lost. -/
theorem not_repaired_retrieval :
    Paired (retrieval [("cache_control", .obj [("type", .str "ephemeral")])]) ∧
      ¬ Repaired (retrieval [("cache_control", .obj [("type", .str "ephemeral")])]) []
        (stripUnsupportedCcrBlocks (retrieval [("cache_control", .obj [("type", .str "ephemeral")])]) []) := by
  refine ⟨paired_retrieval _, fun hrepaired => ?_⟩
  have hmarks := unmarked_of_repaired (paired_retrieval _) rfl hrepaired
  rcases hmarks (callBlock _) (List.mem_cons_self ..) rfl with hnone | hnull
  · exact absurd hnone nofun
  · exact absurd hnull nofun

end Headroom.Ccr
