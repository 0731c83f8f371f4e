import Mathlib.Data.List.Sort
import Headroom.Sse.EventFrames

/-!
# Blocks that are written as events and read back

The events of a message are framed, folded into the state of a stream, and made a message again. Each
block is filled under its own index and comes back from what its deltas carried. A text block loses
its citations on the way, which no delta carries, and a block that starts with text in the field of
another type starts with that text.

## Main statements

* `readBack_iff` : which messages come back.
-/

open Foundation

namespace Headroom.Sse

open AnthropicStreamState

/-- The content of a stream, from its bytes as they arrive. -/
def readBack (text : JsonText) (calls : List (FrameRule.Call UInt8)) : List Json :=
  let events := (SseFramer.new.run SseFramer.nextEvent (SseFramer.toEnd calls)).1
  rebuiltContent text ((events.filterMap Except.toOption).foldl (applied text) {})

/-- A content block. -/
structure AnthropicBlock (block : Json) : Prop where
  isObj : block.isObj
  distinct : block.Distinct
  type : (block.getStr? "type").isSome
  text : block.getStr? "type" = some "text" → (block.getStr? "text").isSome
  thinking : block.getStr? "type" = some "thinking" →
    (block.getStr? "thinking").isSome ∧
      (block.get? "signature" = none ∨ (block.getStr? "signature").isSome)
  input : ∀ t, block.getStr? "type" = some t → isToolBlock t → (block.get? "input").isSome

/-- A block without citations, and without text in the field of the other type. -/
structure Kept (block : Json) : Prop where
  citations : block.getStr? "type" = some "text" → block.get? "citations" = none
  thinking : block.getStr? "type" = some "text" → (block.getStr? "thinking").getD "" = ""
  text : block.getStr? "type" = some "thinking" → (block.getStr? "text").getD "" = ""

variable {text : JsonText}

/-! ### The events of one block -/

/-- An event as the framer hands it out. -/
def framed (text : JsonText) (e : String × Json) : SseEvent := ⟨some e.1, text.toVec e.2⟩

theorem parseJson_toVec {value : Json} (h : text.Writes value) :
    parseJson text (text.toVec value) = .ok value := by
  simp only [parseJson, JsonText.toVec, fromUtf8?_utf8, h.read_write]

/-- The fields of a block's event. -/
def blockEvent (name : String) (index : ℕ) (fields : List (String × Json)) : Json :=
  .obj ([("type", .str name), ("index", .num (toString index))] ++ fields)

section Steps

variable {s : AnthropicStreamState} {index : ℕ} (hindex : index < 2 ^ 64)

include hindex

theorem index_blockEvent (name : String) (fields : List (String × Json)) :
    ((blockEvent name index fields).get? "index").bind Json.asU64? = some index :=
  Json.asU64?_toString hindex

theorem blocks_start {shell : Json}
    (h : text.Writes (blockEvent "content_block_start" index [("content_block", shell)])) :
    (s.applied text (framed text ("content_block_start",
      blockEvent "content_block_start" index [("content_block", shell)]))).blocks =
      s.blocks.insert index (startedBlock shell) := by
  have happly : s.apply text (framed text ("content_block_start",
      blockEvent "content_block_start" index [("content_block", shell)])) =
      .ok { s with
        blocks := s.blocks.insert index (startedBlock shell)
        currentBlockIndex := some index } := by
    show parseJson text _ >>= s.onContentBlockStart = _
    rw [framed, parseJson_toVec h]
    show s.onContentBlockStart _ = _
    rw [onContentBlockStart, index_blockEvent hindex]
    rfl
  rw [applied, happly]

theorem blocks_delta {delta : Json} {deltaType : String} {block : BlockState}
    (h : text.Writes (blockEvent "content_block_delta" index [("delta", delta)]))
    (htype : delta.getStr? "type" = some deltaType) (hblock : s.blocks.lookup index = some block) :
    (s.applied text (framed text ("content_block_delta",
      blockEvent "content_block_delta" index [("delta", delta)]))).blocks =
      s.blocks.insert index (addDelta block deltaType delta) := by
  have happly : s.apply text (framed text ("content_block_delta",
      blockEvent "content_block_delta" index [("delta", delta)])) =
      .ok { s with
        blocks := s.blocks.insert index (addDelta block deltaType delta)
        thinkingDeltas := s.thinkingDeltas + if deltaType = "thinking_delta" then 1 else 0 } := by
    have hdelta : (blockEvent "content_block_delta" index [("delta", delta)]).get? "delta" = some delta :=
      rfl
    show parseJson text _ >>= s.onContentBlockDelta = _
    rw [framed, parseJson_toVec h]
    show s.onContentBlockDelta _ = _
    rw [onContentBlockDelta, index_blockEvent hindex, hdelta]
    show (required "delta.type" (delta.getStr? "type") >>= _) = _
    rw [htype]
    show Except.ok _ = _
    rw [hblock]
    rfl
  rw [applied, happly]

theorem blocks_stop {block : BlockState} (h : text.Writes (blockEvent "content_block_stop" index []))
    (hblock : s.blocks.lookup index = some block) :
    (s.applied text (framed text ("content_block_stop",
      blockEvent "content_block_stop" index []))).blocks =
      s.blocks.insert index { block with complete := true } := by
  have happly : s.apply text (framed text ("content_block_stop",
      blockEvent "content_block_stop" index [])) =
      .ok { s with blocks := s.blocks.insert index { block with complete := true } } := by
    show parseJson text _ >>= s.onContentBlockStop = _
    rw [framed, parseJson_toVec h]
    show s.onContentBlockStop _ = _
    rw [onContentBlockStop, index_blockEvent hindex]
    dsimp only [required, bind, Except.bind]
    rw [hblock]
    rfl
  rw [applied, happly]

end Steps

/-- The deltas of a block, each with its type. -/
def deltas (text : JsonText) (block : Json) : List (String × Json) :=
  let blockType := (block.getStr? "type").getD "text"
  ((shellAndDelta text block blockType).2.toList.map fun delta =>
    ((delta.getStr? "type").getD "", delta)) ++
  (if blockType = "thinking" then block.getStr? "signature" else none).toList.map fun sig =>
    ("signature_delta", .obj [("type", .str "signature_delta"), ("signature", .str sig)])

/-- A block after its events. -/
def filledBlock (text : JsonText) (block : Json) : BlockState :=
  let shell := (shellAndDelta text block ((block.getStr? "type").getD "text")).1
  let filled := (deltas text block).foldl (fun b d => addDelta b d.1 d.2) (startedBlock shell)
  { filled with complete := true }

theorem blockEvents_eq (block : Json) (index : ℕ) : blockEvents text block index none =
    ("content_block_start", blockEvent "content_block_start" index
      [("content_block", (shellAndDelta text block ((block.getStr? "type").getD "text")).1)]) ::
    ((deltas text block).map fun d =>
      ("content_block_delta", blockEvent "content_block_delta" index [("delta", d.2)])) ++
    [("content_block_stop", blockEvent "content_block_stop" index [])] := by
  simp only [blockEvents, deltas, List.map_append, List.map_map, Option.map_none, withExtras]
  rfl

theorem type_of_mem_deltas {block : Json} {d : String × Json} (h : d ∈ deltas text block) :
    d.2.getStr? "type" = some d.1 := by
  rw [deltas, List.mem_append] at h
  rcases h with h | h
  · obtain ⟨delta, hdelta, rfl⟩ := List.mem_map.mp h
    rw [shellAndDelta] at hdelta
    split_ifs at hdelta
    · obtain rfl : delta = _ := by simpa using hdelta
      rfl
    · obtain rfl : delta = _ := by simpa using hdelta
      rfl
    · obtain rfl : delta = _ := by simpa using hdelta
      rfl
    · exact absurd hdelta (by simp)
  · obtain ⟨sig, -, rfl⟩ := List.mem_map.mp h
    rfl

variable {index : ℕ}

theorem foldl_deltas (hindex : index < 2 ^ 64) (ds : List (String × Json))
    (htype : ∀ d ∈ ds, d.2.getStr? "type" = some d.1)
    (hwrites : ∀ d ∈ ds, text.Writes (blockEvent "content_block_delta" index [("delta", d.2)]))
    {s : AnthropicStreamState} {blocks : AList fun _ : ℕ => BlockState} {block : BlockState}
    (hs : s.blocks = blocks.insert index block) :
    (((ds.map fun d => ("content_block_delta",
      blockEvent "content_block_delta" index [("delta", d.2)])).map (framed text)).foldl
        (applied text) s).blocks =
      blocks.insert index (ds.foldl (fun b d => addDelta b d.1 d.2) block) := by
  induction ds generalizing s block with
  | nil => exact hs
  | cons d ds ih =>
    rw [List.map_cons, List.map_cons, List.foldl_cons, List.foldl_cons]
    refine ih (fun d hd => htype d (List.mem_cons_of_mem _ hd))
      (fun d hd => hwrites d (List.mem_cons_of_mem _ hd)) ?_
    have hblock : s.blocks.lookup index = some block := by rw [hs, AList.lookup_insert]
    rw [blocks_delta hindex (hwrites d List.mem_cons_self) (htype d List.mem_cons_self) hblock, hs,
      AList.insert_insert]

theorem foldl_blockEvents (hindex : index < 2 ^ 64) (s : AnthropicStreamState) (block : Json)
    (h : ∀ e ∈ blockEvents text block index none, text.Writes e.2) :
    (((blockEvents text block index none).map (framed text)).foldl (applied text) s).blocks =
      s.blocks.insert index (filledBlock text block) := by
  rw [blockEvents_eq] at h ⊢
  simp only [List.mem_append, List.mem_cons, List.mem_map, List.not_mem_nil, or_false] at h
  simp only [List.map_append, List.map_cons, List.map_nil, List.foldl_append, List.cons_append,
    List.foldl_cons, List.foldl_nil]
  have hfilled := foldl_deltas hindex (deltas text block)
    (fun d hd => type_of_mem_deltas hd) (fun d hd => h _ (Or.inl (Or.inr ⟨d, hd, rfl⟩)))
    (blocks_start (s := s) hindex (h _ (Or.inl (Or.inl rfl))))
  rw [blocks_stop hindex (h _ (Or.inr rfl)) (by rw [hfilled, AList.lookup_insert]), hfilled,
    AList.insert_insert]
  rfl

/-! ### The events of a message -/

/-- Blocks under consecutive indices. -/
def numberFrom (blocks : AList fun _ : ℕ => BlockState) : ℕ → List BlockState →
    AList fun _ : ℕ => BlockState
  | _, [] => blocks
  | index, b :: bs => numberFrom (blocks.insert index b) (index + 1) bs

theorem lookup_numberFrom_of_lt {i index : ℕ} (h : i < index) (bs : List BlockState)
    (blocks : AList fun _ : ℕ => BlockState) :
    (numberFrom blocks index bs).lookup i = blocks.lookup i := by
  induction bs generalizing blocks index with
  | nil => rfl
  | cons b bs ih => rw [numberFrom, ih (by omega), AList.lookup_insert_ne (by omega)]

theorem filterMap_numberFrom (index : ℕ) (bs : List BlockState)
    (blocks : AList fun _ : ℕ => BlockState) :
    (List.range' index bs.length).filterMap (numberFrom blocks index bs).lookup = bs := by
  induction bs generalizing blocks index with
  | nil => rfl
  | cons b bs ih =>
    have hfirst : (numberFrom blocks index (b :: bs)).lookup index = some b := by
      rw [numberFrom, lookup_numberFrom_of_lt (Nat.lt_succ_self index), AList.lookup_insert]
    rw [List.length_cons, List.range'_succ, List.filterMap_cons, hfirst]
    exact congrArg (b :: ·) (ih (index + 1) (blocks.insert index b))

theorem keys_numberFrom (bs : List BlockState) {blocks : AList fun _ : ℕ => BlockState}
    (h : ∀ i ∈ blocks.keys, i < index) :
    (numberFrom blocks index bs).keys.Perm (List.range' index bs.length ++ blocks.keys) := by
  induction bs generalizing blocks index with
  | nil => exact List.Perm.refl _
  | cons b bs ih =>
    have hnot : index ∉ blocks.keys := fun hmem => Nat.lt_irrefl index (h index hmem)
    have hkeys : (blocks.insert index b).keys = index :: blocks.keys := by
      rw [AList.keys_insert, List.erase_of_not_mem hnot]
    have hlt : ∀ i ∈ (blocks.insert index b).keys, i < index + 1 := by
      intro i hi
      rw [hkeys, List.mem_cons] at hi
      rcases hi with rfl | hi
      · omega
      · have := h i hi
        omega
    refine (ih hlt).trans ?_
    rw [hkeys, List.length_cons, List.range'_succ]
    exact List.perm_middle

theorem rebuiltContent_numberFrom {s : AnthropicStreamState} {bs : List BlockState}
    (h : s.blocks = numberFrom ∅ index bs) : rebuiltContent text s = bs.map (blockToValue text) := by
  have hkeys : s.blocks.keys.Perm (List.range' index bs.length) := by
    have hempty : ∀ i ∈ (∅ : AList fun _ : ℕ => BlockState).keys, i < index := fun i hi => by cases hi
    rw [h]
    simpa using keys_numberFrom bs hempty
  have hsort : s.blocks.keys.mergeSort (· ≤ ·) = List.range' index bs.length := by
    exact ((List.mergeSort_perm _ _).trans hkeys).eq_of_sortedLE List.sortedLE_mergeSort
      (List.pairwise_le_range'.sortedLE)
  rw [rebuiltContent, hsort, h, filterMap_numberFrom]

variable {content : List Json} {es : List (String × Json)}

theorem foldl_synthesizeEvents
    (hes : synthesizeEvents text content index [] = some es) (hwrites : ∀ e ∈ es, text.Writes e.2)
    (s : AnthropicStreamState) :
    ((es.map (framed text)).foldl (applied text) s).blocks =
      numberFrom s.blocks index (content.map (filledBlock text)) := by
  induction content generalizing index es s with
  | nil =>
    obtain rfl : [] = es := Option.some.inj hes
    rfl
  | cons block content ih =>
    rw [synthesizeEvents] at hes
    split_ifs at hes with hindex
    obtain ⟨es', hes', rfl⟩ := Option.map_eq_some_iff.mp hes
    rw [List.map_append, List.foldl_append, ih hes'
      (fun e he => hwrites e (List.mem_append_right _ he)), List.map_cons, numberFrom]
    congr 1
    exact foldl_blockEvents hindex s block fun e he => hwrites e (List.mem_append_left _ he)

theorem isSome_synthesizeEvents :
    (synthesizeEvents text content index []).isSome ↔ ∀ i < content.length, index + i < 2 ^ 64 := by
  induction content generalizing index with
  | nil => simp [synthesizeEvents]
  | cons block content ih =>
    rw [synthesizeEvents, List.length_cons]
    split_ifs with hindex
    · rw [Option.isSome_map, List.tail_nil, ih]
      refine ⟨fun h i hi => ?_, fun h i hi => ?_⟩
      · rcases i with _ | i
        · exact hindex
        · have := h i (by omega)
          omega
      · have := h (i + 1) (by omega)
        omega
    · exact iff_of_false (by simp) fun h => hindex (h 0 (by omega))

theorem name_of_mem_blockEvents {block : Json} {e : String × Json}
    (h : e ∈ blockEvents text block index none) :
    e.1 ∈ ["content_block_start", "content_block_delta", "content_block_stop"] := by
  rw [blockEvents_eq] at h
  simp only [List.mem_append, List.mem_cons, List.mem_map, List.not_mem_nil, or_false] at h
  rcases h with (rfl | ⟨d, -, rfl⟩) | rfl
  · exact List.mem_cons_self
  · exact List.mem_cons_of_mem _ List.mem_cons_self
  · exact List.mem_cons_of_mem _ (List.mem_cons_of_mem _ List.mem_cons_self)

theorem name_of_mem_synthesizeEvents
    (hes : synthesizeEvents text content index [] = some es) {e : String × Json} (he : e ∈ es) :
    e.1 ∈ ["content_block_start", "content_block_delta", "content_block_stop"] := by
  induction content generalizing index es with
  | nil =>
    obtain rfl : [] = es := Option.some.inj hes
    exact absurd he List.not_mem_nil
  | cons block content ih =>
    rw [synthesizeEvents] at hes
    split_ifs at hes with hindex
    obtain ⟨es', hes', rfl⟩ := Option.map_eq_some_iff.mp hes
    rcases List.mem_append.mp he with he | he
    · exact name_of_mem_blockEvents he
    · exact ih hes' he

theorem readBack_eq
    (hes : synthesizeEvents text content index [] = some es) (hwrites : ∀ e ∈ es, text.Writes e.2)
    (calls : List (FrameRule.Call UInt8))
    (hcalls : FrameRule.arrived calls = (es.map fun e => eventBytes e.1 (text.toVec e.2)).flatten) :
    readBack text calls = content.map fun block => blockToValue text (filledBlock text block) := by
  have hname (e : String × Json) (he : e ∈ es) : lf ∉ utf8 e.1 ∧ cr ∉ utf8 e.1 := by
    have := name_of_mem_synthesizeEvents hes he
    simp only [List.mem_cons, List.not_mem_nil, or_false] at this
    rcases this with hname | hname | hname <;> rw [hname] <;> decide
  have hframes : terminator.frames (FrameRule.arrived calls) =
      es.map fun e => eventBytes e.1 (text.toVec e.2) := by
    rw [hcalls]
    refine FrameRule.frames_flatten fun frame hframe more => ?_
    obtain ⟨e, he, rfl⟩ := List.mem_map.mp hframe
    exact first_eventBytes_append (hname e he).1 (hwrites e he).lf_not_mem more
  have hmeaning : (es.map fun e => eventBytes e.1 (text.toVec e.2)).filterMap meaning =
      (es.map (framed text)).map .ok := by
    rw [List.map_map, List.filterMap_map, ← List.filterMap_eq_map]
    refine List.filterMap_congr fun e he => ?_
    exact meaning_eventBytes (hname e he).1 (hname e he).2 (hwrites e he).lf_not_mem
      (hwrites e he).cr_not_mem
  have hok : ((es.map (framed text)).map Except.ok).filterMap
      (Except.toOption (ε := FramingError)) = es.map (framed text) := by
    rw [List.filterMap_map]
    exact List.filterMap_some
  have hblocks := foldl_synthesizeEvents hes hwrites {}
  rw [readBack, SseFramer.run_toEnd SseFramer.nextEvent_pulls, hframes, hmeaning, hok,
    rebuiltContent_numberFrom hblocks, List.map_map]
  rfl

/-! ### Which blocks come back -/

theorem get?_of_getStr? {j : Json} {key s : String} (h : j.getStr? key = some s) :
    j.get? key = some (.str s) := by
  obtain ⟨value, hvalue, hs⟩ := Option.bind_eq_some_iff.mp h
  cases value with
  | str s' => exact Option.some.inj hs ▸ hvalue
  | _ => cases hs

theorem getStr?_of_get? {j : Json} {key s : String} (h : j.get? key = some (.str s)) :
    j.getStr? key = some s := by
  rw [Json.getStr?, h]
  rfl

theorem getStr?_congr {j j' : Json} {key : String} (h : j.get? key = j'.get? key) :
    j.getStr? key = j'.getStr? key := by
  rw [Json.getStr?, h, Json.getStr?]

theorem eq_empty_of_append_eq {a b : String} (h : a ++ b = b) : a = "" := by
  have := congrArg String.length h
  rw [String.length_append] at this
  exact String.length_eq_zero_iff.mp (by omega)

section Values

variable {b : BlockState} (hobj : b.metadata.isObj)

include hobj

theorem blockToValue_of_text (htype : b.blockType = "text") (hcitations : b.citations = []) :
    blockToValue text b = b.metadata.insert "text" (.str b.textBuffer) := by
  simp [blockToValue, hobj, htype, hcitations]

theorem blockToValue_of_thinking (htype : b.blockType = "thinking") : blockToValue text b =
    match b.signature with
    | some sig => (b.metadata.insert "thinking" (.str b.textBuffer)).insert "signature" (.str sig)
    | none => b.metadata.insert "thinking" (.str b.textBuffer) := by
  simp [blockToValue, hobj, htype] <;> rfl

theorem blockToValue_of_tool {value : Json} (htype : isToolBlock b.blockType)
    (hjson : b.partialJson = text.write value) (hvalue : text.Writes value) :
    blockToValue text b = b.metadata.insert "input" value := by
  have htext : b.blockType ≠ "text" := fun h => absurd (h ▸ htype) (by decide)
  have hthinking : b.blockType ≠ "thinking" := fun h => absurd (h ▸ htype) (by decide)
  simp [blockToValue, hobj, htext, hthinking, htype, hjson, hvalue.not_blank, hvalue.read_write]

theorem blockToValue_of_other (htext : b.blockType ≠ "text") (hthinking : b.blockType ≠ "thinking")
    (htool : ¬ isToolBlock b.blockType) : blockToValue text b = b.metadata := by
  simp [blockToValue, hobj, htext, hthinking, htool]

end Values

section Types

variable {block : Json} (h : AnthropicBlock block)

include h

theorem filled_text (htype : block.getStr? "type" = some "text") {body : String}
    (hbody : block.getStr? "text" = some body) : blockToValue text (filledBlock text block) =
      ((block.insert "text" (.str "")).remove "citations").insert "text"
        (.str ((block.getStr? "thinking").getD "" ++ body)) := by
  have hdistinct : (block.insert "text" (.str "")).Distinct := h.distinct.insert
  have hget (key : String) (hne : key ≠ "citations") (hne' : key ≠ "text") :
      ((block.insert "text" (.str "")).remove "citations").getStr? key = block.getStr? key :=
    getStr?_congr ((Json.get?_remove_of_ne hdistinct hne).trans (Json.get?_insert_of_ne hne'))
  have hempty : ((block.insert "text" (.str "")).remove "citations").getStr? "text" = some "" :=
    getStr?_of_get? ((Json.get?_remove_of_ne hdistinct (by decide)).trans
      (Json.get?_insert_self_of_isObj h.isObj))
  have hfilled : filledBlock text block =
      { startedBlock ((block.insert "text" (.str "")).remove "citations") with
        textBuffer := "" ++ (block.getStr? "thinking").getD "" ++ body
        complete := true } := by
    have hshell : (shellAndDelta text block "text").1 =
      (block.insert "text" (.str "")).remove "citations" := rfl
    have hdeltas : deltas text block =
        [("text_delta", .obj [("type", .str "text_delta"), ("text", .str body)])] := by
      rw [deltas, htype]
      show (([("type", Json.str "text_delta"), ("text", Json.str ((block.getStr? "text").getD ""))]
        |> fun fields => [("text_delta", Json.obj fields)]) ++ []) = _
      rw [hbody]
      rfl
    rw [filledBlock, hdeltas, htype, Option.getD_some, hshell]
    simp only [List.foldl_cons, List.foldl_nil, addDelta, startedBlock, hempty, Option.getD_some,
      hget "thinking" (by decide) (by decide)]
    rfl
  rw [hfilled, blockToValue_of_text]
  · simp [startedBlock]
  · simpa [startedBlock] using h.isObj
  · show ((Json.getStr? "type" _).getD "") = "text"
    rw [hget "type" (by decide) (by decide), htype]
    rfl
  · rfl

theorem filled_thinking (htype : block.getStr? "type" = some "thinking") {body : String}
    (hbody : block.getStr? "thinking" = some body) :
    let shell := ((block.insert "thinking" (.str "")).remove "signature").insert "thinking"
      (.str ((block.getStr? "text").getD "" ++ body))
    blockToValue text (filledBlock text block) =
      match block.getStr? "signature" with
      | some sig => shell.insert "signature" (.str sig)
      | none => shell := by
  have hdistinct : (block.insert "thinking" (.str "")).Distinct := h.distinct.insert
  have hget (key : String) (hne : key ≠ "signature") (hne' : key ≠ "thinking") :
      ((block.insert "thinking" (.str "")).remove "signature").getStr? key = block.getStr? key :=
    getStr?_congr ((Json.get?_remove_of_ne hdistinct hne).trans (Json.get?_insert_of_ne hne'))
  have hempty : ((block.insert "thinking" (.str "")).remove "signature").getStr? "thinking" = some "" :=
    getStr?_of_get? ((Json.get?_remove_of_ne hdistinct (by decide)).trans
      (Json.get?_insert_self_of_isObj h.isObj))
  have hfilled : filledBlock text block =
      { startedBlock ((block.insert "thinking" (.str "")).remove "signature") with
        textBuffer := (block.getStr? "text").getD "" ++ "" ++ body
        signature := block.getStr? "signature"
        complete := true } := by
    have hshell : (shellAndDelta text block "thinking").1 =
      (block.insert "thinking" (.str "")).remove "signature" := rfl
    have hdeltas : deltas text block =
        [("thinking_delta", .obj [("type", .str "thinking_delta"), ("thinking", .str body)])] ++
        (block.getStr? "signature").toList.map fun sig =>
          ("signature_delta", .obj [("type", .str "signature_delta"), ("signature", .str sig)]) := by
      rw [deltas, htype]
      show ([("type", Json.str "thinking_delta"),
          ("thinking", Json.str ((block.getStr? "thinking").getD ""))]
        |> fun fields => [("thinking_delta", Json.obj fields)]) ++ _ = _
      rw [hbody]
      rfl
    rw [filledBlock, hdeltas, htype, Option.getD_some, hshell]
    cases block.getStr? "signature" with
    | none =>
      simp only [Option.toList_none, List.map_nil, List.append_nil, List.foldl_cons, List.foldl_nil,
        addDelta, startedBlock, hempty, Option.getD_some, hget "text" (by decide) (by decide)]
      rfl
    | some sig =>
      simp only [Option.toList_some, List.map_cons, List.map_nil, List.foldl_append, List.foldl_cons,
        List.foldl_nil, addDelta, startedBlock, hempty, Option.getD_some,
        hget "text" (by decide) (by decide)]
      show BlockState.mk _ _ _ (some ("" ++ sig)) _ _ _ = _
      rw [String.empty_append]
      rfl
  rw [hfilled, blockToValue_of_thinking]
  · simp only [String.append_empty]
    rfl
  · simpa [startedBlock] using h.isObj
  · show ((Json.getStr? "type" _).getD "") = "thinking"
    rw [hget "type" (by decide) (by decide), htype]
    rfl

theorem filled_tool {t : String} (htype : block.getStr? "type" = some t) (ht : isToolBlock t)
    {value : Json} (hvalue : block.get? "input" = some value) (hwrites : text.Writes value) :
    blockToValue text (filledBlock text block) =
      (block.insert "input" (.obj [])).insert "input" value := by
  have hne : t ≠ "text" := fun h => absurd (h ▸ ht) (by decide)
  have hne' : t ≠ "thinking" := fun h => absurd (h ▸ ht) (by decide)
  have hshell : shellAndDelta text block t = (block.insert "input" (.obj []),
      some (.obj [("type", .str "input_json_delta"), ("partial_json", .str (text.write value))])) := by
    rw [shellAndDelta, if_neg hne, if_neg hne', if_pos ht, hvalue]
    rfl
  have hfilled : filledBlock text block =
      { startedBlock (block.insert "input" (.obj [])) with
        partialJson := "" ++ text.write value
        complete := true } := by
    have hdeltas : deltas text block = [("input_json_delta",
        .obj [("type", .str "input_json_delta"), ("partial_json", .str (text.write value))])] := by
      rw [deltas, htype, Option.getD_some, hshell, if_neg hne']
      rfl
    rw [filledBlock, hdeltas, htype, Option.getD_some, hshell]
    rfl
  have hget : (block.insert "input" (.obj [])).getStr? "type" = some t :=
    (getStr?_congr (Json.get?_insert_of_ne (by decide))).trans htype
  rw [hfilled]
  refine blockToValue_of_tool (by simpa [startedBlock] using h.isObj) ?_ ?_ hwrites
  · simpa [startedBlock, hget] using ht
  · simp

theorem filled_other {t : String} (htype : block.getStr? "type" = some t) (htext : t ≠ "text")
    (hthinking : t ≠ "thinking") (htool : ¬ isToolBlock t) :
    blockToValue text (filledBlock text block) = block := by
  have hshell : shellAndDelta text block t = (block, none) := by
    rw [shellAndDelta, if_neg htext, if_neg hthinking, if_neg htool]
  have hfilled : filledBlock text block = { startedBlock block with complete := true } := by
    have hdeltas : deltas text block = [] := by
      rw [deltas, htype, Option.getD_some, hshell, if_neg hthinking]
      rfl
    rw [filledBlock, hdeltas, htype, Option.getD_some, hshell]
    rfl
  have ht : (startedBlock block).blockType = t := by
    rw [startedBlock, htype]
    rfl
  rw [hfilled]
  exact blockToValue_of_other h.isObj (ht ▸ htext) (ht ▸ hthinking) (ht ▸ htool)

theorem sameValue_text_iff (htype : block.getStr? "type" = some "text") :
    Json.SameValue (blockToValue text (filledBlock text block)) block ↔
      block.get? "citations" = none ∧ (block.getStr? "thinking").getD "" = "" := by
  obtain ⟨body, hbody⟩ := Option.isSome_iff_exists.mp (h.text htype)
  have hvalue := get?_of_getStr? hbody
  have hdistinct : (block.insert "text" (.str "")).Distinct := h.distinct.insert
  rw [filled_text h htype hbody]
  refine ⟨fun hsame => ⟨?_, ?_⟩, fun ⟨hcitations, hthinking⟩ => ?_⟩
  · have := hsame.get? "citations"
    rw [Json.get?_insert_of_ne (by decide), Json.get?_remove_self, Option.map_none] at this
    exact Option.map_eq_none_iff.mp this.symm
  · have := hsame.get? "text"
    rw [Json.get?_insert_self_of_isObj (by simpa using h.isObj), hvalue, Option.map_some,
      Option.map_some] at this
    exact eq_empty_of_append_eq (Json.str.inj (Option.some.inj this))
  · refine Json.sameValue_of_agree (by simpa using h.isObj) h.isObj hdistinct.remove.insert
      h.distinct fun key => ?_
    by_cases htext : key = "text"
    · rw [htext, Json.get?_insert_self_of_isObj (by simpa using h.isObj), hthinking,
        String.empty_append, hvalue]
    rw [Json.get?_insert_of_ne htext]
    by_cases hkey : key = "citations"
    · rw [hkey, Json.get?_remove_self, hcitations]
    · rw [Json.get?_remove_of_ne hdistinct hkey, Json.get?_insert_of_ne htext]

theorem sameValue_thinking_iff (htype : block.getStr? "type" = some "thinking") :
    Json.SameValue (blockToValue text (filledBlock text block)) block ↔
      (block.getStr? "text").getD "" = "" := by
  obtain ⟨hsome, hsignature⟩ := h.thinking htype
  obtain ⟨body, hbody⟩ := Option.isSome_iff_exists.mp hsome
  have hvalue := get?_of_getStr? hbody
  have hdistinct : (block.insert "thinking" (.str "")).Distinct := h.distinct.insert
  have hobj := h.isObj
  have hshell (key : String) (hkey : key ≠ "signature") (hkey' : key ≠ "thinking") :
      ((block.insert "thinking" (.str "")).remove "signature").get? key = block.get? key :=
    (Json.get?_remove_of_ne hdistinct hkey).trans (Json.get?_insert_of_ne hkey')
  -- the signature comes back, whether there is one or not
  obtain ⟨back, hback, hbackObj, hbackDistinct, hbody', hother⟩ : ∃ back,
      blockToValue text (filledBlock text block) = back ∧ back.isObj ∧ back.Distinct ∧
      back.get? "thinking" = some (.str ((block.getStr? "text").getD "" ++ body)) ∧
      ∀ key, key ≠ "thinking" → back.get? key = block.get? key := by
    refine ⟨_, filled_thinking h htype hbody, ?_⟩
    cases hsig : block.getStr? "signature" with
    | none =>
      have hnone : block.get? "signature" = none :=
        hsignature.resolve_right (by rw [hsig]; nofun)
      refine ⟨by simpa using hobj, hdistinct.remove.insert,
        Json.get?_insert_self_of_isObj (by simpa using hobj), fun key hkey => ?_⟩
      show Json.get? key (Json.insert "thinking" _ _) = _
      rw [Json.get?_insert_of_ne hkey]
      by_cases hkey' : key = "signature"
      · rw [hkey', Json.get?_remove_self, hnone]
      · exact hshell key hkey' hkey
    | some sig =>
      refine ⟨by simpa using hobj, hdistinct.remove.insert.insert, ?_, fun key hkey => ?_⟩
      · show Json.get? "thinking" (Json.insert "signature" _ _) = _
        rw [Json.get?_insert_of_ne (by decide),
          Json.get?_insert_self_of_isObj (by simpa using hobj)]
      · show Json.get? key (Json.insert "signature" (Json.insert "thinking" _ _) _) = _
        by_cases hkey' : key = "signature"
        · rw [hkey', Json.get?_insert_self_of_isObj (by simpa using hobj), get?_of_getStr? hsig]
        · rw [Json.get?_insert_of_ne hkey', Json.get?_insert_of_ne hkey, hshell key hkey' hkey]
  rw [hback]
  refine ⟨fun hsame => ?_, fun htext => ?_⟩
  · have := hsame.get? "thinking"
    rw [hbody', hvalue, Option.map_some, Option.map_some] at this
    exact eq_empty_of_append_eq (Json.str.inj (Option.some.inj this))
  · refine Json.sameValue_of_agree hbackObj h.isObj hbackDistinct h.distinct fun key => ?_
    by_cases hkey : key = "thinking"
    · rw [hkey, hbody', htext, String.empty_append, hvalue]
    · exact hother key hkey

theorem sameValue_filled_iff (hwrites : ∀ value, block.get? "input" = some value → text.Writes value) :
    Json.SameValue (blockToValue text (filledBlock text block)) block ↔ Kept block := by
  obtain ⟨t, htype⟩ := Option.isSome_iff_exists.mp h.type
  by_cases htext : t = "text"
  · subst htext
    rw [sameValue_text_iff h htype]
    refine ⟨fun ⟨hcitations, hthinking⟩ => ⟨fun _ => hcitations, fun _ => hthinking, fun ht => ?_⟩,
      fun hkept => ⟨hkept.citations htype, hkept.thinking htype⟩⟩
    exact absurd (Option.some.inj (htype.symm.trans ht)) (by decide)
  by_cases hthinking : t = "thinking"
  · subst hthinking
    rw [sameValue_thinking_iff h htype]
    refine ⟨fun htext => ⟨fun ht => ?_, fun ht => ?_, fun _ => htext⟩, fun hkept => hkept.text htype⟩
    · exact absurd (Option.some.inj (htype.symm.trans ht)) (by decide)
    · exact absurd (Option.some.inj (htype.symm.trans ht)) (by decide)
  have hkept : Kept block := by
    refine ⟨fun ht => ?_, fun ht => ?_, fun ht => ?_⟩
    · exact absurd (Option.some.inj (htype.symm.trans ht)) htext
    · exact absurd (Option.some.inj (htype.symm.trans ht)) htext
    · exact absurd (Option.some.inj (htype.symm.trans ht)) hthinking
  refine iff_of_true ?_ hkept
  by_cases htool : isToolBlock t
  · obtain ⟨value, hvalue⟩ := Option.isSome_iff_exists.mp (h.input t htype htool)
    rw [filled_tool h htype htool hvalue (hwrites value hvalue), Json.insert_insert,
      Json.insert_self hvalue]
    rfl
  · rw [filled_other h htype htext hthinking htool]
    rfl

end Types

/-! ### Which messages come back -/

/-- What comes back when all bytes arrive at once are the filled blocks. -/
theorem filled_of_readBack {startIndex : ℕ}
    (hes : synthesizeEvents text content startIndex [] = some es)
    (hwrites : ∀ e ∈ es, text.Writes e.2)
    (h : ∀ calls, FrameRule.arrived calls =
        (es.map fun e => eventBytes e.1 (text.toVec e.2)).flatten →
      List.Forall₂ Json.SameValue (readBack text calls) content) :
    List.Forall₂ Json.SameValue
      (content.map fun block => blockToValue text (filledBlock text block)) content := by
  have harrived : FrameRule.arrived [.push (es.map fun e =>
      eventBytes e.1 (text.toVec e.2)).flatten] =
      (es.map fun e => eventBytes e.1 (text.toVec e.2)).flatten := List.append_nil _
  have := h _ harrived
  rwa [readBack_eq hes hwrites _ harrived] at this

/-- The events of a message bring it back, however they arrive, exactly if none of its indices is past
64 bits and every block is kept. -/
theorem readBack_iff {content : List Json} (h : ∀ block ∈ content, AnthropicBlock block)
    (startIndex : ℕ)
    (hevents : ∀ es, synthesizeEvents text content startIndex [] = some es →
      ∀ e ∈ es, text.Writes e.2)
    (hinputs : ∀ block ∈ content, ∀ value, block.get? "input" = some value → text.Writes value) :
    (∃ frames, synthesizeBlocks text content startIndex [] = some frames ∧
      ∀ calls, FrameRule.arrived calls = frames.flatten →
        List.Forall₂ Json.SameValue (readBack text calls) content) ↔
      (∀ i < content.length, startIndex + i < 2 ^ 64) ∧ ∀ block ∈ content, Kept block := by
  have hback : List.Forall₂ Json.SameValue
      (content.map fun block => blockToValue text (filledBlock text block)) content ↔
      ∀ block ∈ content, Kept block := by
    rw [List.forall₂_map_left_iff, List.forall₂_same]
    exact forall₂_congr fun block hblock => sameValue_filled_iff (h block hblock) (hinputs block hblock)
  have hsome : (synthesizeEvents text content startIndex []).isSome ↔
      ∀ i < content.length, startIndex + i < 2 ^ 64 := isSome_synthesizeEvents
  rw [← hsome, ← hback]
  refine ⟨fun ⟨frames, hframes, hall⟩ => ?_, fun ⟨hsome, hall⟩ => ?_⟩
  · obtain ⟨es, hes, rfl⟩ := Option.map_eq_some_iff.mp hframes
    refine ⟨by rw [hes]; rfl, ?_⟩
    exact filled_of_readBack hes (hevents es hes) hall
  · obtain ⟨es, hes⟩ := Option.isSome_iff_exists.mp hsome
    refine ⟨_, by rw [synthesizeBlocks, hes, Option.map_some], fun calls hcalls => ?_⟩
    rw [readBack_eq hes (hevents es hes) calls hcalls]
    exact hall

namespace Sample

/-- Texts of some values. -/
def table (values : List Json) : JsonText where
  write value := String.ofList value.compact
  read s := values.find? fun value => String.ofList value.compact == s

def cited : Json := .obj [("type", .str "text"), ("text", .str "Hi"),
  ("citations", .arr [.obj [("type", .str "page_location")]])]

def question : Json := .obj [("type", .str "tool_use"), ("id", .str "t1"), ("name", .str "ask"),
  ("input", .obj [("q", .str "who")])]

theorem anthropicBlock_cited : AnthropicBlock cited where
  isObj := rfl
  distinct := by decide
  type := by decide
  text := fun _ => by decide
  thinking := fun h => absurd h (by decide)
  input := fun t ht htool => by
    obtain rfl : "text" = t := Option.some.inj ht
    exact absurd htool (by decide)

theorem anthropicBlock_question : AnthropicBlock question where
  isObj := rfl
  distinct := by decide
  type := by decide
  text := fun h => absurd h (by decide)
  thinking := fun h => absurd h (by decide)
  input := fun _ _ _ => by decide

/-- The texts of the values that are written for some blocks. -/
def texts (content : List Json) : JsonText :=
  table (((synthesizeEvents (table []) content 0 []).getD []).map Prod.snd ++
    content.filterMap (Json.get? "input"))

end Sample

theorem readBack_question :
    ∃ frames, synthesizeBlocks (Sample.texts [Sample.question]) [Sample.question] 0 [] = some frames ∧
      ∀ calls, FrameRule.arrived calls = frames.flatten → List.Forall₂ Json.SameValue
        (readBack (Sample.texts [Sample.question]) calls) [Sample.question] := by
  refine (readBack_iff ?_ 0 ?_ ?_).mpr ⟨by decide, ?_⟩
  · simpa using Sample.anthropicBlock_question
  · have hevents : ∀ e ∈ (synthesizeEvents (Sample.texts [Sample.question])
        [Sample.question] 0 []).getD [], (Sample.texts [Sample.question]).Writes e.2 := by
      decide +kernel
    intro es hes
    rwa [hes] at hevents
  · have hinputs : ∀ value ∈ [Sample.question].filterMap (Json.get? "input"),
        (Sample.texts [Sample.question]).Writes value := by
      decide +kernel
    exact fun block hblock value hvalue =>
      hinputs value (List.mem_filterMap.mpr ⟨block, hblock, hvalue⟩)
  · have hquestion : Kept Sample.question :=
      ⟨fun h => absurd h (by decide), fun h => absurd h (by decide), fun h => absurd h (by decide)⟩
    simpa using hquestion

/-- The citations of a text block do not come back. -/
theorem not_readBack_cited :
    ¬ ∃ frames, synthesizeBlocks (Sample.texts [Sample.cited]) [Sample.cited] 0 [] = some frames ∧
      ∀ calls, FrameRule.arrived calls = frames.flatten → List.Forall₂ Json.SameValue
        (readBack (Sample.texts [Sample.cited]) calls) [Sample.cited] := by
  rintro ⟨frames, hframes, hall⟩
  obtain ⟨es, hes, rfl⟩ := Option.map_eq_some_iff.mp hframes
  have hwrites : ∀ e ∈ (synthesizeEvents (Sample.texts [Sample.cited]) [Sample.cited] 0 []).getD [],
      (Sample.texts [Sample.cited]).Writes e.2 := by
    decide +kernel
  rw [hes] at hwrites
  have hback := filled_of_readBack hes hwrites hall
  rw [List.forall₂_map_left_iff, List.forall₂_same] at hback
  have hinput : Sample.cited.get? "input" = none := by decide
  have hkept := (sameValue_filled_iff Sample.anthropicBlock_cited
    fun value hvalue => by rw [hinput] at hvalue; cases hvalue).mp (hback _ List.mem_cons_self)
  exact absurd (hkept.citations (by decide)) (by decide)

end Headroom.Sse
