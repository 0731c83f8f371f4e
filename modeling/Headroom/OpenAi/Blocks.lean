import Headroom.OpenAi.Stream

/-!
# What the client holds

The events of a turn, put together: the text, and the content blocks. While a block is open, it is
the last one, and the deltas go to it.
-/

open Foundation

namespace Headroom.OpenAi

/-! ### Text -/

/-- The text of an event. -/
def Event.text : Event → List Char
  | .contentBlockDelta _ (.text text) => text.toList
  | _ => []

/-- The text deltas, one after the other. -/
def sentText (events : List Event) : List Char := events.flatMap Event.text

@[simp] theorem sentText_append (a b : List Event) : sentText (a ++ b) = sentText a ++ sentText b :=
  List.flatMap_append

/-! ### Blocks -/

/-- A content block as the client holds it. -/
structure Block where
  index : ℕ
  content : ContentBlock
  text : List Char := []
  partialJson : List Char := []
  signature : Option String := none
  deriving DecidableEq

/-- A block with what a delta adds. -/
def Block.add (b : Block) : Delta → Block
  | .text text => { b with text := b.text ++ text.toList }
  | .thinking thinking => { b with text := b.text ++ thinking.toList }
  | .signature signature => { b with signature := some signature }
  | .inputJson partialJson => { b with partialJson := b.partialJson ++ partialJson.toList }

@[simp] theorem Block.index_add (b : Block) (delta : Delta) : (b.add delta).index = b.index := by
  cases delta <;> rfl

@[simp] theorem Block.content_add (b : Block) (delta : Delta) : (b.add delta).content = b.content := by
  cases delta <;> rfl

/-- The blocks with what an event adds. -/
def receive (blocks : List Block) : Event → List Block
  | .contentBlockStart index content => blocks ++ [{ index, content }]
  | .contentBlockDelta index delta => blocks.map fun b => if b.index = index then b.add delta else b
  | _ => blocks

/-- The blocks that the events make. -/
def received (events : List Event) : List Block := events.foldl receive []

theorem received_append (events : List Event) (event : Event) :
    received (events ++ [event]) = receive (received events) event := by
  rw [received, List.foldl_append]
  rfl

/-- Which block it is. -/
def ContentBlock.kind : ContentBlock → OpenBlock
  | .text => .text
  | .thinking => .thinking
  | .toolUse _ _ => .tool

namespace StreamTranslator

variable {t : StreamTranslator} {kind : OpenBlock} {delta : Delta}

/-- What the client holds. -/
def blocks (t : StreamTranslator) : List Block := received t.events

/-- The open block is the last one, and no other block has its index. -/
def Framed (t : StreamTranslator) : Prop :=
  match t.openBlock with
  | none => ∀ b ∈ t.blocks, b.index < t.contentBlockIndex
  | some kind => ∃ front last, t.blocks = front ++ [last] ∧ (∀ b ∈ front, b.index < t.contentBlockIndex) ∧
      last.index = t.contentBlockIndex ∧ last.content.kind = kind

theorem framed_none (h : t.openBlock = none) :
    t.Framed ↔ ∀ b ∈ t.blocks, b.index < t.contentBlockIndex := by
  rw [Framed, h]

theorem framed_some (h : t.openBlock = some kind) :
    t.Framed ↔ ∃ front last, t.blocks = front ++ [last] ∧ (∀ b ∈ front, b.index < t.contentBlockIndex) ∧
      last.index = t.contentBlockIndex ∧ last.content.kind = kind := by
  rw [Framed, h]

/-! ### What is not changed -/

/-- What a step on blocks leaves alone. -/
structure SameCalls (t t' : StreamTranslator) : Prop where
  claimed : t'.claimedToolIds = t.claimedToolIds
  announced : t'.announcedToolIndices = t.announcedToolIndices
  toolIndex : t'.openToolIndex = t.openToolIndex
  toolUse : t'.sawToolUse = t.sawToolUse
  argDelta : t'.sawArgDelta = t.sawArgDelta
  aliases : t'.toolAliases = t.toolAliases
  terminal : t'.terminalEmitted = t.terminalEmitted
  terminated : t'.terminated = t.terminated

theorem SameCalls.refl (t : StreamTranslator) : SameCalls t t := ⟨rfl, rfl, rfl, rfl, rfl, rfl, rfl, rfl⟩

theorem SameCalls.trans {t t' t'' : StreamTranslator} (h : SameCalls t t') (h' : SameCalls t' t'') :
    SameCalls t t'' :=
  ⟨h'.claimed.trans h.claimed, h'.announced.trans h.announced, h'.toolIndex.trans h.toolIndex,
    h'.toolUse.trans h.toolUse, h'.argDelta.trans h.argDelta, h'.aliases.trans h.aliases,
    h'.terminal.trans h.terminal, h'.terminated.trans h.terminated⟩

theorem sameCalls_closeBlock (t : StreamTranslator) : SameCalls t t.closeBlock := by
  rw [closeBlock]
  split <;> exact ⟨rfl, rfl, rfl, rfl, rfl, rfl, rfl, rfl⟩

theorem sameCalls_closeBlockIf (t : StreamTranslator) (kind : OpenBlock) :
    SameCalls t (t.closeBlockIf kind) := by
  rw [closeBlockIf]
  split
  · exact sameCalls_closeBlock t
  · exact .refl t

theorem sameCalls_closeBlockFinal (t : StreamTranslator) : SameCalls t t.closeBlockFinal := by
  rw [closeBlockFinal]
  split <;> exact ⟨rfl, rfl, rfl, rfl, rfl, rfl, rfl, rfl⟩

theorem sameCalls_startBlock (t : StreamTranslator) (kind : OpenBlock) :
    SameCalls t (t.startBlock kind) :=
  (sameCalls_closeBlock t).trans ⟨rfl, rfl, rfl, rfl, rfl, rfl, rfl, rfl⟩

theorem sameCalls_ensureBlock (t : StreamTranslator) (kind : OpenBlock) :
    SameCalls t (t.ensureBlock kind) := by
  rw [ensureBlock]
  split
  · exact .refl t
  · exact sameCalls_startBlock t kind

theorem sameCalls_emit (t : StreamTranslator) (event : Event) : SameCalls t (t.emit event) :=
  ⟨rfl, rfl, rfl, rfl, rfl, rfl, rfl, rfl⟩

theorem sameCalls_wholeText (t : StreamTranslator) (text : String) : SameCalls t (t.wholeText text) :=
  ((sameCalls_ensureBlock t .text).trans (sameCalls_emit _ _)).trans (sameCalls_closeBlock _)

/-! ### The turn goes on -/

theorem terminated_startCall (t : StreamTranslator) (rawId upstreamName : String) :
    (t.startCall rawId upstreamName).terminated = t.terminated :=
  (sameCalls_startBlock _ .tool).terminated

theorem terminated_onFunctionCallDone (t : StreamTranslator) (chunk : Json) :
    (t.onFunctionCallDone chunk).terminated = t.terminated := by
  have hrecover : (t.recoverUnannouncedCall chunk).terminated = t.terminated := by
    rw [recoverUnannouncedCall]
    split <;> exact terminated_startCall t _ _
  rw [onFunctionCallDone]
  split
  · split
    · exact (sameCalls_closeBlock t).terminated
    · rfl
  · split
    · exact (sameCalls_closeBlockIf _ _).terminated
    · exact (sameCalls_closeBlockIf _ _).terminated.trans hrecover

theorem terminated_onMessageDone (t : StreamTranslator) (chunk : Json) :
    (t.onMessageDone chunk).terminated = t.terminated := by
  rw [onMessageDone]
  split
  · exact (sameCalls_wholeText t _).terminated
  · rfl

theorem terminated_onReasoningDone (t : StreamTranslator) (B : Base64) (chunk : Json) :
    (t.onReasoningDone B chunk).terminated = t.terminated := by
  rw [onReasoningDone]
  split
  · split
    · rfl
    · exact (sameCalls_closeBlock _).terminated.trans (sameCalls_ensureBlock t.resetReasoning _).terminated
  · rfl

theorem terminated_recoverUnstreamedCalls (t : StreamTranslator) (chunk : Json) :
    (t.recoverUnstreamedCalls chunk).terminated = t.terminated := by
  rw [recoverUnstreamedCalls]
  generalize ((chunk.get? "response").bind (Json.getArr? "output")).getD [] = output
  induction output generalizing t with
  | nil => rfl
  | cons item output ih =>
    rw [List.foldl_cons, ih, recoverUnstreamedCall]
    split_ifs
    · rfl
    · rfl
    · split <;> exact (sameCalls_closeBlock _).terminated.trans (terminated_startCall t _ _)

theorem terminated_onCompleted (t : StreamTranslator) (chunk : Json) :
    (t.onCompleted chunk).terminated = t.terminated := by
  have hend : ∀ t' : StreamTranslator, t'.terminated = t.terminated →
      (if t'.closeBlockFinal.terminalEmitted then t'.closeBlockFinal
      else t'.closeBlockFinal.endTurn (t'.closeBlockFinal.completedStopReason chunk)
        (responseUsage chunk)).terminated = t.terminated := by
    intro t' ht'
    split_ifs <;> exact (sameCalls_closeBlockFinal t').terminated.trans ht'
  rw [onCompleted]
  split
  · exact hend _ rfl
  · exact hend _ (terminated_recoverUnstreamedCalls _ chunk)

theorem terminated_onArm (t : StreamTranslator) (B : Base64) (chunk : Json) (arm : Arm) :
    (t.onArm B chunk arm).terminated = t.terminated := by
  cases arm with
  | outputTextDelta =>
    show (t.onOutputTextDelta chunk).terminated = _
    rw [onOutputTextDelta]
    split
    · rfl
    · exact (sameCalls_ensureBlock t .text).terminated
  | outputTextDone =>
    show (t.onOutputTextDone chunk).terminated = _
    rw [onOutputTextDone]
    split
    · split
      · rfl
      · exact (sameCalls_wholeText t _).terminated
    · rfl
  | refusalDelta =>
    show (t.onRefusalDelta chunk).terminated = _
    rw [onRefusalDelta]
    split
    · rfl
    · exact (sameCalls_ensureBlock t .text).terminated
  | refusalDone =>
    show (t.onRefusalDone chunk).terminated = _
    rw [onRefusalDone]
    split
    · split
      · rfl
      · exact (sameCalls_wholeText t _).terminated
    · rfl
  | reasoningDelta =>
    show (t.onReasoningDelta chunk).terminated = _
    rw [onReasoningDelta]
    split
    · exact (sameCalls_ensureBlock t .thinking).terminated
    · rfl
  | summaryPartAdded => exact (sameCalls_closeBlockIf t .thinking).terminated
  | outputItemAdded =>
    show (t.onOutputItemAdded chunk).terminated = _
    rw [onOutputItemAdded]
    split_ifs
    · exact terminated_startCall t _ _
    · rfl
    · rfl
  | functionArgsDelta =>
    show (t.onFunctionArgsDelta chunk).terminated = _
    rw [onFunctionArgsDelta]
    split
    · split <;> rfl
    · rfl
  | functionArgsDone =>
    show (t.onFunctionArgsDone chunk).terminated = _
    rw [onFunctionArgsDone]
    split
    · split <;> rfl
    · rfl
  | outputItemDone =>
    show (t.onOutputItemDone B chunk).terminated = _
    rw [onOutputItemDone]
    split_ifs
    · exact terminated_onFunctionCallDone t chunk
    · exact terminated_onMessageDone t chunk
    · exact terminated_onReasoningDone t B chunk
    · rfl
  | completed => exact terminated_onCompleted t chunk
  | failed =>
    show (if t.terminated then t else t.onFailed chunk).terminated = _
    rw [onFailed]
    split_ifs
    · rfl
    · exact (sameCalls_closeBlockFinal t).terminated
    · exact (sameCalls_closeBlockFinal t).terminated
  | incomplete =>
    show (t.onIncomplete chunk).terminated = _
    rw [onIncomplete]
    split_ifs <;> exact (sameCalls_closeBlockFinal t).terminated
  | unhandled => rfl

/-! ### The block that is open -/

theorem openBlock_closeBlock (t : StreamTranslator) : t.closeBlock.openBlock = none := by
  rw [closeBlock]
  split
  · rfl
  · assumption

theorem openBlock_ensureBlock (t : StreamTranslator) (kind : OpenBlock) :
    (t.ensureBlock kind).openBlock = some kind := by
  rw [ensureBlock]
  split
  · assumption
  · rfl

theorem blocks_emit (t : StreamTranslator) (event : Event) :
    (t.emit event).blocks = receive t.blocks event :=
  received_append t.events event

@[simp] theorem blocks_closeBlock (t : StreamTranslator) : t.closeBlock.blocks = t.blocks := by
  rw [closeBlock]
  split
  · exact blocks_emit _ _
  · rfl

@[simp] theorem blocks_closeBlockFinal (t : StreamTranslator) : t.closeBlockFinal.blocks = t.blocks := by
  rw [closeBlockFinal]
  split
  · exact blocks_emit _ _
  · rfl

@[simp] theorem blocks_closeBlockIf (t : StreamTranslator) (kind : OpenBlock) :
    (t.closeBlockIf kind).blocks = t.blocks := by
  rw [closeBlockIf]
  split
  · exact blocks_closeBlock t
  · rfl

theorem blocks_startBlock (t : StreamTranslator) (kind : OpenBlock) : (t.startBlock kind).blocks =
    t.blocks ++ [{ index := t.closeBlock.contentBlockIndex, content := t.closeBlock.startOf kind }] := by
  rw [← blocks_closeBlock t]
  exact blocks_emit _ _

theorem framed_closeBlock (h : t.Framed) : t.closeBlock.Framed := by
  rw [framed_none (openBlock_closeBlock t), blocks_closeBlock]
  rw [closeBlock]
  cases hopen : t.openBlock with
  | none => exact (framed_none hopen).mp h
  | some kind =>
    obtain ⟨front, last, hblocks, hfront, hlast, -⟩ := (framed_some hopen).mp h
    intro b hb
    rw [hblocks, List.mem_append, List.mem_singleton] at hb
    show b.index < t.contentBlockIndex + 1
    rcases hb with hb | rfl
    · exact Nat.lt_succ_of_lt (hfront b hb)
    · exact hlast ▸ Nat.lt_succ_self _

theorem framed_closeBlockIf (h : t.Framed) (kind : OpenBlock) : (t.closeBlockIf kind).Framed := by
  rw [closeBlockIf]
  split
  · exact framed_closeBlock h
  · exact h

theorem kind_startOf (t : StreamTranslator) (kind : OpenBlock) : (t.startOf kind).kind = kind := by
  cases kind <;> rfl

theorem framed_startBlock (h : t.Framed) (kind : OpenBlock) : (t.startBlock kind).Framed := by
  have hopen : (t.startBlock kind).openBlock = some kind := rfl
  refine (framed_some hopen).mpr ⟨t.blocks, _, blocks_startBlock t kind, ?_, rfl, kind_startOf _ _⟩
  rw [← blocks_closeBlock t]
  exact (framed_none (openBlock_closeBlock t)).mp (framed_closeBlock h)

theorem framed_ensureBlock (h : t.Framed) (kind : OpenBlock) : (t.ensureBlock kind).Framed := by
  rw [ensureBlock]
  split
  · exact h
  · exact framed_startBlock h kind

/-- A delta goes to the open block. -/
theorem blocks_emitDelta (hopen : t.openBlock = some kind) (h : t.Framed) (delta : Delta) :
    ∃ front last, t.blocks = front ++ [last] ∧ last.content.kind = kind ∧
      (t.emitDelta delta).blocks = front ++ [last.add delta] ∧ (t.emitDelta delta).Framed := by
  obtain ⟨front, last, hblocks, hfront, hlast, hkind⟩ := (framed_some hopen).mp h
  have hadd : (t.emitDelta delta).blocks = front ++ [last.add delta] := by
    rw [emitDelta, blocks_emit, hblocks, receive, List.map_append, List.map_singleton, if_pos hlast]
    refine congrArg (· ++ [last.add delta]) ((List.map_congr_left fun b hb => ?_).trans (List.map_id _))
    exact if_neg (Nat.ne_of_lt (hfront b hb))
  have hopen' : (t.emitDelta delta).openBlock = some kind := hopen
  exact ⟨front, last, hblocks, hkind, hadd, (framed_some hopen').mpr
    ⟨front, _, hadd, hfront, (Block.index_add _ _).trans hlast,
      (congrArg ContentBlock.kind (Block.content_add _ _)).trans hkind⟩⟩

/-! ### The text that is sent -/

/-- The text sent so far. -/
def text (t : StreamTranslator) : List Char := sentText t.events

@[simp] theorem text_emit (t : StreamTranslator) (event : Event) : (t.emit event).text = t.text ++ event.text := by
  rw [text, emit, sentText_append]
  exact congrArg (t.text ++ ·) (List.append_nil _)

@[simp] theorem text_closeBlock (t : StreamTranslator) : t.closeBlock.text = t.text := by
  rw [closeBlock]
  split
  · exact (text_emit _ _).trans (List.append_nil _)
  · rfl

@[simp] theorem text_closeBlockIf (t : StreamTranslator) (kind : OpenBlock) :
    (t.closeBlockIf kind).text = t.text := by
  rw [closeBlockIf]
  split
  · exact text_closeBlock t
  · rfl

@[simp] theorem text_closeBlockFinal (t : StreamTranslator) : t.closeBlockFinal.text = t.text := by
  rw [closeBlockFinal]
  split
  · exact (text_emit _ _).trans (List.append_nil _)
  · rfl

@[simp] theorem text_startBlock (t : StreamTranslator) (kind : OpenBlock) :
    (t.startBlock kind).text = t.text :=
  ((text_emit _ _).trans (List.append_nil _)).trans (text_closeBlock t)

@[simp] theorem text_ensureBlock (t : StreamTranslator) (kind : OpenBlock) :
    (t.ensureBlock kind).text = t.text := by
  rw [ensureBlock]
  split
  · rfl
  · exact text_startBlock t kind

theorem text_emitDelta (t : StreamTranslator) (delta : Delta) :
    (t.emitDelta delta).text = t.text ++ (Event.contentBlockDelta 0 delta).text := by
  rw [emitDelta, text_emit]
  cases delta <;> rfl

theorem text_wholeText (t : StreamTranslator) (text : String) :
    (t.wholeText text).text = t.text ++ text.toList := by
  rw [wholeText, text_closeBlock, text_emitDelta, text_ensureBlock]
  rfl

theorem text_startCall (t : StreamTranslator) (rawId upstreamName : String) :
    (t.startCall rawId upstreamName).text = t.text :=
  text_startBlock _ _

end StreamTranslator

end Headroom.OpenAi
