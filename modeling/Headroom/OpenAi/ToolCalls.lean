import Headroom.OpenAi.MessageText

/-!
# Tool calls

The events of several calls may come in any order, but one block is open at a time.
-/

open Foundation

namespace Headroom.OpenAi

open StreamTranslator

/-! ### Streams of calls -/

/-- A call of a function. -/
structure Call where
  index : ℕ
  id : String
  name : String
  args : String

/-- What an event of a call is. -/
inductive CallLabel
  | added
  | delta (d : String)
  | argsDone
  | itemDone
  deriving DecidableEq

/-- How far a call has come, and whether it was announced. -/
inductive CallPhase
  | waiting
  | streaming (announced : Bool) (part : List Char)
  | argsDone (announced : Bool)
  | done (announced : Bool)
  deriving DecidableEq

namespace CallPhase

/-- Whether the call was announced. -/
def announced : CallPhase → Bool
  | .waiting => false
  | .streaming announced _ | .argsDone announced | .done announced => announced

/-- The arguments so far are all of them, or none. -/
def Whole (c : Call) : CallPhase → Prop
  | .streaming _ part => part = c.args.toList ∨ part = []
  | .done _ => False
  | _ => True

/-- The arguments that the client should hold of the call by now. -/
def part (c : Call) : CallPhase → Option (List Char)
  | .streaming true part => some part
  | .argsDone true => some c.args.toList
  | .done _ => some c.args.toList
  | _ => none

end CallPhase

/-- What a call does next: its start, which may be missing, its arguments piece by piece, its whole
arguments, and its end. -/
inductive Call.Next (c : Call) : CallPhase → CallLabel → CallPhase → Prop
  | added : Call.Next c .waiting .added (.streaming true [])
  | first (d : String) : Call.Next c .waiting (.delta d) (.streaming false d.toList)
  | delta (announced : Bool) (part : List Char) (d : String) :
      Call.Next c (.streaming announced part) (.delta d) (.streaming announced (part ++ d.toList))
  | argsDone {phase : CallPhase} (h : phase.Whole c) (hfirst : ∀ announced, phase ≠ .argsDone announced) :
      Call.Next c phase .argsDone (.argsDone phase.announced)
  | itemDone {phase : CallPhase} (h : phase.Whole c) :
      Call.Next c phase .itemDone (.done phase.announced)

/-- The item of a chunk is the call. -/
structure Call.IsItem (c : Call) (chunk : Json) : Prop where
  type : itemType chunk = some "function_call"
  id : rawId (itemOf chunk) = c.id
  name : itemName (itemOf chunk) = c.name

/-- What an event carries for its call. -/
def Call.Carries (c : Call) (name : String) (chunk : Json) (label : CallLabel) : Prop :=
  outputIndex chunk = some c.index ∧
    match label with
    | .added => armOf name = .outputItemAdded ∧ c.IsItem chunk
    | .delta d => armOf name = .functionArgsDelta ∧ deltaOf chunk = d
    | .argsDone =>
      armOf name = .functionArgsDone ∧ chunk.getStr? "arguments" = some c.args
    | .itemDone => armOf name = .outputItemDone ∧ c.IsItem chunk ∧
      (itemOf chunk).getStr? "arguments" = some c.args

/-- An event that is not about a call, and does not end the turn. -/
def Callless (name : String) (chunk : Json) : Prop :=
  armOf name ∉ [.functionArgsDelta, .functionArgsDone, .completed, .failed, .incomplete] ∧
    (armOf name ∈ [.outputItemAdded, .outputItemDone] →
      itemType chunk ≠ some "function_call")

/-- An event of a stream, with the call it is for. -/
structure CallEvent where
  call : Option (ℕ × CallLabel)
  name : String
  chunk : Json

/-- The streams that bring the calls, with how far every call has come. The events of different calls
and of other items come in any order. -/
inductive CallStream (calls : List Call) : (ℕ → CallPhase) → List CallEvent → Prop
  | nil : CallStream calls (fun _ => .waiting) []
  | other {phases : ℕ → CallPhase} {stream : List CallEvent} {name : String} {chunk : Json}
      (h : CallStream calls phases stream) (hname : IsResponses name) (hcall : Callless name chunk) :
      CallStream calls phases (stream ++ [⟨none, name, chunk⟩])
  | call {phases : ℕ → CallPhase} {stream : List CallEvent} {label : CallLabel} {name : String}
      {chunk : Json} {i : ℕ} {c : Call} {phase : CallPhase} (h : CallStream calls phases stream)
      (hname : IsResponses name) (hcall : calls[i]? = some c) (hcarries : c.Carries name chunk label)
      (hnext : c.Next (phases i) label phase) :
      CallStream calls (Function.update phases i phase) (stream ++ [⟨some (i, label), name, chunk⟩])

/-- Different calls have different ids and places. -/
structure Distinct (calls : List Call) : Prop where
  ids : (calls.map Call.id).Nodup
  indices : (calls.map Call.index).Nodup

/-! ### What the client holds -/

/-- A call as the client holds it. -/
structure ToolUse where
  id : String
  name : String
  partialJson : List Char
  deriving DecidableEq

/-- The call of a block. -/
def Block.toolUse? (b : Block) : Option ToolUse :=
  match b.content with
  | .toolUse id name => some ⟨id, name, b.partialJson⟩
  | _ => none

/-- The name of a call, as the client knows it. -/
def restoreName (aliases : Option ToolAlias) (name : String) : String :=
  (aliases.map fun aliases => aliases.reverseName name).getD name

namespace StreamTranslator

/-- The calls that the client holds. -/
def tools (t : StreamTranslator) : List ToolUse := t.blocks.filterMap Block.toolUse?

/-- The name of a call, as the client of a turn knows it. -/
def clientName (t : StreamTranslator) (name : String) : String :=
  (t.toolAliases.map fun aliases => aliases.reverseName name).getD name

end StreamTranslator

/-- The translator behind a stream. -/
def runCalls (B : Base64) (t : StreamTranslator) (stream : List CallEvent) : StreamTranslator :=
  stream.foldl (fun t event => t.processFrame B ⟨some event.name, .chunk event.chunk⟩) t

/-! ### What other events leave alone -/

namespace StreamTranslator

variable {t t' t'' : StreamTranslator} {B : Base64} {name : String} {chunk : Json} {kind : OpenBlock}

theorem tools_of_blocks (h : t'.blocks = t.blocks) : t'.tools = t.tools := by
  rw [tools, tools, h]

theorem toolUse?_of_kind {b : Block} (h : b.content.kind ≠ .tool) : b.toolUse? = none := by
  obtain ⟨index, content, text, partialJson, signature⟩ := b
  cases content with
  | text => rfl
  | thinking => rfl
  | toolUse id name => exact absurd rfl h

/-- The calls are as they were, and no block of a call was opened. -/
structure Quiet (t t' : StreamTranslator) : Prop where
  framed : t.Framed → t'.Framed
  tools : t.Framed → t'.tools = t.tools
  calls : SameCalls t t'
  opened : t'.openBlock = some .tool → t.openBlock = some .tool

theorem Quiet.refl (t : StreamTranslator) : Quiet t t := ⟨id, fun _ => rfl, .refl t, id⟩

theorem Quiet.trans (h : Quiet t t') (h' : Quiet t' t'') : Quiet t t'' :=
  ⟨fun hframed => h'.framed (h.framed hframed),
    fun hframed => (h'.tools (h.framed hframed)).trans (h.tools hframed), h.calls.trans h'.calls,
    fun hopen => h.opened (h'.opened hopen)⟩

/-- What is not about blocks. -/
theorem quiet_of_eq (hevents : t'.events = t.events) (hopen : t'.openBlock = t.openBlock)
    (hindex : t'.contentBlockIndex = t.contentBlockIndex) (hcalls : SameCalls t t') : Quiet t t' := by
  have hblocks : t'.blocks = t.blocks := by rw [blocks, blocks, hevents]
  refine ⟨fun h => ?_, fun _ => tools_of_blocks hblocks, hcalls, fun h => hopen ▸ h⟩
  rw [Framed] at h ⊢
  rwa [hopen, hblocks, hindex]

theorem quiet_emit (t : StreamTranslator) {event : Event} (h : receive t.blocks event = t.blocks) :
    Quiet t (t.emit event) := by
  have hblocks : (t.emit event).blocks = t.blocks := (blocks_emit t event).trans h
  refine ⟨fun hframed => ?_, fun _ => tools_of_blocks hblocks, sameCalls_emit t event, id⟩
  rw [Framed] at hframed ⊢
  rwa [hblocks]

theorem quiet_closeBlock (t : StreamTranslator) : Quiet t t.closeBlock :=
  ⟨framed_closeBlock, fun _ => tools_of_blocks (blocks_closeBlock t), sameCalls_closeBlock t,
    fun h => absurd ((openBlock_closeBlock t).symm.trans h) (by simp)⟩

theorem quiet_closeBlockIf (t : StreamTranslator) (kind : OpenBlock) : Quiet t (t.closeBlockIf kind) := by
  rw [closeBlockIf]
  split
  · exact quiet_closeBlock t
  · exact .refl t

theorem quiet_ensureBlock (t : StreamTranslator) (hkind : kind ≠ .tool) : Quiet t (t.ensureBlock kind) := by
  refine ⟨fun h => framed_ensureBlock h kind, fun _ => ?_, sameCalls_ensureBlock t kind, fun h => ?_⟩
  · rw [ensureBlock]
    split
    · rfl
    · rw [tools, blocks_startBlock, List.filterMap_append, tools]
      refine (congrArg (_ ++ ·) ?_).trans (List.append_nil _)
      rw [List.filterMap_cons_none, List.filterMap_nil]
      exact toolUse?_of_kind (by rwa [kind_startOf])
  · rw [openBlock_ensureBlock] at h
    exact absurd (Option.some.inj h) hkind

theorem quiet_emitDelta (hopen : t.openBlock = some kind) (hkind : kind ≠ .tool) (delta : Delta) :
    Quiet t (t.emitDelta delta) := by
  refine ⟨fun h => ?_, fun h => ?_, sameCalls_emit t _, id⟩
  · obtain ⟨-, -, -, -, -, hframed⟩ := blocks_emitDelta hopen h delta
    exact hframed
  · obtain ⟨front, last, hblocks, hlast, hblocks', -⟩ := blocks_emitDelta hopen h delta
    have hnone : ∀ b : Block, b.content = last.content → [b].filterMap Block.toolUse? = [] := by
      intro b hb
      rw [List.filterMap_cons_none, List.filterMap_nil]
      exact toolUse?_of_kind (by rwa [hb, hlast])
    rw [tools, tools, hblocks, hblocks', List.filterMap_append, List.filterMap_append,
      hnone _ (Block.content_add last delta), hnone _ rfl]

/-- A delta for a block that is not a call's. -/
theorem quiet_ensureBlock_emitDelta (t : StreamTranslator) (hkind : kind ≠ .tool) (delta : Delta) :
    Quiet t ((t.ensureBlock kind).emitDelta delta) :=
  (quiet_ensureBlock t hkind).trans (quiet_emitDelta (openBlock_ensureBlock t kind) hkind delta)

theorem quiet_wholeText (t : StreamTranslator) (text : String) : Quiet t (t.wholeText text) :=
  (quiet_ensureBlock_emitDelta t (by decide) _).trans (quiet_closeBlock _)

theorem quiet_onMessageDone (t : StreamTranslator) (chunk : Json) : Quiet t (t.onMessageDone chunk) := by
  have hreset : ∀ u : StreamTranslator, Quiet u u.resetMessage := fun u =>
    quiet_of_eq rfl rfl rfl ⟨rfl, rfl, rfl, rfl, rfl, rfl, rfl, rfl⟩
  rw [onMessageDone]
  split
  · exact (quiet_wholeText t _).trans (hreset _)
  · exact hreset t

theorem quiet_onReasoningDone (t : StreamTranslator) (B : Base64) (chunk : Json) :
    Quiet t (t.onReasoningDone B chunk) := by
  have hreset : Quiet t t.resetReasoning :=
    quiet_of_eq rfl rfl rfl ⟨rfl, rfl, rfl, rfl, rfl, rfl, rfl, rfl⟩
  rw [onReasoningDone]
  split
  · split
    · exact hreset
    · exact (hreset.trans (quiet_ensureBlock_emitDelta _ (by decide) _)).trans (quiet_closeBlock _)
  · exact hreset

theorem quiet_onArm (t : StreamTranslator) (B : Base64) (h : Callless name chunk) :
    Quiet t (t.onArm B chunk (armOf name)) := by
  obtain ⟨harm, hitem⟩ := h
  cases hname : armOf name with
  | outputTextDelta =>
    show Quiet t (t.onOutputTextDelta chunk)
    rw [onOutputTextDelta]
    split
    · exact .refl t
    · exact (quiet_ensureBlock_emitDelta t (by decide) _).trans
        (quiet_of_eq rfl rfl rfl ⟨rfl, rfl, rfl, rfl, rfl, rfl, rfl, rfl⟩)
  | outputTextDone =>
    show Quiet t (t.onOutputTextDone chunk)
    rw [onOutputTextDone]
    split
    · split
      · exact .refl t
      · exact (quiet_wholeText t _).trans
          (quiet_of_eq rfl rfl rfl ⟨rfl, rfl, rfl, rfl, rfl, rfl, rfl, rfl⟩)
    · exact .refl t
  | refusalDelta =>
    show Quiet t (t.onRefusalDelta chunk)
    rw [onRefusalDelta]
    split
    · exact .refl t
    · exact (quiet_ensureBlock_emitDelta t (by decide) _).trans
        (quiet_of_eq rfl rfl rfl ⟨rfl, rfl, rfl, rfl, rfl, rfl, rfl, rfl⟩)
  | refusalDone =>
    show Quiet t (t.onRefusalDone chunk)
    rw [onRefusalDone]
    split
    · split
      · exact .refl t
      · exact (quiet_wholeText t _).trans
          (quiet_of_eq rfl rfl rfl ⟨rfl, rfl, rfl, rfl, rfl, rfl, rfl, rfl⟩)
    · exact .refl t
  | reasoningDelta =>
    show Quiet t (t.onReasoningDelta chunk)
    rw [onReasoningDelta]
    split
    · exact (quiet_ensureBlock_emitDelta t (by decide) _).trans
        (quiet_of_eq rfl rfl rfl ⟨rfl, rfl, rfl, rfl, rfl, rfl, rfl, rfl⟩)
    · exact .refl t
  | summaryPartAdded => exact quiet_closeBlockIf t _
  | outputItemAdded =>
    show Quiet t (t.onOutputItemAdded chunk)
    rw [onOutputItemAdded, if_neg (hitem (by rw [hname]; decide))]
    split
    · exact quiet_of_eq rfl rfl rfl ⟨rfl, rfl, rfl, rfl, rfl, rfl, rfl, rfl⟩
    · exact .refl t
  | functionArgsDelta => exact absurd (hname ▸ harm) (by simp)
  | functionArgsDone => exact absurd (hname ▸ harm) (by simp)
  | outputItemDone =>
    show Quiet t (t.onOutputItemDone B chunk)
    rw [onOutputItemDone, if_neg (hitem (by rw [hname]; decide))]
    split_ifs
    · exact quiet_onMessageDone t chunk
    · exact quiet_onReasoningDone t B chunk
    · exact .refl t
  | completed => exact absurd (hname ▸ harm) (by simp)
  | failed => exact absurd (hname ▸ harm) (by simp)
  | incomplete => exact absurd (hname ▸ harm) (by simp)
  | unhandled => exact .refl t

theorem quiet_start (t : StreamTranslator) : Quiet t t.start := by
  rw [start]
  split
  · exact .refl t
  · exact (quiet_emit t rfl).trans (quiet_of_eq rfl rfl rfl ⟨rfl, rfl, rfl, rfl, rfl, rfl, rfl, rfl⟩)

theorem quiet_noteModel (t : StreamTranslator) (name : String) (chunk : Json) :
    Quiet t (t.noteModel name chunk) := by
  rw [noteModel]
  split
  · exact quiet_of_eq rfl rfl rfl ⟨rfl, rfl, rfl, rfl, rfl, rfl, rfl, rfl⟩
  · exact .refl t

/-- A frame is an event for a translator that has started. -/
theorem processFrame_eq (ht : t.terminated = false) (hname : IsResponses name) :
    ∃ t', Quiet t t' ∧ t'.openBlock = t.openBlock ∧
      t.processFrame B ⟨some name, .chunk chunk⟩ = t'.onArm B chunk (armOf name) := by
  refine ⟨(t.noteModel name chunk).start, (quiet_noteModel t name chunk).trans (quiet_start _), ?_, ?_⟩
  · rw [start]
    split
    · rw [noteModel]
      split <;> rfl
    · show (t.noteModel name chunk).openBlock = t.openBlock
      rw [noteModel]
      split <;> rfl
  · rw [processFrame, if_neg (by rw [ht]; decide)]
    exact if_pos hname

theorem toolBlockOpenFor_eq (h : SameCalls t t') (hopen : t'.openBlock = t.openBlock) (chunk : Json) :
    t'.toolBlockOpenFor chunk = t.toolBlockOpenFor chunk := by
  rw [toolBlockOpenFor, toolBlockOpenFor, hopen, h.toolIndex]

theorem openBlock_of_openFor (h : t.toolBlockOpenFor chunk = true) : t.openBlock = some .tool := by
  rw [toolBlockOpenFor, Bool.and_eq_true, decide_eq_true_eq] at h
  exact h.1

/-! ### The calls that the client holds -/

theorem startOf_closeBlock (t : StreamTranslator) :
    t.closeBlock.startOf .tool = .toolUse t.currentToolId t.currentToolName := by
  rw [closeBlock]
  split <;> rfl

/-- The client holds one call more. -/
structure Held (t t' : StreamTranslator) (id name : String) (args : List Char) : Prop where
  framed : t'.Framed
  claimed : t'.claimedToolIds = id :: t.claimedToolIds
  aliases : t'.toolAliases = t.toolAliases
  terminal : t'.terminalEmitted = t.terminalEmitted
  terminated : t'.terminated = t.terminated
  tools : t'.tools = t.tools ++ [⟨id, t.clientName name, args⟩]

theorem Held.quiet {id name : String} {args : List Char} (h : Held t t' id name args) (hquiet : Quiet t' t'') :
    Held t t'' id name args :=
  ⟨hquiet.framed h.framed, hquiet.calls.claimed.trans h.claimed, hquiet.calls.aliases.trans h.aliases,
    hquiet.calls.terminal.trans h.terminal, hquiet.calls.terminated.trans h.terminated,
    (hquiet.tools h.framed).trans h.tools⟩

/-- A call that starts is a new one for the client. -/
theorem held_startCall {rawId : String} (h : t.Framed) (hraw : rawId ∉ t.claimedToolIds) (name : String) :
    Held t (t.startCall rawId name) rawId name [] := by
  have hid : t.claimedId rawId = rawId := if_pos hraw
  have hsame := sameCalls_startBlock ((t.claimToolId rawId).captureToolName name) .tool
  refine ⟨framed_startBlock (t := (t.claimToolId rawId).captureToolName name) h .tool, ?_, hsame.aliases,
    hsame.terminal, hsame.terminated, ?_⟩
  · refine hsame.claimed.trans ?_
    show t.claimedId rawId :: t.claimedToolIds = _
    rw [hid]
  · rw [startCall, openToolBlock, tools, blocks_startBlock, List.filterMap_append, startOf_closeBlock]
    show t.tools ++ [⟨t.claimedId rawId, t.clientName name, []⟩] = _
    rw [hid]

/-- Arguments are added to the last call. -/
theorem tools_emitInput (hopen : t.openBlock = some .tool) (h : t.Framed) (args : String) :
    ∃ front id name part, t.tools = front ++ [⟨id, name, part⟩] ∧
      (t.emitDelta (.inputJson args)).tools = front ++ [⟨id, name, part ++ args.toList⟩] ∧
        (t.emitDelta (.inputJson args)).Framed := by
  obtain ⟨front, last, hblocks, hkind, hblocks', hframed⟩ := blocks_emitDelta hopen h (.inputJson args)
  obtain ⟨index, content, text, partialJson, signature⟩ := last
  cases content with
  | text => exact absurd hkind (by simp [ContentBlock.kind])
  | thinking => exact absurd hkind (by simp [ContentBlock.kind])
  | toolUse id name =>
    refine ⟨front.filterMap Block.toolUse?, id, name, partialJson, ?_, ?_, hframed⟩
    · rw [tools, hblocks, List.filterMap_append]
      rfl
    · rw [tools, hblocks', List.filterMap_append]
      rfl

theorem Held.emitInput {id name : String} (h : Held t t' id name []) (hopen : t'.openBlock = some .tool)
    (args : String) : Held t (t'.emitDelta (.inputJson args)) id name args.toList := by
  obtain ⟨front, id', name', part, htools, hnew, hframed⟩ := tools_emitInput hopen h.framed args
  obtain ⟨rfl, hlast⟩ := List.append_inj' (htools.symm.trans h.tools) rfl
  obtain ⟨rfl, rfl, rfl⟩ := ToolUse.mk.inj (List.singleton_inj.mp hlast)
  exact ⟨hframed, h.claimed, h.aliases, h.terminal, h.terminated, hnew⟩

theorem nonEmptyField_delta (chunk : Json) :
    nonEmptyField "delta" chunk = if deltaOf chunk = "" then none else some (deltaOf chunk) := by
  cases hfield : chunk.getStr? "delta" with
  | none => rw [nonEmptyField, deltaOf, hfield]; rfl
  | some delta =>
    rw [nonEmptyField_of_getStr? hfield, deltaOf, hfield]
    rfl

theorem held_recoverUnannouncedCall {args : String} (h : t.Framed)
    (hraw : rawId (itemOf chunk) ∉ t.claimedToolIds)
    (hargs : (itemOf chunk).getStr? "arguments" = some args) :
    Held t (t.recoverUnannouncedCall chunk) (rawId (itemOf chunk)) (itemName (itemOf chunk)) args.toList ∧
      (t.recoverUnannouncedCall chunk).announcedToolIndices = t.announcedToolIndices ∧
        (t.recoverUnannouncedCall chunk).sawToolUse = true := by
  obtain ⟨hframed, hclaimed, haliases, hterminal, hterminated, htools⟩ :=
    held_startCall h hraw (itemName (itemOf chunk))
  have hnote : Held t ((t.startCall (rawId (itemOf chunk)) (itemName (itemOf chunk))).noteCall
      (outputIndex chunk)) (rawId (itemOf chunk)) (itemName (itemOf chunk)) [] :=
    ⟨hframed, hclaimed, haliases, hterminal, hterminated, htools⟩
  have hannounced := (sameCalls_startBlock
    ((t.claimToolId (rawId (itemOf chunk))).captureToolName (itemName (itemOf chunk))) .tool).announced
  rw [recoverUnannouncedCall, nonEmptyField_of_getStr? hargs]
  split_ifs with hempty
  · subst hempty
    exact ⟨hnote, hannounced, rfl⟩
  · have hinput := hnote.emitInput rfl args
    exact ⟨⟨hinput.framed, hinput.claimed, hinput.aliases, hinput.terminal, hinput.terminated, hinput.tools⟩,
      hannounced, rfl⟩

theorem held_recoverUnstreamedCall {item : Json} {args : String} (h : t.Framed)
    (htype : item.getStr? "type" = some "function_call") (hid : rawId item ≠ "")
    (hraw : rawId item ∉ t.claimedToolIds) (hargs : item.getStr? "arguments" = some args) :
    Held t (t.recoverUnstreamedCall item) (rawId item) (itemName item) args.toList ∧
      (t.recoverUnstreamedCall item).announcedToolIndices = t.announcedToolIndices ∧
        (t.recoverUnstreamedCall item).sawToolUse = true ∧
          (t.recoverUnstreamedCall item).openBlock = none := by
  obtain ⟨hframed, hclaimed, haliases, hterminal, hterminated, htools⟩ := held_startCall h hraw (itemName item)
  have hnote : Held t (t.startCall (rawId item) (itemName item)).noteUnstreamedCall (rawId item)
      (itemName item) [] :=
    ⟨hframed, hclaimed, haliases, hterminal, hterminated, htools⟩
  have hannounced := (sameCalls_startBlock
    ((t.claimToolId (rawId item)).captureToolName (itemName item)) .tool).announced
  rw [recoverUnstreamedCall, if_neg (not_not.mpr htype), if_neg (not_or.mpr ⟨hid, hraw⟩),
    nonEmptyField_of_getStr? hargs]
  have hclose : ∀ u : StreamTranslator, Held t u (rawId item) (itemName item) args.toList →
      u.announcedToolIndices = t.announcedToolIndices → u.sawToolUse = true →
        Held t u.closeBlock (rawId item) (itemName item) args.toList ∧
          u.closeBlock.announcedToolIndices = t.announcedToolIndices ∧
            u.closeBlock.sawToolUse = true ∧ u.closeBlock.openBlock = none := fun u hheld hann huse =>
    ⟨hheld.quiet (quiet_closeBlock u), (sameCalls_closeBlock u).announced.trans hann,
      (sameCalls_closeBlock u).toolUse.trans huse, openBlock_closeBlock u⟩
  split_ifs with hempty
  · subst hempty
    exact hclose _ hnote hannounced rfl
  · exact hclose _ (hnote.emitInput rfl args) hannounced rfl

end StreamTranslator

end Headroom.OpenAi
