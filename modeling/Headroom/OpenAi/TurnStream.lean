import Headroom.OpenAi.Request
import Headroom.OpenAi.ToolCalls

/-!
# A turn that is streamed item by item

A turn is a list of reasoning items, messages and calls, and its stream brings one after the other. The
blocks that the client holds keep every item; only a message that came by deltas leaves its block open,
and the next message goes on in it.
-/

open Foundation

namespace Headroom.OpenAi

open StreamTranslator

/-! ### Streams of turns -/

inductive TurnItem
  | reasoning (replay : ReasoningReplay)
  | message (item : Item)
  | call (c : Call)

/-- The item that is streamed, with what came of it. -/
inductive Underway
  | reasoning (replay : ReasoningReplay)
  | message (item : Item) (part : List Char) (whole : Bool)
  | call (c : Call) (announced : Bool) (part : List Char) (argsDone : Bool)

def TurnItem.start : TurnItem → Underway
  | .reasoning replay => .reasoning replay
  | .message item => .message item [] false
  | .call c => .call c false [] false

/-- An event that names the place of a call names the right one. -/
def InPlace (c : Call) (chunk : Json) : Prop := outputIndex chunk = none ∨ outputIndex chunk = some c.index

/-- An event that does not end its item. -/
inductive Underway.Goes (name : String) (chunk : Json) : Underway → Underway → Prop
  | reasoningAdded (replay : ReasoningReplay) (harm : armOf name = .outputItemAdded)
      (htype : itemType chunk = some "reasoning") :
      Goes name chunk (.reasoning replay) (.reasoning replay)
  | summary (replay : ReasoningReplay) (harm : armOf name = .reasoningDelta ∨
      armOf name = .summaryPartAdded) :
      Goes name chunk (.reasoning replay) (.reasoning replay)
  | messageAdded (item : Item) (part : List Char) (whole : Bool)
      (harm : armOf name = .outputItemAdded)
      (htype : itemType chunk = some "message") :
      Goes name chunk (.message item part whole) (.message item part whole)
  | messageDelta (item : Item) (part : List Char) (harm : armOf name =
      if item.refusal then .refusalDelta else .outputTextDelta) :
      Goes name chunk (.message item part false)
        (.message item (part ++ (deltaOf chunk).toList) false)
  | messageWhole (item : Item) (part : List Char) (harm : armOf name =
      if item.refusal then .refusalDone else .outputTextDone)
      (htext : chunk.getStr? (if item.refusal then "refusal" else "text") = some item.text)
      (hpart : part = [] ∨ part = item.text.toList) :
      Goes name chunk (.message item part false) (.message item part true)
  | callAdded (c : Call) (harm : armOf name = .outputItemAdded) (hitem : c.IsItem chunk)
      (hplace : InPlace c chunk) : Goes name chunk (.call c false [] false) (.call c true [] false)
  | callDelta (c : Call) (announced : Bool) (part : List Char)
      (harm : armOf name = .functionArgsDelta) (hplace : InPlace c chunk) :
      Goes name chunk (.call c announced part false)
        (.call c announced (part ++ (deltaOf chunk).toList) false)
  | callArgsDone (c : Call) (announced : Bool) (part : List Char)
      (harm : armOf name = .functionArgsDone) (hplace : InPlace c chunk)
      (hargs : chunk.getStr? "arguments" = some c.args) (hpart : part = [] ∨ part = c.args.toList) :
      Goes name chunk (.call c announced part false) (.call c announced part true)

/-- The event that ends its item; whether the text of a message came by deltas is kept with the item. -/
inductive Underway.Ends (name : String) (chunk : Json) : Underway → TurnItem × Bool → Prop
  | reasoning (replay : ReasoningReplay) (harm : armOf name = .outputItemDone)
      (htype : itemType chunk = some "reasoning")
      (hid : (itemOf chunk).getStr? "id" = some replay.id)
      (hcontent : (itemOf chunk).getStr? "encrypted_content" =
        some replay.encryptedContent) :
      Ends name chunk (.reasoning replay) (.reasoning replay, false)
  | message (item : Item) (part : List Char) (whole : Bool)
      (harm : armOf name = .outputItemDone)
      (htype : itemType chunk = some "message")
      (htext : messageText (itemOf chunk) = item.text)
      (hpart : part = [] ∨ part = item.text.toList) :
      Ends name chunk (.message item part whole) (.message item, decide (part ≠ []))
  | call (c : Call) (announced : Bool) (part : List Char) (argsDone : Bool)
      (harm : armOf name = .outputItemDone) (hitem : c.IsItem chunk)
      (hplace : InPlace c chunk)
      (hargs : (itemOf chunk).getStr? "arguments" = some c.args)
      (hpart : part = [] ∨ part = c.args.toList)
      (hwhole : announced = true → part = c.args.toList ∨ argsDone = true) :
      Ends name chunk (.call c announced part argsDone) (.call c, false)

/-- Whether a model discards reasoning. -/
def SparkName (model : String) : Prop := "spark".toList <:+: model.toList.map lowercase

/-- An event that is not translated, and does not name a model that discards reasoning. -/
def Untranslated (name : String) (chunk : Json) : Prop :=
  armOf name = .unhandled ∧
    ∀ model, (chunk.get? "response").bind (Json.getStr? "model") = some model → ¬ SparkName model

/-- The calls of a turn. -/
def TurnItem.call? : TurnItem → Option Call
  | .call c => some c
  | _ => none

def callsOf (past : List (TurnItem × Bool)) : List Call := past.filterMap fun item => item.1.call?

/-- An item that can follow in a turn. -/
def Underway.Sound (past : List (TurnItem × Bool)) : Underway → Prop
  | .reasoning replay => Sealable replay
  | .message item _ _ => item.text ≠ ""
  | .call c _ _ _ => ∀ c' ∈ callsOf past, c'.id ≠ c.id ∧ c'.index ≠ c.index

/-- The streams that bring the items of a turn one after the other. -/
inductive TurnStream : List (TurnItem × Bool) → Option Underway → List (String × Json) → Prop
  | nil : TurnStream [] none []
  | other {past : List (TurnItem × Bool)} {current : Option Underway} {stream : List (String × Json)}
      {name : String} {chunk : Json} (h : TurnStream past current stream) (hname : IsResponses name)
      (hother : Untranslated name chunk) : TurnStream past current (stream ++ [(name, chunk)])
  | start {past : List (TurnItem × Bool)} {stream : List (String × Json)}
      (h : TurnStream past none stream) (item : TurnItem) (hsound : item.start.Sound past) :
      TurnStream past (some item.start) stream
  | goes {past : List (TurnItem × Bool)} {current current' : Underway} {stream : List (String × Json)}
      {name : String} {chunk : Json} (h : TurnStream past (some current) stream) (hname : IsResponses name)
      (hgoes : current.Goes name chunk current') :
      TurnStream past (some current') (stream ++ [(name, chunk)])
  | ends {past : List (TurnItem × Bool)} {current : Underway} {item : TurnItem × Bool}
      {stream : List (String × Json)} {name : String} {chunk : Json}
      (h : TurnStream past (some current) stream) (hname : IsResponses name)
      (hends : current.Ends name chunk item) : TurnStream (past ++ [item]) none (stream ++ [(name, chunk)])

/-- The translator behind a stream. -/
def runTurn (B : Base64) (t : StreamTranslator) (stream : List (String × Json)) : StreamTranslator :=
  stream.foldl (fun t event => t.processFrame B ⟨some event.1, .chunk event.2⟩) t

theorem runTurn_append (B : Base64) (t : StreamTranslator) (stream : List (String × Json)) (name : String)
    (chunk : Json) : runTurn B t (stream ++ [(name, chunk)]) =
      (runTurn B t stream).processFrame B ⟨some name, .chunk chunk⟩ := by
  rw [runTurn, List.foldl_append]
  rfl

/-! ### What the items leave -/

/-- Text behind what is kept, or at the end of the last text. -/
def glue (kept : List Kept) (text : List Char) : List Kept :=
  match kept.getLast? with
  | some (.text before) => kept.dropLast ++ [.text (before ++ text)]
  | _ => kept ++ [.text text]

/-- What the blocks keep, and whether a text block is open. -/
structure Shape where
  kept : List Kept := []
  textOpen : Bool := false

namespace Shape

/-- A piece of text. -/
def say (s : Shape) (text : List Char) : List Kept :=
  if s.textOpen then glue s.kept text else s.kept ++ [.text text]

def add (aliases : Option ToolAlias) (s : Shape) : TurnItem × Bool → Shape
  | (.reasoning replay, _) => ⟨s.kept ++ [.reasoning replay], false⟩
  | (.message item, streamed) => ⟨s.say item.text.toList, streamed⟩
  | (.call c, _) => ⟨s.kept ++ [.call c.id (restoreName aliases c.name) c.args.toList], false⟩

end Shape

/-- What the blocks keep of the items. -/
def shapeOf (aliases : Option ToolAlias) (past : List (TurnItem × Bool)) : Shape :=
  past.foldl (Shape.add aliases) {}

/-! ### What the blocks keep -/

theorem glue_append (front : List Kept) (before text : List Char) :
    glue (front ++ [.text before]) text = front ++ [.text (before ++ text)] := by
  rw [glue, List.getLast?_concat, List.dropLast_concat]

theorem glue_glue (kept : List Kept) (a b : List Char) : glue (glue kept a) b = glue kept (a ++ b) := by
  rw [glue.eq_def kept a, glue.eq_def kept (a ++ b)]
  split
  · rw [glue_append, List.append_assoc]
  · exact glue_append _ _ _

namespace StreamTranslator

variable {t t' u : StreamTranslator} {B : Base64} {kind : OpenBlock} {name : String} {chunk : Json}

/-- What the blocks keep of a turn. -/
def kept (B : Base64) (t : StreamTranslator) : List Kept := t.blocks.filterMap (Block.kept? B)

/-- The open block has no signature. -/
def Unsigned (t : StreamTranslator) : Prop :=
  t.openBlock = some .thinking → ∀ b, t.blocks.getLast? = some b → b.signature = none

theorem kept_of_blocks (h : t'.blocks = t.blocks) : t'.kept B = t.kept B := by
  rw [kept, kept, h]

theorem unsigned_of_open (h : t.openBlock ≠ some .thinking) : t.Unsigned := fun hopen => absurd hopen h

theorem kept_of_append {front : List Block} {last : Block} (h : t.blocks = front ++ [last]) :
    t.kept B = front.filterMap (Block.kept? B) ++ (last.kept? B).toList := by
  rw [kept, h, List.filterMap_append, List.filterMap_cons]
  cases last.kept? B <;> rfl

/-- A delta for a block that is opened if need be. -/
theorem blocks_ensureBlock_emitDelta (h : t.Framed) (kind : OpenBlock) (delta : Delta) :
    ∃ front last, last.content.kind = kind ∧
      ((t.ensureBlock kind).emitDelta delta).blocks = front ++ [last.add delta] ∧
      ((t.ensureBlock kind).emitDelta delta).Framed ∧
      (t.openBlock = some kind ∧ t.blocks = front ++ [last] ∨
        t.openBlock ≠ some kind ∧ t.blocks = front ∧ last.text = [] ∧ last.partialJson = [] ∧
          last.signature = none) := by
  by_cases hopen : t.openBlock = some kind
  · obtain ⟨front, last, hblocks, hkind, hadd, hframed⟩ := blocks_emitDelta hopen h delta
    rw [ensureBlock, if_pos hopen]
    exact ⟨front, last, hkind, hadd, hframed, Or.inl ⟨hopen, hblocks⟩⟩
  · have hopen' : (t.startBlock kind).openBlock = some kind := rfl
    obtain ⟨front, last, hblocks, hkind, hadd, hframed⟩ :=
      blocks_emitDelta hopen' (framed_startBlock h kind) delta
    obtain ⟨rfl, hlast⟩ := List.append_inj' ((blocks_startBlock t kind).symm.trans hblocks) rfl
    rw [ensureBlock, if_neg hopen]
    refine ⟨t.blocks, last, hkind, hadd, hframed, Or.inr ⟨hopen, rfl, ?_⟩⟩
    rw [← List.singleton_inj.mp hlast]
    exact ⟨rfl, rfl, rfl⟩

theorem kept_say (h : t.Framed) (text : String) :
    ((t.ensureBlock .text).emitDelta (.text text)).kept B =
      if t.openBlock = some .text then glue (t.kept B) text.toList else t.kept B ++ [.text text.toList] := by
  obtain ⟨front, last, hkind, hblocks, -, hlast⟩ := blocks_ensureBlock_emitDelta h .text (.text text)
  obtain ⟨index, content, before, partialJson, signature⟩ := last
  cases content with
  | thinking => exact absurd hkind (by simp [ContentBlock.kind])
  | toolUse => exact absurd hkind (by simp [ContentBlock.kind])
  | text =>
    have hnew : ((t.ensureBlock .text).emitDelta (.text text)).kept B =
        front.filterMap (Block.kept? B) ++ [.text (before ++ text.toList)] := kept_of_append hblocks
    rcases hlast with ⟨hopen, hold⟩ | ⟨hopen, rfl, rfl, -⟩
    · have hkept : t.kept B = front.filterMap (Block.kept? B) ++ [.text before] := kept_of_append hold
      rw [hnew, if_pos hopen, hkept, glue_append]
    · rw [hnew, if_neg hopen]
      rfl

theorem kept_think (h : t.Framed) (hunsigned : t.Unsigned) (thinking : String) :
    ((t.ensureBlock .thinking).emitDelta (.thinking thinking)).kept B = t.kept B ∧
      ((t.ensureBlock .thinking).emitDelta (.thinking thinking)).Unsigned := by
  obtain ⟨front, last, hkind, hblocks, -, hlast⟩ := blocks_ensureBlock_emitDelta h .thinking (.thinking thinking)
  have hsignature : last.signature = none := by
    rcases hlast with ⟨hopen, hold⟩ | ⟨-, -, -, -, hnone⟩
    · exact hunsigned hopen last (by rw [hold, List.getLast?_concat])
    · exact hnone
  obtain ⟨index, content, before, partialJson, signature⟩ := last
  obtain rfl : signature = none := hsignature
  cases content with
  | text => exact absurd hkind (by simp [ContentBlock.kind])
  | toolUse => exact absurd hkind (by simp [ContentBlock.kind])
  | thinking =>
    refine ⟨?_, fun _ b hb => ?_⟩
    · have hnew : ((t.ensureBlock .thinking).emitDelta (.thinking thinking)).kept B =
          front.filterMap (Block.kept? B) ++ [] := kept_of_append hblocks
      rw [hnew, List.append_nil]
      rcases hlast with ⟨-, hold⟩ | ⟨-, rfl, -⟩
      · exact ((kept_of_append hold).trans (List.append_nil _)).symm
      · rfl
    · rw [hblocks, List.getLast?_concat] at hb
      rw [← Option.some.inj hb]
      rfl

theorem kept_seal {signature : String} {replay : ReasoningReplay} (h : t.Framed) (hunsigned : t.Unsigned)
    (hdecode : decodeReasoningSignature B signature = some replay) :
    (((t.ensureBlock .thinking).emitDelta (.signature signature)).closeBlock).kept B =
      t.kept B ++ [.reasoning replay] := by
  obtain ⟨front, last, hkind, hblocks, -, hlast⟩ :=
    blocks_ensureBlock_emitDelta h .thinking (.signature signature)
  have hsignature : t.openBlock = some .thinking → last.signature = none := by
    rcases hlast with ⟨hopen, hold⟩ | ⟨-, -, -, -, hnone⟩
    · exact fun _ => hunsigned hopen last (by rw [hold, List.getLast?_concat])
    · exact fun _ => hnone
  obtain ⟨index, content, before, partialJson, signature'⟩ := last
  cases content with
  | text => exact absurd hkind (by simp [ContentBlock.kind])
  | toolUse => exact absurd hkind (by simp [ContentBlock.kind])
  | thinking =>
    have hnew : ((t.ensureBlock .thinking).emitDelta (.signature signature)).kept B =
        front.filterMap (Block.kept? B) ++ ((decodeReasoningSignature B signature).map Kept.reasoning).toList :=
      kept_of_append hblocks
    rw [kept_of_blocks (blocks_closeBlock _), hnew, hdecode]
    rcases hlast with ⟨hopen, hold⟩ | ⟨-, rfl, -⟩
    · obtain rfl : signature' = none := hsignature hopen
      have hkept : t.kept B = front.filterMap (Block.kept? B) ++ [] := kept_of_append hold
      rw [hkept, List.append_nil]
      rfl
    · rfl

theorem kept_startCall {rawId : String} (hraw : rawId ∉ t.claimedToolIds) (name : String) :
    (t.startCall rawId name).kept B = t.kept B ++ [.call rawId (t.clientName name) []] := by
  have hid : t.claimedId rawId = rawId := if_pos hraw
  rw [startCall, openToolBlock, kept, blocks_startBlock, List.filterMap_append, startOf_closeBlock]
  show t.kept B ++ [.call (t.claimedId rawId) (t.clientName name) []] = _
  rw [hid]

theorem kept_emitInput {front : List Kept} {id name' : String} {part : List Char}
    (hopen : t.openBlock = some .tool) (h : t.Framed) (hkept : t.kept B = front ++ [.call id name' part])
    (args : String) :
    (t.emitDelta (.inputJson args)).kept B = front ++ [.call id name' (part ++ args.toList)] := by
  obtain ⟨blocks, last, hblocks, hkind, hblocks', -⟩ := blocks_emitDelta hopen h (.inputJson args)
  obtain ⟨index, content, text, partialJson, signature⟩ := last
  cases content with
  | text => exact absurd hkind (by simp [ContentBlock.kind])
  | thinking => exact absurd hkind (by simp [ContentBlock.kind])
  | toolUse id' name'' =>
    have hold : t.kept B = blocks.filterMap (Block.kept? B) ++ [.call id' name'' partialJson] :=
      kept_of_append hblocks
    have hnew : (t.emitDelta (.inputJson args)).kept B =
        blocks.filterMap (Block.kept? B) ++ [.call id' name'' (partialJson ++ args.toList)] :=
      kept_of_append hblocks'
    obtain ⟨rfl, hlast⟩ := List.append_inj' (hold.symm.trans hkept) rfl
    obtain ⟨rfl, rfl, rfl⟩ := Kept.call.inj (List.singleton_inj.mp hlast)
    exact hnew

/-- What a step on blocks leaves alone besides the calls. -/
structure SameFlags (t t' : StreamTranslator) : Prop where
  textDelta : t'.sawTextDelta = t.sawTextDelta
  refusalDelta : t'.sawRefusalDelta = t.sawRefusalDelta
  model : t'.model = t.model

theorem SameFlags.trans (h : SameFlags t t') (h' : SameFlags t' u) : SameFlags t u :=
  ⟨h'.textDelta.trans h.textDelta, h'.refusalDelta.trans h.refusalDelta, h'.model.trans h.model⟩

theorem sameFlags_closeBlock (t : StreamTranslator) : SameFlags t t.closeBlock := by
  rw [closeBlock]
  split <;> exact ⟨rfl, rfl, rfl⟩

theorem sameFlags_closeBlockIf (t : StreamTranslator) (kind : OpenBlock) : SameFlags t (t.closeBlockIf kind) := by
  rw [closeBlockIf]
  split
  · exact sameFlags_closeBlock t
  · exact ⟨rfl, rfl, rfl⟩

theorem sameFlags_startBlock (t : StreamTranslator) (kind : OpenBlock) : SameFlags t (t.startBlock kind) :=
  (sameFlags_closeBlock t).trans ⟨rfl, rfl, rfl⟩

theorem sameFlags_ensureBlock (t : StreamTranslator) (kind : OpenBlock) : SameFlags t (t.ensureBlock kind) := by
  rw [ensureBlock]
  split
  · exact ⟨rfl, rfl, rfl⟩
  · exact sameFlags_startBlock t kind

theorem sameFlags_wholeText (t : StreamTranslator) (text : String) : SameFlags t (t.wholeText text) := by
  obtain ⟨htext, hrefusal, hmodel⟩ := sameFlags_ensureBlock t .text
  have hdelta : SameFlags t ((t.ensureBlock .text).emitDelta (.text text)) := ⟨htext, hrefusal, hmodel⟩
  exact hdelta.trans (sameFlags_closeBlock _)

theorem sameFlags_recoverUnannouncedCall (t : StreamTranslator) (chunk : Json) :
    SameFlags t (t.recoverUnannouncedCall chunk) := by
  have hstart : SameFlags t (t.startCall (rawId (itemOf chunk)) (itemName (itemOf chunk))) := by
    obtain ⟨htext, hrefusal, hmodel⟩ := sameFlags_startBlock
      ((t.claimToolId (rawId (itemOf chunk))).captureToolName (itemName (itemOf chunk))) .tool
    exact ⟨htext, hrefusal, hmodel⟩
  obtain ⟨htext, hrefusal, hmodel⟩ := hstart
  rw [recoverUnannouncedCall]
  split <;> exact ⟨htext, hrefusal, hmodel⟩

theorem openBlock_recoverUnannouncedCall (t : StreamTranslator) (chunk : Json) :
    (t.recoverUnannouncedCall chunk).openBlock = some .tool := by
  rw [recoverUnannouncedCall]
  split <;> rfl

theorem kept_recoverUnannouncedCall {args : String} (h : t.Framed)
    (hraw : rawId (itemOf chunk) ∉ t.claimedToolIds)
    (hargs : (itemOf chunk).getStr? "arguments" = some args) :
    (t.recoverUnannouncedCall chunk).kept B =
      t.kept B ++ [.call (rawId (itemOf chunk)) (t.clientName (itemName (itemOf chunk))) args.toList] := by
  have hstart := kept_startCall (B := B) hraw (itemName (itemOf chunk))
  have hframed := (held_startCall h hraw (itemName (itemOf chunk))).framed
  rw [recoverUnannouncedCall, nonEmptyField_of_getStr? hargs]
  split_ifs with hempty
  · subst hempty
    exact hstart
  · exact kept_emitInput rfl hframed hstart args

end StreamTranslator

/-! ### What the stream leaves true -/

/-- The flags of a text say nothing. -/
def Flagless (t : StreamTranslator) : Prop := t.sawTextDelta = false ∧ t.sawRefusalDelta = false

/-- The block that a shape leaves open. -/
def Shape.openBlock (s : Shape) : Option OpenBlock := if s.textOpen then some .text else none

/-- The blocks keep the items that ended, and what came of the one that is streamed. -/
def Now (B : Base64) (aliases : Option ToolAlias) (s : Shape) (t : StreamTranslator) : Option Underway → Prop
  | none => Flagless t ∧ t.kept B = s.kept ∧ t.openBlock = s.openBlock
  | some (.reasoning _) => Flagless t ∧ t.kept B = s.kept
  | some (.message item part whole) =>
    if part ≠ [] then item.flag t = true ∧ t.kept B = s.say part ∧ t.openBlock = some .text
    else if whole then item.flag t = true ∧ t.kept B = s.say item.text.toList ∧ t.openBlock = none
    else Flagless t ∧ t.kept B = s.kept ∧ t.openBlock = s.openBlock
  | some (.call c announced part argsDone) => Flagless t ∧
    if announced then
      t.kept B = s.kept ++ [.call c.id (restoreName aliases c.name) (if argsDone then c.args.toList else part)] ∧
        t.openBlock = some .tool ∧ (t.openToolIndex = none ∨ t.openToolIndex = some c.index) ∧
          (argsDone = false → (t.sawArgDelta = true ↔ part ≠ []))
    else t.kept B = s.kept ∧ t.openBlock = s.openBlock

/-- The call that is streamed and was announced. -/
def announcedCall : Option Underway → List Call
  | some (.call c true _ _) => [c]
  | _ => []

/-- The blocks keep the items as far as they have come. -/
structure Carried (B : Base64) (aliases : Option ToolAlias) (past : List (TurnItem × Bool))
    (current : Option Underway) (t : StreamTranslator) : Prop where
  alive : t.terminated = false
  running : t.terminalEmitted = false
  framed : t.Framed
  names : t.toolAliases = aliases
  dull : ¬ SparkName t.model
  unsigned : t.Unsigned
  sound : ∀ item, current = some item → item.Sound past
  claimed : ∀ id, id ∈ t.claimedToolIds ↔ ∃ c ∈ callsOf past ++ announcedCall current, id = c.id
  announced : ∀ i ∈ t.announcedToolIndices, ∃ c ∈ callsOf past ++ announcedCall current, i = c.index
  now : Now B aliases (shapeOf aliases past) t current

section Carried

variable {B : Base64} {aliases : Option ToolAlias} {past : List (TurnItem × Bool)}
  {current current' : Option Underway} {t t' : StreamTranslator} {name : String} {chunk : Json}

/-- What is not about blocks. -/
theorem Carried.congr (h : Carried B aliases past current t) (hcalls : StreamTranslator.SameCalls t t')
    (hflags : t'.sawTextDelta = t.sawTextDelta ∧ t'.sawRefusalDelta = t.sawRefusalDelta)
    (hblocks : t'.blocks = t.blocks) (hopen : t'.openBlock = t.openBlock)
    (hindex : t'.contentBlockIndex = t.contentBlockIndex) (hdull : ¬ SparkName t'.model) :
    Carried B aliases past current t' := by
  have hkept : t'.kept B = t.kept B := kept_of_blocks hblocks
  refine ⟨hcalls.terminated.trans h.alive, hcalls.terminal.trans h.running, ?_, hcalls.aliases.trans h.names,
    hdull, ?_, h.sound, ?_, ?_, ?_⟩
  · have hframed := h.framed
    rw [StreamTranslator.Framed] at hframed ⊢
    rwa [hopen, hblocks, hindex]
  · rw [StreamTranslator.Unsigned, hopen, hblocks]
    exact h.unsigned
  · rw [hcalls.claimed]
    exact h.claimed
  · rw [hcalls.announced]
    exact h.announced
  · have hnow := h.now
    have hflagless : Flagless t' ↔ Flagless t := by
      rw [Flagless, Flagless, hflags.1, hflags.2]
    have hflag : ∀ item : Item, item.flag t' = item.flag t := by
      intro item
      rw [Item.flag, Item.flag, hflags.1, hflags.2]
    cases current with
    | none =>
      rw [Now] at hnow ⊢
      rwa [hflagless, hkept, hopen]
    | some current =>
      cases current with
      | reasoning replay =>
        rw [Now] at hnow ⊢
        rwa [hflagless, hkept]
      | message item part whole =>
        rw [Now] at hnow ⊢
        rwa [hflagless, hflag, hkept, hopen]
      | call c announced part argsDone =>
        rw [Now] at hnow ⊢
        rwa [hflagless, hkept, hopen, hcalls.toolIndex, hcalls.argDelta]

/-- A frame is an event for a translator that has started. -/
theorem Carried.readied (h : Carried B aliases past current t) (hname : IsResponses name)
    (hmodel : ∀ model, name = "response.created" →
      (chunk.get? "response").bind (Json.getStr? "model") = some model → ¬ SparkName model) :
    ∃ t', Carried B aliases past current t' ∧
      t.processFrame B ⟨some name, .chunk chunk⟩ = t'.onArm B chunk (armOf name) := by
  have hnote : Carried B aliases past current (t.noteModel name chunk) := by
    rw [noteModel]
    split
    · rename_i hcreated
      rw [Bool.and_eq_true, decide_eq_true_eq] at hcreated
      refine h.congr ⟨rfl, rfl, rfl, rfl, rfl, rfl, rfl, rfl⟩ ⟨rfl, rfl⟩ rfl rfl rfl ?_
      show ¬ SparkName (((chunk.get? "response").bind (Json.getStr? "model")).getD t.model)
      cases hfield : (chunk.get? "response").bind (Json.getStr? "model") with
      | none => exact h.dull
      | some model => exact hmodel model hcreated.2 hfield
    · exact h
  refine ⟨(t.noteModel name chunk).start, ?_, ?_⟩
  · rw [StreamTranslator.start]
    split
    · exact hnote
    · exact hnote.congr ⟨rfl, rfl, rfl, rfl, rfl, rfl, rfl, rfl⟩ ⟨rfl, rfl⟩
        (blocks_emit _ _) rfl rfl hnote.dull
  · rw [processFrame, if_neg (by rw [h.alive]; decide)]
    exact if_pos hname

theorem Shape.say_eq (s : Shape) {kept : List Kept} (hkept : kept = s.kept) (hopen : t.openBlock = s.openBlock)
    (text : List Char) :
    (if t.openBlock = some .text then glue kept text else kept ++ [.text text]) = s.say text := by
  rw [Shape.say, hkept, hopen, Shape.openBlock]
  cases s.textOpen <;> rfl

theorem Shape.glue_say (s : Shape) (a b : List Char) : glue (s.say a) b = s.say (a ++ b) := by
  rw [Shape.say, Shape.say]
  split
  · exact glue_glue _ _ _
  · exact glue_append _ _ _

/-- Where no call is announced, what is claimed is of the past. -/
theorem Carried.claimed_past (h : Carried B aliases past current t) (hnone : announcedCall current = []) :
    (∀ id, id ∈ t.claimedToolIds ↔ ∃ c ∈ callsOf past, id = c.id) ∧
      ∀ i ∈ t.announcedToolIndices, ∃ c ∈ callsOf past, i = c.index := by
  have hclaimed := h.claimed
  have hannounced := h.announced
  rw [hnone, List.append_nil] at hclaimed hannounced
  exact ⟨hclaimed, hannounced⟩

/-- A step that starts no call. -/
theorem Carried.next (h : Carried B aliases past current t) (hcalls : StreamTranslator.SameCalls t t')
    (hmodel : t'.model = t.model) (hframed : t'.Framed) (hunsigned : t'.Unsigned)
    (hsound : ∀ item, current' = some item → item.Sound past)
    (hsame : announcedCall current' = announcedCall current)
    (hnow : Now B aliases (shapeOf aliases past) t' current') : Carried B aliases past current' t' := by
  refine ⟨hcalls.terminated.trans h.alive, hcalls.terminal.trans h.running, hframed,
    hcalls.aliases.trans h.names, hmodel ▸ h.dull, hunsigned, hsound, ?_, ?_, hnow⟩
  · rw [hcalls.claimed, hsame]
    exact h.claimed
  · rw [hcalls.announced, hsame]
    exact h.announced

/-- A part of a summary. -/
theorem Carried.summary {replay : ReasoningReplay} (h : Carried B aliases past (some (.reasoning replay)) t)
    (harm : armOf name = .reasoningDelta ∨
      armOf name = .summaryPartAdded) :
    Carried B aliases past (some (.reasoning replay)) (t.onArm B chunk (armOf name)) := by
  obtain ⟨hflagless, hkept⟩ := h.now
  rcases harm with harm | harm
  · rw [harm]
    show Carried _ _ _ _ (t.onReasoningDelta chunk)
    rw [onReasoningDelta]
    split
    · rename_i delta _
      obtain ⟨hsame, hunsigned⟩ := kept_think (B := B) h.framed h.unsigned delta
      obtain ⟨front, last, -, -, hframed, -⟩ :=
        blocks_ensureBlock_emitDelta h.framed .thinking (.thinking delta)
      have hcalls := (sameCalls_ensureBlock t .thinking).trans
        (sameCalls_emit _ (.contentBlockDelta
          (t.ensureBlock .thinking).contentBlockIndex (.thinking delta)))
      have hflags := sameFlags_ensureBlock t .thinking
      refine h.next ⟨hcalls.claimed, hcalls.announced, hcalls.toolIndex, hcalls.toolUse, hcalls.argDelta,
        hcalls.aliases, hcalls.terminal, hcalls.terminated⟩ hflags.model hframed hunsigned h.sound rfl ?_
      exact ⟨⟨hflags.textDelta.trans hflagless.1, hflags.refusalDelta.trans hflagless.2⟩, hsame.trans hkept⟩
    · exact h
  · rw [harm]
    show Carried _ _ _ _ (t.closeBlockIf .thinking)
    have hflags := sameFlags_closeBlockIf t .thinking
    refine h.next (sameCalls_closeBlockIf t .thinking) hflags.model
      (framed_closeBlockIf h.framed _) ?_ h.sound rfl
      ⟨⟨hflags.textDelta.trans hflagless.1, hflags.refusalDelta.trans hflagless.2⟩,
        (kept_of_blocks (blocks_closeBlockIf t _)).trans hkept⟩
    rw [closeBlockIf]
    split
    · refine unsigned_of_open ?_
      rw [openBlock_closeBlock]
      simp
    · exact h.unsigned

variable {item : Item} {part : List Char}

/-- A piece of text, and what it leaves. -/
theorem Carried.say (h : Carried B aliases past (some (.message item part false)) t) (text : String) :
    ((t.ensureBlock .text).emitDelta (.text text)).kept B =
      (shapeOf aliases past).say (part ++ text.toList) := by
  have hnow := h.now
  rw [kept_say h.framed]
  rw [Now] at hnow
  split_ifs at hnow with hpart hwhole
  · obtain ⟨-, hkept, hopen⟩ := hnow
    rw [if_pos hopen, hkept, Shape.glue_say]
  · exact absurd hwhole not_false
  · obtain ⟨-, hkept, hopen⟩ := hnow
    obtain rfl : part = [] := not_not.mp hpart
    rw [Shape.say_eq _ hkept hopen, List.nil_append]

/-- A delta of a message. -/
theorem Carried.messageDelta (h : Carried B aliases past (some (.message item part false)) t)
    (harm : armOf name = if item.refusal then .refusalDelta else .outputTextDelta) :
    Carried B aliases past
      (some (.message item (part ++ (deltaOf chunk).toList) false))
      (t.onArm B chunk (armOf name)) := by
  have hsound : ∀ item', some (Underway.message item (part ++ (deltaOf chunk).toList) false) =
      some item' → item'.Sound past := by
    intro item' heq
    rw [← Option.some.inj heq]
    show item.text ≠ ""
    exact h.sound (.message item part false) rfl
  by_cases hempty : deltaOf chunk = ""
  · have hstay : t.onArm B chunk (armOf name) = t := by
      rw [harm]
      split_ifs
      · show t.onRefusalDelta chunk = t
        rw [onRefusalDelta, if_pos hempty]
      · show t.onOutputTextDelta chunk = t
        rw [onOutputTextDelta, if_pos hempty]
    rw [hstay, hempty]
    show Carried _ _ _ (some (.message item (part ++ []) false)) t
    rwa [List.append_nil]
  · have hkept := h.say (deltaOf chunk)
    obtain ⟨front, last, -, -, hframed, -⟩ := blocks_ensureBlock_emitDelta h.framed .text
      (.text (deltaOf chunk))
    have hopen := openBlock_ensureBlock t .text
    have hcalls := sameCalls_ensureBlock t .text
    have hflags := sameFlags_ensureBlock t .text
    have hne : part ++ (deltaOf chunk).toList ≠ [] := fun hnil =>
      hempty (String.toList_eq_nil_iff.mp (List.append_eq_nil_iff.mp hnil).2)
    have hunsigned : ∀ u : StreamTranslator, u.openBlock = some .text → u.Unsigned := fun u hu =>
      unsigned_of_open (by rw [hu]; simp)
    have hnext : ∀ u : StreamTranslator,
        u.blocks = ((t.ensureBlock .text).emitDelta (.text (deltaOf chunk))).blocks →
        u.openBlock = some .text → u.Framed → StreamTranslator.SameCalls t u → u.model = t.model →
        item.flag u = true → Carried B aliases past
          (some (.message item (part ++ (deltaOf chunk).toList) false)) u := by
      intro u hblocks huopen huframed hucalls humodel huflag
      refine h.next hucalls humodel huframed (hunsigned u huopen) hsound rfl ?_
      rw [Now, if_pos hne]
      exact ⟨huflag, (kept_of_blocks hblocks).trans hkept, huopen⟩
    rw [harm]
    split_ifs with hrefusal
    · show Carried _ _ _ _ (t.onRefusalDelta chunk)
      rw [onRefusalDelta, if_neg hempty]
      refine hnext _ rfl hopen hframed ⟨hcalls.claimed, hcalls.announced, hcalls.toolIndex, hcalls.toolUse,
        hcalls.argDelta, hcalls.aliases, hcalls.terminal, hcalls.terminated⟩ hflags.model ?_
      rw [Item.flag, if_pos hrefusal]
      rfl
    · show Carried _ _ _ _ (t.onOutputTextDelta chunk)
      rw [onOutputTextDelta, if_neg hempty]
      refine hnext _ rfl hopen hframed ⟨hcalls.claimed, hcalls.announced, hcalls.toolIndex, hcalls.toolUse,
        hcalls.argDelta, hcalls.aliases, hcalls.terminal, hcalls.terminated⟩ hflags.model ?_
      rw [Item.flag, if_neg hrefusal]
      rfl

/-- A whole text in a block of its own, or at the end of the text block that is open. -/
theorem Carried.wholeText (h : Carried B aliases past (some (.message item [] false)) t) :
    (t.wholeText item.text).kept B = (shapeOf aliases past).say item.text.toList ∧
      (t.wholeText item.text).openBlock = none ∧ (t.wholeText item.text).Framed ∧
      StreamTranslator.SameCalls t (t.wholeText item.text) ∧
      StreamTranslator.SameFlags t (t.wholeText item.text) := by
  obtain ⟨front, last, -, -, hframed, -⟩ :=
    blocks_ensureBlock_emitDelta h.framed .text (.text item.text)
  refine ⟨?_, openBlock_closeBlock _, framed_closeBlock hframed,
    sameCalls_wholeText t _, ?_⟩
  · exact (kept_of_blocks (blocks_closeBlock _)).trans (h.say item.text)
  · exact sameFlags_wholeText t item.text

/-- The event with the whole text of a message. -/
theorem Carried.messageWhole (h : Carried B aliases past (some (.message item part false)) t)
    (harm : armOf name = if item.refusal then .refusalDone else .outputTextDone)
    (htext : chunk.getStr? (if item.refusal then "refusal" else "text") = some item.text) :
    Carried B aliases past (some (.message item part true))
      (t.onArm B chunk (armOf name)) := by
  have hne : item.text ≠ "" := h.sound _ rfl
  have hread := nonEmptyField_of_getStr? htext
  rw [if_neg hne] at hread
  have hsound : ∀ item', some (Underway.message item part true) = some item' → item'.Sound past := by
    intro item' heq
    rw [← Option.some.inj heq]
    exact hne
  have hnow := h.now
  rw [Now] at hnow
  by_cases hpart : part = []
  · subst hpart
    obtain ⟨hflagless, -, -⟩ : Flagless t ∧ _ := hnow
    obtain ⟨hkept, hopen, hframed, hcalls, hflags⟩ := h.wholeText
    have hnext : ∀ u : StreamTranslator, u.blocks = (t.wholeText item.text).blocks →
        u.openBlock = none → u.Framed → StreamTranslator.SameCalls t u → u.model = t.model →
        item.flag u = true → Carried B aliases past (some (.message item [] true)) u := by
      intro u hblocks huopen huframed hucalls humodel huflag
      refine h.next hucalls humodel huframed
        (unsigned_of_open (by rw [huopen]; simp)) hsound rfl ?_
      exact ⟨huflag, (kept_of_blocks hblocks).trans hkept, huopen⟩
    rw [harm]
    by_cases hrefusal : item.refusal = true
    · rw [if_pos hrefusal] at hread ⊢
      show Carried _ _ _ _ (t.onRefusalDone chunk)
      rw [onRefusalDone, hread]
      show Carried _ _ _ _ (if t.sawRefusalDelta then t else (t.wholeText item.text).noteRefusal)
      rw [hflagless.2]
      refine hnext _ rfl hopen hframed ⟨hcalls.claimed, hcalls.announced, hcalls.toolIndex, hcalls.toolUse,
        hcalls.argDelta, hcalls.aliases, hcalls.terminal, hcalls.terminated⟩ hflags.model ?_
      rw [Item.flag, if_pos hrefusal]
      rfl
    · rw [if_neg hrefusal] at hread ⊢
      show Carried _ _ _ _ (t.onOutputTextDone chunk)
      rw [onOutputTextDone, hread]
      show Carried _ _ _ _ (if t.sawTextDelta then t else (t.wholeText item.text).noteText)
      rw [hflagless.1]
      refine hnext _ rfl hopen hframed ⟨hcalls.claimed, hcalls.announced, hcalls.toolIndex, hcalls.toolUse,
        hcalls.argDelta, hcalls.aliases, hcalls.terminal, hcalls.terminated⟩ hflags.model ?_
      rw [Item.flag, if_neg hrefusal]
      rfl
  · -- The text came by deltas, and the flag says so.
    rw [if_pos hpart] at hnow
    have hstay : t.onArm B chunk (armOf name) = t := by
      have hflag := hnow.1
      rw [Item.flag] at hflag
      rw [harm]
      by_cases hrefusal : item.refusal = true
      · rw [if_pos hrefusal] at hread hflag ⊢
        show t.onRefusalDone chunk = t
        rw [onRefusalDone, hread]
        exact if_pos hflag
      · rw [if_neg hrefusal] at hread hflag ⊢
        show t.onOutputTextDone chunk = t
        rw [onOutputTextDone, hread]
        exact if_pos hflag
    rw [hstay]
    refine h.next (.refl t) rfl h.framed h.unsigned hsound rfl ?_
    rw [Now, if_pos hpart]
    exact hnow

theorem claimed_append {calls : List Call} {ids : List String}
    (h : ∀ id, id ∈ ids ↔ ∃ c ∈ calls, id = c.id) (c : Call) (id : String) :
    id ∈ ids ∨ id = c.id ↔ ∃ c' ∈ calls ++ [c], id = c'.id := by
  rw [h]
  constructor
  · rintro (⟨c', hc', heq⟩ | heq)
    · exact ⟨c', List.mem_append_left _ hc', heq⟩
    · exact ⟨c, List.mem_append_right _ List.mem_cons_self, heq⟩
  · rintro ⟨c', hc', heq⟩
    rcases List.mem_append.mp hc' with hc' | hc'
    · exact Or.inl ⟨c', hc', heq⟩
    · exact Or.inr (List.mem_singleton.mp hc' ▸ heq)

variable {c : Call}

/-- The start of a call. -/
theorem Carried.callAdded (h : Carried B aliases past (some (.call c false [] false)) t)
    (hitem : c.IsItem chunk) (hplace : InPlace c chunk) :
    Carried B aliases past (some (.call c true [] false)) (t.onOutputItemAdded chunk) := by
  have hfresh : ∀ c' ∈ callsOf past, c'.id ≠ c.id ∧ c'.index ≠ c.index := h.sound _ rfl
  obtain ⟨hclaimed, hindices⟩ := h.claimed_past rfl
  have hraw : c.id ∉ t.claimedToolIds := by
    intro hmem
    obtain ⟨c', hc', heq⟩ := (hclaimed _).mp hmem
    exact (hfresh c' hc').1 heq.symm
  obtain ⟨hflagless, hkept, -⟩ : Flagless t ∧ _ := h.now
  have hstart := held_startCall h.framed hraw c.name
  have hstartKept := kept_startCall (B := B) hraw c.name
  have hflags := sameFlags_startBlock ((t.claimToolId c.id).captureToolName c.name) .tool
  have hannounced := (sameCalls_startBlock
    ((t.claimToolId c.id).captureToolName c.name) .tool).announced
  rw [onOutputItemAdded, if_pos hitem.type, hitem.id, hitem.name]
  refine ⟨hstart.terminated.trans h.alive, hstart.terminal.trans h.running, hstart.framed,
    hstart.aliases.trans h.names, ?_, unsigned_of_open ?_, ?_, ?_, ?_, ?_⟩
  · show ¬ SparkName (t.startCall c.id c.name).model
    rw [show (t.startCall c.id c.name).model = t.model from hflags.model]
    exact h.dull
  · show (some OpenBlock.tool : Option OpenBlock) ≠ _
    simp
  · intro item' heq
    rw [← Option.some.inj heq]
    exact hfresh
  · show ∀ id, id ∈ (t.startCall c.id c.name).claimedToolIds ↔ _
    rw [hstart.claimed]
    exact fun id => List.mem_cons.trans (Or.comm.trans (claimed_append hclaimed c id))
  · show ∀ i ∈ (outputIndex chunk).toList ++ (t.startCall c.id c.name).announcedToolIndices, _
    rw [show (t.startCall c.id c.name).announcedToolIndices = t.announcedToolIndices from hannounced]
    intro i hi
    rcases List.mem_append.mp hi with hi | hi
    · rcases hplace with hnone | hsome
      · rw [hnone] at hi
        exact absurd hi List.not_mem_nil
      · rw [hsome] at hi
        exact ⟨c, List.mem_append_right _ List.mem_cons_self, List.mem_singleton.mp hi⟩
    · obtain ⟨c', hc', heq⟩ := hindices i hi
      exact ⟨c', List.mem_append_left _ hc', heq⟩
  · refine ⟨⟨hflags.textDelta.trans hflagless.1, hflags.refusalDelta.trans hflagless.2⟩, ?_, rfl, hplace, ?_⟩
    · refine hstartKept.trans ?_
      rw [hkept, clientName, h.names]
      rfl
    · exact fun _ => iff_of_false Bool.false_ne_true (not_not.mpr rfl)

variable {announced argsDone : Bool}

/-- Whether the block of a call is open. -/
theorem Carried.openFor
    (h : Carried B aliases past (some (.call c announced part argsDone)) t) (hplace : InPlace c chunk) :
    t.toolBlockOpenFor chunk = announced := by
  obtain ⟨-, hnow⟩ : Flagless t ∧ _ := h.now
  rw [toolBlockOpenFor]
  cases announced with
  | true =>
    rw [if_pos rfl] at hnow
    obtain ⟨-, hopen, hindex, -⟩ := hnow
    rw [hopen]
    rcases hindex with hindex | hindex <;> rcases hplace with hplace | hplace <;> rw [hindex, hplace] <;>
      simp
  | false =>
    rw [if_neg Bool.false_ne_true] at hnow
    obtain ⟨-, hopen⟩ := hnow
    rw [hopen, Shape.openBlock]
    cases (shapeOf aliases past).textOpen <;> rfl

/-- Arguments that come for the open block. -/
theorem Carried.emitArgs (argsDone : Bool)
    (h : Carried B aliases past (some (.call c true part false)) t) {args : String} (hne : args ≠ "")
    (hargs : argsDone = true → part ++ args.toList = c.args.toList) :
    Carried B aliases past (some (.call c true (if argsDone then part else part ++ args.toList) argsDone))
      (t.emitArgs args) := by
  obtain ⟨hflagless, hnow⟩ : Flagless t ∧ _ := h.now
  rw [if_pos rfl, if_neg Bool.false_ne_true] at hnow
  obtain ⟨hkept, hopen, hindex, -⟩ := hnow
  obtain ⟨front, last, -, -, -, hframed⟩ :=
    blocks_emitDelta hopen h.framed (.inputJson args)
  have hnew := kept_emitInput hopen h.framed hkept args
  have hunsigned : (t.emitArgs args).Unsigned :=
    unsigned_of_open (by
      rw [show (t.emitArgs args).openBlock = some .tool from hopen]
      simp)
  refine ⟨h.alive, h.running, hframed, h.names, h.dull, hunsigned, ?_, h.claimed, h.announced,
    hflagless, ?_⟩
  · intro item heq
    rw [← Option.some.inj heq]
    exact h.sound (.call c true part false) rfl
  · rw [if_pos rfl]
    refine ⟨hnew.trans ?_, hopen, hindex, fun hfalse => ?_⟩
    · cases argsDone with
      | true => rw [if_pos rfl, hargs rfl]
      | false => rw [if_neg Bool.false_ne_true, if_neg Bool.false_ne_true]
    · rw [hfalse, if_neg Bool.false_ne_true]
      refine iff_of_true rfl fun hnil => hne ?_
      exact String.toList_eq_nil_iff.mp (List.append_eq_nil_iff.mp hnil).2

/-- A delta of a call. -/
theorem Carried.callDelta
    (h : Carried B aliases past (some (.call c announced part false)) t) (hplace : InPlace c chunk) :
    Carried B aliases past
      (some (.call c announced (part ++ (deltaOf chunk).toList) false))
      (t.onFunctionArgsDelta chunk) := by
  rw [onFunctionArgsDelta, nonEmptyField_delta]
  by_cases hempty : deltaOf chunk = ""
  · rw [if_pos hempty, hempty]
    show Carried _ _ _ (some (.call c announced (part ++ []) false)) t
    rwa [List.append_nil]
  · rw [if_neg hempty]
    show Carried _ _ _ _ (if t.toolBlockOpenFor chunk then _ else _)
    rw [h.openFor hplace]
    cases announced with
    | true => exact h.emitArgs false hempty fun hfalse => absurd hfalse Bool.false_ne_true
    | false =>
      obtain ⟨hflagless, hnow⟩ : Flagless t ∧ _ := h.now
      rw [if_neg Bool.false_ne_true]
      refine h.next (.refl t) rfl h.framed h.unsigned (fun item heq => ?_) rfl ⟨hflagless, hnow⟩
      rw [← Option.some.inj heq]
      exact h.sound (.call c false part false) rfl

/-- The event with the whole arguments of a call. -/
theorem Carried.callArgsDone
    (h : Carried B aliases past (some (.call c announced part false)) t) (hplace : InPlace c chunk)
    (hargs : chunk.getStr? "arguments" = some c.args) (hpart : part = [] ∨ part = c.args.toList) :
    Carried B aliases past (some (.call c announced part true)) (t.onFunctionArgsDone chunk) := by
  have hstay : part = c.args.toList ∨ announced = false →
      Carried B aliases past (some (.call c announced part true)) t := by
    intro hsame
    obtain ⟨hflagless, hnow⟩ : Flagless t ∧ _ := h.now
    have hsound : ∀ item, some (Underway.call c announced part true) = some item → item.Sound past := by
      intro item heq
      rw [← Option.some.inj heq]
      exact h.sound (.call c announced part false) rfl
    cases announced with
    | true =>
      obtain rfl := hsame.resolve_right (by decide)
      rw [if_pos rfl] at hnow
      refine h.next (.refl t) rfl h.framed h.unsigned hsound rfl ⟨hflagless, ?_⟩
      exact ⟨hnow.1, hnow.2.1, hnow.2.2.1, fun hfalse => absurd hfalse (by decide)⟩
    | false =>
      exact h.next (.refl t) rfl h.framed h.unsigned hsound rfl ⟨hflagless, hnow⟩
  rw [onFunctionArgsDone, nonEmptyField_of_getStr? hargs]
  by_cases hempty : c.args = ""
  · rw [if_pos hempty]
    refine hstay (Or.inl ?_)
    rw [hempty] at hpart ⊢
    exact or_self_iff.mp hpart
  · rw [if_neg hempty]
    show Carried _ _ _ _ (if t.toolBlockOpenFor chunk && !t.sawArgDelta then _ else _)
    rw [h.openFor hplace]
    cases announced with
    | false => exact hstay (Or.inr rfl)
    | true =>
      obtain ⟨-, hnow⟩ : Flagless t ∧ _ := h.now
      rw [if_pos rfl] at hnow
      have hsaw := hnow.2.2.2 rfl
      rcases hpart with rfl | rfl
      · have hfalse : t.sawArgDelta = false := Bool.eq_false_iff.mpr fun htrue => hsaw.mp htrue rfl
        rw [hfalse]
        exact h.emitArgs true hempty fun _ => rfl
      · have htrue : t.sawArgDelta = true := hsaw.mpr fun hnil => hempty (String.toList_eq_nil_iff.mp hnil)
        rw [htrue]
        exact hstay (Or.inl rfl)

/-- One event that does not end its item. -/
theorem Carried.goes {item item' : Underway} (h : Carried B aliases past (some item) t)
    (hgoes : item.Goes name chunk item') :
    Carried B aliases past (some item') (t.onArm B chunk (armOf name)) := by
  cases hgoes with
  | reasoningAdded replay harm htype =>
    rw [harm]
    show Carried _ _ _ _ (t.onOutputItemAdded chunk)
    rw [onOutputItemAdded, if_neg (by rw [htype]; decide), if_pos htype]
    exact h.congr ⟨rfl, rfl, rfl, rfl, rfl, rfl, rfl, rfl⟩ ⟨rfl, rfl⟩ rfl rfl rfl h.dull
  | summary replay harm => exact h.summary harm
  | messageAdded item part whole harm htype =>
    rw [harm]
    show Carried _ _ _ _ (t.onOutputItemAdded chunk)
    rw [onOutputItemAdded, if_neg (by rw [htype]; decide), if_neg (by rw [htype]; decide)]
    exact h
  | messageDelta item part harm => exact h.messageDelta harm
  | messageWhole item part harm htext hpart => exact h.messageWhole harm htext
  | callAdded c harm hitem hplace =>
    rw [harm]
    exact h.callAdded hitem hplace
  | callDelta c announced part harm hplace =>
    rw [harm]
    exact h.callDelta hplace
  | callArgsDone c announced part harm hplace hargs hpart =>
    rw [harm]
    exact h.callArgsDone hplace hargs hpart

theorem callsOf_append (past : List (TurnItem × Bool)) (item : TurnItem × Bool) :
    callsOf (past ++ [item]) = callsOf past ++ item.1.call?.toList := by
  rw [callsOf, List.filterMap_append, callsOf]
  refine congrArg (past.filterMap (fun item => item.1.call?) ++ ·) ?_
  rw [List.filterMap_cons]
  cases item.1.call? <;> rfl

theorem shapeOf_append (aliases : Option ToolAlias) (past : List (TurnItem × Bool)) (item : TurnItem × Bool) :
    shapeOf aliases (past ++ [item]) = (shapeOf aliases past).add aliases item := by
  rw [shapeOf, List.foldl_append]
  rfl

/-- The end of an item that is no call. -/
theorem Carried.ended {item : TurnItem × Bool} (h : Carried B aliases past current t)
    (hitem : item.1.call? = none) (hnone : announcedCall current = [])
    (hcalls : StreamTranslator.SameCalls t t') (hmodel : t'.model = t.model) (hframed : t'.Framed)
    (hunsigned : t'.Unsigned) (hflagless : Flagless t')
    (hkept : t'.kept B = ((shapeOf aliases past).add aliases item).kept)
    (hopen : t'.openBlock = ((shapeOf aliases past).add aliases item).openBlock) :
    Carried B aliases (past ++ [item]) none t' := by
  obtain ⟨hclaimed, hannounced⟩ := h.claimed_past hnone
  refine ⟨hcalls.terminated.trans h.alive, hcalls.terminal.trans h.running, hframed,
    hcalls.aliases.trans h.names, hmodel ▸ h.dull, hunsigned, fun _ heq => absurd heq (by simp), ?_, ?_, ?_⟩
  · rw [hcalls.claimed, callsOf_append, hitem, Option.toList_none, List.append_nil,
      show announcedCall none = [] from rfl, List.append_nil]
    exact hclaimed
  · rw [hcalls.announced, callsOf_append, hitem, Option.toList_none, List.append_nil]
    exact fun i hi => (hannounced i hi).imp fun c hc => ⟨List.mem_append_left _ hc.1, hc.2⟩
  · rw [shapeOf_append]
    exact ⟨hflagless, hkept, hopen⟩

theorem Carried.reasoningDone (hB : B.Lawful) {replay : ReasoningReplay}
    (h : Carried B aliases past (some (.reasoning replay)) t)
    (hid : (itemOf chunk).getStr? "id" = some replay.id)
    (hcontent : (itemOf chunk).getStr? "encrypted_content" = some replay.encryptedContent) :
    Carried B aliases (past ++ [(.reasoning replay, false)]) none (t.onReasoningDone B chunk) := by
  have hsealable : Sealable replay := h.sound _ rfl
  obtain ⟨hflagless, hkept⟩ := h.now
  have hcapture : (t.pendingReasoning.capture (itemOf chunk)).replay = some replay := by
    have hfield : ∀ {key value : String}, (itemOf chunk).getStr? key = some value →
        value ≠ "" → nonEmptyString ((itemOf chunk).get? key) = some value := by
      intro key value hget hne
      rw [nonEmptyString, show ((itemOf chunk).get? key).bind Json.asStr? = some value from hget,
        Option.filter, if_pos (decide_eq_true hne)]
    have hne : replay.id ≠ "" ∧ replay.encryptedContent ≠ "" :=
      ⟨fun heq => hsealable (Or.inl heq), fun heq => hsealable (Or.inr (Or.inr (Or.inl heq)))⟩
    rw [PendingReasoning.capture, hfield hid hne.1, hfield hcontent hne.2]
    rfl
  obtain ⟨signature, hsignature⟩ : ∃ signature, encodeReasoningSignature B replay = some signature :=
    ⟨_, if_pos hsealable⟩
  have hspark : t.resetReasoning.isSpark = false := decide_eq_false h.dull
  rw [onReasoningDone, hcapture, Option.bind_some, hsignature]
  show Carried _ _ _ _ (if !t.sawThinkingText && t.resetReasoning.isSpark then _ else _)
  rw [hspark, Bool.and_false, if_neg Bool.false_ne_true]
  have hreset : t.resetReasoning.Framed := h.framed
  obtain ⟨front, last, -, -, hframed, -⟩ :=
    blocks_ensureBlock_emitDelta hreset .thinking (.signature signature)
  have hseal := kept_seal (B := B) (t := t.resetReasoning) hreset h.unsigned
    (decode_encode hB hsignature)
  have hcalls := (sameCalls_ensureBlock t.resetReasoning .thinking).trans
    ((sameCalls_emit _ (.contentBlockDelta _ (.signature signature))).trans
      (sameCalls_closeBlock ((t.resetReasoning.ensureBlock .thinking).emitDelta _)))
  have hensure := sameFlags_ensureBlock t.resetReasoning .thinking
  have hflags := sameFlags_closeBlock
    ((t.resetReasoning.ensureBlock .thinking).emitDelta (.signature signature))
  have hopen := openBlock_closeBlock
    ((t.resetReasoning.ensureBlock .thinking).emitDelta (.signature signature))
  refine h.ended rfl rfl ⟨hcalls.claimed, hcalls.announced, hcalls.toolIndex, hcalls.toolUse, hcalls.argDelta,
    hcalls.aliases, hcalls.terminal, hcalls.terminated⟩ (hflags.model.trans hensure.model)
    (framed_closeBlock hframed)
    (unsigned_of_open (by rw [hopen]; simp))
    ⟨hflags.textDelta.trans (hensure.textDelta.trans hflagless.1),
      hflags.refusalDelta.trans (hensure.refusalDelta.trans hflagless.2)⟩ (hseal.trans ?_) hopen
  rw [show t.resetReasoning.kept B = t.kept B from rfl, hkept]
  rfl

/-- The end of a message. -/
theorem Carried.messageDone {whole : Bool}
    (h : Carried B aliases past (some (.message item part whole)) t)
    (htext : messageText (itemOf chunk) = item.text)
    (hpart : part = [] ∨ part = item.text.toList) :
    Carried B aliases (past ++ [(.message item, decide (part ≠ []))]) none (t.onMessageDone chunk) := by
  have hne : item.text ≠ "" := h.sound _ rfl
  have hnow := h.now
  rw [Now] at hnow
  have hsent : ∀ u : StreamTranslator, item.flag u = true → u.onMessageDone chunk = u.resetMessage := by
    intro u hflag
    rw [onMessageDone, if_neg]
    rintro hall
    rw [Bool.and_eq_true, Bool.and_eq_true, Bool.not_eq_true', Bool.not_eq_true'] at hall
    rw [Item.flag] at hflag
    split_ifs at hflag
    · rw [hall.1.2] at hflag
      exact Bool.false_ne_true hflag
    · rw [hall.1.1] at hflag
      exact Bool.false_ne_true hflag
  by_cases hstreamed : part = []
  · subst hstreamed
    rw [if_neg (not_not.mpr rfl)] at hnow
    cases whole with
    | true =>
      rw [if_pos rfl] at hnow
      obtain ⟨hflag, hkept, hopen⟩ := hnow
      rw [hsent t hflag]
      exact h.ended rfl rfl ⟨rfl, rfl, rfl, rfl, rfl, rfl, rfl, rfl⟩ rfl h.framed h.unsigned ⟨rfl, rfl⟩ hkept hopen
    | false =>
      obtain ⟨hflagless, -, -⟩ : Flagless t ∧ _ := hnow
      obtain ⟨hkept, hopen, hframed, hcalls, hflags⟩ := h.wholeText
      have hwhole : t.onMessageDone chunk = (t.wholeText item.text).resetMessage := by
        rw [onMessageDone, htext, hflagless.1, hflagless.2]
        exact congrArg _ (if_pos (by simpa using hne))
      rw [hwhole]
      exact h.ended rfl rfl ⟨hcalls.claimed, hcalls.announced, hcalls.toolIndex, hcalls.toolUse,
        hcalls.argDelta, hcalls.aliases, hcalls.terminal, hcalls.terminated⟩ hflags.model hframed
        (unsigned_of_open (by
          rw [show (t.wholeText item.text).resetMessage.openBlock = none from hopen]
          simp)) ⟨rfl, rfl⟩ hkept hopen
  · rw [if_pos hstreamed] at hnow
    obtain ⟨hflag, hkept, hopen⟩ := hnow
    rw [hsent t hflag]
    refine h.ended rfl rfl ⟨rfl, rfl, rfl, rfl, rfl, rfl, rfl, rfl⟩ rfl h.framed h.unsigned ⟨rfl, rfl⟩ ?_ ?_
    · refine Eq.trans (show t.kept B = _ from hkept) ?_
      rw [hpart.resolve_left hstreamed]
      rfl
    · refine Eq.trans (show t.openBlock = _ from hopen) ?_
      rw [decide_eq_true hstreamed]
      rfl

theorem Carried.callEnded
    (h : Carried B aliases past (some (.call c announced part argsDone)) t) (halive : t'.terminated = false)
    (hrunning : t'.terminalEmitted = false) (hframed : t'.Framed) (hnames : t'.toolAliases = aliases)
    (hflags : StreamTranslator.SameFlags t t') (hopen : t'.openBlock = none)
    (hclaimed : ∀ id, id ∈ t'.claimedToolIds ↔ id ∈ t.claimedToolIds ∨ id = c.id)
    (hannounced : t'.announcedToolIndices = t.announcedToolIndices)
    (hkept : t'.kept B =
      (shapeOf aliases past).kept ++ [.call c.id (restoreName aliases c.name) c.args.toList]) :
    Carried B aliases (past ++ [(.call c, false)]) none t' := by
  obtain ⟨hflagless, -⟩ : Flagless t ∧ _ := h.now
  have hcalls : ∀ c', c' ∈ callsOf past ++ announcedCall (some (.call c announced part argsDone)) ++ [c] ↔
      c' ∈ callsOf (past ++ [(.call c, false)]) := by
    intro c'
    rw [callsOf_append]
    show _ ↔ c' ∈ callsOf past ++ [c]
    cases announced with
    | true =>
      show c' ∈ callsOf past ++ [c] ++ [c] ↔ _
      simp only [List.mem_append, or_assoc, or_self]
    | false =>
      show c' ∈ callsOf past ++ [] ++ [c] ↔ _
      rw [List.append_nil]
  refine ⟨halive, hrunning, hframed, hnames, hflags.model ▸ h.dull,
    unsigned_of_open (by rw [hopen]; simp), fun _ heq => absurd heq (by simp), ?_, ?_, ?_⟩
  · intro id
    rw [show announcedCall none = [] from rfl, List.append_nil, hclaimed, claimed_append h.claimed]
    exact exists_congr fun c' => and_congr_left fun _ => hcalls c'
  · intro i hi
    rw [hannounced] at hi
    rw [show announcedCall none = [] from rfl, List.append_nil]
    obtain ⟨c', hc', heq⟩ := h.announced i hi
    exact ⟨c', (hcalls c').mp (List.mem_append_left _ hc'), heq⟩
  · rw [shapeOf_append]
    exact ⟨⟨hflags.textDelta.trans hflagless.1, hflags.refusalDelta.trans hflagless.2⟩, hkept, hopen⟩

/-- A call whose start never came. -/
theorem Carried.recoverUnannouncedCall
    (h : Carried B aliases past (some (.call c false part argsDone)) t) (hitem : c.IsItem chunk)
    (hargs : (itemOf chunk).getStr? "arguments" = some c.args) :
    Carried B aliases (past ++ [(.call c, false)]) none
      ((t.recoverUnannouncedCall chunk).closeBlockIf .tool) := by
  have hfresh : ∀ c' ∈ callsOf past, c'.id ≠ c.id ∧ c'.index ≠ c.index := h.sound _ rfl
  obtain ⟨hclaimed, -⟩ := h.claimed_past rfl
  have hraw : rawId (itemOf chunk) ∉ t.claimedToolIds := by
    rw [hitem.id]
    intro hmem
    obtain ⟨c', hc', heq⟩ := (hclaimed _).mp hmem
    exact (hfresh c' hc').1 heq.symm
  obtain ⟨hheld, hannounced, -⟩ := held_recoverUnannouncedCall h.framed hraw hargs
  have hopen : (t.recoverUnannouncedCall chunk).openBlock = some .tool :=
    openBlock_recoverUnannouncedCall t chunk
  have hflags := (sameFlags_recoverUnannouncedCall t chunk).trans
    (sameFlags_closeBlock _)
  have hquiet := hheld.quiet (quiet_closeBlock (t.recoverUnannouncedCall chunk))
  obtain ⟨-, hkept, -⟩ : Flagless t ∧ _ := h.now
  rw [closeBlockIf, if_pos hopen]
  refine h.callEnded (hquiet.terminated.trans h.alive) (hquiet.terminal.trans h.running) hquiet.framed
    (hquiet.aliases.trans h.names) hflags (openBlock_closeBlock _) ?_
    ((sameCalls_closeBlock _).announced.trans hannounced) ?_
  · rw [hquiet.claimed, hitem.id]
    exact fun id => List.mem_cons.trans Or.comm
  · refine (kept_of_blocks (blocks_closeBlock _)).trans ?_
    rw [kept_recoverUnannouncedCall h.framed hraw hargs, hkept, hitem.id, hitem.name,
      clientName, h.names]
    rfl

theorem Carried.callDone
    (h : Carried B aliases past (some (.call c announced part argsDone)) t) (hitem : c.IsItem chunk)
    (hplace : InPlace c chunk)
    (hargs : (itemOf chunk).getStr? "arguments" = some c.args)
    (hwhole : announced = true → part = c.args.toList ∨ argsDone = true) :
    Carried B aliases (past ++ [(.call c, false)]) none (t.onFunctionCallDone chunk) := by
  have hopenFor := h.openFor hplace
  rw [onFunctionCallDone, hopenFor]
  cases announced with
  | true =>
    obtain ⟨-, hnow⟩ : Flagless t ∧ _ := h.now
    rw [if_pos rfl] at hnow
    obtain ⟨hkept, hopen, -, -⟩ := hnow
    -- Whether the event names the place of the call or not, the open block is closed.
    have hclose : (if (outputIndex chunk).any (· ∈ t.announcedToolIndices) then
        if true = true then t.closeBlock else t
        else (if true = true then t else t.recoverUnannouncedCall chunk).closeBlockIf .tool) = t.closeBlock := by
      split
      · rfl
      · exact if_pos hopen
    rw [hclose]
    have hcalls := sameCalls_closeBlock t
    refine h.callEnded (hcalls.terminated.trans h.alive) (hcalls.terminal.trans h.running)
      (framed_closeBlock h.framed) (hcalls.aliases.trans h.names)
      (sameFlags_closeBlock t) (openBlock_closeBlock t) ?_ hcalls.announced ?_
    · rw [hcalls.claimed]
      have hown : c.id ∈ t.claimedToolIds :=
        (h.claimed c.id).mpr ⟨c, List.mem_append_right _ List.mem_cons_self, rfl⟩
      exact fun id => ⟨Or.inl, fun hid => hid.elim (fun hid => hid) fun heq => heq ▸ hown⟩
    · refine (kept_of_blocks (blocks_closeBlock t)).trans (hkept.trans ?_)
      rcases hwhole rfl with rfl | rfl
      · rw [ite_self]
      · rw [if_pos rfl]
  | false =>
    have hfresh : ∀ c' ∈ callsOf past, c'.id ≠ c.id ∧ c'.index ≠ c.index := h.sound _ rfl
    obtain ⟨-, hindices⟩ := h.claimed_past rfl
    have hnew : ¬ (outputIndex chunk).any (· ∈ t.announcedToolIndices) = true := by
      rcases hplace with hnone | hsome
      · rw [hnone]
        exact Bool.false_ne_true
      · rw [hsome, Option.any_some, decide_eq_true_eq]
        intro hmem
        obtain ⟨c', hc', heq⟩ := hindices _ hmem
        exact (hfresh c' hc').2 heq.symm
    rw [if_neg hnew, if_neg Bool.false_ne_true]
    exact h.recoverUnannouncedCall hitem hargs

/-- The event that ends its item. -/
theorem Carried.ends (hB : B.Lawful) {underway : Underway} {item : TurnItem × Bool}
    (h : Carried B aliases past (some underway) t) (hends : underway.Ends name chunk item) :
    Carried B aliases (past ++ [item]) none (t.onArm B chunk (armOf name)) := by
  cases hends with
  | reasoning replay harm htype hid hcontent =>
    rw [harm]
    show Carried _ _ _ _ (t.onOutputItemDone B chunk)
    rw [onOutputItemDone, if_neg (by rw [htype]; decide), if_neg (by rw [htype]; decide),
      if_pos htype]
    exact h.reasoningDone hB hid hcontent
  | message item part whole harm htype htext hpart =>
    rw [harm]
    show Carried _ _ _ _ (t.onOutputItemDone B chunk)
    rw [onOutputItemDone, if_neg (by rw [htype]; decide), if_pos htype]
    exact h.messageDone htext hpart
  | call c announced part argsDone harm hitem hplace hargs hpart hwhole =>
    rw [harm]
    show Carried _ _ _ _ (t.onOutputItemDone B chunk)
    rw [onOutputItemDone, if_pos hitem.type]
    exact h.callDone hitem hplace hargs hwhole

end Carried

/-! ### Whole streams -/

theorem carried_fresh {B : Base64} {aliases : Option ToolAlias} {model : String} (hmodel : ¬ SparkName model) :
    Carried B aliases [] none { model, toolAliases := aliases } := by
  refine ⟨rfl, rfl, ?_, rfl, hmodel, unsigned_of_open (by simp),
    fun _ heq => absurd heq (by simp), ?_, ?_, ⟨⟨rfl, rfl⟩, rfl, rfl⟩⟩
  · exact fun b hb => absurd hb List.not_mem_nil
  · exact fun id => iff_of_false List.not_mem_nil fun ⟨c, hc, _⟩ => List.not_mem_nil hc
  · exact fun i hi => absurd hi List.not_mem_nil

/-- No event of an item names the model. -/
theorem Underway.Goes.arm {name : String} {chunk : Json} {item item' : Underway}
    (h : item.Goes name chunk item') : armOf name ≠ .unhandled := by
  cases h with
  | reasoningAdded replay harm => simp [harm]
  | summary replay harm => rcases harm with harm | harm <;> simp [harm]
  | messageAdded item part whole harm => simp [harm]
  | messageDelta item part harm =>
    rw [harm]
    split_ifs <;> simp
  | messageWhole item part harm =>
    rw [harm]
    split_ifs <;> simp
  | callAdded c harm => simp [harm]
  | callDelta c announced part harm => simp [harm]
  | callArgsDone c announced part harm => simp [harm]

theorem Underway.Ends.arm {name : String} {chunk : Json} {item : Underway} {item' : TurnItem × Bool}
    (h : item.Ends name chunk item') : armOf name ≠ .unhandled := by
  cases h with
  | reasoning replay harm => simp [harm]
  | message item part whole harm => simp [harm]
  | call c announced part argsDone harm => simp [harm]

theorem carried_run {B : Base64} (hB : B.Lawful) {aliases : Option ToolAlias} {t : StreamTranslator}
    {past : List (TurnItem × Bool)} {current : Option Underway} {stream : List (String × Json)}
    (ht : Carried B aliases [] none t) (h : TurnStream past current stream) :
    Carried B aliases past current (runTurn B t stream) := by
  -- The event that names the model is none of an item.
  have hmodel : ∀ {name : String} {chunk : Json}, armOf name ≠ .unhandled →
      ∀ model, name = "response.created" →
        (chunk.get? "response").bind (Json.getStr? "model") = some model → ¬ SparkName model := by
    intro name chunk harm model hname
    subst hname
    exact absurd (by decide) harm
  induction h with
  | nil => exact ht
  | other h hname hother ih =>
    obtain ⟨t', ht', heq⟩ := ih.readied hname fun model _ => hother.2 model
    rw [runTurn_append, heq, hother.1]
    exact ht'
  | start h item hsound ih =>
    refine ⟨ih.alive, ih.running, ih.framed, ih.names, ih.dull, ih.unsigned, ?_, ?_, ?_, ?_⟩
    · intro item' heq
      rw [← Option.some.inj heq]
      exact hsound
    · cases item <;> exact ih.claimed
    · cases item <;> exact ih.announced
    · obtain ⟨hflagless, hkept, hopen⟩ := ih.now
      cases item with
      | reasoning replay => exact ⟨hflagless, hkept⟩
      | message item => exact ⟨hflagless, hkept, hopen⟩
      | call c => exact ⟨hflagless, hkept, hopen⟩
  | goes h hname hgoes ih =>
    obtain ⟨t', ht', heq⟩ := ih.readied hname (hmodel hgoes.arm)
    rw [runTurn_append, heq]
    exact ht'.goes hgoes
  | ends h hname hends ih =>
    obtain ⟨t', ht', heq⟩ := ih.readied hname (hmodel hends.arm)
    rw [runTurn_append, heq]
    exact ht'.ends hB hends

end Headroom.OpenAi
