import Headroom.OpenAi.Response
import Headroom.OpenAi.ToolCalls

/-!
# Turns of Chat Completions

The same chunks reach the client as they come, through the stream translator, or folded into one
message. What was thought and what was said is the same on every stream.
-/

open Foundation

namespace Headroom.OpenAi

open StreamTranslator

/-! ### Turns -/

/-- What a client reads of a turn. -/
structure Turn where
  thinking : List Char
  text : List Char
  calls : List (String × String × Json)
  stopReason : Option String
  deriving DecidableEq

/-- The block with the client's name. -/
def Content.restore (aliases : Option ToolAlias) : Content → Content
  | .toolUse id name input => .toolUse id (restoreName aliases name) input
  | block => block

/-- The message with the client's names. -/
def AnthropicMessage.reverseTurn (aliases : Option ToolAlias) (m : AnthropicMessage) : AnthropicMessage :=
  { m with content := m.content.map (Content.restore aliases) }

namespace Content

def thinkingText : Content → List Char
  | .thinking said => said.toList
  | _ => []

def answerText : Content → List Char
  | .text said => said.toList
  | _ => []

def call? : Content → Option (String × String × Json)
  | .toolUse id name input => some (id, name, input)
  | _ => none

end Content

def AnthropicMessage.turn (m : AnthropicMessage) : Turn :=
  ⟨m.content.flatMap Content.thinkingText, m.content.flatMap Content.answerText,
    m.content.filterMap Content.call?, some m.stopReason⟩

/-- The turn of a stream that is folded into one message. -/
def bufferedTurn (parse : String → Option Json) (aliases : Option ToolAlias) (original : Json)
    (chunks : List Json) : Option Turn :=
  (chatStreamToCompletion chunks).map fun completion =>
    ((openaiToAnthropicResponse parse completion original).reverseTurn aliases).turn

def Event.delta? : Event → Option Delta
  | .contentBlockDelta _ delta => some delta
  | _ => none

def Event.stopReason? : Event → Option String
  | .messageDelta stopReason _ => some stopReason
  | _ => none

def Delta.thinkingText : Delta → List Char
  | .thinking said => said.toList
  | _ => []

def Delta.answerText : Delta → List Char
  | .text said => said.toList
  | _ => []

/-- The input of a call that the client holds. -/
def ToolUse.call (parse : String → Option Json) (b : ToolUse) : String × String × Json :=
  (b.id, b.name, (parse (String.ofList b.partialJson)).getD (.obj []))

namespace StreamTranslator

def deltas (t : StreamTranslator) : List Delta := t.events.filterMap Event.delta?

def turn (parse : String → Option Json) (t : StreamTranslator) : Turn :=
  ⟨t.deltas.flatMap Delta.thinkingText, t.deltas.flatMap Delta.answerText,
    t.tools.map (ToolUse.call parse), (t.events.filterMap Event.stopReason?).getLast?⟩

end StreamTranslator

/-- The translator behind the chunks of a stream. -/
def runChunks (B : Base64) (t : StreamTranslator) (chunks : List Json) : StreamTranslator :=
  chunks.foldl (fun t chunk => t.processFrame B ⟨none, .chunk chunk⟩) t

def finishReason? (chunk : Json) : Option String :=
  (firstChoice chunk).bind (Json.getStr? "finish_reason")

/-! ### What was said -/

namespace StreamTranslator

variable {t : StreamTranslator} {B : Base64}

@[simp] theorem deltas_emit (t : StreamTranslator) (event : Event) :
    (t.emit event).deltas = t.deltas ++ event.delta?.toList := by
  rw [deltas, emit, List.filterMap_append, deltas]
  refine congrArg (t.events.filterMap Event.delta? ++ ·) ?_
  cases event <;> rfl

@[simp] theorem deltas_closeBlock (t : StreamTranslator) : t.closeBlock.deltas = t.deltas := by
  rw [closeBlock]
  split
  · exact (deltas_emit _ _).trans (List.append_nil _)
  · rfl

@[simp] theorem deltas_closeBlockFinal (t : StreamTranslator) : t.closeBlockFinal.deltas = t.deltas := by
  rw [closeBlockFinal]
  split
  · exact (deltas_emit _ _).trans (List.append_nil _)
  · rfl

@[simp] theorem deltas_startBlock (t : StreamTranslator) (kind : OpenBlock) :
    (t.startBlock kind).deltas = t.deltas :=
  ((deltas_emit _ _).trans (List.append_nil _)).trans (deltas_closeBlock t)

@[simp] theorem deltas_ensureBlock (t : StreamTranslator) (kind : OpenBlock) :
    (t.ensureBlock kind).deltas = t.deltas := by
  rw [ensureBlock]
  split
  · rfl
  · exact deltas_startBlock t kind

theorem deltas_emitDelta (t : StreamTranslator) (delta : Delta) :
    (t.emitDelta delta).deltas = t.deltas ++ [delta] :=
  deltas_emit t _

/-- A fragment starts a call if it has an id, and brings arguments if they are not empty. -/
theorem onToolCallFragment_cases (t : StreamTranslator) (tc : Json) : ∃ (u : StreamTranslator) (args : String),
    (u = t ∨ ∃ id name, u = t.startCall id name) ∧ t.onToolCallFragment tc =
      if args = "" then u else (u.ensureBlock .tool).emitDelta (.inputJson args) := by
  rw [onToolCallFragment]
  cases tc.getStr? "id" with
  | none =>
    cases (tc.get? "function").bind (Json.getStr? "arguments") with
    | none => exact ⟨t, "", Or.inl rfl, rfl⟩
    | some args => exact ⟨t, args, Or.inl rfl, rfl⟩
  | some id =>
    cases (tc.get? "function").bind (Json.getStr? "arguments") with
    | none => exact ⟨_, "", Or.inr ⟨id, _, rfl⟩, rfl⟩
    | some args => exact ⟨_, args, Or.inr ⟨id, _, rfl⟩, rfl⟩

theorem deltas_onToolCallFragment (t : StreamTranslator) (tc : Json) :
    ∃ args : List String, (t.onToolCallFragment tc).deltas = t.deltas ++ args.map .inputJson := by
  obtain ⟨u, args, hu, heq⟩ := onToolCallFragment_cases t tc
  have hdeltas : u.deltas = t.deltas := by
    rcases hu with rfl | ⟨id, name, rfl⟩
    · rfl
    · exact deltas_startBlock _ .tool
  rw [heq]
  split_ifs
  · exact ⟨[], hdeltas.trans (List.append_nil _).symm⟩
  · refine ⟨[args], ?_⟩
    rw [deltas_emitDelta, deltas_ensureBlock, hdeltas]
    rfl

theorem deltas_foldl_fragment (t : StreamTranslator) (tcs : List Json) :
    ∃ args : List String, (tcs.foldl onToolCallFragment t).deltas = t.deltas ++ args.map .inputJson := by
  induction tcs generalizing t with
  | nil => exact ⟨[], (List.append_nil _).symm⟩
  | cons tc tcs ih =>
    obtain ⟨args, hargs⟩ := deltas_onToolCallFragment t tc
    obtain ⟨args', hargs'⟩ := ih (t.onToolCallFragment tc)
    refine ⟨args ++ args', ?_⟩
    rw [List.foldl_cons, hargs', hargs, List.map_append, List.append_assoc]

/-- Words for a block of a kind, if there are any. -/
def saying (t : StreamTranslator) (kind : OpenBlock) (f : String → Delta) (said : Option String) :
    StreamTranslator :=
  said.elim t fun said => (t.ensureBlock kind).emitDelta (f said)

theorem onChatDelta_eq (t : StreamTranslator) (delta : Json) : t.onChatDelta delta =
    ((delta.getArr? "tool_calls").getD []).foldl onToolCallFragment
      ((t.saying .thinking .thinking (nonEmptyField "reasoning_content" delta)).saying .text .text
        (nonEmptyField "content" delta)) := by
  rw [onChatDelta]
  cases nonEmptyField "reasoning_content" delta <;> cases nonEmptyField "content" delta <;> rfl

theorem deltas_saying (t : StreamTranslator) (kind : OpenBlock) (f : String → Delta) (said : Option String) :
    (t.saying kind f said).deltas = t.deltas ++ (said.map f).toList := by
  cases said with
  | none => exact (List.append_nil _).symm
  | some said => exact (deltas_emitDelta _ _).trans (congrArg (· ++ [f said]) (deltas_ensureBlock t _))

theorem deltas_onChatDelta (t : StreamTranslator) (delta : Json) :
    ∃ args : List String, (t.onChatDelta delta).deltas = t.deltas ++
      ((nonEmptyField "reasoning_content" delta).map Delta.thinking).toList ++
        ((nonEmptyField "content" delta).map Delta.text).toList ++ args.map .inputJson := by
  rw [onChatDelta_eq]
  obtain ⟨args, hargs⟩ := deltas_foldl_fragment
    ((t.saying .thinking .thinking (nonEmptyField "reasoning_content" delta)).saying .text .text
      (nonEmptyField "content" delta)) ((delta.getArr? "tool_calls").getD [])
  refine ⟨args, hargs.trans ?_⟩
  rw [deltas_saying, deltas_saying]

/-- A translator that has noted what a chunk says besides its choices. -/
def readied (t : StreamTranslator) (chunk : Json) : StreamTranslator :=
  (chunk.get? "usage").elim t.start t.start.noteUsage

/-- The translator behind what the choice of a chunk adds. -/
def behindDelta (t : StreamTranslator) (chunk : Json) : StreamTranslator :=
  ((firstChoice chunk).bind (Json.get? "delta")).elim (t.readied chunk) (t.readied chunk).onChatDelta

/-- The end of a message. -/
def finished (t : StreamTranslator) (reason : String) : StreamTranslator :=
  (t.closeBlockFinal.emitMessageDeltaWithUsage (chatStopReason reason) t.lastUsage).emit .messageStop

theorem processChatChunk_eq (t : StreamTranslator) (chunk : Json) : t.processChatChunk chunk =
    (finishReason? chunk).elim (t.behindDelta chunk) (t.behindDelta chunk).finished := by
  rw [finishReason?, processChatChunk]
  cases (firstChoice chunk).bind (Json.getStr? "finish_reason") <;> rfl

theorem quiet_readied (t : StreamTranslator) (chunk : Json) : Quiet t (t.readied chunk) := by
  have husage : ∀ usage, Quiet t.start (t.start.noteUsage usage) := by
    intro usage
    rw [noteUsage]
    dsimp only
    split_ifs <;> exact quiet_of_eq rfl rfl rfl ⟨rfl, rfl, rfl, rfl, rfl, rfl, rfl, rfl⟩
  rw [readied]
  cases chunk.get? "usage" with
  | none => exact quiet_start t
  | some usage => exact (quiet_start t).trans (husage usage)

/-- What a chunk says besides its choices is not told, and opens no block. -/
theorem readied_events (t : StreamTranslator) (chunk : Json) :
    (t.readied chunk).deltas = t.deltas ∧ (t.readied chunk).openBlock = t.openBlock ∧
      (t.readied chunk).blocks = t.blocks ∧
      (t.readied chunk).events.filterMap Event.stopReason? = t.events.filterMap Event.stopReason? := by
  have hstart : t.start.deltas = t.deltas ∧ t.start.openBlock = t.openBlock ∧ t.start.blocks = t.blocks ∧
      t.start.events.filterMap Event.stopReason? = t.events.filterMap Event.stopReason? := by
    rw [start]
    split
    · exact ⟨rfl, rfl, rfl, rfl⟩
    · refine ⟨(deltas_emit _ _).trans (List.append_nil _), rfl, blocks_emit t _, ?_⟩
      exact List.filterMap_append.trans (List.append_nil _)
  rw [readied]
  cases chunk.get? "usage" with
  | none => exact hstart
  | some usage =>
    have husage : (t.start.noteUsage usage).events = t.start.events ∧
        (t.start.noteUsage usage).openBlock = t.start.openBlock := by
      rw [noteUsage]
      dsimp only
      split_ifs <;> exact ⟨rfl, rfl⟩
    show (t.start.noteUsage usage).deltas = _ ∧ (t.start.noteUsage usage).openBlock = _ ∧
      (t.start.noteUsage usage).blocks = _ ∧ (t.start.noteUsage usage).events.filterMap _ = _
    rw [deltas, blocks, husage.1, husage.2]
    exact hstart

theorem terminated_onToolCallFragment (t : StreamTranslator) (tc : Json) :
    (t.onToolCallFragment tc).terminated = t.terminated := by
  obtain ⟨u, args, hu, heq⟩ := onToolCallFragment_cases t tc
  have hsame : u.terminated = t.terminated := by
    rcases hu with rfl | ⟨id, name, rfl⟩
    · rfl
    · exact terminated_startCall t id name
  rw [heq]
  split_ifs
  · exact hsame
  · exact (sameCalls_ensureBlock u .tool).terminated.trans hsame

theorem terminated_onChatDelta (t : StreamTranslator) (delta : Json) :
    (t.onChatDelta delta).terminated = t.terminated := by
  have hfold : ∀ (tcs : List Json) (u : StreamTranslator),
      (tcs.foldl onToolCallFragment u).terminated = u.terminated := by
    intro tcs
    induction tcs with
    | nil => exact fun _ => rfl
    | cons tc tcs ih => exact fun u => (ih _).trans (terminated_onToolCallFragment u tc)
  have hsaying : ∀ (u : StreamTranslator) (kind : OpenBlock) (f : String → Delta) (said : Option String),
      (u.saying kind f said).terminated = u.terminated := by
    intro u kind f said
    cases said with
    | none => rfl
    | some said => exact (sameCalls_ensureBlock u kind).terminated
  rw [onChatDelta_eq, hfold, hsaying, hsaying]

theorem terminated_processChatChunk (t : StreamTranslator) (chunk : Json) :
    (t.processChatChunk chunk).terminated = t.terminated := by
  have hbehind : (t.behindDelta chunk).terminated = t.terminated := by
    rw [behindDelta]
    cases (firstChoice chunk).bind (Json.get? "delta") with
    | none => exact (quiet_readied t chunk).calls.terminated
    | some delta => exact (terminated_onChatDelta _ delta).trans (quiet_readied t chunk).calls.terminated
  rw [processChatChunk_eq]
  cases finishReason? chunk with
  | none => exact hbehind
  | some reason => exact (sameCalls_closeBlockFinal _).terminated.trans hbehind

theorem processFrame_chat (h : t.terminated = false) (chunk : Json) :
    t.processFrame B ⟨none, .chunk chunk⟩ = t.processChatChunk chunk := by
  rw [processFrame, if_neg (by rw [h]; decide)]

end StreamTranslator

theorem runChunks_append (B : Base64) (t : StreamTranslator) (chunks : List Json) (chunk : Json) :
    runChunks B t (chunks ++ [chunk]) =
      (runChunks B t chunks).processFrame B ⟨none, .chunk chunk⟩ := by
  rw [runChunks, List.foldl_append]
  rfl

theorem readChunks_append (chunks : List Json) (chunk : Json) :
    readChunks (chunks ++ [chunk]) = (readChunks chunks).addChunk chunk := by
  rw [readChunks, List.foldl_append]
  rfl

theorem terminated_runChunks {B : Base64} {t : StreamTranslator} (h : t.terminated = false)
    (chunks : List Json) : (runChunks B t chunks).terminated = false := by
  induction chunks using List.reverseRecOn with
  | nil => exact h
  | append_singleton chunks chunk ih =>
    rw [runChunks_append, processFrame_chat ih,
      terminated_processChatChunk]
    exact ih

theorem said_processChatChunk (t : StreamTranslator) (s : ChatFold) (chunk : Json)
    (hthinking : t.deltas.flatMap Delta.thinkingText = s.reasoning.toList)
    (htext : t.deltas.flatMap Delta.answerText = s.content.toList) :
    (t.processChatChunk chunk).deltas.flatMap Delta.thinkingText = (s.addChunk chunk).reasoning.toList ∧
      (t.processChatChunk chunk).deltas.flatMap Delta.answerText = (s.addChunk chunk).content.toList := by
  have hfinished : (t.processChatChunk chunk).deltas = (t.behindDelta chunk).deltas := by
    rw [processChatChunk_eq]
    cases finishReason? chunk with
    | none => rfl
    | some reason =>
      refine (deltas_emit _ _).trans ((List.append_nil _).trans ?_)
      refine (deltas_emit _ _).trans ((List.append_nil _).trans ?_)
      exact deltas_closeBlockFinal _
  have hreadied := (readied_events t chunk).1
  have hfield : ∀ (key : String) (delta : Json) (f : String → Delta) (g : Delta → List Char),
      (∀ said, g (f said) = said.toList) →
        ((nonEmptyField key delta).map f).toList.flatMap g =
          ((delta.getStr? key).getD "").toList := by
    intro key delta f g hg
    rw [nonEmptyField]
    cases delta.getStr? key with
    | none => rfl
    | some said =>
      rw [Option.filter]
      split_ifs with hempty
      · exact (List.append_nil _).trans (hg said)
      · obtain rfl : said = "" := not_not.mp fun hne => hempty (decide_eq_true hne)
        rfl
  have hother : ∀ (said : Option String) (f : String → Delta) (g : Delta → List Char),
      (∀ said, g (f said) = []) → (said.map f).toList.flatMap g = [] := by
    intro said f g hg
    cases said with
    | none => rfl
    | some said => exact (List.append_nil _).trans (hg said)
  have hargs : ∀ (args : List String) (g : Delta → List Char),
      (∀ a, g (.inputJson a) = []) → (args.map Delta.inputJson).flatMap g = [] := by
    intro args g hg
    refine List.flatMap_eq_nil_iff.mpr fun delta hdelta => ?_
    obtain ⟨a, -, rfl⟩ := List.mem_map.mp hdelta
    exact hg a
  rw [hfinished, behindDelta, ChatFold.addChunk]
  cases hchoice : firstChoice chunk with
  | none => exact ⟨(congrArg _ hreadied).trans hthinking, (congrArg _ hreadied).trans htext⟩
  | some choice =>
    show (deltas (Option.elim (choice.get? "delta") _ _)).flatMap _ =
        (ChatFold.addChoice _ choice).reasoning.toList ∧
      (deltas (Option.elim (choice.get? "delta") _ _)).flatMap _ =
        (ChatFold.addChoice _ choice).content.toList
    rw [ChatFold.addChoice]
    cases choice.get? "delta" with
    | none => exact ⟨(congrArg _ hreadied).trans hthinking, (congrArg _ hreadied).trans htext⟩
    | some delta =>
      obtain ⟨args, hdeltas⟩ := deltas_onChatDelta (t.readied chunk) delta
      show ((t.readied chunk).onChatDelta delta).deltas.flatMap _ =
          (s.reasoning ++ (delta.getStr? "reasoning_content").getD "").toList ∧
        ((t.readied chunk).onChatDelta delta).deltas.flatMap _ =
          (s.content ++ (delta.getStr? "content").getD "").toList
      rw [hdeltas, hreadied]
      refine ⟨?_, ?_⟩
      · rw [List.flatMap_append, List.flatMap_append, List.flatMap_append, hthinking,
          hfield _ _ _ _ fun _ => rfl, hother _ _ _ fun _ => rfl, hargs _ _ fun _ => rfl, List.append_nil,
          List.append_nil, String.toList_append]
      · rw [List.flatMap_append, List.flatMap_append, List.flatMap_append, htext,
          hother _ _ _ fun _ => rfl, hfield _ _ _ _ fun _ => rfl, hargs _ _ fun _ => rfl, List.append_nil,
          List.append_nil, String.toList_append]

theorem said_runChunks (B : Base64) {t : StreamTranslator} (halive : t.terminated = false)
    (hnew : t.deltas = []) (chunks : List Json) :
    (runChunks B t chunks).deltas.flatMap Delta.thinkingText = (readChunks chunks).reasoning.toList ∧
      (runChunks B t chunks).deltas.flatMap Delta.answerText = (readChunks chunks).content.toList := by
  induction chunks using List.reverseRecOn with
  | nil =>
    show t.deltas.flatMap _ = [] ∧ t.deltas.flatMap _ = []
    rw [hnew]
    exact ⟨rfl, rfl⟩
  | append_singleton chunks chunk ih =>
    rw [runChunks_append, readChunks_append,
      processFrame_chat (terminated_runChunks halive chunks)]
    exact said_processChatChunk _ _ chunk ih.1 ih.2

end Headroom.OpenAi
