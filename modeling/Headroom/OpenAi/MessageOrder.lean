import Headroom.OpenAi.ChatTurns

/-!
# The order of a message

The client is sent a message: its start, its blocks one after the other, and its end. Nothing may come
behind the end. The translator keeps the order as long as the provider does not go on behind the end of
its turn.

## Main results

* `wellOrdered_iff` : the events of a stream keep the order exactly if it is mute behind the end.
-/

open Foundation

namespace Headroom.OpenAi

/-! ### The order -/

/-- How far a message has come. -/
inductive Progress
  | fresh
  | between (next : ℕ)
  | inside (index : ℕ) (kind : OpenBlock)
  | ending
  | ended
  deriving DecidableEq

/-- The kind of block that a delta is for. -/
def Delta.kind : Delta → OpenBlock
  | .text _ => .text
  | .thinking _ => .thinking
  | .signature _ => .thinking
  | .inputJson _ => .tool

/-- An event that keeps the order. The block that is open when the message ends may stay open. -/
def Progress.next : Progress → Event → Option Progress
  | .fresh, .messageStart _ => some (.between 0)
  | .between next, .contentBlockStart index block =>
    if index = next then some (.inside index block.kind) else none
  | .inside index kind, .contentBlockDelta index' delta =>
    if index' = index ∧ delta.kind = kind then some (.inside index kind) else none
  | .inside index _, .contentBlockStop index' => if index' = index then some (.between (index + 1)) else none
  | .between _, .messageDelta _ _ | .inside _ _, .messageDelta _ _ => some .ending
  | .ending, .messageStop => some .ended
  | .between _, .apiError _ | .inside _ _, .apiError _ => some .ended
  | _, _ => none

def progress (events : List Event) : Option Progress := events.foldlM Progress.next .fresh

/-- The events are the beginning of a message. -/
def WellOrdered (events : List Event) : Prop := (progress events).isSome

instance (events : List Event) : Decidable (WellOrdered events) :=
  inferInstanceAs (Decidable ((progress events).isSome = true))

theorem progress_append (events : List Event) (event : Event) :
    progress (events ++ [event]) = (progress events).bind fun p => p.next event := by
  rw [progress, List.foldlM_append]
  refine congrArg (Option.bind _) (funext fun p => ?_)
  rw [List.foldlM_cons]
  exact bind_pure _

/-- What keeps the order kept it all along. -/
theorem WellOrdered.of_append {front rest : List Event} (h : WellOrdered (front ++ rest)) :
    WellOrdered front := by
  rw [WellOrdered, progress, List.foldlM_append] at h
  rw [WellOrdered, progress]
  cases hfront : List.foldlM Progress.next .fresh front with
  | none =>
    rw [hfront] at h
    exact h
  | some p => rfl

theorem Progress.next_ended (event : Event) : Progress.ended.next event = none := by
  cases event <;> rfl

theorem not_wellOrdered_ended {events : List Event} (h : progress events = some .ended) (event : Event)
    (more : List Event) : ¬ WellOrdered (events ++ event :: more) := by
  intro hmore
  rw [List.append_cons] at hmore
  have hone := hmore.of_append
  rw [WellOrdered, progress_append, h, Option.bind_some, Progress.next_ended] at hone
  exact Bool.false_ne_true hone

/-! ### Steps on blocks -/

namespace StreamTranslator

variable {t t' u : StreamTranslator} {B : Base64} {chunk : Json} {kind : OpenBlock}

/-- What the order depends on. -/
structure SameMessage (t u : StreamTranslator) : Prop where
  events : u.events = t.events
  openBlock : u.openBlock = t.openBlock
  index : u.contentBlockIndex = t.contentBlockIndex
  started : u.started = t.started
  terminated : u.terminated = t.terminated
  terminal : u.terminalEmitted = t.terminalEmitted

/-- The steps on blocks. -/
inductive Moves (t : StreamTranslator) : StreamTranslator → Prop
  | refl : Moves t t
  | close {u : StreamTranslator} (h : Moves t u) : Moves t u.closeBlock
  | start {u : StreamTranslator} (h : Moves t u) (kind : OpenBlock) : Moves t (u.startBlock kind)
  | delta {u : StreamTranslator} (h : Moves t u) {kind : OpenBlock} (hopen : u.openBlock = some kind)
      (delta : Delta) (hkind : delta.kind = kind) : Moves t (u.emitDelta delta)
  | note {u v : StreamTranslator} (h : Moves t u) (hsame : SameMessage u v) : Moves t v

namespace Moves

theorem trans (h : Moves t t') (h' : Moves t' u) : Moves t u := by
  induction h' with
  | refl => exact h
  | close _ ih => exact ih.close
  | start _ kind ih => exact ih.start kind
  | delta _ hopen delta hkind ih => exact ih.delta hopen delta hkind
  | note _ hsame ih => exact ih.note hsame

theorem closeIf (h : Moves t u) (kind : OpenBlock) : Moves t (u.closeBlockIf kind) := by
  rw [closeBlockIf]
  split
  · exact h.close
  · exact h

theorem ensure (h : Moves t u) (kind : OpenBlock) : Moves t (u.ensureBlock kind) := by
  rw [ensureBlock]
  split
  · exact h
  · exact h.start kind

/-- A delta for a block that is opened if need be. -/
theorem say (h : Moves t u) (delta : Delta) : Moves t ((u.ensureBlock delta.kind).emitDelta delta) :=
  (h.ensure delta.kind).delta (openBlock_ensureBlock u _) delta rfl

theorem wholeText (h : Moves t u) (text : String) : Moves t (u.wholeText text) :=
  (h.say (.text text)).close

theorem startCall (h : Moves t u) (rawId upstreamName : String) :
    Moves t (u.startCall rawId upstreamName) := by
  have hclaim : Moves t ((u.claimToolId rawId).captureToolName upstreamName) :=
    h.note ⟨rfl, rfl, rfl, rfl, rfl, rfl⟩
  exact hclaim.start .tool

/-- Arguments for a call whose block is open. -/
theorem args (h : Moves t u) (hopen : u.openBlock = some .tool) (args : String) : Moves t (u.emitArgs args) :=
  (h.delta hopen (.inputJson args) rfl).note ⟨rfl, rfl, rfl, rfl, rfl, rfl⟩

theorem terminal (h : Moves t u) : u.terminalEmitted = t.terminalEmitted := by
  induction h with
  | refl => rfl
  | close _ ih =>
    rw [closeBlock]
    split <;> exact ih
  | start _ kind ih =>
    rw [← ih, startBlock, closeBlock]
    split <;> rfl
  | delta _ _ _ _ ih => exact ih
  | note _ hsame ih => exact hsame.terminal.trans ih

/-- What was sent stays. -/
theorem events (h : Moves t u) : ∃ more, u.events = t.events ++ more := by
  have hclose : ∀ u : StreamTranslator, (∃ more, u.events = t.events ++ more) →
      ∃ more, u.closeBlock.events = t.events ++ more := by
    rintro u ⟨more, hmore⟩
    rw [closeBlock]
    split
    · exact ⟨more ++ [_], by rw [← List.append_assoc, ← hmore]; rfl⟩
    · exact ⟨more, hmore⟩
  induction h with
  | refl => exact ⟨[], (List.append_nil _).symm⟩
  | close _ ih => exact hclose _ ih
  | start _ kind ih =>
    obtain ⟨more, hmore⟩ := hclose _ ih
    exact ⟨more ++ [_], by rw [← List.append_assoc, ← hmore]; rfl⟩
  | delta _ _ delta _ ih =>
    obtain ⟨more, hmore⟩ := ih
    exact ⟨more ++ [_], by rw [← List.append_assoc, ← hmore]; rfl⟩
  | note _ hsame ih => rwa [hsame.events]

end Moves

/-! ### What events are made of -/

theorem moves_onMessageDone (t : StreamTranslator) (chunk : Json) : Moves t (t.onMessageDone chunk) := by
  rw [onMessageDone]
  split
  · exact (Moves.refl.wholeText _).note ⟨rfl, rfl, rfl, rfl, rfl, rfl⟩
  · exact Moves.refl.note ⟨rfl, rfl, rfl, rfl, rfl, rfl⟩

theorem moves_onReasoningDone (t : StreamTranslator) (B : Base64) (chunk : Json) :
    Moves t (t.onReasoningDone B chunk) := by
  have hreset : Moves t t.resetReasoning := Moves.refl.note ⟨rfl, rfl, rfl, rfl, rfl, rfl⟩
  rw [onReasoningDone]
  split
  · split
    · exact hreset
    · exact (hreset.say (.signature _)).close
  · exact hreset

theorem moves_recoverUnannouncedCall (t : StreamTranslator) (chunk : Json) :
    Moves t (t.recoverUnannouncedCall chunk) := by
  have hcall : Moves t ((t.startCall (rawId (itemOf chunk)) (itemName (itemOf chunk))).noteCall
      (outputIndex chunk)) :=
    (Moves.refl.startCall _ _).note ⟨rfl, rfl, rfl, rfl, rfl, rfl⟩
  rw [recoverUnannouncedCall]
  split
  · exact hcall.args rfl _
  · exact hcall

theorem moves_onFunctionCallDone (t : StreamTranslator) (chunk : Json) :
    Moves t (t.onFunctionCallDone chunk) := by
  rw [onFunctionCallDone]
  split
  · split
    · exact Moves.refl.close
    · exact Moves.refl
  · refine Moves.closeIf ?_ _
    split
    · exact Moves.refl
    · exact moves_recoverUnannouncedCall t chunk

theorem moves_recoverUnstreamedCall (t : StreamTranslator) (item : Json) :
    Moves t (t.recoverUnstreamedCall item) := by
  have hcall : Moves t (t.startCall (rawId item) (itemName item)).noteUnstreamedCall :=
    (Moves.refl.startCall _ _).note ⟨rfl, rfl, rfl, rfl, rfl, rfl⟩
  rw [recoverUnstreamedCall]
  split_ifs
  · exact Moves.refl
  · exact Moves.refl
  · dsimp only
    split
    · exact (hcall.delta rfl (.inputJson _) rfl).close
    · exact hcall.close

theorem moves_recoverUnstreamedCalls (t : StreamTranslator) (chunk : Json) :
    Moves t (t.recoverUnstreamedCalls chunk) := by
  rw [recoverUnstreamedCalls]
  generalize ((chunk.get? "response").bind (Json.getArr? "output")).getD [] = output
  induction output generalizing t with
  | nil => exact Moves.refl
  | cons item output ih => exact (moves_recoverUnstreamedCall t item).trans (ih _)

theorem terminal_closeBlockFinal (t : StreamTranslator) :
    t.closeBlockFinal.terminalEmitted = t.terminalEmitted := by
  rw [closeBlockFinal]
  split <;> rfl

/-- What was sent stays at the end of a turn. -/
theorem events_closeBlockFinal (t : StreamTranslator) :
    ∃ more, t.closeBlockFinal.events = t.events ++ more := by
  rw [closeBlockFinal]
  split
  · exact ⟨[_], rfl⟩
  · exact ⟨[], (List.append_nil _).symm⟩

/-- The event does not end the turn. -/
def Arm.GoesOn (arm : Arm) : Prop := arm ≠ .completed ∧ arm ≠ .failed ∧ arm ≠ .incomplete

theorem moves_onArm (t : StreamTranslator) (B : Base64) (chunk : Json) {arm : Arm} (h : arm.GoesOn) :
    Moves t (t.onArm B chunk arm) := by
  cases arm with
  | outputTextDelta =>
    show Moves t (t.onOutputTextDelta chunk)
    rw [onOutputTextDelta]
    split
    · exact Moves.refl
    · exact (Moves.refl.say (.text _)).note ⟨rfl, rfl, rfl, rfl, rfl, rfl⟩
  | outputTextDone =>
    show Moves t (t.onOutputTextDone chunk)
    rw [onOutputTextDone]
    split
    · split
      · exact Moves.refl
      · exact (Moves.refl.wholeText _).note ⟨rfl, rfl, rfl, rfl, rfl, rfl⟩
    · exact Moves.refl
  | refusalDelta =>
    show Moves t (t.onRefusalDelta chunk)
    rw [onRefusalDelta]
    split
    · exact Moves.refl
    · exact (Moves.refl.say (.text _)).note ⟨rfl, rfl, rfl, rfl, rfl, rfl⟩
  | refusalDone =>
    show Moves t (t.onRefusalDone chunk)
    rw [onRefusalDone]
    split
    · split
      · exact Moves.refl
      · exact (Moves.refl.wholeText _).note ⟨rfl, rfl, rfl, rfl, rfl, rfl⟩
    · exact Moves.refl
  | reasoningDelta =>
    show Moves t (t.onReasoningDelta chunk)
    rw [onReasoningDelta]
    split
    · exact (Moves.refl.say (.thinking _)).note ⟨rfl, rfl, rfl, rfl, rfl, rfl⟩
    · exact Moves.refl
  | summaryPartAdded => exact Moves.refl.closeIf _
  | outputItemAdded =>
    show Moves t (t.onOutputItemAdded chunk)
    rw [onOutputItemAdded]
    split_ifs
    · exact (Moves.refl.startCall _ _).note ⟨rfl, rfl, rfl, rfl, rfl, rfl⟩
    · exact Moves.refl.note ⟨rfl, rfl, rfl, rfl, rfl, rfl⟩
    · exact Moves.refl
  | functionArgsDelta =>
    show Moves t (t.onFunctionArgsDelta chunk)
    rw [onFunctionArgsDelta]
    split
    · split
      · rename_i hopen
        exact Moves.refl.args (openBlock_of_openFor hopen) _
      · exact Moves.refl
    · exact Moves.refl
  | functionArgsDone =>
    show Moves t (t.onFunctionArgsDone chunk)
    rw [onFunctionArgsDone]
    split
    · split
      · rename_i hopen
        exact Moves.refl.args (openBlock_of_openFor (Bool.and_eq_true_iff.mp hopen).1) _
      · exact Moves.refl
    · exact Moves.refl
  | outputItemDone =>
    show Moves t (t.onOutputItemDone B chunk)
    rw [onOutputItemDone]
    split_ifs
    · exact moves_onFunctionCallDone t chunk
    · exact moves_onMessageDone t chunk
    · exact moves_onReasoningDone t B chunk
    · exact Moves.refl
  | completed => exact absurd rfl h.1
  | failed => exact absurd rfl h.2.1
  | incomplete => exact absurd rfl h.2.2
  | unhandled => exact Moves.refl

/-- The calls that were not streamed come before the end of a turn that is complete. -/
theorem onCompleted_running (h : t.terminalEmitted = false) (chunk : Json) :
    ∃ (u : StreamTranslator) (stopReason : String), Moves t u ∧
      t.onCompleted chunk = u.closeBlockFinal.endTurn stopReason (responseUsage chunk) := by
  have hnote : Moves t (t.noteOutputTokens (responseUsage chunk)) :=
    (Moves.refl (t := t)).note ⟨rfl, rfl, rfl, rfl, rfl, rfl⟩
  have hmoves : Moves t ((t.noteOutputTokens (responseUsage chunk)).recoverUnstreamedCalls chunk) :=
    hnote.trans (moves_recoverUnstreamedCalls _ chunk)
  refine ⟨_, ((t.noteOutputTokens (responseUsage chunk)).recoverUnstreamedCalls
    chunk).closeBlockFinal.completedStopReason chunk, hmoves, ?_⟩
  have hrunning : ((t.noteOutputTokens (responseUsage chunk)).recoverUnstreamedCalls
      chunk).closeBlockFinal.terminalEmitted = false := by
    rw [terminal_closeBlockFinal, hmoves.terminal, h]
  rw [onCompleted]
  show (if _ then _ else _) = _
  rw [if_neg (show ¬ (t.noteOutputTokens (responseUsage chunk)).terminalEmitted = true from
    ne_true_of_eq_false h), if_neg (ne_true_of_eq_false hrunning)]

theorem moves_onToolCallFragment (t : StreamTranslator) (tc : Json) : Moves t (t.onToolCallFragment tc) := by
  obtain ⟨u, args, hu, heq⟩ := onToolCallFragment_cases t tc
  have hcall : Moves t u := by
    rcases hu with rfl | ⟨id, name, rfl⟩
    · exact Moves.refl
    · exact Moves.refl.startCall id name
  rw [heq]
  split_ifs
  · exact hcall
  · exact hcall.say (.inputJson args)

theorem moves_onChatDelta (t : StreamTranslator) (delta : Json) : Moves t (t.onChatDelta delta) := by
  have hfold : ∀ (tcs : List Json) (u : StreamTranslator), Moves t u →
      Moves t (tcs.foldl onToolCallFragment u) := by
    intro tcs
    induction tcs with
    | nil => exact fun _ h => h
    | cons tc tcs ih => exact fun u h => ih _ (h.trans (moves_onToolCallFragment u tc))
  rw [onChatDelta]
  refine hfold _ _ ?_
  cases nonEmptyField "reasoning_content" delta with
  | none =>
    cases nonEmptyField "content" delta with
    | none => exact Moves.refl
    | some text => exact Moves.refl.say (.text text)
  | some thinking =>
    cases nonEmptyField "content" delta with
    | none => exact Moves.refl.say (.thinking thinking)
    | some text => exact (Moves.refl.say (.thinking thinking)).say (.text text)

/-! ### Where the message is -/

/-- How far the message has come, as the translator has it. -/
def stage (t : StreamTranslator) : Progress :=
  match t.openBlock with
  | none => .between t.contentBlockIndex
  | some kind => .inside t.contentBlockIndex kind

/-- The message has started and goes on. -/
structure Live (t : StreamTranslator) : Prop where
  started : t.started = true
  alive : t.terminated = false
  running : t.terminalEmitted = false
  stage : progress t.events = some t.stage

/-- The message has not started. -/
structure Fresh (t : StreamTranslator) : Prop where
  started : t.started = false
  alive : t.terminated = false
  running : t.terminalEmitted = false
  events : t.events = []
  openBlock : t.openBlock = none
  index : t.contentBlockIndex = 0

/-- The client was sent the end of the message, or an error. -/
def Over (t : StreamTranslator) : Prop := progress t.events = some .ended

/-- The translator knows how far the message has come. -/
inductive Tidy (t : StreamTranslator) : Prop
  | fresh (h : Fresh t)
  | live (h : Live t)
  | ended (hstarted : t.started = true) (halive : t.terminated = false) (hopen : t.openBlock = none)
      (hover : t.Over)
  | aborted (hterminated : t.terminated = true) (hending : progress t.events = some .ending)

theorem Tidy.wellOrdered (h : Tidy t) : WellOrdered t.events := by
  rw [WellOrdered]
  cases h with
  | fresh h =>
    rw [h.events]
    rfl
  | live h => rw [h.stage, Option.isSome_some]
  | ended _ _ _ hover =>
    rw [show progress t.events = some .ended from hover, Option.isSome_some]
  | aborted _ hending => rw [hending, Option.isSome_some]

theorem Live.not_over (h : Live t) : ¬ t.Over := by
  rw [Over, h.stage, StreamTranslator.stage]
  split <;> simp

theorem progress_emit (t : StreamTranslator) (event : Event) :
    progress (t.emit event).events = (progress t.events).bind fun p => p.next event :=
  progress_append t.events event

theorem Live.note (h : Live t) (hsame : SameMessage t u) : Live u := by
  refine ⟨hsame.started.trans h.started, hsame.terminated.trans h.alive, hsame.terminal.trans h.running, ?_⟩
  rw [hsame.events, h.stage, StreamTranslator.stage, StreamTranslator.stage, hsame.openBlock, hsame.index]

theorem Live.close (h : Live t) : Live t.closeBlock := by
  rw [closeBlock]
  cases hopen : t.openBlock with
  | none => exact h
  | some kind =>
    refine ⟨h.started, h.alive, h.running, ?_⟩
    refine (progress_emit { t with openBlock := none } (.contentBlockStop t.contentBlockIndex)).trans ?_
    show ((progress t.events).bind fun p => p.next (.contentBlockStop t.contentBlockIndex)) = _
    rw [h.stage, StreamTranslator.stage, hopen]
    exact if_pos rfl

theorem Live.startBlock (h : Live t) (kind : OpenBlock) : Live (t.startBlock kind) := by
  have hclosed := h.close
  refine ⟨hclosed.started, hclosed.alive, hclosed.running, ?_⟩
  refine (progress_emit t.closeBlock _).trans ?_
  rw [hclosed.stage, StreamTranslator.stage, openBlock_closeBlock]
  refine (if_pos rfl).trans ?_
  rw [kind_startOf]
  rfl

theorem Live.delta (h : Live t) (hopen : t.openBlock = some kind) {delta : Delta} (hkind : delta.kind = kind) :
    Live (t.emitDelta delta) := by
  refine ⟨h.started, h.alive, h.running, ?_⟩
  refine (progress_emit t (.contentBlockDelta t.contentBlockIndex delta)).trans ?_
  rw [h.stage, StreamTranslator.stage, hopen]
  refine (if_pos ⟨rfl, hkind⟩).trans ?_
  show _ = some (StreamTranslator.stage t)
  rw [StreamTranslator.stage, hopen]

/-- The steps on blocks keep a message going. -/
theorem Live.moves (h : Live t) (hmoves : Moves t u) : Live u := by
  induction hmoves with
  | refl => exact h
  | close _ ih => exact ih.close
  | start _ kind ih => exact ih.startBlock kind
  | delta _ hopen delta hkind ih => exact ih.delta hopen hkind
  | note _ hsame ih => exact ih.note hsame

/-- The last block is closed before the end. -/
theorem Live.closeBlockFinal (h : Live t) : ∃ next, progress t.closeBlockFinal.events = some (.between next) := by
  rw [StreamTranslator.closeBlockFinal]
  cases hopen : t.openBlock with
  | none =>
    refine ⟨t.contentBlockIndex, ?_⟩
    show progress t.events = _
    rw [h.stage, StreamTranslator.stage, hopen]
  | some kind =>
    refine ⟨t.contentBlockIndex + 1, ?_⟩
    refine (progress_emit { t with openBlock := none } (.contentBlockStop t.contentBlockIndex)).trans ?_
    show ((progress t.events).bind fun p => p.next (.contentBlockStop t.contentBlockIndex)) = _
    rw [h.stage, StreamTranslator.stage, hopen]
    exact if_pos rfl

theorem openBlock_closeBlockFinal (t : StreamTranslator) : t.closeBlockFinal.openBlock = none := by
  rw [StreamTranslator.closeBlockFinal]
  split
  · rfl
  · assumption

theorem started_closeBlockFinal (t : StreamTranslator) : t.closeBlockFinal.started = t.started := by
  rw [StreamTranslator.closeBlockFinal]
  split <;> rfl

/-- The end of a message. -/
theorem Live.finish (h : Live t) {events : List Event} {reason : String} {usage : Json}
    (hevents : events = t.closeBlockFinal.events ++ [.messageDelta reason usage] ++ [.messageStop]) :
    progress events = some .ended := by
  obtain ⟨next, hnext⟩ := h.closeBlockFinal
  rw [hevents, progress_append, progress_append, hnext]
  rfl

theorem live_start (h : Fresh t ∨ Live t) : Live t.start := by
  rw [StreamTranslator.start]
  rcases h with h | h
  · rw [if_neg (by rw [h.started]; exact Bool.false_ne_true)]
    refine ⟨rfl, h.alive, h.running, ?_⟩
    refine (progress_emit t (.messageStart t.model)).trans ?_
    show _ = some (stage t)
    rw [h.events, StreamTranslator.stage, h.openBlock, h.index]
    rfl
  · rwa [if_pos h.started]

/-! ### What is said behind the end -/

/-- At least one event was sent. -/
def Grew (t u : StreamTranslator) : Prop := ∃ event more, u.events = t.events ++ event :: more

variable {v : StreamTranslator}

theorem Grew.moves (h : Grew t u) (hmoves : Moves u v) : Grew t v := by
  obtain ⟨event, more, hmore⟩ := h
  obtain ⟨rest, hrest⟩ := hmoves.events
  refine ⟨event, more ++ rest, ?_⟩
  rw [hrest, hmore, List.append_assoc, List.cons_append]

theorem Grew.of_append (hevents : ∃ more, u.events = t.events ++ more)
    (hgrew : Grew u v) : Grew t v := by
  obtain ⟨more, hmore⟩ := hevents
  obtain ⟨event, rest, hrest⟩ := hgrew
  rw [hmore, List.append_assoc] at hrest
  cases more with
  | nil => exact ⟨event, rest, hrest⟩
  | cons first more => exact ⟨first, more ++ event :: rest, hrest⟩

theorem Moves.grew (h : Moves t u) (hgrew : Grew u v) : Grew t v :=
  Grew.of_append h.events hgrew

/-- The end of a turn is an event at least. -/
theorem grew_endTurn (t : StreamTranslator) (stopReason : String) (usage : Option Json) :
    Grew t (t.closeBlockFinal.endTurn stopReason usage) :=
  Grew.of_append (events_closeBlockFinal t) ⟨_, [.messageStop], List.append_assoc _ _ _⟩

theorem grew_finished (t : StreamTranslator) (reason : String) : Grew t (t.finished reason) :=
  Grew.of_append (events_closeBlockFinal t) ⟨_, [.messageStop], List.append_assoc _ _ _⟩

theorem grew_emit (t : StreamTranslator) (event : Event) : Grew t (t.emit event) := ⟨event, [], rfl⟩

theorem grew_say (t : StreamTranslator) (delta : Delta) : Grew t ((t.ensureBlock delta.kind).emitDelta delta) :=
  (Moves.refl.ensure delta.kind).grew (grew_emit _ _)

theorem grew_wholeText (t : StreamTranslator) (text : String) : Grew t (t.wholeText text) :=
  (grew_say t (.text text)).moves Moves.refl.close

theorem grew_startCall (t : StreamTranslator) (rawId upstreamName : String) :
    Grew t (t.startCall rawId upstreamName) := by
  have hclaim : Moves t ((t.claimToolId rawId).captureToolName upstreamName) :=
    Moves.refl.note ⟨rfl, rfl, rfl, rfl, rfl, rfl⟩
  exact hclaim.close.grew ⟨_, [], rfl⟩

theorem SameMessage.grew (h : SameMessage t t') (h' : Grew t' u) : Grew t u :=
  (Moves.refl.note h).grew h'

/-- A fragment of a call that brings nothing. -/
def EmptyFragment (tc : Json) : Prop :=
  tc.getStr? "id" = none ∧ ((tc.get? "function").bind (Json.getStr? "arguments")).all (· = "") = true

/-- What a choice adds is nothing. -/
def EmptyDelta (delta : Json) : Prop :=
  nonEmptyField "reasoning_content" delta = none ∧ nonEmptyField "content" delta = none ∧
    ∀ tc ∈ (delta.getArr? "tool_calls").getD [], EmptyFragment tc

/-- A chunk that says nothing. -/
def EmptyChunk (chunk : Json) : Prop :=
  finishReason? chunk = none ∧ ∀ delta, (firstChoice chunk).bind (Json.get? "delta") = some delta → EmptyDelta delta

theorem onToolCallFragment_empty {tc : Json} (h : EmptyFragment tc) : t.onToolCallFragment tc = t := by
  rw [onToolCallFragment, h.1]
  dsimp only
  cases hargs : (tc.get? "function").bind (Json.getStr? "arguments") with
  | none => rfl
  | some args =>
    have hempty := h.2
    rw [hargs, Option.all_some, decide_eq_true_eq] at hempty
    exact if_pos hempty

theorem grew_onToolCallFragment (t : StreamTranslator) {tc : Json} (h : ¬ EmptyFragment tc) :
    Grew t (t.onToolCallFragment tc) := by
  rw [onToolCallFragment]
  cases hid : tc.getStr? "id" with
  | none =>
    cases hargs : (tc.get? "function").bind (Json.getStr? "arguments") with
    | none => exact absurd ⟨hid, by rw [hargs]; rfl⟩ h
    | some args =>
      dsimp only
      split_ifs with hempty
      · exact absurd ⟨hid, by rw [hargs, hempty]; rfl⟩ h
      · exact grew_say t (.inputJson args)
  | some id =>
    have hcall := grew_startCall t id (((tc.get? "function").bind (Json.getStr? "name")).getD "")
    cases (tc.get? "function").bind (Json.getStr? "arguments") with
    | none => exact hcall
    | some args =>
      dsimp only
      split_ifs
      · exact hcall
      · exact hcall.moves (Moves.refl.say (.inputJson args))

theorem moves_foldl_fragment (t : StreamTranslator) (tcs : List Json) :
    Moves t (tcs.foldl onToolCallFragment t) := by
  induction tcs generalizing t with
  | nil => exact Moves.refl
  | cons tc tcs ih => exact (moves_onToolCallFragment t tc).trans (ih _)

theorem moves_saying (t : StreamTranslator) (f : String → Delta) (kind : OpenBlock) (hkind : ∀ s, (f s).kind = kind)
    (said : Option String) : Moves t (t.saying kind f said) := by
  cases said with
  | none => exact Moves.refl
  | some said =>
    have hsay := (Moves.refl (t := t)).say (f said)
    rwa [hkind] at hsay

theorem onChatDelta_empty {delta : Json} (h : EmptyDelta delta) : t.onChatDelta delta = t := by
  have hfold : ∀ tcs : List Json, (∀ tc ∈ tcs, EmptyFragment tc) → tcs.foldl onToolCallFragment t = t := by
    intro tcs htcs
    induction tcs with
    | nil => rfl
    | cons tc tcs ih =>
      rw [List.foldl_cons, onToolCallFragment_empty (htcs tc List.mem_cons_self)]
      exact ih fun tc' htc' => htcs tc' (List.mem_cons_of_mem tc htc')
  rw [onChatDelta_eq, h.1, h.2.1]
  exact hfold _ h.2.2

theorem grew_onChatDelta (t : StreamTranslator) {delta : Json} (h : ¬ EmptyDelta delta) :
    Grew t (t.onChatDelta delta) := by
  have hfold : ∀ (tcs : List Json) (u : StreamTranslator), (¬ ∀ tc ∈ tcs, EmptyFragment tc) →
      Grew u (tcs.foldl onToolCallFragment u) := by
    intro tcs
    induction tcs with
    | nil => exact fun u hsome => absurd (fun tc htc => absurd htc List.not_mem_nil) hsome
    | cons tc tcs ih =>
      intro u hsome
      by_cases htc : EmptyFragment tc
      · rw [List.foldl_cons, onToolCallFragment_empty htc]
        refine ih u fun hall => hsome fun tc' htc' => ?_
        rcases List.mem_cons.mp htc' with rfl | hmem
        · exact htc
        · exact hall tc' hmem
      · exact (grew_onToolCallFragment u htc).moves (moves_foldl_fragment _ tcs)
  rw [onChatDelta_eq]
  cases hthinking : nonEmptyField "reasoning_content" delta with
  | some thinking =>
    have hsaid := (grew_say t (.thinking thinking)).moves
      (moves_saying _ .text .text (fun _ => rfl) (nonEmptyField "content" delta))
    exact hsaid.moves (moves_foldl_fragment _ _)
  | none =>
    cases htext : nonEmptyField "content" delta with
    | some text => exact (grew_say t (.text text)).moves (moves_foldl_fragment _ _)
    | none => exact hfold _ t fun hall => h ⟨hthinking, htext, hall⟩

/-- What an event says nothing by, behind the end of a message. -/
def MuteArm (B : Base64) (t : StreamTranslator) (chunk : Json) : Arm → Prop
  | .outputTextDelta | .refusalDelta => deltaOf chunk = ""
  | .outputTextDone => nonEmptyField "text" chunk = none ∨ t.sawTextDelta = true
  | .refusalDone => nonEmptyField "refusal" chunk = none ∨ t.sawRefusalDelta = true
  | .reasoningDelta => nonEmptyField "delta" chunk = none
  | .outputItemAdded => itemType chunk ≠ some "function_call"
  | .outputItemDone =>
    (itemType chunk = some "function_call" →
        (outputIndex chunk).any (· ∈ t.announcedToolIndices) = true) ∧
      (itemType chunk = some "message" →
        t.sawTextDelta = true ∨ t.sawRefusalDelta = true ∨ messageText (itemOf chunk) = "") ∧
      (itemType chunk = some "reasoning" →
        (t.pendingReasoning.capture (itemOf chunk)).replay.bind (encodeReasoningSignature B) = none ∨
          t.sawThinkingText = false ∧ t.isSpark = true)
  | .completed | .failed | .incomplete => t.terminalEmitted = true
  | .summaryPartAdded | .functionArgsDelta | .functionArgsDone | .unhandled => True

/-- What a frame says nothing by, behind the end of a message. -/
def Mute (B : Base64) (t : StreamTranslator) (frame : Frame) : Prop :=
  match frame.data with
  | .blank | .done | .malformed => True
  | .chunk chunk =>
    match frame.eventName with
    | some name =>
      if "response.".toList <+: name.toList ∨ "output_".toList <+: name.toList then
        t.MuteArm B chunk (armOf name)
      else EmptyChunk chunk
    | none => EmptyChunk chunk

theorem not_openFor (hopen : t.openBlock = none) (chunk : Json) : t.toolBlockOpenFor chunk = false := by
  rw [toolBlockOpenFor, hopen]
  rfl

theorem closeBlockFinal_none (hopen : t.openBlock = none) : t.closeBlockFinal = t := by
  rw [StreamTranslator.closeBlockFinal, hopen]

theorem closeBlockIf_none (hopen : t.openBlock = none) (kind : OpenBlock) : t.closeBlockIf kind = t := by
  rw [closeBlockIf, hopen]
  exact if_neg (by simp)

theorem SameMessage.refl (t : StreamTranslator) : SameMessage t t := ⟨rfl, rfl, rfl, rfl, rfl, rfl⟩

theorem onOutputItemDone_behind (hopen : t.openBlock = none) :
    (t.MuteArm B chunk .outputItemDone → SameMessage t (t.onOutputItemDone B chunk)) ∧
      (¬ t.MuteArm B chunk .outputItemDone → Grew t (t.onOutputItemDone B chunk)) := by
  rw [onOutputItemDone, MuteArm]
  split_ifs with hcall hmessage hreasoning
  · rw [onFunctionCallDone, not_openFor hopen, if_neg Bool.false_ne_true, if_neg Bool.false_ne_true]
    refine ⟨fun hmute => ?_, fun hmute => ?_⟩
    · rw [if_pos (hmute.1 hcall)]
      exact SameMessage.refl t
    · have hnew : ¬ (outputIndex chunk).any (· ∈ t.announcedToolIndices) = true := by
        refine fun hold => hmute ⟨fun _ => hold, fun h => ?_, fun h => ?_⟩ <;>
          exact absurd (hcall.symm.trans h) (by simp)
      rw [if_neg hnew, recoverUnannouncedCall]
      refine Grew.moves ?_ (Moves.refl.closeIf .tool)
      have hstart : Grew t ((t.startCall (rawId (itemOf chunk)) (itemName (itemOf chunk))).noteCall
          (outputIndex chunk)) :=
        (grew_startCall t _ _).moves (Moves.refl.note ⟨rfl, rfl, rfl, rfl, rfl, rfl⟩)
      split
      · exact hstart.moves (Moves.refl.args rfl _)
      · exact hstart
  · rw [onMessageDone]
    refine ⟨fun hmute => ?_, fun hmute => ?_⟩
    · have hsilent : ¬ (!t.sawTextDelta && !t.sawRefusalDelta && decide (messageText (itemOf chunk) ≠ "")) = true := by
        rcases hmute.2.1 hmessage with h | h | h <;> simp [h]
      rw [if_neg hsilent]
      exact ⟨rfl, rfl, rfl, rfl, rfl, rfl⟩
    · have hspeaks : (!t.sawTextDelta && !t.sawRefusalDelta && decide (messageText (itemOf chunk) ≠ "")) = true := by
        by_contra hnot
        refine hmute ⟨fun h => absurd (hmessage.symm.trans h) (by simp), fun _ => ?_,
          fun h => absurd (hmessage.symm.trans h) (by simp)⟩
        by_cases htext : t.sawTextDelta = true
        · exact Or.inl htext
        · by_cases hrefusal : t.sawRefusalDelta = true
          · exact Or.inr (Or.inl hrefusal)
          · exact Or.inr (Or.inr (by simpa [htext, hrefusal] using hnot))
      rw [if_pos hspeaks]
      exact (grew_wholeText t _).moves (Moves.refl.note ⟨rfl, rfl, rfl, rfl, rfl, rfl⟩)
  · rw [onReasoningDone]
    have hreset : SameMessage t t.resetReasoning := ⟨rfl, rfl, rfl, rfl, rfl, rfl⟩
    cases hsealed : (t.pendingReasoning.capture (itemOf chunk)).replay.bind (encodeReasoningSignature B) with
    | none =>
      refine ⟨fun _ => hreset, fun hmute => absurd ⟨?_, ?_, fun _ => Or.inl rfl⟩ hmute⟩
      · exact fun h => absurd h hcall
      · exact fun h => absurd h hmessage
    | some signature =>
      show (_ → SameMessage t (if _ then _ else _)) ∧ (_ → Grew t (if _ then _ else _))
      split_ifs with hdull
      · refine ⟨fun _ => hreset, fun hmute => absurd ⟨?_, ?_, fun _ => Or.inr ?_⟩ hmute⟩
        · exact fun h => absurd h hcall
        · exact fun h => absurd h hmessage
        · have hboth := Bool.and_eq_true_iff.mp hdull
          exact ⟨Bool.not_eq_eq_eq_not.mp hboth.1, hboth.2⟩
      · refine ⟨fun hmute => ?_, fun _ => ?_⟩
        · rcases hmute.2.2 hreasoning with h | ⟨hthought, hspark⟩
          · exact absurd h (by simp)
          · exact absurd (by rw [hthought]; exact hspark) hdull
        · exact hreset.grew ((grew_say _ (.signature signature)).moves Moves.refl.close)
  · exact ⟨fun _ => SameMessage.refl t, fun hmute =>
      absurd ⟨fun h => absurd h hcall, fun h => absurd h hmessage, fun h => absurd h hreasoning⟩ hmute⟩

theorem onArm_behind (hopen : t.openBlock = none) (halive : t.terminated = false) (arm : Arm) :
    (t.MuteArm B chunk arm → SameMessage t (t.onArm B chunk arm)) ∧
      (¬ t.MuteArm B chunk arm → Grew t (t.onArm B chunk arm)) := by
  have hsame := SameMessage.refl t
  cases arm with
  | outputTextDelta =>
    show (deltaOf chunk = "" → SameMessage t (t.onOutputTextDelta chunk)) ∧
      (¬ deltaOf chunk = "" → Grew t (t.onOutputTextDelta chunk))
    rw [onOutputTextDelta]
    refine ⟨fun h => by rwa [if_pos h], fun h => ?_⟩
    rw [if_neg h]
    exact grew_say t (.text _)
  | refusalDelta =>
    show (deltaOf chunk = "" → SameMessage t (t.onRefusalDelta chunk)) ∧
      (¬ deltaOf chunk = "" → Grew t (t.onRefusalDelta chunk))
    rw [onRefusalDelta]
    refine ⟨fun h => by rwa [if_pos h], fun h => ?_⟩
    rw [if_neg h]
    exact grew_say t (.text _)
  | outputTextDone =>
    show (_ ∨ _ → SameMessage t (t.onOutputTextDone chunk)) ∧ (¬ (_ ∨ _) → Grew t (t.onOutputTextDone chunk))
    rw [onOutputTextDone]
    cases htext : nonEmptyField "text" chunk with
    | none => exact ⟨fun _ => hsame, fun h => absurd (Or.inl rfl) h⟩
    | some text =>
      dsimp only
      split_ifs with hsaw
      · exact ⟨fun _ => hsame, fun h => absurd (Or.inr hsaw) h⟩
      · refine ⟨fun h => absurd h (by simp [hsaw]), fun _ => ?_⟩
        exact grew_wholeText t text
  | refusalDone =>
    show (_ ∨ _ → SameMessage t (t.onRefusalDone chunk)) ∧ (¬ (_ ∨ _) → Grew t (t.onRefusalDone chunk))
    rw [onRefusalDone]
    cases hrefusal : nonEmptyField "refusal" chunk with
    | none => exact ⟨fun _ => hsame, fun h => absurd (Or.inl rfl) h⟩
    | some refusal =>
      dsimp only
      split_ifs with hsaw
      · exact ⟨fun _ => hsame, fun h => absurd (Or.inr hsaw) h⟩
      · refine ⟨fun h => absurd h (by simp [hsaw]), fun _ => ?_⟩
        exact grew_wholeText t refusal
  | reasoningDelta =>
    show (nonEmptyField "delta" chunk = none → SameMessage t (t.onReasoningDelta chunk)) ∧
      (¬ nonEmptyField "delta" chunk = none → Grew t (t.onReasoningDelta chunk))
    rw [onReasoningDelta]
    cases nonEmptyField "delta" chunk with
    | none => exact ⟨fun _ => hsame, fun h => absurd rfl h⟩
    | some delta =>
      refine ⟨fun h => absurd h (by simp), fun _ => ?_⟩
      exact grew_say t (.thinking delta)
  | summaryPartAdded =>
    refine ⟨fun _ => ?_, fun h => absurd trivial h⟩
    show SameMessage t (t.closeBlockIf .thinking)
    rwa [closeBlockIf_none hopen]
  | outputItemAdded =>
    show (_ ≠ _ → SameMessage t (t.onOutputItemAdded chunk)) ∧ (¬ (_ ≠ _) → Grew t (t.onOutputItemAdded chunk))
    rw [onOutputItemAdded]
    refine ⟨fun h => ?_, fun h => ?_⟩
    · rw [if_neg h]
      split_ifs
      · exact ⟨rfl, rfl, rfl, rfl, rfl, rfl⟩
      · exact hsame
    · rw [if_pos (not_not.mp h)]
      exact (grew_startCall t _ _).moves (Moves.refl.note ⟨rfl, rfl, rfl, rfl, rfl, rfl⟩)
  | functionArgsDelta =>
    refine ⟨fun _ => ?_, fun h => absurd trivial h⟩
    show SameMessage t (t.onFunctionArgsDelta chunk)
    rw [onFunctionArgsDelta, not_openFor hopen]
    split <;> exact hsame
  | functionArgsDone =>
    refine ⟨fun _ => ?_, fun h => absurd trivial h⟩
    show SameMessage t (t.onFunctionArgsDone chunk)
    rw [onFunctionArgsDone, not_openFor hopen]
    split <;> exact hsame
  | outputItemDone => exact onOutputItemDone_behind hopen
  | completed =>
    refine ⟨fun h => ?_, fun h => ?_⟩
    · have hterminal : (t.noteOutputTokens (responseUsage chunk)).terminalEmitted = true := h
      have hclosed : (t.noteOutputTokens (responseUsage chunk)).closeBlockFinal =
          t.noteOutputTokens (responseUsage chunk) := closeBlockFinal_none hopen
      show SameMessage t (t.onCompleted chunk)
      rw [onCompleted, if_pos hterminal, hclosed, if_pos hterminal]
      exact ⟨rfl, rfl, rfl, rfl, rfl, rfl⟩
    · obtain ⟨u, stopReason, hmoves, heq⟩ := onCompleted_running (eq_false_of_ne_true h) chunk
      show Grew t (t.onCompleted chunk)
      rw [heq]
      exact hmoves.grew (grew_endTurn u stopReason _)
  | failed =>
    show (t.terminalEmitted = true → SameMessage t (if t.terminated then t else t.onFailed chunk)) ∧
      (¬ t.terminalEmitted = true → Grew t (if t.terminated then t else t.onFailed chunk))
    rw [halive, if_neg Bool.false_ne_true, onFailed, closeBlockFinal_none hopen]
    refine ⟨fun h => by rwa [if_pos h], fun h => ?_⟩
    rw [if_neg h]
    exact ⟨_, [], rfl⟩
  | incomplete =>
    show (t.terminalEmitted = true → SameMessage t (t.onIncomplete chunk)) ∧
      (¬ t.terminalEmitted = true → Grew t (t.onIncomplete chunk))
    rw [onIncomplete, closeBlockFinal_none hopen]
    refine ⟨fun h => by rwa [if_pos h], fun h => ?_⟩
    rw [if_neg h]
    exact ⟨_, [.messageStop], List.append_assoc _ _ _⟩
  | unhandled => exact ⟨fun _ => hsame, fun h => absurd trivial h⟩

theorem start_started (h : t.started = true) : t.start = t := by
  rw [StreamTranslator.start]
  exact if_pos h

theorem same_noteUsage (t : StreamTranslator) (usage : Json) : SameMessage t (t.noteUsage usage) := by
  rw [noteUsage]
  dsimp only
  split_ifs <;> exact ⟨rfl, rfl, rfl, rfl, rfl, rfl⟩

theorem same_readied (t : StreamTranslator) (chunk : Json) : SameMessage t.start (t.readied chunk) := by
  rw [readied]
  cases chunk.get? "usage" with
  | none => exact SameMessage.refl t.start
  | some usage => exact same_noteUsage t.start usage

theorem moves_behindDelta (t : StreamTranslator) (chunk : Json) : Moves t.start (t.behindDelta chunk) := by
  rw [behindDelta]
  have hready : Moves t.start (t.readied chunk) := Moves.refl.note (same_readied t chunk)
  cases (firstChoice chunk).bind (Json.get? "delta") with
  | none => exact hready
  | some delta => exact hready.trans (moves_onChatDelta _ delta)

/-- A chunk says nothing behind the end if it is empty, and something otherwise. -/
theorem processChatChunk_behind (hstarted : t.started = true) (chunk : Json) :
    (EmptyChunk chunk → SameMessage t (t.processChatChunk chunk)) ∧
      (¬ EmptyChunk chunk → Grew t (t.processChatChunk chunk)) := by
  have hsame : SameMessage t (t.readied chunk) := by
    have hready := same_readied t chunk
    rwa [start_started hstarted] at hready
  have hmoves : Moves t (t.behindDelta chunk) := by
    have hbehind := moves_behindDelta t chunk
    rwa [start_started hstarted] at hbehind
  rw [processChatChunk_eq]
  refine ⟨fun hempty => ?_, fun hspeaks => ?_⟩
  · rw [hempty.1, Option.elim_none, behindDelta]
    cases hdelta : (firstChoice chunk).bind (Json.get? "delta") with
    | none => exact hsame
    | some delta =>
      rw [Option.elim_some, onChatDelta_empty (hempty.2 delta hdelta)]
      exact hsame
  · cases hreason : finishReason? chunk with
    | some reason => exact hmoves.grew (grew_finished _ reason)
    | none =>
      rw [Option.elim_none, behindDelta]
      cases hdelta : (firstChoice chunk).bind (Json.get? "delta") with
      | none => exact absurd ⟨hreason, fun delta h => absurd (hdelta.symm.trans h) (by simp)⟩ hspeaks
      | some delta =>
        refine hsame.grew (grew_onChatDelta _ fun hempty => hspeaks ⟨hreason, fun delta' h => ?_⟩)
        rwa [← Option.some.inj (hdelta.symm.trans h)]

theorem noteModel_started (h : t.started = true) (name : String) (chunk : Json) : t.noteModel name chunk = t := by
  rw [noteModel, h]
  rfl

/-- A frame says nothing behind the end if it is mute, and something otherwise. -/
theorem processFrame_behind (hstarted : t.started = true) (halive : t.terminated = false)
    (hopen : t.openBlock = none) (frame : Frame) :
    (t.Mute B frame → SameMessage t (t.processFrame B frame)) ∧
      (¬ t.Mute B frame → Grew t (t.processFrame B frame)) := by
  have hsame := SameMessage.refl t
  rw [processFrame, if_neg (ne_true_of_eq_false halive), Mute]
  cases frame.data with
  | blank => exact ⟨fun _ => hsame, fun h => absurd trivial h⟩
  | malformed => exact ⟨fun _ => hsame, fun h => absurd trivial h⟩
  | done =>
    refine ⟨fun _ => ?_, fun h => absurd trivial h⟩
    show SameMessage t t.onDone
    rw [onDone, hopen]
    exact hsame
  | chunk chunk =>
    cases frame.eventName with
    | none => exact processChatChunk_behind hstarted chunk
    | some name =>
      dsimp only
      split_ifs
      · rw [processResponsesFrame, noteModel_started hstarted, start_started hstarted]
        exact onArm_behind hopen halive (armOf name)
      · exact processChatChunk_behind hstarted chunk

/-! ### The order along a stream -/

theorem Fresh.noteModel (h : Fresh t) (name : String) (chunk : Json) : Fresh (t.noteModel name chunk) := by
  rw [StreamTranslator.noteModel]
  split
  · exact ⟨h.started, h.alive, h.running, h.events, h.openBlock, h.index⟩
  · exact h

/-- A message that goes on is over with its last events. -/
theorem Live.endTurn (h : Live t) (stopReason : String) (usage : Option Json) :
    Tidy (t.closeBlockFinal.endTurn stopReason usage) :=
  .ended ((started_closeBlockFinal t).trans h.started)
    ((sameCalls_closeBlockFinal t).terminated.trans h.alive) (openBlock_closeBlockFinal t) (h.finish rfl)

theorem Live.finished (h : Live t) (reason : String) : Tidy (t.finished reason) :=
  .ended ((started_closeBlockFinal t).trans h.started)
    ((sameCalls_closeBlockFinal t).terminated.trans h.alive) (openBlock_closeBlockFinal t) (h.finish rfl)

/-- The end of the provider's stream. A call that is open is left open. -/
theorem Live.onDone (h : Live t) : Tidy t.onDone := by
  rw [StreamTranslator.onDone]
  split_ifs with hnone htool
  · exact .live h
  · rw [Bool.and_eq_true, decide_eq_true_eq] at htool
    have habort : t.abortTerminal = ({ t with terminated := true }).emitMessageDelta "end_turn" := by
      rw [abortTerminal, h.started]
      exact congrArg (fun u : StreamTranslator => u.emitMessageDelta "end_turn")
        (if_neg (not_not.mpr htool.1))
    rw [habort]
    refine .aborted rfl ?_
    refine (progress_emit { t with terminated := true } _).trans ?_
    show ((progress t.events).bind fun p => p.next _) = _
    rw [h.stage, StreamTranslator.stage, htool.1]
    rfl
  · exact .ended ((started_closeBlockFinal t).trans h.started)
      ((sameCalls_closeBlockFinal t).terminated.trans h.alive) (openBlock_closeBlockFinal t) (h.finish rfl)

theorem Live.onFailed (h : Live t) (chunk : Json) : Tidy (t.onFailed chunk) := by
  have hterminal : t.closeBlockFinal.terminalEmitted = false := (terminal_closeBlockFinal t).trans h.running
  obtain ⟨next, hnext⟩ := h.closeBlockFinal
  rw [StreamTranslator.onFailed, if_neg (ne_true_of_eq_false hterminal)]
  refine .ended ((started_closeBlockFinal t).trans h.started)
    ((sameCalls_closeBlockFinal t).terminated.trans h.alive) (openBlock_closeBlockFinal t) ?_
  refine (progress_emit { t.closeBlockFinal with terminalEmitted := true } _).trans ?_
  show ((progress t.closeBlockFinal.events).bind fun p => p.next _) = _
  rw [hnext]
  rfl

theorem Live.onIncomplete (h : Live t) (chunk : Json) : Tidy (t.onIncomplete chunk) := by
  have hterminal : t.closeBlockFinal.terminalEmitted = false := (terminal_closeBlockFinal t).trans h.running
  rw [StreamTranslator.onIncomplete, if_neg (ne_true_of_eq_false hterminal)]
  exact h.endTurn _ _

theorem Live.onArm (h : Live t) (B : Base64) (chunk : Json) (arm : Arm) : Tidy (t.onArm B chunk arm) := by
  by_cases hgoes : arm.GoesOn
  · exact .live (h.moves (moves_onArm t B chunk hgoes))
  · by_cases hcompleted : arm = .completed
    · rw [hcompleted]
      obtain ⟨u, stopReason, hmoves, heq⟩ := onCompleted_running h.running chunk
      show Tidy (t.onCompleted chunk)
      rw [heq]
      exact (h.moves hmoves).endTurn stopReason _
    · by_cases hfailed : arm = .failed
      · rw [hfailed]
        show Tidy (if t.terminated then t else t.onFailed chunk)
        rw [if_neg (ne_true_of_eq_false h.alive)]
        exact h.onFailed chunk
      · have hincomplete : arm = .incomplete := by
          by_contra hnot
          exact hgoes ⟨hcompleted, hfailed, hnot⟩
        rw [hincomplete]
        exact h.onIncomplete chunk

theorem tidy_processChatChunk (h : Fresh t ∨ Live t) (chunk : Json) : Tidy (t.processChatChunk chunk) := by
  have hlive : Live (t.behindDelta chunk) := (live_start h).moves (moves_behindDelta t chunk)
  rw [processChatChunk_eq]
  cases finishReason? chunk with
  | none => exact .live hlive
  | some reason => exact hlive.finished reason

theorem tidy_processFrame (h : Fresh t ∨ Live t) (frame : Frame) : Tidy (t.processFrame B frame) := by
  have hrest : Tidy t := h.elim .fresh .live
  have halive : t.terminated = false := h.elim Fresh.alive Live.alive
  rw [processFrame, if_neg (ne_true_of_eq_false halive)]
  cases frame.data with
  | blank => exact hrest
  | malformed => exact hrest
  | done =>
    rcases h with hfresh | hlive
    · show Tidy t.onDone
      rw [StreamTranslator.onDone, hfresh.openBlock]
      exact hrest
    · exact hlive.onDone
  | chunk chunk =>
    cases frame.eventName with
    | none => exact tidy_processChatChunk h chunk
    | some name =>
      dsimp only
      split_ifs
      · have hmodel : Fresh (t.noteModel name chunk) ∨ Live (t.noteModel name chunk) := by
          rcases h with hfresh | hlive
          · exact Or.inl (hfresh.noteModel name chunk)
          · rw [noteModel_started hlive.started]
            exact Or.inr hlive
        exact (live_start hmodel).onArm B chunk (armOf name)
      · exact tidy_processChatChunk h chunk

/-- A frame keeps the order, behind the end if it is mute. -/
theorem Tidy.step (h : Tidy t) {frame : Frame} (hmute : t.Over → t.Mute B frame) :
    Tidy (t.processFrame B frame) := by
  cases h with
  | fresh h => exact tidy_processFrame (Or.inl h) frame
  | live h => exact tidy_processFrame (Or.inr h) frame
  | ended hstarted halive hopen hover =>
    have hsame := (processFrame_behind hstarted halive hopen frame).1 (hmute hover)
    refine .ended (hsame.started.trans hstarted) (hsame.terminated.trans halive)
      (hsame.openBlock.trans hopen) ?_
    rwa [Over, hsame.events]
  | aborted hterminated hending =>
    rw [processFrame, if_pos hterminated]
    exact .aborted hterminated hending

theorem Tidy.step_breaks (h : Tidy t) {frame : Frame} (hover : t.Over) (hspeaks : ¬ t.Mute B frame) :
    ¬ WellOrdered (t.processFrame B frame).events := by
  have hgrew : Grew t (t.processFrame B frame) := by
    cases h with
    | fresh h =>
      rw [Over, h.events] at hover
      exact absurd hover (by decide)
    | live h => exact absurd hover h.not_over
    | ended hstarted halive hopen _ => exact (processFrame_behind hstarted halive hopen frame).2 hspeaks
    | aborted _ hending => exact absurd (hending.symm.trans hover) (by simp)
  obtain ⟨event, more, hmore⟩ := hgrew
  rw [hmore]
  exact not_wellOrdered_ended hover event more

/-! ### What was sent stays -/

/-- Events are added only. -/
def Extends (t u : StreamTranslator) : Prop := ∃ more, u.events = t.events ++ more

theorem Extends.trans (h : Extends t t') (h' : Extends t' u) : Extends t u := by
  obtain ⟨more, hmore⟩ := h
  obtain ⟨rest, hrest⟩ := h'
  exact ⟨more ++ rest, by rw [hrest, hmore, List.append_assoc]⟩

theorem Grew.extends (h : Grew t u) : Extends t u := by
  obtain ⟨event, more, hmore⟩ := h
  exact ⟨event :: more, hmore⟩

theorem extends_onCompleted (t : StreamTranslator) (chunk : Json) : Extends t (t.onCompleted chunk) := by
  by_cases hterminal : t.terminalEmitted = true
  · have hnote : (t.noteOutputTokens (responseUsage chunk)).terminalEmitted = true := hterminal
    obtain ⟨more, hmore⟩ := events_closeBlockFinal (t.noteOutputTokens (responseUsage chunk))
    rw [onCompleted, if_pos hnote, if_pos ((terminal_closeBlockFinal _).trans hnote)]
    exact ⟨more, hmore⟩
  · obtain ⟨u, stopReason, hmoves, heq⟩ := onCompleted_running (eq_false_of_ne_true hterminal) chunk
    rw [heq]
    exact Extends.trans hmoves.events (grew_endTurn u stopReason _).extends

theorem extends_onArm (t : StreamTranslator) (B : Base64) (chunk : Json) (arm : Arm) :
    Extends t (t.onArm B chunk arm) := by
  have hclosed : Extends t t.closeBlockFinal := events_closeBlockFinal t
  by_cases hgoes : arm.GoesOn
  · exact (moves_onArm t B chunk hgoes).events
  · by_cases hcompleted : arm = .completed
    · rw [hcompleted]
      exact extends_onCompleted t chunk
    · by_cases hfailed : arm = .failed
      · rw [hfailed]
        show Extends t (if t.terminated then t else t.onFailed chunk)
        rw [onFailed]
        split_ifs
        · exact ⟨[], (List.append_nil _).symm⟩
        · exact hclosed
        · exact hclosed.trans ⟨[_], rfl⟩
      · have hincomplete : arm = .incomplete := by
          by_contra hnot
          exact hgoes ⟨hcompleted, hfailed, hnot⟩
        rw [hincomplete]
        show Extends t (t.onIncomplete chunk)
        rw [onIncomplete]
        by_cases hterminal : t.closeBlockFinal.terminalEmitted = true
        · rw [if_pos hterminal]
          exact hclosed
        · rw [if_neg hterminal]
          exact (grew_endTurn t _ _).extends

theorem extends_start (t : StreamTranslator) : Extends t t.start := by
  rw [StreamTranslator.start]
  split
  · exact ⟨[], (List.append_nil _).symm⟩
  · exact ⟨[_], rfl⟩

theorem extends_processChatChunk (t : StreamTranslator) (chunk : Json) : Extends t (t.processChatChunk chunk) := by
  have hbehind : Extends t (t.behindDelta chunk) := (extends_start t).trans (moves_behindDelta t chunk).events
  rw [processChatChunk_eq]
  cases finishReason? chunk with
  | none => exact hbehind
  | some reason => exact hbehind.trans (grew_finished _ reason).extends

theorem extends_onDone (t : StreamTranslator) : Extends t t.onDone := by
  have hclosed : ∀ u : StreamTranslator, Extends u u.closeBlockFinal := events_closeBlockFinal
  rw [onDone]
  split_ifs
  · exact ⟨[], (List.append_nil _).symm⟩
  · rw [abortTerminal]
    split_ifs
    · exact ⟨[], (List.append_nil _).symm⟩
    · have hbefore : Extends t (if t.openBlock ≠ some .tool then
          ({ t with terminated := true }).closeBlockFinal else { t with terminated := true }) := by
        split
        · exact hclosed { t with terminated := true }
        · exact ⟨[], (List.append_nil _).symm⟩
      exact hbefore.trans ⟨[_], rfl⟩
  · exact (hclosed t).trans ⟨[_, _], List.append_assoc _ _ _⟩

theorem extends_processFrame (t : StreamTranslator) (B : Base64) (frame : Frame) :
    Extends t (t.processFrame B frame) := by
  have hsame : Extends t t := ⟨[], (List.append_nil _).symm⟩
  rw [processFrame]
  split_ifs
  · exact hsame
  · cases frame.data with
    | blank => exact hsame
    | malformed => exact hsame
    | done => exact extends_onDone t
    | chunk chunk =>
      cases frame.eventName with
      | none => exact extends_processChatChunk t chunk
      | some name =>
        dsimp only
        split_ifs
        · have hmodel : Extends t (t.noteModel name chunk) := by
            rw [StreamTranslator.noteModel]
            split <;> exact ⟨[], (List.append_nil _).symm⟩
          exact (hmodel.trans (extends_start _)).trans (extends_onArm _ B chunk (armOf name))
        · exact extends_processChatChunk t chunk

end StreamTranslator

/-! ### Streams -/

variable {B : Base64} {t : StreamTranslator}

/-- The translator behind the frames of a stream. -/
def runFrames (B : Base64) (t : StreamTranslator) (frames : List Frame) : StreamTranslator :=
  frames.foldl (StreamTranslator.processFrame B) t

theorem extends_runFrames (B : Base64) (t : StreamTranslator) (frames : List Frame) :
    StreamTranslator.Extends t (runFrames B t frames) := by
  induction frames generalizing t with
  | nil => exact ⟨[], (List.append_nil _).symm⟩
  | cons frame frames ih => exact (StreamTranslator.extends_processFrame t B frame).trans (ih _)

theorem wellOrdered_runFrames_iff (h : StreamTranslator.Tidy t) (frames : List Frame) :
    WellOrdered (runFrames B t frames).events ↔
      ∀ front frame rest, frames = front ++ frame :: rest → (runFrames B t front).Over →
        (runFrames B t front).Mute B frame := by
  induction frames generalizing t with
  | nil => exact ⟨fun _ front frame rest hnil => by simp at hnil, fun _ => h.wellOrdered⟩
  | cons frame frames ih =>
    by_cases hmute : t.Over → t.Mute B frame
    · refine (ih (h.step hmute)).trans ⟨fun hall front frame' rest heq => ?_, fun hall front frame' rest heq => ?_⟩
      · rcases List.cons_eq_append_iff.mp heq with ⟨rfl, hcons⟩ | ⟨front', rfl, hrest⟩
        · rw [List.cons.injEq] at hcons
          rw [hcons.1]
          exact hmute
        · exact hall front' frame' rest hrest
      · exact hall (frame :: front) frame' rest (by rw [heq, List.cons_append])
    · obtain ⟨hover, hspeaks⟩ := Classical.not_imp.mp hmute
      refine ⟨fun hordered => ?_, fun hall => ?_⟩
      · obtain ⟨more, hmore⟩ := extends_runFrames B (t.processFrame B frame) frames
        rw [runFrames, List.foldl_cons, ← runFrames, hmore] at hordered
        exact absurd hordered.of_append (h.step_breaks hover hspeaks)
      · exact absurd (hall [] frame frames rfl hover) hspeaks

theorem tidy_newTranslator (model : String) (toolAliases : Option ToolAlias) (reportTrueUsage : Bool) :
    StreamTranslator.Tidy { model, toolAliases, reportTrueUsage } :=
  .fresh ⟨rfl, rfl, rfl, rfl, rfl, rfl⟩

/-- The events of a stream keep the order exactly if nothing is said behind the end of the message. -/
theorem wellOrdered_iff (B : Base64) (model : String) (toolAliases : Option ToolAlias) (reportTrueUsage : Bool)
    (frames : List Frame) :
    WellOrdered (runFrames B { model, toolAliases, reportTrueUsage } frames).events ↔
      ∀ front frame rest, frames = front ++ frame :: rest →
        (runFrames B { model, toolAliases, reportTrueUsage } front).Over →
          (runFrames B { model, toolAliases, reportTrueUsage } front).Mute B frame :=
  wellOrdered_runFrames_iff (tidy_newTranslator model toolAliases reportTrueUsage) frames

/-- A chunk of Chat Completions that finishes. -/
def finishingChunk (reason : String) : Json :=
  .obj [("choices", .arr [.obj [("delta", .obj []), ("finish_reason", .str reason)]])]

/-- A second finish reason ends the message twice. -/
theorem not_wellOrdered_finishes :
    ¬ ∀ (B : Base64) (model : String) (frames : List Frame), WellOrdered (runFrames B { model } frames).events := by
  intro hall
  refine absurd (hall urlSafeNoPad "gpt-5"
    [⟨none, .chunk (finishingChunk "stop")⟩, ⟨none, .chunk (finishingChunk "stop")⟩]) ?_
  decide +kernel

end Headroom.OpenAi
