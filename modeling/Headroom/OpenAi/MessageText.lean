import Headroom.OpenAi.Blocks

/-!
# The text of message items

A message item brings its text by deltas, by an event with the whole text, or by the event that ends
the item; the ends may be held back. Whether an item was streamed is remembered in two flags of the
stream. As long as they tell the truth about the item at hand, its text is sent once and in order.

## Main results

* `sent_once` : what is sent is the text of the items, in order.
-/

open Foundation

namespace Headroom.OpenAi

open StreamTranslator

/-! ### Streams of message items -/

/-- A message item; a refusal is a text of its own kind. -/
structure Item where
  text : String
  refusal : Bool := false

/-- What an event of a stream is for. -/
inductive Label
  | delta (i : ℕ) (d : String)
  | whole (i : ℕ)
  | done (i : ℕ)
  | other
  deriving DecidableEq

/-- How far an item has come. -/
inductive Phase
  | waiting
  | streaming (part : List Char)
  | whole
  | done
  deriving DecidableEq

/-- The content of an item is not cut off by the content of the next. -/
def Phase.Over (phase : Phase) (item : Item) : Prop :=
  ∀ part, phase = .streaming part → part = item.text.toList

/-- What an item does next: its deltas, its whole text behind them or alone, and its end. -/
inductive Item.Next (item : Item) : Phase → Label → Phase → Prop
  | first (i : ℕ) (d : String) : Item.Next item .waiting (.delta i d) (.streaming d.toList)
  | delta (i : ℕ) (part : List Char) (d : String) :
      Item.Next item (.streaming part) (.delta i d) (.streaming (part ++ d.toList))
  | whole (i : ℕ) {phase : Phase} (h : phase = .waiting ∨ phase = .streaming item.text.toList) :
      Item.Next item phase (.whole i) .whole
  | done (i : ℕ) {phase : Phase} (h : phase ≠ .done) (hover : phase.Over item) :
      Item.Next item phase (.done i) .done

/-- The item that a label is about. -/
def Label.item? : Label → Option ℕ
  | .delta i _ | .whole i | .done i => some i
  | .other => none

/-- The order of the stream: contents in the order of the items, ends in the order of the items. -/
def InOrder (items : List Item) (phases : ℕ → Phase) : Label → Prop
  | .delta i _ | .whole i =>
    (∀ j, i < j → phases j = .waiting) ∧ ∀ j < i, ∀ item, items[j]? = some item → (phases j).Over item
  | .done i => ∀ j < i, phases j = .done
  | .other => True

/-- An event that brings no text of a message. -/
def Textless (name : String) (chunk : Json) : Prop :=
  armOf name ∉ [.outputTextDelta, .outputTextDone, .refusalDelta, .refusalDone] ∧
    ¬ (armOf name = .outputItemDone ∧ itemType chunk = some "message")

/-- The event is one of the Responses API. -/
def IsResponses (name : String) : Prop :=
  "response.".toList <+: name.toList ∨ "output_".toList <+: name.toList

instance (name : String) : Decidable (IsResponses name) := inferInstanceAs (Decidable (_ ∨ _))

/-- What an event carries for its item. -/
def Item.Carries (item : Item) (name : String) (chunk : Json) : Label → Prop
  | .delta _ d =>
    armOf name = (if item.refusal then .refusalDelta else .outputTextDelta) ∧
      deltaOf chunk = d
  | .whole _ =>
    armOf name = (if item.refusal then .refusalDone else .outputTextDone) ∧
      chunk.getStr? (if item.refusal then "refusal" else "text") = some item.text
  | .done _ =>
    armOf name = .outputItemDone ∧ itemType chunk = some "message" ∧
      messageText (itemOf chunk) = item.text
  | .other => False

/-- An event of a stream, with what it is for. -/
structure Labelled where
  label : Label
  name : String
  chunk : Json

/-- The streams that bring the items, with how far every item has come. -/
inductive Upstream (items : List Item) : (ℕ → Phase) → List Labelled → Prop
  | nil : Upstream items (fun _ => .waiting) []
  | other {phases : ℕ → Phase} {stream : List Labelled} {name : String} {chunk : Json}
      (h : Upstream items phases stream) (hname : IsResponses name) (htext : Textless name chunk) :
      Upstream items phases (stream ++ [⟨.other, name, chunk⟩])
  | item {phases : ℕ → Phase} {stream : List Labelled} {label : Label} {name : String} {chunk : Json}
      {i : ℕ} {item : Item} {phase : Phase} (h : Upstream items phases stream)
      (hname : IsResponses name) (hlabel : label.item? = some i) (hitem : items[i]? = some item)
      (hcarries : item.Carries name chunk label) (horder : InOrder items phases label)
      (hnext : item.Next (phases i) label phase) :
      Upstream items (Function.update phases i phase) (stream ++ [⟨label, name, chunk⟩])

/-- A stream that brings all items to their ends. -/
def Brings (items : List Item) (stream : List Labelled) : Prop :=
  ∃ phases, Upstream items phases stream ∧ ∀ i < items.length, phases i = .done

/-! ### What was sent -/

/-- The translator, with what it has sent of every item. -/
structure Ledger where
  t : StreamTranslator
  sent : ℕ → List Char := fun _ => []

/-- One event. What it adds to the text counts for its item. -/
def Ledger.step (B : Base64) (s : Ledger) (event : Labelled) : Ledger :=
  let t := s.t.processFrame B ⟨some event.name, .chunk event.chunk⟩
  { t
    sent := match event.label.item? with
      | some i => Function.update s.sent i (s.sent i ++ t.text.drop s.t.text.length)
      | none => s.sent }

/-- A turn of a model. -/
def newTranslator (model : String) (toolAliases : Option ToolAlias) (reportTrueUsage : Bool) :
    StreamTranslator := { model, toolAliases, reportTrueUsage }

/-- The ledger behind a stream. -/
def Ledger.run (B : Base64) (t : StreamTranslator) (stream : List Labelled) : Ledger :=
  stream.foldl (Ledger.step B) { t }

/-- The flag that an event with the whole text looks at. -/
def Item.flag (item : Item) (t : StreamTranslator) : Bool :=
  if item.refusal then t.sawRefusalDelta else t.sawTextDelta

/-- The flags tell what was sent. At an event with the whole text, that of a text that was sent is
set. At the end of an item, one is set if the text was sent; otherwise none is, and no later item
was sent before. -/
def Truthful (items : List Item) (s : Ledger) : Label → Prop
  | .whole i => ∀ item, items[i]? = some item → s.sent i ≠ [] → item.flag s.t = true
  | .done i => ∀ item, items[i]? = some item → item.text ≠ "" →
    if s.sent i = [] then
      s.t.sawTextDelta = false ∧ s.t.sawRefusalDelta = false ∧ ∀ j, i < j → s.sent j = []
    else s.t.sawTextDelta = true ∨ s.t.sawRefusalDelta = true
  | _ => True

/-- The flags tell the truth at every event of a stream. -/
def AlwaysTruthful (B : Base64) (items : List Item) (t : StreamTranslator) (stream : List Labelled) : Prop :=
  ∀ front event rest, stream = front ++ event :: rest → Truthful items (Ledger.run B t front) event.label

/-! ### The text of an event -/

namespace StreamTranslator

variable {t : StreamTranslator} {B : Base64} {name : String} {chunk : Json}

theorem text_emitArgs (t : StreamTranslator) (args : String) : (t.emitArgs args).text = t.text :=
  (text_emitDelta t _).trans (List.append_nil _)

theorem text_recoverUnannouncedCall (t : StreamTranslator) (chunk : Json) :
    (t.recoverUnannouncedCall chunk).text = t.text := by
  rw [recoverUnannouncedCall]
  split
  · exact (text_emitArgs _ _).trans (text_startCall _ _ _)
  · exact text_startCall _ _ _

theorem text_onFunctionCallDone (t : StreamTranslator) (chunk : Json) :
    (t.onFunctionCallDone chunk).text = t.text := by
  rw [onFunctionCallDone]
  split
  · split
    · exact text_closeBlock t
    · rfl
  · rw [text_closeBlockIf]
    split
    · rfl
    · exact text_recoverUnannouncedCall t chunk

theorem text_onReasoningDone (t : StreamTranslator) (B : Base64) (chunk : Json) :
    (t.onReasoningDone B chunk).text = t.text := by
  rw [onReasoningDone]
  split
  · split
    · rfl
    · rw [text_closeBlock, text_emitDelta, text_ensureBlock]
      exact List.append_nil _
  · rfl

theorem text_recoverUnstreamedCall (t : StreamTranslator) (item : Json) :
    (t.recoverUnstreamedCall item).text = t.text := by
  rw [recoverUnstreamedCall]
  split_ifs
  · rfl
  · rfl
  · split
    · rw [text_closeBlock, text_emitDelta]
      exact (List.append_nil _).trans (text_startCall _ _ _)
    · rw [text_closeBlock]
      exact text_startCall _ _ _

theorem text_recoverUnstreamedCalls (t : StreamTranslator) (chunk : Json) :
    (t.recoverUnstreamedCalls chunk).text = t.text := by
  rw [recoverUnstreamedCalls]
  generalize ((chunk.get? "response").bind (Json.getArr? "output")).getD [] = output
  induction output generalizing t with
  | nil => rfl
  | cons item output ih => rw [List.foldl_cons, ih, text_recoverUnstreamedCall]

theorem text_endTurn (t : StreamTranslator) (stopReason : String) (usage : Option Json) :
    (t.endTurn stopReason usage).text = t.text :=
  (text_emit _ _).trans ((List.append_nil _).trans ((text_emit _ _).trans (List.append_nil _)))

theorem text_onCompleted (t : StreamTranslator) (chunk : Json) : (t.onCompleted chunk).text = t.text := by
  have hend : ∀ t' : StreamTranslator, t'.text = t.text →
      (if t'.closeBlockFinal.terminalEmitted then t'.closeBlockFinal
      else t'.closeBlockFinal.endTurn (t'.closeBlockFinal.completedStopReason chunk)
        (responseUsage chunk)).text = t.text := by
    intro t' ht'
    split_ifs
    · exact (text_closeBlockFinal t').trans ht'
    · exact (text_endTurn _ _ _).trans ((text_closeBlockFinal t').trans ht')
  rw [onCompleted]
  split
  · exact hend _ rfl
  · exact hend _ (text_recoverUnstreamedCalls _ chunk)

theorem text_onFailed (t : StreamTranslator) (chunk : Json) : (t.onFailed chunk).text = t.text := by
  rw [onFailed]
  split_ifs
  · exact text_closeBlockFinal t
  · exact (text_emit _ _).trans ((List.append_nil _).trans (text_closeBlockFinal t))

theorem text_onIncomplete (t : StreamTranslator) (chunk : Json) : (t.onIncomplete chunk).text = t.text := by
  rw [onIncomplete]
  split_ifs
  · exact text_closeBlockFinal t
  · exact (text_endTurn _ _ _).trans (text_closeBlockFinal t)
  · exact (text_endTurn _ _ _).trans (text_closeBlockFinal t)

theorem text_onArm (h : Textless name chunk) : (t.onArm B chunk (armOf name)).text = t.text := by
  obtain ⟨harm, hdone⟩ := h
  cases hname : armOf name with
  | outputTextDelta => exact absurd (hname ▸ harm) (by simp)
  | outputTextDone => exact absurd (hname ▸ harm) (by simp)
  | refusalDelta => exact absurd (hname ▸ harm) (by simp)
  | refusalDone => exact absurd (hname ▸ harm) (by simp)
  | reasoningDelta =>
    show (t.onReasoningDelta chunk).text = t.text
    rw [onReasoningDelta]
    split
    · exact (text_emitDelta _ _).trans ((List.append_nil _).trans (text_ensureBlock t _))
    · rfl
  | summaryPartAdded => exact text_closeBlockIf t _
  | outputItemAdded =>
    show (t.onOutputItemAdded chunk).text = t.text
    rw [onOutputItemAdded]
    split_ifs
    · exact text_startCall t _ _
    · rfl
    · rfl
  | functionArgsDelta =>
    show (t.onFunctionArgsDelta chunk).text = t.text
    rw [onFunctionArgsDelta]
    split
    · split_ifs
      · exact text_emitArgs t _
      · rfl
    · rfl
  | functionArgsDone =>
    show (t.onFunctionArgsDone chunk).text = t.text
    rw [onFunctionArgsDone]
    split
    · split_ifs
      · exact text_emitArgs t _
      · rfl
    · rfl
  | outputItemDone =>
    show (t.onOutputItemDone B chunk).text = t.text
    rw [onOutputItemDone]
    split_ifs with hcall hmessage
    · exact text_onFunctionCallDone t chunk
    · exact absurd ⟨hname, hmessage⟩ hdone
    · exact text_onReasoningDone t B chunk
    · rfl
  | completed => exact text_onCompleted t chunk
  | failed =>
    show (if t.terminated then t else t.onFailed chunk).text = t.text
    split_ifs
    · rfl
    · exact text_onFailed t chunk
  | incomplete => exact text_onIncomplete t chunk
  | unhandled => rfl

variable {i : ℕ}

theorem text_onArm_delta {item : Item} {d : String} (h : item.Carries name chunk (.delta i d)) :
    (t.onArm B chunk (armOf name)).text = t.text ++ d.toList := by
  obtain ⟨harm, rfl⟩ := h
  rw [harm]
  split_ifs
  · show (t.onRefusalDelta chunk).text = _
    rw [onRefusalDelta]
    split_ifs with hempty
    · rw [hempty]
      exact (List.append_nil _).symm
    · exact (text_emitDelta _ _).trans (congrArg (· ++ _) (text_ensureBlock t _))
  · show (t.onOutputTextDelta chunk).text = _
    rw [onOutputTextDelta]
    split_ifs with hempty
    · rw [hempty]
      exact (List.append_nil _).symm
    · exact (text_emitDelta _ _).trans (congrArg (· ++ _) (text_ensureBlock t _))

theorem nonEmptyField_of_getStr? {key text : String} (h : chunk.getStr? key = some text) :
    nonEmptyField key chunk = if text = "" then none else some text := by
  rw [nonEmptyField, h, Option.filter]
  split_ifs <;> simp_all

theorem text_onArm_whole {item : Item} (h : item.Carries name chunk (.whole i)) :
    (t.onArm B chunk (armOf name)).text =
      if item.flag t then t.text else t.text ++ item.text.toList := by
  obtain ⟨harm, hfield⟩ := h
  have hread := nonEmptyField_of_getStr? hfield
  rw [harm, Item.flag]
  by_cases hempty : item.text = ""
  · rw [if_pos hempty] at hread
    have hnone : t.text ++ item.text.toList = t.text := by
      rw [hempty]
      exact List.append_nil _
    rw [hnone, ite_self]
    split_ifs at hread ⊢
    · show (t.onRefusalDone chunk).text = _
      rw [onRefusalDone, hread]
    · show (t.onOutputTextDone chunk).text = _
      rw [onOutputTextDone, hread]
  · rw [if_neg hempty] at hread
    by_cases hrefusal : item.refusal = true
    · rw [if_pos hrefusal] at hread ⊢
      rw [if_pos hrefusal]
      show (t.onRefusalDone chunk).text = _
      rw [onRefusalDone, hread]
      dsimp only
      split_ifs
      · rfl
      · exact text_wholeText t item.text
    · rw [if_neg hrefusal] at hread ⊢
      rw [if_neg hrefusal]
      show (t.onOutputTextDone chunk).text = _
      rw [onOutputTextDone, hread]
      dsimp only
      split_ifs
      · rfl
      · exact text_wholeText t item.text

theorem text_onArm_done {item : Item} (h : item.Carries name chunk (.done i)) :
    (t.onArm B chunk (armOf name)).text =
      if t.sawTextDelta || t.sawRefusalDelta then t.text else t.text ++ item.text.toList := by
  obtain ⟨harm, htype, htext⟩ := h
  have hmessage : (t.onMessageDone chunk).text =
      if t.sawTextDelta || t.sawRefusalDelta then t.text else t.text ++ item.text.toList := by
    rw [onMessageDone, htext]
    by_cases hflags : (t.sawTextDelta || t.sawRefusalDelta) = true
    · rw [if_pos hflags, if_neg]
      · rfl
      · rintro h
        rw [Bool.and_eq_true, Bool.and_eq_true, Bool.not_eq_true', Bool.not_eq_true'] at h
        rw [h.1.1, h.1.2] at hflags
        exact absurd hflags (by decide)
    · rw [if_neg hflags]
      rw [Bool.or_eq_true, not_or, Bool.not_eq_true, Bool.not_eq_true] at hflags
      rw [hflags.1, hflags.2]
      by_cases hempty : item.text = ""
      · rw [hempty]
        exact (List.append_nil _).symm
      · rw [if_pos (by simpa using hempty)]
        exact text_wholeText t item.text
  rw [harm, ← hmessage]
  show (t.onOutputItemDone B chunk).text = _
  rw [onOutputItemDone, if_neg (by rw [htype]; decide), if_pos htype]

/-- What a frame adds to the text. -/
theorem text_processFrame (ht : t.terminated = false) (hname : IsResponses name) :
    ∃ t' : StreamTranslator, t'.text = t.text ∧ t'.sawTextDelta = t.sawTextDelta ∧
      t'.sawRefusalDelta = t.sawRefusalDelta ∧ t'.terminated = false ∧
        t.processFrame B ⟨some name, .chunk chunk⟩ = t'.onArm B chunk (armOf name) := by
  have hmodel : ∀ u : StreamTranslator, u = t.noteModel name chunk → u.text = t.text ∧
      u.sawTextDelta = t.sawTextDelta ∧ u.sawRefusalDelta = t.sawRefusalDelta ∧ u.terminated = false := by
    rintro u rfl
    rw [noteModel]
    split <;> exact ⟨rfl, rfl, rfl, ht⟩
  obtain ⟨htext, hdelta, hrefusal, halive⟩ := hmodel _ rfl
  refine ⟨(t.noteModel name chunk).start, ?_, ?_, ?_, ?_, ?_⟩
  · rw [start]
    split
    · exact htext
    · exact (text_emit _ _).trans ((List.append_nil _).trans htext)
  · rw [start]
    split <;> exact hdelta
  · rw [start]
    split <;> exact hrefusal
  · rw [start]
    split <;> exact halive
  · rw [processFrame, if_neg (by rw [ht]; decide)]
    exact if_pos hname

end StreamTranslator

/-! ### What the stream leaves true -/

/-- What may have been sent of an item in a phase. -/
def Phase.Allows (item : Item) (sent : List Char) : Phase → Prop
  | .waiting => sent = []
  | .streaming part => sent = part
  | .whole => sent = [] ∨ sent = item.text.toList
  | .done => sent = item.text.toList

/-- The text is what was sent of the items, in order. -/
structure Ledger.Sound (items : List Item) (phases : ℕ → Phase) (s : Ledger) : Prop where
  alive : s.t.terminated = false
  text : s.t.text = (List.range items.length).flatMap s.sent
  phase : ∀ i item, items[i]? = some item → (phases i).Allows item (s.sent i)
  beyond : ∀ i, items.length ≤ i → s.sent i = []

section Sound

variable {items : List Item} {phases : ℕ → Phase} {s : Ledger} {B : Base64} {name : String} {chunk : Json}

variable {i : ℕ}

theorem flatMap_update {sent : ℕ → List Char} {n i : ℕ} (add : List Char) (hi : i < n)
    (hlater : add = [] ∨ ∀ j, i < j → sent j = []) :
    (List.range n).flatMap (Function.update sent i (sent i ++ add)) =
      (List.range n).flatMap sent ++ add := by
  rcases hlater with rfl | hlater
  · rw [List.append_nil, List.append_nil, Function.update_eq_self]
  induction n with
  | zero => exact absurd hi (Nat.not_lt_zero i)
  | succ n ih =>
    rw [List.range_succ, List.flatMap_append, List.flatMap_append, List.flatMap_singleton,
      List.flatMap_singleton]
    rcases Nat.lt_succ_iff_lt_or_eq.mp hi with hi | rfl
    · rw [ih hi, Function.update_of_ne (Nat.ne_of_gt hi), hlater n hi, List.append_nil, List.append_nil]
    · rw [Function.update_self, ← List.append_assoc]
      refine congrArg (· ++ sent i ++ add) (List.flatMap_congr fun j hj => ?_)
      exact Function.update_of_ne (Nat.ne_of_lt (List.mem_range.mp hj)) _ _

/-- An event of an item that adds to the text adds to the item. -/
theorem Ledger.Sound.item (h : s.Sound items phases) {label : Label} {item : Item} {phase : Phase}
    {a : List Char} (hname : IsResponses name) (hlabel : label.item? = some i)
    (hitem : items[i]? = some item)
    (htext : (s.t.processFrame B ⟨some name, .chunk chunk⟩).text = s.t.text ++ a)
    (hlater : a = [] ∨ ∀ j, i < j → s.sent j = []) (hphase : phase.Allows item (s.sent i ++ a)) :
    (s.step B ⟨label, name, chunk⟩).Sound items (Function.update phases i phase) := by
  have hi : i < items.length := (List.getElem?_eq_some_iff.mp hitem).1
  have hsent : (s.step B ⟨label, name, chunk⟩).sent = Function.update s.sent i (s.sent i ++ a) := by
    show (match label.item? with | some i => _ | none => _) = _
    rw [hlabel, htext, List.drop_left]
  refine ⟨?_, ?_, ?_, ?_⟩
  · obtain ⟨t', -, -, -, halive, hframe⟩ := @text_processFrame _ B _ chunk h.alive hname
    show (s.t.processFrame B ⟨some name, .chunk chunk⟩).terminated = false
    rw [hframe, terminated_onArm, halive]
  · rw [hsent, flatMap_update a hi hlater, ← h.text]
    exact htext
  · intro j item' hj
    rw [hsent]
    by_cases hji : j = i
    · subst hji
      obtain rfl := Option.some.inj (hitem.symm.trans hj)
      rw [Function.update_self, Function.update_self]
      exact hphase
    · rw [Function.update_of_ne hji, Function.update_of_ne hji]
      exact h.phase j item' hj
  · intro j hj
    rw [hsent, Function.update_of_ne (Nat.ne_of_gt (Nat.lt_of_lt_of_le hi hj))]
    exact h.beyond j hj

theorem Ledger.Sound.later (h : s.Sound items phases) (hwaiting : ∀ j, i < j → phases j = .waiting)
    (j : ℕ) (hj : i < j) : s.sent j = [] := by
  rcases Nat.lt_or_ge j items.length with hlt | hge
  · have hphase := h.phase j _ (List.getElem?_eq_getElem hlt)
    rw [hwaiting j hj] at hphase
    exact hphase
  · exact h.beyond j hge

theorem Ledger.Sound.nil_or_text (h : s.Sound items phases) {item : Item}
    (hitem : items[i]? = some item) (hover : (phases i).Over item) :
    s.sent i = [] ∨ s.sent i = item.text.toList := by
  have hphase := h.phase i item hitem
  cases hi : phases i with
  | waiting => exact Or.inl (by rwa [hi] at hphase)
  | streaming part =>
    rw [hi] at hphase
    exact Or.inr (hphase.trans (hover part hi))
  | whole => rwa [hi] at hphase
  | done => exact Or.inr (by rwa [hi] at hphase)

theorem Ledger.Sound.step_item (h : s.Sound items phases) {label : Label} {item : Item}
    {phase : Phase} (hname : IsResponses name) (hlabel : label.item? = some i)
    (hitem : items[i]? = some item) (hcarries : item.Carries name chunk label)
    (horder : InOrder items phases label) (hnext : item.Next (phases i) label phase)
    (htruthful : Truthful items s label) :
    (s.step B ⟨label, name, chunk⟩).Sound items (Function.update phases i phase) := by
  obtain ⟨t', htext, hdelta, hrefusal, -, hframe⟩ :=
    @text_processFrame _ B _ chunk h.alive hname
  have hphase := h.phase i item hitem
  cases label with
  | other => exact absurd hlabel.symm (Option.some_ne_none i)
  | delta i' d =>
    obtain rfl := Option.some.inj hlabel
    refine h.item hname hlabel hitem (a := d.toList) ?_ (Or.inr (h.later horder.1)) ?_
    · rw [hframe, text_onArm_delta hcarries, htext]
    · generalize phases i' = before at hnext hphase
      cases hnext with
      | first => exact congrArg (· ++ d.toList) hphase
      | delta _ part => exact congrArg (· ++ d.toList) hphase
  | whole i' =>
    obtain rfl := Option.some.inj hlabel
    have hover : (phases i').Over item := by
      generalize phases i' = before at hnext
      cases hnext with
      | whole _ hbefore =>
        rintro part rfl
        rcases hbefore with hbefore | hbefore
        · exact absurd hbefore (by simp)
        · exact Phase.streaming.inj hbefore
    have hwhole : phase = .whole := by
      generalize phases i' = before at hnext
      cases hnext
      rfl
    have hsent := h.nil_or_text hitem hover
    have hflag : item.flag t' = item.flag s.t := by
      rw [Item.flag, Item.flag, hdelta, hrefusal]
    subst hwhole
    by_cases hset : item.flag s.t = true
    · refine h.item hname hlabel hitem (a := []) ?_ (Or.inl rfl) ?_
      · rw [hframe, text_onArm_whole hcarries, hflag, if_pos hset, htext, List.append_nil]
      · rw [List.append_nil]
        exact hsent
    · have hnil : s.sent i' = [] := by
        by_contra hne
        exact hset (htruthful item hitem hne)
      refine h.item hname hlabel hitem (a := item.text.toList) ?_ (Or.inr (h.later horder.1)) ?_
      · rw [hframe, text_onArm_whole hcarries, hflag, if_neg hset, htext]
      · rw [hnil]
        exact Or.inr rfl
  | done i' =>
    obtain rfl := Option.some.inj hlabel
    obtain ⟨hover, rfl⟩ : (phases i').Over item ∧ phase = .done := by
      generalize phases i' = before at hnext
      cases hnext with
      | done _ _ hover => exact ⟨hover, rfl⟩
    have hsent := h.nil_or_text hitem hover
    have hends := text_onArm_done (t := t') (B := B) hcarries
    rw [hdelta, hrefusal, htext, ← hframe] at hends
    by_cases hempty : item.text = ""
    · have hnil : item.text.toList = [] := by rw [hempty]; rfl
      rw [hnil, or_self] at hsent
      rw [hnil, List.append_nil, ite_self] at hends
      refine h.item hname hlabel hitem (a := []) (hends.trans (List.append_nil _).symm) (Or.inl rfl) ?_
      exact (List.append_nil _).trans (hsent.trans hnil.symm)
    · have htruth := htruthful item hitem hempty
      split_ifs at htruth with hnil
      · obtain ⟨hdelta', hrefusal', hlater⟩ := htruth
        rw [hdelta', hrefusal'] at hends
        refine h.item hname hlabel hitem hends (Or.inr hlater) ?_
        exact congrArg (· ++ item.text.toList) hnil
      · rw [if_pos (by simpa using htruth)] at hends
        refine h.item hname hlabel hitem (a := []) (hends.trans (List.append_nil _).symm) (Or.inl rfl) ?_
        exact (List.append_nil _).trans (hsent.resolve_left hnil)

theorem sound_run {t : StreamTranslator} {stream : List Labelled} (ht : t.text = [])
    (halive : t.terminated = false) (h : Upstream items phases stream)
    (htruthful : AlwaysTruthful B items t stream) : (Ledger.run B t stream).Sound items phases := by
  have hfront : ∀ {stream : List Labelled} {event : Labelled},
      AlwaysTruthful B items t (stream ++ [event]) → AlwaysTruthful B items t stream := by
    intro stream event h front e rest hsplit
    refine h front e (rest ++ [event]) ?_
    rw [hsplit, List.append_assoc]
    rfl
  have hrun : ∀ (stream : List Labelled) (event : Labelled),
      Ledger.run B t (stream ++ [event]) = (Ledger.run B t stream).step B event := by
    intro stream event
    rw [Ledger.run, List.foldl_append]
    rfl
  induction h with
  | nil =>
    refine ⟨halive, ht.trans ?_, fun _ _ _ => rfl, fun _ _ => rfl⟩
    exact (List.flatMap_eq_nil_iff.mpr fun _ _ => rfl).symm
  | @other phases stream name chunk _ hname htext ih =>
    have hsound := ih (hfront htruthful)
    obtain ⟨t', htext', -, -, halive', hframe⟩ :=
      @text_processFrame _ B _ chunk hsound.alive hname
    rw [hrun]
    refine ⟨?_, ?_, hsound.phase, hsound.beyond⟩
    · show ((Ledger.run B t stream).t.processFrame B ⟨some name, .chunk chunk⟩).terminated = false
      rw [hframe, terminated_onArm, halive']
    · show ((Ledger.run B t stream).t.processFrame B ⟨some name, .chunk chunk⟩).text = _
      rw [hframe, text_onArm htext, htext']
      exact hsound.text
  | item _ hname hlabel hitem hcarries horder hnext ih =>
    have hsound := ih (hfront htruthful)
    rw [hrun]
    exact hsound.step_item hname hlabel hitem hcarries horder hnext (htruthful _ _ [] rfl)

/-- What is sent is the text of the items, in order. -/
theorem sent_once (B : Base64) (items : List Item) (model : String) (toolAliases : Option ToolAlias)
    (reportTrueUsage : Bool) (stream : List Labelled) (h : Brings items stream)
    (htruthful : AlwaysTruthful B items (newTranslator model toolAliases reportTrueUsage) stream) :
    (Ledger.run B (newTranslator model toolAliases reportTrueUsage) stream).t.text =
      items.flatMap fun item => item.text.toList := by
  obtain ⟨phases, hup, hdone⟩ := h
  have hsound := sound_run rfl rfl hup htruthful
  rw [hsound.text]
  have hsent : ∀ i (hi : i < items.length),
      (Ledger.run B (newTranslator model toolAliases reportTrueUsage) stream).sent i =
        items[i].text.toList := by
    intro i hi
    have hphase := hsound.phase i _ (List.getElem?_eq_getElem hi)
    rwa [hdone i hi] at hphase
  rw [List.flatMap_def, List.flatMap_def]
  refine congrArg List.flatten (List.ext_getElem (by simp) fun i hi _ => ?_)
  rw [List.length_map, List.length_range] at hi
  rw [List.getElem_map, List.getElem_map, List.getElem_range]
  exact hsent i hi

end Sound

/-! ### Two streams -/

/-- The events of a text item, as the provider names them. -/
def textDelta (i : ℕ) (d : String) : Labelled :=
  ⟨.delta i d, "response.output_text.delta", .obj [("delta", .str d)]⟩

def messageDone (i : ℕ) (text : String) : Labelled :=
  ⟨.done i, "response.output_item.done", .obj [("item", .obj [("type", .str "message"),
    ("content", .arr [.obj [("type", .str "output_text"), ("text", .str text)]])])]⟩

theorem Upstream.textDelta {items : List Item} {phases : ℕ → Phase} {stream : List Labelled} {i : ℕ}
    {text d : String} {phase : Phase} (h : Upstream items phases stream)
    (hitem : items[i]? = some ⟨text, false⟩) (horder : InOrder items phases (.delta i d))
    (hnext : Item.Next ⟨text, false⟩ (phases i) (.delta i d) phase) :
    Upstream items (Function.update phases i phase) (stream ++ [OpenAi.textDelta i d]) :=
  have harm : armOf "response.output_text.delta" = .outputTextDelta := by decide
  h.item (by decide) rfl hitem ⟨harm, rfl⟩ horder hnext

theorem Upstream.messageDone {items : List Item} {phases : ℕ → Phase} {stream : List Labelled} {i : ℕ}
    {text : String} {phase : Phase} (h : Upstream items phases stream)
    (hitem : items[i]? = some ⟨text, false⟩) (horder : InOrder items phases (.done i))
    (hnext : Item.Next ⟨text, false⟩ (phases i) (.done i) phase) :
    Upstream items (Function.update phases i phase) (stream ++ [OpenAi.messageDone i text]) :=
  h.item (by decide) rfl hitem ⟨by decide, rfl, String.empty_append⟩ horder hnext

/-- A codec that is not used. -/
def noBase64 : Base64 := ⟨fun _ => "", fun _ => none⟩

/-- An item that comes by deltas. -/
def plain : List Labelled := [textDelta 0 "a", messageDone 0 "a"]

theorem brings_plain : Brings [⟨"a", false⟩] plain := by
  have h0 : Upstream [⟨"a", false⟩] (fun _ => .waiting) [] := .nil
  have h1 := h0.textDelta (i := 0) rfl
    ⟨fun _ _ => rfl, fun j hj => absurd hj (Nat.not_lt_zero j)⟩ (.first 0 "a")
  have h2 := h1.messageDone (i := 0) rfl (fun j hj => absurd hj (Nat.not_lt_zero j))
    (.done 0 (by decide) fun part hpart => (Phase.streaming.inj hpart).symm)
  exact ⟨_, h2, by decide⟩

theorem alwaysTruthful_plain :
    AlwaysTruthful noBase64 [⟨"a", false⟩] (newTranslator "m" none false) plain := by
  intro front event rest h
  rcases front with _ | ⟨first, _ | ⟨second, front⟩⟩
  · obtain ⟨rfl, -⟩ := List.cons.inj h
    exact trivial
  · obtain ⟨hfirst, h⟩ := List.cons.inj h
    obtain ⟨rfl, -⟩ := List.cons.inj h
    rw [← hfirst]
    intro item hitem _
    have hsent : (Ledger.run noBase64 (newTranslator "m" none false) [textDelta 0 "a"]).sent 0 ≠ [] := by
      decide +kernel
    rw [if_neg hsent]
    exact Or.inl (by decide +kernel)
  · have hlength := congrArg List.length h
    simp [plain] at hlength

theorem sent_once_plain : (Ledger.run noBase64 (newTranslator "m" none false) plain).t.text = ['a'] :=
  sent_once noBase64 [⟨"a", false⟩] "m" none false plain brings_plain alwaysTruthful_plain

/-- Two items that come by deltas, and then both ends. -/
def heldBack : List Labelled := [textDelta 0 "a", textDelta 1 "b", messageDone 0 "a", messageDone 1 "b"]

theorem brings_heldBack : Brings [⟨"a", false⟩, ⟨"b", false⟩] heldBack := by
  have h0 : Upstream [⟨"a", false⟩, ⟨"b", false⟩] (fun _ => .waiting) [] := .nil
  have h1 := h0.textDelta (i := 0) rfl
    ⟨fun _ _ => rfl, fun j hj => absurd hj (Nat.not_lt_zero j)⟩ (.first 0 "a")
  have h2 := h1.textDelta (i := 1) rfl
    ⟨fun j hj => Function.update_of_ne (by omega) _ _, fun j hj item hitem part hpart => by
      obtain rfl : j = 0 := by omega
      obtain rfl := Option.some.inj hitem
      exact (Phase.streaming.inj hpart).symm⟩ (.first 1 "b")
  have h3 := h2.messageDone (i := 0) rfl (fun j hj => absurd hj (Nat.not_lt_zero j))
    (.done 0 (by decide) fun part hpart => (Phase.streaming.inj hpart).symm)
  have h4 := h3.messageDone (i := 1) rfl
    (fun j hj => by
      obtain rfl : j = 0 := by omega
      rfl) (.done 1 (by decide) fun part hpart => (Phase.streaming.inj hpart).symm)
  exact ⟨_, h4, by decide⟩

/-- The text of the second item is sent twice. -/
theorem not_sent_once_heldBack : ¬ ∀ (B : Base64) (items : List Item) (stream : List Labelled),
    Brings items stream → (Ledger.run B (newTranslator "" none false) stream).t.text =
      items.flatMap fun item => item.text.toList := by
  intro h
  have hequal := h noBase64 _ _ brings_heldBack
  revert hequal
  decide +kernel

end Headroom.OpenAi
