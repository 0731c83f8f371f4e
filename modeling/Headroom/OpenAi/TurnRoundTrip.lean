import Mathlib.Data.List.Chain
import Headroom.OpenAi.ToolDelivery
import Headroom.OpenAi.TurnStream

/-!
# A turn there and back

The client holds the blocks of a streamed turn and sends them with its next request. What comes back is
the turn, item by item, where a newline stands between messages that are neighbours; but a message that
came by deltas leaves its block open, and its neighbour is glued to it without the newline.

## Main results

* `roundTrip_iff` : so does what comes back of a stream.
-/

open Foundation

namespace Headroom.OpenAi

open StreamTranslator

/-! ### What should come back -/

/-- What a block of its own keeps of an item; a call has the name by which the client knows it. -/
def TurnItem.kept (aliases : Option ToolAlias) : TurnItem → Kept
  | .reasoning replay => .reasoning replay
  | .message item => .text item.text.toList
  | .call c => .call c.id (restoreName aliases c.name) c.args.toList

/-- The items of a turn, with neighbouring messages joined by a newline. -/
def wanted (parse : String → Option Json) (aliases : Option ToolAlias) (past : List (TurnItem × Bool)) :
    List Returned :=
  regroup parse (past.map fun item => item.1.kept aliases)

/-- What comes back of the blocks of an assistant's message. -/
def comesBack (B : Base64) (parse : String → Option Json) (blocks : List Block) : List (Option Returned) :=
  (responsesInput B (.obj [("messages", .arr [assistantMessage parse blocks])])).map (readBack parse)

/-- Whether an item is a message. -/
def TurnItem.IsMessage : TurnItem → Prop
  | .message _ => True
  | _ => False

instance (item : TurnItem) : Decidable item.IsMessage := by
  cases item with
  | reasoning replay => exact .isFalse not_false
  | message item => exact .isTrue trivial
  | call c => exact .isFalse not_false

/-- A message that came by deltas, and a message behind it. -/
def Glued (a b : TurnItem × Bool) : Prop := a.1.IsMessage ∧ a.2 = true ∧ b.1.IsMessage

/-- No message that came by deltas has a message behind it. -/
def Separated (past : List (TurnItem × Bool)) : Prop := past.IsChain fun a b => ¬ Glued a b

/-! ### How long the messages are -/

/-- The characters of a message. -/
def Returned.size : Returned → ℕ
  | .message content => content.toList.length
  | _ => 0

namespace Sheet

/-- The characters of the messages, those that wait for the next item included. -/
def size (s : Sheet) : ℕ :=
  (s.items.map Returned.size).sum + (s.texts.map fun text => text.toList.length).sum + (s.texts.length - 1)

end Sheet

theorem length_joinLines (texts : List String) : (joinLines texts).toList.length =
    (texts.map fun text => text.toList.length).sum + (texts.length - 1) := by
  rw [joinLines, String.toList_ofList]
  induction texts with
  | nil => rfl
  | cons text texts ih =>
    cases texts with
    | nil =>
      rw [List.map_singleton, List.map_singleton, List.intercalate_singleton]
      exact (Nat.add_zero _).symm
    | cons text' texts =>
      rw [List.map_cons, List.map_cons] at ih ⊢
      rw [List.intercalate_cons_cons, List.length_append, List.length_append, ih]
      simp only [List.map_cons, List.sum_cons, List.length_cons, List.length_nil, Nat.add_sub_cancel]
      omega

variable {parse : String → Option Json} {aliases : Option ToolAlias}

namespace Sheet

theorem size_flush (s : Sheet) : s.flush.size = s.size := by
  rw [flush]
  split_ifs with h
  · rfl
  · rw [size, size, List.map_append, List.sum_append, List.map_singleton, List.sum_singleton,
      Returned.size, length_joinLines]
    simp only [List.map_nil, List.sum_nil, List.length_nil]
    omega

theorem texts_flush (s : Sheet) : s.flush.texts = [] := by
  rw [flush]
  split_ifs with h
  · exact h
  · rfl

/-- An item that is no text. -/
theorem size_push (s : Sheet) {item : Returned} (h : item.size = 0) : (s.push item).size = s.size := by
  rw [← size_flush s, push, size, size, List.map_append, List.sum_append, List.map_singleton,
    List.sum_singleton, h, Nat.add_zero]

/-- The sheet behind what is kept. -/
def of (parse : String → Option Json) (kept : List Kept) : Sheet := kept.foldl (Sheet.add parse) {}

theorem of_append (kept : List Kept) (k : Kept) : of parse (kept ++ [k]) = (of parse kept).add parse k := by
  rw [of, List.foldl_append]
  rfl

end Sheet

theorem size_regroup (kept : List Kept) :
    ((regroup parse kept).map Returned.size).sum = (Sheet.of parse kept).size := by
  rw [← Sheet.size_flush, Sheet.size, Sheet.texts_flush]
  rfl

/-- A text adds its characters, and a newline if another text waits. -/
theorem Sheet.size_addText (s : Sheet) (text : List Char) : (s.add parse (.text text)).size =
    s.size + text.length + if s.texts = [] then 0 else 1 := by
  obtain ⟨texts, items⟩ := s
  have hadd : (Sheet.add parse ⟨texts, items⟩ (.text text)).size = (items.map Returned.size).sum +
      ((texts.map fun text => text.toList.length).sum + text.length) + (texts.length + 1 - 1) := by
    rw [Sheet.add, Sheet.size, List.map_append, List.sum_append, List.map_singleton, List.sum_singleton,
      String.toList_ofList, List.length_append, List.length_singleton]
  rw [hadd]
  cases texts with
  | nil => simp [Sheet.size]
  | cons text' texts =>
    simp only [Sheet.size, List.length_cons, reduceCtorEq, if_false]
    omega

/-! ### What the blocks say -/

/-- The sheet of the blocks. -/
def heldSheet (parse : String → Option Json) (aliases : Option ToolAlias) (past : List (TurnItem × Bool)) : Sheet :=
  Sheet.of parse (shapeOf aliases past).kept

/-- The sheet of the items. -/
def wantedSheet (parse : String → Option Json) (aliases : Option ToolAlias) (past : List (TurnItem × Bool)) :
    Sheet :=
  Sheet.of parse (past.map fun item => item.1.kept aliases)

/-- The sheets are filled alike, and the blocks say as much as the items only if the messages are
separated. -/
structure Alike (parse : String → Option Json) (aliases : Option ToolAlias) (past : List (TurnItem × Bool)) :
    Prop where
  waiting : (heldSheet parse aliases past).texts = [] ↔ (wantedSheet parse aliases past).texts = []
  opened : (shapeOf aliases past).textOpen = true ↔ ∃ last ∈ past.getLast?, last.1.IsMessage ∧ last.2 = true
  glued : (shapeOf aliases past).textOpen = true →
    ∃ front text, (shapeOf aliases past).kept = front ++ [.text text]
  size : (heldSheet parse aliases past).size ≤ (wantedSheet parse aliases past).size
  separated : (heldSheet parse aliases past).size = (wantedSheet parse aliases past).size → Separated past

variable {past : List (TurnItem × Bool)}

theorem separated_append {item : TurnItem × Bool} :
    Separated (past ++ [item]) ↔ Separated past ∧ ∀ last ∈ past.getLast?, ¬ Glued last item := by
  rw [Separated, List.isChain_append]
  simp [Separated]

theorem wantedSheet_append (past : List (TurnItem × Bool)) (item : TurnItem × Bool) :
    wantedSheet parse aliases (past ++ [item]) =
      (wantedSheet parse aliases past).add parse (item.1.kept aliases) := by
  rw [wantedSheet, List.map_append, List.map_singleton, Sheet.of_append]
  rfl

/-- An item that is no message. -/
theorem Alike.push (h : Alike parse aliases past) {item : TurnItem × Bool}
    {k : Kept} {returned : Returned} (hitem : ¬ item.1.IsMessage)
    (hshape : shapeOf aliases (past ++ [item]) = ⟨(shapeOf aliases past).kept ++ [k], false⟩)
    (hkept : item.1.kept aliases = k) (hadd : ∀ s : Sheet, s.add parse k = s.push returned)
    (hsize : returned.size = 0) : Alike parse aliases (past ++ [item]) := by
  have hheld : heldSheet parse aliases (past ++ [item]) = (heldSheet parse aliases past).push returned := by
    rw [heldSheet, hshape, Sheet.of_append, hadd]
    rfl
  have hwanted : wantedSheet parse aliases (past ++ [item]) =
      (wantedSheet parse aliases past).push returned := by
    rw [wantedSheet_append, hkept, hadd]
  have htexts : ∀ s : Sheet, (s.push returned).texts = [] := fun s => Sheet.texts_flush s
  refine ⟨?_, ?_, fun hopen => ?_, ?_, fun heq => ?_⟩
  · rw [hheld, hwanted, htexts, htexts]
  · rw [hshape, List.getLast?_concat]
    exact iff_of_false Bool.false_ne_true fun ⟨last, hlast, hmessage, _⟩ =>
      hitem (Option.some.inj hlast ▸ hmessage)
  · rw [hshape] at hopen
    exact absurd hopen Bool.false_ne_true
  · rw [hheld, hwanted, Sheet.size_push _ hsize, Sheet.size_push _ hsize]
    exact h.size
  · rw [hheld, hwanted, Sheet.size_push _ hsize, Sheet.size_push _ hsize] at heq
    exact separated_append.mpr ⟨h.separated heq, fun _ _ hglued => hitem hglued.2.2⟩

/-- A message. -/
theorem Alike.say (h : Alike parse aliases past) (item : Item)
    (streamed : Bool) : Alike parse aliases (past ++ [(.message item, streamed)]) := by
  have hshape := shapeOf_append aliases past (.message item, streamed)
  have hwanted : wantedSheet parse aliases (past ++ [(.message item, streamed)]) = _ :=
    wantedSheet_append past (.message item, streamed)
  have hwantedSize : (wantedSheet parse aliases (past ++ [(.message item, streamed)])).size = _ :=
    (congrArg Sheet.size hwanted).trans (Sheet.size_addText _ item.text.toList)
  have hopened : (shapeOf aliases (past ++ [(.message item, streamed)])).textOpen = true ↔
      ∃ last ∈ (past ++ [(TurnItem.message item, streamed)]).getLast?, last.1.IsMessage ∧ last.2 = true := by
    rw [hshape, List.getLast?_concat]
    refine ⟨fun hopen => ⟨_, rfl, trivial, hopen⟩, ?_⟩
    rintro ⟨last, hlast, -, hstreamed⟩
    rwa [← Option.some.inj hlast] at hstreamed
  have hwaiting : (wantedSheet parse aliases (past ++ [(.message item, streamed)])).texts ≠ [] := by
    rw [hwanted]
    exact List.append_ne_nil_of_right_ne_nil _ (List.cons_ne_nil _ _)
  by_cases hopen : (shapeOf aliases past).textOpen = true
  · obtain ⟨front, before, hkept⟩ := h.glued hopen
    -- The blocks go on in the text that is open, the items with a newline.
    have hnew : (shapeOf aliases (past ++ [(.message item, streamed)])).kept =
        front ++ [.text (before ++ item.text.toList)] := by
      rw [hshape]
      show (shapeOf aliases past).say item.text.toList = _
      rw [Shape.say, if_pos hopen, hkept, glue_append]
    have hold : heldSheet parse aliases past = (Sheet.of parse front).add parse (.text before) := by
      rw [heldSheet, hkept, Sheet.of_append]
    have hheld : heldSheet parse aliases (past ++ [(.message item, streamed)]) =
        (Sheet.of parse front).add parse (.text (before ++ item.text.toList)) := by
      rw [heldSheet, hnew, Sheet.of_append]
    have hfilled : (wantedSheet parse aliases past).texts ≠ [] := by
      rw [Ne, ← h.waiting, hold]
      exact List.append_ne_nil_of_right_ne_nil _ (List.cons_ne_nil _ _)
    have hless : (heldSheet parse aliases (past ++ [(.message item, streamed)])).size <
        (wantedSheet parse aliases (past ++ [(.message item, streamed)])).size := by
      have hle := h.size
      rw [hold, Sheet.size_addText] at hle
      rw [hheld, hwantedSize, Sheet.size_addText, if_neg hfilled, List.length_append]
      omega
    refine ⟨iff_of_false ?_ hwaiting, hopened, fun _ => ⟨front, _, hnew⟩, Nat.le_of_lt hless, fun heq => ?_⟩
    · rw [hheld]
      exact List.append_ne_nil_of_right_ne_nil _ (List.cons_ne_nil _ _)
    · exact absurd heq (Nat.ne_of_lt hless)
  · have hnew : (shapeOf aliases (past ++ [(.message item, streamed)])).kept =
        (shapeOf aliases past).kept ++ [.text item.text.toList] := by
      rw [hshape]
      exact if_neg hopen
    have hheld : heldSheet parse aliases (past ++ [(.message item, streamed)]) =
        (heldSheet parse aliases past).add parse (.text item.text.toList) := by
      rw [heldSheet, hnew, Sheet.of_append]
      rfl
    have hheldSize : (heldSheet parse aliases (past ++ [(.message item, streamed)])).size = _ :=
      (congrArg Sheet.size hheld).trans (Sheet.size_addText _ item.text.toList)
    have hsame : (if (heldSheet parse aliases past).texts = [] then 0 else 1) =
        if (wantedSheet parse aliases past).texts = [] then 0 else 1 := if_congr h.waiting rfl rfl
    refine ⟨iff_of_false ?_ hwaiting, hopened, fun _ => ⟨_, _, hnew⟩, ?_, fun heq => ?_⟩
    · rw [hheld]
      exact List.append_ne_nil_of_right_ne_nil _ (List.cons_ne_nil _ _)
    · rw [hheldSize, hwantedSize, hsame]
      have hle := h.size
      omega
    · rw [hheldSize, hwantedSize, hsame] at heq
      refine separated_append.mpr ⟨h.separated (by omega), fun last hlast hglued => ?_⟩
      exact hopen (h.opened.mpr ⟨last, hlast, hglued.1, hglued.2.1⟩)

theorem alike (parse : String → Option Json) (aliases : Option ToolAlias) (past : List (TurnItem × Bool)) :
    Alike parse aliases past := by
  induction past using List.reverseRecOn with
  | nil =>
    refine ⟨Iff.rfl, ?_, fun hopen => absurd hopen Bool.false_ne_true, Nat.le_refl _, fun _ => .nil⟩
    exact iff_of_false Bool.false_ne_true fun ⟨last, hlast, _⟩ => absurd hlast (by simp)
  | append_singleton past item ih =>
    obtain ⟨item, streamed⟩ := item
    cases item with
    | reasoning replay => exact ih.push not_false (shapeOf_append _ _ _) rfl (fun _ => rfl) rfl
    | message item => exact ih.say item streamed
    | call c => exact ih.push not_false (shapeOf_append _ _ _) rfl (fun _ => rfl) rfl

theorem kept_shapeOf (h : Separated past) :
    (shapeOf aliases past).kept = past.map fun item => item.1.kept aliases := by
  induction past using List.reverseRecOn with
  | nil => rfl
  | append_singleton past item ih =>
    obtain ⟨hpast, hlast⟩ := separated_append.mp h
    rw [shapeOf_append, List.map_append, ← ih hpast, List.map_singleton]
    obtain ⟨item, streamed⟩ := item
    cases item with
    | reasoning replay => rfl
    | call c => rfl
    | message item =>
      refine if_neg fun hopen => ?_
      obtain ⟨last, hmem, hmessage, hstreamed⟩ := (alike (fun _ => none) aliases past).opened.mp hopen
      exact hlast last hmem ⟨hmessage, hstreamed, trivial⟩

theorem regroup_shapeOf (parse : String → Option Json) (aliases : Option ToolAlias)
    (past : List (TurnItem × Bool)) :
    regroup parse (shapeOf aliases past).kept = wanted parse aliases past ↔ Separated past := by
  constructor
  · intro heq
    refine (alike parse aliases past).separated ?_
    rw [heldSheet, wantedSheet, ← size_regroup, ← size_regroup, heq]
    rfl
  · intro h
    rw [kept_shapeOf h]
    rfl

/-! ### What comes back of a stream -/

/-- The last event of a turn. It lists no call but those of the turn. -/
structure Concludes (past : List (TurnItem × Bool)) (name : String) (chunk : Json) : Prop where
  named : IsResponses name
  arm : armOf name = .completed
  listed : ∀ item ∈ outputOf chunk, item.getStr? "type" = some "function_call" →
    rawId item = "" ∨ ∃ c ∈ callsOf past, rawId item = c.id

section Run

variable {B : Base64} {past : List (TurnItem × Bool)} {t : StreamTranslator} {name : String} {chunk : Json}

theorem Carried.blocks_onCompleted (h : Carried B aliases past none t) (hlast : Concludes past name chunk) :
    (t.onCompleted chunk).blocks = t.blocks := by
  have hrecover : ∀ (output : List Json), (∀ item ∈ output, item ∈ outputOf chunk) →
      ∀ u : StreamTranslator, u.claimedToolIds = t.claimedToolIds →
        output.foldl recoverUnstreamedCall u = u := by
    intro output
    induction output with
    | nil => exact fun _ _ _ => rfl
    | cons item output ih =>
      intro houtput u hu
      have hstay : u.recoverUnstreamedCall item = u := by
        rw [recoverUnstreamedCall]
        split_ifs with htype hclaimed
        · rfl
        · rfl
        · refine absurd ?_ hclaimed
          refine (hlast.listed item (houtput item List.mem_cons_self) (not_not.mp htype)).imp_right ?_
          rintro ⟨c, hc, heq⟩
          rw [hu]
          exact (h.claimed _).mpr ⟨c, List.mem_append_left _ hc, heq⟩
      rw [List.foldl_cons, hstay]
      exact ih (fun item' hitem' => houtput item' (List.mem_cons_of_mem _ hitem')) u hu
  have hrecovered : (t.noteOutputTokens (responseUsage chunk)).recoverUnstreamedCalls chunk =
      t.noteOutputTokens (responseUsage chunk) :=
    hrecover (outputOf chunk) (fun _ => id) _ rfl
  have hrunning : (t.noteOutputTokens (responseUsage chunk)).terminalEmitted = false := h.running
  have hend : ∀ (u : StreamTranslator) (reason : String) (usage : Option Json),
      (u.endTurn reason usage).blocks = u.blocks := by
    intro u reason usage
    rw [endTurn, blocks_emit, emitMessageDeltaWithUsage,
      blocks_emit]
    rfl
  have hclosed : (t.noteOutputTokens (responseUsage chunk)).closeBlockFinal.blocks = t.blocks :=
    blocks_closeBlockFinal _
  rw [onCompleted, hrunning, if_neg Bool.false_ne_true, hrecovered]
  split_ifs
  · exact hclosed
  · exact (hend _ _ _).trans hclosed

theorem mem_glue {kept : List Kept} {text : List Char} {k : Kept} (h : k ∈ glue kept text) :
    k ∈ kept ∨ ∃ text, k = .text text := by
  rw [glue] at h
  split at h <;> rcases List.mem_append.mp h with h | h
  · exact Or.inl ((List.dropLast_sublist _).subset h)
  · exact Or.inr ⟨_, List.mem_singleton.mp h⟩
  · exact Or.inl h
  · exact Or.inr ⟨_, List.mem_singleton.mp h⟩

theorem args_of_mem_shapeOf {id name' : String} {args : List Char}
    (h : Kept.call id name' args ∈ (shapeOf aliases past).kept) : ∃ c ∈ callsOf past, args = c.args.toList := by
  induction past using List.reverseRecOn with
  | nil => exact absurd h List.not_mem_nil
  | append_singleton past item ih =>
    rw [shapeOf_append] at h
    rw [callsOf_append]
    have hold : Kept.call id name' args ∈ (shapeOf aliases past).kept →
        ∃ c ∈ callsOf past ++ item.1.call?.toList, args = c.args.toList := fun hmem =>
      (ih hmem).imp fun c hc => ⟨List.mem_append_left _ hc.1, hc.2⟩
    obtain ⟨item, streamed⟩ := item
    cases item with
    | reasoning replay =>
      refine hold ((List.mem_append.mp h).resolve_right fun hlast => ?_)
      exact absurd (List.mem_singleton.mp hlast) (by simp)
    | message item =>
      have hsay : Kept.call id name' args ∈ (shapeOf aliases past).say item.text.toList := h
      rw [Shape.say] at hsay
      split_ifs at hsay
      · refine hold ((mem_glue hsay).resolve_right ?_)
        rintro ⟨text, htext⟩
        exact absurd htext (by simp)
      · refine hold ((List.mem_append.mp hsay).resolve_right fun hlast => ?_)
        exact absurd (List.mem_singleton.mp hlast) (by simp)
    | call c =>
      refine (List.mem_append.mp h).elim hold fun hlast => ?_
      obtain ⟨-, -, hargs⟩ := Kept.call.inj (List.mem_singleton.mp hlast)
      exact ⟨c, List.mem_append_right _ List.mem_cons_self, hargs⟩

theorem comesBack_run (hB : B.Lawful) (hparse : RoundTripsJson parse) {model : String}
    (hmodel : ¬ SparkName model) {stream : List (String × Json)} (h : TurnStream past none stream)
    (hargs : ∀ c ∈ callsOf past, ∃ fields, parse c.args = some (.obj fields))
    (hlast : Concludes past name chunk) :
    comesBack B parse (runTurn B { model, toolAliases := aliases } (stream ++ [(name, chunk)])).blocks =
      (regroup parse (shapeOf aliases past).kept).map some := by
  have hrun : Carried B aliases past none (runTurn B { model, toolAliases := aliases } stream) :=
    carried_run hB (carried_fresh hmodel) h
  have hdull : ∀ model, name = "response.created" →
      (chunk.get? "response").bind (Json.getStr? "model") = some model → ¬ SparkName model := by
    rintro model rfl
    exact absurd hlast.arm (by decide)
  obtain ⟨t, ht, hframe⟩ := hrun.readied hlast.named hdull
  have hblocks : (runTurn B { model, toolAliases := aliases } (stream ++ [(name, chunk)])).blocks = t.blocks := by
    rw [runTurn_append, hframe, hlast.arm]
    exact ht.blocks_onCompleted hlast
  obtain ⟨-, hkept, -⟩ := ht.now
  rw [hblocks, comesBack, ← hkept, StreamTranslator.kept, ← readBack_translate (B := B)]
  · show (List.flatMap _ [_]).map _ = _
    rw [List.flatMap_singleton]
    rfl
  · intro b hb id name' hcontent
    have hmem : Kept.call id name' b.partialJson ∈ t.kept B := by
      refine List.mem_filterMap.mpr ⟨b, hb, ?_⟩
      rw [Block.kept?, hcontent]
    rw [hkept] at hmem
    obtain ⟨c, hc, heq⟩ := args_of_mem_shapeOf hmem
    obtain ⟨fields, hfields⟩ := hargs c hc
    rw [heq, String.ofList_toList, hfields]
    exact hparse _ _ hfields

/-- A streamed turn comes back, item by item, exactly if no message that came by deltas has a message
behind it. -/
theorem roundTrip_iff (B : Base64) (hB : B.Lawful) (parse : String → Option Json) (hparse : RoundTripsJson parse)
    (aliases : Option ToolAlias) (model : String) (hmodel : ¬ SparkName model) (past : List (TurnItem × Bool))
    (stream : List (String × Json)) (h : TurnStream past none stream)
    (hargs : ∀ c ∈ callsOf past, ∃ fields, parse c.args = some (.obj fields)) (name : String) (chunk : Json)
    (hlast : Concludes past name chunk) :
    comesBack B parse (runTurn B { model, toolAliases := aliases } (stream ++ [(name, chunk)])).blocks =
      (wanted parse aliases past).map some ↔ Separated past := by
  rw [comesBack_run hB hparse hmodel h hargs hlast, ← regroup_shapeOf parse aliases past]
  exact (List.map_injective_iff.mpr fun _ _ => Option.some.inj).eq_iff

end Run

/-! ### Two turns -/

def textDeltaEvent (text : String) : String × Json :=
  ("response.output_text.delta", .obj [("delta", .str text)])

def itemDoneEvent (item : Json) : String × Json := ("response.output_item.done", .obj [("item", item)])

def messageJson (text : String) : Json :=
  .obj [("type", .str "message"), ("content", .arr [.obj [("type", .str "output_text"), ("text", .str text)]])]

def reasoningJson (replay : ReasoningReplay) : Json :=
  .obj [("type", .str "reasoning"), ("id", .str replay.id), ("encrypted_content", .str replay.encryptedContent)]

/-- Reads the object without fields. -/
def parseEmpty (text : String) : Option Json := if text = "\x7b\x7d" then some (.obj []) else none

theorem roundTripsJson_parseEmpty : RoundTripsJson parseEmpty := by
  intro text j h
  rw [parseEmpty] at h
  split_ifs at h
  rw [← Option.some.inj h]
  rfl

theorem dull_m : ¬ SparkName "m" := by
  intro h
  have hlen := h.length_le
  revert hlen
  decide

theorem concludes_completed (past : List (TurnItem × Bool)) :
    Concludes past "response.completed" completedChunk :=
  ⟨by decide, by decide, fun item hitem => absurd hitem List.not_mem_nil⟩

variable {stream : List (String × Json)}

/-- A message by a delta. -/
theorem TurnStream.message (h : TurnStream past none stream) {text : String} (hne : text ≠ "") :
    TurnStream (past ++ [(.message ⟨text, false⟩, true)]) none
      (stream ++ [textDeltaEvent text] ++ [itemDoneEvent (messageJson text)]) := by
  have harm : armOf "response.output_text.delta" = .outputTextDelta := by decide
  have hgoes : (TurnItem.message ⟨text, false⟩).start.Goes "response.output_text.delta"
      (.obj [("delta", .str text)]) (.message ⟨text, false⟩ text.toList false) := .messageDelta _ [] harm
  have hnil : text.toList ≠ [] := fun hnil => hne (String.toList_eq_nil_iff.mp hnil)
  have htext : messageText (messageJson text) = text := by
    show String.join [text] = text
    rw [String.join, List.foldl_cons, List.foldl_nil, String.empty_append]
  have hends : (Underway.message ⟨text, false⟩ text.toList false).Ends "response.output_item.done"
      (.obj [("item", messageJson text)]) (.message ⟨text, false⟩, decide (text.toList ≠ [])) :=
    .message _ _ _ (by decide) rfl htext (Or.inr rfl)
  rw [decide_eq_true hnil] at hends
  exact ((h.start (.message ⟨text, false⟩) hne).goes (by decide) hgoes).ends (by decide) hends

/-- A reasoning item that is only sent when it is done. -/
theorem TurnStream.reasoning
    (h : TurnStream past none stream) {replay : ReasoningReplay} (hsealable : Sealable replay) :
    TurnStream (past ++ [(.reasoning replay, false)]) none (stream ++ [itemDoneEvent (reasoningJson replay)]) := by
  have hends : (Underway.reasoning replay).Ends "response.output_item.done"
      (.obj [("item", reasoningJson replay)]) (.reasoning replay, false) :=
    .reasoning replay (by decide) rfl rfl rfl
  exact (h.start (.reasoning replay) hsealable).ends (by decide) hends

/-- A call that is only sent when it is done. -/
theorem TurnStream.call (h : TurnStream past none stream) {c : Call}
    (hsound : ∀ c' ∈ callsOf past, c'.id ≠ c.id ∧ c'.index ≠ c.index) :
    TurnStream (past ++ [(.call c, false)]) none (stream ++ [itemDoneEvent c.item]) := by
  have hends : (Underway.call c false [] false).Ends "response.output_item.done" (.obj [("item", c.item)])
      (.call c, false) :=
    .call c false [] false (by decide) ⟨rfl, rfl, rfl⟩ (Or.inl rfl) rfl (Or.inl rfl)
      fun hfalse => absurd hfalse Bool.false_ne_true
  exact (h.start (.call c) hsound).ends (by decide) hends

/-- A thought, a message and a call. -/
def mixedTurn : List (TurnItem × Bool) :=
  [(.reasoning ⟨"r", "e"⟩, false), (.message ⟨"a", false⟩, true), (.call firstCall, false)]

def mixedStream : List (String × Json) :=
  [itemDoneEvent (reasoningJson ⟨"r", "e"⟩), textDeltaEvent "a", itemDoneEvent (messageJson "a"),
    itemDoneEvent firstCall.item]

theorem turnStream_mixed : TurnStream mixedTurn none mixedStream := by
  have hsealable : Sealable ⟨"r", "e"⟩ := by decide
  have hne : "a" ≠ "" := by decide
  exact ((TurnStream.nil.reasoning hsealable).message hne).call fun c' hc' => absurd hc' List.not_mem_nil

theorem roundTrip_mixed :
    comesBack urlSafeNoPad parseEmpty (runTurn urlSafeNoPad { model := "m", toolAliases := none }
      (mixedStream ++ [("response.completed", completedChunk)])).blocks =
        (wanted parseEmpty none mixedTurn).map some :=
  (roundTrip_iff urlSafeNoPad lawful_urlSafeNoPad parseEmpty roundTripsJson_parseEmpty none "m" dull_m mixedTurn
    mixedStream turnStream_mixed
    (fun c hc => ⟨[], by rw [List.mem_singleton.mp hc]; rfl⟩)
    "response.completed" completedChunk (concludes_completed _)).mpr (by
      rw [Separated, mixedTurn]
      simp [Glued, TurnItem.IsMessage])

/-- Two messages by deltas come back as one line. -/
theorem not_roundTrip_glued : ¬ ∀ (B : Base64), B.Lawful → ∀ (parse : String → Option Json),
    RoundTripsJson parse → ∀ (aliases : Option ToolAlias) (model : String), ¬ SparkName model →
      ∀ (past : List (TurnItem × Bool)) (stream : List (String × Json)), TurnStream past none stream →
        (∀ c ∈ callsOf past, ∃ fields, parse c.args = some (.obj fields)) → ∀ name chunk,
          Concludes past name chunk →
            comesBack B parse (runTurn B { model, toolAliases := aliases } (stream ++ [(name, chunk)])).blocks =
              (wanted parse aliases past).map some := by
  intro h
  have ha : "a" ≠ "" := by decide
  have hb : "b" ≠ "" := by decide
  have hstream := (TurnStream.nil.message ha).message hb
  have hargs : ∀ c ∈ callsOf [(TurnItem.message ⟨"a", false⟩, true), (.message ⟨"b", false⟩, true)],
      ∃ fields, parseEmpty c.args = some (.obj fields) := fun c hc => absurd hc List.not_mem_nil
  have heq := h urlSafeNoPad lawful_urlSafeNoPad parseEmpty roundTripsJson_parseEmpty none "m" dull_m _ _ hstream
    hargs _ _ (concludes_completed _)
  rw [comesBack_run lawful_urlSafeNoPad roundTripsJson_parseEmpty dull_m hstream hargs
    (concludes_completed _)] at heq
  revert heq
  decide

end Headroom.OpenAi
