import Headroom.Foundation.JsonObject
import Headroom.OpenAi.ResponsesRequest

/-!
# Turn after turn

A client sends its whole conversation again with every turn. What the provider has cached is found again
if the translation of the shorter conversation stands in front of the longer one.

## Main results

* `translation_prefix_stable` : more messages move nothing that was translated before.
-/

open Foundation

namespace Headroom.OpenAi

variable {B : Base64} {outside : ChatOutside} {includeToolCalls : Bool}

/-! ### The input of Responses -/

namespace ResponsesDraft

variable {s : ResponsesDraft}

theorem input_prefix_step (msg : Json) : s.input <+: (s.step B outside msg).input := by
  rw [step]
  dsimp only
  split_ifs
  · exact List.prefix_append _ _
  · exact List.prefix_append _ _
  · exact List.prefix_rfl
  · exact List.prefix_rfl
  · exact List.prefix_append _ _
  · exact List.prefix_rfl

theorem instructions_step (h : s.input ≠ []) (msg : Json) :
    (s.step B outside msg).instructions = s.instructions := by
  rw [step]
  dsimp only
  split_ifs <;> rfl

theorem input_prefix_foldl (msgs : List Json) : s.input <+: (msgs.foldl (step B outside) s).input :=
  List.foldlRecOn msgs (step B outside) (motive := fun t => s.input <+: t.input) List.prefix_rfl
    fun t hprefix msg _ => hprefix.trans (t.input_prefix_step msg)

theorem instructions_foldl (h : s.input ≠ []) (msgs : List Json) :
    (msgs.foldl (step B outside) s).instructions = s.instructions := by
  induction msgs generalizing s with
  | nil => rfl
  | cons msg msgs ih =>
    have hgrown : (s.step B outside msg).input ≠ [] := by
      intro hnil
      have hprefix : s.input <+: (s.step B outside msg).input := s.input_prefix_step msg
      rw [hnil, List.prefix_nil] at hprefix
      exact h hprefix
    rw [List.foldl_cons, ih hgrown, instructions_step h]

end ResponsesDraft

/-! ### The messages of Chat Completions -/

namespace ChatDraft

variable {s : ChatDraft}

theorem messages_prefix_add (msg : Json) : s.messages <+: (s.add outside includeToolCalls msg).messages := by
  rw [add]
  dsimp only
  split_ifs
  · exact List.prefix_append _ _
  · exact List.prefix_append _ _
  · exact List.prefix_rfl
  · exact List.prefix_rfl
  · exact List.prefix_rfl

theorem messages_prefix_flush : s.messages <+: s.flush.messages := List.prefix_append _ _

theorem messages_prefix_step (msg : Json) : s.messages <+: (s.step outside includeToolCalls msg).messages := by
  rw [step]
  split_ifs
  · exact s.messages_prefix_add msg
  · exact (s.messages_prefix_add msg).trans messages_prefix_flush

theorem messages_prefix_foldl (msgs : List Json) :
    s.messages <+: (msgs.foldl (step outside includeToolCalls) s).messages :=
  List.foldlRecOn msgs (step outside includeToolCalls) (motive := fun t => s.messages <+: t.messages)
    List.prefix_rfl fun t hprefix msg _ => hprefix.trans (t.messages_prefix_step msg)

end ChatDraft

/-- The draft when the last message of the client is in. -/
def chatDraft (outside : ChatOutside) (includeToolCalls : Bool) (anthropic : Json) : ChatDraft :=
  ((anthropic.getArr? "messages").getD []).foldl (ChatDraft.step outside includeToolCalls)
    { messages := systemPrompt anthropic }

/-- The system messages that wait behind unanswered calls when the conversation ends. -/
def heldAtEnd (outside : ChatOutside) (includeToolCalls : Bool) (anthropic : Json) : List Json :=
  (chatDraft outside includeToolCalls anthropic).held

theorem chatMessages_eq_append_held (anthropic : Json) :
    chatMessages outside includeToolCalls anthropic =
      (chatDraft outside includeToolCalls anthropic).messages ++
        heldAtEnd outside includeToolCalls anthropic := by
  rw [chatMessages, heldAtEnd, chatDraft]
  cases anthropic.getArr? "messages" with
  | none => exact (List.append_nil _).symm
  | some msgs => rfl

/-! ### The two bodies -/

/-- One body is another with more messages. -/
structure Extends (shorter longer : Json) (more : List Json) : Prop where
  messages : longer.getArr? "messages" = some ((shorter.getArr? "messages").getD [] ++ more)
  fields : ∀ key, key ≠ "messages" → longer.get? key = shorter.get? key

section Extends

variable {shorter longer : Json} {more : List Json}

theorem Extends.getStr? (h : Extends shorter longer more) {key : String} (hkey : key ≠ "messages") :
    longer.getStr? key = shorter.getStr? key := by
  rw [Json.getStr?, h.fields key hkey, Json.getStr?]

theorem Extends.isSome_model (h : Extends shorter longer more) (hmodel : (shorter.getStr? "model").isSome) :
    (longer.getStr? "model").isSome := by
  rwa [h.getStr? (by decide)]

theorem Extends.systemPrompt (h : Extends shorter longer more) :
    systemPrompt longer = OpenAi.systemPrompt shorter := by
  rw [OpenAi.systemPrompt, h.fields "system" (by decide), OpenAi.systemPrompt]

theorem Extends.systemInstructions (h : Extends shorter longer more) :
    systemInstructions longer = OpenAi.systemInstructions shorter := by
  rw [OpenAi.systemInstructions, h.fields "system" (by decide), OpenAi.systemInstructions]

/-- The longer run starts where the shorter one ends. -/
theorem Extends.responsesDraft (h : Extends shorter longer more) :
    responsesDraft B outside longer =
      more.foldl (ResponsesDraft.step B outside) (OpenAi.responsesDraft B outside shorter) := by
  rw [OpenAi.responsesDraft, h.messages, h.systemInstructions, Option.getD_some, List.foldl_append,
    OpenAi.responsesDraft]

theorem Extends.chatDraft (h : Extends shorter longer more) :
    chatDraft outside includeToolCalls longer =
      more.foldl (ChatDraft.step outside includeToolCalls)
        (OpenAi.chatDraft outside includeToolCalls shorter) := by
  rw [OpenAi.chatDraft, h.messages, h.systemPrompt, Option.getD_some, List.foldl_append, OpenAi.chatDraft]

end Extends

/-! ### The two requests -/

section Requests

variable {anthropic r : Json} {includeMaxOutputTokens : Bool}

/-- An optional field of another name. -/
theorem get?_optionalField {α : Type} {name key : String} (h : name ≠ key) (o : Option α) (f : α → Json) :
    (Json.obj (o.map fun v => (name, f v)).toList).get? key = none := by
  rw [Json.get?_eq_none_iff]
  cases o with
  | none => exact List.not_mem_nil
  | some v => exact fun hmem => h (List.mem_singleton.mp hmem).symm

/-- A request fails for want of a model only, and carries the draft as it is. -/
theorem responsesRequest_eq_ok
    (h : anthropicToOpenaiResponsesRequest B outside anthropic includeMaxOutputTokens = .ok r) :
    (anthropic.getStr? "model").isSome ∧
      r.getArr? "input" = some (responsesDraft B outside anthropic).input ∧
      r.get? "instructions" =
        (Json.obj (instructionsField (responsesDraft B outside anthropic).instructions)).get? "instructions" := by
  rw [anthropicToOpenaiResponsesRequest] at h
  cases hmodel : anthropic.getStr? "model" with
  | none => rw [hmodel] at h; cases h
  | some model =>
    rw [hmodel] at h
    obtain rfl := Except.ok.inj h
    refine ⟨rfl, rfl, ?_⟩
    have hscalars : (Json.obj (copyScalarFields anthropic)).get? "instructions" = none := by
      rw [Json.get?_eq_none_iff]
      intro hmem
      simp [copyScalarFields, scalarFields] at hmem
    have htools : (Json.obj (if responsesTools anthropic = [] then [] else
        [("tools", Json.arr (responsesTools anthropic))])).get? "instructions" = none := by
      split_ifs <;> rfl
    have hreasoning : (Json.obj (reasoningFields anthropic)).get? "instructions" = none := by
      rw [reasoningFields]
      cases effortOf anthropic <;> rfl
    simp only [Json.get?_append, hscalars, htools, hreasoning,
      get?_optionalField (show "tool_choice" ≠ "instructions" by decide),
      get?_optionalField (show "max_output_tokens" ≠ "instructions" by decide),
      get?_optionalField (show "prompt_cache_key" ≠ "instructions" by decide), Option.or_none]
    rfl

variable (B outside includeMaxOutputTokens) in
theorem exists_responsesRequest (h : (anthropic.getStr? "model").isSome) :
    ∃ r, anthropicToOpenaiResponsesRequest B outside anthropic includeMaxOutputTokens = .ok r := by
  obtain ⟨model, hmodel⟩ := Option.isSome_iff_exists.mp h
  rw [anthropicToOpenaiResponsesRequest, hmodel]
  exact ⟨_, rfl⟩

theorem chatRequest_eq_ok
    (h : anthropicToOpenaiRequest outside anthropic includeMaxOutputTokens includeToolCalls = .ok r) :
    (anthropic.getStr? "model").isSome ∧
      r.getArr? "messages" = some (chatMessages outside includeToolCalls anthropic) := by
  rw [anthropicToOpenaiRequest] at h
  cases hmodel : anthropic.getStr? "model" with
  | none => rw [hmodel] at h; cases h
  | some model =>
    rw [hmodel] at h
    obtain rfl := Except.ok.inj h
    exact ⟨rfl, rfl⟩

variable (outside includeMaxOutputTokens includeToolCalls) in
theorem exists_chatRequest (h : (anthropic.getStr? "model").isSome) :
    ∃ r, anthropicToOpenaiRequest outside anthropic includeMaxOutputTokens includeToolCalls = .ok r := by
  obtain ⟨model, hmodel⟩ := Option.isSome_iff_exists.mp h
  rw [anthropicToOpenaiRequest, hmodel]
  exact ⟨_, rfl⟩

end Requests

/-- More messages move nothing that was translated before: behind an input item the instructions stay and
the input goes on, and the messages go on unless a system message is held behind unanswered calls. -/
theorem translation_prefix_stable (B : Base64) (outside : ChatOutside)
    (includeMaxOutputTokens includeToolCalls : Bool) {shorter longer : Json} {more : List Json}
    (h : Extends shorter longer more) :
    (∀ r input, anthropicToOpenaiResponsesRequest B outside shorter includeMaxOutputTokens = .ok r →
      r.getArr? "input" = some input → input ≠ [] →
        ∃ r' input', anthropicToOpenaiResponsesRequest B outside longer includeMaxOutputTokens = .ok r' ∧
          r'.getArr? "input" = some input' ∧ r'.get? "instructions" = r.get? "instructions" ∧
          input <+: input') ∧
    (∀ r messages, anthropicToOpenaiRequest outside shorter includeMaxOutputTokens includeToolCalls = .ok r →
      r.getArr? "messages" = some messages → heldAtEnd outside includeToolCalls shorter = [] →
        ∃ r' messages',
          anthropicToOpenaiRequest outside longer includeMaxOutputTokens includeToolCalls = .ok r' ∧
          r'.getArr? "messages" = some messages' ∧ messages <+: messages') := by
  refine ⟨?_, ?_⟩
  · intro r input hr hinput hne
    obtain ⟨hmodel, hdraft, hinstructions⟩ := responsesRequest_eq_ok hr
    obtain rfl := Option.some.inj (hdraft.symm.trans hinput)
    obtain ⟨r', hr'⟩ := exists_responsesRequest B outside includeMaxOutputTokens (h.isSome_model hmodel)
    obtain ⟨-, hdraft', hinstructions'⟩ := responsesRequest_eq_ok hr'
    refine ⟨r', _, hr', hdraft', ?_, ?_⟩
    · rw [hinstructions', hinstructions, h.responsesDraft, ResponsesDraft.instructions_foldl hne]
    · rw [h.responsesDraft]
      exact ResponsesDraft.input_prefix_foldl more
  · intro r messages hr hmessages hheld
    obtain ⟨hmodel, hchat⟩ := chatRequest_eq_ok hr
    obtain rfl := Option.some.inj (hchat.symm.trans hmessages)
    obtain ⟨r', hr'⟩ :=
      exists_chatRequest outside includeToolCalls includeMaxOutputTokens (h.isSome_model hmodel)
    obtain ⟨-, hchat'⟩ := chatRequest_eq_ok hr'
    refine ⟨r', _, hr', hchat', ?_⟩
    rw [chatMessages_eq_append_held, hheld, List.append_nil, chatMessages_eq_append_held, h.chatDraft]
    exact (ChatDraft.messages_prefix_foldl more).trans (List.prefix_append _ _)

/-- What the codecs would do is not asked of texts. -/
def textOutside : ChatOutside := ⟨urlSafeNoPad, urlSafeNoPad, id⟩

/-- A question, an answer and a system message, and one more question. -/
def askedBody (messages : List Json) : Json :=
  .obj [("model", .str "gpt"), ("system", .str "Be brief."), ("messages", .arr messages)]

def askedMessages : List Json :=
  [textMessage "system" "Today is Monday.", textMessage "user" "What day is it?",
    textMessage "assistant" "Monday.", textMessage "system" "Today is Tuesday."]

theorem extends_askedBody :
    Extends (askedBody askedMessages) (askedBody (askedMessages ++ [textMessage "user" "And now?"]))
      [textMessage "user" "And now?"] where
  messages := rfl
  fields key hkey := by
    show (Json.obj _).get? key = (Json.obj _).get? key
    simp only [Json.get?, List.find?_cons, show ("messages" == key) = false from beq_false_of_ne hkey.symm]

theorem translation_prefix_stable_asked :
    Extends (askedBody askedMessages) (askedBody (askedMessages ++ [textMessage "user" "And now?"]))
      [textMessage "user" "And now?"] ∧
    heldAtEnd textOutside true (askedBody askedMessages) = [] ∧
    ∃ r', anthropicToOpenaiResponsesRequest urlSafeNoPad textOutside
        (askedBody (askedMessages ++ [textMessage "user" "And now?"])) true = .ok r' ∧
      r'.get? "instructions" = some (.str "Be brief.\n\nToday is Monday.") := by
  have h := extends_askedBody
  obtain ⟨r, hr⟩ := exists_responsesRequest urlSafeNoPad textOutside true
    (show ((askedBody askedMessages).getStr? "model").isSome from rfl)
  obtain ⟨-, hinput, hinstructions⟩ := responsesRequest_eq_ok hr
  obtain ⟨r', _, hr', -, hsame, -⟩ :=
    (translation_prefix_stable urlSafeNoPad textOutside true true h).1 r _ hr hinput (by decide)
  refine ⟨h, by decide +kernel, r', hr', ?_⟩
  rw [hsame, hinstructions]
  decide +kernel

end Headroom.OpenAi
