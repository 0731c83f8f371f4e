import Headroom.Offload.ResultPass
import Headroom.Offload.InputPass

/-!
# A turn

A turn goes over the tool results and then over the inputs of tool calls. The first pass leaves the tool calls
alone and the second one the results, and the keys of the two are apart.
-/

open Foundation

namespace Headroom.Offload

/-- The messages of a request. -/
def messagesOf (parsed : Json) : List Json := (parsed.getArr? "messages").getD []

variable {T : Tools} {config : CtxOffloadConfig} {policy : OffloadPolicy} {former : Finset String}
  {forwardedBefore : Option ℕ} {put : OffloadRecord → Bool} {messages : List Json} {block : Json}
  {field : String × Json} {pass : Pass} {i j n : ℕ}

/-! ### The pass over the results leaves the tool calls alone -/

/-- What the pass over the results does to a block, as far as the pass over the inputs reads it. -/
structure SameInput (block block' : Json) : Prop where
  type_eq : block'.getStr? "type" = block.getStr? "type"
  name_eq : block'.getStr? "name" = block.getStr? "name"
  fields_eq : fieldsOf block' = fieldsOf block
  eq_of_type_ne : block.getStr? "type" ≠ some "tool_result" → block' = block

theorem SameInput.refl (block : Json) : SameInput block block := ⟨rfl, rfl, rfl, fun _ => rfl⟩

theorem SameInput.digested {original : String} (h : IsResult T config former block original) :
    SameInput block (digested T former block original) where
  type_eq := by rw [Offload.digested, Json.getStr?, Json.get?_insert_of_ne (by decide), Json.getStr?]
  name_eq := by rw [Offload.digested, Json.getStr?, Json.get?_insert_of_ne (by decide), Json.getStr?]
  fields_eq := by rw [Offload.digested, fieldsOf, Json.get?_insert_of_ne (by decide), fieldsOf]
  eq_of_type_ne htype := absurd h.type_eq htype

variable (config policy pass) in
theorem resultPass_sameInput (hformer : SameFormer T pass.gate former)
    (hat : blockAt messages i j = some block) :
    ∃ block', blockAt (resultPass T config policy messages pass).1 i j = some block' ∧
      SameInput block block' := by
  obtain ⟨s, hs, -, -, hblock⟩ := resultPass_block config policy hformer hat
  refine ⟨_, hblock, ?_⟩
  rcases offloadResultBlock_eq config policy hs messages i block with
    ⟨original, h, -, -, heq, -⟩ | ⟨-, heq, -⟩
  · rw [heq]
    exact SameInput.digested h
  · rw [heq]
    exact SameInput.refl block

variable (config policy pass) in
/-- The tool calls after the pass are those before it. -/
theorem resultPass_toolUse (hformer : SameFormer T pass.gate former)
    (htype : block.getStr? "type" = some "tool_use") :
    blockAt (resultPass T config policy messages pass).1 i j = some block ↔
      blockAt messages i j = some block := by
  have hne : block.getStr? "type" ≠ some "tool_result" := by
    rw [htype]
    decide
  constructor
  · intro hat'
    cases hat : blockAt messages i j with
    | none => exact absurd ((blockAt_walk_eq_none hat).symm.trans hat') nofun
    | some block₀ =>
      obtain ⟨block', hblock, hsame⟩ := resultPass_sameInput config policy pass hformer hat
      have heq : block' = block := Option.some.inj (hblock.symm.trans hat')
      subst heq
      rw [hsame.eq_of_type_ne fun htype₀ => hne (hsame.type_eq.trans htype₀)]
  · intro hat
    obtain ⟨block', hblock, hsame⟩ := resultPass_sameInput config policy pass hformer hat
    rw [hblock, hsame.eq_of_type_ne hne]

variable (config policy) in
theorem fieldAt_resultPass (hformer : SameFormer T pass.gate former) (hat : blockAt messages i j = some block) :
    fieldAt (resultPass T config policy messages pass).1 i j n = (fieldsOf block)[n]? := by
  obtain ⟨block', hblock, hsame⟩ := resultPass_sameInput config policy pass hformer hat
  rw [fieldAt, hblock, Option.bind_some, hsame.fields_eq]

theorem newestAssistant_eq (messages : List Json) :
    newestAssistant messages =
      ((messages.map (Json.getStr? "role")).zipIdx.reverse.find? fun m => m.1 = some "assistant").map Prod.snd := by
  rw [newestAssistant, List.zipIdx_map, ← List.map_reverse, List.find?_map, Option.map_map]
  rfl

theorem length_resultPass (messages : List Json) (pass : Pass) :
    (resultPass T config policy messages pass).1.length = messages.length := length_walk _ _ _

theorem newestAssistant_resultPass (messages : List Json) (pass : Pass) :
    newestAssistant (resultPass T config policy messages pass).1 = newestAssistant messages := by
  have hroles : (resultPass T config policy messages pass).1.map (Json.getStr? "role") =
      messages.map (Json.getStr? "role") := by
    refine List.ext_getElem? fun i => ?_
    rw [List.getElem?_map, List.getElem?_map, resultPass, getElem?_walk, Option.map_map]
    refine Option.map_congr fun message _ => ?_
    exact getStr?_rewriteBlocks _ message _ (by decide)
  rw [newestAssistant_eq, hroles, ← newestAssistant_eq]

variable (config policy forwardedBefore put) in
/-- What the inputs of the tool calls may make known is the same after the pass over the results. -/
theorem inputGrantedAt_resultPass (hformer : SameFormer T pass.gate former) (i : ℕ) (k : T.Key) :
    InputGrantedAt T config policy former forwardedBefore put (resultPass T config policy messages pass).1 i k ↔
      InputGrantedAt T config policy former forwardedBefore put messages i k := by
  have hgrants : ∀ block, InputGrants T config policy former forwardedBefore put
      (resultPass T config policy messages pass).1 i block k ↔
        InputGrants T config policy former forwardedBefore put messages i block k := by
    intro block
    rw [InputGrants, InputGrants, length_resultPass, isFirstAllowed, isFirstAllowed, newestAssistant_resultPass]
  constructor
  · rintro ⟨j, block, hat, hgrant⟩
    have htype : block.getStr? "type" = some "tool_use" := by
      obtain ⟨-, field, -, original, h, -⟩ := hgrant
      exact h.type_eq
    exact ⟨j, block, (resultPass_toolUse config policy pass hformer htype).1 hat, (hgrants block).1 hgrant⟩
  · rintro ⟨j, block, hat, hgrant⟩
    have htype : block.getStr? "type" = some "tool_use" := by
      obtain ⟨-, field, -, original, h, -⟩ := hgrant
      exact h.type_eq
    exact ⟨j, block, (resultPass_toolUse config policy pass hformer htype).2 hat, (hgrants block).2 hgrant⟩

/-! ### What a turn forwards -/

section

variable {setup : Setup} {turn : Turn} {gate : Finset String}

/-- The messages after the pass over the results, and the gate. -/
def afterResults (T : Tools) (setup : Setup) (turn : Turn) (gate : Finset String) : List Json × Pass :=
  resultPass T setup.config (turn.policy setup) (messagesOf turn.parsed) { gate }

theorem messagesOf_insert {parsed : Json} {items : List Json} (h : parsed.getArr? "messages" = some messages) :
    messagesOf (parsed.insert "messages" (.arr items)) = items := by
  rw [messagesOf, getArr?_insert_self h, Option.getD_some]

/-- A turn is the one pass after the other. -/
theorem runCtxOffloadRecords_eq (h : turn.parsed.getArr? "messages" = some messages) :
    messagesOf (runCtxOffloadRecords T setup turn gate).1 =
        (if setup.ctxOffloadToolUse then
          (inputPass T setup.config (turn.policy setup) turn.forwardedBefore turn.put
            (afterResults T setup turn gate).1 { gate := (afterResults T setup turn gate).2.gate }).1
        else (afterResults T setup turn gate).1) ∧
      (runCtxOffloadRecords T setup turn gate).2 =
        if setup.ctxOffloadToolUse then
          (inputPass T setup.config (turn.policy setup) turn.forwardedBefore turn.put
            (afterResults T setup turn gate).1 { gate := (afterResults T setup turn gate).2.gate }).2.gate
        else (afterResults T setup turn gate).2.gate := by
  have hmessages : messagesOf turn.parsed = messages := by rw [messagesOf, h, Option.getD_some]
  have hfirst : ∃ outcome, offloadAnthropicRequest T setup.config (some (turn.policy setup)) turn.parsed gate =
      ((turn.parsed.insert "messages" (.arr (afterResults T setup turn gate).1), outcome),
        (afterResults T setup turn gate).2.gate) := by
    rw [offloadAnthropicRequest, h, afterResults, hmessages]
    exact ⟨_, rfl⟩
  obtain ⟨outcome, hfirst⟩ := hfirst
  rw [runCtxOffloadRecords]
  simp only [hfirst]
  split_ifs
  · have hinsert : (turn.parsed.insert "messages" (.arr (afterResults T setup turn gate).1)).getArr? "messages" =
        some (afterResults T setup turn gate).1 := getArr?_insert_self h
    rw [offloadToolUseInputs, hinsert]
    exact ⟨messagesOf_insert hinsert, rfl⟩
  · exact ⟨messagesOf_insert h, rfl⟩

/-- What a turn makes known. -/
theorem known_turn (h : turn.parsed.getArr? "messages" = some messages) :
    SameFormer T (runCtxOffloadRecords T setup turn gate).2 gate ∧
      ∀ k : T.Key, Known (runCtxOffloadRecords T setup turn gate).2 k ↔
        Known gate k ∨ ResultGranted T setup.config (turn.policy setup) gate messages k ∨
          (setup.ctxOffloadToolUse = true ∧ InputGranted T setup.config (turn.policy setup) gate
            turn.forwardedBefore turn.put messages k) := by
  have hmessages : messagesOf turn.parsed = messages := by rw [messagesOf, h, Option.getD_some]
  have hformer : SameFormer T ({ gate } : Pass).gate gate := SameFormer.refl gate
  obtain ⟨hfirst, hknown⟩ := resultPass_known setup.config (turn.policy setup) messages { gate } hformer
  rw [← hmessages, ← afterResults] at hfirst
  rw [(runCtxOffloadRecords_eq h).2]
  split_ifs with huse
  · obtain ⟨hsecond, hknown'⟩ := inputPass_known setup.config (turn.policy setup) turn.forwardedBefore turn.put
      (afterResults T setup turn gate).1 { gate := (afterResults T setup turn gate).2.gate } hfirst
    refine ⟨hsecond, fun k => (hknown' k).trans ?_⟩
    have hgranted : InputGranted T setup.config (turn.policy setup) gate turn.forwardedBefore turn.put
        (afterResults T setup turn gate).1 k ↔ InputGranted T setup.config (turn.policy setup) gate
          turn.forwardedBefore turn.put messages k := by
      rw [afterResults, hmessages]
      exact exists_congr fun i => inputGrantedAt_resultPass _ _ _ _ hformer i k
    rw [hgranted, and_iff_right huse, ← or_assoc]
    refine or_congr_left ?_
    rw [afterResults, hmessages]
    exact hknown k
  · refine ⟨hfirst, fun k => ?_⟩
    rw [afterResults, hmessages]
    exact (hknown k).trans (or_congr_right (or_iff_left fun hno => huse hno.1).symm)

theorem not_inputGranted_resultKey (text : String) : ¬InputGranted T config policy former forwardedBefore put
    messages (T.resultKey text) := by
  rintro ⟨i, j, block, -, -, field, -, original, -, -, -, heq⟩
  exact useKey_ne_resultKey original text heq.symm

theorem not_resultGranted_useKey (text : String) :
    ¬ResultGranted T config policy former messages (T.useKey text) := by
  rintro ⟨i, j, block, -, original, -, -, -, heq⟩
  exact useKey_ne_resultKey text original heq

variable (T setup gate) in
theorem known_resultKey_turn (h : turn.parsed.getArr? "messages" = some messages) (text : String) :
    Known (runCtxOffloadRecords T setup turn gate).2 (T.resultKey text) ↔
      Known gate (T.resultKey text) ∨
        ResultGranted T setup.config (turn.policy setup) gate messages (T.resultKey text) := by
  rw [(known_turn h).2]
  exact or_congr_right (or_iff_left fun hno => not_inputGranted_resultKey text hno.2)

variable (T setup gate) in
theorem known_useKey_turn (h : turn.parsed.getArr? "messages" = some messages)
    (huse : setup.ctxOffloadToolUse = true) (text : String) :
    Known (runCtxOffloadRecords T setup turn gate).2 (T.useKey text) ↔
      Known gate (T.useKey text) ∨ InputGranted T setup.config (turn.policy setup) gate turn.forwardedBefore
        turn.put messages (T.useKey text) := by
  rw [(known_turn h).2, or_iff_right (not_resultGranted_useKey text), and_iff_right huse]

theorem afterResults_eq (h : turn.parsed.getArr? "messages" = some messages) :
    afterResults T setup turn gate = resultPass T setup.config (turn.policy setup) messages { gate } := by
  rw [afterResults, messagesOf, h, Option.getD_some]

theorem forwarded_result (h : turn.parsed.getArr? "messages" = some messages)
    (hat : blockAt messages i j = some block) (htype : block.getStr? "type" = some "tool_result") :
    blockAt (messagesOf (runCtxOffloadRecords T setup turn gate).1) i j =
      blockAt (resultPass T setup.config (turn.policy setup) messages { gate }).1 i j := by
  have hformer : SameFormer T ({ gate } : Pass).gate gate := SameFormer.refl gate
  obtain ⟨block', hblock, hsame⟩ := resultPass_sameInput setup.config (turn.policy setup) { gate } hformer hat
  have hafter := (resultPass_known setup.config (turn.policy setup) messages { gate } hformer).1
  rw [(runCtxOffloadRecords_eq h).1, afterResults_eq h]
  split_ifs
  · rw [hblock]
    have hpass : SameFormer T
        ({ gate := (resultPass T setup.config (turn.policy setup) messages { gate }).2.gate } : Pass).gate gate :=
      hafter
    refine inputPass_block hpass hblock ?_
    rw [hsame.type_eq, htype]
    decide
  · rfl

/-- A tool result is forwarded as a digest when its key is known or a first conversion is allowed. -/
theorem result_digested_of_turn {original : String} (hformer : SameFormer T gate former)
    (h : turn.parsed.getArr? "messages" = some messages)
    (hat : blockAt messages i j = some block) (hresult : IsResult T setup.config former block original)
    (hexcluded : isExcluded T messages block = false)
    (hallowed : Known gate (T.resultKey original) ∨
      isAllowed setup.config (turn.policy setup) messages i = true) :
    blockAt (messagesOf (runCtxOffloadRecords T setup turn gate).1) i j =
      some (digested T former block original) := by
  rw [forwarded_result h hat hresult.type_eq]
  exact result_digested hformer hat hresult hexcluded hallowed

theorem result_raw_of_turn (hformer : SameFormer T gate former)
    (h : turn.parsed.getArr? "messages" = some messages)
    (hat : blockAt messages i j = some block) (htype : block.getStr? "type" = some "tool_result")
    (hraw : ∀ original, IsResult T setup.config former block original → isExcluded T messages block = false →
      ¬Known gate (T.resultKey original) ∧ isAllowed setup.config (turn.policy setup) messages i = false) :
    blockAt (messagesOf (runCtxOffloadRecords T setup turn gate).1) i j = some block := by
  rw [forwarded_result h hat htype]
  exact result_raw hformer hat hraw

/-- A string is forwarded as a digest when its key is known, or when it may be converted for the first time and the
store takes it. -/
theorem input_digested_of_turn {original : String} (hformer : SameFormer T gate former)
    (h : turn.parsed.getArr? "messages" = some messages) (huse : setup.ctxOffloadToolUse = true)
    (hlast : i ≠ messages.length - 1) (hat : blockAt messages i j = some block)
    (hfield : (fieldsOf block)[n]? = some field) (hinput : IsInput T setup.config former block field original)
    (hallowed : Known gate (T.useKey original) ∨
      (isFirstAllowed (turn.policy setup) turn.forwardedBefore messages i = true ∧
        turn.put (newRecord T (turn.policy setup) block original) = true)) :
    fieldAt (messagesOf (runCtxOffloadRecords T setup turn gate).1) i j n =
      some (digestedField T former field original) := by
  obtain ⟨hafter, hknown⟩ := resultPass_known setup.config (turn.policy setup) messages { gate } hformer
  have hat' := (resultPass_toolUse setup.config (turn.policy setup) { gate } hformer hinput.type_eq).2 hat
  rw [(runCtxOffloadRecords_eq h).1, afterResults_eq h, if_pos huse]
  have hpass : SameFormer T ({ gate := (resultPass T setup.config (turn.policy setup) messages { gate }).2.gate } :
      Pass).gate former := hafter
  refine input_digested hpass (by rwa [length_resultPass]) hat' hfield hinput ?_
  rw [isFirstAllowed, newestAssistant_resultPass]
  exact hallowed.imp_left fun hk => (hknown _).2 (Or.inl hk)

variable (T setup gate) in
/-- A field is forwarded as it is, or as a digest whose key was known or may be converted up to its message. -/
theorem input_cases_of_turn (hformer : SameFormer T gate former)
    (h : turn.parsed.getArr? "messages" = some messages) (hat : blockAt messages i j = some block)
    (hfield : (fieldsOf block)[n]? = some field) :
    fieldAt (messagesOf (runCtxOffloadRecords T setup turn gate).1) i j n = some field ∨
      ∃ original, IsInput T setup.config former block field original ∧ setup.ctxOffloadToolUse = true ∧
        i ≠ messages.length - 1 ∧
        (Known gate (T.useKey original) ∨
          ∃ i' ≤ i, InputGrantedAt T setup.config (turn.policy setup) former turn.forwardedBefore turn.put messages
            i' (T.useKey original)) ∧
        fieldAt (messagesOf (runCtxOffloadRecords T setup turn gate).1) i j n =
          some (digestedField T former field original) := by
  obtain ⟨hafter, hknown⟩ := resultPass_known setup.config (turn.policy setup) messages { gate } hformer
  obtain ⟨block', hblock, hsame⟩ := resultPass_sameInput setup.config (turn.policy setup) { gate } hformer hat
  rw [(runCtxOffloadRecords_eq h).1, afterResults_eq h]
  split_ifs with huse
  · have hpass : SameFormer T
        ({ gate := (resultPass T setup.config (turn.policy setup) messages { gate }).2.gate } : Pass).gate former :=
      hafter
    refine (input_cases hpass hblock (by rwa [hsame.fields_eq])).imp_right ?_
    rintro ⟨original, hinput, hlast, hallowed, hout⟩
    have hbefore : SameFormer T ({ gate } : Pass).gate former := hformer
    rw [length_resultPass] at hlast
    simp only [inputGrantedAt_resultPass _ _ _ _ hbefore, hknown,
      or_iff_left (not_resultGranted_useKey original)] at hallowed
    exact ⟨original, ⟨hsame.type_eq ▸ hinput.type_eq, hsame.name_eq ▸ hinput.name_notMem, hinput.value_eq,
      hinput.large, hinput.shrinks⟩, huse, hlast, hallowed, hout⟩
  · left
    rw [fieldAt_resultPass setup.config (turn.policy setup) hformer hat, hfield]

end

end Headroom.Offload
