import Headroom.PrefixReplay.Breakpoints

/-!
# Signed reasoning

The provider signs the blocks in which a model reasons, and reads those of the last assistant message back.
A block without a signature comes from a stream that broke off; a block that this proxy signed holds the
reasoning of another provider. Neither counts as signed. Values are compared whatever the order of their
fields.
-/

open Foundation

namespace Headroom.Reasoning

open PrefixReplay (isThinkingBlock)

/-- The signatures of this proxy begin with it. -/
def PREFIX : String := "headroom:codex:v1:"

def isHeadroomReasoningSignature (signature : String) : Bool := PREFIX.toList.isPrefixOf signature.toList

/-- A block that this proxy signed. -/
def isHeadroomSignedReasoning (block : Json) : Bool :=
  isThinkingBlock block && (block.getStr? "signature").any isHeadroomReasoningSignature

/-- A block that the model never got to sign. -/
def isUnsignedReasoning (block : Json) : Bool :=
  isThinkingBlock block && (block.getStr? "signature").all (· == "") && (block.get? "data").isNone

/-- A block that the provider signed. -/
def isSigned (block : Json) : Bool :=
  isThinkingBlock block && !isUnsignedReasoning block && !isHeadroomSignedReasoning block

def signedReasoningBlocks (messages : List Json) : List Json :=
  (messages.flatMap fun m => (m.getArr? "content").getD []).filter isSigned

def isAssistant (message : Json) : Bool := message.getStr? "role" == some "assistant"

/-- The signed blocks of the last assistant message. -/
def lastAssistantBlocks (messages : List Json) : List Json :=
  match messages.reverse.find? isAssistant with
  | some m => signedReasoningBlocks [m]
  | none => []

/-- The values of a list, comparable. -/
abbrev norms (values : List Json) : List Json := values.map Json.norm

def signedReasoningPreserved (before after : List Json) : Bool :=
  let beforeBlocks := signedReasoningBlocks before
  let afterBlocks := signedReasoningBlocks after
  norms (lastAssistantBlocks before) == norms (lastAssistantBlocks after) &&
    (afterBlocks.length ≤ beforeBlocks.length && (norms afterBlocks).isSublist (norms beforeBlocks))

/-! ### Reasoning of earlier turns -/

/-- The index of the last assistant message. -/
def lastAssistant (messages : List Json) : Option ℕ :=
  (messages.zipIdx.reverse.find? fun m => isAssistant m.1).map Prod.snd

/-- What one pass removed. -/
structure DropOutcome where
  blocksRemoved : ℕ
  bytesRemoved : ℕ
  deriving DecidableEq

/-- A message without its reasoning, unless it is not from the assistant or would have no blocks left. -/
def withoutThinking (message : Json) : Json :=
  match message.getArr? "content" with
  | some blocks =>
    if isAssistant message && blocks.any isThinkingBlock && !blocks.all isThinkingBlock then
      message.insert "content" (.arr (blocks.filter fun b => !isThinkingBlock b))
    else message
  | none => message

/-- The blocks that a message loses. -/
def thinkingLost (message : Json) : List Json :=
  match message.getArr? "content" with
  | some blocks =>
    if isAssistant message && blocks.any isThinkingBlock && !blocks.all isThinkingBlock then
      blocks.filter isThinkingBlock
    else []
  | none => []

/-- The messages before the last assistant message lose their reasoning. -/
def dropFrom (messages : List Json) : List Json :=
  match lastAssistant messages with
  | none => messages
  | some last => (messages.take last).map withoutThinking ++ messages.drop last

def dropPriorThinking (parsed : Json) : Json × DropOutcome :=
  match parsed.getArr? "messages" with
  | none => (parsed, ⟨0, 0⟩)
  | some messages =>
    let lost := (messages.take ((lastAssistant messages).getD 0)).flatMap thinkingLost
    (parsed.insert "messages" (.arr (dropFrom messages)),
      ⟨lost.length, (lost.map fun b => Text.utf8Length b.compact).sum⟩)

/-! ### The predicate -/

theorem signedReasoningPreserved_iff {before after : List Json} :
    signedReasoningPreserved before after = true ↔
      norms (lastAssistantBlocks before) = norms (lastAssistantBlocks after) ∧
        (norms (signedReasoningBlocks after)).Sublist (norms (signedReasoningBlocks before)) := by
  rw [signedReasoningPreserved]
  simp only [Bool.and_eq_true, beq_iff_eq, decide_eq_true_iff, List.isSublist_iff_sublist]
  refine and_congr_right fun _ => ⟨fun h => h.2, fun h => ⟨?_, h⟩⟩
  have hlength := h.length_le
  rwa [List.length_map, List.length_map] at hlength

/-- Messages preserve their own reasoning. -/
theorem signedReasoningPreserved_self (messages : List Json) :
    signedReasoningPreserved messages messages = true :=
  signedReasoningPreserved_iff.2 ⟨rfl, List.Sublist.refl _⟩

theorem signedReasoningBlocks_append (as bs : List Json) :
    signedReasoningBlocks (as ++ bs) = signedReasoningBlocks as ++ signedReasoningBlocks bs := by
  rw [signedReasoningBlocks, List.flatMap_append, List.filter_append]
  rfl

theorem signedReasoningBlocks_withoutThinking (message : Json) :
    (signedReasoningBlocks [withoutThinking message]).Sublist (signedReasoningBlocks [message]) := by
  rw [withoutThinking]
  split
  · rename_i blocks hblocks
    split_ifs
    · obtain ⟨content, hcontent, harr⟩ := Option.bind_eq_some_iff.1 hblocks
      have hnew : (message.insert "content" (.arr (blocks.filter fun b => !isThinkingBlock b))).getArr?
          "content" = some (blocks.filter fun b => !isThinkingBlock b) := by
        rw [Json.getArr?, Json.get?_insert_self hcontent]
        rfl
      simp only [signedReasoningBlocks, List.flatMap_cons, List.flatMap_nil, List.append_nil, hnew, hblocks,
        Option.getD_some]
      exact List.filter_sublist.filter _
    · exact List.Sublist.refl _
  · exact List.Sublist.refl _

theorem signedReasoningBlocks_map_withoutThinking (messages : List Json) :
    (signedReasoningBlocks (messages.map withoutThinking)).Sublist (signedReasoningBlocks messages) := by
  induction messages with
  | nil => exact List.Sublist.refl _
  | cons message messages ih =>
    have hfirst := signedReasoningBlocks_withoutThinking message
    have hsplit (m : Json) (ms : List Json) :
        signedReasoningBlocks (m :: ms) = signedReasoningBlocks [m] ++ signedReasoningBlocks ms :=
      signedReasoningBlocks_append [m] ms
    rw [List.map_cons, hsplit, hsplit message]
    exact hfirst.append ih

theorem lastAssistant_cases (messages : List Json) :
    lastAssistant messages = none ∧ (∀ m ∈ messages, isAssistant m = false) ∨
      ∃ before last after, messages = before ++ last :: after ∧ isAssistant last = true ∧
        (∀ m ∈ after, isAssistant m = false) ∧ lastAssistant messages = some before.length := by
  induction messages using List.reverseRecOn with
  | nil => exact .inl ⟨rfl, by simp⟩
  | append_singleton messages m ih =>
    have hunfold : lastAssistant (messages ++ [m]) =
        if isAssistant m then some messages.length else lastAssistant messages := by
      rw [lastAssistant, List.zipIdx_append, List.reverse_append]
      show Option.map Prod.snd (List.find? _ ((m, 0 + messages.length) :: messages.zipIdx.reverse)) = _
      rw [List.find?_cons]
      dsimp only
      cases isAssistant m
      · rfl
      · simp
    by_cases hm : isAssistant m = true
    · exact .inr ⟨messages, m, [], rfl, hm, by simp, by rw [hunfold, if_pos hm]⟩
    · rw [hunfold, if_neg hm]
      obtain ⟨hnone, hall⟩ | ⟨before, last, after, rfl, hlast, hafter, hindex⟩ := ih
      · refine .inl ⟨hnone, fun x hx => ?_⟩
        obtain hx | hx := List.mem_append.1 hx
        · exact hall x hx
        · rwa [List.mem_singleton.1 hx, ← Bool.not_eq_true]
      · refine .inr ⟨before, last, after ++ [m], by simp, hlast, fun x hx => ?_, hindex⟩
        obtain hx | hx := List.mem_append.1 hx
        · exact hafter x hx
        · rwa [List.mem_singleton.1 hx, ← Bool.not_eq_true]

/-- The blocks that are read back do not depend on what precedes the last assistant message. -/
theorem lastAssistantBlocks_append {last : Json} {after : List Json} (before : List Json)
    (hlast : isAssistant last = true) :
    lastAssistantBlocks (before ++ last :: after) = lastAssistantBlocks (last :: after) := by
  have hsome : ∃ m, (last :: after).reverse.find? isAssistant = some m := by
    refine Option.isSome_iff_exists.1 (List.find?_isSome.2 ⟨last, ?_, hlast⟩)
    exact List.mem_reverse.2 List.mem_cons_self
  obtain ⟨m, hm⟩ := hsome
  rw [lastAssistantBlocks, lastAssistantBlocks, List.reverse_append, List.find?_append, hm, Option.some_or]

theorem preserved_dropFrom (messages : List Json) :
    signedReasoningPreserved messages (dropFrom messages) = true := by
  obtain ⟨hnone, -⟩ | ⟨before, last, after, rfl, hlast, -, hindex⟩ := lastAssistant_cases messages
  · rw [dropFrom, hnone]
    exact signedReasoningPreserved_self messages
  · have hdrop : dropFrom (before ++ last :: after) = before.map withoutThinking ++ last :: after := by
      simp only [dropFrom, hindex, List.take_left, List.drop_left]
    rw [hdrop, signedReasoningPreserved_iff, lastAssistantBlocks_append _ hlast,
      lastAssistantBlocks_append _ hlast, signedReasoningBlocks_append, signedReasoningBlocks_append]
    refine ⟨rfl, List.Sublist.map _ ?_⟩
    exact (signedReasoningBlocks_map_withoutThinking before).append (List.Sublist.refl _)

end Headroom.Reasoning
