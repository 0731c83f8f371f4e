import Mathlib.Data.List.Infix
import Headroom.Foundation.JsonText
import Headroom.Reasoning.SignedBlocks

/-!
# The reasoning guard

A body that is about to leave is compared with what the client sent. Where it no longer has the client's
signed reasoning, the messages that broke it are the client's again, or all messages are when that does not
suffice. A client's body without the marker's bytes is not looked at.

## Main statements

* `restoreClientReasoningBlocks_preserves` : the body that leaves has the client's reasoning, and what the
  guard leaves alone.
-/

open Foundation

namespace Headroom.Reasoning

/-! ### The guard -/

/-- The signed blocks of the message at an index. -/
def blocksAt (messages : List Json) (index : ℕ) : List Json :=
  signedReasoningBlocks (messages[index]?).toList

/-- A message has a signed block that the client never sent. -/
def invents (before after : List Json) (index : ℕ) : Bool :=
  (norms (blocksAt after index)).any fun block => !(norms (signedReasoningBlocks before)).contains block

/-- A message that broke the client's reasoning. -/
def isTarget (before after : List Json) (index : ℕ) : Bool :=
  some index == lastAssistant before && norms (blocksAt after index) != norms (blocksAt before index) ||
    invents before after index

/-- Put back only the messages that broke the client's reasoning. -/
def repairSignedReasoning (before after : List Json) : Option (List Json × ℕ) :=
  if before.length ≠ after.length then none
  else
    let targets := (List.range after.length).filter (isTarget before after)
    if targets.isEmpty then none
    else
      let repaired := targets.foldl (fun messages index => messages.set index (before.getD index .null)) after
      if signedReasoningPreserved before repaired then some (repaired, targets.length) else none

/-- The client's body mentions reasoning at all. -/
abbrev Mentions (original : Bytes) : Prop := ascii "thinking" <:+: original

/-- The messages of a body. -/
def messagesOf (body : Json) : List Json := (body.getArr? "messages").getD []

/-- Put the client's messages back when the body no longer has their signed reasoning. -/
def restoreClientReasoningBlocks (text : JsonText) (bodyToSend original : Bytes) : Bytes :=
  if bodyToSend = original then bodyToSend
  else if ¬ Mentions original then bodyToSend
  else
    match text.fromSlice original, text.fromSlice bodyToSend with
    | some before, some after =>
      if signedReasoningPreserved (messagesOf before) (messagesOf after) then bodyToSend
      else
        let restored := match repairSignedReasoning (messagesOf before) (messagesOf after) with
          | some (messages, _) => messages
          | none => messagesOf before
        if after.isObj then text.toVec (after.insert "messages" (.arr restored)) else bodyToSend
    | _, _ => bodyToSend

/-! ### The repair -/

theorem getElem?_foldl_set (before : List Json) (targets : List ℕ) (messages : List Json) (i : ℕ) :
    (targets.foldl (fun ms index => ms.set index (before.getD index .null)) messages)[i]? =
      if i ∈ targets ∧ i < messages.length then some (before.getD i .null) else messages[i]? := by
  induction targets generalizing messages with
  | nil => simp
  | cons target targets ih =>
    rw [List.foldl_cons, ih, List.length_set, List.getElem?_set]
    by_cases hi : i < messages.length
    · by_cases ht : i = target
      · subst ht
        simp [hi]
      · simp [hi, ht, Ne.symm ht]
    · have hnone : messages[i]? = none := List.getElem?_eq_none (by omega)
      have hno (p : Prop) : ¬ (p ∧ i < messages.length) := fun h => hi h.2
      rw [if_neg (hno _), if_neg (hno _), hnone]
      split_ifs with htarget hlt
      · exact absurd (htarget ▸ hlt) hi
      · rfl
      · rfl

/-- What the repair gives preserves the reasoning, and only messages that broke it are replaced. -/
theorem repairSignedReasoning_cases {before after messages : List Json} {count : ℕ}
    (h : repairSignedReasoning before after = some (messages, count)) :
    signedReasoningPreserved before messages = true ∧ messages.length = after.length ∧
      ∀ i, messages[i]? = after[i]? ∨ isTarget before after i = true ∧ messages[i]? = before[i]? := by
  rw [repairSignedReasoning] at h
  split at h
  · cases h
  rename_i hlength
  dsimp only at h
  split at h
  · cases h
  split at h
  · rename_i hpreserved
    obtain ⟨rfl, -⟩ := Prod.mk.inj (Option.some.inj h)
    have hget := getElem?_foldl_set before ((List.range after.length).filter (isTarget before after)) after
    have hsame : (((List.range after.length).filter (isTarget before after)).foldl
        (fun ms index => ms.set index (before.getD index .null)) after).length = after.length := by
      have hfold : ∀ (targets : List ℕ) (ms : List Json),
          (targets.foldl (fun ms index => ms.set index (before.getD index .null)) ms).length = ms.length := by
        intro targets
        induction targets with
        | nil => exact fun _ => rfl
        | cons _ _ ih => exact fun ms => by rw [List.foldl_cons, ih, List.length_set]
      exact hfold _ _
    refine ⟨hpreserved, hsame, fun i => ?_⟩
    rw [hget i]
    split_ifs with hi
    · obtain ⟨hmem, hlt⟩ := hi
      have hbefore : i < before.length := by
        have heq : before.length = after.length := not_ne_iff.1 hlength
        omega
      refine .inr ⟨(List.mem_filter.1 hmem).2, ?_⟩
      simp [List.getD, List.getElem?_eq_getElem hbefore]
    · exact .inl rfl
  · cases h

/-! ### The body that leaves -/

theorem restoreClientReasoningBlocks_cases {text : JsonText} {bodyToSend original : Bytes} {before after : Json}
    (hlook : bodyToSend = original ∨ Mentions original) (hbefore : text.fromSlice original = some before)
    (hafter : text.fromSlice bodyToSend = some after) (hobj : after.isObj) :
    restoreClientReasoningBlocks text bodyToSend original = bodyToSend ∧
        signedReasoningPreserved (messagesOf before) (messagesOf after) = true ∨
      ∃ restored, signedReasoningPreserved (messagesOf before) restored = true ∧
        signedReasoningPreserved (messagesOf before) (messagesOf after) = false ∧
        restoreClientReasoningBlocks text bodyToSend original =
          text.toVec (after.insert "messages" (.arr restored)) := by
  by_cases hsame : bodyToSend = original
  · subst hsame
    obtain rfl : before = after := Option.some.inj (hbefore.symm.trans hafter)
    exact .inl ⟨by rw [restoreClientReasoningBlocks, if_pos rfl], signedReasoningPreserved_self _⟩
  · have hmentions : Mentions original := hlook.resolve_left hsame
    have hunfold : restoreClientReasoningBlocks text bodyToSend original =
        if signedReasoningPreserved (messagesOf before) (messagesOf after) then bodyToSend
        else text.toVec (after.insert "messages" (.arr
          (match repairSignedReasoning (messagesOf before) (messagesOf after) with
            | some (messages, _) => messages
            | none => messagesOf before))) := by
      rw [restoreClientReasoningBlocks, if_neg hsame, if_neg (not_not.2 hmentions), hbefore, hafter]
      simp only [if_pos hobj]
    rw [hunfold]
    by_cases hpreserved : signedReasoningPreserved (messagesOf before) (messagesOf after) = true
    · exact .inl ⟨if_pos hpreserved, hpreserved⟩
    · rw [if_neg hpreserved]
      refine .inr ⟨_, ?_, Bool.not_eq_true _ ▸ hpreserved, rfl⟩
      split
      · rename_i messages count hrepair
        exact (repairSignedReasoning_cases hrepair).1
      · exact signedReasoningPreserved_self _

/-- The guard changes nothing but the messages, and nothing at all when the client's reasoning is there. Whenever
it looks at the client's body, the body that leaves has that reasoning. Dropping the reasoning of earlier turns
is no reason to repair, and a repair replaces only messages that broke the reasoning. -/
theorem restoreClientReasoningBlocks_preserves {text : JsonText} {bodyToSend original : Bytes}
    {before after : Json} {sent forwarded : List Json} (hbefore : text.fromSlice original = some before)
    (hafter : text.fromSlice bodyToSend = some after) (hsent : before.getArr? "messages" = some sent)
    (hforwarded : after.getArr? "messages" = some forwarded) :
    (∃ body messages,
      (restoreClientReasoningBlocks text bodyToSend original = bodyToSend ∧ body = after ∨
        restoreClientReasoningBlocks text bodyToSend original = text.toVec body) ∧
      body.getArr? "messages" = some messages ∧ (∀ key, key ≠ "messages" → body.get? key = after.get? key) ∧
      (bodyToSend = original ∨ Mentions original → signedReasoningPreserved sent messages = true)) ∧
    (signedReasoningPreserved sent forwarded = true →
      restoreClientReasoningBlocks text bodyToSend original = bodyToSend) ∧
    (∃ messages, (dropPriorThinking before).1.getArr? "messages" = some messages ∧
      signedReasoningPreserved sent messages = true) ∧
    ∀ messages count, repairSignedReasoning sent forwarded = some (messages, count) →
      messages.length = forwarded.length ∧ ∀ i, messages[i]? = forwarded[i]? ∨
        isTarget sent forwarded i = true ∧ messages[i]? = sent[i]? := by
  have hof {body : Json} {messages : List Json} (h : body.getArr? "messages" = some messages) :
      messagesOf body = messages := by
    rw [messagesOf, h, Option.getD_some]
  have hinsert {body : Json} {messages : List Json} (h : body.getArr? "messages" = some messages)
      (new : List Json) : (body.insert "messages" (.arr new)).getArr? "messages" = some new := by
    obtain ⟨value, hvalue, -⟩ := Option.bind_eq_some_iff.1 h
    rw [Json.getArr?, Json.get?_insert_self hvalue]
    rfl
  have hobj : after.isObj := by
    obtain ⟨value, hvalue, -⟩ := Option.bind_eq_some_iff.1 hforwarded
    obtain ⟨fields, rfl⟩ := Json.isObj_of_get? hvalue
    rfl
  have hcases (hlook : bodyToSend = original ∨ Mentions original) :=
    restoreClientReasoningBlocks_cases hlook hbefore hafter hobj
  rw [hof hsent, hof hforwarded] at hcases
  have hshut (hlook : ¬ (bodyToSend = original ∨ Mentions original)) :
      restoreClientReasoningBlocks text bodyToSend original = bodyToSend := by
    obtain ⟨hne, hgate⟩ := not_or.1 hlook
    rw [restoreClientReasoningBlocks, if_neg hne, if_pos hgate]
  refine ⟨?_, fun hpreserved => ?_, ?_, fun messages count hrepair => ?_⟩
  · by_cases hlook : bodyToSend = original ∨ Mentions original
    · obtain ⟨hout, hpreserved⟩ | ⟨restored, hpreserved, -, hout⟩ := hcases hlook
      · exact ⟨after, forwarded, .inl ⟨hout, rfl⟩, hforwarded, fun _ _ => rfl, fun _ => hpreserved⟩
      · exact ⟨after.insert "messages" (.arr restored), restored, .inr hout, hinsert hforwarded restored,
          fun key hkey => Json.get?_insert_of_ne hkey, fun _ => hpreserved⟩
    · exact ⟨after, forwarded, .inl ⟨hshut hlook, rfl⟩, hforwarded, fun _ _ => rfl, fun h => absurd h hlook⟩
  · by_cases hlook : bodyToSend = original ∨ Mentions original
    · obtain ⟨hout, -⟩ | ⟨restored, -, hbroken, -⟩ := hcases hlook
      · exact hout
      · rw [hpreserved] at hbroken
        cases hbroken
    · exact hshut hlook
  · refine ⟨dropFrom sent, ?_, preserved_dropFrom sent⟩
    simp only [dropPriorThinking, hsent]
    exact hinsert hsent _
  · exact (repairSignedReasoning_cases hrepair).2

namespace Sample

/-- Texts of some values. -/
def bodies (values : List Json) : JsonText where
  write value := String.ofList value.compact
  read s := values.find? fun value => String.ofList value.compact == s

def thought (signature : String) : Json :=
  .obj [("type", .str "thinking"), ("thinking", .str "so"), ("signature", .str signature)]

def body (content : List Json) : Json :=
  .obj [("model", .str "m"), ("messages", .arr [.obj [("role", .str "assistant"), ("content", .arr content)]])]

def asked : Json := body [.obj [("type", .str "text"), ("text", .str "hi")]]

end Sample

theorem restoreClientReasoningBlocks_altered :
    ∃ (body : Json) (messages : List Json),
      restoreClientReasoningBlocks
          (Sample.bodies [Sample.body [Sample.thought "a"], Sample.body [Sample.thought "b"]])
          ((Sample.bodies []).toVec (Sample.body [Sample.thought "b"]))
          ((Sample.bodies []).toVec (Sample.body [Sample.thought "a"])) = (Sample.bodies []).toVec body ∧
      body.getArr? "messages" = some messages ∧
      signedReasoningPreserved (messagesOf (Sample.body [Sample.thought "a"])) messages = true := by
  have hread (signature : String) (h : signature ∈ ["a", "b"]) :
      (Sample.bodies [Sample.body [Sample.thought "a"], Sample.body [Sample.thought "b"]]).fromSlice
        ((Sample.bodies []).toVec (Sample.body [Sample.thought signature])) =
          some (Sample.body [Sample.thought signature]) := by
    revert signature
    decide +kernel
  have hpreserves := restoreClientReasoningBlocks_preserves (hread "a" (by decide)) (hread "b" (by decide)) rfl rfl
  obtain ⟨body, messages, hout, hmessages, -, hpreserved⟩ := hpreserves.1
  refine ⟨body, messages, ?_, hmessages, hpreserved (.inr (by decide +kernel))⟩
  obtain ⟨hsame, rfl⟩ | hout := hout
  · exact hsame
  · exact hout

/-- A client without reasoning does not keep an invented block from leaving. -/
theorem restoreClientReasoningBlocks_invented :
    (Sample.bodies [Sample.asked, Sample.body [Sample.thought "b"]]).fromSlice
        (restoreClientReasoningBlocks (Sample.bodies [Sample.asked, Sample.body [Sample.thought "b"]])
          ((Sample.bodies []).toVec (Sample.body [Sample.thought "b"]))
          ((Sample.bodies []).toVec Sample.asked)) = some (Sample.body [Sample.thought "b"]) ∧
      signedReasoningPreserved (messagesOf Sample.asked) (messagesOf (Sample.body [Sample.thought "b"])) =
        false := by
  decide +kernel

end Headroom.Reasoning
