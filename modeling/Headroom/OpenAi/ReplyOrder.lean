import Mathlib.Data.List.Perm.Subperm
import Headroom.OpenAi.ChatRequest

/-!
# Replies behind their calls

Chat Completions wants the replies to an assistant's calls right behind them. The messages of a request
are put together turn by turn: an assistant's calls, the system messages that are held, and the user's
message with the results. What the user says besides results is sent before them, and so the replies
stand behind their calls exactly if the user says nothing else.

## Main results

* `repliesKept_iff` : when the replies stand behind their calls.
-/

open Foundation

namespace Headroom.OpenAi

/-! ### Elements and what stands behind them -/

section Everywhere

variable {α : Type*} {Q : α → List α → Prop} {a : α} {l l' : List α}

/-- A property of every element and what stands behind it. -/
def Everywhere (Q : α → List α → Prop) : List α → Prop
  | [] => True
  | a :: l => Q a l ∧ Everywhere Q l

theorem everywhere_of_append (h : Everywhere Q (l ++ l')) : Everywhere Q l' := by
  induction l with
  | nil => exact h
  | cons a l ih => exact ih h.2

theorem everywhere_append_iff (h : ∀ a ∈ l, ∀ rest, Q a rest) :
    Everywhere Q (l ++ l') ↔ Everywhere Q l' := by
  induction l with
  | nil => exact Iff.rfl
  | cons a l ih =>
    refine (and_iff_right (h a List.mem_cons_self _)).trans ?_
    exact ih fun b hb => h b (List.mem_cons_of_mem a hb)

end Everywhere

/-! ### Calls, replies and texts -/

def contentBlocks (msg : Json) : List Json := (msg.getArr? "content").getD []

/-- The ids of an assistant's calls. -/
def callIds (msg : Json) : List String :=
  ((contentBlocks msg).filter isToolUse).map fun block => (block.getStr? "id").getD ""

def isToolResult (block : Json) : Bool := block.getStr? "type" = some "tool_result"

/-- The ids that a user's results name. -/
def answerIds (msg : Json) : List String :=
  ((contentBlocks msg).filter isToolResult).map fun block => (block.getStr? "tool_use_id").getD ""

/-- The ids of the calls of a message that is sent. -/
def toolCallIds (m : Json) : List String :=
  ((m.getArr? "tool_calls").getD []).map fun call => (call.getStr? "id").getD ""

def isReply (m : Json) : Bool := m.getStr? "role" = some "tool"

def replyId (m : Json) : String := (m.getStr? "tool_call_id").getD ""

/-- The next messages are replies, one to each call. -/
def Replied (m : Json) (rest : List Json) : Prop :=
  (∀ r ∈ rest.take (toolCallIds m).length, isReply r = true) ∧
    ((rest.take (toolCallIds m).length).map replyId).Perm (toolCallIds m)

/-- What is said in a message that is sent. -/
def spokenText? (m : Json) : Option String :=
  if isReply m then none
  else
    match m.get? "content" with
    | some (.str s) => some s
    | some (.arr parts) => some (joinLines (parts.filterMap blockText?))
    | _ => none

/-- The texts that are sent, in order. -/
def spoken (messages : List Json) : List String := (messages.filterMap spokenText?).filter (· ≠ "")

variable (outside : ChatOutside)

/-- What a block of a user's message says; one that cannot be carried says so. -/
def userText? (block : Json) : Option String :=
  match block.getStr? "type" with
  | some type =>
    if type = "text" then block.getStr? "text"
    else if type = "tool_result" then none
    else if type = "image" then
      if (imageBlockToDataUrl outside block).isSome then none else some (omittedBlock "image")
    else some (omittedBlock type)
  | none => some (omittedBlock "unknown")

/-- What is said in a message of the client. -/
def clientText (msg : Json) : String :=
  if roleOf msg = "user" then
    match msg.get? "content" with
    | some (.str s) => s
    | some (.arr blocks) => joinLines (blocks.filterMap (userText? outside))
    | _ => ""
  else if roleOf msg = "assistant" then
    match msg.get? "content" with
    | some (.str s) => s
    | some (.arr blocks) => joinLines (blocks.filterMap blockText?)
    | _ => ""
  else plainMessageText msg

def promptText (anthropic : Json) : String :=
  match anthropic.get? "system" with
  | some (.str s) => s
  | some (.arr blocks) => joinLines (blocks.filterMap (Json.getStr? "text"))
  | _ => ""

/-- The texts of a request, in order. -/
def clientTexts (anthropic : Json) (msgs : List Json) : List String :=
  (promptText anthropic :: msgs.map (clientText outside)).filter (· ≠ "")

/-- The results of a message of the client. -/
def resultsOf (msg : Json) : List Json :=
  if roleOf msg = "user" then (contentBlocks msg).filter isToolResult else []

def isSystem (msg : Json) : Bool := roleOf msg = "system" || roleOf msg = "developer"

/-- The calls of an assistant's message have ids of their own, and are answered by the next message that
is no system message, a user's. -/
def AnsweredByNext (msg : Json) (rest : List Json) : Prop :=
  roleOf msg = "assistant" → callIds msg ≠ [] → (callIds msg).Nodup ∧
    ∃ user, rest.find? (fun m => !isSystem m) = some user ∧ roleOf user = "user" ∧
      ∀ id ∈ callIds msg, id ∈ answerIds user

/-- A block that says nothing besides a result. -/
def Quiet (block : Json) : Prop :=
  block.getStr? "type" = some "tool_result" ∨
    block.getStr? "type" = some "text" ∧ block.getStr? "text" = none

/-- The user says nothing but results, and answers each call first. -/
def Leads (msg user : Json) : Prop :=
  (∀ block ∈ contentBlocks user, Quiet block) ∧
    ((answerIds user).take (callIds msg).length).Perm (callIds msg)

/-- The message that answers an assistant's calls leads with their results. -/
def ResultsLead (msg : Json) (rest : List Json) : Prop :=
  roleOf msg = "assistant" → callIds msg ≠ [] →
    ∀ user, rest.find? (fun m => !isSystem m) = some user → Leads msg user

/-! ### Emission -/

/-- What is sent for a message at once. -/
def pushed (msg : Json) : List Json :=
  if roleOf msg = "user" then translateUserMessage outside msg
  else if roleOf msg = "assistant" then translateAssistantMessage true msg
  else []

/-- What is held for a message. -/
def heldBy (msg : Json) : List Json :=
  if isSystem msg ∧ plainMessageText msg ≠ "" then [textMessage "system" (plainMessageText msg)] else []

/-- The messages that are sent, from a state on. -/
def emit (waiting : Bool) (held : List Json) : List Json → List Json
  | [] => held
  | msg :: msgs =>
    if (if pushed outside msg = [] then waiting else awaitingReplies (pushed outside msg)) then
      pushed outside msg ++ emit true (held ++ heldBy msg) msgs
    else pushed outside msg ++ (held ++ heldBy msg) ++ emit false [] msgs

theorem add_eq (s : ChatDraft) (msg : Json) : s.add outside true msg =
    { messages := s.messages ++ pushed outside msg, held := s.held ++ heldBy msg } := by
  rw [ChatDraft.add, pushed, heldBy, isSystem]
  by_cases huser : roleOf msg = "user"
  · simp [huser]
  · by_cases hassistant : roleOf msg = "assistant"
    · simp [hassistant]
    · by_cases hsystem : roleOf msg = "system" ∨ roleOf msg = "developer"
      · by_cases htext : plainMessageText msg = ""
        · simp [huser, hassistant, hsystem, htext]
        · simp [huser, hassistant, hsystem, htext]
      · have hboth := not_or.mp hsystem
        simp [huser, hassistant, hboth.1, hboth.2]

theorem awaitingReplies_append (a b : List Json) : awaitingReplies (a ++ b) =
    if b = [] then awaitingReplies a else awaitingReplies b := by
  rw [awaitingReplies, awaitingReplies, awaitingReplies]
  split_ifs with h
  · rw [h, List.append_nil]
  · rw [List.getLast?_append_of_ne_nil a h]

theorem awaitingReplies_of_plain {l : List Json} (h : ∀ m ∈ l, m.get? "tool_calls" = none) :
    awaitingReplies l = false := by
  rw [awaitingReplies]
  cases hlast : l.getLast? with
  | none => rfl
  | some m =>
    rw [Option.bind_some, h m (List.mem_of_getLast? hlast)]
    rfl

theorem plain_heldBy (msg : Json) : ∀ m ∈ heldBy msg, m.get? "tool_calls" = none := by
  intro m hm
  rw [heldBy] at hm
  split_ifs at hm
  · rw [List.mem_singleton.mp hm]
    rfl
  · exact absurd hm List.not_mem_nil

theorem run_eq_emit (msgs : List Json) (s : ChatDraft) (hheld : ∀ m ∈ s.held, m.get? "tool_calls" = none) :
    (msgs.foldl (ChatDraft.step outside true) s).flush.messages =
      s.messages ++ emit outside (awaitingReplies s.messages) s.held msgs := by
  induction msgs generalizing s with
  | nil => rfl
  | cons msg msgs ih =>
    have hplain : ∀ m ∈ s.held ++ heldBy msg, m.get? "tool_calls" = none := by
      intro m hm
      rcases List.mem_append.mp hm with hm | hm
      · exact hheld m hm
      · exact plain_heldBy msg m hm
    rw [List.foldl_cons, ChatDraft.step, add_eq, emit]
    dsimp only
    rw [← awaitingReplies_append]
    by_cases hwaiting : awaitingReplies (s.messages ++ pushed outside msg) = true
    · rw [if_pos hwaiting, if_pos hwaiting, ih _ hplain, hwaiting, List.append_assoc]
    · have hrest : awaitingReplies (s.messages ++ pushed outside msg ++ (s.held ++ heldBy msg)) = false := by
        rw [awaitingReplies_append]
        split_ifs
        · exact eq_false_of_ne_true hwaiting
        · exact awaitingReplies_of_plain hplain
      rw [if_neg hwaiting, if_neg hwaiting]
      refine (ih _ fun m hm => absurd hm List.not_mem_nil).trans ?_
      show s.messages ++ pushed outside msg ++ (s.held ++ heldBy msg) ++
        emit outside (awaitingReplies (s.messages ++ pushed outside msg ++ (s.held ++ heldBy msg))) [] msgs = _
      rw [hrest]
      simp only [List.append_assoc]

theorem awaitingReplies_systemPrompt (anthropic : Json) : awaitingReplies (systemPrompt anthropic) = false := by
  rw [systemPrompt]
  split <;> rfl

theorem chatMessages_eq {anthropic : Json} {msgs : List Json} (h : anthropic.getArr? "messages" = some msgs) :
    chatMessages outside true anthropic = systemPrompt anthropic ++ emit outside false [] msgs := by
  rw [chatMessages, h]
  dsimp only
  rw [run_eq_emit outside msgs _ fun m hm => absurd hm List.not_mem_nil, awaitingReplies_systemPrompt]

/-! ### A user's message -/

variable {outside} {msg user m : Json} {blocks rest msgs systems held : List Json}

theorem contentBlocks_of_arr (h : msg.get? "content" = some (.arr blocks)) : contentBlocks msg = blocks := by
  rw [contentBlocks, Json.getArr?, h]
  rfl

theorem contentBlocks_of_not_arr (h : ∀ blocks, msg.get? "content" ≠ some (.arr blocks)) :
    contentBlocks msg = [] := by
  rw [contentBlocks, Json.getArr?]
  cases hcontent : msg.get? "content" with
  | none => rfl
  | some value =>
    cases value with
    | arr blocks => exact absurd hcontent (h blocks)
    | _ => rfl

theorem parts_foldl (outside : ChatOutside) (blocks : List Json) (parts : UserParts) :
    (blocks.foldl (UserParts.addBlock outside) parts).textParts =
        parts.textParts ++ blocks.filterMap (userText? outside) ∧
      (blocks.foldl (UserParts.addBlock outside) parts).toolResults =
        parts.toolResults ++ blocks.filter isToolResult ∧
      ((blocks.foldl (UserParts.addBlock outside) parts).textParts = [] ∧
          (blocks.foldl (UserParts.addBlock outside) parts).imageUrls = [] ↔
        (parts.textParts = [] ∧ parts.imageUrls = []) ∧ ∀ block ∈ blocks, Quiet block) := by
  have hone : ∀ (parts : UserParts) (block : Json),
      (parts.addBlock outside block).textParts = parts.textParts ++ (userText? outside block).toList ∧
        (parts.addBlock outside block).toolResults =
          parts.toolResults ++ (if isToolResult block then [block] else []) ∧
        ((parts.addBlock outside block).textParts = [] ∧ (parts.addBlock outside block).imageUrls = [] ↔
          (parts.textParts = [] ∧ parts.imageUrls = []) ∧ Quiet block) := by
    intro parts block
    rw [UserParts.addBlock, userText?, isToolResult, Quiet]
    cases htype : block.getStr? "type" with
    | none => simp
    | some type =>
      by_cases htext : type = "text"
      · cases block.getStr? "text" with
        | none => simp [htext]
        | some text => simp [htext]
      · by_cases hresult : type = "tool_result"
        · simp [hresult]
        · by_cases himage : type = "image"
          · cases imageBlockToDataUrl outside block with
            | none => simp [himage]
            | some url => simp [himage]
          · simp [htext, hresult, himage]
  induction blocks generalizing parts with
  | nil => simp
  | cons block blocks ih =>
    obtain ⟨htexts, hresults, hquiet⟩ := hone parts block
    obtain ⟨hrestTexts, hrestResults, hrestQuiet⟩ := ih (parts.addBlock outside block)
    rw [List.foldl_cons]
    refine ⟨?_, ?_, ?_⟩
    · rw [hrestTexts, htexts, List.append_assoc]
      cases hsaid : userText? outside block with
      | none => rw [List.filterMap_cons_none hsaid, Option.toList_none, List.nil_append]
      | some text => rw [List.filterMap_cons_some hsaid, Option.toList_some, List.singleton_append]
    · rw [hrestResults, hresults, List.append_assoc, List.filter_cons]
      split <;> rfl
    · rw [hrestQuiet, hquiet, and_assoc, List.forall_mem_cons]

/-- A user's message in blocks: what is said, and then the results. -/
theorem translateUserMessage_of_arr (outside : ChatOutside) (h : user.get? "content" = some (.arr blocks)) :
    ∃ parts : UserParts, translateUserMessage outside user =
        parts.said ++ (blocks.filter isToolResult).map (toolMessage outside) ∧
      parts.textParts = blocks.filterMap (userText? outside) ∧
      (parts.said = [] ↔ ∀ block ∈ blocks, Quiet block) := by
  obtain ⟨htexts, hresults, hquiet⟩ := parts_foldl outside blocks {}
  have hsaid : (blocks.foldl (UserParts.addBlock outside) {}).said = [] ↔ ∀ block ∈ blocks, Quiet block := by
    refine Iff.trans ?_ (hquiet.trans (and_iff_right ⟨rfl, rfl⟩))
    rw [UserParts.said]
    split_ifs with hnone himages
    · exact iff_of_true rfl hnone
    · exact iff_of_false not_false hnone
    · exact iff_of_false not_false hnone
  have hgeneral : translateUserBlocks outside blocks =
      (blocks.foldl (UserParts.addBlock outside) {}).said ++
        (blocks.filter isToolResult).map (toolMessage outside) := by
    rw [translateUserBlocks, hresults]
    rfl
  refine ⟨_, ?_, htexts, hsaid⟩
  rw [← hgeneral, translateUserMessage, h]
  dsimp only
  split
  · split_ifs with hresult
    · -- A single result says nothing else.
      rename_i block
      have hquiet : (([block].foldl (UserParts.addBlock outside) {}).said) = [] :=
        hsaid.mpr fun b hb => Or.inl (by rwa [List.mem_singleton.mp hb])
      rw [hgeneral, hquiet, List.nil_append, List.filter_cons_of_pos (by rw [isToolResult, hresult]; rfl)]
      rfl
    · rfl
  · rfl

/-- What is said besides results is no reply, and has no calls. -/
theorem said_of_mem {parts : UserParts} (h : m ∈ parts.said) : isReply m = false ∧ m.get? "tool_calls" = none := by
  rw [UserParts.said] at h
  split_ifs at h
  · exact absurd h List.not_mem_nil
  · rw [List.mem_singleton.mp h]
    exact ⟨rfl, rfl⟩
  · rw [List.mem_singleton.mp h]
    exact ⟨rfl, rfl⟩

theorem isReply_toolMessage (block : Json) : isReply (toolMessage outside block) = true := rfl

/-- What is sent for a user has no calls. -/
theorem plain_translateUserMessage (h : m ∈ translateUserMessage outside user) : m.get? "tool_calls" = none := by
  by_cases harr : ∃ blocks, user.get? "content" = some (.arr blocks)
  · obtain ⟨blocks, hblocks⟩ := harr
    obtain ⟨parts, heq, -, -⟩ := translateUserMessage_of_arr outside hblocks
    rw [heq] at h
    rcases List.mem_append.mp h with h | h
    · exact (said_of_mem h).2
    · obtain ⟨block, -, rfl⟩ := List.mem_map.mp h
      rfl
  · rw [translateUserMessage] at h
    split at h
    · rw [List.mem_singleton.mp h]
      rfl
    · rename_i blocks hblocks
      exact absurd ⟨blocks, hblocks⟩ harr
    · rw [List.mem_singleton.mp h]
      rfl

theorem toolCallIds_of_plain (h : m.get? "tool_calls" = none) : toolCallIds m = [] := by
  rw [toolCallIds, Json.getArr?, h]
  rfl

theorem replied_of_plain (h : m.get? "tool_calls" = none) : Replied m rest := by
  rw [Replied, toolCallIds_of_plain h]
  exact ⟨fun r hr => absurd hr List.not_mem_nil, List.Perm.refl _⟩

/-! ### An assistant's message -/

/-- An assistant's message is one message, with its calls. -/
theorem translateAssistantMessage_spec (msg : Json) : ∃ m, translateAssistantMessage true msg = [m] ∧
    isReply m = false ∧ toolCallIds m = callIds msg ∧
      (callIds msg = [] → m.get? "tool_calls" = none) ∧ (callIds msg ≠ [] → (m.get? "tool_calls").isSome) := by
  by_cases harr : ∃ blocks, msg.get? "content" = some (.arr blocks)
  · obtain ⟨blocks, hblocks⟩ := harr
    have hids : callIds msg = (blocks.filter isToolUse).map fun block => (block.getStr? "id").getD "" := by
      rw [callIds, contentBlocks_of_arr hblocks]
    rw [translateAssistantMessage, hblocks, hids]
    dsimp only
    by_cases hcalls : blocks.filter isToolUse = []
    · rw [hcalls, if_neg (fun h => h.2 rfl)]
      exact ⟨_, rfl, rfl, rfl, fun _ => rfl, fun h => absurd rfl h⟩
    · rw [if_pos ⟨rfl, fun h => hcalls (List.map_eq_nil_iff.mp h)⟩]
      refine ⟨_, rfl, rfl, ?_, fun h => absurd (List.map_eq_nil_iff.mp h) hcalls, fun _ => rfl⟩
      exact List.map_map
  · have hids : callIds msg = [] := by
      rw [callIds, contentBlocks_of_not_arr fun blocks hblocks => harr ⟨blocks, hblocks⟩]
      rfl
    rw [hids, translateAssistantMessage]
    split
    · exact ⟨_, rfl, rfl, rfl, fun _ => rfl, fun h => absurd rfl h⟩
    · rename_i blocks hblocks
      exact absurd ⟨blocks, hblocks⟩ harr
    · exact ⟨_, rfl, rfl, rfl, fun _ => rfl, fun h => absurd rfl h⟩

/-! ### Turns -/

/-- The messages of a client whose calls are answered, turn by turn. -/
inductive Turns : List Json → Prop
  | nil : Turns []
  | plain {msg : Json} {rest : List Json} (hcalls : roleOf msg = "assistant" → callIds msg = [])
      (h : Turns rest) : Turns (msg :: rest)
  | answered {msg : Json} {systems : List Json} {user : Json} {rest : List Json}
      (hassistant : roleOf msg = "assistant") (hcalls : callIds msg ≠ []) (hnodup : (callIds msg).Nodup)
      (hsystems : ∀ s ∈ systems, isSystem s = true) (huser : roleOf user = "user")
      (hids : ∀ id ∈ callIds msg, id ∈ answerIds user) (h : Turns rest) :
      Turns (msg :: (systems ++ user :: rest))

theorem turns_of_answered (h : Everywhere AnsweredByNext msgs) : Turns msgs := by
  generalize hn : msgs.length = n
  induction n using Nat.strong_induction_on generalizing msgs with
  | _ n ih =>
    cases msgs with
    | nil => exact .nil
    | cons msg rest =>
      rw [List.length_cons] at hn
      by_cases hcalls : roleOf msg = "assistant" → callIds msg = []
      · exact .plain hcalls (ih rest.length (by omega) h.2 rfl)
      · obtain ⟨hassistant, hsome⟩ := Classical.not_imp.mp hcalls
        obtain ⟨hnodup, user, hfind, huser, hids⟩ := h.1 hassistant hsome
        obtain ⟨-, systems, rest', rfl, hsystems⟩ := List.find?_eq_some_iff_append.mp hfind
        refine .answered hassistant hsome hnodup (fun s hs => ?_) huser hids
          (ih rest'.length ?_ (everywhere_of_append (l := systems ++ [user]) ?_) rfl)
        · simpa using hsystems s hs
        · rw [← hn, List.length_append, List.length_cons]
          omega
        · rw [List.append_assoc]
          exact h.2

theorem not_assistant_of_isSystem (h : isSystem msg = true) : roleOf msg ≠ "assistant" ∧ roleOf msg ≠ "user" := by
  rw [isSystem, Bool.or_eq_true, decide_eq_true_eq, decide_eq_true_eq] at h
  rcases h with h | h <;> rw [h] <;> decide

theorem find?_systems (hsystems : ∀ s ∈ systems, isSystem s = true) (huser : roleOf user = "user") :
    (systems ++ user :: rest).find? (fun m => !isSystem m) = some user := by
  rw [List.find?_append, List.find?_eq_none.mpr fun s hs => by rw [hsystems s hs]; decide, Option.none_or]
  refine List.find?_cons_of_pos ?_
  rw [isSystem, huser]
  rfl

/-- Whether the results lead is decided turn by turn. -/
theorem resultsLead_plain_iff (hcalls : roleOf msg = "assistant" → callIds msg = []) :
    Everywhere ResultsLead (msg :: rest) ↔ Everywhere ResultsLead rest :=
  and_iff_right fun hassistant hsome => absurd (hcalls hassistant) hsome

theorem resultsLead_answered_iff (hassistant : roleOf msg = "assistant") (hcalls : callIds msg ≠ [])
    (hsystems : ∀ s ∈ systems, isSystem s = true) (huser : roleOf user = "user") :
    Everywhere ResultsLead (msg :: (systems ++ user :: rest)) ↔
      Leads msg user ∧ Everywhere ResultsLead rest := by
  refine and_congr ?_ ?_
  · rw [ResultsLead, find?_systems hsystems huser]
    exact ⟨fun h => h hassistant hcalls user rfl, fun h _ _ user' huser' => Option.some.inj huser' ▸ h⟩
  · rw [everywhere_append_iff fun s hs rest hassistant' => absurd hassistant'
      (not_assistant_of_isSystem (hsystems s hs)).1]
    refine resultsLead_plain_iff fun h => ?_
    rw [huser] at h
    exact absurd h (by decide)

/-! ### What a turn emits -/

theorem pushed_user (h : roleOf msg = "user") : pushed outside msg = translateUserMessage outside msg := by
  rw [pushed, if_pos h]

theorem pushed_assistant (h : roleOf msg = "assistant") :
    pushed outside msg = translateAssistantMessage true msg := by
  rw [pushed, if_neg (by rw [h]; decide), if_pos h]

theorem pushed_system (h : isSystem msg = true) : pushed outside msg = [] := by
  rw [pushed, if_neg (not_assistant_of_isSystem h).2, if_neg (not_assistant_of_isSystem h).1]

theorem heldBy_of_not_system (h : isSystem msg = false) : heldBy msg = [] := by
  rw [heldBy, h]
  exact if_neg fun hboth => absurd hboth.1 Bool.false_ne_true

theorem plain_pushed (hcalls : roleOf msg = "assistant" → callIds msg = []) (h : m ∈ pushed outside msg) :
    m.get? "tool_calls" = none := by
  by_cases huser : roleOf msg = "user"
  · rw [pushed_user huser] at h
    exact plain_translateUserMessage h
  · by_cases hassistant : roleOf msg = "assistant"
    · obtain ⟨m', heq, -, -, hplain, -⟩ := translateAssistantMessage_spec msg
      rw [pushed_assistant hassistant, heq] at h
      rw [List.mem_singleton.mp h]
      exact hplain (hcalls hassistant)
    · rw [pushed, if_neg huser, if_neg hassistant] at h
      exact absurd h List.not_mem_nil

theorem emit_plain (hcalls : roleOf msg = "assistant" → callIds msg = []) :
    emit outside false [] (msg :: rest) = pushed outside msg ++ heldBy msg ++ emit outside false [] rest := by
  rw [emit, awaitingReplies_of_plain fun m hm => plain_pushed hcalls hm, ite_self,
    if_neg Bool.false_ne_true, List.nil_append]

theorem emit_systems (hsystems : ∀ s ∈ systems, isSystem s = true) :
    emit outside true held (systems ++ rest) = emit outside true (held ++ systems.flatMap heldBy) rest := by
  induction systems generalizing held with
  | nil => rw [List.flatMap_nil, List.append_nil, List.nil_append]
  | cons s systems ih =>
    rw [List.cons_append, emit, pushed_system (hsystems s List.mem_cons_self), if_pos rfl, if_pos rfl,
      List.nil_append, ih fun s' hs' => hsystems s' (List.mem_cons_of_mem s hs'), List.flatMap_cons,
      List.append_assoc]

theorem emit_answered (hassistant : roleOf msg = "assistant") (hcalls : callIds msg ≠ [])
    (hsystems : ∀ s ∈ systems, isSystem s = true) (huser : roleOf user = "user")
    (hsent : translateUserMessage outside user ≠ []) :
    emit outside false [] (msg :: (systems ++ user :: rest)) = translateAssistantMessage true msg ++
      (translateUserMessage outside user ++ (systems.flatMap heldBy ++ emit outside false [] rest)) := by
  obtain ⟨m, heq, -, -, -, hwaits⟩ := translateAssistantMessage_spec msg
  have hwaiting : awaitingReplies [m] = true := hwaits hcalls
  have hheld : ∀ {msg : Json}, roleOf msg = "assistant" ∨ roleOf msg = "user" → heldBy msg = [] := by
    intro msg hrole
    refine heldBy_of_not_system (eq_false_of_ne_true fun hsystem => ?_)
    exact hrole.elim (not_assistant_of_isSystem hsystem).1 (not_assistant_of_isSystem hsystem).2
  have hdone : awaitingReplies (translateUserMessage outside user) = false :=
    awaitingReplies_of_plain fun m hm => plain_translateUserMessage hm
  rw [emit, pushed_assistant hassistant, heq, if_neg (List.cons_ne_nil m []), if_pos hwaiting,
    hheld (Or.inl hassistant), List.nil_append, emit_systems hsystems, emit, pushed_user huser,
    if_neg hsent, hdone, if_neg Bool.false_ne_true, hheld (Or.inr huser)]
  simp only [List.nil_append, List.append_nil, List.append_assoc]

theorem user_answers (outside : ChatOutside) (h : answerIds user ≠ []) : ∃ said replies, translateUserMessage outside user = said ++ replies ∧
    (∀ m ∈ said, isReply m = false) ∧ (∀ r ∈ replies, isReply r = true) ∧
      replies.map replyId = answerIds user ∧ (said = [] ↔ ∀ block ∈ contentBlocks user, Quiet block) := by
  have harr : ∃ blocks, user.get? "content" = some (.arr blocks) := by
    by_contra hnot
    rw [answerIds, contentBlocks_of_not_arr fun blocks hblocks => hnot ⟨blocks, hblocks⟩] at h
    exact h rfl
  obtain ⟨blocks, hblocks⟩ := harr
  obtain ⟨parts, heq, -, hquiet⟩ := translateUserMessage_of_arr outside hblocks
  rw [answerIds, contentBlocks_of_arr hblocks]
  refine ⟨parts.said, _, heq, fun m hm => (said_of_mem hm).1, fun r hr => ?_, ?_, hquiet⟩
  · obtain ⟨block, -, rfl⟩ := List.mem_map.mp hr
    exact isReply_toolMessage block
  · exact List.map_map

theorem plain_helds (systems : List Json) : ∀ m ∈ systems.flatMap heldBy, m.get? "tool_calls" = none := by
  intro m hm
  obtain ⟨s, -, hs⟩ := List.mem_flatMap.mp hm
  exact plain_heldBy s m hs

theorem replied_iff_leads {said replies : List Json} (hm : toolCallIds m = callIds msg)
    (hcalls : callIds msg ≠ []) (hnodup : (callIds msg).Nodup) (hids : ∀ id ∈ callIds msg, id ∈ answerIds user)
    (hsaid : ∀ m ∈ said, isReply m = false) (hreplies : ∀ r ∈ replies, isReply r = true)
    (hanswers : replies.map replyId = answerIds user)
    (hquiet : said = [] ↔ ∀ block ∈ contentBlocks user, Quiet block) :
    Replied m (said ++ replies ++ rest) ↔ Leads msg user := by
  rw [Replied, hm, Leads, ← hquiet]
  have hle : (callIds msg).length ≤ replies.length := by
    rw [← List.length_map (f := replyId), hanswers]
    exact (List.subperm_of_subset hnodup hids).length_le
  cases said with
  | nil =>
    rw [List.nil_append, List.take_append_of_le_length hle, List.map_take, hanswers]
    refine ⟨fun h => ⟨rfl, h.2⟩, fun h => ⟨fun r hr => hreplies r (List.mem_of_mem_take hr), h.2⟩⟩
  | cons first said =>
    refine iff_of_false (fun h => ?_) fun h => absurd h.1 (List.cons_ne_nil first said)
    obtain ⟨n, hn⟩ := Nat.exists_eq_succ_of_ne_zero fun hzero => hcalls (List.length_eq_zero_iff.mp hzero)
    have hfirst := h.1 first (by rw [hn]; exact List.mem_cons_self)
    rw [hsaid first List.mem_cons_self] at hfirst
    exact Bool.false_ne_true hfirst

theorem replied_emit_iff (h : Turns msgs) :
    Everywhere Replied (emit outside false [] msgs) ↔ Everywhere ResultsLead msgs := by
  induction h with
  | nil => exact Iff.rfl
  | @plain msg rest hcalls _ ih =>
    rw [emit_plain hcalls, resultsLead_plain_iff hcalls, everywhere_append_iff, ih]
    intro m hm rest
    rcases List.mem_append.mp hm with hm | hm
    · exact replied_of_plain (plain_pushed hcalls hm)
    · exact replied_of_plain (plain_heldBy msg m hm)
  | @answered msg systems user rest hassistant hcalls hnodup hsystems huser hids _ ih =>
    have hanswer : answerIds user ≠ [] := by
      obtain ⟨id, hid⟩ := List.exists_mem_of_ne_nil _ hcalls
      exact List.ne_nil_of_mem (hids id hid)
    obtain ⟨said, replies, heq, hsaid, hreplies, hanswers, hquiet⟩ := user_answers outside hanswer
    obtain ⟨m, hmsg, -, hm, -, -⟩ := translateAssistantMessage_spec msg
    have hsent : translateUserMessage outside user ≠ [] := by
      intro hnil
      rw [heq] at hnil
      rw [← hanswers, (List.append_eq_nil_iff.mp hnil).2] at hanswer
      exact hanswer rfl
    rw [emit_answered hassistant hcalls hsystems huser hsent, hmsg,
      resultsLead_answered_iff hassistant hcalls hsystems huser, ← ih]
    refine and_congr ?_ ?_
    · show Replied m (translateUserMessage outside user ++ _) ↔ _
      rw [heq]
      exact replied_iff_leads hm hcalls hnodup hids hsaid hreplies hanswers hquiet
    · show Everywhere Replied (translateUserMessage outside user ++ (systems.flatMap heldBy ++ _)) ↔ _
      rw [everywhere_append_iff fun m hm rest => replied_of_plain (plain_translateUserMessage hm),
        everywhere_append_iff fun m hm rest => replied_of_plain (plain_helds systems m hm)]

/-! ### What is said -/

theorem spoken_append (a b : List Json) : spoken (a ++ b) = spoken a ++ spoken b := by
  rw [spoken, List.filterMap_append, List.filter_append]
  rfl

theorem spoken_singleton {text : String} (h : spokenText? m = some text) :
    spoken [m] = [text].filter (· ≠ "") := by
  rw [spoken, List.filterMap_cons_some h]
  rfl

theorem spoken_of_replies (h : ∀ r ∈ rest, isReply r = true) : spoken rest = [] := by
  have hnone : rest.filterMap spokenText? = [] := by
    refine List.filterMap_eq_nil_iff.mpr fun r hr => ?_
    rw [spokenText?, if_pos (h r hr)]
  rw [spoken, hnone]
  rfl

theorem spokenText?_textMessage {role : String} (h : role ≠ "tool") (text : String) :
    spokenText? (textMessage role text) = some text := by
  rw [spokenText?, if_neg]
  · rfl
  · rw [isReply, decide_eq_true_eq]
    exact fun heq => h (Option.some.inj heq)

theorem joinLines_nil : joinLines [] = "" := rfl

theorem texts_textPart (texts : List String) : (texts.map textPart).filterMap blockText? = texts := by
  rw [List.filterMap_map]
  exact List.filterMap_some

theorem texts_imagePart (urls : List String) : (urls.map imagePart).filterMap blockText? = [] := by
  rw [List.filterMap_map]
  exact List.filterMap_eq_nil_iff.mpr fun url _ => rfl

theorem spoken_said (parts : UserParts) : spoken parts.said = [joinLines parts.textParts].filter (· ≠ "") := by
  rw [UserParts.said]
  split_ifs with hnone himages
  · rw [hnone.1, joinLines_nil]
    rfl
  · exact spoken_singleton (spokenText?_textMessage (by decide) _)
  · refine spoken_singleton ?_
    show some (joinLines ((parts.textParts.map textPart ++ parts.imageUrls.map imagePart).filterMap blockText?)) = _
    rw [List.filterMap_append, texts_textPart, texts_imagePart, List.append_nil]

theorem spoken_translateUserMessage (h : roleOf user = "user") :
    spoken (translateUserMessage outside user) = [clientText outside user].filter (· ≠ "") := by
  rw [clientText, if_pos h]
  by_cases harr : ∃ blocks, user.get? "content" = some (.arr blocks)
  · obtain ⟨blocks, hblocks⟩ := harr
    obtain ⟨parts, heq, htexts, -⟩ := translateUserMessage_of_arr outside hblocks
    rw [heq, spoken_append, spoken_said, spoken_of_replies, htexts, hblocks, List.append_nil]
    intro r hr
    obtain ⟨block, -, rfl⟩ := List.mem_map.mp hr
    exact isReply_toolMessage block
  · rw [translateUserMessage]
    cases hcontent : user.get? "content" with
    | none => exact spoken_singleton (spokenText?_textMessage (show "user" ≠ "tool" by decide) _)
    | some value =>
      cases value with
      | arr blocks => exact absurd ⟨blocks, hcontent⟩ harr
      | _ => exact spoken_singleton (spokenText?_textMessage (show "user" ≠ "tool" by decide) _)

theorem spoken_translateAssistantMessage (outside : ChatOutside) (h : roleOf msg = "assistant") :
    spoken (translateAssistantMessage true msg) = [clientText outside msg].filter (· ≠ "") := by
  rw [clientText, if_neg (by rw [h]; decide), if_pos h]
  by_cases harr : ∃ blocks, msg.get? "content" = some (.arr blocks)
  · obtain ⟨blocks, hblocks⟩ := harr
    have htexts : (if blocks.filterMap blockText? = [] then "" else joinLines (blocks.filterMap blockText?)) =
        joinLines (blocks.filterMap blockText?) := by
      split_ifs with hnone
      · rw [hnone, joinLines_nil]
      · rfl
    rw [translateAssistantMessage, hblocks]
    dsimp only
    rw [htexts]
    split_ifs
    · exact spoken_singleton rfl
    · exact spoken_singleton (spokenText?_textMessage (show "assistant" ≠ "tool" by decide) _)
  · rw [translateAssistantMessage]
    cases hcontent : msg.get? "content" with
    | none => exact spoken_singleton (spokenText?_textMessage (show "assistant" ≠ "tool" by decide) _)
    | some value =>
      cases value with
      | arr blocks => exact absurd ⟨blocks, hcontent⟩ harr
      | _ => exact spoken_singleton (spokenText?_textMessage (show "assistant" ≠ "tool" by decide) _)

theorem spoken_heldBy (outside : ChatOutside) (h : isSystem msg = true) :
    spoken (heldBy msg) = [clientText outside msg].filter (· ≠ "") := by
  have hrole := not_assistant_of_isSystem h
  rw [clientText, if_neg hrole.2, if_neg hrole.1, heldBy]
  by_cases htext : plainMessageText msg = ""
  · rw [if_neg fun hboth => hboth.2 htext, htext]
    rfl
  · rw [if_pos ⟨h, htext⟩]
    exact spoken_singleton (spokenText?_textMessage (by decide) _)

/-- A message of the client that has a role. -/
def HasRole (msg : Json) : Prop := roleOf msg = "user" ∨ roleOf msg = "assistant" ∨ isSystem msg = true

theorem spoken_plain (hrole : HasRole msg) :
    spoken (pushed outside msg ++ heldBy msg) = [clientText outside msg].filter (· ≠ "") := by
  rw [spoken_append]
  rcases hrole with h | h | h
  · have hsystem : isSystem msg = false := eq_false_of_ne_true fun hs => (not_assistant_of_isSystem hs).2 h
    rw [pushed_user h, heldBy_of_not_system hsystem, spoken_translateUserMessage h]
    exact List.append_nil _
  · have hsystem : isSystem msg = false := eq_false_of_ne_true fun hs => (not_assistant_of_isSystem hs).1 h
    rw [pushed_assistant h, heldBy_of_not_system hsystem, spoken_translateAssistantMessage outside h]
    exact List.append_nil _
  · rw [pushed_system h, spoken_heldBy outside h]
    rfl

theorem spoken_systems (outside : ChatOutside) (hsystems : ∀ s ∈ systems, isSystem s = true) :
    spoken (systems.flatMap heldBy) = (systems.map (clientText outside)).filter (· ≠ "") := by
  induction systems with
  | nil => rfl
  | cons s systems ih =>
    rw [List.flatMap_cons, spoken_append, spoken_heldBy outside (hsystems s List.mem_cons_self),
      ih fun s' hs' => hsystems s' (List.mem_cons_of_mem s hs'), ← List.filter_append]
    rfl

theorem spoken_emit (h : Turns msgs) (hroles : ∀ msg ∈ msgs, HasRole msg) (hleads : Everywhere ResultsLead msgs) :
    spoken (emit outside false [] msgs) = (msgs.map (clientText outside)).filter (· ≠ "") := by
  induction h with
  | nil => rfl
  | @plain msg rest hcalls _ ih =>
    rw [emit_plain hcalls, spoken_append, spoken_plain (hroles msg List.mem_cons_self),
      ih (fun m hm => hroles m (List.mem_cons_of_mem msg hm)) ((resultsLead_plain_iff hcalls).mp hleads),
      ← List.filter_append]
    rfl
  | @answered msg systems user rest hassistant hcalls hnodup hsystems huser hids _ ih =>
    obtain ⟨hlead, hrest⟩ := (resultsLead_answered_iff hassistant hcalls hsystems huser).mp hleads
    have hanswer : answerIds user ≠ [] := by
      obtain ⟨id, hid⟩ := List.exists_mem_of_ne_nil _ hcalls
      exact List.ne_nil_of_mem (hids id hid)
    obtain ⟨said, replies, heq, -, hreplies, hanswers, hquiet⟩ := user_answers outside hanswer
    have hsent : translateUserMessage outside user ≠ [] := by
      intro hnil
      rw [heq] at hnil
      rw [← hanswers, (List.append_eq_nil_iff.mp hnil).2] at hanswer
      exact hanswer rfl
    -- The user says nothing but results.
    have hsilent : spoken (translateUserMessage outside user) = [] := by
      rw [heq, hquiet.mpr hlead.1, List.nil_append]
      exact spoken_of_replies hreplies
    rw [emit_answered hassistant hcalls hsystems huser hsent, spoken_append, spoken_append, spoken_append,
      spoken_translateAssistantMessage outside hassistant, hsilent, spoken_systems outside hsystems,
      ih (fun m hm => hroles m (by simp [hm])) hrest]
    rw [spoken_translateUserMessage huser] at hsilent
    rw [List.map_cons, List.map_append, List.map_cons]
    show _ = List.filter _ ([clientText outside msg] ++
      (systems.map (clientText outside) ++ ([clientText outside user] ++ rest.map (clientText outside))))
    rw [List.filter_append, List.filter_append, List.filter_append, hsilent, List.nil_append, List.nil_append]

/-! ### Results -/

theorem replies_translateUserMessage (h : roleOf user = "user") :
    (translateUserMessage outside user).filter isReply = (resultsOf user).map (toolMessage outside) := by
  rw [resultsOf, if_pos h]
  by_cases harr : ∃ blocks, user.get? "content" = some (.arr blocks)
  · obtain ⟨blocks, hblocks⟩ := harr
    obtain ⟨parts, heq, -, -⟩ := translateUserMessage_of_arr outside hblocks
    rw [heq, List.filter_append, contentBlocks_of_arr hblocks,
      List.filter_eq_nil_iff.mpr fun m hm => by rw [(said_of_mem hm).1]; decide, List.nil_append]
    refine List.filter_eq_self.mpr fun r hr => ?_
    obtain ⟨block, -, rfl⟩ := List.mem_map.mp hr
    exact isReply_toolMessage block
  · rw [contentBlocks_of_not_arr fun blocks hblocks => harr ⟨blocks, hblocks⟩, translateUserMessage]
    split
    · rfl
    · rename_i blocks hblocks
      exact absurd ⟨blocks, hblocks⟩ harr
    · rfl

theorem replies_pushed (msg : Json) :
    (pushed outside msg).filter isReply = (resultsOf msg).map (toolMessage outside) := by
  by_cases huser : roleOf msg = "user"
  · rw [pushed_user huser, replies_translateUserMessage huser]
  · rw [resultsOf, if_neg huser, pushed, if_neg huser]
    split_ifs
    · obtain ⟨m, heq, hreply, -⟩ := translateAssistantMessage_spec msg
      rw [heq, List.filter_cons_of_neg (by rw [hreply]; decide)]
      rfl
    · rfl

theorem replies_heldBy (msg : Json) : (heldBy msg).filter isReply = [] := by
  rw [heldBy]
  split_ifs <;> rfl

theorem replies_emit (waiting : Bool) (held msgs : List Json) (hheld : held.filter isReply = []) :
    (emit outside waiting held msgs).filter isReply = (msgs.flatMap resultsOf).map (toolMessage outside) := by
  induction msgs generalizing waiting held with
  | nil => exact hheld
  | cons msg msgs ih =>
    have hmore : (held ++ heldBy msg).filter isReply = [] := by
      rw [List.filter_append, hheld, replies_heldBy]
      rfl
    rw [emit, List.flatMap_cons, List.map_append, ← replies_pushed]
    generalize (if pushed outside msg = [] then waiting else awaitingReplies (pushed outside msg)) = waits
    split_ifs
    · rw [List.filter_append, ih true _ hmore]
    · rw [List.filter_append, List.filter_append, hmore, ih false [] rfl, List.append_nil]

/-! ### Requests -/

/-- The replies stand behind their calls, and no text is dropped or out of order. -/
structure RepliesKept (outside : ChatOutside) (anthropic : Json) (msgs out : List Json) : Prop where
  replied : Everywhere Replied out
  texts : spoken out = clientTexts outside anthropic msgs
  results : out.filter isReply = (msgs.flatMap resultsOf).map (toolMessage outside)

theorem spoken_systemPrompt (anthropic : Json) :
    spoken (systemPrompt anthropic) = [promptText anthropic].filter (· ≠ "") := by
  rw [systemPrompt, promptText]
  cases anthropic.get? "system" with
  | none => rfl
  | some system =>
    cases system with
    | str s => exact spoken_singleton (spokenText?_textMessage (show "system" ≠ "tool" by decide) _)
    | arr blocks => exact spoken_singleton (spokenText?_textMessage (show "system" ≠ "tool" by decide) _)
    | _ => rfl

theorem plain_systemPrompt (anthropic : Json) : ∀ m ∈ systemPrompt anthropic, m.get? "tool_calls" = none := by
  intro m hm
  rw [systemPrompt] at hm
  split at hm
  · rw [List.mem_singleton.mp hm]
    rfl
  · rw [List.mem_singleton.mp hm]
    rfl
  · exact absurd hm List.not_mem_nil

theorem replies_systemPrompt (anthropic : Json) : (systemPrompt anthropic).filter isReply = [] := by
  rw [systemPrompt]
  split <;> rfl

theorem repliesKept_chatMessages {anthropic : Json} (hmsgs : anthropic.getArr? "messages" = some msgs)
    (hroles : ∀ msg ∈ msgs, HasRole msg) (hanswered : Everywhere AnsweredByNext msgs) :
    RepliesKept outside anthropic msgs (chatMessages outside true anthropic) ↔ Everywhere ResultsLead msgs := by
  have hturns := turns_of_answered hanswered
  have hreplied : Everywhere Replied (chatMessages outside true anthropic) ↔ Everywhere ResultsLead msgs := by
    rw [chatMessages_eq outside hmsgs,
      everywhere_append_iff fun m hm rest => replied_of_plain (plain_systemPrompt anthropic m hm)]
    exact replied_emit_iff hturns
  refine ⟨fun h => hreplied.mp h.replied, fun hleads => ⟨hreplied.mpr hleads, ?_, ?_⟩⟩
  · rw [chatMessages_eq outside hmsgs, spoken_append, spoken_systemPrompt, spoken_emit hturns hroles hleads,
      ← List.filter_append]
    rfl
  · rw [chatMessages_eq outside hmsgs, List.filter_append, replies_systemPrompt, List.nil_append]
    exact replies_emit false [] msgs rfl

def callOf (id name : String) : Json :=
  .obj [("type", .str "tool_use"), ("id", .str id), ("name", .str name), ("input", .obj [])]

def resultOf (id text : String) : Json :=
  .obj [("type", .str "tool_result"), ("tool_use_id", .str id), ("content", .str text)]

def blocksOf (role : String) (blocks : List Json) : Json :=
  .obj [("role", .str role), ("content", .arr blocks)]

def chatRequest (msgs : List Json) : Json := .obj [("model", .str "gpt-5"), ("messages", .arr msgs)]

/-- A call, a system message while it waits, and its result. -/
def answeredCall : List Json :=
  [textMessage "user" "go", blocksOf "assistant" [textPart "looking", callOf "t1" "Bash"],
    textMessage "system" "env", blocksOf "user" [resultOf "t1" "ok"]]

/-- A result, and a text beside it. -/
def textBeside : List Json :=
  [blocksOf "assistant" [callOf "t1" "Bash"], blocksOf "user" [resultOf "t1" "ok", textPart "and now?"]]

end Headroom.OpenAi
