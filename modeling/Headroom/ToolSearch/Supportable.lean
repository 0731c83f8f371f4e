import Headroom.ToolSearch.RepairedContent

/-!
# A conversation that its request supports

The repair goes through the messages with the calls that stand so far. Every result that it keeps has a call in
front of it, and no tool that it can read off a result is missing. A search call goes with the results of its own
message only, and a reference without a name that the repair reads is kept.

## Main statements

* `supportable_stripUnsupportedBlocks` : every conversation.
-/

open Foundation

namespace Headroom.ToolSearch

variable {available : List String} {hasSearchTool : Bool} {messages tools : List Json} {message block : Json}
  {s : RepairState} {i j : ℕ}

/-! ### What a conversation should be -/

/-- A block is kept, gives way to a text, or is a result of the client with another content. -/
def BlockKept (block block' : Json) : Prop :=
  block' = block ∨
    ((resultFamily? block ≠ none ∨ block.getStr? "type" = some "server_tool_use") ∧
      (block' = placeholderBlock ∨ block' = serverResultPlaceholderBlock)) ∨
    (block.getStr? "type" = some "tool_result" ∧ ∃ content, block' = block.insert "content" content)

/-- A message keeps its fields and the places of its blocks. -/
def MessageKept (message message' : Json) : Prop :=
  (∀ key, key ≠ "content" → message'.get? key = message.get? key) ∧
    (message.getArr? "content" = none → message' = message) ∧
    List.Forall₂ BlockKept (messageBlocks message) (messageBlocks message')

/-- A block does not stand at its place any more. -/
def Replaced (messages out : List Json) (i j : ℕ) : Prop := blockAt out i j ≠ blockAt messages i j

/-- A call that stands in front of a place, under an id. -/
def CallBefore (out : List Json) (i j : ℕ) (id : String) (family : Option ServerToolFamily) : Prop :=
  ∃ i' j' call, blockAt out i' j' = some call ∧ (i' < i ∨ (i' = i ∧ j' < j)) ∧ serverCall? call = some (id, family)

/-- A call of a server tool, by the family of its name. -/
def IsCallOf (family : ServerToolFamily) (block : Json) : Prop :=
  block.getStr? "type" = some "server_tool_use" ∧ serverCallFamily ((block.getStr? "name").getD "") = some family

/-- The references of a result of the client that name a tool, with the tool. -/
def ClientReference (block : Json) (name : String) : Prop :=
  block.getStr? "type" = some "tool_result" ∧ ∃ inner, block.getArr? "content" = some inner ∧
    ∃ reference ∈ inner, reference.getStr? "type" = some "tool_reference" ∧ clientReferenceName reference = some name

/-- What the repair of a conversation gives. -/
structure Supportable (messages tools : List Json) (out : RepairOutcome) : Prop where
  /-- Every message and every block keeps its place. -/
  kept : List.Forall₂ MessageKept messages out.messages
  /-- Every result that is left has a call in front of it. -/
  paired : ∀ i j block family, blockAt out.messages i j = some block → resultFamily? block = some family →
    ∃ id callFamily, block.getStr? "tool_use_id" = some id ∧ CallBefore out.messages i j id callFamily ∧
      (callFamily = some family ∨ callFamily = none)
  /-- A reference of a client result that is left names an available tool, when it names one. -/
  client_references : ∀ i j block name, blockAt out.messages i j = some block → ClientReference block name →
    name ∈ availableToolNames tools
  /-- So does a reference that is read in the result of a search. -/
  search_references : ∀ i j block name, blockAt out.messages i j = some block →
    resultFamily? block = some .search →
    name ∈ toolSearchReferenceNames ((block.get? "content").getD .null) → name ∈ availableToolNames tools
  /-- Without a search tool no search is left. -/
  no_search : hasTypedSearchTool tools = false → ∀ i j block, blockAt out.messages i j = some block →
    resultFamily? block ≠ some .search ∧ ¬ IsCallOf .search block
  /-- A search call goes with a result of its own message. -/
  search_calls : ∀ i j j' call result id, blockAt messages i j = some call → IsCallOf .search call →
    call.getStr? "id" = some id → id ≠ "" → blockAt messages i j' = some result → resultFamily? result ≠ none →
    result.getStr? "tool_use_id" = some id → Replaced messages out.messages i j' → Replaced messages out.messages i j
  /-- A call of another family goes only with a result of its own message. -/
  other_calls : ∀ i j call, blockAt messages i j = some call → call.getStr? "type" = some "server_tool_use" →
    ¬ IsCallOf .search call → Replaced messages out.messages i j →
    ∃ j' result id, blockAt messages i j' = some result ∧ resultFamily? result ≠ none ∧
      call.getStr? "id" = some id ∧ result.getStr? "tool_use_id" = some id ∧ Replaced messages out.messages i j'
  /-- Nothing is counted when nothing changes. -/
  counted : out.neutralized = 0 ↔ out.messages = messages
  /-- A second repair changes nothing. -/
  stable : stripUnsupportedBlocks out.messages tools = { messages := out.messages, neutralized := 0 }

/-! ### One message -/

variable (available hasSearchTool) in
/-- A message with its repaired blocks. -/
def repairedMessage (seen : CallMap) (message : Json) : Json :=
  match message.getArr? "content" with
  | none => message
  | some content => message.insert "content" (.arr (repairedBlocks available hasSearchTool seen content))

theorem messageBlocks_repairedMessage (seen : CallMap) (message : Json) :
    messageBlocks (repairedMessage available hasSearchTool seen message) =
      repairedBlocks available hasSearchTool seen (messageBlocks message) := by
  cases hcontent : message.getArr? "content" with
  | none =>
    rw [repairedMessage, hcontent, messageBlocks, hcontent]
    rfl
  | some content =>
    have hblocks : messageBlocks message = content := by rw [messageBlocks, hcontent, Option.getD_some]
    rw [repairedMessage, hcontent, messageBlocks_insert hcontent, hblocks]

/-- What the repair does at a message. -/
theorem repairMessage_spec (available : List String) (hasSearchTool : Bool) (message : Json) (s : RepairState) :
    (repairMessage available hasSearchTool message s).1 =
        repairedMessage available hasSearchTool s.seenServerCalls message ∧
      (repairMessage available hasSearchTool message s).2.seenServerCalls =
        (messageBlocks (repairedMessage available hasSearchTool s.seenServerCalls message)).foldl noteCall
          s.seenServerCalls ∧
      s.neutralized ≤ (repairMessage available hasSearchTool message s).2.neutralized ∧
      ((repairMessage available hasSearchTool message s).2.neutralized = s.neutralized ↔
        repairedMessage available hasSearchTool s.seenServerCalls message = message) ∧
      ((repairMessage available hasSearchTool message s).2.changed = true ↔ s.changed = true ∨
        (repairMessage available hasSearchTool message s).2.neutralized ≠ s.neutralized) := by
  rw [messageBlocks_repairedMessage s.seenServerCalls message]
  cases hcontent : message.getArr? "content" with
  | none =>
    have hnone : messageBlocks message = [] := by rw [messageBlocks, hcontent, Option.getD_none]
    rw [repairMessage, repairedMessage, hcontent, hnone]
    exact ⟨rfl, rfl, le_rfl, iff_of_true rfl rfl, (or_iff_left (not_not.2 rfl)).symm⟩
  | some content =>
    have hsome : messageBlocks message = content := by rw [messageBlocks, hcontent, Option.getD_some]
    obtain ⟨hcontent', hseen, -, -⟩ :=
      repairContent_eq available hasSearchTool content s
    obtain ⟨hle, hcount, hchanged⟩ :=
      repairContent_counts available hasSearchTool content s
    rw [hcontent'] at hcount
    have hinsert : message.insert "content"
          (.arr (repairedBlocks available hasSearchTool s.seenServerCalls content)) = message ↔
        repairedBlocks available hasSearchTool s.seenServerCalls content = content := by
      constructor
      · intro hsame
        have hget : (message.insert "content" (.arr (repairedBlocks available hasSearchTool s.seenServerCalls
          content))).getArr? "content" = some _ := getArr?_insert_self hcontent
        rw [hsame, hcontent] at hget
        exact (Option.some.inj hget).symm
      · intro hsame
        rw [hsame, insert_getArr?_self hcontent]
    rw [repairMessage, repairedMessage, hcontent, hsome]
    simp only
    rw [hcontent', hinsert]
    exact ⟨rfl, hseen, hle, hcount, hchanged⟩

theorem repairMessage_repaired (message : Json) (s s' : RepairState) (hseen : s'.seenServerCalls = s.seenServerCalls) :
    repairMessage available hasSearchTool (repairMessage available hasSearchTool message s).1 s' =
      ((repairMessage available hasSearchTool message s).1,
        { s' with seenServerCalls := (repairMessage available hasSearchTool message s).2.seenServerCalls }) := by
  cases hcontent : message.getArr? "content" with
  | none =>
    have hsame (s : RepairState) : repairMessage available hasSearchTool message s = (message, s) := by
      rw [repairMessage, hcontent]
    rw [hsame s, hsame s', ← hseen]
  | some content =>
    have hfirst : repairMessage available hasSearchTool message s =
        (message.insert "content" (.arr (repairContent available hasSearchTool content s).1),
          (repairContent available hasSearchTool content s).2) := by
      rw [repairMessage, hcontent]
    have hcontent' : (message.insert "content"
          (.arr (repairContent available hasSearchTool content s).1)).getArr? "content" =
        some (repairContent available hasSearchTool content s).1 := getArr?_insert_self hcontent
    obtain ⟨hblocks, hstate⟩ :=
      repairContent_repaired available hasSearchTool content s s' hseen
    rw [hfirst, repairMessage, hcontent']
    simp only
    rw [hblocks, hstate, insert_getArr?_self hcontent']

/-! ### All messages -/

theorem seenServerCalls_thread (messages : List Json) (s : RepairState) :
    (thread (repairMessage available hasSearchTool) messages s).2.seenServerCalls =
      ((thread (repairMessage available hasSearchTool) messages s).1.flatMap messageBlocks).foldl noteCall
        s.seenServerCalls := by
  induction messages generalizing s with
  | nil => rfl
  | cons message messages ih =>
    obtain ⟨hmessage, hseen, -⟩ :=
      repairMessage_spec available hasSearchTool message s
    rw [thread_cons, List.flatMap_cons, List.foldl_append, hmessage, ← hseen]
    exact ih _

theorem counts_thread (available : List String) (hasSearchTool : Bool) (messages : List Json) (s : RepairState) :
    s.neutralized ≤ (thread (repairMessage available hasSearchTool) messages s).2.neutralized ∧
      ((thread (repairMessage available hasSearchTool) messages s).2.neutralized = s.neutralized ↔
        (thread (repairMessage available hasSearchTool) messages s).1 = messages) ∧
      ((thread (repairMessage available hasSearchTool) messages s).2.changed = true ↔ s.changed = true ∨
        (thread (repairMessage available hasSearchTool) messages s).2.neutralized ≠ s.neutralized) := by
  induction messages generalizing s with
  | nil => exact ⟨le_rfl, iff_of_true rfl rfl, (or_iff_left (not_not.2 rfl)).symm⟩
  | cons message messages ih =>
    obtain ⟨hmessage, -, hle, hcount, hchanged⟩ :=
      repairMessage_spec available hasSearchTool message s
    obtain ⟨hle', hcount', hchanged'⟩ := ih (repairMessage available hasSearchTool message s).2
    rw [thread_cons]
    simp only
    rw [List.cons.injEq, hmessage, ← hcount, ← hcount', hchanged', hchanged, or_assoc]
    exact ⟨by omega, by omega, or_congr_right (by omega)⟩

theorem thread_repaired (messages : List Json) (s s' : RepairState)
    (hseen : s'.seenServerCalls = s.seenServerCalls) :
    thread (repairMessage available hasSearchTool) (thread (repairMessage available hasSearchTool) messages s).1 s' =
      ((thread (repairMessage available hasSearchTool) messages s).1,
        { s' with
          seenServerCalls := (thread (repairMessage available hasSearchTool) messages s).2.seenServerCalls }) := by
  induction messages generalizing s s' with
  | nil => rw [thread_nil, thread_nil, ← hseen]
  | cons message messages ih =>
    have hrest := ih (repairMessage available hasSearchTool message s).2
      { s' with seenServerCalls := (repairMessage available hasSearchTool message s).2.seenServerCalls } rfl
    rw [thread_cons, thread_cons, repairMessage_repaired message s s' hseen]
    simp only
    rw [hrest]

/-- The calls that stand in front of a message. -/
def callsBefore (out : List Json) (i : ℕ) : CallMap := callsOf ((out.take i).flatMap messageBlocks)

variable (messages tools) in
/-- The messages that the repair puts out. -/
def repairedMessages : List Json :=
  (thread (repairMessage (availableToolNames tools) (hasTypedSearchTool tools)) messages
    { seenServerCalls := fun _ => none, neutralized := 0, changed := false }).1

theorem getElem?_repairedMessages (i : ℕ) :
    (repairedMessages messages tools)[i]? = messages[i]?.map fun message =>
      repairedMessage (availableToolNames tools) (hasTypedSearchTool tools)
        (callsBefore (repairedMessages messages tools) i) message := by
  rw [repairedMessages, getElem?_thread]
  refine Option.map_congr fun message _ => ?_
  obtain ⟨hmessage, -⟩ := repairMessage_spec (availableToolNames tools) (hasTypedSearchTool tools) message
    (thread (repairMessage (availableToolNames tools) (hasTypedSearchTool tools)) (messages.take i)
      { seenServerCalls := fun _ => none, neutralized := 0, changed := false }).2
  rw [hmessage, seenServerCalls_thread, ← take_thread]
  rfl

/-- The blocks of a repaired message. -/
theorem blockAt_repairedMessages (i j : ℕ) :
    blockAt (repairedMessages messages tools) i j = messages[i]?.bind fun message =>
      (repairedBlocks (availableToolNames tools) (hasTypedSearchTool tools)
        (callsBefore (repairedMessages messages tools) i) (messageBlocks message))[j]? := by
  rw [blockAt, getElem?_repairedMessages, Option.bind_map]
  refine Option.bind_congr fun message _ => ?_
  rw [Function.comp_apply, messageBlocks_repairedMessage]

theorem exists_of_blockAt_repairedMessages (hat : blockAt (repairedMessages messages tools) i j = some block) :
    ∃ message, messages[i]? = some message ∧
      (repairedBlocks (availableToolNames tools) (hasTypedSearchTool tools)
        (callsBefore (repairedMessages messages tools) i) (messageBlocks message))[j]? = some block := by
  rw [blockAt_repairedMessages] at hat
  exact Option.bind_eq_some_iff.1 hat

/-! ### What is kept -/

theorem blockKept_rewriteClient (block : Json) : BlockKept block (rewriteClient available block) := by
  rw [rewriteClient, clientRewrite?]
  split_ifs with htype
  · cases dropDeadClientReferences available block with
    | none => exact .inl rfl
    | some rewrite => exact .inr (.inr ⟨htype, rewrite.1, rfl⟩)
  · exact .inl rfl

theorem forall₂_blockKept (seen : CallMap) (content : List Json) :
    List.Forall₂ BlockKept content (repairedBlocks available hasSearchTool seen content) := by
  have hlength : content.length = (repairedBlocks available hasSearchTool seen content).length := by
    rw [repairedBlocks, List.length_map, List.length_zipIdx]
  refine List.forall₂_iff_get.2 ⟨hlength, fun i hbefore hafter => ?_⟩
  obtain ⟨block, hblock, hkept⟩ := exists_of_repairedBlocks (List.getElem?_eq_getElem hafter)
  rw [List.getElem?_eq_getElem hbefore, Option.some.injEq] at hblock
  rw [List.get_eq_getElem, List.get_eq_getElem, hblock]
  rcases hkept with ⟨hgoes, htext⟩ | ⟨-, hrewrite⟩
  · exact .inr (.inl ⟨hgoes.type, htext⟩)
  · rw [hrewrite]
    exact blockKept_rewriteClient block

theorem messageKept_repairedMessage (seen : CallMap) (message : Json) :
    MessageKept message (repairedMessage available hasSearchTool seen message) := by
  refine ⟨fun key hkey => ?_, fun hnone => ?_, ?_⟩
  · rw [repairedMessage]
    cases message.getArr? "content" with
    | none => rfl
    | some content => exact Json.get?_insert_of_ne hkey
  · rw [repairedMessage, hnone]
  · rw [messageBlocks_repairedMessage]
    exact forall₂_blockKept seen _

theorem kept_repairedMessages (messages tools : List Json) :
    List.Forall₂ MessageKept messages (repairedMessages messages tools) := by
  refine forall₂_thread (fun message _ s => ?_) _
  obtain ⟨hmessage, -⟩ := repairMessage_spec (availableToolNames tools) (hasTypedSearchTool tools) message s
  rw [hmessage]
  exact messageKept_repairedMessage _ message

/-! ### What is left -/

theorem kept_of_blockAt (hat : blockAt (repairedMessages messages tools) i j = some block)
    (htext : block.getStr? "type" ≠ some "text") (hresult : block.getStr? "type" ≠ some "tool_result") :
    ∃ message, messages[i]? = some message ∧ (messageBlocks message)[j]? = some block ∧
      ¬ Goes (availableToolNames tools) (hasTypedSearchTool tools)
        (callsBefore (repairedMessages messages tools) i) (messageBlocks message) j block := by
  obtain ⟨message, hmessage, hblock⟩ := exists_of_blockAt_repairedMessages hat
  obtain ⟨hbefore, hstays⟩ := kept_of_repairedBlocks hblock htext hresult
  exact ⟨message, hmessage, hbefore, hstays⟩

variable {family : ServerToolFamily}

/-- A result that is left is supported, and some call answers to it. -/
theorem supported_of_blockAt
    (hat : blockAt (repairedMessages messages tools) i j = some block) (hfamily : resultFamily? block = some family) :
    isSupported (availableToolNames tools) (hasTypedSearchTool tools) family block = true ∧
      ∃ message, messages[i]? = some message ∧
        ¬ Goes (availableToolNames tools) (hasTypedSearchTool tools)
          (callsBefore (repairedMessages messages tools) i) (messageBlocks message) j block ∧
        isPaired (callsBefore (repairedMessages messages tools) i) (callsOf ((messageBlocks message).take j))
          family block = true := by
  have hresult : resultFamily? block ≠ none := by rw [hfamily]; exact nofun
  obtain ⟨message, hmessage, hbefore, hstays⟩ :=
    kept_of_blockAt hat (type_of_result hresult).1 (type_of_result hresult).2
  have hkept : ¬ isOrphan (availableToolNames tools) (hasTypedSearchTool tools)
      (callsBefore (repairedMessages messages tools) i) (callsOf ((messageBlocks message).take j)) block = true :=
    fun h => hstays (.inl ⟨hbefore, h⟩)
  rw [isOrphan_of_resultFamily? hfamily, Bool.not_eq_true', Bool.not_eq_false, Bool.and_eq_true] at hkept
  exact ⟨hkept.1, message, hmessage, hstays, hkept.2⟩

variable {id : String}

theorem exists_of_pairOk {m : CallMap} (h : pairOk m id family = true) :
    ∃ callFamily, m id = some callFamily ∧ (callFamily = some family ∨ callFamily = none) := by
  rw [pairOk] at h
  cases hcall : m id with
  | none =>
    rw [hcall] at h
    exact absurd h (by simp)
  | some callFamily =>
    cases callFamily with
    | none => exact ⟨none, rfl, .inr rfl⟩
    | some f =>
      rw [hcall] at h
      exact ⟨some f, rfl, .inl (congrArg some (by simpa using h))⟩

theorem callBefore_of_callsBefore {out : List Json} {callFamily : Option ServerToolFamily}
    (h : callsBefore out i id = some callFamily) : CallBefore out i j id callFamily := by
  obtain ⟨call, hmem, hcall⟩ := exists_of_callsOf h
  obtain ⟨message, hmessage, hblock⟩ := List.mem_flatMap.1 hmem
  obtain ⟨i', hi', rfl⟩ := List.mem_take_iff_getElem.1 hmessage
  obtain ⟨j', hj'⟩ := List.mem_iff_getElem?.1 hblock
  have hlength : i' < out.length := by omega
  refine ⟨i', j', call, ?_, .inl (by omega), hcall⟩
  rw [blockAt, List.getElem?_eq_getElem hlength]
  exact hj'

theorem callBefore_of_callsOf {callFamily : Option ServerToolFamily} (hmessage : messages[i]? = some message)
    (hresult : resultFamily? block ≠ none) (huse : block.getStr? "tool_use_id" = some id)
    (hstays : ¬ Goes (availableToolNames tools) (hasTypedSearchTool tools)
      (callsBefore (repairedMessages messages tools) i) (messageBlocks message) j block)
    (h : callsOf ((messageBlocks message).take j) id = some callFamily) :
    CallBefore (repairedMessages messages tools) i j id callFamily := by
  obtain ⟨call, hmem, hcall⟩ := exists_of_callsOf h
  obtain ⟨j', hj', rfl⟩ := List.mem_take_iff_getElem.1 hmem
  have htype := type_of_serverCall? hcall
  have hlength : j' < (messageBlocks message).length := by omega
  have hcallStays : ¬ Goes (availableToolNames tools) (hasTypedSearchTool tools)
      (callsBefore (repairedMessages messages tools) i) (messageBlocks message) j' (messageBlocks message)[j'] := by
    rintro (horphan | hgoes | hanswers)
    · obtain ⟨family, hfamily⟩ := resultFamily?_of_isOrphan horphan.2
      exact (type_of_resultFamily? hfamily).2 htype
    · exact hstays (.inr (.inr ⟨hresult, id, huse, _, List.getElem_mem hlength, ⟨callFamily, hcall⟩, hgoes⟩))
    · exact hanswers.1 (resultFamily?_of_call htype)
  refine ⟨i, j', (messageBlocks message)[j'], ?_, .inr ⟨rfl, by omega⟩, hcall⟩
  rw [blockAt_repairedMessages, hmessage]
  exact getElem?_repairedBlocks_of_stays (List.getElem?_eq_getElem hlength) hcallStays (by rw [htype]; decide)

theorem paired_repairedMessages
    (hat : blockAt (repairedMessages messages tools) i j = some block) (hfamily : resultFamily? block = some family) :
    ∃ id callFamily, block.getStr? "tool_use_id" = some id ∧
      CallBefore (repairedMessages messages tools) i j id callFamily ∧
      (callFamily = some family ∨ callFamily = none) := by
  obtain ⟨-, message, hmessage, hstays, hpaired⟩ := supported_of_blockAt hat hfamily
  rw [isPaired] at hpaired
  cases huse : block.getStr? "tool_use_id" with
  | none =>
    rw [huse] at hpaired
    exact absurd hpaired (by simp)
  | some id =>
    rw [huse] at hpaired
    simp only [Bool.and_eq_true, Bool.or_eq_true] at hpaired
    obtain ⟨-, hseen | hfamilies⟩ := hpaired
    · obtain ⟨callFamily, hcall, hagree⟩ := exists_of_pairOk hseen
      exact ⟨id, callFamily, rfl, callBefore_of_callsBefore hcall, hagree⟩
    · obtain ⟨callFamily, hcall, hagree⟩ := exists_of_pairOk hfamilies
      have hresult : resultFamily? block ≠ none := by simp [hfamily]
      exact ⟨id, callFamily, rfl, callBefore_of_callsOf hmessage hresult huse hstays hcall, hagree⟩

theorem client_reference_repairedMessages {name : String}
    (hat : blockAt (repairedMessages messages tools) i j = some block) (href : ClientReference block name) :
    name ∈ availableToolNames tools := by
  obtain ⟨htype, inner, hinner, reference, hreference, href, hname⟩ := href
  obtain ⟨message, -, hblock⟩ := exists_of_blockAt_repairedMessages hat
  have hrewrite := clientRewrite?_repairedBlocks (List.mem_of_getElem? hblock)
  rw [clientRewrite?, if_pos htype, dropDeadClientReferences_eq_none_iff] at hrewrite
  have hlive := hrewrite inner hinner reference hreference
  rw [isDeadReference, href, hname] at hlive
  simpa using hlive

theorem search_reference_repairedMessages {name : String}
    (hat : blockAt (repairedMessages messages tools) i j = some block) (hfamily : resultFamily? block = some .search)
    (hname : name ∈ toolSearchReferenceNames ((block.get? "content").getD .null)) :
    name ∈ availableToolNames tools := by
  have hsupported := (supported_of_blockAt hat hfamily).1
  rw [isSupported, Bool.and_eq_true, List.all_eq_true] at hsupported
  simpa using hsupported.2 name hname

theorem no_search_repairedMessages (htool : hasTypedSearchTool tools = false)
    (hat : blockAt (repairedMessages messages tools) i j = some block) :
    resultFamily? block ≠ some .search ∧ ¬ IsCallOf .search block := by
  constructor
  · intro hfamily
    have hsupported := (supported_of_blockAt hat hfamily).1
    rw [isSupported, htool] at hsupported
    exact absurd hsupported nofun
  · rintro ⟨htype, hsearch⟩
    obtain ⟨message, -, -, hstays⟩ := kept_of_blockAt hat (by rw [htype]; decide) (by rw [htype]; decide)
    exact not_search_of_not_callGoes htype (fun h => hstays (.inr (.inl h))) ⟨hsearch, htool⟩

/-! ### Which calls go -/

/-- A block of a server tool does not stand at its place any more when it goes. -/
theorem replaced_iff_goes (hmessage : messages[i]? = some message) (hat : (messageBlocks message)[j]? = some block)
    (hresult : block.getStr? "type" ≠ some "tool_result") :
    Replaced messages (repairedMessages messages tools) i j ↔
      Goes (availableToolNames tools) (hasTypedSearchTool tools)
        (callsBefore (repairedMessages messages tools) i) (messageBlocks message) j block := by
  rw [Replaced, blockAt_repairedMessages, blockAt, hmessage, Option.bind_some, Option.bind_some, hat]
  constructor
  · intro hne
    by_contra hstays
    exact hne (getElem?_repairedBlocks_of_stays hat hstays hresult)
  · intro hgoes hsame
    have htext : block.getStr? "type" ≠ some "text" := by
      rcases hgoes.type with hfamily | htype
      · exact (type_of_result hfamily).1
      · rw [htype]
        decide
    exact (kept_of_repairedBlocks hsame htext hresult).2 hgoes

theorem exists_message_of_blockAt (hat : blockAt messages i j = some block) :
    ∃ message, messages[i]? = some message ∧ (messageBlocks message)[j]? = some block :=
  Option.bind_eq_some_iff.1 hat

theorem callGoes_of_answered {seen : CallMap} {content : List Json} {call : Json}
    (hcall : IsCallOf .search call) (hid : call.getStr? "id" = some id) (hne : id ≠ "")
    (huse : block.getStr? "tool_use_id" = some id) (hresult : resultFamily? block ≠ none)
    (hgoes : Goes available hasSearchTool seen content j block) :
    CallGoes available hasSearchTool seen content call := by
  have hcallGoes : CallGoes available hasSearchTool seen content call ↔
      id ∈ orphanedIds available hasSearchTool seen content ∨ hasSearchTool = false := by
    rw [CallGoes, isDroppedCall, hcall.1, hcall.2, hid]
    simp
  rw [hcallGoes]
  rcases hgoes with horphan | hgoes | ⟨-, id', huse', call', -, ⟨family, hserver⟩, hgoes⟩
  · exact .inl (mem_orphanedIds_iff.2 ⟨hne, j, block, horphan, huse⟩)
  · exact absurd (resultFamily?_of_call (type_of_callGoes hgoes)) hresult
  · obtain rfl : id = id' := Option.some.inj (huse.symm.trans huse')
    have hid' : call'.getStr? "id" = some id := getStr?_id_of_serverCall? hserver
    rw [CallGoes, isDroppedCall, hid', Bool.and_eq_true, Bool.or_eq_true, Bool.and_eq_true] at hgoes
    obtain ⟨-, horphaned | ⟨-, htool⟩⟩ := hgoes
    · exact .inl (by simpa using horphaned)
    · exact .inr (by simpa using htool)

theorem search_call_repairedMessages {j' : ℕ} {call result : Json}
    (hat : blockAt messages i j = some call) (hcall : IsCallOf .search call) (hid : call.getStr? "id" = some id)
    (hne : id ≠ "") (hat' : blockAt messages i j' = some result) (hresult : resultFamily? result ≠ none)
    (huse : result.getStr? "tool_use_id" = some id) (hreplaced : Replaced messages (repairedMessages messages tools) i j') :
    Replaced messages (repairedMessages messages tools) i j := by
  obtain ⟨message, hmessage, hblock⟩ := exists_message_of_blockAt hat
  obtain ⟨message', hmessage', hblock'⟩ := exists_message_of_blockAt hat'
  obtain rfl : message = message' := Option.some.inj (hmessage.symm.trans hmessage')
  rw [replaced_iff_goes hmessage hblock' (type_of_result hresult).2] at hreplaced
  rw [replaced_iff_goes hmessage hblock (by rw [hcall.1]; decide)]
  exact .inr (.inl (callGoes_of_answered hcall hid hne huse hresult hreplaced))

theorem other_call_repairedMessages {call : Json} (hat : blockAt messages i j = some call)
    (htype : call.getStr? "type" = some "server_tool_use") (hsearch : ¬ IsCallOf .search call)
    (hreplaced : Replaced messages (repairedMessages messages tools) i j) :
    ∃ j' result id, blockAt messages i j' = some result ∧ resultFamily? result ≠ none ∧
      call.getStr? "id" = some id ∧ result.getStr? "tool_use_id" = some id ∧
      Replaced messages (repairedMessages messages tools) i j' := by
  obtain ⟨message, hmessage, hblock⟩ := exists_message_of_blockAt hat
  rw [replaced_iff_goes hmessage hblock (by rw [htype]; decide)] at hreplaced
  have hgoes : CallGoes (availableToolNames tools) (hasTypedSearchTool tools)
      (callsBefore (repairedMessages messages tools) i) (messageBlocks message) call := by
    rcases hreplaced with horphan | hgoes | hanswers
    · obtain ⟨family, hfamily⟩ := resultFamily?_of_isOrphan horphan.2
      exact absurd htype (type_of_resultFamily? hfamily).2
    · exact hgoes
    · exact absurd (resultFamily?_of_call htype) hanswers.1
  rw [CallGoes, isDroppedCall, htype, Bool.and_eq_true, Bool.or_eq_true, Bool.and_eq_true, decide_eq_true_eq,
    decide_eq_true_eq] at hgoes
  obtain ⟨-, horphaned | ⟨hfamily, -⟩⟩ := hgoes
  · obtain ⟨hne, j', result, horphan, huse⟩ := mem_orphanedIds_iff.1 horphaned
    obtain ⟨family, hfamily⟩ := resultFamily?_of_isOrphan horphan.2
    have hresult : resultFamily? result ≠ none := by simp [hfamily]
    refine ⟨j', result, (call.getStr? "id").getD "", ?_, hresult, ?_, huse, ?_⟩
    · rw [blockAt, hmessage]
      exact horphan.1
    · cases hid : call.getStr? "id" with
      | none =>
        rw [hid] at hne
        exact absurd rfl hne
      | some id => rfl
    · rw [replaced_iff_goes hmessage horphan.1 (type_of_result hresult).2]
      exact .inl horphan
  · exact absurd ⟨htype, of_decide_eq_true hfamily⟩ hsearch

/-! ### The conversation -/

theorem neutralized_eq_zero_iff :
    (stripUnsupportedBlocks messages tools).neutralized = 0 ↔ repairedMessages messages tools = messages := by
  obtain ⟨-, hcount, hchanged⟩ := counts_thread (availableToolNames tools) (hasTypedSearchTool tools) messages
    { seenServerCalls := fun _ => none, neutralized := 0, changed := false }
  rw [or_iff_right nofun] at hchanged
  rw [repairedMessages, ← hcount, stripUnsupportedBlocks]
  simp only
  by_cases hzero : (thread (repairMessage (availableToolNames tools) (hasTypedSearchTool tools)) messages
      { seenServerCalls := fun _ => none, neutralized := 0, changed := false }).2.neutralized = 0
  · rw [hzero, ite_self]
  · rw [if_pos (hchanged.2 hzero)]

theorem stripUnsupportedBlocks_repairedMessages :
    stripUnsupportedBlocks (repairedMessages messages tools) tools =
      { messages := repairedMessages messages tools, neutralized := 0 } := by
  rw [stripUnsupportedBlocks, repairedMessages, thread_repaired messages _ _ rfl]
  rfl

/-- A repair leaves what the tools of the request support, and a second one changes nothing. -/
theorem supportable_stripUnsupportedBlocks (messages tools : List Json) :
    Supportable messages tools (stripUnsupportedBlocks messages tools) where
  kept := kept_repairedMessages messages tools
  paired _ _ _ _ hat hfamily := paired_repairedMessages hat hfamily
  client_references _ _ _ _ hat href := client_reference_repairedMessages hat href
  search_references _ _ _ _ hat hfamily hname := search_reference_repairedMessages hat hfamily hname
  no_search htool _ _ _ hat := no_search_repairedMessages htool hat
  search_calls _ _ _ _ _ _ hat hcall hid hne hat' hresult huse hreplaced :=
    search_call_repairedMessages hat hcall hid hne hat' hresult huse hreplaced
  other_calls _ _ _ hat htype hsearch hreplaced := other_call_repairedMessages hat htype hsearch hreplaced
  counted := neutralized_eq_zero_iff
  stable := stripUnsupportedBlocks_repairedMessages

/-! ### What is not given -/

/-- Every reference that is left in a result names an available tool, in one of its fields. -/
def ReferencesResolve (tools out : List Json) : Prop :=
  ∀ i j block inner reference, blockAt out i j = some block →
    (resultFamily? block ≠ none ∨ block.getStr? "type" = some "tool_result") →
    block.getArr? "content" = some inner → reference ∈ inner → reference.getStr? "type" = some "tool_reference" →
    ∃ name, (reference.getStr? "tool_name" = some name ∨ reference.getStr? "name" = some name) ∧
      name ∈ availableToolNames tools

/-- A result under an id, at its place. -/
def ResultAt (messages : List Json) (i j : ℕ) (id : String) : Prop :=
  ∃ result, blockAt messages i j = some result ∧ resultFamily? result ≠ none ∧
    result.getStr? "tool_use_id" = some id

/-- A search call all of whose results go does not stand at its place either. -/
def SearchCallsFollow (messages out : List Json) : Prop :=
  ∀ i j call id, blockAt messages i j = some call → IsCallOf .search call → call.getStr? "id" = some id →
    (∃ i' j', ResultAt messages i' j' id) → (∀ i' j', ResultAt messages i' j' id → Replaced messages out i' j') →
    Replaced messages out i j

/-- No call of another known family goes. -/
def OtherCallsSurvive (messages out : List Json) : Prop :=
  ∀ i j call, blockAt messages i j = some call → (IsCallOf .webSearch call ∨ IsCallOf .codeExec call) →
    ¬ Replaced messages out i j

def searchTool : Json := .obj [("type", .str "tool_search_tool_regex"), ("name", .str "tool_search")]

def call (name id : String) : Json :=
  .obj [("type", .str "server_tool_use"), ("id", .str id), ("name", .str name)]

def searchResult (id : String) (references : List Json) : Json :=
  .obj [("type", .str "tool_search_tool_result"), ("tool_use_id", .str id),
    ("content", .obj [("tool_references", .arr references)])]

def turn (blocks : List Json) : Json := .obj [("role", .str "assistant"), ("content", .arr blocks)]

/-- A reference without a name in a result of the client. -/
def namelessReference : List Json :=
  [turn [.obj [("type", .str "tool_result"), ("tool_use_id", .str "t1"),
    ("content", .arr [.obj [("type", .str "tool_reference")]])]]]

/-- A search that found a tool that is gone, with its result in the next message. -/
def splitSearch : List Json :=
  [turn [call "tool_search_tool_regex" "s1"],
    turn [searchResult "s1" [.obj [("type", .str "tool_reference"), ("tool_name", .str "gone")]]]]

/-- A result of a search under the id of a web search. -/
def mismatchedPair : List Json := [turn [call "web_search" "w1", searchResult "w1" []]]

/-- A reference without a name is left, a search call in an earlier message is left without its result, and a call
of a web search goes with a result of another family. -/
theorem not_all_resolved :
    ¬ ReferencesResolve [] (stripUnsupportedBlocks namelessReference []).messages ∧
      ¬ SearchCallsFollow splitSearch (stripUnsupportedBlocks splitSearch [searchTool]).messages ∧
      ¬ OtherCallsSurvive mismatchedPair (stripUnsupportedBlocks mismatchedPair [searchTool]).messages := by
  refine ⟨fun h => ?_, fun h => ?_, fun h => ?_⟩
  · obtain ⟨name, -, hname⟩ := h 0 0 _ _ (.obj [("type", .str "tool_reference")])
      (show blockAt (stripUnsupportedBlocks namelessReference []).messages 0 0 = some (.obj
        [("type", .str "tool_result"), ("tool_use_id", .str "t1"),
          ("content", .arr [.obj [("type", .str "tool_reference")]])]) by decide +kernel)
      (.inr (by decide +kernel)) rfl List.mem_cons_self (by decide +kernel)
    exact absurd hname List.not_mem_nil
  · refine h 0 0 (call "tool_search_tool_regex" "s1") "s1" (by decide +kernel) ⟨by decide +kernel, by decide +kernel⟩
      (by decide +kernel) ⟨1, 0, _, rfl, by decide +kernel, by decide +kernel⟩ ?_ (by decide +kernel)
    rintro i j ⟨result, hat, hresult, -⟩
    rcases i with - | - | i
    · rcases j with - | j
      · obtain rfl := Option.some.inj hat
        exact absurd (by decide +kernel) hresult
      · exact absurd hat nofun
    · rcases j with - | j
      · unfold Replaced
        decide +kernel
      · exact absurd hat nofun
    · exact absurd hat nofun
  · refine h 0 0 (call "web_search" "w1") (by decide +kernel) (.inl ⟨by decide +kernel, by decide +kernel⟩) ?_
    unfold Replaced
    decide +kernel

end Headroom.ToolSearch
