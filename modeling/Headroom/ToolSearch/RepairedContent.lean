import Headroom.ToolSearch.RepairedBlocks

/-!
# What becomes of the blocks of a message

The loops over a message replace the blocks that go and rewrite the results of the client. What is left of the calls
is what the next message sees, and a message that has been repaired has nothing that goes.
-/

open Foundation

namespace Headroom.ToolSearch

variable {available : List String} {hasSearchTool : Bool} {seen : CallMap} {content : List Json} {block : Json}
  {id : String} {i j : ℕ}

/-! ### The places that go -/

variable (available hasSearchTool seen content) in
/-- The ids of the orphans of a message. -/
def orphanedIds : Finset String := (scanOf available hasSearchTool seen content).orphanedIds

variable (available hasSearchTool seen content) in
/-- The places of a message that are replaced, and those of them with the text of the other families. -/
def goneIndexes : Finset ℕ × Finset ℕ :=
  neutralizeResultsOfDroppedCalls content (scanOf available hasSearchTool seen content).messageServerCalls
    (neutralizeUnpairedCalls hasSearchTool content (orphanedIds available hasSearchTool seen content)
      (scanOf available hasSearchTool seen content).neutralizeIndexes,
      (scanOf available hasSearchTool seen content).genericPlaceholderIndexes)

variable (available hasSearchTool seen content) in
/-- A call of the message that goes. -/
def CallGoes (block : Json) : Prop :=
  isDroppedCall hasSearchTool (orphanedIds available hasSearchTool seen content) block = true

variable (available hasSearchTool seen content) in
/-- A block goes as an orphan, as a call, or as a result with the id of a call that goes. -/
def Goes (i : ℕ) (block : Json) : Prop :=
  OrphanAt available hasSearchTool seen content i block ∨
    CallGoes available hasSearchTool seen content block ∨
    (resultFamily? block ≠ none ∧ ∃ id, block.getStr? "tool_use_id" = some id ∧
      ∃ call ∈ content, (∃ family, serverCall? call = some (id, family)) ∧
        CallGoes available hasSearchTool seen content call)

theorem mem_orphanedIds_iff : id ∈ orphanedIds available hasSearchTool seen content ↔
    id ≠ "" ∧ ∃ i block, OrphanAt available hasSearchTool seen content i block ∧
      block.getStr? "tool_use_id" = some id :=
  (scan_spec available hasSearchTool seen content).orphaned id

theorem type_of_callGoes (h : CallGoes available hasSearchTool seen content block) :
    block.getStr? "type" = some "server_tool_use" := by
  rw [CallGoes, isDroppedCall, Bool.and_eq_true, decide_eq_true_eq] at h
  exact h.1

theorem mem_messageServerCalls_iff {call : ℕ × String × Option ServerToolFamily} :
    call ∈ (scanOf available hasSearchTool seen content).messageServerCalls ↔
      ∃ block, content[call.1]? = some block ∧ serverCall? block = some call.2 := by
  obtain ⟨n, call⟩ := call
  rw [(scan_spec available hasSearchTool seen content).calls, List.mem_filterMap]
  constructor
  · rintro ⟨⟨block, m⟩, hmem, hcall⟩
    obtain ⟨call', hcall', heq⟩ := Option.map_eq_some_iff.1 hcall
    obtain ⟨rfl, rfl⟩ := Prod.mk.inj heq
    exact ⟨block, List.mem_zipIdx_iff_getElem?.1 hmem, hcall'⟩
  · rintro ⟨block, hat, hcall⟩
    exact ⟨(block, n), List.mem_zipIdx_iff_getElem?.2 hat, by rw [hcall]; rfl⟩

theorem mem_goneIndexes_iff : i ∈ (goneIndexes available hasSearchTool seen content).1 ↔
    ∃ block, content[i]? = some block ∧ Goes available hasSearchTool seen content i block := by
  have hscan := scan_spec available hasSearchTool seen content
  have hcalls : ∀ call ∈ (scanOf available hasSearchTool seen content).messageServerCalls,
      ∀ x ∈ content.zipIdx, resultFamily? x.1 ≠ none → x.2 ≠ call.1 := by
    rintro call hcall ⟨block, n⟩ hx hresult rfl
    obtain ⟨block', hat, hserver⟩ := mem_messageServerCalls_iff.1 hcall
    obtain rfl : block = block' := Option.some.inj ((List.mem_zipIdx_iff_getElem?.1 hx).symm.trans hat)
    exact hresult (resultFamily?_of_call (type_of_serverCall? hserver))
  -- A call has gone before the results are looked at when its block goes.
  have hgone (call) (hcall : call ∈ (scanOf available hasSearchTool seen content).messageServerCalls) :
      call.1 ∈ neutralizeUnpairedCalls hasSearchTool content (orphanedIds available hasSearchTool seen content)
          (scanOf available hasSearchTool seen content).neutralizeIndexes ↔
        ∃ block, content[call.1]? = some block ∧ CallGoes available hasSearchTool seen content block := by
    rw [mem_neutralizeUnpairedCalls_iff, or_iff_right]
    · rfl
    · rw [hscan.neutralize]
      rintro ⟨block, hat, horphan⟩
      obtain ⟨block', hat', hserver⟩ := mem_messageServerCalls_iff.1 hcall
      obtain rfl : block = block' := Option.some.inj (hat.symm.trans hat')
      obtain ⟨family, hfamily⟩ := resultFamily?_of_isOrphan horphan
      rw [serverCall?_of_resultFamily? hfamily] at hserver
      exact absurd hserver nofun
  rw [goneIndexes, neutralizeResultsOfDroppedCalls, mem_foldl_neutralizeResult_iff hcalls,
    mem_neutralizeUnpairedCalls_iff, hscan.neutralize]
  have hanswers (block : Json) :
      AnswersDropped (scanOf available hasSearchTool seen content).messageServerCalls
          (neutralizeUnpairedCalls hasSearchTool content (orphanedIds available hasSearchTool seen content)
            (scanOf available hasSearchTool seen content).neutralizeIndexes) block ↔
        resultFamily? block ≠ none ∧ ∃ id, block.getStr? "tool_use_id" = some id ∧
          ∃ call ∈ content, (∃ family, serverCall? call = some (id, family)) ∧
            CallGoes available hasSearchTool seen content call := by
    refine and_congr_right fun _ => exists_congr fun id => and_congr_right fun _ => ?_
    constructor
    · rintro ⟨call, hcall, rfl, hindex⟩
      obtain ⟨b, hat, hserver⟩ := mem_messageServerCalls_iff.1 hcall
      obtain ⟨b', hat', hgoes⟩ := (hgone call hcall).1 hindex
      obtain rfl : b = b' := Option.some.inj (hat.symm.trans hat')
      exact ⟨b, List.mem_of_getElem? hat, ⟨_, hserver⟩, hgoes⟩
    · rintro ⟨b, hb, ⟨family, hserver⟩, hgoes⟩
      obtain ⟨n, hat⟩ := List.mem_iff_getElem?.1 hb
      have hcall : (n, id, family) ∈ (scanOf available hasSearchTool seen content).messageServerCalls :=
        mem_messageServerCalls_iff.2 ⟨b, hat, hserver⟩
      exact ⟨_, hcall, rfl, (hgone _ hcall).2 ⟨b, hat, hgoes⟩⟩
  simp only [hanswers, List.mem_zipIdx_iff_getElem?]
  constructor
  · rintro ((⟨b, horphan⟩ | ⟨b, hat, hgoes⟩) | ⟨b, hat, hresult⟩)
    · exact ⟨b, horphan.1, .inl horphan⟩
    · exact ⟨b, hat, .inr (.inl hgoes)⟩
    · exact ⟨b, hat, .inr (.inr hresult)⟩
  · rintro ⟨b, hat, horphan | hgoes | hresult⟩
    · exact .inl (.inl ⟨b, horphan⟩)
    · exact .inl (.inr ⟨b, hat, hgoes⟩)
    · exact .inr ⟨b, hat, hresult⟩

/-- A place goes when its block does. -/
theorem mem_goneIndexes_iff_of_getElem? (hat : content[i]? = some block) :
    i ∈ (goneIndexes available hasSearchTool seen content).1 ↔
      Goes available hasSearchTool seen content i block := by
  rw [mem_goneIndexes_iff]
  constructor
  · rintro ⟨block', hat', hgoes⟩
    rwa [Option.some.inj (hat.symm.trans hat')]
  · exact fun hgoes => ⟨block, hat, hgoes⟩

/-- A block that goes is a result of a server tool or a call of one. -/
theorem Goes.type (h : Goes available hasSearchTool seen content i block) :
    resultFamily? block ≠ none ∨ block.getStr? "type" = some "server_tool_use" := by
  rcases h with horphan | hgoes | hresult
  · obtain ⟨family, hfamily⟩ := resultFamily?_of_isOrphan horphan.2
    exact .inl (by rw [hfamily]; exact nofun)
  · exact .inr (type_of_callGoes hgoes)
  · exact .inl hresult.1

/-! ### The results of the client -/

theorem modify_length_append {α : Type*} (f : α → α) (as : List α) (b : α) (bs : List α) :
    (as ++ b :: bs).modify as.length f = as ++ f b :: bs := by
  induction as with
  | nil => rfl
  | cons a as ih => exact congrArg (a :: ·) ih

theorem foldl_modify_eq_map (available : List String) (content more : List Json) :
    (content.zipIdx.filterMap fun x => (clientRewrite? available x.1).map fun rewrite => (x.2, rewrite)).foldl
        (fun content (index, newContent, _) =>
          content.modify index fun block => block.insert "content" newContent) (content ++ more) =
      content.map (rewriteClient available) ++ more := by
  induction content using List.reverseRecOn generalizing more with
  | nil => rfl
  | append_singleton content block ih =>
    rw [filterMap_zipIdx_concat, List.foldl_append, List.append_assoc, ih, List.map_append, List.append_assoc,
      List.map_singleton, rewriteClient]
    cases clientRewrite? available block with
    | none => rfl
    | some rewrite =>
      have hlength : content.length = (content.map (rewriteClient available)).length := (List.length_map _).symm
      show List.modify (content.map (rewriteClient available) ++ block :: more) content.length _ = _
      rw [hlength, modify_length_append]
      rfl

/-- A rewritten block has the type that it had. -/
theorem getStr?_rewriteClient {key : String} (hkey : key ≠ "content") (block : Json) :
    (rewriteClient available block).getStr? key = block.getStr? key := by
  rw [rewriteClient]
  cases clientRewrite? available block with
  | none => rfl
  | some rewrite => rw [Json.getStr?, Json.get?_insert_of_ne hkey, ← Json.getStr?]

theorem rewriteClient_of_type_ne (h : block.getStr? "type" ≠ some "tool_result") :
    rewriteClient available block = block := by
  rw [rewriteClient, clientRewrite?, if_neg h]

theorem serverCall?_rewriteClient (block : Json) :
    serverCall? (rewriteClient available block) = serverCall? block := by
  by_cases h : block.getStr? "type" = some "tool_result"
  · have hne : block.getStr? "type" ≠ some "server_tool_use" := by rw [h]; decide
    have hne' : (rewriteClient available block).getStr? "type" ≠ some "server_tool_use" := by
      rwa [getStr?_rewriteClient (by decide)]
    rw [serverCall?_of_type_ne hne, serverCall?_of_type_ne hne']
  · rw [rewriteClient_of_type_ne h]

/-! ### A message -/

variable (available) in
/-- What stands at a place afterwards. -/
def place (gone : Finset ℕ × Finset ℕ) : Json × ℕ → Json
  | (block, index) =>
    if index ∈ gone.1 then if index ∈ gone.2 then serverResultPlaceholderBlock else placeholderBlock
    else rewriteClient available block

variable (available hasSearchTool seen content) in
/-- The blocks of a message afterwards. -/
def repairedBlocks : List Json :=
  content.zipIdx.map (place available (goneIndexes available hasSearchTool seen content))

variable (available content) in
/-- How many references go from the results of the client. -/
def droppedReferences : ℕ := (content.map fun block => ((clientRewrite? available block).map Prod.snd).getD 0).sum

theorem type_of_placeholder :
    placeholderBlock.getStr? "type" = some "text" ∧ serverResultPlaceholderBlock.getStr? "type" = some "text" := by
  decide +kernel

theorem foldl_noteCall_apply (m : CallMap) (content : List Json) (id : String) :
    content.foldl noteCall m id = (callsOf content id).or (m id) := by
  induction content using List.reverseRecOn with
  | nil => rfl
  | append_singleton content block ih =>
    rw [callsOf_concat, List.foldl_append, List.foldl_cons, List.foldl_nil]
    cases hcall : serverCall? block with
    | none =>
      rw [noteCall_of_serverCall?_eq_none _ hcall, noteCall_of_serverCall?_eq_none _ hcall]
      exact ih
    | some call =>
      rw [noteCall_of_serverCall? _ hcall, noteCall_of_serverCall? _ hcall, Function.update_apply,
        Function.update_apply, ih]
      split_ifs <;> rfl

theorem serverCall?_place (available : List String) (gone : Finset ℕ × Finset ℕ) (x : Json × ℕ) :
    serverCall? (place available gone x) = if x.2 ∈ gone.1 then none else serverCall? x.1 := by
  obtain ⟨block, index⟩ := x
  rw [place]
  split_ifs with hgone hgeneric
  · exact serverCall?_of_type_ne (by rw [type_of_placeholder.2]; decide)
  · exact serverCall?_of_type_ne (by rw [type_of_placeholder.1]; decide)
  · exact serverCall?_rewriteClient block

theorem foldl_filter_calls_eq (available : List String) (gone : Finset ℕ × Finset ℕ) (m : CallMap)
    (blocks : List (Json × ℕ)) :
    ((blocks.filterMap fun x => (serverCall? x.1).map fun call => (x.2, call)).filter fun call =>
        call.1 ∉ gone.1).foldl
        (fun (m : CallMap) call => Function.update m call.2.1 (some call.2.2)) m =
      (blocks.map (place available gone)).foldl noteCall m := by
  induction blocks generalizing m with
  | nil => rfl
  | cons x blocks ih =>
    rw [List.map_cons, List.foldl_cons, ← ih, noteCall, serverCall?_place]
    cases hcall : serverCall? x.1 with
    | none => simp [hcall]
    | some call =>
      by_cases hgone : x.2 ∈ gone.1
      · simp [hcall, hgone]
      · simp [hcall, hgone]

theorem sum_droppedReferences (available : List String) (content : List Json) :
    ((content.zipIdx.filterMap fun x => (clientRewrite? available x.1).map fun rewrite => (x.2, rewrite)).map
        fun rewrite => rewrite.2.2).sum = droppedReferences available content := by
  induction content using List.reverseRecOn with
  | nil => rfl
  | append_singleton content block ih =>
    rw [filterMap_zipIdx_concat, List.map_append, List.sum_append, ih, droppedReferences, droppedReferences,
      List.map_append, List.sum_append]
    cases h : clientRewrite? available block with
    | none => simp [h]
    | some rewrite => simp [h]

theorem place_of_goneIndexes_eq_empty {gone : Finset ℕ × Finset ℕ} (h : gone.1 = ∅) (content : List Json) :
    content.zipIdx.map (place available gone) = content.map (rewriteClient available) := by
  have hplace (x : Json × ℕ) : place available gone x = rewriteClient available x.1 := by
    rw [place, h, if_neg (Finset.notMem_empty _)]
  calc content.zipIdx.map (place available gone)
      = (content.zipIdx.map Prod.fst).map (rewriteClient available) := by rw [funext hplace, List.map_map]; rfl
    _ = content.map (rewriteClient available) := by rw [List.zipIdx_map_fst]

/-- The blocks of a message afterwards, and the state. -/
theorem repairContent_eq (available : List String) (hasSearchTool : Bool) (content : List Json)
    (s : RepairState) :
    (repairContent available hasSearchTool content s).1 =
        repairedBlocks available hasSearchTool s.seenServerCalls content ∧
      (repairContent available hasSearchTool content s).2.seenServerCalls =
        (repairedBlocks available hasSearchTool s.seenServerCalls content).foldl noteCall s.seenServerCalls ∧
      (repairContent available hasSearchTool content s).2.neutralized =
        s.neutralized + droppedReferences available content +
          (goneIndexes available hasSearchTool s.seenServerCalls content).1.card ∧
      ((repairContent available hasSearchTool content s).2.changed = true ↔
        s.changed = true ∨ (∃ block ∈ content, clientRewrite? available block ≠ none) ∨
          (goneIndexes available hasSearchTool s.seenServerCalls content).1 ≠ ∅) := by
  have hscan := scan_spec available hasSearchTool s.seenServerCalls content
  have hrewrites : (scanOf available hasSearchTool s.seenServerCalls content).clientResultRewrites ≠ [] ↔
      ∃ block ∈ content, clientRewrite? available block ≠ none := by
    rw [hscan.rewrites, Ne, List.filterMap_eq_nil_iff]
    simp only [Option.map_eq_none_iff, not_forall]
    constructor
    · rintro ⟨x, hx, hne⟩
      exact ⟨x.1, List.fst_mem_of_mem_zipIdx hx, hne⟩
    · rintro ⟨block, hblock, hne⟩
      obtain ⟨n, hat⟩ := List.mem_iff_getElem?.1 hblock
      exact ⟨(block, n), List.mem_zipIdx_iff_getElem?.2 hat, hne⟩
  have hrewritten := foldl_modify_eq_map available content []
  rw [List.append_nil, List.append_nil, ← hscan.rewrites] at hrewritten
  have hsum := sum_droppedReferences available content
  rw [← hscan.rewrites] at hsum
  have hrepair : repairContent available hasSearchTool content s =
      if (goneIndexes available hasSearchTool s.seenServerCalls content).1 = ∅ then
        (content.map (rewriteClient available),
          { seenServerCalls := content.foldl noteCall s.seenServerCalls
            neutralized := s.neutralized + droppedReferences available content
            changed := s.changed ||
              (scanOf available hasSearchTool s.seenServerCalls content).clientResultRewrites ≠ [] })
      else
        (repairedBlocks available hasSearchTool s.seenServerCalls content,
          { seenServerCalls :=
              (repairedBlocks available hasSearchTool s.seenServerCalls content).foldl noteCall s.seenServerCalls
            neutralized := s.neutralized + droppedReferences available content +
              (goneIndexes available hasSearchTool s.seenServerCalls content).1.card
            changed := true }) := by
    have hseen := funext (foldl_noteCall_apply s.seenServerCalls content)
    rw [← hscan.families] at hseen
    have hcalls := foldl_filter_calls_eq available
      (goneIndexes available hasSearchTool s.seenServerCalls content) s.seenServerCalls content.zipIdx
    rw [← hscan.calls] at hcalls
    have hplaced : applyPlaceholders (content.map (rewriteClient available))
          (goneIndexes available hasSearchTool s.seenServerCalls content).1
          (goneIndexes available hasSearchTool s.seenServerCalls content).2 =
        repairedBlocks available hasSearchTool s.seenServerCalls content := by
      rw [applyPlaceholders, List.zipIdx_map, List.map_map]
      rfl
    rw [hseen, repairedBlocks, ← hcalls, ← hsum, ← repairedBlocks, ← hplaced, ← hrewritten]
    rfl
  rw [hrepair]
  by_cases hgone : (goneIndexes available hasSearchTool s.seenServerCalls content).1 = ∅
  · have hblocks : repairedBlocks available hasSearchTool s.seenServerCalls content =
        content.map (rewriteClient available) := place_of_goneIndexes_eq_empty hgone content
    have hseen : (content.map (rewriteClient available)).foldl noteCall s.seenServerCalls =
        content.foldl noteCall s.seenServerCalls := by
      rw [List.foldl_map]
      congr 1
      funext m block
      rw [noteCall, serverCall?_rewriteClient, ← noteCall]
    rw [if_pos hgone, hblocks, hseen, hgone, Finset.card_empty, Nat.add_zero]
    refine ⟨rfl, rfl, rfl, ?_⟩
    rw [Bool.or_eq_true, decide_eq_true_eq, hrewrites, or_iff_left (fun h : (∅ : Finset ℕ) ≠ ∅ => h rfl)]
  · rw [if_neg hgone]
    exact ⟨rfl, rfl, rfl, iff_of_true rfl (.inr (.inr hgone))⟩

/-! ### A repaired message -/

/-- A block afterwards: the text of a block that has gone, or the block without its dead references. -/
theorem exists_of_repairedBlocks {block' : Json}
    (hat : (repairedBlocks available hasSearchTool seen content)[i]? = some block') :
    ∃ block, content[i]? = some block ∧
      ((Goes available hasSearchTool seen content i block ∧
          (block' = placeholderBlock ∨ block' = serverResultPlaceholderBlock)) ∨
        (¬ Goes available hasSearchTool seen content i block ∧ block' = rewriteClient available block)) := by
  rw [repairedBlocks, List.getElem?_map, List.getElem?_zipIdx] at hat
  obtain ⟨x, hx, hplace⟩ := Option.map_eq_some_iff.1 hat
  obtain ⟨block, hblock, rfl⟩ := Option.map_eq_some_iff.1 hx
  refine ⟨block, hblock, ?_⟩
  rw [place, Nat.zero_add] at hplace
  rw [← mem_goneIndexes_iff_of_getElem? hblock]
  split_ifs at hplace with hgone hgeneric
  · exact .inl ⟨hgone, .inr hplace.symm⟩
  · exact .inl ⟨hgone, .inl hplace.symm⟩
  · exact .inr ⟨hgone, hplace.symm⟩

/-- A block that is neither a text nor a result of the client stood at its place before. -/
theorem kept_of_repairedBlocks (hat : (repairedBlocks available hasSearchTool seen content)[i]? = some block)
    (htext : block.getStr? "type" ≠ some "text") (hresult : block.getStr? "type" ≠ some "tool_result") :
    content[i]? = some block ∧ ¬ Goes available hasSearchTool seen content i block := by
  obtain ⟨before, hbefore, ⟨-, rfl | rfl⟩ | ⟨hstays, rfl⟩⟩ := exists_of_repairedBlocks hat
  · exact absurd type_of_placeholder.1 htext
  · exact absurd type_of_placeholder.2 htext
  · rw [getStr?_rewriteClient (by decide)] at hresult
    rw [rewriteClient_of_type_ne hresult]
    exact ⟨hbefore, hstays⟩

theorem getElem?_repairedBlocks_of_stays (hat : content[i]? = some block)
    (hstays : ¬ Goes available hasSearchTool seen content i block)
    (hresult : block.getStr? "type" ≠ some "tool_result") :
    (repairedBlocks available hasSearchTool seen content)[i]? = some block := by
  rw [repairedBlocks, List.getElem?_map, List.getElem?_zipIdx, hat, Option.map_some, Option.map_some, Nat.zero_add,
    place, if_neg fun h => hstays ((mem_goneIndexes_iff_of_getElem? hat).1 h), rewriteClient_of_type_ne hresult]

theorem type_of_result (h : resultFamily? block ≠ none) :
    block.getStr? "type" ≠ some "text" ∧ block.getStr? "type" ≠ some "tool_result" := by
  refine ⟨fun htype => h ?_, fun htype => h (resultFamily?_of_toolResult htype)⟩
  rw [resultFamily?, htype]
  rfl

theorem callsOf_map_place {gone : Finset ℕ × Finset ℕ} {blocks : List (Json × ℕ)}
    (hstays : ∀ x ∈ blocks, ∀ family, serverCall? x.1 = some (id, family) → x.2 ∉ gone.1) :
    callsOf (blocks.map (place available gone)) id = callsOf (blocks.map Prod.fst) id := by
  induction blocks using List.reverseRecOn with
  | nil => rfl
  | append_singleton blocks x ih =>
    have hrest := ih fun y hy => hstays y (List.mem_append_left _ hy)
    have hplace := serverCall?_place available gone x
    rw [List.map_append, List.map_append, List.map_singleton, List.map_singleton, callsOf_concat, callsOf_concat]
    cases hcall : serverCall? x.1 with
    | none =>
      rw [hcall, ite_self] at hplace
      rw [noteCall_of_serverCall?_eq_none _ hplace, noteCall_of_serverCall?_eq_none _ hcall, hrest]
    | some call =>
      obtain ⟨id', family⟩ := call
      rw [noteCall_of_serverCall? _ hcall]
      by_cases hgone : x.2 ∈ gone.1
      · have hid : id ≠ id' := by
          rintro rfl
          exact hstays x List.mem_concat_self family hcall hgone
        rw [if_pos hgone] at hplace
        rw [noteCall_of_serverCall?_eq_none _ hplace, Function.update_of_ne hid, hrest]
      · rw [if_neg hgone, hcall] at hplace
        rw [noteCall_of_serverCall? _ hplace, Function.update_apply, Function.update_apply, hrest]

theorem not_orphanAt_repairedBlocks :
    ¬ OrphanAt available hasSearchTool seen (repairedBlocks available hasSearchTool seen content) i block := by
  rintro ⟨hat, horphan⟩
  obtain ⟨family, hfamily⟩ := resultFamily?_of_isOrphan horphan
  have hresult : resultFamily? block ≠ none := by rw [hfamily]; exact nofun
  obtain ⟨hbefore, hstays⟩ := kept_of_repairedBlocks hat (type_of_result hresult).1 (type_of_result hresult).2
  have hkept : isOrphan available hasSearchTool seen (callsOf (content.take i)) block = false := by
    rw [← Bool.not_eq_true]
    exact fun h => hstays (.inl ⟨hbefore, h⟩)
  have hpaired : isPaired seen (callsOf ((repairedBlocks available hasSearchTool seen content).take i)) family block =
      isPaired seen (callsOf (content.take i)) family block := by
    rw [isPaired, isPaired]
    cases huse : block.getStr? "tool_use_id" with
    | none => rfl
    | some id =>
      -- A call of the message with the id of the result stays.
      have hcalls : callsOf ((repairedBlocks available hasSearchTool seen content).take i) id =
          callsOf (content.take i) id := by
        rw [repairedBlocks, ← List.map_take]
        rw [callsOf_map_place, List.map_take, List.zipIdx_map_fst]
        rintro ⟨call, n⟩ hcall family hserver hgone
        have hcallAt := List.mem_zipIdx_iff_getElem?.1 (List.mem_of_mem_take hcall)
        rcases (mem_goneIndexes_iff_of_getElem? hcallAt).1 hgone with horphan | hgoes | hresult
        · obtain ⟨f, hf⟩ := resultFamily?_of_isOrphan horphan.2
          rw [serverCall?_of_resultFamily? hf] at hserver
          exact absurd hserver nofun
        · exact hstays (.inr (.inr ⟨hresult, id, huse, call, List.mem_of_getElem? hcallAt, ⟨family, hserver⟩, hgoes⟩))
        · exact hresult.1 (resultFamily?_of_call (type_of_serverCall? hserver))
      simp only [pairOk, hcalls]
  rw [isOrphan_of_resultFamily? hfamily] at horphan hkept
  rw [hpaired, hkept] at horphan
  exact absurd horphan nofun

theorem orphanedIds_repairedBlocks :
    orphanedIds available hasSearchTool seen (repairedBlocks available hasSearchTool seen content) = ∅ := by
  rw [Finset.eq_empty_iff_forall_notMem]
  intro id hid
  obtain ⟨-, i, block, horphan, -⟩ := mem_orphanedIds_iff.1 hid
  exact not_orphanAt_repairedBlocks horphan

theorem getArr?_insert_str {items : List Json} {text : String} (h : block.getArr? "content" = some items) :
    (block.insert "content" (.str text)).getArr? "content" = none := by
  obtain ⟨value, hvalue, -⟩ := Option.bind_eq_some_iff.1 h
  rw [Json.getArr?, Json.get?_insert_self hvalue]
  rfl

theorem dropDeadClientReferences_eq_none_iff : dropDeadClientReferences available block = none ↔
    ∀ inner, block.getArr? "content" = some inner → ∀ b ∈ inner, isDeadReference available b = false := by
  rw [dropDeadClientReferences]
  cases hinner : block.getArr? "content" with
  | none => exact iff_of_true rfl nofun
  | some inner =>
    have hfilter : inner.length - (inner.filter fun b => !isDeadReference available b).length = 0 ↔
        ∀ b ∈ inner, isDeadReference available b = false := by
      have hle := List.length_filter_le (fun b => !isDeadReference available b) inner
      have hall := List.length_filter_eq_length_iff (l := inner) (p := fun b => !isDeadReference available b)
      simp only [Bool.not_eq_true'] at hall
      rw [← hall]
      omega
    simp only [Option.some.injEq, forall_eq', ← hfilter]
    split_ifs with hsame
    · exact iff_of_true rfl hsame
    · exact iff_of_false nofun hsame

theorem exists_of_dropDeadClientReferences {rewrite : Json × ℕ}
    (h : dropDeadClientReferences available block = some rewrite) :
    0 < rewrite.2 ∧ ∃ inner, block.getArr? "content" = some inner ∧
      (rewrite.1 = .str CLIENT_TOOL_REF_PLACEHOLDER ∨
        rewrite.1 = .arr (inner.filter fun b => !isDeadReference available b)) := by
  rw [dropDeadClientReferences] at h
  cases hinner : block.getArr? "content" with
  | none =>
    rw [hinner] at h
    exact absurd h nofun
  | some inner =>
    rw [hinner] at h
    simp only at h
    split_ifs at h with hsame hnil
    · obtain rfl := Option.some.inj h
      exact ⟨Nat.pos_of_ne_zero hsame, inner, rfl, .inl rfl⟩
    · obtain rfl := Option.some.inj h
      exact ⟨Nat.pos_of_ne_zero hsame, inner, rfl, .inr rfl⟩

theorem clientRewrite?_rewriteClient (block : Json) :
    clientRewrite? available (rewriteClient available block) = none := by
  by_cases htype : block.getStr? "type" = some "tool_result"
  · have hrewrite : clientRewrite? available block = dropDeadClientReferences available block := if_pos htype
    rw [clientRewrite?, getStr?_rewriteClient (by decide), if_pos htype, rewriteClient, hrewrite]
    cases hdead : dropDeadClientReferences available block with
    | none => exact hdead
    | some rewrite =>
      obtain ⟨newContent, dropped⟩ := rewrite
      obtain ⟨-, inner, hinner, rfl | rfl⟩ := exists_of_dropDeadClientReferences hdead
      · rw [dropDeadClientReferences, getArr?_insert_str hinner]
      · rw [dropDeadClientReferences_eq_none_iff]
        intro inner' hinner' b hb
        rw [getArr?_insert_self hinner, Option.some.injEq] at hinner'
        rw [← hinner', List.mem_filter, Bool.not_eq_true'] at hb
        exact hb.2
  · rw [rewriteClient_of_type_ne htype, clientRewrite?, if_neg htype]

/-- The results of the client in a repaired message keep what they have. -/
theorem clientRewrite?_repairedBlocks
    (hblock : block ∈ repairedBlocks available hasSearchTool seen content) :
    clientRewrite? available block = none := by
  obtain ⟨i, hat⟩ := List.mem_iff_getElem?.1 hblock
  obtain ⟨before, -, ⟨-, rfl | rfl⟩ | ⟨-, rfl⟩⟩ := exists_of_repairedBlocks hat
  · exact if_neg (by rw [type_of_placeholder.1]; decide)
  · exact if_neg (by rw [type_of_placeholder.2]; decide)
  · exact clientRewrite?_rewriteClient before

theorem callGoes_iff_of_orphanedIds_eq_empty (h : orphanedIds available hasSearchTool seen content = ∅) :
    CallGoes available hasSearchTool seen content block ↔
      block.getStr? "type" = some "server_tool_use" ∧
        serverCallFamily ((block.getStr? "name").getD "") = some .search ∧ hasSearchTool = false := by
  rw [CallGoes, isDroppedCall, h]
  simp

/-- A call that stays in a message is no call of a search that the request lacks. -/
theorem not_search_of_not_callGoes (hcall : block.getStr? "type" = some "server_tool_use")
    (hstays : ¬ CallGoes available hasSearchTool seen content block) :
    ¬ (serverCallFamily ((block.getStr? "name").getD "") = some .search ∧ hasSearchTool = false) := by
  rintro ⟨hsearch, htool⟩
  refine hstays ?_
  rw [CallGoes, isDroppedCall, hcall, hsearch, htool]
  simp

theorem not_callGoes_repairedBlocks
    (hblock : block ∈ repairedBlocks available hasSearchTool seen content) :
    ¬ CallGoes available hasSearchTool seen (repairedBlocks available hasSearchTool seen content) block := by
  rw [callGoes_iff_of_orphanedIds_eq_empty orphanedIds_repairedBlocks]
  rintro ⟨hcall, hsearch⟩
  obtain ⟨i, hat⟩ := List.mem_iff_getElem?.1 hblock
  obtain ⟨-, hstays⟩ := kept_of_repairedBlocks hat (by rw [hcall]; decide) (by rw [hcall]; decide)
  exact not_search_of_not_callGoes hcall (fun h => hstays (.inr (.inl h))) hsearch

theorem goneIndexes_repairedBlocks :
    (goneIndexes available hasSearchTool seen (repairedBlocks available hasSearchTool seen content)).1 = ∅ := by
  rw [Finset.eq_empty_iff_forall_notMem]
  intro i hi
  obtain ⟨block, hat, horphan | hgoes | ⟨-, id, -, call, hcall, -, hgoes⟩⟩ := mem_goneIndexes_iff.1 hi
  · exact not_orphanAt_repairedBlocks horphan
  · exact not_callGoes_repairedBlocks (List.mem_of_getElem? hat) hgoes
  · exact not_callGoes_repairedBlocks hcall hgoes

/-- A message is kept when nothing goes from it: what is repaired has nothing that goes. -/
theorem repairedBlocks_eq_self_iff : repairedBlocks available hasSearchTool seen content = content ↔
    (goneIndexes available hasSearchTool seen content).1 = ∅ ∧
      ∀ block ∈ content, clientRewrite? available block = none := by
  constructor
  · intro hsame
    have hgone : (goneIndexes available hasSearchTool seen
        (repairedBlocks available hasSearchTool seen content)).1 = ∅ := goneIndexes_repairedBlocks
    have hrewrite : ∀ block ∈ repairedBlocks available hasSearchTool seen content,
        clientRewrite? available block = none := fun _ => clientRewrite?_repairedBlocks
    rw [hsame] at hgone hrewrite
    exact ⟨hgone, hrewrite⟩
  · rintro ⟨hgone, hrewrite⟩
    have hkept (block) (hblock : block ∈ content) : rewriteClient available block = id block := by
      rw [rewriteClient, hrewrite block hblock]
      rfl
    rw [repairedBlocks, place_of_goneIndexes_eq_empty hgone, List.map_congr_left hkept, List.map_id]

theorem droppedReferences_eq_zero_iff :
    droppedReferences available content = 0 ↔ ∀ block ∈ content, clientRewrite? available block = none := by
  rw [droppedReferences, List.sum_eq_zero_iff_forall_eq_nat, List.forall_mem_map]
  refine forall₂_congr fun block _ => ?_
  cases hrewrite : clientRewrite? available block with
  | none => exact iff_of_true rfl rfl
  | some rewrite =>
    have hdead : dropDeadClientReferences available block = some rewrite := by
      rw [clientRewrite?] at hrewrite
      split_ifs at hrewrite
      exact hrewrite
    exact iff_of_false (exists_of_dropDeadClientReferences hdead).1.ne' nofun

theorem repairContent_counts (available : List String) (hasSearchTool : Bool) (content : List Json)
    (s : RepairState) :
    s.neutralized ≤ (repairContent available hasSearchTool content s).2.neutralized ∧
      ((repairContent available hasSearchTool content s).2.neutralized = s.neutralized ↔
        (repairContent available hasSearchTool content s).1 = content) ∧
      ((repairContent available hasSearchTool content s).2.changed = true ↔
        s.changed = true ∨ (repairContent available hasSearchTool content s).2.neutralized ≠ s.neutralized) := by
  obtain ⟨hblocks, -, hneutralized, hchanged⟩ :=
    repairContent_eq available hasSearchTool content s
  have hquiet : repairedBlocks available hasSearchTool s.seenServerCalls content = content ↔ _ :=
    repairedBlocks_eq_self_iff
  rw [← droppedReferences_eq_zero_iff, ← Finset.card_eq_zero] at hquiet
  have hrewritten : (∃ block ∈ content, clientRewrite? available block ≠ none) ↔
      droppedReferences available content ≠ 0 := by
    rw [Ne, droppedReferences_eq_zero_iff]
    push Not
    rfl
  rw [hrewritten, ← Finset.card_eq_zero.ne] at hchanged
  rw [hblocks, hquiet, hchanged, hneutralized]
  refine ⟨by omega, by omega, or_congr_right (by omega)⟩

theorem repairContent_of_quiet {s : RepairState}
    (hsame : repairedBlocks available hasSearchTool s.seenServerCalls content = content) :
    (repairContent available hasSearchTool content s).1 = content ∧
      (repairContent available hasSearchTool content s).2 =
        { s with seenServerCalls := content.foldl noteCall s.seenServerCalls } := by
  obtain ⟨hblocks, hseen, -, -⟩ :=
    repairContent_eq available hasSearchTool content s
  obtain ⟨-, hcount, hchanged⟩ :=
    repairContent_counts available hasSearchTool content s
  rw [hsame] at hblocks hseen
  have hneutralized := hcount.2 hblocks
  rw [or_iff_left (not_not.2 hneutralized), ← Bool.eq_iff_iff] at hchanged
  refine ⟨hblocks, ?_⟩
  generalize (repairContent available hasSearchTool content s).2 = s' at hseen hneutralized hchanged
  obtain ⟨seen', neutralized', changed'⟩ := s'
  obtain rfl : seen' = _ := hseen
  obtain rfl : neutralized' = _ := hneutralized
  obtain rfl : changed' = _ := hchanged
  rfl

theorem repairContent_repaired (available : List String) (hasSearchTool : Bool) (content : List Json)
    (s s' : RepairState) (hseen : s'.seenServerCalls = s.seenServerCalls) :
    (repairContent available hasSearchTool (repairContent available hasSearchTool content s).1 s').1 =
        (repairContent available hasSearchTool content s).1 ∧
      (repairContent available hasSearchTool (repairContent available hasSearchTool content s).1 s').2 =
        { s' with seenServerCalls := (repairContent available hasSearchTool content s).2.seenServerCalls } := by
  obtain ⟨hblocks, hcalls, -, -⟩ :=
    repairContent_eq available hasSearchTool content s
  rw [hcalls, hblocks, ← hseen]
  exact repairContent_of_quiet
    (repairedBlocks_eq_self_iff.2 ⟨goneIndexes_repairedBlocks, fun _ => clientRewrite?_repairedBlocks⟩)

end Headroom.ToolSearch
