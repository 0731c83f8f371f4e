import Headroom.ToolSearch.Repair

/-!
# What is decided at a block

The loop over the blocks of a message is read off at each block: which results are orphans, given the calls in
front of them, and which calls and results go with those.
-/

open Foundation

namespace Headroom.ToolSearch

/-! ### Calls and results -/

/-- A call is noted under its id. -/
def noteCall (m : CallMap) (block : Json) : CallMap :=
  match serverCall? block with
  | some (id, family) => Function.update m id (some family)
  | none => m

/-- The calls of some blocks, the last one of each id. -/
def callsOf (blocks : List Json) : CallMap := blocks.foldl noteCall fun _ => none

/-- The family of a result of a server tool. -/
def resultFamily? (block : Json) : Option ServerToolFamily := (block.getStr? "type").bind serverResultFamily

variable (available : List String) (hasSearchTool : Bool)

/-- A result that the request does not support, or that no call in front of it answers to. -/
def isOrphan (seen families : CallMap) (block : Json) : Bool :=
  match resultFamily? block with
  | none => false
  | some family =>
    !(isSupported available hasSearchTool family block && isPaired seen families family block)

/-- A result of the client with references to tools that are gone. -/
def clientRewrite? (block : Json) : Option (Json × ℕ) :=
  if block.getStr? "type" = some "tool_result" then dropDeadClientReferences available block else none

/-- A result of the client without its dead references, or any other block. -/
def rewriteClient (block : Json) : Json :=
  match clientRewrite? available block with
  | some (content, _) => block.insert "content" content
  | none => block

variable {available hasSearchTool} {seen families : CallMap} {block : Json} {content : List Json}
  {id : String} {family : ServerToolFamily} {i n : ℕ}

theorem type_of_serverCall? {call : String × Option ServerToolFamily} (h : serverCall? block = some call) :
    block.getStr? "type" = some "server_tool_use" := by
  rw [serverCall?] at h
  split_ifs at h with htype
  exact htype

variable {f : Option ServerToolFamily}

theorem getStr?_id_of_serverCall? (h : serverCall? block = some (id, f)) :
    block.getStr? "id" = some id := by
  rw [serverCall?, if_pos (type_of_serverCall? h)] at h
  obtain ⟨id', hid, heq⟩ := Option.map_eq_some_iff.1 h
  obtain rfl : id' = id := congrArg Prod.fst heq
  exact (Option.filter_eq_some_iff.1 hid).1

theorem resultFamily?_of_toolResult (htype : block.getStr? "type" = some "tool_result") :
    resultFamily? block = none := by
  rw [resultFamily?, htype]
  rfl

theorem resultFamily?_of_call (htype : block.getStr? "type" = some "server_tool_use") :
    resultFamily? block = none := by
  rw [resultFamily?, htype]
  rfl

theorem serverCall?_of_type_ne (htype : block.getStr? "type" ≠ some "server_tool_use") :
    serverCall? block = none := if_neg htype

theorem isOrphan_of_resultFamily?_eq_none (h : resultFamily? block = none) :
    isOrphan available hasSearchTool seen families block = false := by
  rw [isOrphan, h]

/-- A result of a family is neither a result of the client nor a call. -/
theorem type_of_resultFamily? (h : resultFamily? block = some family) :
    block.getStr? "type" ≠ some "tool_result" ∧ block.getStr? "type" ≠ some "server_tool_use" := by
  refine ⟨fun htype => ?_, fun htype => ?_⟩
  · rw [resultFamily?_of_toolResult htype] at h
    exact absurd h nofun
  · rw [resultFamily?_of_call htype] at h
    exact absurd h nofun

theorem serverCall?_of_resultFamily? (h : resultFamily? block = some family) : serverCall? block = none :=
  serverCall?_of_type_ne (type_of_resultFamily? h).2

theorem isOrphan_of_resultFamily? (h : resultFamily? block = some family) :
    isOrphan available hasSearchTool seen families block =
      !(isSupported available hasSearchTool family block && isPaired seen families family block) := by
  rw [isOrphan, h]

theorem resultFamily?_of_isOrphan (h : isOrphan available hasSearchTool seen families block = true) :
    ∃ family, resultFamily? block = some family := by
  rw [← Option.ne_none_iff_exists']
  intro hnone
  rw [isOrphan_of_resultFamily?_eq_none hnone] at h
  exact absurd h nofun

/-! ### The first loop -/

theorem noteCall_of_serverCall?_eq_none (m : CallMap) (h : serverCall? block = none) : noteCall m block = m := by
  rw [noteCall, h]

theorem noteCall_of_serverCall? (m : CallMap)
    (h : serverCall? block = some (id, f)) : noteCall m block = Function.update m id (some f) := by
  rw [noteCall, h]

theorem callsOf_concat (content : List Json) (block : Json) :
    callsOf (content ++ [block]) = noteCall (callsOf content) block := by
  rw [callsOf, List.foldl_append, List.foldl_cons, List.foldl_nil, ← callsOf]

theorem exists_of_callsOf (h : callsOf content id = some f) :
    ∃ block ∈ content, serverCall? block = some (id, f) := by
  induction content using List.reverseRecOn with
  | nil => exact absurd h nofun
  | append_singleton content block ih =>
    have hrest (h : callsOf content id = some f) : ∃ b ∈ content ++ [block], serverCall? b = some (id, f) := by
      obtain ⟨b, hb, hcall⟩ := ih h
      exact ⟨b, List.mem_append_left _ hb, hcall⟩
    rw [callsOf_concat] at h
    cases hcall : serverCall? block with
    | none => exact hrest (by rwa [noteCall_of_serverCall?_eq_none _ hcall] at h)
    | some call =>
      obtain ⟨id', f'⟩ := call
      rw [noteCall_of_serverCall? _ hcall, Function.update_apply] at h
      split_ifs at h with hid
      · obtain rfl := hid
        obtain rfl := Option.some.inj h
        exact ⟨block, List.mem_concat_self, hcall⟩
      · exact hrest h

/-- What the first loop does at a block. -/
structure BlockScanned (available : List String) (hasSearchTool : Bool) (seen : CallMap) (scan scan' : Scan)
    (block : Json) (n : ℕ) : Prop where
  neutralize : scan'.neutralizeIndexes =
    if isOrphan available hasSearchTool seen scan.messageCallFamilies block then insert n scan.neutralizeIndexes
    else scan.neutralizeIndexes
  orphaned : ∀ id, id ∈ scan'.orphanedIds ↔ id ∈ scan.orphanedIds ∨
    (id ≠ "" ∧ isOrphan available hasSearchTool seen scan.messageCallFamilies block = true ∧
      block.getStr? "tool_use_id" = some id)
  calls : scan'.messageServerCalls =
    scan.messageServerCalls ++ ((serverCall? block).map fun call => (n, call)).toList
  families : scan'.messageCallFamilies = noteCall scan.messageCallFamilies block
  rewrites : scan'.clientResultRewrites =
    scan.clientResultRewrites ++ ((clientRewrite? available block).map fun rewrite => (n, rewrite)).toList

/-- A block at which nothing is found. -/
theorem BlockScanned.of_quiet {scan : Scan} (hcall : serverCall? block = none)
    (hrewrite : clientRewrite? available block = none)
    (horphan : isOrphan available hasSearchTool seen scan.messageCallFamilies block = false) :
    BlockScanned available hasSearchTool seen scan scan block n where
  neutralize := by simp [horphan]
  orphaned id := by simp [horphan]
  calls := by simp [hcall]
  families := (noteCall_of_serverCall?_eq_none _ hcall).symm
  rewrites := by simp [hrewrite]

theorem scanBlock_spec (scan : Scan) (block : Json) (n : ℕ) :
    BlockScanned available hasSearchTool seen scan
      (scanBlock available hasSearchTool seen scan (block, n)) block n := by
  rw [scanBlock]
  by_cases hresult : block.getStr? "type" = some "tool_result"
  · have hcall : serverCall? block = none := serverCall?_of_type_ne (by rw [hresult]; decide)
    have horphan : isOrphan available hasSearchTool seen scan.messageCallFamilies block = false :=
      isOrphan_of_resultFamily?_eq_none (resultFamily?_of_toolResult hresult)
    have hrewrite : clientRewrite? available block = dropDeadClientReferences available block := if_pos hresult
    rw [if_pos hresult]
    cases hdead : dropDeadClientReferences available block with
    | none => exact .of_quiet hcall (hrewrite.trans hdead) horphan
    | some rewrite =>
      exact
        { neutralize := by simp [horphan]
          orphaned := fun id => by simp [horphan]
          calls := by simp [hcall]
          families := (noteCall_of_serverCall?_eq_none _ hcall).symm
          rewrites := by simp [hrewrite, hdead] }
  have hrewrite : clientRewrite? available block = none := if_neg hresult
  rw [if_neg hresult]
  by_cases hserver : block.getStr? "type" = some "server_tool_use"
  · have horphan : isOrphan available hasSearchTool seen scan.messageCallFamilies block = false :=
      isOrphan_of_resultFamily?_eq_none (resultFamily?_of_call hserver)
    rw [if_pos hserver]
    cases hcall : serverCall? block with
    | none => exact .of_quiet hcall hrewrite horphan
    | some call =>
      exact
        { neutralize := by simp [horphan]
          orphaned := fun id => by simp [horphan]
          calls := by simp [hcall]
          families := by simp [noteCall, hcall]
          rewrites := by simp [hrewrite] }
  have hcall : serverCall? block = none := serverCall?_of_type_ne hserver
  rw [if_neg hserver]
  show BlockScanned _ _ _ _ (match resultFamily? block with | none => scan | some family => _) _ _
  cases hfamily : resultFamily? block with
  | none => exact .of_quiet hcall hrewrite (isOrphan_of_resultFamily?_eq_none hfamily)
  | some family =>
    have horphan : isOrphan available hasSearchTool seen scan.messageCallFamilies block = _ :=
      isOrphan_of_resultFamily? hfamily
    by_cases hkept : (isSupported available hasSearchTool family block &&
        isPaired seen scan.messageCallFamilies family block) = true
    · rw [hkept] at horphan
      simp only [hkept, if_true]
      exact .of_quiet hcall hrewrite horphan
    · rw [Bool.not_eq_true] at hkept
      rw [hkept] at horphan
      simp only [hkept, Bool.false_eq_true, if_false]
      refine ⟨by simp [horphan], fun id => ?_, by simp [hcall],
        (noteCall_of_serverCall?_eq_none _ hcall).symm, by simp [hrewrite]⟩
      cases hid : (block.getStr? "tool_use_id").filter fun id => id ≠ "" with
      | none =>
        have hnone : ¬ (id ≠ "" ∧ block.getStr? "tool_use_id" = some id) := by
          rintro ⟨hne, huse⟩
          rw [huse] at hid
          simp [hne] at hid
        simp only
        tauto
      | some id' =>
        obtain ⟨huse, hne⟩ := Option.filter_eq_some_iff.1 hid
        simp only [Finset.mem_insert, huse, horphan, Bool.not_false, Option.some.injEq, true_and]
        constructor
        · rintro (rfl | hmem)
          · exact .inr ⟨by simpa using hne, rfl⟩
          · exact .inl hmem
        · rintro (hmem | ⟨-, rfl⟩)
          · exact .inr hmem
          · exact .inl rfl

theorem getElem?_concat_eq_some_iff {last : Json} :
    (content ++ [last])[i]? = some block ↔ content[i]? = some block ∨ (i = content.length ∧ block = last) := by
  rcases Nat.lt_trichotomy i content.length with hlt | rfl | hlt
  · rw [List.getElem?_append_left hlt, or_iff_left]
    rintro ⟨rfl, -⟩
    omega
  · rw [List.getElem?_concat_length, List.getElem?_eq_none le_rfl, Option.some.injEq]
    constructor
    · rintro rfl
      exact .inr ⟨rfl, rfl⟩
    · rintro (hnone | ⟨-, rfl⟩)
      · exact absurd hnone (by simp)
      · rfl
  · rw [List.getElem?_eq_none (by rw [List.length_append, List.length_singleton]; omega),
      List.getElem?_eq_none hlt.le]
    constructor
    · exact fun hnone => absurd hnone (by simp)
    · rintro (hnone | ⟨rfl, -⟩)
      · exact absurd hnone (by simp)
      · omega

variable (available hasSearchTool seen content) in
/-- The blocks of a message as the first loop leaves them. -/
def scanOf : Scan := content.zipIdx.foldl (scanBlock available hasSearchTool seen) {}

theorem zipIdx_concat (content : List Json) (block : Json) :
    (content ++ [block]).zipIdx = content.zipIdx ++ [(block, content.length)] := by
  rw [List.zipIdx_append, List.zipIdx_cons, List.zipIdx_nil, Nat.zero_add]

theorem scanOf_concat (content : List Json) (block : Json) :
    scanOf available hasSearchTool seen (content ++ [block]) =
      scanBlock available hasSearchTool seen (scanOf available hasSearchTool seen content)
        (block, content.length) := by
  rw [scanOf, zipIdx_concat, List.foldl_append, List.foldl_cons, List.foldl_nil, ← scanOf]

variable (available hasSearchTool seen content) in
/-- The block at a place of a message is an orphan, given the calls in front of it. -/
def OrphanAt (i : ℕ) (block : Json) : Prop :=
  content[i]? = some block ∧ isOrphan available hasSearchTool seen (callsOf (content.take i)) block = true

theorem orphanAt_concat_iff {last : Json} :
    OrphanAt available hasSearchTool seen (content ++ [last]) i block ↔
      OrphanAt available hasSearchTool seen content i block ∨
        (i = content.length ∧ block = last ∧
          isOrphan available hasSearchTool seen (callsOf content) last = true) := by
  rw [OrphanAt, getElem?_concat_eq_some_iff, or_and_right]
  refine or_congr (and_congr_right fun hat => ?_) ?_
  · rw [List.take_append_of_le_length (List.getElem?_eq_some_iff.1 hat).1.le]
  · constructor
    · rintro ⟨⟨rfl, rfl⟩, horphan⟩
      exact ⟨rfl, rfl, by rwa [List.take_left] at horphan⟩
    · rintro ⟨rfl, rfl, horphan⟩
      exact ⟨⟨rfl, rfl⟩, by rwa [List.take_left]⟩

/-- What the first loop over a message has found. -/
structure Scanned (available : List String) (hasSearchTool : Bool) (seen : CallMap) (content : List Json)
    (scan : Scan) : Prop where
  neutralize : ∀ i, i ∈ scan.neutralizeIndexes ↔ ∃ block, OrphanAt available hasSearchTool seen content i block
  orphaned : ∀ id, id ∈ scan.orphanedIds ↔
    id ≠ "" ∧ ∃ i block, OrphanAt available hasSearchTool seen content i block ∧
      block.getStr? "tool_use_id" = some id
  calls : scan.messageServerCalls = content.zipIdx.filterMap fun x => (serverCall? x.1).map fun call => (x.2, call)
  families : scan.messageCallFamilies = callsOf content
  rewrites : scan.clientResultRewrites =
    content.zipIdx.filterMap fun x => (clientRewrite? available x.1).map fun rewrite => (x.2, rewrite)

theorem filterMap_zipIdx_concat {β : Type*} (f : Json → Option β) (content : List Json) (block : Json) :
    ((content ++ [block]).zipIdx.filterMap fun x => (f x.1).map fun b => (x.2, b)) =
      (content.zipIdx.filterMap fun x => (f x.1).map fun b => (x.2, b)) ++
        ((f block).map fun b => (content.length, b)).toList := by
  rw [zipIdx_concat, List.filterMap_append]
  congr 1

theorem scan_spec (available : List String) (hasSearchTool : Bool) (seen : CallMap) (content : List Json) :
    Scanned available hasSearchTool seen content (scanOf available hasSearchTool seen content) := by
  induction content using List.reverseRecOn with
  | nil =>
    have hnone (i : ℕ) (block : Json) : ¬ OrphanAt available hasSearchTool seen [] i block := by
      rintro ⟨hat, -⟩
      exact absurd hat (by simp)
    refine ⟨fun i => ?_, fun id => ?_, rfl, rfl, rfl⟩
    · exact iff_of_false (Finset.notMem_empty i) fun ⟨block, h⟩ => hnone i block h
    · exact iff_of_false (Finset.notMem_empty id) fun ⟨_, i, block, h, _⟩ => hnone i block h
  | append_singleton content block ih =>
    have hblock : BlockScanned available hasSearchTool seen _ _ block content.length :=
      scanBlock_spec (scanOf available hasSearchTool seen content) block content.length
    rw [scanOf_concat]
    refine ⟨fun i => ?_, fun id => ?_, ?_, ?_, ?_⟩
    · have hlast : (∃ b, OrphanAt available hasSearchTool seen (content ++ [block]) i b) ↔
          (∃ b, OrphanAt available hasSearchTool seen content i b) ∨
            (i = content.length ∧ isOrphan available hasSearchTool seen (callsOf content) block = true) := by
        simp only [orphanAt_concat_iff, exists_or, exists_and_left, exists_eq_left]
      rw [hlast, ← ih.neutralize i, hblock.neutralize, ih.families]
      split_ifs with horphan
      · rw [Finset.mem_insert, or_comm, and_iff_left horphan]
      · rw [or_iff_left fun h => horphan h.2]
    · rw [hblock.orphaned id, ih.orphaned id, ih.families]
      simp only [orphanAt_concat_iff]
      constructor
      · rintro (⟨hne, i, b, horphan, huse⟩ | ⟨hne, horphan, huse⟩)
        · exact ⟨hne, i, b, .inl horphan, huse⟩
        · exact ⟨hne, content.length, block, .inr ⟨rfl, rfl, horphan⟩, huse⟩
      · rintro ⟨hne, i, b, horphan | ⟨rfl, rfl, horphan⟩, huse⟩
        · exact .inl ⟨hne, i, b, horphan, huse⟩
        · exact .inr ⟨hne, horphan, huse⟩
    · rw [hblock.calls, ih.calls, filterMap_zipIdx_concat]
    · rw [hblock.families, ih.families, callsOf_concat]
    · rw [hblock.rewrites, ih.rewrites, filterMap_zipIdx_concat]

/-! ### The blocks that go -/

theorem mem_neutralizeUnpairedCalls_iff {orphanedIds : Finset String} {neutralize : Finset ℕ} :
    i ∈ neutralizeUnpairedCalls hasSearchTool content orphanedIds neutralize ↔
      i ∈ neutralize ∨ ∃ block, content[i]? = some block ∧ isDroppedCall hasSearchTool orphanedIds block = true := by
  induction content using List.reverseRecOn with
  | nil => simp [neutralizeUnpairedCalls]
  | append_singleton content block ih =>
    have hstep : neutralizeUnpairedCalls hasSearchTool (content ++ [block]) orphanedIds neutralize =
        if isDroppedCall hasSearchTool orphanedIds block then
          insert content.length (neutralizeUnpairedCalls hasSearchTool content orphanedIds neutralize)
        else neutralizeUnpairedCalls hasSearchTool content orphanedIds neutralize := by
      rw [neutralizeUnpairedCalls, zipIdx_concat, List.foldl_append]
      rfl
    have hlast : (∃ b, (content ++ [block])[i]? = some b ∧ isDroppedCall hasSearchTool orphanedIds b = true) ↔
        (∃ b, content[i]? = some b ∧ isDroppedCall hasSearchTool orphanedIds b = true) ∨
          (i = content.length ∧ isDroppedCall hasSearchTool orphanedIds block = true) := by
      simp only [getElem?_concat_eq_some_iff, or_and_right, exists_or, and_assoc, exists_and_left, exists_eq_left]
    rw [hstep, hlast, ← or_assoc, ← ih]
    split_ifs with hdropped
    · rw [Finset.mem_insert, or_comm, and_iff_left hdropped]
    · rw [or_iff_left fun h => hdropped h.2]

variable {calls : List (ℕ × String × Option ServerToolFamily)} {indexes : Finset ℕ × Finset ℕ}

/-- A result with the id of a call that has gone. -/
def AnswersDropped (calls : List (ℕ × String × Option ServerToolFamily)) (neutralize : Finset ℕ) (block : Json) :
    Prop :=
  resultFamily? block ≠ none ∧
    ∃ id, block.getStr? "tool_use_id" = some id ∧ ∃ call ∈ calls, call.2.1 = id ∧ call.1 ∈ neutralize

theorem mem_neutralizeResult_iff :
    i ∈ (neutralizeResult calls indexes (block, n)).1 ↔
      i ∈ indexes.1 ∨ (i = n ∧ AnswersDropped calls indexes.1 block) := by
  obtain ⟨neutralize, generic⟩ := indexes
  have hunfold : (block.getStr? "type").bind serverResultFamily = resultFamily? block := rfl
  rw [neutralizeResult, hunfold]
  cases hfamily : resultFamily? block with
  | none => exact (or_iff_left fun h => h.2.1 hfamily).symm
  | some family =>
    simp only
    by_cases hgone : n ∈ neutralize
    · rw [if_pos hgone, or_iff_left_of_imp]
      rintro ⟨rfl, -⟩
      exact hgone
    rw [if_neg hgone]
    cases huse : block.getStr? "tool_use_id" with
    | none =>
      refine (or_iff_left ?_).symm
      rintro ⟨-, -, id, hid, -⟩
      exact absurd (huse.symm.trans hid) (by simp)
    | some id =>
      have hanswers : AnswersDropped calls neutralize block ↔
          ∃ call ∈ calls, call.2.1 = id ∧ call.1 ∈ neutralize := by
        constructor
        · rintro ⟨-, id', hid, hcall⟩
          rwa [Option.some.inj (huse.symm.trans hid)]
        · exact fun hcall => ⟨by simp [hfamily], id, huse, hcall⟩
      simp only [apply_ite Prod.fst]
      split_ifs with hany
      · have hdropped : AnswersDropped calls neutralize block := hanswers.mpr (by simpa using hany)
        rw [Finset.mem_insert, or_comm, and_iff_left hdropped]
      · refine (or_iff_left fun h => hany ?_).symm
        simpa using hanswers.mp h.2

theorem mem_foldl_neutralizeResult_iff {blocks : List (Json × ℕ)}
    (hcalls : ∀ call ∈ calls, ∀ x ∈ blocks, resultFamily? x.1 ≠ none → x.2 ≠ call.1) :
    i ∈ (blocks.foldl (neutralizeResult calls) indexes).1 ↔
      i ∈ indexes.1 ∨ ∃ block, (block, i) ∈ blocks ∧ AnswersDropped calls indexes.1 block := by
  induction blocks generalizing indexes with
  | nil => simp
  | cons x blocks ih =>
    obtain ⟨first, n⟩ := x
    have hrest : ∀ call ∈ calls, ∀ x ∈ blocks, resultFamily? x.1 ≠ none → x.2 ≠ call.1 :=
      fun call hcall x hx => hcalls call hcall x (List.mem_cons_of_mem _ hx)
    -- A call has gone after the first block when it had gone before it.
    have hcall (call) (hmem : call ∈ calls) :
        call.1 ∈ (neutralizeResult calls indexes (first, n)).1 ↔ call.1 ∈ indexes.1 := by
      rw [mem_neutralizeResult_iff, or_iff_left]
      rintro ⟨hn, hanswers⟩
      exact hcalls call hmem (first, n) List.mem_cons_self hanswers.1 hn.symm
    have hanswers (block : Json) : AnswersDropped calls (neutralizeResult calls indexes (first, n)).1 block ↔
        AnswersDropped calls indexes.1 block := by
      refine and_congr_right fun _ => exists_congr fun id => and_congr_right fun _ => ?_
      exact exists_congr fun call => and_congr_right fun hmem => and_congr_right fun _ => hcall call hmem
    rw [List.foldl_cons, ih hrest, mem_neutralizeResult_iff]
    simp only [hanswers, List.mem_cons, Prod.mk.injEq, or_and_right, exists_or, and_assoc, exists_eq_left, or_assoc]

end Headroom.ToolSearch
