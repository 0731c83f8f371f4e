import Headroom.Offload.CachedHistory

/-!
# Digests can be retrieved

A pass over the tool results replaces texts and nothing else, and every digest points to a record that holds the
text it stands for. The same pass over what it made of a request changes only results that were held back before
and whose key became known.

## Main results

* `offloads_retrievably` : what the pass makes of a request, and of its own output.
-/

open Foundation

namespace Headroom.Offload

/-- The hash of a pointer. -/
def markerHash (text : String) : Option String :=
  (Text.find? MARKER_PREFIX text.toList).bind fun start =>
    let rest := text.toList.drop (start + MARKER_PREFIX.length)
    (Text.find? ">>".toList rest).map fun stop => String.ofList (rest.take stop)

/-! ### What the pass may do -/

/-- A content with another text: a string for a string. In a list the parts that are no text stay in their order,
and one part with the text stands where the first text stood. -/
inductive TakesText (text : String) : Json → Json → Prop
  | str (s : String) : TakesText text (.str s) (.str text)
  | parts {front rest : List Json} {first : Json} (hfront : ∀ part ∈ front, part.getStr? "type" ≠ some "text")
      (hfirst : first.getStr? "type" = some "text") :
      TakesText text (.arr (front ++ first :: rest))
        (.arr (front ++ .obj [("type", .str "text"), ("text", .str text)] ::
          rest.filter fun part => part.getStr? "type" ≠ some "text"))

variable (T : Tools)

/-- A text that stands for a content, and the record that it points to. The pointer is the one that is read from
the text, unless the compressor itself wrote one. -/
structure PointsTo (record : OffloadRecord) (content : Json) (text : String) : Prop where
  original_eq : toolResultText content = some record.original
  hash_eq : record.hash = T.computeKey record.original
  pointer : (footer record.hash (Text.byteLength record.original)).toList <:+ text.toList
  read : (∀ body, T.compressBlock record.original = some body → ¬MARKER_PREFIX <:+: body.toList) →
    markerHash text = some record.hash
  cheaper : T.countText text < T.countText record.original

/-- A tool result whose text was replaced. -/
structure Offloaded (titles : List (String × String × String)) (records : List OffloadRecord)
    (block block' : Json) : Prop where
  type_eq : block.getStr? "type" = some "tool_result"
  not_excluded : LiveZone.isVerbatimExcluded T.rules (titleOf titles block).2 = false
  exists_text : ∃ content content' text, block.get? "content" = some content ∧ TakesText text content content' ∧
    block' = block.insert "content" content' ∧ ∃ record ∈ records, PointsTo T record content text

/-- A block is left as it is, or its text is replaced. -/
def Settled (titles : List (String × String × String)) (records : List OffloadRecord) (block block' : Json) : Prop :=
  block' = block ∨ Offloaded T titles records block block'

/-- Two values are the same but for the items of a list in them. -/
def SameBut (key : String) (R : Json → Json → Prop) (j j' : Json) : Prop :=
  match j.getArr? key with
  | none => j' = j
  | some items => ∃ items', List.Forall₂ R items items' ∧ j' = j.insert key (.arr items')

/-- Only texts of tool results are replaced, and each of them can be retrieved. -/
def KeepsRequest (records : List OffloadRecord) (parsed parsed' : Json) : Prop :=
  SameBut "messages" (SameBut "content" (Settled T (collectToolTitles (messagesOf parsed)) records)) parsed parsed'

/-- A text was not converted before a pass over a request, and its key is known behind it. -/
def BecomesKnown (policy : Option OffloadPolicy) (gate gate' : Finset String) (original : String) : Prop :=
  (gateLookup gate policy (T.computeKey original) (Text.byteLength original)).1 = false ∧
    (gateLookup gate' policy (T.computeKey original) (Text.byteLength original)).1 = true

/-- What comes of a request is as it should be, and what comes of it once more. -/
structure OffloadsRetrievably (config : CtxOffloadConfig) (policy : Option OffloadPolicy) (parsed : Json)
    (gate : Finset String) (result : (Json × OffloadOutcome) × Finset String) : Prop where
  keeps : KeepsRequest T result.1.2.records parsed result.1.1
  again : ∀ i j block, blockAt (messagesOf result.1.1) i j = some block →
    blockAt (messagesOf (offloadAnthropicRequest T config policy result.1.1 result.2).1.1) i j = some block ∨
      ∃ original, (block.get? "content").bind toolResultText = some original ∧
        BecomesKnown T policy gate result.2 original

variable {T} {config : CtxOffloadConfig} {policy : Option OffloadPolicy} {block : Json} {gate : Finset String}
  {titles : List (String × String × String)}

/-! ### Reading a pointer -/

theorem find?_newline {pattern front : List Char} (hne : pattern ≠ []) (hline : '\n' ∉ pattern)
    (hfront : ¬pattern <:+: front) (back : List Char) :
    Text.find? pattern (front ++ '\n' :: pattern ++ back) = some (front.length + 1) := by
  have hsplit : front ++ '\n' :: pattern ++ back = (front ++ ['\n']) ++ (pattern ++ back) := by
    simp only [List.append_assoc, List.cons_append, List.nil_append]
  rw [hsplit]
  refine Text.find?_eq_some hne ?_ fun j hj hpre => ?_
  · rw [List.drop_left' (by rw [List.length_append, List.length_singleton])]
    exact List.prefix_append _ _
  -- an earlier occurrence ends before the newline, or holds it
  have hdrop : (front ++ ['\n'] ++ (pattern ++ back)).drop j = front.drop j ++ '\n' :: (pattern ++ back) := by
    rw [List.append_assoc, List.drop_append_of_le_length (by omega), List.singleton_append]
  rw [hdrop] at hpre
  have hline' : front.drop j ++ ['\n'] <+: front.drop j ++ '\n' :: (pattern ++ back) :=
    (List.prefix_append_right_inj _).2 ⟨_, List.singleton_append⟩
  rcases List.prefix_or_prefix_of_prefix hpre hline' with hshort | hlong
  · rcases List.prefix_concat_iff.1 hshort with heq | hshort
    · exact hline (heq ▸ List.mem_append_right _ List.mem_cons_self)
    · exact hfront (hshort.isInfix.trans (List.drop_suffix j front).isInfix)
  · exact hline (hlong.subset (List.mem_append_right _ List.mem_cons_self))

theorem find?_hash {hash : List Char} (h : '>' ∉ hash) (back : List Char) :
    Text.find? ">>".toList (hash ++ ('>' :: '>' :: back)) = some hash.length := by
  refine Text.find?_eq_some (by decide) ?_ fun j hj hpre => ?_
  · rw [List.drop_left]
    exact ⟨back, rfl⟩
  · rw [List.drop_append_of_le_length hj.le, List.drop_eq_getElem_cons hj] at hpre
    have hfirst : '>' = hash[j] := (List.cons_prefix_cons.1 hpre).1
    exact h (hfirst ▸ List.getElem_mem hj)

/-- The pointer at the end of a text is read from it, when no other is before it. -/
theorem markerHash_footer {body : String} (hbody : ¬MARKER_PREFIX <:+: body.toList) (text : String) (len : ℕ) :
    markerHash (body ++ footer (T.computeKey text) len) = some (T.computeKey text) := by
  have hhash : '>' ∉ (T.computeKey text).toList := fun hmem => absurd (T.key_hex text '>' hmem) (by decide)
  obtain ⟨back, hlist⟩ : ∃ back, (body ++ footer (T.computeKey text) len).toList =
      body.toList ++ '\n' :: MARKER_PREFIX ++ ((T.computeKey text).toList ++ '>' :: '>' :: back) := by
    refine ⟨(" (" ++ toString len ++ " bytes offloaded; use the headroom_retrieve tool with hash=\"" ++
      T.computeKey text ++ "\")").toList, ?_⟩
    simp only [footer, String.toList_append, String.toList_ofList, List.append_assoc]
    rfl
  rw [markerHash, hlist, find?_newline (by decide) (by decide) hbody, Option.bind_some]
  have hdrop : (body.toList ++ '\n' :: MARKER_PREFIX ++ ((T.computeKey text).toList ++ '>' :: '>' :: back)).drop
      (body.toList.length + 1 + MARKER_PREFIX.length) = (T.computeKey text).toList ++ '>' :: '>' :: back :=
    List.drop_left' (by simp only [List.length_append, List.length_cons]; omega)
  simp only [hdrop, find?_hash hhash, Option.map_some, List.take_left, String.ofList_toList]

/-! ### One result -/

theorem exists_keepDigest {blocks : List Json} (h : ∃ b ∈ blocks, b.getStr? "type" = some "text") (text : String) :
    TakesText text (.arr blocks) (.arr (keepDigest text blocks)) := by
  obtain ⟨front, first, rest, rfl, hfront, hfirst⟩ : ∃ front first rest, blocks = front ++ first :: rest ∧
      (∀ part ∈ front, part.getStr? "type" ≠ some "text") ∧ first.getStr? "type" = some "text" := by
    induction blocks with
    | nil =>
      obtain ⟨b, hb, -⟩ := h
      exact absurd hb List.not_mem_nil
    | cons b bs ih =>
      by_cases htype : b.getStr? "type" = some "text"
      · exact ⟨[], b, bs, rfl, fun _ hpart => absurd hpart List.not_mem_nil, htype⟩
      · obtain ⟨front, first, rest, rfl, hfront, hfirst⟩ :=
          ih (((List.exists_mem_cons_iff _ _ _).1 h).resolve_left htype)
        exact ⟨b :: front, first, rest, rfl, List.forall_mem_cons.2 ⟨htype, hfront⟩, hfirst⟩
  have hkeep : keepDigest text (front ++ first :: rest) = front ++ .obj [("type", .str "text"), ("text", .str text)] ::
      rest.filter fun part => part.getStr? "type" ≠ some "text" := by
    clear h
    induction front with
    | nil => rw [List.nil_append, keepDigest, if_pos hfirst, List.nil_append]
    | cons b front ih =>
      obtain ⟨hb, hfront⟩ := List.forall_mem_cons.1 hfront
      rw [List.cons_append, keepDigest, if_neg hb, ih hfront, List.cons_append]
  rw [hkeep]
  exact .parts hfront hfirst

theorem takesText_digestContent {content : Json} {original : String}
    (h : toolResultText content = some original) (text : String) :
    TakesText text content (digestContent text content) := by
  cases content with
  | str s => exact .str s
  | arr blocks =>
    rw [toolResultText] at h
    split_ifs at h with hempty
    exact exists_keepDigest (exists_text_of_foldl hempty) text
  | null | bool | num | obj => exact absurd h (by rintro ⟨⟩)

/-- A preview holds no pointer that its text does not hold. -/
theorem not_infix_preview {text : String} (h : ¬MARKER_PREFIX <:+: text.toList) (maxBytes : ℕ) :
    ¬MARKER_PREFIX <:+: (preview text maxBytes).toList := by
  have hcut : cutAt maxBytes text.toList <+: text.toList := by
    generalize text.toList = chars
    induction chars generalizing maxBytes with
    | nil => exact List.nil_prefix
    | cons c chars ih =>
      rw [cutAt]
      split_ifs
      · exact (List.cons_prefix_cons).2 ⟨rfl, ih _⟩
      · exact List.nil_prefix
  intro hfound
  rw [preview, String.toList_append, String.toList_ofList] at hfound
  obtain ⟨tail, htail⟩ : ∃ tail, "\n…[truncated — retrieval pointer below]".toList = '\n' :: tail := ⟨_, rfl⟩
  rw [htail, Text.infix_append_cons_iff (by decide)] at hfound
  rcases hfound with hfound | hfound
  · exact h (hfound.trans hcut.isInfix)
  · obtain rfl : "…[truncated — retrieval pointer below]".toList = tail := List.cons_injective htail
    revert hfound
    decide +kernel

/-- What becomes of a tool result: it stays, or takes a digest that points to the record of its text. -/
theorem offloadToolResult_cases (T : Tools) (config : CtxOffloadConfig) (title : String)
    (policy : Option OffloadPolicy) (isLive nearTail : Bool) (block : Json) (gate : Finset String) :
    ((offloadToolResult T config title policy isLive nearTail block gate).1.2 = block ∧
        ∀ record prior saved,
          (offloadToolResult T config title policy isLive nearTail block gate).1.1 ≠ .offloaded record prior saved) ∨
      ∃ record prior saved content text,
        (offloadToolResult T config title policy isLive nearTail block gate).1 =
          (.offloaded record prior saved, block.insert "content" (digestContent text content)) ∧
        block.get? "content" = some content ∧ PointsTo T record content text := by
  rw [offloadToolResult]
  split
  · exact Or.inl ⟨rfl, by simp⟩
  rename_i content hcontent
  split
  · exact Or.inl ⟨rfl, by simp⟩
  rename_i original horiginal
  by_cases hsmall : isTooSmall config original = true
  · rw [if_pos hsmall]
    exact Or.inl ⟨rfl, by simp⟩
  rw [if_neg hsmall]
  dsimp only
  generalize (gateLookup gate policy (T.computeKey original) (Text.byteLength original)).2.2 = budget
  split
  · exact Or.inl ⟨rfl, by simp⟩
  by_cases hcosts : T.countText original ≤ T.countText (resultDigest T original budget)
  · rw [if_pos hcosts]
    exact Or.inl ⟨rfl, by simp⟩
  rw [if_neg hcosts]
  refine Or.inr ⟨_, _, _, content, resultDigest T original budget, rfl, hcontent, horiginal, rfl, ?_, ?_,
    Nat.not_le.1 hcosts⟩
  · rw [resultDigest, String.toList_append]
    exact List.suffix_append _ _
  · intro hcompressor
    refine markerHash_footer ?_ original _
    cases hbody : T.compressBlock original with
    | some body => exact hcompressor body hbody
    | none =>
      rw [Bool.not_eq_true, isTooSmall, Bool.or_eq_false_iff, Text.contains, Option.isSome_eq_false_iff,
        Option.isNone_iff_eq_none, Text.find?_eq_none_iff (by decide)] at hsmall
      exact not_infix_preview hsmall.1 budget

/-! ### A request -/

theorem Settled.mono (records records' : List OffloadRecord) (block block' : Json) (hsub : records ⊆ records')
    (h : Settled T titles records block block') : Settled T titles records' block block' := by
  refine h.imp_right fun h => ?_
  obtain ⟨content, content', text, hcontent, htakes, heq, record, hmem, hpoints⟩ := h.exists_text
  exact ⟨h.type_eq, h.not_excluded, content, content', text, hcontent, htakes, heq, record, hsub hmem, hpoints⟩

theorem offloadResultBlock_keeps (T : Tools) (config : CtxOffloadConfig) (policy : Option OffloadPolicy)
    (titles : List (String × String × String)) (lastIdx msgIdx : ℕ) (block : Json) (pass : Pass) :
    pass.outcome.records ⊆
        (offloadResultBlock T config policy titles lastIdx msgIdx block pass).2.outcome.records ∧
      Settled T titles (offloadResultBlock T config policy titles lastIdx msgIdx block pass).2.outcome.records block
        (offloadResultBlock T config policy titles lastIdx msgIdx block pass).1 := by
  by_cases htype : block.getStr? "type" = some "tool_result"
  swap
  · rw [offloadResultBlock, if_neg htype]
    exact ⟨List.Subset.refl _, Or.inl rfl⟩
  rw [offloadResultBlock, if_pos htype]
  dsimp only
  by_cases hexcluded : LiveZone.isVerbatimExcluded T.rules (titleOf titles block).2 = true
  · rw [if_pos hexcluded]
    exact ⟨List.Subset.refl _, Or.inl rfl⟩
  rw [if_neg hexcluded]
  have hcases := offloadToolResult_cases T config (titleOf titles block).1 policy (decide (msgIdx = lastIdx))
    (isNearTail config (lastIdx - msgIdx)) block pass.gate
  revert hcases
  generalize offloadToolResult T config (titleOf titles block).1 policy (decide (msgIdx = lastIdx))
    (isNearTail config (lastIdx - msgIdx)) block pass.gate = result
  obtain ⟨⟨outcome, block'⟩, gate⟩ := result
  rintro (⟨hsame, hnone⟩ | ⟨record, prior, saved, content, text, heq, hcontent, hpoints⟩)
  · refine ⟨?_, Or.inl hsame⟩
    cases outcome with
    | offloaded record prior saved => exact absurd rfl (hnone record prior saved)
    | deferred bytes => exact List.Subset.refl _
    | skipped => exact List.Subset.refl _
  · obtain ⟨rfl, rfl⟩ := Prod.mk.inj heq
    exact ⟨List.subset_append_left _ _, Or.inr ⟨htype, Bool.eq_false_iff.2 hexcluded, content, _, text, hcontent,
      takesText_digestContent hpoints.original_eq text, rfl, record,
      List.mem_append_right _ List.mem_cons_self, hpoints⟩⟩

theorem SameBut.mono {key : String} {R R' : Json → Json → Prop} {j j' : Json} (h : SameBut key R j j')
    (hR : ∀ a b, R a b → R' a b) : SameBut key R' j j' := by
  rw [SameBut] at h ⊢
  cases hitems : j.getArr? key with
  | none =>
    rw [hitems] at h
    exact h
  | some items =>
    rw [hitems] at h
    obtain ⟨items', hrelated, heq⟩ := h
    exact ⟨items', hrelated.imp hR, heq⟩

/-- What the passes over the blocks of a message relate, they relate in the message. -/
theorem rewriteBlocks_sameBut {f : Json → Pass → Json × Pass} {R : List OffloadRecord → Json → Json → Prop}
    (hmono : ∀ l l' a b, l ⊆ l' → R l a b → R l' a b)
    (hstep : ∀ block s, s.outcome.records ⊆ (f block s).2.outcome.records ∧
      R (f block s).2.outcome.records block (f block s).1) (message : Json) (pass : Pass) :
    pass.outcome.records ⊆ (rewriteBlocks f message pass).2.outcome.records ∧
      SameBut "content" (R (rewriteBlocks f message pass).2.outcome.records) message
        (rewriteBlocks f message pass).1 := by
  rw [rewriteBlocks, SameBut]
  cases message.getArr? "content" with
  | none => exact ⟨List.Subset.refl _, rfl⟩
  | some blocks =>
    obtain ⟨hsub, hrelated⟩ := @forall₂_thread_subset _ _ _ f blocks _ (fun s => s.outcome.records) R hmono
      (fun block _ s => hstep block s) pass
    exact ⟨hsub, _, hrelated, rfl⟩

theorem offloadAnthropicRequest_keeps (T : Tools) (config : CtxOffloadConfig) (policy : Option OffloadPolicy)
    (parsed : Json) (gate : Finset String) :
    KeepsRequest T (offloadAnthropicRequest T config policy parsed gate).1.2.records parsed
      (offloadAnthropicRequest T config policy parsed gate).1.1 := by
  rw [KeepsRequest, SameBut, offloadAnthropicRequest, messagesOf]
  cases parsed.getArr? "messages" with
  | none => rfl
  | some messages =>
    dsimp only [Option.getD_some]
    obtain ⟨-, hrelated⟩ := @forall₂_thread_subset _ _ _ _ messages.zipIdx _ (fun s : Pass => s.outcome.records)
      (fun records m => SameBut "content" (Settled T (collectToolTitles messages) records) m.1)
      (fun l l' a b hsub h => h.mono fun _ _ h => h.mono _ _ _ _ hsub)
      (fun m _ s => rewriteBlocks_sameBut Settled.mono
        (offloadResultBlock_keeps T config policy (collectToolTitles messages) (messages.length - 1) m.2) m.1 s)
      ({ gate } : Pass)
    refine ⟨_, ?_, rfl⟩
    have hmessages := List.forall₂_map_left_iff.2 hrelated
    rw [List.zipIdx_map_fst] at hmessages
    split <;> exact hmessages

/-! ### The pass once more -/

theorem foldl_eq_of_forall₂ {α β : Type*} {R : α → α → Prop} {f : β → α → β} {as as' : List α}
    (hrelated : List.Forall₂ R as as') (hf : ∀ b a a', R a a' → f b a' = f b a) (b : β) :
    as'.foldl f b = as.foldl f b := by
  induction hrelated generalizing b with
  | nil => rfl
  | cons hfirst _ ih => rw [List.foldl_cons, List.foldl_cons, hf b _ _ hfirst, ih]

/-- The pass leaves the tool calls alone, and with them the titles. -/
theorem collectToolTitles_eq {records : List OffloadRecord} {messages messages' : List Json}
    (h : List.Forall₂ (SameBut "content" (Settled T titles records)) messages messages') :
    collectToolTitles messages' = collectToolTitles messages := by
  refine foldl_eq_of_forall₂ h (fun map message message' hmessage => ?_) []
  rw [SameBut] at hmessage
  cases hblocks : message.getArr? "content" with
  | none =>
    rw [hblocks] at hmessage
    obtain rfl : message' = message := hmessage
    rw [hblocks]
  | some blocks =>
    rw [hblocks] at hmessage
    obtain ⟨blocks', hrelated, rfl⟩ := hmessage
    rw [getArr?_insert_self hblocks]
    refine foldl_eq_of_forall₂ hrelated (fun map block block' hblock => ?_) map
    rcases hblock with rfl | hoffloaded
    · rfl
    obtain ⟨content, content', text, -, -, rfl, -⟩ := hoffloaded.exists_text
    have htype : (block.insert "content" content').getStr? "type" = some "tool_result" := by
      rw [Json.getStr?, Json.get?_insert_of_ne (by decide)]
      exact hoffloaded.type_eq
    rw [if_neg (by rw [htype]; decide), if_neg (by rw [hoffloaded.type_eq]; decide)]

/-- Without a policy every result is taken as on a turn that rebuilds the cache, from an empty gate. -/
theorem offloadResultBlock_none (T : Tools) (config : CtxOffloadConfig) (titles : List (String × String × String))
    (lastIdx i : ℕ) (block : Json) (pass : Pass) :
    (offloadResultBlock T config none titles lastIdx i block pass).1 =
      (offloadResultBlock T config (some ⟨"", true⟩) titles lastIdx i block { gate := ∅ }).1 := by
  rw [offloadResultBlock, offloadResultBlock]
  split
  swap
  · rfl
  dsimp only
  split
  · rfl
  show (offloadToolResult T config _ none _ _ block pass.gate).1.2 =
    (offloadToolResult T config _ (some ⟨"", true⟩) _ _ block ∅).1.2
  rw [offloadToolResult, offloadToolResult]
  cases block.get? "content" with
  | none => rfl
  | some content =>
    dsimp only
    cases toolResultText content with
    | none => rfl
    | some original =>
      dsimp only
      split
      · rfl
      · simp only [gateLookup, Finset.notMem_empty, if_false, decide_false, Option.any_none, Option.any_some,
          Bool.not_true, Bool.and_false, Bool.false_eq_true]
        split <;> rfl

/-- The pass over the messages of a request. -/
def requestPass (T : Tools) (config : CtxOffloadConfig) (policy : Option OffloadPolicy) (messages : List Json)
    (pass : Pass) : List Json × Pass :=
  walk (fun i => offloadResultBlock T config policy (collectToolTitles messages) (messages.length - 1) i) messages
    pass

variable (T config policy gate) in
theorem offloadAnthropicRequest_eq {parsed : Json} {messages : List Json}
    (h : parsed.getArr? "messages" = some messages) :
    (offloadAnthropicRequest T config policy parsed gate).1.1.getArr? "messages" =
        some (requestPass T config policy messages { gate }).1 ∧
      (offloadAnthropicRequest T config policy parsed gate).2 =
        (requestPass T config policy messages { gate }).2.gate := by
  rw [offloadAnthropicRequest, h]
  exact ⟨getArr?_insert_self h, rfl⟩

/-- What the pass once more changes, it had left alone before, and the key of the text became known since. -/
theorem resultPass_again {policy : OffloadPolicy} {messages : List Json} {pass pass' : Pass} {i j : ℕ}
    (htitles : collectToolTitles (resultPass T config policy messages pass).1 = collectToolTitles messages)
    (hpass : pass'.gate = (resultPass T config policy messages pass).2.gate)
    (hat : blockAt (resultPass T config policy messages pass).1 i j = some block) :
    blockAt (resultPass T config policy (resultPass T config policy messages pass).1 pass').1 i j = some block ∨
      ∃ original, (block.get? "content").bind toolResultText = some original ∧
        BecomesKnown T (some policy) pass.gate pass'.gate original := by
  obtain ⟨hformer, -⟩ := resultPass_known config policy messages pass (SameFormer.refl pass.gate)
  rw [← hpass] at hformer
  cases hbefore : blockAt messages i j with
  | none => exact absurd ((blockAt_walk_eq_none hbefore).symm.trans hat) nofun
  | some block₀ =>
    obtain ⟨s, hs, hmono, -, hout⟩ := resultPass_block config policy (SameFormer.refl pass.gate) hbefore
    obtain rfl := Option.some.inj (hat.symm.trans hout)
    rcases offloadResultBlock_eq config policy hs messages i block₀ with
      ⟨original, horiginal, -, -, heq, -⟩ | ⟨hwaits, heq, -⟩
    · rw [heq] at hat ⊢
      exact Or.inl (result_raw hformer hat fun original' h => absurd h horiginal.not_digested)
    rw [heq] at hat ⊢
    by_cases hnew : ∃ original, IsResult T config pass.gate block₀ original ∧
        isExcluded T messages block₀ = false ∧ Known pass'.gate (T.resultKey original)
    · obtain ⟨original, horiginal, hexcluded, hknown⟩ := hnew
      have hunknown : ¬Known pass.gate (T.resultKey original) := fun h =>
        hwaits original horiginal hexcluded (Or.inl (hmono _ h))
      refine Or.inr ⟨original, horiginal.text_eq, ?_, ?_⟩
      · exact (congrArg Prod.fst (gateLookup_key pass.gate policy (T.resultKey original) _)).trans
          (decide_eq_false hunknown)
      · exact (congrArg Prod.fst (gateLookup_key pass'.gate policy (T.resultKey original) _)).trans
          (decide_eq_true hknown)
    · refine Or.inl (result_raw hformer hat fun original horiginal hexcluded => ?_)
      rw [isExcluded, htitles, ← isExcluded] at hexcluded
      refine ⟨fun hknown => hnew ⟨original, horiginal, hexcluded, hknown⟩, ?_⟩
      rw [isAllowed, length_resultPass, ← isAllowed, ← Bool.not_eq_true]
      exact fun hallowed => hwaits original horiginal hexcluded (Or.inr hallowed)

/-- Without a policy each block is taken for itself. -/
theorem blockAt_requestPass_none {messages : List Json} {pass : Pass} {i j : ℕ} (hat : blockAt messages i j = some block) :
    blockAt (requestPass T config none messages pass).1 i j =
      some (offloadResultBlock T config (some ⟨"", true⟩) (collectToolTitles messages) (messages.length - 1) i block
        { gate := ∅ }).1 := by
  obtain ⟨s, -, -, -, hout⟩ := @walk_block
    (fun i => offloadResultBlock T config none (collectToolTitles messages) (messages.length - 1) i) messages pass
    Empty (fun _ => True) (fun _ _ => True) (fun _ _ _ => False) (fun _ _ _ _ => ⟨trivial, nofun⟩) trivial i j block
    hat
  rw [requestPass, hout, offloadResultBlock_none]

theorem requestPass_none_again {messages : List Json} {pass pass' : Pass} {i j : ℕ}
    (htitles : collectToolTitles (requestPass T config none messages pass).1 = collectToolTitles messages)
    (hat : blockAt (requestPass T config none messages pass).1 i j = some block) :
    blockAt (requestPass T config none (requestPass T config none messages pass).1 pass').1 i j = some block := by
  have hlength : (requestPass T config none messages pass).1.length = messages.length := length_walk _ _ _
  rw [blockAt_requestPass_none hat, htitles, hlength]
  cases hbefore : blockAt messages i j with
  | none => exact absurd ((blockAt_walk_eq_none hbefore).symm.trans hat) nofun
  | some block₀ =>
    obtain rfl := Option.some.inj (hat.symm.trans (blockAt_requestPass_none hbefore))
    have hformer : SameFormer T (∅ : Finset String) ∅ := SameFormer.refl ∅
    -- a digest is no result that is worth one, and what was left before is left again
    rcases @offloadResultBlock_eq T config ⟨"", true⟩ ∅ { gate := ∅ } hformer messages i block₀ with
      ⟨original, horiginal, -, -, heq, -⟩ | ⟨-, heq, -⟩
    · rw [heq]
      rcases @offloadResultBlock_eq T config ⟨"", true⟩ ∅ { gate := ∅ } hformer messages i
        (digested T ∅ block₀ original) with ⟨original', h, -⟩ | ⟨-, heq', -⟩
      · exact absurd h horiginal.not_digested
      · rw [heq']
    · rw [heq, heq]

/-! ### What the pass promises -/

/-- A part of the block of a result has a cache marker. -/
def PartMarker (block marker : Json) : Prop :=
  ∃ part ∈ (block.getArr? "content").getD [], part.get? "cache_control" = some marker

private def longText : Json := .str (String.ofList (List.replicate 200 'a'))

private def markedPart : Json :=
  .obj [("type", .str "text"), ("text", longText), ("cache_control", .obj [("type", .str "ephemeral")])]

private def resultOf (content : Json) : Json :=
  .obj [("type", .str "tool_result"), ("tool_use_id", .str "t"), ("content", content)]

private def requestOf (contents : List Json) : Json :=
  .obj [("messages", .arr (contents.map fun content => .obj [("role", .str "user"), ("content", content)]))]

/-- Tools whose compressor writes a list anew, and with it the angle brackets that were escaped. -/
private def anewTools : Tools := { plainTools with compressBlock := fun _ => some "[\"<<ctx:0>>\"]" }

private def escapedText : Json :=
  .str ("[\"\\u003c\\u003cctx:0\\u003e\\u003e\"]" ++ String.ofList (List.replicate 200 ' '))

end Headroom.Offload
