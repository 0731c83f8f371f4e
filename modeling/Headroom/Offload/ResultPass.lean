import Headroom.Offload.Known

/-!
# The pass over tool results

A tool result is converted when it is worth a digest and its key is known, or it may be converted for the first
time. What the pass makes known depends on the request alone.
-/

open Foundation

namespace Headroom.Offload

variable (T : Tools) (config : CtxOffloadConfig) (policy : OffloadPolicy) (former : Finset String)

/-! ### Tool results -/

/-- A block is a tool result whose text is worth a digest. The entries of a gate without the namespace say how
the digest is cut. -/
structure IsResult (block : Json) (original : String) : Prop where
  type_eq : block.getStr? "type" = some "tool_result"
  text_eq : (block.get? "content").bind toolResultText = some original
  large : isTooSmall config original = false
  shrinks : T.countText (resultDigest T original
    (budgetOf former (T.resultKey original) (Text.byteLength original))) < T.countText original

/-- A tool result with its digest. -/
def digested (block : Json) (original : String) : Json :=
  block.insert "content" (digestContent (resultDigest T original
    (budgetOf former (T.resultKey original) (Text.byteLength original))) ((block.get? "content").getD .null))

/-- The tool of a result is one whose results stay as they are. -/
def isExcluded (messages : List Json) (block : Json) : Bool :=
  LiveZone.isVerbatimExcluded T.rules (titleOf (collectToolTitles messages) block).2

/-- A first conversion at a message is allowed. -/
def isAllowed (messages : List Json) (i : ℕ) : Bool :=
  policy.rebuildBoundary || decide (i = messages.length - 1) ||
    isNearTail config (messages.length - 1 - i)

/-- A block at a message may be converted for the first time. -/
def ResultGrants (messages : List Json) (i : ℕ) (block : Json) (k : T.Key) : Prop :=
  ∃ original, IsResult T config former block original ∧ isExcluded T messages block = false ∧
    isAllowed config policy messages i = true ∧ k = T.resultKey original

/-- A request has a tool result of a key that may be converted for the first time. -/
def ResultGranted (messages : List Json) (k : T.Key) : Prop :=
  ∃ i j block, blockAt messages i j = some block ∧ ResultGrants T config policy former messages i block k

/-- The pass over the tool results. -/
def resultPass (messages : List Json) (pass : Pass) : List Json × Pass :=
  walk (fun i => offloadResultBlock T config (some policy) (collectToolTitles messages)
    (messages.length - 1) i) messages pass

variable {T config policy former} {messages : List Json} {block : Json} {original : String} {pass : Pass}
  {digest : String} {i j : ℕ}

theorem IsResult.unique {original' : String} (h : IsResult T config former block original)
    (h' : IsResult T config former block original') : original = original' :=
  Option.some.inj (h.text_eq.symm.trans h'.text_eq)

/-! ### What becomes of a tool result -/

@[simp] theorem gate_note (outcome : BlockOutcome) (isLive nearTail : Bool) (msgIdx distance : ℕ) (pass : Pass) :
    (outcome.note isLive nearTail msgIdx distance pass).gate = pass.gate := by
  cases outcome <;> rfl

theorem marker_infix_footer (hash : String) (len : ℕ) : MARKER_PREFIX <:+: (footer hash len).toList := by
  simp only [footer, String.toList_append, String.toList_ofList, List.append_assoc]
  refine List.IsInfix.trans ?_ (List.suffix_append _ _).isInfix
  exact (List.prefix_append _ _).isInfix

theorem marker_infix_resultDigest (T : Tools) (original : String) (budget : ℕ) :
    MARKER_PREFIX <:+: (resultDigest T original budget).toList := by
  rw [resultDigest, String.toList_append]
  exact (marker_infix_footer _ _).trans (List.suffix_append _ _).isInfix

theorem infix_appendText (out : String) (b : Json) : out.toList <:+: (appendText out b).toList := by
  rw [appendText]
  split
  · split_ifs with hempty
    · rw [hempty]
      exact List.nil_infix
    · rw [String.toList_append, String.toList_append, List.append_assoc]
      exact (List.prefix_append _ _).isInfix
  · exact List.infix_refl _

theorem infix_foldl_appendText (blocks : List Json) (out : String) :
    out.toList <:+: (blocks.foldl appendText out).toList := by
  induction blocks generalizing out with
  | nil => exact List.infix_refl _
  | cons b bs ih => exact (infix_appendText out b).trans (ih _)

variable {blocks : List Json}

theorem infix_of_mem {b : Json} {t : String} (hmem : b ∈ blocks) (ht : textOf b = some t)
    (out : String) : t.toList <:+: (blocks.foldl appendText out).toList := by
  induction blocks generalizing out with
  | nil => exact absurd hmem List.not_mem_nil
  | cons b' bs ih =>
    rcases List.mem_cons.1 hmem with rfl | hmem
    · refine List.IsInfix.trans ?_ (infix_foldl_appendText bs _)
      rw [appendText, ht]
      dsimp only
      split_ifs with hempty
      · exact List.infix_refl _
      · rw [String.toList_append]
        exact (List.suffix_append _ _).isInfix
    · exact ih hmem _

theorem exists_text_of_foldl (h : blocks.foldl appendText "" ≠ "") :
    ∃ b ∈ blocks, b.getStr? "type" = some "text" := by
  by_contra hnone
  refine h ?_
  have hskip : ∀ b ∈ blocks, ∀ out, appendText out b = out := by
    intro b hb out
    have htype : b.getStr? "type" ≠ some "text" := fun htype => hnone ⟨b, hb, htype⟩
    rw [appendText, textOf, if_neg htype]
  clear h hnone
  induction blocks with
  | nil => rfl
  | cons b bs ih =>
    rw [List.foldl_cons, hskip b List.mem_cons_self]
    exact ih fun b' hb' => hskip b' (List.mem_cons_of_mem _ hb')

theorem mem_keepDigest (h : ∃ b ∈ blocks, b.getStr? "type" = some "text")
    (digest : String) :
    .obj [("type", .str "text"), ("text", .str digest)] ∈ keepDigest digest blocks := by
  induction blocks with
  | nil =>
    obtain ⟨b, hb, -⟩ := h
    exact absurd hb List.not_mem_nil
  | cons b bs ih =>
    rw [keepDigest]
    split_ifs with htype
    · exact List.mem_cons_self
    · rcases (List.exists_mem_cons_iff _ _ _).1 h with hfirst | hrest
      · exact absurd hfirst htype
      · exact List.mem_cons_of_mem _ (ih hrest)

theorem infix_toolResultText_digestContent {content : Json} {original text : String}
    (htext : toolResultText content = some original)
    (hread : toolResultText (digestContent digest content) = some text) : digest.toList <:+: text.toList := by
  cases content with
  | str s => rw [← Option.some.inj hread]
  | arr blocks =>
    rw [toolResultText] at htext
    split_ifs at htext with hempty
    have hmem := mem_keepDigest (exists_text_of_foldl hempty) digest
    rw [digestContent, toolResultText] at hread
    split_ifs at hread
    rw [← Option.some.inj hread]
    exact infix_of_mem hmem rfl ""
  | null | bool | num | obj => exact absurd htext nofun

theorem IsResult.exists_content (h : IsResult T config former block original) :
    ∃ content, block.get? "content" = some content ∧ toolResultText content = some original :=
  Option.bind_eq_some_iff.1 h.text_eq

theorem IsResult.not_digested {former' : Finset String} {original' : String}
    (h : IsResult T config former block original) :
    ¬IsResult T config former' (digested T former block original) original' := by
  intro hagain
  obtain ⟨content, hcontent, htext⟩ := h.exists_content
  have hread := hagain.text_eq
  rw [digested, Json.get?_insert_self hcontent, hcontent, Option.getD_some, Option.bind_some] at hread
  have hlarge := hagain.large
  rw [isTooSmall, Bool.or_eq_false_iff, Text.contains, Option.isSome_eq_false_iff, Option.isNone_iff_eq_none,
    Text.find?_eq_none_iff (by decide)] at hlarge
  exact hlarge.1 ((marker_infix_resultDigest T original _).trans
    (infix_toolResultText_digestContent htext hread))

theorem digested_ne (h : IsResult T config former block original) : digested T former block original ≠ block :=
  fun hsame => h.not_digested (hsame.symm ▸ h)

variable (policy) in
theorem offloadToolResult_of_isResult (h : IsResult T config former block original)
    (hformer : SameFormer T pass.gate former) (title : String) (isLive nearTail : Bool) :
    ((offloadToolResult T config title (some policy) isLive nearTail block pass.gate).1.2,
        (offloadToolResult T config title (some policy) isLive nearTail block pass.gate).2) =
      if Known pass.gate (T.resultKey original) ∨ (policy.rebuildBoundary || isLive || nearTail) = true then
        (digested T former block original, insert (entryOf pass.gate (T.resultKey original)) pass.gate)
      else (block, pass.gate) := by
  obtain ⟨content, hcontent, htext⟩ := h.exists_content
  have hlookup := gateLookup_key pass.gate policy (T.resultKey original) (Text.byteLength original)
  rw [hformer.budgetOf_eq] at hlookup
  simp only [offloadToolResult, hcontent, htext, h.large, Bool.false_eq_true, if_false]
  rw [show T.computeKey original = (T.resultKey original).base from rfl, hlookup]
  dsimp only
  have hgate : (Option.any (fun p => !decide (Known pass.gate (T.resultKey original)) && !isLive && !nearTail &&
      !p.rebuildBoundary) (some policy)) = false ↔
      Known pass.gate (T.resultKey original) ∨ (policy.rebuildBoundary || isLive || nearTail) = true := by
    rw [Option.any_some]
    by_cases hknown : Known pass.gate (T.resultKey original)
    · simp [hknown]
    · cases isLive <;> cases nearTail <;> simp [hknown]
  by_cases hallowed : Known pass.gate (T.resultKey original) ∨
      (policy.rebuildBoundary || isLive || nearTail) = true
  · rw [if_pos hallowed, hgate.2 hallowed]
    have hshrinks := Nat.not_le.2 h.shrinks
    simp only [Bool.false_eq_true, if_false, hshrinks, Option.isSome_some, if_true, digested, hcontent,
      Option.getD_some]
  · rw [if_neg hallowed, if_pos (Bool.eq_true_of_not_eq_false (mt hgate.1 hallowed))]

theorem offloadToolResult_of_not (htype : block.getStr? "type" = some "tool_result")
    (h : ∀ original, ¬IsResult T config former block original)
    (hformer : SameFormer T pass.gate former) (title : String) (isLive nearTail : Bool) :
    (offloadToolResult T config title (some policy) isLive nearTail block pass.gate).1.2 = block ∧
      (offloadToolResult T config title (some policy) isLive nearTail block pass.gate).2 = pass.gate := by
  rw [offloadToolResult]
  split
  · exact ⟨rfl, rfl⟩
  rename_i content hcontent
  split
  · exact ⟨rfl, rfl⟩
  rename_i original htext
  by_cases hlarge : isTooSmall config original = true
  · rw [if_pos hlarge]
    exact ⟨rfl, rfl⟩
  rw [if_neg hlarge]
  have hlookup := gateLookup_key pass.gate policy (T.resultKey original) (Text.byteLength original)
  rw [hformer.budgetOf_eq] at hlookup
  simp only [show T.computeKey original = (T.resultKey original).base from rfl, hlookup]
  have hnot : ¬T.countText (resultDigest T original
      (budgetOf former (T.resultKey original) (Text.byteLength original))) < T.countText original := by
    intro hshrinks
    refine h original ⟨htype, ?_, Bool.eq_false_iff.2 hlarge, hshrinks⟩
    rw [hcontent]
    exact htext
  rw [if_pos (Nat.not_lt.1 hnot)]
  split_ifs <;> exact ⟨rfl, rfl⟩

variable (config policy) in
/-- The pass of a turn over one block: the tool results that are worth a digest are converted when their key is
known or they may be converted for the first time. -/
theorem offloadResultBlock_eq (hformer : SameFormer T pass.gate former) (messages : List Json) (i : ℕ)
    (block : Json) :
    (∃ original, IsResult T config former block original ∧ isExcluded T messages block = false ∧
        (Known pass.gate (T.resultKey original) ∨ isAllowed config policy messages i = true) ∧
        (offloadResultBlock T config (some policy) (collectToolTitles messages) (messages.length - 1) i block
          pass).1 = digested T former block original ∧
        (offloadResultBlock T config (some policy) (collectToolTitles messages) (messages.length - 1) i block
          pass).2.gate = insert (entryOf pass.gate (T.resultKey original)) pass.gate) ∨
      ((∀ original, IsResult T config former block original → isExcluded T messages block = false →
          ¬(Known pass.gate (T.resultKey original) ∨ isAllowed config policy messages i = true)) ∧
        (offloadResultBlock T config (some policy) (collectToolTitles messages) (messages.length - 1) i block
          pass).1 = block ∧
        (offloadResultBlock T config (some policy) (collectToolTitles messages) (messages.length - 1) i block
          pass).2.gate = pass.gate) := by
  by_cases htype : block.getStr? "type" = some "tool_result"
  swap
  · right
    simp only [offloadResultBlock, if_neg htype, and_self, and_true]
    exact fun original h => absurd h.type_eq htype
  by_cases hexcluded : isExcluded T messages block = true
  · right
    have hrule := hexcluded
    rw [isExcluded] at hrule
    simp only [offloadResultBlock, if_pos htype, hrule, if_true, and_self, and_true]
    exact fun original _ hno => absurd (hexcluded.symm.trans hno) nofun
  rw [Bool.not_eq_true] at hexcluded
  have hrule := hexcluded
  rw [isExcluded] at hrule
  simp only [offloadResultBlock, if_pos htype, hrule, Bool.false_eq_true, if_false, gate_note]
  by_cases hresult : ∃ original, IsResult T config former block original
  swap
  · right
    have hno : ∀ original, ¬IsResult T config former block original := fun original h => hresult ⟨original, h⟩
    exact ⟨fun original h => absurd h (hno original), offloadToolResult_of_not htype hno hformer _ _ _⟩
  obtain ⟨original, horiginal⟩ := hresult
  have hblock := offloadToolResult_of_isResult policy horiginal hformer
    (titleOf (collectToolTitles messages) block).1 (decide (i = messages.length - 1))
    (isNearTail config (messages.length - 1 - i))
  rw [← isAllowed] at hblock
  split_ifs at hblock with hallowed
  · left
    exact ⟨original, horiginal, hexcluded, hallowed, congrArg Prod.fst hblock, congrArg Prod.snd hblock⟩
  · right
    refine ⟨fun original' h' _ => ?_, congrArg Prod.fst hblock, congrArg Prod.snd hblock⟩
    rwa [h'.unique horiginal]

theorem resultBlock_known (messages : List Json) (i : ℕ) (block : Json) (s : Pass)
    (hs : SameFormer T s.gate former) :
    SameFormer T (offloadResultBlock T config (some policy) (collectToolTitles messages) (messages.length - 1)
        i block s).2.gate former ∧
      ∀ k : T.Key, Known (offloadResultBlock T config (some policy) (collectToolTitles messages)
          (messages.length - 1) i block s).2.gate k ↔
        Known s.gate k ∨ ResultGrants T config policy former messages i block k := by
  rcases offloadResultBlock_eq config policy hs messages i block with
    ⟨original, horiginal, hexcluded, hallowed, -, hgate⟩ | ⟨hnot, -, hgate⟩
  · rw [hgate]
    refine ⟨hs.record _, fun k => ?_⟩
    rw [known_record]
    constructor
    · rintro (hknown | rfl)
      · exact Or.inl hknown
      · exact hallowed.imp_right fun hallowed => ⟨original, horiginal, hexcluded, hallowed, rfl⟩
    · rintro (hknown | ⟨original', h', -, -, rfl⟩)
      · exact Or.inl hknown
      · exact Or.inr (by rw [h'.unique horiginal])
  · rw [hgate]
    refine ⟨hs, fun k => ?_⟩
    rw [or_iff_left]
    rintro ⟨original, horiginal, hexcluded, hallowed, -⟩
    exact hnot original horiginal hexcluded (Or.inr hallowed)

variable (config policy messages pass) in
/-- What the pass over the tool results makes known. -/
theorem resultPass_known (hformer : SameFormer T pass.gate former) :
    SameFormer T (resultPass T config policy messages pass).2.gate former ∧
      ∀ k : T.Key, Known (resultPass T config policy messages pass).2.gate k ↔
        Known pass.gate k ∨ ResultGranted T config policy former messages k :=
  walk_known (K := fun s (k : T.Key) => Known s.gate k)
    (fun i block s hs => resultBlock_known messages i block s hs) hformer

theorem isAllowed_mono {i' : ℕ} (hle : i' ≤ i) (hlt : i < messages.length)
    (h : isAllowed config policy messages i' = true) : isAllowed config policy messages i = true := by
  simp only [isAllowed, isNearTail, Bool.or_eq_true, Bool.and_eq_true, decide_eq_true_iff] at h ⊢
  rcases h with (hboundary | hlive) | ⟨hwindow, hnear⟩
  · exact Or.inl (Or.inl hboundary)
  · exact Or.inl (Or.inr (by omega))
  · exact Or.inr ⟨hwindow, by omega⟩

variable (config policy) in
/-- A tool result is taken from a state in which its key is known if it was before, or may be converted. -/
theorem resultPass_block (hformer : SameFormer T pass.gate former) (hat : blockAt messages i j = some block) :
    ∃ s : Pass, SameFormer T s.gate former ∧ (∀ k : T.Key, Known pass.gate k → Known s.gate k) ∧
      (∀ k : T.Key, Known s.gate k → Known pass.gate k ∨ isAllowed config policy messages i = true) ∧
      blockAt (resultPass T config policy messages pass).1 i j =
        some (offloadResultBlock T config (some policy) (collectToolTitles messages) (messages.length - 1) i
          block s).1 := by
  obtain ⟨s, hs, hmono, hless, hblock⟩ := walk_block
    (K := fun s (k : T.Key) => Known s.gate k) (fun i block s hs => resultBlock_known messages i block s hs)
    hformer hat
  refine ⟨s, hs, hmono, fun k hk => (hless k hk).imp_right ?_, hblock⟩
  rintro ⟨i', hle, j', block', -, original, -, -, hallowed, -⟩
  exact isAllowed_mono hle (lt_length_of_blockAt hat) hallowed

theorem result_digested (hformer : SameFormer T pass.gate former) (hat : blockAt messages i j = some block)
    (h : IsResult T config former block original) (hexcluded : isExcluded T messages block = false)
    (hallowed : Known pass.gate (T.resultKey original) ∨ isAllowed config policy messages i = true) :
    blockAt (resultPass T config policy messages pass).1 i j = some (digested T former block original) := by
  obtain ⟨s, hs, hmono, -, hblock⟩ := resultPass_block config policy hformer hat
  rw [hblock]
  rcases offloadResultBlock_eq config policy hs messages i block with
    ⟨original', h', -, -, heq, -⟩ | ⟨hnot, -⟩
  · rw [heq, h'.unique h]
  · exact absurd (hallowed.imp_left (hmono _)) (hnot original h hexcluded)

theorem result_raw (hformer : SameFormer T pass.gate former) (hat : blockAt messages i j = some block)
    (h : ∀ original, IsResult T config former block original → isExcluded T messages block = false →
      ¬Known pass.gate (T.resultKey original) ∧ isAllowed config policy messages i = false) :
    blockAt (resultPass T config policy messages pass).1 i j = some block := by
  obtain ⟨s, hs, -, hless, hblock⟩ := resultPass_block config policy hformer hat
  rw [hblock]
  rcases offloadResultBlock_eq config policy hs messages i block with
    ⟨original, horiginal, hexcluded, hallowed, -⟩ | ⟨-, heq, -⟩
  · obtain ⟨hunknown, hnot⟩ := h original horiginal hexcluded
    have hallowed' := hallowed.elim (hless _) Or.inr
    rw [hnot, or_iff_left (by decide)] at hallowed'
    exact absurd hallowed' hunknown
  · rw [heq]

end Headroom.Offload
