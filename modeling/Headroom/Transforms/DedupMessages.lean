import Headroom.Foundation.Json
import Headroom.Transforms.DedupSpans

/-!
# Deduplication over a conversation

The tool outputs of a conversation are the blocks; what changed is written back where it stood.
Messages that are appended change nothing before them: the output for the first messages is the
first part of the output for all of them.

## Main results

* `dedup_monotonic_verbatim`, `dedupMessages_frozen`.
-/

open Foundation

namespace Headroom.Transforms

/-! ### A prefix of the blocks -/

section Blocks

variable {σ σ' : Setting} {s s' : DedupState} {anchorIndex : AnchorIndex} {corpus : Corpus}

/-- Two settings that differ at most in the turns of blocks that are not there yet. -/
structure Setting.SameBelow (n : ℕ) (σ σ' : Setting) : Prop where
  minLines : σ.minLines = σ'.minLines
  minChars : σ.minChars = σ'.minChars
  turns : ∀ bp < n, σ.turns bp = σ'.turns bp

theorem foldAt_congr (h : σ.SameBelow corpus.length σ') (cur : List Line) :
    foldAt σ anchorIndex corpus cur = foldAt σ' anchorIndex corpus cur := by
  rw [foldAt, foldAt]
  refine Option.bind_congr fun m hm => ?_
  rw [h.minLines, h.minChars, h.turns _ (longestMatch_spec hm).1]

theorem foldLines_congr (h : σ.SameBelow corpus.length σ') (lines : List Line) :
    foldLines σ anchorIndex corpus lines = foldLines σ' anchorIndex corpus lines := by
  fun_induction foldLines σ anchorIndex corpus lines with
  | case1 => rw [foldLines]
  | case2 line rest m ptr hfold span pass ih =>
    rw [foldLines]
    rw [foldAt_congr h] at hfold
    split
    · rename_i heq
      obtain ⟨rfl, rfl⟩ := Prod.mk.inj (Option.some.inj (hfold.symm.trans heq))
      rw [← ih]
    · rename_i heq
      exact absurd (hfold.symm.trans heq) (Option.some_ne_none _)
  | case3 line rest hfold pass ih =>
    rw [foldLines]
    rw [foldAt_congr h] at hfold
    split
    · rename_i heq
      exact absurd (heq.symm.trans hfold) (Option.some_ne_none _)
    · rw [← ih]

/-- Two states that differ at most in their statistics. -/
structure DedupState.Same (s s' : DedupState) : Prop where
  corpus : s.corpus = s'.corpus
  anchorIndex : s.anchorIndex = s'.anchorIndex
  outBlocks : s.outBlocks = s'.outBlocks

theorem corpus_dedupStep (σ : Setting) (s : DedupState) (blk : DedupBlock) :
    (dedupStep σ s blk).corpus.length = s.corpus.length + 1 := by
  rw [dedupStep]
  split <;> exact List.length_append

theorem dedupStep_same (hs : s.Same s') (h : σ.SameBelow s.corpus.length σ') (blk : DedupBlock) :
    (dedupStep σ s blk).Same (dedupStep σ' s' blk) := by
  obtain ⟨hcorpus, hanchor, hout⟩ := hs
  rw [dedupStep, dedupStep, ← hcorpus, ← hanchor, ← hout]
  dsimp only
  rw [foldLines_congr h]
  split
  · exact ⟨rfl, rfl, rfl⟩
  · exact ⟨rfl, rfl, rfl⟩

variable {blocks : List DedupBlock}

theorem foldl_dedupStep_same (hs : s.Same s')
    (h : σ.SameBelow (s.corpus.length + blocks.length) σ') :
    (blocks.foldl (dedupStep σ) s).Same (blocks.foldl (dedupStep σ') s') := by
  induction blocks generalizing s s' with
  | nil => exact hs
  | cons blk blocks ih =>
    refine ih (dedupStep_same hs ⟨h.minLines, h.minChars, fun bp hbp => h.turns bp ?_⟩ blk)
      ⟨h.minLines, h.minChars, fun bp hbp => h.turns bp ?_⟩
    · omega
    · rw [corpus_dedupStep] at hbp
      rw [List.length_cons]
      omega

/-- Every block gives one output, behind those there are. -/
theorem exists_outBlocks (σ : Setting) (s : DedupState) (blocks : List DedupBlock) :
    ∃ outs : List DedupBlock, outs.length = blocks.length ∧
      (blocks.foldl (dedupStep σ) s).outBlocks = s.outBlocks ++ outs := by
  induction blocks generalizing s with
  | nil => exact ⟨[], rfl, (List.append_nil _).symm⟩
  | cons blk blocks ih =>
    obtain ⟨outs, hlength, houts⟩ := ih (dedupStep σ s blk)
    have hstep : ∃ out, (dedupStep σ s blk).outBlocks = s.outBlocks ++ [out] := by
      rw [dedupStep]
      split
      · exact ⟨blk, rfl⟩
      · exact ⟨_, rfl⟩
    obtain ⟨out, hout⟩ := hstep
    refine ⟨out :: outs, congrArg (· + 1) hlength, ?_⟩
    rw [List.foldl_cons, houts, hout, List.append_assoc]
    rfl

theorem length_dedupBlocksWith (blocks : List DedupBlock) (minLines minChars : ℕ) :
    (dedupBlocksWith blocks minLines minChars).1.length = blocks.length := by
  obtain ⟨outs, hlength, houts⟩ := exists_outBlocks ⟨minLines, minChars, turnsOf blocks⟩
    { stats := { blocks := blocks.length } } blocks
  rw [dedupBlocksWith, houts, List.nil_append, hlength]

theorem dedupBlocksWith_append (blocks more : List DedupBlock) (minLines minChars : ℕ) :
    ∃ outs : List DedupBlock, outs.length = more.length ∧
      (dedupBlocksWith (blocks ++ more) minLines minChars).1 =
        (dedupBlocksWith blocks minLines minChars).1 ++ outs := by
  have hturns : (Setting.mk minLines minChars (turnsOf (blocks ++ more))).SameBelow
      (0 + blocks.length) ⟨minLines, minChars, turnsOf blocks⟩ := by
    refine ⟨rfl, rfl, fun bp hbp => ?_⟩
    rw [Nat.zero_add] at hbp
    show ((blocks ++ more)[bp]?.map DedupBlock.turn).getD 0 = (blocks[bp]?.map DedupBlock.turn).getD 0
    rw [List.getElem?_append_left hbp]
  have hstart : DedupState.Same { stats := { blocks := (blocks ++ more).length } }
      { stats := { blocks := blocks.length } } := ⟨rfl, rfl, rfl⟩
  have hsame := foldl_dedupStep_same hstart hturns
  obtain ⟨outs, hlength, houts⟩ := exists_outBlocks ⟨minLines, minChars, turnsOf (blocks ++ more)⟩
    (blocks.foldl (dedupStep ⟨minLines, minChars, turnsOf (blocks ++ more)⟩)
      { stats := { blocks := (blocks ++ more).length } }) more
  refine ⟨outs, hlength, ?_⟩
  rw [dedupBlocksWith, dedupBlocksWith, List.foldl_append]
  exact houts.trans (congrArg (· ++ outs) hsame.outBlocks)

theorem dedupBlocksWith_take (blocks : List DedupBlock) (minLines minChars k : ℕ) :
    (dedupBlocksWith (blocks.take k) minLines minChars).1 =
      (dedupBlocksWith blocks minLines minChars).1.take k := by
  rcases Nat.le_total k blocks.length with hk | hk
  · obtain ⟨outs, -, houts⟩ :=
      dedupBlocksWith_append (blocks.take k) (blocks.drop k) minLines minChars
    have hfirst := length_dedupBlocksWith (blocks.take k) minLines minChars
    rw [List.length_take, Nat.min_eq_left hk] at hfirst
    rw [List.take_append_drop] at houts
    rw [houts, List.take_append_of_le_length (Nat.le_of_eq hfirst.symm),
      List.take_of_length_le (Nat.le_of_eq hfirst)]
  · rw [List.take_of_length_le hk, List.take_of_length_le]
    rw [length_dedupBlocksWith]
    exact hk

/-! ### Nothing folded -/

theorem foldLines_of_spansFolded {lines : List Line}
    (h : (foldLines σ anchorIndex corpus lines).spansFolded = 0) :
    (foldLines σ anchorIndex corpus lines).out = lines := by
  fun_induction foldLines σ anchorIndex corpus lines with
  | case1 => rfl
  | case2 line rest m ptr hfold span pass ih => exact absurd h (Nat.succ_ne_zero _)
  | case3 line rest hfold pass ih => exact congrArg (line :: ·) (ih h)

theorem text_of_spansFolded (h : (blocks.foldl (dedupStep σ) s).stats.spansFolded = 0) :
    s.stats.spansFolded = 0 ∧ (blocks.foldl (dedupStep σ) s).outBlocks.map DedupBlock.text =
      s.outBlocks.map DedupBlock.text ++ blocks.map DedupBlock.text := by
  induction blocks generalizing s with
  | nil => exact ⟨h, (List.append_nil _).symm⟩
  | cons blk blocks ih =>
    obtain ⟨hfirst, htexts⟩ := ih h
    rw [List.foldl_cons, htexts]
    rw [dedupStep] at hfirst ⊢
    by_cases hprotected : blk.isProtected = true
    · rw [if_pos hprotected] at hfirst ⊢
      exact ⟨hfirst, by simp only [List.map_append, List.map_cons, List.map_nil, List.append_assoc,
        List.cons_append, List.nil_append]⟩
    · rw [if_neg hprotected] at hfirst ⊢
      obtain ⟨hstats, hpass⟩ := Nat.add_eq_zero_iff.mp hfirst
      refine ⟨hstats, ?_⟩
      dsimp only
      rw [foldLines_of_spansFolded hpass, joinLines, List.intercalate_splitOn, List.map_append,
        List.append_assoc]
      rfl

theorem dedupBlocks_text_of_spansFolded (h : (dedupBlocks blocks).2.spansFolded = 0) :
    (dedupBlocks blocks).1.map DedupBlock.text = blocks.map DedupBlock.text :=
  (text_of_spansFolded h).2

theorem foldLines_of_empty (σ : Setting) (lines : List Line) :
    foldLines σ ∅ corpus lines = { out := lines, verbatim := lines.map some } := by
  have hfold : ∀ cur, foldAt σ ∅ corpus cur = none := by
    intro cur
    have hmatch : longestMatch cur ∅ corpus = none := by
      rw [longestMatch]
      rcases cur with _ | ⟨line, cur⟩
      · rfl
      · simp only [List.head?_cons, Option.bind_eq_bind, Option.bind_some, AList.lookup_empty,
          Option.bind_none]
    rw [foldAt, hmatch]
    rfl
  induction lines with
  | nil => rw [foldLines]; rfl
  | cons line lines ih =>
    rw [foldLines]
    split
    · rename_i heq
      exact absurd (heq.symm.trans (hfold _)) (Option.some_ne_none _)
    · rw [ih]
      rfl

theorem spansFolded_of_length_lt (h : blocks.length < 2) :
    (dedupBlocks blocks).2.spansFolded = 0 := by
  rcases blocks with _ | ⟨blk, _ | ⟨next, blocks⟩⟩
  · rfl
  · show (dedupStep _ _ blk).stats.spansFolded = 0
    rw [dedupStep]
    split
    · rfl
    · exact (Nat.zero_add _).trans (congrArg Pass.spansFolded (foldLines_of_empty _ _))
  · rw [List.length_cons, List.length_cons] at h
    omega

end Blocks

/-! ### Messages -/

/-- Where the text of a block stands in its message. -/
inductive Slot
  | message
  | block (bidx : ℕ)
  | userText (bidx : ℕ)
  | part (bidx sidx : ℕ)

/-- Where the text of a block stands in the conversation. -/
structure Loc where
  mi : ℕ
  slot : Slot

/-- The text parts of a tool result that are not empty, with their places. -/
def textParts (parts : List Json) : List (String × ℕ) :=
  parts.zipIdx.filterMap fun p =>
    if p.1.getStr? "type" = some "text" then
      ((p.1.getStr? "text").filter (· ≠ "")).map fun t => (t, p.2)
    else none

/-- The text of a tool result. Of a list, the only text part; a list with several is left as it
is. -/
def toolResultText (bidx : ℕ) (block : Json) : Option (String × Slot) :=
  match block.get? "content" with
  | some (.str t) => some (t, .block bidx)
  | some (.arr parts) =>
    match textParts parts with
    | [(t, si)] => some (t, .part bidx si)
    | _ => none
  | _ => none

/-- What is fixed for the blocks of one message. -/
structure MessageSetting where
  userTextTail : ℕ
  tailStart : ℕ
  i : ℕ
  frozen : Bool
  role : Option String

/-- The block of a content block. -/
def contentEntry (μ : MessageSetting) (entry : Json × ℕ) : Option (Loc × DedupBlock) :=
  let (block, bidx) := entry
  if !block.isObj then none
  else
    let marked := (block.get? "cache_control").isSome
    if 0 < μ.userTextTail ∧ block.getStr? "type" = some "text" ∧ μ.role = some "user" then
      let text := (block.getStr? "text").getD ""
      if text = "" then none
      else some (⟨μ.i, .userText bidx⟩, ⟨text.toList, μ.i, μ.frozen || μ.tailStart ≤ μ.i || marked⟩)
    else if block.getStr? "type" ≠ some "tool_result" then none
    else
      match toolResultText bidx block with
      | some (text, slot) =>
        if text = "" then none else some (⟨μ.i, slot⟩, ⟨text.toList, μ.i, μ.frozen || marked⟩)
      | none => none

/-- The blocks of a message. -/
def messageEntries (frozenMessageCount userTextTail tailStart : ℕ) (entry : Json × ℕ) :
    List (Loc × DedupBlock) :=
  let (msg, i) := entry
  let frozen : Bool := i < frozenMessageCount
  let role := msg.getStr? "role"
  match msg.get? "content" with
  | some (.arr content) =>
    content.zipIdx.filterMap (contentEntry ⟨userTextTail, tailStart, i, frozen, role⟩)
  | some (.str content) =>
    let userText : Bool := 0 < userTextTail ∧ role = some "user"
    if !userText ∧ ¬(role = some "tool" ∨ role = some "function") then []
    else if content = "" then []
    else
      [(⟨i, .message⟩, ⟨content.toList, i,
        frozen || (userText && tailStart ≤ i) || (msg.get? "cache_control").isSome⟩)]
  | _ => []

/-- Change a field of an object, if it is there. -/
def changeField (key : String) (f : Json → Json) (j : Json) : Json :=
  match j.get? key with
  | some value => j.insert key (f value)
  | none => j

/-- Change an item of an array, if it is there. -/
def changeItem (i : ℕ) (f : Json → Json) : Json → Json
  | .arr items => .arr (items.modify i f)
  | j => j

/-- Write a text back where it stood. -/
def writeSlot (newText : Json) : Slot → Json → Json
  | .message => fun msg => msg.insert "content" newText
  | .block bidx =>
    changeField "content" (changeItem bidx fun slot => slot.insert "content" newText)
  | .userText bidx =>
    changeField "content" (changeItem bidx fun slot => slot.insert "text" newText)
  | .part bidx sidx =>
    changeField "content" (changeItem bidx
      (changeField "content" (changeItem sidx fun slot => slot.insert "text" newText)))

/-- Write one output back. -/
def writeBack (messages : List Json) (entry : (Loc × DedupBlock) × DedupBlock) : List Json :=
  let ((loc, od), nd) := entry
  if od.isProtected || nd.text = od.text then messages
  else messages.modify loc.mi (writeSlot (.str (String.ofList nd.text)) loc.slot)

def dedupMessagesWithUserText (messages : List Json) (frozenMessageCount userTextTail : ℕ) :
    List Json × DedupStats :=
  let tailStart := messages.length - userTextTail
  let entries := messages.zipIdx.flatMap (messageEntries frozenMessageCount userTextTail tailStart)
  let dblocks := entries.map Prod.snd
  if dblocks.length < 2 then (messages, { blocks := dblocks.length })
  else
    let (deduped, stats) := dedupBlocks dblocks
    if stats.spansFolded = 0 then (messages, stats)
    else ((entries.zip deduped).foldl writeBack messages, stats)

def dedupMessages (messages : List Json) (frozenMessageCount : ℕ) : List Json × DedupStats :=
  dedupMessagesWithUserText messages frozenMessageCount 0

/-! ### A prefix of the messages -/

section Messages

variable {messages : List Json} {frozenMessageCount userTextTail tailStart k : ℕ}

theorem foldl_writeBack_of_text {entries : List (Loc × DedupBlock)} {deduped : List DedupBlock}
    (h : deduped.map DedupBlock.text = (entries.map Prod.snd).map DedupBlock.text) :
    (entries.zip deduped).foldl writeBack messages = messages := by
  induction entries generalizing deduped with
  | nil => rfl
  | cons entry entries ih =>
    rcases deduped with _ | ⟨nd, deduped⟩
    · rfl
    · obtain ⟨htext, hrest⟩ := List.cons.inj h
      have hwrite : writeBack messages (entry, nd) = messages := by
        rw [writeBack]
        exact if_pos (Bool.or_eq_true_iff.mpr (Or.inr (decide_eq_true htext)))
      rw [List.zip_cons_cons, List.foldl_cons, hwrite]
      exact ih hrest

theorem dedupMessagesWithUserText_eq (messages : List Json) (frozenMessageCount userTextTail : ℕ) :
    let entries := messages.zipIdx.flatMap
      (messageEntries frozenMessageCount userTextTail (messages.length - userTextTail))
    (dedupMessagesWithUserText messages frozenMessageCount userTextTail).1 =
      (entries.zip (dedupBlocks (entries.map Prod.snd)).1).foldl writeBack messages := by
  dsimp only
  rw [dedupMessagesWithUserText]
  dsimp only
  split_ifs with hfew hnone
  · exact (foldl_writeBack_of_text
      (dedupBlocks_text_of_spansFolded (spansFolded_of_length_lt hfew))).symm
  · exact (foldl_writeBack_of_text (dedupBlocks_text_of_spansFolded hnone)).symm
  · rfl

theorem take_writeBack (messages : List Json) (k : ℕ) (entry : (Loc × DedupBlock) × DedupBlock) :
    (writeBack messages entry).take k = writeBack (messages.take k) entry := by
  rw [writeBack, writeBack]
  split_ifs
  · rfl
  · exact List.take_modify _ _ _ _

theorem length_foldl_writeBack (entries : List ((Loc × DedupBlock) × DedupBlock))
    (messages : List Json) : (entries.foldl writeBack messages).length = messages.length := by
  induction entries generalizing messages with
  | nil => rfl
  | cons entry entries ih =>
    rw [List.foldl_cons, ih, writeBack]
    split_ifs
    · rfl
    · exact List.length_modify _ _ _

theorem take_foldl_writeBack (entries : List ((Loc × DedupBlock) × DedupBlock)) (messages : List Json)
    (k : ℕ) : (entries.foldl writeBack messages).take k = entries.foldl writeBack (messages.take k) := by
  induction entries generalizing messages with
  | nil => rfl
  | cons entry entries ih => rw [List.foldl_cons, List.foldl_cons, ih, take_writeBack]

theorem foldl_writeBack_of_le {entries : List ((Loc × DedupBlock) × DedupBlock)}
    (h : ∀ entry ∈ entries, messages.length ≤ entry.1.1.mi) :
    entries.foldl writeBack messages = messages := by
  induction entries with
  | nil => rfl
  | cons entry entries ih =>
    have hwrite : writeBack messages entry = messages := by
      rw [writeBack]
      split_ifs
      · rfl
      · exact List.modify_eq_self (h entry List.mem_cons_self)
    rw [List.foldl_cons, hwrite]
    exact ih fun entry hentry => h entry (List.mem_cons_of_mem _ hentry)

theorem mi_of_mem_messageEntries {msg : Json} {i : ℕ} {entry : Loc × DedupBlock}
    (h : entry ∈ messageEntries frozenMessageCount userTextTail tailStart (msg, i)) :
    entry.1.mi = i := by
  rw [messageEntries] at h
  dsimp only at h
  split at h
  · obtain ⟨block, -, hblock⟩ := List.mem_filterMap.mp h
    rw [contentEntry] at hblock
    dsimp only at hblock
    split_ifs at hblock
    · rw [← Option.some.inj hblock]
    · split at hblock
      · split_ifs at hblock
        rw [← Option.some.inj hblock]
      · exact absurd hblock.symm (Option.some_ne_none _)
  · split_ifs at h
    · exact absurd h List.not_mem_nil
    · exact absurd h List.not_mem_nil
    · rw [List.mem_singleton.mp h]
  · exact absurd h List.not_mem_nil

theorem messageEntries_of_no_tail (tailStart' : ℕ) (entry : Json × ℕ) :
    messageEntries frozenMessageCount 0 tailStart entry =
      messageEntries frozenMessageCount 0 tailStart' entry := by
  obtain ⟨msg, i⟩ := entry
  rw [messageEntries, messageEntries]
  dsimp only
  split
  · refine List.filterMap_congr fun block _ => ?_
    rw [contentEntry, contentEntry]
    simp only [Nat.lt_irrefl, false_and, if_false]
  · simp only [Nat.lt_irrefl, false_and, decide_false, Bool.false_and]
  · rfl

theorem dedupMessages_take (messages : List Json) (frozenMessageCount k : ℕ) :
    (dedupMessagesWithUserText (messages.take k) frozenMessageCount 0).1 =
      (dedupMessagesWithUserText messages frozenMessageCount 0).1.take k := by
  rw [dedupMessagesWithUserText_eq, dedupMessagesWithUserText_eq, take_foldl_writeBack]
  have hentries : messageEntries frozenMessageCount 0 ((messages.take k).length - 0) =
      messageEntries frozenMessageCount 0 (messages.length - 0) :=
    funext (messageEntries_of_no_tail (messages.length - 0))
  rw [hentries]
  clear hentries
  generalize hentries : messageEntries frozenMessageCount 0 (messages.length - 0) = entriesOf
  have hsplit : messages.zipIdx.flatMap entriesOf = (messages.take k).zipIdx.flatMap entriesOf ++
      ((messages.drop k).zipIdx (messages.take k).length).flatMap entriesOf := by
    rw [← List.flatMap_append, ← Nat.zero_add (messages.take k).length, ← List.zipIdx_append,
      List.take_append_drop]
  obtain ⟨outs, -, houts⟩ := dedupBlocksWith_append
    (((messages.take k).zipIdx.flatMap entriesOf).map Prod.snd)
    ((((messages.drop k).zipIdx (messages.take k).length).flatMap entriesOf).map Prod.snd)
    DEFAULT_MIN_LINES DEFAULT_MIN_CHARS
  rw [hsplit, List.map_append, dedupBlocks, dedupBlocks, houts, List.zip_append, List.foldl_append]
  · refine (foldl_writeBack_of_le fun entry hentry => ?_).symm
    rw [length_foldl_writeBack]
    obtain ⟨msg, hmsg, hmem⟩ := List.mem_flatMap.mp (List.of_mem_zip hentry).1
    rw [← hentries] at hmem
    rw [mi_of_mem_messageEntries hmem]
    exact List.le_snd_of_mem_zipIdx hmsg
  · rw [length_dedupBlocksWith, List.length_map]

theorem isProtected_of_mem {msg : Json} {i : ℕ} {entry : Loc × DedupBlock}
    (h : entry ∈ messageEntries frozenMessageCount userTextTail tailStart (msg, i)) (hi : i < frozenMessageCount) :
    entry.2.isProtected = true := by
  rw [messageEntries] at h
  simp only [hi, decide_true, Bool.true_or] at h
  split at h
  · obtain ⟨block, -, hblock⟩ := List.mem_filterMap.mp h
    simp only [contentEntry, Bool.true_or] at hblock
    split_ifs at hblock
    · rw [← Option.some.inj hblock]
    · split at hblock
      · split_ifs at hblock
        rw [← Option.some.inj hblock]
      · cases hblock
  · split_ifs at h
    · cases h
    · cases h
    · rw [List.mem_singleton.mp h]
  · cases h

/-- Whatever is folded behind them, the frozen messages go out as they came, and no message comes or goes. -/
theorem dedupMessages_frozen (messages : List Json) (frozenMessageCount userTextTail : ℕ) :
    (dedupMessagesWithUserText messages frozenMessageCount userTextTail).1.take frozenMessageCount =
        messages.take frozenMessageCount ∧
      (dedupMessagesWithUserText messages frozenMessageCount userTextTail).1.length = messages.length := by
  rw [dedupMessagesWithUserText_eq, take_foldl_writeBack]
  refine ⟨List.foldlRecOn (motive := (· = messages.take frozenMessageCount)) _ _ rfl ?_,
    length_foldl_writeBack _ _⟩
  rintro _ rfl entry hentry
  obtain ⟨⟨msg, i⟩, -, hmem⟩ := List.mem_flatMap.mp (List.of_mem_zip hentry).1
  rw [writeBack]
  by_cases hi : i < frozenMessageCount
  · rw [isProtected_of_mem hmem hi]
    rfl
  · split_ifs
    · rfl
    · exact List.modify_eq_self (by rw [mi_of_mem_messageEntries hmem, List.length_take]; omega)

end Messages

/-- What comes first does not depend on what comes later, and what was folded stands in an earlier
output. -/
theorem dedup_monotonic_verbatim :
    (∀ (blocks : List DedupBlock) (k : ℕ),
      (dedupBlocks (blocks.take k)).1 = (dedupBlocks blocks).1.take k) ∧
    (∀ blocks : List DedupBlock,
      ∃ segss, Folds (turnsOf blocks) blocks (dedupBlocks blocks).1 segss) ∧
    ∀ (messages : List Json) (frozenMessageCount k : ℕ),
      (dedupMessagesWithUserText (messages.take k) frozenMessageCount 0).1 =
        (dedupMessagesWithUserText messages frozenMessageCount 0).1.take k := by
  refine ⟨fun blocks k => dedupBlocksWith_take blocks _ _ k, fun blocks => ?_, dedupMessages_take⟩
  obtain ⟨segss, -, -, hfolds⟩ := exists_folds
    ⟨DEFAULT_MIN_LINES, DEFAULT_MIN_CHARS, turnsOf blocks⟩ blocks { blocks := blocks.length }
  exact ⟨segss, hfolds⟩

end Headroom.Transforms
