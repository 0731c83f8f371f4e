import Headroom.Foundation.Conversation
import Headroom.PrefixReplay.MarkerBudget

/-!
# Where the markers are

After the placement a block carries a marker exactly if it is an object at one of the chosen places. So the
count that is reported is the count of marked blocks, and what is said of a marked block is said of a chosen
place: it is not thinking, and no reminder of a live message stands at or before it, or it is the last block of
the opening scaffolding.
-/

open Foundation

namespace Headroom.PrefixReplay

/-! ### The messages after the placement -/

/-- Whether a place is among the targets. -/
def hits (targets : List CacheTarget) (i j : ℕ) : Bool :=
  targets.any fun t => t.messageIdx == i && t.blockIdx == j

/-- A block with a marker if its place is among the targets. -/
def markBlock (targets : List CacheTarget) (i j : ℕ) (block : Json) : Json :=
  if hits targets i j then block.insert "cache_control" ephemeralMarker else block

/-- A message with markers at those of the targets that are its own. -/
def markAll (targets : List CacheTarget) (i : ℕ) (msg : Json) : Json :=
  match msg.get? "content" with
  | some (.arr blocks) => msg.insert "content" (.arr (blocks.mapIdx (markBlock targets i)))
  | _ => msg

variable {targets : List CacheTarget} {i : ℕ}

theorem hits_iff {i j : ℕ} : hits targets i j ↔ ⟨i, j⟩ ∈ targets := by
  rw [hits, List.any_eq_true]
  constructor
  · rintro ⟨⟨a, b⟩, ht, heq⟩
    obtain ⟨ha, hb⟩ := Bool.and_eq_true_iff.1 heq
    obtain rfl : a = i := beq_iff_eq.1 ha
    obtain rfl : b = j := beq_iff_eq.1 hb
    exact ht
  · exact fun ht => ⟨_, ht, by simp⟩

theorem markBlock_cons (t : CacheTarget) (targets : List CacheTarget) (i j : ℕ) (block : Json) :
    markBlock (t :: targets) i j block = markBlock targets i j
      (if t.messageIdx = i ∧ t.blockIdx = j then block.insert "cache_control" ephemeralMarker else block) := by
  have hcons : hits (t :: targets) i j = ((t.messageIdx == i && t.blockIdx == j) || hits targets i j) := rfl
  by_cases hfirst : t.messageIdx = i ∧ t.blockIdx = j
  · have hhit : hits (t :: targets) i j = true := by simp [hcons, hfirst.1, hfirst.2]
    rw [if_pos hfirst, markBlock, if_pos hhit, markBlock, Json.insert_insert, ite_self]
  · have hsame : hits (t :: targets) i j = hits targets i j := by
      rw [hcons, Bool.or_eq_right_iff_imp]
      intro h
      obtain ⟨ha, hb⟩ := Bool.and_eq_true_iff.1 h
      exact absurd ⟨beq_iff_eq.1 ha, beq_iff_eq.1 hb⟩ hfirst
    rw [if_neg hfirst, markBlock, hsame, markBlock]

variable {msg : Json}

theorem markAll_of_arr {blocks : List Json}
    (h : msg.get? "content" = some (.arr blocks)) :
    markAll targets i msg = msg.insert "content" (.arr (blocks.mapIdx (markBlock targets i))) := by
  simp only [markAll, h]

theorem markAll_of_not_arr
    (h : ¬ ∃ blocks, msg.get? "content" = some (.arr blocks)) : markAll targets i msg = msg := by
  rw [markAll]
  split
  · exact absurd ⟨_, ‹_›⟩ h
  · rfl

theorem markAll_of_ne (t : CacheTarget) (targets : List CacheTarget) (hne : t.messageIdx ≠ i)
    (msg : Json) : markAll (t :: targets) i msg = markAll targets i msg := by
  have hblock : markBlock (t :: targets) i = markBlock targets i := by
    funext j block
    rw [markBlock_cons, if_neg fun h => hne h.1]
  rw [markAll, markAll, hblock]

theorem markAll_markMessage (t : CacheTarget) (targets : List CacheTarget) (msg : Json) :
    markAll targets t.messageIdx (markMessage t.blockIdx msg) = markAll (t :: targets) t.messageIdx msg := by
  by_cases harr : ∃ blocks, msg.get? "content" = some (.arr blocks)
  · obtain ⟨blocks, harr⟩ := harr
    rw [markMessage_of_arr t.blockIdx harr, markAll_of_arr (Json.get?_insert_self harr), markAll_of_arr harr,
      Json.insert_insert]
    refine congrArg (fun bs => msg.insert "content" (Json.arr bs)) (List.ext_getElem? fun j => ?_)
    rw [List.getElem?_mapIdx, List.getElem?_mapIdx, List.getElem?_modify, Option.map_eq_map,
      Option.map_map]
    refine congrArg (Option.map · blocks[j]?) (funext fun block => ?_)
    rw [markBlock_cons]
    simp only [Function.comp, true_and]
  · rw [(markMessage_cases t.blockIdx msg).resolve_left harr, markAll_of_not_arr harr,
      markAll_of_not_arr harr]

/-- The placement marks each message on its own. -/
theorem fst_foldl_placeMarker (targets : List CacheTarget) (placed : List Json × ℕ) :
    (targets.foldl placeMarker placed).1 = placed.1.mapIdx (markAll targets) := by
  induction targets generalizing placed with
  | nil =>
    refine List.ext_getElem? fun i => ?_
    rw [List.getElem?_mapIdx]
    have hnil : markAll [] i = id := by
      funext msg
      by_cases harr : ∃ blocks, msg.get? "content" = some (.arr blocks)
      · obtain ⟨blocks, harr⟩ := harr
        have hblocks : blocks.mapIdx (markBlock [] i) = blocks := by
          refine List.ext_getElem? fun j => ?_
          rw [List.getElem?_mapIdx]
          exact congrFun Option.map_id _
        rw [markAll_of_arr harr, hblocks, Json.insert_self harr, id]
      · rw [markAll_of_not_arr harr, id]
    rw [hnil, Option.map_id]
    rfl
  | cons t targets ih =>
    rw [List.foldl_cons, ih]
    refine List.ext_getElem? fun i => ?_
    show ((placed.1.modify t.messageIdx (markMessage t.blockIdx)).mapIdx (markAll targets))[i]? = _
    rw [List.getElem?_mapIdx, List.getElem?_mapIdx, List.getElem?_modify, Option.map_eq_map,
      Option.map_map]
    refine congrArg (Option.map · placed.1[i]?) (funext fun msg => ?_)
    by_cases hi : t.messageIdx = i
    · subst hi
      simp only [Function.comp, if_true]
      exact markAll_markMessage t targets msg
    · simp only [Function.comp, if_neg hi]
      exact (markAll_of_ne t targets hi msg).symm

/-! ### Counting -/

/-- How many blocks of the messages carry a marker. -/
def markedBlocks (messages : List Json) : ℕ := (messages.map fun m => (messageBlocks m).countP isMarked).sum

variable {α : Type*} {f : α → α} {l : List α}

/-- A sum over a list of which one element is replaced. -/
theorem sum_map_modify {g : α → ℕ} {a : α}
    (h : l[i]? = some a) : ((l.modify i f).map g).sum + g a = (l.map g).sum + g (f a) := by
  induction l generalizing i with
  | nil => exact absurd h nofun
  | cons b l ih =>
    cases i with
    | zero =>
      obtain rfl : b = a := Option.some.inj h
      rw [List.modify_zero_cons, List.map_cons, List.sum_cons, List.map_cons, List.sum_cons]
      omega
    | succ i =>
      have hrest := ih (i := i) h
      rw [List.modify_succ_cons, List.map_cons, List.sum_cons, List.map_cons, List.sum_cons]
      omega

theorem countP_modify {p : α → Bool} {a : α}
    (h : l[i]? = some a) :
    (l.modify i f).countP p + (if p a then 1 else 0) = l.countP p + if p (f a) then 1 else 0 := by
  have hsum : ∀ l : List α, l.countP p = (l.map fun a => if p a then 1 else 0).sum := by
    intro l
    induction l with
    | nil => rfl
    | cons b l ih =>
      rw [List.countP_cons, List.map_cons, List.sum_cons, ih]
      omega
  rw [hsum, hsum]
  exact sum_map_modify h

theorem modify_of_getElem?_eq_none (h : l[i]? = none) :
    l.modify i f = l := by
  refine List.ext_getElem? fun j => ?_
  rw [List.getElem?_modify]
  by_cases hj : i = j
  · rw [← hj, h]
    rfl
  · simp only [if_neg hj]
    exact congrFun Option.map_id _

theorem isMarked_insert (block : Json) : isMarked (block.insert "cache_control" ephemeralMarker) = block.isObj := by
  cases block with
  | obj fields =>
    rw [isMarked, Json.get?_insert_self_of_isObj rfl]
    rfl
  | _ => rfl

theorem isObj_of_isMarked {block : Json} (h : isMarked block) : block.isObj := by
  obtain ⟨marker, hmarker⟩ := Option.isSome_iff_exists.1 h
  obtain ⟨fields, rfl⟩ := Json.isObj_of_get? hmarker
  rfl

theorem countP_markMessage (msg : Json) (j : ℕ) :
    (messageBlocks (markMessage j msg)).countP isMarked = (messageBlocks msg).countP isMarked +
      if ((msg.getArr? "content").bind fun blocks => blocks[j]?).any
        fun b => b.isObj && (b.get? "cache_control").isNone then 1 else 0 := by
  by_cases harr : ∃ blocks, msg.get? "content" = some (.arr blocks)
  · obtain ⟨blocks, harr⟩ := harr
    have hget : msg.getArr? "content" = some blocks := by
      rw [Json.getArr?, harr]
      rfl
    rw [markMessage_of_arr j harr, messageBlocks_insert hget, messageBlocks, hget, Option.getD_some,
      Option.bind_some]
    cases hblock : blocks[j]? with
    | none =>
      rw [modify_of_getElem?_eq_none hblock]
      rfl
    | some b =>
      have hcount := countP_modify (p := isMarked)
        (f := fun b => b.insert "cache_control" ephemeralMarker) hblock
      have hmarked : isMarked b = (b.get? "cache_control").isSome := rfl
      rw [isMarked_insert] at hcount
      rw [Option.any_some]
      cases hb : (b.get? "cache_control").isSome with
      | true =>
        rw [hb] at hmarked
        rw [isObj_of_isMarked hmarked, hmarked] at hcount
        rw [Option.isNone_eq_false_iff.2 hb, Bool.and_false]
        simpa using hcount
      | false =>
        rw [hmarked, hb] at hcount
        have hnone : (b.get? "cache_control").isNone = true := by simpa using hb
        rw [hnone, Bool.and_true]
        simpa using hcount
  · rw [(markMessage_cases j msg).resolve_left harr]
    have hget : ((msg.getArr? "content").bind fun blocks => blocks[j]?) = none := by
      cases hget : msg.getArr? "content" with
      | none => rfl
      | some blocks =>
        obtain ⟨value, hvalue, hblocks⟩ := Option.bind_eq_some_iff.1 hget
        cases value with
        | arr items => exact absurd ⟨_, hvalue⟩ harr
        | _ => exact absurd hblocks (by rintro ⟨⟩)
    rw [hget]
    rfl

theorem markedBlocks_placeMarker (placed : List Json × ℕ) (t : CacheTarget) :
    markedBlocks (placeMarker placed t).1 + placed.2 = markedBlocks placed.1 + (placeMarker placed t).2 ∧
      (placeMarker placed t).2 ≤ placed.2 + 1 := by
  have hcount : (placeMarker placed t).2 = placed.2 + if addsMarker placed.1 t then 1 else 0 := by
    show (if addsMarker placed.1 t then placed.2 + 1 else placed.2) = _
    split_ifs
    · rfl
    · rfl
  refine ⟨?_, ?_⟩
  · rw [hcount]
    cases hmsg : placed.1[t.messageIdx]? with
    | none =>
      have hsame : (placeMarker placed t).1 = placed.1 := modify_of_getElem?_eq_none hmsg
      have hadds : addsMarker placed.1 t = false := by
        rw [addsMarker, hmsg]
        rfl
      rw [hsame, hadds]
      rfl
    | some msg =>
      have hadds : addsMarker placed.1 t = ((msg.getArr? "content").bind fun blocks =>
          blocks[t.blockIdx]?).any fun b => b.isObj && (b.get? "cache_control").isNone := by
        rw [addsMarker, hmsg]
        rfl
      have hsum := sum_map_modify (g := fun m => (messageBlocks m).countP isMarked)
        (f := markMessage t.blockIdx) hmsg
      rw [countP_markMessage, ← hadds] at hsum
      show markedBlocks (placed.1.modify t.messageIdx (markMessage t.blockIdx)) + placed.2 = _
      rw [markedBlocks, markedBlocks]
      omega
  · rw [hcount]
    split_ifs
    · omega
    · omega

theorem markedBlocks_foldl (targets : List CacheTarget) (placed : List Json × ℕ) :
    markedBlocks (targets.foldl placeMarker placed).1 + placed.2 =
        markedBlocks placed.1 + (targets.foldl placeMarker placed).2 ∧
      (targets.foldl placeMarker placed).2 ≤ placed.2 + targets.length := by
  induction targets generalizing placed with
  | nil => exact ⟨rfl, le_rfl⟩
  | cons t targets ih =>
    obtain ⟨hstep, hone⟩ := markedBlocks_placeMarker placed t
    obtain ⟨hrest, hmore⟩ := ih (placeMarker placed t)
    rw [List.foldl_cons, List.length_cons]
    omega

/-! ### What a marker changes of a block -/

section Marked

variable (block : Json)

theorem getStr?_mark {key : String} (h : key ≠ "cache_control") :
    (block.insert "cache_control" ephemeralMarker).getStr? key = block.getStr? key := by
  rw [Json.getStr?, Json.getStr?, Json.get?_insert_of_ne h]

theorem isThinkingBlock_mark :
    isThinkingBlock (block.insert "cache_control" ephemeralMarker) = isThinkingBlock block := by
  rw [isThinkingBlock, isThinkingBlock, getStr?_mark block (by decide)]

theorem isEphemeralClientBlock_mark :
    isEphemeralClientBlock (block.insert "cache_control" ephemeralMarker) = isEphemeralClientBlock block := by
  rw [isEphemeralClientBlock, isEphemeralClientBlock, isTextBlock, isTextBlock,
    getStr?_mark block (by decide), getStr?_mark block (by decide)]

theorem isProactiveExpansionBlock_mark :
    isProactiveExpansionBlock (block.insert "cache_control" ephemeralMarker) =
      isProactiveExpansionBlock block := by
  rw [isProactiveExpansionBlock, isProactiveExpansionBlock, isTextBlock, isTextBlock,
    getStr?_mark block (by decide), getStr?_mark block (by decide)]

end Marked

/-! ### What may be chosen -/

/-- The object at a place of a settled message may be chosen: it may carry a marker, and in a live message no
reminder stands at or before it. -/
def Candidate (live : Bool) (msg : Json) (j : ℕ) : Prop :=
  ∃ block, (messageBlocks msg)[j]? = some block ∧ carriesMarker block ∧
    (live → ∀ e reminder, e ≤ j → (messageBlocks msg)[e]? = some reminder →
      isEphemeralClientBlock reminder = false)

/-- Whether a message has a reminder that seals what follows. -/
def reminds (msg : Json) : Bool :=
  match msg.get? "content" with
  | some (.arr _) => (messageBlocks (settle msg)).any isEphemeralClientBlock
  | some (.str text) => isEphemeralClientText text
  | _ => false

theorem scanBlocks_fst (live : Bool) (idx : ℕ) (sealed_ : Bool) (last : Option ℕ) (blocks : List Json) :
    (scanBlocks live idx sealed_ last blocks).1 =
      (sealed_ || (live && blocks.any isEphemeralClientBlock)) := by
  induction blocks generalizing idx sealed_ last with
  | nil => simp [scanBlocks]
  | cons block blocks ih =>
    have hgather : ∀ last, (scanBlocks live (idx + 1) (sealed_ || live && isEphemeralClientBlock block) last
        blocks).1 = (sealed_ || (live && (block :: blocks).any isEphemeralClientBlock)) := by
      intro last
      rw [ih, Bool.or_assoc, ← Bool.and_or_distrib_left, List.any_cons]
    simp only [scanBlocks]
    split_ifs
    · exact hgather last
    · exact hgather (some idx)
    · exact hgather last

theorem scanBlocks_snd {live : Bool} {idx : ℕ} {sealed_ : Bool} {last : Option ℕ} {blocks : List Json}
    {j : ℕ} (h : (scanBlocks live idx sealed_ last blocks).2 = some j) :
    last = some j ∨ sealed_ = false ∧ ∃ k block, j = idx + k ∧ blocks[k]? = some block ∧
      carriesMarker block ∧ (live → ∀ e reminder, e ≤ k → blocks[e]? = some reminder →
        isEphemeralClientBlock reminder = false) := by
  induction blocks generalizing idx sealed_ last with
  | nil => exact Or.inl h
  | cons block blocks ih =>
    simp only [scanBlocks] at h
    split_ifs at h with hsealed hcarries
    · rcases ih h with hlast | ⟨hfalse, -⟩
      · exact Or.inl hlast
      · rw [hfalse] at hsealed
        exact absurd hsealed nofun
    all_goals
      simp only [Bool.or_eq_true, not_or, Bool.not_eq_true] at hsealed
      obtain ⟨rfl, hblock⟩ := hsealed
      have hfirst : live → isEphemeralClientBlock block = false := by
        rintro rfl
        exact hblock
      have hshift : (∃ k b, j = idx + 1 + k ∧ blocks[k]? = some b ∧ carriesMarker b ∧
            (live → ∀ e reminder, e ≤ k → blocks[e]? = some reminder →
              isEphemeralClientBlock reminder = false)) →
          ∃ k b, j = idx + k ∧ (block :: blocks)[k]? = some b ∧ carriesMarker b ∧
            (live → ∀ e reminder, e ≤ k → (block :: blocks)[e]? = some reminder →
              isEphemeralClientBlock reminder = false) := by
        rintro ⟨k, b, hj, hb, hcarries, hahead⟩
        refine ⟨k + 1, b, by omega, hb, hcarries, fun hlive e reminder he hreminder => ?_⟩
        cases e with
        | zero =>
          obtain rfl : block = reminder := Option.some.inj hreminder
          exact hfirst hlive
        | succ e => exact hahead hlive e reminder (by omega) hreminder
    · rcases ih h with hlast | ⟨-, hfound⟩
      · obtain rfl : idx = j := Option.some.inj hlast
        refine Or.inr ⟨rfl, 0, block, rfl, rfl, hcarries, fun hlive e reminder he hreminder => ?_⟩
        obtain rfl : e = 0 := by omega
        obtain rfl : block = reminder := Option.some.inj hreminder
        exact hfirst hlive
      · exact Or.inr ⟨rfl, hshift hfound⟩
    · rcases ih h with hlast | ⟨-, hfound⟩
      · exact Or.inl hlast
      · exact Or.inr ⟨rfl, hshift hfound⟩

theorem scanMessage_fst (live sealed_ : Bool) (i : ℕ) (msg : Json) :
    (scanMessage live sealed_ i msg).1 = (sealed_ || (live && reminds msg)) := by
  cases hcontent : msg.get? "content" with
  | none => simp [scanMessage, reminds, hcontent]
  | some content =>
    cases content with
    | arr blocks =>
      simp only [scanMessage, reminds, hcontent]
      exact scanBlocks_fst _ _ _ _ _
    | str text => simp only [scanMessage, reminds, hcontent]
    | _ => simp [scanMessage, reminds, hcontent]

theorem messageBlocks_settle_of_str {text : String}
    (h : msg.get? "content" = some (.str text)) (heligible : eligibleText text) :
    messageBlocks (settle msg) = [textBlock text] := by
  simp only [settle, h, heligible, if_true]
  rw [messageBlocks, Json.getArr?, Json.get?_insert_self h]
  rfl

theorem carriesMarker_textBlock {text : String} (h : isProactiveExpansionText text = false) :
    carriesMarker (textBlock text) := by
  have hexpansion : isProactiveExpansionBlock (textBlock text) = isProactiveExpansionText text := rfl
  rw [carriesMarker, hexpansion, h]
  rfl

variable {t : CacheTarget}

theorem scanMessage_snd {live sealed_ : Bool} (h : (scanMessage live sealed_ i msg).2 = some t) :
    sealed_ = false ∧ t.messageIdx = i ∧ Candidate live (settle msg) t.blockIdx := by
  rw [scanMessage] at h
  split at h
  · obtain ⟨j, hj, rfl⟩ := Option.map_eq_some_iff.1 h
    rcases scanBlocks_snd hj with hlast | ⟨hsealed, k, block, hk, hblock, hcarries, hahead⟩
    · exact absurd hlast nofun
    · obtain rfl : j = k := by omega
      exact ⟨hsealed, rfl, block, hblock, hcarries, hahead⟩
  · rename_i text hstr
    dsimp only at h
    split_ifs at h with hopen
    obtain rfl : (⟨i, 0⟩ : CacheTarget) = t := Option.some.inj h
    rw [Bool.and_eq_true, Bool.not_eq_true', Bool.or_eq_false_iff] at hopen
    obtain ⟨⟨hsealed, hephemeral⟩, heligible⟩ := hopen
    have hblocks := messageBlocks_settle_of_str hstr heligible
    refine ⟨hsealed, rfl, textBlock text, by rw [hblocks]; rfl, ?_, fun hlive e reminder he hreminder => ?_⟩
    · have hexpansion : isProactiveExpansionText text = false := by
        rw [eligibleText, Bool.and_eq_true] at heligible
        simpa using heligible.2
      exact carriesMarker_textBlock hexpansion
    · obtain rfl : e = 0 := Nat.le_zero.1 he
      rw [hblocks] at hreminder
      obtain rfl : textBlock text = reminder := Option.some.inj hreminder
      rw [hlive, Bool.true_and] at hephemeral
      exact hephemeral
  · exact absurd h nofun

/-- Whether the message at an index is live. -/
def liveAt (finalMessage : ℕ) (latestUserMessage : Option ℕ) (i : ℕ) : Bool :=
  decide (0 < i) && (i == finalMessage || latestUserMessage == some i)

theorem mem_cacheableTargets {finalMessage : ℕ} {latestUserMessage : Option ℕ} {sealed_ : Bool}
    {messages : List Json} (h : t ∈ cacheableTargets finalMessage latestUserMessage i sealed_ messages) :
    sealed_ = false ∧ ∃ k msg, messages[k]? = some msg ∧ t.messageIdx = i + k ∧
      Candidate (liveAt finalMessage latestUserMessage (i + k)) (settle msg) t.blockIdx ∧
      ∀ k' msg', k' < k → messages[k']? = some msg' →
        liveAt finalMessage latestUserMessage (i + k') → reminds msg' = false := by
  induction messages generalizing i sealed_ with
  | nil => exact absurd h List.not_mem_nil
  | cons msg messages ih =>
    rw [cacheableTargets, List.mem_append, Option.mem_toList] at h
    rcases h with hhere | hlater
    · obtain ⟨hsealed, hi, hcandidate⟩ := scanMessage_snd hhere
      exact ⟨hsealed, 0, msg, rfl, hi, hcandidate, fun k' _ hk' => absurd hk' (Nat.not_lt_zero k')⟩
    · obtain ⟨hsealed, k, m, hm, ht, hcandidate, hahead⟩ := ih hlater
      rw [scanMessage_fst, Bool.or_eq_false_iff] at hsealed
      refine ⟨hsealed.1, k + 1, m, hm, by omega, ?_, fun k' m' hk' hm' hlive => ?_⟩
      · rw [show i + (k + 1) = i + 1 + k by omega]
        exact hcandidate
      · cases k' with
        | zero =>
          obtain rfl : msg = m' := Option.some.inj hm'
          have hsealedHere := hsealed.2
          rw [show (decide (0 < i) && (i == finalMessage || latestUserMessage == some i)) = true from hlive,
            Bool.true_and] at hsealedHere
          exact hsealedHere
        | succ k' => exact hahead k' m' (by omega) hm' (by rw [show i + 1 + k' = i + (k' + 1) by omega]; exact hlive)

theorem openingScaffoldingTarget_eq {messages : List Json} (h : openingScaffoldingTarget messages = some t) :
    t.messageIdx = 0 ∧ ∃ block, blockAt messages 0 t.blockIdx = some block ∧ isEphemeralClientBlock block := by
  cases messages with
  | nil => exact absurd h (by rintro ⟨⟩)
  | cons first rest =>
    rw [openingScaffoldingTarget] at h
    split_ifs at h
    cases hcontent : first.getArr? "content" with
    | none =>
      rw [hcontent] at h
      exact absurd h (by simp)
    | some blocks =>
      simp only [hcontent] at h
      split_ifs at h with hrun
      obtain rfl := Option.some.inj h
      have hlast : (blocks.takeWhile isEphemeralClientBlock).length - 1 <
          (blocks.takeWhile isEphemeralClientBlock).length := by omega
      refine ⟨rfl, (blocks.takeWhile isEphemeralClientBlock).get ⟨_, hlast⟩, ?_,
        List.mem_takeWhile_imp (List.getElem_mem hlast)⟩
      show (messageBlocks first)[(blocks.takeWhile isEphemeralClientBlock).length - 1]? = _
      rw [messageBlocks, hcontent, Option.getD_some]
      exact (List.prefix_iff_getElem?.1 (List.takeWhile_prefix isEphemeralClientBlock)) _ hlast

/-! ### The blocks after the placement -/

section Place

variable (messages : List Json) (tailSlots : ℕ) (scaffold : Bool)

/-- The newest message of the user, as the placement finds it. -/
def latestUserMessage : Option ℕ :=
  (messages.zipIdx.reverse.find? fun m => m.1.getStr? "role" == some "user").map Prod.snd

/-- The places that the placement chooses. -/
def chosen : List CacheTarget :=
  (if scaffold then openingScaffoldingTarget (messages.map settle) else none).toList ++
    (cacheableTargets (messages.length - 1) (latestUserMessage messages) 0 false messages).reverse.take
      tailSlots

theorem place_eq : placeTailCacheBreakpoints messages tailSlots scaffold =
    (chosen messages tailSlots scaffold).foldl placeMarker (messages.map settle, 0) := rfl

theorem length_chosen_le :
    (chosen messages tailSlots scaffold).length ≤ tailSlots + if scaffold then 1 else 0 := by
  rw [chosen, List.length_append]
  have htail := List.length_take_le tailSlots
    (cacheableTargets (messages.length - 1) (latestUserMessage messages) 0 false messages).reverse
  have hopening : (if scaffold then openingScaffoldingTarget (messages.map settle) else none).toList.length ≤
      if scaffold then 1 else 0 := by
    cases scaffold with
    | true => exact Option.length_toList_le
    | false => exact le_rfl
  omega

theorem messageBlocks_of_not_arr (h : ¬ ∃ blocks, msg.get? "content" = some (.arr blocks)) :
    messageBlocks msg = [] := by
  rw [messageBlocks, Json.getArr?]
  cases hcontent : msg.get? "content" with
  | none => rfl
  | some content =>
    cases content with
    | arr blocks => exact absurd ⟨_, hcontent⟩ h
    | _ => rfl

theorem messageBlocks_markAll (targets : List CacheTarget) (i : ℕ) (msg : Json) :
    messageBlocks (markAll targets i msg) = (messageBlocks msg).mapIdx (markBlock targets i) := by
  by_cases harr : ∃ blocks, msg.get? "content" = some (.arr blocks)
  · obtain ⟨blocks, harr⟩ := harr
    have hget : msg.getArr? "content" = some blocks := by
      rw [Json.getArr?, harr]
      rfl
    rw [markAll_of_arr harr, messageBlocks_insert hget, messageBlocks, hget, Option.getD_some]
  · rw [markAll_of_not_arr harr, messageBlocks_of_not_arr harr, List.mapIdx_nil]

/-- The blocks after the placement are the settled ones, with markers at the chosen places. -/
theorem blockAt_place (i j : ℕ) :
    blockAt (placeTailCacheBreakpoints messages tailSlots scaffold).1 i j =
      (blockAt (messages.map settle) i j).map (markBlock (chosen messages tailSlots scaffold) i j) := by
  rw [place_eq, fst_foldl_placeMarker]
  show (((messages.map settle).mapIdx (markAll (chosen messages tailSlots scaffold)))[i]?.bind fun m =>
    (messageBlocks m)[j]?) = ((messages.map settle)[i]?.bind fun m => (messageBlocks m)[j]?).map _
  rw [List.getElem?_mapIdx]
  cases (messages.map settle)[i]? with
  | none => rfl
  | some msg =>
    show (messageBlocks (markAll _ i msg))[j]? = _
    rw [messageBlocks_markAll, List.getElem?_mapIdx]
    rfl

theorem isMarked_of_mem_settle {msg block : Json} (h : block ∈ messageBlocks (settle msg)) :
    isMarked block = false := by
  by_cases harr : ∃ blocks, msg.get? "content" = some (.arr blocks)
  · obtain ⟨blocks, harr⟩ := harr
    have hget : msg.getArr? "content" = some blocks := by
      rw [Json.getArr?, harr]
      rfl
    rw [settle_of_arr harr, withoutMarkers_of_arr harr, messageBlocks_insert hget] at h
    obtain ⟨b, -, rfl⟩ := List.mem_map.1 h
    exact isMarked_remove b
  · rcases (settle_cases msg).resolve_left harr with ⟨text, htext, heligible, -⟩ | ⟨hsame, -⟩
    · rw [messageBlocks_settle_of_str htext heligible] at h
      obtain rfl := List.mem_singleton.1 h
      rfl
    · rw [hsame, messageBlocks_of_not_arr harr] at h
      exact absurd h List.not_mem_nil

theorem markedBlocks_place :
    markedBlocks (placeTailCacheBreakpoints messages tailSlots scaffold).1 =
      (placeTailCacheBreakpoints messages tailSlots scaffold).2 := by
  have hnone : markedBlocks (messages.map settle) = 0 := by
    refine List.sum_eq_zero_iff_forall_eq_nat.2 fun n hn => ?_
    obtain ⟨m, hm, rfl⟩ := List.mem_map.1 hn
    obtain ⟨msg, -, rfl⟩ := List.mem_map.1 hm
    rw [List.countP_eq_zero]
    intro block hblock
    rw [isMarked_of_mem_settle hblock]
    nofun
  have hfold := (markedBlocks_foldl (chosen messages tailSlots scaffold) (messages.map settle, 0)).1
  rw [hnone] at hfold
  rw [place_eq]
  omega

end Place

end Headroom.PrefixReplay
