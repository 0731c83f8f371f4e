import Headroom.CacheControl.TtlOrder
import Headroom.PrefixReplay.PlacedMarkers

/-!
# The marker budget of a replayed request

The placement as a whole: the slots are divided by what the tools and the system carry, the messages are
marked, and the system is trimmed to what was placed. The request then fits the limit, the tools keep what
they have, the system keeps a marker, and the count is exact. No marker stands on thinking, nor at or behind a
reminder of a live message. On a proactive expansion one may stand: the scaffolding target is not checked for
it, so a reminder that the expansion was appended to is marked as the last of the opening run.

## Main statements

* `cacheBudget_iff` : the budget is kept in full exactly if no expansion ends the opening run.
-/

open Foundation
open Headroom.CacheControl (ownMarker itemsOf blockMarkers messageMarkers see_itemsOf)

namespace Headroom.PrefixReplay

variable {messages : List Json} {msg : Json}

/-! ### Markers over a message -/

/-- The markers nested in a block. -/
def nestedMarkers (block : Json) : List Json := ((itemsOf "content").see block).flatMap ownMarker.see

/-- A message that carries markers as keys of its blocks only. -/
def Bare (msg : Json) : Prop :=
  ownMarker.see msg = [] ∧ ∀ block ∈ messageBlocks msg, nestedMarkers block = []

theorem length_ownMarker (holder : Json) :
    (ownMarker.see holder).length = if isMarked holder then 1 else 0 := Option.length_toList

theorem nestedMarkers_eq (block : Json) :
    nestedMarkers block = ((block.getArr? "content").getD []).flatMap ownMarker.see := by
  rw [nestedMarkers, see_itemsOf]
  rfl

theorem see_messageMarkers (msg : Json) : messageMarkers.see msg =
    ownMarker.see msg ++ (messageBlocks msg).flatMap fun b => ownMarker.see b ++ nestedMarkers b := by
  show ownMarker.see msg ++ ((itemsOf "content").see msg).flatMap blockMarkers.see = _
  rw [see_itemsOf]
  rfl

theorem length_see_of_bare (h : Bare msg) :
    (messageMarkers.see msg).length = (messageBlocks msg).countP isMarked := by
  obtain ⟨hown, hnested⟩ := h
  rw [see_messageMarkers, hown, List.nil_append]
  generalize messageBlocks msg = blocks at hnested
  induction blocks with
  | nil => rfl
  | cons block blocks ih =>
    obtain ⟨hblock, hblocks⟩ := List.forall_mem_cons.1 hnested
    rw [List.flatMap_cons, hblock, List.append_nil, List.length_append, length_ownMarker, ih hblocks,
      List.countP_cons]
    omega

theorem bare_of_see (h : messageMarkers.see msg = []) : Bare msg := by
  rw [see_messageMarkers, List.append_eq_nil_iff, List.flatMap_eq_nil_iff] at h
  exact ⟨h.1, fun block hblock => (List.append_eq_nil_iff.1 (h.2 block hblock)).2⟩

theorem ownMarker_insert_content (msg content : Json) :
    ownMarker.see (msg.insert "content" content) = ownMarker.see msg :=
  congrArg Option.toList (Json.get?_insert_of_ne (by decide))

theorem bare_settle (h : messageMarkers.see (withoutMarkers msg) = []) : Bare (settle msg) := by
  by_cases harr : ∃ blocks, msg.get? "content" = some (.arr blocks)
  · obtain ⟨blocks, harr⟩ := harr
    rw [settle_of_arr harr]
    exact bare_of_see h
  · have hsame : withoutMarkers msg = msg := by
      rw [withoutMarkers]
      split
      · exact absurd ⟨_, ‹_›⟩ harr
      · rfl
    rw [hsame] at h
    rcases (settle_cases msg).resolve_left harr with ⟨text, htext, heligible, heq⟩ | ⟨hsettle, -⟩
    · refine ⟨?_, fun block hblock => ?_⟩
      · rw [heq, ownMarker_insert_content]
        exact (bare_of_see h).1
      · rw [messageBlocks_settle_of_str htext heligible] at hblock
        obtain rfl := List.mem_singleton.1 hblock
        rfl
    · rw [hsettle]
      exact bare_of_see h

theorem get?_markAll {key : String} (h : key ≠ "content") (targets : List CacheTarget) (i : ℕ) (msg : Json) :
    (markAll targets i msg).get? key = msg.get? key := by
  rw [markAll]
  split
  · exact Json.get?_insert_of_ne h
  · rfl

theorem get?_settle {key : String} (h : key ≠ "content") (msg : Json) :
    (settle msg).get? key = msg.get? key := by
  rw [settle]
  split
  · split_ifs
    · exact Json.get?_insert_of_ne h
    · rfl
  · split_ifs
    · exact Json.get?_insert_of_ne h
    · rfl
  · rfl

theorem bare_markAll (h : Bare msg) (targets : List CacheTarget) (i : ℕ) : Bare (markAll targets i msg) := by
  refine ⟨?_, fun block hblock => ?_⟩
  · refine Eq.trans ?_ h.1
    exact congrArg Option.toList (get?_markAll (by decide) targets i msg)
  · rw [messageBlocks_markAll] at hblock
    obtain ⟨j, hj, rfl⟩ := List.mem_mapIdx.1 hblock
    have hnested := h.2 _ (List.getElem_mem hj)
    rw [nestedMarkers_eq] at hnested ⊢
    rw [markBlock]
    split_ifs
    · rw [Json.getArr?, Json.get?_insert_of_ne (by decide)]
      exact hnested
    · exact hnested

theorem length_markers_place (h : ∀ m ∈ messages, messageMarkers.see (withoutMarkers m) = [])
    (tailSlots : ℕ) (scaffold : Bool) :
    ((placeTailCacheBreakpoints messages tailSlots scaffold).1.flatMap messageMarkers.see).length =
      (placeTailCacheBreakpoints messages tailSlots scaffold).2 := by
  rw [← markedBlocks_place, List.length_flatMap, markedBlocks]
  refine congrArg List.sum (List.map_congr_left fun m hm => length_see_of_bare ?_)
  rw [place_eq, fst_foldl_placeMarker] at hm
  obtain ⟨i, hi, rfl⟩ := List.mem_mapIdx.1 hm
  refine bare_markAll ?_ _ i
  rw [List.getElem_map]
  exact bare_settle (h _ (List.getElem_mem _))

/-! ### The live messages -/

/-- The newest message of the user. -/
def NewestUser (messages : List Json) (k : ℕ) : Prop :=
  (∃ m, messages[k]? = some m ∧ m.getStr? "role" = some "user") ∧
    ∀ k' m, k < k' → messages[k']? = some m → m.getStr? "role" ≠ some "user"

/-- The newest message of the user and the final message, the opening one excepted. -/
def Live (messages : List Json) (k : ℕ) : Prop :=
  0 < k ∧ (k = messages.length - 1 ∨ NewestUser messages k)

theorem latestUserMessage_eq {k : ℕ} (h : NewestUser messages k) : latestUserMessage messages = some k := by
  obtain ⟨⟨m, hm, huser⟩, hnewer⟩ := h
  have hk : k < messages.length := (List.getElem?_eq_some_iff.1 hm).1
  have hsplit : messages.zipIdx = messages.zipIdx.take k ++ (m, k) :: messages.zipIdx.drop (k + 1) := by
    have hat : messages.zipIdx[k]? = some (m, k) := by
      rw [List.getElem?_zipIdx, hm]
      simp
    conv_lhs => rw [← List.take_append_drop k messages.zipIdx]
    rw [List.drop_eq_getElem_cons (by rw [List.length_zipIdx]; exact hk)]
    obtain ⟨hlt, heq⟩ := List.getElem?_eq_some_iff.1 hat
    rw [heq]
  have hbehind : (messages.zipIdx.drop (k + 1)).reverse.find?
      (fun m => m.1.getStr? "role" == some "user") = none := by
    rw [List.find?_eq_none]
    rintro ⟨m', k'⟩ hmem huser'
    obtain ⟨n, hn⟩ := List.getElem?_of_mem (List.mem_reverse.1 hmem)
    rw [List.getElem?_drop, List.getElem?_zipIdx] at hn
    obtain ⟨m'', hm'', heq⟩ := Option.map_eq_some_iff.1 hn
    obtain ⟨rfl, rfl⟩ := Prod.mk.inj heq
    exact hnewer (k + 1 + n) m'' (by omega) hm'' (beq_iff_eq.1 huser')
  rw [latestUserMessage, hsplit, List.reverse_append, List.reverse_cons, List.append_assoc,
    List.find?_append, hbehind, List.singleton_append, List.find?_cons_of_pos (by simpa using huser)]
  rfl

theorem liveAt_of_live {k tailSlots : ℕ} {scaffold : Bool}
    (h : Live (placeTailCacheBreakpoints messages tailSlots scaffold).1 k) :
    liveAt (messages.length - 1) (latestUserMessage messages) k := by
  have hat : ∀ i, (placeTailCacheBreakpoints messages tailSlots scaffold).1[i]? =
      messages[i]?.map fun m => markAll (chosen messages tailSlots scaffold) i (settle m) := by
    intro i
    rw [place_eq, fst_foldl_placeMarker, List.getElem?_mapIdx, List.getElem?_map, Option.map_map]
    rfl
  have hrole : ∀ i m, (markAll (chosen messages tailSlots scaffold) i (settle m)).getStr? "role" =
      m.getStr? "role" := by
    intro i m
    rw [Json.getStr?, get?_markAll (by decide), get?_settle (by decide), Json.getStr?]
  obtain ⟨hpos, hlive⟩ := h
  rw [liveAt, Bool.and_eq_true, Bool.or_eq_true, decide_eq_true_eq, beq_iff_eq, beq_iff_eq]
  refine ⟨hpos, hlive.imp (fun hfinal => ?_) fun hnewest => latestUserMessage_eq ?_⟩
  · rw [hfinal, length_place]
  · obtain ⟨⟨m, hm, huser⟩, hnewer⟩ := hnewest
    rw [hat] at hm
    obtain ⟨m₀, hm₀, rfl⟩ := Option.map_eq_some_iff.1 hm
    refine ⟨⟨m₀, hm₀, by rw [← hrole k m₀]; exact huser⟩, fun k' m' hk' hm' => ?_⟩
    rw [← hrole k' m']
    exact hnewer k' _ hk' (by rw [hat, hm']; rfl)

theorem reminds_of_blockAt {k e : ℕ} {reminder : Json} (hm : messages[k]? = some msg)
    (hat : blockAt (messages.map settle) k e = some reminder) (hreminder : isEphemeralClientBlock reminder) :
    reminds msg := by
  have hblock : (messageBlocks (settle msg))[e]? = some reminder := by
    rw [blockAt, List.getElem?_map, hm] at hat
    exact hat
  have hmem := List.mem_of_getElem? hblock
  rw [reminds]
  split
  · exact List.any_eq_true.2 ⟨reminder, hmem, hreminder⟩
  · rename_i text htext
    by_cases heligible : eligibleText text
    · rw [messageBlocks_settle_of_str htext heligible] at hmem
      obtain rfl := List.mem_singleton.1 hmem
      exact hreminder
    · have hsame : settle msg = msg := by
        simp only [settle, htext]
        exact if_neg heligible
      rw [hsame, messageBlocks, Json.getArr?, htext] at hmem
      exact absurd hmem List.not_mem_nil
  · rename_i hnarr hnstr
    have harr : ¬ ∃ blocks, msg.get? "content" = some (.arr blocks) := not_exists.mpr hnarr
    rcases (settle_cases msg).resolve_left harr with ⟨text, htext, -, -⟩ | ⟨hsame, -⟩
    · exact absurd htext (hnstr text)
    · rw [hsame, messageBlocks_of_not_arr harr] at hmem
      exact absurd hmem List.not_mem_nil

/-! ### The marked blocks -/

variable {block : Json}

theorem marked_place {tailSlots i j : ℕ} {scaffold : Bool}
    (hat : blockAt (placeTailCacheBreakpoints messages tailSlots scaffold).1 i j = some block)
    (hmarked : isMarked block) :
    ∃ settled, blockAt (messages.map settle) i j = some settled ∧
      block = settled.insert "cache_control" ephemeralMarker ∧
      (⟨i, j⟩ : CacheTarget) ∈ chosen messages tailSlots scaffold := by
  rw [blockAt_place] at hat
  obtain ⟨settled, hsettled, rfl⟩ := Option.map_eq_some_iff.1 hat
  by_cases hhit : hits (chosen messages tailSlots scaffold) i j
  · exact ⟨settled, hsettled, if_pos hhit, hits_iff.1 hhit⟩
  · obtain ⟨m, hm, hblock⟩ := Option.bind_eq_some_iff.1 hsettled
    rw [List.getElem?_map] at hm
    obtain ⟨m₀, -, rfl⟩ := Option.map_eq_some_iff.1 hm
    rw [markBlock, if_neg hhit, isMarked_of_mem_settle (List.mem_of_getElem? hblock)] at hmarked
    exact absurd hmarked (by simp)

theorem tail_target {tailSlots i j : ℕ}
    (h : (⟨i, j⟩ : CacheTarget) ∈ (cacheableTargets (messages.length - 1) (latestUserMessage messages) 0 false
      messages).reverse.take tailSlots) :
    (∃ settled, blockAt (messages.map settle) i j = some settled ∧ carriesMarker settled) ∧
      ∀ k e reminder, blockAt (messages.map settle) k e = some reminder → isEphemeralClientBlock reminder →
        liveAt (messages.length - 1) (latestUserMessage messages) k → i < k ∨ (i = k ∧ j < e) := by
  obtain ⟨-, i', msg, hmsg, hi, ⟨settled, hsettled, hcarries, hsealed⟩, hahead⟩ :=
    mem_cacheableTargets (List.mem_reverse.1 (List.mem_of_mem_take h))
  obtain rfl : i = i' := by
    rw [Nat.zero_add] at hi
    exact hi
  rw [Nat.zero_add] at hsealed
  have hblock : ∀ e, blockAt (messages.map settle) i e = (messageBlocks (settle msg))[e]? := by
    intro e
    rw [blockAt, List.getElem?_map, hmsg]
    rfl
  refine ⟨⟨settled, (hblock j).trans hsettled, hcarries⟩, fun k e reminder hat hreminder hlive => ?_⟩
  rcases lt_trichotomy i k with hlt | rfl | hgt
  · exact Or.inl hlt
  · refine Or.inr ⟨rfl, lt_of_not_ge fun hle => ?_⟩
    rw [hblock] at hat
    have := hsealed hlive e reminder hle hat
    rw [hreminder] at this
    exact absurd this (by simp)
  · obtain ⟨m, hm, -⟩ := Option.bind_eq_some_iff.1 hat
    rw [List.getElem?_map] at hm
    obtain ⟨m₀, hm₀, -⟩ := Option.map_eq_some_iff.1 hm
    have := hahead k m₀ hgt hm₀ (by rw [Nat.zero_add]; exact hlive)
    rw [reminds_of_blockAt hm₀ hat hreminder] at this
    exact absurd this (by simp)

theorem isObj_of_isEphemeral (h : isEphemeralClientBlock block) : block.isObj := by
  rw [isEphemeralClientBlock, Bool.and_eq_true] at h
  obtain ⟨text, htext, -⟩ := (Option.any_eq_true _ _).1 h.2
  obtain ⟨value, hvalue, -⟩ := Option.bind_eq_some_iff.1 htext
  obtain ⟨fields, rfl⟩ := Json.isObj_of_get? hvalue
  rfl

theorem not_thinking_of_isEphemeral (h : isEphemeralClientBlock block) :
    isThinkingBlock block = false := by
  rw [isEphemeralClientBlock, Bool.and_eq_true, isTextBlock, beq_iff_eq] at h
  rw [isThinkingBlock, h.1]
  rfl

/-! ### The whole request -/

theorem scaffold_granted_iff (body : Json) (messages : List Json) (requestedTail : ℕ) :
    (messageSlotsWithinBudget body messages requestedTail).scaffold ↔
      2 ≤ requestedTail ∧ opensWithScaffolding messages ∧
        requestedTail + shortenedSystem (countFieldMarkers body "system") + countFieldMarkers body "tools" < 4 := by
  have hdivide : ∀ kept, (divideSlots (decide (2 ≤ requestedTail) && opensWithScaffolding messages)
      requestedTail (countFieldMarkers body "tools") kept).scaffold ↔
        2 ≤ requestedTail ∧ opensWithScaffolding messages ∧
          requestedTail + kept + countFieldMarkers body "tools" < 4 := by
    intro kept
    have hand : (divideSlots (decide (2 ≤ requestedTail) && opensWithScaffolding messages)
        requestedTail (countFieldMarkers body "tools") kept).scaffold ↔
        ((2 ≤ requestedTail ∧ opensWithScaffolding messages) ∧
          2 ≤ min requestedTail (4 - (kept + countFieldMarkers body "tools"))) ∧
        min requestedTail (4 - (kept + countFieldMarkers body "tools")) <
          4 - (kept + countFieldMarkers body "tools") := by
      simp only [divideSlots, Bool.and_eq_true, decide_eq_true_eq]
      rfl
    rw [hand]
    constructor
    · rintro ⟨⟨⟨h2, hopens⟩, -⟩, hroom⟩
      exact ⟨h2, hopens, by omega⟩
    · rintro ⟨h2, hopens, hroom⟩
      exact ⟨⟨⟨h2, hopens⟩, by omega⟩, by omega⟩
  have hshort := (shortenedSystem_le (countFieldMarkers body "system")).2
  rw [messageSlotsWithinBudget]
  split_ifs with hpaid
  · exact iff_of_true hpaid ((hdivide _).1 hpaid)
  · refine iff_of_false (fun h => ?_) fun h => hpaid ((hdivide _).2 h)
    obtain ⟨h2, hopens, hroom⟩ := (hdivide _).1 h
    exact hpaid ((hdivide _).2 ⟨h2, hopens, by omega⟩)

/-- What a replayed request keeps to. -/
structure CacheBudget (parsed : Json) (replayed : ReplayBreakpoints) : Prop where
  /-- The markers of the request are within the limit. -/
  within : countFieldMarkers replayed.parsed "tools" + countFieldMarkers replayed.parsed "system" +
    (replayed.normalized.flatMap messageMarkers.see).length ≤ 4
  /-- The tools are left alone. -/
  tools : replayed.parsed.get? "tools" = parsed.get? "tools"
  /-- The system keeps a marker if it had one. -/
  system : 1 ≤ countFieldMarkers parsed "system" → 1 ≤ countFieldMarkers replayed.parsed "system"
  /-- The count is that of the marked blocks. -/
  placed : replayed.breakpointsPlaced = markedBlocks replayed.normalized
  /-- No marker stands on thinking. -/
  thinking : ∀ i j block, blockAt replayed.normalized i j = some block → isMarked block →
    isThinkingBlock block = false
  /-- No marker stands on a proactive expansion. -/
  expansion : ∀ i j block, blockAt replayed.normalized i j = some block → isMarked block →
    isProactiveExpansionBlock block = false
  /-- No marker stands at or behind a reminder of a live message. -/
  sealed_ : ∀ i j block k e reminder, blockAt replayed.normalized i j = some block → isMarked block →
    blockAt replayed.normalized k e = some reminder → isEphemeralClientBlock reminder →
    Live replayed.normalized k → i < k ∨ (i = k ∧ j < e)

/-- The scaffolding is granted a slot, and an expansion ends the opening run. -/
def ExpansionOpens (parsed : Json) (overlaid : List Json) (tailBreakpoints : ℕ) : Prop :=
  (2 ≤ tailBreakpoints ∧ opensWithScaffolding overlaid ∧ tailBreakpoints +
    shortenedSystem (countFieldMarkers parsed "system") + countFieldMarkers parsed "tools" < 4) ∧
    ∃ t block, openingScaffoldingTarget (overlaid.map settle) = some t ∧
      blockAt (overlaid.map settle) 0 t.blockIdx = some block ∧ isProactiveExpansionBlock block

section Replay

variable {parsed : Json} {overlaid : List Json} {tailBreakpoints : ℕ}

/-- A marked block of a replayed request is a candidate of the tail, or ends the opening run. -/
theorem marked_cases {i j : ℕ}
    (hat : blockAt (placeReplayBreakpoints parsed overlaid tailBreakpoints).normalized i j = some block)
    (hmarked : isMarked block) :
    ∃ settled, blockAt (overlaid.map settle) i j = some settled ∧
      block = settled.insert "cache_control" ephemeralMarker ∧
      (carriesMarker settled ∧ (∀ k e reminder, blockAt (overlaid.map settle) k e = some reminder →
          isEphemeralClientBlock reminder →
          liveAt (overlaid.length - 1) (latestUserMessage overlaid) k → i < k ∨ (i = k ∧ j < e)) ∨
        i = 0 ∧ isEphemeralClientBlock settled ∧
          (messageSlotsWithinBudget parsed overlaid tailBreakpoints).scaffold ∧
          openingScaffoldingTarget (overlaid.map settle) = some ⟨i, j⟩) := by
  obtain ⟨settled, hsettled, rfl, hchosen⟩ := marked_place hat hmarked
  refine ⟨settled, hsettled, rfl, ?_⟩
  rcases List.mem_append.1 hchosen with hopening | htail
  · rw [Option.mem_toList] at hopening
    split_ifs at hopening with hscaffold
    obtain ⟨hi, block, hblock, hephemeral⟩ := openingScaffoldingTarget_eq hopening
    obtain rfl : i = 0 := hi
    obtain rfl : settled = block := Option.some.inj (hsettled.symm.trans hblock)
    exact Or.inr ⟨rfl, hephemeral, hscaffold, hopening⟩
  · obtain ⟨⟨settled', hsettled', hcarries⟩, hsealed⟩ := tail_target htail
    obtain rfl : settled = settled' := Option.some.inj (hsettled.symm.trans hsettled')
    exact Or.inl ⟨hcarries, hsealed⟩

/-- An expansion takes a marker exactly if it ends the opening run and the scaffolding is granted a slot. -/
theorem expansion_marked_iff :
    (∃ i j block, blockAt (placeReplayBreakpoints parsed overlaid tailBreakpoints).normalized i j = some block ∧
      isMarked block ∧ isProactiveExpansionBlock block) ↔ ExpansionOpens parsed overlaid tailBreakpoints := by
  constructor
  · rintro ⟨i, j, block, hat, hmarked, hexpansion⟩
    obtain ⟨settled, hsettled, rfl, hcase⟩ := marked_cases hat hmarked
    rw [isProactiveExpansionBlock_mark] at hexpansion
    rcases hcase with ⟨hcarries, -⟩ | ⟨rfl, -, hscaffold, hopening⟩
    · rw [carriesMarker, hexpansion, Bool.not_true, Bool.and_false, Bool.false_and] at hcarries
      exact absurd hcarries (by simp)
    · exact ⟨(scaffold_granted_iff _ _ _).1 hscaffold, _, settled, hopening, hsettled, hexpansion⟩
  · rintro ⟨hslot, t, block, hopening, hblock, hexpansion⟩
    have hscaffold := (scaffold_granted_iff parsed overlaid tailBreakpoints).2 hslot
    obtain ⟨hi, block', hblock', hephemeral⟩ := openingScaffoldingTarget_eq hopening
    obtain rfl : block = block' := Option.some.inj (hblock.symm.trans hblock')
    have hchosen : (⟨0, t.blockIdx⟩ : CacheTarget) ∈ chosen overlaid
        (messageSlotsWithinBudget parsed overlaid tailBreakpoints).tail
        (messageSlotsWithinBudget parsed overlaid tailBreakpoints).scaffold := by
      rw [chosen, if_pos hscaffold, hopening, ← hi]
      exact List.mem_append_left _ (List.mem_singleton.2 rfl)
    refine ⟨0, t.blockIdx, block.insert "cache_control" ephemeralMarker, ?_, ?_, ?_⟩
    · show blockAt (placeTailCacheBreakpoints overlaid _ _).1 0 t.blockIdx = _
      rw [blockAt_place, hblock, Option.map_some, markBlock, if_pos (hits_iff.2 hchosen)]
    · rw [isMarked_insert]
      exact isObj_of_isEphemeral hephemeral
    · rw [isProactiveExpansionBlock_mark]
      exact hexpansion

/-- A replayed request keeps to the budget in full exactly if no proactive expansion ends an opening run that
is granted the scaffolding slot. -/
theorem cacheBudget_iff
    (hbudget : countFieldMarkers parsed "tools" + countFieldMarkers parsed "system" ≤ 4)
    (hmessages : ∀ m ∈ overlaid, messageMarkers.see (withoutMarkers m) = []) :
    CacheBudget parsed (placeReplayBreakpoints parsed overlaid tailBreakpoints) ↔
      ¬ ExpansionOpens parsed overlaid tailBreakpoints := by
  refine ⟨fun h hopens => ?_, fun hopens => ?_⟩
  · obtain ⟨i, j, block, hat, hmarked, hexpansion⟩ := expansion_marked_iff.2 hopens
    rw [h.expansion i j block hat hmarked] at hexpansion
    exact absurd hexpansion nofun
  · have htools : (placeReplayBreakpoints parsed overlaid tailBreakpoints).parsed.get? "tools" =
        parsed.get? "tools" := get?_trim (by decide) _ _
    have hplaced : (placeReplayBreakpoints parsed overlaid tailBreakpoints).breakpointsPlaced ≤
        (messageSlotsWithinBudget parsed overlaid tailBreakpoints).tail +
          if (messageSlotsWithinBudget parsed overlaid tailBreakpoints).scaffold then 1 else 0 := by
      refine le_trans ?_ (length_chosen_le overlaid _ _)
      have hfold := (markedBlocks_foldl (chosen overlaid
        (messageSlotsWithinBudget parsed overlaid tailBreakpoints).tail
        (messageSlotsWithinBudget parsed overlaid tailBreakpoints).scaffold) (overlaid.map settle, 0)).2
      rw [Nat.zero_add] at hfold
      exact hfold
    refine ⟨?_, htools, fun hsystem => ?_, (markedBlocks_place overlaid _ _).symm, ?_, ?_, ?_⟩
    · have hcount : countFieldMarkers (placeReplayBreakpoints parsed overlaid tailBreakpoints).parsed "tools" =
          countFieldMarkers parsed "tools" := by
        rw [countFieldMarkers, countFieldMarkers, Json.getArr?, Json.getArr?, htools]
      have hmarkers : ((placeReplayBreakpoints parsed overlaid tailBreakpoints).normalized.flatMap
          messageMarkers.see).length =
            (placeReplayBreakpoints parsed overlaid tailBreakpoints).breakpointsPlaced :=
        length_markers_place hmessages _ _
      rw [hcount, hmarkers]
      exact within_limit parsed overlaid tailBreakpoints hbudget hplaced
    · exact le_trans (by omega) (countFieldMarkers_trim parsed _).2.1
    · intro i j block hat hmarked
      obtain ⟨settled, -, rfl, ⟨hcarries, -⟩ | ⟨-, hephemeral, -⟩⟩ := marked_cases hat hmarked
      · rw [isThinkingBlock_mark]
        rw [carriesMarker, Bool.and_eq_true] at hcarries
        simpa using hcarries.2
      · rw [isThinkingBlock_mark]
        exact not_thinking_of_isEphemeral hephemeral
    · intro i j block hat hmarked
      refine Bool.eq_false_iff.2 fun hexpansion => hopens ?_
      exact expansion_marked_iff.1 ⟨i, j, block, hat, hmarked, hexpansion⟩
    · intro i j block k e reminder hat hmarked hremAt hreminder hlive
      have hliveAt := liveAt_of_live hlive
      have hpos : 0 < k := hlive.1
      obtain ⟨settled, -, rfl, ⟨-, hsealed⟩ | ⟨rfl, -⟩⟩ := marked_cases hat hmarked
      · have hrem : ∃ r, blockAt (overlaid.map settle) k e = some r ∧ isEphemeralClientBlock r := by
          change blockAt (placeTailCacheBreakpoints overlaid _ _).1 k e = _ at hremAt
          rw [blockAt_place] at hremAt
          obtain ⟨r, hr, rfl⟩ := Option.map_eq_some_iff.1 hremAt
          refine ⟨r, hr, ?_⟩
          rw [markBlock] at hreminder
          split_ifs at hreminder
          · rw [isEphemeralClientBlock_mark] at hreminder
            exact hreminder
          · exact hreminder
        obtain ⟨r, hr, hephemeral⟩ := hrem
        exact hsealed k e r hr hephemeral hliveAt
      · exact Or.inl hpos

end Replay

/-- A request with two markers on its system, whose messages carry one. -/
theorem cacheBudget_two_system :
    let parsed := Json.obj [("system", .arr [.obj [("cache_control", ephemeralMarker)],
      .obj [("cache_control", ephemeralMarker)]])]
    let overlaid := [Json.obj [("role", .str "user"), ("content", .arr [textBlock "<system-reminder>r",
      .obj [("type", .str "text"), ("text", .str "hi"), ("cache_control", ephemeralMarker)]])],
      Json.obj [("role", .str "assistant"), ("content", .str "hello")]]
    CacheBudget parsed (placeReplayBreakpoints parsed overlaid 2) ↔ ¬ ExpansionOpens parsed overlaid 2 :=
  cacheBudget_iff (by decide +kernel) (by decide +kernel)

/-- A reminder that a proactive expansion was appended to takes the scaffolding marker. -/
theorem expansion_takes_marker :
    ¬ ∀ (parsed : Json) (overlaid : List Json) (tailBreakpoints : ℕ),
      countFieldMarkers parsed "tools" + countFieldMarkers parsed "system" ≤ 4 →
      (∀ m ∈ overlaid, messageMarkers.see (withoutMarkers m) = []) →
      CacheBudget parsed (placeReplayBreakpoints parsed overlaid tailBreakpoints) := by
  intro h
  have hbudget := h (.obj []) [Json.obj [("role", .str "user"), ("content", .arr [textBlock
    "<system-reminder>r</system-reminder>\n\n<headroom_proactive_expansion>\nx\n</headroom_proactive_expansion>",
    textBlock "hi"])]] 2 (by decide +kernel) (by decide +kernel)
  have hmarked := hbudget.expansion 0 0
  exact absurd (hmarked _ rfl (by decide +kernel)) (by decide +kernel)

end Headroom.PrefixReplay
