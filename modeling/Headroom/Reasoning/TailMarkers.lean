import Headroom.Reasoning.BlockEdits
import Headroom.Reasoning.Guard

/-!
# Markers at the tail

The newest marker of the messages moves on to their last block, and before a body leaves all markers are placed
anew. The placement passes over reasoning; the move does not.

## Main statements

* `markerMoves_iff` : the three passes over the markers.
-/

open Foundation

namespace Headroom.Reasoning

open PrefixReplay

/-! ### Moving the newest marker -/

/-- The blocks of a message that are objects, with their positions. -/
def positionsIn (m : ℕ) (message : Json) : List ((ℕ × ℕ) × Json) :=
  (((contentOf message).getD []).zipIdx.filter fun b => b.1.isObj).map fun b => ((m, b.2), b.1)

def positions (messages : List Json) : List ((ℕ × ℕ) × Json) :=
  messages.zipIdx.flatMap fun m => positionsIn m.2 m.1

/-- Where among the positions there is a marker. -/
def markedAmong (positions : List ((ℕ × ℕ) × Json)) : List ℕ :=
  (positions.zipIdx.filter fun p => isMarked p.1.2).map Prod.snd

/-- Move the newest marker to the last block that is an object, and tell whether the body changed. -/
def pushToTail (body : Json) (allowMany : Bool) : Json × Bool :=
  match body.getArr? "messages" with
  | none => (body, false)
  | some messages =>
    let positions := positions messages
    let marked := markedAmong positions
    match marked.getLast? with
    | none => (body, false)
    | some newest =>
      if (marked.length ≠ 1 ∧ allowMany = false) ∨ newest + 1 = positions.length then (body, false)
      else
        match positions[newest]?, positions.getLast? with
        | some (from_, block), some (to_, _) =>
          let marker := (block.get? "cache_control").getD .null
          let messages := modifyBlock from_ (Json.remove "cache_control") messages
          let messages := modifyBlock to_ (fun b => b.insert "cache_control" marker) messages
          (body.insert "messages" (.arr messages), true)
        | _, _ => (body, false)

/-- The objects among the blocks of some messages. -/
def objectBlocks (messages : List Json) : List Json :=
  (messages.flatMap fun m => (contentOf m).getD []).filter Json.isObj

/-- The newest marker is on one block and the last block is another: the marker moves. -/
def Pushes (allowMany : Bool) (messages : List Json) (from_ to_ : Json) : Prop :=
  ∃ before between, objectBlocks messages = before ++ from_ :: (between ++ [to_]) ∧ isMarked from_ = true ∧
    (∀ b ∈ between ++ [to_], isMarked b = false) ∧ (allowMany = true ∨ ∀ b ∈ before, isMarked b = false)

theorem positions_map_snd (messages : List Json) : (positions messages).map Prod.snd = objectBlocks messages := by
  have hin (m : ℕ) (message : Json) :
      (positionsIn m message).map Prod.snd = ((contentOf message).getD []).filter Json.isObj := by
    rw [positionsIn, List.map_map]
    generalize (contentOf message).getD [] = content
    have hzip : ∀ (i : ℕ), ((content.zipIdx i).filter fun b => b.1.isObj).map Prod.fst =
        content.filter Json.isObj := by
      induction content with
      | nil => exact fun _ => rfl
      | cons b content ih =>
        intro i
        rw [List.zipIdx_cons, List.filter_cons, List.filter_cons]
        split_ifs
        · rw [List.map_cons, ih]
        · exact ih _
    exact hzip 0
  rw [positions, objectBlocks, List.map_flatMap, List.filter_flatMap]
  simp only [hin]
  conv_rhs => rw [← List.zipIdx_map_fst 0 messages, List.flatMap_map]

variable {messages : List Json} {block : Json}

theorem blockAt_of_mem_positions {position : ℕ × ℕ}
    (h : (position, block) ∈ positions messages) : blockAt messages position = some block ∧ block.isObj = true := by
  obtain ⟨⟨message, m⟩, hmessage, hin⟩ := List.mem_flatMap.1 h
  obtain ⟨⟨b, i⟩, hb, heq⟩ := List.mem_map.1 hin
  obtain ⟨rfl, rfl⟩ := Prod.mk.inj heq
  obtain ⟨hb, hobj⟩ := List.mem_filter.1 hb
  have hm : messages[m]? = some message := List.mem_zipIdx_iff_getElem?.1 hmessage
  have hi : ((contentOf message).getD [])[i]? = some b := List.mem_zipIdx_iff_getElem?.1 hb
  refine ⟨?_, hobj⟩
  rw [blockAt, hm, Option.bind_some]
  cases hcontent : contentOf message with
  | none => simp [hcontent] at hi
  | some content => rwa [hcontent, Option.getD_some] at hi

theorem markedAmong_cases (ps : List ((ℕ × ℕ) × Json)) :
    (markedAmong ps = [] ∧ ∀ p ∈ ps, isMarked p.2 = false) ∨
      ∃ before newest after, ps = before ++ newest :: after ∧ isMarked newest.2 = true ∧
        (∀ p ∈ after, isMarked p.2 = false) ∧ (markedAmong ps).getLast? = some before.length ∧
        ((markedAmong ps).length = 1 ↔ ∀ p ∈ before, isMarked p.2 = false) := by
  have hconcat (ps : List ((ℕ × ℕ) × Json)) (p : (ℕ × ℕ) × Json) :
      markedAmong (ps ++ [p]) = markedAmong ps ++ if isMarked p.2 then [ps.length] else [] := by
    rw [markedAmong, List.zipIdx_append, List.filter_append, List.map_append]
    refine congrArg (_ ++ ·) ?_
    cases hp : isMarked p.2 <;> simp [hp]
  induction ps using List.reverseRecOn with
  | nil => exact .inl ⟨rfl, by simp⟩
  | append_singleton ps p ih =>
    cases hp : isMarked p.2 with
    | true =>
      refine .inr ⟨ps, p, [], rfl, hp, by simp, by rw [hconcat, hp]; simp, ?_⟩
      rw [hconcat, hp, if_pos rfl, List.length_append, List.length_singleton]
      obtain ⟨hnil, hall⟩ | ⟨before, newest, after, rfl, hnewest, -, hlast, -⟩ := ih
      · rw [hnil]
        exact ⟨fun _ => hall, fun _ => rfl⟩
      · refine ⟨fun h => ?_, fun h => ?_⟩
        · have hempty : markedAmong (before ++ newest :: after) = [] := List.length_eq_zero_iff.1 (by omega)
          rw [hempty] at hlast
          cases hlast
        · have hno := h newest (by simp)
          rw [hnewest] at hno
          cases hno
    | false =>
      have hsame : markedAmong (ps ++ [p]) = markedAmong ps := by rw [hconcat, hp]; simp
      have hsnoc {q : List ((ℕ × ℕ) × Json)} (h : ∀ p ∈ q, isMarked p.2 = false) :
          ∀ p' ∈ q ++ [p], isMarked p'.2 = false := by
        intro p' hp'
        obtain hp' | hp' := List.mem_append.1 hp'
        · exact h p' hp'
        · rwa [List.mem_singleton.1 hp']
      rw [hsame]
      obtain ⟨hnil, hall⟩ | ⟨before, newest, after, rfl, hnewest, hafter, hlast, hone⟩ := ih
      · exact .inl ⟨hnil, hsnoc hall⟩
      · exact .inr ⟨before, newest, after ++ [p], by simp, hnewest, hsnoc hafter, hlast, hone⟩

theorem newest_unique {before between before' between' : List Json} {a b a' b' : Json}
    (heq : before ++ a :: (between ++ [b]) = before' ++ a' :: (between' ++ [b'])) (ha : isMarked a = true)
    (ha' : isMarked a' = true) (hb : ∀ x ∈ between ++ [b], isMarked x = false)
    (hb' : ∀ x ∈ between' ++ [b'], isMarked x = false) : before = before' ∧ a = a' ∧ b = b' := by
  obtain ⟨rest, rfl, hrest⟩ | ⟨rest, rfl, hrest⟩ := List.append_eq_append_iff.1 heq
  · cases rest with
    | nil =>
      obtain ⟨hhead, htail⟩ := List.cons.inj hrest
      exact ⟨by simp, hhead, by simpa using congrArg List.getLast? htail⟩
    | cons x rest =>
      obtain ⟨-, htail⟩ := List.cons.inj hrest
      have hno := hb a' (by rw [htail]; simp)
      rw [ha'] at hno
      cases hno
  · cases rest with
    | nil =>
      obtain ⟨hhead, htail⟩ := List.cons.inj hrest
      exact ⟨by simp, hhead.symm, by simpa using (congrArg List.getLast? htail).symm⟩
    | cons x rest =>
      obtain ⟨-, htail⟩ := List.cons.inj hrest
      have hno := hb' a (by rw [htail]; simp)
      rw [ha] at hno
      cases hno

theorem pushToTail_cases {body : Json} (h : body.getArr? "messages" = some messages)
    (allowMany : Bool) :
    (pushToTail body allowMany = (body, false) ∧ ∀ from_ to_, ¬ Pushes allowMany messages from_ to_) ∨
      ∃ from_ to_ : (ℕ × ℕ) × Json, blockAt messages from_.1 = some from_.2 ∧ blockAt messages to_.1 = some to_.2 ∧
        isMarked from_.2 = true ∧ isMarked to_.2 = false ∧ to_.2.isObj = true ∧
        (∀ a b, Pushes allowMany messages a b ↔ a = from_.2 ∧ b = to_.2) ∧
        ∃ marker, pushToTail body allowMany = (body.insert "messages" (.arr (modifyBlock to_.1
          (fun b => b.insert "cache_control" marker)
          (modifyBlock from_.1 (Json.remove "cache_control") messages))), true) := by
  have hblocks := positions_map_snd messages
  obtain ⟨hnil, hall⟩ | ⟨before, newest, after, hps, hnewest, hafter, hlast, hone⟩ :=
    markedAmong_cases (positions messages)
  · refine .inl ⟨?_, fun a b ⟨before, between, heq, ha, _, _⟩ => ?_⟩
    · simp only [pushToTail, h, hnil, List.getLast?_nil]
    · have hmem : a ∈ (positions messages).map Prod.snd := by
        rw [hblocks, heq]
        simp
      obtain ⟨p, hp, rfl⟩ := List.mem_map.1 hmem
      rw [hall p hp] at ha
      cases ha
  · have hmap : objectBlocks messages = before.map Prod.snd ++ newest.2 :: after.map Prod.snd := by
      rw [← hblocks, hps, List.map_append, List.map_cons]
    have hbefore : (∀ b ∈ before.map Prod.snd, isMarked b = false) ↔ (markedAmong (positions messages)).length = 1 := by
      rw [hone]
      exact List.forall_mem_map
    obtain rfl | ⟨between, to_, rfl⟩ := List.eq_nil_or_concat' after
    · refine .inl ⟨?_, fun a b ⟨before', between', heq, ha, hb, _⟩ => ?_⟩
      · simp only [pushToTail, h, hlast]
        rw [if_pos (.inr (by rw [hps]; simp))]
      · rw [hmap, List.map_nil] at heq
        have hlasts := congrArg List.getLast? heq
        simp only [List.getLast?_append, List.getLast?_cons, List.getLast?_nil, Option.getD_none, Option.some_or,
          Option.getD_some, Option.some.injEq] at hlasts
        have hno := hb b (by simp)
        rw [← hlasts, hnewest] at hno
        cases hno
    · have hsplit : objectBlocks messages =
          before.map Prod.snd ++ newest.2 :: (between.map Prod.snd ++ [to_.2]) := by
        rw [hmap, List.map_append]
        rfl
      have hend : ∀ b ∈ between.map Prod.snd ++ [to_.2], isMarked b = false := by
        intro b hb
        obtain ⟨p, hp, rfl⟩ := List.mem_map.1 (by rwa [← List.map_singleton, ← List.map_append] at hb :
          b ∈ (between ++ [to_]).map Prod.snd)
        exact hafter p hp
      by_cases hmany : (markedAmong (positions messages)).length ≠ 1 ∧ allowMany = false
      · refine .inl ⟨?_, fun a b ⟨before', between', heq, ha, hb, hmay⟩ => ?_⟩
        · simp only [pushToTail, h, hlast]
          rw [if_pos (.inl hmany)]
        · obtain ⟨rfl, -, -⟩ := newest_unique (hsplit.symm.trans heq) hnewest ha hend hb
          obtain hmay | hmay := hmay
          · rw [hmany.2] at hmay
            cases hmay
          · exact hmany.1 (hbefore.1 hmay)
      · have hmay : allowMany = true ∨ ∀ b ∈ before.map Prod.snd, isMarked b = false := by
          rw [hbefore]
          cases allowMany
          · exact .inr (by_contra fun hno => hmany ⟨hno, rfl⟩)
          · exact .inl rfl
        have hmem : (newest.1, newest.2) ∈ positions messages ∧ (to_.1, to_.2) ∈ positions messages := by
          rw [hps]
          simp
        obtain ⟨hfrom, -⟩ := blockAt_of_mem_positions hmem.1
        obtain ⟨hto, htoObj⟩ := blockAt_of_mem_positions hmem.2
        refine .inr ⟨newest, to_, hfrom, hto, hnewest, hend _ (by simp), htoObj, fun a b => ⟨?_, ?_⟩,
          (newest.2.get? "cache_control").getD .null, ?_⟩
        · rintro ⟨before', between', heq, ha, hb, -⟩
          obtain ⟨-, rfl, rfl⟩ := newest_unique (hsplit.symm.trans heq) hnewest ha hend hb
          exact ⟨rfl, rfl⟩
        · rintro ⟨rfl, rfl⟩
          exact ⟨_, _, hsplit, hnewest, hend, hmay⟩
        · have hshort : ¬ (before.length + 1 = (positions messages).length) := by
            rw [hps]
            simp
          have hat : (positions messages)[before.length]? = some newest := by rw [hps]; simp
          have htail : (positions messages).getLast? = some to_ := by
            rw [hps, ← List.cons_append, ← List.append_assoc, List.getLast?_concat]
          simp only [pushToTail, h, hlast]
          rw [if_neg (not_or.2 ⟨hmany, hshort⟩), hat, htail]

/-! ### The move -/

/-- A pass that keeps every block, with reasoning as it was. -/
def EditCareful (budget : ℕ) (messages messages' : List Json) : Prop := Careful id budget messages messages'

theorem contentKept_of_related {messages messages' : List Json}
    (h : BlocksRelated (fun b b' => Remarked b b' ∧ ReasoningKept b b') messages messages') :
    List.Forall₂ (ContentKept id) messages messages' := by
  refine h.imp fun m m' hm content hcontent => ?_
  rw [contentOf, hcontent] at hm
  obtain ⟨content', hcontent', hall⟩ : ∃ content', contentOf m' = some content' ∧
      List.Forall₂ (fun b b' => Remarked b b' ∧ ReasoningKept b b') content content' := by
    generalize contentOf m' = c at *
    cases hm with
    | some hall => exact ⟨_, rfl, hall⟩
  refine ⟨content', hcontent', hall, fun hne hnil => hne ?_⟩
  subst hnil
  exact List.forall₂_nil_right_iff.1 hall

/-- Reasoning is where it was. -/
theorem blockAt_of_contentKept {messages messages' : List Json}
    (h : List.Forall₂ (ContentKept id) messages messages') {position : ℕ × ℕ}
    (hblock : blockAt messages position = some block) (hthinking : isThinkingBlock block = true) :
    blockAt messages' position = some block := by
  obtain ⟨content, hcontent, hblock⟩ := Option.bind_eq_some_iff.1 hblock
  obtain ⟨message, hmessage, hcontent⟩ := Option.bind_eq_some_iff.1 hcontent
  have hget {α : Type} {S : α → α → Prop} {as bs : List α} (hab : List.Forall₂ S as bs) {i : ℕ} {a : α}
      (ha : as[i]? = some a) : ∃ b, bs[i]? = some b ∧ S a b := by
    induction hab generalizing i with
    | nil => simp at ha
    | cons hab _ ih =>
      cases i with
      | zero =>
        obtain rfl := Option.some.inj ha
        exact ⟨_, rfl, hab⟩
      | succ i => simpa using ih (by simpa using ha)
  obtain ⟨message', hmessage', hkept⟩ := hget h hmessage
  obtain ⟨content', hcontent', hall, -⟩ := hkept content hcontent
  obtain ⟨block', hblock', -, hsame⟩ := hget hall hblock
  rw [blockAt, hmessage', Option.bind_some, contentOf, hcontent', Option.bind_some, hblock', hsame hthinking]

theorem remarked_insert (block marker : Json) : Remarked block (block.insert "cache_control" marker) := by
  cases block with
  | obj fields => exact Json.remove_insert_self (j := .obj fields)
  | null => rfl
  | bool b => rfl
  | num literal => rfl
  | str s => rfl
  | arr items => rfl

theorem remarked_remove (block : Json) : Remarked block (block.remove "cache_control") := by
  cases block with
  | obj fields => exact Json.remove_remove_self (j := .obj fields)
  | null => rfl
  | bool b => rfl
  | num literal => rfl
  | str s => rfl
  | arr items => rfl

theorem isMarked_remove (block : Json) : isMarked (block.remove "cache_control") = false := by
  rw [isMarked, Json.get?_remove_self, Option.isSome_none]

theorem isMarked_insert (h : block.isObj = true) (marker : Json) :
    isMarked (block.insert "cache_control" marker) = true := by
  rw [isMarked, Json.get?_insert_self_of_isObj h, Option.isSome_some]

theorem markersOf_singleton (block : Json) : markersOf [block] = if isMarked block then 1 else 0 :=
  List.countP_singleton

/-- What the move leaves. -/
def PushCareful (allowMany : Bool) (body : Json) : Prop :=
  ∀ messages, body.getArr? "messages" = some messages → ∃ messages',
    (pushToTail body allowMany).1.getArr? "messages" = some messages' ∧
      EditCareful (markerCount messages) messages messages'

/-- The move keeps reasoning if and only if the marker neither leaves a reasoning block nor lands on one. -/
theorem pushCareful_iff_pushes (allowMany : Bool) (body : Json) :
    PushCareful allowMany body ↔ ∀ messages, body.getArr? "messages" = some messages → ∀ from_ to_,
      Pushes allowMany messages from_ to_ → isThinkingBlock from_ = false ∧ isThinkingBlock to_ = false := by
  refine forall₂_congr fun messages hmessages => ?_
  have hrefl (b : Json) : Remarked b b ∧ ReasoningKept b b := ⟨rfl, fun _ => rfl⟩
  obtain ⟨hsame, hno⟩ | ⟨from_, to_, hfrom, hto, hmarked, hfree, hobj, hpushes, marker, hpush⟩ :=
    pushToTail_cases hmessages allowMany
  · refine ⟨fun _ a b h => absurd h (hno a b), fun _ => ⟨messages, by rw [hsame, hmessages], ?_, le_rfl⟩⟩
    exact contentKept_of_related (BlocksRelated.refl hrefl messages)
  · have hread (messages' : List Json) : (body.insert "messages" (.arr messages')).getArr? "messages" =
        some messages' := by
      obtain ⟨value, hvalue, -⟩ := Option.bind_eq_some_iff.1 hmessages
      rw [Json.getArr?, Json.get?_insert_self hvalue]
      rfl
    have hne : from_.1 ≠ to_.1 := by
      intro heq
      rw [heq, hto] at hfrom
      rw [← Option.some.inj hfrom, hfree] at hmarked
      cases hmarked
    have hto' : blockAt (modifyBlock from_.1 (Json.remove "cache_control") messages) to_.1 = some to_.2 := by
      rw [blockAt_modifyBlock, if_neg hne, hto]
    constructor
    · rintro ⟨messages', hmessages', hcareful⟩ a b hab
      obtain ⟨rfl, rfl⟩ := (hpushes a b).1 hab
      rw [hpush] at hmessages'
      obtain rfl := Option.some.inj ((hread _).symm.trans hmessages')
      constructor
      · by_contra hthinking
        have hblock := blockAt_of_contentKept hcareful.kept hfrom (by simpa using hthinking)
        rw [blockAt_modifyBlock, if_neg hne.symm, blockAt_modifyBlock, if_pos rfl, hfrom, Option.map_some] at hblock
        rw [← Option.some.inj hblock, isMarked_remove] at hmarked
        cases hmarked
      · by_contra hthinking
        have hblock := blockAt_of_contentKept hcareful.kept hto (by simpa using hthinking)
        rw [blockAt_modifyBlock, if_pos rfl, hto', Option.map_some] at hblock
        rw [← Option.some.inj hblock, isMarked_insert hobj] at hfree
        cases hfree
    · intro hfine
      obtain ⟨hfromThinking, htoThinking⟩ := hfine _ _ ((hpushes _ _).2 ⟨rfl, rfl⟩)
      refine ⟨_, by rw [hpush, hread], contentKept_of_related ?_, ?_⟩
      · refine BlocksRelated.trans (fun a b c hab hbc => ⟨hbc.1.trans hab.1, fun ha => ?_⟩)
          (blocksRelated_modifyBlock hrefl fun b hb => ?_) (blocksRelated_modifyBlock hrefl fun b hb => ?_)
        · have hb := hab.2 ha
          rw [hbc.2 (hb ▸ ha), hb]
        · obtain rfl := Option.some.inj (hfrom.symm.trans hb)
          exact ⟨remarked_remove _, fun h => by rw [hfromThinking] at h; cases h⟩
        · obtain rfl := Option.some.inj (hto'.symm.trans hb)
          exact ⟨remarked_insert _ marker, fun h => by rw [htoThinking] at h; cases h⟩
      · have hfirst := markerCount_modifyBlock (Json.remove "cache_control") hfrom
        have hsecond := markerCount_modifyBlock (fun b => b.insert "cache_control" marker) hto'
        rw [markersOf_singleton, markersOf_singleton, hmarked, isMarked_remove] at hfirst
        rw [markersOf_singleton, markersOf_singleton, hfree, isMarked_insert hobj] at hsecond
        simp only [Bool.false_eq_true, if_true, if_false] at hfirst hsecond
        omega

/-! ### The placement -/

theorem not_isThinkingBlock_of_isTextBlock (h : isTextBlock block = true) :
    isThinkingBlock block = false := by
  have htype : block.getStr? "type" = some "text" := by simpa [isTextBlock] using h
  rw [isThinkingBlock, htype]
  decide

theorem scanBlocks_spec (live : Bool) (blocks : List Json) (idx : ℕ) (sealed_ : Bool) (last : Option ℕ) {k : ℕ}
    (h : (scanBlocks live idx sealed_ last blocks).2 = some k) :
    last = some k ∨ ∃ j block, k = idx + j ∧ blocks[j]? = some block ∧ carriesMarker block = true := by
  induction blocks generalizing idx sealed_ last with
  | nil => exact .inl h
  | cons block blocks ih =>
    have hlater (last' : Option ℕ) (hlast' : last' = last ∨ last' = some idx ∧ carriesMarker block = true)
        (hk : last' = some k ∨ ∃ j b, k = idx + 1 + j ∧ blocks[j]? = some b ∧ carriesMarker b = true) :
        last = some k ∨ ∃ j b, k = idx + j ∧ (block :: blocks)[j]? = some b ∧ carriesMarker b = true := by
      obtain hk | ⟨j, b, rfl, hb, hcarries⟩ := hk
      · obtain rfl | ⟨rfl, hcarries⟩ := hlast'
        · exact .inl hk
        · obtain rfl := Option.some.inj hk
          exact .inr ⟨0, block, rfl, rfl, hcarries⟩
      · exact .inr ⟨j + 1, b, by omega, by simpa using hb, hcarries⟩
    rw [scanBlocks] at h
    split_ifs at h with hsealed hcarries
    · exact hlater last (.inl rfl) (ih _ _ _ h)
    · exact hlater (some idx) (.inr ⟨rfl, hcarries⟩) (ih _ _ _ h)
    · exact hlater last (.inl rfl) (ih _ _ _ h)

/-- A place in a settled message that is not reasoning. -/
def Placeable (message : Json) (blockIdx : ℕ) : Prop :=
  ∀ block, ((contentOf (settle message)).getD [])[blockIdx]? = some block → isThinkingBlock block = false

variable {target : CacheTarget}

theorem placeable_of_scanMessage {live sealed_ : Bool} {i : ℕ} {message : Json}
    (h : (scanMessage live sealed_ i message).2 = some target) :
    target.messageIdx = i ∧ Placeable message target.blockIdx := by
  rw [scanMessage] at h
  split at h
  · obtain ⟨k, hk, rfl⟩ := Option.map_eq_some_iff.1 h
    refine ⟨rfl, fun block hblock => ?_⟩
    obtain hno | ⟨j, b, rfl, hb, hcarries⟩ := scanBlocks_spec _ _ _ _ _ hk
    · cases hno
    · rw [Nat.zero_add] at hblock
      obtain rfl := Option.some.inj (hb.symm.trans hblock)
      have hboth : (b.isObj && !isProactiveExpansionBlock b) = true ∧ (!isThinkingBlock b) = true := by
        rwa [← Bool.and_eq_true]
      simpa using hboth.2
  · rename_i text htext
    dsimp only at h
    split_ifs at h with heligible
    · obtain rfl := Option.some.inj h
      refine ⟨rfl, fun block hblock => ?_⟩
      have hsettle : settle message = message.insert "content" (.arr [textBlock text]) := by
        simp only [settle, htext]
        rw [if_pos (Bool.and_eq_true_iff.1 heligible).2]
      rw [hsettle, contentOf, Json.getArr?, Json.get?_insert_self htext] at hblock
      obtain rfl : textBlock text = block := Option.some.inj hblock
      simp [isThinkingBlock, textBlock, Json.getStr?, Json.get?, Json.asStr?]
  · cases h

theorem placeable_of_mem_cacheableTargets {finalMessage : ℕ} {latestUserMessage : Option ℕ} {i : ℕ}
    {sealed_ : Bool} (h : target ∈ cacheableTargets finalMessage latestUserMessage i sealed_ messages) :
    ∃ j message, target.messageIdx = i + j ∧ messages[j]? = some message ∧ Placeable message target.blockIdx := by
  induction messages generalizing i sealed_ with
  | nil => cases h
  | cons message messages ih =>
    rw [cacheableTargets] at h
    obtain h | h := List.mem_append.1 h
    · obtain ⟨hi, hplaceable⟩ := placeable_of_scanMessage (Option.mem_toList.1 h)
      exact ⟨0, message, hi, rfl, hplaceable⟩
    · obtain ⟨j, message', hj, hmessage', hplaceable⟩ := ih h
      exact ⟨j + 1, message', by omega, by simpa using hmessage', hplaceable⟩

theorem not_thinking_of_openingScaffoldingTarget (h : openingScaffoldingTarget messages = some target)
    (hblock : blockAt messages (target.messageIdx, target.blockIdx) = some block) :
    isThinkingBlock block = false := by
  cases messages with
  | nil => cases h
  | cons first messages =>
    rw [openingScaffoldingTarget] at h
    split_ifs at h with hrole
    cases hcontent : first.getArr? "content" with
    | none =>
      rw [hcontent] at h
      cases h
    | some blocks =>
      rw [hcontent] at h
      dsimp only at h
      split_ifs at h with hrun
      obtain rfl := Option.some.inj h
      have hat : blocks[(blocks.takeWhile isEphemeralClientBlock).length - 1]? = some block := by
        simpa [blockAt, contentOf, hcontent] using hblock
      have hshort : (blocks.takeWhile isEphemeralClientBlock).length - 1 <
          (blocks.takeWhile isEphemeralClientBlock).length := by omega
      have hrunAt : (blocks.takeWhile isEphemeralClientBlock ++ blocks.dropWhile isEphemeralClientBlock)[
          (blocks.takeWhile isEphemeralClientBlock).length - 1]? = (blocks.takeWhile isEphemeralClientBlock)[
          (blocks.takeWhile isEphemeralClientBlock).length - 1]? := List.getElem?_append_left hshort
      rw [List.takeWhile_append_dropWhile, hat] at hrunAt
      have hmem : block ∈ blocks.takeWhile isEphemeralClientBlock := List.mem_of_getElem? hrunAt.symm
      have hephemeral := List.mem_takeWhile_imp hmem
      exact not_isThinkingBlock_of_isTextBlock (Bool.and_eq_true_iff.1 hephemeral).1

/-- A block as a placement leaves it. -/
def Placed (block block' : Json) : Prop :=
  Remarked block block' ∧ ReasoningKept block block' ∧ isThinkingBlock block' = isThinkingBlock block

theorem Placed.trans {a b c : Json} (h : Placed a b) (h' : Placed b c) : Placed a c := by
  refine ⟨h'.1.trans h.1, fun ha => ?_, h'.2.2.trans h.2.2⟩
  have hb := h.2.1 ha
  rw [h'.2.1 (hb ▸ ha), hb]

theorem isThinkingBlock_insert (block marker : Json) :
    isThinkingBlock (block.insert "cache_control" marker) = isThinkingBlock block := by
  have htype : (block.insert "cache_control" marker).getStr? "type" = block.getStr? "type" := by
    rw [Json.getStr?, Json.get?_insert_of_ne (by decide), Json.getStr?]
  rw [isThinkingBlock, isThinkingBlock, htype]

theorem placeMarker_fst (placed : List Json × ℕ) (target : CacheTarget) :
    (placeMarker placed target).1 = modifyBlock (target.messageIdx, target.blockIdx)
      (fun b => b.insert "cache_control" ephemeralMarker) placed.1 := by
  have hmark : markMessage target.blockIdx = modifyContent target.blockIdx fun b =>
      b.insert "cache_control" ephemeralMarker := by
    funext message
    rw [markMessage, modifyContent, contentOf, Json.getArr?]
    cases hcontent : message.get? "content" with
    | none => rfl
    | some content => cases content <;> rfl
  rw [placeMarker, hmark]
  rfl

theorem placed_foldl (settled : List Json) (targets : List CacheTarget) (placed : List Json × ℕ)
    (htargets : ∀ target ∈ targets, ∀ block, blockAt settled (target.messageIdx, target.blockIdx) = some block →
      isThinkingBlock block = false) (hplaced : BlocksRelated Placed settled placed.1) :
    BlocksRelated Placed settled (targets.foldl placeMarker placed).1 ∧
      markerCount (targets.foldl placeMarker placed).1 ≤ markerCount placed.1 + targets.length := by
  induction targets generalizing placed with
  | nil => exact ⟨hplaced, le_rfl⟩
  | cons target targets ih =>
    obtain ⟨htarget, hrest⟩ := List.forall_mem_cons.1 htargets
    have hstep : BlocksRelated Placed placed.1 (placeMarker placed target).1 := by
      rw [placeMarker_fst]
      refine blocksRelated_modifyBlock (fun b => ⟨rfl, fun _ => rfl, rfl⟩) fun b hb =>
        ⟨remarked_insert b _, fun hthinking => ?_, isThinkingBlock_insert b _⟩
      have hrel := hplaced.blockAt (target.messageIdx, target.blockIdx)
      rw [hb] at hrel
      obtain ⟨block, hblock, hplace⟩ : ∃ block,
          blockAt settled (target.messageIdx, target.blockIdx) = some block ∧ Placed block b := by
        generalize blockAt settled (target.messageIdx, target.blockIdx) = o at *
        cases hrel with
        | some hplace => exact ⟨_, rfl, hplace⟩
      rw [hplace.2.2, htarget block hblock] at hthinking
      cases hthinking
    obtain ⟨hrelated, hcount⟩ := ih (placeMarker placed target) hrest
      (hplaced.trans (fun _ _ _ => Placed.trans) hstep)
    refine ⟨hrelated, hcount.trans ?_⟩
    have hone := markerCount_modifyBlock_le placed.1 (target.messageIdx, target.blockIdx) fun b =>
      b.insert "cache_control" ephemeralMarker
    rw [placeMarker_fst, List.length_cons]
    omega

/-- A settled message of blocks has those blocks without their markers. -/
theorem contentOf_settle {message : Json} {content : List Json} (h : contentOf message = some content) :
    contentOf (settle message) = some (content.map fun b => b.remove "cache_control") := by
  obtain ⟨value, hvalue, harr⟩ := Option.bind_eq_some_iff.1 h
  obtain rfl : value = .arr content := by
    cases value with
    | arr items => exact congrArg Json.arr (Option.some.inj harr)
    | _ => cases harr
  rw [settle_of_arr hvalue, withoutMarkers_of_arr hvalue, contentOf, Json.getArr?, Json.get?_insert_self hvalue]
  rfl

theorem markersOf_settle (message : Json) : markersOf ((contentOf (settle message)).getD []) = 0 := by
  rw [markersOf, List.countP_eq_zero]
  intro block hblock
  obtain ⟨content, harr⟩ | ⟨text, htext, -, hsettle⟩ | ⟨hsame, hsettled⟩ := settle_cases message
  · rw [contentOf_settle (by rw [contentOf, Json.getArr?, harr]; rfl), Option.getD_some] at hblock
    obtain ⟨b, -, rfl⟩ := List.mem_map.1 hblock
    rw [isMarked_remove]
    exact Bool.false_ne_true
  · rw [hsettle, contentOf, Json.getArr?, Json.get?_insert_self htext] at hblock
    obtain rfl : block = textBlock text := List.mem_singleton.1 hblock
    simp [isMarked, textBlock, Json.get?]
  · cases hcontent : contentOf message with
    | none =>
      rw [hsame, hcontent] at hblock
      cases hblock
    | some content =>
      rw [contentOf_settle hcontent, Option.getD_some] at hblock
      obtain ⟨b, -, rfl⟩ := List.mem_map.1 hblock
      rw [isMarked_remove]
      exact Bool.false_ne_true

section

variable (messages : List Json) (tailSlots : ℕ) (scaffold : Bool)

theorem placed_place :
    BlocksRelated Placed (messages.map settle) (placeTailCacheBreakpoints messages tailSlots scaffold).1 ∧
      markerCount (placeTailCacheBreakpoints messages tailSlots scaffold).1 ≤
        tailSlots + if scaffold then 1 else 0 := by
  simp only [placeTailCacheBreakpoints]
  generalize htargets : cacheableTargets _ _ 0 false messages = targets
  generalize hscaffold : (if scaffold then openingScaffoldingTarget (messages.map settle) else none) = first
  have hplaced := placed_foldl (messages.map settle) (first.toList ++ targets.reverse.take tailSlots)
    (messages.map settle, 0) ?_ (BlocksRelated.refl (fun b => ⟨rfl, fun _ => rfl, rfl⟩) _)
  · refine ⟨hplaced.1, hplaced.2.trans ?_⟩
    have hnone : markerCount (messages.map settle) = 0 := by
      rw [markerCount, List.map_map]
      exact List.sum_eq_zero fun n hn => by
        obtain ⟨m, -, rfl⟩ := List.mem_map.1 hn
        exact markersOf_settle m
    have hfirst : first.toList.length ≤ if scaffold then 1 else 0 := by
      subst hscaffold
      cases scaffold
      · simp
      · rw [if_pos rfl, if_pos rfl]
        cases openingScaffoldingTarget (messages.map settle) <;> simp
    rw [hnone, List.length_append, List.length_take]
    omega
  · intro target htarget block hblock
    obtain htarget | htarget := List.mem_append.1 htarget
    · rw [← hscaffold] at htarget
      cases scaffold
      · cases Option.mem_toList.1 htarget
      · exact not_thinking_of_openingScaffoldingTarget (Option.mem_toList.1 htarget) hblock
    · subst htargets
      obtain ⟨j, message, hj, hmessage, hplaceable⟩ := placeable_of_mem_cacheableTargets
        (List.mem_reverse.1 ((List.take_sublist _ _).subset htarget))
      refine hplaceable block ?_
      rw [Nat.zero_add] at hj
      rw [blockAt, hj, List.getElem?_map, hmessage, Option.map_some, Option.bind_some] at hblock
      cases hcontent : contentOf (settle message) with
      | none =>
        rw [hcontent] at hblock
        cases hblock
      | some content => rwa [hcontent] at hblock

/-- What the placement leaves. -/
def PlaceCareful : Prop :=
  EditCareful (tailSlots + if scaffold then 1 else 0) messages
    (placeTailCacheBreakpoints messages tailSlots scaffold).1

theorem placeCareful_iff_unmarked
    (hdistinct : ∀ message ∈ messages, ∀ content, contentOf message = some content →
      ∀ block ∈ content, block.Distinct) :
    PlaceCareful messages tailSlots scaffold ↔ ∀ message ∈ messages, ∀ content, contentOf message = some content →
      ∀ block ∈ content, isThinkingBlock block = true → isMarked block = false := by
  obtain ⟨hrelated, hbudget⟩ := placed_place messages tailSlots scaffold
  constructor
  · intro hcareful message hmessage content hcontent block hblock hthinking
    obtain ⟨m, hm⟩ := List.mem_iff_getElem?.1 hmessage
    obtain ⟨i, hi⟩ := List.mem_iff_getElem?.1 hblock
    have hat : blockAt messages (m, i) = some block := by
      rw [blockAt, hm, Option.bind_some, hcontent, Option.bind_some, hi]
    have hsettled : blockAt (messages.map settle) (m, i) = some (block.remove "cache_control") := by
      rw [blockAt, List.getElem?_map, hm, Option.map_some, Option.bind_some, contentOf_settle hcontent,
        Option.bind_some, List.getElem?_map, hi, Option.map_some]
    have hbare : isThinkingBlock (block.remove "cache_control") = true := by
      have htype : (block.remove "cache_control").getStr? "type" = block.getStr? "type" := by
        rw [Json.getStr?, Json.get?_remove_of_ne (hdistinct message hmessage content hcontent block hblock)
          (by decide), Json.getStr?]
      rw [isThinkingBlock, htype]
      exact hthinking
    have hrel := hrelated.blockAt (m, i)
    rw [hsettled, blockAt_of_contentKept hcareful.kept hat hthinking] at hrel
    cases hrel with
    | some hplace => rw [hplace.2.1 hbare, isMarked_remove]
  · intro hunmarked
    refine ⟨?_, hbudget⟩
    rw [BlocksRelated, List.forall₂_map_left_iff] at hrelated
    refine List.forall₂_iff_zip.2 ⟨hrelated.length_eq, fun {message message'} hzip content hcontent => ?_⟩
    have hmem := (List.of_mem_zip hzip).1
    have hrel := (List.forall₂_iff_zip.1 hrelated).2 hzip
    rw [contentOf_settle hcontent] at hrel
    obtain ⟨content', hcontent', hall⟩ : ∃ content', contentOf message' = some content' ∧
        List.Forall₂ Placed (content.map fun b => b.remove "cache_control") content' := by
      generalize contentOf message' = c at *
      cases hrel with
      | some hall => exact ⟨_, rfl, hall⟩
    rw [List.forall₂_map_left_iff] at hall
    refine ⟨content', hcontent', ?_, fun hne hnil => hne ?_⟩
    · refine List.forall₂_iff_zip.2 ⟨hall.length_eq, fun {block block'} hpair => ?_⟩
      have hplace := (List.forall₂_iff_zip.1 hall).2 hpair
      refine ⟨hplace.1.trans (remarked_remove block), fun hthinking => ?_⟩
      have hfree := hunmarked message hmem content hcontent block (List.of_mem_zip hpair).1 hthinking
      have hsame : block.remove "cache_control" = block :=
        Json.remove_of_get?_eq_none (Option.not_isSome_iff_eq_none.1 (by rw [← isMarked, hfree]; exact Bool.false_ne_true))
      rw [hsame] at hplace
      exact hplace.2.1 hthinking
    · subst hnil
      exact List.forall₂_nil_right_iff.1 hall

end

/-! ### The three passes -/

/-- Each pass over the markers keeps the blocks in order, reasoning as it was, no message emptied and the markers
within its budget, exactly when: no marker of a dropped block lands on a reasoning block, or on what cannot have
one; the marker that moves neither leaves a reasoning block nor lands on one; and the client put no marker on a
reasoning block of the messages whose markers are placed anew. -/
theorem markerMoves_iff (doomed : Json → Bool) (allowMany : Bool) (body : Json) (messages : List Json)
    (tailSlots : ℕ) (scaffold : Bool)
    (hdistinct : ∀ message ∈ messages, ∀ content, contentOf message = some content →
      ∀ block ∈ content, block.Distinct) :
    (DropCareful doomed body ↔ ∀ ms, body.getArr? "messages" = some ms → ∀ message ∈ ms,
      ∀ content, contentOf message = some content → LandsWell doomed content) ∧
    (PushCareful allowMany body ↔ ∀ ms, body.getArr? "messages" = some ms → ∀ from_ to_,
      Pushes allowMany ms from_ to_ → isThinkingBlock from_ = false ∧ isThinkingBlock to_ = false) ∧
    (PlaceCareful messages tailSlots scaffold ↔ ∀ message ∈ messages, ∀ content, contentOf message = some content →
      ∀ block ∈ content, isThinkingBlock block = true → isMarked block = false) :=
  ⟨dropCareful_iff_landsWell doomed body, pushCareful_iff_pushes allowMany body,
    placeCareful_iff_unmarked messages tailSlots scaffold hdistinct⟩

namespace Sample

/-- Reasoning of another provider, with a cache breakpoint. -/
def markedThought : Json :=
  .obj [("type", .str "thinking"), ("thinking", .str "so"), ("signature", .str "headroom:codex:v1:e30"),
    ("cache_control", .obj [("type", .str "ephemeral")])]

def markedText : Json :=
  .obj [("type", .str "text"), ("text", .str "hi"), ("cache_control", .obj [("type", .str "ephemeral")])]

def reply (content : List Json) : Json := .obj [("role", .str "assistant"), ("content", .arr content)]

end Sample

theorem placeCareful_thought :
    PlaceCareful [Sample.reply [Sample.thought "a", Sample.markedText]] 1 false := by
  refine (markerMoves_iff (fun _ => false) false .null [Sample.reply [Sample.thought "a", Sample.markedText]] 1
    false ?_).2.2.2 ?_
  · intro message hmessage content hcontent
    obtain rfl := List.mem_singleton.1 hmessage
    obtain rfl : [Sample.thought "a", Sample.markedText] = content := Option.some.inj hcontent
    decide
  · intro message hmessage content hcontent
    obtain rfl := List.mem_singleton.1 hmessage
    obtain rfl : [Sample.thought "a", Sample.markedText] = content := Option.some.inj hcontent
    decide

/-- A dropped marker lands on the signed block behind it, and the marker of a continuation on the reasoning at
the tail. -/
theorem not_careful_signed :
    ¬ DropCareful isHeadroomSignedReasoning (Sample.body [Sample.markedThought, Sample.thought "a"]) ∧
      ¬ PushCareful false (Sample.body [Sample.markedText, Sample.thought "a"]) := by
  constructor
  · rw [dropCareful_iff_landsWell]
    intro h
    have hland := h _ rfl _ List.mem_cons_self _ rfl [Sample.markedThought] (Sample.thought "a") [] rfl
      ⟨by decide, by decide, .inl (by decide)⟩
    exact absurd hland.2 (by decide)
  · rw [pushCareful_iff_pushes]
    intro h
    have hpush := h _ rfl Sample.markedText (Sample.thought "a") ⟨[], [], by decide, by decide, by decide,
      .inr (by decide)⟩
    exact absurd hpush.2 (by decide)

end Headroom.Reasoning
