import Mathlib.Algebra.Order.BigOperators.Group.List
import Headroom.Foundation.JsonObject
import Headroom.Foundation.Threading
import Headroom.Reasoning.SignedBlocks

/-!
# Markers of dropped reasoning

A pass drops some reasoning blocks of a body. The `cache_control` marker of a dropped block rides on to the next
block that survives, or to the last one when none follows; a block that has a marker keeps its own. A message
with nothing but such blocks stays.
-/

open Foundation

namespace Headroom.Reasoning

open PrefixReplay (isThinkingBlock)

/-! ### Markers -/

def isMarked (block : Json) : Bool := (block.get? "cache_control").isSome

/-- A step at which the source stops. -/
inductive Panic where
  | unindexable
  deriving DecidableEq

/-- The field of a block set to a marker: an object takes it, `null` becomes one. -/
def setMarker (marker : Json) : Json → Except Panic Json
  | .obj fields => .ok ((Json.obj fields).insert "cache_control" marker)
  | .null => .ok (.obj [("cache_control", marker)])
  | _ => .error .unindexable

/-- A carried marker lands on a block, unless it has one. -/
def land (carried : Option Json) (block : Json) : Except Panic Json :=
  match carried with
  | some marker => if isMarked block then .ok block else setMarker marker block
  | none => .ok block

/-- The blocks that survive, and the marker that is still carried. -/
def carryBlocks (doomed : Json → Bool) : Option Json → List Json → Except Panic (List Json × Option Json)
  | carried, [] => .ok ([], carried)
  | carried, block :: blocks =>
    if doomed block then carryBlocks doomed ((block.get? "cache_control").or carried) blocks
    else do
      let block ← land carried block
      let (kept, carried) ← carryBlocks doomed none blocks
      return (block :: kept, carried)

/-- The content of a message without its doomed blocks, unless they are all it has. -/
def dropBlocks (doomed : Json → Bool) (content : List Json) : Except Panic (List Json) :=
  if content.all doomed then .ok content
  else do
    let (kept, carried) ← carryBlocks doomed none content
    match kept.getLast? with
    | some last => do
      let last ← land carried last
      return kept.dropLast ++ [last]
    | none => return kept

def dropMessage (doomed : Json → Bool) (message : Json) : Except Panic Json :=
  match message.getArr? "content" with
  | none => .ok message
  | some content => do
    let kept ← dropBlocks doomed content
    return message.insert "content" (.arr kept)

/-- The blocks that survive in a message. -/
def survivors (doomed : Json → Bool) (content : List Json) : List Json :=
  if content.all doomed then content else content.filter fun block => !doomed block

/-- How many blocks a message loses. -/
def droppedOf (doomed : Json → Bool) (message : Json) : ℕ :=
  match message.getArr? "content" with
  | none => 0
  | some content => content.length - (survivors doomed content).length

/-- A parsed body without the blocks that the predicate claims, and how many there were; nothing when there were
none. -/
def dropReasoningBlocksWhere (doomed : Json → Bool) (v : Json) : Except Panic (Option (Json × ℕ)) :=
  match v.getArr? "messages" with
  | none => .ok none
  | some messages => do
    let messages' ← messages.mapM (dropMessage doomed)
    let dropped := (messages.map (droppedOf doomed)).sum
    return if dropped = 0 then none else some (v.insert "messages" (.arr messages'), dropped)

/-! ### What a pass owes to the blocks -/

/-- A block without its marker; `null` is an object without fields. -/
def bare : Json → Json
  | .null => .obj []
  | block => block.remove "cache_control"

/-- A block as it was, its marker aside. -/
def Remarked (block block' : Json) : Prop := bare block' = bare block

/-- A reasoning block as it was. -/
def ReasoningKept (block block' : Json) : Prop := isThinkingBlock block = true → block' = block

/-- The markers on the blocks of some content. -/
abbrev markersOf (content : List Json) : ℕ := content.countP isMarked

/-- The markers on the blocks of some messages. -/
def markerCount (messages : List Json) : ℕ :=
  (messages.map fun m => markersOf ((m.getArr? "content").getD [])).sum

/-- The blocks of one message after a pass: the survivors in order, reasoning as it was. -/
def ContentKept (survivors : List Json → List Json) (message message' : Json) : Prop :=
  ∀ content, message.getArr? "content" = some content →
    ∃ content', message'.getArr? "content" = some content' ∧
      List.Forall₂ (fun b b' => Remarked b b' ∧ ReasoningKept b b') (survivors content) content' ∧
      (content ≠ [] → content' ≠ [])

/-- A pass over the markers keeps the surviving blocks and stays within its budget. -/
structure Careful (survivors : List Json → List Json) (budget : ℕ) (messages messages' : List Json) :
    Prop where
  kept : List.Forall₂ (ContentKept survivors) messages messages'
  markers : markerCount messages' ≤ budget

/-! ### Landing -/

/-- The block behind `before` takes over the marker of a dropped block: one of the run before it, or one of those
that end the message. -/
def Lands (doomed : Json → Bool) (before : List Json) (block : Json) (after : List Json) : Prop :=
  doomed block = false ∧ isMarked block = false ∧
    ((before.reverse.takeWhile doomed).any isMarked = true ∨
      after.all doomed = true ∧ after.any isMarked = true)

/-- A block on which a marker may be put. -/
def MayLand (block : Json) : Prop := (block.isObj = true ∨ block = .null) ∧ isThinkingBlock block = false

/-- No marker of a dropped block lands where it may not. -/
def LandsWell (doomed : Json → Bool) (content : List Json) : Prop :=
  ∀ before block after, content = before ++ block :: after → Lands doomed before block after → MayLand block

theorem setMarker_cases (marker block : Json) :
    (∃ fields, block = .obj fields ∧ setMarker marker block = .ok (block.insert "cache_control" marker)) ∨
      block = .null ∧ setMarker marker block = .ok (.obj [("cache_control", marker)]) ∨
        ¬ (block.isObj = true ∨ block = .null) ∧ setMarker marker block = .error .unindexable := by
  cases block with
  | obj fields => exact .inl ⟨fields, rfl, rfl⟩
  | null => exact .inr (.inl ⟨rfl, rfl⟩)
  | bool b => exact .inr (.inr ⟨by simp [Json.isObj], rfl⟩)
  | num literal => exact .inr (.inr ⟨by simp [Json.isObj], rfl⟩)
  | str s => exact .inr (.inr ⟨by simp [Json.isObj], rfl⟩)
  | arr items => exact .inr (.inr ⟨by simp [Json.isObj], rfl⟩)

variable {block : Json}

theorem isMarked_setMarker {marker block block' : Json} (h : setMarker marker block = .ok block') :
    isMarked block' = true := by
  obtain ⟨fields, rfl, hset⟩ | ⟨rfl, hset⟩ | ⟨-, hset⟩ := setMarker_cases marker block
  · obtain rfl := Except.ok.inj (hset.symm.trans h)
    rw [isMarked, Json.get?_insert_self_of_isObj rfl, Option.isSome_some]
  · obtain rfl := Except.ok.inj (hset.symm.trans h)
    simp [isMarked, Json.get?]
  · rw [hset] at h
    cases h

theorem land_land (carried carried' : Option Json) (block : Json) :
    ((land carried block).bind fun block' => land carried' block') = land (carried.or carried') block := by
  cases carried with
  | none => rfl
  | some marker =>
    rw [Option.some_or]
    by_cases hmarked : isMarked block = true
    · have hkeep (carried : Option Json) : land carried block = .ok block := by
        cases carried with
        | none => rfl
        | some marker => exact if_pos hmarked
      rw [hkeep (some marker)]
      exact hkeep carried'
    · show ((if isMarked block then .ok block else setMarker marker block).bind _) = if isMarked block then _ else _
      rw [if_neg hmarked]
      cases hset : setMarker marker block with
      | error e => rfl
      | ok block' =>
        show land carried' block' = .ok block'
        cases carried' with
        | none => rfl
        | some marker' => exact if_pos (isMarked_setMarker hset)

/-- A block that takes over a marker keeps its reasoning if and only if it may have the marker. -/
theorem land_iff (carried : Option Json) (block : Json) :
    (∃ block', land carried block = .ok block' ∧ ReasoningKept block block') ↔
      (carried.isSome = true → isMarked block = false → MayLand block) := by
  cases carried with
  | none =>
    refine ⟨fun _ h => ?_, fun _ => ⟨block, rfl, fun _ => rfl⟩⟩
    cases h
  | some marker =>
    by_cases hmarked : isMarked block = true
    · refine ⟨fun _ _ h => ?_, fun _ => ⟨block, if_pos hmarked, fun _ => rfl⟩⟩
      rw [hmarked] at h
      cases h
    · have hland : land (some marker) block = setMarker marker block := if_neg hmarked
      rw [Bool.not_eq_true] at hmarked
      simp only [hland, Option.isSome_some, hmarked, forall_const]
      constructor
      · rintro ⟨block', hset, hkept⟩
        have hthinking : isThinkingBlock block = false := by
          rw [← Bool.not_eq_true]
          intro h
          have hmark := isMarked_setMarker hset
          rw [hkept h, hmarked] at hmark
          cases hmark
        refine ⟨?_, hthinking⟩
        by_contra hno
        obtain ⟨fields, rfl, -⟩ | ⟨rfl, -⟩ | ⟨-, herror⟩ := setMarker_cases marker block
        · exact hno (.inl rfl)
        · exact hno (.inr rfl)
        · rw [herror] at hset
          cases hset
      · rintro ⟨hsort, hthinking⟩
        obtain ⟨fields, -, hset⟩ | ⟨-, hset⟩ | ⟨hno, -⟩ := setMarker_cases marker block
        · exact ⟨_, hset, fun h => by rw [hthinking] at h; cases h⟩
        · exact ⟨_, hset, fun h => by rw [hthinking] at h; cases h⟩
        · exact absurd hsort hno

variable {carried : Option Json}

theorem remarked_of_land {block block' : Json} (h : land carried block = .ok block') :
    Remarked block block' := by
  cases carried with
  | none =>
    obtain rfl := Except.ok.inj h
    exact rfl
  | some marker =>
    by_cases hmarked : isMarked block = true
    · obtain rfl := Except.ok.inj ((if_pos hmarked).symm.trans h)
      exact rfl
    · have hset : setMarker marker block = .ok block' := (if_neg hmarked).symm.trans h
      obtain ⟨fields, rfl, hok⟩ | ⟨rfl, hok⟩ | ⟨-, herror⟩ := setMarker_cases marker block
      · obtain rfl := Except.ok.inj (hok.symm.trans hset)
        exact Json.remove_insert_self (j := .obj fields)
      · obtain rfl := Except.ok.inj (hok.symm.trans hset)
        show Json.obj (Json.removeField "cache_control" [("cache_control", marker)]) = .obj []
        simp [Json.removeField]
      · rw [herror] at hset
        cases hset

theorem markers_of_land {block block' : Json} (h : land carried block = .ok block') :
    markersOf [block'] ≤ markersOf [block] + carried.toList.length := by
  cases carried with
  | none =>
    obtain rfl := Except.ok.inj h
    exact Nat.le_add_right _ _
  | some marker =>
    have hone : markersOf [block'] ≤ 1 := List.countP_le_length
    rw [Option.toList_some, List.length_singleton]
    omega

/-! ### Carrying -/

/-- The blocks that end some content have a marker among those dropped. -/
def runMarked (doomed : Json → Bool) (before : List Json) : Bool :=
  (before.reverse.takeWhile doomed).any isMarked

theorem runMarked_cons (doomed : Json → Bool) (block : Json) (before : List Json) :
    runMarked doomed (block :: before) =
      (runMarked doomed before || before.all doomed && (doomed block && isMarked block)) := by
  rw [runMarked, runMarked, List.reverse_cons, List.takeWhile_append]
  by_cases hall : ∀ x ∈ before, doomed x = true
  · have hself : before.reverse.takeWhile doomed = before.reverse :=
      List.takeWhile_eq_self_iff.2 fun x hx => hall x (List.mem_reverse.1 hx)
    rw [hself, if_pos rfl, List.any_append, List.all_eq_true.2 hall, Bool.true_and]
    cases hdoomed : doomed block <;> simp [hdoomed]
  · have hshort : (before.reverse.takeWhile doomed).length ≠ before.reverse.length := by
      intro hlength
      refine hall fun x hx => ?_
      have hsame := (List.takeWhile_prefix doomed).eq_of_length hlength
      exact List.takeWhile_eq_self_iff.1 hsame x (List.mem_reverse.2 hx)
    have hno : before.all doomed = false := by
      rw [← Bool.not_eq_true, List.all_eq_true]
      exact hall
    rw [if_neg hshort, hno, Bool.false_and, Bool.or_false]

variable {doomed : Json → Bool}

theorem carryBlocks_of_doomed (h : doomed block = true)
    (carried : Option Json) (blocks : List Json) :
    carryBlocks doomed carried (block :: blocks) =
      carryBlocks doomed ((block.get? "cache_control").or carried) blocks := by
  rw [carryBlocks, if_pos h]

theorem carryBlocks_of_kept (h : doomed block = false)
    (carried : Option Json) (blocks : List Json) :
    carryBlocks doomed carried (block :: blocks) = (land carried block).bind fun block' =>
      (carryBlocks doomed none blocks).bind fun rest => .ok (block' :: rest.1, rest.2) := by
  rw [carryBlocks, if_neg (by rw [h]; exact Bool.false_ne_true)]
  rfl

variable {carried' : Option Json} {blocks kept : List Json}

theorem carryBlocks_of_kept_ok (hblock : doomed block = false)
    (h : carryBlocks doomed carried (block :: blocks) = .ok (kept, carried')) :
    ∃ block' rest, land carried block = .ok block' ∧ carryBlocks doomed none blocks = .ok (rest, carried') ∧
      kept = block' :: rest := by
  rw [carryBlocks_of_kept hblock] at h
  cases hland : land carried block with
  | error e =>
    rw [hland] at h
    cases h
  | ok block' =>
    rw [hland] at h
    cases hrest : carryBlocks doomed none blocks with
    | error e => simp [Except.bind, hrest] at h
    | ok rest =>
      have hpair : (block' :: rest.1, rest.2) = (kept, carried') := by simpa [Except.bind, hrest] using h
      obtain ⟨rfl, rfl⟩ := Prod.mk.inj hpair
      exact ⟨block', rest.1, rfl, rfl, rfl⟩

theorem carryBlocks_append (doomed : Json → Bool) (carried : Option Json) (xs ys : List Json) :
    carryBlocks doomed carried (xs ++ ys) = (carryBlocks doomed carried xs).bind fun front =>
      (carryBlocks doomed front.2 ys).bind fun rest => .ok (front.1 ++ rest.1, rest.2) := by
  induction xs generalizing carried with
  | nil =>
    show carryBlocks doomed carried ys = (carryBlocks doomed carried ys).bind fun rest => .ok rest
    cases carryBlocks doomed carried ys <;> rfl
  | cons block xs ih =>
    rw [List.cons_append]
    cases hdoomed : doomed block with
    | true => rw [carryBlocks_of_doomed hdoomed, carryBlocks_of_doomed hdoomed, ih]
    | false =>
      rw [carryBlocks_of_kept hdoomed, carryBlocks_of_kept hdoomed, ih]
      cases land carried block with
      | error e => rfl
      | ok block' =>
        show (((carryBlocks doomed none xs).bind _).bind _) = (((carryBlocks doomed none xs).bind _).bind _)
        cases carryBlocks doomed none xs with
        | error e => rfl
        | ok front =>
          show ((carryBlocks doomed front.2 ys).bind _).bind _ = (carryBlocks doomed front.2 ys).bind _
          cases carryBlocks doomed front.2 ys <;> rfl

theorem carryBlocks_all (h : ∀ b ∈ blocks, doomed b = true)
    (carried : Option Json) :
    ∃ carried', carryBlocks doomed carried blocks = .ok ([], carried') ∧
      carried'.isSome = (blocks.any isMarked || carried.isSome) := by
  induction blocks generalizing carried with
  | nil => exact ⟨carried, rfl, rfl⟩
  | cons block blocks ih =>
    obtain ⟨hblock, hblocks⟩ := List.forall_mem_cons.1 h
    obtain ⟨carried', hcarry, hsome⟩ := ih hblocks ((block.get? "cache_control").or carried)
    refine ⟨carried', by rw [carryBlocks_of_doomed hblock, hcarry], ?_⟩
    rw [hsome, List.any_cons, Option.isSome_or, ← Bool.or_assoc, Bool.or_comm (isMarked block)]
    rfl

/-- What is still carried is the marker of a dropped block behind the last survivor. -/
theorem carried_of_carryBlocks (h : carryBlocks doomed carried blocks = .ok (kept, carried')) :
    carried'.isSome = (runMarked doomed blocks || blocks.all doomed && carried.isSome) := by
  induction blocks generalizing carried kept with
  | nil =>
    obtain ⟨-, rfl⟩ := Prod.mk.inj (Except.ok.inj h)
    rfl
  | cons block blocks ih =>
    rw [runMarked_cons, List.all_cons]
    cases hdoomed : doomed block with
    | true =>
      rw [carryBlocks_of_doomed hdoomed] at h
      rw [ih h, Option.isSome_or, Bool.true_and, Bool.true_and, Bool.or_assoc, ← Bool.and_or_distrib_left]
      rfl
    | false =>
      obtain ⟨block', rest, -, hrest, -⟩ := carryBlocks_of_kept_ok hdoomed h
      rw [ih hrest]
      simp

theorem carryBlocks_kept (h : carryBlocks doomed carried blocks = .ok (kept, carried')) :
    List.Forall₂ Remarked (blocks.filter fun b => !doomed b) kept ∧
      markersOf kept + carried'.toList.length ≤ markersOf blocks + carried.toList.length := by
  induction blocks generalizing carried kept with
  | nil =>
    obtain ⟨rfl, rfl⟩ := Prod.mk.inj (Except.ok.inj h)
    exact ⟨.nil, le_rfl⟩
  | cons block blocks ih =>
    have hsplit (b : Json) (bs : List Json) : markersOf (b :: bs) = markersOf [b] + markersOf bs := by
      rw [← List.singleton_append, markersOf, List.countP_append]
    cases hdoomed : doomed block with
    | true =>
      rw [carryBlocks_of_doomed hdoomed] at h
      obtain ⟨hkept, hmarkers⟩ := ih h
      rw [List.filter_cons_of_neg (by simp [hdoomed]), hsplit block blocks]
      refine ⟨hkept, hmarkers.trans ?_⟩
      have hone : ((block.get? "cache_control").or carried).toList.length ≤
          markersOf [block] + carried.toList.length := by
        obtain hget | ⟨marker, hget⟩ := Option.eq_none_or_eq_some (block.get? "cache_control")
        · rw [hget, Option.none_or]
          exact Nat.le_add_left _ _
        · have hmarked : isMarked block = true := by rw [isMarked, hget, Option.isSome_some]
          rw [hget, markersOf, List.countP_singleton, if_pos hmarked]
          exact Nat.le_add_right _ _
      omega
    | false =>
      obtain ⟨block', rest, hland, hrest, rfl⟩ := carryBlocks_of_kept_ok hdoomed h
      obtain ⟨hkept, hmarkers⟩ := ih hrest
      rw [List.filter_cons_of_pos (by simp [hdoomed]), hsplit block' rest, hsplit block blocks]
      refine ⟨.cons (remarked_of_land hland) hkept, ?_⟩
      have hblock := markers_of_land hland
      simp only [Option.toList_none, List.length_nil] at hmarkers
      omega

theorem carryBlocks_iff (doomed : Json → Bool) (carried : Option Json) (blocks : List Json) :
    (∃ kept carried', carryBlocks doomed carried blocks = .ok (kept, carried') ∧
        List.Forall₂ ReasoningKept (blocks.filter fun b => !doomed b) kept) ↔
      ∀ before block after, blocks = before ++ block :: after → doomed block = false → isMarked block = false →
        (runMarked doomed before || before.all doomed && carried.isSome) = true → MayLand block := by
  induction blocks generalizing carried with
  | nil =>
    refine ⟨fun _ before block after h => ?_, fun _ => ⟨[], carried, rfl, .nil⟩⟩
    simp at h
  | cons block blocks ih =>
    have htail (c : Option Json) (hrun : ∀ before : List Json,
        (runMarked doomed (block :: before) || (block :: before).all doomed && carried.isSome) =
          (runMarked doomed before || before.all doomed && c.isSome)) :
        (∀ before b after, block :: blocks = before ++ b :: after → doomed b = false → isMarked b = false →
          (runMarked doomed before || before.all doomed && carried.isSome) = true → MayLand b) ↔
        (doomed block = false → isMarked block = false → carried.isSome = true → MayLand block) ∧
          ∀ before b after, blocks = before ++ b :: after → doomed b = false → isMarked b = false →
            (runMarked doomed before || before.all doomed && c.isSome) = true → MayLand b := by
      refine ⟨fun h => ⟨fun hd hm hc => h [] block blocks rfl hd hm (by simp [hc]), ?_⟩, ?_⟩
      · rintro before b after rfl hd hm hc
        exact h (block :: before) b after rfl hd hm (by rw [hrun, hc])
      · rintro ⟨hfirst, hrest⟩ before b after heq hd hm hc
        cases before with
        | nil =>
          obtain ⟨rfl, rfl⟩ := List.cons.inj heq
          exact hfirst hd hm (by simpa [runMarked] using hc)
        | cons b' before =>
          obtain ⟨rfl, rfl⟩ := List.cons.inj heq
          exact hrest before b after rfl hd hm (by rw [← hrun, hc])
    cases hdoomed : doomed block with
    | true =>
      rw [htail ((block.get? "cache_control").or carried) fun before => ?_]
      · rw [carryBlocks_of_doomed hdoomed, List.filter_cons_of_neg (by simp [hdoomed]), ih]
        simp [hdoomed]
      · rw [runMarked_cons, List.all_cons, hdoomed, Option.isSome_or, Bool.true_and, Bool.true_and,
          Bool.or_assoc, ← Bool.and_or_distrib_left]
        rfl
    | false =>
      rw [htail none fun before => ?_, List.filter_cons_of_pos (by simp [hdoomed]), ← ih none]
      · constructor
        · rintro ⟨kept, carried', hcarry, hkept⟩
          obtain ⟨block', rest, hland, hrest, rfl⟩ := carryBlocks_of_kept_ok hdoomed hcarry
          obtain ⟨hfirst, hkept⟩ := List.forall₂_cons.1 hkept
          exact ⟨fun _ hm hc => (land_iff carried block).1 ⟨block', hland, hfirst⟩ hc hm,
            rest, carried', hrest, hkept⟩
        · rintro ⟨hfirst, rest, carried', hrest, hkept⟩
          obtain ⟨block', hland, hblock⟩ := (land_iff carried block).2 fun hc hm => hfirst hdoomed hm hc
          refine ⟨block' :: rest, carried', ?_, .cons hblock hkept⟩
          rw [carryBlocks_of_kept hdoomed, hland]
          show ((carryBlocks doomed none blocks).bind _) = _
          rw [hrest]
          rfl
      · simp [runMarked_cons, hdoomed]

/-! ### One message -/

theorem exists_split_last {α : Type} {p : α → Bool} {l : List α} (h : l.all p = false) :
    ∃ front last tail, l = front ++ last :: tail ∧ p last = false ∧ ∀ x ∈ tail, p x = true := by
  induction l with
  | nil => cases h
  | cons a l ih =>
    cases hl : l.all p with
    | true =>
      rw [List.all_cons, hl, Bool.and_true] at h
      exact ⟨[], a, l, rfl, h, List.all_eq_true.1 hl⟩
    | false =>
      obtain ⟨front, last, tail, rfl, hlast, htail⟩ := ih hl
      exact ⟨a :: front, last, tail, rfl, hlast, htail⟩

section

variable {doomed : Json → Bool} {front tail : List Json} {last : Json} (hlast : doomed last = false)
  (htail : ∀ b ∈ tail, doomed b = true)

include hlast

theorem not_all_doomed : (front ++ last :: tail).all doomed = false := by
  rw [List.all_append, List.all_cons, hlast, Bool.false_and, Bool.and_false]

include htail

theorem survivors_split :
    survivors doomed (front ++ last :: tail) = (front.filter fun b => !doomed b) ++ [last] := by
  have hnone : (tail.filter fun b => !doomed b) = [] := by
    rw [List.filter_eq_nil_iff]
    intro b hb
    simp [htail b hb]
  rw [survivors, not_all_doomed hlast, if_neg Bool.false_ne_true, List.filter_append,
    List.filter_cons_of_pos (by simp [hlast]), hnone]

/-- The last survivor takes over what is carried to it, or else what is dropped behind it. -/
theorem dropBlocks_split (front : List Json) :
    ∃ carried : Option Json, carried.isSome = tail.any isMarked ∧
      dropBlocks doomed (front ++ last :: tail) = (carryBlocks doomed none front).bind fun kept =>
        (land (kept.2.or carried) last).bind fun last' => .ok (kept.1 ++ [last']) := by
  obtain ⟨carried, hcarried, hsome⟩ := carryBlocks_all htail none
  refine ⟨carried, by rw [hsome, Option.isSome_none, Bool.or_false], ?_⟩
  rw [dropBlocks, not_all_doomed hlast, if_neg Bool.false_ne_true, carryBlocks_append]
  cases carryBlocks doomed none front with
  | error e => rfl
  | ok kept =>
    show (Except.bind (Except.bind (carryBlocks doomed kept.2 (last :: tail)) _) _) =
      (land (kept.2.or carried) last).bind _
    rw [carryBlocks_of_kept hlast, hcarried, ← land_land]
    cases land kept.2 last with
    | error e => rfl
    | ok last' =>
      show (match (kept.1 ++ [last']).getLast? with
        | some last => _
        | none => _) = (land carried last').bind _
      rw [List.getLast?_concat]
      show (land carried last').bind (fun last => .ok ((kept.1 ++ [last']).dropLast ++ [last])) = _
      rw [List.dropLast_concat]

theorem landsWell_split :
    LandsWell doomed (front ++ last :: tail) ↔
      (∀ before block after, front = before ++ block :: after → doomed block = false → isMarked block = false →
        runMarked doomed before = true → MayLand block) ∧
      (isMarked last = false → (runMarked doomed front || tail.any isMarked) = true → MayLand last) := by
  constructor
  · refine fun h => ⟨?_, fun hm hc => ?_⟩
    · rintro before block after rfl hd hm hc
      exact h before block (after ++ last :: tail) (by simp) ⟨hd, hm, .inl hc⟩
    · refine h front last tail rfl ⟨hlast, hm, ?_⟩
      obtain hc | hc := Bool.or_eq_true_iff.1 hc
      · exact .inl hc
      · exact .inr ⟨List.all_eq_true.2 htail, hc⟩
  · rintro ⟨hfront, hend⟩ before block after heq ⟨hd, hm, hc⟩
    obtain ⟨rest, rfl, hrest⟩ | ⟨rest, rfl, hrest⟩ := List.append_eq_append_iff.1 heq
    · cases rest with
      | nil =>
        obtain ⟨rfl, rfl⟩ := List.cons.inj hrest
        rw [List.append_nil] at hc
        refine hend hm (Bool.or_eq_true_iff.2 ?_)
        exact hc.imp id And.right
      | cons b rest =>
        obtain ⟨rfl, rfl⟩ := List.cons.inj hrest
        have hblock := htail block (by simp)
        rw [hd] at hblock
        cases hblock
    · cases rest with
      | nil =>
        obtain ⟨rfl, rfl⟩ := List.cons.inj hrest
        rw [List.append_nil] at hend
        exact hend hm (Bool.or_eq_true_iff.2 (hc.imp id And.right))
      | cons b rest =>
        obtain ⟨rfl, rfl⟩ := List.cons.inj hrest
        refine hfront before block rest rfl hd hm ?_
        obtain hc | ⟨hall, -⟩ := hc
        · exact hc
        · exact absurd hall (by rw [List.append_eq, not_all_doomed hlast]; exact Bool.false_ne_true)

end

variable {content : List Json}

/-- What survives in a message comes in order, gains no marker, and is something if the message was. -/
theorem dropBlocks_kept {content content' : List Json}
    (h : dropBlocks doomed content = .ok content') :
    List.Forall₂ Remarked (survivors doomed content) content' ∧ markersOf content' ≤ markersOf content ∧
      (content ≠ [] → content' ≠ []) := by
  cases hall : content.all doomed with
  | true =>
    rw [dropBlocks, hall, if_pos rfl] at h
    obtain rfl := Except.ok.inj h
    rw [survivors, hall, if_pos rfl]
    exact ⟨List.forall₂_same.2 fun _ _ => rfl, le_rfl, id⟩
  | false =>
    obtain ⟨front, last, tail, rfl, hlast, htail⟩ := exists_split_last hall
    obtain ⟨carried, hcarried, hdrop⟩ := dropBlocks_split hlast htail front
    rw [hdrop] at h
    cases hcarry : carryBlocks doomed none front with
    | error e =>
      rw [hcarry] at h
      cases h
    | ok kept =>
      rw [hcarry] at h
      cases hland : land (kept.2.or carried) last with
      | error e => simp [Except.bind, hland] at h
      | ok last' =>
        obtain rfl : kept.1 ++ [last'] = content' := by simpa [Except.bind, hland] using h
        obtain ⟨hkept, hmarkers⟩ := carryBlocks_kept hcarry
        have hend := markers_of_land hland
        rw [survivors_split hlast htail]
        refine ⟨List.rel_append hkept (.cons (remarked_of_land hland) .nil), ?_, fun _ => by simp⟩
        have hone : (kept.2.or carried).toList.length ≤ kept.2.toList.length + markersOf tail := by
          cases hsome : kept.2 with
          | some marker => simp
          | none =>
            rw [Option.none_or]
            cases carried with
            | none => exact Nat.zero_le _
            | some marker =>
              have hany : tail.any isMarked = true := hcarried.symm
              have hpos : 0 < markersOf tail := List.countP_pos_iff.2 (List.any_eq_true.1 hany)
              simp only [Option.toList_some, List.length_singleton]
              omega
        have hsplit : markersOf (front ++ last :: tail) = markersOf front + (markersOf [last] + markersOf tail) := by
          rw [markersOf, List.countP_append, ← List.singleton_append, List.countP_append]
        have hsplit' : markersOf (kept.1 ++ [last']) = markersOf kept.1 + markersOf [last'] := List.countP_append
        rw [hsplit, hsplit']
        simp only [Option.toList_none, List.length_nil] at hmarkers
        omega

theorem dropBlocks_iff (doomed : Json → Bool) (content : List Json) :
    (∃ content', dropBlocks doomed content = .ok content' ∧
        List.Forall₂ ReasoningKept (survivors doomed content) content') ↔ LandsWell doomed content := by
  cases hall : content.all doomed with
  | true =>
    have hdrop : dropBlocks doomed content = .ok content := by rw [dropBlocks, hall, if_pos rfl]
    refine ⟨?_, fun _ => ⟨content, hdrop, ?_⟩⟩
    · rintro - before block after rfl ⟨hd, -, -⟩
      rw [not_all_doomed hd] at hall
      cases hall
    · rw [survivors, hall, if_pos rfl]
      exact List.forall₂_same.2 fun _ _ _ => rfl
  | false =>
    obtain ⟨front, last, tail, rfl, hlast, htail⟩ := exists_split_last hall
    obtain ⟨carried, hcarried, hdrop⟩ := dropBlocks_split hlast htail front
    have hfront := carryBlocks_iff doomed none front
    simp only [Option.isSome_none, Bool.and_false, Bool.or_false] at hfront
    rw [hdrop, survivors_split hlast htail, landsWell_split hlast htail, ← hfront]
    constructor
    · rintro ⟨content', h, hkept⟩
      cases hcarry : carryBlocks doomed none front with
      | error e =>
        rw [hcarry] at h
        cases h
      | ok kept =>
        rw [hcarry] at h
        cases hland : land (kept.2.or carried) last with
        | error e => simp [Except.bind, hland] at h
        | ok last' =>
          obtain rfl : kept.1 ++ [last'] = content' := by simpa [Except.bind, hland] using h
          have hlength := (carryBlocks_kept hcarry).1.length_eq
          have hbefore := List.forall₂_take_append _ _ _ hkept
          have hend := List.forall₂_drop_append _ _ _ hkept
          rw [← hlength, List.take_left] at hbefore
          rw [← hlength, List.drop_left] at hend
          refine ⟨⟨kept.1, kept.2, rfl, hbefore⟩, fun hm hc => ?_⟩
          refine (land_iff _ last).1 ⟨last', hland, (List.forall₂_cons.1 hend).1⟩ ?_ hm
          rw [Option.isSome_or, hcarried, carried_of_carryBlocks hcarry]
          simpa using hc
    · rintro ⟨⟨kept, carried', hcarry, hkept⟩, hend⟩
      have hrun := carried_of_carryBlocks hcarry
      obtain ⟨last', hland, hlast'⟩ := (land_iff (carried'.or carried) last).2 fun hc hm => hend hm (by
        rw [Option.isSome_or, hcarried, hrun] at hc
        simpa using hc)
      refine ⟨kept ++ [last'], ?_, List.rel_append hkept (.cons hlast' .nil)⟩
      rw [hcarry]
      show (land (carried'.or carried) last).bind _ = _
      rw [hland]
      rfl

/-! ### The whole body -/

variable {message : Json}

/-- A message whose content is set reads it back. -/
theorem getArr?_insert_content (h : message.getArr? "content" = some content) (content' : List Json) :
    (message.insert "content" (.arr content')).getArr? "content" = some content' := by
  obtain ⟨value, hvalue, -⟩ := Option.bind_eq_some_iff.1 h
  rw [Json.getArr?, Json.get?_insert_self hvalue]
  rfl

theorem dropMessage_of_content (h : message.getArr? "content" = some content) :
    dropMessage doomed message =
      (dropBlocks doomed content).bind fun kept => .ok (message.insert "content" (.arr kept)) := by
  rw [dropMessage, h]
  rfl

theorem markers_of_dropMessage {message message' : Json}
    (h : dropMessage doomed message = .ok message') :
    markersOf ((message'.getArr? "content").getD []) ≤ markersOf ((message.getArr? "content").getD []) := by
  cases hcontent : message.getArr? "content" with
  | none =>
    rw [dropMessage, hcontent] at h
    obtain rfl := Except.ok.inj h
    rw [hcontent]
  | some content =>
    rw [dropMessage_of_content hcontent] at h
    cases hdrop : dropBlocks doomed content with
    | error e => simp [Except.bind, hdrop] at h
    | ok kept =>
      obtain rfl : message.insert "content" (.arr kept) = message' := by simpa [Except.bind, hdrop] using h
      rw [getArr?_insert_content hcontent]
      exact (dropBlocks_kept hdrop).2.1

theorem dropMessage_iff (doomed : Json → Bool) (message : Json) :
    (∃ message', dropMessage doomed message = .ok message' ∧ ContentKept (survivors doomed) message message') ↔
      ∀ content, message.getArr? "content" = some content → LandsWell doomed content := by
  cases hcontent : message.getArr? "content" with
  | none =>
    refine ⟨fun _ content h => (by cases h), fun _ => ⟨message, by rw [dropMessage, hcontent], ?_⟩⟩
    intro content h
    rw [hcontent] at h
    cases h
  | some content =>
    simp only [Option.some.injEq, forall_eq']
    rw [← dropBlocks_iff, dropMessage_of_content hcontent]
    constructor
    · rintro ⟨message', h, hkept⟩
      cases hdrop : dropBlocks doomed content with
      | error e => simp [Except.bind, hdrop] at h
      | ok kept =>
        obtain rfl : message.insert "content" (.arr kept) = message' := by simpa [Except.bind, hdrop] using h
        obtain ⟨content', hcontent', hall, -⟩ := hkept content hcontent
        rw [getArr?_insert_content hcontent] at hcontent'
        obtain rfl := Option.some.inj hcontent'
        exact ⟨kept, rfl, hall.imp fun _ _ h => h.2⟩
    · rintro ⟨kept, hdrop, hreasoning⟩
      obtain ⟨hremarked, -, hne⟩ := dropBlocks_kept hdrop
      refine ⟨message.insert "content" (.arr kept), by rw [hdrop]; rfl, fun content' h => ?_⟩
      obtain rfl := Option.some.inj (hcontent.symm.trans h)
      refine ⟨kept, getArr?_insert_content hcontent kept, ?_, hne⟩
      exact forall₂_and_iff.2 ⟨hremarked, hreasoning⟩

theorem landsWell_of_not_dropped
    (h : message.getArr? "content" = some content) (hnone : droppedOf doomed message = 0) :
    survivors doomed content = content ∧ LandsWell doomed content := by
  cases hall : content.all doomed with
  | true =>
    refine ⟨by rw [survivors, hall, if_pos rfl], ?_⟩
    rintro before block after rfl ⟨hd, -, -⟩
    rw [not_all_doomed hd] at hall
    cases hall
  | false =>
    have hsurvivors : survivors doomed content = content.filter fun b => !doomed b := by
      rw [survivors, hall, if_neg Bool.false_ne_true]
    have hlength : content.length ≤ (content.filter fun b => !doomed b).length := by
      simp only [droppedOf, h, hsurvivors] at hnone
      omega
    have hsame : (content.filter fun b => !doomed b) = content :=
      List.filter_sublist.eq_of_length_le hlength
    refine ⟨hsurvivors.trans hsame, ?_⟩
    have hlive : ∀ b ∈ content, doomed b = false := fun b hb => by
      simpa using List.filter_eq_self.1 hsame b hb
    rintro before block after rfl ⟨-, -, hrun | ⟨hafter, hmarked⟩⟩
    · obtain ⟨b, hb, -⟩ := List.any_eq_true.1 hrun
      have hdoomed := List.mem_takeWhile_imp hb
      have hmem : b ∈ before := List.mem_reverse.1 ((List.takeWhile_prefix doomed).subset hb)
      rw [hlive b (by simp [hmem])] at hdoomed
      cases hdoomed
    · obtain ⟨b, hb, -⟩ := List.any_eq_true.1 hmarked
      have hdoomed := List.all_eq_true.1 hafter b hb
      rw [hlive b (by simp [hb])] at hdoomed
      cases hdoomed

/-- The body that a pass gives back, which is the one it took when there was nothing to drop. -/
def DropCareful (doomed : Json → Bool) (v : Json) : Prop :=
  ∃ out, dropReasoningBlocksWhere doomed v = .ok out ∧
    ∀ messages, v.getArr? "messages" = some messages → ∃ messages',
      ((out.map Prod.fst).getD v).getArr? "messages" = some messages' ∧
      Careful (survivors doomed) (markerCount messages) messages messages'

/-- Dropping keeps reasoning if and only if no marker of a dropped block lands on reasoning, or on what cannot
have one. -/
theorem dropCareful_iff_landsWell (doomed : Json → Bool) (v : Json) :
    DropCareful doomed v ↔ ∀ messages, v.getArr? "messages" = some messages → ∀ message ∈ messages,
      ∀ content, message.getArr? "content" = some content → LandsWell doomed content := by
  cases hmessages : v.getArr? "messages" with
  | none =>
    refine ⟨fun _ messages h => (by cases h), fun _ => ⟨none, ?_, fun messages h => ?_⟩⟩
    · rw [dropReasoningBlocksWhere, hmessages]
    · rw [hmessages] at h
      cases h
  | some messages =>
    simp only [Option.some.injEq, forall_eq']
    have hdrop : dropReasoningBlocksWhere doomed v = (messages.mapM (dropMessage doomed)).bind fun messages' =>
        .ok (if (messages.map (droppedOf doomed)).sum = 0 then none
          else some (v.insert "messages" (.arr messages'), (messages.map (droppedOf doomed)).sum)) := by
      rw [dropReasoningBlocksWhere, hmessages]
      rfl
    have hread (messages' : List Json) : (v.insert "messages" (.arr messages')).getArr? "messages" =
        some messages' := by
      obtain ⟨value, hvalue, -⟩ := Option.bind_eq_some_iff.1 hmessages
      rw [Json.getArr?, Json.get?_insert_self hvalue]
      rfl
    simp only [DropCareful, hdrop, hmessages, Option.some.injEq, forall_eq']
    by_cases hnone : (messages.map (droppedOf doomed)).sum = 0
    · have hzero : ∀ m ∈ messages, droppedOf doomed m = 0 := fun m hm =>
        List.sum_eq_zero_iff.1 hnone _ (List.mem_map_of_mem hm)
      have hwell : ∀ m ∈ messages, ∀ content, m.getArr? "content" = some content → LandsWell doomed content :=
        fun m hm content hcontent => (landsWell_of_not_dropped hcontent (hzero m hm)).2
      refine ⟨fun _ => hwell, fun _ => ⟨none, ?_, messages, hmessages, ?_, le_rfl⟩⟩
      · obtain ⟨messages', hall⟩ := exists_forall₂ (R := fun m m' => dropMessage doomed m = .ok m')
          fun m hm => by
            obtain ⟨m', hm', -⟩ := (dropMessage_iff doomed m).2 (hwell m hm)
            exact ⟨m', hm'⟩
        rw [mapM_eq_ok_iff.2 hall]
        show Except.ok (if _ then _ else _) = _
        rw [if_pos hnone]
      · refine List.forall₂_same.2 fun m hm content hcontent => ⟨content, hcontent, ?_, id⟩
        rw [(landsWell_of_not_dropped hcontent (hzero m hm)).1]
        exact List.forall₂_same.2 fun _ _ => ⟨rfl, fun _ => rfl⟩
    · constructor
      · rintro ⟨out, hout, messages', hmessages', hcareful⟩ m hm
        cases hmap : messages.mapM (dropMessage doomed) with
        | error e => simp [Except.bind, hmap] at hout
        | ok messages'' =>
          rw [hmap] at hout
          obtain rfl : some (v.insert "messages" (.arr messages''), _) = out := by
            simpa [Except.bind, hnone] using hout
          obtain rfl := Option.some.inj ((hread messages'').symm.trans hmessages')
          obtain ⟨m', -, hdropped, hkept⟩ := exists_mem_of_forall₂
            (forall₂_and_iff.2 ⟨mapM_eq_ok_iff.1 hmap, hcareful.kept⟩) hm
          exact (dropMessage_iff doomed m).1 ⟨m', hdropped, hkept⟩
      · intro hwell
        obtain ⟨messages', hall⟩ := exists_forall₂ fun m hm => (dropMessage_iff doomed m).2 (hwell m hm)
        obtain ⟨hdropped, hkept⟩ := forall₂_and_iff.1 hall
        refine ⟨some (v.insert "messages" (.arr messages'), (messages.map (droppedOf doomed)).sum), ?_, messages',
          hread messages', hkept, ?_⟩
        · rw [mapM_eq_ok_iff.2 hdropped]
          show Except.ok (if _ then _ else _) = _
          rw [if_neg hnone]
        · have hle : List.Forall₂ (· ≤ ·) (messages'.map fun m => markersOf ((m.getArr? "content").getD []))
              (messages.map fun m => markersOf ((m.getArr? "content").getD [])) := by
            rw [List.forall₂_map_left_iff, List.forall₂_map_right_iff]
            exact List.Forall₂.flip (hdropped.imp fun _ _ h => markers_of_dropMessage h)
          exact hle.sum_le_sum

end Headroom.Reasoning
