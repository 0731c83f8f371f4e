import Headroom.LiveZone.Planner

/-!
# The guard of a result

Each call of a tool may leave a guard under its id. Of two calls of one id the last counts, so a result
whose id was used once has the guard that its call asks for, and calls that come later change nothing for
the ids that they do not use.
-/

open Foundation

namespace Headroom.LiveZone

/-- The blocks of the messages of a conversation. -/
def contentBlocks (messages : List Json) : List Json :=
  messages.flatMap fun message => (message.getArr? "content").getD []

/-- The id of a block that is a call. -/
def toolUseId? (block : Json) : Option String :=
  if block.getStr? "type" = some "tool_use" then block.getStr? "id" else none

def toolUseIds (messages : List Json) : List String := (contentBlocks messages).filterMap toolUseId?

/-- A call in a conversation: its id, the name of the tool that it comes to, and its input. -/
def Calls (R : Rules) (messages : List Json) (id name : String) (input : Option Json) : Prop :=
  ∃ block ∈ contentBlocks messages, toolUseId? block = some id ∧ ∃ wireName,
    block.getStr? "name" = some wireName ∧ input = block.get? "input" ∧
    name = unwrapToolCallName R.toNameRules wireName input

variable {R : Rules} {messages : List Json} {excludeTools : List String} {lossless : Bool}

theorem collectToolGuards_eq :
    collectToolGuards R messages excludeTools lossless =
      (contentBlocks messages).filterMap (guardEntry R excludeTools lossless) := by
  rw [collectToolGuards, contentBlocks, List.filterMap_flatMap]

theorem guardEntry_eq_some {block : Json} {id : String} {guard : ToolGuard} :
    guardEntry R excludeTools lossless block = some (id, guard) ↔
      toolUseId? block = some id ∧ ∃ wireName, block.getStr? "name" = some wireName ∧
        guardOf R (unwrapToolCallName R.toNameRules wireName (block.get? "input")) (block.get? "input")
          excludeTools lossless = some guard := by
  rw [guardEntry, toolUseId?]
  by_cases htype : block.getStr? "type" = some "tool_use"
  · rw [if_neg (not_not.2 htype), if_pos htype]
    split
    · rename_i id' wireName hid hname
      rw [Option.map_eq_some_iff, hid]
      refine ⟨?_, ?_⟩
      · rintro ⟨guard', hguard, heq⟩
        obtain ⟨rfl, rfl⟩ := Prod.mk.inj heq
        exact ⟨rfl, wireName, hname, hguard⟩
      · rintro ⟨heq, wireName', hname', hguard⟩
        obtain rfl := Option.some.inj heq
        obtain rfl := Option.some.inj (hname.symm.trans hname')
        exact ⟨guard, hguard, rfl⟩
    · rename_i hnone
      refine ⟨nofun, ?_⟩
      rintro ⟨hid, wireName, hname, -⟩
      exact absurd hname (hnone id wireName hid)
  · rw [if_pos htype, if_neg htype]
    exact ⟨nofun, fun h => absurd h.1 nofun⟩

theorem eq_of_toolUseId (hunique : (toolUseIds messages).Nodup) {block block' : Json} {id : String}
    (hblock : block ∈ contentBlocks messages) (hblock' : block' ∈ contentBlocks messages)
    (hid : toolUseId? block = some id) (hid' : toolUseId? block' = some id) : block = block' := by
  have hpair : (contentBlocks messages).Pairwise fun b b' =>
      ∀ id, toolUseId? b = some id → toolUseId? b' = some id → b = b' := by
    refine (List.pairwise_filterMap.1 hunique).imp ?_
    rintro b b' h id hb hb'
    exact absurd rfl (h id hb id hb')
  exact hpair.forall_of_forall_of_flip (fun b _ id _ _ => rfl)
    (hpair.imp fun h id hb hb' => (h id hb' hb).symm) hblock hblock' id hid hid'

/-- Where the ids of calls are distinct, the guard of a result is that of its call. -/
theorem guardFor_of_calls (hunique : (toolUseIds messages).Nodup) {id name : String} {input : Option Json}
    (h : Calls R messages id name input) :
    guardFor (collectToolGuards R messages excludeTools lossless) id =
      guardOf R name input excludeTools lossless := by
  obtain ⟨block, hblock, hid, wireName, hname, rfl, rfl⟩ := h
  have hmem : ∀ guard, (id, guard) ∈ (collectToolGuards R messages excludeTools lossless).reverse ↔
      guardOf R (unwrapToolCallName R.toNameRules wireName (block.get? "input")) (block.get? "input")
        excludeTools lossless = some guard := by
    intro guard
    rw [List.mem_reverse, collectToolGuards_eq, List.mem_filterMap]
    refine ⟨?_, ?_⟩
    · rintro ⟨block', hblock', hentry⟩
      obtain ⟨hid', wireName', hname', hguard⟩ := guardEntry_eq_some.1 hentry
      obtain rfl := eq_of_toolUseId hunique hblock hblock' hid hid'
      obtain rfl := Option.some.inj (hname.symm.trans hname')
      exact hguard
    · rintro hguard
      exact ⟨block, hblock, guardEntry_eq_some.2 ⟨hid, wireName, hname, hguard⟩⟩
  cases hguard : guardFor (collectToolGuards R messages excludeTools lossless) id with
  | some guard =>
    obtain ⟨before, after, happend, -⟩ := List.lookup_eq_some_iff.1 hguard
    refine ((hmem guard).1 ?_).symm
    rw [happend]
    exact List.mem_append_right _ List.mem_cons_self
  | none =>
    refine (Option.eq_none_iff_forall_ne_some.2 fun guard hsome => ?_).symm
    exact absurd (List.lookup_eq_none_iff.1 hguard (id, guard) ((hmem guard).2 hsome)) (by simp)

theorem guardFor_append {later : List Json} {id : String} (hid : id ∉ toolUseIds later) :
    guardFor (collectToolGuards R (messages ++ later) excludeTools lossless) id =
      guardFor (collectToolGuards R messages excludeTools lossless) id := by
  have happend : collectToolGuards R (messages ++ later) excludeTools lossless =
      collectToolGuards R messages excludeTools lossless ++
        collectToolGuards R later excludeTools lossless := List.flatMap_append
  have hnone : (collectToolGuards R later excludeTools lossless).reverse.lookup id = none := by
    refine List.lookup_eq_none_iff.2 ?_
    rintro ⟨id', guard⟩ hmem
    rw [List.mem_reverse, collectToolGuards_eq, List.mem_filterMap] at hmem
    obtain ⟨block, hblock, hentry⟩ := hmem
    rw [bne_iff_ne]
    rintro rfl
    exact hid (List.mem_filterMap.2 ⟨block, hblock, (guardEntry_eq_some.1 hentry).1⟩)
  rw [guardFor, happend, List.reverse_append, List.lookup_append, hnone, Option.none_or]
  rfl

end Headroom.LiveZone
