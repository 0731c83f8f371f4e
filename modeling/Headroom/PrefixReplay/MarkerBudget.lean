import Headroom.PrefixReplay.Breakpoints

/-!
# The marker budget

A request may carry four cache markers over its tools, its system blocks and its messages. The slots are
divided before anything is placed: the tools and the system keep theirs, the tail of the messages gets what it
asked for as far as there is room, and the opening scaffolding gets one if there is room left. The system
gives up one marker for the scaffolding, and it is made to give up markers after the placement, by what was
really placed.
-/

open Foundation

namespace Headroom.PrefixReplay

/-! ### Counting markers -/

/-- `ANTHROPIC_CACHE_CONTROL_LIMIT`. -/
def anthropicCacheControlLimit : ℕ := 4

/-- `SYSTEM_MARKERS_KEPT`. -/
def systemMarkersKept : ℕ := 1

/-- Whether an object carries a marker. -/
def isMarked (holder : Json) : Bool := (holder.get? "cache_control").isSome

/-- `count_field_markers`. -/
def countFieldMarkers (body : Json) (field : String) : ℕ := ((body.getArr? field).getD []).countP isMarked

/-! ### Dividing the slots -/

/-- `opens_with_scaffolding`. -/
def opensWithScaffolding (messages : List Json) : Bool :=
  match messages with
  | [] => false
  | first :: _ =>
    if first.getStr? "role" ≠ some "user" then false
    else
      match first.get? "content" with
      | some (.arr blocks) => blocks.head?.any isEphemeralClientBlock
      | some (.str text) => isEphemeralClientText text
      | _ => false

/-- `MessageSlots`. -/
structure MessageSlots where
  tail : ℕ
  scaffold : Bool
  reserved : ℕ

/-- The division when the system keeps some of its markers. -/
def divideSlots (wanted : Bool) (requestedTail tools systemKept : ℕ) : MessageSlots :=
  let reserved := systemKept + tools
  let free := anthropicCacheControlLimit - reserved
  let tail := min requestedTail free
  { tail, scaffold := wanted && decide (2 ≤ tail) && decide (tail < free), reserved }

/-- The markers that the system keeps when it gives up one for the scaffolding. -/
def shortenedSystem (system : ℕ) : ℕ := if systemMarkersKept < system then system - 1 else system

/-- `message_slots_within_budget`. -/
def messageSlotsWithinBudget (body : Json) (messages : List Json) (requestedTail : ℕ) : MessageSlots :=
  let tools := countFieldMarkers body "tools"
  let system := countFieldMarkers body "system"
  let wanted := decide (2 ≤ requestedTail) && opensWithScaffolding messages
  let paidFor := divideSlots wanted requestedTail tools (shortenedSystem system)
  if paidFor.scaffold then paidFor else divideSlots wanted requestedTail tools system

/-! ### Trimming the system -/

/-- The first marker of a list of blocks is taken off. -/
def unmarkFirst : List Json → List Json
  | [] => []
  | block :: blocks =>
    if isMarked block then block.remove "cache_control" :: blocks else block :: unmarkFirst blocks

/-- Markers are taken off the blocks, the last one first, while there are more than one and too many. -/
def trimBlocks (tools onMessages : ℕ) : ℕ → List Json → List Json × ℕ
  | 0, blocks => (blocks, 0)
  | system + 1, blocks =>
    if systemMarkersKept < system + 1 ∧ anthropicCacheControlLimit < system + 1 + tools + onMessages then
      if blocks.any isMarked then
        let rest := trimBlocks tools onMessages system (unmarkFirst blocks.reverse).reverse
        (rest.1, rest.2 + 1)
      else (blocks, 0)
    else (blocks, 0)

/-- `trim_system_breakpoints_to_budget`: the body and how many markers it lost. -/
def trimSystemBreakpointsToBudget (body : Json) (onMessages : ℕ) : Json × ℕ :=
  match body.getArr? "system" with
  | none => (body, 0)
  | some blocks =>
    let trimmed := trimBlocks (countFieldMarkers body "tools") onMessages (blocks.countP isMarked) blocks
    (body.insert "system" (.arr trimmed.1), trimmed.2)

/-- The body, the messages and the counts that `place_replay_breakpoints` leaves. -/
structure ReplayBreakpoints where
  parsed : Json
  normalized : List Json
  breakpointsPlaced : ℕ
  systemMarkersTrimmed : ℕ

/-- `place_replay_breakpoints`. -/
def placeReplayBreakpoints (parsed : Json) (overlaid : List Json) (tailBreakpoints : ℕ) :
    ReplayBreakpoints :=
  let slots := messageSlotsWithinBudget parsed overlaid tailBreakpoints
  let placed := placeTailCacheBreakpoints overlaid slots.tail slots.scaffold
  let trimmed := trimSystemBreakpointsToBudget parsed placed.2
  { parsed := trimmed.1, normalized := placed.1, breakpointsPlaced := placed.2,
    systemMarkersTrimmed := trimmed.2 }

/-! ### What the system keeps -/

variable {body : Json} {blocks : List Json} {tools onMessages system : ℕ}

theorem isMarked_remove (block : Json) : isMarked (block.remove "cache_control") = false := by
  rw [isMarked, Json.get?_remove_self]
  rfl

theorem countP_unmarkFirst (h : blocks.any isMarked) :
    (unmarkFirst blocks).countP isMarked + 1 = blocks.countP isMarked := by
  induction blocks with
  | nil => exact absurd h nofun
  | cons block blocks ih =>
    rw [unmarkFirst]
    split_ifs with hblock
    · rw [List.countP_cons_of_neg (by rw [isMarked_remove]; nofun), List.countP_cons_of_pos hblock]
    · rw [List.countP_cons_of_neg hblock, List.countP_cons_of_neg hblock]
      refine ih ?_
      rw [List.any_cons, Bool.or_eq_true] at h
      exact h.resolve_left hblock

theorem countP_trimBlocks (h : blocks.countP isMarked = system) :
    (trimBlocks tools onMessages system blocks).1.countP isMarked +
        (trimBlocks tools onMessages system blocks).2 = system ∧
      min 1 system ≤ (trimBlocks tools onMessages system blocks).1.countP isMarked ∧
      ((trimBlocks tools onMessages system blocks).1.countP isMarked ≤ 1 ∨
        (trimBlocks tools onMessages system blocks).1.countP isMarked + tools + onMessages ≤ 4) := by
  induction system generalizing blocks with
  | zero =>
    show blocks.countP isMarked + 0 = 0 ∧ min 1 0 ≤ blocks.countP isMarked ∧
      (blocks.countP isMarked ≤ 1 ∨ blocks.countP isMarked + tools + onMessages ≤ 4)
    omega
  | succ system ih =>
    have hany : blocks.any isMarked := by
      obtain ⟨b, hb, hmarked⟩ := List.countP_pos_iff.1 (by omega : 0 < blocks.countP isMarked)
      exact List.any_eq_true.2 ⟨b, hb, hmarked⟩
    simp only [trimBlocks, systemMarkersKept, anthropicCacheControlLimit]
    split_ifs with htrim
    · have hless : (unmarkFirst blocks.reverse).reverse.countP isMarked = system := by
        have hreverse : blocks.reverse.any isMarked := by
          rw [List.any_reverse]
          exact hany
        have hcount := countP_unmarkFirst hreverse
        rw [List.countP_reverse] at hcount
        rw [List.countP_reverse]
        omega
      obtain ⟨hsum, hleast, hfits⟩ := ih hless
      refine ⟨?_, ?_, hfits⟩
      · dsimp only
        omega
      · dsimp only
        omega
    · dsimp only
      omega

theorem countFieldMarkers_insert_self (h : body.getArr? "system" = some blocks) (blocks' : List Json) :
    countFieldMarkers (body.insert "system" (.arr blocks')) "system" = blocks'.countP isMarked := by
  obtain ⟨value, hvalue, -⟩ := Option.bind_eq_some_iff.1 h
  rw [countFieldMarkers, Json.getArr?, Json.get?_insert_self hvalue]
  rfl

/-- The trimmed system has lost what is reported, has a marker if it had one, and fits if it has more. -/
theorem countFieldMarkers_trim (body : Json) (onMessages : ℕ) :
    countFieldMarkers (trimSystemBreakpointsToBudget body onMessages).1 "system" +
        (trimSystemBreakpointsToBudget body onMessages).2 = countFieldMarkers body "system" ∧
      min 1 (countFieldMarkers body "system") ≤
        countFieldMarkers (trimSystemBreakpointsToBudget body onMessages).1 "system" ∧
      (countFieldMarkers (trimSystemBreakpointsToBudget body onMessages).1 "system" ≤ 1 ∨
        countFieldMarkers (trimSystemBreakpointsToBudget body onMessages).1 "system" +
          countFieldMarkers body "tools" + onMessages ≤ 4) := by
  cases hsystem : body.getArr? "system" with
  | none =>
    have hzero : countFieldMarkers body "system" = 0 := by
      rw [countFieldMarkers, hsystem]
      rfl
    simp only [trimSystemBreakpointsToBudget, hsystem]
    omega
  | some blocks =>
    have hcount : countFieldMarkers body "system" = blocks.countP isMarked := by
      rw [countFieldMarkers, hsystem]
      rfl
    simp only [trimSystemBreakpointsToBudget, hsystem]
    rw [countFieldMarkers_insert_self hsystem, hcount]
    exact countP_trimBlocks rfl

theorem get?_trim {field : String} (hne : field ≠ "system") (body : Json) (onMessages : ℕ) :
    (trimSystemBreakpointsToBudget body onMessages).1.get? field = body.get? field := by
  cases hsystem : body.getArr? "system" with
  | none => simp only [trimSystemBreakpointsToBudget, hsystem]
  | some blocks =>
    simp only [trimSystemBreakpointsToBudget, hsystem]
    exact Json.get?_insert_of_ne hne

/-! ### The division and the placement -/

theorem divideSlots_le (wanted : Bool) (requestedTail tools kept : ℕ) (h : tools + kept ≤ 4) :
    (divideSlots wanted requestedTail tools kept).tail +
      (if (divideSlots wanted requestedTail tools kept).scaffold then 1 else 0) + tools + kept ≤ 4 := by
  have htail : (divideSlots wanted requestedTail tools kept).tail ≤ 4 - (kept + tools) := min_le_right _ _
  split_ifs with hscaffold
  · have hroom : (divideSlots wanted requestedTail tools kept).tail < 4 - (kept + tools) :=
      of_decide_eq_true (Bool.and_eq_true_iff.1 hscaffold).2
    omega
  · omega

theorem shortenedSystem_le (system : ℕ) :
    min 1 system ≤ shortenedSystem system ∧ shortenedSystem system ≤ system := by
  by_cases hmore : systemMarkersKept < system
  · rw [shortenedSystem, if_pos hmore]
    rw [systemMarkersKept] at hmore
    omega
  · rw [shortenedSystem, if_neg hmore]
    omega

theorem messageSlotsWithinBudget_eq (body : Json) (messages : List Json) (requestedTail : ℕ) :
    ∃ wanted kept, min 1 (countFieldMarkers body "system") ≤ kept ∧
      kept ≤ countFieldMarkers body "system" ∧ messageSlotsWithinBudget body messages requestedTail =
        divideSlots wanted requestedTail (countFieldMarkers body "tools") kept := by
  obtain ⟨hone, hshort⟩ := shortenedSystem_le (countFieldMarkers body "system")
  rw [messageSlotsWithinBudget]
  split_ifs
  · exact ⟨_, _, hone, hshort, rfl⟩
  · exact ⟨_, _, min_le_right _ _, le_rfl, rfl⟩

theorem within_limit {placed : ℕ} (body : Json) (messages : List Json) (requestedTail : ℕ)
    (hbudget : countFieldMarkers body "tools" + countFieldMarkers body "system" ≤ 4)
    (hplaced : placed ≤ (messageSlotsWithinBudget body messages requestedTail).tail +
      if (messageSlotsWithinBudget body messages requestedTail).scaffold then 1 else 0) :
    countFieldMarkers body "tools" +
      countFieldMarkers (trimSystemBreakpointsToBudget body placed).1 "system" + placed ≤ 4 := by
  obtain ⟨hsum, hleast, hfits⟩ := countFieldMarkers_trim body placed
  obtain ⟨wanted, kept, hone, hkept, hslots⟩ := messageSlotsWithinBudget_eq body messages requestedTail
  rw [hslots] at hplaced
  have hfit := divideSlots_le wanted requestedTail (countFieldMarkers body "tools") kept (by omega)
  omega

end Headroom.PrefixReplay
