import Headroom.Foundation.Claim
import Headroom.Foundation.Json
import Headroom.Foundation.Lru

/-!
# The order of tools

The provider caches the tools a session sends at the head of its prefix. The names of the tools
forwarded last are remembered, in order; on the next turn the definitions of those names go out
first, in that order, and all others behind them.

## Main results

* `forwardedArrays_stable` : every run forwards permutations, stable under `LeadsAgain`.
-/

open Foundation Foundation.Claim

namespace Headroom.Tools

/-! ### Tool definitions -/

/-- The name a tool definition is addressed by, in the Anthropic or the OpenAI shape. -/
def toolName (tool : Json) : Option String :=
  (tool.getStr? "name").or ((tool.get? "function").bind (Json.getStr? "name"))

/-- The forwarded order of tools. Unnamed tools are skipped. -/
def toolOrder (tools : List Json) : List String := tools.filterMap toolName

/-- Whether any tool carries a `cache_control` marker. -/
def anyToolMarked (tools : List Json) : Bool :=
  tools.any fun t => (t.get? "cache_control").isSome

/-! ### One array -/

/-- The state of the claims: the names not claimed yet, the slots claimed, and the slots in the
order they are to go out. -/
structure Claims where
  names : List (Option String)
  claimed : List Bool
  order : List ℕ

/-- A remembered name claims the first slot of that name. -/
def Claims.claim (c : Claims) (want : String) : Claims :=
  match c.names.findIdx? fun n => n == some want with
  | some i =>
    { names := c.names.set i none, claimed := c.claimed.set i true, order := c.order ++ [i] }
  | none => c

/-- The slots in the order they go out: the claimed ones, then everything unclaimed. -/
def slotOrder (tools : List Json) (previous : List String) : List ℕ :=
  let c := previous.foldl Claims.claim
    ⟨tools.map toolName, List.replicate tools.length false, []⟩
  c.order ++ (List.range tools.length).filter fun i => !(c.claimed[i]?.getD false)

/-- Move the tool of a slot to the output. -/
def takeSlot (s : List (Option Json) × List Json) (i : ℕ) : List (Option Json) × List Json :=
  match s.1[i]? with
  | some (some tool) => (s.1.set i none, s.2 ++ [tool])
  | _ => s

/-- The tools with those of the remembered names first, in the remembered order, and whether that
moved any. -/
def stabilizeToolOrder (tools : List Json) (previous : List String) : Bool × List Json :=
  if previous.isEmpty || tools.length < 2 then (false, tools)
  else if anyToolMarked tools then (false, tools)
  -- A remembered tool that is gone leaves a hole that no order closes.
  else if !previous.all fun want => (toolOrder tools).contains want then (false, tools)
  else
    let order := slotOrder tools previous
    if order = List.range tools.length then (false, tools)
    else (true, (order.foldl takeSlot (tools.map some, [])).2)

/-! ### The memory of sessions -/

/-- The key of a session and a model. -/
def toolKey (sessionKey model : String) : String := sessionKey ++ "\x1f" ++ model

/-- The tool order last forwarded, for each session and model. -/
structure ToolOrderStore where
  inner : Lru String (List String)

theorem one_le_max (capacity : ℕ) : 1 ≤ max capacity 1 := Nat.le_max_right capacity 1

namespace ToolOrderStore

/-- An empty store; a capacity of zero counts as one. -/
def new (capacity : ℕ) : ToolOrderStore :=
  ⟨Lru.empty (max capacity 1) (one_le_max capacity)⟩

/-- Stabilize an array against the session's remembered order and remember what is forwarded. -/
def stabilize (s : ToolOrderStore) (sessionKey model : String) (tools : List Json) :
    (Bool × List Json) × ToolOrderStore :=
  let key := toolKey sessionKey model
  let (previous, inner) := s.inner.get key
  let result :=
    match previous with
    | some previous => stabilizeToolOrder tools previous
    | none => (false, tools)
  (result, ⟨inner.put key (toolOrder result.2)⟩)

/-- The arrays that a run of calls on one session and model forwards. -/
def forwardedArrays (s : ToolOrderStore) (sessionKey model : String) :
    List (List Json) → List (List Json)
  | [] => []
  | tools :: turns =>
    let (result, s) := s.stabilize sessionKey model tools
    result.2 :: s.forwardedArrays sessionKey model turns

end ToolOrderStore

/-! ### Slots and claims -/

/-- The tools of the slots not claimed yet. -/
def openSlots (tools : List Json) (claimed : List Bool) : List (Option Json) :=
  List.zipWith (fun t taken => if taken then none else some t) tools claimed

/-- The names are those of the open slots, and the order lists the claimed slots once each. -/
structure Claims.Of (tools : List Json) (c : Claims) : Prop where
  length : c.claimed.length = tools.length
  names : c.names = (openSlots tools c.claimed).map fun s => s.bind toolName
  nodup : c.order.Nodup
  mem_order : ∀ i, i ∈ c.order ↔ c.claimed[i]? = some true

section

variable {tools : List Json} {claimed : List Bool} {c : Claims} {i : ℕ}

theorem getElem?_openSlots {tool : Json}
    (hopen : (openSlots tools claimed)[i]? = some (some tool)) :
    tools[i]? = some tool ∧ claimed[i]? = some false := by
  rw [openSlots, List.getElem?_zipWith_eq_some] at hopen
  obtain ⟨t, taken, ht, htaken, heq⟩ := hopen
  split_ifs at heq with hb
  obtain rfl := Option.some.inj heq
  exact ⟨ht, by rw [htaken, Bool.not_eq_true _ |>.mp hb]⟩

theorem openSlots_set (tools : List Json) (claimed : List Bool) (i : ℕ) :
    openSlots tools (claimed.set i true) = (openSlots tools claimed).set i none := by
  induction tools generalizing claimed i with
  | nil => rfl
  | cons t tools ih =>
    cases claimed with
    | nil => rfl
    | cons b claimed =>
      cases i with
      | zero => rfl
      | succ i => exact congrArg _ (ih claimed i)

theorem openSlots_replicate (tools : List Json) :
    openSlots tools (List.replicate tools.length false) = tools.map some := by
  induction tools with
  | nil => rfl
  | cons t tools ih => exact congrArg _ ih

theorem reduceOption_map_some (tools : List Json) : (tools.map some).reduceOption = tools := by
  induction tools with
  | nil => rfl
  | cons t tools ih => exact congrArg _ ih

theorem filterMap_unclaimed (h : claimed.length = tools.length) :
    ((List.range tools.length).filter fun i => !(claimed[i]?.getD false)).filterMap (tools[·]?) =
      (openSlots tools claimed).reduceOption := by
  induction tools generalizing claimed with
  | nil => rfl
  | cons t tools ih =>
    obtain ⟨b, claimed, rfl⟩ : ∃ b l, claimed = b :: l :=
      List.exists_cons_of_length_pos (by rw [h]; exact Nat.succ_pos _)
    have htail := @ih claimed (Nat.succ.inj h)
    have hshift : (((List.range tools.length).map Nat.succ).filter fun i =>
        !((b :: claimed)[i]?.getD false)).filterMap ((t :: tools)[·]?) =
        ((List.range tools.length).filter fun i => !(claimed[i]?.getD false)).filterMap
          (tools[·]?) := by
      rw [List.filter_map, List.filterMap_map]
      rfl
    rw [List.length_cons, List.range_succ_eq_map]
    cases b with
    | false =>
      have hfirst : (t :: tools)[0]? = some t := rfl
      rw [List.filter_cons_of_pos rfl, List.filterMap_cons_some hfirst, hshift, htail]
      rfl
    | true =>
      rw [List.filter_cons_of_neg (by simp), hshift, htail]
      rfl

theorem findIdx?_names (h : c.Of tools) (want : String) :
    c.names.findIdx? (fun n => n == some want) =
      (openSlots tools c.claimed).findIdx? fun s => s.any (has toolName want) := by
  rw [h.names, List.findIdx?_map]
  congr 1
  funext s
  cases s with
  | none => rfl
  | some tool =>
    by_cases ht : toolName tool = some want
    · simp [has, ht]
    · simp [has, ht]

theorem claim_foldl (previous : List String) (h : c.Of tools) :
    (previous.foldl Claims.claim c).Of tools ∧
    (previous.foldl Claims.claim c).order.filterMap (tools[·]?) =
      c.order.filterMap (tools[·]?) ++
        (hits toolName previous (openSlots tools c.claimed).reduceOption).reduceOption ∧
    (openSlots tools (previous.foldl Claims.claim c).claimed).reduceOption =
      left toolName previous (openSlots tools c.claimed).reduceOption := by
  induction previous generalizing c with
  | nil => exact ⟨h, (List.append_nil _).symm, rfl⟩
  | cons want previous ih =>
    rw [List.foldl_cons, hits, left]
    cases hidx : c.names.findIdx? fun n => n == some want with
    | none =>
      have hsame : c.claim want = c := by simp only [Claims.claim, hidx]
      rw [findIdx?_names h] at hidx
      have hnone := find?_of_findIdx?_eq_none hidx
      rw [hsame, hnone, List.reduceOption_cons_of_none, eraseP_of_find?_eq_none hnone]
      exact ih h
    | some i =>
      have hstep : c.claim want = ⟨c.names.set i none, c.claimed.set i true, c.order ++ [i]⟩ := by
        simp only [Claims.claim, hidx]
      rw [findIdx?_names h] at hidx
      obtain ⟨tool, hopen, hfind, herase⟩ := find?_of_findIdx? hidx
      obtain ⟨htool, hfree⟩ := getElem?_openSlots hopen
      have hlt : i < c.claimed.length := (List.getElem?_eq_some_iff.mp hfree).1
      have hnext : (c.claim want).Of tools := by
        rw [hstep]
        refine ⟨?_, ?_, ?_, fun j => ?_⟩
        · rw [List.length_set, h.length]
        · rw [openSlots_set, List.map_set, ← h.names]
          rfl
        · refine List.Nodup.append h.nodup (List.nodup_singleton i) ?_
          rw [List.disjoint_singleton, h.mem_order, hfree]
          exact fun heq => by cases heq
        · rw [List.mem_append, List.mem_singleton, h.mem_order]
          by_cases hj : i = j
          · subst hj
            simp [hlt]
          · rw [List.getElem?_set_ne hj]
            simp [Ne.symm hj]
      obtain ⟨hof, horder, hleft⟩ := ih hnext
      refine ⟨hof, ?_, ?_⟩
      · rw [horder, hstep, openSlots_set, herase, List.filterMap_append, hfind,
          List.reduceOption_cons_of_some, List.filterMap_cons_some htool, List.append_assoc]
        rfl
      · rw [hleft, hstep, openSlots_set, herase]

theorem takeSlot_foldl {order : List ℕ} (hnodup : order.Nodup) {slots : List (Option Json)}
    (hslots : ∀ i ∈ order, slots[i]? = tools[i]?.map some) (out : List Json) :
    (order.foldl takeSlot (slots, out)).2 = out ++ order.filterMap (tools[·]?) := by
  induction order generalizing slots out with
  | nil => exact (List.append_nil out).symm
  | cons i order ih =>
    obtain ⟨hi, hrest⟩ := List.nodup_cons.mp hnodup
    rw [List.foldl_cons, takeSlot, hslots i List.mem_cons_self]
    cases htool : tools[i]? with
    | none =>
      rw [List.filterMap_cons_none htool]
      exact ih hrest (fun j hj => hslots j (List.mem_cons_of_mem _ hj)) out
    | some tool =>
      rw [List.filterMap_cons_some htool, List.append_cons]
      refine ih hrest (fun j hj => ?_) _
      have hne : i ≠ j := by
        rintro rfl
        exact hi hj
      rw [List.getElem?_set_ne hne]
      exact hslots j (List.mem_cons_of_mem _ hj)

theorem slotOrder_spec (tools : List Json) (previous : List String) :
    (slotOrder tools previous).Nodup ∧
    (slotOrder tools previous).filterMap (tools[·]?) =
      (hits toolName previous tools).reduceOption ++ left toolName previous tools := by
  have hstart : Claims.Of tools ⟨tools.map toolName, List.replicate tools.length false, []⟩ := by
    refine ⟨List.length_replicate, ?_, List.nodup_nil, fun i => ?_⟩
    · rw [openSlots_replicate, List.map_map]
      rfl
    · simp [List.getElem?_replicate]
  obtain ⟨hof, horder, hleft⟩ := claim_foldl previous hstart
  simp only [openSlots_replicate, reduceOption_map_some, List.filterMap_nil, List.nil_append]
    at horder hleft
  simp only [slotOrder]
  constructor
  · refine List.Nodup.append hof.nodup (List.nodup_range.filter _) ?_
    intro i hi hfree
    rw [hof.mem_order] at hi
    simp [hi] at hfree
  · rw [List.filterMap_append, horder, filterMap_unclaimed hof.length, hleft]

/-! ### What one array becomes -/

theorem stabilizeToolOrder_eq {previous : List String} (hunmarked : anyToolMarked tools = false)
    (hpresent : ∀ want ∈ previous, want ∈ toolOrder tools) :
    (stabilizeToolOrder tools previous).2 =
      (hits toolName previous tools).reduceOption ++ left toolName previous tools := by
  obtain ⟨hnodup, hspec⟩ := slotOrder_spec tools previous
  have hall : (previous.all fun want => (toolOrder tools).contains want) = true :=
    List.all_eq_true.mpr fun want hwant => List.contains_iff_mem.mpr (hpresent want hwant)
  simp only [stabilizeToolOrder, hunmarked, hall, Bool.false_eq_true, Bool.not_true, if_false]
  split_ifs with hguard hsame
  · -- Nothing remembered, or no two tools to order.
    simp only [Bool.or_eq_true, List.isEmpty_iff, decide_eq_true_eq] at hguard
    rcases hguard with rfl | hshort
    · rfl
    · have hperm := perm_claimed toolName previous tools
      rcases tools with _ | ⟨t, _ | ⟨t', rest⟩⟩
      · exact (List.perm_nil.mp hperm).symm
      · exact (List.perm_singleton.mp hperm).symm
      · simp only [List.length_cons] at hshort
        omega
  · rw [← hspec, hsame]
    clear hsame hspec hnodup hall hpresent hunmarked hguard
    induction tools with
    | nil => rfl
    | cons t tools ih =>
      have hfirst : (t :: tools)[0]? = some t := rfl
      rw [List.length_cons, List.range_succ_eq_map, List.filterMap_cons_some hfirst,
        List.filterMap_map]
      exact congrArg _ ih
  · rw [takeSlot_foldl hnodup (fun i _ => List.getElem?_map), List.nil_append, hspec]

/-- Whatever is remembered, the array that goes out is a permutation of the client's. -/
theorem stabilizeToolOrder_perm (tools : List Json) (previous : List String) :
    (stabilizeToolOrder tools previous).2.Perm tools := by
  obtain ⟨hnodup, hspec⟩ := slotOrder_spec tools previous
  simp only [stabilizeToolOrder]
  split_ifs
  · exact List.Perm.refl tools
  · exact List.Perm.refl tools
  · exact List.Perm.refl tools
  · exact List.Perm.refl tools
  · rw [takeSlot_foldl hnodup (fun i _ => List.getElem?_map), List.nil_append, hspec]
    exact perm_claimed _ _ _

end

/-! ### Stability over a session -/

/-- A client's array keeps what was forwarded at its head: the unnamed definitions were forwarded
last, the client's definitions of each name start with the forwarded ones in their order, and what
no forwarded name claims starts with the unnamed ones. -/
structure LeadsAgain (forwarded client : List Json) : Prop where
  unnamedLast : forwarded = keyed toolName forwarded ++ unkeyed toolName forwarded
  sameName : ∀ name ∈ toolOrder forwarded,
    forwarded.filter (has toolName name) <+: client.filter (has toolName name)
  unnamedFirst : unkeyed toolName forwarded <+: left toolName (toolOrder forwarded) client

section

variable {forwarded client : List Json}

theorem stabilize_contained (hunmarked : anyToolMarked client = false)
    (hsub : forwarded.Subperm client) :
    (stabilizeToolOrder client (toolOrder forwarded)).2 =
      (hits toolName (toolOrder forwarded) client).reduceOption ++
        left toolName (toolOrder forwarded) client := by
  refine stabilizeToolOrder_eq hunmarked fun want hwant => ?_
  obtain ⟨tool, htool, hname⟩ := List.mem_filterMap.mp hwant
  exact List.mem_filterMap.mpr ⟨tool, hsub.subset htool, hname⟩

/-- The array forwarded last leads the next one, of a client whose array contains it, exactly when
the client's array keeps it at its head. -/
theorem forwarded_prefix_iff (hunmarked : anyToolMarked client = false)
    (hsub : forwarded.Subperm client) :
    forwarded <+: (stabilizeToolOrder client (toolOrder forwarded)).2 ↔
      LeadsAgain forwarded client := by
  rw [stabilize_contained hunmarked hsub]
  refine (prefix_claimed_iff hsub).trans ?_
  constructor
  · rintro ⟨hlast, hname, hfirst⟩
    exact ⟨hlast, fun name _ => hname name, hfirst⟩
  · rintro ⟨hlast, hname, hfirst⟩
    refine ⟨hlast, fun name => ?_, hfirst⟩
    by_cases hmem : name ∈ toolOrder forwarded
    · exact hname name hmem
    · -- Nothing was forwarded under the name.
      have hnil : forwarded.filter (has toolName name) = [] := by
        refine List.filter_eq_nil_iff.mpr fun tool htool hhas => hmem ?_
        exact List.mem_filterMap.mpr ⟨tool, htool, has_iff.mp hhas⟩
      rw [hnil]
      exact List.nil_prefix

theorem leadsAgain_self (h : forwarded = keyed toolName forwarded ++ unkeyed toolName forwarded) :
    LeadsAgain forwarded forwarded := by
  refine ⟨h, fun name _ => List.prefix_rfl, ?_⟩
  have hall : ∀ tool ∈ left toolName (toolOrder forwarded) forwarded,
      (toolName tool).isNone = true := by
    intro tool htool
    cases hname : toolName tool with
    | none => rfl
    | some name =>
      have hmem : tool ∈ (left toolName (toolOrder forwarded) forwarded).filter
          (has toolName name) := List.mem_filter.mpr ⟨htool, by simpa using hname⟩
      rw [filter_left, toolOrder, count_filterMap, List.drop_length] at hmem
      exact absurd hmem List.not_mem_nil
  have hself : unkeyed toolName (left toolName (toolOrder forwarded) forwarded) =
      left toolName (toolOrder forwarded) forwarded := List.filter_eq_self.mpr hall
  exact ⟨[], by rw [List.append_nil, ← hself, unkeyed_left]⟩

end

namespace ToolOrderStore

section

variable {s : ToolOrderStore} {sessionKey model : String} {turns : List (List Json)} {t : ℕ}

theorem peek_stabilize (tools : List Json) :
    (s.stabilize sessionKey model tools).2.inner.peek (toolKey sessionKey model) =
      some (toolOrder (s.stabilize sessionKey model tools).1.2) :=
  Lru.peek_put_self _ _ _

theorem stabilize_of_peek {tools : List Json} {previous : List String}
    (h : s.inner.peek (toolKey sessionKey model) = some previous) :
    (s.stabilize sessionKey model tools).1 = stabilizeToolOrder tools previous := by
  simp only [stabilize, Lru.get_fst, h]

theorem stabilize_perm (s : ToolOrderStore) (sessionKey model : String) (tools : List Json) :
    (s.stabilize sessionKey model tools).1.2.Perm tools := by
  simp only [stabilize, Lru.get_fst]
  cases s.inner.peek (toolKey sessionKey model) with
  | none => exact List.Perm.refl tools
  | some previous => exact stabilizeToolOrder_perm tools previous

theorem forwardedArrays_perm :
    List.Forall₂ List.Perm (s.forwardedArrays sessionKey model turns) turns := by
  induction turns generalizing s with
  | nil => exact .nil
  | cons tools turns ih => exact .cons (stabilize_perm s sessionKey model tools) ih

theorem forwardedArrays_succ {forwarded client : List Json}
    (hforwarded : (s.forwardedArrays sessionKey model turns)[t]? = some forwarded)
    (hclient : turns[t + 1]? = some client) :
    (s.forwardedArrays sessionKey model turns)[t + 1]? =
      some (stabilizeToolOrder client (toolOrder forwarded)).2 := by
  induction turns generalizing s t with
  | nil => simp at hclient
  | cons tools turns ih =>
    cases t with
    | zero =>
      obtain rfl := Option.some.inj hforwarded
      cases turns with
      | nil => simp at hclient
      | cons client' turns =>
        obtain rfl := Option.some.inj hclient
        have hstep : ((s.stabilize sessionKey model tools).2.stabilize sessionKey model client').1 =
            stabilizeToolOrder client' (toolOrder (s.stabilize sessionKey model tools).1.2) :=
          stabilize_of_peek (peek_stabilize tools)
        exact congrArg (fun result => some result.2) hstep
    | succ t => exact ih hforwarded hclient

end

end ToolOrderStore

/-- Every run of calls on one session and model forwards permutations of the client's arrays. An
array that contains what was forwarded last, and keeps it at its head, goes out behind it; and the
forwarded array itself, sent again, goes out as it is if its unnamed definitions are its last
ones. -/
theorem forwardedArrays_stable (capacity : ℕ) (sessionKey model : String)
    (turns : List (List Json)) (hunmarked : ∀ tools ∈ turns, anyToolMarked tools = false) :
    List.Forall₂ List.Perm
      ((ToolOrderStore.new capacity).forwardedArrays sessionKey model turns) turns ∧
    ∀ (t : ℕ) (forwarded client : List Json),
      ((ToolOrderStore.new capacity).forwardedArrays sessionKey model turns)[t]? = some forwarded →
      turns[t + 1]? = some client → forwarded.Subperm client →
      ∃ next, ((ToolOrderStore.new capacity).forwardedArrays sessionKey model turns)[t + 1]? =
          some next ∧
        (LeadsAgain forwarded client → forwarded <+: next) ∧
        (client = forwarded →
          forwarded = keyed toolName forwarded ++ unkeyed toolName forwarded →
          next = forwarded) := by
  refine ⟨ToolOrderStore.forwardedArrays_perm, fun t forwarded client hforwarded hclient hsub => ?_⟩
  have hmarked := hunmarked client (List.mem_of_getElem? hclient)
  refine ⟨_, ToolOrderStore.forwardedArrays_succ hforwarded hclient,
    (forwarded_prefix_iff hmarked hsub).mpr, ?_⟩
  rintro rfl hlast
  have hpre := (forwarded_prefix_iff hmarked hsub).mpr (leadsAgain_self hlast)
  exact (hpre.eq_of_length (stabilizeToolOrder_perm _ _).length_eq.symm).symm

/-! ### Runs of named and unnamed tools -/

/-- A tool of a name. -/
def namedTool (name tag : String) : Json := .obj [("name", .str name), ("tag", .str tag)]

/-- A tool without a name. -/
def unnamedTool (tag : String) : Json := .obj [("tag", .str tag)]

/-- Two turns, the second one with a late tool between the old ones. -/
def lateTurns : List (List Json) :=
  [[namedTool "a" "1", namedTool "b" "2", unnamedTool "3"],
    [unnamedTool "3", namedTool "a" "1", namedTool "c" "4", namedTool "b" "2"]]

/-- The late tool goes out behind what was forwarded before it. -/
theorem forwardedArrays_stable_late :
    ∃ next, ((ToolOrderStore.new 1).forwardedArrays "s" "m" lateTurns)[1]? = some next ∧
      [namedTool "a" "1", namedTool "b" "2", unnamedTool "3"] <+: next := by
  have hsub : [namedTool "a" "1", namedTool "b" "2", unnamedTool "3"].Subperm
      [unnamedTool "3", namedTool "a" "1", namedTool "c" "4", namedTool "b" "2"] :=
    List.subperm_ext_iff.mpr (by decide +kernel)
  obtain ⟨next, hnext, hleads, -⟩ := (forwardedArrays_stable 1 "s" "m" lateTurns
    (by decide +kernel)).2 0 _ _ rfl rfl hsub
  exact ⟨next, hnext, hleads ⟨by decide +kernel, by decide +kernel, by decide +kernel⟩⟩

/-- On a run of unmarked arrays the second one contains what was forwarded for the first one, and
goes out without it at its head. -/
def LosesHead (turns : List (List Json)) (forwarded client next : List Json) : Prop :=
  (∀ tools ∈ turns, anyToolMarked tools = false) ∧
  (ToolOrderStore.new 1).forwardedArrays "s" "m" turns = [forwarded, next] ∧
  turns[1]? = some client ∧ forwarded.Subperm client ∧ ¬ forwarded <+: next

/-- An unnamed definition in front of a named one is moved when the same array is sent again; two
definitions of one name go out in the client's order; and an unnamed definition stays behind the new
ones that the client puts in front of it. -/
theorem forwardedArrays_unstable :
    LosesHead [[unnamedTool "1", namedTool "a" "2"], [unnamedTool "1", namedTool "a" "2"]]
      [unnamedTool "1", namedTool "a" "2"] [unnamedTool "1", namedTool "a" "2"]
      [namedTool "a" "2", unnamedTool "1"] ∧
    LosesHead [[namedTool "a" "1", namedTool "a" "2"], [namedTool "a" "2", namedTool "a" "1"]]
      [namedTool "a" "1", namedTool "a" "2"] [namedTool "a" "2", namedTool "a" "1"]
      [namedTool "a" "2", namedTool "a" "1"] ∧
    LosesHead [[namedTool "a" "1", unnamedTool "2"],
        [namedTool "a" "1", namedTool "b" "3", unnamedTool "2"]]
      [namedTool "a" "1", unnamedTool "2"] [namedTool "a" "1", namedTool "b" "3", unnamedTool "2"]
      [namedTool "a" "1", namedTool "b" "3", unnamedTool "2"] := by
  refine ⟨⟨?_, ?_, rfl, List.subperm_ext_iff.mpr ?_, ?_⟩,
    ⟨?_, ?_, rfl, List.subperm_ext_iff.mpr ?_, ?_⟩,
    ⟨?_, ?_, rfl, List.subperm_ext_iff.mpr ?_, ?_⟩⟩ <;> decide +kernel

end Headroom.Tools
