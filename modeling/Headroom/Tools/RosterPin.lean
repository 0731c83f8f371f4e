import Mathlib.Data.List.Induction
import Headroom.Tools.Order

/-!
# The pinned tool roster

Every tool that a session offered is remembered in first-seen order. On a later turn a remembered
tool that the client left out is put back at its place, and new ones go to the end.

## Main results

* `forwardedArrays_grows` : every run forwards what it is sent, every name offered, and grows at its
  end.
-/

open Foundation Foundation.Claim

namespace Headroom.Tools

/-! ### One array -/

/-- Every tool one session has offered, in first-seen order, with the definition last seen. -/
abbrev Roster := List (String × Json)

/-- What one turn's pin did to the roster: remembered tools put back, and tools seen for the first
time. -/
structure PinOutcome where
  reinserted : List String
  appended : List String
  deriving DecidableEq

/-- The outcome of a turn that goes out as the client sent it. -/
def PinOutcome.unchanged : PinOutcome := ⟨[], []⟩

/-- The roster while it is rebuilt: the client's tools not placed yet, the roster and the array so
far, and the names put back. -/
structure Pinning where
  current : List (Option Json)
  remembered : Roster
  out : List Json
  reinserted : List String

/-- A remembered tool goes out with the client's definition, or with the remembered one. -/
def Pinning.place (p : Pinning) (slot : String × Json) : Pinning :=
  match p.current.findIdx? fun t => t.bind toolName == some slot.1 with
  | some i =>
    let t := (p.current[i]?.join).getD slot.2
    { current := p.current.set i none
      remembered := p.remembered ++ [(slot.1, t)]
      out := p.out ++ [t]
      reinserted := p.reinserted }
  | none =>
    { current := p.current
      remembered := p.remembered ++ [slot]
      out := p.out ++ [slot.2]
      reinserted := p.reinserted ++ [slot.1] }

/-- A tool beside the remembered block goes out behind it; a new name is remembered. -/
def appendTool (s : Roster × List String × List Json) (t : Json) :
    Roster × List String × List Json :=
  match toolName t with
  | some name =>
    if s.1.any fun slot => slot.1 == name then (s.1, s.2.1, s.2.2 ++ [t])
    else (s.1 ++ [(name, t)], s.2.1 ++ [name], s.2.2 ++ [t])
  | none => (s.1, s.2.1, s.2.2 ++ [t])

/-- Record one tool without rewriting anything. -/
def rememberTool (remembered : Roster) (t : Json) : Roster :=
  match toolName t with
  | none => remembered
  | some name =>
    if remembered.any fun slot => slot.1 == name then
      let i := remembered.findIdx fun slot => slot.1 == name
      remembered.set i (name, t)
    else remembered ++ [(name, t)]

/-- The array rebuilt against the remembered roster, and the roster that is remembered from then
on. -/
def pinToolRoster (tools : List Json) (remembered : Roster) : PinOutcome × List Json × Roster :=
  -- An array without tools offers the model nothing on purpose.
  if tools.isEmpty then (.unchanged, tools, remembered)
  else if anyToolMarked tools then (.unchanged, tools, tools.foldl rememberTool remembered)
  else
    let p := remembered.foldl Pinning.place ⟨tools.map some, [], [], []⟩
    let (roster, appended, out) := p.current.reduceOption.foldl appendTool (p.remembered, [], p.out)
    let appended := if p.reinserted.isEmpty && out.length = appended.length then [] else appended
    (⟨p.reinserted, appended⟩, out, roster)

/-! ### The memory of sessions -/

/-- The rosters of sessions and models. -/
structure RosterPinStore where
  inner : Lru String Roster

namespace RosterPinStore

/-- An empty store; a capacity of zero counts as one. -/
def new (capacity : ℕ) : RosterPinStore :=
  ⟨Lru.empty (max capacity 1) (one_le_max capacity)⟩

/-- Pin an array to what the session offered before, and remember the result. -/
def pin (s : RosterPinStore) (sessionKey model : String) (tools : List Json) :
    (PinOutcome × List Json) × RosterPinStore :=
  let key := toolKey sessionKey model
  let (outcome, out, roster) := pinToolRoster tools ((s.inner.peek key).getD [])
  ((outcome, out), ⟨s.inner.put key roster⟩)

/-- The arrays that a run of calls on one session and model forwards. -/
def forwardedArrays (s : RosterPinStore) (sessionKey model : String) :
    List (List Json) → List (List Json)
  | [] => []
  | tools :: turns =>
    let (result, s) := s.pin sessionKey model tools
    result.2 :: s.forwardedArrays sessionKey model turns

end RosterPinStore

/-! ### New names -/

/-- The first definitions of the names that are not known. -/
def newTools (known : List String) (tools : List Json) : List Json := fresh toolName known tools

/-- The names that turns offer, in first-seen order, behind those known before. -/
def offered (known : List String) (turns : List (List Json)) : List String :=
  turns.foldl (fun known tools => known ++ toolOrder (newTools known tools)) known

/-- The duplicates and unnamed definitions of an array. -/
def extraTools (known : List String) (tools : List Json) : List Json :=
  left toolName (known ++ toolOrder (newTools known tools)) tools

/-! ### What one array becomes -/

section

variable {tools : List Json} {remembered : Roster}

theorem place_foldl (remembered : Roster) (p : Pinning) :
    (remembered.foldl Pinning.place p).out = p.out ++
      List.zipWith (fun slot hit => hit.getD slot.2) remembered
        (hits toolName (remembered.map Prod.fst) p.current.reduceOption) ∧
    (remembered.foldl Pinning.place p).remembered = p.remembered ++
      List.zipWith (fun slot hit => (slot.1, hit.getD slot.2)) remembered
        (hits toolName (remembered.map Prod.fst) p.current.reduceOption) ∧
    (remembered.foldl Pinning.place p).current.reduceOption =
      left toolName (remembered.map Prod.fst) p.current.reduceOption := by
  induction remembered generalizing p with
  | nil => exact ⟨(List.append_nil _).symm, (List.append_nil _).symm, rfl⟩
  | cons slot remembered ih =>
    have hsame : (p.current.findIdx? fun t => t.bind toolName == some slot.1) =
        p.current.findIdx? fun t => t.any (has toolName slot.1) := by
      congr 1
      funext t
      cases t with
      | none => rfl
      | some tool =>
        by_cases ht : toolName tool = some slot.1
        · simp [has, ht]
        · simp [has, ht]
    rw [List.foldl_cons, List.map_cons, hits, left]
    cases hidx : p.current.findIdx? fun t => t.bind toolName == some slot.1 with
    | none =>
      have hstep : p.place slot = ⟨p.current, p.remembered ++ [slot], p.out ++ [slot.2],
          p.reinserted ++ [slot.1]⟩ := by
        simp only [Pinning.place, hidx]
      rw [hsame] at hidx
      have hnone := find?_of_findIdx?_eq_none hidx
      obtain ⟨hout, hroster, hcurrent⟩ := ih (p.place slot)
      rw [hout, hroster, hcurrent, hstep, hnone, eraseP_of_find?_eq_none hnone]
      simp
    | some i =>
      have hstep : p.place slot = ⟨p.current.set i none,
          p.remembered ++ [(slot.1, (p.current[i]?.join).getD slot.2)],
          p.out ++ [(p.current[i]?.join).getD slot.2], p.reinserted⟩ := by
        simp only [Pinning.place, hidx]
      rw [hsame] at hidx
      obtain ⟨tool, hopen, hfind, herase⟩ := find?_of_findIdx? hidx
      obtain ⟨hout, hroster, hcurrent⟩ := ih (p.place slot)
      rw [hout, hroster, hcurrent, hstep, hfind, herase, hopen]
      simp

theorem appendTool_foldl (tools : List Json) (s : Roster × List String × List Json) :
    tools.foldl appendTool s =
      (s.1 ++ (newTools (s.1.map Prod.fst) tools).map fun t => ((toolName t).getD "", t),
        s.2.1 ++ toolOrder (newTools (s.1.map Prod.fst) tools), s.2.2 ++ tools) := by
  induction tools generalizing s with
  | nil => simp [newTools, fresh, toolOrder]
  | cons t tools ih =>
    rw [List.foldl_cons, ih]
    cases hname : toolName t with
    | none =>
      have hstep : newTools (s.1.map Prod.fst) (t :: tools) = newTools (s.1.map Prod.fst) tools := by
        simp only [newTools, fresh, hname]
      simp [appendTool, hname, hstep]
    | some name =>
      have hmem : (s.1.any fun slot => slot.1 == name) = true ↔ name ∈ s.1.map Prod.fst := by
        simp [List.any_eq_true]
      by_cases hknown : name ∈ s.1.map Prod.fst
      · have hstep : newTools (s.1.map Prod.fst) (t :: tools) =
            newTools (s.1.map Prod.fst) tools := by
          simp only [newTools, fresh, hname, hknown, if_true]
        simp only [appendTool, hname, hmem.mpr hknown, if_true, hstep, List.append_assoc,
          List.singleton_append]
      · have hstep : newTools (s.1.map Prod.fst) (t :: tools) =
            t :: newTools (s.1.map Prod.fst ++ [name]) tools := by
          simp only [newTools, fresh, hname, hknown, if_false]
        have hfalse : (s.1.any fun slot => slot.1 == name) = false :=
          Bool.not_eq_true _ |>.mp fun h => hknown (hmem.mp h)
        simp [appendTool, hname, hfalse, hstep, toolOrder]

/-- An array goes out as the remembered block, in the client's definitions where it sent them, and
what the client sends beside it. -/
theorem pinToolRoster_eq (hne : tools ≠ []) (hunmarked : anyToolMarked tools = false) :
    (pinToolRoster tools remembered).2 =
      (List.zipWith (fun slot hit => hit.getD slot.2) remembered
          (hits toolName (remembered.map Prod.fst) tools) ++
        left toolName (remembered.map Prod.fst) tools,
      List.zipWith (fun slot hit => (slot.1, hit.getD slot.2)) remembered
          (hits toolName (remembered.map Prod.fst) tools) ++
        (newTools (remembered.map Prod.fst) tools).map fun t => ((toolName t).getD "", t)) := by
  obtain ⟨hout, hroster, hcurrent⟩ := place_foldl remembered ⟨tools.map some, [], [], []⟩
  simp only [reduceOption_map_some, List.nil_append] at hout hroster hcurrent
  have hnames : (List.zipWith (fun slot hit => (slot.1, hit.getD slot.2)) remembered
      (hits toolName (remembered.map Prod.fst) tools)).map Prod.fst =
      remembered.map Prod.fst := by
    refine List.ext_getElem (by simp) fun i hi hi' => ?_
    simp
  rw [pinToolRoster, if_neg (by simpa using hne), if_neg (by simp [hunmarked])]
  simp only [appendTool_foldl, hout, hroster, hcurrent, hnames]
  rw [newTools, fresh_left fun _ h => h, newTools]

end

/-! ### One definition for each name -/

/-- Every tool of a name is that name's definition. -/
def Defined (definition : String → Json) (tools : List Json) : Prop :=
  ∀ t ∈ tools, ∀ name, toolName t = some name → t = definition name

section

variable {definition : String → Json} {known : List String} {tools : List Json}

/-- The remembered block holds each name's definition, whether the client sent it or not. -/
theorem zipWith_hits (hdefined : Defined definition tools) {β : Type*}
    (f : String → Json → β) : List.zipWith (fun slot hit => f slot.1 (hit.getD slot.2))
      (known.map fun name => (name, definition name)) (hits toolName known tools) =
    known.map fun name => f name (definition name) := by
  induction known generalizing tools with
  | nil => rfl
  | cons name known ih =>
    rw [hits, List.map_cons, List.zipWith_cons_cons, List.map_cons,
      ih fun t ht => hdefined t (List.eraseP_subset ht)]
    refine congrArg (· :: _) ?_
    cases hfind : tools.find? (has toolName name) with
    | none => rfl
    | some t =>
      have hname := has_iff.mp (List.find?_some hfind)
      rw [Option.getD_some, hdefined t (List.mem_of_find?_eq_some hfind) name hname]

theorem newTools_eq (hdefined : Defined definition tools) :
    newTools known tools = (toolOrder (newTools known tools)).map definition := by
  have hsub : newTools known tools ⊆ tools := fresh_sublist.subset
  have hmap := (fresh_keys toolName tools known).1
  rw [toolOrder]
  refine List.ext_getElem ?_ fun i hi hi' => ?_
  · rw [List.length_map, ← List.length_map (f := toolName), newTools, hmap, List.length_map]
  · rw [List.getElem_map]
    refine hdefined _ (hsub (List.getElem_mem hi)) _ ?_
    have hget := congrArg (fun l => l[i]?) hmap
    simp only [List.length_map] at hi'
    rw [newTools] at hi hi'
    simpa [hi, hi', newTools] using hget

variable (known) in
/-- With one definition for each name an array goes out as the known names' definitions and what the
client sends beside them, and its new names are known from then on. -/
theorem pinToolRoster_defined (hne : tools ≠ []) (hunmarked : anyToolMarked tools = false)
    (hdefined : Defined definition tools) :
    (pinToolRoster tools (known.map fun name => (name, definition name))).2 =
      (known.map definition ++ left toolName known tools,
        (known ++ toolOrder (newTools known tools)).map fun name => (name, definition name)) := by
  have hnames : (known.map fun name => (name, definition name)).map Prod.fst = known := by
    rw [List.map_map]
    exact List.map_id known
  rw [pinToolRoster_eq hne hunmarked, hnames, zipWith_hits hdefined fun _ t => t,
    zipWith_hits hdefined Prod.mk, List.map_append]
  refine Prod.ext rfl (congrArg (_ ++ ·) ?_)
  conv_lhs => rw [newTools_eq hdefined]
  rw [List.map_map]
  refine List.map_congr_left fun name hname => ?_
  obtain ⟨t, ht, htname⟩ := List.mem_filterMap.mp hname
  have htdef := hdefined t (fresh_sublist.subset ht) name htname
  rw [Function.comp_apply, ← htdef, htname, Option.getD_some]

end

/-! ### Runs -/

section

variable {definition : String → Json} {known : List String} {turns : List (List Json)}
  {s : RosterPinStore} {sessionKey model : String} {t : ℕ} {client next : List Json}

/-- The arrays of a run: not empty, without markers, and with one definition for each name. -/
structure Plain (definition : String → Json) (turns : List (List Json)) : Prop where
  nonempty : ∀ tools ∈ turns, tools ≠ []
  unmarked : ∀ tools ∈ turns, anyToolMarked tools = false
  defined : ∀ tools ∈ turns, Defined definition tools

theorem RosterPinStore.pin_defined {tools : List Json} (hplain : Plain definition (tools :: turns))
    (hpeek : (s.inner.peek (toolKey sessionKey model)).getD [] =
      known.map fun name => (name, definition name)) :
    (s.pin sessionKey model tools).1.2 = known.map definition ++ left toolName known tools ∧
    ((s.pin sessionKey model tools).2.inner.peek (toolKey sessionKey model)).getD [] =
      (known ++ toolOrder (newTools known tools)).map fun name => (name, definition name) := by
  have hpin := pinToolRoster_defined known
    (hplain.nonempty tools List.mem_cons_self) (hplain.unmarked tools List.mem_cons_self)
    (hplain.defined tools List.mem_cons_self)
  rw [← hpeek] at hpin
  constructor
  · exact congrArg Prod.fst hpin
  · rw [RosterPinStore.pin]
    dsimp only
    rw [Lru.peek_put_self, Option.getD_some]
    exact congrArg Prod.snd hpin

/-- What a run forwards: the definitions of the names offered before, and what the client sends
beside them. -/
theorem RosterPinStore.forwardedArrays_pinned (hplain : Plain definition turns)
    (hpeek : (s.inner.peek (toolKey sessionKey model)).getD [] =
      known.map fun name => (name, definition name)) (hclient : turns[t]? = some client) :
    (s.forwardedArrays sessionKey model turns)[t]? =
      some ((offered known (turns.take t)).map definition ++
        left toolName (offered known (turns.take t)) client) := by
  induction turns generalizing s known t with
  | nil => simp at hclient
  | cons tools turns ih =>
    obtain ⟨hout, hnext⟩ := RosterPinStore.pin_defined hplain hpeek
    cases t with
    | zero =>
      obtain rfl := Option.some.inj hclient
      exact congrArg some hout
    | succ t =>
      have hrest : Plain definition turns :=
        ⟨fun a ha => hplain.nonempty a (List.mem_cons_of_mem _ ha),
          fun a ha => hplain.unmarked a (List.mem_cons_of_mem _ ha),
          fun a ha => hplain.defined a (List.mem_cons_of_mem _ ha)⟩
      exact ih hrest hnext hclient

theorem offered_concat (known : List String) (turns : List (List Json)) (tools : List Json) :
    offered known (turns ++ [tools]) =
      offered known turns ++ toolOrder (newTools (offered known turns) tools) := by
  rw [offered, List.foldl_append]
  rfl

theorem offered_succ (hclient : turns[t]? = some client) :
    offered known (turns.take (t + 1)) = offered known (turns.take t) ++
      toolOrder (newTools (offered known (turns.take t)) client) := by
  obtain ⟨ht, rfl⟩ := List.getElem?_eq_some_iff.mp hclient
  rw [List.take_add_one, List.getElem?_eq_getElem ht, Option.toList_some, offered_concat]

theorem name_of_offered (hdefined : ∀ tools ∈ turns, Defined definition tools) {name : String}
    (hname : name ∈ offered [] turns) : toolName (definition name) = some name := by
  induction turns using List.reverseRecOn with
  | nil => exact absurd hname List.not_mem_nil
  | append_singleton turns tools ih =>
    rw [offered_concat] at hname
    rcases List.mem_append.mp hname with hname | hname
    · exact ih (fun a ha => hdefined a (List.mem_append_left _ ha)) hname
    · obtain ⟨tool, htool, htoolName⟩ := List.mem_filterMap.mp hname
      rwa [← hdefined tools (by simp) tool (fresh_sublist.subset htool) name htoolName]

theorem nodup_offered : (offered [] turns).Nodup := by
  induction turns using List.reverseRecOn with
  | nil => exact List.nodup_nil
  | append_singleton turns tools ih =>
    rw [offered_concat]
    obtain ⟨-, hnodup, hnew⟩ :=
      fresh_keys toolName tools (offered [] turns)
    exact ih.append hnodup fun name hname hfresh => hnew name hfresh hname

theorem mem_offered {tools : List Json} (htools : tools ∈ turns) {tool : Json}
    (htool : tool ∈ tools) {name : String} (hname : toolName tool = some name) :
    name ∈ offered [] turns := by
  induction turns using List.reverseRecOn with
  | nil => exact absurd htools List.not_mem_nil
  | append_singleton turns last ih =>
    rw [offered_concat]
    rcases List.mem_append.mp htools with htools | htools
    · exact List.mem_append_left _ (ih htools)
    · rw [List.mem_singleton.mp htools] at htool
      exact List.mem_append.mpr (known_or_fresh htool hname)

theorem count_forwarded (hknown : known.Nodup)
    (hnames : ∀ name ∈ known, toolName (definition name) = some name)
    (hdefined : Defined definition client) {tool : Json} (htool : tool ∈ client) :
    (known.map definition ++ left toolName known client).count tool = client.count tool := by
  rw [← (perm_claimed toolName known client).count_eq,
    List.count_append, List.count_append, hits_eq_map hknown]
  refine congrArg (· + _) ?_
  clear hknown
  induction known with
  | nil => rfl
  | cons name known ih =>
    have htail := ih fun n hn => hnames n (List.mem_cons_of_mem _ hn)
    rw [List.map_cons, List.map_cons]
    cases hfind : client.find? (has toolName name) with
    | some t =>
      have hname := has_iff.mp (List.find?_some hfind)
      rw [List.reduceOption_cons_of_some,
        hdefined t (List.mem_of_find?_eq_some hfind) name hname, List.count_cons,
        List.count_cons, htail]
    | none =>
      -- The client did not send the name, so what is put back is another definition.
      have hne : definition name ≠ tool := by
        rintro rfl
        exact List.find?_eq_none.mp hfind _ htool
          (has_iff.mpr (hnames name List.mem_cons_self))
      rw [List.reduceOption_cons_of_none, List.count_cons_of_ne hne, htail]

/-- The array forwarded last leads the next one exactly when its new tools go out in front of its
duplicates and unnamed definitions, and these lead what the next array sends beside the known
names. -/
theorem pinned_prefix_iff (hdefined : Defined definition client) :
    known.map definition ++ left toolName known client <+:
        (known ++ toolOrder (newTools known client)).map definition ++
          left toolName (known ++ toolOrder (newTools known client)) next ↔
      left toolName known client = newTools known client ++ extraTools known client ∧
      extraTools known client <+:
        left toolName (known ++ toolOrder (newTools known client)) next := by
  rw [List.map_append, List.append_assoc, List.prefix_append_right_inj,
    ← newTools_eq hdefined]
  obtain ⟨hkeys, -, -⟩ := fresh_keys toolName client known
  have hextra : extraTools known client =
      left toolName (toolOrder (newTools known client)) (left toolName known client) :=
    left_append
  constructor
  · intro hpre
    have hlen : (newTools known client).length ≤ (left toolName known client).length := by
      have hsub : (fresh toolName known (left toolName known client)).Sublist
          (left toolName known client) := fresh_sublist
      rw [fresh_left fun _ h => h] at hsub
      exact hsub.length_le
    obtain ⟨tail, htail⟩ := List.prefix_of_prefix_length_le (List.prefix_append _ _) hpre hlen
    have htail' : extraTools known client = tail := by
      rw [hextra, ← htail]
      exact left_of_map_key hkeys
    refine ⟨by rw [htail', htail], ?_⟩
    rw [← htail] at hpre
    rw [htail']
    exact (List.prefix_append_right_inj _).mp hpre
  · rintro ⟨hsplit, hrest⟩
    rw [hsplit]
    exact (List.prefix_append_right_inj _).mpr hrest

/-- Every run of non-empty arrays without markers, with one definition for each name, forwards each
definition that the client sends as often as it is sent, and every name offered so far. An array that
goes out with its new tools in front of its duplicates and unnamed definitions leads the next one if
these lead what the client sends then beside the names offered; and the same array sent again goes
out as it did. -/
theorem forwardedArrays_grows (capacity : ℕ) (sessionKey model : String)
    (hplain : Plain definition turns) (hclient : turns[t]? = some client) :
    ∃ forwarded, ((RosterPinStore.new capacity).forwardedArrays sessionKey model turns)[t]? =
        some forwarded ∧
      (∀ tool ∈ client, forwarded.count tool = client.count tool) ∧
      (∀ tools ∈ turns.take (t + 1), ∀ tool ∈ tools, ∀ name, toolName tool = some name →
        definition name ∈ forwarded) ∧
      (left toolName (offered [] (turns.take t)) client =
          newTools (offered [] (turns.take t)) client ++
            extraTools (offered [] (turns.take t)) client →
        ∀ next, turns[t + 1]? = some next →
        ∃ forwarded', ((RosterPinStore.new capacity).forwardedArrays sessionKey model
            turns)[t + 1]? = some forwarded' ∧
          (extraTools (offered [] (turns.take t)) client <+:
              left toolName (offered [] (turns.take (t + 1))) next → forwarded <+: forwarded') ∧
          (next = client → forwarded' = forwarded)) := by
  have hempty : ((RosterPinStore.new capacity).inner.peek (toolKey sessionKey model)).getD [] =
      ([] : List String).map fun name => (name, definition name) := rfl
  have hout := RosterPinStore.forwardedArrays_pinned hplain hempty hclient
  have hdefined := hplain.defined client (List.mem_of_getElem? hclient)
  have htaken : ∀ tools ∈ turns.take t, Defined definition tools := fun tools h =>
    hplain.defined tools (List.mem_of_mem_take h)
  refine ⟨_, hout, fun tool htool => ?_, fun tools htools tool htool name hname => ?_,
    fun hsplit next hnext => ?_⟩
  · exact count_forwarded nodup_offered (fun name h => name_of_offered htaken h) hdefined htool
  · have hin := mem_offered htools htool hname
    rw [offered_succ hclient] at hin
    rcases List.mem_append.mp hin with hin | hin
    · exact List.mem_append_left _ (List.mem_map_of_mem hin)
    · have hnew : definition name ∈ newTools (offered [] (turns.take t)) client := by
        rw [newTools_eq hdefined]
        exact List.mem_map_of_mem hin
      rw [newTools, ← fresh_left fun _ h => h] at hnew
      exact List.mem_append_right _ (fresh_sublist.subset hnew)
  · have hout' := RosterPinStore.forwardedArrays_pinned hplain hempty hnext
    refine ⟨_, hout', fun hextra => ?_, fun hsame => ?_⟩
    · rw [offered_succ hclient] at hextra ⊢
      exact (pinned_prefix_iff hdefined).mpr ⟨hsplit, hextra⟩
    · rw [hsame, offered_succ hclient, List.map_append, ← newTools_eq hdefined, hsplit,
        List.append_assoc]
      rfl

end

/-! ### Runs with duplicate and unnamed tools -/

/-- The definition of a name. -/
def plainTool (name : String) : Json := namedTool name "1"

/-- Three turns: a tool drops out, then a new one shows up in front of a duplicate. -/
def flappingTurns : List (List Json) :=
  [[plainTool "a", plainTool "b"], [plainTool "b"], [plainTool "c", plainTool "b", plainTool "b"]]

theorem plain_flappingTurns : Plain plainTool flappingTurns := by
  refine ⟨by decide +kernel, by decide +kernel, fun tools htools t ht name hname => ?_⟩
  have hall : ∀ tools ∈ flappingTurns, ∀ t ∈ tools, t = plainTool ((toolName t).getD "") := by
    decide +kernel
  have := hall tools htools t ht
  rwa [hname, Option.getD_some] at this

/-- The tool that dropped out is put back, and the next array starts with what went out then. -/
theorem forwardedArrays_grows_flapping :
    ∃ forwarded, ((RosterPinStore.new 1).forwardedArrays "s" "m" flappingTurns)[1]? =
        some forwarded ∧ plainTool "a" ∈ forwarded ∧
      ∃ forwarded', ((RosterPinStore.new 1).forwardedArrays "s" "m" flappingTurns)[2]? =
        some forwarded' ∧ forwarded <+: forwarded' := by
  obtain ⟨forwarded, hforwarded, -, hnames, hnext⟩ := forwardedArrays_grows (t := 1) 1 "s" "m"
    plain_flappingTurns (show flappingTurns[1]? = some [plainTool "b"] from rfl)
  obtain ⟨forwarded', hforwarded', hleads, -⟩ := hnext (by decide +kernel)
    [plainTool "c", plainTool "b", plainTool "b"] rfl
  exact ⟨forwarded, hforwarded, hnames [plainTool "a", plainTool "b"] (by simp [flappingTurns])
    (plainTool "a") List.mem_cons_self "a" rfl, forwarded', hforwarded',
    hleads (by decide +kernel)⟩

/-- On a run of two arrays the second one contains the duplicates and unnamed definitions of the first
one, and goes out without the first one at its head. -/
def ShiftsRoster (client next forwarded forwarded' : List Json) : Prop :=
  Plain plainTool [client, next] ∧ (extraTools [] client).Subperm next ∧
  (RosterPinStore.new 1).forwardedArrays "s" "m" [client, next] = [forwarded, forwarded'] ∧
  ¬ forwarded <+: forwarded'

theorem shiftsRoster_of {client next forwarded forwarded' : List Json}
    (h : (∀ tools ∈ [client, next], tools ≠ []) ∧
      (∀ tools ∈ [client, next], anyToolMarked tools = false) ∧
      (∀ tools ∈ [client, next], ∀ t ∈ tools, ∀ name ∈ toolName t, t = plainTool name) ∧
      (∀ t ∈ extraTools [] client, (extraTools [] client).count t ≤ next.count t) ∧
      (RosterPinStore.new 1).forwardedArrays "s" "m" [client, next] = [forwarded, forwarded'] ∧
      ¬ forwarded <+: forwarded') : ShiftsRoster client next forwarded forwarded' := by
  obtain ⟨hnonempty, hunmarked, hdefined, hcount, hout, hnot⟩ := h
  exact ⟨⟨hnonempty, hunmarked, fun tools htools t ht name => hdefined tools htools t ht name⟩,
    List.subperm_ext_iff.mpr hcount, hout, hnot⟩

/-- A first array with a duplicate in front of a new tool goes out in another order when it is sent
again; unnamed definitions go out in the order of the client; and a new tool goes out in front of the
unnamed definitions behind it. -/
theorem forwardedArrays_shifts :
    ShiftsRoster [plainTool "a", plainTool "a", plainTool "b"]
      [plainTool "a", plainTool "a", plainTool "b"]
      [plainTool "a", plainTool "a", plainTool "b"]
      [plainTool "a", plainTool "b", plainTool "a"] ∧
    ShiftsRoster [plainTool "a", unnamedTool "1", unnamedTool "2"]
      [plainTool "a", unnamedTool "2", unnamedTool "1"]
      [plainTool "a", unnamedTool "1", unnamedTool "2"]
      [plainTool "a", unnamedTool "2", unnamedTool "1"] ∧
    ShiftsRoster [plainTool "a", unnamedTool "1"] [plainTool "a", plainTool "b", unnamedTool "1"]
      [plainTool "a", unnamedTool "1"] [plainTool "a", plainTool "b", unnamedTool "1"] := by
  refine ⟨shiftsRoster_of ?_, shiftsRoster_of ?_, shiftsRoster_of ?_⟩
  · decide +kernel
  · decide +kernel
  · decide +kernel

end Headroom.Tools
