import Headroom.OpenAi.ToolCalls

/-!
# The delivery of tool calls

The arguments that come for a call reach the client only as long as the block of the call is the open
one. When they always find it open, every call reaches the client once and whole.

## Main results

* `delivered_once` : every call reaches the client once, with its arguments.
-/

open Foundation

namespace Headroom.OpenAi

open StreamTranslator

/-! ### What the stream leaves true -/

/-- What comes for an announced call finds its block open: a piece of its arguments, and the whole
arguments when no piece came before. A call without arguments at its end has none. -/
def Deliverable (calls : List Call) (phases : ℕ → CallPhase) (t : StreamTranslator) (event : CallEvent) :
    Prop :=
  ∀ i label c, event.call = some (i, label) → calls[i]? = some c → (phases i).announced = true →
    match label with
    | .added => True
    | .delta d => d ≠ "" → t.toolBlockOpenFor event.chunk = true
    | .argsDone => c.args ≠ "" → phases i = .streaming true [] → t.toolBlockOpenFor event.chunk = true
    | .itemDone => phases i = .streaming true [] → c.args = ""

/-- A call as the client should hold it, with a part of its arguments. -/
def Call.toolUse (c : Call) (aliases : Option ToolAlias) (part : List Char) : ToolUse :=
  ⟨c.id, (aliases.map fun aliases => aliases.reverseName c.name).getD c.name, part⟩

/-- The open block is the one of a call that was announced, and the last call that the client holds. -/
def OpenedBy (calls : List Call) (phases : ℕ → CallPhase) (t : StreamTranslator) (i : ℕ) : Prop :=
  ∃ c front name part, calls[i]? = some c ∧ t.openToolIndex = some c.index ∧
    (phases i).announced = true ∧ (phases i).part c = some part ∧ (t.sawArgDelta = true ↔ part ≠ []) ∧
      t.tools = front ++ [⟨c.id, name, part⟩]

/-- The client holds the calls as far as they have come. -/
structure Delivered (calls : List Call) (aliases : Option ToolAlias) (phases : ℕ → CallPhase)
    (t : StreamTranslator) : Prop where
  alive : t.terminated = false
  running : t.terminalEmitted = false
  framed : t.Framed
  names : t.toolAliases = aliases
  claimed : ∀ i c, calls[i]? = some c → (c.id ∈ t.claimedToolIds ↔ ((phases i).part c).isSome)
  announced : ∀ i c, calls[i]? = some c →
    (c.index ∈ t.announcedToolIndices ↔ (phases i).announced = true)
  tools : ∀ i c, calls[i]? = some c → t.tools.filter (fun b => b.id = c.id) =
    (((phases i).part c).map (c.toolUse aliases)).toList
  only : ∀ b ∈ t.tools, ∃ c ∈ calls, b.id = c.id
  opened : t.openBlock = some .tool → ∃ i, OpenedBy calls phases t i
  toolUse : t.sawToolUse = true ↔ ∃ i c, calls[i]? = some c ∧ ((phases i).part c).isSome

section Delivered

variable {calls : List Call} {aliases : Option ToolAlias} {phases : ℕ → CallPhase}
  {t t' : StreamTranslator} {i j : ℕ} {c c' : Call} {phase : CallPhase}

theorem filter_own {b : ToolUse} {id : String} (h : b.id = id) : [b].filter (fun b => b.id = id) = [b] :=
  List.filter_cons_of_pos (decide_eq_true h)

theorem filter_other {b : ToolUse} {id : String} (h : b.id ≠ id) : [b].filter (fun b => b.id = id) = [] :=
  List.filter_cons_of_neg fun heq => h (of_decide_eq_true heq)

theorem Distinct.eq_of_index (h : Distinct calls) (hi : calls[i]? = some c) (hj : calls[j]? = some c')
    (heq : c.index = c'.index) : i = j := by
  have hlt : i < (calls.map Call.index).length := by
    rw [List.length_map]
    exact (List.getElem?_eq_some_iff.mp hi).1
  refine (List.getElem?_inj hlt h.indices).mp ?_
  rw [List.getElem?_map, List.getElem?_map, hi, hj]
  exact congrArg some heq

theorem Distinct.eq_of_id (h : Distinct calls) (hi : calls[i]? = some c) (hj : calls[j]? = some c')
    (heq : c.id = c'.id) : i = j := by
  have hlt : i < (calls.map Call.id).length := by
    rw [List.length_map]
    exact (List.getElem?_eq_some_iff.mp hi).1
  refine (List.getElem?_inj hlt h.ids).mp ?_
  rw [List.getElem?_map, List.getElem?_map, hi, hj]
  exact congrArg some heq

/-- Nothing happens to the calls. -/
theorem Delivered.quiet (h : Delivered calls aliases phases t) (hquiet : t.Quiet t') :
    Delivered calls aliases phases t' := by
  have htools := hquiet.tools h.framed
  have hcalls := hquiet.calls
  refine ⟨hcalls.terminated.trans h.alive, hcalls.terminal.trans h.running, hquiet.framed h.framed,
    hcalls.aliases.trans h.names, ?_, ?_, ?_, ?_, ?_, ?_⟩
  · rw [hcalls.claimed]
    exact h.claimed
  · rw [hcalls.announced]
    exact h.announced
  · rw [htools]
    exact h.tools
  · rw [htools]
    exact h.only
  · intro hopen
    obtain ⟨i, c, front, name, part, hc, hindex, hrest⟩ := h.opened (hquiet.opened hopen)
    refine ⟨i, c, front, name, part, hc, hcalls.toolIndex.trans hindex, ?_⟩
    rw [hcalls.argDelta, htools]
    exact hrest
  · rw [hcalls.toolUse]
    exact h.toolUse

/-- A step of a call that adds nothing to what the client holds. -/
theorem Delivered.same (h : Delivered calls aliases phases t) (hi : calls[i]? = some c)
    (hpart : phase.part c = (phases i).part c) (hannounced : phase.announced = (phases i).announced)
    (hquiet : t.Quiet t') : Delivered calls aliases (Function.update phases i phase) t' := by
  have hpart' : ∀ j c', calls[j]? = some c' → (Function.update phases i phase j).part c' = (phases j).part c' := by
    intro j c' hj
    by_cases hji : j = i
    · subst hji
      obtain rfl := Option.some.inj (hi.symm.trans hj)
      rw [Function.update_self, hpart]
    · rw [Function.update_of_ne hji]
  have hannounced' : ∀ j, (Function.update phases i phase j).announced = (phases j).announced := by
    intro j
    by_cases hji : j = i
    · subst hji
      rw [Function.update_self, hannounced]
    · rw [Function.update_of_ne hji]
  have h := h.quiet hquiet
  refine ⟨h.alive, h.running, h.framed, h.names, ?_, ?_, ?_, h.only, ?_, ?_⟩
  · intro j c' hj
    rw [hpart' j c' hj]
    exact h.claimed j c' hj
  · intro j c' hj
    rw [hannounced' j]
    exact h.announced j c' hj
  · intro j c' hj
    rw [hpart' j c' hj]
    exact h.tools j c' hj
  · intro hopen
    obtain ⟨j, c', front, name, part, hj, hindex, hann, hpartj, hrest⟩ := h.opened hopen
    exact ⟨j, c', front, name, part, hj, hindex, (hannounced' j).trans hann,
      (hpart' j c' hj).trans hpartj, hrest⟩
  · rw [h.toolUse]
    refine ⟨?_, ?_⟩ <;> rintro ⟨j, c', hj, hsome⟩
    · exact ⟨j, c', hj, by rwa [hpart' j c' hj]⟩
    · exact ⟨j, c', hj, by rwa [hpart' j c' hj] at hsome⟩

/-- A call that the client did not hold is a new one. -/
theorem Delivered.started (h : Delivered calls aliases phases t) (hdistinct : Distinct calls)
    (hi : calls[i]? = some c) {part : List Char} (hnone : (phases i).part c = none)
    (hpart : phase.part c = some part) (hheld : t.Held t' c.id c.name part)
    (hannounced : ∀ index, index ∈ t'.announcedToolIndices ↔
      index = c.index ∧ phase.announced = true ∨ index ∈ t.announcedToolIndices)
    (hbefore : (phases i).announced = true → phase.announced = true)
    (hopened : t'.openBlock = some .tool → OpenedBy calls (Function.update phases i phase) t' i)
    (htoolUse : t'.sawToolUse = true) : Delivered calls aliases (Function.update phases i phase) t' := by
  have htools : t'.tools = t.tools ++ [c.toolUse aliases part] := by
    rw [hheld.tools, clientName, h.names]
    rfl
  refine ⟨hheld.terminated.trans h.alive, hheld.terminal.trans h.running, hheld.framed,
    hheld.aliases.trans h.names, ?_, ?_, ?_, ?_, fun hopen => ⟨i, hopened hopen⟩, ?_⟩
  · intro j c' hj
    rw [hheld.claimed, List.mem_cons]
    by_cases hji : j = i
    · subst hji
      obtain rfl := Option.some.inj (hi.symm.trans hj)
      rw [Function.update_self, hpart]
      exact iff_of_true (Or.inl rfl) rfl
    · rw [Function.update_of_ne hji, ← h.claimed j c' hj]
      exact or_iff_right fun heq => hji (hdistinct.eq_of_id hj hi heq)
  · intro j c' hj
    rw [hannounced]
    by_cases hji : j = i
    · subst hji
      obtain rfl := Option.some.inj (hi.symm.trans hj)
      rw [Function.update_self, h.announced j c hj]
      exact ⟨fun hor => hor.elim And.right hbefore, fun hann => Or.inl ⟨rfl, hann⟩⟩
    · rw [Function.update_of_ne hji, ← h.announced j c' hj]
      exact or_iff_right fun heq => hji (hdistinct.eq_of_index hj hi heq.1)
  · intro j c' hj
    rw [htools, List.filter_append, h.tools j c' hj]
    by_cases hji : j = i
    · subst hji
      obtain rfl := Option.some.inj (hi.symm.trans hj)
      rw [Function.update_self, hpart, hnone, filter_own (show (c.toolUse aliases part).id = c.id from rfl)]
      rfl
    · have hne : (c.toolUse aliases part).id ≠ c'.id := fun heq =>
        hji (hdistinct.eq_of_id hj hi heq.symm)
      rw [Function.update_of_ne hji, filter_other hne, List.append_nil]
  · intro b hb
    rw [htools, List.mem_append, List.mem_singleton] at hb
    rcases hb with hb | rfl
    · exact h.only b hb
    · exact ⟨c, List.mem_of_getElem? hi, rfl⟩
  · refine iff_of_true htoolUse ⟨i, c, hi, ?_⟩
    rw [Function.update_self, hpart]
    rfl

/-- What the open block is. -/
theorem Delivered.openedBy (h : Delivered calls aliases phases t) (hdistinct : Distinct calls)
    (hi : calls[i]? = some c) {chunk : Json} (hindex : outputIndex chunk = some c.index)
    (hopen : t.toolBlockOpenFor chunk = true) : OpenedBy calls phases t i := by
  rw [toolBlockOpenFor, Bool.and_eq_true, decide_eq_true_eq] at hopen
  obtain ⟨j, c', front, name, part, hj, hindex', hrest⟩ := h.opened hopen.1
  have heq := hopen.2
  rw [hindex', hindex] at heq
  obtain rfl := hdistinct.eq_of_index hj hi (of_decide_eq_true heq)
  exact ⟨c', front, name, part, hj, hindex', hrest⟩

theorem Delivered.not_open (h : Delivered calls aliases phases t) (hdistinct : Distinct calls)
    (hi : calls[i]? = some c) {chunk : Json} (hindex : outputIndex chunk = some c.index)
    (hannounced : (phases i).announced = false) : t.toolBlockOpenFor chunk = false := by
  rw [← Bool.not_eq_true]
  intro hopen
  obtain ⟨_, _, _, _, _, _, hann, _⟩ := h.openedBy hdistinct hi hindex hopen
  rw [hannounced] at hann
  exact absurd hann (by decide)

theorem Delivered.extended (h : Delivered calls aliases phases t) (hdistinct : Distinct calls)
    (hi : calls[i]? = some c) {args : String} {part : List Char} (hargs : args ≠ "")
    (hopen : t.openBlock = some .tool) (hopened : OpenedBy calls phases t i)
    (hpart : (phases i).part c = some part) (hpart' : phase.part c = some (part ++ args.toList))
    (hannounced : phase.announced = (phases i).announced) :
    Delivered calls aliases (Function.update phases i phase) (t.emitArgs args) := by
  obtain ⟨c', front, name, part', hc', hindex, hann, hpart'', -, htools⟩ := hopened
  obtain rfl := Option.some.inj (hi.symm.trans hc')
  obtain rfl := Option.some.inj (hpart.symm.trans hpart'')
  obtain ⟨front', id, name', part', htools', hnew, hframed⟩ :=
    tools_emitInput hopen h.framed args
  obtain ⟨rfl, hlast⟩ := List.append_inj' (htools'.symm.trans htools) rfl
  obtain ⟨rfl, rfl, rfl⟩ := ToolUse.mk.inj (List.singleton_inj.mp hlast)
  have hnew : (t.emitArgs args).tools = front' ++ [⟨c.id, name', part' ++ args.toList⟩] := hnew
  have hown := h.tools i c hi
  rw [htools', List.filter_append, filter_own (show (ToolUse.mk c.id name' part').id = c.id from rfl),
    hpart] at hown
  have hown' : _ ++ [_] = [] ++ [c.toolUse aliases part'] := hown
  obtain ⟨hfront, hbody⟩ := List.append_inj' hown' rfl
  refine ⟨h.alive, h.running, hframed, h.names, ?_, ?_, ?_, ?_, fun _ => ⟨i, ?_⟩, ?_⟩
  · intro j c' hj
    by_cases hji : j = i
    · subst hji
      obtain rfl := Option.some.inj (hi.symm.trans hj)
      rw [Function.update_self, hpart']
      exact (h.claimed j c hj).trans (by rw [hpart]; rfl)
    · rw [Function.update_of_ne hji]
      exact h.claimed j c' hj
  · intro j c' hj
    by_cases hji : j = i
    · subst hji
      obtain rfl := Option.some.inj (hi.symm.trans hj)
      rw [Function.update_self, hannounced]
      exact h.announced j c hj
    · rw [Function.update_of_ne hji]
      exact h.announced j c' hj
  · intro j c' hj
    rw [hnew, List.filter_append]
    by_cases hji : j = i
    · subst hji
      obtain rfl := Option.some.inj (hi.symm.trans hj)
      rw [Function.update_self, hpart',
        filter_own (show (ToolUse.mk c.id name' (part' ++ args.toList)).id = c.id from rfl), hfront]
      exact congrArg (fun b : ToolUse => [{ b with partialJson := part' ++ args.toList }])
        (List.singleton_inj.mp hbody)
    · have hne : c.id ≠ c'.id := fun heq => hji (hdistinct.eq_of_id hj hi heq.symm)
      have hother := h.tools j c' hj
      rw [htools', List.filter_append, filter_other hne] at hother
      rw [Function.update_of_ne hji, filter_other hne]
      exact hother
  · intro b hb
    rw [hnew, List.mem_append, List.mem_singleton] at hb
    rcases hb with hb | rfl
    · exact h.only b (htools'.symm ▸ List.mem_append_left _ hb)
    · exact ⟨c, List.mem_of_getElem? hi, rfl⟩
  · refine ⟨c, front', name', part' ++ args.toList, hi, hindex, ?_, ?_, ?_, hnew⟩
    · rw [Function.update_self, hannounced, hann]
    · rw [Function.update_self, hpart']
    · refine iff_of_true rfl fun hnil => hargs ?_
      exact String.toList_eq_nil_iff.mp (List.append_eq_nil_iff.mp hnil).2
  · show t.sawToolUse = true ↔ _
    rw [h.toolUse]
    refine iff_of_true ⟨i, c, hi, by rw [hpart]; rfl⟩ ⟨i, c, hi, ?_⟩
    rw [Function.update_self, hpart']
    rfl

/-! ### The events of a call -/

variable {B : Base64} {name : String} {chunk : Json} {label : CallLabel}

theorem Delivered.onAdded (h : Delivered calls aliases phases t) (hdistinct : Distinct calls)
    (hi : calls[i]? = some c) (hindex : outputIndex chunk = some c.index) (hitem : c.IsItem chunk)
    (hphase : phases i = .waiting) :
    Delivered calls aliases (Function.update phases i (.streaming true [])) (t.onOutputItemAdded chunk) := by
  have hraw : c.id ∉ t.claimedToolIds := by
    rw [h.claimed i c hi, hphase]
    exact Bool.false_ne_true
  have hstart := held_startCall h.framed hraw c.name
  have hannounced := (sameCalls_startBlock
    ((t.claimToolId c.id).captureToolName c.name) .tool).announced
  rw [onOutputItemAdded, if_pos hitem.type, hitem.id, hitem.name, hindex]
  have hheld : t.Held (((t.startCall c.id c.name).noteCall (some c.index)).announce (some c.index))
      c.id c.name [] :=
    ⟨hstart.framed, hstart.claimed, hstart.aliases, hstart.terminal, hstart.terminated, hstart.tools⟩
  refine h.started hdistinct hi (by rw [hphase]; rfl)
    (show (CallPhase.streaming true []).part c = some [] from rfl) hheld ?_ (fun _ => rfl) ?_ rfl
  · intro index
    show index ∈ c.index :: (t.startCall c.id c.name).announcedToolIndices ↔ _
    rw [List.mem_cons, show (t.startCall c.id c.name).announcedToolIndices = _ from hannounced]
    exact or_congr_left (and_iff_left rfl).symm
  · intro _
    refine ⟨c, t.tools, t.clientName c.name, [], hi, rfl, ?_, ?_, ?_, hheld.tools⟩
    · rw [Function.update_self]
      rfl
    · rw [Function.update_self]
      rfl
    · exact iff_of_false Bool.false_ne_true (not_not.mpr rfl)

theorem Delivered.onDelta (h : Delivered calls aliases phases t) (hdistinct : Distinct calls)
    (hi : calls[i]? = some c) (hindex : outputIndex chunk = some c.index)
    (hannounced : phase.announced = (phases i).announced)
    (hpart : phase.part c =
      ((phases i).part c).map (· ++ (deltaOf chunk).toList))
    (hnone : (phases i).announced = false → (phases i).part c = none)
    (hopen : (phases i).announced = true → deltaOf chunk ≠ "" →
      t.toolBlockOpenFor chunk = true) :
    Delivered calls aliases (Function.update phases i phase) (t.onFunctionArgsDelta chunk) := by
  rw [onFunctionArgsDelta, nonEmptyField_delta]
  by_cases hempty : deltaOf chunk = ""
  · rw [if_pos hempty]
    refine h.same hi (hpart.trans ?_) hannounced (.refl t)
    rw [hempty]
    show ((phases i).part c).map (· ++ []) = _
    simp only [List.append_nil, Option.map_id']
  · rw [if_neg hempty]
    by_cases hfor : t.toolBlockOpenFor chunk = true
    · have hopened := h.openedBy hdistinct hi hindex hfor
      have hopened' := hopened
      obtain ⟨c', _, _, part, hc', -, -, hsome, -⟩ := hopened'
      obtain rfl := Option.some.inj (hi.symm.trans hc')
      refine (congrArg _ (if_pos hfor)).mpr (h.extended hdistinct hi hempty
        (openBlock_of_openFor hfor) hopened hsome ?_ hannounced)
      rw [hpart, hsome]
      rfl
    · have hann : (phases i).announced = false :=
        Bool.eq_false_iff.mpr fun hann => hfor (hopen hann hempty)
      refine (congrArg _ (if_neg hfor)).mpr (h.same hi ?_ hannounced (.refl t))
      rw [hpart, hnone hann]
      rfl

theorem Delivered.onArgsDone (h : Delivered calls aliases phases t) (hdistinct : Distinct calls)
    (hi : calls[i]? = some c) (hindex : outputIndex chunk = some c.index)
    (hargs : chunk.getStr? "arguments" = some c.args) (hnext : c.Next (phases i) .argsDone phase)
    (hopen : c.args ≠ "" → phases i = .streaming true [] → t.toolBlockOpenFor chunk = true) :
    Delivered calls aliases (Function.update phases i phase) (t.onFunctionArgsDone chunk) := by
  have hannounced : phase.announced = (phases i).announced := by
    generalize phases i = before at hnext
    cases hnext
    rfl
  have hpart : (phases i).announced = false ∧ phase.part c = (phases i).part c ∨
      ∃ part, phases i = .streaming true part ∧ (part = c.args.toList ∨ part = []) ∧
        phase.part c = some c.args.toList := by
    generalize phases i = before at hnext
    cases hnext with
    | argsDone hwhole hfirst =>
      cases before with
      | waiting => exact Or.inl ⟨rfl, rfl⟩
      | streaming announced part =>
        cases announced with
        | false => exact Or.inl ⟨rfl, rfl⟩
        | true => exact Or.inr ⟨part, rfl, hwhole, rfl⟩
      | argsDone announced => exact absurd rfl (hfirst announced)
      | done announced => exact absurd hwhole not_false
  rw [onFunctionArgsDone, nonEmptyField_of_getStr? hargs]
  by_cases hempty : c.args = ""
  · rw [if_pos hempty]
    refine h.same hi ?_ hannounced (.refl t)
    rcases hpart with ⟨-, hpart⟩ | ⟨part, hphase, hwhole, hpart⟩
    · exact hpart
    · rw [hempty] at hwhole hpart
      rw [hpart, hphase, (or_self_iff.mp hwhole : part = [])]
      rfl
  · rw [if_neg hempty]
    by_cases hemit : (t.toolBlockOpenFor chunk && !t.sawArgDelta) = true
    · rw [Bool.and_eq_true, Bool.not_eq_true'] at hemit
      have hopened := h.openedBy hdistinct hi hindex hemit.1
      have hopened' := hopened
      obtain ⟨c', _, _, part, hc', -, hann, hsome, hsaw, -⟩ := hopened'
      obtain rfl := Option.some.inj (hi.symm.trans hc')
      obtain rfl : part = [] := by
        by_contra hne
        rw [hsaw.mpr hne] at hemit
        exact absurd hemit.2 (by decide)
      refine (congrArg _ (if_pos ?_)).mpr (h.extended hdistinct hi hempty
        (openBlock_of_openFor hemit.1) hopened hsome ?_ hannounced)
      · rw [hemit.1, hemit.2]
        rfl
      · rcases hpart with ⟨hfalse, -⟩ | ⟨_, -, -, hpart⟩
        · rw [hfalse] at hann
          exact absurd hann (by decide)
        · exact hpart
    · refine (congrArg _ (if_neg hemit)).mpr (h.same hi ?_ hannounced (.refl t))
      rcases hpart with ⟨-, hpart⟩ | ⟨part, hphase, rfl | rfl, hpart⟩
      · exact hpart
      · rw [hpart, hphase]
        rfl
      · -- Nothing came before, so the block is open and waits for the arguments.
        have hfor := hopen hempty hphase
        obtain ⟨c', _, _, part, hc', -, -, hsome, hsaw, -⟩ := h.openedBy hdistinct hi hindex hfor
        obtain rfl := Option.some.inj (hi.symm.trans hc')
        rw [hphase] at hsome
        obtain rfl := Option.some.inj hsome
        refine absurd ?_ hemit
        rw [hfor, Bool.true_and, Bool.not_eq_true', ← Bool.not_eq_true]
        exact fun htrue => hsaw.mp htrue rfl

theorem Delivered.onItemDone (h : Delivered calls aliases phases t) (hdistinct : Distinct calls)
    (hi : calls[i]? = some c) (hindex : outputIndex chunk = some c.index) (hitem : c.IsItem chunk)
    (hargs : (itemOf chunk).getStr? "arguments" = some c.args)
    (hnext : c.Next (phases i) .itemDone phase)
    (hnothing : phases i = .streaming true [] → c.args = "") :
    Delivered calls aliases (Function.update phases i phase) (t.onOutputItemDone B chunk) := by
  rw [onOutputItemDone, if_pos hitem.type, onFunctionCallDone, hindex]
  obtain ⟨hwhole, rfl⟩ : (phases i).Whole c ∧ phase = .done (phases i).announced := by
    generalize phases i = before at hnext
    cases hnext with
    | itemDone hwhole => exact ⟨hwhole, rfl⟩
  have hmem : (some c.index).any (· ∈ t.announcedToolIndices) = (phases i).announced := by
    rw [Bool.eq_iff_iff, ← h.announced i c hi]
    exact decide_eq_true_iff
  rw [hmem]
  cases hann : (phases i).announced with
  | true =>
    have hpart : (phases i).part c = some c.args.toList := by
      cases hphase : phases i with
      | waiting => rw [hphase] at hann; exact absurd hann (by decide)
      | streaming announced part =>
        rw [hphase] at hann hwhole
        obtain rfl : announced = true := hann
        rcases hwhole with rfl | rfl
        · rfl
        · rw [hnothing hphase]
          rfl
      | argsDone announced =>
        rw [hphase] at hann
        obtain rfl : announced = true := hann
        rfl
      | done announced => rfl
    refine h.same hi hpart.symm hann.symm ?_
    rw [if_pos rfl]
    split
    · exact quiet_closeBlock t
    · exact .refl t
  | false =>
    have hnone : (phases i).part c = none := by
      cases hphase : phases i with
      | waiting => rfl
      | streaming announced part =>
        rw [hphase] at hann
        obtain rfl : announced = false := hann
        rfl
      | argsDone announced =>
        rw [hphase] at hann
        obtain rfl : announced = false := hann
        rfl
      | done announced =>
        rw [hphase] at hwhole
        exact absurd hwhole not_false
    have hraw : rawId (itemOf chunk) ∉ t.claimedToolIds := by
      rw [hitem.id, h.claimed i c hi, hnone]
      exact Bool.false_ne_true
    obtain ⟨hheld, hannounced, huse⟩ :=
      held_recoverUnannouncedCall h.framed hraw hargs
    rw [hitem.id, hitem.name] at hheld
    have hclose := quiet_closeBlockIf (t.recoverUnannouncedCall chunk) .tool
    rw [if_neg Bool.false_ne_true, if_neg (by rw [h.not_open hdistinct hi hindex hann]; decide)]
    refine h.started hdistinct hi hnone rfl (hheld.quiet hclose) ?_ ?_ ?_ (hclose.calls.toolUse.trans huse)
    · intro index
      rw [hclose.calls.announced, hannounced]
      exact (or_iff_right fun hand => Bool.false_ne_true hand.2).symm
    · rw [hann]
      exact id
    · rw [closeBlockIf]
      split_ifs with hopen
      · rw [openBlock_closeBlock]
        exact fun heq => absurd heq (by simp)
      · exact fun heq => absurd heq hopen

theorem Delivered.step_call (h : Delivered calls aliases phases t) (hdistinct : Distinct calls)
    (hname : IsResponses name) (hi : calls[i]? = some c) (hcarries : c.Carries name chunk label)
    (hnext : c.Next (phases i) label phase)
    (hdeliverable : Deliverable calls phases t ⟨some (i, label), name, chunk⟩) :
    Delivered calls aliases (Function.update phases i phase)
      (t.processFrame B ⟨some name, .chunk chunk⟩) := by
  obtain ⟨t', hquiet, hopen, hframe⟩ :=
    @processFrame_eq _ B _ chunk h.alive hname
  have hfor := toolBlockOpenFor_eq hquiet.calls hopen chunk
  have hdeliverable := hdeliverable i label c rfl hi
  have h := h.quiet hquiet
  obtain ⟨hindex, hcarries⟩ := hcarries
  rw [hframe]
  cases label with
  | added =>
    obtain ⟨harm, hitem⟩ := hcarries
    obtain ⟨hphase, rfl⟩ : phases i = .waiting ∧ phase = .streaming true [] := by
      generalize phases i = before at hnext
      cases hnext with
      | added => exact ⟨rfl, rfl⟩
    rw [harm]
    exact h.onAdded hdistinct hi hindex hitem hphase
  | delta d =>
    obtain ⟨harm, rfl⟩ := hcarries
    rw [harm]
    refine h.onDelta hdistinct hi hindex ?_ ?_ ?_ fun hann hne => hfor.trans (hdeliverable hann hne)
    · generalize phases i = before at hnext
      cases hnext <;> rfl
    · generalize phases i = before at hnext
      cases hnext with
      | first => rfl
      | delta announced part =>
        cases announced with
        | true => rfl
        | false => rfl
    · generalize phases i = before at hnext
      intro hann
      cases hnext with
      | first => rfl
      | delta announced part =>
        obtain rfl : announced = false := hann
        rfl
  | argsDone =>
    obtain ⟨harm, hargs⟩ := hcarries
    rw [harm]
    refine h.onArgsDone hdistinct hi hindex hargs hnext fun hne hphase => hfor.trans ?_
    exact hdeliverable (by rw [hphase]; rfl) hne hphase
  | itemDone =>
    obtain ⟨harm, hitem, hargs⟩ := hcarries
    rw [harm]
    exact h.onItemDone hdistinct hi hindex hitem hargs hnext
      fun hphase => hdeliverable (by rw [hphase]; rfl) hphase

end Delivered

/-! ### The end of the turn -/

/-- What a payload lists is the call. -/
structure Call.IsListed (c : Call) (item : Json) : Prop where
  type : item.getStr? "type" = some "function_call"
  id : rawId item = c.id
  name : itemName item = c.name
  args : item.getStr? "arguments" = some c.args

/-- The items that the last event lists. -/
def outputOf (chunk : Json) : List Json := ((chunk.get? "response").bind (Json.getArr? "output")).getD []

/-- The last event of a turn that is not cut off. It lists no call but those of the turn, and every
call that did not come to its end. -/
structure Completes (calls : List Call) (phases : ℕ → CallPhase) (chunk : Json) : Prop where
  whole : incompleteReason chunk ≠ some "max_output_tokens"
  listed : ∀ item ∈ outputOf chunk, item.getStr? "type" = some "function_call" →
    ∃ c ∈ calls, c.IsListed item
  ended : ∀ i c, calls[i]? = some c → (∃ announced, phases i = .done announced) ∨
    (phases i).announced = false ∧ c.id ≠ "" ∧ ∃ item ∈ outputOf chunk, c.IsListed item

section Completed

variable {calls : List Call} {aliases : Option ToolAlias} {phases : ℕ → CallPhase} {t : StreamTranslator}
  {i : ℕ} {c : Call}

theorem CallPhase.part_of_not_announced (c : Call) {phase : CallPhase} (h : phase.announced = false) :
    phase = .done false ∨ phase.part c = none := by
  cases phase with
  | waiting => exact Or.inr rfl
  | streaming announced part =>
    obtain rfl : announced = false := h
    exact Or.inr rfl
  | argsDone announced =>
    obtain rfl : announced = false := h
    exact Or.inr rfl
  | done announced =>
    obtain rfl : announced = false := h
    exact Or.inl rfl

/-- Calls that were not announced may have come to their ends. -/
def Ends (phases phases' : ℕ → CallPhase) : Prop :=
  ∀ j, phases' j = phases j ∨ (phases j).announced = false ∧ phases' j = .done false

theorem Delivered.recover (h : Delivered calls aliases phases t) (hdistinct : Distinct calls) {item : Json}
    (hlisted : item.getStr? "type" = some "function_call" → ∃ c ∈ calls, c.IsListed item) :
    ∃ phases', Delivered calls aliases phases' (t.recoverUnstreamedCall item) ∧ Ends phases phases' ∧
      ∀ i c, calls[i]? = some c → c.IsListed item → c.id ≠ "" → (phases i).announced = false →
        phases' i = .done false := by
  by_cases htype : item.getStr? "type" = some "function_call"
  · obtain ⟨c, hc, hitem⟩ := hlisted htype
    obtain ⟨i, hi⟩ := List.mem_iff_getElem?.mp hc
    have hsame : ∀ j c', calls[j]? = some c' → c'.IsListed item → j = i := fun j c' hj hitem' =>
      hdistinct.eq_of_id hj hi (hitem'.id.symm.trans hitem.id)
    by_cases hid : c.id = "" ∨ c.id ∈ t.claimedToolIds
    · refine ⟨phases, ?_, fun _ => Or.inl rfl, ?_⟩
      · rw [recoverUnstreamedCall, if_neg (not_not.mpr htype), hitem.id, if_pos hid]
        exact h
      · intro j c' hj hitem' hne hann
        obtain rfl := hsame j c' hj hitem'
        obtain rfl := Option.some.inj (hi.symm.trans hj)
        refine (CallPhase.part_of_not_announced c hann).resolve_right fun hnone => ?_
        have hclaimed := (h.claimed j c hi).mp (hid.resolve_left hne)
        rw [hnone] at hclaimed
        exact absurd hclaimed (by decide)
    · obtain ⟨hne, hfree⟩ := not_or.mp hid
      have hnone : (phases i).part c = none := by
        rw [h.claimed i c hi, Option.not_isSome_iff_eq_none] at hfree
        exact hfree
      have hann : (phases i).announced = false := by
        rw [← Bool.not_eq_true]
        intro hann
        cases hphase : phases i with
        | waiting => rw [hphase] at hann; exact absurd hann (by decide)
        | streaming announced part =>
          rw [hphase] at hann hnone
          obtain rfl : announced = true := hann
          exact absurd hnone (by simp [CallPhase.part])
        | argsDone announced =>
          rw [hphase] at hann hnone
          obtain rfl : announced = true := hann
          exact absurd hnone (by simp [CallPhase.part])
        | done announced =>
          rw [hphase] at hnone
          exact absurd hnone (by simp [CallPhase.part])
      obtain ⟨hheld, hannounced, huse, hclosed⟩ :=
        held_recoverUnstreamedCall h.framed htype (by rwa [hitem.id])
          (by rwa [hitem.id]) hitem.args
      rw [hitem.id, hitem.name] at hheld
      refine ⟨Function.update phases i (.done false),
        h.started hdistinct hi hnone rfl hheld ?_ ?_ ?_ huse, ?_, ?_⟩
      · intro index
        rw [hannounced]
        exact (or_iff_right fun hand => Bool.false_ne_true hand.2).symm
      · rw [hann]
        exact id
      · rw [hclosed]
        exact fun heq => absurd heq (by simp)
      · intro j
        by_cases hji : j = i
        · subst hji
          exact Or.inr ⟨hann, Function.update_self ..⟩
        · exact Or.inl (Function.update_of_ne hji _ _)
      · intro j c' hj hitem' _ _
        obtain rfl := hsame j c' hj hitem'
        exact Function.update_self ..
  · refine ⟨phases, ?_, fun _ => Or.inl rfl, fun j c' hj hitem' => absurd hitem'.type htype⟩
    rw [recoverUnstreamedCall, if_pos htype]
    exact h

theorem Delivered.recover_all (hdistinct : Distinct calls) (output : List Json)
    (h : Delivered calls aliases phases t)
    (hlisted : ∀ item ∈ output, item.getStr? "type" = some "function_call" →
      ∃ c ∈ calls, c.IsListed item) :
    ∃ phases', Delivered calls aliases phases' (output.foldl recoverUnstreamedCall t) ∧
      Ends phases phases' ∧
        ∀ item ∈ output, ∀ i c, calls[i]? = some c → c.IsListed item → c.id ≠ "" →
          (phases i).announced = false → phases' i = .done false := by
  induction output generalizing t phases with
  | nil => exact ⟨phases, h, fun _ => Or.inl rfl, fun item hitem => absurd hitem List.not_mem_nil⟩
  | cons item output ih =>
    obtain ⟨phases', h', hends, hdone⟩ := h.recover hdistinct (hlisted item List.mem_cons_self)
    obtain ⟨phases'', h'', hends', hdone'⟩ :=
      ih h' fun item hitem => hlisted item (List.mem_cons_of_mem _ hitem)
    refine ⟨phases'', h'', fun j => ?_, fun item' hitem' i c hi hlist hne hann => ?_⟩
    · rcases hends' j with heq' | ⟨hann', hfalse⟩
      · rw [heq']
        exact hends j
      · refine Or.inr ⟨?_, hfalse⟩
        rcases hends j with heq | ⟨hann, -⟩
        · rwa [heq] at hann'
        · exact hann
    · rcases List.mem_cons.mp hitem' with rfl | hitem'
      · have heq := hdone i c hi hlist hne hann
        rcases hends' i with heq' | ⟨-, hfalse⟩
        · exact heq'.trans heq
        · exact hfalse
      · refine hdone' item' hitem' i c hi hlist hne ?_
        rcases hends i with heq | ⟨-, heq⟩
        · rwa [heq]
        · rw [heq]
          rfl

/-- The turn ends with this stop reason. -/
def StopsWith (t : StreamTranslator) (stopReason : String) : Prop :=
  ∃ front usage, t.events = front ++ [.messageDelta stopReason usage, .messageStop]

/-- The last event of a turn brings what is missing. -/
theorem Delivered.onCompleted (h : Delivered calls aliases phases t) (hdistinct : Distinct calls)
    {chunk : Json} (hcompletes : Completes calls phases chunk) :
    (∀ c ∈ calls, (t.onCompleted chunk).tools.filter (fun b => b.id = c.id) =
      [c.toolUse aliases c.args.toList]) ∧
    (∀ b ∈ (t.onCompleted chunk).tools, ∃ c ∈ calls, b.id = c.id) ∧
      StopsWith (t.onCompleted chunk) (if calls = [] then "end_turn" else "tool_use") := by
  have hnote : t.Quiet (t.noteOutputTokens (responseUsage chunk)) :=
    quiet_of_eq rfl rfl rfl ⟨rfl, rfl, rfl, rfl, rfl, rfl, rfl, rfl⟩
  obtain ⟨phases', h', hends, hdone⟩ :=
    (h.quiet hnote).recover_all hdistinct (outputOf chunk) hcompletes.listed
  have hall : ∀ i c, calls[i]? = some c → (phases' i).part c = some c.args.toList := by
    intro i c hi
    rcases hcompletes.ended i c hi with ⟨announced, hphase⟩ | ⟨hann, hne, item, hitem, hlist⟩
    · rcases hends i with heq | ⟨-, heq⟩
      · rw [heq, hphase]
        rfl
      · rw [heq]
        rfl
    · rw [hdone item hitem i c hi hlist hne hann]
      rfl
  have hrunning : (t.noteOutputTokens (responseUsage chunk)).terminalEmitted = false :=
    h.running
  have heq : t.onCompleted chunk =
      ((outputOf chunk).foldl recoverUnstreamedCall
        (t.noteOutputTokens (responseUsage chunk))).closeBlockFinal.endTurn
          (if calls = [] then "end_turn" else "tool_use") (responseUsage chunk) := by
    rw [StreamTranslator.onCompleted, hrunning, if_neg Bool.false_ne_true,
      recoverUnstreamedCalls]
    have hclose := sameCalls_closeBlockFinal
      ((outputOf chunk).foldl recoverUnstreamedCall
        (t.noteOutputTokens (responseUsage chunk)))
    refine (if_neg ?_).trans (congrArg (endTurn _ · _) ?_)
    · exact fun htrue => Bool.false_ne_true ((hclose.terminal.trans h'.running).symm.trans htrue)
    · rw [completedStopReason, if_neg hcompletes.whole]
      refine (congrArg (fun b : Bool => if b then "tool_use" else "end_turn") hclose.toolUse).trans ?_
      cases hcalls : calls with
      | nil =>
        refine if_neg fun htrue => ?_
        obtain ⟨i, c, hi, -⟩ := h'.toolUse.mp htrue
        rw [hcalls] at hi
        exact absurd hi (by simp)
      | cons c rest =>
        refine if_pos (h'.toolUse.mpr ⟨0, c, by rw [hcalls]; rfl, ?_⟩)
        rw [hall 0 c (by rw [hcalls]; rfl)]
        rfl
  have htools : (t.onCompleted chunk).tools = ((outputOf chunk).foldl recoverUnstreamedCall
      (t.noteOutputTokens (responseUsage chunk))).tools := by
    rw [heq]
    refine (tools_of_blocks ?_).trans
      (tools_of_blocks (blocks_closeBlockFinal _))
    exact (blocks_emit _ _).trans (blocks_emit _ _)
  rw [htools]
  refine ⟨fun c hc => ?_, h'.only, ?_⟩
  · obtain ⟨i, hi⟩ := List.mem_iff_getElem?.mp hc
    rw [h'.tools i c hi, hall i c hi]
    rfl
  · rw [heq]
    exact ⟨_, _, List.append_assoc _ _ _⟩

end Completed

/-! ### Runs -/

/-- The events of calls find their blocks open throughout a stream. -/
def AlwaysDeliverable (B : Base64) (calls : List Call) (t : StreamTranslator) (stream : List CallEvent) :
    Prop :=
  ∀ front event rest phases, stream = front ++ event :: rest → CallStream calls phases front →
    Deliverable calls phases (runCalls B t front) event

theorem runCalls_append (B : Base64) (t : StreamTranslator) (stream : List CallEvent) (event : CallEvent) :
    runCalls B t (stream ++ [event]) =
      (runCalls B t stream).processFrame B ⟨some event.name, .chunk event.chunk⟩ := by
  rw [runCalls, List.foldl_append]
  rfl

variable {calls : List Call} {stream : List CallEvent}

theorem delivered_run {phases : ℕ → CallPhase} {t : StreamTranslator} {B : Base64} (hdistinct : Distinct calls)
    (hnew : Delivered calls t.toolAliases (fun _ => .waiting) t) (h : CallStream calls phases stream)
    (hdeliverable : AlwaysDeliverable B calls t stream) :
    Delivered calls t.toolAliases phases (runCalls B t stream) := by
  have hfront : ∀ {stream : List CallEvent} {event : CallEvent},
      AlwaysDeliverable B calls t (stream ++ [event]) → AlwaysDeliverable B calls t stream := by
    intro stream event h front e rest phases hsplit
    refine h front e (rest ++ [event]) phases ?_
    rw [hsplit, List.append_assoc]
    rfl
  induction h with
  | nil => exact hnew
  | @other phases stream name chunk _ hname hcall ih =>
    have hbefore := ih (hfront hdeliverable)
    obtain ⟨t', hquiet, -, hframe⟩ :=
      @processFrame_eq _ B _ chunk hbefore.alive hname
    rw [runCalls_append, hframe]
    exact hbefore.quiet (hquiet.trans (quiet_onArm t' B hcall))
  | call hstream hname hi hcarries hnext ih =>
    rw [runCalls_append]
    exact (ih (hfront hdeliverable)).step_call hdistinct hname hi hcarries hnext
      (hdeliverable _ _ [] _ rfl hstream)

theorem delivered_newTranslator (calls : List Call) (model : String) (toolAliases : Option ToolAlias)
    (reportTrueUsage : Bool) : Delivered calls toolAliases (fun _ => .waiting)
      (newTranslator model toolAliases reportTrueUsage) := by
  refine ⟨rfl, rfl, fun b hb => absurd hb List.not_mem_nil, rfl, fun i c _ => ?_, fun i c _ => ?_,
    fun i c _ => rfl, fun b hb => absurd hb List.not_mem_nil, fun hopen => absurd hopen (by simp [newTranslator]), ?_⟩
  · exact iff_of_false List.not_mem_nil Bool.false_ne_true
  · exact iff_of_false List.not_mem_nil Bool.false_ne_true
  · refine iff_of_false Bool.false_ne_true ?_
    rintro ⟨i, c, -, hsome⟩
    exact Bool.false_ne_true hsome

/-- The client holds every call once and whole, no other call, and the stop reason says whether there
was one. -/
theorem delivered_once (B : Base64) (calls : List Call) (hdistinct : Distinct calls) (model : String)
    (toolAliases : Option ToolAlias) (reportTrueUsage : Bool) (stream : List CallEvent)
    (phases : ℕ → CallPhase) (h : CallStream calls phases stream) (chunk : Json)
    (hcompletes : Completes calls phases chunk)
    (hdeliverable : AlwaysDeliverable B calls (newTranslator model toolAliases reportTrueUsage) stream) :
    let t := runCalls B (newTranslator model toolAliases reportTrueUsage)
      (stream ++ [⟨none, "response.completed", chunk⟩])
    (∀ c ∈ calls, t.tools.filter (fun b => b.id = c.id) = [c.toolUse toolAliases c.args.toList]) ∧
      (∀ b ∈ t.tools, ∃ c ∈ calls, b.id = c.id) ∧
        StopsWith t (if calls = [] then "end_turn" else "tool_use") := by
  have hrun := delivered_run hdistinct
    (delivered_newTranslator calls model toolAliases reportTrueUsage) h hdeliverable
  have hname : IsResponses "response.completed" := by decide
  have harm : armOf "response.completed" = .completed := by decide
  obtain ⟨t', hquiet, -, hframe⟩ := @processFrame_eq _ B _ chunk hrun.alive hname
  intro t
  have ht : t = t'.onCompleted chunk := by
    show runCalls B _ (stream ++ [_]) = _
    rw [runCalls_append, hframe, harm]
    rfl
  rw [ht]
  exact (hrun.quiet hquiet).onCompleted hdistinct hcompletes

/-! ### Two streams -/

/-- The call as an item of the provider. -/
def Call.item (c : Call) : Json :=
  .obj [("type", .str "function_call"), ("call_id", .str c.id), ("name", .str c.name),
    ("arguments", .str c.args)]

/-- The events of a call, as the provider names them. -/
def Call.event (c : Call) (i : ℕ) (label : CallLabel) : CallEvent :=
  let index := Json.num (toString c.index)
  match label with
  | .added => ⟨some (i, .added), "response.output_item.added",
      .obj [("output_index", index), ("item", c.item)]⟩
  | .delta d => ⟨some (i, .delta d), "response.function_call_arguments.delta",
      .obj [("output_index", index), ("delta", .str d)]⟩
  | .argsDone => ⟨some (i, .argsDone), "response.function_call_arguments.done",
      .obj [("output_index", index), ("arguments", .str c.args)]⟩
  | .itemDone => ⟨some (i, .itemDone), "response.output_item.done",
      .obj [("output_index", index), ("item", c.item)]⟩

/-- A last event that lists nothing. -/
def completedChunk : Json := .obj [("response", .obj [])]

theorem CallStream.event {phases : ℕ → CallPhase} {i : ℕ}
    {c : Call} {phase : CallPhase} (h : CallStream calls phases stream) (hi : calls[i]? = some c)
    (hindex : (Json.num (toString c.index)).asU64? = some c.index) (label : CallLabel)
    (hnext : c.Next (phases i) label phase) :
    CallStream calls (Function.update phases i phase) (stream ++ [c.event i label]) := by
  cases label with
  | added => exact h.call (by decide) hi ⟨hindex, by decide, rfl, rfl, rfl⟩ hnext
  | delta d => exact h.call (by decide) hi ⟨hindex, by decide, rfl⟩ hnext
  | argsDone => exact h.call (by decide) hi ⟨hindex, by decide, rfl⟩ hnext
  | itemDone => exact h.call (by decide) hi ⟨hindex, by decide, ⟨rfl, rfl, rfl⟩, rfl⟩ hnext

theorem Call.Next.unique {c : Call} {phase phase' phase'' : CallPhase} {label : CallLabel}
    (h : c.Next phase label phase') (h' : c.Next phase label phase'') : phase' = phase'' := by
  cases h <;> cases h' <;> rfl

/-- A stream says how far every call has come. -/
theorem CallStream.unique {phases phases' : ℕ → CallPhase}
    (h : CallStream calls phases stream) (h' : CallStream calls phases' stream) : phases = phases' := by
  induction h generalizing phases' with
  | nil =>
    generalize hnil : ([] : List CallEvent) = stream at h'
    cases h' with
    | nil => rfl
    | other => exact absurd hnil (by simp)
    | call => exact absurd hnil (by simp)
  | @other phases stream name chunk _ _ _ ih =>
    generalize hsplit : stream ++ [⟨none, name, chunk⟩] = stream' at h'
    cases h' with
    | nil => exact absurd hsplit (by simp)
    | other h' =>
      obtain ⟨rfl, -⟩ := List.append_inj' hsplit rfl
      exact ih h'
    | call =>
      obtain ⟨-, hevent⟩ := List.append_inj' hsplit rfl
      exact absurd (congrArg CallEvent.call (List.singleton_inj.mp hevent)) (by simp)
  | @call phases stream label name chunk i c phase _ _ hi _ hnext ih =>
    generalize hsplit : stream ++ [⟨some (i, label), name, chunk⟩] = stream' at h'
    cases h' with
    | nil => exact absurd hsplit (by simp)
    | other =>
      obtain ⟨-, hevent⟩ := List.append_inj' hsplit rfl
      exact absurd (congrArg CallEvent.call (List.singleton_inj.mp hevent)) (by simp)
    | call h' _ hi' _ hnext' =>
      obtain ⟨rfl, hevent⟩ := List.append_inj' hsplit rfl
      obtain ⟨rfl, rfl⟩ := Prod.mk.inj (Option.some.inj
        (congrArg CallEvent.call (List.singleton_inj.mp hevent)))
      obtain rfl := Option.some.inj (hi.symm.trans hi')
      obtain rfl := ih h'
      rw [hnext.unique hnext']

/-- A call that comes alone. -/
def firstCall : Call := ⟨0, "a", "f", "\x7b\x7d"⟩

def alone : List CallEvent :=
  [firstCall.event 0 .added, firstCall.event 0 (.delta "\x7b\x7d"), firstCall.event 0 .argsDone, firstCall.event 0 .itemDone]

theorem alwaysDeliverable_alone : AlwaysDeliverable noBase64 [firstCall] (newTranslator "m" none false) alone := by
  have h0 : CallStream [firstCall] (fun _ => .waiting) [] := .nil
  have h1 := h0.event (i := 0) rfl rfl .added .added
  have h2 := h1.event (i := 0) rfl rfl (.delta "\x7b\x7d") (.delta true [] _)
  have h3 := h2.event (i := 0) rfl rfl .argsDone (.argsDone (Or.inl rfl) (by simp))
  intro front event rest phases h hfront i label c hlabel hi hann
  rcases front with _ | ⟨e1, _ | ⟨e2, _ | ⟨e3, _ | ⟨e4, front⟩⟩⟩⟩
  · simp only [alone, List.nil_append, List.cons.injEq] at h
    obtain ⟨rfl, -⟩ := h
    obtain ⟨-, rfl⟩ := Prod.mk.inj (Option.some.inj hlabel)
    exact trivial
  · simp only [alone, List.nil_append, List.cons_append, List.cons.injEq] at h
    obtain ⟨rfl, rfl, -⟩ := h
    obtain ⟨-, rfl⟩ := Prod.mk.inj (Option.some.inj hlabel)
    exact fun _ => by decide +kernel
  · simp only [alone, List.nil_append, List.cons_append, List.cons.injEq] at h
    obtain ⟨rfl, rfl, rfl, -⟩ := h
    obtain ⟨-, rfl⟩ := Prod.mk.inj (Option.some.inj hlabel)
    exact fun _ _ => by decide +kernel
  · simp only [alone, List.nil_append, List.cons_append, List.cons.injEq] at h
    obtain ⟨rfl, rfl, rfl, rfl, -⟩ := h
    obtain ⟨rfl, rfl⟩ := Prod.mk.inj (Option.some.inj hlabel)
    intro hphase
    rw [hfront.unique h3] at hphase
    exact absurd hphase (by decide)
  · have hlength := congrArg List.length h
    simp [alone] at hlength

theorem delivered_once_alone :
    let t := runCalls noBase64 (newTranslator "m" none false)
      (alone ++ [⟨none, "response.completed", completedChunk⟩])
    (∀ c ∈ [firstCall], t.tools.filter (fun b => b.id = c.id) = [c.toolUse none c.args.toList]) ∧
      (∀ b ∈ t.tools, ∃ c ∈ [firstCall], b.id = c.id) ∧ StopsWith t "tool_use" := by
  have h0 : CallStream [firstCall] (fun _ => .waiting) [] := .nil
  have h1 := h0.event (i := 0) rfl rfl .added .added
  have h2 := h1.event (i := 0) rfl rfl (.delta "\x7b\x7d") (.delta true [] _)
  have h3 := h2.event (i := 0) rfl rfl .argsDone (.argsDone (Or.inl rfl) (by simp))
  have h4 := h3.event (i := 0) rfl rfl .itemDone (.itemDone trivial)
  refine delivered_once noBase64 [firstCall] ⟨by decide, by decide⟩ "m" none false alone _ h4 completedChunk
    ⟨by decide, fun item hitem => absurd hitem List.not_mem_nil, fun i c hi => Or.inl ?_⟩
    alwaysDeliverable_alone
  obtain rfl : i = 0 := by
    have hlt := (List.getElem?_eq_some_iff.mp hi).1
    exact Nat.lt_one_iff.mp hlt
  exact ⟨true, rfl⟩

/-- A second call that starts before the arguments of the first have come. -/
def secondCall : Call := ⟨1, "b", "g", "\x7b\x7d"⟩

def interleaved : List CallEvent :=
  [firstCall.event 0 .added, secondCall.event 1 .added, firstCall.event 0 (.delta "\x7b\x7d"),
    firstCall.event 0 .argsDone, firstCall.event 0 .itemDone, secondCall.event 1 (.delta "\x7b\x7d"),
    secondCall.event 1 .argsDone, secondCall.event 1 .itemDone]

/-- The first call reaches the client without its arguments. -/
theorem not_delivered_interleaved : ¬ ∀ (B : Base64) (calls : List Call) (stream : List CallEvent)
    (phases : ℕ → CallPhase) (chunk : Json), Distinct calls → CallStream calls phases stream →
      Completes calls phases chunk → ∀ c ∈ calls,
        (runCalls B (newTranslator "m" none false)
          (stream ++ [⟨none, "response.completed", chunk⟩])).tools.filter (fun b => b.id = c.id) =
            [c.toolUse none c.args.toList] := by
  intro h
  have h0 : CallStream [firstCall, secondCall] (fun _ => .waiting) [] := .nil
  have h1 := h0.event (i := 0) rfl rfl .added .added
  have h2 := h1.event (i := 1) rfl rfl .added .added
  have h3 := h2.event (i := 0) rfl rfl (.delta "\x7b\x7d") (.delta true [] _)
  have h4 := h3.event (i := 0) rfl rfl .argsDone (.argsDone (Or.inl rfl) (by simp))
  have h5 := h4.event (i := 0) rfl rfl .itemDone (.itemDone trivial)
  have h6 := h5.event (i := 1) rfl rfl (.delta "\x7b\x7d") (.delta true [] _)
  have h7 := h6.event (i := 1) rfl rfl .argsDone (.argsDone (Or.inl rfl) (by simp))
  have h8 := h7.event (i := 1) rfl rfl .itemDone (.itemDone trivial)
  have hequal := h noBase64 _ interleaved _ completedChunk ⟨by decide, by decide⟩ h8
    ⟨by decide, fun item hitem => absurd hitem List.not_mem_nil, fun i c hi => Or.inl (by
      have hlt := (List.getElem?_eq_some_iff.mp hi).1
      obtain rfl | rfl : i = 0 ∨ i = 1 := by
        simp only [List.length_cons, List.length_nil] at hlt
        omega
      · exact ⟨true, rfl⟩
      · exact ⟨true, rfl⟩)⟩ firstCall List.mem_cons_self
  revert hequal
  decide +kernel

end Headroom.OpenAi
