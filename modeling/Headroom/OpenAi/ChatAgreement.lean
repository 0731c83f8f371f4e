import Headroom.OpenAi.ChatCalls

/-!
# Streamed and buffered Chat Completions

The tool calls of a stream reach the client as the fragments come, or put together by their index. Both
ways agree when every call starts with a fragment that brings its id and its name, and its arguments
follow before anything else is said or called.

## Main results

* `streamed_eq_buffered` : both agree on proper streams.
-/

open Foundation

namespace Headroom.OpenAi

open StreamTranslator

/-! ### Proper streams -/

/-- The stream ends with a finish reason; what is behind it says nothing. -/
def Finishes (chunks : List Json) (reason : String) : Prop :=
  ∃ front last rest, chunks = front ++ last :: rest ∧ (∀ chunk ∈ front, finishReason? chunk = none) ∧
    finishReason? last = some reason ∧ ∀ chunk ∈ rest, pieces chunk = [] ∧
      (firstChoice chunk).bind (present "finish_reason") = none

/-- The streams on which both agree. -/
structure ChatProper (chunks : List Json) (reason : String) : Prop where
  fragments : ∀ front tc rest, chunks.flatMap pieces = front ++ .fragment tc :: rest →
    ProperFragment front tc
  finish : Finishes chunks reason
  promised : reason = "tool_calls" →
    ∃ tc, .fragment tc ∈ chunks.flatMap pieces ∧ (fragmentId tc).isSome

/-! ### Fragments -/

namespace StreamTranslator

variable {t : StreamTranslator} {tc : Json} {id : String}

/-- Arguments for the call that started last. -/
def withArguments (t : StreamTranslator) (args : String) : StreamTranslator :=
  if args = "" then t else (t.ensureBlock .tool).emitDelta (.inputJson args)

theorem onToolCallFragment_eq (t : StreamTranslator) (tc : Json) : t.onToolCallFragment tc =
    ((fragmentId tc).elim t fun id => t.startCall id ((fragmentName tc).getD "")).withArguments
      ((fragmentArguments tc).getD "") := by
  rw [onToolCallFragment, fragmentId, fragmentArguments]
  cases tc.getStr? "id" <;> cases (tc.get? "function").bind (Json.getStr? "arguments") <;> rfl

theorem held_onToolCallFragment (h : t.Framed) (hid : fragmentId tc = some id)
    (hfree : id ∉ t.claimedToolIds) :
    Held t (t.onToolCallFragment tc) id ((fragmentName tc).getD "")
        ((fragmentArguments tc).getD "").toList ∧
      (t.onToolCallFragment tc).openBlock = some .tool := by
  have hheld := held_startCall h hfree ((fragmentName tc).getD "")
  have hopen : (t.startCall id ((fragmentName tc).getD "")).openBlock = some .tool := rfl
  rw [onToolCallFragment_eq, hid]
  show Held t ((t.startCall id ((fragmentName tc).getD "")).withArguments _) _ _ _ ∧
    ((t.startCall id ((fragmentName tc).getD "")).withArguments _).openBlock = _
  generalize t.startCall id ((fragmentName tc).getD "") = u at hheld hopen
  rw [withArguments]
  split_ifs with hargs
  · rw [hargs]
    exact ⟨hheld, hopen⟩
  · rw [ensureBlock, if_pos hopen]
    exact ⟨hheld.emitInput hopen _, hopen⟩

end StreamTranslator

/-- A call as the client should hold it. -/
def ChatCall.toolUse (aliases : Option ToolAlias) (call : ChatCall) : ToolUse :=
  ⟨call.id, restoreName aliases call.name, call.arguments.toList⟩

/-- The calls that the client holds are those that were read. -/
structure Together (aliases : Option ToolAlias) (front : List Piece) (calls : List ChatCall)
    (t : StreamTranslator) : Prop where
  slots : Slots front calls
  framed : t.Framed
  names : t.toolAliases = aliases
  claimed : ∀ id ∈ t.claimedToolIds, ∃ tc, .fragment tc ∈ front ∧ fragmentId tc = some id
  tools : t.tools = (calls.filter ChatCall.survives).map (ChatCall.toolUse aliases)
  current : ∀ index, Current front index → t.openBlock = some .tool ∧
    ∃ calls' call, calls.filter ChatCall.survives = calls' ++ [call] ∧ call.index = index

section Together

variable {aliases : Option ToolAlias} {front : List Piece} {calls : List ChatCall} {t t' : StreamTranslator}
  {tc : Json} {id : String} {index : ℕ}

theorem Current.of_start (hid : (fragmentId tc).isSome) (h : Current (front ++ [.fragment tc]) index) :
    index = fragmentIndex tc := by
  obtain ⟨before, tc', since, hsplit, hid', rfl, hsince⟩ := h
  rcases List.eq_nil_or_concat since with rfl | ⟨since, piece, rfl⟩
  · obtain ⟨-, heq⟩ := List.append_inj' hsplit rfl
    rw [Piece.fragment.inj (List.singleton_inj.mp heq)]
  · have hlast : .fragment tc = piece := by
      have hsplit' : front ++ [.fragment tc] = (before ++ .fragment tc' :: since) ++ [piece] := by
        rw [hsplit, List.concat_eq_append, List.append_assoc, List.cons_append]
      exact List.singleton_inj.mp (List.append_inj' hsplit' rfl).2
    obtain ⟨tc'', heq, hnone⟩ := hsince piece (by rw [List.concat_eq_append]; exact List.mem_append_right _ List.mem_cons_self)
    obtain rfl := Piece.fragment.inj (hlast.trans heq)
    rw [hnone] at hid
    exact absurd hid (by decide)

theorem Current.of_none (hid : fragmentId tc = none) (h : Current (front ++ [.fragment tc]) index) :
    Current front index := by
  obtain ⟨before, tc', since, hsplit, hid', rfl, hsince⟩ := h
  rcases List.eq_nil_or_concat since with rfl | ⟨since, piece, rfl⟩
  · obtain ⟨-, heq⟩ := List.append_inj' hsplit rfl
    rw [← Piece.fragment.inj (List.singleton_inj.mp heq), hid] at hid'
    exact absurd hid' (by decide)
  · have hsplit' : front ++ [.fragment tc] = (before ++ .fragment tc' :: since) ++ [piece] := by
      rw [hsplit, List.concat_eq_append, List.append_assoc, List.cons_append]
    refine ⟨before, tc', since, (List.append_inj' hsplit' rfl).1, hid', rfl, fun piece' hpiece' => ?_⟩
    refine hsince piece' ?_
    rw [List.concat_eq_append]
    exact List.mem_append_left _ hpiece'

theorem not_current_words : ¬ Current (front ++ [.words]) index := by
  rintro ⟨before, tc', since, hsplit, -, -, hsince⟩
  rcases List.eq_nil_or_concat since with rfl | ⟨since, piece, rfl⟩
  · obtain ⟨-, heq⟩ := List.append_inj' hsplit rfl
    exact absurd (List.singleton_inj.mp heq) (by simp)
  · have hsplit' : front ++ [.words] = (before ++ .fragment tc' :: since) ++ [piece] := by
      rw [hsplit, List.concat_eq_append, List.append_assoc, List.cons_append]
    obtain ⟨tc'', heq, -⟩ := hsince piece (by rw [List.concat_eq_append]; exact List.mem_append_right _ List.mem_cons_self)
    exact absurd ((List.singleton_inj.mp (List.append_inj' hsplit' rfl).2).trans heq) (by simp)

/-- A fragment that starts a call. -/
theorem Together.start (h : Together aliases front calls t) (hid : fragmentId tc = some id)
    (hproper : ProperFragment front tc) :
    Together aliases (front ++ [.fragment tc]) (addFragment calls tc) (t.onToolCallFragment tc) := by
  rw [ProperFragment, hid] at hproper
  obtain ⟨hne, hname, hovertaken, hfresh⟩ := hproper
  have hsome : (fragmentId tc).isSome := by rw [hid]; rfl
  obtain ⟨before, call, behind, hadd, hindex, hfilter, hnodup, hslot, hmem, hmem', hordered⟩ :=
    h.slots.split tc
  have hidle : call.Idle front := by
    refine hslot.resolve_right fun hstarted => ?_
    obtain ⟨tc', htc', hindex', hid'⟩ := hstarted.start
    rw [((hfresh tc' htc').2 (hindex'.trans hindex)).1] at hid'
    exact absurd hid' (by decide)
  have hempty : call.name = "" := by
    by_contra hne'
    obtain ⟨tc', htc', hindex', hname'⟩ := hidle.name hne'
    exact hname' ((hfresh tc' htc').2 (hindex'.trans hindex)).2.1
  have hcall : call.add tc = ⟨fragmentIndex tc, id, (fragmentName tc).getD "", (fragmentArguments tc).getD ""⟩ := by
    rw [ChatCall.add, show tc.getStr? "id" = some id from hid, hempty, hidle.arguments, hindex,
      String.empty_append, String.empty_append]
    rfl
  have hstarted : (call.add tc).Started (front ++ [.fragment tc]) := by
    rw [hcall]
    exact ⟨hne, hname, tc, List.mem_append_right _ List.mem_cons_self, rfl, hsome⟩
  have hbehind : behind.filter ChatCall.survives = [] := by
    obtain ⟨-, hpairs, -⟩ := List.pairwise_append.mp hordered
    refine List.filter_eq_nil_iff.mpr fun y hy hsurvives => ?_
    refine hovertaken ?_
    rw [← hindex]
    refine (List.pairwise_cons.mp hpairs).1 y hy hidle.id fun hyid => ?_
    rw [ChatCall.survives, hyid] at hsurvives
    exact Bool.false_ne_true hsurvives
  have hfilter' : (addFragment calls tc).filter ChatCall.survives =
      calls.filter ChatCall.survives ++ [call.add tc] := by
    rw [hadd, ← hfilter, List.filter_append, List.filter_append, List.filter_cons_of_pos hstarted.survives,
      List.filter_cons_of_neg (by rw [hidle.survives]; decide), hbehind, List.append_nil]
  have hfree : id ∉ t.claimedToolIds := by
    intro hclaimed
    obtain ⟨tc', htc', hid'⟩ := h.claimed id hclaimed
    exact (hfresh tc' htc').1 hid'
  obtain ⟨hheld, hopen⟩ := held_onToolCallFragment h.framed hid hfree
  refine ⟨?_, hheld.framed, hheld.aliases.trans h.names, ?_, ?_, fun index hcurrent => ⟨hopen, ?_⟩⟩
  · rw [hadd]
    exact h.slots.fragment hindex (by rw [hcall]) hnodup hmem hmem' hordered (Or.inr hstarted)
      (fun _ => hidle.id) fun _ _ => hsome
  · rw [hheld.claimed]
    intro id' hid'
    rcases List.mem_cons.mp hid' with rfl | hid'
    · exact ⟨tc, List.mem_append_right _ List.mem_cons_self, hid⟩
    · obtain ⟨tc', htc', hid''⟩ := h.claimed id' hid'
      exact ⟨tc', List.mem_append_left _ htc', hid''⟩
  · rw [hheld.tools, hfilter', List.map_append, h.tools, hcall, clientName, h.names]
    rfl
  · refine ⟨_, _, hfilter', ?_⟩
    rw [hcall, hcurrent.of_start hsome]

/-- A fragment after which the same calls survive. -/
theorem Together.still (h : Together aliases front calls t) {calls' : List ChatCall}
    (hid : fragmentId tc = none) (hslots : Slots (front ++ [.fragment tc]) calls')
    (hfilter : calls'.filter ChatCall.survives = calls.filter ChatCall.survives) :
    Together aliases (front ++ [.fragment tc]) calls' t := by
  refine ⟨hslots, h.framed, h.names, fun id' hid' => ?_, ?_, fun index hcurrent => ?_⟩
  · obtain ⟨tc', htc', hid''⟩ := h.claimed id' hid'
    exact ⟨tc', List.mem_append_left _ htc', hid''⟩
  · rw [hfilter]
    exact h.tools
  · rw [hfilter]
    exact h.current index (hcurrent.of_none hid)

theorem Together.mention (h : Together aliases front calls t) (hid : fragmentId tc = none)
    (hargs : (fragmentArguments tc).getD "" = "")
    (hname : (fragmentName tc).getD "" ≠ "" → ∀ tc', .fragment tc' ∈ front →
      fragmentIndex tc' = fragmentIndex tc → fragmentId tc' = none) :
    Together aliases (front ++ [.fragment tc]) (addFragment calls tc) (t.onToolCallFragment tc) := by
  have ht : t.onToolCallFragment tc = t := by
    rw [onToolCallFragment_eq, hid, hargs]
    rfl
  obtain ⟨before, call, behind, hadd, hindex, hfilter, hnodup, hslot, hmem, hmem', hordered⟩ :=
    h.slots.split tc
  have hcall : call.add tc = { call with name := call.name ++ (fragmentName tc).getD "" } := by
    rw [ChatCall.add, show tc.getStr? "id" = none from hid, hargs, String.append_empty]
    rfl
  have hmono : call.Idle front → ∀ tc', Piece.fragment tc = .fragment tc' →
      fragmentIndex tc' = call.index → fragmentId tc' = none := by
    intro _ tc' htc' _
    rw [← Piece.fragment.inj htc', hid]
  rw [ht, hadd]
  by_cases hempty : (fragmentName tc).getD "" = ""
  · rw [hcall, hempty, String.append_empty]
    refine h.still hid ?_ hfilter
    refine h.slots.fragment hindex hindex hnodup hmem hmem' hordered ?_ id fun hne hid' => absurd hid' hne
    exact hslot.imp (fun hidle => hidle.mono (hmono hidle)) fun hstarted => hstarted.mono _
  · have hidle : call.Idle front := by
      refine hslot.resolve_right fun hstarted => ?_
      obtain ⟨tc', htc', hindex', hid'⟩ := hstarted.start
      rw [hname hempty tc' htc' (hindex'.trans hindex)] at hid'
      exact absurd hid' (by decide)
    have hidle' : (call.add tc).Idle (front ++ [.fragment tc]) := by
      rw [hcall]
      exact ⟨hidle.id, hidle.arguments,
        fun _ => ⟨tc, List.mem_append_right _ List.mem_cons_self, hindex.symm, hempty⟩,
        (hidle.mono (hmono hidle)).unstarted⟩
    refine h.still hid ?_ ?_
    · exact h.slots.fragment hindex (by rw [hcall]; exact hindex) hnodup hmem hmem' hordered (Or.inl hidle')
        (fun _ => hidle.id) fun hne => absurd hidle'.id hne
    · rw [← hfilter, List.filter_append, List.filter_append,
        List.filter_cons_of_neg (by rw [hidle'.survives]; decide),
        List.filter_cons_of_neg (by rw [hidle.survives]; decide)]

/-- Arguments for the call that started last. -/
theorem Together.arguments (h : Together aliases front calls t) (hid : fragmentId tc = none)
    (hargs : (fragmentArguments tc).getD "" ≠ "") (hcurrent : Current front (fragmentIndex tc))
    (hname : (fragmentName tc).getD "" = "") :
    Together aliases (front ++ [.fragment tc]) (addFragment calls tc) (t.onToolCallFragment tc) := by
  obtain ⟨hopen, calls', last, hlast, hlastIndex⟩ := h.current _ hcurrent
  have ht : t.onToolCallFragment tc = t.emitDelta (.inputJson ((fragmentArguments tc).getD "")) := by
    rw [onToolCallFragment_eq, hid]
    show t.withArguments _ = _
    rw [withArguments, if_neg hargs, ensureBlock, if_pos hopen]
  obtain ⟨before, call, behind, hadd, hindex, hfilter, hnodup, hslot, hmem, hmem', hordered⟩ :=
    h.slots.split tc
  have hstarted : call.Started front := by
    refine hslot.resolve_left fun hidle => ?_
    obtain ⟨before', tc', since, rfl, hid', hindex', -⟩ := hcurrent
    rw [hidle.unstarted tc' (List.mem_append_right _ List.mem_cons_self) (hindex'.trans hindex.symm)] at hid'
    exact absurd hid' (by decide)
  have hcall : call.add tc = { call with arguments := call.arguments ++ (fragmentArguments tc).getD "" } := by
    rw [ChatCall.add, show tc.getStr? "id" = none from hid, hname, String.append_empty]
    rfl
  have hstarted' : (call.add tc).Started (front ++ [.fragment tc]) := by
    obtain ⟨-, -, hstart⟩ := hstarted.mono (.fragment tc)
    rw [hcall]
    exact ⟨hstarted.id, hstarted.name, hstart⟩
  rw [List.filter_append, List.filter_cons_of_pos hstarted.survives, hlast] at hfilter
  obtain ⟨rfl, rfl, hbehind⟩ : before.filter ChatCall.survives = calls' ∧ call = last ∧
      behind.filter ChatCall.survives = [] := by
    rcases List.eq_nil_or_concat (behind.filter ChatCall.survives) with hnil | ⟨since, x, hx⟩
    · rw [hnil] at hfilter
      obtain ⟨hcalls, hsingle⟩ := List.append_inj' hfilter rfl
      exact ⟨hcalls, List.singleton_inj.mp hsingle, hnil⟩
    · -- The call is the last one, since no other has its index.
      rw [hx, List.concat_eq_append, ← List.cons_append, ← List.append_assoc] at hfilter
      obtain rfl := List.singleton_inj.mp (List.append_inj' hfilter rfl).2
      have hxmem : x ∈ behind := by
        refine (List.mem_filter.mp (?_ : x ∈ behind.filter ChatCall.survives)).1
        rw [hx, List.concat_eq_append]
        exact List.mem_append_right _ List.mem_cons_self
      rw [List.map_append, List.map_cons, List.nodup_append, List.nodup_cons] at hnodup
      refine absurd ?_ hnodup.2.1.1
      rw [hindex, ← hlastIndex]
      exact List.mem_map_of_mem hxmem
  have hfilter' : (addFragment calls tc).filter ChatCall.survives =
      before.filter ChatCall.survives ++ [call.add tc] := by
    rw [hadd, List.filter_append, List.filter_cons_of_pos hstarted'.survives, hbehind]
  obtain ⟨held, id', name', part, htools, hnew, hframed⟩ :=
    tools_emitInput hopen h.framed ((fragmentArguments tc).getD "")
  rw [ht]
  refine ⟨?_, hframed, h.names, fun id'' hid'' => ?_, ?_, fun index' hcurrent' => ⟨hopen, _, _, hfilter', ?_⟩⟩
  · rw [hadd]
    refine h.slots.fragment hindex (by rw [hcall]; exact hindex) hnodup hmem hmem' hordered
      (Or.inr hstarted') (fun hid'' => absurd hid'' hstarted'.id) fun _ hid'' => absurd hid'' hstarted.id
  · obtain ⟨tc', htc', hsome⟩ := h.claimed id'' hid''
    exact ⟨tc', List.mem_append_left _ htc', hsome⟩
  · have hold := h.tools
    rw [hlast, List.map_append] at hold
    obtain ⟨rfl, hsingle⟩ := List.append_inj' (htools.symm.trans hold) rfl
    obtain ⟨rfl, rfl, rfl⟩ := ToolUse.mk.inj (List.singleton_inj.mp hsingle)
    rw [hnew, hfilter', List.map_append, hcall]
    refine congrArg (fun chars => _ ++ [ToolUse.mk call.id (restoreName aliases call.name) chars]) ?_
    exact String.toList_append.symm
  · obtain ⟨-, calls'', last', hlast', hindex''⟩ := h.current index' (hcurrent'.of_none hid)
    obtain ⟨-, hsingle⟩ := List.append_inj' (hlast.symm.trans hlast') rfl
    rw [← hindex'', ← List.singleton_inj.mp hsingle, hcall]

/-- One fragment. -/
theorem Together.fragment (h : Together aliases front calls t) (hproper : ProperFragment front tc) :
    Together aliases (front ++ [.fragment tc]) (addFragment calls tc) (t.onToolCallFragment tc) := by
  cases hid : fragmentId tc with
  | some id => exact h.start hid hproper
  | none =>
    rw [ProperFragment, hid] at hproper
    obtain ⟨hargs, hname⟩ := hproper
    by_cases hempty : (fragmentArguments tc).getD "" = ""
    · exact h.mention hid hempty hname
    · refine h.arguments hid hempty (hargs hempty) (not_not.mp fun hne => ?_)
      obtain ⟨before, tc', since, rfl, hid', hindex', -⟩ := hargs hempty
      rw [hname hne tc' (List.mem_append_right _ List.mem_cons_self) hindex'] at hid'
      exact absurd hid' (by decide)

/-! ### Chunks -/

/-- A step that leaves the calls alone. -/
theorem Together.quiet (h : Together aliases front calls t) (hquiet : t.Quiet t')
    (hopen : t'.openBlock = t.openBlock) : Together aliases front calls t' := by
  refine ⟨h.slots, hquiet.framed h.framed, hquiet.calls.aliases.trans h.names, ?_,
    (hquiet.tools h.framed).trans h.tools, ?_⟩
  · rw [hquiet.calls.claimed]
    exact h.claimed
  · rw [hopen]
    exact h.current

/-- Words close the block of a call. -/
theorem Together.words (h : Together aliases front calls t) (hquiet : t.Quiet t') :
    Together aliases (front ++ [.words]) calls t' := by
  refine ⟨h.slots.words, hquiet.framed h.framed, hquiet.calls.aliases.trans h.names, fun id hid => ?_,
    (hquiet.tools h.framed).trans h.tools, fun index hcurrent => absurd hcurrent not_current_words⟩
  rw [hquiet.calls.claimed] at hid
  obtain ⟨tc, htc, hid⟩ := h.claimed id hid
  exact ⟨tc, List.mem_append_left _ htc, hid⟩

theorem Together.fragments (h : Together aliases front calls t) (tcs : List Json)
    (hproper : ∀ before tc behind, tcs = before ++ tc :: behind →
      ProperFragment (front ++ before.map .fragment) tc) :
    Together aliases (front ++ tcs.map .fragment) (tcs.foldl addFragment calls)
      (tcs.foldl onToolCallFragment t) := by
  induction tcs generalizing front calls t with
  | nil => rwa [List.map_nil, List.append_nil]
  | cons tc tcs ih =>
    have hfirst := hproper [] tc tcs rfl
    rw [List.map_nil, List.append_nil] at hfirst
    rw [List.map_cons, List.append_cons, List.foldl_cons, List.foldl_cons]
    refine ih (h.fragment hfirst) fun before tc' behind hsplit => ?_
    have hnext := hproper (tc :: before) tc' behind (by rw [hsplit, List.cons_append])
    rwa [List.map_cons, List.append_cons] at hnext

theorem quiet_saying (t : StreamTranslator) {kind : OpenBlock} (hkind : kind ≠ .tool) (f : String → Delta)
    (said : Option String) : t.Quiet (t.saying kind f said) := by
  cases said with
  | none => exact .refl t
  | some said => exact quiet_ensureBlock_emitDelta t hkind _

/-- What one choice adds. -/
theorem Together.delta (h : Together aliases front calls t) (delta : Json)
    (hproper : ∀ before tc behind, deltaPieces delta = before ++ .fragment tc :: behind →
      ProperFragment (front ++ before) tc) :
    Together aliases (front ++ deltaPieces delta)
      (((delta.getArr? "tool_calls").getD []).foldl addFragment calls) (t.onChatDelta delta) := by
  rw [onChatDelta_eq]
  rw [deltaPieces] at hproper ⊢
  rw [← List.append_assoc]
  have hfragments : ∀ front' : List Piece, front' = front ++ (if
      nonEmptyField "reasoning_content" delta = none ∧
        nonEmptyField "content" delta = none then [] else [.words]) →
      ∀ before tc behind, (delta.getArr? "tool_calls").getD [] = before ++ tc :: behind →
        ProperFragment (front' ++ before.map .fragment) tc := by
    rintro _ rfl before tc behind hsplit
    rw [List.append_assoc]
    refine hproper _ tc (behind.map .fragment) ?_
    rw [hsplit, List.map_append, List.map_cons, List.append_assoc]
  refine Together.fragments ?_ _ (hfragments _ rfl)
  by_cases hsilent : nonEmptyField "reasoning_content" delta = none ∧
      nonEmptyField "content" delta = none
  · rw [if_pos hsilent, hsilent.1, hsilent.2, List.append_nil]
    exact h
  · rw [if_neg hsilent]
    exact h.words ((quiet_saying t (by decide) _ _).trans (quiet_saying _ (by decide) _ _))

/-- What a chunk adds, as far as its end. -/
theorem Together.chunk {s : ChatFold} (h : Together aliases front s.calls t) (chunk : Json)
    (hproper : ∀ before tc behind, pieces chunk = before ++ .fragment tc :: behind →
      ProperFragment (front ++ before) tc) :
    Together aliases (front ++ pieces chunk) (s.addChunk chunk).calls (t.behindDelta chunk) := by
  have hready := h.quiet (quiet_readied t chunk)
    (readied_events t chunk).2.1
  rw [pieces] at hproper ⊢
  rw [behindDelta, ChatFold.addChunk]
  cases hchoice : firstChoice chunk with
  | none =>
    rw [hchoice] at hproper
    exact (List.append_nil front).symm ▸ hready
  | some choice =>
    rw [hchoice] at hproper
    show Together aliases (front ++ Option.elim (choice.get? "delta") [] deltaPieces)
      (ChatFold.addChoice _ choice).calls (Option.elim (choice.get? "delta") _ _)
    replace hproper : ∀ before tc behind,
        Option.elim (choice.get? "delta") [] deltaPieces = before ++ .fragment tc :: behind →
          ProperFragment (front ++ before) tc := hproper
    rw [ChatFold.addChoice]
    cases hdelta : choice.get? "delta" with
    | none => exact (List.append_nil front).symm ▸ hready
    | some delta =>
      rw [hdelta] at hproper
      exact hready.delta delta hproper

end Together

/-! ### Agreement -/

section Agreement

variable {B : Base64} {aliases : Option ToolAlias} {chunks : List Json} {t : StreamTranslator}

theorem together_newTranslator (model : String) (aliases : Option ToolAlias) (reportTrueUsage : Bool) :
    Together aliases [] [] (newTranslator model aliases reportTrueUsage) := by
  have hnil : ∀ piece : Piece, piece ∉ ([] : List Piece) := fun _ => List.not_mem_nil
  refine ⟨⟨List.nodup_nil, ?_, fun tc htc => absurd htc (hnil _), ?_, List.Pairwise.nil⟩,
    fun b hb => absurd hb List.not_mem_nil, rfl, fun id hid => absurd hid List.not_mem_nil, rfl, ?_⟩
  · exact fun call hcall => absurd hcall List.not_mem_nil
  · exact fun call hcall => absurd hcall List.not_mem_nil
  · rintro index ⟨before, tc, since, hsplit, -⟩
    exact absurd hsplit (by simp)

theorem together_run (h : Together aliases [] [] t) (halive : t.terminated = false)
    (hproper : ∀ front tc rest, chunks.flatMap pieces = front ++ .fragment tc :: rest →
      ProperFragment front tc) (hgoes : ∀ chunk ∈ chunks, finishReason? chunk = none) :
    Together aliases (chunks.flatMap pieces) (readChunks chunks).calls (runChunks B t chunks) := by
  induction chunks using List.reverseRecOn with
  | nil => exact h
  | append_singleton chunks chunk ih =>
    rw [List.flatMap_append, List.flatMap_singleton] at hproper ⊢
    have hbefore := ih (fun front tc rest hsplit => hproper front tc (rest ++ pieces chunk)
      (by rw [hsplit, List.append_assoc, List.cons_append])) fun c hc => hgoes c (List.mem_append_left _ hc)
    rw [readChunks_append, runChunks_append,
      processFrame_chat (terminated_runChunks halive chunks),
      processChatChunk_eq, hgoes chunk (List.mem_append_right _ List.mem_cons_self)]
    exact hbefore.chunk chunk fun before tc behind hsplit => hproper _ tc behind
      (by rw [hsplit, List.append_assoc])

theorem addChunk_of_rest {chunk : Json} (s : ChatFold) (hpieces : pieces chunk = [])
    (hfinish : (firstChoice chunk).bind (present "finish_reason") = none) :
    (s.addChunk chunk).calls = s.calls ∧ (s.addChunk chunk).finishReason = s.finishReason := by
  rw [pieces] at hpieces
  rw [ChatFold.addChunk]
  cases hchoice : firstChoice chunk with
  | none => exact ⟨rfl, rfl⟩
  | some choice =>
    rw [hchoice] at hpieces hfinish
    replace hpieces : Option.elim (choice.get? "delta") [] deltaPieces = [] := hpieces
    replace hfinish : present "finish_reason" choice = none := hfinish
    show (ChatFold.addChoice _ choice).calls = _ ∧ (ChatFold.addChoice _ choice).finishReason = _
    rw [ChatFold.addChoice, hfinish]
    cases hdelta : choice.get? "delta" with
    | none => exact ⟨rfl, rfl⟩
    | some delta =>
      rw [hdelta] at hpieces
      have htcs := List.map_eq_nil_iff.mp (List.append_eq_nil_iff.mp (hpieces : deltaPieces delta = [])).2
      refine ⟨?_, rfl⟩
      show ((delta.getArr? "tool_calls").getD []).foldl addFragment s.calls = s.calls
      rw [htcs]
      rfl

theorem finishReason?_eq_none {chunk : Json}
    (hfinish : (firstChoice chunk).bind (present "finish_reason") = none) :
    finishReason? chunk = none := by
  rw [finishReason?]
  cases hchoice : firstChoice chunk with
  | none => rfl
  | some choice =>
    rw [hchoice] at hfinish
    replace hfinish : (choice.get? "finish_reason").filter (· ≠ .null) = none := hfinish
    show (choice.get? "finish_reason").bind Json.asStr? = none
    cases hfield : choice.get? "finish_reason" with
    | none => rfl
    | some value =>
      rw [hfield, Option.filter] at hfinish
      split_ifs at hfinish with hnull
      obtain rfl : value = .null := not_not.mp fun hne => hnull (decide_eq_true hne)
      rfl

theorem addChunk_finishReason {chunk : Json} {reason : String} (s : ChatFold)
    (hfinish : finishReason? chunk = some reason) : (s.addChunk chunk).finishReason = .str reason := by
  rw [finishReason?] at hfinish
  rw [ChatFold.addChunk]
  cases hchoice : firstChoice chunk with
  | none =>
    rw [hchoice] at hfinish
    exact absurd hfinish.symm (Option.some_ne_none reason)
  | some choice =>
    rw [hchoice] at hfinish
    replace hfinish : (choice.get? "finish_reason").bind Json.asStr? = some reason := hfinish
    obtain ⟨value, hfield, hvalue⟩ := Option.bind_eq_some_iff.mp hfinish
    have hstr : value = .str reason := by
      cases value with
      | str said => rw [Option.some.inj hvalue]
      | _ => exact absurd hvalue.symm (Option.some_ne_none reason)
    have hpresent : present "finish_reason" choice = some (.str reason) := by
      rw [present, hfield, hstr, Option.filter, if_pos (decide_eq_true (by simp))]
    show (ChatFold.addChoice _ choice).finishReason = _
    rw [ChatFold.addChoice, hpresent]
    cases choice.get? "delta" <;> rfl

theorem processChatChunk_of_rest {chunk : Json} (t : StreamTranslator) (hpieces : pieces chunk = [])
    (hfinish : (firstChoice chunk).bind (present "finish_reason") = none) :
    (t.processChatChunk chunk).tools = t.tools ∧
      (t.processChatChunk chunk).events.filterMap Event.stopReason? = t.events.filterMap Event.stopReason? := by
  have hbehind : t.behindDelta chunk = t.readied chunk := by
    rw [pieces] at hpieces
    rw [behindDelta]
    cases hdelta : (firstChoice chunk).bind (Json.get? "delta") with
    | none => rfl
    | some delta =>
      rw [hdelta] at hpieces
      obtain ⟨hwords, htcs⟩ := List.append_eq_nil_iff.mp (hpieces : deltaPieces delta = [])
      split_ifs at hwords with hsilent
      show (t.readied chunk).onChatDelta delta = _
      rw [onChatDelta_eq, List.map_eq_nil_iff.mp htcs, hsilent.1, hsilent.2]
      rfl
  obtain ⟨-, -, hblocks, hstop⟩ := readied_events t chunk
  rw [processChatChunk_eq, finishReason?_eq_none hfinish, Option.elim_none, hbehind]
  exact ⟨tools_of_blocks hblocks, hstop⟩

theorem runChunks_of_rest (halive : t.terminated = false) (front : List Json) {rest : List Json}
    (hrest : ∀ chunk ∈ rest, pieces chunk = [] ∧
      (firstChoice chunk).bind (present "finish_reason") = none) :
    (runChunks B t (front ++ rest)).tools = (runChunks B t front).tools ∧
      (runChunks B t (front ++ rest)).events.filterMap Event.stopReason? =
        (runChunks B t front).events.filterMap Event.stopReason? ∧
      (readChunks (front ++ rest)).calls = (readChunks front).calls ∧
      (readChunks (front ++ rest)).finishReason = (readChunks front).finishReason := by
  induction rest using List.reverseRecOn with
  | nil =>
    rw [List.append_nil]
    exact ⟨rfl, rfl, rfl, rfl⟩
  | append_singleton rest chunk ih =>
    obtain ⟨htools, hstop, hcalls, hfinish⟩ := ih fun c hc => hrest c (List.mem_append_left _ hc)
    obtain ⟨hpieces, hnone⟩ := hrest chunk (List.mem_append_right _ List.mem_cons_self)
    obtain ⟨htools', hstop'⟩ := processChatChunk_of_rest (runChunks B t (front ++ rest)) hpieces hnone
    obtain ⟨hcalls', hfinish'⟩ := addChunk_of_rest (readChunks (front ++ rest)) hpieces hnone
    rw [← List.append_assoc, runChunks_append, readChunks_append,
      processFrame_chat (terminated_runChunks halive _)]
    exact ⟨htools'.trans htools, hstop'.trans hstop, hcalls'.trans hcalls, hfinish'.trans hfinish⟩

theorem turn_reverseTurn (parse : String → Option Json) (aliases : Option ToolAlias) (s : ChatFold)
    (original : Json) :
    ((openaiToAnthropicResponse parse s.toCompletion original).reverseTurn aliases).turn =
      ⟨s.reasoning.toList, s.content.toList,
        ((s.calls.filter ChatCall.survives).map (ChatCall.toolUse aliases)).map (ToolUse.call parse),
        some (openaiToAnthropicResponse parse s.toCompletion original).stopReason⟩ := by
  have hcontent : (openaiToAnthropicResponse parse s.toCompletion original).content = _ :=
    contentOf_message parse s
  have hno : ∀ (g : Content → List Char), (∀ id name input, g (.toolUse id name input) = []) →
      (((s.calls.filter ChatCall.survives).map (ChatCall.toContent parse)).map
        (Content.restore aliases)).flatMap g = [] := by
    intro g hg
    refine List.flatMap_eq_nil_iff.mpr fun block hblock => ?_
    obtain ⟨block', hblock', rfl⟩ := List.mem_map.mp hblock
    obtain ⟨call, -, rfl⟩ := List.mem_map.mp hblock'
    exact hg _ _ _
  have hcalls : (((s.calls.filter ChatCall.survives).map (ChatCall.toContent parse)).map
      (Content.restore aliases)).filterMap Content.call? =
        ((s.calls.filter ChatCall.survives).map (ChatCall.toolUse aliases)).map (ToolUse.call parse) := by
    rw [List.map_map, List.map_map, List.filterMap_map]
    refine (congrArg (List.filterMap · _) ?_).trans (congrFun List.filterMap_eq_map _)
    funext call
    show some (call.id, _, (parse call.arguments).getD (.obj [])) =
      some (call.id, _, (parse (String.ofList call.arguments.toList)).getD (.obj []))
    rw [String.ofList_toList]
    rfl
  have hblocks : ((openaiToAnthropicResponse parse s.toCompletion original).reverseTurn aliases).content =
      (if s.reasoning = "" then [] else [.thinking s.reasoning]) ++
        (if s.content = "" then [] else [.text s.content]) ++
          ((s.calls.filter ChatCall.survives).map (ChatCall.toContent parse)).map
            (Content.restore aliases) := by
    show (openaiToAnthropicResponse parse s.toCompletion original).content.map _ = _
    rw [hcontent, List.map_append, List.map_append]
    split_ifs <;> rfl
  have hthinking : ((openaiToAnthropicResponse parse s.toCompletion original).reverseTurn
      aliases).content.flatMap Content.thinkingText = s.reasoning.toList := by
    rw [hblocks, List.flatMap_append, List.flatMap_append, hno _ fun _ _ _ => rfl, List.append_nil]
    split_ifs with hreasoning hempty hempty
    · rw [hreasoning]
      rfl
    · rw [hreasoning]
      rfl
    · exact (List.append_nil _).trans (List.append_nil _)
    · exact (List.append_nil _).trans (List.append_nil _)
  have htext : ((openaiToAnthropicResponse parse s.toCompletion original).reverseTurn
      aliases).content.flatMap Content.answerText = s.content.toList := by
    rw [hblocks, List.flatMap_append, List.flatMap_append, hno _ fun _ _ _ => rfl, List.append_nil]
    split_ifs with hreasoning hempty hempty
    · rw [hempty]
      rfl
    · exact List.append_nil _
    · rw [hempty]
      rfl
    · exact List.append_nil _
  have htools : ((openaiToAnthropicResponse parse s.toCompletion original).reverseTurn
      aliases).content.filterMap Content.call? =
        ((s.calls.filter ChatCall.survives).map (ChatCall.toolUse aliases)).map (ToolUse.call parse) := by
    rw [hblocks, List.filterMap_append, List.filterMap_append, hcalls]
    split_ifs <;> rfl
  rw [AnthropicMessage.turn, hthinking, htext, htools]
  rfl

theorem chatStopReason_eq_toolUse {reason : String}
    (h : chatStopReason reason = "tool_use") : reason = "tool_calls" := by
  rw [chatStopReason] at h
  split_ifs at h with hstop hcalls
  · exact absurd h (by decide)
  · exact hcalls
  · exact absurd h (by decide)
  · exact absurd h (by decide)

theorem survivors_ne_nil {front : List Piece} {calls : List ChatCall} {tc : Json} (h : Slots front calls)
    (hmem : .fragment tc ∈ front) (hid : (fragmentId tc).isSome) : calls.filter ChatCall.survives ≠ [] := by
  obtain ⟨call, hcall, hindex⟩ := h.has tc hmem
  refine List.ne_nil_of_mem (List.mem_filter.mpr ⟨hcall, ?_⟩)
  rcases h.slot call hcall with hidle | hstarted
  · rw [hidle.unstarted tc hmem hindex.symm] at hid
    exact absurd hid (by decide)
  · exact hstarted.survives

end Agreement

/-! ### Two streams -/

/-- A chunk with one choice. -/
def chatChunk (delta finishReason : Json) : Json :=
  .obj [("choices", .arr [.obj [("delta", delta), ("finish_reason", finishReason)]])]

/-- A fragment that starts a call. -/
def startFragment (index : ℕ) (id name : String) : Json :=
  .obj [("index", .num (toString index)), ("id", .str id), ("function", .obj [("name", .str name)])]

def argumentsFragment (index : ℕ) (args : String) : Json :=
  .obj [("index", .num (toString index)), ("function", .obj [("arguments", .str args)])]

def callsChunk (tc : Json) : Json := chatChunk (.obj [("tool_calls", .arr [tc])]) .null

/-- A reader of one text. -/
def readOne (args : String) : Option Json :=
  if args = "\x7b\"n\":1\x7d" then some (.obj [("n", .num "1")]) else none

/-- One call and its arguments. -/
def oneCall : List Json :=
  [callsChunk (startFragment 0 "a" "f"), callsChunk (argumentsFragment 0 "\x7b\"n\":1\x7d"),
    chatChunk (.obj []) (.str "tool_calls")]

theorem chatProper_oneCall : ChatProper oneCall "tool_calls" := by
  have hpieces : oneCall.flatMap pieces = [.fragment (startFragment 0 "a" "f"),
      .fragment (argumentsFragment 0 "\x7b\"n\":1\x7d")] := rfl
  refine ⟨fun front tc rest hsplit => ?_, ⟨[_, _], _, [], rfl, by decide, rfl, ?_⟩, fun _ => ?_⟩
  · rw [hpieces] at hsplit
    rcases front with _ | ⟨first, _ | ⟨second, front⟩⟩
    · obtain ⟨heq, -⟩ := List.cons.inj hsplit
      obtain rfl := Piece.fragment.inj heq
      refine ⟨by decide, by decide, ?_, fun tc' htc' => absurd htc' List.not_mem_nil⟩
      rintro ⟨before, tc', since, tc'', hnil, -⟩
      exact absurd hnil (by simp)
    · simp only [List.cons_append, List.nil_append, List.cons.injEq] at hsplit
      obtain ⟨rfl, heq, -⟩ := hsplit
      obtain rfl := Piece.fragment.inj heq
      refine ⟨fun _ => ⟨[], _, [], rfl, rfl, rfl, fun piece hpiece => absurd hpiece List.not_mem_nil⟩, ?_⟩
      exact fun hname => absurd rfl hname
    · have hlength := congrArg List.length hsplit
      simp at hlength
  · exact fun chunk hchunk => absurd hchunk List.not_mem_nil
  · rw [hpieces]
    exact ⟨_, List.mem_cons_self, rfl⟩

/-- Two calls that start before their arguments come. -/
def twoCalls : List Json :=
  [callsChunk (startFragment 0 "a" "f"), callsChunk (startFragment 1 "b" "g"),
    callsChunk (argumentsFragment 0 "\x7b\"n\":1\x7d"), chatChunk (.obj []) (.str "tool_calls")]

/-- A chunk has one choice at most. -/
def OneChoice (chunk : Json) : Prop := ((chunk.getArr? "choices").getD []).length ≤ 1

instance (chunk : Json) : Decidable (OneChoice chunk) := inferInstanceAs (Decidable (_ ≤ _))

end Headroom.OpenAi
