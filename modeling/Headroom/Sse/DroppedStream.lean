import Headroom.Sse.StreamFinisher

/-!
# A stream that breaks off is closed well-formed

The events of a message take it through the phases of a small automaton. Upstream and client run the
same one, except that the upstream numbers its blocks upwards, and that the client only asks for an
index that is not taken. The finisher keeps the client's phase in step with the upstream's, a held
tool call apart, so the events that it adds where the stream breaks off make the message complete. They
do not where the message delta has gone out already and the end of the message has not: another block
is added then, and another message delta.

## Main statements

* `finishOnDropWith_closedWell_iff` : a stream that breaks off is closed well-formed exactly if the
  message has started, and has ended where its message delta has come.
-/

open Foundation

namespace Headroom.Sse

/-! ### The phases of a message -/

/-- How far a message has come, with the indices of its blocks. -/
inductive Phase where
  | before
  | between (used : List ℕ)
  | inBlock (used : List ℕ) (index : ℕ)
  /-- The message delta has come. -/
  | closing (used : List ℕ)
  | ended (used : List ℕ)
  | failed
  /-- The events are not those of one message. -/
  | broken
  deriving DecidableEq

/-- The phase after one more event; `fresh` says which indices a block may have. -/
def Phase.next (fresh : List ℕ → ℕ → Bool) : Phase → Move → Phase
  | p, .other => p
  | .before, .messageStart => .between []
  | .between used, .start i _ => if fresh used i then .inBlock (i :: used) i else .broken
  | .between used, .messageDelta _ => .closing used
  | .between _, .error => .failed
  | .inBlock used i, .delta j => if j = i then .inBlock used i else .broken
  | .inBlock used i, .stop j => if j = i then .between used else .broken
  | .inBlock _ _, .error => .failed
  | .closing used, .messageDelta _ => .closing used
  | .closing used, .messageStop => .ended used
  | .closing _, .error => .failed
  | _, _ => .broken

/-- The phase after some events. -/
def Phase.run (fresh : List ℕ → ℕ → Bool) (p : Phase) (ms : List Move) : Phase :=
  ms.foldl (Phase.next fresh) p

/-- The upstream numbers the blocks upwards, and leaves room for one more index of 64 bits. -/
def rising (used : List ℕ) (i : ℕ) : Bool := used.all (· < i) && i + 1 < 2 ^ 64

/-- The client takes any index that is not taken. -/
def unused (used : List ℕ) (i : ℕ) : Bool := i ∉ used

/-- The events of one message, to its end or to an error. -/
def ValidStream (ms : List Move) : Prop :=
  (∃ used, Phase.run rising .before ms = .ended used) ∨ Phase.run rising .before ms = .failed

/-- A complete message with at least one block: every block is closed once, no index comes twice, no
block follows a message delta, and one message stop ends it. -/
def Complete (ms : List Move) : Prop :=
  ∃ used, Phase.run unused .before ms = .ended used ∧ used ≠ []

/-- The message has ended, or an error has. -/
def Ended (ms : List Move) : Prop := .messageStop ∈ ms ∨ .error ∈ ms

variable {ρ : Type*} (payload : ρ → Option Json)

/-- How a stream that breaks off behind some blocks should be closed, whatever it breaks off with. -/
structure ClosedWell {ε : Type*} (finish : DropClose → Option ε → List (Except ε (Out ρ)))
    (forwarded : List (Out ρ)) (seen : List Move) : Prop where
  tail : ¬ Ended seen → ∀ dropErr, ∃ added, finish .tail dropErr = (forwarded ++ added).map .ok ∧
    Complete ((forwarded ++ added).map (Out.move payload))
  error : ¬ Ended seen → ∀ dropErr, finish .error dropErr = (forwarded ++ [Out.made .error]).map .ok ∧
    .error ∉ forwarded.map (Out.move payload)
  ended : Ended seen → ∀ close dropErr, finish close dropErr = forwarded.map .ok

/-! ### Runs of the automaton -/

section Phases

variable {fresh : List ℕ → ℕ → Bool} {p : Phase} {ms ms' : List Move}

@[simp] theorem Phase.run_nil : p.run fresh [] = p := rfl

@[simp] theorem Phase.run_cons {m : Move} : p.run fresh (m :: ms) = (p.next fresh m).run fresh ms :=
  rfl

theorem Phase.run_append : p.run fresh (ms ++ ms') = (p.run fresh ms).run fresh ms' :=
  List.foldl_append

theorem Phase.run_broken : Phase.run fresh .broken ms = .broken := by
  induction ms with
  | nil => rfl
  | cons m ms ih => cases m <;> exact ih

theorem Phase.run_failed : Phase.run fresh .failed ms = .failed ∨
    Phase.run fresh .failed ms = .broken := by
  induction ms with
  | nil => exact Or.inl rfl
  | cons m ms ih =>
    cases m
    case other => exact ih
    all_goals exact Or.inr Phase.run_broken

/-- A block with a fresh index, and what follows it. -/
theorem Phase.run_block_append {used : List ℕ} {i : ℕ} {ty : String} (hi : fresh used i) :
    Phase.run fresh (.between used) (.start i ty :: .delta i :: .stop i :: ms) =
      Phase.run fresh (.between (i :: used)) ms := by
  simp [Phase.next, hi]

theorem Phase.not_broken_of_append (h : p.run fresh (ms ++ ms') ≠ .broken) :
    p.run fresh ms ≠ .broken := by
  intro hms
  rw [run_append, hms] at h
  exact h run_broken

theorem Phase.run_of_error (h : .error ∈ ms) :
    p.run fresh ms = .failed ∨ p.run fresh ms = .broken := by
  obtain ⟨as, bs, rfl⟩ := List.append_of_mem h
  rw [run_append]
  show ((p.run fresh as).next fresh .error).run fresh bs = _ ∨ _
  cases p.run fresh as
  case between | inBlock | closing => exact run_failed
  all_goals exact Or.inr run_broken

end Phases

/-! ### Upstream and client in step -/

/-- What the finisher knows of the blocks in the middle of a message. -/
structure Told.Knows (t : Told) (used : List ℕ) : Prop where
  started : t.sawMessageStart = true
  notStopped : t.sawMessageStop = false
  notFailed : t.sawError = false
  le_maxIndex : ∀ i ∈ used, i ≤ t.maxIndex
  anyBlock : t.anyBlock = false → used = []

/-- The phase of the upstream, the state of the finisher, and the phase of the client. -/
inductive Sim (s : FinisherState ρ) : Phase → Phase → Prop
  | before : s.wire.told = {} → s.withheld = [] → s.abandoned = false → Sim s .before .before
  | between {used} : s.wire.told.Knows used → s.wire.told.opened = none → s.withheld = [] →
      s.abandoned = false → Sim s (.between used) (.between used)
  | inBlock {used i kind} : s.wire.told.Knows (i :: used) → s.wire.told.opened = some (i, kind) →
      kind ≠ .toolUse → rising used i → s.withheld = [] → s.abandoned = false →
      Sim s (.inBlock (i :: used) i) (.inBlock (i :: used) i)
  /-- The tool call that is open is held back, and takes the client to where the upstream is. -/
  | inCall {used i} : s.wire.told.Knows (i :: used) → s.wire.told.opened = some (i, .toolUse) →
      rising used i → s.abandoned = false →
      Phase.run unused (.between used) (s.withheld.map (move payload)) = .inBlock (i :: used) i →
      Sim s (.inBlock (i :: used) i) (.between used)
  | closing {used c} : s.wire.told.sawMessageStart = true → s.wire.told.sawMessageStop = false →
      s.wire.told.sawError = false → s.wire.told.opened = none →
      (∃ used', c = .closing used') ∨ c = .broken → Sim s (.closing used) c
  | ended {used c} : s.wire.told.sawMessageStart = true → s.wire.told.sawMessageStop = true →
      Sim s (.ended used) c
  | failed {c} : s.wire.told.sawMessageStart = true → s.wire.told.sawError = true → Sim s .failed c

variable {payload}

variable {s : FinisherState ρ} {u c : Phase} {raw : ρ}

theorem Sim.other (h : Sim payload s u c)
    (hm : move payload raw = .other) :
    Sim payload (onBlock payload s raw).2 (u.next rising .other)
      (c.run unused ((onBlock payload s raw).1.map (Out.move payload))) := by
  rw [onBlock_other hm]
  simpa [Phase.run, Phase.next, hm] using h

variable {used : List ℕ}

theorem Told.Knows.unused_succ {t : Told} (h : t.Knows used) :
    unused used (t.maxIndex + 1) := by
  simp only [unused, decide_eq_true_eq]
  intro hmem
  have := h.le_maxIndex _ hmem
  omega

variable {w : Wire}

theorem inTool_of_opened {o : Option (ℕ × Kind)} (h : w.told.opened = o) :
    w.inTool = o.any fun o => o.2 = .toolUse := by
  rw [← h]
  rfl

/-- Outside tool calls the blocks go out as they come. -/
theorem onBlock_forward {m : Move} (hm : move payload raw = m)
    (hin : s.wire.inTool = false) (hstart : ∀ i ty, m = .start i ty → kindOf ty ≠ .toolUse)
    (hmessage : m ≠ .messageStart ∧ ∀ claims, m ≠ .messageDelta claims) :
    (onBlock payload s raw).1 = [.upstream raw] ∧ (onBlock payload s raw).2.withheld = s.withheld ∧
      (onBlock payload s raw).2.abandoned = s.abandoned := by
  cases m with
  | other =>
    rw [onBlock_other hm]
    exact ⟨rfl, rfl, rfl⟩
  | messageStart => exact absurd rfl hmessage.1
  | messageDelta claims => exact absurd rfl (hmessage.2 claims)
  | start i ty =>
    obtain ⟨v, hv, hon⟩ := onBlock_of_move hm nofun s
    have hty := hstart i ty rfl
    simp [hon, onEvent_eq, hv, hin, hty]
  | _ =>
    obtain ⟨v, hv, hon⟩ := onBlock_of_move hm nofun s
    simp [hon, onEvent_eq, hv, hin]

/-- An error after the message has started ends it. -/
theorem Sim.step_error (hstart : s.wire.told.sawMessageStart = true) (hm : move payload raw = .error) :
    Sim payload (onBlock payload s raw).2 .failed c := by
  refine .failed ?_ ?_ <;> rw [told_onBlock, hm]
  · exact hstart
  · rfl

theorem Sim.step_before (hm : move payload raw = .messageStart) :
    Sim payload (onBlock payload s raw).2 (.between [])
      (Phase.run unused .before ((onBlock payload s raw).1.map (Out.move payload))) := by
  have htold := told_onBlock payload s raw
  obtain ⟨v, hv, hon⟩ := onBlock_of_move hm nofun s
  rw [hm] at htold
  rw [hon, onEvent_eq, hv] at htold ⊢
  simp only [Told.next] at htold
  show Sim payload _ _ (Phase.next unused .before (move payload raw))
  rw [hm]
  refine .between ?_ ?_ rfl rfl
  · rw [htold]
    exact ⟨rfl, rfl, rfl, nofun, fun _ => rfl⟩
  · rw [htold]

variable {i : ℕ}

theorem Told.Knows.start {t : Told} {ty : String} (h : t.Knows used) :
    (t.next (.start i ty)).Knows (i :: used) where
  started := h.started
  notStopped := h.notStopped
  notFailed := h.notFailed
  le_maxIndex := by
    intro j hj
    rcases List.mem_cons.mp hj with rfl | hj
    · exact le_max_right _ _
    · exact (h.le_maxIndex j hj).trans (le_max_left _ _)
  anyBlock := nofun

theorem lt_of_rising (h : rising used i) : ∀ j ∈ used, j < i := by
  simpa using (Bool.and_eq_true_iff.mp h).1

theorem unused_of_rising (h : rising used i) : unused used i := by
  simp only [unused, decide_eq_true_eq]
  intro hi
  exact absurd (lt_of_rising h i hi) (lt_irrefl i)

theorem Sim.step_start {ty : String}
    (hknows : s.wire.told.Knows used) (hopened : s.wire.told.opened = none) (hwithheld : s.withheld = [])
    (habandoned : s.abandoned = false) (hm : move payload raw = .start i ty) (hi : rising used i) :
    Sim payload (onBlock payload s raw).2 (.inBlock (i :: used) i)
      (Phase.run unused (.between used) ((onBlock payload s raw).1.map (Out.move payload))) := by
  have htold := told_onBlock payload s raw
  rw [hm] at htold
  have hin := inTool_of_opened hopened
  have hnext : Phase.next unused (.between used) (.start i ty) = .inBlock (i :: used) i := by
    simp [Phase.next, unused_of_rising hi]
  by_cases hty : kindOf ty = .toolUse
  · obtain ⟨v, hv, hon⟩ := onBlock_of_move hm nofun s
    have hevent : onEvent s raw v =
        ([], { s with wire := s.wire.observe v, withheld := [raw] }) := by
      simp [onEvent_eq, hv, hty, habandoned, hwithheld]
    rw [hon, hevent] at htold ⊢
    refine .inCall ?_ ?_ hi habandoned ?_
    · rw [htold]
      exact hknows.start
    · rw [htold, Told.next, hty]
    · show Phase.next unused (.between used) (move payload raw) = _
      rw [hm, hnext]
  · obtain ⟨hout, hw, ha⟩ := onBlock_forward hm hin (by rintro _ _ ⟨⟩; exact hty) ⟨nofun, nofun⟩
    have hc : Phase.run unused (.between used) ((onBlock payload s raw).1.map (Out.move payload)) =
        .inBlock (i :: used) i := by
      rw [hout]
      show Phase.next unused (.between used) (move payload raw) = _
      rw [hm, hnext]
    rw [hc]
    refine .inBlock (by rw [htold]; exact hknows.start) (by rw [htold]; rfl) hty hi
      (hw.trans hwithheld) (ha.trans habandoned)

theorem Told.Knows.of_opened {t t' : Told} (h : t.Knows used)
    (ht : t' = { t with opened := t'.opened }) : t'.Knows used := by
  rw [ht]
  exact ⟨h.started, h.notStopped, h.notFailed, h.le_maxIndex, h.anyBlock⟩

theorem Sim.step_messageDelta {claims : Bool} (hstart : s.wire.told.sawMessageStart = true)
    (hstop : s.wire.told.sawMessageStop = false) (herror : s.wire.told.sawError = false)
    (hopened : s.wire.told.opened = none) (hm : move payload raw = .messageDelta claims)
    (hc : (∃ used', c = .between used' ∧ s.wire.told.Knows used') ∨
      (∃ used', c = .closing used') ∨ c = .broken) :
    Sim payload (onBlock payload s raw).2 (.closing used)
      (c.run unused ((onBlock payload s raw).1.map (Out.move payload))) := by
  have htold := told_onBlock payload s raw
  rw [hm, Told.next] at htold
  refine .closing (by rw [htold, hstart]) (by rw [htold, hstop]) (by rw [htold, herror])
    (by rw [htold, hopened]) ?_
  obtain ⟨v, hv, hon⟩ := onBlock_of_move hm nofun s
  rw [hon, onEvent_eq, hv]
  dsimp only
  split_ifs
  · -- the block that says so comes before the message delta
    have hwire : (s.wire.observe v).maxIndex = s.wire.told.maxIndex := by
      have h := congrArg Told.maxIndex (told_observe s.wire v)
      rw [hv] at h
      exact h
    have hmoves : ((downgrade (s.wire.observe v) v).map (Out.made (ρ := ρ))).map (Out.move payload) =
        [.start (s.wire.told.maxIndex + 1) "text", .delta (s.wire.told.maxIndex + 1),
          .stop (s.wire.told.maxIndex + 1), (rewriteStopReason v "end_turn").move] := by
      rw [← hwire]
      rfl
    rw [hmoves]
    rcases hc with ⟨used', rfl, hknows⟩ | ⟨used', rfl⟩ | rfl
    · refine Or.inl ⟨(s.wire.told.maxIndex + 1) :: used', ?_⟩
      exact Phase.run_block_append (hknows.unused_succ)
    · exact Or.inr Phase.run_broken
    · exact Or.inr Phase.run_broken
  · show (∃ used', c.next unused (move payload raw) = _) ∨ c.next unused (move payload raw) = _
    rw [hm]
    rcases hc with ⟨used', rfl, -⟩ | ⟨used', rfl⟩ | rfl
    · exact Or.inl ⟨used', rfl⟩
    · exact Or.inl ⟨used', rfl⟩
    · exact Or.inr rfl

theorem Sim.step_inBlock {kind : Kind}
    (hknows : s.wire.told.Knows (i :: used)) (hopened : s.wire.told.opened = some (i, kind))
    (hkind : kind ≠ .toolUse) (hi : rising used i) (hwithheld : s.withheld = [])
    (habandoned : s.abandoned = false)
    (hvalid : Phase.next rising (.inBlock (i :: used) i) (move payload raw) ≠ .broken) :
    Sim payload (onBlock payload s raw).2
      (Phase.next rising (.inBlock (i :: used) i) (move payload raw))
      (Phase.run unused (.inBlock (i :: used) i)
        ((onBlock payload s raw).1.map (Out.move payload))) := by
  have htold := told_onBlock payload s raw
  have hin : s.wire.inTool = false := by simpa [hkind] using inTool_of_opened hopened
  cases hm : move payload raw with
  | other => exact (Sim.inBlock hknows hopened hkind hi hwithheld habandoned).other hm
  | error => exact Sim.step_error hknows.started hm
  | delta j =>
    obtain ⟨hout, hw, ha⟩ := onBlock_forward hm hin nofun ⟨nofun, nofun⟩
    rw [hm] at htold hvalid
    obtain rfl : j = i := by simpa [Phase.next] using hvalid
    rw [hout, List.map_singleton, Out.move_upstream, hm]
    simp only [Phase.run_cons, Phase.run_nil, Phase.next, if_true]
    exact .inBlock (by rwa [htold]) (by rwa [htold]) hkind hi (hw.trans hwithheld) (ha.trans habandoned)
  | stop j =>
    obtain ⟨hout, hw, ha⟩ := onBlock_forward hm hin nofun ⟨nofun, nofun⟩
    rw [hm] at htold hvalid
    obtain rfl : j = i := by simpa [Phase.next] using hvalid
    rw [hout, List.map_singleton, Out.move_upstream, hm]
    simp only [Phase.run_cons, Phase.run_nil, Phase.next, if_true]
    exact .between (hknows.of_opened (by rw [htold]; rfl)) (by rw [htold]; rfl) (hw.trans hwithheld)
      (ha.trans habandoned)
  | messageStart | start | messageDelta | messageStop => simp [hm, Phase.next] at hvalid

theorem Sim.step_inCall
    (hknows : s.wire.told.Knows (i :: used)) (hopened : s.wire.told.opened = some (i, .toolUse))
    (hi : rising used i) (habandoned : s.abandoned = false)
    (hheld : Phase.run unused (.between used) (s.withheld.map (move payload)) = .inBlock (i :: used) i)
    (hvalid : Phase.next rising (.inBlock (i :: used) i) (move payload raw) ≠ .broken) :
    Sim payload (onBlock payload s raw).2
      (Phase.next rising (.inBlock (i :: used) i) (move payload raw))
      (Phase.run unused (.between used) ((onBlock payload s raw).1.map (Out.move payload))) := by
  have htold := told_onBlock payload s raw
  have hin : s.wire.inTool = true := by simpa using inTool_of_opened hopened
  cases hm : move payload raw with
  | other => exact (Sim.inCall hknows hopened hi habandoned hheld).other hm
  | error => exact Sim.step_error hknows.started hm
  | delta j =>
    obtain ⟨v, hv, hon⟩ := onBlock_of_move hm nofun s
    have hevent : onEvent s raw v =
        ([], { s with wire := s.wire.observe v, withheld := s.withheld ++ [raw] }) := by
      simp [onEvent_eq, hv, hin, habandoned]
    rw [hm] at htold hvalid
    obtain rfl : j = i := by simpa [Phase.next] using hvalid
    rw [hon, hevent] at htold ⊢
    simp only [List.map_nil, Phase.run_nil, Phase.next, if_true]
    refine .inCall (by rwa [htold]) (by rwa [htold]) hi habandoned ?_
    rw [List.map_append, Phase.run_append, hheld, List.map_singleton, hm]
    simp [Phase.next]
  | stop j =>
    obtain ⟨v, hv, hon⟩ := onBlock_of_move hm nofun s
    have hevent : onEvent s raw v = (s.withheld.map .upstream ++ [.upstream raw],
        { s with wire := s.wire.observe v, withheld := [], deliveredToolUse := true }) := by
      simp [onEvent_eq, hv, hin, habandoned]
    rw [hm] at htold hvalid
    obtain rfl : j = i := by simpa [Phase.next] using hvalid
    have hmoves : (s.withheld.map Out.upstream ++ [Out.upstream raw]).map (Out.move payload) =
        s.withheld.map (move payload) ++ [.stop j] := by
      simp [hm, Function.comp_def]
    rw [hon, hevent] at htold ⊢
    rw [hmoves, Phase.run_append, hheld]
    simp only [Phase.run_cons, Phase.run_nil, Phase.next, if_true]
    exact .between (hknows.of_opened (by rw [htold]; rfl)) (by rw [htold]; rfl) rfl habandoned
  | messageStart | start | messageDelta | messageStop => simp [hm, Phase.next] at hvalid

/-- The client's phase follows the upstream's. -/
theorem Sim.step (h : Sim payload s u c)
    (hvalid : u.next rising (move payload raw) ≠ .broken) :
    Sim payload (onBlock payload s raw).2 (u.next rising (move payload raw))
      (c.run unused ((onBlock payload s raw).1.map (Out.move payload))) := by
  have htold := told_onBlock payload s raw
  cases h with
  | before ht hwithheld habandoned =>
    cases hm : move payload raw with
    | other => exact (Sim.before ht hwithheld habandoned).other hm
    | messageStart => exact Sim.step_before hm
    | _ => simp [hm, Phase.next] at hvalid
  | @between used hknows hopened hwithheld habandoned =>
    cases hm : move payload raw with
    | other => exact (Sim.between hknows hopened hwithheld habandoned).other hm
    | start i ty =>
      rw [hm] at hvalid
      have hi : rising used i := by
        by_contra hi
        simp [Phase.next, hi] at hvalid
      simp only [Phase.next, hi, if_true]
      exact Sim.step_start hknows hopened hwithheld habandoned hm hi
    | messageDelta claims =>
      exact Sim.step_messageDelta hknows.started hknows.notStopped hknows.notFailed hopened hm
        (Or.inl ⟨_, rfl, hknows⟩)
    | error => exact Sim.step_error hknows.started hm
    | messageStart | delta | stop | messageStop => simp [hm, Phase.next] at hvalid
  | inBlock hknows hopened hkind hi hwithheld habandoned =>
    exact Sim.step_inBlock hknows hopened hkind hi hwithheld habandoned hvalid
  | inCall hknows hopened hi habandoned hheld =>
    exact Sim.step_inCall hknows hopened hi habandoned hheld hvalid
  | closing hstart hstop herror hopened hc =>
    cases hm : move payload raw with
    | other => exact (Sim.closing hstart hstop herror hopened hc).other hm
    | messageDelta claims =>
      exact Sim.step_messageDelta hstart hstop herror hopened hm (Or.inr hc)
    | messageStop => exact .ended (by rw [htold, hm]; exact hstart) (by rw [htold, hm]; rfl)
    | error => exact Sim.step_error hstart hm
    | messageStart | start | delta | stop => simp [hm, Phase.next] at hvalid
  | ended hstart hstop =>
    cases hm : move payload raw with
    | other => exact (Sim.ended hstart hstop).other hm
    | _ => simp [hm, Phase.next] at hvalid
  | failed hstart herror =>
    cases hm : move payload raw with
    | other => exact (Sim.failed hstart herror).other hm
    | _ => simp [hm, Phase.next] at hvalid

variable {raws : List ρ}

theorem Sim.run (h : Sim payload s u c)
    (hvalid : u.run rising (raws.map (move payload)) ≠ .broken) :
    Sim payload (onBlocks payload s raws).2 (u.run rising (raws.map (move payload)))
      (c.run unused ((onBlocks payload s raws).1.map (Out.move payload))) := by
  induction raws generalizing s u c with
  | nil => exact h
  | cons raw raws ih =>
    have hfirst : u.next rising (move payload raw) ≠ .broken := by
      intro hbroken
      rw [List.map_cons, Phase.run_cons, hbroken] at hvalid
      exact hvalid Phase.run_broken
    have hrest := ih (h.step hfirst) hvalid
    rwa [← Phase.run_append, ← List.map_append] at hrest

/-! ### The events that are added -/

/-- What the events that are added say, where the message goes on. -/
def closingMoves (t : Told) : List Move :=
  let block (i : ℕ) : List Move := [.start i "text", .delta i, .stop i]
  match t.opened with
  | some (i, .text) => [.delta i, .stop i]
  | some (i, .closable) => .stop i :: block (i + 1)
  | some (i, .toolUse) => block i
  | none => block (if t.anyBlock then t.maxIndex + 1 else 0)

theorem moves_tail (hstart : w.told.sawMessageStart = true)
    (hstop : w.told.sawMessageStop = false) (herror : w.told.sawError = false) :
    (w.tail .tail).map Made.move = closingMoves w.told ++ [.messageDelta false, .messageStop] := by
  have hopen : (!w.sawMessageStart || w.sawMessageStop || w.sawError) = false := by
    simp only [Wire.told] at hstart hstop herror
    simp [hstart, hstop, herror]
  have hclosing : w.closing.map Made.move = closingMoves w.told := by
    have hopened : w.told.opened = w.opened := rfl
    rcases ho : w.opened with _ | ⟨i, kind⟩
    · simp only [Wire.closing, closingMoves, hopened, ho]
      rfl
    · cases kind <;> simp only [Wire.closing, closingMoves, hopened, ho] <;> rfl
  simp only [Wire.tail, hopen, Bool.false_eq_true, if_false, List.map_append, hclosing]
  rfl

theorem Sim.tail_complete (h : Sim payload s u c)
    (hu : (∃ used, u = .between used) ∨ ∃ used i, u = .inBlock used i) :
    ∃ used, c.run unused ((s.wire.tail .tail).map Made.move) = .ended used ∧ used ≠ [] := by
  have hend {used : List ℕ} {c : Phase} (hc : c.run unused (closingMoves s.wire.told) = .between used)
      (hne : used ≠ []) (hknows : ∃ used', s.wire.told.Knows used') :
      ∃ used, c.run unused ((s.wire.tail .tail).map Made.move) = .ended used ∧ used ≠ [] := by
    obtain ⟨_, hknows⟩ := hknows
    refine ⟨used, ?_, hne⟩
    rw [moves_tail hknows.started hknows.notStopped hknows.notFailed, Phase.run_append, hc]
    rfl
  cases h with
  | @between used hknows hopened =>
    obtain ⟨i, hi⟩ : ∃ i, (if s.wire.told.anyBlock then s.wire.told.maxIndex + 1 else 0) = i := ⟨_, rfl⟩
    have hfresh : unused used i := by
      subst hi
      split_ifs with hany
      · exact hknows.unused_succ
      · simp [hknows.anyBlock (by simpa using hany), unused]
    refine hend ?_ (List.cons_ne_nil i used) ⟨_, hknows⟩
    rw [closingMoves, hopened, hi]
    exact Phase.run_block_append hfresh
  | @inBlock used i kind hknows hopened hkind hi =>
    cases kind with
    | toolUse => exact absurd rfl hkind
    | text =>
      refine hend ?_ (List.cons_ne_nil i used) ⟨_, hknows⟩
      rw [closingMoves, hopened]
      simp [Phase.next]
    | closable =>
      have hfresh : unused (i :: used) (i + 1) := by
        simp only [unused, decide_eq_true_eq, List.mem_cons, not_or]
        refine ⟨by omega, fun hmem => ?_⟩
        have := lt_of_rising hi (i + 1) hmem
        omega
      refine hend ?_ (List.cons_ne_nil (i + 1) (i :: used)) ⟨_, hknows⟩
      have hstop : Phase.next unused (.inBlock (i :: used) i) (.stop i) = .between (i :: used) := by
        simp [Phase.next]
      rw [closingMoves, hopened, Phase.run_cons, hstop]
      exact Phase.run_block_append hfresh
  | @inCall used i hknows hopened hi =>
    refine hend ?_ (List.cons_ne_nil i used) ⟨_, hknows⟩
    rw [closingMoves, hopened]
    exact Phase.run_block_append (unused_of_rising hi)
  | before => simp at hu
  | closing => simp at hu
  | ended => simp at hu
  | failed => simp at hu

theorem not_complete_of_closing (hstart : w.told.sawMessageStart = true)
    (hstop : w.told.sawMessageStop = false) (herror : w.told.sawError = false)
    (hopened : w.told.opened = none) (hc : (∃ used, c = .closing used) ∨ c = .broken) :
    c.run unused ((w.tail .tail).map Made.move) = .broken := by
  rw [moves_tail hstart hstop herror, closingMoves, hopened]
  rcases hc with ⟨used, rfl⟩ | rfl
  · exact Phase.run_broken
  · exact Phase.run_broken

/-! ### Cuts -/

/-- The events that a phase tells of. -/
def Phase.Tells (ms : List Move) : Phase → Prop
  | .before => .messageStart ∉ ms ∧ (∀ claims, .messageDelta claims ∉ ms) ∧ ¬ Ended ms
  | .between _ | .inBlock _ _ =>
    .messageStart ∈ ms ∧ (∀ claims, .messageDelta claims ∉ ms) ∧ ¬ Ended ms
  | .closing _ => .messageStart ∈ ms ∧ (∃ claims, .messageDelta claims ∈ ms) ∧ ¬ Ended ms
  | .ended _ | .failed => .messageStart ∈ ms ∧ Ended ms
  | .broken => True

theorem Phase.Tells.next {fresh : List ℕ → ℕ → Bool} {p : Phase} {ms : List Move} (h : p.Tells ms)
    (m : Move) : (p.next fresh m).Tells (ms ++ [m]) := by
  cases p <;> cases m <;> simp only [Phase.next] <;> (try split_ifs) <;>
    simp_all [Phase.Tells, Ended]

theorem Phase.tells_run (fresh : List ℕ → ℕ → Bool) (ms : List Move) :
    (Phase.run fresh .before ms).Tells ms := by
  induction ms using List.reverseRecOn with
  | nil => simp [Phase.Tells, Ended]
  | append_singleton ms m ih =>
    rw [Phase.run_append]
    exact ih.next m

variable {ε : Type*}

/-- Without events to add, nothing is added to a message that has started. -/
theorem finishBlocks_of_tail_eq_nil {close : DropClose}
    {dropErr : Option ε} (htail : (onBlocks payload {} raws).2.wire.tail close = [])
    (h : (onBlocks payload {} raws).2.wire.sawMessageStart = true ∨ dropErr = none) :
    finishBlocks payload close dropErr raws = (onBlocks payload {} raws).1.map .ok := by
  simp only [finishBlocks, htail, List.isEmpty_nil, if_true]
  rcases h with h | rfl
  · cases dropErr <;> simp [h]
  · simp

theorem finishBlocks_of_tail_ne_nil {close : DropClose}
    {dropErr : Option ε} (htail : (onBlocks payload {} raws).2.wire.tail close ≠ []) :
    finishBlocks payload close dropErr raws = ((onBlocks payload {} raws).1 ++
      ((onBlocks payload {} raws).2.wire.tail close).map Out.made).map .ok := by
  have hne : ((onBlocks payload {} raws).2.wire.tail close).isEmpty = false := by
    simpa [List.isEmpty_eq_false_iff] using htail
  simp [finishBlocks, hne]

section Cuts

variable {ε : Type*} {raws : List ρ} {sent : List (Out ρ)} {s : FinisherState ρ} {u c : Phase}
  {ms : List Move}

theorem tail_of_ended (h : w.told.sawMessageStop = true ∨ w.told.sawError = true)
    (close : DropClose) : w.tail close = [] := by
  simp only [Wire.told] at h
  rcases h with h | h <;> simp [Wire.tail, h]

theorem tail_error (hstart : w.told.sawMessageStart = true)
    (hstop : w.told.sawMessageStop = false) (herror : w.told.sawError = false) :
    w.tail .error = [.error] := by
  simp only [Wire.told] at hstart hstop herror
  simp [Wire.tail, hstart, hstop, herror]

/-- In the middle of a message, before its message delta. -/
theorem closedWell_of_open (hrun : onBlocks payload {} raws = (sent, s)) (hsim : Sim payload s u c)
    (hc : Phase.run unused .before (sent.map (Out.move payload)) = c)
    (hu : (∃ used, u = .between used) ∨ ∃ used i, u = .inBlock used i) (hms : ¬ Ended ms) :
    ClosedWell payload (fun close (dropErr : Option ε) => finishBlocks payload close dropErr raws)
      sent ms := by
  have hopen : s.wire.told.sawMessageStart = true ∧ s.wire.told.sawMessageStop = false ∧
      s.wire.told.sawError = false := by
    cases hsim with
    | between h | inBlock h | inCall h => exact ⟨h.started, h.notStopped, h.notFailed⟩
    | before | closing | ended | failed => simp at hu
  obtain ⟨used, hended, hused⟩ := hsim.tail_complete hu
  have hcomplete : Phase.run unused .before
      ((sent ++ (s.wire.tail .tail).map Out.made).map (Out.move payload)) = .ended used := by
    rw [List.map_append, Phase.run_append, hc, List.map_map]
    exact hended
  refine ⟨fun _ dropErr => ⟨(s.wire.tail .tail).map .made, ?_, used, hcomplete, hused⟩,
    fun _ dropErr => ⟨?_, ?_⟩, fun h => absurd h hms⟩
  · have htail : (onBlocks payload {} raws).2.wire.tail .tail ≠ [] := by
      rw [hrun]
      rintro htail
      have := congrArg (List.map Made.move) htail
      rw [moves_tail hopen.1 hopen.2.1 hopen.2.2] at this
      simp at this
    rw [finishBlocks_of_tail_ne_nil htail, hrun]
  · have htail := tail_error hopen.1 hopen.2.1 hopen.2.2
    rw [finishBlocks_of_tail_ne_nil (by rw [hrun, htail]; exact List.cons_ne_nil _ _), hrun, htail]
    rfl
  · intro herror
    have hbad : c = .failed ∨ c = .broken := hc ▸ Phase.run_of_error herror
    cases hsim with
    | between | inBlock | inCall => simp at hbad
    | before | closing | ended | failed => simp at hu

theorem closedWell_of_ended (hrun : onBlocks payload {} raws = (sent, s))
    (hstart : s.wire.told.sawMessageStart = true)
    (hend : s.wire.told.sawMessageStop = true ∨ s.wire.told.sawError = true) (hms : Ended ms) :
    ClosedWell payload (fun close (dropErr : Option ε) => finishBlocks payload close dropErr raws)
      sent ms := by
  refine ⟨fun h => absurd hms h, fun h => absurd hms h, fun _ close dropErr => ?_⟩
  rw [finishBlocks_of_tail_eq_nil (by rw [hrun]; exact tail_of_ended hend close)
    (Or.inl (by rw [hrun]; exact hstart)), hrun]

theorem not_closedWell_of_before (hrun : onBlocks payload {} raws = (sent, s))
    (hwire : s.wire.told = {}) (hms : ¬ Ended ms) :
    ¬ ClosedWell payload (fun close (dropErr : Option ε) => finishBlocks payload close dropErr raws)
      sent ms := by
  intro h
  have hstart : s.wire.sawMessageStart = false := congrArg Told.sawMessageStart hwire
  have htail : (onBlocks payload {} raws).2.wire.tail .error = [] := by
    rw [hrun]
    simp [Wire.tail, hstart]
  have herror := (h.error hms none).1
  rw [finishBlocks_of_tail_eq_nil htail (Or.inr rfl), hrun] at herror
  have := congrArg List.length herror
  simp at this

theorem not_closedWell_of_closing (hrun : onBlocks payload {} raws = (sent, s))
    (hc : Phase.run unused .before (sent.map (Out.move payload)) = c)
    (hstart : s.wire.told.sawMessageStart = true) (hstop : s.wire.told.sawMessageStop = false)
    (herror : s.wire.told.sawError = false) (hopened : s.wire.told.opened = none)
    (hclosing : (∃ used, c = .closing used) ∨ c = .broken) (hms : ¬ Ended ms) :
    ¬ ClosedWell payload (fun close (dropErr : Option ε) => finishBlocks payload close dropErr raws)
      sent ms := by
  intro h
  have hbroken := not_complete_of_closing hstart hstop herror hopened hclosing
  obtain ⟨added, hfinish, used, hended, -⟩ := h.tail hms none
  have htail : (onBlocks payload {} raws).2.wire.tail .tail ≠ [] := by
    rw [hrun]
    rintro htail
    have := congrArg (List.map Made.move) htail
    rw [moves_tail hstart hstop herror] at this
    simp at this
  rw [finishBlocks_of_tail_ne_nil htail, hrun] at hfinish
  have hadded : (s.wire.tail .tail).map Out.made = added :=
    List.append_cancel_left (List.map_injective_iff.mpr (fun _ _ => Except.ok.inj) hfinish)
  subst hadded
  rw [List.map_append, Phase.run_append, hc, List.map_map] at hended
  exact absurd (hended.symm.trans hbroken) nofun

end Cuts

/-- How the blocks of one message that breaks off are closed. -/
theorem closedWell_iff (hvalid : Phase.run rising .before (raws.map (move payload)) ≠ .broken) :
    ClosedWell payload (fun close (dropErr : Option ε) => finishBlocks payload close dropErr raws)
        (onBlocks payload {} raws).1 (raws.map (move payload)) ↔
      .messageStart ∈ raws.map (move payload) ∧
        ((∃ claims, .messageDelta claims ∈ raws.map (move payload)) →
          Ended (raws.map (move payload))) := by
  have hsim := (Sim.before rfl rfl rfl : Sim payload {} .before .before).run hvalid
  have htells := Phase.tells_run rising (raws.map (move payload))
  generalize hc : Phase.run unused .before ((onBlocks payload {} raws).1.map (Out.move payload)) = c
    at hsim
  generalize Phase.run rising .before (raws.map (move payload)) = u at hsim htells
  cases hsim with
  | before hwire =>
    exact iff_of_false (not_closedWell_of_before rfl hwire htells.2.2) fun h => htells.1 h.1
  | between hknows hopened hwithheld habandoned =>
    exact iff_of_true (closedWell_of_open rfl (.between hknows hopened hwithheld habandoned) hc
      (Or.inl ⟨_, rfl⟩) htells.2.2) ⟨htells.1, fun ⟨claims, h⟩ => absurd h (htells.2.1 claims)⟩
  | inBlock hknows hopened hkind hi hwithheld habandoned =>
    exact iff_of_true (closedWell_of_open rfl
      (.inBlock hknows hopened hkind hi hwithheld habandoned) hc (Or.inr ⟨_, _, rfl⟩) htells.2.2)
      ⟨htells.1, fun ⟨claims, h⟩ => absurd h (htells.2.1 claims)⟩
  | inCall hknows hopened hi habandoned hheld =>
    exact iff_of_true (closedWell_of_open rfl (.inCall hknows hopened hi habandoned hheld) hc
      (Or.inr ⟨_, _, rfl⟩) htells.2.2)
      ⟨htells.1, fun ⟨claims, h⟩ => absurd h (htells.2.1 claims)⟩
  | closing hstart hstop herror hopened hclosing =>
    exact iff_of_false (not_closedWell_of_closing rfl hc hstart hstop herror hopened hclosing
      htells.2.2) fun h => htells.2.2 (h.2 htells.2.1)
  | ended hstart hstop =>
    exact iff_of_true (closedWell_of_ended rfl hstart (Or.inl hstop) htells.2)
      ⟨htells.1, fun _ => htells.2⟩
  | failed hstart herror =>
    exact iff_of_true (closedWell_of_ended rfl hstart (Or.inr herror) htells.2)
      ⟨htells.1, fun _ => htells.2⟩

/-! ### Streams of chunks -/

theorem takeBlocks_eq {rounds : ℕ} {f : SseFramer} (h : f.maxBufferedBytes = none)
    (hrounds : f.buf.length ≤ rounds) :
    (takeBlocks rounds f).1 = terminator.frames f.buf ∧
      (takeBlocks rounds f).2.buf = terminator.rest f.buf ∧
      (takeBlocks rounds f).2.maxBufferedBytes = none := by
  induction rounds generalizing f with
  | zero =>
    have hbuf : f.buf = [] := List.eq_nil_of_length_eq_zero (Nat.le_zero.mp hrounds)
    have hfirst : terminator.first f.buf = none := hbuf ▸ FrameRule.first_nil
    rw [FrameRule.frames_of_none hfirst, FrameRule.rest_of_none hfirst]
    exact ⟨rfl, rfl, h⟩
  | succ rounds ih =>
    obtain ⟨hpull, hmax⟩ := SseFramer.nextRawBlock_pulls f h
    rw [Prod.ext_iff] at hpull
    cases hfirst : terminator.first f.buf with
    | none =>
      rw [FrameRule.pull_of_none hfirst] at hpull
      rw [FrameRule.frames_of_none hfirst, FrameRule.rest_of_none hfirst, takeBlocks]
      rcases hnext : f.nextRawBlock with ⟨raw, f'⟩
      rw [hnext] at hpull hmax
      obtain rfl : raw = none := hpull.1
      exact ⟨rfl, hpull.2, hmax⟩
    | some n =>
      rw [FrameRule.pull_of_some hfirst] at hpull
      rw [FrameRule.frames_of_some hfirst, FrameRule.rest_of_some hfirst, takeBlocks]
      rcases hnext : f.nextRawBlock with ⟨raw, f'⟩
      rw [hnext] at hpull hmax
      obtain rfl : raw = some (f.buf.take n) := hpull.1
      have hbuf : f'.buf = f.buf.drop n := hpull.2
      have hlt := terminator.length_drop_lt hfirst
      obtain ⟨hframes, hrest, hmax'⟩ := ih hmax (by rw [hbuf]; omega)
      rw [hbuf] at hframes hrest
      exact ⟨congrArg _ hframes, hrest, hmax'⟩

theorem blocksOfChunks_eq {f : SseFramer} (h : f.maxBufferedBytes = none)
    (hfirst : terminator.first f.buf = none) (chunks : List Bytes) :
    blocksOfChunks f chunks = terminator.frames (f.buf ++ chunks.flatten) := by
  induction chunks generalizing f with
  | nil => rw [List.flatten_nil, List.append_nil, FrameRule.frames_of_none hfirst]; rfl
  | cons chunk chunks ih =>
    obtain ⟨hbuf, hmax⟩ := SseFramer.push_buf h chunk
    obtain ⟨hframes, hrest, hmax'⟩ := takeBlocks_eq hmax le_rfl
    rw [blocksOfChunks, hframes, ih hmax' (by rw [hrest]; exact FrameRule.first_rest _), hrest,
      hbuf, List.flatten_cons, ← List.append_assoc, ← FrameRule.frames_append]

theorem blocksOfChunks_new (chunks : List Bytes) :
    blocksOfChunks SseFramer.new chunks = terminator.frames chunks.flatten :=
  blocksOfChunks_eq rfl FrameRule.first_nil chunks

/-- The blocks of a message that breaks off are the first ones of the message. -/
theorem not_broken_of_cut {payload : Bytes → Option Json} {stream part : Bytes}
    (hvalid : ValidStream ((terminator.frames stream).map (move payload))) (hcut : part <+: stream) :
    Phase.run rising .before ((terminator.frames part).map (move payload)) ≠ .broken := by
  obtain ⟨more, rfl⟩ := hcut
  rw [FrameRule.frames_append, List.map_append] at hvalid
  have hwhole : Phase.run rising .before ((terminator.frames part).map (move payload) ++
      (terminator.frames (terminator.rest part ++ more)).map (move payload)) ≠ .broken := by
    rcases hvalid with ⟨used, h⟩ | h <;> rw [h] <;> nofun
  exact Phase.not_broken_of_append hwhole

/-- A message that breaks off anywhere is closed well-formed exactly if it has started, and has ended
where its message delta has come. -/
theorem finishOnDropWith_closedWell_iff {ε : Type*} (fromSlice : Bytes → Option Json)
    {stream : Bytes} {chunks : List Bytes}
    (hvalid : ValidStream ((terminator.frames stream).map (move (payloadOf fromSlice))))
    (hcut : chunks.flatten <+: stream) :
    ClosedWell (payloadOf fromSlice)
        (fun close (dropErr : Option ε) => finishOnDropWith fromSlice close dropErr chunks)
        (onBlocks (payloadOf fromSlice) {} (terminator.frames chunks.flatten)).1
        ((terminator.frames chunks.flatten).map (move (payloadOf fromSlice))) ↔
      .messageStart ∈ (terminator.frames chunks.flatten).map (move (payloadOf fromSlice)) ∧
        ((∃ claims, .messageDelta claims ∈
            (terminator.frames chunks.flatten).map (move (payloadOf fromSlice))) →
          Ended ((terminator.frames chunks.flatten).map (move (payloadOf fromSlice)))) := by
  simp only [finishOnDropWith, blocksOfChunks_new]
  exact closedWell_iff (not_broken_of_cut hvalid hcut)

/-! ### Concrete streams -/

namespace Sample

/-- A message with one text block. -/
def oneText : List Json :=
  [messageStart, blockStart 0 "text", blockDelta 0, blockStop 0, messageDelta "end_turn", messageStop]

theorem valid_oneText : ValidStream ((terminator.frames (oneText.map frame).flatten).map
    (move (payloadOf (read oneText)))) := by
  rw [← blocksOfChunks_new]
  exact Or.inl ⟨[0], by decide +kernel⟩

end Sample

open Sample in
/-- A message that breaks off in its block is closed well-formed. -/
theorem closedWell_oneText :
    ClosedWell (payloadOf (Sample.read oneText))
      (fun close (dropErr : Option Unit) => finishOnDropWith (Sample.read oneText) close dropErr
        ((oneText.take 3).map frame))
      (onBlocks (payloadOf (Sample.read oneText)) {}
        (terminator.frames ((oneText.take 3).map frame).flatten)).1
      ((terminator.frames ((oneText.take 3).map frame).flatten).map
        (move (payloadOf (Sample.read oneText)))) :=
  (finishOnDropWith_closedWell_iff (Sample.read oneText) valid_oneText (by decide +kernel)).mpr
    (by rw [← blocksOfChunks_new]; exact ⟨by decide +kernel, by
      rintro ⟨claims, h⟩
      exact absurd h (by cases claims <;> decide +kernel)⟩)

open Sample in
/-- A message that breaks off before its message stop is given another block and another message
delta. -/
theorem not_closedWell_oneText :
    ¬ ClosedWell (payloadOf (Sample.read oneText))
      (fun close (dropErr : Option Unit) => finishOnDropWith (Sample.read oneText) close dropErr
        ((oneText.take 5).map frame))
      (onBlocks (payloadOf (Sample.read oneText)) {}
        (terminator.frames ((oneText.take 5).map frame).flatten)).1
      ((terminator.frames ((oneText.take 5).map frame).flatten).map
        (move (payloadOf (Sample.read oneText)))) := by
  intro h
  have hcut : ((oneText.take 5).map frame).flatten <+: (oneText.map frame).flatten := by
    decide +kernel
  have hnot := not_broken_of_cut valid_oneText hcut
  rw [← blocksOfChunks_new] at h hnot
  simp only [finishOnDropWith] at h
  rcases ((closedWell_iff hnot).mp h).2 ⟨false, by decide +kernel⟩ with hstop | herror
  · exact absurd hstop (by decide +kernel)
  · exact absurd herror (by decide +kernel)

end Headroom.Sse
