import Headroom.Sse.StreamFinisher

/-!
# Tool calls reach the client whole

A tool call is held back from its start to its stop, and goes out in one piece. So every start of a
tool call that reaches the client is followed by all of its deltas and its own stop, and a stop reason
that claims a tool call comes after one. Both fail when a tool call starts while another one is held
back, when the stop of another block ends it, and when the only complete calls are those that run on
the server.

## Main statements

* `finishOnDropWith_whole` : both hold of every stream whose steps are sound.
-/

open Foundation

namespace Headroom.Sse

variable {ρ : Type*} (payload : ρ → Option Json)

/-! ### What the client should see -/

/-- The deltas of a block and its own stop, in what follows its start: none when the message starts
again, or another block with that index, before the stop. -/
def blockRest (i : ℕ) : List ρ → Option (List ρ)
  | [] => none
  | e :: es =>
    match move payload e with
    | .stop j => if j = i then some [e] else blockRest i es
    | .delta j => if j = i then (blockRest i es).map (e :: ·) else blockRest i es
    | .start j _ => if j = i then none else blockRest i es
    | .messageStart => none
    | _ => blockRest i es

/-- Everything that the stream has of the block that `e` starts, its own stop at the end, is in what
the client receives afterwards. -/
def Followed (raws : List ρ) (e : ρ) (i : ℕ) (after : List (Out ρ)) : Prop :=
  ∃ before behind rest, raws = before ++ e :: behind ∧ blockRest payload i behind = some rest ∧
    (rest.map Out.upstream).Sublist after

/-- Every start of a tool call is followed by the rest of its block. -/
def ToolCallsWhole (raws : List ρ) (sent : List (Out ρ)) : Prop :=
  ∀ before e after i ty, sent = before ++ .upstream e :: after → move payload e = .start i ty →
    kindOf ty = .toolUse → Followed payload raws e i after

/-- A complete tool call of the client's has been sent in the message that is under way. -/
def CallDelivered (raws : List ρ) (sent : List (Out ρ)) : Prop :=
  ∃ before e i after, sent = before ++ .upstream e :: after ∧ move payload e = .start i "tool_use" ∧
    Followed payload raws e i after ∧ ∀ x, .upstream x ∈ after → move payload x ≠ .messageStart

/-- The event says that the message stops for a tool call. -/
def Out.claims (d : Out ρ) : Bool := d.move payload = .messageDelta true

/-- A message that says it stops for a tool call has had one. -/
def StopReasonHonest (raws : List ρ) (sent : List (Out ρ)) : Prop :=
  ∀ before d after, sent = before ++ d :: after → d.claims payload → CallDelivered payload raws before

/-! ### Sound steps -/

/-- A tool call is held back. -/
def FinisherState.holding (s : FinisherState ρ) : Bool := s.wire.inTool && !s.abandoned

/-- The call that is held back is one for the client to run. -/
def FinisherState.holdsCall (s : FinisherState ρ) : Bool :=
  s.withheld.any fun e =>
    match move payload e with
    | .start _ ty => ty = "tool_use"
    | _ => false

/-- A complete tool call of the client's has gone out in this message, after one more block. -/
def completedNext (s : FinisherState ρ) (completed : Bool) (raw : ρ) : Bool :=
  match move payload raw with
  | .messageStart => false
  | .stop _ => completed || (s.holding && s.holdsCall payload)
  | _ => completed

/-- Nothing goes wrong at a block: no tool call starts while one is held back, and only its own stop
ends that one; where a stop reason claims a tool call and some call went out, one of the client's
did. -/
def StepSound (s : FinisherState ρ) (completed : Bool) (raw : ρ) : Prop :=
  match move payload raw with
  | .start _ ty => s.holding → kindOf ty ≠ .toolUse
  | .stop i => s.holding → s.wire.opened = some (i, .toolUse)
  | .messageDelta true => s.deliveredToolUse → completed
  | _ => True

instance (s : FinisherState ρ) (completed : Bool) (raw : ρ) :
    Decidable (StepSound payload s completed raw) :=
  match h : move payload raw with
  | .start _ ty => decidable_of_iff (s.holding → kindOf ty ≠ .toolUse) (by simp [StepSound, h])
  | .stop i =>
    decidable_of_iff (s.holding → s.wire.opened = some (i, .toolUse)) (by simp [StepSound, h])
  | .messageDelta true => decidable_of_iff (s.deliveredToolUse → completed) (by simp [StepSound, h])
  | .messageDelta false | .messageStart | .delta _ | .messageStop | .error | .other =>
    isTrue (by simp [StepSound, h])

/-- Every step of a run is sound. -/
def RunSound (s : FinisherState ρ) (completed : Bool) : List ρ → Prop
  | [] => True
  | raw :: raws => StepSound payload s completed raw ∧
    RunSound (onBlock payload s raw).2 (completedNext payload s completed raw) raws

instance RunSound.decidable (s : FinisherState ρ) (completed : Bool) :
    ∀ raws : List ρ, Decidable (RunSound payload s completed raws)
  | [] => isTrue trivial
  | raw :: raws =>
    have := RunSound.decidable (onBlock payload s raw).2 (completedNext payload s completed raw) raws
    inferInstanceAs (Decidable (_ ∧ _))

/-! ### More blocks, more output -/

variable {payload}

variable {i : ℕ}

theorem blockRest_append {es rest : List ρ} (h : blockRest payload i es = some rest)
    (more : List ρ) : blockRest payload i (es ++ more) = some rest := by
  induction es generalizing rest with
  | nil => exact absurd h nofun
  | cons e es ih =>
    rw [List.cons_append]
    unfold blockRest at h ⊢
    split at h
    · split_ifs at h ⊢
      · exact h
      · exact ih h
    · split_ifs at h ⊢
      · obtain ⟨rest', h', rfl⟩ := Option.map_eq_some_iff.mp h
        rw [ih h', Option.map_some]
      · exact ih h
    · split_ifs at h ⊢
      exact ih h
    · exact absurd h nofun
    · exact ih h

variable {raws : List ρ}

theorem Followed.append {e : ρ} {after : List (Out ρ)}
    (h : Followed payload raws e i after) (more : List ρ) (out : List (Out ρ)) :
    Followed payload (raws ++ more) e i (after ++ out) := by
  obtain ⟨before, behind, rest, rfl, hrest, hsub⟩ := h
  exact ⟨before, behind ++ more, rest, by simp, blockRest_append hrest more,
    hsub.trans (List.sublist_append_left after out)⟩

theorem split_append {α : Type*} {as bs before after : List α} {x : α}
    (h : as ++ bs = before ++ x :: after) :
    (∃ mid, as = before ++ x :: mid ∧ after = mid ++ bs) ∨
      ∃ mid, bs = mid ++ x :: after ∧ before = as ++ mid := by
  rcases List.append_eq_append_iff.mp h with ⟨mid, rfl, rfl⟩ | ⟨mid, rfl, hmid⟩
  · exact Or.inr ⟨mid, rfl, rfl⟩
  · cases mid with
    | nil => exact Or.inr ⟨[], by simpa using hmid.symm, by simp⟩
    | cons y mid =>
      obtain ⟨rfl, rfl⟩ := List.cons.inj hmid
      exact Or.inl ⟨mid, rfl, rfl⟩

variable {more : List ρ} {sent out : List (Out ρ)}

theorem ToolCallsWhole.append (h : ToolCallsWhole payload raws sent)
    (hout : ToolCallsWhole payload (raws ++ more) out) :
    ToolCallsWhole payload (raws ++ more) (sent ++ out) := by
  intro before e after i ty hsplit he hty
  rcases split_append hsplit with ⟨mid, hsent, rfl⟩ | ⟨mid, hmid, -⟩
  · exact (h before e mid i ty hsent he hty).append more out
  · exact hout mid e after i ty hmid he hty

theorem CallDelivered.append (h : CallDelivered payload raws sent)
    (hout : ∀ x, .upstream x ∈ out → move payload x ≠ .messageStart) :
    CallDelivered payload (raws ++ more) (sent ++ out) := by
  obtain ⟨before, e, i, after, rfl, he, hfollowed, hafter⟩ := h
  refine ⟨before, e, i, after ++ out, by simp, he, hfollowed.append more out, ?_⟩
  intro x hx
  exact (List.mem_append.mp hx).elim (hafter x) (hout x)

theorem CallDelivered.mono (h : CallDelivered payload raws sent) (more : List ρ) :
    CallDelivered payload (raws ++ more) sent := by
  rw [← List.append_nil sent]
  exact h.append nofun

theorem StopReasonHonest.append (h : StopReasonHonest payload raws sent)
    (hout : ∀ before d after, out = before ++ d :: after → d.claims payload →
      CallDelivered payload (raws ++ more) (sent ++ before)) :
    StopReasonHonest payload (raws ++ more) (sent ++ out) := by
  intro before d after hsplit hd
  rcases split_append hsplit with ⟨mid, hsent, -⟩ | ⟨mid, hmid, rfl⟩
  · exact (h before d mid hsent hd).mono more
  · exact hout mid d after hmid hd

theorem exists_stop_of_blockRest {es rest : List ρ} (h : blockRest payload i es = some rest) :
    ∃ e ∈ es, move payload e = .stop i := by
  induction es generalizing rest with
  | nil => exact absurd h nofun
  | cons e es ih =>
    have hes {rest : List ρ} (h : blockRest payload i es = some rest) :
        ∃ x ∈ e :: es, move payload x = .stop i := by
      obtain ⟨x, hx, hstop⟩ := ih h
      exact ⟨x, List.mem_cons_of_mem e hx, hstop⟩
    unfold blockRest at h
    split at h
    next j hj =>
      split_ifs at h with hji
      · exact ⟨e, List.mem_cons_self, by rw [hj, hji]⟩
      · exact hes h
    · split_ifs at h
      · obtain ⟨rest', h', -⟩ := Option.map_eq_some_iff.mp h
        exact hes h'
      · exact hes h
    · split_ifs at h
      exact hes h
    · exact absurd h nofun
    · exact hes h

theorem blockRest_of_deltas {es : List ρ} {st : ρ}
    (h : ∀ x ∈ es, (∃ j, move payload x = .delta j) ∨ move payload x = .other)
    (hst : move payload st = .stop i) :
    blockRest payload i (es ++ [st]) = some (es.filter (fun x => move payload x = .delta i) ++ [st]) := by
  induction es with
  | nil => simp [blockRest, hst]
  | cons e es ih =>
    have hes := ih fun x hx => h x (List.mem_cons_of_mem _ hx)
    rw [List.cons_append, blockRest]
    rcases h e List.mem_cons_self with ⟨j, hj⟩ | hother
    · by_cases hji : j = i
      · simp [hj, hji, hes]
      · simp [hj, hji, hes]
    · simp [hother, hes]

/-! ### The invariant -/

def Move.isDelta : Move → Bool
  | .delta _ => true
  | _ => false

variable (payload) in
/-- What is held back is the start of the open call and the deltas since. -/
def Held (raws : List ρ) (s : FinisherState ρ) : Prop :=
  ∃ before e behind i ty, raws = before ++ e :: behind ∧ move payload e = .start i ty ∧
    kindOf ty = .toolUse ∧ s.wire.opened = some (i, .toolUse) ∧
    (∀ x ∈ behind, (∃ j, move payload x = .delta j) ∨ move payload x = .other) ∧
    s.withheld = e :: behind.filter fun x => (move payload x).isDelta

variable (payload) in
/-- What holds after each block of a sound run. -/
structure Inv (raws : List ρ) (sent : List (Out ρ)) (s : FinisherState ρ) (completed : Bool) :
    Prop where
  whole : ToolCallsWhole payload raws sent
  honest : StopReasonHonest payload raws sent
  held : s.holding → Held payload raws s
  empty : s.holding = false → s.withheld = []
  delivered : completed → CallDelivered payload raws sent

section Step

variable {raws : List ρ} {sent out : List (Out ρ)} {s s' : FinisherState ρ} {raw : ρ}
  {completed completed' : Bool}

theorem wholes_of_no_start
    (h : ∀ e i ty, .upstream e ∈ out → move payload e = .start i ty → kindOf ty ≠ .toolUse) :
    ToolCallsWhole payload raws out := by
  rintro before e after i ty rfl he hty
  exact absurd hty (h e i ty (by simp) he)

/-- A step whose output starts no tool call and claims none. -/
theorem Inv.extend (h : Inv payload raws sent s completed)
    (hstart : ∀ e i ty, .upstream e ∈ out → move payload e = .start i ty → kindOf ty ≠ .toolUse)
    (hclaims : ∀ d ∈ out, d.claims payload = false)
    (hheld : s'.holding → Held payload (raws ++ [raw]) s')
    (hempty : s'.holding = false → s'.withheld = [])
    (hcompleted : completed' →
      completed ∧ ∀ x, .upstream x ∈ out → move payload x ≠ .messageStart) :
    Inv payload (raws ++ [raw]) (sent ++ out) s' completed' where
  whole := h.whole.append (wholes_of_no_start hstart)
  honest := h.honest.append fun before d after hout hd =>
    absurd hd (by simp [hclaims d (by simp [hout])])
  held := hheld
  empty := hempty
  delivered hc := (h.delivered (hcompleted hc).1).append (hcompleted hc).2

/-- A step that sends nothing. -/
theorem Inv.silent (h : Inv payload raws sent s completed)
    (hheld : s'.holding → Held payload (raws ++ [raw]) s')
    (hempty : s'.holding = false → s'.withheld = []) :
    Inv payload (raws ++ [raw]) (sent ++ []) s' completed :=
  h.extend nofun nofun hheld hempty fun hc => ⟨hc, nofun⟩

/-- A step that sends the block, which neither starts a tool call nor claims one. -/
theorem Inv.forward {m : Move} (h : Inv payload raws sent s completed) (hm : move payload raw = m)
    (hstart : ∀ i ty, m = .start i ty → kindOf ty ≠ .toolUse) (hclaims : m ≠ .messageDelta true)
    (hheld : s'.holding → Held payload (raws ++ [raw]) s')
    (hempty : s'.holding = false → s'.withheld = [])
    (hcompleted : completed' → completed ∧ m ≠ .messageStart) :
    Inv payload (raws ++ [raw]) (sent ++ [.upstream raw]) s' completed' := by
  subst hm
  refine h.extend ?_ ?_ hheld hempty ?_
  · rintro e i ty he hety
    obtain rfl : e = raw := by simpa using he
    exact hstart i ty hety
  · rintro d hd
    obtain rfl : d = .upstream raw := by simpa using hd
    simp [Out.claims, hclaims]
  · intro hc
    refine ⟨(hcompleted hc).1, fun x hx => ?_⟩
    obtain rfl : x = raw := by simpa using hx
    exact (hcompleted hc).2

/-- Blocks that say nothing but deltas leave what is held back as it is. -/
theorem Held.push (h : Held payload raws s) (hopened : s'.wire.opened = s.wire.opened)
    (hraw : (∃ j, move payload raw = .delta j) ∨ move payload raw = .other)
    (hwithheld : s'.withheld =
      s.withheld ++ if (move payload raw).isDelta then [raw] else []) :
    Held payload (raws ++ [raw]) s' := by
  obtain ⟨before, e, behind, i, ty, rfl, he, hty, hopen, hbehind, hs⟩ := h
  refine ⟨before, e, behind ++ [raw], i, ty, by simp, he, hty, hopened.trans hopen, ?_, ?_⟩
  · intro x hx
    rcases List.mem_append.mp hx with hx | hx
    · exact hbehind x hx
    · rwa [List.mem_singleton.mp hx]
  · rw [hwithheld, hs, List.filter_append, List.cons_append]
    congr 2
    simp [List.filter_cons]

theorem Inv.empty_of_not_inTool (h : Inv payload raws sent s completed) (hin : s.wire.inTool = false) :
    s.withheld = [] := h.empty (by simp [FinisherState.holding, hin])

theorem Inv.empty_of_abandoned (h : Inv payload raws sent s completed) (ha : s.abandoned) :
    s.withheld = [] := h.empty (by simp [FinisherState.holding, ha])

theorem Inv.step_messageStart (h : Inv payload raws sent s completed)
    (hm : move payload raw = .messageStart) :
    Inv payload (raws ++ [raw]) (sent ++ (onBlock payload s raw).1) (onBlock payload s raw).2
      (completedNext payload s completed raw) := by
  obtain ⟨v, hv, hon⟩ := onBlock_of_move hm nofun s
  rw [hon, onEvent_eq, hv]
  refine h.forward hm nofun nofun ?_ (fun _ => rfl) ?_
  · simp [FinisherState.holding, inTool_observe, hv]
  · simp [completedNext, hm]

variable {i : ℕ}

theorem Inv.step_start {ty : String} (h : Inv payload raws sent s completed)
    (hs : StepSound payload s completed raw) (hm : move payload raw = .start i ty) :
    Inv payload (raws ++ [raw]) (sent ++ (onBlock payload s raw).1) (onBlock payload s raw).2
      (completedNext payload s completed raw) := by
  obtain ⟨v, hv, hon⟩ := onBlock_of_move hm nofun s
  have hnext : completedNext payload s completed raw = completed := by simp [completedNext, hm]
  rw [hon, onEvent_eq, hv, hnext]
  by_cases hty : kindOf ty = .toolUse
  · have hheld : s.holding = false := by
      simp only [StepSound, hm] at hs
      simpa using fun hh => hs hh hty
    simp only [hty, if_true]
    split_ifs with ha
    · refine h.silent ?_ fun _ => h.empty hheld
      simp [FinisherState.holding, ha]
    · refine h.silent (fun _ => ⟨raws, raw, [], i, ty, rfl, hm, hty, ?_, nofun, ?_⟩) ?_
      · simp [opened_observe, hv, Told.next, hty]
      · simp [h.empty hheld]
      · simp [FinisherState.holding, inTool_observe, hv, hty, ha]
  · simp only [hty, if_false]
    split_ifs with hin ha
    · refine h.silent ?_ fun _ => h.empty_of_abandoned ha
      simp [FinisherState.holding, inTool_observe, hv, hty]
    · refine h.forward hm (by rintro _ _ ⟨⟩; exact hty) nofun ?_ (fun _ => rfl)
        fun hc => ⟨hc, nofun⟩
      simp [FinisherState.holding, inTool_observe, hv, hty]
    · refine h.forward hm (by rintro _ _ ⟨⟩; exact hty) nofun ?_
        (fun _ => h.empty_of_not_inTool (by simpa using hin)) fun hc => ⟨hc, nofun⟩
      simp [FinisherState.holding, inTool_observe, hv, hty]

theorem Inv.step_delta (h : Inv payload raws sent s completed)
    (hm : move payload raw = .delta i) :
    Inv payload (raws ++ [raw]) (sent ++ (onBlock payload s raw).1) (onBlock payload s raw).2
      (completedNext payload s completed raw) := by
  obtain ⟨v, hv, hon⟩ := onBlock_of_move hm nofun s
  have hnext : completedNext payload s completed raw = completed := by simp [completedNext, hm]
  rw [hon, onEvent_eq, hv, hnext]
  dsimp only
  split_ifs with hin ha
  · refine h.silent ?_ fun _ => h.empty_of_abandoned ha
    simp [FinisherState.holding, ha]
  · refine h.silent (fun _ => (h.held (by simp [FinisherState.holding, hin, ha])).push ?_
      (Or.inl ⟨i, hm⟩) ?_) ?_
    · simp [opened_observe, hv, Told.next, Wire.told]
    · simp [hm, Move.isDelta]
    · simp [FinisherState.holding, inTool_observe, hv, hin, ha]
  · refine h.forward hm nofun nofun ?_ (fun _ => h.empty_of_not_inTool (by simpa using hin))
      fun hc => ⟨hc, nofun⟩
    simp [FinisherState.holding, inTool_observe, hv, hin]

theorem Inv.step_other (h : Inv payload raws sent s completed) (hm : move payload raw = .other) :
    Inv payload (raws ++ [raw]) (sent ++ (onBlock payload s raw).1) (onBlock payload s raw).2
      (completedNext payload s completed raw) := by
  have hnext : completedNext payload s completed raw = completed := by simp [completedNext, hm]
  rw [onBlock_other hm, hnext]
  refine h.forward hm nofun nofun (fun hh => (h.held hh).push rfl (Or.inr hm) ?_) h.empty
    fun hc => ⟨hc, nofun⟩
  simp [hm, Move.isDelta]

theorem Inv.step_ending {m : Move} (h : Inv payload raws sent s completed)
    (hm : move payload raw = m) (hend : m = .messageStop ∨ m = .error) :
    Inv payload (raws ++ [raw]) (sent ++ (onBlock payload s raw).1) (onBlock payload s raw).2
      (completedNext payload s completed raw) := by
  have hnext : completedNext payload s completed raw = completed := by
    rcases hend with rfl | rfl <;> simp [completedNext, hm]
  obtain ⟨v, hv, hon⟩ := onBlock_of_move hm (by rcases hend with rfl | rfl <;> nofun) s
  have hevent : onEvent s raw v = ([.upstream raw],
      if s.wire.inTool then
        { s with wire := s.wire.observe v, withheld := [], abandoned := true }
      else { s with wire := s.wire.observe v }) := by
    rcases hend with rfl | rfl <;> rw [onEvent_eq, hv]
  rw [hon, hevent, hnext]
  refine h.forward hm ?_ ?_ ?_ ?_ fun hc => ⟨hc, ?_⟩
  · rcases hend with rfl | rfl <;> nofun
  · rcases hend with rfl | rfl <;> nofun
  · rcases hend with rfl | rfl <;> split_ifs with hin <;>
      simp [FinisherState.holding, inTool_observe, hv, hin]
  · intro _
    split_ifs with hin
    · rfl
    · exact h.empty_of_not_inTool (by simpa using hin)
  · rcases hend with rfl | rfl <;> nofun

theorem claims_rewriteStopReason {v : Json} (hv : claimsTool v) :
    (Out.made (rewriteStopReason v "end_turn") : Out ρ).claims payload = false := by
  have hpointer : ∀ w : Json, pointer ["delta", "stop_reason"] w =
      (w.get? "delta").bind fun delta => delta.get? "stop_reason" := by
    intro w
    cases h : w.get? "delta" with
    | none => simp [pointer, List.foldlM, h]
    | some delta => simp [pointer, List.foldlM, h]
  have hclaims : (pointer ["delta", "stop_reason"] v).bind Json.asStr? = some "tool_use" := by
    simpa [claimsTool] using hv
  obtain ⟨reason, hreason, -⟩ := Option.bind_eq_some_iff.mp hclaims
  rw [hpointer] at hreason
  obtain ⟨delta, hdelta, hreason⟩ := Option.bind_eq_some_iff.mp hreason
  have hread : pointer ["delta", "stop_reason"]
      (v.insert "delta" (delta.insert "stop_reason" (.str "end_turn"))) = some (.str "end_turn") := by
    rw [hpointer, Json.get?_insert_self hdelta]
    exact Json.get?_insert_self hreason
  rw [rewriteStopReason, hdelta]
  simp only [Out.claims, Out.move_made, Made.move, claimsTool, hread]
  decide

theorem claims_downgrade {v : Json} (hv : claimsTool v) (w : Wire) :
    ∀ d ∈ (downgrade w v).map Out.made, (d : Out ρ).claims payload = false := by
  intro d hd
  simp only [downgrade, markerBlock, List.map_append, List.map_cons, List.map_nil, List.mem_append,
    List.mem_cons, List.not_mem_nil, or_false] at hd
  rcases hd with (rfl | rfl | rfl) | rfl
  · rfl
  · rfl
  · rfl
  · exact claims_rewriteStopReason hv

theorem Inv.step_messageDelta {claims : Bool} (h : Inv payload raws sent s completed)
    (hs : StepSound payload s completed raw) (hm : move payload raw = .messageDelta claims) :
    Inv payload (raws ++ [raw]) (sent ++ (onBlock payload s raw).1) (onBlock payload s raw).2
      (completedNext payload s completed raw) := by
  obtain ⟨v, hv, hon⟩ := onBlock_of_move hm nofun s
  have hnext : completedNext payload s completed raw = completed := by simp [completedNext, hm]
  rw [hon, onEvent_eq, hv, hnext]
  dsimp only
  generalize hs' : (if s.wire.inTool then
      { s with wire := s.wire.observe v, withheld := [], abandoned := true }
    else { s with wire := s.wire.observe v } : FinisherState ρ) = s'
  have hend : s'.holding = false ∧ s'.withheld = [] := by
    subst hs'
    split_ifs with hin
    · exact ⟨by simp [FinisherState.holding], rfl⟩
    · exact ⟨by simp [FinisherState.holding, inTool_observe, hv, hin],
        h.empty_of_not_inTool (by simpa using hin)⟩
  have hheld : s'.holding → Held payload (raws ++ [raw]) s' := by simp [hend.1]
  split_ifs with hgate
  · have hclaims : claimsTool v := (claimsTool_of_moveOf hv).trans hgate.1
    exact h.extend (by simp) (claims_downgrade hclaims _) hheld (fun _ => hend.2)
      fun hc => ⟨hc, by simp⟩
  · cases claims with
    | false => exact h.forward hm nofun nofun hheld (fun _ => hend.2) fun hc => ⟨hc, nofun⟩
    | true =>
      -- the claim goes out as it came: a call of the client's was delivered before
      have hcall : CallDelivered payload raws sent :=
        h.delivered ((by simpa [StepSound, hm] using hs : s.deliveredToolUse = true → completed = true)
        (by simpa using hgate))
      exact {
        whole := h.whole.append (wholes_of_no_start (by
          rintro e i ty he hety
          obtain rfl : e = raw := by simpa using he
          exact absurd (hety.symm.trans hm) nofun))
        honest := by
          refine h.honest.append fun before d after hout _ => ?_
          obtain rfl : before = [] := by
            cases before with
            | nil => rfl
            | cons b before => simp at hout
          rw [List.append_nil]
          exact hcall.mono [raw]
        held := hheld
        empty := fun _ => hend.2
        delivered := fun _ => hcall.append (by
          rintro x hx
          obtain rfl : x = raw := by simpa using hx
          simp [hm]) }

/-- A call that has ended goes out in one piece: its start, then its deltas and its stop. -/
theorem Held.release (h : Held payload raws s) (hown : s.wire.opened = some (i, .toolUse))
    (hm : move payload raw = .stop i) :
    ∃ e ty rest, s.withheld.map Out.upstream ++ [.upstream raw] = .upstream e :: rest ∧
      move payload e = .start i ty ∧ kindOf ty = .toolUse ∧
      s.holdsCall payload = decide (ty = "tool_use") ∧
      (∀ d ∈ rest, ∃ x, d = .upstream x ∧ ((∃ j, move payload x = .delta j) ∨
        move payload x = .stop i)) ∧
      Followed payload (raws ++ [raw]) e i rest := by
  obtain ⟨before, e, behind, j, ty, rfl, he, hty, hopen, hbehind, hwithheld⟩ := h
  obtain rfl : j = i := by simpa [hopen] using hown
  have hdeltas : ∀ x ∈ behind.filter (fun x => (move payload x).isDelta),
      ∃ k, move payload x = .delta k := by
    intro x hx
    obtain ⟨hx, hdelta⟩ := List.mem_filter.mp hx
    rcases hbehind x hx with hx | hx
    · exact hx
    · simp [hx, Move.isDelta] at hdelta
  refine ⟨e, ty, (behind.filter fun x => (move payload x).isDelta).map .upstream ++ [.upstream raw],
    by simp [hwithheld], he, hty, ?_, ?_, before, behind ++ [raw], _, by simp,
    blockRest_of_deltas hbehind hm, ?_⟩
  · have hrest : ((behind.filter fun x => (move payload x).isDelta).any fun x =>
        match move payload x with
        | .start _ ty => decide (ty = "tool_use")
        | _ => false) = false := by
      rw [List.any_eq_false]
      intro x hx
      obtain ⟨k, hk⟩ := hdeltas x hx
      simp [hk]
    simp only [FinisherState.holdsCall, hwithheld, List.any_cons, he, hrest, Bool.or_false]
  · intro d hd
    rcases List.mem_append.mp hd with hd | hd
    · obtain ⟨x, hx, rfl⟩ := List.mem_map.mp hd
      exact ⟨x, rfl, Or.inl (hdeltas x hx)⟩
    · exact ⟨raw, List.mem_singleton.mp hd, Or.inr hm⟩
  · rw [List.map_append]
    refine List.Sublist.append (List.Sublist.map _ ?_) (List.Sublist.refl _)
    refine List.monotone_filter_right _ fun x hx => ?_
    simp only [decide_eq_true_eq] at hx
    simp [hx, Move.isDelta]

/-- A call that goes out in one piece keeps the invariant. -/
theorem Inv.release {e : ρ} {ty : String} {rest : List (Out ρ)}
    (h : Inv payload raws sent s completed) (he : move payload e = .start i ty)
    (hrest : ∀ d ∈ rest, ∃ x, d = .upstream x ∧ ((∃ j, move payload x = .delta j) ∨
      move payload x = .stop i))
    (hfollowed : Followed payload (raws ++ [raw]) e i rest) (hholding : s'.holding = false)
    (hempty : s'.withheld = []) :
    Inv payload (raws ++ [raw]) (sent ++ .upstream e :: rest) s'
      (completed || decide (ty = "tool_use")) where
  whole := by
    refine h.whole.append ?_
    intro before x after j ty' hsplit hx hty'
    cases before with
    | nil =>
      obtain ⟨hxe, rfl⟩ := List.cons.inj hsplit
      obtain rfl : e = x := by simpa using hxe
      obtain ⟨rfl, -⟩ : i = j ∧ ty = ty' := by simpa [he] using hx
      exact hfollowed
    | cons b before =>
      obtain ⟨y, hy, hmove⟩ := hrest (.upstream x) (by rw [(List.cons.inj hsplit).2]; simp)
      obtain rfl : x = y := by simpa using hy
      rcases hmove with ⟨k, hk⟩ | hk
      · exact absurd (hk.symm.trans hx) nofun
      · exact absurd (hk.symm.trans hx) nofun
  honest := by
    refine h.honest.append ?_
    intro before d after hsplit hd
    have hmem : d ∈ Out.upstream e :: rest := by
      rw [hsplit]
      simp
    rcases List.mem_cons.mp hmem with rfl | hmem
    · simp [Out.claims, he] at hd
    · obtain ⟨x, rfl, ⟨k, hk⟩ | hk⟩ := hrest d hmem
      · simp [Out.claims, hk] at hd
      · simp [Out.claims, hk] at hd
  held := by simp [hholding]
  empty _ := hempty
  delivered := by
    have hquiet : ∀ x, .upstream x ∈ rest → move payload x ≠ .messageStart := by
      intro x hx
      obtain ⟨y, hy, hmove⟩ := hrest _ hx
      obtain rfl : x = y := by simpa using hy
      rcases hmove with ⟨k, hk⟩ | hk <;> simp [hk]
    intro hc
    rcases Bool.or_eq_true_iff.mp hc with hc | hc
    · refine (h.delivered hc).append fun x hx => ?_
      rcases List.mem_cons.mp hx with hx | hx
      · obtain rfl : x = e := by simpa using hx
        simp [he]
      · exact hquiet x hx
    · obtain rfl : ty = "tool_use" := by simpa using hc
      exact ⟨sent, e, i, rest, rfl, he, hfollowed, hquiet⟩

theorem Inv.step_stop (h : Inv payload raws sent s completed)
    (hs : StepSound payload s completed raw) (hm : move payload raw = .stop i) :
    Inv payload (raws ++ [raw]) (sent ++ (onBlock payload s raw).1) (onBlock payload s raw).2
      (completedNext payload s completed raw) := by
  obtain ⟨v, hv, hon⟩ := onBlock_of_move hm nofun s
  rw [hon, onEvent_eq, hv]
  dsimp only
  split_ifs with hin ha
  · have hnext : completedNext payload s completed raw = completed := by
      simp [completedNext, hm, FinisherState.holding, ha]
    rw [hnext]
    refine h.silent ?_ fun _ => h.empty_of_abandoned ha
    simp [FinisherState.holding, inTool_observe, hv]
  · have hholding : s.holding := by simp [FinisherState.holding, hin, ha]
    have hown : s.holding → s.wire.opened = some (i, .toolUse) := by simpa [StepSound, hm] using hs
    obtain ⟨e, ty, rest, hout, he, hty, hcall, hrest, hfollowed⟩ :=
      (h.held hholding).release (hown hholding) hm
    have hnext : completedNext payload s completed raw = (completed || decide (ty = "tool_use")) := by
      simp [completedNext, hm, hholding, hcall]
    rw [hnext, hout]
    refine h.release he hrest hfollowed ?_ rfl
    simp [FinisherState.holding, inTool_observe, hv]
  · have hnext : completedNext payload s completed raw = completed := by
      simp [completedNext, hm, FinisherState.holding, hin]
    rw [hnext]
    refine h.forward hm nofun nofun ?_ (fun _ => h.empty_of_not_inTool (by simpa using hin))
      fun hc => ⟨hc, nofun⟩
    simp [FinisherState.holding, inTool_observe, hv]

/-- A sound step keeps the invariant. -/
theorem Inv.step (h : Inv payload raws sent s completed) (hs : StepSound payload s completed raw) :
    Inv payload (raws ++ [raw]) (sent ++ (onBlock payload s raw).1) (onBlock payload s raw).2
      (completedNext payload s completed raw) := by
  cases hm : move payload raw with
  | messageStart => exact h.step_messageStart hm
  | start i ty => exact h.step_start hs hm
  | delta i => exact h.step_delta hm
  | stop i => exact h.step_stop hs hm
  | messageDelta claims => exact h.step_messageDelta hs hm
  | messageStop => exact h.step_ending hm (Or.inl rfl)
  | error => exact h.step_ending hm (Or.inr rfl)
  | other => exact h.step_other hm

/-- A sound run keeps the invariant. -/
theorem Inv.run (h : Inv payload raws sent s completed)
    (hs : RunSound payload s completed more) :
    ∃ completed', Inv payload (raws ++ more) (sent ++ (onBlocks payload s more).1)
      (onBlocks payload s more).2 completed' := by
  induction more generalizing raws sent s completed with
  | nil => exact ⟨completed, by simpa [onBlocks] using h⟩
  | cons raw more ih =>
    obtain ⟨completed', h'⟩ := ih (h.step hs.1) hs.2
    exact ⟨completed', by simpa [onBlocks] using h'⟩

end Step

/-! ### Streams of chunks -/

/-- The events that the client receives, without an error of the connection. -/
def events {ε : Type*} (received : List (Except ε (Out ρ))) : List (Out ρ) :=
  received.filterMap Except.toOption

theorem events_finishBlocks {ε : Type*} (payload : ρ → Option Json) (close : DropClose)
    (dropErr : Option ε) (raws : List ρ) :
    events (finishBlocks payload close dropErr raws) = (onBlocks payload {} raws).1 ++
      ((onBlocks payload {} raws).2.wire.tail close).map .made := by
  have hok (l : List (Out ρ)) : (l.map (Except.ok : Out ρ → Except ε (Out ρ))).filterMap
      Except.toOption = l := by
    rw [List.filterMap_map]
    exact List.filterMap_some
  simp only [events, finishBlocks, List.filterMap_append, hok]
  refine congrArg _ ?_
  split_ifs with htail
  · rw [List.isEmpty_iff.mp htail]
    cases dropErr <;> rfl
  · rw [List.isEmpty_iff.mp htail]
    cases dropErr <;> rfl
  · rw [← hok (List.map Out.made _), List.map_map]
    rfl

/-- The blocks of a stream of chunks, each with its place. -/
def numbered (chunks : List Bytes) : List (Bytes × ℕ) := (blocksOfChunks SseFramer.new chunks).zipIdx

/-- Everything the client receives of a stream of chunks, with the places that its blocks had. -/
def finishNumbered {ε : Type*} (fromSlice : Bytes → Option Json) (close : DropClose)
    (dropErr : Option ε) (chunks : List Bytes) : List (Except ε (Out (Bytes × ℕ))) :=
  finishBlocks (payloadOf fromSlice ∘ Prod.fst) close dropErr (numbered chunks)

theorem claims_tail (w : Wire) (close : DropClose) :
    ∀ d ∈ (w.tail close).map Out.made, (d : Out ρ).claims payload = false := by
  have hmarker (index : ℕ) (marker : String) :
      ∀ event ∈ markerBlock index marker, (Out.made event : Out ρ).claims payload = false := by
    simp [markerBlock, Out.claims, Made.move]
  have hclosing : ∀ event ∈ w.closing, (Out.made event : Out ρ).claims payload = false := by
    unfold Wire.closing
    split
    · simp [Out.claims, Made.move]
    · simpa [Out.claims, Made.move] using hmarker _ _
    · exact hmarker _ _
    · exact hmarker _ _
  intro d hd
  obtain ⟨event, hevent, rfl⟩ := List.mem_map.mp hd
  unfold Wire.tail at hevent
  split_ifs at hevent
  · exact absurd hevent List.not_mem_nil
  · cases close with
    | error =>
      obtain rfl := List.mem_singleton.mp hevent
      rfl
    | tail =>
      rcases List.mem_append.mp hevent with hevent | hevent
      · exact hclosing event hevent
      · rcases List.mem_cons.mp hevent with rfl | hevent
        · rfl
        · obtain rfl := List.mem_singleton.mp hevent
          rfl

/-- What closes the stream keeps both properties. -/
theorem Inv.close {s : FinisherState ρ} {completed : Bool}
    (h : Inv payload raws sent s completed) (w : Wire) (close : DropClose) :
    ToolCallsWhole payload raws (sent ++ (w.tail close).map .made) ∧
      StopReasonHonest payload raws (sent ++ (w.tail close).map .made) := by
  rw [← List.append_nil raws]
  refine ⟨h.whole.append (wholes_of_no_start (by simp)), h.honest.append ?_⟩
  intro before d after hout hd
  exact absurd hd (by simp [claims_tail w close d (by simp [hout])])

/-- Where every step is sound, a tool call that reaches the client is whole, and a stop reason that
claims one is honest, however the stream ends. -/
theorem finishOnDropWith_whole {ε : Type*} (fromSlice : Bytes → Option Json) (close : DropClose)
    (dropErr : Option ε) (chunks : List Bytes)
    (h : RunSound (payloadOf fromSlice ∘ Prod.fst) {} false (numbered chunks)) :
    ToolCallsWhole (payloadOf fromSlice ∘ Prod.fst) (numbered chunks)
        (events (finishNumbered fromSlice close dropErr chunks)) ∧
      StopReasonHonest (payloadOf fromSlice ∘ Prod.fst) (numbered chunks)
        (events (finishNumbered fromSlice close dropErr chunks)) := by
  have hinit : Inv (payloadOf fromSlice ∘ Prod.fst) ([] : List (Bytes × ℕ)) [] {} false := {
    whole := wholes_of_no_start nofun
    honest := by
      intro before d after hsplit
      simp at hsplit
    held := nofun
    empty := fun _ => rfl
    delivered := nofun }
  obtain ⟨completed, hrun⟩ := hinit.run h
  rw [finishNumbered, events_finishBlocks]
  exact hrun.close _ close

/-! ### Concrete streams -/

namespace Sample

/-- A message with one tool call. -/
def oneCall : List Json :=
  [messageStart, blockStart 0 "tool_use", blockDelta 0, blockStop 0, messageDelta "tool_use",
    messageStop]

/-- A tool call that starts while another one is under way. -/
def callOverCall : List Json :=
  [messageStart, blockStart 0 "tool_use", blockDelta 0, blockStart 1 "tool_use", blockStop 1]

/-- A message that claims a tool call, after one that ran on the server. -/
def serverCall : List Json :=
  [messageStart, blockStart 0 "server_tool_use", blockStop 0, messageDelta "tool_use"]

end Sample

open Sample in
theorem finishOnDropWith_whole_oneCall :
    ToolCallsWhole (payloadOf (Sample.read oneCall) ∘ Prod.fst) (numbered (oneCall.map frame))
        (events (finishNumbered (Sample.read oneCall) .tail (none : Option Unit)
          (oneCall.map frame))) ∧
      StopReasonHonest (payloadOf (Sample.read oneCall) ∘ Prod.fst) (numbered (oneCall.map frame))
        (events (finishNumbered (Sample.read oneCall) .tail (none : Option Unit)
          (oneCall.map frame))) :=
  finishOnDropWith_whole _ _ _ _ (by decide +kernel)

open Sample in
/-- The first of two calls, one started over the other, reaches the client without its stop; and a
call that ran on the server backs the claim that the client has one to run. -/
theorem not_whole_callOverCall :
    ¬ ToolCallsWhole (payloadOf (Sample.read callOverCall) ∘ Prod.fst)
        (numbered (callOverCall.map frame))
        (events (finishNumbered (Sample.read callOverCall) .tail (none : Option Unit)
          (callOverCall.map frame))) ∧
      ¬ StopReasonHonest (payloadOf (Sample.read serverCall) ∘ Prod.fst)
        (numbered (serverCall.map frame))
        (events (finishNumbered (Sample.read serverCall) .tail (none : Option Unit)
          (serverCall.map frame))) := by
  constructor
  · intro h
    have hmem : .upstream (frame (blockStart 0 "tool_use"), 1) ∈
        events (finishNumbered (Sample.read callOverCall) .tail (none : Option Unit)
          (callOverCall.map frame)) := by decide +kernel
    obtain ⟨before, after, hsplit⟩ := List.append_of_mem hmem
    obtain ⟨_, behind, rest, hraws, hrest, -⟩ :=
      h before _ after 0 "tool_use" hsplit (by decide +kernel) rfl
    obtain ⟨st, hst, hstop⟩ := exists_stop_of_blockRest hrest
    have hnone : ∀ x ∈ numbered (callOverCall.map frame),
        move (payloadOf (Sample.read callOverCall) ∘ Prod.fst) x ≠ .stop 0 := by decide +kernel
    exact hnone st (by simp [hraws, hst]) hstop
  · intro h
    have hmem : .upstream (frame (messageDelta "tool_use"), 3) ∈
        events (finishNumbered (Sample.read serverCall) .tail (none : Option Unit)
          (serverCall.map frame)) := by decide +kernel
    obtain ⟨before, after, hsplit⟩ := List.append_of_mem hmem
    obtain ⟨_, e, i, _, -, he, ⟨_, _, _, hraws, -⟩, -⟩ :=
      h before _ after hsplit (by decide +kernel)
    have hnone : ∀ x ∈ numbered (serverCall.map frame),
        (match move (payloadOf (Sample.read serverCall) ∘ Prod.fst) x with
          | .start _ ty => decide (ty = "tool_use")
          | _ => false) = false := by decide +kernel
    simpa [he] using hnone e (by simp [hraws])

end Headroom.Sse
