import Headroom.OpenAi.ChatTurns

/-!
# The calls of a stream of Chat Completions

The fragments of the calls are put together by their index. Where every call starts with a fragment
that brings its id and its name, the calls are read in the order in which they start.
-/

open Foundation

namespace Headroom.OpenAi

/-! ### Pieces -/

/-- What a stream brings, as far as calls are concerned. -/
inductive Piece
  | words
  | fragment (tc : Json)

def fragmentId (tc : Json) : Option String := tc.getStr? "id"

def deltaPieces (delta : Json) : List Piece :=
  (if StreamTranslator.nonEmptyField "reasoning_content" delta = none ∧
      StreamTranslator.nonEmptyField "content" delta = none then [] else [.words]) ++
    ((delta.getArr? "tool_calls").getD []).map .fragment

def pieces (chunk : Json) : List Piece :=
  ((StreamTranslator.firstChoice chunk).bind (Json.get? "delta")).elim [] deltaPieces

/-- The call of an index started last, and no words came since. -/
def Current (front : List Piece) (index : ℕ) : Prop :=
  ∃ before tc since, front = before ++ .fragment tc :: since ∧ (fragmentId tc).isSome ∧
    fragmentIndex tc = index ∧ ∀ piece ∈ since, ∃ tc', piece = .fragment tc' ∧ fragmentId tc' = none

/-- A call started after a fragment of another. -/
def Overtaken (front : List Piece) (index : ℕ) : Prop :=
  ∃ before tc since tc', front = before ++ .fragment tc :: since ∧ fragmentIndex tc = index ∧
    .fragment tc' ∈ since ∧ (fragmentId tc').isSome

/-- A fragment with nothing in it but its index. -/
def Silent (tc : Json) : Prop :=
  fragmentId tc = none ∧ (fragmentName tc).getD "" = "" ∧ (fragmentArguments tc).getD "" = ""

/-- A call starts with its id, which is a new one, and its name; nothing came of it before, and no
other call started since it was mentioned. Arguments come for the call that started last, before any
words. A name comes with the id, or for a call that has none. -/
def ProperFragment (front : List Piece) (tc : Json) : Prop :=
  match fragmentId tc with
  | some id => id ≠ "" ∧ (fragmentName tc).getD "" ≠ "" ∧ ¬ Overtaken front (fragmentIndex tc) ∧
      ∀ tc', .fragment tc' ∈ front → fragmentId tc' ≠ some id ∧
        (fragmentIndex tc' = fragmentIndex tc → Silent tc')
  | none => ((fragmentArguments tc).getD "" ≠ "" → Current front (fragmentIndex tc)) ∧
      ((fragmentName tc).getD "" ≠ "" →
        ∀ tc', .fragment tc' ∈ front → fragmentIndex tc' = fragmentIndex tc → fragmentId tc' = none)

/-! ### The calls that are read -/

/-- A call of which nothing is known but its index, and maybe a name. -/
structure ChatCall.Idle (front : List Piece) (call : ChatCall) : Prop where
  id : call.id = ""
  arguments : call.arguments = ""
  name : call.name ≠ "" → ∃ tc, .fragment tc ∈ front ∧ fragmentIndex tc = call.index ∧
    (fragmentName tc).getD "" ≠ ""
  unstarted : ∀ tc, .fragment tc ∈ front → fragmentIndex tc = call.index → fragmentId tc = none

/-- A call that started. -/
structure ChatCall.Started (front : List Piece) (call : ChatCall) : Prop where
  id : call.id ≠ ""
  name : call.name ≠ ""
  start : ∃ tc, .fragment tc ∈ front ∧ fragmentIndex tc = call.index ∧ (fragmentId tc).isSome

/-- The calls that are read: one for each index, in the order in which they started. -/
structure Slots (front : List Piece) (calls : List ChatCall) : Prop where
  nodup : (calls.map ChatCall.index).Nodup
  slot : ∀ call ∈ calls, call.Idle front ∨ call.Started front
  has : ∀ tc, .fragment tc ∈ front → ∃ call ∈ calls, call.index = fragmentIndex tc
  seen : ∀ call ∈ calls, ∃ tc, .fragment tc ∈ front ∧ fragmentIndex tc = call.index
  ordered : calls.Pairwise fun x y => x.id = "" → y.id ≠ "" → Overtaken front x.index

section Slots

variable {front : List Piece} {calls : List ChatCall} {call : ChatCall} {tc : Json} {index : ℕ}

theorem Overtaken.mono (h : Overtaken front index) (piece : Piece) : Overtaken (front ++ [piece]) index := by
  obtain ⟨before, tc, since, tc', rfl, hindex, hmem, hid⟩ := h
  refine ⟨before, tc, since ++ [piece], tc', ?_, hindex, List.mem_append_left _ hmem, hid⟩
  rw [List.append_assoc, List.cons_append]

theorem overtaken_of_mem {tc' : Json} (hmem : .fragment tc' ∈ front) (hid : (fragmentId tc).isSome) :
    Overtaken (front ++ [.fragment tc]) (fragmentIndex tc') := by
  obtain ⟨before, since, rfl⟩ := List.append_of_mem hmem
  refine ⟨before, tc', since ++ [.fragment tc], tc, ?_, rfl, List.mem_append_right _ List.mem_cons_self, hid⟩
  rw [List.append_assoc, List.cons_append]

theorem ChatCall.Started.mono (h : call.Started front) (piece : Piece) :
    call.Started (front ++ [piece]) := by
  obtain ⟨tc, hmem, hindex, hid⟩ := h.start
  exact ⟨h.id, h.name, tc, List.mem_append_left _ hmem, hindex, hid⟩

theorem ChatCall.Idle.mono (h : call.Idle front) {piece : Piece}
    (hpiece : ∀ tc, piece = .fragment tc → fragmentIndex tc = call.index → fragmentId tc = none) :
    call.Idle (front ++ [piece]) := by
  refine ⟨h.id, h.arguments, fun hname => ?_, fun tc hmem hindex => ?_⟩
  · obtain ⟨tc, hmem, hindex, hne⟩ := h.name hname
    exact ⟨tc, List.mem_append_left _ hmem, hindex, hne⟩
  · rcases List.mem_append.mp hmem with hmem | hmem
    · exact h.unstarted tc hmem hindex
    · exact hpiece tc (List.mem_singleton.mp hmem).symm hindex

theorem ChatCall.Idle.survives (h : call.Idle front) : call.survives = false := by
  rw [ChatCall.survives, h.id]
  rfl

theorem ChatCall.Started.survives (h : call.Started front) : call.survives = true := by
  rw [ChatCall.survives, decide_eq_true h.id, decide_eq_true h.name]
  rfl

/-- Words change nothing. -/
theorem Slots.words (h : Slots front calls) : Slots (front ++ [.words]) calls := by
  have hmem : ∀ tc, .fragment tc ∈ front ++ [.words] → .fragment tc ∈ front := by
    intro tc hmem
    rcases List.mem_append.mp hmem with hmem | hmem
    · exact hmem
    · exact absurd (List.mem_singleton.mp hmem) (by simp)
  refine ⟨h.nodup, fun call hcall => ?_, fun tc hmem' => h.has tc (hmem tc hmem'), fun call hcall => ?_,
    h.ordered.imp fun h hx hy => (h hx hy).mono _⟩
  · exact (h.slot call hcall).imp (fun hidle => hidle.mono fun tc htc => absurd htc (by simp))
      fun hstarted => hstarted.mono _
  · obtain ⟨tc, htc, hindex⟩ := h.seen call hcall
    exact ⟨tc, List.mem_append_left _ htc, hindex⟩

theorem updateCall_cases (index : ℕ) (f : ChatCall → ChatCall) (calls : List ChatCall) :
    (∃ before call behind, calls = before ++ call :: behind ∧ call.index = index ∧
      updateCall index f calls = before ++ f call :: behind) ∨
    (∀ call ∈ calls, call.index ≠ index) ∧ updateCall index f calls = calls ++ [f { index }] := by
  induction calls with
  | nil => exact Or.inr ⟨fun call hcall => absurd hcall List.not_mem_nil, rfl⟩
  | cons call calls ih =>
    by_cases hindex : call.index = index
    · exact Or.inl ⟨[], call, calls, rfl, hindex, if_pos hindex⟩
    · have hskip : updateCall index f (call :: calls) = call :: updateCall index f calls := if_neg hindex
      rcases ih with ⟨before, call', behind, rfl, hindex', heq⟩ | ⟨hall, heq⟩
      · exact Or.inl ⟨call :: before, call', behind, rfl, hindex', hskip.trans (congrArg (call :: ·) heq)⟩
      · refine Or.inr ⟨fun call' hcall' => ?_, hskip.trans (congrArg (call :: ·) heq)⟩
        rcases List.mem_cons.mp hcall' with rfl | hcall'
        · exact hindex
        · exact hall call' hcall'

/-- A fragment changes one call, which may be a new one. -/
theorem Slots.split (h : Slots front calls) (tc : Json) : ∃ before call behind,
    addFragment calls tc = before ++ call.add tc :: behind ∧ call.index = fragmentIndex tc ∧
      (before ++ call :: behind).filter ChatCall.survives = calls.filter ChatCall.survives ∧
      ((before ++ call :: behind).map ChatCall.index).Nodup ∧ (call.Idle front ∨ call.Started front) ∧
      (∀ other ∈ before ++ behind, other ∈ calls) ∧ (∀ other ∈ calls, other ∈ before ++ call :: behind) ∧
      (before ++ call :: behind).Pairwise fun x y => x.id = "" → y.id ≠ "" → Overtaken front x.index := by
  rcases updateCall_cases (fragmentIndex tc) (ChatCall.add tc) calls with
    ⟨before, call, behind, rfl, hindex, heq⟩ | ⟨hall, heq⟩
  · refine ⟨before, call, behind, heq, hindex, rfl, h.nodup,
      h.slot call (List.mem_append_right _ List.mem_cons_self), fun other hother => ?_, fun _ => id, h.ordered⟩
    rcases List.mem_append.mp hother with hother | hother
    · exact List.mem_append_left _ hother
    · exact List.mem_append_right _ (List.mem_cons_of_mem _ hother)
  · refine ⟨calls, { index := fragmentIndex tc }, [], heq, rfl, ?_, ?_, Or.inl ?_, ?_, ?_, ?_⟩
    · rw [List.filter_append]
      exact List.append_nil _
    · rw [List.map_append]
      refine List.nodup_append.mpr ⟨h.nodup, List.pairwise_singleton _ _, fun i hi j hj heq' => ?_⟩
      obtain ⟨call, hcall, rfl⟩ := List.mem_map.mp hi
      rw [List.mem_singleton.mp hj] at heq'
      exact hall call hcall heq'
    · refine ⟨rfl, rfl, fun hname => absurd rfl hname, fun tc' hmem hindex => ?_⟩
      obtain ⟨call, hcall, heq'⟩ := h.has tc' hmem
      exact absurd (heq'.trans hindex) (hall call hcall)
    · rw [List.append_nil]
      exact fun _ => id
    · exact fun other hother => List.mem_append_left _ hother
    · refine List.pairwise_append.mpr ⟨h.ordered, List.pairwise_singleton _ _, fun x _ y hy _ hid => ?_⟩
      rw [List.mem_singleton.mp hy] at hid
      exact absurd rfl hid

/-- The calls behind a fragment, from what it makes of its call. -/
theorem Slots.fragment (h : Slots front calls) {before behind : List ChatCall} {call' : ChatCall}
    (hindex : call.index = fragmentIndex tc) (hindex' : call'.index = fragmentIndex tc)
    (hnodup : ((before ++ call :: behind).map ChatCall.index).Nodup)
    (hmem : ∀ other ∈ before ++ behind, other ∈ calls)
    (hmem' : ∀ other ∈ calls, other ∈ before ++ call :: behind)
    (hordered : (before ++ call :: behind).Pairwise fun x y => x.id = "" → y.id ≠ "" →
      Overtaken front x.index)
    (hslot : call'.Idle (front ++ [.fragment tc]) ∨ call'.Started (front ++ [.fragment tc]))
    (hkeep : call'.id = "" → call.id = "") (hstart : call'.id ≠ "" → call.id = "" → (fragmentId tc).isSome) :
    Slots (front ++ [.fragment tc]) (before ++ call' :: behind) := by
  have hmap : (before ++ call' :: behind).map ChatCall.index =
      (before ++ call :: behind).map ChatCall.index := by
    rw [List.map_append, List.map_append, List.map_cons, List.map_cons, hindex, hindex']
  have hother : ∀ other ∈ before ++ behind, other.index ≠ fragmentIndex tc := by
    intro other hother heq
    rw [List.map_append, List.map_cons, List.nodup_append, List.nodup_cons] at hnodup
    obtain ⟨-, ⟨hbehind, -⟩, hbefore⟩ := hnodup
    rcases List.mem_append.mp hother with hother | hother
    · exact hbefore _ (List.mem_map_of_mem hother) _ List.mem_cons_self (heq.trans hindex.symm)
    · refine hbehind ?_
      rw [hindex, ← heq]
      exact List.mem_map_of_mem hother
  have hcases : ∀ x ∈ before ++ call' :: behind, x = call' ∨ x ∈ before ++ behind := by
    intro x hx
    rcases List.mem_append.mp hx with hx | hx
    · exact Or.inr (List.mem_append_left _ hx)
    · exact (List.mem_cons.mp hx).imp_right fun hx => List.mem_append_right _ hx
  obtain ⟨hbefore, hbehind, hcross⟩ := List.pairwise_append.mp hordered
  obtain ⟨hcall, hbehind⟩ := List.pairwise_cons.mp hbehind
  refine ⟨hmap ▸ hnodup, fun x hx => ?_, fun tc' htc' => ?_, fun x hx => ?_, ?_⟩
  · rcases hcases x hx with rfl | hx
    · exact hslot
    · refine (h.slot x (hmem x hx)).imp (fun hidle => hidle.mono fun tc' htc' hindex => ?_) fun hs => hs.mono _
      obtain rfl := Piece.fragment.inj htc'
      exact absurd hindex.symm (hother x hx)
  · have hnew : ∃ x ∈ before ++ call' :: behind, x.index = fragmentIndex tc :=
      ⟨call', List.mem_append_right _ List.mem_cons_self, hindex'⟩
    rcases List.mem_append.mp htc' with htc' | htc'
    · obtain ⟨x, hx, hxindex⟩ := h.has tc' htc'
      rcases List.mem_append.mp (hmem' x hx) with hx | hx
      · exact ⟨x, List.mem_append_left _ hx, hxindex⟩
      · rcases List.mem_cons.mp hx with rfl | hx
        · rw [← hxindex, hindex]
          exact hnew
        · exact ⟨x, List.mem_append_right _ (List.mem_cons_of_mem _ hx), hxindex⟩
    · rw [Piece.fragment.inj (List.mem_singleton.mp htc')]
      exact hnew
  · rcases hcases x hx with rfl | hx
    · exact ⟨tc, List.mem_append_right _ List.mem_cons_self, hindex'.symm⟩
    · obtain ⟨tc', htc', hxindex⟩ := h.seen x (hmem x hx)
      exact ⟨tc', List.mem_append_left _ htc', hxindex⟩
  · refine List.pairwise_append.mpr ⟨hbefore.imp fun h hx hy => (h hx hy).mono _,
      List.pairwise_cons.mpr ⟨fun y hy hid hyid => ?_, hbehind.imp fun h hx hy => (h hx hy).mono _⟩,
      fun x hx y hy hxid hyid => ?_⟩
    · rw [hindex', ← hindex]
      exact (hcall y hy (hkeep hid) hyid).mono _
    · rcases List.mem_cons.mp hy with rfl | hy
      · by_cases hid : call.id = ""
        · obtain ⟨tc', htc', hxindex⟩ := h.seen x (hmem x (List.mem_append_left _ hx))
          rw [← hxindex]
          exact overtaken_of_mem htc' (hstart hyid hid)
        · exact (hcross x hx call List.mem_cons_self hxid hid).mono _
      · exact (hcross x hx y (List.mem_cons_of_mem _ hy) hxid hyid).mono _

end Slots

end Headroom.OpenAi
