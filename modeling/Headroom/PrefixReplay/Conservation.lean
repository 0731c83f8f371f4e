import Headroom.PrefixReplay.Session

/-!
# Conservation of client messages

The stored originals, the stored forwarded messages and the output of a turn live in three index
spaces. A role says what a forwarded message is to the turn that forwards it: the carrier of one
of the client's messages, scaffolding the client has withdrawn, or a tail message that the
pipeline appended. A run keeps the roles of every slice it records beside the store.

A turn conserves the client's messages when the carriers in its output are those of its messages,
in order and each once. A slice that is replayed whole conserves them whatever was withdrawn. A
slice that is cut does when nothing was withdrawn ahead of the cut, and a recorded slice does when
the messages dropped from the tail of the forwarded ones are the carriers of the originals dropped.
-/

open Foundation

namespace Headroom.PrefixReplay

/-! ### Roles -/

/-- What a forwarded message is to the turn that forwards it. -/
inductive Role where
  | carries (i : ℕ)
  | withdrawn
  | tail
  deriving DecidableEq

/-- The client message that a forwarded message carries. -/
def Role.carried : Role → Option ℕ
  | .carries i => some i
  | _ => none

/-- A recorded slice: the originals, what was forwarded for them, and the role of each forwarded
message. -/
structure Recorded where
  originals : List Json
  forwarded : List Json
  roles : List Role
  deriving DecidableEq

/-- The forwarded messages carry the originals, in order and each once. -/
structure Recorded.WellFormed (r : Recorded) : Prop where
  length_roles : r.roles.length = r.forwarded.length
  carriers : r.roles.filterMap Role.carried = List.range r.originals.length

/-- The roles recorded with a slice. -/
def rolesOf (ledger : List Recorded) (originals forwarded : List Json) : List Role :=
  ((ledger.find? fun r => r.originals = originals ∧ r.forwarded = forwarded).map
    Recorded.roles).getD []

/-- The role that a replayed message has on this turn, from the message of the turn that each
stored original takes. -/
def advance (places : List (Option ℕ)) : Role → Role
  | .carries j =>
    match places[j]? with
    | some (some i) => .carries i
    | _ => .withdrawn
  | role => role

/-- The roles of a turn's own messages: one for each original, and appended tail messages. -/
def ownRoles (originals optimized : ℕ) : List Role :=
  (List.range optimized).map fun i => if i < originals then .carries i else .tail

/-- The roles of an output spliced at `span` from a slice with these roles. -/
def outRoles (stored current optimized : List Json) (roles : List Role) (span : ℕ × ℕ) :
    List Role :=
  (roles.take span.1).map (advance (alignedPlaces stored current)) ++
    (ownRoles current.length optimized.length).drop span.2

/-! ### Conservation -/

/-- The stored original `j` aligns with the current message `i`: the two compare equal, or one is
scaffolding in the place of the other. -/
def AlignsWith (stored current : List Json) (j i : ℕ) : Prop :=
  ∃ a b, stored[j]? = some a ∧ current[i]? = some b ∧
    (sameCanonical b a = true ∨
      isClientScaffoldingMessage j a = true ∧ isClientScaffoldingMessage i b = true)

/-- The stored original `j` is scaffolding that the client has withdrawn. -/
def Withdrawn (stored current : List Json) (j : ℕ) : Prop :=
  (alignedPlaces stored current)[j]? = some none ∧
    ∃ a, stored[j]? = some a ∧ isClientScaffoldingMessage j a = true

/-- Why a message of the output has its role: it is the turn's own form of the message it carries,
or was recorded for an original that aligns with it; it was recorded for scaffolding since
withdrawn; or the pipeline appended it. -/
def Explained (ledger : List Recorded) (current optimized : List Json) (m : Json) : Role → Prop
  | .carries i =>
    optimized[i]? = some m ∨
    ∃ r ∈ ledger, ∃ q j : ℕ, r.forwarded[q]? = some m ∧ r.roles[q]? = some (Role.carries j) ∧
      AlignsWith r.originals current j i
  | .withdrawn =>
    ∃ r ∈ ledger, ∃ q : ℕ, r.forwarded[q]? = some m ∧ (r.roles[q]? = some Role.withdrawn ∨
      ∃ j : ℕ, r.roles[q]? = some (Role.carries j) ∧ Withdrawn r.originals current j)
  | .tail =>
    (∃ i, current.length ≤ i ∧ optimized[i]? = some m) ∨
    ∃ r ∈ ledger, ∃ q : ℕ, r.forwarded[q]? = some m ∧ r.roles[q]? = some Role.tail

/-- The output carries each current message once and in order, and every message of it has an
explained role. -/
def Conserved (ledger : List Recorded) (current optimized out : List Json) : Prop :=
  ∃ roles : List Role, roles.length = out.length ∧
    roles.filterMap Role.carried = List.range current.length ∧
    ∀ (p : ℕ) (m : Json) (role : Role), out[p]? = some m → roles[p]? = some role →
      Explained ledger current optimized m role

/-- Ahead of a cut at `k`, the stored messages carry the stored originals one to one, and these
stand at their own index on the current turn. -/
def CutAligned (roles : List Role) (stored current : List Json) (k : ℕ) : Prop :=
  roles.take k = (List.range k).map .carries ∧
    (alignedPlaces stored current).take k = (List.range k).map some

/-- The messages dropped from the tail of an output are all carriers. -/
def TailAligned (originals : List Json) (roles : List Role) : Prop :=
  ∀ role ∈ roles.drop (roles.length - (originals.length - replayableStoredPrefixLen originals)),
    role.carried.isSome

instance (roles : List Role) (stored current : List Json) (k : ℕ) :
    Decidable (CutAligned roles stored current k) :=
  inferInstanceAs (Decidable (_ ∧ _))

instance (originals : List Json) (roles : List Role) : Decidable (TailAligned originals roles) :=
  inferInstanceAs (Decidable (∀ role ∈ _, _))

/-! ### The roles of a turn's own messages -/

theorem getElem?_ownRoles {originals optimized p : ℕ} (h : p < optimized) :
    (ownRoles originals optimized)[p]? =
      some (if p < originals then .carries p else .tail) := by
  simp [ownRoles, h]

@[simp] theorem length_ownRoles (originals optimized : ℕ) :
    (ownRoles originals optimized).length = optimized := by
  simp [ownRoles]

/-- From an index on, a turn's own messages carry its originals from that index on. -/
theorem filterMap_drop_ownRoles {originals optimized b : ℕ} (h : originals ≤ optimized) :
    ((ownRoles originals optimized).drop b).filterMap Role.carried =
      List.range' b (originals - b) := by
  obtain ⟨d, rfl⟩ := Nat.exists_eq_add_of_le h
  have hrange : List.range (originals + d) = List.range originals ++
      (List.range d).map (originals + ·) := List.range_add
  have hown : ownRoles originals (originals + d) =
      (List.range originals).map .carries ++ List.replicate d .tail := by
    rw [ownRoles, hrange, List.map_append, List.map_map]
    congr 1
    · refine List.map_congr_left fun i hi => ?_
      rw [if_pos (List.mem_range.mp hi)]
    · refine List.eq_replicate_iff.mpr ⟨by simp, ?_⟩
      simp only [List.mem_map, Function.comp_apply]
      rintro role ⟨i, -, rfl⟩
      rw [if_neg (by omega)]
  have htail : ∀ n, (List.replicate n Role.tail).filterMap Role.carried = [] := fun n => by
    rw [List.filterMap_replicate_of_none rfl]
  have hcarries : ∀ l : List ℕ, (l.map Role.carries).filterMap Role.carried = l := fun l => by
    rw [List.filterMap_map]
    exact List.filterMap_some
  rw [hown, List.drop_append, List.filterMap_append, List.drop_replicate, htail, List.append_nil,
    ← List.map_drop, hcarries, List.range_eq_range', List.drop_range', Nat.zero_add,
    Nat.mul_one]

/-! ### A turn -/

theorem filterMap_map_advance (places : List (Option ℕ)) (roles : List Role) :
    (roles.map (advance places)).filterMap Role.carried =
      (roles.filterMap Role.carried).filterMap fun j => (places[j]?).join := by
  induction roles with
  | nil => rfl
  | cons role roles ih =>
    cases role with
    | carries j =>
      simp only [List.map_cons, List.filterMap_cons, Role.carried, advance]
      rcases places[j]? with _ | _ | i
      · simpa [Role.carried] using ih
      · simpa [Role.carried] using ih
      · simpa [Role.carried] using ih
    | withdrawn => exact ih
    | tail => exact ih

theorem filterMap_range_join (places : List (Option ℕ)) :
    ((List.range places.length).filterMap fun j => (places[j]?).join) = places.reduceOption := by
  have h : (List.range places.length).map (fun j => (places[j]?).join) = places := by
    refine List.ext_getElem (by simp) fun j h1 h2 => ?_
    simp [List.getElem?_eq_getElem h2]
  conv_rhs => rw [← h]
  rw [List.reduceOption, List.filterMap_map]
  rfl

section

variable {stored forwarded current optimized : List Json} {roles : List Role} {span : ℕ × ℕ}
  {chain : Bool} {ledger : List Recorded}

variable {j i : ℕ}

theorem alignsWith_of_places
    (h : (alignedPlaces stored current)[j]? = some (some i)) : AlignsWith stored current j i := by
  have hj : j < stored.length := by
    have := (List.getElem?_eq_some_iff.mp h).1
    rwa [alignedPlaces, Alignment.length_places] at this
  have ha : stored[j]? = some stored[j] := List.getElem?_eq_getElem hj
  obtain ⟨b, hb, hsame⟩ := Alignment.places_eq_some h ha
  rw [Nat.zero_add] at hsame
  exact ⟨_, b, ha, hb, hsame⟩

theorem AlignsWith.lt (h : AlignsWith stored current j i) : i < current.length := by
  obtain ⟨_, _, _, hb, _⟩ := h
  exact (List.getElem?_eq_some_iff.mp hb).1

variable {k : ℕ}

private theorem CutAligned.places_eq (h : CutAligned roles stored current k)
    (hj : j < k) : (alignedPlaces stored current)[j]? = some (some j) := by
  have := congrArg (fun l : List (Option ℕ) => l[j]?) h.2
  simpa [List.getElem?_take_of_lt hj, hj] using this

private theorem CutAligned.le_length (h : CutAligned roles stored current k) :
    k ≤ current.length := by
  cases k with
  | zero => exact Nat.zero_le _
  | succ k => exact (alignsWith_of_places (h.places_eq (Nat.lt_succ_self k))).lt

private theorem range_append_range' {a n : ℕ} (h : a ≤ n) :
    List.range a ++ List.range' a (n - a) = List.range n := by
  have := List.range'_append_1 (s := 0) (m := a) (n := n - a)
  rwa [Nat.zero_add, Nat.add_sub_cancel' h, ← List.range_eq_range', ← List.range_eq_range'] at this

theorem carriers_of_cut (hlen : current.length ≤ optimized.length)
    (hcut : CutAligned roles stored current k) :
    (outRoles stored current optimized roles (k, k)).filterMap Role.carried =
      List.range current.length := by
  have hhead : ((roles.take k).filterMap Role.carried) = List.range k := by
    rw [hcut.1, List.filterMap_map]
    exact List.filterMap_some
  have htaken : (List.range k).filterMap (fun j => ((alignedPlaces stored current)[j]?).join) =
      List.range k := by
    refine (List.filterMap_congr fun j hj => ?_).trans List.filterMap_some
    rw [hcut.places_eq (List.mem_range.mp hj)]
    rfl
  rw [outRoles, List.filterMap_append, filterMap_map_advance, hhead, htaken,
    filterMap_drop_ownRoles hlen]
  exact range_append_range' hcut.le_length

theorem carriers_of_whole {consumed : ℕ} (hlen : current.length ≤ optimized.length)
    (hwf : Recorded.WellFormed ⟨stored, forwarded, roles⟩)
    (halign : alignOverWithdrawnScaffolding stored current = some consumed) :
    (outRoles stored current optimized roles (forwarded.length, consumed)).filterMap Role.carried =
      List.range current.length := by
  have hplaces : (alignedPlaces stored current).length = stored.length :=
    Alignment.length_places
  have htaken : (List.range stored.length).filterMap
      (fun j => ((alignedPlaces stored current)[j]?).join) = List.range' 0 consumed := by
    rw [← hplaces, filterMap_range_join]
    exact Alignment.reduceOption_places halign
  rw [outRoles, List.filterMap_append, filterMap_map_advance,
    List.take_of_length_le hwf.length_roles.le, hwf.carriers, htaken,
    filterMap_drop_ownRoles hlen, ← List.range_eq_range']
  exact range_append_range' (Alignment.align_le_length (Nat.zero_le _) halign)

theorem length_outRoles (hroles : roles.length = forwarded.length) :
    (outRoles stored current optimized roles span).length =
      (forwarded.take span.1 ++ optimized.drop span.2).length := by
  simp [outRoles, hroles]

variable {m : Json}

theorem explained_own (hm : optimized[i]? = some m) :
    Explained ledger current optimized m (if i < current.length then .carries i else .tail) := by
  split_ifs with h
  · exact Or.inl hm
  · exact Or.inl ⟨i, Nat.le_of_not_lt h, hm⟩

theorem explained_replayed {q : ℕ} {role : Role}
    (hmem : ⟨stored, forwarded, roles⟩ ∈ ledger)
    (hm : forwarded[q]? = some m) (hrole : roles[q]? = some role)
    (hwithdrawn : ∀ j, role = .carries j →
      (∃ i, (alignedPlaces stored current)[j]? = some (some i)) ∨ Withdrawn stored current j) :
    Explained ledger current optimized m (advance (alignedPlaces stored current) role) := by
  cases role with
  | carries j =>
    rcases hwithdrawn j rfl with ⟨i, hi⟩ | hw
    · simp only [advance, hi]
      exact Or.inr ⟨_, hmem, q, j, hm, hrole, alignsWith_of_places hi⟩
    · simp only [advance, hw.1]
      exact ⟨_, hmem, q, hm, Or.inr ⟨j, hrole, hw⟩⟩
  | withdrawn => exact ⟨_, hmem, q, hm, Or.inl hrole⟩
  | tail => exact Or.inr ⟨_, hmem, q, hm, hrole⟩

/-- Every message of an output has an explained role, when the replayed ones have. -/
theorem explained_outRoles (hroles : roles.length = forwarded.length)
    (hmem : ⟨stored, forwarded, roles⟩ ∈ ledger)
    (hreplayed : ∀ j, Role.carries j ∈ roles.take span.1 →
      (∃ i, (alignedPlaces stored current)[j]? = some (some i)) ∨ Withdrawn stored current j)
    {p : ℕ} {role : Role}
    (hm : (forwarded.take span.1 ++ optimized.drop span.2)[p]? = some m)
    (hrole : (outRoles stored current optimized roles span)[p]? = some role) :
    Explained ledger current optimized m role := by
  have hlen : ((roles.take span.1).map (advance (alignedPlaces stored current))).length =
      (forwarded.take span.1).length := by
    simp [hroles]
  rw [outRoles] at hrole
  by_cases hp : p < (forwarded.take span.1).length
  · rw [List.getElem?_append_left hp] at hm
    rw [List.getElem?_append_left (hlen ▸ hp), List.getElem?_map] at hrole
    obtain ⟨role', hrole', rfl⟩ := Option.map_eq_some_iff.mp hrole
    have hlt : p < span.1 := by
      rw [List.length_take] at hp
      omega
    refine explained_replayed hmem (by rwa [List.getElem?_take_of_lt hlt] at hm)
      (by rwa [List.getElem?_take_of_lt hlt] at hrole') ?_
    rintro j rfl
    exact hreplayed j (List.mem_of_getElem? hrole')
  · rw [List.getElem?_append_right (Nat.le_of_not_lt hp), List.getElem?_drop] at hm
    rw [List.getElem?_append_right (hlen ▸ Nat.le_of_not_lt hp), List.getElem?_drop, hlen] at hrole
    have hlt := (List.getElem?_eq_some_iff.mp hm).1
    rw [getElem?_ownRoles hlt, Option.some.injEq] at hrole
    exact hrole ▸ explained_own hm

theorem conserved_outRoles (hlen : current.length ≤ optimized.length)
    (hmem : ⟨stored, forwarded, roles⟩ ∈ ledger)
    (hwf : Recorded.WellFormed ⟨stored, forwarded, roles⟩)
    (hshape : SpanShape optimized current stored forwarded chain span)
    (hcut : span.1 = span.2 → CutAligned roles stored current span.1) :
    (outRoles stored current optimized roles span).filterMap Role.carried =
        List.range current.length ∧
      ∀ (p : ℕ) (m : Json) (role : Role),
        (forwarded.take span.1 ++ optimized.drop span.2)[p]? = some m →
        (outRoles stored current optimized roles span)[p]? = some role →
        Explained ledger current optimized m role := by
  by_cases heq : span.1 = span.2
  · obtain ⟨k, k'⟩ := span
    obtain rfl : k = k' := heq
    have halign := hcut rfl
    refine ⟨carriers_of_cut hlen halign, fun p m role => explained_outRoles hwf.length_roles hmem
      fun j hj => Or.inl ⟨j, ?_⟩⟩
    rw [halign.1] at hj
    obtain ⟨i, hi, hij⟩ := List.mem_map.mp hj
    obtain rfl : i = j := Role.carries.inj hij
    exact halign.places_eq (List.mem_range.mp hi)
  · cases hshape with
    | fresh => exact absurd rfl heq
    | diverged => exact absurd rfl heq
    | floor => exact absurd rfl heq
    | whole halign hopt hle =>
      refine ⟨carriers_of_whole hlen hwf halign, fun p m role =>
        explained_outRoles hwf.length_roles hmem fun j hj => ?_⟩
      -- A carried original is one of the stored ones, so it has its place in the walk.
      have hj : j < stored.length := by
        have hcarried : j ∈ roles.filterMap Role.carried :=
          List.mem_filterMap.mpr ⟨_, List.mem_of_mem_take hj, rfl⟩
        rw [hwf.carriers] at hcarried
        exact List.mem_range.mp hcarried
      have hplaces : j < (alignedPlaces stored current).length := by
        rwa [alignedPlaces, Alignment.length_places]
      cases hplace : (alignedPlaces stored current)[j] with
      | some i => exact Or.inl ⟨i, by rw [List.getElem?_eq_getElem hplaces, hplace]⟩
      | none =>
        have hnone : (alignedPlaces stored current)[j]? = some none := by
          rw [List.getElem?_eq_getElem hplaces, hplace]
        have ha : stored[j]? = some stored[j] := List.getElem?_eq_getElem hj
        have hscaffolding := Alignment.places_eq_none halign hnone ha
        rw [Nat.zero_add] at hscaffolding
        exact Or.inr ⟨hnone, _, ha, hscaffolding⟩

theorem conserved_ownRoles (hlen : current.length ≤ optimized.length) :
    (ownRoles current.length optimized.length).filterMap Role.carried =
        List.range current.length ∧
      ∀ (p : ℕ) (m : Json) (role : Role), optimized[p]? = some m →
        (ownRoles current.length optimized.length)[p]? = some role →
        Explained ledger current optimized m role := by
  refine ⟨?_, fun p m role hm hrole => ?_⟩
  · have := filterMap_drop_ownRoles (b := 0) hlen
    rwa [List.drop_zero, Nat.sub_zero, ← List.range_eq_range'] at this
  · rw [getElem?_ownRoles (List.getElem?_eq_some_iff.mp hm).1, Option.some.injEq] at hrole
    exact hrole ▸ explained_own hm

end

/-! ### What is recorded of a turn -/

/-- The slice recorded of a completed turn. -/
def recordOf (originals forwarded : List Json) (roles : List Role) : Recorded where
  originals := storedOriginals originals
  forwarded := storedForwarded originals forwarded
  roles := roles.take (roles.length - (originals.length - replayableStoredPrefixLen originals))

theorem filterMap_carried_eq_length {roles : List Role}
    (h : ∀ role ∈ roles, role.carried.isSome) :
    (roles.filterMap Role.carried).length = roles.length := by
  induction roles with
  | nil => rfl
  | cons role roles ih =>
    obtain ⟨i, hi⟩ := Option.isSome_iff_exists.mp (h role List.mem_cons_self)
    rw [List.filterMap_cons_some hi, List.length_cons, List.length_cons,
      ih fun r hr => h r (List.mem_cons_of_mem _ hr)]

theorem wellFormed_recordOf {originals forwarded : List Json} {roles : List Role}
    (hwf : Recorded.WellFormed ⟨originals, forwarded, roles⟩)
    (htail : TailAligned originals roles) :
    (recordOf originals forwarded roles).WellFormed := by
  obtain ⟨hlen, hcarriers⟩ := hwf
  dsimp only at hlen hcarriers
  set dropped := originals.length - replayableStoredPrefixLen originals with hdropped
  have hle := replayableStoredPrefixLen_le originals
  refine ⟨?_, ?_⟩
  · simp only [recordOf, storedForwarded, List.length_take, hlen]
  · have hsplit : (roles.take (roles.length - dropped)).filterMap Role.carried ++
        (roles.drop (roles.length - dropped)).filterMap Role.carried =
        List.range originals.length := by
      rw [← List.filterMap_append, List.take_append_drop, hcarriers]
    have hbound : originals.length ≤ roles.length := by
      have := List.length_filterMap_le Role.carried roles
      rwa [hcarriers, List.length_range] at this
    have hdroplen : ((roles.drop (roles.length - dropped)).filterMap Role.carried).length =
        dropped := by
      rw [filterMap_carried_eq_length htail, List.length_drop]
      omega
    have hkept : ((roles.take (roles.length - dropped)).filterMap Role.carried).length =
        replayableStoredPrefixLen originals := by
      have := congrArg List.length hsplit
      rw [List.length_append, hdroplen, List.length_range] at this
      omega
    have htake := congrArg (List.take (replayableStoredPrefixLen originals)) hsplit
    rw [← hkept, List.take_left, hkept, List.take_range, Nat.min_eq_left hle] at htake
    simpa only [recordOf, length_storedOriginals] using htake

/-! ### Runs on one session -/

/-- What a turn brings: the client's messages, the pipeline's output, the system it goes out under
and the floor confirmed for it. -/
structure TurnInput where
  clock : Clock
  requestId : String
  originals : List Json
  optimized : List Json
  currentSystemHash : Option String
  forwardedSystemHash : String
  confirmedFrozenCount : Option ℕ
  anthropicMessages : Bool

/-- A step of a run: a turn up to its request, or the completion of a request. -/
inductive RunStep where
  | turn (t : TurnInput)
  | complete (clock : Clock) (requestId : String) (cacheReadTokens cacheWriteTokens : ℕ)

/-- A run on one session: the store, the roles of the output parked under each request, and the
slices recorded so far with their roles. -/
structure ReplayRun where
  store : SessionReplayStore
  roles : String → List Role
  ledger : List Recorded

namespace ReplayRun

section

variable (sha256 : String → String) (key : String) (r : ReplayRun)

/-- What the store answers a turn. -/
def answer (t : TurnInput) : Except PrefixMiss (List Json × List Json × ℕ) :=
  (r.store.previousTurnFor sha256 t.clock key t.originals t.currentSystemHash).1

/-- The messages that a turn forwards. -/
def output (t : TurnInput) : List Json :=
  (overlayTurn (r.answer sha256 key t) t.optimized t.originals t.confirmedFrozenCount
    t.anthropicMessages).1

/-- The span that a turn takes of a stored slice. -/
def span (t : TurnInput) (prevOrig prevFwd : List Json) (chainId : ℕ) : ℕ × ℕ :=
  overlaySpan t.optimized t.originals prevOrig prevFwd (chainId ≠ 0) t.confirmedFrozenCount
    t.anthropicMessages

/-- The roles of the messages that a turn forwards. -/
def outputRoles (t : TurnInput) : List Role :=
  match r.answer sha256 key t with
  | .ok (o, f, id) =>
    outRoles o t.originals t.optimized (rolesOf r.ledger o f) (span t o f id)
  | .error _ => ownRoles t.originals.length t.optimized.length

/-- The run after a step. -/
def step : RunStep → ReplayRun
  | .turn t =>
    { r with
      store :=
        (r.store.previousTurnFor sha256 t.clock key t.originals t.currentSystemHash).2.beginRequest
          t.requestId key t.originals (r.output sha256 key t) t.forwardedSystemHash
      roles := Function.update r.roles t.requestId (r.outputRoles sha256 key t) }
  | .complete clock requestId read write =>
    { r with
      store := r.store.complete sha256 clock requestId read write
      ledger :=
        match r.store.pending.peek requestId with
        | none => r.ledger
        | some parked =>
          recordOf parked.originalMessages parked.forwardedMessages (r.roles requestId) ::
            r.ledger }

/-- The pipeline gives a turn at least as many messages as the client sent. -/
def Admissible : RunStep → Prop
  | .turn t => t.originals.length ≤ t.optimized.length
  | .complete .. => True

/-- A turn that cuts the stored slice finds its head aligned; a completed turn finds its tail
aligned. -/
def Meets : RunStep → Prop
  | .turn t =>
    match r.answer sha256 key t with
    | .ok (o, f, id) =>
      (span t o f id).1 = (span t o f id).2 →
        CutAligned (rolesOf r.ledger o f) o t.originals (span t o f id).1
    | .error _ => True
  | .complete _ requestId _ _ =>
    match r.store.pending.peek requestId with
    | none => True
    | some parked => TailAligned parked.originalMessages (r.roles requestId)

end

/-- The run before any turn. -/
def initial (capacity : ℕ) (h : 0 < capacity) (persists : Bool) : ReplayRun where
  store := emptyStore capacity h persists
  roles := fun _ => []
  ledger := []

/-- The runs whose steps are admissible and satisfy a condition. -/
inductive Reach (sha256 : String → String) (key : String) (P : ReplayRun → RunStep → Prop) :
    ReplayRun → Prop
  | initial (capacity : ℕ) (h : 0 < capacity) (persists : Bool) :
    Reach sha256 key P (initial capacity h persists)
  | step {r : ReplayRun} (a : RunStep) (hr : Reach sha256 key P r) (ha : Admissible a)
    (hP : P r a) : Reach sha256 key P (r.step sha256 key a)

/-! ### The invariant -/

/-- What a run keeps: every held slice is recorded, every recorded slice is well formed, and every
parked turn conserves. -/
structure Inv (sha256 : String → String) (key : String) (r : ReplayRun) : Prop where
  session : OneSession sha256 key r.store
  held : Holds (fun o f _ => ∃ rec ∈ r.ledger, rec.originals = o ∧ rec.forwarded = f) r.store
  recorded : ∀ rec ∈ r.ledger, rec.WellFormed
  parked : ∀ requestId parked, r.store.pending.peek requestId = some parked →
    Recorded.WellFormed
      ⟨parked.originalMessages, parked.forwardedMessages, r.roles requestId⟩

section

variable {sha256 : String → String} {key : String} {r : ReplayRun}

theorem Inv.initial (capacity : ℕ) (h : 0 < capacity) (persists : Bool) :
    Inv sha256 key (initial capacity h persists) where
  session := OneSession.emptyStore capacity h persists
  held := Holds.emptyStore capacity h persists
  recorded := fun rec hrec => absurd hrec List.not_mem_nil
  parked := fun requestId parked hpeek => by cases hpeek

theorem mem_ledger_rolesOf {ledger : List Recorded} {o f : List Json}
    (h : ∃ rec ∈ ledger, rec.originals = o ∧ rec.forwarded = f) :
    ⟨o, f, rolesOf ledger o f⟩ ∈ ledger := by
  obtain ⟨rec, hrec, ho, hf⟩ := h
  cases hfind : ledger.find? fun rec => rec.originals = o ∧ rec.forwarded = f with
  | none =>
    have := List.find?_eq_none.mp hfind rec hrec
    simp [ho, hf] at this
  | some found =>
    have hmem := List.mem_of_find?_eq_some hfind
    have hpred := List.find?_some hfind
    simp only [decide_eq_true_eq] at hpred
    obtain ⟨rfl, rfl⟩ := hpred
    simpa only [rolesOf, hfind, Option.map_some, Option.getD_some] using hmem

theorem overlaySpan_of_empty {optimized current prevOrig : List Json} {chain : Bool}
    {confirmed : Option ℕ} {anthropic : Bool} :
    overlaySpan optimized current prevOrig [] chain confirmed anthropic = (0, 0) := by
  simp [overlaySpan, wantedSpan]

/-- The output of a turn that meets the condition conserves the client's messages, by its roles. -/
theorem Inv.output (hinv : Inv sha256 key r) {t : TurnInput}
    (hlen : t.originals.length ≤ t.optimized.length) (hmeets : r.Meets sha256 key (.turn t)) :
    (r.outputRoles sha256 key t).length = (r.output sha256 key t).length ∧
      (r.outputRoles sha256 key t).filterMap Role.carried = List.range t.originals.length ∧
      ∀ (p : ℕ) (m : Json) (role : Role), (r.output sha256 key t)[p]? = some m →
        (r.outputRoles sha256 key t)[p]? = some role →
        Explained r.ledger t.originals t.optimized m role := by
  simp only [Meets] at hmeets
  cases hanswer : r.answer sha256 key t with
  | error miss =>
    simp only [outputRoles, ReplayRun.output, hanswer, overlayTurn, overlayCachedPrefixShaped]
    exact ⟨length_ownRoles _ _, conserved_ownRoles hlen⟩
  | ok found =>
    obtain ⟨o, f, id⟩ := found
    simp only [hanswer] at hmeets
    simp only [outputRoles, ReplayRun.output, hanswer, overlayTurn, overlay_eq_splice]
    by_cases hf : f = []
    · subst hf
      have hspan : span t o [] id = (0, 0) := overlaySpan_of_empty
      simp only [span] at hspan
      simp only [span, hspan, outRoles, List.take_nil, List.take_zero, List.map_nil,
        List.drop_zero, List.nil_append]
      exact ⟨length_ownRoles _ _, conserved_ownRoles hlen⟩
    · obtain ⟨_, hrec⟩ := (hinv.held.previousTurnFor hinv.session t.clock t.originals
        t.currentSystemHash).2 o f id hanswer hf
      have hmem := mem_ledger_rolesOf hrec
      have hwf := hinv.recorded _ hmem
      exact ⟨length_outRoles hwf.length_roles, conserved_outRoles hlen hmem hwf
        (overlaySpan_shape t.optimized t.originals o f (id ≠ 0) t.confirmedFrozenCount
          t.anthropicMessages) hmeets⟩

/-- A step that is admissible and meets the condition keeps the invariant. -/
theorem Inv.step (hinv : Inv sha256 key r) {a : RunStep} (ha : Admissible a)
    (hmeets : r.Meets sha256 key a) : Inv sha256 key (r.step sha256 key a) := by
  cases a with
  | turn t =>
    have hheld := hinv.held.previousTurnFor hinv.session t.clock t.originals t.currentSystemHash
    have hsession := hinv.session.previousTurnFor t.clock t.originals t.currentSystemHash
    refine ⟨hsession.beginRequest _ _ _ _, ⟨hheld.1.memory, hheld.1.disk⟩, hinv.recorded, ?_⟩
    intro requestId parked hpeek
    obtain ⟨hlen, hcarriers, -⟩ := hinv.output ha hmeets
    by_cases hid : requestId = t.requestId
    · subst hid
      simp only [ReplayRun.step, SessionReplayStore.beginRequest, Lru.peek_put_self, Option.some.injEq] at hpeek
      subst hpeek
      simp only [ReplayRun.step, Function.update_self]
      exact ⟨hlen, hcarriers⟩
    · simp only [ReplayRun.step, Function.update_of_ne hid]
      refine hinv.parked requestId parked ?_
      simp only [ReplayRun.step, SessionReplayStore.beginRequest] at hpeek
      have := Lru.peek_put_of_ne hid hpeek
      rwa [previousTurnFor_pending hinv.session] at this
  | complete clock requestId read write =>
    simp only [Meets] at hmeets
    have hsession := hinv.session.complete clock requestId read write
    cases hpeek : r.store.pending.peek requestId with
    | none =>
      have heq := complete_of_none sha256 r.store clock requestId read write hpeek
      simp only [ReplayRun.step, hpeek]
      refine ⟨hsession, ?_, hinv.recorded, fun id parked hid => hinv.parked id parked ?_⟩
      · rw [heq]
        exact ⟨hinv.held.memory, hinv.held.disk⟩
      · rw [heq] at hid
        exact Lru.peek_of_peek_pop hid
    | some parked =>
      have hwf := wellFormed_recordOf (hinv.parked requestId parked hpeek)
        (by simpa only [hpeek] using hmeets)
      obtain ⟨_, -, -, hpending, -⟩ :=
        complete_of_some sha256 r.store clock requestId read write hpeek
      simp only [ReplayRun.step, hpeek]
      refine ⟨hsession, ?_, ?_, fun id parked' hid => hinv.parked id parked' ?_⟩
      · refine (hinv.held.mono ?_).complete clock requestId read write ?_
        · rintro o f - ⟨rec, hrec, ho, hf⟩
          exact ⟨rec, List.mem_cons_of_mem _ hrec, ho, hf⟩
        · intro parked' hpeek'
          obtain rfl := Option.some.inj (hpeek.symm.trans hpeek')
          exact ⟨_, List.mem_cons_self, rfl, rfl⟩
      · intro rec hrec
        rcases List.mem_cons.mp hrec with rfl | hrec
        · exact hwf
        · exact hinv.recorded rec hrec
      · rw [hpending] at hid
        exact Lru.peek_of_peek_pop hid

/-- Every state of a run whose steps meet the condition satisfies the invariant. -/
theorem Reach.inv (h : Reach sha256 key (fun r a => r.Meets sha256 key a) r) :
    Inv sha256 key r := by
  induction h with
  | initial capacity h persists => exact Inv.initial capacity h persists
  | step a hr ha hmeets ih => exact ih.step ha hmeets

/-- In a run whose turns cut the stored slice where it is aligned, and whose completed turns have
their tail aligned, every turn's output carries each client message once. -/
theorem output_conserved (h : Reach sha256 key (fun r a => r.Meets sha256 key a) r)
    (t : TurnInput) (hlen : t.originals.length ≤ t.optimized.length)
    (hmeets : r.Meets sha256 key (.turn t)) :
    Conserved r.ledger t.originals t.optimized (r.output sha256 key t) := by
  obtain ⟨hlength, hcarriers, hexplained⟩ := h.inv.output hlen hmeets
  exact ⟨_, hlength, hcarriers, hexplained⟩

end

/-! ### A message lost behind a cut -/

section

/-- A turn of plain messages that the pipeline leaves alone, under a floor that covers five
messages. -/
def plainTurn (requestId : String) (messages : List (String × String)) : TurnInput where
  clock := ⟨0, 0⟩
  requestId := requestId
  originals := messages.map fun m => plainMessage m.1 m.2
  optimized := messages.map fun m => plainMessage m.1 m.2
  currentSystemHash := some ""
  forwardedSystemHash := ""
  confirmedFrozenCount := some 5
  anthropicMessages := true

/-- A first turn with a `system` message in it. -/
def noticeTurn : TurnInput := plainTurn "1"
  [("user", "a"), ("system", "x"), ("assistant", "b"), ("user", "c"), ("assistant", "d")]

/-- The next turn: the `system` message is withdrawn. -/
def withdrawnTurn : TurnInput := plainTurn "2"
  [("user", "a"), ("assistant", "b"), ("user", "c"), ("assistant", "d"), ("user", "e")]

/-- The turn after: the newest message is edited. -/
def editedTurn : TurnInput := plainTurn "3"
  [("user", "a"), ("assistant", "b"), ("user", "c"), ("assistant", "d"), ("user", "f")]

/-- The run after the first turn. -/
def noticeRun : ReplayRun :=
  ((initial 1 Nat.one_pos false).step id "k" (.turn noticeTurn)).step id "k"
    (.complete ⟨0, 0⟩ "1" 2000 0)

/-- The run after the withdrawal. -/
def withdrawnRun : ReplayRun :=
  (noticeRun.step id "k" (.turn withdrawnTurn)).step id "k" (.complete ⟨0, 0⟩ "2" 2000 0)

instance decidableMeets (sha256 : String → String) (key : String) (r : ReplayRun) :
    (a : RunStep) → Decidable (r.Meets sha256 key a)
  | .turn t =>
    match h : r.answer sha256 key t with
    | .ok (o, f, chainId) =>
      decidable_of_iff ((span t o f chainId).1 = (span t o f chainId).2 →
        CutAligned (rolesOf r.ledger o f) o t.originals (span t o f chainId).1)
        (by simp only [Meets, h])
    | .error _ => isTrue (by simp only [Meets, h])
  | .complete _ requestId _ _ =>
    match h : r.store.pending.peek requestId with
    | none => isTrue (by simp only [Meets, h])
    | some parked =>
      decidable_of_iff (TailAligned parked.originalMessages (r.roles requestId))
        (by simp only [Meets, h])

/-- After the withdrawal the next turn appends to the conversation, and nothing is lost. -/
theorem output_conserved_appended :
    let next := plainTurn "3" [("user", "a"), ("assistant", "b"), ("user", "c"),
      ("assistant", "d"), ("user", "e"), ("assistant", "g")]
    Conserved withdrawnRun.ledger next.originals next.optimized
      (withdrawnRun.output id "k" next) := by
  have hfirst : Reach id "k" (fun r a => r.Meets id "k" a) noticeRun :=
    .step _ (.step _ (.initial 1 Nat.one_pos false) (Nat.le_refl _) (by decide +kernel)) trivial
      (by decide +kernel)
  have hsecond : Reach id "k" (fun r a => r.Meets id "k" a) withdrawnRun :=
    .step _ (.step _ hfirst (Nat.le_refl _) (by decide +kernel)) trivial (by decide +kernel)
  exact output_conserved hsecond _ (by decide) (by decide +kernel)

/-- Whether a recorded message carries an original that aligns with the current message `i`. -/
def recordedCarrier (ledger : List Recorded) (current : List Json) (m : Json) (i : ℕ) : Bool :=
  ledger.any fun r => (r.forwarded.zip r.roles).any fun p =>
    decide (p.1 = m) &&
      match p.2 with
      | .carries j =>
        match r.originals[j]?, current[i]? with
        | some a, some b => sameCanonical b a ||
          (isClientScaffoldingMessage j a && isClientScaffoldingMessage i b)
        | _, _ => false
      | _ => false

theorem carrier_of_explained {ledger : List Recorded} {current optimized : List Json} {m : Json}
    {i : ℕ} (h : Explained ledger current optimized m (.carries i)) :
    optimized[i]? = some m ∨ recordedCarrier ledger current m i = true := by
  refine h.imp_right ?_
  rintro ⟨r, hr, q, j, hm, hrole, a, b, ha, hb, hsame⟩
  refine List.any_eq_true.mpr ⟨r, hr, List.any_eq_true.mpr ⟨(m, .carries j), ?_, ?_⟩⟩
  · exact List.mem_of_getElem? (List.getElem?_zip_eq_some.mpr ⟨hm, hrole⟩)
  · simpa [ha, hb] using hsame

theorem not_conserved_of_missing {ledger : List Recorded} {current optimized out : List Json}
    {i : ℕ} (hi : i < current.length)
    (hmissing : ∀ m ∈ out, ¬ (optimized[i]? = some m ∨ recordedCarrier ledger current m i = true)) :
    ¬ Conserved ledger current optimized out := by
  rintro ⟨roles, hlength, hcarriers, hexplained⟩
  have hmem : i ∈ roles.filterMap Role.carried := by
    rw [hcarriers]
    exact List.mem_range.mpr hi
  obtain ⟨role, hrole, hcarried⟩ := List.mem_filterMap.mp hmem
  obtain rfl : role = .carries i := by
    cases role with
    | carries j => rw [Option.some.inj hcarried]
    | withdrawn => cases hcarried
    | tail => cases hcarried
  obtain ⟨p, hp, hget⟩ := List.mem_iff_getElem.mp hrole
  have hout : out[p]? = some out[p] := List.getElem?_eq_getElem (hlength ▸ hp)
  have hroles : roles[p]? = some (.carries i) := by rw [List.getElem?_eq_getElem hp, hget]
  exact hmissing _ (List.mem_of_getElem? hout) (carrier_of_explained (hexplained p _ _ hout hroles))

/-- A turn that edits its newest message right after a withdrawal loses the message ahead of it:
the stored messages are cut at an index of the originals. -/
theorem output_loses_message :
    Reach id "k" (fun _ _ => True) withdrawnRun ∧
      Admissible (.turn editedTurn) ∧
      ¬ Conserved withdrawnRun.ledger editedTurn.originals editedTurn.optimized
        (withdrawnRun.output id "k" editedTurn) := by
  refine ⟨?_, Nat.le_refl _, not_conserved_of_missing (i := 3) (by decide) (by decide +kernel)⟩
  exact .step _ (.step _ (.step _ (.step _ (.initial 1 Nat.one_pos false) (Nat.le_refl _) trivial)
    trivial trivial) (Nat.le_refl _) trivial) trivial trivial

end

end ReplayRun

end Headroom.PrefixReplay
