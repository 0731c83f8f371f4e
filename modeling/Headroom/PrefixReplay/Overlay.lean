import Headroom.PrefixReplay.Compare

/-!
# The prefix overlay

What a turn forwards: the stored forwarded messages of the prefix it continues, byte for byte, and
its own messages behind them; or a head of the stored messages only, or none at all, with the
reason.
-/

open Foundation

namespace Headroom.PrefixReplay

/-! ### The overlay -/

/-- Why a turn forwarded its own bytes instead of replaying the cached prefix. -/
inductive ReplaySkip where
  | noPreviousTurn
  | forwardedCountMismatch
  | inflatedWithoutConfirmedFloor
  | systemAdjacencyBroken
  | shorterThanStoredPrefix
  | optimizedShorterThanPrefix
  | optimizedShorterThanOriginals
  | prefixContentDiverged (firstDiffIndex replayedPrefixMsgs : ℕ)
  deriving DecidableEq

/-- The length of the messages as one compact JSON array. -/
def compactJsonLen (messages : List Json) : ℕ := (Json.arr messages).compactLength

/-- What to forward after the bound on inflation trips. -/
inductive InflatedReplay where
  | whole (messages : List Json)
  | split (messages : List Json)
  | fresh

/-- Whether a splice is no longer than the turn's own output. -/
def replayWithinBound (spliced optimizedMessages : List Json) : Bool :=
  compactJsonLen spliced ≤ compactJsonLen optimizedMessages

/-- Split an inflated splice at the confirmed floor. A span that holds a replayed withdrawal
(`shifted`) is not cut: past the insertion an index no longer names one message on both sides. -/
def splitInflatedReplayAtFloor (spliced prevFwd optimizedMessages : List Json)
    (headLen floor : ℕ) (shifted : Bool) : InflatedReplay :=
  if floor ≥ headLen then .whole spliced
  else if spliced.isEmpty || optimizedMessages.isEmpty then .whole spliced
  else if replayWithinBound spliced optimizedMessages then .whole spliced
  else if floor = 0 then .fresh
  else if shifted then .whole spliced
  else
    let floor := min floor optimizedMessages.length
    .split (prevFwd.take floor ++ optimizedMessages.drop floor)

/-- The first index at which a stored prefix and a turn at least as long differ. -/
def firstDiffIndex (prevOrig currentOriginals : List Json) : ℕ :=
  (prevOrig.zip currentOriginals).findIdx fun p => !sameCanonical p.2 p.1

/-- A splice under the adjacency net: where the API would refuse a `system` message of it, the
turn's own messages go out. -/
def underAdjacencyNet (anthropicMessages : Bool) (optimizedMessages out : List Json)
    (skip : Option ReplaySkip) : List Json × Option ReplaySkip :=
  if anthropicMessages && (firstIllegalSystemPosition out).isSome then
    (optimizedMessages, some .systemAdjacencyBroken)
  else (out, skip)

/-- How many leading messages still agree and can be cut on both sides, if the prefix is this
conversation's own. -/
def replayUpto (optimizedMessages currentOriginals prevOrig prevFwd : List Json)
    (continuesChain : Bool) : ℕ :=
  if continuesChain then
    min (min (firstDiffIndex prevOrig currentOriginals) prevFwd.length) optimizedMessages.length
  else 0

/-- What the floor makes of the agreeing run that a diverging turn replays. -/
def divergedReplay (optimizedMessages prevOrig prevFwd : List Json) (upto : ℕ)
    (confirmedFrozenCount : Option ℕ) : InflatedReplay :=
  let out := prevFwd.take upto ++ optimizedMessages.drop upto
  match confirmedFrozenCount with
  | none => .whole out
  | some confirmed =>
    splitInflatedReplayAtFloor out prevFwd optimizedMessages upto (min confirmed upto)
      (prevOrig.length < prevFwd.length)

/-- The overlay of a turn that diverges from the stored prefix: the run that still agrees is
replayed. -/
def overlayDiverged (optimizedMessages currentOriginals prevOrig prevFwd : List Json)
    (continuesChain : Bool) (confirmedFrozenCount : Option ℕ) (anthropicMessages : Bool) :
    List Json × Option ReplaySkip :=
  let firstDiff := firstDiffIndex prevOrig currentOriginals
  let upto := replayUpto optimizedMessages currentOriginals prevOrig prevFwd continuesChain
  if upto = 0 then (optimizedMessages, some (.prefixContentDiverged firstDiff upto))
  else
    match divergedReplay optimizedMessages prevOrig prevFwd upto confirmedFrozenCount with
    | .fresh => (optimizedMessages, some .inflatedWithoutConfirmedFloor)
    | .whole out =>
      underAdjacencyNet anthropicMessages optimizedMessages out
        (some (.prefixContentDiverged firstDiff upto))
    | .split out =>
      underAdjacencyNet anthropicMessages optimizedMessages out
        (some (.prefixContentDiverged firstDiff
          (min (min (confirmedFrozenCount.getD 0) upto) optimizedMessages.length)))

/-- What the floor makes of a stored prefix that is replayed whole, the turn's own messages
resuming at `consumed`. -/
def alignedReplay (optimizedMessages prevOrig prevFwd : List Json) (consumed : ℕ)
    (confirmedFrozenCount : Option ℕ) : InflatedReplay :=
  let out := prevFwd ++ optimizedMessages.drop consumed
  match confirmedFrozenCount with
  | none => .whole out
  | some confirmed =>
    splitInflatedReplayAtFloor out prevFwd optimizedMessages prevFwd.length
      (min confirmed prevFwd.length) (prevOrig.length < prevFwd.length)

/-- The overlay of a turn that the stored prefix covers up to `consumed`. -/
def overlayAligned (optimizedMessages prevOrig prevFwd : List Json) (consumed : ℕ)
    (confirmedFrozenCount : Option ℕ) (anthropicMessages : Bool) :
    List Json × Option ReplaySkip :=
  if optimizedMessages.length < consumed then
    (optimizedMessages, some .optimizedShorterThanPrefix)
  else
    match alignedReplay optimizedMessages prevOrig prevFwd consumed confirmedFrozenCount with
    | .fresh => (optimizedMessages, some .inflatedWithoutConfirmedFloor)
    | .whole out => underAdjacencyNet anthropicMessages optimizedMessages out none
    | .split out => underAdjacencyNet anthropicMessages optimizedMessages out none

/-- The overlay on a stored pair of slices, neither of them empty. -/
def overlayPair (optimizedMessages currentOriginals prevOrig prevFwd : List Json)
    (continuesChain : Bool) (confirmedFrozenCount : Option ℕ) (anthropicMessages : Bool) :
    List Json × Option ReplaySkip :=
  let n := prevOrig.length
  if prevFwd.length < n then (optimizedMessages, some .forwardedCountMismatch)
  else if optimizedMessages.length ≥ n ∧ optimizedMessages.length < currentOriginals.length then
    (optimizedMessages, some .optimizedShorterThanOriginals)
  else
    match alignOverWithdrawnScaffolding prevOrig currentOriginals with
    | none =>
      if currentOriginals.length < n then (optimizedMessages, some .shorterThanStoredPrefix)
      else if optimizedMessages.length < n then
        (optimizedMessages, some .optimizedShorterThanPrefix)
      else
        overlayDiverged optimizedMessages currentOriginals prevOrig prevFwd continuesChain
          confirmedFrozenCount anthropicMessages
    | some consumed =>
      overlayAligned optimizedMessages prevOrig prevFwd consumed confirmedFrozenCount
        anthropicMessages

/-- The messages a turn forwards, and why it did not replay the whole stored prefix. -/
def overlayCachedPrefixShaped (optimizedMessages currentOriginals : List Json)
    (previousOriginals previousForwarded : Option (List Json)) (continuesChain : Bool)
    (confirmedFrozenCount : Option ℕ) (anthropicMessages : Bool) :
    List Json × Option ReplaySkip :=
  match previousOriginals, previousForwarded with
  | some o, some f =>
    if !o.isEmpty && !f.isEmpty then
      overlayPair optimizedMessages currentOriginals o f continuesChain confirmedFrozenCount
        anthropicMessages
    else (optimizedMessages, some .noPreviousTurn)
  | _, _ => (optimizedMessages, some .noPreviousTurn)

/-! ### The span of an output -/

/-- The index at which a turn that diverges cuts the stored messages and its own. -/
def divergedCut (optimizedMessages currentOriginals prevOrig prevFwd : List Json)
    (continuesChain : Bool) (confirmedFrozenCount : Option ℕ) : ℕ :=
  let upto := replayUpto optimizedMessages currentOriginals prevOrig prevFwd continuesChain
  if upto = 0 then 0
  else
    match divergedReplay optimizedMessages prevOrig prevFwd upto confirmedFrozenCount with
    | .whole _ => upto
    | .split _ => min (min (confirmedFrozenCount.getD 0) upto) optimizedMessages.length
    | .fresh => 0

/-- How many stored messages a covered turn takes, and where its own messages resume. -/
def alignedSpan (optimizedMessages prevOrig prevFwd : List Json) (consumed : ℕ)
    (confirmedFrozenCount : Option ℕ) : ℕ × ℕ :=
  match alignedReplay optimizedMessages prevOrig prevFwd consumed confirmedFrozenCount with
  | .whole _ => (prevFwd.length, consumed)
  | .split _ =>
    let floor := min (min (confirmedFrozenCount.getD 0) prevFwd.length) optimizedMessages.length
    (floor, floor)
  | .fresh => (0, 0)

/-- How many stored messages a turn takes, and where its own messages resume, before the adjacency
net. -/
def wantedSpan (optimizedMessages currentOriginals prevOrig prevFwd : List Json)
    (continuesChain : Bool) (confirmedFrozenCount : Option ℕ) : ℕ × ℕ :=
  if !prevOrig.isEmpty && !prevFwd.isEmpty then
    if prevFwd.length < prevOrig.length then (0, 0)
    else if optimizedMessages.length ≥ prevOrig.length ∧
        optimizedMessages.length < currentOriginals.length then (0, 0)
    else
      match alignOverWithdrawnScaffolding prevOrig currentOriginals with
      | none =>
        if currentOriginals.length < prevOrig.length then (0, 0)
        else if optimizedMessages.length < prevOrig.length then (0, 0)
        else
          let cut := divergedCut optimizedMessages currentOriginals prevOrig prevFwd
            continuesChain confirmedFrozenCount
          (cut, cut)
      | some consumed =>
        if optimizedMessages.length < consumed then (0, 0)
        else alignedSpan optimizedMessages prevOrig prevFwd consumed confirmedFrozenCount
  else (0, 0)

/-- How many stored messages a turn takes, and where its own messages resume. -/
def overlaySpan (optimizedMessages currentOriginals prevOrig prevFwd : List Json)
    (continuesChain : Bool) (confirmedFrozenCount : Option ℕ) (anthropicMessages : Bool) :
    ℕ × ℕ :=
  let span := wantedSpan optimizedMessages currentOriginals prevOrig prevFwd continuesChain
    confirmedFrozenCount
  if anthropicMessages && (firstIllegalSystemPosition
      (prevFwd.take span.1 ++ optimizedMessages.drop span.2)).isSome then (0, 0)
  else span

/-- The messages of a span under the adjacency net. -/
def splice (optimizedMessages prevFwd : List Json) (anthropicMessages : Bool) (span : ℕ × ℕ) :
    List Json :=
  (underAdjacencyNet anthropicMessages optimizedMessages
    (prevFwd.take span.1 ++ optimizedMessages.drop span.2) none).1

theorem splitInflatedReplayAtFloor_cases (spliced prevFwd optimizedMessages : List Json)
    (headLen floor : ℕ) (shifted : Bool) :
    (splitInflatedReplayAtFloor spliced prevFwd optimizedMessages headLen floor shifted =
      .whole spliced) ∨
    (splitInflatedReplayAtFloor spliced prevFwd optimizedMessages headLen floor shifted =
        .split (prevFwd.take (min floor optimizedMessages.length) ++
          optimizedMessages.drop (min floor optimizedMessages.length)) ∧
      0 < floor ∧ floor < headLen ∧ shifted = false) ∨
    (splitInflatedReplayAtFloor spliced prevFwd optimizedMessages headLen floor shifted = .fresh ∧
      floor = 0 ∧ 0 < headLen) := by
  simp only [splitInflatedReplayAtFloor]
  split_ifs with h1 h2 h3 h4 h5
  · exact Or.inl rfl
  · exact Or.inl rfl
  · exact Or.inl rfl
  · exact Or.inr (Or.inr ⟨rfl, h4, by omega⟩)
  · exact Or.inl rfl
  · exact Or.inr (Or.inl ⟨rfl, by omega, by omega, by simpa using h5⟩)

section

variable (optimizedMessages currentOriginals prevOrig prevFwd : List Json)
  (continuesChain : Bool) (confirmedFrozenCount : Option ℕ) (anthropicMessages : Bool)

@[simp] theorem splice_zero :
    splice optimizedMessages prevFwd anthropicMessages (0, 0) = optimizedMessages := by
  simp only [splice, underAdjacencyNet, List.take_zero, List.drop_zero, List.nil_append]
  split_ifs <;> rfl

/-- The reason given does not change what the net lets through. -/
theorem fst_underAdjacencyNet (out : List Json) (skip : Option ReplaySkip) :
    (underAdjacencyNet anthropicMessages optimizedMessages out skip).1 =
      (underAdjacencyNet anthropicMessages optimizedMessages out none).1 := by
  simp only [underAdjacencyNet]
  split_ifs <;> rfl

theorem divergedReplay_cases (upto : ℕ) :
    divergedReplay optimizedMessages prevOrig prevFwd upto confirmedFrozenCount =
      .whole (prevFwd.take upto ++ optimizedMessages.drop upto) ∨
    (∃ confirmed, confirmedFrozenCount = some confirmed ∧
      divergedReplay optimizedMessages prevOrig prevFwd upto confirmedFrozenCount =
        .split (prevFwd.take (min (min confirmed upto) optimizedMessages.length) ++
          optimizedMessages.drop (min (min confirmed upto) optimizedMessages.length))) ∨
    divergedReplay optimizedMessages prevOrig prevFwd upto confirmedFrozenCount = .fresh := by
  cases confirmedFrozenCount with
  | none => exact Or.inl rfl
  | some confirmed =>
    exact (splitInflatedReplayAtFloor_cases _ prevFwd optimizedMessages upto (min confirmed upto)
      (prevOrig.length < prevFwd.length)).imp id (Or.imp (fun h => ⟨_, rfl, h.1⟩) And.left)

private theorem fst_overlayDiverged :
    (overlayDiverged optimizedMessages currentOriginals prevOrig prevFwd continuesChain
      confirmedFrozenCount anthropicMessages).1 =
    splice optimizedMessages prevFwd anthropicMessages
      (divergedCut optimizedMessages currentOriginals prevOrig prevFwd continuesChain
          confirmedFrozenCount,
        divergedCut optimizedMessages currentOriginals prevOrig prevFwd continuesChain
          confirmedFrozenCount) := by
  simp only [overlayDiverged, divergedCut]
  split_ifs with h0
  · rw [splice_zero]
  rcases divergedReplay_cases optimizedMessages prevOrig prevFwd confirmedFrozenCount
    (replayUpto optimizedMessages currentOriginals prevOrig prevFwd continuesChain) with
    heq | ⟨confirmed, rfl, heq⟩ | heq
  · rw [heq]
    exact fst_underAdjacencyNet _ _ _ _
  · rw [heq]
    exact fst_underAdjacencyNet _ _ _ _
  · rw [heq]
    exact (splice_zero _ _ _).symm

theorem alignedReplay_cases (consumed : ℕ) :
    (alignedReplay optimizedMessages prevOrig prevFwd consumed confirmedFrozenCount =
        .whole (prevFwd ++ optimizedMessages.drop consumed) ∧
      alignedSpan optimizedMessages prevOrig prevFwd consumed confirmedFrozenCount =
        (prevFwd.length, consumed)) ∨
    (∃ k, alignedReplay optimizedMessages prevOrig prevFwd consumed confirmedFrozenCount =
        .split (prevFwd.take k ++ optimizedMessages.drop k) ∧
      alignedSpan optimizedMessages prevOrig prevFwd consumed confirmedFrozenCount = (k, k) ∧
      k ≤ optimizedMessages.length ∧ k < prevFwd.length ∧ prevFwd.length ≤ prevOrig.length) ∨
    (alignedReplay optimizedMessages prevOrig prevFwd consumed confirmedFrozenCount = .fresh ∧
      alignedSpan optimizedMessages prevOrig prevFwd consumed confirmedFrozenCount = (0, 0)) := by
  cases confirmedFrozenCount with
  | none => exact Or.inl ⟨rfl, rfl⟩
  | some confirmed =>
    rcases splitInflatedReplayAtFloor_cases (prevFwd ++ optimizedMessages.drop consumed) prevFwd
      optimizedMessages prevFwd.length (min confirmed prevFwd.length)
      (prevOrig.length < prevFwd.length) with heq | ⟨heq, -, hlt, hshift⟩ | ⟨heq, -⟩
    · exact Or.inl ⟨heq, by simp only [alignedSpan, alignedReplay, heq]⟩
    · refine Or.inr (Or.inl ⟨_, heq, ?_, by omega, by omega, ?_⟩)
      · simp only [alignedSpan, alignedReplay, heq, Option.getD_some]
      · simpa using hshift
    · exact Or.inr (Or.inr ⟨heq, by simp only [alignedSpan, alignedReplay, heq]⟩)

private theorem fst_overlayAligned {consumed : ℕ} (hopt : ¬ optimizedMessages.length < consumed) :
    (overlayAligned optimizedMessages prevOrig prevFwd consumed confirmedFrozenCount
      anthropicMessages).1 =
    splice optimizedMessages prevFwd anthropicMessages
      (alignedSpan optimizedMessages prevOrig prevFwd consumed confirmedFrozenCount) := by
  rw [overlayAligned, if_neg hopt]
  rcases alignedReplay_cases optimizedMessages prevOrig prevFwd confirmedFrozenCount consumed with
    ⟨heq, hspan⟩ | ⟨k, heq, hspan, -⟩ | ⟨heq, hspan⟩
  · rw [heq, hspan, splice, List.take_length]
  · rw [heq, hspan]
    rfl
  · rw [heq, hspan, splice_zero]

private theorem fst_overlay :
    (overlayCachedPrefixShaped optimizedMessages currentOriginals (some prevOrig) (some prevFwd)
      continuesChain confirmedFrozenCount anthropicMessages).1 =
    splice optimizedMessages prevFwd anthropicMessages
      (wantedSpan optimizedMessages currentOriginals prevOrig prevFwd continuesChain
        confirmedFrozenCount) := by
  simp only [overlayCachedPrefixShaped, overlayPair, wantedSpan]
  cases alignOverWithdrawnScaffolding prevOrig currentOriginals with
  | none =>
    dsimp only
    split_ifs
    · rw [splice_zero]
    · rw [splice_zero]
    · rw [splice_zero]
    · rw [splice_zero]
    · exact fst_overlayDiverged _ _ _ _ _ _ _
    · rw [splice_zero]
  | some consumed =>
    dsimp only
    split_ifs with hne hmismatch hshort hopt
    · rw [splice_zero]
    · rw [splice_zero]
    · rw [overlayAligned, if_pos hopt, splice_zero]
    · exact fst_overlayAligned _ _ _ _ _ hopt
    · rw [splice_zero]

/-- Every output is a head of the stored forwarded messages and a tail of the turn's own. -/
theorem overlay_eq_splice :
    (overlayCachedPrefixShaped optimizedMessages currentOriginals (some prevOrig) (some prevFwd)
      continuesChain confirmedFrozenCount anthropicMessages).1 =
    prevFwd.take (overlaySpan optimizedMessages currentOriginals prevOrig prevFwd continuesChain
      confirmedFrozenCount anthropicMessages).1 ++
    optimizedMessages.drop (overlaySpan optimizedMessages currentOriginals prevOrig prevFwd
      continuesChain confirmedFrozenCount anthropicMessages).2 := by
  rw [fst_overlay]
  simp only [splice, underAdjacencyNet, overlaySpan]
  split_ifs
  · simp
  · rfl

end

/-- The ways an output is spliced from a stored pair of slices and the turn's own messages. -/
inductive SpanShape (optimizedMessages currentOriginals prevOrig prevFwd : List Json)
    (continuesChain : Bool) : ℕ × ℕ → Prop
  | fresh : SpanShape optimizedMessages currentOriginals prevOrig prevFwd continuesChain (0, 0)
  | whole {consumed : ℕ}
      (halign : alignOverWithdrawnScaffolding prevOrig currentOriginals = some consumed)
      (hopt : consumed ≤ optimizedMessages.length) (hlen : prevOrig.length ≤ prevFwd.length) :
      SpanShape optimizedMessages currentOriginals prevOrig prevFwd continuesChain
        (prevFwd.length, consumed)
  | diverged {k : ℕ}
      (halign : alignOverWithdrawnScaffolding prevOrig currentOriginals = none)
      (hchain : continuesChain = true) (hcur : prevOrig.length ≤ currentOriginals.length)
      (hdiff : k ≤ firstDiffIndex prevOrig currentOriginals) (hfwd : k ≤ prevFwd.length)
      (hopt : k ≤ optimizedMessages.length) :
      SpanShape optimizedMessages currentOriginals prevOrig prevFwd continuesChain (k, k)
  | floor {consumed k : ℕ}
      (halign : alignOverWithdrawnScaffolding prevOrig currentOriginals = some consumed)
      (hlen : prevFwd.length = prevOrig.length) (hlt : k < prevFwd.length)
      (hopt : k ≤ optimizedMessages.length) :
      SpanShape optimizedMessages currentOriginals prevOrig prevFwd continuesChain (k, k)

section

variable (optimizedMessages currentOriginals prevOrig prevFwd : List Json)
  (continuesChain : Bool) (confirmedFrozenCount : Option ℕ) (anthropicMessages : Bool)

theorem divergedCut_le : divergedCut optimizedMessages currentOriginals prevOrig prevFwd
    continuesChain confirmedFrozenCount ≤
      replayUpto optimizedMessages currentOriginals prevOrig prevFwd continuesChain := by
  simp only [divergedCut]
  split_ifs
  · exact Nat.zero_le _
  · split <;> omega

private theorem wantedSpan_shape :
    SpanShape optimizedMessages currentOriginals prevOrig prevFwd continuesChain
      (wantedSpan optimizedMessages currentOriginals prevOrig prevFwd continuesChain
        confirmedFrozenCount) := by
  simp only [wantedSpan]
  cases halign : alignOverWithdrawnScaffolding prevOrig currentOriginals with
  | none =>
    dsimp only
    split_ifs with hne hmismatch hshort hcur hopt
    · exact .fresh
    · exact .fresh
    · exact .fresh
    · exact .fresh
    · have hle := divergedCut_le optimizedMessages currentOriginals prevOrig prevFwd
        continuesChain confirmedFrozenCount
      simp only [replayUpto] at hle
      split_ifs at hle with hchain
      · exact .diverged halign hchain (by omega) (by omega) (by omega) (by omega)
      · rw [Nat.le_zero.mp hle]
        exact .fresh
    · exact .fresh
  | some consumed =>
    dsimp only
    split_ifs with hne hmismatch hshort hopt
    · exact .fresh
    · exact .fresh
    · exact .fresh
    · rcases alignedReplay_cases optimizedMessages prevOrig prevFwd confirmedFrozenCount
        consumed with ⟨-, hspan⟩ | ⟨k, -, hspan, hk, hlt, hle⟩ | ⟨-, hspan⟩
      · rw [hspan]
        exact .whole halign (by omega) (by omega)
      · rw [hspan]
        exact .floor halign (by omega) hlt hk
      · rw [hspan]
        exact .fresh
    · exact .fresh

/-- A turn goes out fresh, or replays the stored messages whole, or cuts them at a divergence or
at the confirmed floor. -/
theorem overlaySpan_shape :
    SpanShape optimizedMessages currentOriginals prevOrig prevFwd continuesChain
      (overlaySpan optimizedMessages currentOriginals prevOrig prevFwd continuesChain
        confirmedFrozenCount anthropicMessages) := by
  simp only [overlaySpan]
  split_ifs
  · exact .fresh
  · exact wantedSpan_shape _ _ _ _ _ _

theorem length_le_overlay : optimizedMessages.length ≤ (overlayCachedPrefixShaped
    optimizedMessages currentOriginals (some prevOrig) (some prevFwd) continuesChain
    confirmedFrozenCount anthropicMessages).1.length := by
  rw [overlay_eq_splice, List.length_append, List.length_take, List.length_drop]
  have hshape := overlaySpan_shape optimizedMessages currentOriginals prevOrig prevFwd
    continuesChain confirmedFrozenCount anthropicMessages
  generalize overlaySpan optimizedMessages currentOriginals prevOrig prevFwd continuesChain
    confirmedFrozenCount anthropicMessages = span at hshape
  cases hshape with
  | fresh =>
    dsimp only
    omega
  | whole halign hopt hlen =>
    have hle := Alignment.align_le_add halign
    dsimp only
    omega
  | diverged halign hchain hcur hdiff hfwd hopt =>
    dsimp only
    omega
  | floor halign hlen hlt hopt =>
    dsimp only
    omega

/-- A stored prefix that leads the turn and lies under the confirmed floor is replayed whole, with
the turn's own messages behind it. -/
theorem overlay_of_leads {confirmed : ℕ}
    (hlead : prevOrig.map messageKey <+: currentOriginals.map messageKey) (hne : prevOrig ≠ [])
    (hcount : prevOrig.length ≤ prevFwd.length)
    (hemit : currentOriginals.length ≤ optimizedMessages.length)
    (hfloor : prevFwd.length ≤ confirmed)
    (hadjacent : anthropicMessages = true → firstIllegalSystemPosition
      (prevFwd ++ optimizedMessages.drop prevOrig.length) = none) :
    (overlayCachedPrefixShaped optimizedMessages currentOriginals (some prevOrig) (some prevFwd)
      continuesChain (some confirmed) anthropicMessages).1 =
    prevFwd ++ optimizedMessages.drop prevOrig.length := by
  have hpos := List.length_pos_of_ne_nil hne
  have hle : prevOrig.length ≤ currentOriginals.length := by
    simpa only [List.length_map] using hlead.length_le
  have hfwd : prevFwd ≠ [] := List.ne_nil_of_length_pos (by omega)
  have hwhole : alignedReplay optimizedMessages prevOrig prevFwd prevOrig.length
      (some confirmed) = .whole (prevFwd ++ optimizedMessages.drop prevOrig.length) := by
    simp only [alignedReplay, splitInflatedReplayAtFloor, Nat.min_eq_right hfloor, ge_iff_le,
      le_refl, if_true]
  have hwanted : wantedSpan optimizedMessages currentOriginals prevOrig prevFwd continuesChain
      (some confirmed) = (prevFwd.length, prevOrig.length) := by
    simp only [wantedSpan, alignOverWithdrawnScaffolding_of_matches hlead, alignedSpan, hwhole]
    rw [if_pos (by simp [hne, hfwd]), if_neg (by omega), if_neg (by omega), if_neg (by omega)]
  have hspan : overlaySpan optimizedMessages currentOriginals prevOrig prevFwd continuesChain
      (some confirmed) anthropicMessages = (prevFwd.length, prevOrig.length) := by
    simp only [overlaySpan, hwanted, List.take_length]
    refine if_neg fun hillegal => ?_
    simp only [Bool.and_eq_true] at hillegal
    rw [hadjacent hillegal.1] at hillegal
    cases hillegal.2
  rw [overlay_eq_splice, hspan, List.take_length]

end

end Headroom.PrefixReplay
