import Headroom.PrefixReplay.Overlay

/-!
# The overlay on its own output

A turn that diverges from the stored prefix keeps its length, so a second overlay cuts it where the first one did. A
turn that is covered takes all that was forwarded in the place of its own covered messages. Where more was forwarded
than is covered, as behind a withdrawal, the second overlay finds the turn's own messages further back than it takes
them from.

## Main results

* `overlay_overlay_iff` : the inputs whose output a second overlay leaves alone.
-/

open Foundation

namespace Headroom.PrefixReplay

section

variable (messages currentOriginals prevOrig prevFwd : List Json) (continuesChain anthropicMessages : Bool)

/-- The overlay of a turn of this prefix without a confirmed floor: the messages that go out. -/
def overlaid : List Json :=
  (overlayCachedPrefixShaped messages currentOriginals (some prevOrig) (some prevFwd) continuesChain none
    anthropicMessages).1

/-- The overlay of a turn replays all stored messages, the turn's own resuming at `consumed`: the lists are of the
lengths it asks for, the stored prefix covers the turn up to there, and the API takes the outcome. -/
structure ReplaysWhole (consumed : ℕ) : Prop where
  stored : prevOrig ≠ []
  forwarded : prevOrig.length ≤ prevFwd.length
  whole : prevOrig.length ≤ messages.length → currentOriginals.length ≤ messages.length
  covered : alignOverWithdrawnScaffolding prevOrig currentOriginals = some consumed
  long : consumed ≤ messages.length
  legal : (anthropicMessages && (firstIllegalSystemPosition (prevFwd ++ messages.drop consumed)).isSome) = false

variable {messages currentOriginals prevOrig prevFwd continuesChain anthropicMessages}

theorem overlaid_of_isEmpty (h : (!prevOrig.isEmpty && !prevFwd.isEmpty) = false) :
    overlaid messages currentOriginals prevOrig prevFwd continuesChain anthropicMessages = messages := by
  rw [overlaid, overlayCachedPrefixShaped, if_neg (by rw [h]; exact Bool.false_ne_true)]

theorem overlaid_eq_pair (h : (!prevOrig.isEmpty && !prevFwd.isEmpty) = true) :
    overlaid messages currentOriginals prevOrig prevFwd continuesChain anthropicMessages =
      (overlayPair messages currentOriginals prevOrig prevFwd continuesChain none anthropicMessages).1 := by
  rw [overlaid, overlayCachedPrefixShaped, if_pos h]

theorem fst_underAdjacencyNet_self (messages : List Json) (skip : Option ReplaySkip) :
    (underAdjacencyNet anthropicMessages messages messages skip).1 = messages := by
  rw [underAdjacencyNet]
  split_ifs
  · rfl
  · rfl

/-! ### A turn that diverges -/

section

variable (messages currentOriginals prevOrig prevFwd continuesChain)

/-- What a turn that diverges puts out, if the net takes it. -/
def cutReplay : List Json :=
  prevFwd.take (replayUpto messages currentOriginals prevOrig prevFwd continuesChain) ++
    messages.drop (replayUpto messages currentOriginals prevOrig prevFwd continuesChain)

theorem replayUpto_le :
    replayUpto messages currentOriginals prevOrig prevFwd continuesChain ≤ prevFwd.length ∧
      replayUpto messages currentOriginals prevOrig prevFwd continuesChain ≤ messages.length := by
  rw [replayUpto]
  split_ifs
  · omega
  · omega

theorem length_cutReplay :
    (cutReplay messages currentOriginals prevOrig prevFwd continuesChain).length = messages.length := by
  have hle := replayUpto_le messages currentOriginals prevOrig prevFwd continuesChain
  rw [cutReplay, List.length_append, List.length_take, List.length_drop]
  omega

theorem cutReplay_cutReplay :
    cutReplay (cutReplay messages currentOriginals prevOrig prevFwd continuesChain) currentOriginals prevOrig prevFwd
        continuesChain =
      cutReplay messages currentOriginals prevOrig prevFwd continuesChain := by
  have hupto : replayUpto (cutReplay messages currentOriginals prevOrig prevFwd continuesChain) currentOriginals
      prevOrig prevFwd continuesChain = replayUpto messages currentOriginals prevOrig prevFwd continuesChain := by
    rw [replayUpto, length_cutReplay]
    rfl
  have hle := (replayUpto_le messages currentOriginals prevOrig prevFwd continuesChain).1
  rw [cutReplay, hupto, cutReplay, List.drop_left' (List.length_take_of_le hle)]

/-- The lists are of the lengths that a cut asks for. -/
def CutsAt (length : ℕ) : Prop :=
  (prevOrig ≠ [] ∧ prevFwd ≠ []) ∧ prevOrig.length ≤ prevFwd.length ∧
    ¬ (prevOrig.length ≤ length ∧ length < currentOriginals.length) ∧ prevOrig.length ≤ currentOriginals.length ∧
      prevOrig.length ≤ length

end

/-- A turn that the stored prefix does not cover. -/
theorem overlaid_of_align_none (halign : alignOverWithdrawnScaffolding prevOrig currentOriginals = none) :
    (CutsAt currentOriginals prevOrig prevFwd messages.length →
      overlaid messages currentOriginals prevOrig prevFwd continuesChain anthropicMessages =
        (underAdjacencyNet anthropicMessages messages
          (cutReplay messages currentOriginals prevOrig prevFwd continuesChain) none).1) ∧
    (¬ CutsAt currentOriginals prevOrig prevFwd messages.length →
      overlaid messages currentOriginals prevOrig prevFwd continuesChain anthropicMessages = messages) := by
  by_cases hpair : (!prevOrig.isEmpty && !prevFwd.isEmpty) = true
  · have hne : prevOrig ≠ [] ∧ prevFwd ≠ [] := by simpa using hpair
    rw [overlaid_eq_pair hpair]
    simp only [overlayPair, halign]
    split_ifs with hcount hshort hcurrent hoptimized
    · exact ⟨fun hcuts => absurd hcuts.2.1 (by omega), fun _ => rfl⟩
    · exact ⟨fun hcuts => absurd hshort hcuts.2.2.1, fun _ => rfl⟩
    · exact ⟨fun hcuts => absurd hcuts.2.2.2.1 (by omega), fun _ => rfl⟩
    · exact ⟨fun hcuts => absurd hcuts.2.2.2.2 (by omega), fun _ => rfl⟩
    · refine ⟨fun _ => ?_, fun hnot => absurd ⟨hne, by omega, hshort, by omega, by omega⟩ hnot⟩
      rw [overlayDiverged]
      by_cases hzero : replayUpto messages currentOriginals prevOrig prevFwd continuesChain = 0
      · rw [if_pos hzero, cutReplay, hzero, List.take_zero, List.drop_zero, List.nil_append,
          fst_underAdjacencyNet_self]
      · rw [if_neg hzero]
        exact fst_underAdjacencyNet _ _ _ _
  · rw [overlaid_of_isEmpty (Bool.not_eq_true _ ▸ hpair)]
    exact ⟨fun hcuts => absurd (by simpa using hcuts.1) hpair, fun _ => rfl⟩

theorem overlaid_overlaid_of_align_none
    (halign : alignOverWithdrawnScaffolding prevOrig currentOriginals = none) :
    overlaid (overlaid messages currentOriginals prevOrig prevFwd continuesChain anthropicMessages) currentOriginals
        prevOrig prevFwd continuesChain anthropicMessages =
      overlaid messages currentOriginals prevOrig prevFwd continuesChain anthropicMessages := by
  have hafter : CutsAt currentOriginals prevOrig prevFwd messages.length →
      overlaid (cutReplay messages currentOriginals prevOrig prevFwd continuesChain) currentOriginals prevOrig prevFwd
        continuesChain anthropicMessages = cutReplay messages currentOriginals prevOrig prevFwd continuesChain := by
    intro hcuts
    have hlength := length_cutReplay messages currentOriginals prevOrig prevFwd continuesChain
    rw [(overlaid_of_align_none halign).1 (hlength ▸ hcuts), cutReplay_cutReplay, fst_underAdjacencyNet_self]
  by_cases hcuts : CutsAt currentOriginals prevOrig prevFwd messages.length
  · have hfirst : overlaid messages currentOriginals prevOrig prevFwd continuesChain anthropicMessages =
        (underAdjacencyNet anthropicMessages messages
          (cutReplay messages currentOriginals prevOrig prevFwd continuesChain) none).1 :=
      (overlaid_of_align_none halign).1 hcuts
    rw [underAdjacencyNet] at hfirst
    split_ifs at hfirst
    · rw [hfirst, hfirst]
    · rw [hfirst, hafter hcuts]
  · have hfirst : overlaid messages currentOriginals prevOrig prevFwd continuesChain anthropicMessages = messages :=
      (overlaid_of_align_none halign).2 hcuts
    rw [hfirst, hfirst]

/-! ### A turn that is covered -/

theorem overlaid_of_replaysWhole {consumed : ℕ}
    (h : ReplaysWhole messages currentOriginals prevOrig prevFwd anthropicMessages consumed) :
    overlaid messages currentOriginals prevOrig prevFwd continuesChain anthropicMessages =
      prevFwd ++ messages.drop consumed := by
  have hfwd : prevFwd ≠ [] := by
    have hpos := List.length_pos_iff.mpr h.stored
    have hle := h.forwarded
    exact List.length_pos_iff.mp (by omega)
  have hwhole : ¬ (messages.length ≥ prevOrig.length ∧ messages.length < currentOriginals.length) := by
    rintro ⟨hlong, hshort⟩
    have hle := h.whole hlong
    omega
  have hlong := h.long
  have hcount := h.forwarded
  rw [overlaid_eq_pair (by simp [h.stored, hfwd]), overlayPair]
  rw [if_neg (by omega), if_neg hwhole, h.covered]
  dsimp only
  rw [overlayAligned, if_neg (by omega)]
  show (underAdjacencyNet anthropicMessages messages (prevFwd ++ messages.drop consumed) none).1 = _
  rw [underAdjacencyNet, h.legal, if_neg Bool.false_ne_true]

theorem overlaid_of_not_replaysWhole {consumed : ℕ}
    (halign : alignOverWithdrawnScaffolding prevOrig currentOriginals = some consumed)
    (h : ¬ ReplaysWhole messages currentOriginals prevOrig prevFwd anthropicMessages consumed) :
    overlaid messages currentOriginals prevOrig prevFwd continuesChain anthropicMessages = messages := by
  by_cases hpair : (!prevOrig.isEmpty && !prevFwd.isEmpty) = true
  · have hne : prevOrig ≠ [] ∧ prevFwd ≠ [] := by simpa using hpair
    rw [overlaid_eq_pair hpair]
    simp only [overlayPair, overlayAligned, halign]
    split_ifs with hcount hshort hlong
    · rfl
    · rfl
    · rfl
    · show (underAdjacencyNet anthropicMessages messages (prevFwd ++ messages.drop consumed) none).1 = _
      rw [underAdjacencyNet]
      split_ifs with hlegal
      · rfl
      · exact absurd ⟨hne.1, by omega, by omega, halign, by omega, Bool.eq_false_iff.mpr hlegal⟩ h
  · exact overlaid_of_isEmpty (Bool.eq_false_iff.mpr hpair)

/-- A turn of a stored pair is overlaid twice as once, unless all that was forwarded is replayed both times over fewer
of the turn's own messages. -/
theorem overlaid_overlaid_iff :
    overlaid (overlaid messages currentOriginals prevOrig prevFwd continuesChain anthropicMessages) currentOriginals
        prevOrig prevFwd continuesChain anthropicMessages =
      overlaid messages currentOriginals prevOrig prevFwd continuesChain anthropicMessages ↔
    ∀ consumed, ReplaysWhole messages currentOriginals prevOrig prevFwd anthropicMessages consumed →
      ReplaysWhole (prevFwd ++ messages.drop consumed) currentOriginals prevOrig prevFwd anthropicMessages consumed →
      consumed = prevFwd.length := by
  rcases halign : alignOverWithdrawnScaffolding prevOrig currentOriginals with _ | consumed
  · refine iff_of_true (overlaid_overlaid_of_align_none halign) fun consumed hwhole _ => ?_
    cases halign.symm.trans hwhole.covered
  · by_cases hwhole : ReplaysWhole messages currentOriginals prevOrig prevFwd anthropicMessages consumed
    · have hle : consumed ≤ prevFwd.length := by
        have hspan : consumed ≤ 0 + prevOrig.length := Alignment.align_le_add halign
        have hcount := hwhole.forwarded
        omega
      rw [overlaid_of_replaysWhole hwhole]
      by_cases hagain : ReplaysWhole (prevFwd ++ messages.drop consumed) currentOriginals prevOrig prevFwd
          anthropicMessages consumed
      · rw [overlaid_of_replaysWhole hagain]
        constructor
        · intro heq consumed' hwhole' _
          obtain rfl := Option.some.inj (hwhole'.covered.symm.trans halign)
          have hlength := congrArg List.length heq
          simp only [List.length_append, List.length_drop] at hlength
          omega
        · intro hall
          rw [List.drop_left' (hall consumed hwhole hagain).symm]
      · refine iff_of_true (overlaid_of_not_replaysWhole halign hagain) fun consumed' hwhole' hagain' => ?_
        obtain rfl := Option.some.inj (hwhole'.covered.symm.trans halign)
        exact absurd hagain' hagain
    · have hfirst : overlaid messages currentOriginals prevOrig prevFwd continuesChain anthropicMessages = messages :=
        overlaid_of_not_replaysWhole halign hwhole
      rw [hfirst]
      refine iff_of_true hfirst fun consumed' hwhole' _ => ?_
      obtain rfl := Option.some.inj (hwhole'.covered.symm.trans halign)
      exact absurd hwhole' hwhole

end

/-- The overlay leaves its own output alone, without a confirmed floor, unless a stored pair is replayed whole both
times and covers fewer of the turn's own messages than were forwarded. -/
theorem overlay_overlay_iff (optimizedMessages currentOriginals : List Json)
    (previousOriginals previousForwarded : Option (List Json)) (continuesChain anthropicMessages : Bool) :
    (overlayCachedPrefixShaped
        (overlayCachedPrefixShaped optimizedMessages currentOriginals previousOriginals previousForwarded
          continuesChain none anthropicMessages).1
        currentOriginals previousOriginals previousForwarded continuesChain none anthropicMessages).1 =
      (overlayCachedPrefixShaped optimizedMessages currentOriginals previousOriginals previousForwarded
        continuesChain none anthropicMessages).1 ↔
    ∀ prevOrig prevFwd consumed, previousOriginals = some prevOrig → previousForwarded = some prevFwd →
      ReplaysWhole optimizedMessages currentOriginals prevOrig prevFwd anthropicMessages consumed →
      ReplaysWhole (prevFwd ++ optimizedMessages.drop consumed) currentOriginals prevOrig prevFwd anthropicMessages
        consumed →
      consumed = prevFwd.length := by
  rcases previousOriginals with _ | prevOrig
  · exact iff_of_true rfl fun _ _ _ hnone => by cases hnone
  · rcases previousForwarded with _ | prevFwd
    · exact iff_of_true rfl fun _ _ _ _ hnone => by cases hnone
    · refine Iff.trans overlaid_overlaid_iff ⟨?_, fun hall consumed => hall prevOrig prevFwd consumed rfl rfl⟩
      rintro hall o f consumed ho hf
      obtain rfl := Option.some.inj ho
      obtain rfl := Option.some.inj hf
      exact hall consumed

/-- With a `system` message withdrawn, the message that the stored prefix covers behind it goes out twice when the
overlay runs on its own output. -/
theorem overlay_repeats_withdrawn :
    ¬ ∀ (optimizedMessages currentOriginals : List Json) (previousOriginals previousForwarded : Option (List Json))
        (continuesChain anthropicMessages : Bool),
      (overlayCachedPrefixShaped
          (overlayCachedPrefixShaped optimizedMessages currentOriginals previousOriginals previousForwarded
            continuesChain none anthropicMessages).1
          currentOriginals previousOriginals previousForwarded continuesChain none anthropicMessages).1 =
        (overlayCachedPrefixShaped optimizedMessages currentOriginals previousOriginals previousForwarded
          continuesChain none anthropicMessages).1 := by
  intro hall
  have htwice := hall [plainMessage "user" "a", plainMessage "user" "b", plainMessage "assistant" "c"]
    [plainMessage "user" "a", plainMessage "user" "b", plainMessage "assistant" "c"]
    (some [plainMessage "user" "a", plainMessage "system" "x", plainMessage "user" "b"])
    (some [plainMessage "user" "a", plainMessage "system" "x", plainMessage "user" "b"]) true true
  revert htwice
  decide +kernel

end Headroom.PrefixReplay
