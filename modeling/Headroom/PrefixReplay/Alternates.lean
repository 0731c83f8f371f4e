import Headroom.PrefixReplay.Runs

/-!
# The budget of the alternates

A tracker keeps the prefixes of other streams beside its most recent one, under a bound on their
number and a bound on their messages. A turn of another stream runs the greedy pass of the budget;
an adoption into a live tracker only cuts the list at its number. The pass also counts the prefixes
that the turn continues, which are taken out behind it.

## Main results

* `alternates_within_budget` : the alternates of every run whose calls meet the condition.
-/

open Foundation

namespace Headroom.PrefixReplay

open PrefixReplayTracker

/-! ### Runs of a tracker -/

/-- What happens to a tracker in memory. An adoption finds it live unless it idled. -/
inductive TrackerCall where
  | updateFromResponse (now cacheReadTokens cacheWriteTokens : ℕ) (forwarded : List Json)
      (originalMessages : Option (List Json)) (forwardedSystemHash : String)
  | installAdopted (now : ℕ) (adopted : AdoptedPrefix) (idle : Bool)
  | invalidate

/-- Whether an adopted prefix joins the tracker, which is live and holds something. -/
def joins (t : PrefixReplayTracker) (idle : Bool) : Bool :=
  !idle && !t.lastForwardedMessages.isEmpty

namespace TrackerCall

/-- The tracker after a call. -/
def apply (t : PrefixReplayTracker) : TrackerCall → PrefixReplayTracker
  | .updateFromResponse now read write forwarded originalMessages hash =>
    t.updateFromResponse now read write forwarded originalMessages hash
  | .installAdopted now adopted idle =>
    if joins t idle then adopted.joinTracker now t else adopted.seed now
  | .invalidate => t.invalidate

end TrackerCall

/-- A tracker from its start, new, restored from a file or seeded by an adoption, through calls
that each meet a condition. Hydration leaves a tracker in memory as it is. -/
inductive TrackerRun (C : PrefixReplayTracker → TrackerCall → Prop) : PrefixReplayTracker → Prop
  | fresh (now : ℕ) : TrackerRun C (.fresh now)
  | restore (p : PersistedPrefix) (now : ℕ) : TrackerRun C (p.restore now)
  | seed (adopted : AdoptedPrefix) (now : ℕ) : TrackerRun C (adopted.seed now)
  | call {t : PrefixReplayTracker} (c : TrackerCall) (hrun : TrackerRun C t) (hc : C t c) :
      TrackerRun C (c.apply t)

/-! ### The budget -/

/-- The messages a held prefix counts for. -/
def heldSize (h : HeldPrefix) : ℕ := h.originals.length

/-- The alternates are within both bounds; a single one may exceed the bound on messages. -/
def WithinCaps (alternates : List HeldPrefix) : Prop :=
  Budget.Within heldSize maxAlternatePrefixes maxAlternateMessages alternates

/-- The prefix leads the turn that is recorded, and is replaced by it. -/
def continuedBy (incoming : List Json) (h : HeldPrefix) : Bool :=
  matchesCanonicalPrefix h.originals (canonicalizeSlice (storedOriginals incoming))

/-- The alternates with an adopted prefix in front, without its exact copies, before the cut. -/
def withAdopted (t : PrefixReplayTracker) (adopted : AdoptedPrefix) : List HeldPrefix :=
  ⟨t.nextChainId, adopted.originals, adopted.forwarded, adopted.forwardedSystemHash⟩ ::
    t.alternates.filter fun h => !sameMessages h.originals adopted.originals

/-- The turn displaces the most recent prefix. -/
def displacedBy (t : PrefixReplayTracker) (incoming : List Json) : Bool :=
  t.displaces (canonicalizeSlice (storedOriginals incoming))

namespace TrackerCall

/-- The alternates that a call would hold without the bounds: a prefix that the turn continues and
an exact copy of the incoming one are replaced. -/
def candidates (t : PrefixReplayTracker) : TrackerCall → List HeldPrefix
  | .updateFromResponse _ _ _ forwarded originalMessages _ =>
    (if displacedBy t (originalMessages.getD forwarded) then t.withDisplaced
      else t.alternates).filter fun h => !continuedBy (originalMessages.getD forwarded) h
  | .installAdopted _ adopted idle => if joins t idle then withAdopted t adopted else t.alternates
  | .invalidate => t.alternates

/-- Each prefix of `others` is too large to take the place of a smaller kept one. -/
def TooLarge (kept others : List HeldPrefix) : Prop :=
  ∀ x ∈ others, ∀ y ∈ kept, heldSize y < heldSize x →
    2 ≤ kept.length ∧ maxAlternateMessages + heldSize y < Budget.weight heldSize kept + heldSize x

/-- When a call spends the budget well. A turn that displaces the most recent prefix does when no
prefix it continues takes room in the pass, or when what the pass drops is too large anyhow. An
adoption into a live tracker does when the list it cuts is within the bound on messages and what it
cuts off is too large. -/
def Meets (t : PrefixReplayTracker) : TrackerCall → Prop
  | .updateFromResponse _ _ _ forwarded originalMessages _ =>
    let incoming := originalMessages.getD forwarded
    displacedBy t incoming = true →
      (∃ h ∈ trimAlternates t.withDisplaced, continuedBy incoming h = true) →
      TooLarge ((trimAlternates t.withDisplaced).filter fun h => !continuedBy incoming h)
        ((Budget.dropped heldSize maxAlternatePrefixes maxAlternateMessages
          t.withDisplaced).filter fun h => !continuedBy incoming h)
  | .installAdopted _ adopted idle =>
    joins t idle = true →
      ((withAdopted t adopted).length ≤ 1 ∨
        Budget.weight heldSize ((withAdopted t adopted).take maxAlternatePrefixes) ≤
          maxAlternateMessages) ∧
      TooLarge ((withAdopted t adopted).take maxAlternatePrefixes)
        ((withAdopted t adopted).drop maxAlternatePrefixes)
  | .invalidate => True

/-- After a call the alternates are within the bounds, and the call dropped none where it could
have dropped a strictly smaller one that it kept. -/
def SpendsWell (t : PrefixReplayTracker) (c : TrackerCall) : Prop :=
  WithinCaps (c.apply t).alternates ∧
    Budget.Fair heldSize maxAlternatePrefixes maxAlternateMessages (c.candidates t)
      (c.apply t).alternates

end TrackerCall

section

variable {t : PrefixReplayTracker}

theorem withinCaps_nil : WithinCaps [] := ⟨Nat.zero_le _, Or.inl (Nat.zero_le _)⟩

theorem apply_install_of_joins {now : ℕ} {adopted : AdoptedPrefix} {idle : Bool}
    (h : joins t idle = true) :
    TrackerCall.apply t (.installAdopted now adopted idle) = adopted.joinTracker now t :=
  if_pos h

theorem fair_nil (candidates : List HeldPrefix) :
    Budget.Fair heldSize maxAlternatePrefixes maxAlternateMessages candidates [] :=
  ⟨candidates, List.Perm.refl _, fun _ _ _ hy => absurd hy List.not_mem_nil⟩

theorem apply_update_alternates (now read write : ℕ) (forwarded : List Json)
    (originalMessages : Option (List Json)) (hash : String) :
    (TrackerCall.apply t (.updateFromResponse now read write forwarded originalMessages
      hash)).alternates =
      (if displacedBy t (originalMessages.getD forwarded) then trimAlternates t.withDisplaced
        else t.alternates).filter fun h => !continuedBy (originalMessages.getD forwarded) h := by
  have hsome : TrackerCall.apply t (.updateFromResponse now read write forwarded originalMessages
      hash) = t.updateFromResponse now read write forwarded
        (some (originalMessages.getD forwarded)) hash := rfl
  rw [hsome, updateFromResponse_alternates]
  rfl

theorem spendsWell_update_iff (ht : WithinCaps t.alternates) (now read write : ℕ)
    (forwarded : List Json) (originalMessages : Option (List Json)) (hash : String) :
    TrackerCall.SpendsWell t (.updateFromResponse now read write forwarded originalMessages hash) ↔
      TrackerCall.Meets t
        (.updateFromResponse now read write forwarded originalMessages hash) := by
  simp only [TrackerCall.SpendsWell, TrackerCall.candidates, TrackerCall.Meets,
    apply_update_alternates]
  generalize originalMessages.getD forwarded = incoming
  by_cases hdisplaced : displacedBy t incoming = true
  · simp only [hdisplaced, if_true, true_implies]
    have hpass : WithinCaps (trimAlternates t.withDisplaced) := Budget.within_trim _
    have hkept : WithinCaps ((trimAlternates t.withDisplaced).filter
        fun h => !continuedBy incoming h) := hpass.sublist List.filter_sublist
    have hperm : (((trimAlternates t.withDisplaced).filter fun h => !continuedBy incoming h) ++
        ((Budget.dropped heldSize maxAlternatePrefixes maxAlternateMessages
          t.withDisplaced).filter fun h => !continuedBy incoming h)).Perm
        (t.withDisplaced.filter fun h => !continuedBy incoming h) := by
      rw [← List.filter_append]
      exact (Budget.trim_append_dropped_perm t.withDisplaced).filter _
    refine ⟨fun h _ => (Budget.fair_iff hperm hkept.1).mp h.2, fun hmeets => ⟨hkept, ?_⟩⟩
    rw [Budget.fair_iff hperm hkept.1]
    by_cases hcontinued : ∃ h ∈ trimAlternates t.withDisplaced, continuedBy incoming h = true
    · exact hmeets hcontinued
    · -- Nothing is taken out behind the pass, whose own fairness stands.
      have hall : (trimAlternates t.withDisplaced).filter (fun h => !continuedBy incoming h) =
          trimAlternates t.withDisplaced := by
        rw [List.filter_eq_self]
        intro h hh
        simpa using fun hc => hcontinued ⟨h, hh, hc⟩
      rw [hall]
      intro x hx
      exact (Budget.fair_iff (Budget.trim_append_dropped_perm t.withDisplaced) hpass.1).mp
        (Budget.fair_trim t.withDisplaced) x (List.mem_of_mem_filter hx)
  · have hno : displacedBy t incoming = false := by simpa using hdisplaced
    simp only [hno, Bool.false_eq_true, if_false, false_implies, iff_true]
    have hkept : WithinCaps (t.alternates.filter fun h => !continuedBy incoming h) :=
      ht.sublist List.filter_sublist
    have hperm : ((t.alternates.filter fun h => !continuedBy incoming h) ++ []).Perm
        (t.alternates.filter fun h => !continuedBy incoming h) := by
      rw [List.append_nil]
    exact ⟨hkept, (Budget.fair_iff hperm hkept.1).mpr fun x hx => absurd hx List.not_mem_nil⟩

theorem spendsWell_install_iff (now : ℕ) (adopted : AdoptedPrefix) (idle : Bool) :
    TrackerCall.SpendsWell t (.installAdopted now adopted idle) ↔
      TrackerCall.Meets t (.installAdopted now adopted idle) := by
  simp only [TrackerCall.SpendsWell, TrackerCall.candidates, TrackerCall.Meets, TrackerCall.apply]
  by_cases hjoins : joins t idle = true
  · simp only [hjoins, if_true, true_implies]
    have hkept : (adopted.joinTracker now t).alternates =
        (withAdopted t adopted).take maxAlternatePrefixes := rfl
    have hcount : ((withAdopted t adopted).take maxAlternatePrefixes).length ≤
        maxAlternatePrefixes := List.length_take_le _ _
    have hperm : ((withAdopted t adopted).take maxAlternatePrefixes ++
        (withAdopted t adopted).drop maxAlternatePrefixes).Perm (withAdopted t adopted) := by
      rw [List.take_append_drop]
    rw [hkept, Budget.fair_iff hperm hcount]
    refine and_congr ?_ Iff.rfl
    simp only [WithinCaps, Budget.Within, hcount, true_and]
    rw [List.length_take, min_le_iff]
    refine or_congr ⟨fun h => h.resolve_left (by decide), Or.inr⟩ Iff.rfl
  · have hno : joins t idle = false := by simpa using hjoins
    simp only [hno, Bool.false_eq_true, if_false, false_implies, iff_true]
    exact ⟨withinCaps_nil, fair_nil _⟩

theorem spendsWell_iff (ht : WithinCaps t.alternates) (c : TrackerCall) :
    c.SpendsWell t ↔ c.Meets t := by
  cases c with
  | updateFromResponse now read write forwarded originalMessages hash =>
    exact spendsWell_update_iff ht now read write forwarded originalMessages hash
  | installAdopted now adopted idle => exact spendsWell_install_iff now adopted idle
  | invalidate => exact iff_of_true ⟨withinCaps_nil, fair_nil _⟩ trivial

/-- In every run whose calls meet the condition the alternates stay within their bounds, and the
next call keeps them so without a needless drop exactly when it meets the condition. -/
theorem alternates_within_budget (hrun : TrackerRun (fun t c => c.Meets t) t) :
    WithinCaps t.alternates ∧ ∀ c : TrackerCall, c.SpendsWell t ↔ c.Meets t := by
  have hcaps : WithinCaps t.alternates := by
    induction hrun with
    | fresh now => exact withinCaps_nil
    | restore p now => exact withinCaps_nil
    | seed adopted now => exact withinCaps_nil
    | call c hrun hc ih => exact ((spendsWell_iff ih c).mpr hc).1
  exact ⟨hcaps, spendsWell_iff hcaps⟩

end

/-! ### A budget exceeded by adoption -/

/-- An adopted prefix of `n` copies of one message. -/
def repeatedAdopted (n : ℕ) (text : String) : AdoptedPrefix where
  originals := List.replicate n (plainMessage "user" text)
  forwarded := List.replicate n (plainMessage "user" text)
  forwardedSystemHash := "d"
  cachedTokenCount := 2000
  cachedMessageCount := n
  turnNumber := 1
  donor := .session "donor"
  age := 0

/-- The adoption of a first alternate meets the condition. -/
theorem alternates_within_budget_adopted :
    WithinCaps (TrackerCall.apply ((repeatedAdopted 10 "a").seed 0)
      (.installAdopted 0 (repeatedAdopted 4000 "b") false)).alternates := by
  refine (alternates_within_budget (.call _ (.seed (repeatedAdopted 10 "a") 0) ?_)).1
  refine fun _ => ⟨Or.inl (Nat.le_refl 1), fun x hx => ?_⟩
  exact absurd hx (by simp [withAdopted, AdoptedPrefix.seed, maxAlternatePrefixes])

theorem sizes_adopted_twice {k m n : ℕ} (hk : k ≠ 0) (hne : n ≠ m) :
    (TrackerCall.apply (TrackerCall.apply ((repeatedAdopted k "a").seed 0)
      (.installAdopted 0 (repeatedAdopted m "b") false))
      (.installAdopted 0 (repeatedAdopted n "c") false)).alternates.map heldSize = [n, m] := by
  have hjoins : ∀ t : PrefixReplayTracker, t.lastForwardedMessages = (repeatedAdopted k "a").forwarded →
      joins t false = true := by
    intro t ht
    simp [joins, ht, repeatedAdopted, hk]
  have hdistinct : sameMessages (repeatedAdopted m "b").originals
      (repeatedAdopted n "c").originals = false := by
    refine decide_eq_false fun h => hne ?_
    have := congrArg List.length h
    simpa [repeatedAdopted] using this.symm
  rw [apply_install_of_joins (hjoins ((repeatedAdopted k "a").seed 0) rfl),
    apply_install_of_joins (hjoins _ rfl)]
  simp only [AdoptedPrefix.joinTracker, AdoptedPrefix.seed, List.filter_nil, maxAlternatePrefixes,
    List.take_succ_cons, List.take_nil, List.filter_cons, hdistinct, Bool.not_false, if_true,
    List.map_cons, List.map_nil, heldSize]
  simp [repeatedAdopted]

/-- A session that adopted a prefix of 4000 messages adopts one of 10 more, and holds 4010. -/
theorem alternates_exceed_budget :
    let t := TrackerCall.apply (TrackerCall.apply ((repeatedAdopted 10 "a").seed 0)
      (.installAdopted 0 (repeatedAdopted 4000 "b") false))
      (.installAdopted 0 (repeatedAdopted 10 "c") false)
    TrackerRun (fun _ _ => True) t ∧ ¬ WithinCaps t.alternates := by
  intro t
  have hsizes : t.alternates.map heldSize = [10, 4000] :=
    sizes_adopted_twice (by decide) (by decide)
  refine ⟨.call _ (.call _ (.seed (repeatedAdopted 10 "a") 0) trivial) trivial, ?_⟩
  have hlength := congrArg List.length hsizes
  rw [List.length_map] at hlength
  rintro ⟨-, h | h⟩
  · rw [hlength] at h
    exact absurd h (by decide)
  · rw [Budget.weight, hsizes] at h
    exact absurd h (by decide)

end Headroom.PrefixReplay
