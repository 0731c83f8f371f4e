import Headroom.PrefixReplay.Runs

/-!
# The system gate

A prefix is recorded with the digest of the system it went out under. The search for the prefix of
a turn passes over those of another system; when nothing held continues the turn the most recent
prefix is handed back whatever its system, with chain id 0. The overlay replays nothing of such a
prefix where it diverges, but all of it where it covers the turn once the scaffolding that the
client withdrew is stepped over. A turn crosses systems in that case and in no other.

## Main results

* `takenFrom_same_system_iff` : the turns that stay within their system.
-/

open Foundation

namespace Headroom.PrefixReplay

open SessionReplayStore

/-! ### The turn -/

/-- What the replay of a turn is given: the client's messages, the pipeline's output, the digest of
its system, the floor confirmed for it, and whether it is an Anthropic request. -/
structure ReplayedTurn where
  clock : Clock
  key : String
  originals : List Json
  optimized : List Json
  systemHash : String
  confirmedFrozenCount : ℕ
  anthropicMessages : Bool

section

variable (sha256 : String → String) (s : SessionReplayStore) (turn : ReplayedTurn)

/-- The output of a turn: the overlay on the store's answer under the turn's system. -/
def SessionReplayStore.replayPrefix : List Json × Option ReplaySkip :=
  overlayTurn
    (s.previousTurnFor sha256 turn.clock turn.key turn.originals (some turn.systemHash)).1
    turn.optimized turn.originals (some turn.confirmedFrozenCount) turn.anthropicMessages

/-- The live tracker that answers a turn, after hydration and adoption. -/
def SessionReplayStore.answeringTracker (clock : Clock) (key : String)
    (currentOriginals : List Json) (hash : Option String) : Option PrefixReplayTracker :=
  let s := (s.hydrateOrAdopt sha256 clock key currentOriginals
    (canonicalizeSlice currentOriginals) hash).2
  (s.trackers.peek key).filter fun tracker => !s.idle clock tracker

/-- The lookup of a turn in the tracker that answers it. -/
def ReplayedTurn.lookup (tracker : PrefixReplayTracker) : Except PrefixMiss Lookup :=
  PrefixReplay.lookup tracker (canonicalizeSlice turn.originals) (some turn.systemHash)

/-- How many stored messages the output takes under an answer, and where its own resume. -/
def ReplayedTurn.span (l : Lookup) : ℕ × ℕ :=
  overlaySpan turn.optimized turn.originals l.source.originals l.source.forwarded
    (l.chainId ≠ 0) (some turn.confirmedFrozenCount) turn.anthropicMessages

/-- The output of a turn takes messages from the forwarded slice of a held prefix. -/
def TakenFrom (h : HeldPrefix) : Prop :=
  ∃ tracker l, s.answeringTracker sha256 turn.clock turn.key turn.originals
    (some turn.systemHash) = some tracker ∧
  turn.lookup tracker = .ok l ∧ l.source = h ∧ 0 < (turn.span l).1

end

/-! ### The answer -/

section

variable {sha256 : String → String} {s : SessionReplayStore} {turn : ReplayedTurn}

/-- The store answers a turn by the lookup in the live tracker, if there is one. -/
theorem previousTurnFor_of_answering {clock : Clock} {key : String} {originals : List Json}
    {hash : Option String} {tracker : PrefixReplayTracker}
    (h : s.answeringTracker sha256 clock key originals hash = some tracker) :
    (s.previousTurnFor sha256 clock key originals hash).1 =
      (PrefixReplay.lookup tracker (canonicalizeSlice originals) hash).map fun l =>
        (l.source.originals, l.source.forwarded, l.chainId) := by
  obtain ⟨hpeek, hlive⟩ := Option.filter_eq_some_iff.mp h
  rw [previousTurnFor_fst, hpeek]
  simp only [Bool.not_eq_true'] at hlive
  simp only [hlive, Bool.false_eq_true, if_false]

theorem overlaySpan_of_isEmpty {optimized current prevOrig prevFwd : List Json} {chain : Bool}
    {floor : Option ℕ} {anthropic : Bool} (h : prevFwd = []) :
    overlaySpan optimized current prevOrig prevFwd chain floor anthropic = (0, 0) := by
  simp [overlaySpan, wantedSpan, h]

end

/-! ### The prefix of a stranger -/

/-- The overlay replays messages of a prefix that covers the turn up to `consumed`: the counts fit,
the floor holds some of them or they do not inflate the output, and no `system` message gets out of
place. -/
structure ReplaysCovered (optimized current prevOrig prevFwd : List Json) (floor : ℕ)
    (anthropic : Bool) (consumed : ℕ) : Prop where
  count : prevOrig.length ≤ prevFwd.length
  emitted : optimized.length < prevOrig.length ∨ current.length ≤ optimized.length
  covered : consumed ≤ optimized.length
  bounded : floor ≠ 0 ∨ optimized = [] ∨
    replayWithinBound (prevFwd ++ optimized.drop consumed) optimized = true
  adjacent : anthropic = true → ∀ k m,
    alignedSpan optimized prevOrig prevFwd consumed (some floor) = (k, m) →
      firstIllegalSystemPosition (prevFwd.take k ++ optimized.drop m) = none

/-- A covered turn takes stored messages when the floor holds some of them or they do not inflate
the output. -/
theorem alignedSpan_pos_iff {optimized prevOrig prevFwd : List Json} {consumed floor : ℕ}
    (hne : prevFwd ≠ []) :
    0 < (alignedSpan optimized prevOrig prevFwd consumed (some floor)).1 ↔
      (floor ≠ 0 ∨ optimized = [] ∨
        replayWithinBound (prevFwd ++ optimized.drop consumed) optimized = true) := by
  have hpos : 0 < prevFwd.length := List.length_pos_of_ne_nil hne
  simp only [alignedSpan, alignedReplay, splitInflatedReplayAtFloor]
  split_ifs with hfloor hempty hbound hzero hshift
  · exact iff_of_true hpos (Or.inl (by omega))
  · refine iff_of_true hpos (Or.inr (Or.inl ?_))
    simpa [hne] using hempty
  · exact iff_of_true hpos (Or.inr (Or.inr hbound))
  · refine iff_of_false (Nat.lt_irrefl 0) ?_
    simp only [Bool.or_eq_true, List.isEmpty_iff, not_or] at hempty
    exact fun h => h.elim (fun h => h (by omega)) fun h => h.elim hempty.2 hbound
  · exact iff_of_true hpos (Or.inl (by omega))
  · simp only [Bool.or_eq_true, List.isEmpty_iff, not_or] at hempty
    have : 0 < optimized.length := List.length_pos_of_ne_nil hempty.2
    refine iff_of_true ?_ (Or.inl (by omega))
    simp only [Option.getD_some]
    omega

/-- The overlay takes messages of a prefix that is not of the turn's chain when that prefix covers
the turn, and never where the two diverge. -/
theorem overlaySpan_stranger_pos_iff {optimized current prevOrig prevFwd : List Json} {floor : ℕ}
    {anthropic : Bool} (horig : prevOrig ≠ []) (hfwd : prevFwd ≠ []) :
    0 < (overlaySpan optimized current prevOrig prevFwd false (some floor) anthropic).1 ↔
      ∃ consumed, alignOverWithdrawnScaffolding prevOrig current = some consumed ∧
        ReplaysCovered optimized current prevOrig prevFwd floor anthropic consumed := by
  have hguard : (!prevOrig.isEmpty && !prevFwd.isEmpty) = true := by simp [horig, hfwd]
  cases halign : alignOverWithdrawnScaffolding prevOrig current with
  | none =>
    refine iff_of_false ?_ (fun ⟨_, h, _⟩ => nomatch h)
    have hshape := overlaySpan_shape optimized current prevOrig prevFwd false (some floor) anthropic
    generalize overlaySpan optimized current prevOrig prevFwd false (some floor) anthropic = span
      at hshape
    cases hshape with
    | fresh => exact Nat.lt_irrefl 0
    | whole h => rw [halign] at h; cases h
    | diverged _ hchain => cases hchain
    | floor h => rw [halign] at h; cases h
  | some consumed =>
    simp only [Option.some.injEq, exists_eq_left', overlaySpan, wantedSpan, hguard, if_true, halign]
    by_cases hcount : prevFwd.length < prevOrig.length
    · simp only [hcount, if_true, ite_self, Nat.lt_irrefl, false_iff]
      exact fun h => absurd h.count (Nat.not_le.mpr hcount)
    by_cases hemitted : optimized.length ≥ prevOrig.length ∧ optimized.length < current.length
    · simp only [hcount, hemitted, and_self, if_true, ite_self, Nat.lt_irrefl, false_iff]
      intro h
      have := h.emitted
      omega
    by_cases hcovered : optimized.length < consumed
    · simp only [hcount, hemitted, hcovered, if_true, ite_self, Nat.lt_irrefl, false_iff]
      exact fun h => absurd h.covered (Nat.not_le.mpr hcovered)
    simp only [hcount, hemitted, hcovered, if_false]
    constructor
    · intro hpos
      split_ifs at hpos with hnet
      · exact absurd hpos (Nat.lt_irrefl 0)
      · refine ⟨by omega, by omega, by omega, (alignedSpan_pos_iff hfwd).mp hpos, ?_⟩
        rintro rfl k m hspan
        simpa [hspan] using hnet
    · intro h
      split_ifs with hnet
      · simp only [Bool.and_eq_true, Option.isSome_iff_ne_none] at hnet
        exact absurd (h.adjacent hnet.1 _ _ rfl) hnet.2
      · exact (alignedSpan_pos_iff hfwd).mpr h.bounded

/-- The most recent prefix is of another system, nothing held continues the turn under any system,
and the most recent prefix covers the turn nevertheless, over scaffolding the client withdrew. -/
structure CoversStranger (tracker : PrefixReplayTracker) (turn : ReplayedTurn) : Prop where
  system : tracker.lastForwardedSystemHash ≠ turn.systemHash
  originals : tracker.lastOriginalMessages ≠ []
  forwarded : tracker.lastForwardedMessages ≠ []
  leads : ∀ h ∈ tracker.held,
    leadsTurn (canonicalizeSlice turn.originals) (fun _ => true) h = false
  edits : ∀ h ∈ tracker.held,
    editsTail (canonicalizeSlice turn.originals) (fun _ => true) h = false
  covers : ∃ consumed,
    alignOverWithdrawnScaffolding tracker.lastOriginalMessages turn.originals = some consumed ∧
    ReplaysCovered turn.optimized turn.originals tracker.lastOriginalMessages
      tracker.lastForwardedMessages turn.confirmedFrozenCount turn.anthropicMessages consumed

section

variable {t : PrefixReplayTracker} {turn : ReplayedTurn} {l : Lookup}

theorem systemHash_of_pick {canonicalCurrent : List Json} {d : String} {h : HeldPrefix}
    (hpick : pickReplayCandidate t canonicalCurrent (systemOk (some d)) = some h) :
    h.systemHash = d := by
  have hok : systemOk (some d) h.systemHash = true := by
    rcases pickReplayCandidate_spec hpick with ⟨-, hlead, -⟩ | ⟨-, hedit, -⟩
    · simp only [leadsTurn, Bool.and_eq_true] at hlead
      exact hlead.2
    · simp only [editsTail, Bool.and_eq_true] at hedit
      exact hedit.2
  simpa [systemOk] using hok

theorem pick_eq_none_of_any {canonicalCurrent : List Json} {ok : String → Bool}
    (h : pickReplayCandidate t canonicalCurrent (fun _ => true) = none) :
    pickReplayCandidate t canonicalCurrent ok = none := by
  rw [pickReplayCandidate_eq_none] at h ⊢
  intro x hx
  obtain ⟨hlead, hedit⟩ := h x hx
  simp only [leadsTurn, Bool.and_true] at hlead
  simp only [editsTail, Bool.and_true] at hedit
  exact ⟨by simp only [leadsTurn, hlead, Bool.false_and],
    by simp only [editsTail, hedit, Bool.false_and]⟩

/-- A turn under which the most recent prefix covers as a stranger is answered by it. -/
theorem CoversStranger.lookup (h : CoversStranger t turn) :
    turn.lookup t = .ok ⟨t.primary, 0⟩ := by
  have hany : pickReplayCandidate t (canonicalizeSlice turn.originals) (fun _ => true) = none :=
    pickReplayCandidate_eq_none.mpr fun x hx => ⟨h.leads x hx, h.edits x hx⟩
  have hempty : t.lastForwardedMessages.isEmpty = false :=
    List.isEmpty_eq_false_iff.mpr h.forwarded
  simp only [ReplayedTurn.lookup, PrefixReplay.lookup, pick_eq_none_of_any hany, hempty,
    Bool.false_and, Bool.false_eq_true, if_false, Option.isSome_none, Bool.and_false]

/-- A turn takes messages recorded under another system exactly when the most recent prefix covers
it as a stranger. -/
theorem systemHash_ne_iff (hlookup : turn.lookup t = .ok l) :
    (0 < (turn.span l).1 ∧ l.source.systemHash ≠ turn.systemHash) ↔ CoversStranger t turn := by
  constructor
  · rintro ⟨hpos, hne⟩
    rcases lookup_ok hlookup with ⟨hpick, -⟩ | ⟨-, hfwd, hany, rfl⟩
    · exact absurd (systemHash_of_pick hpick) hne
    · have hany := hany.resolve_left (Option.some_ne_none _)
      rw [pickReplayCandidate_eq_none] at hany
      have horig : t.lastOriginalMessages ≠ [] := by
        intro hnil
        simp [ReplayedTurn.span, overlaySpan, wantedSpan, PrefixReplayTracker.primary, hnil] at hpos
      exact ⟨hne, horig, hfwd, fun h hh => (hany h hh).1, fun h hh => (hany h hh).2,
        (overlaySpan_stranger_pos_iff horig hfwd).mp hpos⟩
  · intro h
    obtain rfl := Except.ok.inj (hlookup.symm.trans h.lookup)
    exact ⟨(overlaySpan_stranger_pos_iff h.originals h.forwarded).mpr h.covers, h.system⟩

end

/-! ### What a run recorded -/

/-- A forwarded slice was recorded under a system: it is a head of what a parked turn forwarded
under it, or of what a file held with it when the store was opened. -/
def RecordedUnder (persistDir : Option (List PersistedFile)) (turns : List PendingTurn)
    (forwarded : List Json) (systemHash : String) : Prop :=
  (∃ turn ∈ turns, forwarded <+: turn.forwardedMessages ∧
    turn.forwardedSystemHash = systemHash) ∨
  ∃ file ∈ persistDir.getD [], ∃ p, file.contents = some p ∧ forwarded <+: p.forwarded ∧
    p.forwardedSystemHash.getD "" = systemHash

section

variable {sha256 : String → String} {persistDir : Option (List PersistedFile)}
  {turns : List PendingTurn} {s : SessionReplayStore} {f g : List Json} {d : String}

theorem RecordedUnder.shorter (h : RecordedUnder persistDir turns f d) (hg : g <+: f) :
    RecordedUnder persistDir turns g d :=
  h.imp (fun ⟨turn, hturn, hf, hd⟩ => ⟨turn, hturn, hg.trans hf, hd⟩)
    fun ⟨file, hfile, p, hp, hf, hd⟩ => ⟨file, hfile, p, hp, hg.trans hf, hd⟩

/-- The slices of a tracker, of a persisted prefix and of an adopted one were recorded under the
digests kept with them, whatever happens to them. -/
theorem respected_recordedUnder (persistDir : Option (List PersistedFile))
    (turns : List PendingTurn) :
    Respected
      (fun t => ∀ h ∈ t.held, h.forwarded ≠ [] →
        RecordedUnder persistDir turns h.forwarded h.systemHash)
      (fun p => p.forwarded ≠ [] →
        RecordedUnder persistDir turns p.forwarded (p.forwardedSystemHash.getD ""))
      (fun turn => turn ∈ turns)
      (fun a => RecordedUnder persistDir turns a.forwarded a.forwardedSystemHash) where
  fresh now h hh hne := by
    rw [List.mem_singleton.mp hh] at hne
    exact absurd rfl hne
  restore p now hp hne h hh _ := by
    rw [mem_held_restore hh]
    exact hp hne
  update t turn now read write ht hturn h hh hne := by
    rcases PrefixReplayTracker.mem_held_updateFromResponse hh with ⟨-, hf, hd⟩ | ⟨hh, -⟩
    · rw [hf, hd]
      exact Or.inl ⟨turn, hturn, storedForwarded_lead _ _, rfl⟩
    · exact ht h hh hne
  invalidate t _ h hh hne := by
    rw [List.mem_singleton.mp hh] at hne
    exact absurd rfl hne
  snapshot clock t headHash ht hne := ht t.primary List.mem_cons_self hne
  adoptHeld a t h ht hh hne ha := by
    obtain ⟨⟨n, -, hf⟩, hd⟩ := ha
    rw [hf, hd]
    exact (ht h hh hne).shorter (List.take_prefix n _)
  adoptFile a p hp hne ha := by
    obtain ⟨⟨n, -, hf⟩, hd⟩ := ha
    rw [hf, hd]
    exact (hp hne).shorter (List.take_prefix n _)
  seed a now ha h hh _ := by
    rw [List.mem_singleton.mp hh]
    exact ha
  join a t now ha ht _ h hh hne := by
    rcases List.mem_cons.mp hh with rfl | hh
    · exact ht t.primary List.mem_cons_self hne
    · rcases List.mem_cons.mp (List.mem_of_mem_take hh) with rfl | hh
      · exact ha
      · exact ht h (List.mem_cons_of_mem _ (List.mem_of_mem_filter hh)) hne

theorem StoreRun.recordedUnder (hrun : StoreRun sha256 persistDir turns s) :
    Satisfies
      (fun t => ∀ h ∈ t.held, h.forwarded ≠ [] →
        RecordedUnder persistDir turns h.forwarded h.systemHash)
      (fun p => p.forwarded ≠ [] →
        RecordedUnder persistDir turns p.forwarded (p.forwardedSystemHash.getD ""))
      (fun turn => turn ∈ turns) s :=
  hrun.satisfies (respected_recordedUnder persistDir turns)
    (fun file hfile p hp _ => Or.inr ⟨file, hfile, p, hp, List.prefix_refl _, rfl⟩)
    fun _ hturn => hturn

theorem StoreRun.recordedUnder_answering (hrun : StoreRun sha256 persistDir turns s)
    {clock : Clock} {key : String} {originals : List Json} {hash : Option String}
    {t : PrefixReplayTracker}
    (ht : s.answeringTracker sha256 clock key originals hash = some t) :
    ∀ h ∈ t.held, h.forwarded ≠ [] → RecordedUnder persistDir turns h.forwarded h.systemHash :=
  (hrun.recordedUnder.hydrateOrAdopt (respected_recordedUnder persistDir turns) clock key
    originals (canonicalizeSlice originals) hash).peek (Option.filter_eq_some_iff.mp ht).1

theorem lookup_source_mem {t : PrefixReplayTracker} {canonicalCurrent : List Json}
    {hash : Option String} {l : Lookup} (h : lookup t canonicalCurrent hash = .ok l) :
    l.source ∈ t.held := by
  rcases lookup_ok h with ⟨hpick, -⟩ | ⟨-, -, -, rfl⟩
  · exact (pickReplayCandidate_spec hpick).elim And.left And.left
  · exact List.mem_cons_self

/-- In every state of every run, the messages that a turn takes from a stored slice were recorded
under the turn's own system, unless the most recent prefix covers the turn as a stranger. -/
theorem takenFrom_same_system_iff (hrun : StoreRun sha256 persistDir turns s)
    (turn : ReplayedTurn) :
    (∀ h, TakenFrom sha256 s turn h →
      RecordedUnder persistDir turns h.forwarded h.systemHash ∧ h.systemHash = turn.systemHash) ↔
    ∀ t, s.answeringTracker sha256 turn.clock turn.key turn.originals (some turn.systemHash) =
      some t → ¬ CoversStranger t turn := by
  constructor
  · intro hall t ht hcovers
    have hspan := (systemHash_ne_iff hcovers.lookup).mpr hcovers
    exact hcovers.system (hall t.primary ⟨t, _, ht, hcovers.lookup, rfl, hspan.1⟩).2
  · rintro hnone h ⟨t, l, ht, hlookup, rfl, hpos⟩
    refine ⟨?_, ?_⟩
    · refine hrun.recordedUnder_answering ht _ (lookup_source_mem hlookup) fun hnil => ?_
      rw [ReplayedTurn.span, overlaySpan_of_isEmpty hnil] at hpos
      exact Nat.lt_irrefl 0 hpos
    · by_contra hne
      exact hnone t ht ((systemHash_ne_iff hlookup).mp ⟨hpos, hne⟩)

end

/-! ### A prefix of another system -/

/-- A turn of plain messages parked for a session under a system. -/
def plainParked (key systemHash : String) (messages : List (String × String)) : PendingTurn where
  sessionKey := key
  originalMessages := messages.map fun m => plainMessage m.1 m.2
  forwardedMessages := messages.map fun m => plainMessage m.1 m.2
  forwardedSystemHash := systemHash

/-- The replay of a turn of plain messages that the pipeline leaves alone. -/
def plainReplayed (key systemHash : String) (floor : ℕ) (messages : List (String × String)) :
    ReplayedTurn where
  clock := ⟨0, 0⟩
  key := key
  originals := messages.map fun m => plainMessage m.1 m.2
  optimized := messages.map fun m => plainMessage m.1 m.2
  systemHash := systemHash
  confirmedFrozenCount := floor
  anthropicMessages := true

/-- A first turn, under the system `d`, with a `system` message early in it. -/
def noticeParked : PendingTurn :=
  plainParked "k" "d" [("user", "a"), ("system", "x"), ("user", "b")]

/-- The store after that turn completed. -/
def noticeStore : SessionReplayStore :=
  StoreCall.apply id ⟨0, 0⟩ (StoreCall.apply id ⟨0, 0⟩ (.new 1 Nat.one_pos none)
    (.beginRequest "1" noticeParked)) (.complete "1" 2000 0)

theorem noticeStore_run : StoreRun id none [noticeParked] noticeStore :=
  .call _ (.complete "1" 2000 0) (.call _ (.beginRequest "1" noticeParked) (.opened 1 Nat.one_pos))

theorem exists_takenFrom {sha256 : String → String} {s : SessionReplayStore} {turn : ReplayedTurn}
    (p : HeldPrefix → Bool)
    (h : ((s.answeringTracker sha256 turn.clock turn.key turn.originals
      (some turn.systemHash)).any fun t => (turn.lookup t).toOption.any fun l =>
        decide (0 < (turn.span l).1) && p l.source) = true) :
    ∃ h, TakenFrom sha256 s turn h ∧ p h = true := by
  obtain ⟨t, ht, hfound⟩ := (Option.any_eq_true _ _).mp h
  cases hlookup : turn.lookup t with
  | error miss => simp [hlookup, Except.toOption] at hfound
  | ok l =>
    obtain ⟨hpos, hp⟩ : 0 < (turn.span l).1 ∧ p l.source = true := by
      simpa [hlookup, Except.toOption] using hfound
    exact ⟨l.source, ⟨t, l, ht, hlookup, rfl, hpos⟩, hp⟩

/-- The next turn under the same system replays messages recorded under it. -/
theorem takenFrom_same_system_notice :
    ∃ h, TakenFrom id noticeStore (plainReplayed "k" "d" 3
      [("user", "a"), ("user", "b"), ("assistant", "c")]) h ∧
      RecordedUnder none [noticeParked] h.forwarded h.systemHash ∧ h.systemHash = "d" := by
  let turn := plainReplayed "k" "d" 3 [("user", "a"), ("user", "b"), ("assistant", "c")]
  have hall : ((noticeStore.answeringTracker id turn.clock turn.key turn.originals
        (some turn.systemHash)).all fun t => t.lastForwardedSystemHash == "d") = true ∧
      ((noticeStore.answeringTracker id turn.clock turn.key turn.originals
        (some turn.systemHash)).any fun t => (turn.lookup t).toOption.any fun l =>
          decide (0 < (turn.span l).1) && true) = true := by
    decide +kernel
  obtain ⟨h, htaken, -⟩ := exists_takenFrom (fun _ => true) hall.2
  refine ⟨h, htaken, (takenFrom_same_system_iff noticeStore_run turn).mpr (fun t ht hcovers => ?_)
    h htaken⟩
  have hsame := hall.1
  rw [ht] at hsame
  exact hcovers.system (beq_iff_eq.mp hsame)

/-- With the `system` message withdrawn and the system changed, the next turn continues nothing and
still replays what went out under the first system. -/
theorem takenFrom_other_system :
    StoreRun id none [noticeParked] noticeStore ∧
      ¬ ∀ h, TakenFrom id noticeStore (plainReplayed "k" "e" 3
        [("user", "a"), ("user", "b"), ("assistant", "c")]) h →
        RecordedUnder none [noticeParked] h.forwarded h.systemHash ∧ h.systemHash = "e" := by
  refine ⟨noticeStore_run, fun hall => ?_⟩
  have hfound : ∃ h, TakenFrom id noticeStore (plainReplayed "k" "e" 3
      [("user", "a"), ("user", "b"), ("assistant", "c")]) h ∧ (h.systemHash != "e") = true :=
    exists_takenFrom _ (by decide +kernel)
  obtain ⟨h, htaken, hother⟩ := hfound
  exact bne_iff_ne.mp hother (hall h htaken).2

end Headroom.PrefixReplay
