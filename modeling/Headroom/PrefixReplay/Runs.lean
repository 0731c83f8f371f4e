import Headroom.PrefixReplay.Session

/-!
# Runs of store calls

Whatever sessions a store serves, each prefix it holds came in one of four ways: with a completed
turn, from a file, by adoption from another prefix, or it was there before. A property of trackers,
of persisted prefixes and of parked turns that these four ways respect holds in every state of
every run.
-/

open Foundation

namespace Headroom.PrefixReplay

open SessionReplayStore

/-! ### Runs -/

/-- A call of the store. -/
inductive StoreCall where
  | previousTurnFor (key : String) (currentOriginals : List Json)
      (currentSystemHash : Option String)
  | historyWillBeRewritten (key : String) (incomingOriginal : List Json)
  | confirmedFrozenCount (key : String)
  | invalidate (key : String)
  | beginRequest (requestId : String) (turn : PendingTurn)
  | complete (requestId : String) (cacheReadTokens cacheWriteTokens : ℕ)

/-- The store after a call. -/
def StoreCall.apply (sha256 : String → String) (clock : Clock) (s : SessionReplayStore) :
    StoreCall → SessionReplayStore
  | .previousTurnFor key currentOriginals hash =>
    (s.previousTurnFor sha256 clock key currentOriginals hash).2
  | .historyWillBeRewritten key incomingOriginal =>
    (s.historyWillBeRewritten sha256 clock key incomingOriginal).2
  | .confirmedFrozenCount key => (s.confirmedFrozenCount sha256 clock key).2
  | .invalidate key => s.invalidate key
  | .beginRequest requestId turn =>
    s.beginRequest requestId turn.sessionKey turn.originalMessages turn.forwardedMessages
      turn.forwardedSystemHash
  | .complete requestId read write => s.complete sha256 clock requestId read write

/-- The turns that a call parks. -/
def StoreCall.parked : StoreCall → List PendingTurn
  | .beginRequest _ turn => [turn]
  | _ => []

/-- A store opened on a persist directory, or on none, after any sequence of calls at any times,
with the turns parked so far. -/
inductive StoreRun (sha256 : String → String) (persistDir : Option (List PersistedFile)) :
    List PendingTurn → SessionReplayStore → Prop
  | opened (capacity : ℕ) (h : 0 < capacity) :
      StoreRun sha256 persistDir [] (.new capacity h persistDir)
  | call {turns : List PendingTurn} {s : SessionReplayStore} (clock : Clock) (c : StoreCall)
      (hrun : StoreRun sha256 persistDir turns s) :
      StoreRun sha256 persistDir (c.parked ++ turns) (c.apply sha256 clock s)

/-! ### Respected properties -/

/-- An adopted slice is a head of a prefix. -/
structure AdoptedPrefix.HeadOf (a : AdoptedPrefix) (originals forwarded : List Json)
    (systemHash : String) : Prop where
  head : ∃ n, a.originals = originals.take n ∧ a.forwarded = forwarded.take n
  systemHash : a.forwardedSystemHash = systemHash

/-- The property `T` of trackers is kept by all that happens to a tracker, given the property `F`
of persisted prefixes, `Q` of parked turns and `A` of adopted prefixes. -/
structure Respected (T : PrefixReplayTracker → Prop) (F : PersistedPrefix → Prop)
    (Q : PendingTurn → Prop) (A : AdoptedPrefix → Prop) : Prop where
  fresh : ∀ now, T (.fresh now)
  restore : ∀ p now, F p → p.forwarded ≠ [] → T (p.restore now)
  update : ∀ t turn now read write, T t → Q turn →
    T (t.updateFromResponse now read write turn.forwardedMessages (some turn.originalMessages)
      turn.forwardedSystemHash)
  invalidate : ∀ t, T t → T t.invalidate
  snapshot : ∀ clock t headHash, T t → F (snapshotOf clock t headHash)
  adoptHeld : ∀ a t h, T t → h ∈ t.held → h.forwarded ≠ [] →
    a.HeadOf h.originals h.forwarded h.systemHash → A a
  adoptFile : ∀ a p, F p → p.forwarded ≠ [] →
    a.HeadOf p.originals p.forwarded (p.forwardedSystemHash.getD "") → A a
  seed : ∀ a now, A a → T (a.seed now)
  join : ∀ a t now, A a → T t → t.lastForwardedMessages ≠ [] → T (a.joinTracker now t)

/-- All trackers, files and parked turns of a store have a property. -/
structure Satisfies (T : PrefixReplayTracker → Prop) (F : PersistedPrefix → Prop)
    (Q : PendingTurn → Prop) (s : SessionReplayStore) : Prop where
  trackers : ∀ e ∈ s.trackers.entries, T e.2
  files : ∀ f ∈ s.persistDir.getD [], ∀ p, f.contents = some p → F p
  pending : ∀ e ∈ s.pending.entries, Q e.2

variable {sha256 : String → String} {s : SessionReplayStore}
  {T T' : PrefixReplayTracker → Prop} {F F' : PersistedPrefix → Prop}
  {Q Q' : PendingTurn → Prop} {A : AdoptedPrefix → Prop}

namespace Satisfies

variable {key : String} {t : PrefixReplayTracker}

theorem peek (h : Satisfies T F Q s) (ht : s.trackers.peek key = some t) : T t :=
  h.trackers _ ((s.trackers.peek_eq_some_iff key t).mp ht)

/-- A store that differs in its trackers has the property when every tracker does. -/
theorem of_trackers (h : Satisfies T F Q s) {s' : SessionReplayStore}
    (htrackers : ∀ e ∈ s'.trackers.entries, T e.2) (hdir : s'.persistDir = s.persistDir)
    (hpending : s'.pending = s.pending) : Satisfies T F Q s' where
  trackers := htrackers
  files := fun f hf => h.files f (hdir ▸ hf)
  pending := fun e he => h.pending e (hpending ▸ he)

theorem of_put (h : Satisfies T F Q s) (key : String) (ht : T t)
    {s' : SessionReplayStore} (htrackers : s'.trackers = s.trackers.put key t)
    (hdir : s'.persistDir = s.persistDir) (hpending : s'.pending = s.pending) :
    Satisfies T F Q s' := by
  refine h.of_trackers (fun e he => ?_) hdir hpending
  rw [htrackers] at he
  rcases Lru.mem_put he with rfl | ⟨he, -⟩
  · exact ht
  · exact h.trackers e he

theorem hydrate (h : Satisfies T F Q s) (hr : Respected T F Q A) (clock : Clock) (key : String) :
    Satisfies T F Q (s.hydrate sha256 clock key) := by
  rcases s.hydrate_cases sha256 clock key with heq | ⟨-, file, p, hfile, hp, hne, ht, hpd, hd, -⟩
  · rwa [heq]
  · exact h.of_put key (hr.restore p clock.instant (h.files file hfile p hp) hne) ht hd hpd

/-! ### Adoption -/

variable {a : AdoptedPrefix}

theorem better_cases {best candidate : Option AdoptedPrefix}
    (h : better best candidate = some a) : best = some a ∨ candidate = some a := by
  cases candidate with
  | none => exact Or.inl h
  | some c =>
    simp only [better] at h
    split_ifs at h
    · exact Or.inr h
    · exact Or.inl h

variable {canonicalCurrent : List Json}

theorem forwarded_ne_nil_of_adoptableLen {originals forwarded canonicalCurrent : List Json}
    {n : ℕ} (h : adoptableLen originals forwarded canonicalCurrent = some n) :
    forwarded ≠ [] := by
  rintro rfl
  simp [adoptableLen] at h

theorem adoptableFrom_mem {n : ℕ}
    {h : HeldPrefix} (hfrom : adoptableFrom t canonicalCurrent = some (n, h)) :
    h ∈ t.held ∧ h.forwarded ≠ [] := by
  obtain ⟨h', hmem, hmap⟩ := List.mem_filterMap.mp (mem_of_lastMaxBy hfrom)
  obtain ⟨n', hlen, heq⟩ := Option.map_eq_some_iff.mp hmap
  obtain ⟨rfl, rfl⟩ := Prod.mk.inj heq
  exact ⟨hmem, forwarded_ne_nil_of_adoptableLen hlen⟩

variable {clock : Clock} {head : String}

theorem adoptInMemory (h : Satisfies T F Q s) (hr : Respected T F Q A)
    (ha : s.adoptionCandidateInMemory clock key head canonicalCurrent = some a) : A a := by
  simp only [adoptionCandidateInMemory] at ha
  revert ha
  -- The best candidate so far is a head of a held prefix, whatever sessions were looked at.
  generalize ((s.headIndex.lookup head).getD []).filter (fun k => k != key) = keys
  have hnone : ∀ b, (none : Option AdoptedPrefix) = some b → A b :=
    fun b hb => absurd hb (Option.some_ne_none b).symm
  generalize (none : Option AdoptedPrefix) = best at hnone ⊢
  induction keys generalizing best with
  | nil => exact hnone a
  | cons k ks ih =>
    rw [List.foldl_cons]
    refine ih _ fun b hb => ?_
    cases ht : s.trackers.peek k with
    | none => exact hnone b (by simpa only [ht] using hb)
    | some t =>
      simp only [ht] at hb
      split_ifs at hb
      · exact hnone b hb
      · rcases better_cases hb with hb | hb
        · exact hnone b hb
        · obtain ⟨⟨n, x⟩, hfrom, rfl⟩ := Option.map_eq_some_iff.mp hb
          obtain ⟨hx, hne⟩ := adoptableFrom_mem hfrom
          exact hr.adoptHeld _ t x (h.peek ht) hx hne ⟨⟨n, rfl, rfl⟩, rfl⟩

theorem snapshotWithHead_contents {heads : AList fun _ : String => ℕ × Option String} {file : PersistedFile}
    {p : PersistedPrefix} (h : (snapshotWithHead sha256 clock head heads file).1 = some p) :
    file.contents = some p ∧ p.forwarded ≠ [] := by
  have hread : readPersistedPrefixAt clock file = some p := by
    simp only [snapshotWithHead, snapshotWithHead.look] at h
    split at h
    · split_ifs at h with _ hhead hhead
      · exact h
      · exact h
    · split_ifs at h
      exact h
  obtain ⟨hcontents, hfilter⟩ := Option.filter_eq_some_iff.mp hread
  refine ⟨hcontents, ?_⟩
  simp only [Bool.and_eq_true, Bool.not_eq_true', List.isEmpty_eq_false_iff] at hfilter
  exact hfilter.1

theorem adoptOnDisk (h : Satisfies T F Q s) (hr : Respected T F Q A)
    (ha : (s.adoptionCandidateOnDisk sha256 clock key head canonicalCurrent).1 = some a) :
    A a := by
  simp only [adoptionCandidateOnDisk] at ha
  cases hdir : s.persistDir with
  | none => simp [hdir] at ha
  | some files =>
    simp only [hdir] at ha
    have hfiles : ∀ f ∈ files.filter fun f => f.digest != sha256 key,
        ∀ p, f.contents = some p → F p := fun f hf =>
      h.files f (by rw [hdir]; exact List.mem_of_mem_filter hf)
    revert ha hfiles
    generalize files.filter (fun f => f.digest != sha256 key) = others
    generalize s.persistedHeads = heads
    have hnone : ∀ b, (none : Option AdoptedPrefix) = some b → A b :=
      fun b hb => absurd hb (Option.some_ne_none b).symm
    generalize (none : Option AdoptedPrefix) = best at hnone ⊢
    induction others generalizing best heads with
    | nil => exact fun ha _ => hnone a ha
    | cons f fs ih =>
      intro ha hfiles
      rw [List.foldl_cons] at ha
      refine ih _ _ (fun b hb => ?_) ha fun f' hf' => hfiles f' (List.mem_cons_of_mem _ hf')
      rcases better_cases hb with hb | hb
      · exact hnone b hb
      · obtain ⟨p, hp, hcandidate⟩ := Option.bind_eq_some_iff.mp hb
        obtain ⟨hcontents, hne⟩ := snapshotWithHead_contents hp
        obtain ⟨n, -, rfl⟩ := Option.map_eq_some_iff.mp hcandidate
        exact hr.adoptFile _ p (hfiles f List.mem_cons_self p hcontents) hne ⟨⟨n, rfl, rfl⟩, rfl⟩

variable (sha256 s) in
theorem adoptionCandidateOnDisk_snd (clock : Clock) (key head : String)
    (canonicalCurrent : List Json) :
    ∃ heads, (s.adoptionCandidateOnDisk sha256 clock key head canonicalCurrent).2 =
      { s with persistedHeads := heads } := by
  simp only [adoptionCandidateOnDisk]
  split
  · exact ⟨s.persistedHeads, rfl⟩
  · exact ⟨_, rfl⟩

theorem installAdopted (h : Satisfies T F Q s) (hr : Respected T F Q A) (clock : Clock)
    (key : String) (ha : A a) :
    Satisfies T F Q (s.installAdopted sha256 clock key a) := by
  simp only [SessionReplayStore.installAdopted]
  cases hlive : (s.trackers.peek key).filter
      fun t => !s.idle clock t && !t.lastForwardedMessages.isEmpty with
  | none =>
    exact h.of_put key (hr.seed a clock.instant ha) (by simp) (by simp) (by simp)
  | some t =>
    obtain ⟨hpeek, hheld⟩ := Option.filter_eq_some_iff.mp hlive
    simp only [Bool.and_eq_true, Bool.not_eq_true', List.isEmpty_eq_false_iff] at hheld
    exact h.of_put key (hr.join a t clock.instant ha (h.peek hpeek) hheld.2) (by simp) (by simp)
      (by simp)

/-- Hydration and adoption keep a respected property. -/
theorem hydrateOrAdopt (h : Satisfies T F Q s) (hr : Respected T F Q A) (clock : Clock)
    (key : String) (currentOriginals canonicalCurrent : List Json) (hash : Option String) :
    Satisfies T F Q
      (s.hydrateOrAdopt sha256 clock key currentOriginals canonicalCurrent hash).2 := by
  have hs : Satisfies T F Q (s.hydrate sha256 clock key) := h.hydrate hr clock key
  simp only [SessionReplayStore.hydrateOrAdopt]
  generalize s.hydrate sha256 clock key = s' at hs
  split_ifs with hshort
  · exact hs
  · cases adoptionHeadHash sha256 currentOriginals with
    | none => exact hs
    | some head =>
      dsimp only
      cases hmem : s'.adoptionCandidateInMemory clock key head canonicalCurrent with
      | some a =>
        dsimp only
        split_ifs
        · exact hs
        · exact hs.installAdopted hr clock key (hs.adoptInMemory hr hmem)
      | none =>
        dsimp only
        obtain ⟨heads, hsnd⟩ := adoptionCandidateOnDisk_snd sha256 s' clock key head
          canonicalCurrent
        have hs'' : Satisfies T F Q
            (s'.adoptionCandidateOnDisk sha256 clock key head canonicalCurrent).2 := by
          rw [hsnd]
          exact ⟨hs.trackers, hs.files, hs.pending⟩
        cases hdisk : (s'.adoptionCandidateOnDisk sha256 clock key head canonicalCurrent).1 with
        | none => exact hs''
        | some a =>
          dsimp only
          split_ifs
          · exact hs''
          · exact hs''.installAdopted hr clock key (hs.adoptOnDisk hr hdisk)

/-! ### Calls -/

theorem previousTurnFor (h : Satisfies T F Q s) (hr : Respected T F Q A) (clock : Clock)
    (key : String) (currentOriginals : List Json) (hash : Option String) :
    Satisfies T F Q (s.previousTurnFor sha256 clock key currentOriginals hash).2 := by
  have hs : Satisfies T F Q (s.hydrateOrAdopt sha256 clock key currentOriginals
    (canonicalizeSlice currentOriginals) hash).2 := h.hydrateOrAdopt hr clock key _ _ hash
  obtain ⟨trackers, _, heq, hsub⟩ := s.previousTurnFor_store sha256 clock key currentOriginals hash rfl
  rw [heq]
  exact hs.of_trackers (fun e he => hs.trackers e (hsub e he)) rfl rfl

theorem complete (h : Satisfies T F Q s) (hr : Respected T F Q A) (clock : Clock)
    (requestId : String) (read write : ℕ) :
    Satisfies T F Q (s.complete sha256 clock requestId read write) := by
  cases hpeek : s.pending.peek requestId with
  | none =>
    rw [complete_of_none sha256 s clock requestId read write hpeek]
    exact ⟨h.trackers, h.files, fun e he => h.pending e (Lru.mem_pop.mp he).1⟩
  | some parked =>
    have hQ : Q parked := h.pending _ ((s.pending.peek_eq_some_iff requestId parked).mp hpeek)
    have updated : T (completedTracker s clock read write parked) := by
      refine hr.update _ parked _ _ _ ?_ hQ
      cases ht : s.trackers.peek parked.sessionKey with
      | none => exact hr.fresh clock.instant
      | some t => exact h.peek ht
    obtain ⟨_, -, -, hpending, -, hdir⟩ :=
      complete_of_some sha256 s clock requestId read write hpeek
    refine ⟨fun e he => ?_, fun f hf p hp => ?_, fun e he => ?_⟩
    · rcases mem_trackers_complete sha256 s clock requestId read write hpeek he with rfl | ⟨he, -⟩
      · exact updated
      · exact h.trackers e he
    · rcases hdir f hf with hf | ⟨headHash, -, hcontents⟩
      · exact h.files f hf p hp
      · obtain rfl := Option.some.inj (hp.symm.trans hcontents)
        exact hr.snapshot clock _ headHash updated
    · rw [hpending] at he
      exact h.pending e (Lru.mem_pop.mp he).1

theorem invalidate (h : Satisfies T F Q s) (hr : Respected T F Q A) (key : String) :
    Satisfies T F Q (s.invalidate key) := by
  refine h.of_trackers (fun e he => ?_) rfl rfl
  simp only [SessionReplayStore.invalidate, Lru.modify] at he
  split at he
  · exact h.trackers e he
  · rename_i t ht
    rcases Lru.mem_put he with rfl | ⟨he, -⟩
    · exact hr.invalidate t (h.peek ht)
    · exact h.trackers e he

theorem beginRequest (h : Satisfies T F Q s) (requestId : String) (turn : PendingTurn)
    (hturn : Q turn) :
    Satisfies T F Q (s.beginRequest requestId turn.sessionKey turn.originalMessages
      turn.forwardedMessages turn.forwardedSystemHash) := by
  refine ⟨h.trackers, h.files, fun e he => ?_⟩
  rcases Lru.mem_put he with rfl | ⟨he, -⟩
  · exact hturn
  · exact h.pending e he

/-- A call keeps a respected property when the turn it parks has its part of it. -/
theorem apply (h : Satisfies T F Q s) (hr : Respected T F Q A) (clock : Clock) (c : StoreCall)
    (hturn : ∀ turn ∈ c.parked, Q turn) : Satisfies T F Q (c.apply sha256 clock s) := by
  cases c with
  | previousTurnFor key currentOriginals hash =>
    exact h.previousTurnFor hr clock key currentOriginals hash
  | historyWillBeRewritten key incomingOriginal =>
    have hs : Satisfies T F Q (s.hydrateOrAdopt sha256 clock key incomingOriginal
      (canonicalizeSlice incomingOriginal) none).2 := h.hydrateOrAdopt hr clock key _ _ none
    simp only [StoreCall.apply, SessionReplayStore.historyWillBeRewritten]
    split
    · exact hs
    · split_ifs
      · exact hs
      · exact hs
      · exact hs
  | confirmedFrozenCount key =>
    have hs : Satisfies T F Q (s.hydrate sha256 clock key) := h.hydrate hr clock key
    simp only [StoreCall.apply, SessionReplayStore.confirmedFrozenCount]
    split
    · exact hs
    · exact hs
  | invalidate key => exact h.invalidate hr key
  | beginRequest requestId turn =>
    exact h.beginRequest requestId turn (hturn turn List.mem_cons_self)
  | complete requestId read write => exact h.complete hr clock requestId read write

end Satisfies

/-- A respected property of every tracker of every state of a run. -/
theorem StoreRun.satisfies {persistDir : Option (List PersistedFile)} {turns : List PendingTurn}
    (hrun : StoreRun sha256 persistDir turns s) (hr : Respected T F Q A)
    (hfiles : ∀ f ∈ persistDir.getD [], ∀ p, f.contents = some p → F p)
    (hturns : ∀ turn ∈ turns, Q turn) : Satisfies T F Q s := by
  induction hrun with
  | opened capacity h =>
    exact ⟨fun e he => absurd he List.not_mem_nil, hfiles,
      fun e he => absurd he List.not_mem_nil⟩
  | call clock c hrun ih =>
    refine (ih fun turn hturn => hturns turn (List.mem_append_right _ hturn)).apply hr clock c
      fun turn hturn => hturns turn (List.mem_append_left _ hturn)

end Headroom.PrefixReplay
