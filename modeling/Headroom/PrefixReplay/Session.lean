import Headroom.PrefixReplay.Store

/-!
# One session on a store

A store that serves one session key never adopts: its trackers, its files and its turns in flight
are all of that key. What such a store answers comes from the one tracker it holds or from the
session's own file.
-/

open Foundation

namespace Headroom.PrefixReplay

open SessionReplayStore

variable {sha256 : String → String} {key : String} {s : SessionReplayStore}

/-! ### One session key -/

/-- All that a store holds belongs to one session key. -/
structure OneSession (sha256 : String → String) (key : String) (s : SessionReplayStore) :
    Prop where
  trackers : ∀ e ∈ s.trackers.entries, e.1 = key
  files : ∀ f ∈ s.persistDir.getD [], f.digest = sha256 key
  pending : ∀ e ∈ s.pending.entries, e.2.sessionKey = key

/-- An empty store, with an empty persist directory or none. -/
def emptyStore (capacity : ℕ) (h : 0 < capacity) (persists : Bool) : SessionReplayStore :=
  SessionReplayStore.new capacity h (if persists then some [] else none)

theorem emptyStore_persistDir (capacity : ℕ) (h : 0 < capacity) (persists : Bool) :
    (emptyStore capacity h persists).persistDir.getD [] = [] := by
  cases persists <;> rfl

theorem OneSession.emptyStore (capacity : ℕ) (h : 0 < capacity) (persists : Bool) :
    OneSession sha256 key (emptyStore capacity h persists) where
  trackers := fun e he => absurd he List.not_mem_nil
  files := fun f hf => absurd hf (by rw [emptyStore_persistDir]; exact List.not_mem_nil)
  pending := fun e he => absurd he List.not_mem_nil

theorem OneSession.peek_eq_none (h : OneSession sha256 key s) {k : String} (hk : k ≠ key) :
    s.trackers.peek k = none := by
  rw [Option.eq_none_iff_forall_ne_some]
  intro t ht
  exact hk (h.trackers _ ((s.trackers.peek_eq_some_iff k t).mp ht))

theorem OneSession.hydrate (h : OneSession sha256 key s) (clock : Clock) :
    OneSession sha256 key (s.hydrate sha256 clock key) := by
  rcases s.hydrate_cases sha256 clock key with heq | ⟨-, _, p, -, -, -, ht, hp, hd, -⟩
  · rwa [heq]
  · refine ⟨fun e he => ?_, fun f hf => h.files f (hd ▸ hf), fun e he => h.pending e (hp ▸ he)⟩
    rw [ht] at he
    rcases Lru.mem_put he with rfl | ⟨he, -⟩
    · rfl
    · exact h.trackers e he

/-- A store of one session key has no donor for it. -/
theorem hydrateOrAdopt_of_oneSession (h : OneSession sha256 key s) (clock : Clock)
    (currentOriginals canonicalCurrent : List Json) (hash : Option String) :
    s.hydrateOrAdopt sha256 clock key currentOriginals canonicalCurrent hash =
      (false, s.hydrate sha256 clock key) := by
  have hs := h.hydrate clock
  simp only [SessionReplayStore.hydrateOrAdopt]
  generalize s.hydrate sha256 clock key = s' at hs
  split_ifs with hshort
  · rfl
  · cases adoptionHeadHash sha256 currentOriginals with
    | none => rfl
    | some head =>
      have memory : s'.adoptionCandidateInMemory clock key head canonicalCurrent = none := by
        simp only [adoptionCandidateInMemory]
        generalize ((s'.headIndex.lookup head).getD []) = keys
        induction keys with
        | nil => rfl
        | cons k ks ih =>
          by_cases hk : k = key
          · simpa only [List.filter_cons, hk, bne_self_eq_false, Bool.false_eq_true, if_false]
              using ih
          · have hne : (k != key) = true := by simpa using hk
            simpa only [List.filter_cons, hne, if_true, List.foldl_cons, hs.peek_eq_none hk]
              using ih
      have disk : s'.adoptionCandidateOnDisk sha256 clock key head canonicalCurrent =
          (none, s') := by
        simp only [adoptionCandidateOnDisk]
        cases hdir : s'.persistDir with
        | none => rfl
        | some files =>
          have hown : files.filter (fun f => f.digest != sha256 key) = [] := by
            rw [List.filter_eq_nil_iff]
            intro f hf
            simp [hs.files f (by simpa [hdir] using hf)]
          simp only [hown, List.foldl_nil, ← hdir]
      simp only [memory, disk]

theorem OneSession.previousTurnFor (h : OneSession sha256 key s) (clock : Clock)
    (currentOriginals : List Json) (hash : Option String) :
    OneSession sha256 key (s.previousTurnFor sha256 clock key currentOriginals hash).2 := by
  have hs := h.hydrate clock
  obtain ⟨trackers, _, heq, hsub⟩ := s.previousTurnFor_store sha256 clock key currentOriginals hash
    (congrArg Prod.snd (hydrateOrAdopt_of_oneSession h clock currentOriginals _ hash))
  rw [heq]
  exact ⟨fun e he => hs.trackers e (hsub e he), hs.files, hs.pending⟩

theorem previousTurnFor_snd (h : OneSession sha256 key s) {clock : Clock}
    (hydrated : s.hydrate sha256 clock key = s)
    (hlive : ∀ t, s.trackers.peek key = some t → s.idle clock t = false)
    (currentOriginals : List Json) (hash : Option String) :
    (s.previousTurnFor sha256 clock key currentOriginals hash).2 =
      { s with trackers := (s.trackers.get key).2 } := by
  simp only [SessionReplayStore.previousTurnFor, hydrateOrAdopt_of_oneSession h, Lru.get_fst,
    hydrated]
  cases hpeek : s.trackers.peek key with
  | none => rfl
  | some t =>
    have hidle : SessionReplayStore.idle { s with trackers := (s.trackers.get key).2 } clock t =
        false := hlive t hpeek
    simp only [hidle, Bool.false_eq_true, if_false]

theorem previousTurnFor_pending (h : OneSession sha256 key s) (clock : Clock)
    (currentOriginals : List Json) (hash : Option String) :
    (s.previousTurnFor sha256 clock key currentOriginals hash).2.pending = s.pending := by
  have hs : (s.hydrate sha256 clock key).pending = s.pending := by
    rcases s.hydrate_cases sha256 clock key with heq | ⟨-, _, _, -, -, -, -, hp, -⟩
    · rw [heq]
    · exact hp
  obtain ⟨_, _, heq, -⟩ := s.previousTurnFor_store sha256 clock key currentOriginals hash
    (congrArg Prod.snd (hydrateOrAdopt_of_oneSession h clock currentOriginals _ hash))
  rw [heq]
  exact hs

theorem OneSession.beginRequest (h : OneSession sha256 key s) (requestId : String)
    (originals forwarded : List Json) (digest : String) :
    OneSession sha256 key (s.beginRequest requestId key originals forwarded digest) := by
  refine ⟨h.trackers, h.files, fun e he => ?_⟩
  rcases Lru.mem_put he with rfl | ⟨he, -⟩
  · rfl
  · exact h.pending e he

/-! ### Completion -/

/-- The tracker that a completed turn leaves. -/
def completedTracker (s : SessionReplayStore) (clock : Clock) (read write : ℕ)
    (parked : PendingTurn) : PrefixReplayTracker :=
  ((s.trackers.peek parked.sessionKey).getD (.fresh clock.instant)).updateFromResponse
    clock.instant read write parked.forwardedMessages (some parked.originalMessages)
    parked.forwardedSystemHash

/-- What a completed turn writes to the session's file. -/
def snapshotOf (clock : Clock) (t : PrefixReplayTracker) (headHash : Option String) :
    PersistedPrefix where
  chainId := t.primaryChainId
  cachedTokenCount := t.cachedTokenCount
  cachedMessageCount := t.cachedMessageCount
  turnNumber := t.turnNumber
  savedAtUnix := clock.unixNow
  originals := t.lastOriginalMessages
  forwarded := t.lastForwardedMessages
  headHash := headHash
  forwardedSystemHash := some t.lastForwardedSystemHash

section

variable (sha256 s) (clock : Clock) (requestId : String) (read write : ℕ)

theorem complete_of_none (h : s.pending.peek requestId = none) :
    s.complete sha256 clock requestId read write =
      { s with pending := (s.pending.pop requestId).2 } := by
  simp only [SessionReplayStore.complete, Lru.pop, h]

/-- What a completion does to a parked turn's session: the turn leaves the pending ones, its
tracker is the updated one, and its file is rewritten at most. -/
theorem complete_of_some {parked : PendingTurn} (h : s.pending.peek requestId = some parked) :
    ∃ trackers : Lru String PrefixReplayTracker,
      (trackers = s.trackers ∨
        trackers = s.trackers.put parked.sessionKey (.fresh clock.instant)) ∧
      (s.complete sha256 clock requestId read write).trackers =
        trackers.put parked.sessionKey (completedTracker s clock read write parked) ∧
      (s.complete sha256 clock requestId read write).pending = (s.pending.pop requestId).2 ∧
      (s.complete sha256 clock requestId read write).sessionTtl = s.sessionTtl ∧
      ∀ f ∈ (s.complete sha256 clock requestId read write).persistDir.getD [],
        f ∈ s.persistDir.getD [] ∨
        ∃ headHash, f.digest = sha256 parked.sessionKey ∧ f.contents = some
          (snapshotOf clock (completedTracker s clock read write parked) headHash) := by
  have written (s' : SessionReplayStore) (p : PersistedPrefix) :
      (s'.persist sha256 clock parked.sessionKey p).trackers = s'.trackers ∧
      (s'.persist sha256 clock parked.sessionKey p).pending = s'.pending ∧
      (s'.persist sha256 clock parked.sessionKey p).sessionTtl = s'.sessionTtl ∧
      ∀ f ∈ (s'.persist sha256 clock parked.sessionKey p).persistDir.getD [],
        f ∈ s'.persistDir.getD [] ∨ (f.digest = sha256 parked.sessionKey ∧ f.contents = some p) := by
    simp only [persist]
    cases hdir : s'.persistDir with
    | none => exact ⟨rfl, rfl, rfl, fun f hf => absurd hf (by simp [hdir])⟩
    | some files =>
      dsimp only
      split_ifs
      · refine ⟨rfl, rfl, rfl, fun f hf => ?_⟩
        rcases List.mem_cons.mp hf with rfl | hf
        · exact Or.inr ⟨rfl, rfl⟩
        · exact Or.inl (List.mem_of_mem_filter hf)
      · exact ⟨rfl, rfl, rfl, fun f hf => Or.inl (by simpa [hdir] using hf)⟩
  simp only [SessionReplayStore.complete, Lru.pop, h, completedTracker, withTracker]
  cases s.trackers.peek parked.sessionKey with
  | none =>
    refine ⟨_, Or.inr rfl, ?_⟩
    dsimp only
    split_ifs
    · obtain ⟨h1, h2, h3, h4⟩ := written _ _
      refine ⟨by rw [h1]; simp, by rw [h2]; simp, by rw [h3]; simp, fun f hf => ?_⟩
      rcases h4 f hf with hf | hf
      · exact Or.inl (by simpa using hf)
      · exact Or.inr ⟨_, hf⟩
    · exact ⟨by simp, by simp, by simp, fun f hf => Or.inl (by simpa using hf)⟩
  | some t =>
    refine ⟨_, Or.inl rfl, ?_⟩
    dsimp only
    split_ifs
    · obtain ⟨h1, h2, h3, h4⟩ := written _ _
      refine ⟨by rw [h1]; simp, by rw [h2]; simp, by rw [h3]; simp, fun f hf => ?_⟩
      rcases h4 f hf with hf | hf
      · exact Or.inl (by simpa using hf)
      · exact Or.inr ⟨_, hf⟩
    · exact ⟨by simp, by simp, by simp, fun f hf => Or.inl (by simpa using hf)⟩

/-- The trackers after a completion: the updated one, and those of other sessions. -/
theorem mem_trackers_complete {parked : PendingTurn} (h : s.pending.peek requestId = some parked)
    {e : String × PrefixReplayTracker}
    (he : e ∈ (s.complete sha256 clock requestId read write).trackers.entries) :
    e = (parked.sessionKey, completedTracker s clock read write parked) ∨
      (e ∈ s.trackers.entries ∧ e.1 ≠ parked.sessionKey) := by
  obtain ⟨trackers, hbase, heq, -⟩ := complete_of_some sha256 s clock requestId read write h
  rw [heq] at he
  rcases Lru.mem_put he with he | ⟨he, hne⟩
  · exact Or.inl he
  · right
    rcases hbase with rfl | rfl
    · exact ⟨he, hne⟩
    · rcases Lru.mem_put he with rfl | he
      · exact absurd rfl hne
      · exact he

end

theorem OneSession.complete (h : OneSession sha256 key s) (clock : Clock) (requestId : String)
    (read write : ℕ) : OneSession sha256 key (s.complete sha256 clock requestId read write) := by
  cases hpeek : s.pending.peek requestId with
  | none =>
    rw [complete_of_none sha256 s clock requestId read write hpeek]
    exact ⟨h.trackers, h.files, fun e he => h.pending e (Lru.mem_pop.mp he).1⟩
  | some parked =>
    have hkey : parked.sessionKey = key :=
      h.pending _ ((s.pending.peek_eq_some_iff requestId parked).mp hpeek)
    obtain ⟨_, -, -, hpending, -, hdir⟩ :=
      complete_of_some sha256 s clock requestId read write hpeek
    refine ⟨fun e he => ?_, fun f hf => ?_, fun e he => ?_⟩
    · rcases mem_trackers_complete sha256 s clock requestId read write hpeek he with rfl | ⟨he, -⟩
      · exact hkey
      · exact h.trackers e he
    · rcases hdir f hf with hf | ⟨_, hdigest, -⟩
      · exact h.files f hf
      · rw [hdigest, hkey]
    · rw [hpending] at he
      exact h.pending e (Lru.mem_pop.mp he).1

/-! ### What is held -/

/-- Every prefix with something forwarded, in memory or on disk, has a property of its originals,
its forwarded messages and its system. -/
structure Holds (P : List Json → List Json → String → Prop) (s : SessionReplayStore) : Prop where
  memory : ∀ e ∈ s.trackers.entries, ∀ h ∈ e.2.held, h.forwarded ≠ [] →
    P h.originals h.forwarded h.systemHash
  disk : ∀ f ∈ s.persistDir.getD [], ∀ p, f.contents = some p → p.forwarded ≠ [] →
    P p.originals p.forwarded (p.forwardedSystemHash.getD "")

variable {P Q : List Json → List Json → String → Prop}

theorem Holds.mono (h : Holds P s) (hPQ : ∀ o f d, P o f d → Q o f d) : Holds Q s where
  memory := fun e he x hx hne => hPQ _ _ _ (h.memory e he x hx hne)
  disk := fun f hf p hp hne => hPQ _ _ _ (h.disk f hf p hp hne)

theorem Holds.emptyStore (capacity : ℕ) (h : 0 < capacity) (persists : Bool) :
    Holds P (emptyStore capacity h persists) where
  memory := fun e he => absurd he List.not_mem_nil
  disk := fun f hf => absurd hf (by rw [emptyStore_persistDir]; exact List.not_mem_nil)

theorem mem_held_restore {p : PersistedPrefix} {now : ℕ} {h : HeldPrefix}
    (hh : h ∈ (p.restore now).held) :
    h = ⟨p.chainId, p.originals, p.forwarded, p.forwardedSystemHash.getD ""⟩ := by
  simpa [PrefixReplayTracker.held, PrefixReplayTracker.primary, PersistedPrefix.restore] using hh

theorem Holds.hydrate (h : Holds P s) (clock : Clock) (key : String) :
    Holds P (s.hydrate sha256 clock key) := by
  rcases s.hydrate_cases sha256 clock key with heq | ⟨-, file, p, hfile, hp, hne, ht, -, hd, -⟩
  · rwa [heq]
  · refine ⟨fun e he x hx hxne => ?_, fun f hf => h.disk f (hd ▸ hf)⟩
    rw [ht] at he
    rcases Lru.mem_put he with rfl | ⟨he, -⟩
    · rw [mem_held_restore hx]
      exact h.disk file hfile p hp hne
    · exact h.memory e he x hx hxne

/-- A turn leaves what is held as it is, and its answer is held. -/
theorem Holds.previousTurnFor (h : Holds P s) (hone : OneSession sha256 key s) (clock : Clock)
    (currentOriginals : List Json) (hash : Option String) :
    Holds P (s.previousTurnFor sha256 clock key currentOriginals hash).2 ∧
    ∀ o f id, (s.previousTurnFor sha256 clock key currentOriginals hash).1 = .ok (o, f, id) →
      f ≠ [] → ∃ d, P o f d := by
  have hs : Holds P (s.hydrate sha256 clock key) := h.hydrate clock key
  constructor
  · obtain ⟨trackers, _, heq, hsub⟩ := s.previousTurnFor_store sha256 clock key currentOriginals hash
      (congrArg Prod.snd (hydrateOrAdopt_of_oneSession hone clock currentOriginals _ hash))
    rw [heq]
    exact ⟨fun e he => hs.memory e (hsub e he), hs.disk⟩
  · intro o f id hok hne
    rw [previousTurnFor_fst, hydrateOrAdopt_of_oneSession hone] at hok
    cases hpeek : (s.hydrate sha256 clock key).trackers.peek key with
    | none => simp [hpeek] at hok
    | some t =>
      simp only [hpeek] at hok
      split_ifs at hok
      cases hlookup : lookup t (canonicalizeSlice currentOriginals) hash with
      | error e => simp [hlookup, Except.map] at hok
      | ok l =>
        simp only [hlookup, Except.map, Except.ok.injEq, Prod.mk.injEq] at hok
        obtain ⟨rfl, rfl, rfl⟩ := hok
        have hheld : l.source ∈ t.held := by
          rcases lookup_ok hlookup with ⟨hpick, -⟩ | ⟨-, -, -, rfl⟩
          · rcases pickReplayCandidate_spec hpick with hpick | hpick
            · exact hpick.1
            · exact hpick.1
          · exact List.mem_cons_self
        exact ⟨_, hs.memory _ ((Lru.peek_eq_some_iff _ _ _).mp hpeek) _ hheld hne⟩

/-- A completed turn adds the slices that are stored of it. -/
theorem Holds.complete (h : Holds P s) (clock : Clock) (requestId : String) (read write : ℕ)
    (hparked : ∀ parked, s.pending.peek requestId = some parked →
      P (storedOriginals parked.originalMessages)
        (storedForwarded parked.originalMessages parked.forwardedMessages)
        parked.forwardedSystemHash) :
    Holds P (s.complete sha256 clock requestId read write) := by
  cases hpeek : s.pending.peek requestId with
  | none =>
    rw [complete_of_none sha256 s clock requestId read write hpeek]
    exact ⟨h.memory, h.disk⟩
  | some parked =>
    have hnew := hparked parked hpeek
    have updated : ∀ x ∈ (completedTracker s clock read write parked).held, x.forwarded ≠ [] →
        P x.originals x.forwarded x.systemHash := by
      intro x hx hne
      rcases PrefixReplayTracker.mem_held_updateFromResponse hx with ⟨ho, hf, hd⟩ | ⟨hx, -⟩
      · rwa [ho, hf, hd]
      · cases htracker : s.trackers.peek parked.sessionKey with
        | none =>
          rw [htracker, Option.getD_none] at hx
          rw [List.mem_singleton.mp hx] at hne
          exact absurd rfl hne
        | some t =>
          rw [htracker, Option.getD_some] at hx
          exact h.memory _ ((Lru.peek_eq_some_iff _ _ _).mp htracker) x hx hne
    obtain ⟨_, -, -, -, -, hdir⟩ := complete_of_some sha256 s clock requestId read write hpeek
    refine ⟨fun e he => ?_, fun f hf p hp hne => ?_⟩
    · rcases mem_trackers_complete sha256 s clock requestId read write hpeek he with rfl | ⟨he, -⟩
      · exact updated
      · exact h.memory e he
    · rcases hdir f hf with hf | ⟨headHash, -, hcontents⟩
      · exact h.disk f hf p hp hne
      · obtain rfl := Option.some.inj (hp.symm.trans hcontents)
        exact updated _ List.mem_cons_self hne

end Headroom.PrefixReplay
