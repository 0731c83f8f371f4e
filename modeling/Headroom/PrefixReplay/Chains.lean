import Headroom.PrefixReplay.SystemGate

/-!
# Chains across lookup and completion

A turn is given a chain twice: when it asks which held prefix it continues, and when its response completes. The lookup
takes the longest prefix that leads the turn; the completion takes the primary, and only then the alternates, the most
recent first, of those that the caps leave. The two agree on a turn exactly when the prefix found is the first that the
completion comes to.

## Main results

* `complete_keeps_chain_iff` : the turns whose completion keeps the chain of their lookup.
-/

open Foundation

namespace Headroom.PrefixReplay

open SessionReplayStore

/-! ### Distinct chains -/

/-- Two held prefixes of one chain are of none. -/
def ChainsApart (a b : HeldPrefix) : Prop := a.chainId = b.chainId → a.chainId = 0

instance : Std.Symm ChainsApart where
  symm _ _ h heq := heq.trans (h heq.symm)

/-- The numbered chains of a tracker are pairwise distinct, and all are below the next one. -/
structure DistinctChains (t : PrefixReplayTracker) : Prop where
  apart : t.held.Pairwise ChainsApart
  below : ∀ h ∈ t.held, h.chainId < t.nextChainId

namespace DistinctChains

variable {t : PrefixReplayTracker}

/-- A numbered chain has one prefix. -/
theorem eq_of_chainId (ht : DistinctChains t) {g h : HeldPrefix} (hg : g ∈ t.held) (hh : h ∈ t.held)
    (heq : g.chainId = h.chainId) (hne : h.chainId ≠ 0) : g = h := by
  by_contra hother
  have hapart : ChainsApart g h := ht.apart.forall hg hh hother
  exact hne (heq ▸ hapart heq)

theorem next_pos (ht : DistinctChains t) : 0 < t.nextChainId :=
  Nat.zero_lt_of_lt (ht.below t.primary List.mem_cons_self)

/-- Alternates taken from the prefixes held, under a primary of no chain. -/
theorem of_sublist (ht : DistinctChains t) {t' : PrefixReplayTracker} (hsub : t'.alternates.Sublist t.held)
    (hzero : t'.primaryChainId = 0) (hnext : t'.nextChainId = t.nextChainId) : DistinctChains t' where
  apart := List.pairwise_cons.mpr ⟨fun _ _ _ => hzero, ht.apart.sublist hsub⟩
  below := by
    rintro h hh
    rw [hnext]
    rcases List.mem_cons.mp hh with rfl | hh
    · show t'.primaryChainId < t.nextChainId
      rw [hzero]
      exact ht.next_pos
    · exact ht.below h (hsub.subset hh)

theorem of_primary (ht : DistinctChains t) {t' : PrefixReplayTracker} (hsub : t'.alternates.Sublist t.alternates)
    (hid : t'.primaryChainId = t.primaryChainId) (hnext : t'.nextChainId = t.nextChainId) : DistinctChains t' where
  apart := by
    obtain ⟨hfirst, hrest⟩ := List.pairwise_cons.mp ht.apart
    refine List.pairwise_cons.mpr ⟨fun h hh => ?_, hrest.sublist hsub⟩
    show t'.primaryChainId = h.chainId → t'.primaryChainId = 0
    rw [hid]
    exact hfirst h (hsub.subset hh)
  below := by
    rintro h hh
    rw [hnext]
    rcases List.mem_cons.mp hh with rfl | hh
    · show t'.primaryChainId < t.nextChainId
      rw [hid]
      exact ht.below t.primary List.mem_cons_self
    · exact ht.below h (List.mem_cons_of_mem _ (hsub.subset hh))

end DistinctChains

/-- The displaced prefix with the alternates that are left of the caps, as a selection of the prefixes held. -/
theorem trimmed_sublist (t : PrefixReplayTracker) : (trimAlternates t.withDisplaced).Sublist t.held :=
  (Budget.trim_sublist _).trans (List.filter_sublist.cons_cons _)

namespace PrefixReplayTracker

variable {t : PrefixReplayTracker}

theorem displace_distinct (ht : DistinctChains t) (canonicalIncoming : List Json) :
    DistinctChains (t.displace canonicalIncoming) := by
  rw [displace]
  split_ifs
  · exact ht.of_sublist (trimmed_sublist t) rfl rfl
  · exact ht

theorem joinChain_distinct (ht : DistinctChains t) (canonicalIncoming : List Json) {t' : PrefixReplayTracker}
    (halternates : t'.alternates = t.alternates.filter fun h => !matchesCanonicalPrefix h.originals canonicalIncoming)
    (hid : t'.primaryChainId = (t.joinChain canonicalIncoming).primaryChainId)
    (hnext : t'.nextChainId = (t.joinChain canonicalIncoming).nextChainId) : DistinctChains t' := by
  have hsub : t'.alternates.Sublist t.alternates := by
    rw [halternates]
    exact List.filter_sublist
  rw [joinChain] at hid hnext
  split_ifs at hid hnext with hzero
  · rcases hfind : t.alternates.find? fun h => matchesCanonicalPrefix h.originals canonicalIncoming with _ | g
    · rw [hfind] at hid hnext
      have hapart : t.alternates.Pairwise ChainsApart := (List.pairwise_cons.mp ht.apart).2
      refine ⟨List.pairwise_cons.mpr ⟨fun h hh heq => ?_, hapart.sublist hsub⟩, fun h hh => ?_⟩
      · have hbelow := ht.below h (List.mem_cons_of_mem _ (hsub.subset hh))
        have heq' : t.nextChainId = h.chainId := hid.symm.trans heq
        omega
      · rcases List.mem_cons.mp hh with rfl | hh
        · show t'.primaryChainId < t'.nextChainId
          rw [hid, hnext]
          exact Nat.lt_succ_self _
        · have hbelow := ht.below h (List.mem_cons_of_mem _ (hsub.subset hh))
          rw [hnext]
          exact Nat.lt_succ_of_lt hbelow
    · rw [hfind] at hid hnext
      have hg : g ∈ t.held := List.mem_cons_of_mem _ (List.mem_of_find?_eq_some hfind)
      have hleads := List.find?_some hfind
      have hapart : t.alternates.Pairwise ChainsApart := (List.pairwise_cons.mp ht.apart).2
      refine ⟨List.pairwise_cons.mpr ⟨fun h hh heq => ?_, hapart.sublist hsub⟩, fun h hh => ?_⟩
      · by_contra hne
        -- An alternate that stays does not lead the turn, so it is not the one whose chain the turn takes.
        have hid' : t'.primary.chainId = g.chainId := hid
        have hsame : h = g := by
          refine ht.eq_of_chainId (List.mem_cons_of_mem _ (hsub.subset hh)) hg (heq.symm.trans hid') ?_
          rwa [← hid']
        rw [halternates, List.mem_filter, hsame, hleads] at hh
        simp at hh
      · rw [hnext]
        rcases List.mem_cons.mp hh with rfl | hh
        · show t'.primaryChainId < t.nextChainId
          rw [hid]
          exact ht.below g hg
        · exact ht.below h (List.mem_cons_of_mem _ (hsub.subset hh))
  · exact ht.of_primary hsub hid hnext

theorem updateFromResponse_distinct (ht : DistinctChains t) (now read write : ℕ) (forwarded originals : List Json)
    (hash : String) : DistinctChains (t.updateFromResponse now read write forwarded (some originals) hash) := by
  have hcounted : DistinctChains { t with lastActivity := now, turnNumber := t.turnNumber + 1 } := ⟨ht.apart, ht.below⟩
  have hdisplaced := displace_distinct hcounted (canonicalizeSlice (storedOriginals originals))
  refine joinChain_distinct hdisplaced (canonicalizeSlice (storedOriginals originals)) ?_ ?_ ?_
  · simp only [updateFromResponse, confirm_alternates, joinChain_alternates, Option.getD_some]
  · show (t.updateFromResponse now read write forwarded (some originals) hash).primary.chainId = _
    simp only [updateFromResponse, confirm_primary, Option.getD_some]
    rfl
  · simp only [updateFromResponse, confirm_nextChainId, Option.getD_some]

end PrefixReplayTracker

theorem respected_distinctChains :
    Respected DistinctChains (fun _ => True) (fun _ => True) (fun _ => True) where
  fresh now := ⟨List.pairwise_singleton _ _, fun h hh => by
    obtain rfl := List.mem_singleton.mp hh
    exact Nat.one_pos⟩
  restore p now _ _ := ⟨List.pairwise_singleton _ _, fun h hh => by
    obtain rfl := List.mem_singleton.mp hh
    exact Nat.lt_succ_self _⟩
  update t turn now read write ht _ := PrefixReplayTracker.updateFromResponse_distinct ht now read write _ _ _
  invalidate t ht := ht.of_sublist (List.nil_sublist _) rfl rfl
  snapshot _ _ _ _ := trivial
  adoptHeld _ _ _ _ _ _ _ := trivial
  adoptFile _ _ _ _ _ := trivial
  seed a now _ := ⟨List.pairwise_singleton _ _, fun h hh => by
    obtain rfl := List.mem_singleton.mp hh
    exact Nat.lt_succ_self _⟩
  join a t now _ ht _ := by
    obtain ⟨hfirst, hrest⟩ := List.pairwise_cons.mp ht.apart
    have hsub : (t.alternates.filter fun h => !sameMessages h.originals a.originals).Sublist t.alternates :=
      List.filter_sublist
    have hentry : ∀ h ∈ t.held, h.chainId ≠ t.nextChainId := fun h hh => (ht.below h hh).ne
    constructor
    · -- The adopted prefix has a number that no chain has yet.
      refine List.Pairwise.sublist ((List.take_sublist _ _).cons_cons _) (List.pairwise_cons.mpr ⟨?_, ?_⟩)
      · intro h hh heq
        rcases List.mem_cons.mp hh with rfl | hh
        · exact absurd heq (hentry t.primary List.mem_cons_self)
        · exact hfirst h (hsub.subset hh) heq
      · refine List.pairwise_cons.mpr ⟨fun h hh heq => ?_, hrest.sublist hsub⟩
        exact absurd heq.symm (hentry h (List.mem_cons_of_mem _ (hsub.subset hh)))
    · intro h hh
      rcases List.mem_cons.mp hh with rfl | hh
      · exact Nat.lt_succ_of_lt (ht.below t.primary List.mem_cons_self)
      · rcases List.mem_cons.mp (List.mem_of_mem_take hh) with rfl | hh
        · exact Nat.lt_succ_self _
        · exact Nat.lt_succ_of_lt (ht.below h (List.mem_cons_of_mem _ (hsub.subset hh)))

section

variable {sha256 : String → String} {persistDir : Option (List PersistedFile)} {turns : List PendingTurn}
  {s : SessionReplayStore}

theorem StoreRun.distinctChains (hrun : StoreRun sha256 persistDir turns s) :
    Satisfies DistinctChains (fun _ => True) (fun _ => True) s :=
  hrun.satisfies respected_distinctChains (fun _ _ _ _ => trivial) fun _ _ => trivial

end

/-! ### The prefix that a completion comes to -/

/-- Completion comes to a held prefix: it is the primary, and leads what is stored of the turn; or the primary stands
aside, being of another stream or of no chain, and the prefix is the first one to lead it among the alternates, a
displaced primary in front and the caps applied. -/
def Rejoins (t : PrefixReplayTracker) (canonicalStored : List Json) (h : HeldPrefix) : Prop :=
  if t.displaces canonicalStored then
    (trimAlternates t.withDisplaced).find? (fun g => matchesCanonicalPrefix g.originals canonicalStored) = some h
  else if t.primaryChainId = 0 then
    t.alternates.find? (fun g => matchesCanonicalPrefix g.originals canonicalStored) = some h
  else h = t.primary

namespace PrefixReplayTracker

variable (t : PrefixReplayTracker)

theorem joinChain_primaryChainId (canonicalIncoming : List Json) :
    (t.joinChain canonicalIncoming).primaryChainId =
      if t.primaryChainId = 0 then
        ((t.alternates.find? fun h => matchesCanonicalPrefix h.originals canonicalIncoming).map
          HeldPrefix.chainId).getD t.nextChainId
      else t.primaryChainId := by
  rw [joinChain]
  split_ifs
  · generalize (t.alternates.find? fun h => matchesCanonicalPrefix h.originals canonicalIncoming) = found
    rcases found with _ | h
    · rfl
    · rfl
  · rfl

theorem updateFromResponse_primaryChainId (now read write : ℕ) (forwarded originals : List Json) (hash : String) :
    (t.updateFromResponse now read write forwarded (some originals) hash).primaryChainId =
      if t.displaces (canonicalizeSlice (storedOriginals originals)) then
        (((trimAlternates t.withDisplaced).find? fun h =>
          matchesCanonicalPrefix h.originals (canonicalizeSlice (storedOriginals originals))).map
            HeldPrefix.chainId).getD t.nextChainId
      else if t.primaryChainId = 0 then
        ((t.alternates.find? fun h =>
          matchesCanonicalPrefix h.originals (canonicalizeSlice (storedOriginals originals))).map
            HeldPrefix.chainId).getD t.nextChainId
      else t.primaryChainId := by
  generalize hstored : canonicalizeSlice (storedOriginals originals) = stored
  have hchain : (t.updateFromResponse now read write forwarded (some originals) hash).primaryChainId =
      ((({ t with lastActivity := now, turnNumber := t.turnNumber + 1 } : PrefixReplayTracker).displace
        stored).joinChain stored).primaryChainId := by
    show (t.updateFromResponse now read write forwarded (some originals) hash).primary.chainId = _
    simp only [updateFromResponse, confirm_primary, Option.getD_some, hstored]
    rfl
  rw [hchain, joinChain_primaryChainId, displace]
  by_cases hd : t.displaces stored
  · have hdisplaces : ({ t with lastActivity := now, turnNumber := t.turnNumber + 1 } :
        PrefixReplayTracker).displaces stored = true := hd
    rw [if_pos hd, if_pos hdisplaces, if_pos rfl]
    rfl
  · have hdisplaces : ¬ ({ t with lastActivity := now, turnNumber := t.turnNumber + 1 } :
        PrefixReplayTracker).displaces stored = true := hd
    rw [if_neg hd, if_neg hdisplaces]

end PrefixReplayTracker

/-- The first that leads a turn among some of the prefixes held, by its chain. -/
theorem DistinctChains.find?_chainId_iff {t : PrefixReplayTracker} (ht : DistinctChains t) {h : HeldPrefix}
    (hh : h ∈ t.held) (hid : h.chainId ≠ 0) {l : List HeldPrefix} (hl : l.Sublist t.held) (p : HeldPrefix → Bool) :
    ((l.find? p).map HeldPrefix.chainId).getD t.nextChainId = h.chainId ↔ l.find? p = some h := by
  rcases hfind : l.find? p with _ | g
  · have hbelow := ht.below h hh
    rw [Option.map_none, Option.getD_none]
    exact iff_of_false (by omega) (by simp)
  · rw [Option.map_some, Option.getD_some, Option.some.injEq]
    constructor
    · intro heq
      exact ht.eq_of_chainId (hl.subset (List.mem_of_find?_eq_some hfind)) hh heq hid
    · rintro rfl
      rfl

theorem primaryChainId_update_iff {t : PrefixReplayTracker} (ht : DistinctChains t) {h : HeldPrefix} (hh : h ∈ t.held)
    (hid : h.chainId ≠ 0) (now read write : ℕ) (forwarded originals : List Json) (hash : String) :
    (t.updateFromResponse now read write forwarded (some originals) hash).primaryChainId = h.chainId ↔
      Rejoins t (canonicalizeSlice (storedOriginals originals)) h := by
  rw [PrefixReplayTracker.updateFromResponse_primaryChainId, Rejoins]
  split_ifs
  · exact ht.find?_chainId_iff hh hid (trimmed_sublist t) _
  · exact ht.find?_chainId_iff hh hid (List.sublist_cons_self _ _) _
  · constructor
    · intro heq
      exact (ht.eq_of_chainId List.mem_cons_self hh heq hid).symm
    · rintro rfl
      rfl

/-! ### A turn from its lookup to its completion -/

section

variable {sha256 : String → String} {persistDir : Option (List PersistedFile)} {turns : List PendingTurn}
  {s : SessionReplayStore}

theorem previousTurnFor_ok {clock : Clock} {key : String} {originals : List Json} {hash : Option String}
    {found : List Json × List Json × ℕ} (h : (s.previousTurnFor sha256 clock key originals hash).1 = .ok found) :
    ∃ t l, (s.hydrateOrAdopt sha256 clock key originals (canonicalizeSlice originals) hash).2.trackers.peek key =
        some t ∧
      (s.previousTurnFor sha256 clock key originals hash).2.trackers.peek key = some t ∧
      lookup t (canonicalizeSlice originals) hash = .ok l ∧
      found = (l.source.originals, l.source.forwarded, l.chainId) := by
  rw [SessionReplayStore.previousTurnFor] at h ⊢
  generalize s.hydrateOrAdopt sha256 clock key originals (canonicalizeSlice originals) hash = adopted at h ⊢
  simp only [Lru.get_fst] at h ⊢
  rcases hpeek : adopted.2.trackers.peek key with _ | t
  · simp only [hpeek] at h
    cases h
  · simp only [hpeek] at h ⊢
    by_cases hidle : SessionReplayStore.idle { adopted.2 with trackers := (adopted.2.trackers.get key).2 } clock t
    · rw [if_pos hidle] at h
      cases h
    · rw [if_neg hidle] at h ⊢
      rcases hlookup : lookup t (canonicalizeSlice originals) hash with miss | l
      · rw [hlookup] at h
        cases h
      · rw [hlookup] at h
        refine ⟨t, l, rfl, ?_, hlookup, (Except.ok.inj h).symm⟩
        rw [Lru.peek_get, hpeek]

theorem source_mem_held {t : PrefixReplayTracker} {canonicalCurrent : List Json} {hash : Option String} {l : Lookup}
    (hlookup : lookup t canonicalCurrent hash = .ok l) (hid : l.chainId ≠ 0) :
    l.source ∈ t.held ∧ l.chainId = l.source.chainId := by
  rcases lookup_ok hlookup with ⟨hpick, hchain⟩ | ⟨-, -, -, rfl⟩
  · refine ⟨?_, hchain⟩
    rcases pickReplayCandidate_spec hpick with ⟨hh, -⟩ | ⟨hh, -⟩
    · exact hh
    · exact hh
  · exact absurd rfl hid

theorem peek_complete {s' : SessionReplayStore} {requestId : String} {parked : PendingTurn} {t : PrefixReplayTracker}
    (hparked : s'.pending.peek requestId = some parked) (ht : s'.trackers.peek parked.sessionKey = some t)
    (clock : Clock) (read write : ℕ) :
    (s'.complete sha256 clock requestId read write).trackers.peek parked.sessionKey =
      some (t.updateFromResponse clock.instant read write parked.forwardedMessages (some parked.originalMessages)
        parked.forwardedSystemHash) := by
  obtain ⟨trackers, -, heq, -⟩ := complete_of_some sha256 s' clock requestId read write hparked
  rw [heq, Lru.peek_put_self, completedTracker, ht]
  rfl

/-- In every run the chains of every tracker are distinct, before a lookup and after it; and a turn that its lookup
answers with a chain completes under that chain exactly when its completion comes to the prefix found, as long as
nothing else touched the session's tracker. -/
theorem complete_keeps_chain_iff (hrun : StoreRun sha256 persistDir turns s) :
    (∀ e ∈ s.trackers.entries, DistinctChains e.2) ∧
    ∀ (clock : Clock) (key : String) (originals : List Json) (hash : Option String) (o f : List Json) (c : ℕ),
      (s.previousTurnFor sha256 clock key originals hash).1 = .ok (o, f, c) → c ≠ 0 →
      ∃ t h, (s.previousTurnFor sha256 clock key originals hash).2.trackers.peek key = some t ∧ DistinctChains t ∧
        h ∈ t.held ∧ h.originals = o ∧ h.forwarded = f ∧ h.chainId = c ∧
        ∀ (s' : SessionReplayStore) (clock' : Clock) (requestId : String) (parked : PendingTurn) (read write : ℕ),
          s'.trackers.peek key = some t → s'.pending.peek requestId = some parked → parked.sessionKey = key →
          parked.originalMessages = originals →
          ∃ t', (s'.complete sha256 clock' requestId read write).trackers.peek key = some t' ∧
            (t'.primaryChainId = c ↔ Rejoins t (canonicalizeSlice (storedOriginals originals)) h) := by
  refine ⟨hrun.distinctChains.trackers, ?_⟩
  rintro clock key originals hash o f c hfound hid
  obtain ⟨t, l, hpeek, hstays, hlookup, heq⟩ := previousTurnFor_ok hfound
  obtain ⟨rfl, hf, hc⟩ : o = l.source.originals ∧ f = l.source.forwarded ∧ c = l.chainId := by
    simpa only [Prod.mk.injEq] using heq
  subst hf hc
  obtain ⟨hheld, hchain⟩ := source_mem_held hlookup hid
  have hdistinct : DistinctChains t :=
    (hrun.distinctChains.hydrateOrAdopt respected_distinctChains clock key originals _ hash).peek hpeek
  refine ⟨t, l.source, hstays, hdistinct, hheld, rfl, rfl, hchain.symm, ?_⟩
  rintro s' clock' requestId parked read write ht hparked rfl rfl
  refine ⟨_, peek_complete hparked ht clock' read write, ?_⟩
  rw [hchain]
  exact primaryChainId_update_iff hdistinct hheld (hchain ▸ hid) _ _ _ _ _ _

end

/-! ### A turn past a rewind -/

/-- A stream of four messages. -/
def longParked : PendingTurn := plainParked "k" "d" [("user", "a"), ("user", "b"), ("user", "c"), ("user", "e")]

/-- Its first two messages, sent again. -/
def rewoundParked : PendingTurn := plainParked "k" "d" [("user", "a"), ("user", "b")]

/-- The stream with a further message. -/
def longerParked : PendingTurn :=
  plainParked "k" "d" [("user", "a"), ("user", "b"), ("user", "c"), ("user", "e"), ("user", "g")]

/-- The store behind the turns of a session, each answered before the next. -/
def storeAfter (parked : List PendingTurn) : SessionReplayStore :=
  parked.foldl (fun s turn => StoreCall.apply id ⟨0, 0⟩ (StoreCall.apply id ⟨0, 0⟩ s (.beginRequest "1" turn))
    (.complete "1" 2000 0)) (.new 1 Nat.one_pos none)

theorem storeAfter_run (parked : List PendingTurn) : ∃ turns, StoreRun id none turns (storeAfter parked) := by
  induction parked using List.reverseRecOn with
  | nil => exact ⟨_, .opened 1 Nat.one_pos⟩
  | append_singleton rest turn ih =>
    obtain ⟨turns, hrun⟩ := ih
    rw [storeAfter, List.foldl_append]
    exact ⟨_, .call _ (.complete "1" 2000 0) (.call _ (.beginRequest "1" turn) hrun)⟩

/-- The lookup of a turn. -/
def toldTurn (s : SessionReplayStore) (turn : PendingTurn) :
    Except PrefixMiss (List Json × List Json × ℕ) × SessionReplayStore :=
  s.previousTurnFor id ⟨0, 0⟩ turn.sessionKey turn.originalMessages (some turn.forwardedSystemHash)

/-- The store once a turn is parked behind its lookup. -/
def parkedTurn (s : SessionReplayStore) (turn : PendingTurn) : SessionReplayStore :=
  StoreCall.apply id ⟨0, 0⟩ (toldTurn s turn).2 (.beginRequest "2" turn)

/-- The chain that the turn completes under. -/
def completedChain (s : SessionReplayStore) (turn : PendingTurn) : Option ℕ :=
  (((parkedTurn s turn).complete id ⟨0, 0⟩ "2" 2000 0).trackers.peek turn.sessionKey).map
    PrefixReplayTracker.primaryChainId

/-- The stream goes on, and its completion comes to the prefix that its lookup found. -/
theorem complete_keeps_chain_appended :
    ∃ t h, (toldTurn (storeAfter [longParked]) longerParked).2.trackers.peek "k" = some t ∧ h ∈ t.held ∧
      h.chainId = 1 ∧ Rejoins t (canonicalizeSlice (storedOriginals longerParked.originalMessages)) h := by
  obtain ⟨turns, hrun⟩ := storeAfter_run [longParked]
  have htold : (toldTurn (storeAfter [longParked]) longerParked).1.toOption.map (fun found => found.2.2) = some 1 ∧
      completedChain (storeAfter [longParked]) longerParked = some 1 := by
    decide +kernel
  rcases hfound : (toldTurn (storeAfter [longParked]) longerParked).1 with miss | ⟨o, f, c⟩
  · rw [hfound] at htold
    simp [Except.toOption] at htold
  · rw [hfound] at htold
    obtain rfl : c = 1 := Option.some.inj htold.1
    obtain ⟨t, h, hpeek, -, hheld, -, -, hid, hcomplete⟩ :=
      (complete_keeps_chain_iff hrun).2 _ _ _ _ _ _ _ hfound Nat.one_ne_zero
    have hpending : (parkedTurn (storeAfter [longParked]) longerParked).pending.peek "2" = some longerParked :=
      Lru.peek_put_self _ _ _
    obtain ⟨t', hdone, hiff⟩ := hcomplete (parkedTurn (storeAfter [longParked]) longerParked) ⟨0, 0⟩ "2" longerParked
      2000 0 hpeek hpending rfl rfl
    refine ⟨t, h, hpeek, hheld, hid, hiff.mp ?_⟩
    have hchain := htold.2
    rw [completedChain, show longerParked.sessionKey = "k" from rfl] at hchain
    have hdone' : ((parkedTurn (storeAfter [longParked]) longerParked).complete id ⟨0, 0⟩ "2" 2000 0).trackers.peek
        "k" = some t' := hdone
    rw [hdone'] at hchain
    exact Option.some.inj hchain

/-- Behind a rewind the stream is found under its first chain, by a prefix that leads it exactly, and completes under
the chain of the rewound turn. -/
theorem completion_forks_chain :
    ¬ ∀ (turns : List PendingTurn) (s : SessionReplayStore), StoreRun id none turns s →
      ∀ (turn : PendingTurn) (o f : List Json) (c : ℕ), (toldTurn s turn).1 = .ok (o, f, c) → c ≠ 0 →
        matchesCanonicalPrefix o (canonicalizeSlice turn.originalMessages) = true → completedChain s turn = some c := by
  intro hall
  obtain ⟨turns, hrun⟩ := storeAfter_run [longParked, rewoundParked]
  have htold : (toldTurn (storeAfter [longParked, rewoundParked]) longerParked).1.toOption.any (fun found =>
      found.2.2 = 1 && matchesCanonicalPrefix found.1 (canonicalizeSlice longerParked.originalMessages)) = true ∧
      completedChain (storeAfter [longParked, rewoundParked]) longerParked = some 2 := by
    decide +kernel
  rcases hfound : (toldTurn (storeAfter [longParked, rewoundParked]) longerParked).1 with miss | ⟨o, f, c⟩
  · rw [hfound] at htold
    simp [Except.toOption] at htold
  · rw [hfound] at htold
    obtain ⟨hc, hexact⟩ : c = 1 ∧ matchesCanonicalPrefix o (canonicalizeSlice longerParked.originalMessages) = true := by
      simpa [Except.toOption] using htold.1
    have hkeeps := hall turns _ hrun longerParked o f c hfound (by omega) hexact
    rw [htold.2, Option.some.injEq] at hkeeps
    omega

end Headroom.PrefixReplay
