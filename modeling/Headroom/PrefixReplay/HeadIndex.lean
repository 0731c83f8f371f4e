import Headroom.Foundation.SideIndex
import Headroom.PrefixReplay.SystemGate

/-!
# The index of heads

The store lists each session under the head of the prefix that it came in with, for other sessions to find it. It is
listed again whenever a turn completes, and struck off under the head that its primary has when its tracker leaves. In
between the primary may have come to have another head.

## Main results

* `headsIndexed_runs_iff` : the runs that keep the index to the sessions held.
-/

open Foundation

namespace Headroom.PrefixReplay

open SessionReplayStore

section

variable (sha256 : String → String)

/-- The heads of a tracker: the one of its primary, if that is not empty. -/
def PrefixReplayTracker.heads (t : PrefixReplayTracker) : Set String :=
  {head | adoptionHeadHash sha256 t.lastOriginalMessages = some head}

namespace SessionReplayStore

variable (s : SessionReplayStore) (key k : String)

/-- The tracker of a session, with the heads that list it. -/
def listing : Listing PrefixReplayTracker String where
  value := s.trackers.peek k
  labels := {head | k ∈ (s.headIndex.lookup head).getD []}

/-- The index lists sessions that the store holds, and each session with a primary under the head of that. -/
structure HeadsIndexed : Prop where
  live : ∀ head, ∀ k ∈ (s.headIndex.lookup head).getD [], s.trackers.contains k = true
  covered : ∀ k t, s.trackers.peek k = some t → t.lastOriginalMessages ≠ [] →
    ∃ head, adoptionHeadHash sha256 t.lastOriginalMessages = some head ∧ k ∈ (s.headIndex.lookup head).getD []

theorem headsIndexed_iff :
    s.HeadsIndexed sha256 ↔ ∀ k, (s.listing k).InStep (PrefixReplayTracker.heads sha256) := by
  constructor
  · intro h k
    refine ⟨fun hnone => ?_, fun t ht head hhead => ?_⟩
    · ext head
      refine iff_of_false (fun hlisted => ?_) (Set.notMem_empty head)
      have hheld : (s.trackers.peek k).isSome = true := h.live head k hlisted
      have hnone' : s.trackers.peek k = none := hnone
      rw [hnone'] at hheld
      cases hheld
    · have hne : t.lastOriginalMessages ≠ [] := by
        intro hnil
        have hhead' : adoptionHeadHash sha256 t.lastOriginalMessages = some head := hhead
        rw [hnil] at hhead'
        cases hhead'
      obtain ⟨head', heq, hlisted⟩ := h.covered k t ht hne
      obtain rfl : head = head' := Option.some.inj (Eq.trans (Eq.symm hhead) heq)
      exact hlisted
  · intro h
    refine ⟨fun head k hk => ?_, fun k t ht hne => ?_⟩
    · by_contra hheld
      have hnone : (s.listing k).value = none := by
        rw [Lru.contains, Bool.not_eq_true, Option.isSome_eq_false_iff, Option.isNone_iff_eq_none] at hheld
        exact hheld
      have hmem : head ∈ (s.listing k).labels := hk
      rw [(h k).live hnone] at hmem
      exact hmem
    · have hhead : adoptionHeadHash sha256 t.lastOriginalMessages =
          some (sha256 (String.ofList (Json.arr (canonicalizeSlice (t.lastOriginalMessages.take 2))).compact)) := by
        rw [adoptionHeadHash, if_neg]
        simpa using hne
      exact ⟨_, hhead, (h k).covered t ht hhead⟩

/-! ### The index alone -/

theorem listing_indexHead (head : Option String) :
    (s.indexHead key head).listing k =
      { value := s.trackers.peek k
        labels := {h | h ∈ (s.listing k).labels ∨ (k = key ∧ head = some h)} } := by
  refine Listing.ext ?_ ?_
  · show (s.indexHead key head).trackers.peek k = s.trackers.peek k
    rw [indexHead_trackers]
  · ext h
    show k ∈ ((s.indexHead key head).headIndex.lookup h).getD [] ↔
      k ∈ (s.headIndex.lookup h).getD [] ∨ (k = key ∧ head = some h)
    rcases head with _ | head
    · simp [indexHead]
    · simp only [indexHead, Option.some.injEq]
      by_cases hmem : ((s.headIndex.lookup head).getD []).contains key = true
      · rw [if_pos hmem]
        refine ⟨Or.inl, ?_⟩
        rintro (hlisted | ⟨rfl, rfl⟩)
        · exact hlisted
        · simpa using hmem
      · rw [if_neg hmem]
        by_cases hhead : h = head
        · subst hhead
          rw [AList.lookup_insert]
          simp
        · rw [AList.lookup_insert_ne hhead]
          simp [Ne.symm hhead]

theorem listing_unindexHead (t : PrefixReplayTracker) :
    (s.unindexHead sha256 key t).listing k =
      { value := s.trackers.peek k
        labels := {h | h ∈ (s.listing k).labels ∧ ¬ (k = key ∧ h ∈ t.heads sha256)} } := by
  refine Listing.ext ?_ ?_
  · obtain ⟨index, heq⟩ := s.unindexHead_eq sha256 key t
    rw [heq]
    rfl
  · ext h
    show k ∈ ((s.unindexHead sha256 key t).headIndex.lookup h).getD [] ↔
      k ∈ (s.headIndex.lookup h).getD [] ∧
        ¬ (k = key ∧ adoptionHeadHash sha256 t.lastOriginalMessages = some h)
    rw [unindexHead]
    rcases adoptionHeadHash sha256 t.lastOriginalMessages with _ | head
    · simp
    · rw [Option.some.injEq]
      by_cases hhead : h = head
      · subst hhead
        rcases hkeys : s.headIndex.lookup h with _ | keys
        · simp [hkeys]
        · simp only [hkeys]
          split_ifs with hempty
          · rw [AList.lookup_erase, Option.getD_none, Option.getD_some]
            rw [List.isEmpty_iff, List.filter_eq_nil_iff] at hempty
            simpa using fun hk => by simpa using hempty k hk
          · rw [AList.lookup_insert]
            simp
      · have hother : ¬ (k = key ∧ head = h) := fun hboth => hhead hboth.2.symm
        rcases hkeys : s.headIndex.lookup head with _ | keys
        · simp [hkeys, hother]
        · simp only [hkeys]
          split_ifs
          · rw [AList.lookup_erase_ne hhead]
            simp [hother]
          · rw [AList.lookup_insert_ne hhead]
            simp [hother]

/-! ### A tracker that comes in -/

theorem passes_pushTracker (hk : k ≠ key) (t : PrefixReplayTracker) :
    Passes (PrefixReplayTracker.heads sha256) (s.listing k) ((s.pushTracker sha256 key t).listing k) := by
  have hstays : (∀ t', s.trackers.displaced key ≠ some (k, t')) →
      ({ s with trackers := s.trackers.put key t }).listing k = s.listing k := by
    intro hnot
    refine Listing.ext ?_ rfl
    exact Lru.peek_put_of_not_displaced hk hnot
  rw [pushTracker, Lru.push]
  dsimp only
  rcases hout : s.trackers.displaced key with _ | ⟨k', t'⟩
  · exact .same (hstays fun t' heq => by rw [hout] at heq; cases heq)
  · rw [unindexEvicted]
    by_cases hkey : k' = key
    · rw [if_pos hkey]
      refine .same (hstays fun t'' heq => ?_)
      rw [hout] at heq
      exact hk ((congrArg Prod.fst (Option.some.inj heq)).symm.trans hkey)
    · rw [if_neg hkey, listing_unindexHead]
      by_cases hleaves : k = k'
      · subst hleaves
        obtain ⟨hheld, hgone⟩ := Lru.peek_put_of_displaced (v := t) hkey hout
        refine .dropped t' hheld (Listing.ext hgone ?_)
        ext h
        show _ ∧ ¬ (k = k ∧ _) ↔ _ ∧ ¬ _
        simp only [true_and]
        rfl
      · refine .same ?_
        rw [← hstays fun t'' heq => ?_]
        · refine Listing.ext rfl ?_
          ext h
          show _ ∧ ¬ (k = k' ∧ _) ↔ _
          simp [hleaves]
        · rw [hout] at heq
          exact hleaves (congrArg Prod.fst (Option.some.inj heq)).symm

theorem listing_put_of_ne (hk : k ≠ key) {t : PrefixReplayTracker} (ht : s.trackers.peek key = some t)
    (t' : PrefixReplayTracker) :
    ({ s with trackers := s.trackers.put key t' }).listing k = s.listing k := by
  refine Listing.ext (Lru.peek_put_of_not_displaced hk fun v heq => ?_) rfl
  rw [Lru.displaced, ht] at heq
  exact hk (congrArg Prod.fst (Option.some.inj heq)).symm

theorem listing_persist (clock : Clock) (snapshot : PersistedPrefix) :
    (s.persist sha256 clock key snapshot).listing k = s.listing k := by
  rw [persist]
  split
  · rfl
  · split_ifs
    · rfl
    · rfl

end SessionReplayStore

/-! ### What a call brings in -/

/-- What a call does for the session that it names: nothing, or it leaves a tracker of this moment, listed under its
head. -/
inductive Enters (clock : Clock) (e e' : Listing PrefixReplayTracker String) : Prop
  | same (h : e' = e)
  | fresh (t : PrefixReplayTracker) (ht : e'.value = some t) (hnow : t.lastActivity = clock.instant)
      (hcovered : e.Covered (PrefixReplayTracker.heads sha256) → t.heads sha256 ⊆ e'.labels)

/-- What bringing in a tracker does to a store. -/
structure Brings (clock : Clock) (key : String) (s s' : SessionReplayStore) : Prop where
  others : ∀ k, k ≠ key → Passes (PrefixReplayTracker.heads sha256) (s.listing k) (s'.listing k)
  named : Enters sha256 clock (s.listing key) (s'.listing key)
  ttl : s'.sessionTtl = s.sessionTtl

namespace Brings

variable {sha256} {clock : Clock} {key : String} {s s' s'' : SessionReplayStore}

theorem of_listing (h : ∀ k, s'.listing k = s.listing k) (httl : s'.sessionTtl = s.sessionTtl) :
    Brings sha256 clock key s s' where
  others k _ := .same (h k)
  named := .same (h key)
  ttl := httl

theorem trans (h : Brings sha256 clock key s s') (h' : Brings sha256 clock key s' s'') :
    Brings sha256 clock key s s'' where
  others k hk := (h.others k hk).trans (h'.others k hk)
  named := by
    rcases h'.named with heq | ⟨t', ht', hnow', hcovered'⟩
    · rw [heq]
      exact h.named
    · refine .fresh t' ht' hnow' fun hcovered => hcovered' ?_
      rcases h.named with heq | ⟨t, ht, -, hafter⟩
      · rwa [heq]
      · intro v hv
        obtain rfl := Option.some.inj (ht.symm.trans hv)
        exact hafter hcovered
  ttl := h'.ttl.trans h.ttl

theorem moves (h : Brings sha256 clock key s s') (k : String) :
    Moves (PrefixReplayTracker.heads sha256) (s.listing k) (s'.listing k) := by
  by_cases hk : k = key
  · subst hk
    rcases h.named with heq | ⟨t, ht, -, hcovered⟩
    · exact .passes (.same heq)
    · exact .holds t ht hcovered
  · exact .passes (h.others k hk)

end Brings

variable {sha256} {clock : Clock} {key : String} {s : SessionReplayStore}

variable {t : PrefixReplayTracker}

/-- A new tracker under its head. -/
theorem brings_push (hnow : t.lastActivity = clock.instant) :
    Brings sha256 clock key s ((s.pushTracker sha256 key t).indexHead key
      (adoptionHeadHash sha256 t.lastOriginalMessages)) where
  others k hk := by
    have hindex : ((s.pushTracker sha256 key t).indexHead key
        (adoptionHeadHash sha256 t.lastOriginalMessages)).listing k = (s.pushTracker sha256 key t).listing k := by
      rw [listing_indexHead]
      simp only [hk, false_and, or_false]
      rfl
    rw [hindex]
    exact passes_pushTracker sha256 s key k hk t
  named := by
    rw [listing_indexHead]
    refine .fresh t ?_ hnow fun _ head hhead => Or.inr ⟨rfl, hhead⟩
    show (s.pushTracker sha256 key t).trackers.peek key = some t
    rw [pushTracker_trackers, Lru.peek_put_self]
  ttl := by rw [indexHead_sessionTtl, pushTracker_sessionTtl]

/-- A held tracker of this moment in the place of one with the same primary or under its own head. -/
theorem brings_put {t t' : PrefixReplayTracker} (ht : s.trackers.peek key = some t)
    (hnow : t'.lastActivity = clock.instant) {head : Option String}
    (hhead : t'.lastOriginalMessages = t.lastOriginalMessages ∨
      head = adoptionHeadHash sha256 t'.lastOriginalMessages) :
    Brings sha256 clock key s
      (SessionReplayStore.indexHead { s with trackers := s.trackers.put key t' } key head) where
  others k hk := by
    refine .same ?_
    rw [← listing_put_of_ne s key k hk ht t', listing_indexHead]
    simp only [hk, false_and, or_false]
    rfl
  named := by
    rw [listing_indexHead]
    refine .fresh t' (Lru.peek_put_self _ _ _) hnow fun hcovered h hh => ?_
    rcases hhead with hsame | rfl
    · refine Or.inl (hcovered t ht ?_)
      show adoptionHeadHash sha256 t.lastOriginalMessages = some h
      rw [← hsame]
      exact hh
    · exact Or.inr ⟨rfl, hh⟩
  ttl := by rw [indexHead_sessionTtl]

variable (sha256 clock) in
theorem brings_update (ht : s.trackers.peek key = some t) (read write : ℕ)
    (forwarded originals : List Json) (hash : String) :
    Brings sha256 clock key s
      (SessionReplayStore.indexHead
        { s with
          trackers := s.trackers.put key
            (t.updateFromResponse clock.instant read write forwarded (some originals) hash) } key
        (adoptionHeadHash sha256
          (t.updateFromResponse clock.instant read write forwarded (some originals) hash).lastOriginalMessages)) :=
  brings_put ht (PrefixReplayTracker.updateFromResponse_lastActivity _ _ _ _ _ _ _) (.inr rfl)

theorem brings_hydrate : Brings sha256 clock key s (s.hydrate sha256 clock key) := by
  have hsame : Brings sha256 clock key s s := .of_listing (fun _ => rfl) rfl
  rw [SessionReplayStore.hydrate]
  split_ifs
  · exact hsame
  · exact hsame
  · split
    · exact hsame
    · exact brings_push rfl

theorem brings_installAdopted (adopted : AdoptedPrefix) :
    Brings sha256 clock key s (s.installAdopted sha256 clock key adopted) := by
  rw [installAdopted]
  rcases hlive : (s.trackers.peek key).filter
    fun t => !s.idle clock t && !t.lastForwardedMessages.isEmpty with _ | t
  · exact brings_push rfl
  · exact brings_put (Option.filter_eq_some_iff.mp hlive).1 rfl (.inl rfl)

theorem brings_hydrateOrAdopt (currentOriginals canonicalCurrent : List Json) (hash : Option String) :
    Brings sha256 clock key s
      (s.hydrateOrAdopt sha256 clock key currentOriginals canonicalCurrent hash).2 := by
  have hhydrate : Brings sha256 clock key s (s.hydrate sha256 clock key) := brings_hydrate
  rw [hydrateOrAdopt]
  generalize s.hydrate sha256 clock key = s' at hhydrate ⊢
  dsimp only
  split_ifs
  · exact hhydrate
  · rcases adoptionHeadHash sha256 currentOriginals with _ | head
    · exact hhydrate
    · dsimp only
      rcases s'.adoptionCandidateInMemory clock key head canonicalCurrent with _ | adopted
      · obtain ⟨heads, hsnd⟩ := Satisfies.adoptionCandidateOnDisk_snd sha256 s' clock key head canonicalCurrent
        have hdisk : Brings sha256 clock key s
            (s'.adoptionCandidateOnDisk sha256 clock key head canonicalCurrent).2 := by
          rw [hsnd]
          exact hhydrate.trans (.of_listing (fun _ => rfl) rfl)
        dsimp only
        rcases (s'.adoptionCandidateOnDisk sha256 clock key head canonicalCurrent).1 with _ | adopted
        · exact hdisk
        · dsimp only
          split_ifs
          · exact hdisk
          · exact hdisk.trans (brings_installAdopted adopted)
      · dsimp only
        split_ifs
        · exact hhydrate
        · exact hhydrate.trans (brings_installAdopted adopted)

variable (sha256 clock key s) in
theorem brings_withTracker :
    Brings sha256 clock key s (s.withTracker sha256 clock key).1 ∧
      (s.withTracker sha256 clock key).1.trackers.peek key = some (s.withTracker sha256 clock key).2 := by
  rw [withTracker]
  rcases hheld : s.trackers.peek key with _ | t
  · refine ⟨brings_push (t := .fresh clock.instant) rfl, ?_⟩
    rw [pushTracker_trackers, Lru.peek_put_self]
  · exact ⟨.of_listing (fun _ => rfl) rfl, hheld⟩

theorem brings_persist (snapshot : PersistedPrefix) :
    Brings sha256 clock key s (s.persist sha256 clock key snapshot) := by
  refine .of_listing (fun k => listing_persist sha256 s key k clock snapshot) ?_
  rw [persist]
  split
  · rfl
  · split_ifs
    · rfl
    · rfl

theorem brings_complete {requestId : String} {parked : PendingTurn} (read write : ℕ)
    (hparked : s.pending.peek requestId = some parked) :
    Brings sha256 clock parked.sessionKey s (s.complete sha256 clock requestId read write) := by
  have hpopped : Brings sha256 clock parked.sessionKey s { s with pending := (s.pending.pop requestId).2 } :=
    .of_listing (fun _ => rfl) rfl
  refine hpopped.trans ?_
  rw [complete, Lru.pop, hparked]
  obtain ⟨hwith, hheld⟩ := brings_withTracker sha256 clock parked.sessionKey
    { s with pending := (s.pending.pop requestId).2 }
  refine hwith.trans ?_
  have hput := brings_update sha256 clock hheld read write parked.forwardedMessages parked.originalMessages
    parked.forwardedSystemHash
  dsimp only
  split_ifs
  · exact hput.trans (brings_persist _)
  · exact hput

theorem moves_expire {s' : SessionReplayStore} (hbrings : Brings sha256 clock key s s')
    (hheld : s'.trackers.peek key = some t) (hidle : s'.idle clock t = true) (k : String) :
    Moves (PrefixReplayTracker.heads sha256) (s.listing k)
      ((SessionReplayStore.unindexHead sha256 { s' with trackers := (s'.trackers.pop key).2 } key t).listing k) := by
  rw [listing_unindexHead]
  by_cases hk : k = key
  · subst hk
    rcases hbrings.named with heq | ⟨t', ht', hnow, -⟩
    · have hvalue : (s.listing k).value = some t := by
        rw [← heq]
        exact hheld
      refine .passes (.dropped t hvalue (Listing.ext (Lru.peek_pop_self _ _) ?_))
      rw [← heq]
      ext h
      show _ ∧ ¬ (k = k ∧ _) ↔ _ ∧ ¬ _
      simp only [true_and]
      rfl
    · -- A tracker of this moment does not idle.
      obtain rfl := Option.some.inj (hheld.symm.trans ht')
      rw [idle, hnow, Nat.sub_self] at hidle
      simp at hidle
  · refine .passes ((hbrings.others k hk).trans (.same (Listing.ext (Lru.peek_pop_of_ne hk) ?_)))
    ext h
    show _ ∧ ¬ (k = key ∧ _) ↔ _
    simp only [hk, false_and, not_false_eq_true, and_true]
    rfl

theorem moves_invalidate (k : String) :
    Moves (PrefixReplayTracker.heads sha256) (s.listing k) ((s.invalidate key).listing k) := by
  rw [SessionReplayStore.invalidate, Lru.modify]
  rcases hheld : s.trackers.peek key with _ | t
  · exact .passes (.same rfl)
  · by_cases hk : k = key
    · subst hk
      refine .holds t.invalidate (Lru.peek_put_self _ _ _) fun _ head hhead => ?_
      cases hhead
    · exact .passes (.same (listing_put_of_ne s key k hk hheld t.invalidate))

theorem moves_apply (clock : Clock) (c : StoreCall) (k : String) :
    Moves (PrefixReplayTracker.heads sha256) (s.listing k) ((c.apply sha256 clock s).listing k) := by
  rcases c with ⟨key, originals, hash⟩ | ⟨key, incoming⟩ | key | key | ⟨requestId, turn⟩ | ⟨requestId, read, write⟩
  · rw [StoreCall.apply, previousTurnFor]
    have hbrings : Brings sha256 clock key s
        (s.hydrateOrAdopt sha256 clock key originals (canonicalizeSlice originals) hash).2 :=
      brings_hydrateOrAdopt originals (canonicalizeSlice originals) hash
    generalize (s.hydrateOrAdopt sha256 clock key originals (canonicalizeSlice originals) hash) = adopted
      at hbrings ⊢
    have hgot : Brings sha256 clock key s { adopted.2 with trackers := (adopted.2.trackers.get key).2 } :=
      hbrings.trans (.of_listing (fun k => Listing.ext (Lru.peek_get _ _ _) rfl) rfl)
    simp only [Lru.get_fst]
    rcases hpeek : adopted.2.trackers.peek key with _ | t
    · exact hgot.moves k
    · dsimp only
      split_ifs with hidle
      · exact moves_expire hgot ((Lru.peek_get _ _ _).trans hpeek) hidle k
      · exact hgot.moves k
  · rw [StoreCall.apply, historyWillBeRewritten]
    have hbrings : Brings sha256 clock key s
        (s.hydrateOrAdopt sha256 clock key incoming (canonicalizeSlice incoming) none).2 :=
      brings_hydrateOrAdopt incoming (canonicalizeSlice incoming) none
    split
    · exact hbrings.moves k
    · split_ifs
      · exact hbrings.moves k
      · exact hbrings.moves k
      · exact hbrings.moves k
  · have hbrings : Brings sha256 clock key s (s.hydrate sha256 clock key) := brings_hydrate
    rw [StoreCall.apply, confirmedFrozenCount]
    split
    · exact hbrings.moves k
    · exact hbrings.moves k
  · exact moves_invalidate k
  · exact .passes (.same rfl)
  · rcases hparked : s.pending.peek requestId with _ | parked
    · rw [StoreCall.apply, complete_of_none sha256 s clock requestId read write hparked]
      exact .passes (.same rfl)
    · exact (brings_complete read write hparked).moves k

/-! ### Runs -/

variable (sha256) in
/-- Whatever tracker leaves the store in a call, its session is listed under the head of its primary and under no
other. -/
def LeavesOwnHeads (clock : Clock) (s : SessionReplayStore) (c : StoreCall) : Prop :=
  ∀ k t, s.trackers.peek k = some t → (c.apply sha256 clock s).trackers.peek k = none →
    ∀ head, k ∈ (s.headIndex.lookup head).getD [] → adoptionHeadHash sha256 t.lastOriginalMessages = some head

/-- A call keeps the index in step exactly when what leaves is listed under its own head alone. -/
theorem headsIndexed_apply_iff (h : s.HeadsIndexed sha256) (clock : Clock) (c : StoreCall) :
    (c.apply sha256 clock s).HeadsIndexed sha256 ↔ LeavesOwnHeads sha256 clock s c := by
  rw [headsIndexed_iff] at h ⊢
  exact forall_congr' fun k => (moves_apply clock c k).inStep_iff (h k)

/-- The store after calls at given times. -/
def runCalls (sha256 : String → String) (s : SessionReplayStore) (calls : List (Clock × StoreCall)) :
    SessionReplayStore :=
  calls.foldl (fun s c => c.2.apply sha256 c.1 s) s

theorem runCalls_append_singleton (calls : List (Clock × StoreCall)) (clock : Clock) (c : StoreCall) :
    runCalls sha256 s (calls ++ [(clock, c)]) = c.apply sha256 clock (runCalls sha256 s calls) := by
  rw [runCalls, List.foldl_append]
  rfl

theorem headsIndexed_new (capacity : ℕ) (h : 0 < capacity) (persistDir : Option (List PersistedFile)) :
    (SessionReplayStore.new capacity h persistDir).HeadsIndexed sha256 where
  live head k hk := by
    have hnone : ((∅ : AList fun _ : String => List String).lookup head).getD [] = [] := by
      rw [AList.lookup_empty]
      rfl
    have hk' : k ∈ ((∅ : AList fun _ : String => List String).lookup head).getD [] := hk
    rw [hnone] at hk'
    cases hk'
  covered k t ht := by cases ht

/-- In a run of any calls, the index is in step in every state exactly when no tracker leaves while its session is
listed under another head than that of its primary. -/
theorem headsIndexed_runs_iff (capacity : ℕ) (h : 0 < capacity) (persistDir : Option (List PersistedFile))
    (calls : List (Clock × StoreCall)) :
    (∀ done, done <+: calls → (runCalls sha256 (.new capacity h persistDir) done).HeadsIndexed sha256) ↔
      ∀ done clock c, done ++ [(clock, c)] <+: calls →
        LeavesOwnHeads sha256 clock (runCalls sha256 (.new capacity h persistDir) done) c := by
  constructor
  · intro hall done clock c hnext
    have hbefore := hall done ((List.prefix_append _ _).trans hnext)
    have hafter := hall _ hnext
    rw [runCalls_append_singleton] at hafter
    exact (headsIndexed_apply_iff hbefore clock c).mp hafter
  · intro hall done
    induction done using List.reverseRecOn with
    | nil => exact fun _ => headsIndexed_new capacity h persistDir
    | append_singleton done call ih =>
      intro hdone
      have hbefore := ih ((List.prefix_append _ _).trans hdone)
      rw [runCalls_append_singleton]
      exact (headsIndexed_apply_iff hbefore call.1 call.2).mpr (hall done call.1 call.2 hdone)

end

/-! ### A head that outlives its session -/

/-- A turn of one message, parked and completed at the start of time. -/
def turnCalls (key text : String) : List (Clock × StoreCall) :=
  [(⟨0, 0⟩, .beginRequest "1" (plainParked key "d" [("user", text)])), (⟨0, 0⟩, .complete "1" 2000 0)]

/-- A single turn leaves the index in step. -/
theorem headsIndexed_one_turn :
    (runCalls id (.new 1 Nat.one_pos none) (turnCalls "k" "a")).HeadsIndexed id := by
  refine (headsIndexed_runs_iff 1 Nat.one_pos none (turnCalls "k" "a")).mpr ?_ _ (List.prefix_refl _)
  intro done clock c hnext k t ht
  -- No tracker is there before the turn completes.
  have hempty : (runCalls id (.new 1 Nat.one_pos none) done).trackers.peek k = none := by
    rcases done with _ | ⟨first, _ | ⟨second, rest⟩⟩
    · rfl
    · obtain ⟨rfl, -⟩ := List.cons_prefix_cons.mp hnext
      rfl
    · have hlength := hnext.length_le
      simp [turnCalls] at hlength
  rw [hempty] at ht
  cases ht

/-- A session whose primary went over to a stream with another head stays listed under the first head when it is
evicted. -/
theorem not_headsIndexed :
    ¬ ∀ calls : List (Clock × StoreCall), (runCalls id (.new 1 Nat.one_pos none) calls).HeadsIndexed id := by
  intro hall
  have hindexed := hall (turnCalls "k" "a" ++ turnCalls "k" "b" ++ turnCalls "other" "c")
  have hheld := hindexed.live ((adoptionHeadHash id [plainMessage "user" "a"]).getD "") "k" (by decide +kernel)
  have hgone : (runCalls id (.new 1 Nat.one_pos none)
      (turnCalls "k" "a" ++ turnCalls "k" "b" ++ turnCalls "other" "c")).trackers.contains "k" = false := by
    decide +kernel
  rw [hgone] at hheld
  cases hheld

end Headroom.PrefixReplay
