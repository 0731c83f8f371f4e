import Mathlib.Data.List.Infix
import Headroom.PrefixReplay.Breakpoints
import Headroom.PrefixReplay.Canonical
import Headroom.PrefixReplay.Completion

/-!
# Byte stability across turns

Several streams are interleaved on one session. Each of their turns is overlaid with the prefix the
session holds for it, gets its cache breakpoints and goes out; once its response is there, what
went out is recorded. A stream whose turns extend one another sends the provider the bytes it sent
before, whatever the pipeline makes of those messages this time.

## Main results

* `StreamReach.forwarded_stable` : markers aside, a turn starts with what its stream last sent.
-/

open Foundation

namespace Headroom.PrefixReplay

open SessionReplayStore PrefixReplayTracker

variable {ι : Type*}

/-! ### Runs -/

/-- A turn of a stream: its request, what its replay is given, and where its breakpoints may go. -/
structure StreamTurn (ι : Type*) where
  stream : ι
  requestId : String
  replayed : ReplayedTurn
  tailSlots : ℕ
  scaffold : Bool

/-- The keys of the client's messages. -/
def StreamTurn.keys (t : StreamTurn ι) : List Json := t.replayed.originals.map messageKey

/-- A run of streams on a store: the stream of each turn in flight, the turns completed so far, the
latest first, and when the last one was. -/
structure StreamRun (ι : Type*) where
  store : SessionReplayStore
  streamOf : String → Option ι
  completed : List (ι × PendingTurn)
  lastCompletion : ℕ

namespace StreamRun

section

variable (sha256 : String → String) (r : StreamRun ι)

/-- The last completed turn of a stream. -/
def last [DecidableEq ι] (i : ι) : Option PendingTurn := (r.completed.find? fun c => c.1 = i).map Prod.snd

/-- What a turn forwards: the overlay's output with its breakpoints. -/
def forwarded (t : StreamTurn ι) : List Json :=
  (placeTailCacheBreakpoints (r.store.replayPrefix sha256 t.replayed).1 t.tailSlots t.scaffold).1

/-- The record of a turn that awaits its response. -/
def parkedOf (t : StreamTurn ι) : PendingTurn where
  sessionKey := t.replayed.key
  originalMessages := t.replayed.originals
  forwardedMessages := r.forwarded sha256 t
  forwardedSystemHash := t.replayed.systemHash

/-- A turn goes out. -/
def turn (t : StreamTurn ι) : StreamRun ι where
  store :=
    (r.store.previousTurnFor sha256 t.replayed.clock t.replayed.key t.replayed.originals
      (some t.replayed.systemHash)).2.beginRequest t.requestId t.replayed.key
        t.replayed.originals (r.forwarded sha256 t) t.replayed.systemHash
  streamOf := Function.update r.streamOf t.requestId (some t.stream)
  completed := r.completed
  lastCompletion := r.lastCompletion

/-- The turn that a completion records, with its stream. -/
def completing (requestId : String) : Option (ι × PendingTurn) :=
  (r.store.pending.peek requestId).bind fun parked =>
    (r.streamOf requestId).map fun i => (i, parked)

/-- The response of a turn arrives. -/
def complete (clock : Clock) (requestId : String) (read write : ℕ) : StreamRun ι where
  store := r.store.complete sha256 clock requestId read write
  streamOf := r.streamOf
  completed := (r.completing requestId).toList ++ r.completed
  lastCompletion := if (r.completing requestId).isSome then clock.instant else r.lastCompletion

/-- Whether the alternates are within their caps with the prefix that a completion displaces. -/
def withinCaps (requestId : String) : Bool :=
  (r.store.pending.peek requestId).all fun parked =>
    (r.store.trackers.peek parked.sessionKey).all fun t =>
      !t.displaces (canonicalizeSlice parked.stored) ||
        decide (Budget.Within (fun h : HeldPrefix => h.originals.length) maxAlternatePrefixes
          maxAlternateMessages t.withDisplaced)

end

end StreamRun

/-- The runs of the turns `Sends` on one session, from an empty store, in which no turn finds its
tracker idled past its time to live and no completion evicts an alternate. -/
inductive StreamReach (sha256 : String → String) (key : String) (Sends : StreamTurn ι → Prop) :
    StreamRun ι → Prop
  | initial (capacity : ℕ) (h : 0 < capacity) (persists : Bool) (now : ℕ) :
      StreamReach sha256 key Sends ⟨emptyStore capacity h persists, fun _ => none, [], now⟩
  | turn {r : StreamRun ι} (hr : StreamReach sha256 key Sends r) {t : StreamTurn ι}
      (hsends : Sends t) (hkey : t.replayed.key = key)
      (hlive : t.replayed.clock.instant ≤ r.lastCompletion + sessionTtl) :
      StreamReach sha256 key Sends (r.turn sha256 t)
  | complete {r : StreamRun ι} (hr : StreamReach sha256 key Sends r) (clock : Clock)
      (requestId : String) (read write : ℕ) (hcaps : r.withinCaps requestId = true) :
      StreamReach sha256 key Sends (r.complete sha256 clock requestId read write)

/-- A turn goes on from the last completed turn of its stream: its messages extend that turn's,
under the same system, the confirmed floor covers what is replayed, and the API takes the `system`
messages of the splice. -/
structure Continues [DecidableEq ι] (r : StreamRun ι) (t : StreamTurn ι) (previous : PendingTurn) : Prop where
  last : r.last t.stream = some previous
  keys : previous.keys <+: t.keys
  system : previous.forwardedSystemHash = t.replayed.systemHash
  floor : previous.storedOut.length ≤ t.replayed.confirmedFrozenCount
  adjacent : t.replayed.anthropicMessages = true → firstIllegalSystemPosition
    (previous.storedOut ++ t.replayed.optimized.drop previous.stored.length) = none
  live : t.replayed.clock.instant ≤ r.lastCompletion + sessionTtl

/-- Markers aside, the messages forwarded start with what is stored of the ones forwarded
before. -/
def StartsWith (forwarded : List Json) (previous : PendingTurn) : Prop :=
  previous.storedOut.map withoutMarkers <+: forwarded.map withoutMarkers

instance (forwarded : List Json) (previous : PendingTurn) :
    Decidable (StartsWith forwarded previous) :=
  inferInstanceAs (Decidable (_ <+: _))

/-- The replayable messages of no turn lead a turn of another stream. -/
def Separated (Sends : StreamTurn ι → Prop) : Prop :=
  ∀ t t', Sends t → Sends t' → t.stream ≠ t'.stream →
    storedOriginals t.replayed.originals ≠ [] →
      ¬ (storedOriginals t.replayed.originals).map messageKey <+: t'.keys

/-- The pipeline emits a message for each of the client's. -/
def Emits (Sends : StreamTurn ι → Prop) : Prop :=
  ∀ t, Sends t → t.replayed.originals.length ≤ t.replayed.optimized.length

/-! ### What a run records -/

/-- A parked turn is one of the turns sent on its stream, with a settled message at least for each
of the client's. -/
structure SentOn (Sends : StreamTurn ι → Prop) (i : ι) (parked : PendingTurn) : Prop where
  sent : ∃ t, Sends t ∧ t.stream = i ∧ t.replayed.originals = parked.originalMessages
  emitted : parked.originalMessages.length ≤ parked.forwardedMessages.length
  settled : ∀ m ∈ parked.forwardedMessages, Settled m

/-- A held prefix is the record of a turn. -/
def RecordOf (parked : PendingTurn) (h : HeldPrefix) : Prop :=
  h.originals = parked.stored ∧ h.forwarded = parked.storedOut ∧
    h.systemHash = parked.forwardedSystemHash

/-- A tracker holds records of completed turns only, and of the last completed turn of each stream
it holds the one that leads it. -/
structure HoldsStreams [DecidableEq ι] (completed : List (ι × PendingTurn)) (t : PrefixReplayTracker) : Prop where
  recorded : ∀ h ∈ t.held, h.originals ≠ [] → ∃ c ∈ completed, RecordOf c.2 h
  latest : ∀ i previous, (completed.find? fun c => c.1 = i) = some (i, previous) →
    previous.stored ≠ [] → ∃ h ∈ t.held, RecordOf previous h
  only : ∀ i previous, (completed.find? fun c => c.1 = i) = some (i, previous) →
    ∀ h ∈ t.held, h.originals ≠ [] →
      h.originals.map messageKey <+: previous.stored.map messageKey → RecordOf previous h

section

variable {Sends : StreamTurn ι → Prop} {completed : List (ι × PendingTurn)}
  {t : PrefixReplayTracker} {i j : ι} {a b turn : PendingTurn} {now read write : ℕ}

theorem StreamRun.last_eq_some [DecidableEq ι] {r : StreamRun ι} : r.last i = some a ↔
    (r.completed.find? fun c => c.1 = i) = some (i, a) := by
  rw [StreamRun.last, Option.map_eq_some_iff]
  constructor
  · rintro ⟨c, hc, rfl⟩
    have hi : c.1 = i := by simpa using List.find?_some hc
    rw [hc, ← hi]
  · intro h
    exact ⟨_, h, rfl⟩

/-- The replayable messages of a stream do not lead a turn of another one. -/
theorem not_leads (hsep : Separated Sends) (ha : SentOn Sends i a) (hb : SentOn Sends j b)
    (hij : i ≠ j) (hne : a.stored ≠ []) : ¬ a.stored.map messageKey <+: b.keys := by
  obtain ⟨t, ht, rfl, hta⟩ := ha.sent
  obtain ⟨t', ht', rfl, htb⟩ := hb.sent
  rw [PendingTurn.stored, ← hta] at hne ⊢
  rw [PendingTurn.keys, ← htb]
  exact hsep t t' ht ht' hij hne

/-- Something is forwarded for a stored prefix. -/
theorem SentOn.storedOut_ne_nil (ha : SentOn Sends i a) (hne : a.stored ≠ []) :
    a.stored.length ≤ a.storedOut.length ∧ a.storedOut ≠ [] := by
  have hlen : a.storedOut.length + a.originalMessages.length =
      a.stored.length + a.forwardedMessages.length := length_storedForwarded ha.emitted
  have hpos := List.length_pos_of_ne_nil hne
  have hemit := ha.emitted
  refine ⟨?_, List.ne_nil_of_length_pos ?_⟩ <;> omega

theorem recordOf_primary : RecordOf turn (afterTurn t now read write turn).primary :=
  afterTurn_primary _ _ _ _ _

theorem keys_eq_of_sameMessages {o o' : List Json} (h : sameMessages o o' = true) :
    o.map messageKey = o'.map messageKey := by
  have hnorm : o.map Json.norm = o'.map Json.norm := of_decide_eq_true h
  clear h
  induction o generalizing o' with
  | nil => rw [List.map_eq_nil_iff.mp hnorm.symm]
  | cons x xs ih =>
    cases o' with
    | nil => cases hnorm
    | cons y ys =>
      obtain ⟨hxy, hrest⟩ := List.cons.inj hnorm
      rw [List.map_cons, List.map_cons, messageKey_eq_of_sameValue hxy, ih hrest]

/-- A prefix that does not lead a completed turn stays held within the caps, or the most recent one
holds the same messages and stays. -/
theorem stays_held {h : HeldPrefix} (hh : h ∈ t.held) (hfwd : h.forwarded ≠ [])
    (hnot : matchesCanonicalPrefix h.originals (canonicalizeSlice turn.stored) = false)
    (hcaps : t.displaces (canonicalizeSlice turn.stored) = true →
      trimAlternates t.withDisplaced = t.withDisplaced) :
    h ∈ (afterTurn t now read write turn).held ∨
      (sameMessages h.originals t.primary.originals = true ∧
        (matchesCanonicalPrefix t.primary.originals (canonicalizeSlice turn.stored) = false →
          t.primary ∈ (afterTurn t now read write turn).held)) := by
  have halternates : (afterTurn t now read write turn).alternates =
      (if t.displaces (canonicalizeSlice turn.stored) then trimAlternates t.withDisplaced
        else t.alternates).filter fun h =>
          !matchesCanonicalPrefix h.originals (canonicalizeSlice turn.stored) :=
    updateFromResponse_alternates _ _ _ _ _ _ _
  by_cases hdisplaces : t.displaces (canonicalizeSlice turn.stored) = true
  · rw [if_pos hdisplaces, hcaps hdisplaces] at halternates
    have hin : ∀ x ∈ t.withDisplaced,
        matchesCanonicalPrefix x.originals (canonicalizeSlice turn.stored) = false →
        x ∈ (afterTurn t now read write turn).held := by
      intro x hx hxnot
      refine List.mem_cons_of_mem _ ?_
      rw [halternates, List.mem_filter, hxnot]
      exact ⟨hx, rfl⟩
    rcases List.mem_cons.mp hh with rfl | halt
    · exact Or.inl (hin _ List.mem_cons_self hnot)
    · by_cases hsame : sameMessages h.originals t.primary.originals = true
      · exact Or.inr ⟨hsame, hin _ List.mem_cons_self⟩
      · refine Or.inl (hin h (List.mem_cons_of_mem _ (List.mem_filter.mpr ⟨halt, ?_⟩)) hnot)
        exact (Bool.not_eq_true' _).mpr (Bool.not_eq_true _ |>.mp hsame)
  · left
    rw [if_neg hdisplaces] at halternates
    rcases List.mem_cons.mp hh with rfl | halt
    · -- The most recent prefix would have been displaced.
      refine absurd ?_ hdisplaces
      have hempty : t.lastForwardedMessages.isEmpty = false := List.isEmpty_eq_false_iff.mpr hfwd
      have hmatch : matchesCanonicalPrefix t.lastOriginalMessages
          (canonicalizeSlice turn.stored) = false := hnot
      simp only [displaces, hempty, hmatch, Bool.not_false, Bool.and_self]
    · refine List.mem_cons_of_mem _ ?_
      rw [halternates, List.mem_filter, hnot]
      exact ⟨halt, rfl⟩

/-- A completion keeps the record of the last completed turn of every stream. -/
theorem HoldsStreams.update [DecidableEq ι] (hsep : Separated Sends) (hturn : SentOn Sends i turn)
    (hcompleted : ∀ c ∈ completed, SentOn Sends c.1 c.2) (ht : HoldsStreams completed t)
    (hcaps : t.displaces (canonicalizeSlice turn.stored) = true →
      trimAlternates t.withDisplaced = t.withDisplaced) :
    HoldsStreams ((i, turn) :: completed) (afterTurn t now read write turn) := by
  have hother : ∀ {j previous}, (((i, turn) :: completed).find? fun c => c.1 = j) =
      some (j, previous) → (j = i ∧ previous = turn) ∨
        (j ≠ i ∧ (completed.find? fun c => c.1 = j) = some (j, previous)) := by
    intro j previous hfind
    by_cases hj : i = j
    · rw [List.find?_cons_of_pos (by simpa using hj), Option.some.injEq, Prod.mk.injEq] at hfind
      exact Or.inl ⟨hj.symm, hfind.2.symm⟩
    · rw [List.find?_cons_of_neg (by simpa using hj)] at hfind
      exact Or.inr ⟨Ne.symm hj, hfind⟩
  have hlead : ∀ {j previous}, j ≠ i → (completed.find? fun c => c.1 = j) = some (j, previous) →
      ∀ h : HeldPrefix, h.originals = previous.stored → h.originals ≠ [] →
        matchesCanonicalPrefix h.originals (canonicalizeSlice turn.stored) = false := by
    intro j previous hj hfind h ho hne
    rw [← Bool.not_eq_true, matchesCanonicalPrefix_iff]
    rintro ⟨-, hpre⟩
    rw [ho] at hne hpre
    exact not_leads hsep (hcompleted _ (List.mem_of_find?_eq_some hfind)) hturn hj hne
      (hpre.trans (stored_keys_lead turn))
  refine ⟨fun h hh hne => ?_, fun j previous hfind hne => ?_, fun j previous hfind h hh hne hpre => ?_⟩
  · rcases mem_held_afterTurn hh with rfl | ⟨hold, -⟩
    · exact ⟨_, List.mem_cons_self, recordOf_primary⟩
    · obtain ⟨c, hc, hrecord⟩ := ht.recorded h hold hne
      exact ⟨c, List.mem_cons_of_mem _ hc, hrecord⟩
  · rcases hother hfind with ⟨rfl, rfl⟩ | ⟨hj, hfind⟩
    · exact ⟨_, List.mem_cons_self, recordOf_primary⟩
    · obtain ⟨h, hh, hrecord⟩ := ht.latest j previous hfind hne
      have hsent := hcompleted _ (List.mem_of_find?_eq_some hfind)
      have hfwd : h.forwarded ≠ [] := by
        rw [hrecord.2.1]
        exact (hsent.storedOut_ne_nil hne).2
      have hne' : h.originals ≠ [] := by rwa [hrecord.1]
      rcases stays_held hh hfwd (hlead hj hfind h hrecord.1 hne') hcaps with
        hheld | ⟨hsame, hheld⟩
      · exact ⟨h, hheld, hrecord⟩
      · -- The most recent prefix has the same keys, so it is the record as well.
        have hkeys := keys_eq_of_sameMessages hsame
        have hprimary : t.primary.originals ≠ [] := by
          intro hnil
          rw [hnil, List.map_nil, List.map_eq_nil_iff] at hkeys
          exact hne' hkeys
        have hrecord' := ht.only j previous hfind t.primary List.mem_cons_self hprimary (by
          rw [← hkeys, hrecord.1])
        exact ⟨_, hheld (hlead hj hfind _ hrecord'.1 hprimary), hrecord'⟩
  · rcases hother hfind with ⟨rfl, rfl⟩ | ⟨hj, hfind⟩
    · rcases mem_held_afterTurn hh with rfl | ⟨-, hnot⟩
      · exact recordOf_primary
      · rw [matchesCanonicalPrefix_iff.mpr ⟨hne, hpre⟩] at hnot
        cases hnot
    · rcases mem_held_afterTurn hh with rfl | ⟨hold, -⟩
      · have hsent := hcompleted _ (List.mem_of_find?_eq_some hfind)
        rw [(recordOf_primary (t := t)).1] at hne hpre
        exact absurd (hpre.trans (stored_keys_lead previous))
          (not_leads hsep hturn hsent hj.symm hne)
      · exact ht.only j previous hfind h hold hne hpre

end

/-! ### The invariant of a run -/

/-- What holds along a run: the session's tracker, if there is one, holds the last completed turn of
each stream. -/
structure StreamInv [DecidableEq ι] (sha256 : String → String) (key : String)
    (Sends : StreamTurn ι → Prop) (r : StreamRun ι) : Prop where
  session : OneSession sha256 key r.store
  ttl : r.store.sessionTtl = sessionTtl
  parked : ∀ e ∈ r.store.pending.entries, ∃ i, r.streamOf e.1 = some i ∧ SentOn Sends i e.2
  completed : ∀ c ∈ r.completed, SentOn Sends c.1 c.2
  tracker : (r.store.trackers.peek key = none ∧ r.store.persistDir.getD [] = [] ∧
      r.completed = []) ∨
    ∃ t, r.store.trackers.peek key = some t ∧ HoldsStreams r.completed t ∧
      t.lastActivity = r.lastCompletion

section

variable [DecidableEq ι] {sha256 : String → String} {key : String} {Sends : StreamTurn ι → Prop}
  {r : StreamRun ι} {t : StreamTurn ι} {clock : Clock}

theorem StreamInv.not_idle (hinv : StreamInv sha256 key Sends r)
    (hlive : clock.instant ≤ r.lastCompletion + sessionTtl) {tracker : PrefixReplayTracker}
    (ht : r.store.trackers.peek key = some tracker) : r.store.idle clock tracker = false := by
  rcases hinv.tracker with ⟨hnone, -⟩ | ⟨tracker', ht', -, hactive⟩
  · rw [hnone] at ht
    cases ht
  · obtain rfl := Option.some.inj (ht'.symm.trans ht)
    simp only [idle, hinv.ttl, hactive, decide_eq_false_iff_not, not_lt]
    omega

/-- A session without a tracker has no file to restore one from. -/
theorem StreamInv.hydrate (hinv : StreamInv sha256 key Sends r) :
    r.store.hydrate sha256 clock key = r.store := by
  rcases hinv.tracker with ⟨-, hfiles, -⟩ | ⟨tracker, ht, -⟩
  · rcases r.store.hydrate_cases sha256 clock key with heq | ⟨-, file, -, hfile, -⟩
    · exact heq
    · rw [hfiles] at hfile
      exact absurd hfile List.not_mem_nil
  · exact hydrate_of_peek sha256 r.store clock key ht

omit [DecidableEq ι] in
theorem StreamRun.sentOn_parkedOf (hemits : Emits Sends) (ht : Sends t) :
    SentOn Sends t.stream (r.parkedOf sha256 t) := by
  refine ⟨⟨t, ht, rfl, rfl⟩, ?_, fun m hm => settled_of_mem_place _ _ _ hm⟩
  show t.replayed.originals.length ≤ (r.forwarded sha256 t).length
  rw [StreamRun.forwarded, length_place, replayPrefix]
  refine (hemits t ht).trans ?_
  cases (r.store.previousTurnFor sha256 t.replayed.clock t.replayed.key t.replayed.originals
    (some t.replayed.systemHash)).1 with
  | error miss => exact le_rfl
  | ok found => exact length_le_overlay _ _ _ _ _ _ _

theorem StreamInv.turn (hemits : Emits Sends) (hinv : StreamInv sha256 key Sends r)
    (hsends : Sends t) (hkey : t.replayed.key = key)
    (hlive : t.replayed.clock.instant ≤ r.lastCompletion + sessionTtl) :
    StreamInv sha256 key Sends (r.turn sha256 t) := by
  subst hkey
  have hsnd := previousTurnFor_snd hinv.session hinv.hydrate (fun _ => hinv.not_idle hlive)
    t.replayed.originals (some t.replayed.systemHash)
  have hsession := hinv.session.previousTurnFor t.replayed.clock t.replayed.originals
    (some t.replayed.systemHash)
  refine ⟨hsession.beginRequest t.requestId _ _ _, ?_, fun e he => ?_, hinv.completed, ?_⟩
  · simp only [StreamRun.turn, beginRequest, hsnd, hinv.ttl]
  · simp only [StreamRun.turn, beginRequest, hsnd] at he ⊢
    rcases Lru.mem_put he with rfl | ⟨he, hne⟩
    · exact ⟨t.stream, Function.update_self _ _ _, r.sentOn_parkedOf hemits hsends⟩
    · obtain ⟨i, hi, hsent⟩ := hinv.parked e he
      exact ⟨i, by rw [Function.update_of_ne hne, hi], hsent⟩
  · simp only [StreamRun.turn, beginRequest, hsnd, Lru.peek_get]
    exact hinv.tracker

theorem StreamInv.complete (hsep : Separated Sends) (hinv : StreamInv sha256 key Sends r)
    (clock : Clock) {requestId : String} (read write : ℕ)
    (hcaps : r.withinCaps requestId = true) :
    StreamInv sha256 key Sends (r.complete sha256 clock requestId read write) := by
  have hsession := hinv.session.complete clock requestId read write
  cases hpeek : r.store.pending.peek requestId with
  | none =>
    have heq := complete_of_none sha256 r.store clock requestId read write hpeek
    have hsame : r.complete sha256 clock requestId read write =
        ⟨r.store.complete sha256 clock requestId read write, r.streamOf, r.completed,
          r.lastCompletion⟩ := by
      simp [StreamRun.complete, StreamRun.completing, hpeek]
    rw [hsame]
    refine ⟨hsession, ?_, ?_, hinv.completed, ?_⟩
    · rw [heq]
      exact hinv.ttl
    · rw [heq]
      exact fun e he => hinv.parked e (Lru.mem_pop.mp he).1
    · rw [heq]
      exact hinv.tracker
  | some parked =>
    have hmem := (r.store.pending.peek_eq_some_iff requestId parked).mp hpeek
    obtain ⟨i, hi, hsent⟩ := hinv.parked _ hmem
    have hkey : parked.sessionKey = key := hinv.session.pending _ hmem
    obtain ⟨trackers, -, htrackers, hpending, httl, -⟩ :=
      complete_of_some sha256 r.store clock requestId read write hpeek
    have hsame : r.complete sha256 clock requestId read write =
        ⟨r.store.complete sha256 clock requestId read write, r.streamOf,
          (i, parked) :: r.completed, clock.instant⟩ := by
      simp [StreamRun.complete, StreamRun.completing, hpeek, hi]
    rw [hsame]
    refine ⟨hsession, httl.trans hinv.ttl, fun e he => ?_, fun c hc => ?_, Or.inr ?_⟩
    · rw [hpending] at he
      exact hinv.parked e (Lru.mem_pop.mp he).1
    · rcases List.mem_cons.mp hc with rfl | hc
      · exact hsent
      · exact hinv.completed c hc
    · refine ⟨completedTracker r.store clock read write parked, ?_, ?_,
        updateFromResponse_lastActivity _ _ _ _ _ _ _⟩
      · rw [htrackers, hkey, Lru.peek_put_self]
      · have hwithin : ∀ tracker, r.store.trackers.peek parked.sessionKey = some tracker →
            tracker.displaces (canonicalizeSlice parked.stored) = true →
            trimAlternates tracker.withDisplaced = tracker.withDisplaced := by
          intro tracker htracker hdisplaces
          simp only [StreamRun.withinCaps, hpeek, htracker, Option.all_some, hdisplaces,
            Bool.not_true, Bool.false_or, decide_eq_true_eq] at hcaps
          exact Budget.trim_eq_self hcaps
        rw [completedTracker]
        rcases hinv.tracker with ⟨hnone, -, hempty⟩ | ⟨tracker, ht, hholds, -⟩
        · rw [hkey, hnone, Option.getD_none, hempty]
          have hfresh : HoldsStreams ([] : List (ι × PendingTurn)) (.fresh clock.instant) := by
            refine ⟨fun h hh hne => ?_, fun i turn h => absurd h (Option.some_ne_none _).symm,
              fun i turn h => absurd h (Option.some_ne_none _).symm⟩
            rw [List.mem_singleton.mp hh] at hne
            exact absurd rfl hne
          exact hfresh.update hsep hsent (fun c hc => absurd hc List.not_mem_nil)
            fun hdisplaces => absurd hdisplaces Bool.false_ne_true
        · have ht' : r.store.trackers.peek parked.sessionKey = some tracker := hkey ▸ ht
          rw [ht', Option.getD_some]
          exact hholds.update hsep hsent hinv.completed (hwithin tracker ht')

theorem StreamReach.inv (hsep : Separated Sends) (hemits : Emits Sends)
    (hr : StreamReach sha256 key Sends r) : StreamInv sha256 key Sends r := by
  induction hr with
  | initial capacity h persists now =>
    exact ⟨OneSession.emptyStore capacity h persists, rfl, fun e he => absurd he List.not_mem_nil,
      fun c hc => absurd hc List.not_mem_nil,
      Or.inl ⟨rfl, emptyStore_persistDir capacity h persists, rfl⟩⟩
  | turn hr hsends hkey hlive ih => exact ih.turn hemits hsends hkey hlive
  | complete hr clock requestId read write hcaps ih => exact ih.complete hsep clock read write hcaps

/-! ### What a turn forwards -/

/-- The tracker picks the record of the last completed turn of the stream, if no deeper one of the
stream leads the turn. -/
theorem HoldsStreams.pick (hsep : Separated Sends) {completed : List (ι × PendingTurn)}
    {tracker : PrefixReplayTracker} {previous : PendingTurn}
    (hcompleted : ∀ c ∈ completed, SentOn Sends c.1 c.2) (hholds : HoldsStreams completed tracker)
    (hsends : Sends t)
    (hlast : (completed.find? fun c => c.1 = t.stream) = some (t.stream, previous))
    (hkeys : previous.keys <+: t.keys) (hne : previous.stored ≠ [])
    (hdeepest : ∀ c ∈ completed, c.1 = t.stream → c.2.stored.map messageKey <+: t.keys →
      c.2.depth ≤ previous.depth) :
    ∃ h, pickReplayCandidate tracker (canonicalizeSlice t.replayed.originals)
      (systemOk (some previous.forwardedSystemHash)) = some h ∧ RecordOf previous h := by
  obtain ⟨e, he, hrecord⟩ := hholds.latest _ previous hlast hne
  have hsent := hcompleted _ (List.mem_of_find?_eq_some hlast)
  have hleads : leadsTurn (canonicalizeSlice t.replayed.originals)
      (systemOk (some previous.forwardedSystemHash)) e = true := by
    have hfwd : e.forwarded.isEmpty = false := by
      rw [hrecord.2.1, List.isEmpty_eq_false_iff]
      exact (hsent.storedOut_ne_nil hne).2
    have hmatch : matchesCanonicalPrefix e.originals (canonicalizeSlice t.replayed.originals) =
        true := by
      rw [hrecord.1]
      exact matchesCanonicalPrefix_iff.mpr ⟨hne, (stored_keys_lead previous).trans hkeys⟩
    simp only [leadsTurn, hfwd, hmatch, hrecord.2.2, systemOk, Option.map_some, Option.getD_some,
      beq_self_eq_true, Bool.not_false, Bool.and_self]
  cases hpick : pickReplayCandidate tracker (canonicalizeSlice t.replayed.originals)
      (systemOk (some previous.forwardedSystemHash)) with
  | none => exact absurd hleads (by simp [(pickReplayCandidate_eq_none.mp hpick e he).1])
  | some h =>
    refine ⟨h, rfl, ?_⟩
    rcases pickReplayCandidate_spec hpick with ⟨hh, hlead, -⟩ | ⟨-, -, hnone, -⟩
    · -- What leads the turn is of its own stream, and no deeper than the last completed turn.
      simp only [leadsTurn, Bool.and_eq_true, matchesCanonicalPrefix_iff] at hlead
      obtain ⟨⟨-, hnonempty, hpre⟩, -⟩ := hlead
      obtain ⟨c, hc, hof⟩ := hholds.recorded h hh hnonempty
      have hstored : c.2.stored ≠ [] := hof.1 ▸ hnonempty
      rw [hof.1] at hpre
      have hstream : c.1 = t.stream := by
        by_contra hother
        obtain ⟨t', ht', hstream', horiginals⟩ := (hcompleted c hc).sent
        refine hsep t' t ht' hsends (hstream' ▸ hother) ?_ ?_
        · rw [horiginals]
          exact hstored
        · rw [horiginals]
          exact hpre
      refine hholds.only _ previous hlast h hh hnonempty ?_
      rw [hof.1]
      refine List.prefix_of_prefix_length_le hpre ((stored_keys_lead previous).trans hkeys) ?_
      simpa only [List.length_map, PendingTurn.depth] using hdeepest c hc hstream hpre
    · rw [hnone e he] at hleads
      cases hleads

/-- Markers aside, a turn that goes on from the last completed turn of its stream starts with what
is stored of the messages that turn forwarded, whatever the pipeline made of them this time. -/
theorem StreamReach.forwarded_stable (hsep : Separated Sends) (hemits : Emits Sends)
    (hr : StreamReach sha256 key Sends r) (hsends : Sends t) (hkey : t.replayed.key = key)
    {previous : PendingTurn} (hcontinues : Continues r t previous)
    (hreplayable : previous.storedOut ≠ [] → previous.stored ≠ [])
    (hdeepest : ∀ c ∈ r.completed, c.1 = t.stream → c.2.stored.map messageKey <+: t.keys →
      c.2.depth ≤ previous.depth) : StartsWith (r.forwarded sha256 t) previous := by
  subst hkey
  by_cases hout : previous.storedOut = []
  · rw [StartsWith, hout]
    exact List.nil_prefix
  have hne := hreplayable hout
  have hinv := hr.inv hsep hemits
  have hlast := StreamRun.last_eq_some.mp hcontinues.last
  have hsent := hinv.completed _ (List.mem_of_find?_eq_some hlast)
  rcases hinv.tracker with ⟨-, -, hempty⟩ | ⟨tracker, ht, hholds, -⟩
  · rw [hempty] at hlast
    cases hlast
  obtain ⟨h, hpick, ho, hf, -⟩ := hholds.pick hsep hinv.completed hsends hlast hcontinues.keys hne
    hdeepest
  rw [hcontinues.system] at hpick
  have hanswering : r.store.answeringTracker sha256 t.replayed.clock t.replayed.key
      t.replayed.originals (some t.replayed.systemHash) = some tracker := by
    rw [answeringTracker, hydrateOrAdopt_of_oneSession hinv.session, hinv.hydrate]
    refine Option.filter_eq_some_iff.mpr ⟨ht, ?_⟩
    simp only [hinv.not_idle hcontinues.live ht, Bool.not_false]
  have hoverlay : (r.store.replayPrefix sha256 t.replayed).1 =
      previous.storedOut ++ t.replayed.optimized.drop previous.stored.length := by
    rw [replayPrefix, previousTurnFor_of_answering hanswering, lookup_of_pick hpick]
    simp only [Except.map, overlayTurn, ho, hf]
    exact overlay_of_leads _ _ _ _ _ _ ((stored_keys_lead previous).trans hcontinues.keys) hne
      (hsent.storedOut_ne_nil hne).1 (hemits t hsends) hcontinues.floor hcontinues.adjacent
  have hsettled : previous.storedOut.map (fun m => withoutMarkers (settle m)) =
      previous.storedOut.map withoutMarkers := by
    refine List.map_congr_left fun m hm => ?_
    exact (hsent.settled m ((storedForwarded_lead _ _).subset hm)).withoutMarkers_settle
  rw [StartsWith, StreamRun.forwarded, withoutMarkers_place, hoverlay, List.map_append, hsettled]
  exact List.prefix_append _ _

end

/-! ### Runs of plain turns -/

/-- A turn of plain messages with what the pipeline emits for them. -/
def plainStreamTurn (stream requestId : String) (messages optimized : List (String × String)) :
    StreamTurn String where
  stream := stream
  requestId := requestId
  replayed :=
    { clock := ⟨0, 0⟩
      key := "k"
      originals := plainMessages messages
      optimized := plainMessages optimized
      systemHash := "d"
      confirmedFrozenCount := 8
      anthropicMessages := true }
  tailSlots := 2
  scaffold := false

/-- Each turn goes out and completes before the next one. -/
def runOf (turns : List (StreamTurn String)) : StreamRun String :=
  turns.foldl (fun r t => (r.turn id t).complete id ⟨0, 0⟩ t.requestId 2000 0)
    ⟨emptyStore 1 Nat.one_pos false, fun _ => none, [], 0⟩

/-- Whether no turn of a run finds its tracker idled, and no completion evicts an alternate. -/
def runsWithin (turns : List (StreamTurn String)) : Bool :=
  turns.inits.all fun front => front.getLast?.all fun t =>
    t.replayed.key == "k" && decide (t.replayed.clock.instant ≤ sessionTtl) &&
      ((runOf front.dropLast).turn id t).withinCaps t.requestId

theorem reach_runOf {Sends : StreamTurn String → Prop} {turns : List (StreamTurn String)}
    (hsends : ∀ t ∈ turns, Sends t) (h : runsWithin turns = true) :
    StreamReach id "k" Sends (runOf turns) := by
  induction turns using List.reverseRecOn with
  | nil => exact .initial 1 Nat.one_pos false 0
  | append_singleton front t ih =>
    have hfront : runsWithin front = true := by
      simp only [runsWithin, List.all_eq_true] at h ⊢
      exact fun l hl => h l ((List.mem_inits _ _).mpr
        (((List.mem_inits _ _).mp hl).trans (List.prefix_append _ _)))
    have hlast := List.all_eq_true.mp h (front ++ [t]) ((List.mem_inits _ _).mpr List.prefix_rfl)
    simp only [List.getLast?_append, List.getLast?_singleton, Option.some_or, Option.all_some,
      List.dropLast_concat, Bool.and_eq_true, beq_iff_eq, decide_eq_true_eq] at hlast
    rw [runOf, List.foldl_append]
    refine .complete (.turn (ih (fun t ht => hsends t (List.mem_append_left _ ht)) hfront)
      (hsends t (by simp)) hlast.1.1 (Nat.le_add_left_of_le hlast.1.2)) _ _ _ _ hlast.2

/-- The first turn of a stream. -/
def askTurn : StreamTurn String := plainStreamTurn "a" "1" [("user", "a")] [("user", "a1")]

/-- A turn of another stream. -/
def otherTurn : StreamTurn String := plainStreamTurn "b" "2" [("user", "q")] [("user", "q1")]

/-- The second turn of the first stream, its opening message compressed in another way. -/
def nextTurn : StreamTurn String :=
  plainStreamTurn "a" "3" [("user", "a"), ("user", "b")] [("user", "a2"), ("user", "b2")]

/-- The second turn of a stream starts with what its first one forwarded, another stream between
them. -/
theorem forwarded_stable_interleaved : StartsWith ((runOf [askTurn, otherTurn]).forwarded id
    nextTurn) ((runOf []).parkedOf id askTurn) := by
  have hsep : Separated fun t => t ∈ [askTurn, otherTurn, nextTurn] := by
    have : ∀ t ∈ [askTurn, otherTurn, nextTurn], ∀ t' ∈ [askTurn, otherTurn, nextTurn],
        t.stream ≠ t'.stream → storedOriginals t.replayed.originals ≠ [] →
          ¬ (storedOriginals t.replayed.originals).map messageKey <+: t'.keys := by
      decide +kernel
    exact fun t t' ht ht' => this t ht t' ht'
  have hemits : Emits fun t => t ∈ [askTurn, otherTurn, nextTurn] := by
    have : ∀ t ∈ [askTurn, otherTurn, nextTurn],
        t.replayed.originals.length ≤ t.replayed.optimized.length := by
      decide +kernel
    exact this
  have hcontinues : Continues (runOf [askTurn, otherTurn]) nextTurn
      ((runOf []).parkedOf id askTurn) := by
    refine ⟨?_, ?_, rfl, ?_, fun _ => ?_, ?_⟩ <;> decide +kernel
  refine StreamReach.forwarded_stable hsep hemits (reach_runOf ?_ (by decide +kernel)) (by simp) rfl
    hcontinues (by decide +kernel) (by decide +kernel)
  intro t ht
  simp only [List.mem_cons, List.not_mem_nil, or_false] at ht ⊢
  rcases ht with rfl | rfl <;> simp

/-- Turns of streams none of which leads another run on one session, and a further turn that goes on
from the last completed turn of its stream does not start with what that one forwarded. -/
structure Unstable (turns : List (StreamTurn String)) (t : StreamTurn String)
    (previous : PendingTurn) : Prop where
  apart : ∀ a ∈ t :: turns, ∀ b ∈ t :: turns, a.stream ≠ b.stream → ¬ a.keys <+: b.keys
  reach : StreamReach id "k" (fun a => a ∈ t :: turns) (runOf turns)
  continues : Continues (runOf turns) t previous
  differs : ¬ StartsWith ((runOf turns).forwarded id t) previous

/-- A message of nothing but a reminder. -/
def reminder : String × String := ("user", "<system-reminder>x</system-reminder>")

/-- A turn that ends in a reminder, which is not stored. -/
def remindedTurn : StreamTurn String :=
  plainStreamTurn "a" "1" [("user", "a"), reminder] [("user", "a1"), reminder]

/-- A turn of another stream that opens with the same message. -/
def sameOpeningTurn : StreamTurn String :=
  plainStreamTurn "b" "2" [("user", "a"), ("user", "b")] [("user", "a2"), ("user", "b2")]

/-- The next turn behind the reminder. -/
def afterReminderTurn : StreamTurn String :=
  plainStreamTurn "a" "3" [("user", "a"), reminder, ("user", "c")]
    [("user", "a3"), reminder, ("user", "c3")]

/-- A turn that is nothing but a reminder, with a message that the pipeline appends. -/
def onlyReminderTurn : StreamTurn String :=
  plainStreamTurn "a" "1" [reminder] [("user", "r1"), ("user", "tail")]

/-- The next turn behind it. -/
def afterOnlyReminderTurn : StreamTurn String :=
  plainStreamTurn "a" "2" [reminder, ("user", "b")] [("user", "r2"), ("user", "b2")]

/-- A turn of the first stream that goes back to its opening message. -/
def rewoundTurn : StreamTurn String := plainStreamTurn "a" "4" [("user", "a")] [("user", "a4")]

/-- The turn behind it takes up the conversation that it had left. -/
def resumedTurn : StreamTurn String :=
  plainStreamTurn "a" "5" [("user", "a"), ("user", "b"), ("user", "c")]
    [("user", "a5"), ("user", "b5"), ("user", "c5")]

/-- A turn for which the pipeline emits fewer messages than the client sent. -/
def shortTurn : StreamTurn String :=
  plainStreamTurn "a" "2" [("user", "a"), ("user", "b"), ("user", "c")]
    [("user", "a2"), ("user", "b2")]

/-- The facts of such a run, all decided at once. -/
theorem unstable_of {turns : List (StreamTurn String)} {t : StreamTurn String}
    {previous : PendingTurn}
    (h : (∀ a ∈ t :: turns, ∀ b ∈ t :: turns, a.stream ≠ b.stream → ¬ a.keys <+: b.keys) ∧
      runsWithin turns = true ∧ (runOf turns).last t.stream = some previous ∧
      previous.keys <+: t.keys ∧ previous.forwardedSystemHash = t.replayed.systemHash ∧
      previous.storedOut.length ≤ t.replayed.confirmedFrozenCount ∧
      firstIllegalSystemPosition
        (previous.storedOut ++ t.replayed.optimized.drop previous.stored.length) = none ∧
      t.replayed.clock.instant ≤ (runOf turns).lastCompletion + sessionTtl ∧
      ¬ StartsWith ((runOf turns).forwarded id t) previous) : Unstable turns t previous := by
  obtain ⟨hapart, hruns, hlast, hkeys, hsystem, hfloor, hadjacent, hlive, hdiffers⟩ := h
  exact ⟨hapart, reach_runOf (fun _ h => List.mem_cons_of_mem _ h) hruns,
    ⟨hlast, hkeys, hsystem, hfloor, fun _ => hadjacent, hlive⟩, hdiffers⟩

/-- Without one of the conditions the bytes change: what is stored of a turn leads a turn of another
stream, nothing is stored of it, a deeper turn of the stream completed before, or the pipeline emits
too few messages. -/
theorem forwarded_unstable :
    Unstable [remindedTurn, sameOpeningTurn] afterReminderTurn
      ((runOf []).parkedOf id remindedTurn) ∧
    Unstable [onlyReminderTurn] afterOnlyReminderTurn ((runOf []).parkedOf id onlyReminderTurn) ∧
    Unstable [nextTurn, rewoundTurn] resumedTurn ((runOf [nextTurn]).parkedOf id rewoundTurn) ∧
    Unstable [askTurn] shortTurn ((runOf []).parkedOf id askTurn) := by
  refine ⟨unstable_of ?_, unstable_of ?_, unstable_of ?_, unstable_of ?_⟩
  · decide +kernel
  · decide +kernel
  · decide +kernel
  · decide +kernel

end Headroom.PrefixReplay
