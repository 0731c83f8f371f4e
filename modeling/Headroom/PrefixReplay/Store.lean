import Mathlib.Data.List.AList
import Headroom.Foundation.Lru
import Headroom.PrefixReplay.Overlay
import Headroom.PrefixReplay.Tracker

/-!
# The replay store

The trackers of all sessions, the turns awaiting their response, and the prefixes on disk. A turn
asks the store which prefix it continues; a session that holds none restores its own from disk or
adopts the prefix of another session.
-/

open Foundation

namespace Headroom.PrefixReplay

/-! ### State -/

/-- The sessions a store holds in production. -/
def replayStoreCapacity : ℕ := 1000

/-- The turns in flight that a store remembers. -/
def pendingCapacity : ℕ := 4096

/-- Fewest messages that a turn carries, and a donor covers, for an adoption. -/
def crossSessionAdoptMinMessages : ℕ := 10

/-- Nanoseconds in a second. -/
def nanos : ℕ := 1000000000

/-- How long a tracker survives without a turn, in nanoseconds. -/
def sessionTtl : ℕ := 3600 * nanos

/-- How stale a persisted prefix may be, in seconds. -/
def persistMaxAge : ℕ := 3600

/-- The bound on the size of a persisted file, in bytes. -/
def persistMaxBytes : ℕ := 64 * 1024 * 1024

/-- The monotonic clock of the process in nanoseconds, and the wall clock in nanoseconds since the
epoch. -/
structure Clock where
  instant : ℕ
  wall : ℕ

/-- The wall clock in seconds. -/
def Clock.unixNow (clock : Clock) : ℕ := clock.wall / nanos

/-- A turn in flight, awaiting the usage of its response. -/
structure PendingTurn where
  sessionKey : String
  originalMessages : List Json
  forwardedMessages : List Json
  forwardedSystemHash : String
  deriving DecidableEq

/-- A session's prefix on disk. -/
structure PersistedPrefix where
  chainId : ℕ
  cachedTokenCount : ℕ
  cachedMessageCount : ℕ
  turnNumber : ℕ
  savedAtUnix : ℕ
  originals : List Json
  forwarded : List Json
  headHash : Option String
  forwardedSystemHash : Option String

/-- A number as JSON. -/
def natJson (n : ℕ) : Json := .num (toString n)

/-- A persisted prefix as it is written to its file. -/
def PersistedPrefix.toJson (p : PersistedPrefix) : Json :=
  .obj [("chain_id", natJson p.chainId), ("cached_token_count", natJson p.cachedTokenCount),
    ("cached_message_count", natJson p.cachedMessageCount), ("turn_number", natJson p.turnNumber),
    ("saved_at_unix", natJson p.savedAtUnix), ("originals", .arr p.originals),
    ("forwarded", .arr p.forwarded), ("head_hash", (p.headHash.map Json.str).getD .null),
    ("forwarded_system_hash", (p.forwardedSystemHash.map Json.str).getD .null)]

/-- The tracker that a persisted prefix is restored to. -/
def PersistedPrefix.restore (p : PersistedPrefix) (now : ℕ) : PrefixReplayTracker where
  cachedTokenCount := p.cachedTokenCount
  cachedMessageCount := p.cachedMessageCount
  turnNumber := p.turnNumber
  lastActivity := now
  lastOriginalMessages := p.originals
  lastForwardedMessages := p.forwarded
  lastForwardedSystemHash := p.forwardedSystemHash.getD ""
  alternates := []
  primaryChainId := p.chainId
  nextChainId := p.chainId + 1

/-- A `.json` file of the persist directory: the digest it is named by, the time it was modified,
and the prefix it holds when it can be read as one. -/
structure PersistedFile where
  digest : String
  modified : ℕ
  contents : Option PersistedPrefix

/-- The replay state of all sessions. -/
structure SessionReplayStore where
  trackers : Lru String PrefixReplayTracker
  pending : Lru String PendingTurn
  sessionTtl : ℕ
  /-- The files of the persist directory; `none` keeps everything in memory. -/
  persistDir : Option (List PersistedFile)
  /-- The session keys that hold a prefix of each head. -/
  headIndex : AList fun _ : String => List String
  /-- The head of each persisted file, with the modification time it was read at. -/
  persistedHeads : AList fun _ : String => ℕ × Option String

/-- Which session a prefix was adopted from. -/
inductive AdoptionDonor where
  | session (key : String)
  | persistedDigest (digest : String)

/-- A donor prefix chosen for adoption. -/
structure AdoptedPrefix where
  originals : List Json
  forwarded : List Json
  forwardedSystemHash : String
  cachedTokenCount : ℕ
  cachedMessageCount : ℕ
  turnNumber : ℕ
  donor : AdoptionDonor
  age : ℕ

/-- The tracker that an adopted prefix seeds. -/
def AdoptedPrefix.seed (a : AdoptedPrefix) (now : ℕ) : PrefixReplayTracker where
  cachedTokenCount := a.cachedTokenCount
  cachedMessageCount := min a.cachedMessageCount a.forwarded.length
  turnNumber := max a.turnNumber 1
  lastActivity := now
  lastOriginalMessages := a.originals
  lastForwardedMessages := a.forwarded
  lastForwardedSystemHash := a.forwardedSystemHash
  alternates := []
  primaryChainId := 1
  nextChainId := 2

/-- A live tracker with an adopted prefix as its newest alternate. -/
def AdoptedPrefix.joinTracker (a : AdoptedPrefix) (now : ℕ) (t : PrefixReplayTracker) :
    PrefixReplayTracker :=
  let entry : HeldPrefix := ⟨t.nextChainId, a.originals, a.forwarded, a.forwardedSystemHash⟩
  let alternates := entry :: t.alternates.filter fun h => !sameMessages h.originals a.originals
  { t with
    nextChainId := t.nextChainId + 1
    alternates := alternates.take maxAlternatePrefixes
    lastActivity := now }

/-- The longer match wins; the more recent breaks a tie. -/
def AdoptedPrefix.beats (a : AdoptedPrefix) : Option AdoptedPrefix → Bool
  | none => true
  | some o =>
    o.originals.length < a.originals.length ||
      (a.originals.length = o.originals.length && a.age < o.age)

/-- Why the store had no prefix for a turn. -/
inductive PrefixMiss where
  | noTrackerForSession
  | idlePastTtl
  | nothingForwardedYet
  | systemChanged
  deriving DecidableEq

/-! ### Digests -/

section

variable (sha256 : String → String)

/-- The digest of the first two canonical messages. -/
def adoptionHeadHash (messages : List Json) : Option String :=
  if messages.isEmpty then none
  else some (sha256 (String.ofList (Json.arr (canonicalizeSlice (messages.take 2))).compact))

end

/-! ### Lookup in a tracker -/

/-- What the store answers a turn: the held prefix it hands back, and the chain the turn continues,
0 for none. -/
structure Lookup where
  source : HeldPrefix
  chainId : ℕ

/-- Whether a prefix recorded under a system may be replayed under the current one. -/
def systemOk (currentSystemHash : Option String) (storedHash : String) : Bool :=
  (currentSystemHash.map fun current => storedHash == current).getD true

/-- The answer of a live tracker to a turn. -/
def lookup (tracker : PrefixReplayTracker) (canonicalCurrent : List Json)
    (currentSystemHash : Option String) : Except PrefixMiss Lookup :=
  if tracker.lastForwardedMessages.isEmpty && tracker.alternates.isEmpty then
    .error .nothingForwardedYet
  else
    match pickReplayCandidate tracker canonicalCurrent (systemOk currentSystemHash) with
    | some h => .ok ⟨h, h.chainId⟩
    | none =>
      if tracker.lastForwardedMessages.isEmpty then .error .nothingForwardedYet
      else if currentSystemHash.isSome &&
          (pickReplayCandidate tracker canonicalCurrent fun _ => true).isSome then
        .error .systemChanged
      -- Nothing held leads this turn: the primary goes back for the overlay to report against.
      else .ok ⟨tracker.primary, 0⟩

/-! ### Adoption candidates -/

/-- How many leading messages of a held prefix a turn can adopt. -/
def adoptableLen (originals forwarded canonicalCurrent : List Json) : Option ℕ :=
  if forwarded.isEmpty || originals.length ≠ forwarded.length then none
  else
    let agreed := canonicalAgreementLen originals canonicalCurrent
    if crossSessionAdoptMinMessages ≤ agreed then some agreed else none

/-- The longest match among the prefixes of a tracker, with its length. -/
def adoptableFrom (tracker : PrefixReplayTracker) (canonicalCurrent : List Json) :
    Option (ℕ × HeldPrefix) :=
  lastMaxBy Prod.fst (tracker.held.filterMap fun h =>
    (adoptableLen h.originals h.forwarded canonicalCurrent).map fun n => (n, h))

/-- The better of two adoption candidates, the first one when neither wins. -/
def better (best candidate : Option AdoptedPrefix) : Option AdoptedPrefix :=
  match candidate with
  | none => best
  | some c => if c.beats best then some c else best

/-- A persisted prefix that is not empty and not too old. -/
def readPersistedPrefixAt (clock : Clock) (file : PersistedFile) : Option PersistedPrefix :=
  file.contents.filter fun p =>
    !p.forwarded.isEmpty && clock.unixNow - p.savedAtUnix ≤ persistMaxAge

namespace SessionReplayStore

section

variable (sha256 : String → String)

/-- An empty store bounded to `capacity` sessions. -/
def new (capacity : ℕ) (h : 0 < capacity) (persistDir : Option (List PersistedFile)) :
    SessionReplayStore where
  trackers := Lru.empty capacity h
  pending := Lru.empty pendingCapacity (by decide)
  sessionTtl := PrefixReplay.sessionTtl
  persistDir := persistDir
  headIndex := ∅
  persistedHeads := ∅

variable (s : SessionReplayStore)

/-- Whether a tracker idled past the session's time to live. -/
def idle (clock : Clock) (tracker : PrefixReplayTracker) : Bool :=
  s.sessionTtl < clock.instant - tracker.lastActivity

/-! ### The index of heads -/

/-- Remember the head of a session's prefix. -/
def indexHead (key : String) (head : Option String) : SessionReplayStore :=
  match head with
  | none => s
  | some head =>
    let keys := (s.headIndex.lookup head).getD []
    if keys.contains key then s
    else { s with headIndex := s.headIndex.insert head (keys ++ [key]) }

/-- Forget the head of a session's prefix. -/
def unindexHead (key : String) (tracker : PrefixReplayTracker) : SessionReplayStore :=
  match adoptionHeadHash sha256 tracker.lastOriginalMessages with
  | none => s
  | some head =>
    match s.headIndex.lookup head with
    | none => s
    | some keys =>
      let keys := keys.filter fun k => k != key
      if keys.isEmpty then { s with headIndex := s.headIndex.erase head }
      else { s with headIndex := s.headIndex.insert head keys }

/-- Forget the head of the tracker that an insertion of `key` pushed out. -/
def unindexEvicted (key : String) (evicted : Option (String × PrefixReplayTracker)) :
    SessionReplayStore :=
  match evicted with
  | none => s
  | some (k, tracker) => if k = key then s else s.unindexHead sha256 k tracker

/-- Insert a tracker, forgetting the head of the one it pushes out. -/
def pushTracker (key : String) (tracker : PrefixReplayTracker) : SessionReplayStore :=
  let (evicted, trackers) := s.trackers.push key tracker
  { s with trackers := trackers }.unindexEvicted sha256 key evicted

/-! ### Persistence -/

/-- The file of a session. -/
def ownFile (key : String) : Option PersistedFile :=
  (s.persistDir.getD []).find? fun f => f.digest == sha256 key

/-- Load the session's persisted prefix when the store holds no tracker of it. -/
def hydrate (clock : Clock) (key : String) : SessionReplayStore :=
  if s.persistDir.isNone then s
  else if s.trackers.contains key then s
  else
    match (s.ownFile sha256 key).bind (readPersistedPrefixAt clock) with
    | none => s
    | some snapshot =>
      let tracker := snapshot.restore clock.instant
      (s.pushTracker sha256 key tracker).indexHead key
        (adoptionHeadHash sha256 tracker.lastOriginalMessages)

/-- Write the session's prefix to its file, unless it is too large. -/
def persist (clock : Clock) (key : String) (snapshot : PersistedPrefix) : SessionReplayStore :=
  match s.persistDir with
  | none => s
  | some files =>
    if snapshot.toJson.compactLength ≤ persistMaxBytes then
      let digest := sha256 key
      let file : PersistedFile := ⟨digest, clock.wall, some snapshot⟩
      let head := snapshot.headHash.or (adoptionHeadHash sha256 snapshot.originals)
      { s with
        persistDir := some (file :: files.filter fun f => f.digest != digest)
        persistedHeads := s.persistedHeads.insert digest (clock.wall, head) }
    else s

/-! ### Adoption -/

/-- Whether some prefix held for the session leads the turn. -/
def leadsTurn (clock : Clock) (key : String) (canonicalCurrent : List Json) : Bool :=
  match s.trackers.peek key with
  | none => false
  | some tracker =>
    !s.idle clock tracker && tracker.held.any fun h =>
      !h.forwarded.isEmpty && matchesCanonicalPrefix h.originals canonicalCurrent

/-- The longest prefix held in memory by another live session that the turn can adopt. -/
def adoptionCandidateInMemory (clock : Clock) (key head : String) (canonicalCurrent : List Json) :
    Option AdoptedPrefix :=
  let keys := ((s.headIndex.lookup head).getD []).filter fun k => k != key
  keys.foldl (fun best k =>
    match s.trackers.peek k with
    | none => best
    | some tracker =>
      if s.idle clock tracker then best
      else
        better best ((adoptableFrom tracker canonicalCurrent).map fun (n, h) =>
          { originals := h.originals.take n
            forwarded := h.forwarded.take n
            forwardedSystemHash := h.systemHash
            cachedTokenCount := tracker.cachedTokenCount
            cachedMessageCount := tracker.cachedMessageCount
            turnNumber := tracker.turnNumber
            donor := .session k
            age := clock.instant - tracker.lastActivity })) none

/-- The candidate that one persisted prefix makes. -/
def diskCandidate (clock : Clock) (canonicalCurrent : List Json) (digest : String)
    (snapshot : PersistedPrefix) : Option AdoptedPrefix :=
  (adoptableLen snapshot.originals snapshot.forwarded canonicalCurrent).map fun n =>
    { originals := snapshot.originals.take n
      forwarded := snapshot.forwarded.take n
      forwardedSystemHash := snapshot.forwardedSystemHash.getD ""
      cachedTokenCount := snapshot.cachedTokenCount
      cachedMessageCount := snapshot.cachedMessageCount
      turnNumber := snapshot.turnNumber
      donor := .persistedDigest digest
      age := (clock.unixNow - snapshot.savedAtUnix) * nanos }

/-- The snapshot of a file when its head is the one looked for, and the heads remembered after a
look at it. A head read at the present modification time is not read again. -/
def snapshotWithHead (clock : Clock) (head : String)
    (heads : AList fun _ : String => ℕ × Option String) (file : PersistedFile) :
    Option PersistedPrefix × (AList fun _ : String => ℕ × Option String) :=
  match heads.lookup file.digest with
  | some (seenAt, fileHead) =>
    if seenAt = file.modified then
      (if fileHead = some head then readPersistedPrefixAt clock file else none, heads)
    else look
  | none => look
where
  /-- Read the file and remember its head. -/
  look : Option PersistedPrefix × (AList fun _ : String => ℕ × Option String) :=
    let snapshot := readPersistedPrefixAt clock file
    let fileHead := snapshot.bind fun p => p.headHash.or (adoptionHeadHash sha256 p.originals)
    (if fileHead = some head then snapshot else none,
      heads.insert file.digest (file.modified, fileHead))

/-- The longest persisted prefix of another session that the turn can adopt. -/
def adoptionCandidateOnDisk (clock : Clock) (key head : String) (canonicalCurrent : List Json) :
    Option AdoptedPrefix × SessionReplayStore :=
  match s.persistDir with
  | none => (none, s)
  | some files =>
    let others := files.filter fun f => f.digest != sha256 key
    let (best, heads) := others.foldl (fun (best, heads) file =>
      let (snapshot, heads) := snapshotWithHead sha256 clock head heads file
      (better best (snapshot.bind (diskCandidate clock canonicalCurrent file.digest)), heads))
      (none, s.persistedHeads)
    (best, { s with persistedHeads := heads })

/-- Seed the session with an adopted slice: as its newest alternate when it holds a live prefix,
otherwise as its primary. -/
def installAdopted (clock : Clock) (key : String) (adopted : AdoptedPrefix) : SessionReplayStore :=
  let head := adoptionHeadHash sha256 adopted.originals
  let live := (s.trackers.peek key).filter fun t =>
    !s.idle clock t && !t.lastForwardedMessages.isEmpty
  let installed :=
    match live with
    | some t => { s with trackers := s.trackers.put key (adopted.joinTracker clock.instant t) }
    | none => s.pushTracker sha256 key (adopted.seed clock.instant)
  installed.indexHead key head

/-- Restore the session's own prefix; failing that, on a turn with enough history, adopt another
session's. The flag says that a donor was declined because of its system. -/
def hydrateOrAdopt (clock : Clock) (key : String) (currentOriginals canonicalCurrent : List Json)
    (currentSystemHash : Option String) : Bool × SessionReplayStore :=
  let s := s.hydrate sha256 clock key
  if currentOriginals.length < crossSessionAdoptMinMessages ||
      s.leadsTurn clock key canonicalCurrent then (false, s)
  else
    match adoptionHeadHash sha256 currentOriginals with
    | none => (false, s)
    | some head =>
      let (adopted, s) :=
        match s.adoptionCandidateInMemory clock key head canonicalCurrent with
        | some adopted => (some adopted, s)
        | none => s.adoptionCandidateOnDisk sha256 clock key head canonicalCurrent
      match adopted with
      | none => (false, s)
      | some adopted =>
        if !systemOk currentSystemHash adopted.forwardedSystemHash then (true, s)
        else (false, s.installAdopted sha256 clock key adopted)

/-! ### Turns -/

/-- The stored prefix that a turn continues, with the chain it belongs to. -/
def previousTurnFor (clock : Clock) (key : String) (currentOriginals : List Json)
    (currentSystemHash : Option String) :
    Except PrefixMiss (List Json × List Json × ℕ) × SessionReplayStore :=
  let canonicalCurrent := canonicalizeSlice currentOriginals
  let (declinedOnSystem, s) :=
    s.hydrateOrAdopt sha256 clock key currentOriginals canonicalCurrent currentSystemHash
  let (found, trackers) := s.trackers.get key
  let s := { s with trackers := trackers }
  match found with
  | none => (.error (if declinedOnSystem then .systemChanged else .noTrackerForSession), s)
  | some tracker =>
    if s.idle clock tracker then
      (.error .idlePastTtl,
        { s with trackers := (s.trackers.pop key).2 }.unindexHead sha256 key tracker)
    else
      ((lookup tracker canonicalCurrent currentSystemHash).map fun l =>
        (l.source.originals, l.source.forwarded, l.chainId), s)

/-- Whether a turn's history goes to the provider as a fresh write. -/
def historyWillBeRewritten (clock : Clock) (key : String) (incomingOriginal : List Json) :
    Bool × SessionReplayStore :=
  let canonicalIncoming := canonicalizeSlice incomingOriginal
  let s := (s.hydrateOrAdopt sha256 clock key incomingOriginal canonicalIncoming none).2
  match s.trackers.peek key with
  | none => (true, s)
  | some tracker =>
    if s.idle clock tracker then (true, s)
    else if tracker.lastForwardedMessages.isEmpty then (false, s)
    else
      (!(tracker.held.any fun h => matchesCanonicalPrefix h.originals canonicalIncoming), s)

/-- How many leading messages the provider confirmed cached for the session. -/
def confirmedFrozenCount (clock : Clock) (key : String) : ℕ × SessionReplayStore :=
  let s := s.hydrate sha256 clock key
  match s.trackers.peek key with
  | none => (0, s)
  | some tracker => (if s.idle clock tracker then 0 else tracker.frozenMessageCount, s)

/-- Drop the session's stored prefixes. -/
def invalidate (key : String) : SessionReplayStore :=
  { s with trackers := s.trackers.modify key PrefixReplayTracker.invalidate }

/-- Park a turn until its response arrives. -/
def beginRequest (requestId key : String) (originalMessages forwardedMessages : List Json)
    (forwardedSystemHash : String) : SessionReplayStore :=
  let turn : PendingTurn := ⟨key, originalMessages, forwardedMessages, forwardedSystemHash⟩
  { s with pending := s.pending.put requestId turn }

/-- The store with a tracker for the session, a new one when it holds none. -/
def withTracker (clock : Clock) (key : String) : SessionReplayStore × PrefixReplayTracker :=
  match s.trackers.peek key with
  | some tracker => (s, tracker)
  | none =>
    (s.pushTracker sha256 key (PrefixReplayTracker.fresh clock.instant),
      PrefixReplayTracker.fresh clock.instant)

/-- Feed the cache tokens of a completed turn back into its session. -/
def complete (clock : Clock) (requestId : String) (cacheReadTokens cacheWriteTokens : ℕ) :
    SessionReplayStore :=
  let (parked, pending) := s.pending.pop requestId
  let s := { s with pending := pending }
  match parked with
  | none => s
  | some parked =>
    let (s, tracker) := s.withTracker sha256 clock parked.sessionKey
    let tracker := tracker.updateFromResponse clock.instant cacheReadTokens cacheWriteTokens
      parked.forwardedMessages (some parked.originalMessages) parked.forwardedSystemHash
    let headHash := adoptionHeadHash sha256 tracker.lastOriginalMessages
    let s := { s with trackers := s.trackers.put parked.sessionKey tracker }.indexHead
      parked.sessionKey headHash
    if s.persistDir.isSome && !tracker.lastForwardedMessages.isEmpty then
      s.persist sha256 clock parked.sessionKey
        { chainId := tracker.primaryChainId
          cachedTokenCount := tracker.cachedTokenCount
          cachedMessageCount := tracker.cachedMessageCount
          turnNumber := tracker.turnNumber
          savedAtUnix := clock.unixNow
          originals := tracker.lastOriginalMessages
          forwarded := tracker.lastForwardedMessages
          headHash := headHash
          forwardedSystemHash := some tracker.lastForwardedSystemHash }
    else s

end

/-! ### What each operation touches -/

section

variable (sha256 : String → String) (s : SessionReplayStore) (clock : Clock) (key : String)

@[simp] theorem indexHead_trackers (head : Option String) :
    (s.indexHead key head).trackers = s.trackers := by
  simp only [indexHead]
  split
  · rfl
  · split_ifs <;> rfl

@[simp] theorem indexHead_pending (head : Option String) :
    (s.indexHead key head).pending = s.pending := by
  simp only [indexHead]
  split
  · rfl
  · split_ifs <;> rfl

@[simp] theorem indexHead_persistDir (head : Option String) :
    (s.indexHead key head).persistDir = s.persistDir := by
  simp only [indexHead]
  split
  · rfl
  · split_ifs <;> rfl

@[simp] theorem indexHead_sessionTtl (head : Option String) :
    (s.indexHead key head).sessionTtl = s.sessionTtl := by
  simp only [indexHead]
  split
  · rfl
  · split_ifs <;> rfl

/-- Forgetting a head touches the index only. -/
theorem unindexHead_eq (tracker : PrefixReplayTracker) :
    ∃ index, s.unindexHead sha256 key tracker = { s with headIndex := index } := by
  simp only [unindexHead]
  split
  · exact ⟨_, rfl⟩
  · split
    · exact ⟨_, rfl⟩
    · split_ifs
      · exact ⟨_, rfl⟩
      · exact ⟨_, rfl⟩

/-- Inserting a tracker touches the trackers and the index only. -/
theorem pushTracker_eq (tracker : PrefixReplayTracker) :
    ∃ index, s.pushTracker sha256 key tracker =
      { s with trackers := s.trackers.put key tracker, headIndex := index } := by
  simp only [pushTracker, Lru.push, unindexEvicted]
  split
  · exact ⟨_, rfl⟩
  · split_ifs
    · exact ⟨_, rfl⟩
    · obtain ⟨index, heq⟩ := unindexHead_eq sha256
        { s with trackers := s.trackers.put key tracker } _ _
      exact ⟨index, heq⟩

@[simp] theorem pushTracker_trackers (tracker : PrefixReplayTracker) :
    (s.pushTracker sha256 key tracker).trackers = s.trackers.put key tracker := by
  obtain ⟨_, heq⟩ := s.pushTracker_eq sha256 key tracker
  rw [heq]

@[simp] theorem pushTracker_pending (tracker : PrefixReplayTracker) :
    (s.pushTracker sha256 key tracker).pending = s.pending := by
  obtain ⟨_, heq⟩ := s.pushTracker_eq sha256 key tracker
  rw [heq]

@[simp] theorem pushTracker_persistDir (tracker : PrefixReplayTracker) :
    (s.pushTracker sha256 key tracker).persistDir = s.persistDir := by
  obtain ⟨_, heq⟩ := s.pushTracker_eq sha256 key tracker
  rw [heq]

@[simp] theorem pushTracker_sessionTtl (tracker : PrefixReplayTracker) :
    (s.pushTracker sha256 key tracker).sessionTtl = s.sessionTtl := by
  obtain ⟨_, heq⟩ := s.pushTracker_eq sha256 key tracker
  rw [heq]

/-- What a hydration does: nothing, or the tracker of the session's file comes in. -/
theorem hydrate_cases :
    s.hydrate sha256 clock key = s ∨
    (s.trackers.peek key = none ∧ ∃ file p, file ∈ s.persistDir.getD [] ∧
      file.contents = some p ∧ p.forwarded ≠ [] ∧
      (s.hydrate sha256 clock key).trackers = s.trackers.put key (p.restore clock.instant) ∧
      (s.hydrate sha256 clock key).pending = s.pending ∧
      (s.hydrate sha256 clock key).persistDir = s.persistDir ∧
      (s.hydrate sha256 clock key).sessionTtl = s.sessionTtl) := by
  simp only [hydrate]
  split_ifs with hdir hheld
  · exact Or.inl rfl
  · exact Or.inl rfl
  · split
    · exact Or.inl rfl
    · rename_i p hp
      obtain ⟨file, hfile, hread⟩ := Option.bind_eq_some_iff.mp hp
      obtain ⟨hcontents, hfilter⟩ := Option.filter_eq_some_iff.mp hread
      refine Or.inr ⟨by simpa [Lru.contains] using hheld, file, p, List.mem_of_find?_eq_some hfile,
        hcontents, ?_, by simp, by simp, by simp, by simp⟩
      simp only [Bool.and_eq_true, Bool.not_eq_true', List.isEmpty_eq_false_iff] at hfilter
      exact hfilter.1

theorem hydrate_of_peek {t : PrefixReplayTracker} (h : s.trackers.peek key = some t) :
    s.hydrate sha256 clock key = s := by
  rcases s.hydrate_cases sha256 clock key with heq | ⟨hnone, -⟩
  · exact heq
  · rw [h] at hnone
    cases hnone

/-- The store answers a turn by the lookup in the session's tracker, unless that idled. -/
theorem previousTurnFor_fst (currentOriginals : List Json) (hash : Option String) :
    (s.previousTurnFor sha256 clock key currentOriginals hash).1 =
      match (s.hydrateOrAdopt sha256 clock key currentOriginals
        (canonicalizeSlice currentOriginals) hash).2.trackers.peek key with
      | none => .error (if (s.hydrateOrAdopt sha256 clock key currentOriginals
          (canonicalizeSlice currentOriginals) hash).1 then .systemChanged
        else .noTrackerForSession)
      | some tracker =>
        if (s.hydrateOrAdopt sha256 clock key currentOriginals
            (canonicalizeSlice currentOriginals) hash).2.idle clock tracker then
          .error .idlePastTtl
        else (lookup tracker (canonicalizeSlice currentOriginals) hash).map fun l =>
          (l.source.originals, l.source.forwarded, l.chainId) := by
  simp only [previousTurnFor, Lru.get_fst]
  cases (s.hydrateOrAdopt sha256 clock key currentOriginals
    (canonicalizeSlice currentOriginals) hash).2.trackers.peek key with
  | none => rfl
  | some tracker => exact apply_ite Prod.fst _ _ _

/-- A turn leaves no tracker that was not there, and otherwise only forgets a head. -/
theorem previousTurnFor_store (currentOriginals : List Json) (hash : Option String)
    {s' : SessionReplayStore} (h : (s.hydrateOrAdopt sha256 clock key currentOriginals
      (canonicalizeSlice currentOriginals) hash).2 = s') :
    ∃ trackers index, (s.previousTurnFor sha256 clock key currentOriginals hash).2 =
        { s' with trackers := trackers, headIndex := index } ∧
      ∀ e ∈ trackers.entries, e ∈ s'.trackers.entries := by
  simp only [previousTurnFor, Lru.get_fst, h]
  have hget : ∀ e ∈ (s'.trackers.get key).2.entries, e ∈ s'.trackers.entries :=
    fun e he => (s'.trackers.mem_get key e).mp he
  cases s'.trackers.peek key with
  | none => exact ⟨_, _, rfl, hget⟩
  | some tracker =>
    dsimp only
    split_ifs
    · obtain ⟨_, heq⟩ := unindexHead_eq sha256 { s' with
        trackers := ((s'.trackers.get key).2.pop key).2 } key tracker
      rw [heq]
      exact ⟨_, _, rfl, fun e he => hget e (Lru.mem_pop.mp he).1⟩
    · exact ⟨_, _, rfl, hget⟩

end

end SessionReplayStore

/-! ### A turn -/

/-- The overlay of a turn on the store's answer. -/
def overlayTurn (answer : Except PrefixMiss (List Json × List Json × ℕ))
    (optimizedMessages currentOriginals : List Json) (confirmedFrozenCount : Option ℕ)
    (anthropicMessages : Bool) : List Json × Option ReplaySkip :=
  match answer with
  | .ok (prevOrig, prevFwd, chainId) =>
    overlayCachedPrefixShaped optimizedMessages currentOriginals (some prevOrig) (some prevFwd)
      (chainId ≠ 0) confirmedFrozenCount anthropicMessages
  | .error _ =>
    overlayCachedPrefixShaped optimizedMessages currentOriginals none none false
      confirmedFrozenCount anthropicMessages

/-! ### The arms of the lookup -/

/-- The lookup hands back the prefix it picked with its chain, or the primary with chain 0 when
nothing held continues the turn, whatever its system. -/
theorem lookup_ok {t : PrefixReplayTracker} {canonicalCurrent : List Json} {hash : Option String}
    {l : Lookup} (h : lookup t canonicalCurrent hash = .ok l) :
    (pickReplayCandidate t canonicalCurrent (systemOk hash) = some l.source ∧
      l.chainId = l.source.chainId) ∨
    (pickReplayCandidate t canonicalCurrent (systemOk hash) = none ∧
      t.lastForwardedMessages ≠ [] ∧
      (hash = none ∨ pickReplayCandidate t canonicalCurrent (fun _ => true) = none) ∧
      l = ⟨t.primary, 0⟩) := by
  simp only [lookup] at h
  cases hpick : pickReplayCandidate t canonicalCurrent (systemOk hash) with
  | some h' =>
    simp only [hpick] at h
    split_ifs at h with hempty
    obtain rfl := Except.ok.inj h
    exact Or.inl ⟨rfl, rfl⟩
  | none =>
    simp only [hpick] at h
    split_ifs at h with hempty hfwd hsys
    obtain rfl := Except.ok.inj h
    refine Or.inr ⟨rfl, by simpa using hfwd, ?_, rfl⟩
    cases hash with
    | none => exact Or.inl rfl
    | some d => exact Or.inr (by simpa using hsys)

end Headroom.PrefixReplay
