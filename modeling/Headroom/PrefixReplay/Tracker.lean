import Mathlib.Data.List.MinMax
import Headroom.Foundation.Budget
import Headroom.PrefixReplay.Compare

/-!
# The replay tracker of one session

What a session holds for replay: the prefix of its last completed turn, and the prefixes of the
other streams interleaved on the session.
-/

open Foundation

namespace Headroom.PrefixReplay

/-! ### State -/

/-- The hard ceiling on prefixes kept beside the most recent one. -/
def maxAlternatePrefixes : ℕ := 128

/-- The bound on the messages held across the alternates. -/
def maxAlternateMessages : ℕ := 4000

/-- Fewer cached tokens than this are not worth freezing. -/
def minCachedTokens : ℕ := 1024

/-- A prefix held for a stream: its chain, the client's messages, what was forwarded for them, and
the digest of the system they went out under. -/
structure HeldPrefix where
  chainId : ℕ
  originals : List Json
  forwarded : List Json
  systemHash : String
  deriving DecidableEq

/-- The replay state of a session across turns. Instants count nanoseconds. -/
structure PrefixReplayTracker where
  cachedTokenCount : ℕ
  cachedMessageCount : ℕ
  turnNumber : ℕ
  lastActivity : ℕ
  lastOriginalMessages : List Json
  lastForwardedMessages : List Json
  lastForwardedSystemHash : String
  alternates : List HeldPrefix
  primaryChainId : ℕ
  nextChainId : ℕ
  deriving DecidableEq

namespace PrefixReplayTracker

/-- The tracker of a session without a turn. -/
def fresh (now : ℕ) : PrefixReplayTracker where
  cachedTokenCount := 0
  cachedMessageCount := 0
  turnNumber := 0
  lastActivity := now
  lastOriginalMessages := []
  lastForwardedMessages := []
  lastForwardedSystemHash := ""
  alternates := []
  primaryChainId := 0
  nextChainId := 1

/-- The prefix of the most recent turn. -/
def primary (t : PrefixReplayTracker) : HeldPrefix where
  chainId := t.primaryChainId
  originals := t.lastOriginalMessages
  forwarded := t.lastForwardedMessages
  systemHash := t.lastForwardedSystemHash

/-- All prefixes held, the most recent one first. -/
def held (t : PrefixReplayTracker) : List HeldPrefix := t.primary :: t.alternates

/-- How many leading messages to leave uncompressed on the next turn. -/
def frozenMessageCount (t : PrefixReplayTracker) : ℕ :=
  if t.turnNumber = 0 then 0
  else if t.cachedTokenCount < minCachedTokens then 0
  else t.cachedMessageCount

end PrefixReplayTracker

/-! ### Token estimates -/

/-- The bytes of a string field; none when it is not a string. -/
def fieldBytes (key : String) (j : Json) : ℕ := ((j.getStr? key).map Text.byteLength).getD 0

/-- The bytes of a content block that count as text. -/
def blockBytes (block : Json) : ℕ :=
  match (block.getStr? "type").getD "" with
  | "tool_result" =>
    match block.get? "content" with
    | some (.str s) => Text.byteLength s
    | some (.arr inner) => (inner.map (fieldBytes "text")).sum
    | _ => 0
  | "tool_use" =>
    match block.get? "input" with
    | some (.str s) => Text.byteLength s
    | some (.obj fields) => (Json.obj fields).compactLength
    | _ => 0
  | _ => fieldBytes "text" block

/-- The bytes of a function call. -/
def callBytes (call : Json) : ℕ := fieldBytes "name" call + fieldBytes "arguments" call

/-- The estimated tokens of one message, at 3.5 bytes a token. -/
def messageTokens (msg : Json) : ℕ :=
  let content :=
    match msg.get? "content" with
    | some (.str s) => Text.byteLength s
    | some (.arr blocks) => (blocks.map blockBytes).sum
    | _ => 0
  let toolCalls :=
    (((msg.getArr? "tool_calls").getD []).map fun tc =>
      ((tc.get? "function").map callBytes).getD 0).sum
  let functionCall := ((msg.get? "function_call").map callBytes).getD 0
  max 1 ((content + toolCalls + functionCall + 20) * 2 / 7)

/-- The estimated tokens of each message. -/
def estimateMessageTokens (messages : List Json) : List ℕ := messages.map messageTokens

/-- How many leading messages fit in `total` tokens, `accumulated` of them spent. -/
def frozenCount (total accumulated : ℕ) : List ℕ → ℕ
  | [] => 0
  | tok :: counts =>
    if accumulated + tok ≤ total then frozenCount total (accumulated + tok) counts + 1 else 0

/-! ### Recording a turn -/

/-- The client's messages that are stored of a turn. -/
def storedOriginals (originals : List Json) : List Json :=
  originals.take (replayableStoredPrefixLen originals)

/-- The forwarded messages that are stored of a turn: as many are dropped from their own tail as
from the tail of the originals. -/
def storedForwarded (originals forwarded : List Json) : List Json :=
  forwarded.take
    (forwarded.length - (originals.length - replayableStoredPrefixLen originals))

/-- Whether two slices hold the same messages. -/
def sameMessages (a b : List Json) : Bool := decide (a.map Json.norm = b.map Json.norm)

/-- The alternates under both caps, the largest streams first. -/
def trimAlternates (alternates : List HeldPrefix) : List HeldPrefix :=
  Budget.trim (fun h => h.originals.length) maxAlternatePrefixes maxAlternateMessages alternates

namespace PrefixReplayTracker

/-- Whether the prefix held last belongs to another stream than the incoming turn. -/
def displaces (t : PrefixReplayTracker) (canonicalIncoming : List Json) : Bool :=
  !t.lastForwardedMessages.isEmpty &&
    !matchesCanonicalPrefix t.lastOriginalMessages canonicalIncoming

/-- The alternates with the displaced prefix in front, before the caps. -/
def withDisplaced (t : PrefixReplayTracker) : List HeldPrefix :=
  t.primary :: t.alternates.filter fun h => !sameMessages h.originals t.lastOriginalMessages

/-- Keep the prefix held last among the alternates when the turn is of another stream. -/
def displace (t : PrefixReplayTracker) (canonicalIncoming : List Json) : PrefixReplayTracker :=
  if t.displaces canonicalIncoming then
    { t with
      lastOriginalMessages := []
      lastForwardedMessages := []
      lastForwardedSystemHash := ""
      primaryChainId := 0
      alternates := trimAlternates t.withDisplaced }
  else t

/-- The turn takes the id of the chain it continues, or a new one. -/
def joinChain (t : PrefixReplayTracker) (canonicalIncoming : List Json) : PrefixReplayTracker :=
  if t.primaryChainId = 0 then
    match t.alternates.find? fun h => matchesCanonicalPrefix h.originals canonicalIncoming with
    | some h => { t with primaryChainId := h.chainId }
    | none => { t with primaryChainId := t.nextChainId, nextChainId := t.nextChainId + 1 }
  else t

/-- What the provider confirmed cached of the forwarded messages. -/
def confirm (t : PrefixReplayTracker) (totalCached : ℕ) (forwarded : List Json) :
    PrefixReplayTracker :=
  if totalCached = 0 then { t with cachedTokenCount := 0, cachedMessageCount := 0 }
  else
    { t with
      cachedTokenCount := totalCached
      cachedMessageCount := frozenCount totalCached 0 (estimateMessageTokens forwarded) }

/-- Record what was forwarded on a turn and how many tokens the provider cached. -/
def updateFromResponse (t : PrefixReplayTracker) (now cacheReadTokens cacheWriteTokens : ℕ)
    (forwarded : List Json) (originalMessages : Option (List Json))
    (forwardedSystemHash : String) : PrefixReplayTracker :=
  let originals := originalMessages.getD forwarded
  let incomingOriginal := storedOriginals originals
  let incomingForwarded := storedForwarded originals forwarded
  let canonicalIncoming := canonicalizeSlice incomingOriginal
  let t := { t with lastActivity := now, turnNumber := t.turnNumber + 1 }
  let t := (t.displace canonicalIncoming).joinChain canonicalIncoming
  let t :=
    { t with
      alternates := t.alternates.filter fun h =>
        !matchesCanonicalPrefix h.originals canonicalIncoming
      lastOriginalMessages := incomingOriginal
      lastForwardedMessages := incomingForwarded
      lastForwardedSystemHash := forwardedSystemHash }
  t.confirm (cacheReadTokens + cacheWriteTokens) forwarded

/-- Drop everything stored, on a rebuild boundary. -/
def invalidate (t : PrefixReplayTracker) : PrefixReplayTracker :=
  { t with
    cachedTokenCount := 0
    cachedMessageCount := 0
    lastOriginalMessages := []
    lastForwardedMessages := []
    alternates := []
    primaryChainId := 0 }

end PrefixReplayTracker

/-! ### The prefix a turn continues -/

/-- The last of the elements with the largest key. -/
def lastMaxBy {α : Type*} (key : α → ℕ) (l : List α) : Option α := l.reverse.argmax key

/-- Whether a held prefix leads the turn exactly. -/
def leadsTurn (canonicalCurrent : List Json) (systemOk : String → Bool) (h : HeldPrefix) : Bool :=
  !h.forwarded.isEmpty && matchesCanonicalPrefix h.originals canonicalCurrent &&
    systemOk h.systemHash

/-- Whether the turn continues a held prefix with its tail edited. -/
def editsTail (canonicalCurrent : List Json) (systemOk : String → Bool) (h : HeldPrefix) : Bool :=
  let agreed := canonicalAgreementLen h.originals canonicalCurrent
  !h.forwarded.isEmpty && minAgreeingRun ≤ agreed &&
    h.originals.length ≤ agreed + tailEditSlack && systemOk h.systemHash

/-- The held prefix that a turn continues: the longest that leads it, else the one with the longest
agreeing run whose tail alone was edited. -/
def pickReplayCandidate (tracker : PrefixReplayTracker) (canonicalCurrent : List Json)
    (systemOk : String → Bool) : Option HeldPrefix :=
  let best := lastMaxBy (fun h : HeldPrefix => h.originals.length)
    (tracker.held.filter (leadsTurn canonicalCurrent systemOk))
  best.or <| lastMaxBy (fun h : HeldPrefix => canonicalAgreementLen h.originals canonicalCurrent)
    (tracker.held.filter (editsTail canonicalCurrent systemOk))

/-! ### What is stored of a turn -/

theorem storedOriginals_lead (originals : List Json) :
    storedOriginals originals <+: originals :=
  List.take_prefix _ _

theorem length_storedOriginals (originals : List Json) :
    (storedOriginals originals).length = replayableStoredPrefixLen originals :=
  List.length_take_of_le (replayableStoredPrefixLen_le originals)

theorem storedForwarded_lead (originals forwarded : List Json) :
    storedForwarded originals forwarded <+: forwarded :=
  List.take_prefix _ _

/-- The two slices lose equally many messages, as far as the forwarded one goes. -/
theorem length_storedForwarded {originals forwarded : List Json}
    (h : originals.length ≤ forwarded.length) :
    (storedForwarded originals forwarded).length + originals.length =
      (storedOriginals originals).length + forwarded.length := by
  have hle := replayableStoredPrefixLen_le originals
  rw [length_storedOriginals, storedForwarded, List.length_take]
  omega

/-! ### What an update does -/

namespace PrefixReplayTracker

section

variable (t : PrefixReplayTracker) (now read write : ℕ) (forwarded originals : List Json)
  (hash : String)

@[simp] theorem confirm_primary (total : ℕ) : (t.confirm total forwarded).primary = t.primary := by
  unfold confirm
  split_ifs <;> rfl

@[simp] theorem confirm_alternates (total : ℕ) :
    (t.confirm total forwarded).alternates = t.alternates := by
  unfold confirm
  split_ifs <;> rfl

@[simp] theorem confirm_lastActivity (total : ℕ) :
    (t.confirm total forwarded).lastActivity = t.lastActivity := by
  unfold confirm
  split_ifs <;> rfl

@[simp] theorem confirm_nextChainId (total : ℕ) :
    (t.confirm total forwarded).nextChainId = t.nextChainId := by
  unfold confirm
  split_ifs <;> rfl

@[simp] theorem joinChain_alternates (canonicalIncoming : List Json) :
    (t.joinChain canonicalIncoming).alternates = t.alternates := by
  unfold joinChain
  split_ifs
  · split <;> rfl
  · rfl

@[simp] theorem joinChain_lastActivity (canonicalIncoming : List Json) :
    (t.joinChain canonicalIncoming).lastActivity = t.lastActivity := by
  unfold joinChain
  split_ifs
  · split <;> rfl
  · rfl

@[simp] theorem displace_lastActivity (canonicalIncoming : List Json) :
    (t.displace canonicalIncoming).lastActivity = t.lastActivity := by
  unfold displace
  split_ifs <;> rfl

@[simp] theorem updateFromResponse_originals :
    (t.updateFromResponse now read write forwarded (some originals) hash).primary.originals =
      storedOriginals originals := by
  simp only [updateFromResponse, confirm_primary, Option.getD_some]
  rfl

@[simp] theorem updateFromResponse_forwarded :
    (t.updateFromResponse now read write forwarded (some originals) hash).primary.forwarded =
      storedForwarded originals forwarded := by
  simp only [updateFromResponse, confirm_primary, Option.getD_some]
  rfl

@[simp] theorem updateFromResponse_systemHash :
    (t.updateFromResponse now read write forwarded (some originals) hash).primary.systemHash =
      hash := by
  simp only [updateFromResponse, confirm_primary]
  rfl

@[simp] theorem updateFromResponse_lastActivity :
    (t.updateFromResponse now read write forwarded (some originals) hash).lastActivity = now := by
  simp only [updateFromResponse, confirm_lastActivity, joinChain_lastActivity,
    displace_lastActivity]

/-- The alternates after an update: those before it, with the displaced prefix when the turn is of
another stream, less the prefixes that the turn continues. -/
theorem updateFromResponse_alternates :
    (t.updateFromResponse now read write forwarded (some originals) hash).alternates =
      (if t.displaces (canonicalizeSlice (storedOriginals originals)) then
        trimAlternates t.withDisplaced else t.alternates).filter fun h =>
        !matchesCanonicalPrefix h.originals (canonicalizeSlice (storedOriginals originals)) := by
  simp only [updateFromResponse, confirm_alternates, joinChain_alternates, Option.getD_some]
  congr 1
  unfold displace
  split_ifs with h1 h2 h2
  · rfl
  · exact absurd h1 h2
  · exact absurd h2 h1
  · rfl

end

/-- The entries that the caps leave are displaced or held before. -/
theorem mem_withDisplaced {t : PrefixReplayTracker} {h : HeldPrefix} (hh : h ∈ t.withDisplaced) :
    h ∈ t.held := by
  rcases List.mem_cons.mp hh with rfl | hh
  · exact List.mem_cons_self
  · exact List.mem_cons_of_mem _ (List.mem_of_mem_filter hh)

/-- An update brings in the recorded turn; every other prefix was held before and does not lead
the turn. -/
theorem mem_held_updateFromResponse {t : PrefixReplayTracker} {now read write : ℕ}
    {forwarded originals : List Json} {hash : String} {h : HeldPrefix}
    (hh : h ∈ (t.updateFromResponse now read write forwarded (some originals) hash).held) :
    (h.originals = storedOriginals originals ∧ h.forwarded = storedForwarded originals forwarded ∧
      h.systemHash = hash) ∨
    (h ∈ t.held ∧ matchesCanonicalPrefix h.originals
      (canonicalizeSlice (storedOriginals originals)) = false) := by
  rcases List.mem_cons.mp hh with rfl | hh
  · left
    simp
  · right
    rw [updateFromResponse_alternates, List.mem_filter] at hh
    refine ⟨?_, by simpa using hh.2⟩
    split_ifs at hh with hd
    · exact mem_withDisplaced ((Budget.trim_sublist _).subset hh.1)
    · exact List.mem_cons_of_mem _ hh.1

end PrefixReplayTracker

/-! ### What is picked for a turn -/

variable {α : Type*} {key : α → ℕ} {l : List α}

theorem mem_of_lastMaxBy {a : α}
    (h : lastMaxBy key l = some a) : a ∈ l :=
  List.mem_reverse.mp (List.argmax_mem h)

theorem le_of_lastMaxBy {a b : α}
    (h : lastMaxBy key l = some a) (hb : b ∈ l) : key b ≤ key a :=
  List.le_of_mem_argmax (List.mem_reverse.mpr hb) h

theorem lastMaxBy_eq_none :
    lastMaxBy key l = none ↔ l = [] := by
  simp [lastMaxBy, List.argmax_eq_none]

theorem lastMaxBy_concat {a : α} :
    lastMaxBy key (l ++ [a]) =
      match lastMaxBy key l with
      | none => some a
      | some m => if key a < key m then some m else some a := by
  rw [lastMaxBy, List.reverse_append, List.reverse_singleton, List.singleton_append,
    List.argmax_cons, lastMaxBy]
  cases List.argmax key l.reverse with
  | none => rfl
  | some m => rfl

/-- A prefix is picked because it leads the turn and is the longest to do so, or because none
leads it and the tail of this one was edited, with the longest agreement. -/
theorem pickReplayCandidate_spec {t : PrefixReplayTracker} {canonicalCurrent : List Json}
    {systemOk : String → Bool} {h : HeldPrefix}
    (hpick : pickReplayCandidate t canonicalCurrent systemOk = some h) :
    (h ∈ t.held ∧ leadsTurn canonicalCurrent systemOk h = true ∧
      ∀ h' ∈ t.held, leadsTurn canonicalCurrent systemOk h' = true →
        h'.originals.length ≤ h.originals.length) ∨
    (h ∈ t.held ∧ editsTail canonicalCurrent systemOk h = true ∧
      (∀ h' ∈ t.held, leadsTurn canonicalCurrent systemOk h' = false) ∧
      ∀ h' ∈ t.held, editsTail canonicalCurrent systemOk h' = true →
        canonicalAgreementLen h'.originals canonicalCurrent ≤
          canonicalAgreementLen h.originals canonicalCurrent) := by
  unfold pickReplayCandidate at hpick
  dsimp only at hpick
  rcases hbest : lastMaxBy (fun h : HeldPrefix => h.originals.length)
    (t.held.filter (leadsTurn canonicalCurrent systemOk)) with _ | b
  · right
    rw [hbest, Option.none_or] at hpick
    have hmem := List.mem_filter.mp (mem_of_lastMaxBy hpick)
    refine ⟨hmem.1, hmem.2, fun h' hh' => ?_, fun h' hh' hedit => ?_⟩
    · have hnone := List.filter_eq_nil_iff.mp (lastMaxBy_eq_none.mp hbest) h' hh'
      simpa using hnone
    · exact le_of_lastMaxBy hpick (List.mem_filter.mpr ⟨hh', hedit⟩)
  · left
    rw [hbest, Option.some_or, Option.some.injEq] at hpick
    subst hpick
    have hmem := List.mem_filter.mp (mem_of_lastMaxBy hbest)
    have hlongest : ∀ h' ∈ t.held.filter (leadsTurn canonicalCurrent systemOk),
        h'.originals.length ≤ b.originals.length := fun h' hh' => by
      simpa using le_of_lastMaxBy hbest hh'
    exact ⟨hmem.1, hmem.2, fun h' hh' hlead => hlongest h' (List.mem_filter.mpr ⟨hh', hlead⟩)⟩

/-- Nothing is picked when nothing leads the turn and no tail was edited. -/
theorem pickReplayCandidate_eq_none {t : PrefixReplayTracker} {canonicalCurrent : List Json}
    {systemOk : String → Bool} :
    pickReplayCandidate t canonicalCurrent systemOk = none ↔
      ∀ h ∈ t.held, leadsTurn canonicalCurrent systemOk h = false ∧
        editsTail canonicalCurrent systemOk h = false := by
  simp only [pickReplayCandidate, Option.or_eq_none_iff, lastMaxBy_eq_none,
    List.filter_eq_nil_iff, Bool.not_eq_true]
  exact ⟨fun h h' hh' => ⟨h.1 h' hh', h.2 h' hh'⟩,
    fun h => ⟨fun h' hh' => (h h' hh').1, fun h' hh' => (h h' hh').2⟩⟩

end Headroom.PrefixReplay
