import Headroom.PrefixReplay.Selection

/-!
# Completions out of order

The turns of a conversation are begun one after another and complete in any order. What is stored
of a turn leads everything that extends the conversation, so a late turn displaces a deeper one
from the most recent slot but not from the session: the deeper one is the largest of the
alternates, and it does not lead the late turn.

## Main results

* `previousTurnFor_deepest` : the next turn gets it, whatever the order.
-/

open Foundation

namespace Headroom.PrefixReplay

open SessionReplayStore PrefixReplayTracker

/-! ### Conversations -/

/-- The keys of the client's messages. -/
def PendingTurn.keys (turn : PendingTurn) : List Json := turn.originalMessages.map messageKey

/-- What is stored of the client's messages. -/
def PendingTurn.stored (turn : PendingTurn) : List Json := storedOriginals turn.originalMessages

/-- What is stored of the messages forwarded. -/
def PendingTurn.storedOut (turn : PendingTurn) : List Json :=
  storedForwarded turn.originalMessages turn.forwardedMessages

/-- How deep the stored prefix of a turn is. -/
def PendingTurn.depth (turn : PendingTurn) : ℕ := turn.stored.length

/-- The turns of one session under one system, each extending the one before, with at least as many
messages forwarded as the client sent. -/
structure Conversation (key systemHash : String) (turns : List PendingTurn) : Prop where
  session : ∀ turn ∈ turns, turn.sessionKey = key
  system : ∀ turn ∈ turns, turn.forwardedSystemHash = systemHash
  whole : ∀ turn ∈ turns, turn.originalMessages.length ≤ turn.forwardedMessages.length
  chain : turns.Pairwise fun a b => a.keys <+: b.keys

/-- A turn with these messages extends the whole conversation. -/
def Extends (turns : List PendingTurn) (next : List Json) : Prop :=
  ∀ turn ∈ turns.getLast?, turn.keys <+: next.map messageKey

section

variable {key d : String} {turns : List PendingTurn} {next : List Json} {a b : PendingTurn}

/-- Every turn leads a turn that extends the conversation. -/
theorem Conversation.keys_lead (hconv : Conversation key d turns) (hnext : Extends turns next)
    (ha : a ∈ turns) : a.keys <+: next.map messageKey := by
  obtain ⟨front, last, rfl⟩ : ∃ front last, turns = front ++ [last] :=
    (List.eq_nil_or_concat' turns).resolve_left (List.ne_nil_of_mem ha)
  have hlast : last.keys <+: next.map messageKey := hnext last (by simp)
  rcases List.mem_append.mp ha with hfront | hlast'
  · have hpair := (List.pairwise_append.mp hconv.chain).2.2 a hfront last (by simp)
    exact hpair.trans hlast
  · rwa [List.mem_singleton.mp hlast']

theorem stored_keys_lead (a : PendingTurn) : a.stored.map messageKey <+: a.keys :=
  (storedOriginals_lead a.originalMessages).map messageKey

theorem matches_of_depth_le (ha : a.keys <+: next.map messageKey)
    (hb : b.keys <+: next.map messageKey) (hne : a.stored ≠ []) (hle : a.depth ≤ b.depth) :
    matchesCanonicalPrefix a.stored (canonicalizeSlice b.stored) = true := by
  refine matchesCanonicalPrefix_iff.mpr ⟨hne, ?_⟩
  refine List.prefix_of_prefix_length_le ((stored_keys_lead a).trans ha)
    ((stored_keys_lead b).trans hb) ?_
  simpa only [List.length_map, PendingTurn.depth] using hle

theorem not_matches_of_length_lt {o o' : List Json} (h : o'.length < o.length) :
    matchesCanonicalPrefix o (canonicalizeSlice o') = false := by
  simp only [matchesCanonicalPrefix, length_canonicalizeSlice, h, decide_true, Bool.or_true,
    if_true]

/-- Something is forwarded for every stored prefix. -/
theorem Conversation.storedOut_ne_nil (hconv : Conversation key d turns) (ha : a ∈ turns)
    (hne : a.stored ≠ []) : a.storedOut ≠ [] := by
  have hlen : a.storedOut.length + a.originalMessages.length =
      a.stored.length + a.forwardedMessages.length := length_storedForwarded (hconv.whole a ha)
  have hpos := List.length_pos_of_ne_nil hne
  have hwhole := hconv.whole a ha
  refine List.ne_nil_of_length_pos ?_
  omega

end

/-! ### The deepest prefix -/

/-- A tracker holds what is stored of the completed turns, and of the last one of the deepest it
holds one prefix, the only one of that length. -/
structure Deepest (systemHash : String) (completed : List PendingTurn) (t : PrefixReplayTracker) :
    Prop where
  recorded : ∀ h ∈ t.held, h.originals ≠ [] → ∃ turn ∈ completed, h.originals = turn.stored ∧
    h.forwarded = turn.storedOut ∧ h.systemHash = systemHash
  deepest : ∀ turn, lastMaxBy PendingTurn.depth completed = some turn → turn.stored ≠ [] →
    ∃ h ∈ t.held, h.originals = turn.stored ∧ h.forwarded = turn.storedOut ∧
      ∀ h' ∈ t.held, h'.originals.length = turn.depth → h' = h

section

variable {key d : String} {turns completed : List PendingTurn} {next : List Json}
  {turn deep : PendingTurn} {t : PrefixReplayTracker} {now read write : ℕ}

theorem Deepest.fresh (now : ℕ) : Deepest d [] (.fresh now) where
  recorded := fun h hh hne => by
    rw [List.mem_singleton.mp hh] at hne
    exact absurd rfl hne
  deepest := fun turn hturn => nomatch hturn

variable {h : HeldPrefix}

/-- No prefix held is deeper than the deepest completed turn. -/
theorem Deepest.length_le (ht : Deepest d completed t)
    (hdeep : lastMaxBy PendingTurn.depth completed = some deep) (hh : h ∈ t.held) :
    h.originals.length ≤ deep.depth := by
  by_cases hne : h.originals = []
  · simp [hne]
  · obtain ⟨turn, hturn, ho, -⟩ := ht.recorded h hh hne
    rw [ho]
    show turn.depth ≤ deep.depth
    exact le_of_lastMaxBy hdeep hturn

/-- The tracker after the completion of a turn. -/
def afterTurn (t : PrefixReplayTracker) (now read write : ℕ) (turn : PendingTurn) :
    PrefixReplayTracker :=
  t.updateFromResponse now read write turn.forwardedMessages (some turn.originalMessages)
    turn.forwardedSystemHash

variable (turn t now read write) in
theorem afterTurn_primary : (afterTurn t now read write turn).primary.originals = turn.stored ∧
    (afterTurn t now read write turn).primary.forwarded = turn.storedOut ∧
    (afterTurn t now read write turn).primary.systemHash = turn.forwardedSystemHash :=
  ⟨updateFromResponse_originals t now read write turn.forwardedMessages turn.originalMessages
      turn.forwardedSystemHash,
    updateFromResponse_forwarded t now read write turn.forwardedMessages turn.originalMessages
      turn.forwardedSystemHash,
    updateFromResponse_systemHash t now read write turn.forwardedMessages turn.originalMessages
      turn.forwardedSystemHash⟩

/-- A completion brings in the turn's own prefix; the others were held before and do not lead
it. -/
theorem mem_held_afterTurn (hh : h ∈ (afterTurn t now read write turn).held) :
    h = (afterTurn t now read write turn).primary ∨ (h ∈ t.held ∧
      matchesCanonicalPrefix h.originals (canonicalizeSlice turn.stored) = false) := by
  rcases List.mem_cons.mp hh with rfl | halt
  · exact Or.inl rfl
  · right
    rw [afterTurn, updateFromResponse_alternates, List.mem_filter] at halt
    refine ⟨?_, (Bool.not_eq_true' _).mp halt.2⟩
    split_ifs at halt
    · exact mem_withDisplaced ((Budget.trim_sublist _).subset halt.1)
    · exact List.mem_cons_of_mem _ halt.1

theorem deepest_mem_afterTurn (ht : Deepest d completed t)
    (hdeep : lastMaxBy PendingTurn.depth completed = some deep) (hh : h ∈ t.held)
    (hfwd : h.forwarded ≠ []) (hlen : h.originals.length = deep.depth)
    (honly : ∀ h' ∈ t.held, h'.originals.length = deep.depth → h' = h)
    (hlt : turn.depth < deep.depth) : h ∈ (afterTurn t now read write turn).held := by
  refine List.mem_cons_of_mem _ ?_
  have hnot : matchesCanonicalPrefix h.originals (canonicalizeSlice turn.stored) = false :=
    not_matches_of_length_lt (by rw [hlen]; exact hlt)
  rw [afterTurn, updateFromResponse_alternates, List.mem_filter]
  refine ⟨?_, (Bool.not_eq_true' _).mpr hnot⟩
  have hmem : h ∈ t.withDisplaced := by
    rcases List.mem_cons.mp hh with rfl | halt
    · exact List.mem_cons_self
    · by_cases hsame : h = t.primary
      · rw [hsame]
        exact List.mem_cons_self
      · refine List.mem_cons_of_mem _ (List.mem_filter.mpr ⟨halt, ?_⟩)
        simp only [Bool.not_eq_true', sameMessages, decide_eq_false_iff_not]
        intro hnorm
        refine hsame (honly t.primary List.mem_cons_self ?_).symm
        have := congrArg List.length hnorm
        simp only [List.length_map] at this
        exact this.symm.trans hlen
  split_ifs with hdisplaces
  · -- It is the largest of the entries, so the caps leave it.
    refine Budget.mem_trim_of_largest (by decide) hmem fun b hb => ?_
    have hheld := mem_withDisplaced hb
    by_cases hb' : b.originals.length = deep.depth
    · exact Or.inl (honly b hheld hb')
    · right
      exact Nat.lt_of_le_of_ne (ht.length_le hdeep hheld) hb' |>.trans_eq hlen.symm
  · rcases List.mem_cons.mp hh with rfl | halt
    · refine absurd ?_ hdisplaces
      have hempty : t.lastForwardedMessages.isEmpty = false := List.isEmpty_eq_false_iff.mpr hfwd
      have hmatch : matchesCanonicalPrefix t.lastOriginalMessages
          (canonicalizeSlice (storedOriginals turn.originalMessages)) = false := hnot
      simp only [displaces, hempty, hmatch, Bool.not_false, Bool.and_self]
    · exact halt

/-- The completion of a further turn of the conversation keeps the deepest prefix. -/
theorem Deepest.update (hconv : Conversation key d turns) (hnext : Extends turns next)
    (hcompleted : ∀ turn ∈ completed, turn ∈ turns) (ht : Deepest d completed t)
    (hturn : turn ∈ turns) :
    Deepest d (completed ++ [turn]) (afterTurn t now read write turn) := by
  obtain ⟨ho, hf, hd⟩ := afterTurn_primary turn t now read write
  constructor
  · intro h hh hne
    rcases mem_held_afterTurn hh with rfl | ⟨hold, -⟩
    · exact ⟨turn, by simp, ho, hf, hd.trans (hconv.system turn hturn)⟩
    · obtain ⟨c, hc, hrest⟩ := ht.recorded h hold hne
      exact ⟨c, List.mem_append_left _ hc, hrest⟩
  · intro deep hdeep hne
    -- The turn is as deep as any before it, or a deeper one stays the deepest.
    have hcase : (deep = turn ∧ ∀ h ∈ t.held, h.originals.length ≤ turn.depth) ∨
        (lastMaxBy PendingTurn.depth completed = some deep ∧ turn.depth < deep.depth) := by
      rw [lastMaxBy_concat] at hdeep
      cases hmax : lastMaxBy PendingTurn.depth completed with
      | none =>
        rw [hmax] at hdeep
        refine Or.inl ⟨(Option.some.inj hdeep).symm, fun h hh => ?_⟩
        by_cases hnil : h.originals = []
        · simp [hnil]
        · obtain ⟨c, hc, -⟩ := ht.recorded h hh hnil
          rw [lastMaxBy_eq_none.mp hmax] at hc
          exact absurd hc List.not_mem_nil
      | some m =>
        simp only [hmax] at hdeep
        split_ifs at hdeep with hlt
        · obtain rfl := Option.some.inj hdeep
          exact Or.inr ⟨rfl, hlt⟩
        · refine Or.inl ⟨(Option.some.inj hdeep).symm, fun h hh => ?_⟩
          exact (ht.length_le hmax hh).trans (Nat.not_lt.mp hlt)
    rcases hcase with ⟨rfl, hle⟩ | ⟨hmax, hlt⟩
    · refine ⟨_, List.mem_cons_self, ho, hf, fun h hh hlen => ?_⟩
      rcases mem_held_afterTurn hh with rfl | ⟨hold, hnot⟩
      · rfl
      · have hnil : h.originals ≠ [] := by
          intro hnil
          rw [hnil] at hlen
          exact hne (List.length_eq_zero_iff.mp hlen.symm)
        obtain ⟨c, hc, hco, -⟩ := ht.recorded h hold hnil
        have hmatch := matches_of_depth_le (hconv.keys_lead hnext (hcompleted c hc))
          (hconv.keys_lead hnext hturn) (hco ▸ hnil) (by
            rw [hco] at hlen
            exact Nat.le_of_eq hlen)
        rw [← hco, hnot] at hmatch
        cases hmatch
    · obtain ⟨h, hh, hho, hhf, honly⟩ := ht.deepest deep hmax hne
      have hfwd : h.forwarded ≠ [] := by
        rw [hhf]
        exact hconv.storedOut_ne_nil (hcompleted deep (mem_of_lastMaxBy hmax)) hne
      have hlen : h.originals.length = deep.depth := by rw [hho]; rfl
      refine ⟨h, deepest_mem_afterTurn ht hmax hh hfwd hlen honly hlt, hho, hhf,
        fun h' hh' hlen' => ?_⟩
      rcases mem_held_afterTurn hh' with rfl | ⟨hold, -⟩
      · rw [ho] at hlen'
        exact absurd hlen' (Nat.ne_of_lt hlt)
      · exact honly h' hold hlen'

end

/-! ### Runs -/

/-- A run of turns on a store: the turns completed so far, in that order, and when the last one
was. -/
structure ChainRun where
  store : SessionReplayStore
  completed : List PendingTurn
  lastCompletion : ℕ

namespace ChainRun

/-- A turn is begun. -/
def begin (r : ChainRun) (requestId : String) (turn : PendingTurn) : ChainRun :=
  let store := r.store.beginRequest requestId turn.sessionKey turn.originalMessages
    turn.forwardedMessages turn.forwardedSystemHash
  { r with store := store }

/-- A request completes; it records a turn when one is parked for it. -/
def complete (sha256 : String → String) (r : ChainRun) (clock : Clock) (requestId : String)
    (read write : ℕ) : ChainRun where
  store := r.store.complete sha256 clock requestId read write
  completed := r.completed ++ (r.store.pending.peek requestId).toList
  lastCompletion :=
    if (r.store.pending.peek requestId).isSome then clock.instant else r.lastCompletion

end ChainRun

/-- The runs that begin some of the turns and complete requests in any order. -/
inductive ChainReach (sha256 : String → String) (turns : List PendingTurn) : ChainRun → Prop
  | initial (capacity : ℕ) (h : 0 < capacity) (persists : Bool) (now : ℕ) :
      ChainReach sha256 turns ⟨emptyStore capacity h persists, [], now⟩
  | begin {r : ChainRun} (hr : ChainReach sha256 turns r) (requestId : String) {turn : PendingTurn}
      (hturn : turn ∈ turns) : ChainReach sha256 turns (r.begin requestId turn)
  | complete {r : ChainRun} (hr : ChainReach sha256 turns r) (clock : Clock) (requestId : String)
      (read write : ℕ) : ChainReach sha256 turns (r.complete sha256 clock requestId read write)

/-- What holds along a run: the session's tracker, if there is one, holds the deepest completed
turn. -/
structure ChainInv (sha256 : String → String) (key systemHash : String) (turns : List PendingTurn)
    (r : ChainRun) : Prop where
  session : OneSession sha256 key r.store
  ttl : r.store.sessionTtl = sessionTtl
  parked : ∀ e ∈ r.store.pending.entries, e.2 ∈ turns
  completed : ∀ turn ∈ r.completed, turn ∈ turns
  tracker : (r.store.trackers.peek key = none ∧ r.completed = []) ∨
    ∃ t, r.store.trackers.peek key = some t ∧ Deepest systemHash r.completed t ∧
      t.lastActivity = r.lastCompletion

section

variable {sha256 : String → String} {key d : String} {turns : List PendingTurn} {next : List Json}
  {r : ChainRun}

theorem ChainInv.complete (hconv : Conversation key d turns) (hnext : Extends turns next)
    (hinv : ChainInv sha256 key d turns r) (clock : Clock) (requestId : String) (read write : ℕ) :
    ChainInv sha256 key d turns (r.complete sha256 clock requestId read write) := by
  have hsession := hinv.session.complete clock requestId read write
  cases hpeek : r.store.pending.peek requestId with
  | none =>
    have heq := complete_of_none sha256 r.store clock requestId read write hpeek
    have hsame : r.complete sha256 clock requestId read write =
        ⟨r.store.complete sha256 clock requestId read write, r.completed, r.lastCompletion⟩ := by
      simp only [ChainRun.complete, hpeek, Option.toList_none, List.append_nil, Option.isSome_none,
        Bool.false_eq_true, if_false]
    rw [hsame]
    refine ⟨hsession, ?_, ?_, hinv.completed, ?_⟩
    · rw [heq]
      exact hinv.ttl
    · rw [heq]
      exact fun e he => hinv.parked e (Lru.mem_pop.mp he).1
    · rw [heq]
      exact hinv.tracker
  | some turn =>
    have hturn : turn ∈ turns :=
      hinv.parked _ ((r.store.pending.peek_eq_some_iff requestId turn).mp hpeek)
    have hkey : turn.sessionKey = key := hconv.session turn hturn
    obtain ⟨trackers, -, htrackers, hpending, httl, -⟩ :=
      complete_of_some sha256 r.store clock requestId read write hpeek
    have hsame : r.complete sha256 clock requestId read write =
        ⟨r.store.complete sha256 clock requestId read write, r.completed ++ [turn],
          clock.instant⟩ := by
      simp only [ChainRun.complete, hpeek, Option.toList_some, Option.isSome_some, if_true]
    rw [hsame]
    refine ⟨hsession, httl.trans hinv.ttl, fun e he => ?_, fun c hc => ?_, Or.inr ?_⟩
    · rw [hpending] at he
      exact hinv.parked e (Lru.mem_pop.mp he).1
    · rcases List.mem_append.mp hc with hc | hc
      · exact hinv.completed c hc
      · rwa [List.mem_singleton.mp hc]
    · refine ⟨completedTracker r.store clock read write turn, ?_, ?_,
        updateFromResponse_lastActivity _ _ _ _ _ _ _⟩
      · rw [htrackers, hkey, Lru.peek_put_self]
      · have hbefore : Deepest d r.completed
            ((r.store.trackers.peek turn.sessionKey).getD (.fresh clock.instant)) := by
          rw [hkey]
          rcases hinv.tracker with ⟨hnone, hempty⟩ | ⟨t, ht, hdeep, -⟩
          · rw [hnone, hempty]
            exact Deepest.fresh clock.instant
          · rwa [ht]
        exact hbefore.update hconv hnext hinv.completed hturn

theorem ChainReach.inv (hconv : Conversation key d turns) (hnext : Extends turns next)
    (hr : ChainReach sha256 turns r) : ChainInv sha256 key d turns r := by
  induction hr with
  | initial capacity h persists now =>
    exact ⟨OneSession.emptyStore capacity h persists, rfl,
      fun e he => absurd he List.not_mem_nil, fun turn hturn => absurd hturn List.not_mem_nil,
      Or.inl ⟨rfl, rfl⟩⟩
  | begin hr requestId hturn ih =>
    refine ⟨?_, ih.ttl, fun e he => ?_, ih.completed, ih.tracker⟩
    · have hbegun := ih.session.beginRequest requestId
      rw [← hconv.session _ hturn] at hbegun ⊢
      exact hbegun _ _ _
    · rcases Lru.mem_put he with rfl | ⟨he, -⟩
      · exact hturn
      · exact ih.parked e he
  | complete hr clock requestId read write ih =>
    exact ih.complete hconv hnext clock requestId read write

theorem lastMaxBy_perm {α : Type*} {size : α → ℕ} {l l' : List α}
    (hdistinct : l.Pairwise fun a b => size a ≠ size b) (hperm : l'.Perm l) :
    lastMaxBy size l' = lastMaxBy size l := by
  cases hmax : lastMaxBy size l with
  | none =>
    rw [lastMaxBy_eq_none] at hmax ⊢
    rw [hmax] at hperm
    exact List.perm_nil.mp hperm
  | some a =>
    have ha := mem_of_lastMaxBy hmax
    cases hmax' : lastMaxBy size l' with
    | none =>
      rw [lastMaxBy_eq_none.mp hmax'] at hperm
      rw [List.nil_perm.mp hperm] at ha
      exact absurd ha List.not_mem_nil
    | some b =>
      have hb := hperm.mem_iff.mp (mem_of_lastMaxBy hmax')
      have heq : size b = size a := Nat.le_antisymm (le_of_lastMaxBy hmax hb)
        (le_of_lastMaxBy hmax' (hperm.mem_iff.mpr ha))
      rw [List.inj_on_of_nodup_map (List.pairwise_map.mpr hdistinct) hb ha heq]

/-- The tracker that holds the deepest completed turn picks it for the next turn. -/
theorem Deepest.lookup (hconv : Conversation key d turns) (hnext : Extends turns next)
    {completed : List PendingTurn} (hcompleted : ∀ turn ∈ completed, turn ∈ turns)
    {t : PrefixReplayTracker} (ht : Deepest d completed t) {deep : PendingTurn}
    (hdeep : lastMaxBy PendingTurn.depth completed = some deep) (hne : deep.stored ≠ []) :
    ∃ h, pickReplayCandidate t (canonicalizeSlice next) (systemOk (some d)) = some h ∧
      h.originals = deep.stored ∧ h.forwarded = deep.storedOut := by
  obtain ⟨h, hh, ho, hf, honly⟩ := ht.deepest deep hdeep hne
  have hmem := hcompleted deep (mem_of_lastMaxBy hdeep)
  have hleads : leadsTurn (canonicalizeSlice next) (systemOk (some d)) h = true := by
    obtain ⟨c, -, -, -, hd⟩ := ht.recorded h hh (ho ▸ hne)
    have hfwd : h.forwarded.isEmpty = false := by
      rw [hf, List.isEmpty_eq_false_iff]
      exact hconv.storedOut_ne_nil hmem hne
    have hmatch : matchesCanonicalPrefix h.originals (canonicalizeSlice next) = true := by
      rw [ho]
      exact matchesCanonicalPrefix_iff.mpr
        ⟨hne, (stored_keys_lead deep).trans (hconv.keys_lead hnext hmem)⟩
    simp only [leadsTurn, hfwd, hmatch, hd, systemOk, Option.map_some, Option.getD_some, beq_self_eq_true,
      Bool.not_false, Bool.and_self]
  have hlen : h.originals.length = deep.depth := by rw [ho]; rfl
  cases hpick : pickReplayCandidate t (canonicalizeSlice next) (systemOk (some d)) with
  | none => exact absurd hleads (by simp [(pickReplayCandidate_eq_none.mp hpick h hh).1])
  | some b =>
    rcases pickReplayCandidate_spec hpick with ⟨hb, -, hlongest⟩ | ⟨-, -, hnone, -⟩
    · have hb' : b = h := by
        refine honly b hb (Nat.le_antisymm (ht.length_le hdeep hb) ?_)
        rw [← hlen]
        exact hlongest h hh hleads
      exact ⟨b, rfl, by rw [hb', ho], by rw [hb', hf]⟩
    · rw [hnone h hh] at hleads
      cases hleads

/-- Whatever turns of a conversation were begun and in whatever order they completed, the next turn
gets what is stored of the deepest completed turn, the one that completed last among equals; and
where no two completed turns are equally deep that depends on which turns completed only. -/
theorem previousTurnFor_deepest (hconv : Conversation key d turns) (hnext : Extends turns next)
    (hr : ChainReach sha256 turns r) {deep : PendingTurn}
    (hdeep : lastMaxBy PendingTurn.depth r.completed = some deep) (hne : deep.stored ≠ [])
    (clock : Clock) (hlive : clock.instant ≤ r.lastCompletion + sessionTtl) :
    (∃ chainId, (r.store.previousTurnFor sha256 clock key next (some d)).1 =
      .ok (deep.stored, deep.storedOut, chainId)) ∧
    ((r.completed.Pairwise fun a b => a.depth ≠ b.depth) →
      ∀ r' clock', ChainReach sha256 turns r' → r'.completed.Perm r.completed →
        clock'.instant ≤ r'.lastCompletion + sessionTtl →
        ∃ chainId, (r'.store.previousTurnFor sha256 clock' key next (some d)).1 =
          .ok (deep.stored, deep.storedOut, chainId)) := by
  have answers : ∀ r' clock', ChainReach sha256 turns r' →
      lastMaxBy PendingTurn.depth r'.completed = some deep →
      clock'.instant ≤ r'.lastCompletion + sessionTtl →
      ∃ chainId, (r'.store.previousTurnFor sha256 clock' key next (some d)).1 =
        .ok (deep.stored, deep.storedOut, chainId) := by
    intro r' clock' hr' hdeep' hlive'
    have hinv := hr'.inv hconv hnext
    rcases hinv.tracker with ⟨-, hempty⟩ | ⟨t, ht, hdeepest, hactive⟩
    · rw [hempty] at hdeep'
      cases hdeep'
    · obtain ⟨h, hpick, ho, hf⟩ :=
        hdeepest.lookup hconv hnext hinv.completed hdeep' hne
      have hanswering : r'.store.answeringTracker sha256 clock' key next (some d) = some t := by
        rw [answeringTracker, hydrateOrAdopt_of_oneSession hinv.session,
          hydrate_of_peek sha256 r'.store clock' key ht]
        refine Option.filter_eq_some_iff.mpr ⟨ht, ?_⟩
        simp only [idle, hinv.ttl, hactive, Bool.not_eq_true', decide_eq_false_iff_not, not_lt]
        omega
      refine ⟨h.chainId, ?_⟩
      rw [previousTurnFor_of_answering hanswering, lookup_of_pick hpick]
      simp only [Except.map, ho, hf]
  refine ⟨answers r clock hr hdeep hlive, fun hdistinct r' clock' hr' hperm hlive' => ?_⟩
  refine answers r' clock' hr' ?_ hlive'
  rw [lastMaxBy_perm hdistinct hperm, hdeep]

end

/-! ### Two turns completing in the wrong order -/

/-- A turn of plain messages with what was forwarded for them. -/
def compressedParked (messages forwarded : List (String × String)) : PendingTurn where
  sessionKey := "k"
  originalMessages := plainMessages messages
  forwardedMessages := plainMessages forwarded
  forwardedSystemHash := "d"

/-- The first turn of a conversation. -/
def firstTurn : PendingTurn := compressedParked [("user", "a")] [("user", "a1")]

/-- Its second turn. -/
def secondTurn : PendingTurn :=
  compressedParked [("user", "a"), ("user", "b")] [("user", "a2"), ("user", "b2")]

/-- A second turn whose newest message is a reminder. -/
def reminderTurn : PendingTurn :=
  compressedParked [("user", "a"), ("user", "<system-reminder>x</system-reminder>")]
    [("user", "a2"), ("user", "<system-reminder>x</system-reminder>")]

/-- Both turns are begun, and the second one completes first. -/
def lateRun (second : PendingTurn) : ChainRun :=
  ((((ChainRun.mk (emptyStore 1 Nat.one_pos false) [] 0).begin "1" firstTurn).begin "2"
    second).complete id ⟨0, 0⟩ "2" 2000 0).complete id ⟨0, 0⟩ "1" 2000 0

theorem lateRun_reach (second : PendingTurn) :
    ChainReach id [firstTurn, second] (lateRun second) :=
  .complete (.complete (.begin (.begin (.initial 1 Nat.one_pos false 0) "1" List.mem_cons_self) "2"
    (List.mem_cons_of_mem _ List.mem_cons_self)) _ _ _ _) _ _ _ _

/-- The first turn completes late, and the next one gets the prefix of the second turn. -/
theorem previousTurnFor_deepest_late :
    ∃ chainId, ((lateRun secondTurn).store.previousTurnFor id ⟨0, 0⟩ "k"
      (plainMessages [("user", "a"), ("user", "b"), ("user", "c")]) (some "d")).1 =
      .ok (secondTurn.stored, secondTurn.storedOut, chainId) := by
  have hconv : Conversation "k" "d" [firstTurn, secondTurn] := by
    refine ⟨?_, ?_, ?_, ?_⟩
    · decide +kernel
    · decide +kernel
    · decide +kernel
    · refine List.pairwise_pair.mpr ?_
      decide +kernel
  have hnext : Extends [firstTurn, secondTurn]
      (plainMessages [("user", "a"), ("user", "b"), ("user", "c")]) := by
    rintro turn hturn
    obtain rfl := Option.some.inj hturn
    decide +kernel
  have hdeep : lastMaxBy PendingTurn.depth (lateRun secondTurn).completed = some secondTurn := by
    have hcompleted : (lateRun secondTurn).completed = [secondTurn, firstTurn] := rfl
    have hdepths : firstTurn.depth = 1 ∧ secondTurn.depth = 2 := by decide +kernel
    rw [hcompleted, lastMaxBy_cons, lastMaxBy_cons]
    simp [lastMaxBy, hdepths]
  exact (previousTurnFor_deepest hconv hnext (lateRun_reach secondTurn) hdeep (by decide +kernel)
    ⟨0, 0⟩ (Nat.zero_le _)).1

/-- Where the second turn adds a reminder only, both are stored equally deep, and the first turn,
completing late, takes the place of the second one. -/
theorem previousTurnFor_late_takes_over :
    Conversation "k" "d" [firstTurn, reminderTurn] ∧
    Extends [firstTurn, reminderTurn] (plainMessages [("user", "a"),
      ("user", "<system-reminder>x</system-reminder>"), ("user", "b")]) ∧
    ChainReach id [firstTurn, reminderTurn] (lateRun reminderTurn) ∧
    (lateRun reminderTurn).completed = [reminderTurn, firstTurn] ∧
    ∀ chainId, ((lateRun reminderTurn).store.previousTurnFor id ⟨0, 0⟩ "k" (plainMessages
      [("user", "a"), ("user", "<system-reminder>x</system-reminder>"), ("user", "b")])
      (some "d")).1 ≠ .ok (reminderTurn.stored, reminderTurn.storedOut, chainId) := by
  refine ⟨⟨?_, ?_, ?_, ?_⟩, ?_, lateRun_reach reminderTurn, rfl, fun chainId h => ?_⟩
  · decide +kernel
  · decide +kernel
  · decide +kernel
  · refine List.pairwise_pair.mpr ?_
    decide +kernel
  · rintro turn hturn
    obtain rfl := Option.some.inj hturn
    decide +kernel
  · have hout : ((lateRun reminderTurn).store.previousTurnFor id ⟨0, 0⟩ "k" (plainMessages
        [("user", "a"), ("user", "<system-reminder>x</system-reminder>"), ("user", "b")])
        (some "d")).1.toOption.map (fun found => found.2.1) =
        some (plainMessages [("user", "a1")]) := by decide +kernel
    have hne : reminderTurn.storedOut ≠ plainMessages [("user", "a1")] := by decide +kernel
    rw [h] at hout
    exact hne (Option.some.inj hout)

end Headroom.PrefixReplay
