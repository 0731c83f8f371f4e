import Headroom.OpenAi.Translate

/-!
# Early retries of a routed stream

The first bytes of a routed stream are held back. While they are, the response is not committed: if the
stream breaks, or ends as an event stream without its terminal event, what is held is thrown away and the
request is sent again. As soon as a terminal event is there, or enough bytes are, all that is held goes to
the client, and everything after it.

## Main statements

* `delivers_iff` : how often is resent depends on the bytes alone if and only if no attempt is torn.
-/

open Foundation

namespace Headroom.Routed

open OpenAi (stripPrefix? trimCarriageReturns)

/-! ### What is read from the bytes -/

def terminalNames : List String := ["response.completed", "response.failed", "response.incomplete"]

def isTerminalLine (line : List Char) : Bool :=
  match stripPrefix? "event:" line with
  | some name => (terminalNames.map String.toList).contains (Text.trim name)
  | none => (stripPrefix? "data:" line).any fun data => Text.trim data == "[DONE]".toList

/-- Whether a line of the bytes is a terminal event. -/
def hasTerminalEvent (held : List Bytes) : Bool :=
  ((fromUtf8Lossy held.flatten).splitOn '\n').any fun line => isTerminalLine (trimCarriageReturns line)

/-- Whether there are markers of an event stream in a chunk. -/
def hasSseFraming (held : List Bytes) : Bool :=
  held.any fun b =>
    Text.contains "event:".toList (fromUtf8Lossy b) || Text.contains "data:".toList (fromUtf8Lossy b)

/-! ### Attempts -/

/-- How the body of an attempt ends. -/
inductive Ending where
  | clean
  | error (retryable : Bool)
  deriving DecidableEq

/-- The body that an upstream sends. -/
structure Attempt where
  chunks : List Bytes
  ending : Ending
  deriving DecidableEq

def Attempt.bytes (a : Attempt) : Bytes := a.chunks.flatten

/-- What is done: bytes or an error for the client, or the request sent again. -/
inductive Effect where
  | deliver (bytes : Bytes)
  | fail
  | resend
  deriving DecidableEq

/-! ### Reading one attempt -/

/-- What is held back of an attempt, whether the response is committed, and what was delivered. -/
structure Reading where
  held : List Bytes := []
  heldLen : ℕ := 0
  committed : Bool := false
  sent : List Bytes := []

variable (holdBytes : ℕ)

def Reading.chunk (r : Reading) (b : Bytes) : Reading :=
  if r.committed then { r with sent := r.sent ++ [b] }
  else
    let held := r.held ++ [b]
    let heldLen := r.heldLen + b.length
    if hasTerminalEvent held || holdBytes ≤ heldLen then ⟨[], heldLen, true, r.sent ++ held⟩
    else ⟨held, heldLen, false, r.sent⟩

def readAttempt (a : Attempt) : Reading := a.chunks.foldl (Reading.chunk holdBytes) {}

/-- Whether the attempt is to be thrown away for another one, if there is one left. -/
def retries (a : Attempt) : Bool :=
  let r := readAttempt holdBytes a
  match a.ending with
  | .error retryable => !r.committed && retryable
  | .clean => !(r.committed || hasTerminalEvent r.held || !hasSseFraming r.held)

/-- The bytes of an attempt that the client is owed, and its error. -/
def flushed (a : Attempt) : List Effect :=
  let r := readAttempt holdBytes a
  (r.sent ++ r.held).map .deliver ++ match a.ending with
    | .error _ => [.fail]
    | .clean => []

/-- The wrapper while there are some resends left. `resend` says what comes of them: another body, or
nothing, when the upstream refuses or is not reached. -/
def stream (resend : ℕ → Option Attempt) : ℕ → ℕ → Attempt → List Effect
  | 0, _, a => flushed holdBytes a
  | left + 1, used, a =>
    if retries holdBytes a then
      (readAttempt holdBytes a).sent.map .deliver ++ .resend :: match resend used with
        | some next => stream resend left (used + 1) next
        | none => (readAttempt holdBytes a).held.map .deliver
    else flushed holdBytes a

/-- An accepted body behind the wrapper. -/
def wrapStreamingBody (maxResends : ℕ) (first : Attempt) (resend : ℕ → Option Attempt) : List Effect :=
  stream holdBytes resend maxResends 0 first

/-! ### What reading does -/

/-- What a reading is after some chunks. -/
structure Reading.Reads (cs : List Bytes) (r : Reading) : Prop where
  all : r.sent ++ r.held = cs
  sent : r.committed = false → r.sent = []
  held : r.committed = true → r.held = []
  heldLen : r.committed = false → r.heldLen = cs.flatten.length
  committed : r.committed = true ↔
    ∃ p, p ≠ [] ∧ p <+: cs ∧ (hasTerminalEvent p = true ∨ holdBytes ≤ p.flatten.length)

variable {holdBytes}

theorem Reading.Reads.chunk {cs : List Bytes} {r : Reading} (h : r.Reads holdBytes cs) (b : Bytes) :
    (r.chunk holdBytes b).Reads holdBytes (cs ++ [b]) := by
  rw [Reading.chunk]
  by_cases hcommitted : r.committed = true
  · rw [if_pos hcommitted]
    obtain ⟨p, hne, hstart, hshows⟩ := h.committed.1 hcommitted
    refine ⟨?_, fun hopen => ?_, h.held, fun hopen => ?_, ?_⟩
    · rw [h.held hcommitted, List.append_nil, ← h.all, h.held hcommitted, List.append_nil]
    · exact absurd hcommitted (by rw [hopen]; nofun)
    · exact absurd hcommitted (by rw [hopen]; nofun)
    · exact iff_of_true hcommitted ⟨p, hne, hstart.trans (List.prefix_append _ _), hshows⟩
  · rw [if_neg hcommitted]
    have hopen := eq_false_of_ne_true hcommitted
    have hheld : r.held = cs := by
      have hall := h.all
      rwa [h.sent hopen, List.nil_append] at hall
    have hlength : r.heldLen + b.length = (cs ++ [b]).flatten.length := by
      rw [h.heldLen hopen, List.flatten_append, List.length_append, List.flatten_singleton]
    rw [hheld, hlength, h.sent hopen]
    dsimp only
    -- the chunks before do not commit, so all depends on the last one
    have hlast : (∃ p, p ≠ [] ∧ p <+: cs ++ [b] ∧
        (hasTerminalEvent p = true ∨ holdBytes ≤ p.flatten.length)) ↔
          (hasTerminalEvent (cs ++ [b]) || holdBytes ≤ (cs ++ [b]).flatten.length) = true := by
      rw [Bool.or_eq_true, decide_eq_true_iff]
      constructor
      · rintro ⟨p, hne, hstart, hshows⟩
        rcases List.prefix_concat_iff.1 hstart with rfl | hstart
        · exact hshows
        · exact absurd (h.committed.2 ⟨p, hne, hstart, hshows⟩) hcommitted
      · intro hshows
        exact ⟨cs ++ [b], List.append_ne_nil_of_right_ne_nil _ (List.cons_ne_nil _ _), List.prefix_rfl, hshows⟩
    split_ifs with hshows
    · exact ⟨List.append_nil _, nofun, fun _ => rfl, nofun, iff_of_true rfl (hlast.2 hshows)⟩
    · exact ⟨List.nil_append _, fun _ => rfl, nofun, fun _ => rfl,
        iff_of_false Bool.false_ne_true fun hex => hshows (hlast.1 hex)⟩

theorem reads_readAttempt (a : Attempt) :
    (readAttempt holdBytes a).Reads holdBytes a.chunks := by
  have hstart : (Reading.mk [] 0 false []).Reads holdBytes [] := by
    refine ⟨rfl, fun _ => rfl, nofun, fun _ => rfl, iff_of_false Bool.false_ne_true ?_⟩
    rintro ⟨p, hne, hstart, -⟩
    exact hne (List.prefix_nil.1 hstart)
  have hfold : ∀ (cs before : List Bytes) (r : Reading), r.Reads holdBytes before →
      (cs.foldl (Reading.chunk holdBytes) r).Reads holdBytes (before ++ cs) := by
    intro cs
    induction cs with
    | nil =>
      intro before r h
      rwa [List.append_nil]
    | cons b cs ih =>
      intro before r h
      have hnext := ih (before ++ [b]) _ (h.chunk b)
      rwa [List.append_assoc] at hnext
  exact hfold a.chunks [] _ hstart

/-! ### One attempt for the client -/

/-- The client gets bytes of one attempt, in order, and maybe an error behind them, after some resends. -/
def OneAttempt (maxResends : ℕ) (first : Attempt) (resend : ℕ → Option Attempt) (effects : List Effect) :
    Prop :=
  ∃ n ≤ maxResends, ∃ a, (a = first ∨ ∃ i < n, resend i = some a) ∧ ∃ (sent : List Bytes) (tail : List Effect),
    effects = List.replicate n .resend ++ (sent.map .deliver ++ tail) ∧ (tail = [] ∨ tail = [.fail]) ∧
      sent.flatten <+: a.bytes

theorem flushed_eq (holdBytes : ℕ) (a : Attempt) :
    ∃ tail, flushed holdBytes a = a.chunks.map .deliver ++ tail ∧ (tail = [] ∨ tail = [.fail]) := by
  rw [flushed, (reads_readAttempt a).all]
  cases a.ending with
  | clean => exact ⟨[], rfl, Or.inl rfl⟩
  | error retryable => exact ⟨[.fail], rfl, Or.inr rfl⟩

variable {a : Attempt}

/-- An attempt that is thrown away has delivered nothing: all of it is held. -/
theorem held_of_retries (h : retries holdBytes a = true) :
    (readAttempt holdBytes a).sent = [] ∧ (readAttempt holdBytes a).held = a.chunks := by
  have hopen : (readAttempt holdBytes a).committed = false := by
    rw [retries] at h
    cases hending : a.ending with
    | clean =>
      rw [hending] at h
      simp only [Bool.not_eq_true', Bool.or_eq_false_iff] at h
      exact h.1.1
    | error retryable =>
      rw [hending] at h
      simp only [Bool.and_eq_true, Bool.not_eq_true'] at h
      exact h.1
  have hreads : (readAttempt holdBytes a).Reads holdBytes a.chunks := reads_readAttempt a
  have hall := hreads.all
  rw [hreads.sent hopen, List.nil_append] at hall
  exact ⟨hreads.sent hopen, hall⟩

theorem stream_oneAttempt (holdBytes : ℕ) (resend : ℕ → Option Attempt) (left used : ℕ) (a : Attempt) :
    ∃ n ≤ left, ∃ a', (a' = a ∨ ∃ i < used + n, resend i = some a') ∧ ∃ tail,
      stream holdBytes resend left used a =
        List.replicate n .resend ++ (a'.chunks.map .deliver ++ tail) ∧ (tail = [] ∨ tail = [.fail]) := by
  induction left generalizing used a with
  | zero =>
    obtain ⟨tail, hflushed, htail⟩ := flushed_eq holdBytes a
    exact ⟨0, le_rfl, a, Or.inl rfl, tail, hflushed, htail⟩
  | succ left ih =>
    rw [stream]
    split_ifs with hretries
    · obtain ⟨hsent, hheld⟩ := held_of_retries hretries
      rw [hsent, hheld]
      cases hnext : resend used with
      | none => exact ⟨1, by omega, a, Or.inl rfl, [], by simp, Or.inl rfl⟩
      | some next =>
        obtain ⟨n, hn, a', hfrom, tail, hstream, htail⟩ := ih (used + 1) next
        refine ⟨n + 1, by omega, a', Or.inr ?_, tail, ?_, htail⟩
        · rcases hfrom with rfl | ⟨i, hi, hresend⟩
          · exact ⟨used, by omega, hnext⟩
          · exact ⟨i, by omega, hresend⟩
        · dsimp only
          rw [hstream]
          rfl
    · obtain ⟨tail, hflushed, htail⟩ := flushed_eq holdBytes a
      exact ⟨0, Nat.zero_le _, a, Or.inl rfl, tail, hflushed, htail⟩

theorem wrapStreamingBody_oneAttempt (holdBytes maxResends : ℕ) (first : Attempt)
    (resend : ℕ → Option Attempt) :
    OneAttempt maxResends first resend (wrapStreamingBody holdBytes maxResends first resend) := by
  obtain ⟨n, hn, a, hfrom, tail, hstream, htail⟩ := stream_oneAttempt holdBytes resend maxResends 0 first
  rw [Nat.zero_add] at hfrom
  exact ⟨n, hn, a, hfrom, a.chunks, tail, hstream, htail, List.prefix_rfl⟩

/-! ### Attempts as one chunk -/

def Attempt.whole (a : Attempt) : Attempt := ⟨[a.bytes], a.ending⟩

/-- Some chunks from the first on show a terminal event. -/
def ShowsTerminal (a : Attempt) : Prop := ∃ p, p ≠ [] ∧ p <+: a.chunks ∧ hasTerminalEvent p = true

instance (a : Attempt) : Decidable (ShowsTerminal a) :=
  decidable_of_iff (∃ p ∈ a.chunks.inits, p ≠ [] ∧ hasTerminalEvent p = true) (by
    rw [ShowsTerminal]
    refine exists_congr fun p => ?_
    rw [List.mem_inits]
    tauto)

/-- The chunks of an attempt tell another story than its bytes: where these are too few to commit, a line
that is cut reads as a terminal event, or a marker of an event stream is cut in two. -/
def Torn (holdBytes : ℕ) (a : Attempt) : Prop :=
  match a.ending with
  | .error retryable => retryable = true ∧ (a.chunks = [] ∧ holdBytes = 0 ∨
      a.bytes.length < holdBytes ∧ hasTerminalEvent [a.bytes] = false ∧ ShowsTerminal a)
  | .clean => a.bytes.length < holdBytes ∧ hasTerminalEvent [a.bytes] = false ∧
      if ShowsTerminal a then hasSseFraming [a.bytes] = true
      else hasSseFraming a.chunks ≠ hasSseFraming [a.bytes]

theorem hasTerminalEvent_bytes (a : Attempt) : hasTerminalEvent [a.bytes] = hasTerminalEvent a.chunks := by
  rw [hasTerminalEvent, hasTerminalEvent, List.flatten_singleton, Attempt.bytes]

/-- The response to an attempt is committed as soon as a terminal event shows, or enough bytes are there. -/
theorem committed_iff (holdBytes : ℕ) (a : Attempt) : (readAttempt holdBytes a).committed = true ↔
    ShowsTerminal a ∨ a.chunks ≠ [] ∧ holdBytes ≤ a.bytes.length := by
  rw [(reads_readAttempt a).committed]
  constructor
  · rintro ⟨p, hne, hstart, hterminal | hlength⟩
    · exact Or.inl ⟨p, hne, hstart, hterminal⟩
    · refine Or.inr ⟨fun hnil => hne (List.prefix_nil.1 (hnil ▸ hstart)), hlength.trans ?_⟩
      exact (hstart.flatten).length_le
  · rintro (⟨p, hne, hstart, hterminal⟩ | ⟨hne, hlength⟩)
    · exact ⟨p, hne, hstart, Or.inl hterminal⟩
    · exact ⟨a.chunks, hne, List.prefix_rfl, Or.inr hlength⟩

theorem showsTerminal_of_terminal (h : hasTerminalEvent [a.bytes] = true) : ShowsTerminal a := by
  rw [hasTerminalEvent_bytes] at h
  refine ⟨a.chunks, ?_, List.prefix_rfl, h⟩
  rintro hnil
  rw [hnil] at h
  exact absurd h (by decide)

theorem showsTerminal_whole (a : Attempt) : ShowsTerminal a.whole ↔ hasTerminalEvent [a.bytes] = true := by
  constructor
  · rintro ⟨p, hne, hstart, hterminal⟩
    rcases List.prefix_cons_iff.1 hstart with rfl | ⟨rest, rfl, hrest⟩
    · exact absurd rfl hne
    · rwa [List.prefix_nil.1 hrest] at hterminal
  · exact fun h => ⟨[a.bytes], List.cons_ne_nil _ _, List.prefix_rfl, h⟩

/-- An attempt is thrown away if its error can be retried, or its end is a cut, and it is not committed. -/
theorem retries_iff (holdBytes : ℕ) (a : Attempt) : retries holdBytes a = true ↔
    ¬(ShowsTerminal a ∨ a.chunks ≠ [] ∧ holdBytes ≤ a.bytes.length) ∧
      match a.ending with
      | .error retryable => retryable = true
      | .clean => hasSseFraming a.chunks = true := by
  rw [← committed_iff, retries, Bool.not_eq_true]
  by_cases hcommitted : (readAttempt holdBytes a).committed = true
  · cases a.ending with
    | clean => simp [hcommitted]
    | error retryable => simp [hcommitted]
  · have hopen := eq_false_of_ne_true hcommitted
    have hheld : (readAttempt holdBytes a).held = a.chunks := by
      have hreads : (readAttempt holdBytes a).Reads holdBytes a.chunks := reads_readAttempt a
      have hall := hreads.all
      rwa [hreads.sent hopen, List.nil_append] at hall
    have hterminal : hasTerminalEvent a.chunks = false := by
      refine eq_false_of_ne_true fun h => hcommitted ((committed_iff holdBytes a).2 (Or.inl ?_))
      exact showsTerminal_of_terminal ((hasTerminalEvent_bytes a).trans h)
    cases a.ending with
    | clean => simp [hopen, hheld, hterminal]
    | error retryable => simp [hopen]

theorem chunks_ne_nil_of_showsTerminal (h : ShowsTerminal a) : a.chunks ≠ [] := by
  obtain ⟨p, hne, hstart, -⟩ := h
  exact fun hnil => hne (List.prefix_nil.1 (hnil ▸ hstart))

theorem retries_whole_iff (holdBytes : ℕ) (a : Attempt) :
    retries holdBytes a = retries holdBytes a.whole ↔ ¬Torn holdBytes a := by
  have hwhole : a.whole.bytes = a.bytes := List.flatten_singleton
  rw [Bool.eq_iff_iff, retries_iff, retries_iff, showsTerminal_whole, hwhole, Torn]
  have hshows : hasTerminalEvent [a.bytes] = true → ShowsTerminal a := showsTerminal_of_terminal
  have hne : ShowsTerminal a → a.chunks ≠ [] := chunks_ne_nil_of_showsTerminal
  have hnonempty : a.whole.chunks ≠ [] := List.cons_ne_nil _ _
  by_cases hnil : a.chunks = []
  · -- no chunk at all: the whole is one empty chunk
    have hbytes : a.bytes = [] := by rw [Attempt.bytes, hnil, List.flatten_nil]
    have hnone : ¬ShowsTerminal a := fun h => hne h hnil
    have hunframed : hasSseFraming [([] : Bytes)] = false := by decide
    have hunended : hasTerminalEvent [([] : Bytes)] = false := by decide
    have hempty : hasSseFraming [] = false := rfl
    cases hending : a.ending with
    | clean =>
      simp only [Attempt.whole, hending, hnil, hbytes, hnone, hunframed, hempty, if_false]
      simp
    | error retryable =>
      simp only [Attempt.whole, hending, hnil, hbytes, hnone, hunended, List.length_nil]
      cases retryable with
      | false => simp
      | true => simp [Nat.pos_iff_ne_zero]
  · by_cases hlength : holdBytes ≤ a.bytes.length
    · have hless : ¬a.bytes.length < holdBytes := not_lt.mpr hlength
      cases hending : a.ending with
      | clean => simp [hnil, hlength, hnonempty]
      | error retryable => simp [hnil, hlength, hnonempty]
    · have hless : a.bytes.length < holdBytes := not_le.mp hlength
      cases hending : a.ending with
      | clean =>
        simp only [Attempt.whole, hending, hlength, hless, and_false, or_false, true_and]
        by_cases hshown : ShowsTerminal a
        · cases hterminal : hasTerminalEvent [a.bytes] with
          | true => simp [hshown]
          | false => simp [hshown]
        · have hterminal : hasTerminalEvent [a.bytes] = false := eq_false_of_ne_true fun h => hshown (hshows h)
          simp only [hshown, hterminal, if_false, not_false_eq_true, true_and, ne_eq, not_not]
          cases hasSseFraming a.chunks <;> cases hasSseFraming [a.bytes] <;> simp
      | error retryable =>
        simp only [Attempt.whole, hending, hlength, hless, hnil, and_false, or_false, true_and, false_and,
          false_or]
        by_cases hshown : ShowsTerminal a
        · cases retryable with
          | false => simp
          | true => simp [hshown]
        · have hterminal : hasTerminalEvent [a.bytes] = false := eq_false_of_ne_true fun h => hshown (hshows h)
          simp [hshown, hterminal]

/-! ### How often is resent -/

/-- How often the request is sent again. -/
def resends (effects : List Effect) : ℕ := effects.count .resend

/-- The attempts whose end is decided upon while there are resends left. -/
def decided (holdBytes : ℕ) (resend : ℕ → Option Attempt) : ℕ → ℕ → Attempt → List Attempt
  | 0, _, _ => []
  | left + 1, used, a => a ::
    if retries holdBytes a then ((resend used).map fun next => decided holdBytes resend left (used + 1) next).getD []
    else []

theorem resends_deliver (bs : List Bytes) (effects : List Effect) :
    resends (bs.map .deliver ++ effects) = resends effects := by
  induction bs with
  | nil => rfl
  | cons b bs ih =>
    rw [List.map_cons, List.cons_append, resends, List.count_cons_of_ne (by nofun)]
    exact ih

theorem resends_flushed (a : Attempt) : resends (flushed holdBytes a) = 0 := by
  obtain ⟨tail, hflushed, rfl | rfl⟩ := flushed_eq holdBytes a
  · rw [hflushed, resends_deliver]
    rfl
  · rw [hflushed, resends_deliver]
    rfl

/-- What comes of an attempt that is thrown away. -/
theorem resends_of_retries (resend : ℕ → Option Attempt) (left used : ℕ) (h : retries holdBytes a = true) :
    resends (stream holdBytes resend (left + 1) used a) =
      ((resend used).map fun next => resends (stream holdBytes resend left (used + 1) next)).getD 0 + 1 := by
  obtain ⟨hsent, hheld⟩ := held_of_retries h
  rw [stream, if_pos h, hsent, hheld, List.map_nil, List.nil_append, resends, List.count_cons_self]
  cases resend used with
  | none =>
    have hnone := resends_deliver a.chunks []
    rw [List.append_nil] at hnone
    exact congrArg (· + 1) hnone
  | some next => rfl

theorem resends_of_not_retries (resend : ℕ → Option Attempt) (left used : ℕ)
    (h : retries holdBytes a = false) : resends (stream holdBytes resend (left + 1) used a) = 0 := by
  rw [stream, if_neg (by rw [h]; nofun), resends_flushed]

/-- The request is sent again as often as if every attempt were one chunk if and only if no attempt whose
end is decided upon is torn. -/
theorem resends_stream_iff (resend : ℕ → Option Attempt) (left used : ℕ) (a : Attempt) :
    resends (stream holdBytes resend left used a) =
        resends (stream holdBytes (fun i => (resend i).map Attempt.whole) left used a.whole) ↔
      ∀ b ∈ decided holdBytes resend left used a, ¬Torn holdBytes b := by
  induction left generalizing used a with
  | zero =>
    have hnone : ∀ b ∈ decided holdBytes resend 0 used a, ¬Torn holdBytes b := fun b => nofun
    rw [stream, stream, resends_flushed, resends_flushed]
    exact iff_of_true rfl hnone
  | succ left ih =>
    have htorn := retries_whole_iff holdBytes a
    rw [decided, List.forall_mem_cons]
    cases hretries : retries holdBytes a with
    | false =>
      rw [resends_of_not_retries resend left used hretries, if_neg Bool.false_ne_true]
      cases hwhole : retries holdBytes a.whole with
      | false =>
        rw [resends_of_not_retries _ left used hwhole]
        have hgood : ¬Torn holdBytes a := htorn.1 (hretries.trans hwhole.symm)
        exact iff_of_true rfl ⟨hgood, fun b => nofun⟩
      | true =>
        rw [resends_of_retries _ left used hwhole]
        have hbad : ¬¬Torn holdBytes a := fun hgood => by
          rw [← htorn, hretries, hwhole] at hgood
          exact absurd hgood nofun
        exact iff_of_false (by omega) fun h => hbad h.1
    | true =>
      rw [resends_of_retries resend left used hretries, if_pos rfl]
      cases hwhole : retries holdBytes a.whole with
      | false =>
        rw [resends_of_not_retries _ left used hwhole]
        have hbad : ¬¬Torn holdBytes a := fun hgood => by
          rw [← htorn, hretries, hwhole] at hgood
          exact absurd hgood nofun
        exact iff_of_false (by omega) fun h => hbad h.1
      | true =>
        rw [resends_of_retries _ left used hwhole]
        have hgood : ¬Torn holdBytes a := htorn.1 (hretries.trans hwhole.symm)
        rw [Nat.add_right_cancel_iff, and_iff_right hgood]
        cases hnext : resend used with
        | none => exact iff_of_true rfl fun b => nofun
        | some next => exact ih (used + 1) next

/-- What the claim of one attempt and of decisions by the bytes alone comes to. -/
structure Delivers (holdBytes maxResends : ℕ) (first : Attempt) (resend : ℕ → Option Attempt) : Prop where
  oneAttempt : OneAttempt maxResends first resend (wrapStreamingBody holdBytes maxResends first resend)
  byBytes : resends (wrapStreamingBody holdBytes maxResends first resend) =
    resends (wrapStreamingBody holdBytes maxResends first.whole fun i => (resend i).map Attempt.whole)

/-- The client gets one attempt, and how often is resent depends on the bytes alone, if and only if no
attempt whose end is decided upon is torn. -/
theorem delivers_iff (holdBytes maxResends : ℕ) (first : Attempt) (resend : ℕ → Option Attempt) :
    Delivers holdBytes maxResends first resend ↔
      ∀ a ∈ decided holdBytes resend maxResends 0 first, ¬Torn holdBytes a := by
  rw [← resends_stream_iff]
  exact ⟨fun h => h.byBytes, fun h => ⟨wrapStreamingBody_oneAttempt holdBytes maxResends first resend, h⟩⟩

/-! ### A marker that is cut in two -/

/-- The beginning of an event stream, cut in the name of its first field. -/
def cutMarker : Attempt := ⟨[ascii "ev", ascii "ent: ping\n"], .clean⟩

/-- The cut stream is taken for a whole answer; as one chunk it is sent for again. -/
theorem not_delivers_cutMarker : ¬Delivers 8192 2 cutMarker fun _ => none := by
  intro h
  have hcut : retries 8192 cutMarker = false := by decide +kernel
  have hwhole : retries 8192 cutMarker.whole = true := by decide +kernel
  have hcount := h.byBytes
  rw [wrapStreamingBody, wrapStreamingBody, resends_of_not_retries _ 1 0 hcut,
    resends_of_retries _ 1 0 hwhole] at hcount
  omega

end Headroom.Routed
