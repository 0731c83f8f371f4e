import Headroom.Sse.PlaceholderJoin

/-!
# Restoring a stream

The adapter restores a body chunk by chunk. It holds back what could still become a placeholder,
and at the end of the stream it restores what is held.

## Main results

* `RestoreStream.delivered_polls` : the restoration of a stream is that of the whole body.
* `foldl_feed` : event streams.
-/

open Foundation Headroom.Sse

namespace Headroom.Redact

/-! ### The adapter -/

/-- The answer to a poll. -/
inductive Poll (α : Type*)
  | ready (a : α)
  | pending

structure RestoreStream where
  pending : Bytes := []
  join : PlaceholderJoin := {}
  done : Bool := false

variable {ε : Type*}

namespace RestoreStream

/-- A chunk of the inner stream. -/
def onChunk (table : RestoreTable) (self : RestoreStream) (chunk : Bytes) : Bytes × RestoreStream :=
  let ((joined, _), join) := self.join.push table chunk
  match join.byteEscape with
  -- Whole events, restored already.
  | none => (joined, { self with join })
  | some escape =>
    let pending := self.pending ++ joined
    let emitUntil := (holdFrom pending table.overlap).getD pending.length
    let (out, _) := table.restoreBytesAs escape (pending.take emitUntil)
    (out, { self with join, pending := pending.drop emitUntil })

/-- The end of the inner stream. -/
def onEnd (table : RestoreTable) (self : RestoreStream) : Bytes × RestoreStream :=
  let ((rest, _), join) := self.join.finish table
  match self.join.byteEscape with
  | none => (rest, { self with join, done := true })
  | some escape =>
    let (out, _) := table.restoreBytesAs escape (self.pending ++ rest)
    (out, { join, pending := [], done := true })

/-- One poll. The inner stream is given by its answers to the polls before its end. -/
def pollNext (table : RestoreTable) (self : RestoreStream) (inner : List (Poll (Except ε Bytes))) :
    Poll (Option (Except ε Bytes)) × RestoreStream × List (Poll (Except ε Bytes)) :=
  -- The inner stream is not polled after it ended.
  if self.done then (.ready none, self, inner)
  else
    match inner with
    | .ready (.ok chunk) :: inner =>
      let (out, self) := self.onChunk table chunk
      (.ready (some (.ok out)), self, inner)
    | .ready (.error e) :: inner => (.ready (some (.error e)), self, inner)
    | .pending :: inner => (.pending, self, inner)
    | [] =>
      let (out, self) := self.onEnd table
      (.ready (if out.isEmpty then none else some (.ok out)), self, [])

/-- The answers to a number of polls. -/
def polls (table : RestoreTable) :
    ℕ → RestoreStream → List (Poll (Except ε Bytes)) → List (Poll (Option (Except ε Bytes)))
  | 0, _, _ => []
  | n + 1, self, inner =>
    let (answer, self, inner) := self.pollNext table inner
    answer :: polls table n self inner

end RestoreStream

/-- The bytes of a chunk. -/
def Poll.chunk : Poll (Except ε Bytes) → Bytes
  | .ready (.ok chunk) => chunk
  | _ => []

/-- The error of an answer. -/
def Poll.failure : Poll (Except ε Bytes) → Option ε
  | .ready (.error e) => some e
  | _ => none

/-- An answer, the end of the stream taken for no item. -/
def Poll.item : Poll (Option (Except ε Bytes)) → Poll (Except ε Bytes)
  | .ready (some item) => .ready item
  | .ready none => .pending
  | .pending => .pending

/-- The bytes that arrived. -/
def arrived (answers : List (Poll (Except ε Bytes))) : Bytes := (answers.map Poll.chunk).flatten

/-- The bytes that were delivered. -/
def delivered (answers : List (Poll (Option (Except ε Bytes)))) : Bytes :=
  arrived (answers.map Poll.item)

/-! ### The shape of a body -/

/-- What a body is, by all of its bytes. -/
def bodyShape (body : Bytes) : Shape := (shapeOf (trimAsciiStart body)).getD .unknown

section Shape

variable {start p : Bytes}

/-- A text that is not too short shows whether it has a prefix. -/
theorem isPrefixOf_append (h : ¬ (start.length < p.length && start.isPrefixOf p) = true)
    (more : Bytes) : p.isPrefixOf (start ++ more) = p.isPrefixOf start := by
  rw [Bool.eq_iff_iff, List.isPrefixOf_iff_prefix, List.isPrefixOf_iff_prefix]
  refine ⟨fun hpre => ?_, fun hpre => hpre.trans (List.prefix_append _ _)⟩
  refine List.prefix_of_prefix_length_le hpre (List.prefix_append _ _) ?_
  by_contra hlt
  have hstart := List.prefix_of_prefix_length_le (List.prefix_append start more) hpre (by omega)
  exact h (by
    rw [Bool.and_eq_true, decide_eq_true_eq]
    exact ⟨by omega, List.isPrefixOf_iff_prefix.mpr hstart⟩)

theorem not_short_append (h : ¬ (start.length < p.length && start.isPrefixOf p) = true)
    (more : Bytes) :
    ¬ ((start ++ more).length < p.length && (start ++ more).isPrefixOf p) = true := by
  rw [Bool.and_eq_true, decide_eq_true_eq, List.length_append]
  rintro ⟨hlt, hpre⟩
  refine h ?_
  rw [Bool.and_eq_true, decide_eq_true_eq]
  exact ⟨by omega, List.isPrefixOf_iff_prefix.mpr
    ((List.prefix_append _ _).trans (List.isPrefixOf_iff_prefix.mp hpre))⟩

theorem shapeOf_ne_unknown {shape : Shape} (h : shapeOf start = some shape) : shape ≠ .unknown := by
  rw [shapeOf] at h
  split_ifs at h <;> obtain rfl := Option.some.inj h <;> decide

/-- More bytes do not change a decision. -/
theorem shapeOf_append {shape : Shape} (h : shapeOf start = some shape) (more : Bytes) :
    shapeOf (start ++ more) = some shape := by
  have hshort : ¬ (markers.any fun p => start.length < p.length && start.isPrefixOf p) = true := by
    intro hany
    rw [shapeOf, if_pos hany] at h
    exact absurd h.symm (Option.some_ne_none shape)
  have hmarkers : ∀ p ∈ markers, ¬ (start.length < p.length && start.isPrefixOf p) = true :=
    fun p hp hcond => hshort (List.any_eq_true.mpr ⟨p, hp, hcond⟩)
  have hone : ∀ p : Bytes, p.length = 1 → ¬ (start.length < p.length && start.isPrefixOf p) = true := by
    intro p hp hcond
    rw [Bool.and_eq_true, decide_eq_true_eq] at hcond
    obtain rfl : start = [] := List.eq_nil_of_length_eq_zero (by omega)
    exact hmarkers (ascii ":") (by decide) rfl
  have hlater : ¬ (markers.any fun p =>
      (start ++ more).length < p.length && (start ++ more).isPrefixOf p) = true := by
    intro hany
    obtain ⟨p, hp, hcond⟩ := List.any_eq_true.mp hany
    exact not_short_append (hmarkers p hp) more hcond
  have hsse : (markers.any fun p => p.isPrefixOf (start ++ more)) =
      markers.any fun p => p.isPrefixOf start := by
    rw [Bool.eq_iff_iff, List.any_eq_true, List.any_eq_true]
    exact exists_congr fun p => and_congr_right fun hp => by
      rw [isPrefixOf_append (hmarkers p hp)]
  rw [shapeOf, if_neg hshort] at h
  rw [shapeOf, if_neg hlater, hsse, isPrefixOf_append (hone _ rfl), isPrefixOf_append (hone _ rfl), h]

theorem trimAsciiStart_append (bytes more : Bytes) :
    trimAsciiStart (bytes ++ more) =
      if trimAsciiStart bytes = [] then trimAsciiStart more else trimAsciiStart bytes ++ more := by
  rw [trimAsciiStart, List.dropWhile_append]
  by_cases h : trimAsciiStart bytes = []
  · have hisEmpty : (bytes.dropWhile isAsciiWhitespace).isEmpty = true := List.isEmpty_iff.mpr h
    rw [if_pos h, if_pos hisEmpty, trimAsciiStart]
  · have hisEmpty : ¬ (bytes.dropWhile isAsciiWhitespace).isEmpty = true :=
      mt List.isEmpty_iff.mp h
    rw [if_neg h, if_neg hisEmpty, trimAsciiStart]

theorem bodyShape_append {body : Bytes} (h : bodyShape body ≠ .unknown) (more : Bytes) :
    bodyShape (body ++ more) = bodyShape body := by
  cases hshape : shapeOf (trimAsciiStart body) with
  | none =>
    rw [bodyShape, hshape] at h
    exact absurd rfl h
  | some shape =>
    have hne : trimAsciiStart body ≠ [] := by
      intro hnil
      rw [hnil, show shapeOf [] = none by decide] at hshape
      exact Option.some_ne_none shape hshape.symm
    rw [bodyShape, bodyShape, trimAsciiStart_append, if_neg hne, hshape, shapeOf_append hshape]

end Shape

/-! ### The first stage -/

theorem notMem_of_trimAsciiStart {bytes : Bytes} (h : trimAsciiStart bytes = []) : us ∉ bytes := by
  intro hmem
  exact absurd (List.dropWhile_eq_nil_iff.mp h us hmem) (by decide)

/-- What the first stage remembers of a body. -/
structure Opening (body : Bytes) (join : PlaceholderJoin) : Prop where
  shape : join.shape = bodyShape body
  decided : bodyShape body ≠ .unknown → join.undecided = []
  undecided : bodyShape body = .unknown → trimAsciiStart join.undecided = trimAsciiStart body

theorem opening_new : Opening [] {} := ⟨by decide, fun _ => rfl, fun _ => rfl⟩

theorem push_spec (table : RestoreTable) {body : Bytes} {join : PlaceholderJoin} (h : Opening body join)
    {chunk : Bytes} (hsse : bodyShape (body ++ chunk) ≠ .sse) :
    Opening (body ++ chunk) (join.push table chunk).2 ∧
      (join.push table chunk).1.1 ++ (join.push table chunk).2.undecided = join.undecided ++ chunk ∧
      (bodyShape (body ++ chunk) = .unknown → us ∉ (join.push table chunk).1.1) := by
  by_cases hunknown : bodyShape body = .unknown
  · have htrim : trimAsciiStart (join.undecided ++ chunk) = trimAsciiStart (body ++ chunk) := by
      rw [trimAsciiStart_append, trimAsciiStart_append, h.undecided hunknown]
    rw [PlaceholderJoin.push, if_pos (h.shape.trans hunknown)]
    dsimp only
    rw [htrim]
    by_cases hnil : trimAsciiStart (body ++ chunk) = []
    · have hlater : bodyShape (body ++ chunk) = .unknown := by
        rw [bodyShape, hnil]
        decide
      rw [hnil, List.isEmpty_nil, if_pos rfl]
      refine ⟨⟨?_, fun _ => rfl, fun _ => hnil.symm⟩, List.append_nil _, fun _ => ?_⟩
      · rw [hlater, ← hunknown]
        exact h.shape
      · exact notMem_of_trimAsciiStart (htrim.trans hnil)
    · have hisEmpty : (trimAsciiStart (body ++ chunk)).isEmpty = false := by simpa using hnil
      rw [hisEmpty, if_neg Bool.false_ne_true]
      cases hshape : shapeOf (trimAsciiStart (body ++ chunk)) with
      | none =>
        have hlater : bodyShape (body ++ chunk) = .unknown := by rw [bodyShape, hshape]; rfl
        refine ⟨⟨?_, fun hne => absurd hlater hne, fun _ => htrim⟩, rfl, fun _ => List.not_mem_nil⟩
        rw [hlater, ← hunknown]
        exact h.shape
      | some shape =>
        have hlater : bodyShape (body ++ chunk) = shape := by rw [bodyShape, hshape]; rfl
        rw [hlater] at hsse ⊢
        have hne : shape ≠ .unknown := shapeOf_ne_unknown hshape
        dsimp only
        rw [PlaceholderJoin.pushDecided, if_pos hsse]
        exact ⟨⟨hlater.symm, fun _ => rfl, fun hu => absurd (hlater.symm.trans hu) hne⟩,
          List.append_nil _, fun hu => absurd hu hne⟩
  · have hlater := bodyShape_append hunknown chunk
    rw [hlater] at hsse ⊢
    have hdecided := h.decided hunknown
    rw [PlaceholderJoin.push, if_neg (by rwa [h.shape]), PlaceholderJoin.pushDecided,
      if_pos (by rwa [h.shape])]
    refine ⟨⟨h.shape.trans hlater.symm, fun _ => hdecided, fun hu => absurd (hlater.symm.trans hu) hunknown⟩,
      ?_, fun hu => absurd hu hunknown⟩
    dsimp only
    rw [hdecided, List.append_nil, List.nil_append]

/-! ### The restoration -/

variable {table : RestoreTable} {body out : Bytes} {s : RestoreStream}

namespace RestoreStream

/-- What is delivered and what is held is the restoration of what arrived. -/
structure Inv (table : RestoreTable) (body out : Bytes) (s : RestoreStream) : Prop where
  running : s.done = false
  opening : Opening body s.join
  plain : bodyShape body = .unknown → us ∉ s.pending
  restored : ∀ escape, bodyShape body = .unknown ∨ s.join.byteEscape = some escape → ∀ more,
    (table.restoreBytesAs escape (body ++ more)).1 =
      out ++ (table.restoreBytesAs escape (s.pending ++ (s.join.undecided ++ more))).1

theorem inv_new (table : RestoreTable) : Inv table [] [] {} :=
  ⟨rfl, opening_new, fun _ => List.not_mem_nil, fun _ _ _ => rfl⟩

/-- A chunk keeps the invariant. -/
theorem Inv.onChunk (h : Inv table body out s) (hoverlap : MAX_TOKEN_LEN - 1 ≤ table.overlap)
    {chunk : Bytes} (hsse : bodyShape (body ++ chunk) ≠ .sse) :
    Inv table (body ++ chunk) (out ++ (s.onChunk table chunk).1) (s.onChunk table chunk).2 := by
  obtain ⟨hopening, hbytes, hplain⟩ := push_spec table h.opening hsse
  obtain ⟨escape, hescape⟩ : ∃ escape, (s.join.push table chunk).2.byteEscape = some escape := by
    rw [PlaceholderJoin.byteEscape, hopening.shape]
    cases hshape : bodyShape (body ++ chunk) with
    | sse => exact absurd hshape hsse
    | _ => exact ⟨_, rfl⟩
  rw [RestoreStream.onChunk]
  generalize hpush : s.join.push table chunk = pushed at *
  obtain ⟨⟨joined, misses⟩, join⟩ := pushed
  dsimp only at *
  rw [hescape]
  dsimp only
  generalize hpending : s.pending ++ joined = pending
  have hsafe := safe_holdFrom hoverlap pending
  generalize (holdFrom pending table.overlap).getD pending.length = i at hsafe
  have hprevious : bodyShape (body ++ chunk) = .unknown → bodyShape body = .unknown := by
    intro hlater
    by_contra hne
    exact hne ((bodyShape_append hne chunk).symm.trans hlater)
  have hwords : bodyShape (body ++ chunk) = .unknown → us ∉ pending := by
    intro hlater
    rw [← hpending, List.mem_append, not_or]
    exact ⟨h.plain (hprevious hlater), hplain hlater⟩
  refine ⟨h.running, hopening, fun hlater hmem => hwords hlater (List.mem_of_mem_drop hmem), ?_⟩
  intro escape' hcases more
  dsimp only
  have hbefore : bodyShape body = .unknown ∨ s.join.byteEscape = some escape' := by
    rcases hcases with hlater | hlater
    · exact Or.inl (hprevious hlater)
    · by_cases hunknown : bodyShape body = .unknown
      · exact Or.inl hunknown
      · right
        rw [← hlater, PlaceholderJoin.byteEscape, PlaceholderJoin.byteEscape, hopening.shape,
          h.opening.shape, bodyShape_append hunknown]
  -- An undecided body has no placeholders, so that its escape does not matter.
  have hout : (table.restoreBytesAs escape (pending.take i)).1 =
      (table.restoreBytesAs escape' (pending.take i)).1 := by
    rcases hcases with hlater | hlater
    · have hmem : us ∉ pending.take i := fun hmem => hwords hlater (List.mem_of_mem_take hmem)
      rw [table.restoreBytesAs_of_notMem escape hmem, table.restoreBytesAs_of_notMem escape' hmem]
    · rw [Option.some.inj (hescape.symm.trans hlater)]
  have hmore : s.pending ++ (s.join.undecided ++ (chunk ++ more)) =
      pending ++ (join.undecided ++ more) := by
    rw [← hpending, ← List.append_assoc s.join.undecided, ← hbytes]
    simp only [List.append_assoc]
  rw [List.append_assoc, h.restored escape' hbefore, hmore, table.restoreBytesAs_append escape' hsafe,
    hout, List.append_assoc]

/-- The end of the stream delivers the rest. -/
theorem Inv.onEnd (h : Inv table body out s) {escape : Escape}
    (hescape : s.join.byteEscape = some escape) :
    (table.restoreBytesAs escape body).1 = out ++ (s.onEnd table).1 := by
  have hsse : s.join.shape ≠ .sse := by
    intro hsse
    rw [PlaceholderJoin.byteEscape, hsse] at hescape
    exact Option.some_ne_none escape hescape.symm
  have hall := h.restored escape (Or.inr hescape) []
  rw [List.append_nil, List.append_nil] at hall
  rw [RestoreStream.onEnd, PlaceholderJoin.finish, if_pos hsse, hescape]
  exact hall

theorem onEnd_done (s : RestoreStream) : (s.onEnd table).2.done = true := by
  rw [RestoreStream.onEnd]
  dsimp only
  split <;> rfl

theorem polls_done {inner : List (Poll (Except ε Bytes))} (h : s.done = true) (n : ℕ) :
    polls table n s inner = List.replicate n (.ready none) := by
  induction n with
  | zero => rfl
  | succ n ih =>
    rw [polls, pollNext.eq_def, if_pos h]
    dsimp only
    rw [ih, List.replicate_succ]

theorem delivered_replicate (n : ℕ) :
    delivered (List.replicate n (.ready none : Poll (Option (Except ε Bytes)))) = [] := by
  rw [delivered, arrived, List.map_replicate, List.map_replicate]
  exact List.flatten_replicate_nil

theorem delivered_cons (answer : Poll (Option (Except ε Bytes)))
    (answers : List (Poll (Option (Except ε Bytes)))) :
    delivered (answer :: answers) = answer.item.chunk ++ delivered answers := rfl

theorem polls_running (table : RestoreTable) (answer : Poll (Except ε Bytes))
    (inner : List (Poll (Except ε Bytes))) (n : ℕ) (h : s.done = false) : ∃ s', polls table (n + 1) s (answer :: inner) =
      (s.pollNext table (answer :: inner)).1 :: polls table n s' inner ∧
        (s' = s ∧ answer.chunk = [] ∧ (s.pollNext table (answer :: inner)).1.item = answer ∨
          ∃ chunk, answer = .ready (.ok chunk) ∧ s' = (s.onChunk table chunk).2 ∧
            (s.pollNext table (answer :: inner)).1.item = .ready (.ok (s.onChunk table chunk).1)) := by
  have hdone : ¬ s.done = true := by simp [h]
  rcases answer with (e | chunk) | _
  all_goals
    rw [polls, pollNext, if_neg hdone]
  · exact ⟨s, rfl, Or.inl ⟨rfl, rfl, rfl⟩⟩
  · exact ⟨_, rfl, Or.inr ⟨chunk, rfl, rfl, rfl⟩⟩
  · exact ⟨s, rfl, Or.inl ⟨rfl, rfl, rfl⟩⟩

/-- The run from a state of the invariant. -/
theorem Inv.polls {inner : List (Poll (Except ε Bytes))} (h : Inv table body out s)
    (hoverlap : MAX_TOKEN_LEN - 1 ≤ table.overlap) (hsse : bodyShape (body ++ arrived inner) ≠ .sse)
    {escape : Escape} (hescape : ∀ join : PlaceholderJoin,
      join.shape = bodyShape (body ++ arrived inner) → join.byteEscape = some escape) (k : ℕ) :
    (table.restoreBytesAs escape (body ++ arrived inner)).1 =
        out ++ delivered (polls table (inner.length + 2 + k) s inner) ∧
      ((polls table (inner.length + 2 + k) s inner).map Poll.item).filterMap Poll.failure =
        inner.filterMap Poll.failure ∧
      (polls table (inner.length + 2 + k) s inner).getLast? = some (.ready none) := by
  induction inner generalizing body out s with
  | nil =>
    have hend := h.onEnd (hescape s.join (by rw [h.opening.shape, arrived]; simp))
    rw [show ([] : List (Poll (Except ε Bytes))).length + 2 + k = (1 + k) + 1 by simp; omega, polls,
      pollNext, if_neg (by simp [h.running])]
    dsimp only
    rw [polls_done (onEnd_done s), delivered_cons, delivered_replicate, List.append_nil]
    rw [show arrived ([] : List (Poll (Except ε Bytes))) = [] from rfl, List.append_nil, hend]
    refine ⟨?_, ?_, ?_⟩
    · congr 1
      split_ifs with hempty
      · rw [List.isEmpty_iff.mp hempty]
        rfl
      · rfl
    · have hnone : ((List.replicate (1 + k) (.ready none : Poll (Option (Except ε Bytes)))).map
          Poll.item).filterMap Poll.failure = [] := by
        rw [List.map_replicate, List.filterMap_replicate]
        rfl
      rw [List.map_cons, List.filterMap_cons_none, hnone]
      · rfl
      · split_ifs <;> rfl
    · rw [Nat.add_comm, List.replicate_succ, List.getLast?_cons_cons, ← List.replicate_succ,
        List.getLast?_replicate]
      rfl
  | cons answer inner ih =>
    have hwhole : body ++ arrived (answer :: inner) = (body ++ answer.chunk) ++ arrived inner := by
      rw [arrived, List.map_cons, List.flatten_cons, List.append_assoc]
      rfl
    rw [hwhole] at hsse hescape ⊢
    obtain ⟨s', hpolls, hcases⟩ := polls_running table answer inner (inner.length + 2 + k) h.running
    rw [show (answer :: inner).length + 2 + k = (inner.length + 2 + k) + 1 by
      rw [List.length_cons]; omega, hpolls]
    have hstate : Inv table (body ++ answer.chunk)
        (out ++ (s.pollNext table (answer :: inner)).1.item.chunk) s' := by
      rcases hcases with ⟨rfl, hchunk, hitem⟩ | ⟨chunk, rfl, rfl, hitem⟩
      · rw [hitem, hchunk, List.append_nil, List.append_nil]
        exact h
      · rw [hitem]
        refine h.onChunk hoverlap fun hsse' => hsse ?_
        rw [← hsse']
        exact bodyShape_append (by rw [hsse']; decide) _
    obtain ⟨hout, hfailures, hlast⟩ := ih hstate hsse hescape
    refine ⟨?_, ?_, ?_⟩
    · rw [hout, delivered_cons, List.append_assoc]
    · have hfailure : (s.pollNext table (answer :: inner)).1.item.failure = answer.failure := by
        rcases hcases with ⟨rfl, hchunk, hitem⟩ | ⟨chunk, rfl, rfl, hitem⟩
        · rw [hitem]
        · rw [hitem]
          rfl
      rw [List.map_cons, List.filterMap_cons, List.filterMap_cons, hfailure, hfailures]
    · rw [List.getLast?_cons, hlast]
      rfl

end RestoreStream

/-! ### The whole body -/

theorem join_shape (outside : Outside) (join : PlaceholderJoin) (block : Bytes) :
    (join.join outside block).2.shape = join.shape := by
  rw [PlaceholderJoin.join]
  split
  · split_ifs <;> rfl
  · dsimp only
    split_ifs <;> rfl

theorem drain_shape (table : RestoreTable) (fuel : ℕ) (join : PlaceholderJoin) :
    (PlaceholderJoin.drain table fuel join).2.shape = join.shape := by
  induction fuel generalizing join with
  | zero => rfl
  | succ fuel ih =>
    rw [PlaceholderJoin.drain]
    rcases join.framer.nextRawBlock with ⟨_ | block, framer⟩
    · rfl
    · exact (ih _).trans (join_shape _ _ _)

theorem push_shape (table : RestoreTable) (body : Bytes) :
    (({} : PlaceholderJoin).push table body).2.shape = bodyShape body := by
  rw [PlaceholderJoin.push, if_pos rfl]
  dsimp only
  rw [List.nil_append]
  by_cases hnil : trimAsciiStart body = []
  · rw [hnil, List.isEmpty_nil, if_pos rfl, bodyShape, hnil]
    rfl
  · have hisEmpty : (trimAsciiStart body).isEmpty = false := by simpa using hnil
    rw [hisEmpty, if_neg Bool.false_ne_true, bodyShape]
    cases hshape : shapeOf (trimAsciiStart body) with
    | none => rfl
    | some shape =>
      dsimp only
      rw [PlaceholderJoin.pushDecided]
      split_ifs
      · rfl
      · exact drain_shape _ _ _

theorem overlap_restoreTable (store : RedactStore) (sessionKey : String) :
    MAX_TOKEN_LEN - 1 ≤ (restoreTable store sessionKey).overlap := by
  show MAX_TOKEN_LEN - 1 ≤ min (max _ MAX_TOKEN_LEN - 1) MAX_TOKEN_LEN
  omega

namespace RestoreStream

variable (store : RedactStore) (sessionKey : String) (inner : List (Poll (Except ε Bytes)))
  {escape : Escape}

/-- However a body that is no event stream is cut, what is delivered is the restoration of the
whole body, errors pass, and the stream ends. -/
theorem delivered_polls (hescape : (({} : PlaceholderJoin).push (restoreTable store sessionKey)
      (arrived inner)).2.byteEscape = some escape) (k : ℕ) :
    delivered (polls (restoreTable store sessionKey) (inner.length + 2 + k) {} inner) =
        ((restoreTable store sessionKey).restoreBytesAs escape (arrived inner)).1 ∧
      ((polls (restoreTable store sessionKey) (inner.length + 2 + k) {} inner).map
          Poll.item).filterMap Poll.failure = inner.filterMap Poll.failure ∧
      (polls (restoreTable store sessionKey) (inner.length + 2 + k) {} inner).getLast? =
        some (.ready none) := by
  have hshape := push_shape (restoreTable store sessionKey) (arrived inner)
  have hall : ∀ join : PlaceholderJoin, join.shape = bodyShape ([] ++ arrived inner) →
      join.byteEscape = some escape := by
    intro join hjoin
    rw [← hescape, PlaceholderJoin.byteEscape, PlaceholderJoin.byteEscape, hshape, hjoin,
      List.nil_append]
  have hsse : bodyShape ([] ++ arrived inner) ≠ .sse := by
    intro hsse
    have := hall { shape := .sse } hsse.symm
    exact Option.some_ne_none escape this.symm
  obtain ⟨hout, hfailures, hlast⟩ := (inv_new (restoreTable store sessionKey)).polls
    (overlap_restoreTable store sessionKey) hsse hall k
  exact ⟨hout.symm, hfailures, hlast⟩

end RestoreStream

/-- A store of a machine with a home directory and no cipher. -/
def homeStore : RedactStore where
  inner := .empty 128 (by decide)
  global := .empty 32768 (by decide)
  outside :=
    { hexDecode := fun _ => none
      decrypt := fun _ _ _ => none
      toJson := fun s => ascii "\"" ++ utf8 s ++ ascii "\""
      parseJson := fun _ => none
      printJson := fun _ => []
      lossy := fun _ => ""
      home := some "/home/u" }

/-- A home placeholder cut in two. -/
theorem delivered_home :
    delivered (RestoreStream.polls (restoreTable homeStore "s") 4 {}
        [.ready (.ok (ascii "a __HR_HO")), .ready (.ok (ascii "ME__ b") : Except Unit Bytes)]) =
      ((restoreTable homeStore "s").restoreBytesAs .raw (ascii "a __HR_HOME__ b")).1 :=
  (RestoreStream.delivered_polls homeStore "s"
    [.ready (.ok (ascii "a __HR_HO")), .ready (.ok (ascii "ME__ b") : Except Unit Bytes)]
    (by decide +kernel : _ = some Escape.raw) 0).1

/-! ### However an event stream is cut -/

section Feed

open PlaceholderJoin

/-- What is handed back for some blocks, and the delta that is held then. -/
def restoreAll (table : RestoreTable) : Option Delta → List Bytes → Bytes × ℕ × Option Delta
  | held, [] => ([], 0, held)
  | held, block :: blocks =>
    let (events, join) := join table.global.outside { held } block
    let (out, misses) := restoreEvents table events
    let (rest, more, held) := restoreAll table join.held blocks
    (out ++ rest, misses + more, held)

/-- The first stage inside an event stream. -/
def reading (start : Bytes) (done : Bool) (buf : Bytes) (held : Option Delta) : PlaceholderJoin :=
  { shape := .sse, undecided := start, framer := { buf, doneSeen := done }, held }

/-- What is handed back with one more chunk. -/
def feed (table : RestoreTable) (r : (Bytes × ℕ) × PlaceholderJoin) (chunk : Bytes) :
    (Bytes × ℕ) × PlaceholderJoin :=
  let ((out, misses), join) := r.2.push table chunk
  ((r.1.1 ++ out, r.1.2 + misses), join)

variable (table : RestoreTable) (start : Bytes) (done : Bool) (buf : Bytes) (held : Option Delta)

/-- All frames restored, and the rest in the framer. -/
def restored : (Bytes × ℕ) × PlaceholderJoin :=
  let (out, misses, held) := restoreAll table held (terminator.frames buf)
  ((out, misses), reading start done (terminator.rest buf) held)

theorem join_reading (outside : Outside) (block : Bytes) : (reading start done buf held).join outside block =
    ((join outside { held } block).1, reading start done buf (join outside { held } block).2.held) := by
  rw [join, join]
  split
  · split_ifs <;> rfl
  · dsimp only [reading]
    split_ifs <;> rfl

theorem drain_reading {n : ℕ} (hn : buf.length ≤ n) :
    drain table n (reading start done buf held) = restored table start done buf held := by
  induction buf using FrameRule.frames.induct terminator generalizing n held with
  | case1 buf hfirst =>
    rw [restored, FrameRule.frames_of_none hfirst, FrameRule.rest_of_none hfirst]
    cases n with
    | zero => rfl
    | succ n =>
      rw [drain, reading, SseFramer.nextRawBlock, SseFramer.first_eq_none hfirst]
      rfl
  | case2 buf k hfirst ih =>
    have hlt := terminator.length_drop_lt hfirst
    obtain ⟨e, len, hfind, rfl, -⟩ := SseFramer.first_eq_some hfirst
    obtain ⟨n, rfl⟩ : ∃ m, n = m + 1 := ⟨n - 1, by omega⟩
    rw [drain, reading, SseFramer.nextRawBlock, hfind]
    dsimp only
    rw [← reading, join_reading]
    dsimp only
    rw [ih _ (by omega), restored, restored, FrameRule.frames_of_some hfirst, FrameRule.rest_of_some hfirst,
      restoreAll]

theorem push_reading (chunk : Bytes) : (reading start done buf held).push table chunk =
    restored table start done (buf ++ chunk) held := by
  have hpush : SseFramer.push { buf, doneSeen := done } chunk = { buf := buf ++ chunk, doneSeen := done } := by
    cases chunk <;> simp [SseFramer.push]
  rw [← drain_reading table start done _ held le_rfl, PlaceholderJoin.push, reading, if_neg (by simp),
    pushDecided, if_neg (by simp), hpush]
  rfl

theorem restoreAll_append (blocks more : List Bytes) : restoreAll table held (blocks ++ more) =
    ((restoreAll table held blocks).1 ++ (restoreAll table (restoreAll table held blocks).2.2 more).1,
      (restoreAll table held blocks).2.1 + (restoreAll table (restoreAll table held blocks).2.2 more).2.1,
      (restoreAll table (restoreAll table held blocks).2.2 more).2.2) := by
  induction blocks generalizing held with
  | nil => simp [restoreAll]
  | cons block blocks ih => simp [restoreAll, ih, Nat.add_assoc]

theorem feed_restored (chunk : Bytes) : feed table (restored table start done buf held) chunk =
    restored table start done (buf ++ chunk) held := by
  rw [feed, restored]
  dsimp only
  rw [push_reading, restored, restored, FrameRule.frames_append buf, restoreAll_append, FrameRule.rest_append buf]

/-- However the rest of an event stream is cut, what is handed back, the misses and what is held are those of one
chunk. -/
theorem foldl_feed (chunk : Bytes) (chunks : List Bytes) :
    chunks.foldl (feed table) ((reading start done buf held).push table chunk) =
      (reading start done buf held).push table (chunk ++ chunks.flatten) := by
  rw [push_reading, push_reading]
  induction chunks generalizing chunk with
  | nil => rw [List.flatten_nil, List.append_nil, List.foldl_nil]
  | cons next chunks ih =>
    rw [List.foldl_cons, feed_restored, List.append_assoc, ih, List.flatten_cons, List.append_assoc]

end Feed

end Headroom.Redact
