import Headroom.Offload.Turns

/-!
# The history that a provider has cached

The client sends the whole conversation with every request. What was forwarded of it is cached, so a content that
was forwarded as a digest must be forwarded as the same digest, and one that was forwarded as it is must stay.
Permission to convert a content is kept by its key, and a key is that of all equal contents: one that stands deep
in the history is converted after an equal one was at the tail.

## Main statements

* `neverRewrites_of_steady` : steady turns never rewrite the cached history.
-/

open Foundation

namespace Headroom.Offload

variable (T : Tools) (setup : Setup)

/-- A request has the messages of another, and more. -/
def Extends (parsed next : Json) : Prop :=
  ∃ messages more, parsed.getArr? "messages" = some messages ∧ next.getArr? "messages" = some (messages ++ more)

/-- The gate before a turn. -/
def gateBefore (gate : Finset String) (turns : ℕ → Turn) : ℕ → Finset String
  | 0 => gate
  | t + 1 => (runCtxOffloadRecords T setup (turns t) (gateBefore gate turns t)).2

/-- The messages that a turn forwards. -/
def forwarded (gate : Finset String) (turns : ℕ → Turn) (t : ℕ) : List Json :=
  messagesOf (runCtxOffloadRecords T setup (turns t) (gateBefore T setup gate turns t)).1

/-- A message is within the margin and the window of the tail. -/
def IsNear (config : CtxOffloadConfig) (messages : List Json) (i : ℕ) : Prop :=
  messages.length - 1 - i < config.staleMargin + config.staleWindow

/-- In the first turns of a run a digest is forwarded again as it was, and a content that was forwarded as it is
stays so, unless the turn rebuilds the cache or a tool result is near the tail. -/
structure NeverRewrites (gate : Finset String) (turns : ℕ → Turn) (count : ℕ) : Prop where
  results_stay : ∀ t t', t ≤ t' → t' < count → ∀ i j block,
    blockAt (messagesOf (turns t).parsed) i j = some block → block.getStr? "type" = some "tool_result" →
      blockAt (forwarded T setup gate turns t) i j ≠ some block →
        blockAt (forwarded T setup gate turns t') i j = blockAt (forwarded T setup gate turns t) i j
  results_raw : ∀ t, t + 1 < count → (turns (t + 1)).rebuildBoundary = false → ∀ i j block,
    blockAt (messagesOf (turns t).parsed) i j = some block → block.getStr? "type" = some "tool_result" →
      blockAt (forwarded T setup gate turns t) i j = some block →
        ¬IsNear setup.config (messagesOf (turns (t + 1)).parsed) i →
          blockAt (forwarded T setup gate turns (t + 1)) i j = some block
  inputs_stay : ∀ t t', t ≤ t' → t' < count → ∀ i j n field,
    fieldAt (messagesOf (turns t).parsed) i j n = some field →
      fieldAt (forwarded T setup gate turns t) i j n ≠ some field →
        fieldAt (forwarded T setup gate turns t') i j n = fieldAt (forwarded T setup gate turns t) i j n
  inputs_raw : ∀ t, t + 1 < count → (turns (t + 1)).rebuildBoundary = false → ∀ i j n field,
    fieldAt (messagesOf (turns t).parsed) i j n = some field →
      fieldAt (forwarded T setup gate turns t) i j n = some field →
        fieldAt (forwarded T setup gate turns (t + 1)) i j n = some field

/-! ### Steady turns -/

namespace Turn

variable (turn : Turn) (gate : Finset String)

def messages : List Json := messagesOf turn.parsed

/-- A turn has a tool result of a key that it may convert for the first time. -/
def ResultGranted (k : T.Key) : Prop :=
  Offload.ResultGranted T setup.config (turn.policy setup) gate turn.messages k

/-- A turn has a string of a key that it may convert for the first time. -/
def InputGranted (k : T.Key) : Prop :=
  Offload.InputGranted T setup.config (turn.policy setup) gate turn.forwardedBefore turn.put turn.messages k

/-- A string may be converted for the first time, and the store takes it. -/
def InputAllowed (i : ℕ) (block : Json) (original : String) : Prop :=
  isFirstAllowed (turn.policy setup) turn.forwardedBefore turn.messages i = true ∧
    turn.put (newRecord T (turn.policy setup) block original) = true

end Turn

/-- What one turn and the next must not have in common. A tool result whose key is known keeps its protection.
When the next turn does not rebuild the cache, no content that waits has the key of one that is converted for the
first time, and no string of the last message has a known key, unless it is the last one again. -/
structure Steady (gate : Finset String) (turn next : Turn) : Prop where
  excluded : ∀ i j (block : Json) (original : String), blockAt turn.messages i j = some block →
    IsResult T setup.config gate block original →
      Known gate (T.resultKey original) ∨ turn.ResultGranted T setup gate (T.resultKey original) →
        isExcluded T next.messages block = isExcluded T turn.messages block
  results : next.rebuildBoundary = false → ∀ i j (block : Json) (original : String),
    blockAt turn.messages i j = some block → IsResult T setup.config gate block original →
      isExcluded T turn.messages block = false →
        isAllowed setup.config (turn.policy setup) turn.messages i = false →
          ¬Known gate (T.resultKey original) → ¬turn.ResultGranted T setup gate (T.resultKey original)
  inputs : next.rebuildBoundary = false → ∀ (i j n : ℕ) (block : Json) (field : String × Json) (original : String),
    blockAt turn.messages i j = some block → (fieldsOf block)[n]? = some field →
      IsInput T setup.config gate block field original → i ≠ turn.messages.length - 1 →
        ¬turn.InputAllowed T setup i block original →
          ¬Known gate (T.useKey original) → ¬turn.InputGranted T setup gate (T.useKey original)
  tail : next.rebuildBoundary = false → turn.messages.length < next.messages.length →
    ∀ (j n : ℕ) (block : Json) (field : String × Json) (original : String),
      blockAt turn.messages (turn.messages.length - 1) j = some block →
        (fieldsOf block)[n]? = some field → IsInput T setup.config gate block field original →
          ¬Known gate (T.useKey original) ∧ ¬turn.InputGranted T setup gate (T.useKey original)

/-- The turns of a run: each request has the messages of the one before, and what is known to have been forwarded
includes them. -/
structure IsRun (turns : ℕ → Turn) (count : ℕ) : Prop where
  extends_ : ∀ t, t + 1 < count → Extends (turns t).parsed (turns (t + 1)).parsed
  forwarded_le : ∀ t, t + 1 < count → ∀ sent, (turns (t + 1)).forwardedBefore = some sent →
    (messagesOf (turns t).parsed).length ≤ sent

variable {T setup} {gate : Finset String} {turn next : Turn} {messages more : List Json} {block : Json}
  {field : String × Json} {i j n : ℕ}

theorem messagesOf_eq {parsed : Json} (h : parsed.getArr? "messages" = some messages) :
    messagesOf parsed = messages := by
  rw [messagesOf, h, Option.getD_some]

theorem not_isFirstAllowed_of_forwarded {policy : OffloadPolicy} {forwardedBefore : Option ℕ}
    (hboundary : policy.rebuildBoundary = false)
    (hsent : ∀ sent, forwardedBefore = some sent → i < sent) (messages : List Json) :
    isFirstAllowed policy forwardedBefore messages i = false := by
  rw [isFirstAllowed, firstAllowed, hboundary, Bool.false_or, Bool.and_eq_false_iff]
  right
  cases forwardedBefore with
  | none => rfl
  | some sent => exact decide_eq_false (Nat.not_le.2 (hsent sent rfl))

/-! ### One turn and the next -/

section

variable (hmessages : turn.parsed.getArr? "messages" = some messages)
  (hnext : next.parsed.getArr? "messages" = some (messages ++ more)) (hsteady : Steady T setup gate turn next)

include hmessages hnext hsteady

/-- A tool result that a turn forwards as a digest is the same digest on the next turn, and one that it forwards
as it is stays. -/
theorem result_step (hat : blockAt messages i j = some block) (htype : block.getStr? "type" = some "tool_result") :
    (blockAt (messagesOf (runCtxOffloadRecords T setup turn gate).1) i j ≠ some block →
      blockAt (messagesOf (runCtxOffloadRecords T setup next
          (runCtxOffloadRecords T setup turn gate).2).1) i j =
        blockAt (messagesOf (runCtxOffloadRecords T setup turn gate).1) i j) ∧
    (next.rebuildBoundary = false → ¬IsNear setup.config (messages ++ more) i →
      blockAt (messagesOf (runCtxOffloadRecords T setup turn gate).1) i j = some block →
        blockAt (messagesOf (runCtxOffloadRecords T setup next
          (runCtxOffloadRecords T setup turn gate).2).1) i j = some block) := by
  have hturn : turn.messages = messages := messagesOf_eq hmessages
  have hturn' : next.messages = messages ++ more := messagesOf_eq hnext
  have hformer : SameFormer T gate gate := SameFormer.refl gate
  have hformer' : SameFormer T (runCtxOffloadRecords T setup turn gate).2 gate := (known_turn hmessages).1
  have hknown := known_resultKey_turn T setup gate hmessages
  have hat' := blockAt_append more hat
  have hlt := lt_length_of_blockAt hat
  by_cases hconverted : ∃ original, IsResult T setup.config gate block original ∧
      isExcluded T messages block = false ∧
      (Known gate (T.resultKey original) ∨ isAllowed setup.config (turn.policy setup) messages i = true)
  · obtain ⟨original, hresult, hexcluded, hallowed⟩ := hconverted
    have hgranted : Known gate (T.resultKey original) ∨ ResultGranted T setup.config (turn.policy setup) gate
        messages (T.resultKey original) :=
      hallowed.imp_right fun hallowed => ⟨i, j, block, hat, original, hresult, hexcluded, hallowed, rfl⟩
    have hexcluded' : isExcluded T (messages ++ more) block = false := by
      have hsame := hsteady.excluded i j block original
      rw [Turn.ResultGranted, hturn, hturn'] at hsame
      rw [hsame hat hresult hgranted, hexcluded]
    have hout := result_digested_of_turn hformer hmessages hat hresult hexcluded hallowed
    have hout' := result_digested_of_turn hformer' hnext hat' hresult hexcluded'
      (Or.inl ((hknown original).2 hgranted))
    rw [hout, hout']
    refine ⟨fun _ => rfl, fun _ _ heq => ?_⟩
    exact absurd (Option.some.inj heq) (digested_ne hresult)
  · have hwaits : ∀ original, IsResult T setup.config gate block original → isExcluded T messages block = false →
        ¬Known gate (T.resultKey original) ∧ isAllowed setup.config (turn.policy setup) messages i = false := by
      intro original hresult hexcluded
      rw [← Bool.not_eq_true, ← not_or]
      exact fun hallowed => hconverted ⟨original, hresult, hexcluded, hallowed⟩
    rw [result_raw_of_turn hformer hmessages hat htype hwaits]
    refine ⟨fun hne => absurd rfl hne, fun hboundary hnear _ => ?_⟩
    refine result_raw_of_turn hformer' hnext hat' htype fun original hresult hexcluded' => ?_
    -- without new messages the protection is the same
    have hlive : ¬i = (messages ++ more).length - 1 ∨ isExcluded T messages block = false := by
      by_cases hmore : more = []
      · rw [hmore, List.append_nil] at hexcluded'
        exact Or.inr hexcluded'
      · left
        have hpos := List.length_pos_iff.2 hmore
        rw [List.length_append]
        omega
    have hnot : ¬Known gate (T.resultKey original) ∧
        ¬ResultGranted T setup.config (turn.policy setup) gate messages (T.resultKey original) ∧
        ¬i = (messages ++ more).length - 1 := by
      cases hexcluded : isExcluded T messages block with
      | false =>
        obtain ⟨hunknown, hallowed⟩ := hwaits original hresult hexcluded
        have htwin := hsteady.results hboundary i j block original
        rw [Turn.ResultGranted, hturn] at htwin
        refine ⟨hunknown, htwin hat hresult hexcluded hallowed hunknown, fun hlast => ?_⟩
        rw [isAllowed, Bool.or_eq_false_iff, Bool.or_eq_false_iff, decide_eq_false_iff_not] at hallowed
        refine hallowed.1.2 ?_
        rw [List.length_append] at hlast
        omega
      | true =>
        have hsame := hsteady.excluded i j block original
        rw [Turn.ResultGranted, hturn, hturn', hexcluded', hexcluded] at hsame
        have hneither : ¬(Known gate (T.resultKey original) ∨
            ResultGranted T setup.config (turn.policy setup) gate messages (T.resultKey original)) :=
          fun hgranted => absurd (hsame hat hresult hgranted) (by simp)
        rw [hexcluded] at hlive
        exact ⟨fun hk => hneither (Or.inl hk), fun hg => hneither (Or.inr hg), hlive.resolve_right (by simp)⟩
    refine ⟨?_, ?_⟩
    · rw [hknown, not_or]
      exact ⟨hnot.1, hnot.2.1⟩
    · rw [isAllowed, Bool.or_eq_false_iff, Bool.or_eq_false_iff, decide_eq_false_iff_not, isNearTail,
        Bool.and_eq_false_iff, decide_eq_false_iff_not (p := _ < _ + _)]
      exact ⟨⟨hboundary, hnot.2.2⟩, Or.inr hnear⟩

/-- A string that a turn forwards as a digest is the same digest on the next turn, and one that it forwards as it
is stays. -/
theorem input_step (hsent : ∀ sent, next.forwardedBefore = some sent → messages.length ≤ sent)
    (hat : blockAt messages i j = some block) (hfield : (fieldsOf block)[n]? = some field) :
    (fieldAt (messagesOf (runCtxOffloadRecords T setup turn gate).1) i j n ≠ some field →
      fieldAt (messagesOf (runCtxOffloadRecords T setup next
          (runCtxOffloadRecords T setup turn gate).2).1) i j n =
        fieldAt (messagesOf (runCtxOffloadRecords T setup turn gate).1) i j n) ∧
    (next.rebuildBoundary = false →
      fieldAt (messagesOf (runCtxOffloadRecords T setup turn gate).1) i j n = some field →
        fieldAt (messagesOf (runCtxOffloadRecords T setup next
          (runCtxOffloadRecords T setup turn gate).2).1) i j n = some field) := by
  have hturn : turn.messages = messages := messagesOf_eq hmessages
  have hturn' : next.messages = messages ++ more := messagesOf_eq hnext
  have hformer : SameFormer T gate gate := SameFormer.refl gate
  have hformer' : SameFormer T (runCtxOffloadRecords T setup turn gate).2 gate := (known_turn hmessages).1
  have hat' := blockAt_append more hat
  have hlt := lt_length_of_blockAt hat
  rcases input_cases_of_turn T setup gate hformer hmessages hat hfield with
    hraw | ⟨original, hinput, huse, hlast, hallowed, hout⟩
  · refine ⟨fun hne => absurd hraw hne, fun hboundary _ => ?_⟩
    rcases input_cases_of_turn T setup _ hformer' hnext hat' hfield with
      hraw' | ⟨original, hinput, huse, hlast', hallowed, -⟩
    · exact hraw'
    exfalso
    -- the key is known after the turn, since nothing up to this message may be converted on the next one
    have hknown : Known (runCtxOffloadRecords T setup turn gate).2 (T.useKey original) := by
      refine hallowed.resolve_right ?_
      rintro ⟨i', hle, j', block', -, -, field', -, original', -, hfirst, -⟩
      have hpolicy : (next.policy setup).rebuildBoundary = false := hboundary
      have hnot := not_isFirstAllowed_of_forwarded hpolicy
        (fun sent hsome => Nat.lt_of_le_of_lt hle (Nat.lt_of_lt_of_le hlt (hsent sent hsome))) (messages ++ more)
      exact absurd (hfirst.symm.trans hnot) nofun
    rw [known_useKey_turn T setup gate hmessages huse] at hknown
    by_cases hlast : i = messages.length - 1
    · have hmore : turn.messages.length < next.messages.length := by
        rw [List.length_append] at hlast'
        rw [hturn, hturn', List.length_append]
        omega
      have htail := hsteady.tail hboundary hmore j n block field original
      rw [Turn.InputGranted, hturn, ← hlast] at htail
      obtain ⟨hunknown, hnot⟩ := htail hat hfield hinput
      exact hknown.elim hunknown hnot
    · have hwaits : ¬(Known gate (T.useKey original) ∨ turn.InputAllowed T setup i block original) := by
        intro hallowed
        rw [Turn.InputAllowed, hturn] at hallowed
        have hout := input_digested_of_turn hformer hmessages huse hlast hat hfield hinput hallowed
        exact digestedField_ne hinput (Option.some.inj (hout.symm.trans hraw))
      rw [not_or] at hwaits
      have htwin := hsteady.inputs hboundary i j n block field original
      rw [Turn.InputGranted, hturn] at htwin
      exact hknown.elim hwaits.1 (htwin hat hfield hinput hlast hwaits.2 hwaits.1)
  · have hknown : Known (runCtxOffloadRecords T setup turn gate).2 (T.useKey original) := by
      rw [known_useKey_turn T setup gate hmessages huse]
      exact hallowed.imp_right fun ⟨i', _, hgranted⟩ => ⟨i', hgranted⟩
    have hlast' : i ≠ (messages ++ more).length - 1 := by
      rw [List.length_append]
      omega
    rw [hout, input_digested_of_turn hformer' hnext huse hlast' hat' hfield hinput (Or.inl hknown)]
    exact ⟨fun _ => rfl, fun _ heq => absurd (Option.some.inj heq) (digestedField_ne hinput)⟩

end

/-! ### Runs -/

theorem blockAt_next {parsed parsed' : Json} (h : Extends parsed parsed')
    (hat : blockAt (messagesOf parsed) i j = some block) : blockAt (messagesOf parsed') i j = some block := by
  obtain ⟨messages, more, hmessages, hnext⟩ := h
  rw [messagesOf_eq hmessages] at hat
  rw [messagesOf_eq hnext]
  exact blockAt_append more hat

theorem blockAt_later {turns : ℕ → Turn} {count t t' : ℕ} (hrun : IsRun turns count) (hle : t ≤ t')
    (hlt : t' < count) (hat : blockAt (messagesOf (turns t).parsed) i j = some block) :
    blockAt (messagesOf (turns t').parsed) i j = some block := by
  induction t', hle using Nat.le_induction with
  | base => exact hat
  | succ t' _ ih => exact blockAt_next (hrun.extends_ t' hlt) (ih (by omega))

section

variable {turns : ℕ → Turn} {count t : ℕ} (hrun : IsRun turns count)
  (hsteady : ∀ t, t + 1 < count → Steady T setup (gateBefore T setup gate turns t) (turns t) (turns (t + 1)))

include hrun hsteady

theorem result_next (hlt : t + 1 < count) (hat : blockAt (messagesOf (turns t).parsed) i j = some block)
    (htype : block.getStr? "type" = some "tool_result") :
    (blockAt (forwarded T setup gate turns t) i j ≠ some block →
      blockAt (forwarded T setup gate turns (t + 1)) i j = blockAt (forwarded T setup gate turns t) i j) ∧
    ((turns (t + 1)).rebuildBoundary = false →
      ¬IsNear setup.config (messagesOf (turns (t + 1)).parsed) i →
        blockAt (forwarded T setup gate turns t) i j = some block →
          blockAt (forwarded T setup gate turns (t + 1)) i j = some block) := by
  obtain ⟨messages, more, hmessages, hnext⟩ := hrun.extends_ t hlt
  rw [messagesOf_eq hmessages] at hat
  rw [messagesOf_eq hnext]
  exact result_step hmessages hnext (hsteady t hlt) hat htype

theorem input_next (hlt : t + 1 < count) (hfield : fieldAt (messagesOf (turns t).parsed) i j n = some field) :
    (fieldAt (forwarded T setup gate turns t) i j n ≠ some field →
      fieldAt (forwarded T setup gate turns (t + 1)) i j n = fieldAt (forwarded T setup gate turns t) i j n) ∧
    ((turns (t + 1)).rebuildBoundary = false →
      fieldAt (forwarded T setup gate turns t) i j n = some field →
        fieldAt (forwarded T setup gate turns (t + 1)) i j n = some field) := by
  obtain ⟨block, hat, hblock⟩ := Option.bind_eq_some_iff.1 hfield
  obtain ⟨messages, more, hmessages, hnext⟩ := hrun.extends_ t hlt
  have hsent := hrun.forwarded_le t hlt
  rw [messagesOf_eq hmessages] at hat hsent
  exact input_step hmessages hnext (hsteady t hlt) hsent hat hblock

end

/-- Steady turns never rewrite the cached history. -/
theorem neverRewrites_of_steady (T : Tools) (setup : Setup) (gate : Finset String) (turns : ℕ → Turn) (count : ℕ)
    (hrun : IsRun turns count)
    (hsteady : ∀ t, t + 1 < count → Steady T setup (gateBefore T setup gate turns t) (turns t) (turns (t + 1))) :
    NeverRewrites T setup gate turns count := by
  refine ⟨fun t t' hle hlt i j block hat htype hne => ?_, fun t hlt hboundary i j block hat htype hraw hnear => ?_,
    fun t t' hle hlt i j n field hfield hne => ?_, fun t hlt hboundary i j n field hfield hraw => ?_⟩
  · induction t', hle using Nat.le_induction with
    | base => rfl
    | succ t' hle ih =>
      have hsame := ih (by omega)
      have hat' := blockAt_later hrun hle (by omega) hat
      rw [← hsame] at hne ⊢
      exact (result_next hrun hsteady hlt hat' htype).1 hne
  · exact (result_next hrun hsteady hlt hat htype).2 hboundary hnear hraw
  · induction t', hle using Nat.le_induction with
    | base => rfl
    | succ t' hle ih =>
      have hsame := ih (by omega)
      obtain ⟨block, hat, hblock⟩ := Option.bind_eq_some_iff.1 hfield
      have hat' := blockAt_later hrun hle (by omega) hat
      have hfield' : fieldAt (messagesOf (turns t').parsed) i j n = some field := by
        rw [fieldAt, hat']
        exact hblock
      rw [← hsame] at hne ⊢
      exact (input_next hrun hsteady hlt hfield').1 hne
  · exact (input_next hrun hsteady hlt hfield).2 hboundary hraw

/-! ### Two runs -/

section

/-- Tools that key a text by its first digits and keep its first characters. -/
def plainTools : Tools where
  computeKey text := String.ofList ((text.toList.filter (· ∈ "0123456789abcdef".toList)).take 24)
  compressBlock text := some (String.ofList (text.toList.take 8))
  countText := String.length
  rules := ⟨id, fun _ _ => false, fun _ => false, fun _ => none, fun _ => false⟩
  key_hex text c hc := by
    rw [String.toList_ofList] at hc
    exact of_decide_eq_true (List.mem_filter.1 (List.mem_of_mem_take hc)).2

private def plainSetup : Setup := ⟨⟨100, 0, 0⟩, "s", true⟩

private def plainResult : Json :=
  .obj [("type", .str "tool_result"), ("tool_use_id", .str "t"), ("content", .str (String.ofList (List.replicate 200 'a')))]

private def user (content : Json) : Json := .obj [("role", .str "user"), ("content", content)]

private def assistant : Json := .obj [("role", .str "assistant"), ("content", .str "ok")]

private def plainTurn (messages : List Json) : Turn :=
  ⟨.obj [("messages", .arr messages)], false, none, fun _ => true⟩

/-- A result at the tail is converted, and is the same digest on the next turn. -/
theorem neverRewrites_tail_result :
    NeverRewrites plainTools plainSetup ∅ (fun
      | 0 => plainTurn [user (.str "go"), user (.arr [plainResult])]
      | _ => plainTurn [user (.str "go"), user (.arr [plainResult]), assistant, user (.str "go")]) 2 := by
  refine neverRewrites_of_steady plainTools plainSetup ∅ _ 2 ⟨fun t ht => ?_, fun t ht sent hsent => ?_⟩
    fun t ht => ?_
  · obtain rfl : t = 0 := by omega
    exact ⟨_, [assistant, user (.str "go")], rfl, rfl⟩
  · exact absurd hsent nofun
  · obtain rfl : t = 0 := by omega
    have hblock : ∀ i j block, blockAt [user (.str "go"), user (.arr [plainResult])] i j = some block →
        i = 1 ∧ block = plainResult := by
      intro i j block hat
      have hlt := lt_length_of_blockAt hat
      match i, j, hlt with
      | 0, j, _ => exact absurd hat nofun
      | 1, 0, _ => exact ⟨rfl, (Option.some.inj hat).symm⟩
      | 1, j + 1, _ => exact absurd hat nofun
    have hfields (n : ℕ) (field : String × Json) : (fieldsOf plainResult)[n]? ≠ some field := by
      rw [show fieldsOf plainResult = [] from rfl, List.getElem?_nil]
      exact nofun
    refine ⟨fun i j block original hat _ _ => ?_, fun _ i j block original hat _ _ hallowed => ?_,
      fun _ i j n block field original hat hfield => ?_, fun _ _ j n block field original hat hfield => ?_⟩
    · obtain ⟨-, rfl⟩ := hblock i j block hat
      decide +kernel
    · obtain ⟨rfl, -⟩ := hblock i j block hat
      exact absurd hallowed (by decide +kernel)
    · obtain ⟨-, rfl⟩ := hblock i j block hat
      exact absurd hfield (hfields n field)
    · obtain ⟨-, rfl⟩ := hblock _ j block hat
      exact absurd hfield (hfields n field)

/-- A result deep in the history waits. An equal one at the tail is converted, and the deep one on the next turn,
which neither rebuilds the cache nor has it near the tail. -/
theorem not_neverRewrites_of_equal_results :
    ¬∀ (T : Tools) (setup : Setup) (gate : Finset String) (turns : ℕ → Turn) (count : ℕ),
      IsRun turns count → NeverRewrites T setup gate turns count := by
  intro h
  have hrun := h plainTools plainSetup ∅ (fun
    | 0 => plainTurn [user (.arr [plainResult]), assistant, user (.str "go")]
    | 1 => plainTurn [user (.arr [plainResult]), assistant, user (.str "go"), assistant, user (.arr [plainResult])]
    | _ => plainTurn [user (.arr [plainResult]), assistant, user (.str "go"), assistant, user (.arr [plainResult]),
        assistant, user (.str "go")]) 3
  have hturns := hrun ⟨fun t ht => ?_, fun t ht sent hsent => ?_⟩
  · have hraw := hturns.results_raw 1 (by decide) rfl 0 0 plainResult (by decide +kernel) (by decide +kernel)
      (by decide +kernel) (by show ¬(_ < _); decide +kernel)
    revert hraw
    decide +kernel
  · obtain rfl | rfl : t = 0 ∨ t = 1 := by omega
    · exact ⟨_, [assistant, user (.arr [plainResult])], rfl, rfl⟩
    · exact ⟨_, [assistant, user (.str "go")], rfl, rfl⟩
  · obtain rfl | rfl : t = 0 ∨ t = 1 := by omega
    · exact absurd hsent nofun
    · exact absurd hsent nofun

end

end Headroom.Offload
