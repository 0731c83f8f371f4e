import Headroom.Foundation.Conversation
import Headroom.Offload.Digests

/-!
# What a pass makes known

The entries of a gate are read as keys of contents: a key is known when it has an entry, with the namespace or
without. A pass over the messages adds the keys of the contents that it converts for the first time, and leaves
the entries without the namespace as they are.
-/

open Foundation

namespace Headroom.Offload

variable (T : Tools)

/-! ### Keys -/

/-- The keys under which contents are looked up: of a tool result, or of a string in an input. -/
@[ext] structure Tools.Key where
  base : String
  exists_text : ∃ text, base = T.computeKey text ∨ base = TOOL_USE_GATE_NS ++ T.computeKey text

def Tools.resultKey (text : String) : T.Key := ⟨T.computeKey text, text, Or.inl rfl⟩

def Tools.useKey (text : String) : T.Key := ⟨TOOL_USE_GATE_NS ++ T.computeKey text, text, Or.inr rfl⟩

variable {T}

/-- A key has an entry, in the namespace of the budget or without it. -/
def Known (gate : Finset String) (k : T.Key) : Prop := k.base ∈ gate ∨ PREVIEW_CAP_GATE_NS ++ k.base ∈ gate

instance (gate : Finset String) (k : T.Key) : Decidable (Known gate k) :=
  inferInstanceAs (Decidable (_ ∨ _))

/-- The budget a digest is cut with. -/
def budgetOf (gate : Finset String) (k : T.Key) (len : ℕ) : ℕ :=
  if k.base ∈ gate then previewBudget len else PREVIEW_CAP_BYTES

/-- The entry a key is recorded under. -/
def entryOf (gate : Finset String) (k : T.Key) : String :=
  if k.base ∈ gate then k.base else PREVIEW_CAP_GATE_NS ++ k.base

theorem gateLookup_key (gate : Finset String) (policy : OffloadPolicy) (k : T.Key) (len : ℕ) :
    gateLookup gate (some policy) k.base len =
      (decide (Known gate k), entryOf gate k, budgetOf gate k len) := by
  rw [gateLookup]
  by_cases hin : k.base ∈ gate
  · have hknown : Known gate k := Or.inl hin
    rw [if_pos hin, decide_eq_true hknown, entryOf, if_pos hin, budgetOf, if_pos hin]
  · have hknown : Known gate k ↔ PREVIEW_CAP_GATE_NS ++ k.base ∈ gate := or_iff_right hin
    rw [if_neg hin, decide_eq_decide.2 hknown, entryOf, if_neg hin, budgetOf, if_neg hin]

/-- No key is another one in the namespace of the budget. -/
theorem ne_capped (k k' : T.Key) : PREVIEW_CAP_GATE_NS ++ k.base ≠ k'.base := by
  obtain ⟨base, text, rfl | rfl⟩ := k'
  · intro heq
    replace heq : PREVIEW_CAP_GATE_NS ++ k.base = T.computeKey text := heq
    have hp : 'p' ∈ (T.computeKey text).toList := by
      rw [← heq, String.toList_append]
      exact List.mem_append_left _ (by decide)
    exact absurd (T.key_hex text 'p' hp) (by decide)
  · intro heq
    have hlist := congrArg (fun s : String => s.toList.head?) heq
    have hleft : (PREVIEW_CAP_GATE_NS ++ k.base).toList.head? = some 'p' := by rw [String.toList_append]; rfl
    have hright : (TOOL_USE_GATE_NS ++ T.computeKey text).toList.head? = some 't' := by
      rw [String.toList_append]
      rfl
    exact absurd (hleft.symm.trans (hlist.trans hright)) (by decide)

theorem useKey_ne_resultKey (text text' : String) : T.useKey text ≠ T.resultKey text' := by
  intro heq
  have hvalue : TOOL_USE_GATE_NS ++ T.computeKey text = T.computeKey text' := congrArg Tools.Key.base heq
  have ht : 't' ∈ (T.computeKey text').toList := by
    rw [← hvalue, String.toList_append]
    exact List.mem_append_left _ (by decide)
  exact absurd (T.key_hex text' 't' ht) (by decide)

theorem capped_injective {k k' : T.Key} (h : PREVIEW_CAP_GATE_NS ++ k.base = PREVIEW_CAP_GATE_NS ++ k'.base) :
    k = k' := by
  have hlist := congrArg String.toList h
  rw [String.toList_append, String.toList_append] at hlist
  exact Tools.Key.ext (String.toList_injective (List.append_cancel_left hlist))

theorem known_record (gate : Finset String) (k k' : T.Key) :
    Known (insert (entryOf gate k) gate) k' ↔ Known gate k' ∨ k' = k := by
  rw [Known, Finset.mem_insert, Finset.mem_insert, entryOf]
  split_ifs with hin
  · constructor
    · rintro ((heq | hold) | (heq | hold))
      · exact Or.inr (Tools.Key.ext heq)
      · exact Or.inl (Or.inl hold)
      · exact absurd heq (ne_capped k' k)
      · exact Or.inl (Or.inr hold)
    · rintro ((hold | hold) | rfl)
      · exact Or.inl (Or.inr hold)
      · exact Or.inr (Or.inr hold)
      · exact Or.inl (Or.inl rfl)
  · constructor
    · rintro ((heq | hold) | (heq | hold))
      · exact absurd heq.symm (ne_capped k k')
      · exact Or.inl (Or.inl hold)
      · exact Or.inr (capped_injective heq)
      · exact Or.inl (Or.inr hold)
    · rintro ((hold | hold) | rfl)
      · exact Or.inl (Or.inr hold)
      · exact Or.inr (Or.inr hold)
      · exact Or.inr (Or.inl rfl)

theorem former_record (gate : Finset String) (k k' : T.Key) :
    k'.base ∈ insert (entryOf gate k) gate ↔ k'.base ∈ gate := by
  rw [Finset.mem_insert, or_iff_right_iff_imp, entryOf]
  split_ifs with hin
  · intro heq
    rwa [heq]
  · exact fun heq => absurd heq.symm (ne_capped k k')

/-- Two gates have the same entries without the namespace. -/
def SameFormer (T : Tools) (gate gate' : Finset String) : Prop := ∀ k : T.Key, k.base ∈ gate ↔ k.base ∈ gate'

theorem SameFormer.refl (gate : Finset String) : SameFormer T gate gate := fun _ => Iff.rfl

theorem SameFormer.budgetOf_eq {gate gate' : Finset String} (h : SameFormer T gate gate') (k : T.Key) (len : ℕ) :
    budgetOf gate k len = budgetOf gate' k len := by
  rw [budgetOf, budgetOf, if_congr (h k) rfl rfl]

theorem SameFormer.record {gate gate' : Finset String} (h : SameFormer T gate gate') (k : T.Key) :
    SameFormer T (insert (entryOf gate k) gate) gate' :=
  fun k' => (former_record gate k k').trans (h k')

/-! ### A pass over the messages -/

/-- A pass that rewrites the blocks of all messages. -/
def walk (f : ℕ → Json → Pass → Json × Pass) (messages : List Json) (pass : Pass) : List Json × Pass :=
  thread (fun (message, i) => rewriteBlocks (f i) message) messages.zipIdx pass

variable {f : ℕ → Json → Pass → Json × Pass} {messages : List Json} {pass : Pass}

theorem messageBlocks_rewriteBlocks (g : Json → Pass → Json × Pass) (message : Json) (pass : Pass) :
    messageBlocks (rewriteBlocks g message pass).1 = (thread g (messageBlocks message) pass).1 ∧
      (rewriteBlocks g message pass).2 = (thread g (messageBlocks message) pass).2 := by
  rw [rewriteBlocks]
  cases hcontent : message.getArr? "content" with
  | none => simp only [messageBlocks, hcontent, Option.getD_none, thread_nil, and_self]
  | some blocks =>
    simp only [messageBlocks, hcontent, getArr?_insert_self hcontent, Option.getD_some, and_self]

theorem getStr?_rewriteBlocks (g : Json → Pass → Json × Pass) (message : Json) (pass : Pass) {key : String}
    (hkey : key ≠ "content") : (rewriteBlocks g message pass).1.getStr? key = message.getStr? key := by
  rw [rewriteBlocks]
  cases message.getArr? "content" with
  | none => rfl
  | some blocks => rw [Json.getStr?, Json.get?_insert_of_ne hkey, Json.getStr?]

theorem length_walk (f : ℕ → Json → Pass → Json × Pass) (messages : List Json) (pass : Pass) :
    (walk f messages pass).1.length = messages.length := by
  rw [walk, length_thread, List.length_zipIdx]

/-- What is at a place of the messages after a pass. -/
theorem getElem?_walk (i : ℕ) :
    (walk f messages pass).1[i]? = messages[i]?.map fun message =>
      (rewriteBlocks (f i) message
        (thread (fun (message, i) => rewriteBlocks (f i) message) (messages.zipIdx.take i) pass).2).1 := by
  rw [walk, getElem?_thread, List.getElem?_zipIdx, Option.map_map, Nat.zero_add]
  rfl

section

variable {κ : Type*} {I : Pass → Prop} {K : Pass → κ → Prop} {Grants : ℕ → Json → κ → Prop}
  (hstep : ∀ i, ∀ block s, I s → I (f i block s).2 ∧ ∀ k, K (f i block s).2 k ↔ K s k ∨ Grants i block k)

include hstep

theorem rewriteBlocks_known (i : ℕ) (message : Json) {s : Pass} (hs : I s) :
    I (rewriteBlocks (f i) message s).2 ∧
      ∀ k, K (rewriteBlocks (f i) message s).2 k ↔
        K s k ∨ ∃ block ∈ messageBlocks message, Grants i block k := by
  rw [(messageBlocks_rewriteBlocks (f i) message s).2]
  exact known_thread (fun block _ s hs => hstep i block s hs) hs

theorem walk_known (hs : I pass) :
    I (walk f messages pass).2 ∧
      ∀ k, K (walk f messages pass).2 k ↔
        K pass k ∨ ∃ i j block, blockAt messages i j = some block ∧ Grants i block k := by
  obtain ⟨hinv, hknown⟩ := known_thread
    (fun m (_ : m ∈ messages.zipIdx) s hs => rewriteBlocks_known hstep m.2 m.1 hs) hs
  refine ⟨hinv, fun k => (hknown k).trans (or_congr_right ?_)⟩
  constructor
  · rintro ⟨⟨message, i⟩, hmem, block, hblock, hgrants⟩
    obtain ⟨j, hj⟩ := List.mem_iff_getElem?.1 hblock
    refine ⟨i, j, block, ?_, hgrants⟩
    rw [blockAt, List.mem_zipIdx_iff_getElem?.1 hmem]
    exact hj
  · rintro ⟨i, j, block, hat, hgrants⟩
    obtain ⟨message, hmessage, hj⟩ := Option.bind_eq_some_iff.1 hat
    exact ⟨(message, i), List.mem_zipIdx_iff_getElem?.2 hmessage, block, List.mem_of_getElem? hj, hgrants⟩

/-- What a pass does to a block depends on what was known before, and on the blocks up to its message. -/
theorem walk_block (hs : I pass) {i j : ℕ} {block : Json} (hat : blockAt messages i j = some block) :
    ∃ s, I s ∧ (∀ k, K pass k → K s k) ∧
      (∀ k, K s k → K pass k ∨
        ∃ i' ≤ i, ∃ j' block', blockAt messages i' j' = some block' ∧ Grants i' block' k) ∧
      blockAt (walk f messages pass).1 i j = some (f i block s).1 := by
  obtain ⟨message, hmessage, hj⟩ := Option.bind_eq_some_iff.1 hat
  -- the state from which the message is taken, and then the one from which the block is
  obtain ⟨hinv, hknown⟩ := known_thread
    (fun m (_ : m ∈ messages.zipIdx.take i) s hs => rewriteBlocks_known hstep m.2 m.1 hs) hs
  obtain ⟨hinv', hknown'⟩ := known_thread
    (fun block (_ : block ∈ (messageBlocks message).take j) s hs => hstep i block s hs) hinv
  refine ⟨_, hinv', fun k hk => (hknown' k).2 (Or.inl ((hknown k).2 (Or.inl hk))), fun k hk => ?_, ?_⟩
  · rcases (hknown' k).1 hk with hk | ⟨block', hmem, hgrants⟩
    · rcases (hknown k).1 hk with hk | ⟨⟨message', i'⟩, hmem, block', hblock, hgrants⟩
      · exact Or.inl hk
      obtain ⟨n, hn, hget⟩ := List.mem_take_iff_getElem.1 hmem
      have hfound : messages.zipIdx[n]? = some (message', i') := by
        rw [← hget]
        exact List.getElem?_eq_getElem _
      rw [List.getElem?_zipIdx, Nat.zero_add] at hfound
      obtain ⟨m, hm, heq⟩ := Option.map_eq_some_iff.1 hfound
      obtain ⟨rfl, rfl⟩ := Prod.mk.inj heq
      obtain ⟨j', hj'⟩ := List.mem_iff_getElem?.1 hblock
      refine Or.inr ⟨n, by omega, j', block', ?_, hgrants⟩
      rw [blockAt, hm]
      exact hj'
    · obtain ⟨j', hj'⟩ := List.mem_iff_getElem?.1 (List.mem_of_mem_take hmem)
      refine Or.inr ⟨i, le_refl i, j', block', ?_, hgrants⟩
      rw [blockAt, hmessage]
      exact hj'
  · rw [blockAt, getElem?_walk, hmessage]
    show (messageBlocks (rewriteBlocks (f i) message _).1)[j]? = _
    rw [(messageBlocks_rewriteBlocks (f i) message _).1, getElem?_thread, hj]
    rfl

end

theorem blockAt_walk_eq_none {i j : ℕ} (h : blockAt messages i j = none) :
    blockAt (walk f messages pass).1 i j = none := by
  rw [blockAt, getElem?_walk]
  rw [blockAt] at h
  cases hmessage : messages[i]? with
  | none => rfl
  | some message =>
    rw [hmessage] at h
    show (messageBlocks (rewriteBlocks (f i) message _).1)[j]? = none
    rw [(messageBlocks_rewriteBlocks (f i) message _).1, getElem?_thread]
    exact Option.map_eq_none_iff.2 h

end Headroom.Offload
