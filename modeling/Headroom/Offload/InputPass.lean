import Headroom.Offload.Known

/-!
# The pass over inputs of tool calls

A string of an input is converted when it is worth a digest, its message is not the last one, and its key is
known or it may be converted for the first time and the store takes it.
-/

open Foundation

namespace Headroom.Offload

variable (T : Tools) (config : CtxOffloadConfig) (policy : OffloadPolicy) (former : Finset String)

/-- A field of the input of a tool call is a string that is worth a digest. -/
structure IsInput (block : Json) (field : String × Json) (original : String) : Prop where
  type_eq : block.getStr? "type" = some "tool_use"
  name_notMem : (block.getStr? "name").getD "" ∉ TOOL_USE_KEEP_VERBATIM
  value_eq : field.2 = .str original
  large : (Text.contains MARKER_PREFIX original.toList || Text.byteLength original < config.minBytes) = false
  shrinks : T.countText (inputDigest T original
    (budgetOf former (T.useKey original) (Text.byteLength original))) < T.countText original

/-- A field with the digest of its string. -/
def digestedField (field : String × Json) (original : String) : String × Json :=
  (field.1, .str (inputDigest T original (budgetOf former (T.useKey original) (Text.byteLength original))))

/-- What the store is given for a string that is converted for the first time. -/
def newRecord (block : Json) (original : String) : OffloadRecord where
  hash := T.computeKey original
  original := original
  title := (block.getStr? "name").getD ""
  gateRollback := some (policy.sessionKey, PREVIEW_CAP_GATE_NS ++ (T.useKey original).base)

variable (forwardedBefore : Option ℕ) (put : OffloadRecord → Bool)

/-- A string at a message may be converted for the first time. -/
def isFirstAllowed (messages : List Json) (i : ℕ) : Bool :=
  firstAllowed policy (newestAssistant messages) forwardedBefore i

/-- A field may be converted for the first time, when it is allowed at its message. -/
def FieldGrants (first : Bool) (block : Json) (field : String × Json) (k : T.Key) : Prop :=
  ∃ original, IsInput T config former block field original ∧ first = true ∧
    put (newRecord T policy block original) = true ∧ k = T.useKey original

/-- The fields of the input of a tool call. -/
def fieldsOf (block : Json) : List (String × Json) :=
  match block.get? "input" with
  | some (.obj input) => input
  | _ => []

/-- A block at a message has a string that may be converted for the first time. -/
def InputGrants (messages : List Json) (i : ℕ) (block : Json) (k : T.Key) : Prop :=
  i ≠ messages.length - 1 ∧ ∃ field ∈ fieldsOf block,
    FieldGrants T config policy former put (isFirstAllowed policy forwardedBefore messages i) block field k

/-- A field of an input by the places of its message, its block and itself. -/
def fieldAt (messages : List Json) (i j n : ℕ) : Option (String × Json) :=
  (blockAt messages i j).bind fun block => (fieldsOf block)[n]?

/-- A message has a string of a key that may be converted for the first time. -/
def InputGrantedAt (messages : List Json) (i : ℕ) (k : T.Key) : Prop :=
  ∃ j block, blockAt messages i j = some block ∧
    InputGrants T config policy former forwardedBefore put messages i block k

/-- A request has a string of a key that may be converted for the first time. -/
def InputGranted (messages : List Json) (k : T.Key) : Prop :=
  ∃ i, InputGrantedAt T config policy former forwardedBefore put messages i k

/-- The pass over the inputs of tool calls. -/
def inputPass (messages : List Json) (pass : Pass) : List Json × Pass :=
  thread (fun (message, msgIdx) pass =>
    if msgIdx = messages.length - 1 then (message, pass)
    else
      rewriteBlocks (offloadUseBlock T config policy put (isFirstAllowed policy forwardedBefore messages msgIdx)
        (messages.length - 1 - msgIdx)) message pass) messages.zipIdx pass

/-- What the pass does to a block of a message. -/
def inputStep (messages : List Json) (i : ℕ) (block : Json) (pass : Pass) : Json × Pass :=
  if i = messages.length - 1 then (block, pass)
  else
    offloadUseBlock T config policy put (isFirstAllowed policy forwardedBefore messages i)
      (messages.length - 1 - i) block pass

/-- What the pass does to a field of a block. -/
def fieldStep (first : Bool) (distance : ℕ) (block : Json) (field : String × Json) (pass : Pass) :
    (String × Json) × Pass :=
  if block.getStr? "type" = some "tool_use" ∧ (block.getStr? "name").getD "" ∉ TOOL_USE_KEEP_VERBATIM then
    offloadInputValue T config policy put first ((block.getStr? "name").getD "") distance field pass
  else (field, pass)

variable {T config policy former forwardedBefore put} {messages : List Json} {block : Json}
  {field : String × Json} {original : String} {pass : Pass} {first : Bool} {distance i j : ℕ}

theorem IsInput.unique {original' : String} (h : IsInput T config former block field original)
    (h' : IsInput T config former block field original') : original = original' :=
  Json.str.inj (h.value_eq.symm.trans h'.value_eq)

theorem digestedField_ne (h : IsInput T config former block field original) :
    digestedField T former field original ≠ field := by
  intro hsame
  have hvalue := (congrArg Prod.snd hsame).trans h.value_eq
  have hcount := h.shrinks
  rw [Json.str.inj hvalue] at hcount
  exact Nat.lt_irrefl _ hcount

/-! ### What becomes of a field -/

variable (config policy put) in
/-- A string that is worth a digest is converted when its key is known, or when it is allowed and the store takes
it. -/
theorem fieldStep_eq (hformer : SameFormer T pass.gate former) (first : Bool) (distance : ℕ) (block : Json)
    (field : String × Json) :
    (∃ original, IsInput T config former block field original ∧
        (Known pass.gate (T.useKey original) ∨
          (first = true ∧ put (newRecord T policy block original) = true)) ∧
        (fieldStep T config policy put first distance block field pass).1 = digestedField T former field original ∧
        (fieldStep T config policy put first distance block field pass).2.gate =
          if Known pass.gate (T.useKey original) then pass.gate
          else insert (entryOf pass.gate (T.useKey original)) pass.gate) ∨
      ((∀ original, IsInput T config former block field original →
          ¬(Known pass.gate (T.useKey original) ∨
            (first = true ∧ put (newRecord T policy block original) = true))) ∧
        (fieldStep T config policy put first distance block field pass).1 = field ∧
        (fieldStep T config policy put first distance block field pass).2.gate = pass.gate) := by
  by_cases hblock : block.getStr? "type" = some "tool_use" ∧
      (block.getStr? "name").getD "" ∉ TOOL_USE_KEEP_VERBATIM
  swap
  · right
    rw [fieldStep, if_neg hblock]
    exact ⟨fun original h => absurd ⟨h.type_eq, h.name_notMem⟩ hblock, rfl, rfl⟩
  rw [fieldStep, if_pos hblock, offloadInputValue]
  split
  swap
  · rename_i hnot
    right
    exact ⟨fun original h => absurd h.value_eq (hnot original), rfl, rfl⟩
  rename_i original hvalue
  have hall : ∀ original', IsInput T config former block field original' → original' = original :=
    fun original' h => Json.str.inj (h.value_eq.symm.trans hvalue)
  by_cases hlarge : (Text.contains MARKER_PREFIX original.toList ||
      Text.byteLength original < config.minBytes) = true
  · right
    rw [if_pos hlarge]
    refine ⟨fun original' h => ?_, rfl, rfl⟩
    rw [hall original' h] at h
    exact absurd (h.large.symm.trans hlarge) nofun
  rw [if_neg hlarge]
  have hlookup := gateLookup_key pass.gate policy (T.useKey original) (Text.byteLength original)
  rw [hformer.budgetOf_eq] at hlookup
  simp only [show TOOL_USE_GATE_NS ++ T.computeKey original = (T.useKey original).base from rfl, hlookup]
  by_cases hshrinks : T.countText (inputDigest T original
      (budgetOf former (T.useKey original) (Text.byteLength original))) < T.countText original
  swap
  · right
    refine ⟨fun original' h => ?_, ?_, ?_⟩
    · rw [hall original' h] at h
      exact absurd h.shrinks hshrinks
    · rw [if_pos (Nat.not_lt.1 hshrinks)]
      split_ifs <;> rfl
    · rw [if_pos (Nat.not_lt.1 hshrinks)]
      split_ifs <;> rfl
  have hinput : IsInput T config former block field original :=
    ⟨hblock.1, hblock.2, hvalue, Bool.not_eq_true _ ▸ hlarge, hshrinks⟩
  rw [if_neg (Nat.not_le.2 hshrinks)]
  by_cases hknown : Known pass.gate (T.useKey original)
  · left
    refine ⟨original, hinput, Or.inl hknown, ?_⟩
    simp only [hknown, decide_true, Bool.not_true, Bool.false_and, Bool.false_eq_true, if_false, if_true,
      digestedField, and_self]
  · have hentry : entryOf pass.gate (T.useKey original) = PREVIEW_CAP_GATE_NS ++ (T.useKey original).base :=
      if_neg fun hin => hknown (Or.inl hin)
    by_cases hallowed : first = true ∧ put (newRecord T policy block original) = true
    · left
      refine ⟨original, hinput, Or.inr hallowed, ?_⟩
      obtain ⟨rfl, hput⟩ := hallowed
      have hrecord := hput
      rw [newRecord] at hrecord
      simp only [hknown, decide_false, Bool.not_false, Bool.not_true, Bool.and_false, Bool.false_eq_true,
        if_false, hentry, hrecord, digestedField, and_self]
    · right
      refine ⟨fun original' h => ?_, ?_⟩
      · rw [hall original' h]
        exact fun hor => hor.elim hknown hallowed
      · simp only [hknown, decide_false, Bool.not_false, Bool.true_and, Bool.false_eq_true, if_false, hentry]
        by_cases hfirst : first = true
        · have hput : put (newRecord T policy block original) = false :=
            Bool.eq_false_iff.2 fun hput => hallowed ⟨hfirst, hput⟩
          rw [newRecord] at hput
          simp only [hfirst, hput, Bool.not_true, Bool.not_false, Bool.false_eq_true, if_false, if_true, and_self]
        · simp only [Bool.not_eq_true] at hfirst
          simp only [hfirst, Bool.not_false, if_true, and_self]

variable (config policy put) in
theorem fieldStep_known (first : Bool) (distance : ℕ) (block : Json) (field : String × Json) (s : Pass)
    (hs : SameFormer T s.gate former) :
    SameFormer T (fieldStep T config policy put first distance block field s).2.gate former ∧
      ∀ k : T.Key, Known (fieldStep T config policy put first distance block field s).2.gate k ↔
        Known s.gate k ∨ FieldGrants T config policy former put first block field k := by
  rcases fieldStep_eq config policy put hs first distance block field with
    ⟨original, hinput, hallowed, -, hgate⟩ | ⟨hnot, -, hgate⟩
  · rw [hgate]
    have hgrants : ∀ k, FieldGrants T config policy former put first block field k → k = T.useKey original := by
      rintro k ⟨original', h', -, -, rfl⟩
      rw [h'.unique hinput]
    split_ifs with hknown
    · refine ⟨hs, fun k => (or_iff_left_of_imp fun hk => ?_).symm⟩
      rwa [hgrants k hk]
    · obtain ⟨hfirst, hput⟩ := hallowed.resolve_left hknown
      refine ⟨hs.record _, fun k => ?_⟩
      rw [known_record]
      refine or_congr_right ⟨?_, hgrants k⟩
      rintro rfl
      exact ⟨original, hinput, hfirst, hput, rfl⟩
  · rw [hgate]
    refine ⟨hs, fun k => ?_⟩
    rw [or_iff_left]
    rintro ⟨original, hinput, hfirst, hput, -⟩
    exact hnot original hinput (Or.inr ⟨hfirst, hput⟩)

/-! ### What becomes of a block -/

/-- The pass over one block goes through its fields, and changes nothing else. -/
theorem offloadUseBlock_eq (first : Bool) (distance : ℕ) (block : Json) (s : Pass) :
    fieldsOf (offloadUseBlock T config policy put first distance block s).1 =
        (thread (fieldStep T config policy put first distance block) (fieldsOf block) s).1 ∧
      (offloadUseBlock T config policy put first distance block s).2 =
        (thread (fieldStep T config policy put first distance block) (fieldsOf block) s).2 := by
  have hskip : (¬(block.getStr? "type" = some "tool_use" ∧
      (block.getStr? "name").getD "" ∉ TOOL_USE_KEEP_VERBATIM)) →
      thread (fieldStep T config policy put first distance block) (fieldsOf block) s = (fieldsOf block, s) := by
    intro hnot
    rw [thread_eq_map fun field _ s => by rw [fieldStep, if_neg hnot], List.map_id']
  rw [offloadUseBlock]
  by_cases htype : block.getStr? "type" = some "tool_use"
  swap
  · rw [if_neg htype, hskip fun h => htype h.1]
    exact ⟨rfl, rfl⟩
  rw [if_pos htype]
  by_cases hname : (block.getStr? "name").getD "" ∈ TOOL_USE_KEEP_VERBATIM
  · rw [if_pos hname, hskip fun h => h.2 hname]
    exact ⟨rfl, rfl⟩
  rw [if_neg hname]
  split
  · rename_i input hinput
    have hfields : fieldsOf block = input := by rw [fieldsOf, hinput]
    have hstep : fieldStep T config policy put first distance block =
        offloadInputValue T config policy put first ((block.getStr? "name").getD "") distance := by
      funext field s
      rw [fieldStep, if_pos ⟨htype, hname⟩]
    rw [hfields, hstep]
    refine ⟨?_, rfl⟩
    rw [fieldsOf, Json.get?_insert_self hinput]
  · rename_i hnot
    have hfields : fieldsOf block = [] := by
      rw [fieldsOf]
      split
      · rename_i input hinput
        exact absurd hinput (hnot input)
      · rfl
    rw [hfields]
    exact ⟨rfl, rfl⟩

variable (config policy forwardedBefore put) in
theorem inputStep_known (messages : List Json) (i : ℕ) (block : Json) (s : Pass)
    (hs : SameFormer T s.gate former) :
    SameFormer T (inputStep T config policy forwardedBefore put messages i block s).2.gate former ∧
      ∀ k : T.Key, Known (inputStep T config policy forwardedBefore put messages i block s).2.gate k ↔
        Known s.gate k ∨ InputGrants T config policy former forwardedBefore put messages i block k := by
  rw [inputStep]
  split_ifs with hlast
  · refine ⟨hs, fun k => (or_iff_left ?_).symm⟩
    exact fun hgrants => hgrants.1 hlast
  · rw [(offloadUseBlock_eq _ _ block s).2]
    obtain ⟨hfinal, hknown⟩ := known_thread (K := fun s (k : T.Key) => Known s.gate k)
      (fun field (_ : field ∈ fieldsOf block) s hs => fieldStep_known config policy put
        (isFirstAllowed policy forwardedBefore messages i) (messages.length - 1 - i) block field s hs) hs
    refine ⟨hfinal, fun k => (hknown k).trans (or_congr_right ?_)⟩
    exact (and_iff_right hlast).symm

theorem rewriteBlocks_id (message : Json) (s : Pass) :
    rewriteBlocks (fun block s => (block, s)) message s = (message, s) := by
  have hsame (blocks : List Json) : thread (fun block (s : Pass) => (block, s)) blocks s = (blocks, s) := by
    rw [thread_eq_map fun _ _ _ => rfl, List.map_id']
  rw [rewriteBlocks]
  split
  · rfl
  · rename_i blocks hblocks
    rw [hsame]
    exact Prod.ext (insert_getArr?_self hblocks) rfl

/-- The pass goes over the blocks of all messages. -/
theorem inputPass_eq_walk (messages : List Json) (s : Pass) :
    inputPass T config policy forwardedBefore put messages s =
      walk (inputStep T config policy forwardedBefore put messages) messages s := by
  rw [inputPass, walk]
  refine congrFun (thread_congr fun m _ => ?_) s
  funext s
  obtain ⟨message, i⟩ := m
  dsimp only
  split_ifs with hlast
  · have hstep : inputStep T config policy forwardedBefore put messages i = fun block s => (block, s) := by
      funext block s
      rw [inputStep, if_pos hlast]
    rw [hstep, rewriteBlocks_id]
  · have hstep : inputStep T config policy forwardedBefore put messages i =
        offloadUseBlock T config policy put (isFirstAllowed policy forwardedBefore messages i)
          (messages.length - 1 - i) := by
      funext block s
      rw [inputStep, if_neg hlast]
    rw [hstep]

variable (config policy forwardedBefore put messages pass) in
theorem inputPass_known (hformer : SameFormer T pass.gate former) :
    SameFormer T (inputPass T config policy forwardedBefore put messages pass).2.gate former ∧
      ∀ k : T.Key, Known (inputPass T config policy forwardedBefore put messages pass).2.gate k ↔
        Known pass.gate k ∨ InputGranted T config policy former forwardedBefore put messages k := by
  rw [inputPass_eq_walk]
  exact walk_known (K := fun s (k : T.Key) => Known s.gate k)
    (fun i block s hs => inputStep_known config policy forwardedBefore put messages i block s hs) hformer

/-! ### What becomes of a string -/

theorem inputPass_block (hformer : SameFormer T pass.gate former) (hat : blockAt messages i j = some block)
    (htype : block.getStr? "type" ≠ some "tool_use") :
    blockAt (inputPass T config policy forwardedBefore put messages pass).1 i j = some block := by
  rw [inputPass_eq_walk]
  obtain ⟨s, -, -, -, hblock⟩ := walk_block (K := fun s (k : T.Key) => Known s.gate k)
    (fun i block s hs => inputStep_known config policy forwardedBefore put messages i block s hs) hformer hat
  rw [hblock, inputStep, offloadUseBlock, if_neg htype, ite_self]

variable (config policy forwardedBefore put) in
/-- A field at a message that is not the last one is taken from a state in which its key is known if it was before,
or if it may be converted for the first time up to this message. -/
theorem inputPass_field (hformer : SameFormer T pass.gate former) (hlast : i ≠ messages.length - 1) {n : ℕ}
    (hat : blockAt messages i j = some block) (hfield : (fieldsOf block)[n]? = some field) :
    ∃ s : Pass, SameFormer T s.gate former ∧ (∀ k : T.Key, Known pass.gate k → Known s.gate k) ∧
      (∀ k : T.Key, Known s.gate k → Known pass.gate k ∨
        ∃ i' ≤ i, InputGrantedAt T config policy former forwardedBefore put messages i' k) ∧
      fieldAt (inputPass T config policy forwardedBefore put messages pass).1 i j n =
        some (fieldStep T config policy put (isFirstAllowed policy forwardedBefore messages i)
          (messages.length - 1 - i) block field s).1 := by
  rw [inputPass_eq_walk]
  obtain ⟨s, hs, hmono, hless, hblock⟩ := walk_block (K := fun s (k : T.Key) => Known s.gate k)
    (fun i block s hs => inputStep_known config policy forwardedBefore put messages i block s hs) hformer hat
  -- then the fields of the block in front of this one
  obtain ⟨hfinal, hknown⟩ := known_thread (K := fun s (k : T.Key) => Known s.gate k)
    (fun field (_ : field ∈ (fieldsOf block).take n) s hs =>
      fieldStep_known config policy put
        (isFirstAllowed policy forwardedBefore messages i) (messages.length - 1 - i) block field s hs) hs
  refine ⟨_, hfinal, fun k hk => (hknown k).2 (Or.inl (hmono k hk)), fun k hk => ?_, ?_⟩
  · rcases (hknown k).1 hk with hk | ⟨field', hmem, hgrants⟩
    · rcases hless k hk with hk | ⟨i', hle, j', block', hat', hgrants⟩
      · exact Or.inl hk
      · exact Or.inr ⟨i', hle, j', block', hat', hgrants⟩
    · exact Or.inr ⟨i, le_refl i, j, block, hat, hlast, field', List.mem_of_mem_take hmem, hgrants⟩
  · rw [fieldAt, hblock, inputStep, if_neg hlast]
    show (fieldsOf _)[n]? = _
    rw [(offloadUseBlock_eq _ _ block s).1, getElem?_thread, hfield]
    rfl

theorem input_digested (hformer : SameFormer T pass.gate former) (hlast : i ≠ messages.length - 1) {n : ℕ}
    (hat : blockAt messages i j = some block) (hfield : (fieldsOf block)[n]? = some field)
    (h : IsInput T config former block field original)
    (hallowed : Known pass.gate (T.useKey original) ∨
      (isFirstAllowed policy forwardedBefore messages i = true ∧
        put (newRecord T policy block original) = true)) :
    fieldAt (inputPass T config policy forwardedBefore put messages pass).1 i j n =
      some (digestedField T former field original) := by
  obtain ⟨s, hs, hmono, -, hout⟩ := inputPass_field config policy forwardedBefore put hformer hlast hat hfield
  rw [hout]
  rcases fieldStep_eq config policy put hs (isFirstAllowed policy forwardedBefore messages i)
    (messages.length - 1 - i) block field with ⟨original', h', -, heq, -⟩ | ⟨hnot, -⟩
  · rw [heq, h'.unique h]
  · exact absurd (hallowed.imp_left (hmono _)) (hnot original h)

theorem input_cases (hformer : SameFormer T pass.gate former) {n : ℕ}
    (hat : blockAt messages i j = some block) (hfield : (fieldsOf block)[n]? = some field) :
    fieldAt (inputPass T config policy forwardedBefore put messages pass).1 i j n = some field ∨
      ∃ original, IsInput T config former block field original ∧ i ≠ messages.length - 1 ∧
        (Known pass.gate (T.useKey original) ∨
          ∃ i' ≤ i, InputGrantedAt T config policy former forwardedBefore put messages i' (T.useKey original)) ∧
        fieldAt (inputPass T config policy forwardedBefore put messages pass).1 i j n =
          some (digestedField T former field original) := by
  by_cases hlast : i = messages.length - 1
  · left
    rw [inputPass_eq_walk, fieldAt]
    obtain ⟨s, -, -, -, hblock⟩ := walk_block (K := fun s (k : T.Key) => Known s.gate k)
      (fun i block s hs => inputStep_known config policy forwardedBefore put messages i block s hs) hformer hat
    rw [hblock, inputStep, if_pos hlast]
    exact hfield
  obtain ⟨s, hs, -, hless, hout⟩ := inputPass_field config policy forwardedBefore put hformer hlast hat hfield
  rw [hout]
  rcases fieldStep_eq config policy put hs (isFirstAllowed policy forwardedBefore messages i)
    (messages.length - 1 - i) block field with ⟨original, hinput, hallowed, heq, -⟩ | ⟨-, heq, -⟩
  · rw [heq]
    refine Or.inr ⟨original, hinput, hlast, ?_, rfl⟩
    rcases hallowed with hknown | ⟨hfirst, hput⟩
    · exact hless _ hknown
    · exact Or.inr ⟨i, le_refl i, j, block, hat, hlast, field, List.mem_of_getElem? hfield, original, hinput,
        hfirst, hput, rfl⟩
  · rw [heq]
    exact Or.inl rfl

end Headroom.Offload
