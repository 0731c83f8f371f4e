import Headroom.Reasoning.CarriedMarkers

/-!
# Edits of single blocks

Both passes that put markers at the tail change one block of one message at a time, and every other block stays.
-/

open Foundation

namespace Headroom.Reasoning

open PrefixReplay (isThinkingBlock)

/-- The content of a message, when it is made of blocks. -/
abbrev contentOf (message : Json) : Option (List Json) := message.getArr? "content"

/-- The block of a message. -/
def blockAt (messages : List Json) (position : ℕ × ℕ) : Option Json :=
  (messages[position.1]?.bind contentOf).bind fun content => content[position.2]?

/-- A message with one block changed. -/
def modifyContent (index : ℕ) (f : Json → Json) (message : Json) : Json :=
  match contentOf message with
  | some content => message.insert "content" (.arr (content.modify index f))
  | none => message

/-- Messages with one block changed. -/
def modifyBlock (position : ℕ × ℕ) (f : Json → Json) (messages : List Json) : List Json :=
  messages.modify position.1 (modifyContent position.2 f)

theorem contentOf_modifyContent (index : ℕ) (f : Json → Json) (message : Json) :
    contentOf (modifyContent index f message) = (contentOf message).map fun content => content.modify index f := by
  obtain hnone | ⟨content, hcontent⟩ := Option.eq_none_or_eq_some (contentOf message)
  · rw [modifyContent, hnone]
    exact hnone
  · rw [modifyContent, hcontent]
    exact getArr?_insert_content hcontent _

/-- The block that is changed, and no other. -/
theorem blockAt_modifyBlock (position position' : ℕ × ℕ) (f : Json → Json) (messages : List Json) :
    blockAt (modifyBlock position f messages) position' =
      if position = position' then (blockAt messages position').map f else blockAt messages position' := by
  obtain ⟨m, i⟩ := position
  obtain ⟨m', i'⟩ := position'
  simp only [blockAt, modifyBlock, List.getElem?_modify, Option.map_eq_map]
  by_cases hm : m = m'
  · subst hm
    cases hmessage : messages[m]? with
    | none => simp
    | some message =>
      simp only [if_true, Option.map_some, Option.bind_some, contentOf_modifyContent, Prod.mk.injEq, true_and]
      cases hcontent : contentOf message with
      | none => simp
      | some content =>
        simp only [Option.map_some, Option.bind_some, List.getElem?_modify, Option.map_eq_map]
        by_cases hi : i = i'
        · simp [hi]
        · simp [hi]
  · simp [hm]

/-! ### Related blocks -/

/-- Messages of the same shape, with related blocks at the same positions. -/
def BlocksRelated (R : Json → Json → Prop) (messages messages' : List Json) : Prop :=
  List.Forall₂ (fun m m' => Option.Rel (List.Forall₂ R) (contentOf m) (contentOf m')) messages messages'

section

variable {R : Json → Json → Prop}

theorem option_rel_refl {α : Type} {R : α → α → Prop} (hrefl : ∀ a, R a a) : ∀ o : Option α, Option.Rel R o o
  | none => .none
  | some a => .some (hrefl a)

theorem BlocksRelated.refl (hrefl : ∀ b, R b b) (messages : List Json) : BlocksRelated R messages messages :=
  List.forall₂_same.2 fun _ _ => option_rel_refl (fun _ => List.forall₂_same.2 fun _ _ => hrefl _) _

theorem BlocksRelated.trans {messages messages' messages'' : List Json}
    (htrans : ∀ a b c, R a b → R b c → R a c) (h : BlocksRelated R messages messages')
    (h' : BlocksRelated R messages' messages'') : BlocksRelated R messages messages'' := by
  have hlists {α : Type} {S : α → α → Prop} (hS : ∀ a b c, S a b → S b c → S a c) (as bs cs : List α)
      (hab : List.Forall₂ S as bs) (hbc : List.Forall₂ S bs cs) : List.Forall₂ S as cs := by
    induction hab generalizing cs with
    | nil => exact hbc
    | cons hab _ ih =>
      obtain ⟨c, cs', hc, hcs, rfl⟩ := List.forall₂_cons_left_iff.1 hbc
      exact .cons (hS _ _ _ hab hc) (ih cs' hcs)
  refine hlists (fun m m' m'' hm hm' => ?_) _ _ _ h h'
  generalize contentOf m = a at *
  generalize contentOf m' = b at *
  generalize contentOf m'' = c at *
  cases hm with
  | none => exact hm'
  | some hab =>
    cases hm' with
    | some hbc => exact .some (hlists htrans _ _ _ hab hbc)

/-- Related messages have related blocks at a position. -/
theorem BlocksRelated.blockAt {messages messages' : List Json} (h : BlocksRelated R messages messages')
    (position : ℕ × ℕ) : Option.Rel R (blockAt messages position) (blockAt messages' position) := by
  have hget {α : Type} {S : α → α → Prop} {as bs : List α} (hab : List.Forall₂ S as bs) (i : ℕ) :
      Option.Rel S as[i]? bs[i]? := by
    induction hab generalizing i with
    | nil => exact .none
    | cons hab _ ih =>
      cases i with
      | zero => exact .some hab
      | succ i => simpa using ih i
  rw [Reasoning.blockAt, Reasoning.blockAt]
  have hmessage := hget h position.1
  generalize messages[position.1]? = m at *
  generalize messages'[position.1]? = m' at *
  cases hmessage with
  | none => exact .none
  | @some m m' hm =>
    rw [Option.bind_some, Option.bind_some]
    generalize contentOf m = content at *
    generalize contentOf m' = content' at *
    cases hm with
    | none => exact .none
    | some hcontent => exact hget hcontent position.2

/-- A change that is allowed at a position is allowed of the messages. -/
theorem blocksRelated_modifyBlock (hrefl : ∀ b, R b b) {messages : List Json} {position : ℕ × ℕ} {f : Json → Json}
    (h : ∀ b, blockAt messages position = some b → R b (f b)) :
    BlocksRelated R messages (modifyBlock position f messages) := by
  have hmodify {α : Type} {S : α → α → Prop} (hS : ∀ a, S a a) {g : α → α} (as : List α) (i : ℕ)
      (hi : ∀ a, as[i]? = some a → S a (g a)) : List.Forall₂ S as (as.modify i g) := by
    induction as generalizing i with
    | nil => simp
    | cons a as ih =>
      cases i with
      | zero => exact .cons (hi a rfl) (List.forall₂_same.2 fun _ _ => hS _)
      | succ i =>
        rw [List.modify_succ_cons]
        exact .cons (hS a) (ih i fun b hb => hi b (by simpa using hb))
  have hself (m : Json) : Option.Rel (List.Forall₂ R) (contentOf m) (contentOf m) :=
    option_rel_refl (fun _ => List.forall₂_same.2 fun _ _ => hrefl _) _
  refine hmodify (S := fun m m' => Option.Rel (List.Forall₂ R) (contentOf m) (contentOf m')) hself messages _
    fun message hmessage => ?_
  rw [contentOf_modifyContent]
  cases hcontent : contentOf message with
  | none => exact .none
  | some content =>
    refine .some (hmodify hrefl content _ fun b hb => h b ?_)
    rw [Reasoning.blockAt, hmessage, Option.bind_some, hcontent, Option.bind_some, hb]

end

/-! ### Counting -/

/-- Changing one member of a list changes a sum by as much. -/
theorem sum_map_modify {α : Type} (g : α → ℕ) (f : α → α) {as : List α} {i : ℕ} {a : α} (h : as[i]? = some a) :
    ((as.modify i f).map g).sum + g a = (as.map g).sum + g (f a) := by
  induction as generalizing i with
  | nil => simp at h
  | cons b as ih =>
    cases i with
    | zero =>
      obtain rfl : b = a := by simpa using h
      rw [List.modify_zero_cons, List.map_cons, List.map_cons, List.sum_cons, List.sum_cons]
      omega
    | succ i =>
      have hrest := ih (by simpa using h : as[i]? = some a)
      rw [List.modify_succ_cons, List.map_cons, List.map_cons, List.sum_cons, List.sum_cons]
      omega

theorem markersOf_eq_sum (content : List Json) :
    markersOf content = (content.map fun b => markersOf [b]).sum := by
  induction content with
  | nil => rfl
  | cons b content ih =>
    rw [List.map_cons, List.sum_cons, ← ih, ← List.singleton_append, markersOf, List.countP_append]

/-- A change counts as much as it does on its block. -/
theorem markerCount_modifyBlock {messages : List Json} {position : ℕ × ℕ} {block : Json} (f : Json → Json)
    (h : blockAt messages position = some block) :
    markerCount (modifyBlock position f messages) + markersOf [block] =
      markerCount messages + markersOf [f block] := by
  obtain ⟨content, hcontent, hblock⟩ := Option.bind_eq_some_iff.1 h
  obtain ⟨message, hmessage, hcontent⟩ := Option.bind_eq_some_iff.1 hcontent
  have houter := sum_map_modify (fun m => markersOf ((contentOf m).getD [])) (modifyContent position.2 f) hmessage
  have hinner := sum_map_modify (fun b => markersOf [b]) f hblock
  rw [← markersOf_eq_sum, ← markersOf_eq_sum] at hinner
  rw [contentOf_modifyContent, hcontent, Option.map_some, Option.getD_some, Option.getD_some] at houter
  show (((messages.modify position.1 (modifyContent position.2 f)).map fun m =>
    markersOf ((contentOf m).getD [])).sum) + _ = (messages.map fun m => markersOf ((contentOf m).getD [])).sum + _
  omega

theorem markerCount_modifyBlock_le (messages : List Json) (position : ℕ × ℕ) (f : Json → Json) :
    markerCount (modifyBlock position f messages) ≤ markerCount messages + 1 := by
  cases h : blockAt messages position with
  | some block =>
    have hcount := markerCount_modifyBlock f h
    have hone : markersOf [f block] ≤ 1 := List.countP_le_length
    omega
  | none =>
    have hsame : BlocksRelated Eq messages (modifyBlock position f messages) :=
      blocksRelated_modifyBlock (fun _ => rfl) fun b hb => by rw [h] at hb; cases hb
    have hcounts : List.Forall₂ Eq (messages.map fun m => markersOf ((contentOf m).getD []))
        ((modifyBlock position f messages).map fun m => markersOf ((contentOf m).getD [])) := by
      rw [List.forall₂_map_left_iff, List.forall₂_map_right_iff]
      refine hsame.imp fun m m' hm => ?_
      generalize contentOf m = a at *
      generalize contentOf m' = b at *
      cases hm with
      | none => rfl
      | some hab => rw [List.forall₂_eq_eq_eq] at hab; rw [hab]
    rw [List.forall₂_eq_eq_eq] at hcounts
    rw [markerCount, markerCount, hcounts]
    exact Nat.le_succ _

end Headroom.Reasoning
