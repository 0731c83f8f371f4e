import Headroom.LiveZone.PlannedSlots

/-!
# What a pass writes

A replacement comes from a slot that holds a text. Either the text was folded, or it was compressed; with
a store, the compressed text carries a marker and the original lies in the store. It costs fewer tokens
than the text. The replacements of a pass stand one behind the other, each in its message.
-/

open Foundation Headroom.Transforms

namespace Headroom.LiveZone

variable {σ : Type} {E : Engine σ} {config : LiveZoneConfig}

/-- Whether a slot may only be folded. -/
def SlotKind.foldsOnly (config : LiveZoneConfig) : SlotKind → Bool
  | .losslessOnly _ _ _ => true
  | _ => config.lossless

/-- Whether a slot is compressed with a store. -/
def SlotKind.usesStore (ccrStore forString : Bool) : SlotKind → Bool
  | .stringContent _ _ => ccrStore && forString
  | _ => ccrStore

/-- A text that is folded: its fold is shorter. -/
structure Folded (E : Engine σ) (text new : List Char) : Prop where
  fold : ∃ kind, losslessKindFor (E.detectContentNative text) = some kind ∧
    new = compactLossless E.folds text kind
  shorter : Text.utf8Length new < Text.utf8Length text

/-- How a text is replaced: it is folded, compressed, or compressed with a marker behind it when its
original lies in the store. -/
inductive Rewritten (E : Engine σ) (config : LiveZoneConfig) (text : List Char) (s : σ) :
    Bool → Bool → List Char → σ → Prop
  | folded (foldsOnly ccrStore : Bool) (new : List Char) (h : Folded E text new)
      (hfolds : foldsOnly = true) : Rewritten E config text s foldsOnly ccrStore new s
  | compressed (strategy : String) (new : List Char) (s' : σ) (hlong : 512 ≤ Text.utf8Length text)
      (hdispatch : E.dispatch s text (E.detectContentNative text) config.toDispatchConfig =
        (.compressed strategy new, s')) : Rewritten E config text s false false new s'
  | marked (strategy : String) (new : List Char) (s' s'' : σ) (hlong : 512 ≤ Text.utf8Length text)
      (hdispatch : E.dispatch s text (E.detectContentNative text) config.toDispatchConfig =
        (.compressed strategy new, s'))
      (hput : E.put s' (E.computeKey text) text = (true, s'')) :
      Rewritten E config text s false true (maybeInjectCcrMarker E text new true).1 s''

/-- A replacement that a slot gives. -/
structure Replaces (E : Engine σ) (config : LiveZoneConfig) (ccrStore forString : Bool) (kind : SlotKind)
    (s : σ) (x : Edit UInt8) (s' : σ) : Prop where
  rewrite : ∃ text range new, kind.target? = some (text, range) ∧ text ≠ [] ∧ x = replacementOf range new ∧
    E.countText new < E.countText text ∧
    Rewritten E config text s (kind.foldsOnly config) (kind.usesStore ccrStore forString) new s'

/-- A text that is not folded is long. -/
theorem Rewritten.cases {text new : List Char} {s s' : σ} {foldsOnly ccrStore : Bool}
    (h : Rewritten E config text s foldsOnly ccrStore new s') :
    (foldsOnly = true ∧ Folded E text new) ∨ (foldsOnly = false ∧ 512 ≤ Text.utf8Length text) := by
  cases h with
  | folded _ _ _ hnew hfolds => exact Or.inl ⟨hfolds, hnew⟩
  | compressed _ _ _ hlong => exact Or.inr ⟨rfl, hlong⟩
  | marked _ _ _ _ hlong => exact Or.inr ⟨rfl, hlong⟩

/-! ### One slot -/

section

variable {text : List Char} {range : ℕ × ℕ} {s : σ} {x : Edit UInt8}

theorem compactOneBlockLossless_replacement
    (h : (compactOneBlockLossless E text range s).replacement = some x) :
    ∃ new, Folded E text new ∧ E.countText new < E.countText text ∧ x = replacementOf range new ∧
      (compactOneBlockLossless E text range s).state = s := by
  rw [compactOneBlockLossless] at h ⊢
  split at h
  · exact absurd h nofun
  · rename_i kind hkind
    dsimp only at h ⊢
    split_ifs at h with hshort hcount
    · refine ⟨compactLossless E.folds text kind, ⟨⟨kind, hkind, rfl⟩, by omega⟩, by omega, ?_, ?_⟩
      · exact (Option.some.inj h).symm
      · rw [if_neg hshort, if_neg hcount]

theorem acceptCompressed_replacement {strategy : String} {new : List Char} {hash : Option String}
    (h : (acceptCompressed E strategy text new hash range s).replacement = some x) :
    x = replacementOf range new ∧
      match hash with
      | none => (acceptCompressed E strategy text new hash range s).state = s
      | some hash => E.put s hash text =
          (true, (acceptCompressed E strategy text new (some hash) range s).state) := by
  cases hash with
  | none => exact ⟨(Option.some.inj h).symm, rfl⟩
  | some hash =>
    have hstate : (acceptCompressed E strategy text new (some hash) range s).state =
        (E.put s hash text).2 := by
      rw [acceptCompressed]
      dsimp only
      split_ifs
      · rfl
      · rfl
    rw [acceptCompressed] at h
    dsimp only at h ⊢
    split_ifs at h with hput
    rw [hstate]
    exact ⟨(Option.some.inj h).symm, Prod.ext hput rfl⟩

theorem thresholdFor_eq (contentType : ContentType) : thresholdFor contentType = 512 := by
  cases contentType
  all_goals rfl

theorem compressOneBlock_replacement {ccrStore : Bool}
    (h : (compressOneBlock E text (E.detectContentNative text) range ccrStore config s).replacement =
      some x) :
    ∃ new, text ≠ [] ∧ x = replacementOf range new ∧ E.countText new < E.countText text ∧
      Rewritten E config text s config.lossless ccrStore new
        (compressOneBlock E text (E.detectContentNative text) range ccrStore config s).state := by
  rw [compressOneBlock] at h ⊢
  split_ifs at h ⊢ with hthreshold hlossless
  · obtain ⟨new, hnew, hcount, hx, hs⟩ := compactOneBlockLossless_replacement h
    refine ⟨new, ?_, hx, hcount, ?_⟩
    · rintro rfl
      exact absurd hnew.shorter (Nat.not_lt_zero _)
    · rw [hs]
      exact .folded _ _ new hnew hlossless
  · obtain hlossless : config.lossless = false := by simpa using hlossless
    rw [hlossless]
    split at h
    · exact absurd h nofun
    · rename_i strategy new s' hdispatch
      have htext : text ≠ [] := by
        rintro rfl
        exact absurd (congrArg Prod.fst hdispatch) nofun
      rw [dispatchText, if_neg htext] at hdispatch
      have hlong : 512 ≤ Text.utf8Length text := by
        rw [thresholdFor_eq] at hthreshold
        exact Nat.le_of_not_lt fun hshort => hthreshold ⟨htext, hshort⟩
      dsimp only at h ⊢
      split_ifs at h ⊢ with hcount
      · obtain ⟨hx, hs⟩ := acceptCompressed_replacement h
        refine ⟨_, htext, hx, by omega, ?_⟩
        cases ccrStore with
        | false =>
          dsimp only [maybeInjectCcrMarker] at hs ⊢
          rw [hs]
          exact .compressed strategy new s' hlong hdispatch
        | true => exact .marked strategy new s' _ hlong hdispatch hs
    · exact absurd h nofun

/-- A replacement comes from the text of its slot. -/
theorem replaces_of_processSlot {ccrStore forString : Bool} {kind : SlotKind}
    (h : (processSlot E ccrStore forString config kind s).replacement = some x) :
    Replaces E config ccrStore forString kind s x (processSlot E ccrStore forString config kind s).state := by
  refine ⟨?_⟩
  cases kind with
  | excluded blockType reason => exact absurd h nofun
  | compressible blockType text range =>
    obtain ⟨new, htext, hx, hcount, hrewritten⟩ := compressOneBlock_replacement h
    exact ⟨text, range, new, rfl, htext, hx, hcount, hrewritten⟩
  | losslessOnly blockType text range =>
    obtain ⟨new, hnew, hcount, hx, hs⟩ := compactOneBlockLossless_replacement h
    refine ⟨text, range, new, rfl, ?_, hx, hcount, ?_⟩
    · rintro rfl
      exact absurd hnew.shorter (Nat.not_lt_zero _)
    · show Rewritten E config text s true _ new (compactOneBlockLossless E text range s).state
      rw [hs]
      exact .folded _ _ new hnew rfl
  | stringContent text range =>
    obtain ⟨new, htext, hx, hcount, hrewritten⟩ := compressOneBlock_replacement h
    exact ⟨text, range, new, rfl, htext, hx, hcount, hrewritten⟩

end

/-! ### A pass -/

section

variable {ccrStore forString : Bool} {s : σ} {x : Edit UInt8}

variable {i : ℕ}

theorem mem_runSlots {slots : List PlanSlot}
    (hx : x ∈ (runSlots E ccrStore forString config i slots s).replacements) :
    ∃ slot ∈ slots, ∃ s s', Replaces E config ccrStore forString slot.kind s x s' := by
  induction slots generalizing s with
  | nil => exact absurd hx List.not_mem_nil
  | cons slot slots ih =>
    rcases List.mem_append.1 hx with hx | hx
    · exact ⟨slot, List.mem_cons_self, s, _, replaces_of_processSlot (Option.mem_toList.1 hx)⟩
    · obtain ⟨slot', hslot', h⟩ := ih hx
      exact ⟨slot', List.mem_cons_of_mem _ hslot', h⟩

/-- The replacements for the slots of a plan stand one behind the other. -/
theorem fits_runSlots {lo hi i : ℕ} {slots : List PlanSlot} (h : SlotsFit lo hi slots) :
    Edit.Fits lo hi (runSlots E ccrStore forString config i slots s).replacements := by
  induction slots generalizing lo s with
  | nil => exact h
  | cons slot slots ih =>
    obtain ⟨mid, hmid, hrest, hplanned⟩ := h
    have hbehind : Edit.Fits mid hi (runSlots E ccrStore forString config i slots
        (processSlot E ccrStore forString config slot.kind s).state).replacements := ih hrest
    rw [runSlots]
    dsimp only
    cases hreplacement : (processSlot E ccrStore forString config slot.kind s).replacement with
    | none => exact hbehind.mono hmid (Nat.le_refl _)
    | some x =>
      obtain ⟨text, range, new, htarget, htext, rfl, -, -⟩ := (replaces_of_processSlot hreplacement).rewrite
      obtain ⟨field, ⟨hstart, hstop⟩, -, rfl⟩ := hplanned text range htarget htext
      exact ⟨hstart, Nat.le_add_right _ _, hbehind.mono hstop (Nat.le_refl _)⟩

variable {body : Body} {guards : List (String × ToolGuard)} {protectText : Bool}

theorem planBlockReplacements_eq_ok {plan : List PlanSlot} :
    planBlockReplacements E.rules body i guards protectText = .ok plan ↔
      ∃ views view, messageViews body = some views ∧ views[i]? = some view ∧
        planMessage E.rules body.span guards protectText view = .ok plan := by
  rw [planBlockReplacements, orError_bind_eq_ok]
  refine exists_congr fun views => ⟨?_, ?_⟩
  · rintro ⟨hviews, h⟩
    obtain ⟨view, hview, h⟩ := orError_bind_eq_ok.1 h
    exact ⟨view, hviews, hview, h⟩
  · rintro ⟨view, hviews, hview, h⟩
    exact ⟨hviews, orError_bind_eq_ok.2 ⟨view, hview, h⟩⟩

variable {messages : List Json}

theorem mem_runMessages {entries : List (Json × ℕ)}
    (hx : x ∈ (runMessages E body guards messages ccrStore config entries s).replacements) :
    ∃ message i plan slot, (message, i) ∈ entries ∧ roleOf message = some "user" ∧
      planBlockReplacements E.rules body i guards (!answersFencedCommand E.rules messages i) = .ok plan ∧
      slot ∈ plan ∧ ∃ s s', Replaces E config ccrStore false slot.kind s x s' := by
  induction entries generalizing s with
  | nil => exact absurd hx List.not_mem_nil
  | cons entry entries ih =>
    obtain ⟨message, i⟩ := entry
    have hbehind : ∀ {s}, x ∈ (runMessages E body guards messages ccrStore config entries s).replacements →
        ∃ message' i' plan slot, (message', i') ∈ (message, i) :: entries ∧ roleOf message' = some "user" ∧
          planBlockReplacements E.rules body i' guards (!answersFencedCommand E.rules messages i') =
            .ok plan ∧ slot ∈ plan ∧ ∃ s s', Replaces E config ccrStore false slot.kind s x s' := by
      intro s hx
      obtain ⟨message', i', plan, slot, hmem, h⟩ := ih hx
      exact ⟨message', i', plan, slot, List.mem_cons_of_mem _ hmem, h⟩
    rw [runMessages] at hx
    split_ifs at hx with hrole
    · exact hbehind hx
    · split at hx
      · exact hbehind hx
      · rename_i plan hplan
        rcases List.mem_append.1 hx with hx | hx
        · obtain ⟨slot, hslot, h⟩ := mem_runSlots hx
          exact ⟨message, i, plan, slot, List.mem_cons_self, not_not.1 hrole, hplan, hslot, h⟩
        · exact hbehind hx

theorem fits_runMessages {views : List View} (hviews : messageViews body = some views)
    {entries : List (Json × ℕ)} (hsorted : entries.Pairwise fun a b => a.2 < b.2) {lo hi : ℕ}
    (hwithin : ∀ entry ∈ entries, ∀ view, views[entry.2]? = some view → lo ≤ view.start ∧ view.stop ≤ hi)
    (hle : lo ≤ hi) :
    Edit.Fits lo hi (runMessages E body guards messages ccrStore config entries s).replacements := by
  induction entries generalizing lo s with
  | nil => exact hle
  | cons entry entries ih =>
    obtain ⟨message, i⟩ := entry
    rw [List.pairwise_cons] at hsorted
    have hskip : ∀ s, Edit.Fits lo hi
        (runMessages E body guards messages ccrStore config entries s).replacements := fun s =>
      ih hsorted.2 (fun entry hentry => hwithin entry (List.mem_cons_of_mem _ hentry)) hle
    rw [runMessages]
    split_ifs with hrole
    · exact hskip s
    · split
      · exact hskip s
      · rename_i plan hplan
        obtain ⟨views', view, hviews', hview, hplan⟩ := planBlockReplacements_eq_ok.1 hplan
        obtain rfl := Option.some.inj (hviews.symm.trans hviews')
        obtain ⟨hstart, hstop⟩ := hwithin (message, i) List.mem_cons_self view hview
        have hhead : Edit.Fits view.start view.stop
            (runSlots E ccrStore false config i plan s).replacements :=
          fits_runSlots (fits_of_planMessage hplan).1
        refine (hhead.mono hstart (Nat.le_refl _)).append (ih hsorted.2 ?_ hstop)
        -- a message of a higher index stands behind this one
        intro entry hentry view' hview'
        refine ⟨?_, (hwithin entry (List.mem_cons_of_mem _ hentry) view' hview').2⟩
        obtain ⟨hi, rfl⟩ := List.getElem?_eq_some_iff.1 hview
        obtain ⟨hj, rfl⟩ := List.getElem?_eq_some_iff.1 hview'
        exact List.pairwise_iff_getElem.1 (pairwise_messageViews hviews) _ _ hi hj (hsorted.1 entry hentry)

theorem findLatestUserMessageIndex_eq_some {floor target : ℕ}
    (h : findLatestUserMessageIndex messages floor = some target) :
    floor ≤ target ∧ ∃ message, messages[target]? = some message ∧ roleOf message = some "user" := by
  rw [findLatestUserMessageIndex] at h
  split at h
  · rename_i message i hfind
    split_ifs at h with hbelow
    obtain rfl := Option.some.inj h
    have hmem := List.mem_zipIdx_iff_getElem?.1 (List.mem_reverse.1 (List.mem_of_find?_eq_some hfind))
    obtain ⟨hlt, -⟩ := List.getElem?_eq_some_iff.1 hmem
    refine ⟨by omega, message, hmem, ?_⟩
    have huser := List.find?_some hfind
    simpa [hbelow] using huser
  · exact absurd h nofun

end

/-! ### The two passes -/

/-- The pass over the latest message of the user that is not below a floor, and the pass over all. -/
inductive Mode where
  | latest (frozenMessageCount : ℕ)
  | all

def Mode.run {σ : Type} (E : Engine σ) (body : Body) (ccrStore : Bool) (config : LiveZoneConfig) (s : σ) :
    Mode → Except LiveZoneError (LiveZoneOutcome × σ)
  | latest frozenMessageCount =>
    compressAnthropicLiveZoneWithCcr E body frozenMessageCount ccrStore config s
  | all => compressAnthropicAllMessages E body ccrStore config s

/-- The index below which a pass changes nothing. -/
def Mode.floor : Mode → ℕ
  | latest frozenMessageCount => frozenMessageCount
  | all => 0

/-- What a pass over the messages of a body does. -/
def Mode.pass (E : Engine σ) (body : Body) (ccrStore : Bool) (config : LiveZoneConfig) (messages : List Json)
    (s : σ) : Mode → PassResult σ
  | latest frozenMessageCount =>
    match findLatestUserMessageIndex messages frozenMessageCount with
    | none => ⟨[], [], s⟩
    | some target =>
      match planBlockReplacements E.rules body target
          (collectToolGuards E.rules messages config.excludeTools config.lossless)
          (!answersFencedCommand E.rules messages target) with
      | .error _ => ⟨[], [], s⟩
      | .ok plan => runSlots E ccrStore true config target plan s
  | all => runMessages E body (collectToolGuards E.rules messages config.excludeTools config.lossless)
      messages ccrStore config messages.zipIdx s

theorem newBody_of_finish {body : Body} {manifest manifest' : CompressionManifest}
    {replacements : List (Edit UInt8)} {newBody : List UInt8}
    (h : finish body manifest replacements = .modified newBody manifest') :
    newBody = rawValueFromString (applyReplacements body.bytes replacements) := by
  rw [finish] at h
  split_ifs at h
  exact (LiveZoneOutcome.modified.inj h).1.symm

theorem pass_of_run {mode : Mode} {body : Body} {ccrStore : Bool} {s s' : σ} {newBody : List UInt8}
    {manifest : CompressionManifest}
    (h : mode.run E body ccrStore config s = .ok (.modified newBody manifest, s')) :
    ∃ messages, parsedMessages body = .ok messages ∧
      newBody = rawValueFromString
        (applyReplacements body.bytes (mode.pass E body ccrStore config messages s).replacements) ∧
      s' = (mode.pass E body ccrStore config messages s).state := by
  cases hmessages : parsedMessages body with
  | error e =>
    cases mode with
    | latest frozenMessageCount =>
      rw [Mode.run, compressAnthropicLiveZoneWithCcr, hmessages] at h
      exact absurd h (by rintro ⟨⟩)
    | all =>
      rw [Mode.run, compressAnthropicAllMessages, hmessages] at h
      exact absurd h (by rintro ⟨⟩)
  | ok messages =>
    refine ⟨messages, rfl, ?_⟩
    cases mode with
    | latest frozenMessageCount =>
      rw [Mode.run, compressAnthropicLiveZoneWithCcr, hmessages] at h
      rw [Mode.pass]
      dsimp only [bind, Except.bind, pure, Except.pure] at h
      split_ifs at h
      · exact absurd (congrArg Prod.fst (Except.ok.inj h)) (by simp)
      rcases htarget : findLatestUserMessageIndex messages frozenMessageCount with _ | target
      · simp only [htarget] at h
        exact absurd (congrArg Prod.fst (Except.ok.inj h)) (by simp)
      · simp only [htarget] at h ⊢
        rcases hplan : planBlockReplacements E.rules body target
            (collectToolGuards E.rules messages config.excludeTools config.lossless)
            (!answersFencedCommand E.rules messages target) with e | plan
        · simp only [hplan] at h
          exact absurd (congrArg Prod.fst (Except.ok.inj h)) (by simp)
        · simp only [hplan] at h ⊢
          exact ⟨newBody_of_finish (congrArg Prod.fst (Except.ok.inj h)),
            (congrArg Prod.snd (Except.ok.inj h)).symm⟩
    | all =>
      rw [Mode.run, compressAnthropicAllMessages, hmessages] at h
      dsimp only [bind, Except.bind, pure, Except.pure] at h
      split_ifs at h
      · exact absurd (congrArg Prod.fst (Except.ok.inj h)) (by simp)
      · exact ⟨newBody_of_finish (congrArg Prod.fst (Except.ok.inj h)),
          (congrArg Prod.snd (Except.ok.inj h)).symm⟩

/-- The messages that a pass looks at. -/
def Mode.Reaches (messages : List Json) (i : ℕ) : Mode → Prop
  | latest frozenMessageCount => findLatestUserMessageIndex messages frozenMessageCount = some i
  | all => ∃ message, messages[i]? = some message ∧ roleOf message = some "user"

/-- The plan for the message at an index. -/
def Plans (R : Rules) (body : Body) (config : LiveZoneConfig) (messages : List Json) (i : ℕ)
    (plan : List PlanSlot) : Prop :=
  planBlockReplacements R body i (collectToolGuards R messages config.excludeTools config.lossless)
    (!answersFencedCommand R messages i) = .ok plan

section

variable {mode : Mode} {body : Body} {ccrStore : Bool} {messages : List Json} {s : σ} {x : Edit UInt8}

theorem mem_pass (hx : x ∈ (mode.pass E body ccrStore config messages s).replacements) :
    ∃ i plan slot, mode.Reaches messages i ∧ Plans E.rules body config messages i plan ∧ slot ∈ plan ∧
      ∃ forString s s', Replaces E config ccrStore forString slot.kind s x s' := by
  cases mode with
  | latest frozenMessageCount =>
    rw [Mode.pass] at hx
    split at hx
    · exact absurd hx List.not_mem_nil
    · rename_i target htarget
      split at hx
      · exact absurd hx List.not_mem_nil
      · rename_i plan hplan
        obtain ⟨slot, hslot, h⟩ := mem_runSlots hx
        exact ⟨target, plan, slot, htarget, hplan, hslot, true, h⟩
  | all =>
    obtain ⟨message, i, plan, slot, hmem, huser, hplan, hslot, h⟩ := mem_runMessages hx
    exact ⟨i, plan, slot, ⟨message, List.mem_zipIdx_iff_getElem?.1 hmem, huser⟩, hplan, hslot, false, h⟩

variable {i : ℕ} {slot : PlanSlot}

/-- A slot that is replaced whatever the engine remembers is replaced in a run over its plan. -/
theorem exists_mem_runSlots {forString : Bool} {slots : List PlanSlot} (hslot : slot ∈ slots)
    (h : ∀ s, ∃ x, (processSlot E ccrStore forString config slot.kind s).replacement = some x) :
    ∃ x ∈ (runSlots E ccrStore forString config i slots s).replacements, ∃ s s',
      Replaces E config ccrStore forString slot.kind s x s' := by
  induction slots generalizing s with
  | nil => exact absurd hslot List.not_mem_nil
  | cons first slots ih =>
    rcases List.mem_cons.1 hslot with rfl | hslot
    · obtain ⟨x, hx⟩ := h s
      exact ⟨x, List.mem_append_left _ (Option.mem_toList.2 hx), s, _, replaces_of_processSlot hx⟩
    · obtain ⟨x, hx, hreplaces⟩ := ih hslot
      exact ⟨x, List.mem_append_right _ hx, hreplaces⟩

theorem exists_mem_runMessages {guards : List (String × ToolGuard)} {entries : List (Json × ℕ)}
    {message : Json} {plan : List PlanSlot} (hmem : (message, i) ∈ entries)
    (huser : roleOf message = some "user")
    (hplan : planBlockReplacements E.rules body i guards (!answersFencedCommand E.rules messages i) =
      .ok plan) (hslot : slot ∈ plan)
    (h : ∀ s, ∃ x, (processSlot E ccrStore false config slot.kind s).replacement = some x) :
    ∃ x ∈ (runMessages E body guards messages ccrStore config entries s).replacements, ∃ s s',
      Replaces E config ccrStore false slot.kind s x s' := by
  induction entries generalizing s with
  | nil => exact absurd hmem List.not_mem_nil
  | cons entry entries ih =>
    rcases List.mem_cons.1 hmem with rfl | hmem
    · obtain ⟨x, hx, hreplaces⟩ := exists_mem_runSlots (s := s) (i := i) hslot h
      refine ⟨x, ?_, hreplaces⟩
      rw [runMessages, if_neg (not_not.2 huser), hplan]
      exact List.mem_append_left _ hx
    · rw [runMessages]
      split_ifs
      · exact ih hmem
      · split
        · exact ih hmem
        · obtain ⟨x, hx, hreplaces⟩ := ih hmem
          exact ⟨x, List.mem_append_right _ hx, hreplaces⟩

theorem exists_mem_pass {plan : List PlanSlot} (hreaches : mode.Reaches messages i)
    (hplan : Plans E.rules body config messages i plan) (hslot : slot ∈ plan)
    (h : ∀ forString s, ∃ x, (processSlot E ccrStore forString config slot.kind s).replacement = some x) :
    ∃ x ∈ (mode.pass E body ccrStore config messages s).replacements, ∃ forString s s',
      Replaces E config ccrStore forString slot.kind s x s' := by
  rw [Plans] at hplan
  cases mode with
  | latest frozenMessageCount =>
    obtain ⟨x, hx, hreplaces⟩ := exists_mem_runSlots (s := s) (i := i) hslot (h true)
    refine ⟨x, ?_, true, hreplaces⟩
    rw [Mode.pass, show findLatestUserMessageIndex messages frozenMessageCount = some i from hreaches]
    dsimp only
    rw [hplan]
    exact hx
  | all =>
    obtain ⟨message, hmessage, huser⟩ := hreaches
    obtain ⟨x, hx, hreplaces⟩ := exists_mem_runMessages (s := s)
      (List.mem_zipIdx_iff_getElem?.2 hmessage) huser hplan hslot (h false)
    exact ⟨x, hx, false, hreplaces⟩

end

end Headroom.LiveZone
