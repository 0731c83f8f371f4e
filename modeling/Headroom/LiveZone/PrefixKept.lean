import Headroom.LiveZone.ByteSurgery
import Headroom.LiveZone.Guards
import Headroom.LiveZone.MovedPlans

/-!
# The prefix of a conversation is kept

A conversation is sent again with every turn. The pass over all messages replaces the texts of a message by
what the message says, by the calls that it answers, and by the messages in front of it, so that a message
that was sent before is sent with the same bytes again.

## Main statements

* `prefix_kept` : over a conversation that grows, the messages that were sent stay as they are.
-/

open Foundation

namespace Headroom.LiveZone

/-- The dispatch depends on the text, its type and the configuration only, and the store takes every
text. -/
structure Steady {σ : Type} (E : Engine σ) : Prop where
  dispatch : ∀ s s' text contentType config,
    (E.dispatch s text contentType config).1 = (E.dispatch s' text contentType config).1
  put : ∀ s key text, (E.put s key text).1 = true

/-! ### What is done with a text depends on the text only -/

section

variable {σ : Type} {E : Engine σ} {config : LiveZoneConfig}

theorem acceptCompressed_replacement_of_steady (hsteady : Steady E) (strategy : String)
    (text new : List Char) (hash : Option String) (range : ℕ × ℕ) (s : σ) :
    (acceptCompressed E strategy text new hash range s).replacement = some (replacementOf range new) := by
  cases hash with
  | none => rfl
  | some hash =>
    rw [acceptCompressed]
    dsimp only
    rw [if_pos (hsteady.put s hash text)]

theorem replacement_congr (hsteady : Steady E) (ccrStore forString : Bool) (kind : SlotKind) (s s' : σ) :
    (processSlot E ccrStore forString config kind s).replacement =
      (processSlot E ccrStore forString config kind s').replacement := by
  have hfold : ∀ text range, (compactOneBlockLossless E text range s).replacement =
      (compactOneBlockLossless E text range s').replacement := by
    intro text range
    rw [compactOneBlockLossless, compactOneBlockLossless]
    cases losslessKindFor (E.detectContentNative text) with
    | none => rfl
    | some kind =>
      dsimp only
      split_ifs
      all_goals rfl
  have hone : ∀ text range ccrStore,
      (compressOneBlock E text (E.detectContentNative text) range ccrStore config s).replacement =
        (compressOneBlock E text (E.detectContentNative text) range ccrStore config s').replacement := by
    intro text range ccrStore
    have hdispatch : (dispatchText E config text (E.detectContentNative text) s).1 =
        (dispatchText E config text (E.detectContentNative text) s').1 := by
      rw [dispatchText, dispatchText]
      split_ifs
      · rfl
      · exact hsteady.dispatch s s' text _ _
    rw [compressOneBlock, compressOneBlock]
    split_ifs
    · rfl
    · exact hfold text range
    · rcases hleft : dispatchText E config text (E.detectContentNative text) s with ⟨result, t⟩
      rcases hright : dispatchText E config text (E.detectContentNative text) s' with ⟨result', t'⟩
      rw [hleft, hright] at hdispatch
      obtain rfl : result = result' := hdispatch
      cases result with
      | noOp contentType declinedBy => rfl
      | error strategy error => rfl
      | compressed strategy new =>
        dsimp only
        split_ifs
        · rfl
        · rw [acceptCompressed_replacement_of_steady hsteady, acceptCompressed_replacement_of_steady hsteady]
  cases kind with
  | excluded blockType reason => rfl
  | compressible blockType text range => exact hone text range ccrStore
  | losslessOnly blockType text range => exact hfold text range
  | stringContent text range => exact hone text range (ccrStore && forString)

/-- The same edit some bytes further on. -/
def moveEdit (d : ℕ) (x : Edit UInt8) : Edit UInt8 := ⟨d + x.start, d + x.stop, x.new⟩

theorem replacement_shift (d : ℕ) (ccrStore forString : Bool) (kind : SlotKind) (s : σ) :
    (processSlot E ccrStore forString config (kind.shift d) s).replacement =
      (processSlot E ccrStore forString config kind s).replacement.map (moveEdit d) := by
  have hfold : ∀ text range, (compactOneBlockLossless E text (d + range.1, d + range.2) s).replacement =
      (compactOneBlockLossless E text range s).replacement.map (moveEdit d) := by
    intro text range
    rw [compactOneBlockLossless, compactOneBlockLossless]
    cases losslessKindFor (E.detectContentNative text) with
    | none => rfl
    | some kind =>
      dsimp only
      split_ifs
      all_goals rfl
  have hone : ∀ text range contentType ccrStore,
      (compressOneBlock E text contentType (d + range.1, d + range.2) ccrStore config s).replacement =
        (compressOneBlock E text contentType range ccrStore config s).replacement.map (moveEdit d) := by
    intro text range contentType ccrStore
    rw [compressOneBlock, compressOneBlock]
    split_ifs
    · rfl
    · exact hfold text range
    · rcases dispatchText E config text contentType s with ⟨result, t⟩
      cases result with
      | noOp contentType declinedBy => rfl
      | error strategy error => rfl
      | compressed strategy new =>
        dsimp only
        split_ifs
        · rfl
        · cases (maybeInjectCcrMarker E text new ccrStore).2 with
          | none => rfl
          | some hash =>
            rw [acceptCompressed, acceptCompressed]
            dsimp only
            split_ifs
            all_goals rfl
  cases kind with
  | excluded blockType reason => rfl
  | compressible blockType text range => exact hone text range _ ccrStore
  | losslessOnly blockType text range => exact hfold text range
  | stringContent text range => exact hone text range _ (ccrStore && forString)

variable {ccrStore : Bool} {s : σ} {x : Edit UInt8}

theorem isCompressed_of_replacement {ccrStore forString : Bool} {kind : SlotKind}
    (h : (processSlot E ccrStore forString config kind s).replacement = some x) :
    (processSlot E ccrStore forString config kind s).action.isCompressed = true := by
  have hfold : ∀ text range, (compactOneBlockLossless E text range s).replacement = some x →
      (compactOneBlockLossless E text range s).action.isCompressed = true := by
    intro text range h
    rw [compactOneBlockLossless] at h ⊢
    split at h
    · exact absurd h (by simp)
    · dsimp only at h ⊢
      split_ifs at h ⊢
      rfl
  have hone : ∀ text range contentType ccrStore,
      (compressOneBlock E text contentType range ccrStore config s).replacement = some x →
        (compressOneBlock E text contentType range ccrStore config s).action.isCompressed = true := by
    intro text range contentType ccrStore h
    rw [compressOneBlock] at h ⊢
    split_ifs at h ⊢
    · exact hfold text range h
    · split at h
      · exact absurd h (by simp)
      · dsimp only at h ⊢
        split_ifs at h ⊢
        cases hash : (maybeInjectCcrMarker E text _ ccrStore).2 with
        | none => rfl
        | some hash' =>
          rw [hash, acceptCompressed] at h
          rw [acceptCompressed]
          dsimp only at h ⊢
          split_ifs at h ⊢
          rfl
      · exact absurd h (by simp)
  cases kind with
  | excluded blockType reason => exact absurd h (by rintro ⟨⟩)
  | compressible blockType text range => exact hone text range _ ccrStore h
  | losslessOnly blockType text range => exact hfold text range h
  | stringContent text range => exact hone text range _ (ccrStore && forString) h

/-! ### The edits of a message -/

/-- The edits for the slots of a plan. -/
def planEdits (E : Engine σ) (ccrStore : Bool) (config : LiveZoneConfig) (s : σ) (plan : List PlanSlot) :
    List (Edit UInt8) :=
  plan.filterMap fun slot => (processSlot E ccrStore false config slot.kind s).replacement

variable {i : ℕ}

theorem replacements_runSlots (hsteady : Steady E) {slots : List PlanSlot}
    (s s' : σ) :
    (runSlots E ccrStore false config i slots s).replacements = planEdits E ccrStore config s' slots := by
  induction slots generalizing s with
  | nil => rfl
  | cons slot slots ih =>
    rw [runSlots, planEdits, List.filterMap_cons]
    dsimp only
    rw [replacement_congr hsteady ccrStore false slot.kind s s', ih]
    cases (processSlot E ccrStore false config slot.kind s').replacement with
    | none => rfl
    | some x => rfl

theorem planEdits_shift (d : ℕ) (ccrStore : Bool) (s : σ) (plan : List PlanSlot) :
    planEdits E ccrStore config s (plan.map (PlanSlot.shift d)) =
      (planEdits E ccrStore config s plan).map (moveEdit d) := by
  rw [planEdits, planEdits, List.filterMap_map, List.map_filterMap]
  refine congrArg (fun f => plan.filterMap f) (funext fun slot => ?_)
  exact replacement_shift d ccrStore false slot.kind s

/-- The edits of a message as if it were all there is. -/
def messageEdits (E : Engine σ) (guards : List (String × ToolGuard)) (messages : List Json) (ccrStore : Bool)
    (config : LiveZoneConfig) (s : σ) (message : Json) (i : ℕ) (raw : Raw) : List (Edit UInt8) :=
  if roleOf message ≠ some "user" then []
  else match relativePlan E.rules guards (!answersFencedCommand E.rules messages i) raw with
  | .error _ => []
  | .ok plan => planEdits E ccrStore config s plan

variable {body : Body} {views : List View}

variable {view : View}

theorem stop_le_of_messageViews (hviews : messageViews body = some views) (hview : view ∈ views) :
    view.stop ≤ Text.utf8Length body.text := by
  have hroot : body.view.stop ≤ Text.utf8Length body.text := by
    rw [Body.text, Text.utf8Length_append, Text.utf8Length_append]
    exact Nat.le_add_right _ _
  rw [messageViews] at hviews
  split at hviews
  · rename_i w hw
    obtain ⟨lead, hlead⟩ := mem_elems_of_structViews hw (List.mem_singleton.2 rfl)
    have hwithin := View.within_elems hlead
    have hwithin' : w.start ≤ view.start ∧ view.stop ≤ w.stop := by
      obtain ⟨lead', hlead'⟩ := View.mem_elems_of_items hviews hview
      exact View.within_elems hlead'
    omega
  · exact absurd hviews (by simp)

variable {guards : List (String × ToolGuard)}

theorem plan_of_views (hviews : messageViews body = some views)
    (hview : views[i]? = some view) {protectText : Bool} :
    planBlockReplacements E.rules body i guards protectText =
      (relativePlan E.rules guards protectText view.raw).map (List.map (PlanSlot.shift view.start)) := by
  rw [planBlockReplacements, hviews, ← planMessage_eq
    (stop_le_of_messageViews hviews (List.mem_of_getElem? hview))]
  show (orError .targetOutOfBounds views[i]? >>= _) = _
  rw [hview]
  rfl

variable {messages : List Json} {message : Json}

/-- The edits of a message, moved to where it stands, are those of its plan. -/
theorem mem_messageEdits_iff (hviews : messageViews body = some views) :
    (∃ view, views[i]? = some view ∧
      ∃ y ∈ messageEdits E guards messages ccrStore config s message i view.raw, x = moveEdit view.start y) ↔
    roleOf message = some "user" ∧ ∃ plan,
      planBlockReplacements E.rules body i guards (!answersFencedCommand E.rules messages i) = .ok plan ∧
        x ∈ planEdits E ccrStore config s plan := by
  refine ⟨?_, ?_⟩
  · rintro ⟨view, hview, y, hy, rfl⟩
    rw [messageEdits] at hy
    split_ifs at hy with hrole
    · exact absurd hy List.not_mem_nil
    · split at hy
      · exact absurd hy List.not_mem_nil
      · rename_i plan hplan
        refine ⟨not_not.1 hrole, plan.map (PlanSlot.shift view.start), ?_, ?_⟩
        · rw [plan_of_views hviews hview, hplan]
          rfl
        · rw [planEdits_shift]
          exact List.mem_map_of_mem hy
  · rintro ⟨hrole, plan, hplan, hx⟩
    obtain ⟨views', view, hviews', hview, -⟩ := planBlockReplacements_eq_ok.1 hplan
    obtain rfl := Option.some.inj (hviews.symm.trans hviews')
    rw [plan_of_views hviews hview] at hplan
    cases hrelative : relativePlan E.rules guards (!answersFencedCommand E.rules messages i) view.raw with
    | error e =>
      rw [hrelative] at hplan
      exact absurd hplan nofun
    | ok plan' =>
      rw [hrelative] at hplan
      obtain rfl : plan'.map (PlanSlot.shift view.start) = plan := Except.ok.inj hplan
      rw [planEdits_shift] at hx
      obtain ⟨y, hy, rfl⟩ := List.mem_map.1 hx
      refine ⟨view, hview, y, ?_, rfl⟩
      rw [messageEdits, if_neg (not_not.2 hrole), hrelative]
      exact hy

/-- The replacements of a pass are the edits of the messages, moved to where the messages stand. -/
theorem mem_runMessages_iff (hsteady : Steady E) (hviews : messageViews body = some views)
    {entries : List (Json × ℕ)} (s s' : σ) :
    x ∈ (runMessages E body guards messages ccrStore config entries s).replacements ↔
      ∃ entry ∈ entries, ∃ view, views[entry.2]? = some view ∧
        ∃ y ∈ messageEdits E guards messages ccrStore config s' entry.1 entry.2 view.raw,
          x = moveEdit view.start y := by
  induction entries generalizing s with
  | nil => exact ⟨fun h => absurd h List.not_mem_nil, fun h => absurd h.choose_spec.1 List.not_mem_nil⟩
  | cons entry entries ih =>
    obtain ⟨message, i⟩ := entry
    rw [List.exists_mem_cons_iff]
    dsimp only
    rw [mem_messageEdits_iff hviews, runMessages]
    split_ifs with hrole
    · rw [ih]
      exact ⟨Or.inr, fun h => h.resolve_left fun h => hrole h.1⟩
    · split
      · rename_i e hplan
        rw [ih]
        refine ⟨Or.inr, fun h => h.resolve_left ?_⟩
        rintro ⟨-, plan, hplan', -⟩
        exact absurd (hplan.symm.trans hplan') (by simp)
      · rename_i plan hplan
        dsimp only
        rw [List.mem_append, replacements_runSlots hsteady s s', ih]
        refine or_congr_left ⟨fun hx => ⟨not_not.1 hrole, plan, hplan, hx⟩, ?_⟩
        rintro ⟨-, plan', hplan', hx⟩
        obtain rfl := Except.ok.inj (hplan.symm.trans hplan')
        exact hx

/-! ### What is put in the place of a text -/

theorem IsMessageField.within {message field : View} (h : IsMessageField message field) :
    message.start ≤ field.start ∧ field.stop ≤ message.stop := by
  obtain ⟨content, hcontent, h⟩ := h
  obtain ⟨lead, hlead⟩ := mem_elems_of_contentView hcontent
  have hwithin := View.within_elems hlead
  rcases h with rfl | ⟨blocks, block, hblocks, hblock, hfield⟩
  · exact hwithin
  · obtain ⟨lead', hlead'⟩ := View.mem_elems_of_items hblocks hblock
    obtain ⟨lead'', hlead''⟩ := hfield.mem_elems
    have hblock := View.within_elems hlead'
    have hfield := View.within_elems hlead''
    omega

theorem within_of_messageEdits (hviews : messageViews body = some views) {y : Edit UInt8}
    (hview : views[i]? = some view)
    (hy : y ∈ messageEdits E guards messages ccrStore config s message i view.raw) :
    y.start < Text.utf8Length view.raw.text := by
  have hmoved : ∃ view', views[i]? = some view' ∧
      ∃ y' ∈ messageEdits E guards messages ccrStore config s message i view'.raw,
        moveEdit view.start y = moveEdit view'.start y' := ⟨view, hview, y, hy, rfl⟩
  obtain ⟨-, plan, hplan, hx⟩ := (mem_messageEdits_iff hviews).1 hmoved
  obtain ⟨slot, hslot, hreplacement⟩ := List.mem_filterMap.1 hx
  obtain ⟨r, hedit, -, ⟨views', view', hviews', hview', hfield⟩, hsays⟩ :=
    exists_replaced_of_plan hplan hslot (replaces_of_processSlot hreplacement)
  obtain rfl := Option.some.inj (hviews.symm.trans hviews')
  obtain rfl := Option.some.inj (hview.symm.trans hview')
  have hstart : r.field.start = view.start + y.start := congrArg Edit.start hedit
  have hwithin := hfield.within.2
  have hlt := hsays.start_lt_stop
  have hstop : view.stop = view.start + Text.utf8Length view.raw.text := rfl
  omega

theorem moveEdit_replaced {r : Replaced} {d : ℕ} {y : Edit UInt8} (h : r.edit = moveEdit d y) :
    r.field.start = d + y.start ∧ Raw.quoted (escape r.new) = y.new :=
  ⟨congrArg Edit.start h, congrArg Edit.new h⟩

/-- What is put in the place of a text of a message is what its own edits say. -/
theorem newTexts_iff (hsteady : Steady E) (hviews : messageViews body = some views) (s' : σ)
    {rs : List Replaced} (hheld : Held body rs)
    (hrs : rs.map Replaced.edit =
      (runMessages E body guards messages ccrStore config messages.zipIdx s).replacements) (hview : views[i]? = some view)
    (hmessage : messages[i]? = some message) {off : ℕ} (hoff : off < Text.utf8Length view.raw.text)
    (new : List Char) :
    newTexts rs (view.start + off) = some new ↔
      ∃ y ∈ messageEdits E guards messages ccrStore config s' message i view.raw,
        y.start = off ∧ y.new = Raw.quoted (escape new) := by
  refine ⟨?_, ?_⟩
  · intro hnew
    obtain ⟨r, hr, hstart, rfl⟩ := mem_of_newTexts hnew
    have hx : r.edit ∈ (runMessages E body guards messages ccrStore config messages.zipIdx s).replacements := by
      rw [← hrs]
      exact List.mem_map_of_mem hr
    obtain ⟨⟨message', j⟩, hentry, view', hview', y, hy, hedit⟩ :=
      (mem_runMessages_iff hsteady hviews s s').1 hx
    dsimp only at hview' hy
    obtain ⟨hfield, htext⟩ := moveEdit_replaced hedit
    have hwithin := within_of_messageEdits hviews hview' hy
    -- both messages hold the byte at which the text begins
    have hij : i = j := by
      obtain ⟨hi, rfl⟩ := List.getElem?_eq_some_iff.1 hview
      obtain ⟨hj, rfl⟩ := List.getElem?_eq_some_iff.1 hview'
      have hpair := List.pairwise_iff_getElem.1 (pairwise_messageViews hviews)
      rcases Nat.lt_trichotomy i j with hlt | heq | hlt
      · have := hpair i j hi hj hlt
        rw [View.stop] at this
        omega
      · exact heq
      · have := hpair j i hj hi hlt
        rw [View.stop] at this
        omega
    subst hij
    obtain rfl := Option.some.inj (hview.symm.trans hview')
    obtain rfl := Option.some.inj (hmessage.symm.trans (List.mem_zipIdx_iff_getElem?.1 hentry))
    exact ⟨y, hy, by omega, htext.symm⟩
  · rintro ⟨y, hy, rfl, hnew⟩
    have hx : moveEdit view.start y ∈ rs.map Replaced.edit := by
      rw [hrs]
      exact (mem_runMessages_iff hsteady hviews s s').2
        ⟨(message, i), List.mem_zipIdx_iff_getElem?.2 hmessage, view, hview, y, hy, rfl⟩
    obtain ⟨r, hr, hedit⟩ := List.mem_map.1 hx
    obtain ⟨hfield, htext⟩ := moveEdit_replaced hedit
    rw [← hfield, newTexts_of_mem hheld.pairwise_start hr]
    exact congrArg some (Raw.quoted_escape_injective (htext.trans hnew))

/-! ### A conversation that grows -/

/-- The messages of a body are those of its views. -/
theorem messages_eq (hmessages : parsedMessages body = .ok messages)
    (hviews : messageViews body = some views) : messages = views.map fun view => view.raw.value := by
  obtain ⟨blank, elems, hroot⟩ := obj_of_parsedMessages hmessages
  have hget : body.root.value.getArr? "messages" = some messages := by
    rw [parsedMessages] at hmessages
    split_ifs at hmessages
    split at hmessages
    · exact absurd hmessages (by simp)
    · rename_i items hitems
      rw [hitems, Except.ok.inj hmessages]
  have hfields : ∃ fields, body.view.fields? = some fields := by
    rw [Body.view, hroot]
    exact ⟨_, rfl⟩
  obtain ⟨fields, hfields⟩ := hfields
  rw [messageViews, structViews, hfields] at hviews
  split at hviews
  · rename_i w hw
    have hnamed : fieldNamed fields "messages" = some (some w) := by
      dsimp only at hw
      rw [List.mapM_cons, List.mapM_nil] at hw
      cases hfield : fieldNamed fields "messages" with
      | none =>
        rw [hfield] at hw
        exact absurd hw (by simp)
      | some first =>
        rw [hfield] at hw
        obtain ⟨rfl, -⟩ := List.cons.inj (Option.some.inj hw)
        rfl
    rw [fieldNamed] at hnamed
    split at hnamed
    · exact absurd (Option.some.inj hnamed) (by simp)
    · rename_i key w' hfilter
      obtain rfl : w' = w := Option.some.inj (Option.some.inj hnamed)
      have hvalue : body.root.value.get? "messages" = some w'.raw.value := by
        have h := View.get_of_fields hfields "messages"
        rw [hfilter] at h
        exact h
      rw [Json.getArr?, hvalue, Option.bind_some, View.getArr_of_items hviews] at hget
      exact (Option.some.inj hget).symm
    · exact absurd hnamed (by simp)
  · exact absurd hviews (by simp)

/-- A message answers a call. -/
def AnswersId (message : Raw) (id : String) : Prop :=
  ∃ content blocks block header, contentView ⟨0, message⟩ = some (some content) ∧
    content.items? = some blocks ∧ block ∈ blocks ∧ blockHeader block = some header ∧
    header.toolUseId = some id

/-- A later request of a conversation: messages were added behind those that there were, and no call in
them takes an id that was answered before. -/
structure Extends (earlier later : Body) : Prop where
  appended : ∃ views views' more, messageViews earlier = some views ∧ messageViews later = some views' ∧
    views'.map View.raw = views.map View.raw ++ more ∧
    ∀ id ∈ toolUseIds (more.map Raw.value), ∀ view ∈ views, ¬AnswersId view.raw id

/-- A body is a request with messages. -/
structure IsRequest (body : Body) : Prop where
  messages : ∃ messages, parsedMessages body = .ok messages
  views : ∃ views, messageViews body = some views

/-- The messages that a request becomes. -/
def Sends (E : Engine σ) (ccrStore : Bool) (config : LiveZoneConfig) (body : Body) (s : σ)
    (sent : List Raw) : Prop :=
  ∃ messages views rs, parsedMessages body = .ok messages ∧ messageViews body = some views ∧
    Held body rs ∧ rs.map Replaced.edit =
      (Mode.all.pass E body ccrStore config messages s).replacements ∧
    sent = views.map (View.swap (newTexts rs))

theorem exists_sends (h : IsRequest body) (ccrStore : Bool) (s : σ) :
    ∃ sent, Sends E ccrStore config body s sent := by
  obtain ⟨⟨messages, hmessages⟩, views, hviews⟩ := h
  have hsurgical : Surgical E body messages 0 (Mode.all.pass E body ccrStore config messages s).replacements :=
    surgical_pass .all ccrStore s
  obtain ⟨rs, hrs, hheld, -⟩ := hsurgical.exists_replaced
  exact ⟨_, messages, views, rs, hmessages, hviews, hheld, hrs, rfl⟩

theorem messageEdits_append {messages more : List Json}
    {raw : Raw} (hi : i ≤ messages.length) (hfresh : ∀ id ∈ toolUseIds more, ¬AnswersId raw id) :
    messageEdits E (collectToolGuards E.rules (messages ++ more) config.excludeTools config.lossless)
        (messages ++ more) ccrStore config s message i raw =
      messageEdits E (collectToolGuards E.rules messages config.excludeTools config.lossless) messages
        ccrStore config s message i raw := by
  have hfence : answersFencedCommand E.rules (messages ++ more) i =
      answersFencedCommand E.rules messages i := by
    rw [answersFencedCommand, answersFencedCommand, List.take_append_of_le_length hi]
  rw [messageEdits, messageEdits, hfence, relativePlan_congr]
  intro content blocks block hcontent hblocks hblock header id hheader hid
  refine guardFor_append fun hmem => ?_
  exact hfresh id hmem ⟨content, blocks, block, header, hcontent, hblocks, hblock, hheader, hid⟩

theorem prefix_of_extends (hsteady : Steady E) {earlier later : Body}
    (hextends : Extends earlier later) {s s' : σ} {sent sent' : List Raw}
    (hsent : Sends E ccrStore config earlier s sent) (hsent' : Sends E ccrStore config later s' sent') :
    sent <+: sent' := by
  obtain ⟨messages, views, rs, hmessages, hviews, hheld, hrs, rfl⟩ := hsent
  obtain ⟨messages', views', rs', hmessages', hviews', hheld', hrs', rfl⟩ := hsent'
  obtain ⟨views₁, views₂, more, hviews₁, hviews₂, hmore, hfresh⟩ := hextends.appended
  obtain rfl := Option.some.inj (hviews.symm.trans hviews₁)
  obtain rfl := Option.some.inj (hviews'.symm.trans hviews₂)
  have hvalues : messages' = messages ++ more.map Raw.value := by
    rw [messages_eq hmessages hviews, messages_eq hmessages' hviews']
    have h := congrArg (List.map Raw.value) hmore
    rw [List.map_append, List.map_map, List.map_map] at h
    exact h
  have hlength : messages.length = views.length := by rw [messages_eq hmessages hviews, List.length_map]
  subst hvalues
  refine List.prefix_iff_getElem?.2 fun i hi => ?_
  rw [List.length_map] at hi
  have hview : views[i]? = some views[i] := List.getElem?_eq_getElem hi
  have hmessage : messages[i]? = some messages[i] := List.getElem?_eq_getElem (hlength ▸ hi)
  have hmessage' : (messages ++ more.map Raw.value)[i]? = some messages[i] := by
    rw [List.getElem?_append_left (hlength ▸ hi), hmessage]
  -- the same message stands in the later body
  have hraw : (views'.map View.raw)[i]? = some views[i].raw := by
    rw [hmore, List.getElem?_append_left (by rwa [List.length_map]), List.getElem?_map, hview]
    rfl
  rw [List.getElem?_map] at hraw
  obtain ⟨view', hview', hraw⟩ := Option.map_eq_some_iff.1 hraw
  have hle : i ≤ messages.length := hlength ▸ Nat.le_of_lt hi
  have hnew : ∀ off < Text.utf8Length views[i].raw.text,
      newTexts rs' (view'.start + off) = newTexts rs (views[i].start + off) := by
    intro off hoff
    refine Option.ext fun new => ?_
    rw [newTexts_iff hsteady hviews s hheld hrs hview hmessage hoff,
      newTexts_iff hsteady hviews' s hheld' hrs' hview' hmessage' (by rwa [hraw]), hraw,
      messageEdits_append hle fun id hid => hfresh id hid views[i] (List.getElem_mem hi)]
  rw [List.getElem?_map, hview', List.getElem_map]
  exact congrArg some (View.swap_eq hraw hnew)

/-! ### What is sent -/

/-- The bytes that are sent for a body. -/
def forwarded (body : Body) : LiveZoneOutcome → List UInt8
  | .modified newBody _ => newBody
  | .noChange _ => body.bytes

/-- What is sent for a request is a body with these messages. -/
structure Forwards (E : Engine σ) (ccrStore : Bool) (config : LiveZoneConfig) (request : Body × σ)
    (sent : List Raw) : Prop where
  run : ∃ outcome s' out,
    compressAnthropicAllMessages E request.1 ccrStore config request.2 = .ok (outcome, s') ∧
      forwarded request.1 outcome = Body.bytes out ∧
      (messageViews out).map (List.map View.raw) = some sent
  length : ∃ views, messageViews request.1 = some views ∧ sent.length = views.length

theorem hasCompressed_runSlots {ccrStore forString : Bool} {slots : List PlanSlot}
    (h : (runSlots E ccrStore forString config i slots s).replacements ≠ []) :
    ∃ outcome ∈ (runSlots E ccrStore forString config i slots s).outcomes,
      outcome.action.isCompressed = true := by
  induction slots generalizing s with
  | nil => exact absurd rfl h
  | cons slot slots ih =>
    rw [runSlots] at h ⊢
    cases hreplacement : (processSlot E ccrStore forString config slot.kind s).replacement with
    | some x => exact ⟨_, List.mem_cons_self, isCompressed_of_replacement hreplacement⟩
    | none =>
      dsimp only at h ⊢
      rw [hreplacement] at h
      obtain ⟨outcome, hmem, hcompressed⟩ := ih h
      exact ⟨outcome, List.mem_cons_of_mem _ hmem, hcompressed⟩

theorem hasCompressed_runMessages {entries : List (Json × ℕ)}
    (h : (runMessages E body guards messages ccrStore config entries s).replacements ≠ []) :
    ∃ outcome ∈ (runMessages E body guards messages ccrStore config entries s).outcomes,
      outcome.action.isCompressed = true := by
  induction entries generalizing s with
  | nil => exact absurd rfl h
  | cons entry entries ih =>
    obtain ⟨message, i⟩ := entry
    rw [runMessages] at h ⊢
    split_ifs at h ⊢
    · exact ih h
    · split at h
      · exact ih h
      · rename_i plan hplan
        dsimp only at h ⊢
        by_cases hhead : (runSlots E ccrStore false config i plan s).replacements = []
        · rw [hhead] at h
          obtain ⟨outcome, hmem, hcompressed⟩ := ih h
          exact ⟨outcome, List.mem_append_right _ hmem, hcompressed⟩
        · obtain ⟨outcome, hmem, hcompressed⟩ := hasCompressed_runSlots hhead
          exact ⟨outcome, List.mem_append_left _ hmem, hcompressed⟩

theorem forwards_of_sends {sent : List Raw}
    (h : Sends E ccrStore config body s sent) : Forwards E ccrStore config (body, s) sent := by
  obtain ⟨messages, views, rs, hmessages, hviews, hheld, hrs, rfl⟩ := h
  refine ⟨?_, views, hviews, by rw [List.length_map]⟩
  -- where nothing is replaced the body is sent as it came
  have hkept : rs = [] →
      (messageViews body).map (List.map View.raw) = some (views.map (View.swap (newTexts rs))) := by
    rintro rfl
    rw [hviews]
    refine congrArg some (List.map_congr_left fun view _ => ?_)
    exact (Raw.swap_none view.start view.raw).symm
  rw [compressAnthropicAllMessages, hmessages]
  dsimp only [bind, Except.bind, pure, Except.pure]
  split_ifs with hempty
  · obtain rfl := List.isEmpty_iff.1 hempty
    refine ⟨_, _, body, rfl, rfl, hkept ?_⟩
    exact List.map_eq_nil_iff.1 hrs
  · rw [Mode.pass] at hrs
    rw [← hrs, finish]
    by_cases hnone : rs = []
    · refine ⟨_, _, body, rfl, ?_, hkept hnone⟩
      rw [hnone]
      rw [List.map_nil, List.isEmpty_nil, Bool.or_true, if_pos rfl]
      rfl
    · refine ⟨_, _, ⟨[], body.view.swap (newTexts rs), []⟩, rfl, ?_, ?_⟩
      · have hsome : rs.map Replaced.edit ≠ [] := fun h => hnone (List.map_eq_nil_iff.1 h)
        obtain ⟨outcome, hmem, hcompressed⟩ := hasCompressed_runMessages (hrs ▸ hsome)
        have hany (latest : Option ℕ) : CompressionManifest.hasCompressedBlock ⟨messages.length, 0, latest,
            (runMessages E body (collectToolGuards E.rules messages config.excludeTools config.lossless)
              messages ccrStore config messages.zipIdx s).outcomes⟩ = true :=
          List.any_eq_true.2 ⟨outcome, hmem, hcompressed⟩
        rw [hany, List.isEmpty_eq_false_iff.2 hsome, if_neg (by simp), forwarded, hheld.rawValue hmessages,
          Body.bytes, Body.text, List.nil_append, List.append_nil]
      · rw [messageViews_swap, hviews]
        rfl

end

/-- A request with these messages. -/
def conversation (messages : List Raw) : Body where
  before := []
  root := .obj [] [Raw.field "messages" (.arr [] (messages.map Raw.item))]
  after := []

/-- A call of the search tool and its result. -/
def searchTurn : List Raw :=
  [.obj [] [Raw.field "role" (Raw.string "assistant"),
    Raw.field "content" (.arr [] [Raw.item (.obj [] [Raw.field "type" (Raw.string "tool_use"),
      Raw.field "id" (Raw.string "call"), Raw.field "name" (Raw.string "Grep")])])],
  .obj [] [Raw.field "role" (Raw.string "user"),
    Raw.field "content" (.arr [] [Raw.item (.obj [] [Raw.field "type" (Raw.string "tool_result"),
      Raw.field "tool_use_id" (Raw.string "call"), Raw.field "content" (.str (escape repeatedLines))])])]]

/-- What is said next. -/
def nextTurn : List Raw :=
  [.obj [] [Raw.field "role" (Raw.string "assistant"), Raw.field "content" (Raw.string "Six replicas.")],
  .obj [] [Raw.field "role" (Raw.string "user"), Raw.field "content" (Raw.string "Thanks.")]]

theorem steady_foldingEngine : Steady foldingEngine := ⟨fun _ _ _ _ _ => rfl, fun _ _ _ => rfl⟩

theorem raw_ofElems_items (base : ℕ) (first : Bool) (messages : List Raw) :
    ((View.ofElems base first (messages.map Raw.item)).map Prod.snd).map View.raw = messages := by
  induction messages generalizing base first with
  | nil => rfl
  | cons message messages ih => exact congrArg (message :: ·) (ih _ false)

/-- The messages of a request with these messages. -/
theorem exists_views_conversation (messages : List Raw) :
    ∃ views, messageViews (conversation messages) = some views ∧ views.map View.raw = messages := by
  obtain ⟨start, hview⟩ : ∃ start, structViews ["messages"] (conversation messages).view =
      some [some ⟨start, .arr [] (messages.map Raw.item)⟩] := ⟨_, rfl⟩
  rw [messageViews, hview]
  exact ⟨_, rfl, raw_ofElems_items _ true messages⟩

theorem extends_conversation (messages more : List Raw) (h : toolUseIds (more.map Raw.value) = []) :
    Extends (conversation messages) (conversation (messages ++ more)) := by
  obtain ⟨views, hviews, hraw⟩ := exists_views_conversation messages
  obtain ⟨views', hviews', hraw'⟩ := exists_views_conversation (messages ++ more)
  refine ⟨views, views', more, hviews, hviews', by rw [hraw, hraw'], ?_⟩
  rw [h]
  exact fun id hid => absurd hid List.not_mem_nil

theorem isRequest_conversation {messages : List Raw}
    (h : (parsedMessages (conversation messages)).toOption.isSome) : IsRequest (conversation messages) := by
  obtain ⟨views, hviews, -⟩ := exists_views_conversation messages
  refine ⟨?_, views, hviews⟩
  cases hparsed : parsedMessages (conversation messages) with
  | error e =>
    rw [hparsed] at h
    exact absurd h nofun
  | ok messages => exact ⟨messages, rfl⟩

end Headroom.LiveZone
