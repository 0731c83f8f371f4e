import Headroom.Foundation.Threading
import Headroom.LiveZone.Anthropic

/-!
# Where the planned texts stand

A text that a plan may replace is a string in a field of a message of the body: its content, the text of
a block, or the content of a result. The texts of a plan stand one behind the other, within their message.
-/

open Foundation

namespace Headroom.LiveZone

/-- A block and a field of it that is read as its text. -/
def IsBlockField (block field : View) : Prop :=
  ∃ header, blockHeader block = some header ∧
    textField block header (blockTypeOf block header) = .ok (some field)

/-- The content of a message that is a string, or the field of a block of its content. -/
def IsContentField (content field : View) : Prop :=
  field = content ∨ ∃ blocks block, content.items? = some blocks ∧ block ∈ blocks ∧ IsBlockField block field

/-- A field of a message that may hold a text. -/
def IsMessageField (message field : View) : Prop :=
  ∃ content, contentView message = some (some content) ∧ IsContentField content field

/-- A field of the message of a body at an index that may hold a text. -/
def IsField (body : Body) (i : ℕ) (field : View) : Prop :=
  ∃ messages message, messageViews body = some messages ∧ messages[i]? = some message ∧
    IsMessageField message field

/-- A field says a text. -/
def Says (field : View) (text : List Char) : Prop :=
  ∃ escaped, field.string? = some escaped ∧ unescape escaped = some text

/-- The text of a slot and its range, where it may be replaced. -/
def SlotKind.target? : SlotKind → Option (List Char × (ℕ × ℕ))
  | .compressible _ text range => some (text, range)
  | .stringContent text range => some (text, range)
  | .losslessOnly _ text range => some (text, range)
  | .excluded _ _ => none

/-- The text of a slot, if it may be replaced and is not empty, is that of a field. -/
def Planned (P : View → Prop) (kind : SlotKind) : Prop :=
  ∀ text range, kind.target? = some (text, range) → text ≠ [] →
    ∃ field, P field ∧ Says field text ∧ range = field.span

/-- The ranges of the texts of a plan stand one behind the other from a byte to another. -/
def SlotsFit : ℕ → ℕ → List PlanSlot → Prop
  | lo, hi, [] => lo ≤ hi
  | lo, hi, slot :: slots => ∃ mid, lo ≤ mid ∧ SlotsFit mid hi slots ∧
      Planned (fun field => lo ≤ field.start ∧ field.stop ≤ mid) slot.kind

theorem Planned.imp {P Q : View → Prop} {kind : SlotKind} (h : Planned P kind) (hPQ : ∀ v, P v → Q v) :
    Planned Q kind := by
  intro text range htarget htext
  obtain ⟨field, hfield, hsays⟩ := h text range htarget htext
  exact ⟨field, hPQ field hfield, hsays⟩

theorem planned_excluded {P : View → Prop} {blockType : String} {reason : ExclusionReason} :
    Planned P (.excluded blockType reason) := fun _ _ h => absurd h nofun

/-! ### Steps that may fail -/

section

variable {α β : Type} {error : PlanError} {b : β}

theorem orError_bind_eq_ok {o : Option α} {f : α → Except PlanError β} :
    (orError error o >>= f) = .ok b ↔ ∃ a, o = some a ∧ f a = .ok b := by
  cases o with
  | none => exact ⟨nofun, fun ⟨a, h, _⟩ => absurd h nofun⟩
  | some a => exact ⟨fun h => ⟨a, rfl, h⟩, fun ⟨a', h, h'⟩ => Option.some.inj h ▸ h'⟩

theorem except_bind_eq_ok {x : Except PlanError α} {f : α → Except PlanError β} :
    (x >>= f) = .ok b ↔ ∃ a, x = .ok a ∧ f a = .ok b := by
  cases x with
  | error e => exact ⟨nofun, fun ⟨a, h, _⟩ => absurd h nofun⟩
  | ok a => exact ⟨fun h => ⟨a, rfl, h⟩, fun ⟨a', h, h'⟩ => Except.ok.inj h ▸ h'⟩

end

theorem bytesOffsetOf_eq_some {parent child : ℕ × ℕ} {offset : ℕ} :
    bytesOffsetOf parent child = some offset ↔
      parent.1 ≤ child.1 ∧ child.2 ≤ parent.2 ∧ offset = child.1 - parent.1 := by
  rw [bytesOffsetOf]
  split_ifs with h
  · exact ⟨nofun, fun h' => by omega⟩
  · rw [Option.some.injEq]
    omega

/-! ### Fields lie in their records -/

variable {w : View}

theorem mem_of_fieldNamed {fields : List (List Char × View)} {name : String}
    (h : fieldNamed fields name = some (some w)) : ∃ key, (key, w) ∈ fields := by
  rw [fieldNamed] at h
  split at h
  · exact absurd (Option.some.inj h) nofun
  · rename_i key w' hfilter
    obtain rfl : w' = w := Option.some.inj (Option.some.inj h)
    have hmem : (key, w') ∈ fields.filter fun f => f.1 = name.toList := by
      rw [hfilter]
      exact List.mem_singleton.2 rfl
    exact ⟨key, List.mem_of_mem_filter hmem⟩
  · exact absurd h nofun

variable {ws : List (Option View)}

theorem mem_of_mapM_fieldNamed {fields : List (List Char × View)} {names : List String}
    (h : names.mapM (fieldNamed fields) = some ws)
    (hw : some w ∈ ws) : ∃ key, (key, w) ∈ fields := by
  induction names generalizing ws with
  | nil =>
    obtain rfl : [] = ws := Option.some.inj h
    exact absurd hw List.not_mem_nil
  | cons name names ih =>
    rw [List.mapM_cons, Option.bind_eq_bind, Option.bind_eq_some_iff] at h
    obtain ⟨first, hfirst, h⟩ := h
    rw [Option.bind_eq_bind, Option.bind_eq_some_iff] at h
    obtain ⟨rest, hrest, h⟩ := h
    obtain rfl : first :: rest = ws := Option.some.inj h
    rcases List.mem_cons.1 hw with rfl | hw
    · exact mem_of_fieldNamed hfirst
    · exact ih hrest hw

variable {v : View}

/-- The fields of a record are values in it. -/
theorem mem_elems_of_structViews {names : List String}
    (h : structViews names v = some ws) (hw : some w ∈ ws) : ∃ lead, (lead, w) ∈ v.elems := by
  rw [structViews] at h
  split at h
  · rename_i hfields
    obtain ⟨key, hkey⟩ := mem_of_mapM_fieldNamed h hw
    exact View.mem_elems_of_fields hfields hkey
  · rename_i hitems
    split_ifs at h
    obtain rfl := Option.some.inj h
    obtain ⟨i, -, hi⟩ := List.mem_map.1 hw
    exact View.mem_elems_of_items hitems (List.mem_of_getElem? hi)
  · exact absurd h nofun

theorem eq_of_optRaw {w : Option View} (h : optRaw w = some v) : w = some v := by
  rw [optRaw, Option.bind_eq_some_iff] at h
  obtain ⟨v', rfl, h⟩ := h
  split at h
  · split_ifs at h
    exact h
  · exact h

theorem mem_of_bind_id {i : ℕ} (h : ws[i]?.bind id = some v) :
    some v ∈ ws := by
  obtain ⟨w, hw, rfl⟩ := Option.bind_eq_some_iff.1 h
  exact List.mem_of_getElem? hw

theorem IsBlockField.mem_elems {block field : View} (h : IsBlockField block field) :
    ∃ lead, (lead, field) ∈ block.elems := by
  obtain ⟨header, hheader, htext⟩ := h
  rw [textField] at htext
  split_ifs at htext
  · rw [blockHeader] at hheader
    obtain ⟨fields, hfields, h⟩ := Option.bind_eq_some_iff.1 hheader
    obtain ⟨type, -, h⟩ := Option.bind_eq_some_iff.1 h
    obtain ⟨toolUseId, -, h⟩ := Option.bind_eq_some_iff.1 h
    obtain rfl := Option.some.inj h
    exact mem_elems_of_structViews hfields (mem_of_bind_id (eq_of_optRaw (Except.ok.inj htext)))
  · obtain ⟨fields, hfields, h⟩ := orError_bind_eq_ok.1 htext
    exact mem_elems_of_structViews hfields (mem_of_bind_id (eq_of_optRaw (Except.ok.inj h)))
  · exact absurd (Except.ok.inj htext) nofun

variable {message : View}

theorem mem_elems_of_contentView {message content : View} (h : contentView message = some (some content)) :
    ∃ lead, (lead, content) ∈ message.elems := by
  rw [contentView] at h
  split at h
  · rename_i w hw
    obtain rfl := eq_of_optRaw (Option.some.inj h)
    exact mem_elems_of_structViews hw (List.mem_singleton.2 rfl)
  · exact absurd h nofun

/-- The strings of a field are strings of its message. -/
theorem IsMessageField.strings_subset {message field : View} (h : IsMessageField message field) :
    field.strings ⊆ message.strings := by
  obtain ⟨content, hcontent, h⟩ := h
  obtain ⟨lead, hlead⟩ := mem_elems_of_contentView hcontent
  rintro x hx
  refine View.mem_strings_of_mem_elems hlead ?_
  rcases h with rfl | ⟨blocks, block, hblocks, hblock, h⟩
  · exact hx
  · obtain ⟨lead', hlead'⟩ := h.mem_elems
    obtain ⟨lead'', hlead''⟩ := View.mem_elems_of_items hblocks hblock
    exact View.mem_strings_of_mem_elems hlead'' (View.mem_strings_of_mem_elems hlead' hx)

variable {body : Body}

theorem mem_elems_of_messageViews {messages : List View}
    (h : messageViews body = some messages) (hmem : message ∈ messages) {x : ℕ × List Char}
    (hx : x ∈ message.strings) : x ∈ body.view.strings := by
  rw [messageViews] at h
  split at h
  · rename_i w hw
    obtain ⟨lead, hlead⟩ := View.mem_elems_of_items h hmem
    obtain ⟨lead', hlead'⟩ := mem_elems_of_structViews hw (List.mem_singleton.2 rfl)
    exact View.mem_strings_of_mem_elems hlead' (View.mem_strings_of_mem_elems hlead hx)
  · exact absurd h nofun

theorem IsField.strings_subset {i : ℕ} {field : View} (h : IsField body i field) :
    field.strings ⊆ body.view.strings := by
  obtain ⟨messages, message, hmessages, hmessage, h⟩ := h
  rintro x hx
  exact mem_elems_of_messageViews hmessages (List.mem_of_getElem? hmessage) (h.strings_subset hx)

theorem pairwise_messageViews {messages : List View} (h : messageViews body = some messages) :
    messages.Pairwise fun a b => a.stop ≤ b.start := by
  rw [messageViews] at h
  split at h
  · exact View.pairwise_items h
  · exact absurd h nofun

/-! ### The texts of a plan -/

section

variable {R : Rules} {guards : List (String × ToolGuard)} {protectText : Bool}

/-- The guard of a block. -/
def blockGuard (guards : List (String × ToolGuard)) (block : View) (header : BlockHeader) :
    Option ToolGuard :=
  if blockTypeOf block header = "tool_result" then header.toolUseId.bind (guardFor guards) else none

/-- The field of a block that holds its text, within the block. -/
structure TextOf (block : View) (header : BlockHeader) (text : List Char) (range : ℕ × ℕ) (field : View) :
    Prop where
  reads : textField block header (blockTypeOf block header) = .ok (some field)
  le_start : block.start ≤ field.start
  stop_le : field.stop ≤ block.stop
  holds : Says field text
  range_eq : range = field.span

/-- A block of which the text may be replaced: nothing holds it back, and its guard decides whether it may
only be folded. -/
structure Slotted (R : Rules) (guards : List (String × ToolGuard)) (block : View) (header : BlockHeader)
    (kind : SlotKind) (text : List Char) (range : ℕ × ℕ) : Prop where
  head : blockHeader block = some header
  field : ∃ field, TextOf block header text range field
  marker : Text.contains CTX_OFFLOAD_MARKER_PREFIX block.raw.text = false
  zone : HOT_ZONE_BLOCK_TYPES.contains (blockTypeOf block header) = false
  guard : guardExclusion (blockGuard guards block header) = none
  settled : settleGuard R (blockGuard guards block header) text = none
  kind_eq : kind = if blockGuard guards block header = some .losslessOnly
    then .losslessOnly (blockTypeOf block header) text range
    else .compressible (blockTypeOf block header) text range

variable {block : View} {kind : SlotKind}

theorem textOf_of_planText {guard : Option ToolGuard} {header : BlockHeader} {text : List Char} {range : ℕ × ℕ}
    (h : planText R guard block.start block header (blockTypeOf block header) = .ok kind)
    (htarget : kind.target? = some (text, range)) (htext : text ≠ []) :
    (∃ field, TextOf block header text range field) ∧ settleGuard R guard text = none ∧
      kind = if guard = some .losslessOnly then .losslessOnly (blockTypeOf block header) text range
        else .compressible (blockTypeOf block header) text range := by
  rw [planText] at h
  obtain ⟨field?, hfield, h⟩ := except_bind_eq_ok.1 h
  split at h
  · obtain rfl := Except.ok.inj h
    exact absurd (Prod.mk.inj (Option.some.inj htarget)).1.symm htext
  · rename_i field
    obtain ⟨offset, hoffset, h⟩ := orError_bind_eq_ok.1 h
    obtain ⟨hstart, hstop, rfl⟩ := bytesOffsetOf_eq_some.1 hoffset
    split at h
    · obtain rfl := Except.ok.inj h
      exact absurd (Prod.mk.inj (Option.some.inj htarget)).1.symm htext
    · rename_i escaped hescaped
      obtain ⟨unescaped, hunescaped, h⟩ := orError_bind_eq_ok.1 h
      have hrange : (block.start + (field.span.1 - block.span.1),
          block.start + (field.span.1 - block.span.1) + Text.utf8Length field.raw.text) = field.span := by
        have heq : block.start + (field.span.1 - block.span.1) = field.start :=
          Nat.add_sub_cancel' hstart
        rw [heq]
        rfl
      have hsays : Says field unescaped := ⟨escaped, hescaped, hunescaped⟩
      dsimp only at h
      rw [hrange] at h
      split at h
      · obtain rfl := Except.ok.inj h
        exact absurd htarget nofun
      · -- whether only folded or compressed too, the slot holds this text at this range
        rename_i hsettled
        have hkind : kind = if guard = some .losslessOnly
            then .losslessOnly (blockTypeOf block header) unescaped field.span
            else .compressible (blockTypeOf block header) unescaped field.span := by
          split_ifs at h ⊢
          · exact (Except.ok.inj h).symm
          · exact (Except.ok.inj h).symm
        have htarget' : kind.target? = some (unescaped, field.span) := by
          rw [hkind]
          split_ifs
          · rfl
          · rfl
        obtain ⟨rfl, rfl⟩ := Prod.mk.inj (Option.some.inj (htarget'.symm.trans htarget))
        exact ⟨⟨field, hfield, hstart, hstop, hsays, rfl⟩, hsettled, hkind⟩

theorem slotted_of_planBlock {text : List Char} {range : ℕ × ℕ}
    (h : planBlock R guards protectText block.start block = .ok kind)
    (htarget : kind.target? = some (text, range)) (htext : text ≠ []) :
    ∃ header, Slotted R guards block header kind text range := by
  rw [planBlock] at h
  obtain ⟨header, hheader, h⟩ := orError_bind_eq_ok.1 h
  dsimp only at h
  split at h
  · obtain rfl := Except.ok.inj h
    exact absurd htarget nofun
  · split at h
    · obtain rfl := Except.ok.inj h
      exact absurd htarget nofun
    · rename_i hmarker
      split at h
      · obtain rfl := Except.ok.inj h
        exact absurd htarget nofun
      · rename_i hguard
        split at h
        · obtain rfl := Except.ok.inj h
          exact absurd htarget nofun
        · rename_i hzone
          obtain ⟨hfield, hsettled, hkind⟩ := textOf_of_planText h htarget htext
          exact ⟨header, hheader, hfield, Bool.eq_false_iff.2 hmarker, Bool.eq_false_iff.2 hzone, hguard,
            hsettled, hkind⟩

/-- The text of a block, if it may be replaced, is that of a field of the block. -/
theorem planned_of_planBlock (h : planBlock R guards protectText block.start block = .ok kind) :
    Planned (fun field => IsBlockField block field ∧ block.start ≤ field.start ∧ field.stop ≤ block.stop)
      kind := by
  intro text range htarget htext
  obtain ⟨header, hslotted⟩ := slotted_of_planBlock h htarget htext
  obtain ⟨field, hfield⟩ := hslotted.field
  exact ⟨field, ⟨⟨header, hslotted.head, hfield.reads⟩, hfield.le_start, hfield.stop_le⟩, hfield.holds,
    hfield.range_eq⟩

/-- The slot of a block of a content. -/
structure PlannedFrom (R : Rules) (guards : List (String × ToolGuard)) (protectText : Bool) (content : View)
    (block : View × ℕ) (slot : PlanSlot) : Prop where
  index : slot.blockIndex = block.2
  le_start : content.start ≤ block.1.start
  stop_le : block.1.stop ≤ content.stop
  plan : planBlock R guards protectText block.1.start block.1 = .ok slot.kind

variable {content : View} {slots : List PlanSlot}

theorem forall₂_planBlocks {blocks : List (View × ℕ)}
    (h : planBlocks R guards protectText content.start content blocks = .ok slots) :
    List.Forall₂ (PlannedFrom R guards protectText content) blocks slots := by
  induction blocks generalizing slots with
  | nil =>
    obtain rfl := Except.ok.inj h
    exact List.Forall₂.nil
  | cons entry blocks ih =>
    obtain ⟨block, i⟩ := entry
    rw [planBlocks] at h
    obtain ⟨offset, hoffset, h⟩ := orError_bind_eq_ok.1 h
    obtain ⟨kind, hkind, h⟩ := except_bind_eq_ok.1 h
    obtain ⟨rest, hrest, h⟩ := except_bind_eq_ok.1 h
    obtain rfl := Except.ok.inj h
    obtain ⟨hstart, hstop, rfl⟩ := bytesOffsetOf_eq_some.1 hoffset
    have heq : content.start + (block.span.1 - content.span.1) = block.start := Nat.add_sub_cancel' hstart
    rw [heq] at hkind
    exact List.Forall₂.cons ⟨rfl, hstart, hstop, hkind⟩ (ih hrest)

theorem SlotsFit.mono {lo lo' hi hi' : ℕ} (h : SlotsFit lo hi slots)
    (hlo : lo' ≤ lo) (hhi : hi ≤ hi') : SlotsFit lo' hi' slots := by
  induction slots generalizing lo lo' with
  | nil => exact Nat.le_trans hlo (Nat.le_trans h hhi)
  | cons slot slots ih =>
    obtain ⟨mid, hmid, hrest, hplanned⟩ := h
    refine ⟨mid, Nat.le_trans hlo hmid, ih hrest (Nat.le_refl _), hplanned.imp ?_⟩
    rintro field ⟨hstart, hstop⟩
    exact ⟨Nat.le_trans hlo hstart, hstop⟩

theorem slotsFit_of_forall₂ {lo : ℕ} {blocks : List (View × ℕ)}
    (h : List.Forall₂ (PlannedFrom R guards protectText content) blocks slots)
    (hpair : (blocks.map Prod.fst).Pairwise fun a b => a.stop ≤ b.start)
    (hlo : ∀ block ∈ blocks, lo ≤ block.1.start) (hle : lo ≤ content.stop) :
    SlotsFit lo content.stop slots := by
  induction h generalizing lo with
  | nil => exact hle
  | cons hhead hrest ih =>
    rename_i block slot blocks slots
    rw [List.map_cons, List.pairwise_cons] at hpair
    have hstart : lo ≤ block.1.start := hlo block List.mem_cons_self
    have hself : block.1.start ≤ block.1.stop := Nat.le_add_right _ _
    refine ⟨block.1.stop, Nat.le_trans hstart hself, ?_, ?_⟩
    · exact ih hpair.2 (fun b hb => hpair.1 b.1 (List.mem_map_of_mem hb)) hhead.stop_le
    · refine (planned_of_planBlock hhead.plan).imp ?_
      rintro field ⟨-, hfield, hfield'⟩
      exact ⟨Nat.le_trans hstart hfield, hfield'⟩

/-- The plan for a content has one slot, for the content as a string, or one slot for each block. -/
theorem planContent_cases (h : planContent R guards protectText content.start content = .ok slots) :
    (∃ slot, content.items? = none ∧ slots = [slot] ∧
      Planned (fun field => field = content) slot.kind) ∨
      ∃ blocks, content.items? = some blocks ∧
        List.Forall₂ (PlannedFrom R guards protectText content) blocks.zipIdx slots := by
  rw [planContent] at h
  split at h
  · rename_i escaped hescaped
    refine Or.inl ?_
    have hitems : content.items? = none := by
      obtain ⟨start, raw⟩ := content
      cases raw with
      | str escaped => rfl
      | token literal => exact absurd hescaped nofun
      | arr blank elems => exact absurd hescaped nofun
      | obj blank elems => exact absurd hescaped nofun
    split_ifs at h
    · obtain rfl := Except.ok.inj h
      exact ⟨_, hitems, rfl, planned_excluded⟩
    · obtain ⟨unescaped, hunescaped, h⟩ := orError_bind_eq_ok.1 h
      obtain rfl := Except.ok.inj h
      refine ⟨_, hitems, rfl, ?_⟩
      rintro text range htarget -
      obtain ⟨rfl, rfl⟩ := Prod.mk.inj (Option.some.inj htarget)
      exact ⟨content, rfl, ⟨escaped, hescaped, hunescaped⟩, rfl⟩
  · obtain ⟨blocks, hblocks, h⟩ := orError_bind_eq_ok.1 h
    exact Or.inr ⟨blocks, hblocks, forall₂_planBlocks h⟩

/-- The plan for a message is that for its content. -/
theorem planMessage_cases (h : planMessage R body.span guards protectText message = .ok slots) :
    (contentView message = some none ∧ slots = []) ∨
      ∃ content, contentView message = some (some content) ∧ message.start ≤ content.start ∧
        content.stop ≤ message.stop ∧ planContent R guards protectText content.start content = .ok slots := by
  rw [planMessage] at h
  obtain ⟨content?, hcontent, h⟩ := orError_bind_eq_ok.1 h
  split at h
  · obtain rfl := Except.ok.inj h
    exact Or.inl ⟨hcontent, rfl⟩
  · rename_i content
    obtain ⟨inMessage, hinMessage, h⟩ := orError_bind_eq_ok.1 h
    obtain ⟨inBody, hinBody, h⟩ := orError_bind_eq_ok.1 h
    obtain ⟨hstart, hstop, rfl⟩ := bytesOffsetOf_eq_some.1 hinMessage
    obtain ⟨-, -, rfl⟩ := bytesOffsetOf_eq_some.1 hinBody
    refine Or.inr ⟨content, hcontent, hstart, hstop, ?_⟩
    have heq : message.span.1 - body.span.1 + (content.span.1 - message.span.1) = content.start :=
      Nat.add_sub_cancel' hstart
    rw [heq] at h
    exact h

/-- The plan for a message: its slots stand one behind the other within it, and their texts are those of
its fields. -/
theorem fits_of_planMessage (h : planMessage R body.span guards protectText message = .ok slots) :
    SlotsFit message.start message.stop slots ∧
      ∀ slot ∈ slots, Planned (IsMessageField message) slot.kind := by
  rcases planMessage_cases h with ⟨-, rfl⟩ | ⟨content, hcontent, hstart, hstop, h⟩
  · exact ⟨Nat.le_add_right _ _, fun slot hslot => absurd hslot List.not_mem_nil⟩
  have hself : content.start ≤ content.stop := Nat.le_add_right _ _
  rcases planContent_cases h with ⟨slot, -, rfl, hplanned⟩ | ⟨blocks, hblocks, hforall⟩
  · refine ⟨⟨content.stop, Nat.le_trans hstart hself, hstop, hplanned.imp ?_⟩, ?_⟩
    · rintro field rfl
      exact ⟨hstart, Nat.le_refl _⟩
    · rintro slot' hslot'
      obtain rfl := List.mem_singleton.1 hslot'
      exact hplanned.imp fun field hfield => ⟨content, hcontent, Or.inl hfield⟩
  · refine ⟨(slotsFit_of_forall₂ hforall ?_ ?_ hself).mono hstart hstop, ?_⟩
    · rw [List.zipIdx_map_fst]
      exact View.pairwise_items hblocks
    · rintro block hblock
      obtain ⟨slot, -, hslot⟩ := exists_mem_of_forall₂ hforall hblock
      exact hslot.le_start
    · rintro slot hslot
      obtain ⟨⟨block, i⟩, hblock, hplan⟩ := exists_mem_of_forall₂ hforall.flip hslot
      refine (planned_of_planBlock hplan.plan).imp ?_
      rintro field ⟨hfield, -, -⟩
      exact ⟨content, hcontent,
        Or.inr ⟨blocks, block, hblocks, List.fst_mem_of_mem_zipIdx hblock, hfield⟩⟩

end

end Headroom.LiveZone
