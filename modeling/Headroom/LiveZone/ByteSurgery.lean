import Headroom.LiveZone.Rewrites

/-!
# A pass is surgery on the bytes of a body

What a pass changes in a body is a set of string fields of messages of the user. Each is replaced by a
string that costs fewer tokens, and the bytes between them are copied. The bytes around the value of the
body are another matter: the result is read as a value again, and a value has no blanks around it.

## Main statements

* `surgery_iff` : a pass is surgery if the body has no blanks around its value, and only then.
-/

open Foundation Headroom.Transforms

namespace Headroom.LiveZone

/-- A field of a message, what it said and what it says now. -/
structure Replaced where
  field : View
  old : List Char
  new : List Char

/-- The edit of the bytes that replaces a field. -/
def Replaced.edit (r : Replaced) : Edit UInt8 := replacementOf r.field.span r.new

/-- The texts that are put in the place of fields, by the byte at which the field begins. -/
def newTexts (rs : List Replaced) (start : ℕ) : Option (List Char) :=
  (rs.find? fun r => r.field.start = start).map Replaced.new

/-- A body changed by replacing string fields of messages of the user from an index on: the fields are
disjoint, each costs fewer tokens, and every other byte and value is as it was. -/
structure Surgery {σ : Type} (E : Engine σ) (body : Body) (messages : List Json) (floor : ℕ)
    (newBody : List UInt8) (rs : List Replaced) : Prop where
  field : ∀ r ∈ rs, ∃ i message, floor ≤ i ∧ messages[i]? = some message ∧ roleOf message = some "user" ∧
    IsField body i r.field ∧ Says r.field r.old
  disjoint : rs.Pairwise fun a b => a.field.stop ≤ b.field.start
  fewer : ∀ r ∈ rs, E.countText r.new < E.countText r.old
  bytes : newBody = splice 0 body.bytes (rs.map Replaced.edit)
  json : ∃ body' : Body, body'.bytes = newBody ∧ body'.valid ∧
    body'.root.value = body.root.valueWith (newTexts rs) body.view.start

/-! ### Replaced fields are edits of the written value -/

/-- Replaced fields that are strings of a body, one behind the other. -/
structure Held (body : Body) (rs : List Replaced) : Prop where
  mem : ∀ r ∈ rs, r.field.strings ⊆ body.view.strings ∧ ∃ text, Says r.field text
  disjoint : rs.Pairwise fun a b => a.field.stop ≤ b.field.start

theorem span_of_string {v : View} {escaped : List Char} (h : v.string? = some escaped) :
    v.span = (v.start, v.start + (Raw.quoted escaped).length) := by
  obtain ⟨start, raw⟩ := v
  cases raw with
  | str escaped' =>
    obtain rfl := Option.some.inj h
    rw [Raw.quoted, Text.length_encode]
    rfl
  | token literal => exact absurd h (by rintro ⟨⟩)
  | arr blank elems => exact absurd h (by rintro ⟨⟩)
  | obj blank elems => exact absurd h (by rintro ⟨⟩)

theorem Says.start_lt_stop {v : View} {text : List Char} (h : Says v text) : v.start < v.stop := by
  obtain ⟨escaped, hescaped, -⟩ := h
  have hstop : v.stop = v.start + (Raw.quoted escaped).length := congrArg Prod.snd (span_of_string hescaped)
  have := Raw.length_quoted_pos escaped
  omega

section

variable {body : Body} {rs : List Replaced}

theorem Held.pairwise_start (h : Held body rs) : rs.Pairwise fun a b => a.field.start < b.field.start := by
  refine h.disjoint.imp_of_mem ?_
  intro a b ha _ hab
  obtain ⟨text, htext⟩ := (h.mem a ha).2
  exact Nat.lt_of_lt_of_le htext.start_lt_stop hab

theorem newTexts_of_mem (h : rs.Pairwise fun a b => a.field.start < b.field.start) {r : Replaced}
    (hr : r ∈ rs) : newTexts rs r.field.start = some r.new := by
  induction rs with
  | nil => exact absurd hr List.not_mem_nil
  | cons first rs ih =>
    rw [List.pairwise_cons] at h
    rw [newTexts, List.find?_cons]
    rcases List.mem_cons.1 hr with rfl | hr
    · rw [decide_eq_true rfl]
      rfl
    · rw [decide_eq_false (Nat.ne_of_lt (h.1 r hr))]
      exact ih h.2 hr

theorem mem_of_newTexts {start : ℕ} {new : List Char} (h : newTexts rs start = some new) :
    ∃ r ∈ rs, r.field.start = start ∧ r.new = new := by
  obtain ⟨r, hr, rfl⟩ := Option.map_eq_some_iff.1 h
  exact ⟨r, List.mem_of_find?_eq_some hr, by simpa using List.find?_some hr, rfl⟩

theorem Held.mem_map_edit (h : Held body rs) (x : Edit UInt8) :
    x ∈ rs.map Replaced.edit ↔ x ∈ Raw.edits (newTexts rs) body.view.strings := by
  rw [List.mem_map, Raw.mem_edits]
  refine ⟨?_, ?_⟩
  · rintro ⟨r, hr, rfl⟩
    obtain ⟨hstrings, text, escaped, hescaped, -⟩ := h.mem r hr
    refine ⟨r.field.start, escaped, r.new, hstrings (View.mem_strings_of_string hescaped),
      newTexts_of_mem h.pairwise_start hr, ?_⟩
    rw [Replaced.edit, replacementOf, span_of_string hescaped]
  · rintro ⟨start, escaped, new, hmem, hnew, rfl⟩
    obtain ⟨r, hr, rfl, rfl⟩ := mem_of_newTexts hnew
    obtain ⟨hstrings, text, escaped', hescaped, -⟩ := h.mem r hr
    obtain rfl := Raw.strings_inj (hstrings (View.mem_strings_of_string hescaped)) hmem
    refine ⟨r, hr, ?_⟩
    rw [Replaced.edit, replacementOf, span_of_string hescaped]

theorem Held.sorted_edits (h : Held body rs) :
    (rs.map Replaced.edit).insertionSort Edit.Before = Raw.edits (newTexts rs) body.view.strings := by
  refine Raw.sorted_edits_eq ?_ h.mem_map_edit
  refine List.Nodup.of_map Edit.start ?_
  rw [List.map_map]
  exact List.pairwise_map.2 (h.pairwise_start.imp fun hlt => Nat.ne_of_lt hlt)

/-- Replacing fields is an edit of the written value of the body. -/
theorem Held.bytes (h : Held body rs) :
    splice 0 body.bytes ((rs.map Replaced.edit).insertionSort Edit.Before) =
      Text.encode body.before ++ Text.encode (body.view.swap (newTexts rs)).text ++
        Text.encode body.after := by
  have hedited := Raw.edited_around 0 body.before body.after
    (Raw.edited_swap (newTexts rs) (0 + Text.utf8Length body.before) body.root)
  rw [Nat.zero_add] at hedited
  rw [h.sorted_edits]
  exact hedited.splice_eq

theorem Held.sorted (h : Held body rs) :
    (rs.map Replaced.edit).insertionSort Edit.Before = rs.map Replaced.edit := by
  refine List.Pairwise.insertionSort_eq ?_
  exact List.pairwise_map.2 (h.pairwise_start.imp Nat.le_of_lt)

end

/-! ### Blanks around the value -/

theorem isBlankByte_of_isBlank {text : List Char} (h : isBlank text) :
    ∀ b ∈ Text.encode text, isBlankByte b = true := by
  intro b hb
  obtain ⟨c, hc, hb⟩ := List.mem_flatMap.1 hb
  have hblank := List.all_eq_true.1 h c hc
  simp only [Bool.or_eq_true, beq_iff_eq] at hblank
  rcases hblank with ((rfl | rfl) | rfl) | rfl
  all_goals
    obtain rfl := List.mem_singleton.1 hb
    rfl

theorem rawValueFromString_bracketed {before after : List UInt8} (hbefore : ∀ b ∈ before, isBlankByte b)
    (hafter : ∀ b ∈ after, isBlankByte b) {first last : UInt8} (mid : List UInt8)
    (hfirst : isBlankByte first = false) (hlast : isBlankByte last = false) :
    rawValueFromString (before ++ (first :: mid ++ [last]) ++ after) = first :: mid ++ [last] := by
  have hfront : (before ++ (first :: mid ++ [last]) ++ after).dropWhile isBlankByte =
      first :: mid ++ [last] ++ after := by
    rw [List.append_assoc, List.dropWhile_append_of_pos hbefore]
    exact List.dropWhile_cons_of_neg (Bool.eq_false_iff.1 hfirst)
  have hback : (first :: mid ++ [last] ++ after).reverse.dropWhile isBlankByte =
      (first :: mid ++ [last]).reverse := by
    rw [List.reverse_append, List.dropWhile_append_of_pos fun b hb => hafter b (List.mem_reverse.1 hb),
      List.reverse_append]
    exact List.dropWhile_cons_of_neg (Bool.eq_false_iff.1 hlast)
  rw [rawValueFromString, hfront, hback, List.reverse_reverse]

theorem eq_nil_of_bracketed {before text after : List UInt8} (hbefore : ∀ b ∈ before, isBlankByte b)
    (hafter : ∀ b ∈ after, isBlankByte b) {first last : UInt8} {mid : List UInt8}
    (hfirst : isBlankByte first = false) (hlast : isBlankByte last = false)
    (h : first :: mid ++ [last] = before ++ text ++ after) : before = [] ∧ after = [] := by
  refine ⟨?_, ?_⟩
  · cases before with
    | nil => rfl
    | cons b before =>
      obtain ⟨rfl, -⟩ := List.cons.inj h
      exact absurd (hbefore first List.mem_cons_self) (Bool.eq_false_iff.1 hfirst)
  · rcases List.eq_nil_or_concat after with rfl | ⟨after, b, rfl⟩
    · rfl
    · rw [List.concat_eq_append, ← List.append_assoc] at h
      obtain ⟨-, hb⟩ := List.append_inj' h rfl
      obtain ⟨rfl, -⟩ := List.cons.inj hb
      refine absurd (hafter last ?_) (Bool.eq_false_iff.1 hlast)
      rw [List.concat_eq_append]
      exact List.mem_append_right _ (List.mem_singleton.2 rfl)

variable {body : Body} {messages : List Json}

theorem valid_of_parsedMessages (h : parsedMessages body = .ok messages) :
    (isBlank body.before ∧ body.root.valid) ∧ isBlank body.after := by
  rw [parsedMessages] at h
  split_ifs at h with hvalid
  rw [Bool.not_eq_true', Bool.not_eq_false, Body.valid, Bool.and_eq_true, Bool.and_eq_true] at hvalid
  exact hvalid

theorem blanks_of_parsedMessages (h : parsedMessages body = .ok messages) :
    isBlank body.before ∧ isBlank body.after :=
  ⟨(valid_of_parsedMessages h).1.1, (valid_of_parsedMessages h).2⟩

theorem obj_of_parsedMessages (h : parsedMessages body = .ok messages) :
    ∃ blank elems, body.root = .obj blank elems := by
  obtain ⟨before, root, after⟩ := body
  rw [parsedMessages] at h
  split_ifs at h
  split at h
  · exact absurd h nofun
  · rename_i items hitems
    cases root with
    | obj blank elems => exact ⟨blank, elems, rfl⟩
    | str escaped => exact absurd hitems nofun
    | arr blank elems => exact absurd hitems nofun
    | token literal =>
      refine absurd hitems ?_
      show (literalValue literal).getArr? "messages" ≠ some items
      rw [literalValue]
      split_ifs
      all_goals exact nofun

theorem encode_swap_bracketed (h : parsedMessages body = .ok messages) (e : ℕ → Option (List Char)) :
    ∃ mid, Text.encode (body.view.swap e).text = 123 :: mid ++ [125] := by
  obtain ⟨blank, elems, hroot⟩ := obj_of_parsedMessages h
  rw [View.swap, Body.view, hroot, Raw.swap, Raw.text, List.cons_append, List.cons_append,
    ← List.singleton_append, Text.encode_append, Text.encode_append]
  exact ⟨_, rfl⟩

theorem Held.rawValue {rs : List Replaced} (h : Held body rs) (hmessages : parsedMessages body = .ok messages) :
    rawValueFromString (applyReplacements body.bytes (rs.map Replaced.edit)) =
      Text.encode (body.view.swap (newTexts rs)).text := by
  obtain ⟨hbefore, hafter⟩ := blanks_of_parsedMessages hmessages
  obtain ⟨mid, hmid⟩ := encode_swap_bracketed hmessages (newTexts rs)
  rw [applyReplacements, h.bytes, hmid]
  exact rawValueFromString_bracketed (isBlankByte_of_isBlank hbefore) (isBlankByte_of_isBlank hafter) mid
    rfl rfl

/-! ### Surgery -/

section

variable {σ : Type} {E : Engine σ} {config : LiveZoneConfig}

variable {floor : ℕ}

theorem Surgery.held {newBody : List UInt8} {rs : List Replaced}
    (h : Surgery E body messages floor newBody rs) : Held body rs := by
  refine ⟨fun r hr => ?_, h.disjoint⟩
  obtain ⟨i, message, -, -, -, hfield, hsays⟩ := h.field r hr
  exact ⟨hfield.strings_subset, r.old, hsays⟩

/-- What the replacements of a pass are: each replaces a field of a message of the user, and they stand
one behind the other. -/
structure Surgical (E : Engine σ) (body : Body) (messages : List Json) (floor : ℕ)
    (replacements : List (Edit UInt8)) : Prop where
  field : ∀ x ∈ replacements, ∃ r : Replaced, r.edit = x ∧ E.countText r.new < E.countText r.old ∧
    ∃ i message, floor ≤ i ∧ messages[i]? = some message ∧ roleOf message = some "user" ∧
      IsField body i r.field ∧ Says r.field r.old
  disjoint : replacements.Pairwise fun x y => x.stop ≤ y.start

theorem Surgical.exists_replaced {replacements : List (Edit UInt8)}
    (h : Surgical E body messages floor replacements) :
    ∃ rs : List Replaced, rs.map Replaced.edit = replacements ∧ Held body rs ∧
      ∀ r ∈ rs, E.countText r.new < E.countText r.old ∧
        ∃ i message, floor ≤ i ∧ messages[i]? = some message ∧ roleOf message = some "user" ∧
          IsField body i r.field ∧ Says r.field r.old := by
  have hrs : ∃ rs : List Replaced, rs.map Replaced.edit = replacements ∧
      ∀ r ∈ rs, E.countText r.new < E.countText r.old ∧
        ∃ i message, floor ≤ i ∧ messages[i]? = some message ∧ roleOf message = some "user" ∧
          IsField body i r.field ∧ Says r.field r.old := by
    have hfield := h.field
    clear h
    induction replacements with
    | nil => exact ⟨[], rfl, fun r hr => absurd hr List.not_mem_nil⟩
    | cons x replacements ih =>
      obtain ⟨r, hr, hgood⟩ := hfield x List.mem_cons_self
      obtain ⟨rs, hrs, hall⟩ := ih fun y hy => hfield y (List.mem_cons_of_mem _ hy)
      refine ⟨r :: rs, by rw [List.map_cons, hr, hrs], ?_⟩
      rintro r' hr'
      rcases List.mem_cons.1 hr' with rfl | hr'
      · exact hgood
      · exact hall r' hr'
  obtain ⟨rs, rfl, hall⟩ := hrs
  refine ⟨rs, rfl, ⟨fun r hr => ?_, List.pairwise_map.1 h.disjoint⟩, hall⟩
  obtain ⟨-, i, message, -, -, -, hfield, hsays⟩ := hall r hr
  exact ⟨hfield.strings_subset, r.old, hsays⟩

/-- The outcome of surgical replacements is surgery where the body is its value, and only there. -/
theorem Surgical.iff {replacements : List (Edit UInt8)}
    (h : Surgical E body messages floor replacements) (hmessages : parsedMessages body = .ok messages) :
    (∃ rs, Surgery E body messages floor
      (rawValueFromString (applyReplacements body.bytes replacements)) rs) ↔
        body.before = [] ∧ body.after = [] := by
  obtain ⟨rs, rfl, hheld, hall⟩ := h.exists_replaced
  rw [hheld.rawValue hmessages]
  refine ⟨?_, ?_⟩
  · rintro ⟨rs', hsurgery⟩
    have hbytes := hsurgery.bytes
    rw [← hsurgery.held.sorted, hsurgery.held.bytes] at hbytes
    obtain ⟨mid, hmid⟩ := encode_swap_bracketed hmessages (newTexts rs)
    rw [hmid] at hbytes
    obtain ⟨hbefore, hafter⟩ := blanks_of_parsedMessages hmessages
    obtain ⟨hbefore', hafter'⟩ := eq_nil_of_bracketed (isBlankByte_of_isBlank hbefore)
      (isBlankByte_of_isBlank hafter) rfl rfl hbytes
    exact ⟨Text.encode_eq_nil.1 hbefore', Text.encode_eq_nil.1 hafter'⟩
  · rintro ⟨hbefore, hafter⟩
    refine ⟨rs, fun r hr => (hall r hr).2, hheld.disjoint, fun r hr => (hall r hr).1, ?_, ?_⟩
    · rw [← hheld.sorted, hheld.bytes, hbefore, hafter]
      exact (List.append_nil _).symm
    · have hvalid := valid_of_parsedMessages hmessages
      refine ⟨⟨[], body.view.swap (newTexts rs), []⟩, ?_, ?_, Raw.valueWith_swap _ _ 0 _⟩
      · rw [Body.bytes, Body.text, List.nil_append, List.append_nil]
      · rw [Body.valid]
        dsimp only
        rw [View.swap, Raw.valid_swap _ _ body.view.raw hvalid.1.2]
        rfl

theorem exists_replaced_of_replaces {P : View → Prop} {ccrStore forString : Bool} {kind : SlotKind}
    {s s' : σ} {x : Edit UInt8} (h : Replaces E config ccrStore forString kind s x s')
    (hplanned : Planned P kind) :
    ∃ r : Replaced, r.edit = x ∧ E.countText r.new < E.countText r.old ∧ P r.field ∧ Says r.field r.old := by
  obtain ⟨text, range, new, htarget, htext, rfl, hcount, -⟩ := h.rewrite
  obtain ⟨field, hfield, hsays, rfl⟩ := hplanned text range htarget htext
  exact ⟨⟨field, text, new⟩, rfl, hcount, hfield, hsays⟩

variable {guards : List (String × ToolGuard)}

/-- A replacement for a slot of the plan for a message replaces a field of the message. -/
theorem exists_replaced_of_plan {protectText ccrStore forString : Bool}
    {i : ℕ} {plan : List PlanSlot} {slot : PlanSlot} {s s' : σ} {x : Edit UInt8}
    (hplan : planBlockReplacements E.rules body i guards protectText = .ok plan) (hslot : slot ∈ plan)
    (h : Replaces E config ccrStore forString slot.kind s x s') :
    ∃ r : Replaced, r.edit = x ∧ E.countText r.new < E.countText r.old ∧
      IsField body i r.field ∧ Says r.field r.old := by
  obtain ⟨views, view, hviews, hview, hplan⟩ := planBlockReplacements_eq_ok.1 hplan
  refine exists_replaced_of_replaces h (((fits_of_planMessage hplan).2 slot hslot).imp ?_)
  exact fun field hfield => ⟨views, view, hviews, hview, hfield⟩

theorem surgical_runSlots {protectText ccrStore forString : Bool}
    {floor i : ℕ} {message : Json} {plan : List PlanSlot} {s : σ} (hfloor : floor ≤ i)
    (hmessage : messages[i]? = some message) (huser : roleOf message = some "user")
    (hplan : planBlockReplacements E.rules body i guards protectText = .ok plan) :
    Surgical E body messages floor (runSlots E ccrStore forString config i plan s).replacements := by
  refine ⟨fun x hx => ?_, ?_⟩
  · obtain ⟨slot, hslot, s, s', h⟩ := mem_runSlots hx
    obtain ⟨r, hr, hcount, hfield⟩ := exists_replaced_of_plan hplan hslot h
    exact ⟨r, hr, hcount, i, message, hfloor, hmessage, huser, hfield⟩
  · obtain ⟨views, view, -, -, hplan⟩ := planBlockReplacements_eq_ok.1 hplan
    exact (fits_runSlots (fits_of_planMessage hplan).1).pairwise

theorem surgical_runMessages {ccrStore : Bool} {s : σ} :
    Surgical E body messages 0
      (runMessages E body guards messages ccrStore config messages.zipIdx s).replacements := by
  refine ⟨fun x hx => ?_, ?_⟩
  · obtain ⟨message, i, plan, slot, hmem, huser, hplan, hslot, s, s', h⟩ := mem_runMessages hx
    obtain ⟨r, hr, hcount, hfield⟩ := exists_replaced_of_plan hplan hslot h
    exact ⟨r, hr, hcount, i, message, Nat.zero_le i, List.mem_zipIdx_iff_getElem?.1 hmem, huser, hfield⟩
  · cases hviews : messageViews body with
    | none =>
      -- without views of the messages no message has a plan
      refine List.pairwise_of_forall_mem_list fun x hx => ?_
      obtain ⟨_, _, _, _, -, -, hplan, -⟩ := mem_runMessages hx
      obtain ⟨views, view, hviews', -⟩ := planBlockReplacements_eq_ok.1 hplan
      exact absurd (hviews.symm.trans hviews') nofun
    | some views =>
      have hsorted : messages.zipIdx.Pairwise fun a b => a.2 < b.2 := by
        refine List.pairwise_map.1 ?_
        rw [List.zipIdx_map_snd]
        exact List.pairwise_lt_range' 1 Nat.one_pos
      have hfits : Edit.Fits 0 (views.map View.stop).sum
          (runMessages E body guards messages ccrStore config messages.zipIdx s).replacements := by
        refine fits_runMessages hviews hsorted (fun entry _ view hview => ⟨Nat.zero_le _, ?_⟩) (Nat.zero_le _)
        exact List.le_sum_of_mem (List.mem_map_of_mem (List.mem_of_getElem? hview))
      exact hfits.pairwise

/-- The replacements of a pass are surgical. -/
theorem surgical_pass (mode : Mode) (ccrStore : Bool) (s : σ) :
    Surgical E body messages mode.floor (mode.pass E body ccrStore config messages s).replacements := by
  cases mode with
  | all => exact surgical_runMessages
  | latest frozenMessageCount =>
    rw [Mode.pass]
    split
    · exact ⟨fun x hx => absurd hx List.not_mem_nil, List.Pairwise.nil⟩
    · rename_i target htarget
      obtain ⟨hfloor, message, hmessage, huser⟩ := findLatestUserMessageIndex_eq_some htarget
      split
      · exact ⟨fun x hx => absurd hx List.not_mem_nil, List.Pairwise.nil⟩
      · rename_i plan hplan
        exact surgical_runSlots hfloor hmessage huser hplan

/-- A pass is surgery on the bytes of a body if the body has no blanks around its value, and only then. -/
theorem surgery_iff {mode : Mode} {ccrStore : Bool} {s s' : σ} {newBody : List UInt8}
    {manifest : CompressionManifest}
    (h : mode.run E body ccrStore config s = .ok (.modified newBody manifest, s')) :
    (∃ messages rs, parsedMessages body = .ok messages ∧ Surgery E body messages mode.floor newBody rs) ↔
      body.before = [] ∧ body.after = [] := by
  obtain ⟨messages, hmessages, rfl, -⟩ := pass_of_run h
  rw [← (surgical_pass mode ccrStore s).iff hmessages]
  refine ⟨?_, ?_⟩
  · rintro ⟨messages', rs, hmessages', hsurgery⟩
    obtain rfl := Except.ok.inj (hmessages.symm.trans hmessages')
    exact ⟨rs, hsurgery⟩
  · rintro ⟨rs, hsurgery⟩
    exact ⟨messages, rs, hmessages, hsurgery⟩

end

def LiveZoneOutcome.isModified : LiveZoneOutcome → Bool
  | .modified _ _ => true
  | .noChange _ => false

theorem exists_of_modified {run : Except LiveZoneError (LiveZoneOutcome × Unit)}
    (h : run.toOption.any fun outcome => outcome.1.isModified) :
    ∃ newBody manifest, run = .ok (.modified newBody manifest, ()) := by
  rcases run with _ | ⟨_ | ⟨newBody, manifest⟩, _⟩
  · exact absurd h nofun
  · exact absurd h nofun
  · exact ⟨newBody, manifest, rfl⟩

/-- Rules under which every name stands for itself and no content is special. -/
def plainRules : Rules where
  toLowercase := id
  globMatches _ _ := false
  scriptInvokesRetrieve _ := false
  parseJson _ := none
  isReadCommand _ := false
  readOutputShouldBeProtected _ := false
  fencedShellCommand _ := false
  protectReads := false
  mcpResultMinChars := 0
  shellResultMinChars := 0

/-- An engine that takes every text for a configuration file, and every character for a token. -/
def foldingEngine : Engine Unit where
  rules := plainRules
  folds := ⟨id, id, id, id, id, none⟩
  detectContentNative _ := .structuredConfig
  countText := List.length
  computeKey _ := ""
  dispatch _ _ _ _ := (.noOp "" none, ())
  put _ _ _ := (true, ())

/-- The search tool is excluded. -/
def searchExcluded : LiveZoneConfig := ⟨⟨none, false⟩, ["Grep"], false⟩

/-- A call of the search tool and its result, six equal lines, with blanks behind the body. -/
def searchBody (after : List Char) : Body where
  before := []
  root := .obj [] [Raw.field "messages" (.arr [] [
    Raw.item (.obj [] [Raw.field "role" (Raw.string "assistant"),
      Raw.field "content" (.arr [] [Raw.item (.obj [] [Raw.field "type" (Raw.string "tool_use"),
        Raw.field "id" (Raw.string "call"), Raw.field "name" (Raw.string "Grep")])])]),
    Raw.item (.obj [] [Raw.field "role" (Raw.string "user"),
      Raw.field "content" (.arr [] [Raw.item (.obj [] [Raw.field "type" (Raw.string "tool_result"),
        Raw.field "tool_use_id" (Raw.string "call"), Raw.field "content" (.str (escape repeatedLines))])])])])]
  after := after

theorem modified_searchBody {after : List Char} (h : after = [] ∨ after = ['\n']) :
    ∃ newBody manifest, Mode.all.run foldingEngine (searchBody after) false searchExcluded () =
      .ok (.modified newBody manifest, ()) := by
  refine exists_of_modified ?_
  rcases h with rfl | rfl
  all_goals decide +kernel

/-- A body without blanks around its value is changed by surgery. -/
theorem surgery_iff_searchBody : ∃ newBody, ∃ messages rs,
    parsedMessages (searchBody []) = .ok messages ∧ Surgery foldingEngine (searchBody []) messages 0 newBody rs := by
  obtain ⟨newBody, manifest, h⟩ := modified_searchBody (Or.inl rfl)
  exact ⟨newBody, (surgery_iff h).2 ⟨rfl, rfl⟩⟩

/-- The line feed behind a body is lost when its last result is folded. -/
theorem not_surgery_searchBody : ∃ newBody manifest,
    Mode.all.run foldingEngine (searchBody ['\n']) false searchExcluded () =
      .ok (.modified newBody manifest, ()) ∧
    ¬∃ messages rs, parsedMessages (searchBody ['\n']) = .ok messages ∧
      Surgery foldingEngine (searchBody ['\n']) messages 0 newBody rs := by
  obtain ⟨newBody, manifest, h⟩ := modified_searchBody (Or.inr rfl)
  refine ⟨newBody, manifest, h, ?_⟩
  rintro ⟨messages, rs, hmessages, hsurgery⟩
  obtain ⟨messages', hmessages', rfl, -⟩ := pass_of_run h
  obtain rfl := Except.ok.inj (hmessages.symm.trans hmessages')
  exact absurd (((surgical_pass .all false ()).iff hmessages).1 ⟨rs, hsurgery⟩).2 nofun

end Headroom.LiveZone
