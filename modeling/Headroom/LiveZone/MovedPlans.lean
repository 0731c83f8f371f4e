import Headroom.Foundation.RawViews
import Headroom.LiveZone.PlannedSlots

/-!
# The plan for a message that stands elsewhere

The plan for a message depends on where the message stands only in the ranges of its texts, and on the
guards of a conversation only in those for the ids that its blocks answer.
-/

open Foundation

namespace Headroom.LiveZone

/-- The same slot with its text some bytes further on. -/
def SlotKind.shift (d : ℕ) : SlotKind → SlotKind
  | .compressible blockType text range => .compressible blockType text (d + range.1, d + range.2)
  | .stringContent text range => .stringContent text (d + range.1, d + range.2)
  | .losslessOnly blockType text range => .losslessOnly blockType text (d + range.1, d + range.2)
  | .excluded blockType reason => .excluded blockType reason

def PlanSlot.shift (d : ℕ) (slot : PlanSlot) : PlanSlot := { slot with kind := slot.kind.shift d }

def BlockHeader.shift (d : ℕ) (header : BlockHeader) : BlockHeader :=
  { header with content := header.content.map (View.shift d) }

/-! ### Records -/

theorem fieldNamed_map {α β : Type} (f : α → β) (fields : List (List Char × α)) (name : String) :
    fieldNamed (fields.map fun x => (x.1, f x.2)) name = (fieldNamed fields name).map (Option.map f) := by
  have hfilter : ((fields.map fun x => (x.1, f x.2)).filter fun x => x.1 = name.toList) =
      (fields.filter fun x => x.1 = name.toList).map fun x => (x.1, f x.2) := List.filter_map
  rw [fieldNamed, fieldNamed, hfilter]
  generalize (fields.filter fun x => x.1 = name.toList) = found
  rcases found with _ | ⟨⟨key, w⟩, _ | ⟨second, rest⟩⟩
  · rfl
  · rfl
  · rfl

theorem mapM_map {α β γ : Type} {f : α → Option β} {f' : α → Option γ} {g : β → γ}
    (h : ∀ a, f' a = (f a).map g) (as : List α) : as.mapM f' = (as.mapM f).map (List.map g) := by
  induction as with
  | nil => rfl
  | cons a as ih =>
    rw [List.mapM_cons, List.mapM_cons, ih, h]
    cases f a with
    | none => rfl
    | some b =>
      cases as.mapM f with
      | none => rfl
      | some bs => rfl

section

variable (d : ℕ)

theorem structViews_shift (names : List String) (v : View) :
    structViews names (v.shift d) = (structViews names v).map (List.map (Option.map (View.shift d))) := by
  rw [structViews, structViews, View.fields?_shift, View.items?_shift]
  cases v.fields? with
  | some fields => exact mapM_map (fieldNamed_map (View.shift d) fields) names
  | none =>
    cases v.items? with
    | none => rfl
    | some items =>
      dsimp only [Option.map_none, Option.map_some]
      rw [List.length_map]
      split_ifs
      · rw [Option.map_some, List.map_map]
        refine congrArg some (List.map_congr_left fun i _ => ?_)
        exact List.getElem?_map
      · rfl

theorem structViews_swap (e : ℕ → Option (List Char)) (names : List String) (start : ℕ) (v : View) :
    (structViews names ⟨start, v.swap e⟩).map (List.map (Option.map View.raw)) =
      (structViews names v).map (List.map (Option.map (View.swap e))) := by
  have hfields := v.fields?_swap e start
  have hitems := v.items?_swap e start
  rw [structViews, structViews]
  cases hfields' : (View.mk start (v.swap e)).fields? with
  | some fields' =>
    rw [hfields'] at hfields
    obtain ⟨fields, hv, hfields⟩ := Option.map_eq_some_iff.1 hfields.symm
    rw [hv, ← mapM_map (fieldNamed_map View.raw fields') names,
      ← mapM_map (fieldNamed_map (View.swap e) fields) names, hfields]
  | none =>
    rw [hfields'] at hfields
    rw [Option.map_eq_none_iff.1 hfields.symm]
    cases hitems' : (View.mk start (v.swap e)).items? with
    | none =>
      rw [hitems'] at hitems
      rw [Option.map_eq_none_iff.1 hitems.symm]
      rfl
    | some items' =>
      rw [hitems'] at hitems
      obtain ⟨items, hv, hitems⟩ := Option.map_eq_some_iff.1 hitems.symm
      have hlength : items'.length = items.length := by
        have h := congrArg List.length hitems
        rw [List.length_map, List.length_map] at h
        exact h.symm
      rw [hv]
      dsimp only
      rw [hlength]
      split_ifs
      · rw [Option.map_some, Option.map_some, List.map_map, List.map_map]
        refine congrArg some (List.map_congr_left fun i _ => ?_)
        have h : (items.map (View.swap e))[i]? = (items'.map View.raw)[i]? := congrArg (fun l => l[i]?) hitems
        rw [List.getElem?_map, List.getElem?_map] at h
        exact h.symm
      · rfl

theorem optRaw_shift (w : Option View) : optRaw (w.map (View.shift d)) = (optRaw w).map (View.shift d) := by
  cases w with
  | none => rfl
  | some w =>
    obtain ⟨start, raw⟩ := w
    cases raw with
    | token literal =>
      show (if literal = "null".toList then none else some _) =
        Option.map (View.shift d) (if literal = "null".toList then none else some _)
      split_ifs
      · rfl
      · rfl
    | str escaped => rfl
    | arr blank elems => rfl
    | obj blank elems => rfl

theorem optStr_shift (w : Option View) : optStr (w.map (View.shift d)) = optStr w := by
  rw [optStr, optStr, optRaw_shift]
  cases optRaw w with
  | none => rfl
  | some w => rfl

theorem getElem?_shift (ws : List (Option View)) (i : ℕ) :
    (ws.map (Option.map (View.shift d)))[i]?.bind id = (ws[i]?.bind id).map (View.shift d) := by
  rw [List.getElem?_map]
  cases ws[i]? with
  | none => rfl
  | some w => rfl

theorem blockHeader_shift (block : View) :
    blockHeader (block.shift d) = (blockHeader block).map (BlockHeader.shift d) := by
  rw [blockHeader, blockHeader, structViews_shift]
  cases structViews ["type", "content", "tool_use_id"] block with
  | none => rfl
  | some fields =>
    simp only [Option.map_some, Option.bind_eq_bind, Option.bind_some, getElem?_shift, optStr_shift,
      optRaw_shift]
    cases optStr (fields[0]?.bind id) with
    | none => rfl
    | some type =>
      cases optStr (fields[2]?.bind id) with
      | none => rfl
      | some toolUseId => rfl

theorem blockTypeOf_shift (block : View) (header : BlockHeader) :
    blockTypeOf (block.shift d) (header.shift d) = blockTypeOf block header := by
  have htext : blockHasStringTextField (block.shift d) = blockHasStringTextField block := by
    rw [blockHasStringTextField, blockHasStringTextField, structViews_shift]
    cases structViews ["text"] block with
    | none => rfl
    | some ws =>
      rcases ws with _ | ⟨w, _ | ⟨w', ws⟩⟩
      · rfl
      · show (optRaw (w.map (View.shift d))).any (fun w => w.string?.isSome) =
          (optRaw w).any fun w => w.string?.isSome
        rw [optRaw_shift]
        cases optRaw w with
        | none => rfl
        | some w => rfl
      · rfl
  rw [blockTypeOf, blockTypeOf, htext]
  rfl

theorem textField_shift (block : View) (header : BlockHeader) (blockType : String) :
    textField (block.shift d) (header.shift d) blockType =
      (textField block header blockType).map (Option.map (View.shift d)) := by
  rw [textField, textField]
  split_ifs
  · rfl
  · rw [structViews_shift]
    cases structViews ["text"] block with
    | none => rfl
    | some ws =>
      show Except.ok (optRaw ((ws.map (Option.map (View.shift d)))[0]?.bind id)) =
        Except.ok ((optRaw (ws[0]?.bind id)).map (View.shift d))
      rw [getElem?_shift, optRaw_shift]
  · rfl

theorem bytesOffsetOf_shift (v w : View) :
    bytesOffsetOf (v.shift d).span (w.shift d).span = bytesOffsetOf v.span w.span := by
  rw [View.span_shift, View.span_shift, bytesOffsetOf, bytesOffsetOf, View.span, View.span]
  dsimp only
  split_ifs with h h' h'
  · rfl
  · omega
  · omega
  · rw [Nat.add_sub_add_left]

/-! ### Plans -/

variable {R : Rules} {guards : List (String × ToolGuard)} {protectText : Bool}

theorem planText_shift (guard : Option ToolGuard) (blockOffset : ℕ) (block : View) (header : BlockHeader)
    (blockType : String) :
    planText R guard (d + blockOffset) (block.shift d) (header.shift d) blockType =
      (planText R guard blockOffset block header blockType).map (SlotKind.shift d) := by
  rw [planText, planText, textField_shift]
  cases textField block header blockType with
  | error e => rfl
  | ok field? =>
    cases field? with
    | none => rfl
    | some field =>
      dsimp only [Except.map, bind, Except.bind, Option.map_some]
      rw [bytesOffsetOf_shift, View.string?_shift, View.raw_shift]
      cases bytesOffsetOf block.span field.span with
      | none => rfl
      | some offset =>
        dsimp only [orError]
        cases field.string? with
        | none => rfl
        | some escaped =>
          dsimp only
          cases unescape escaped with
          | none => rfl
          | some unescaped =>
            dsimp only
            rw [Nat.add_assoc, Nat.add_assoc]
            cases settleGuard R guard unescaped with
            | some reason => rfl
            | none =>
              dsimp only
              split_ifs
              · rfl
              · rfl

theorem planBlock_shift (blockOffset : ℕ) (block : View) :
    planBlock R guards protectText (d + blockOffset) (block.shift d) =
      (planBlock R guards protectText blockOffset block).map (SlotKind.shift d) := by
  rw [planBlock, planBlock, blockHeader_shift]
  cases blockHeader block with
  | none => rfl
  | some header =>
    dsimp only [Option.map_some, orError, bind, Except.bind]
    rw [blockTypeOf_shift, View.raw_shift, planText_shift]
    have hid : (header.shift d).toolUseId = header.toolUseId := rfl
    rw [hid]
    generalize (if blockTypeOf block header = "tool_result" then header.toolUseId.bind (guardFor guards)
      else none) = guard
    cases guardExclusion guard with
    | some reason =>
      dsimp only
      split_ifs
      all_goals rfl
    | none =>
      dsimp only
      split_ifs
      all_goals rfl

theorem planBlocks_shift (contentOffset : ℕ) (content : View) (blocks : List (View × ℕ)) :
    planBlocks R guards protectText (d + contentOffset) (content.shift d)
        (blocks.map fun entry => (entry.1.shift d, entry.2)) =
      (planBlocks R guards protectText contentOffset content blocks).map (List.map (PlanSlot.shift d)) := by
  induction blocks with
  | nil => rfl
  | cons entry blocks ih =>
    obtain ⟨block, i⟩ := entry
    rw [List.map_cons, planBlocks, planBlocks, bytesOffsetOf_shift, ih]
    cases bytesOffsetOf content.span block.span with
    | none => rfl
    | some offset =>
      dsimp only [orError, bind, Except.bind]
      rw [Nat.add_assoc, planBlock_shift]
      cases planBlock R guards protectText (contentOffset + offset) block with
      | error e => rfl
      | ok kind =>
        cases planBlocks R guards protectText contentOffset content blocks with
        | error e => rfl
        | ok slots => rfl

theorem planContent_shift (contentOffset : ℕ) (content : View) :
    planContent R guards protectText (d + contentOffset) (content.shift d) =
      (planContent R guards protectText contentOffset content).map (List.map (PlanSlot.shift d)) := by
  rw [planContent, planContent, View.string?_shift, View.items?_shift, View.raw_shift]
  cases content.string? with
  | some escaped =>
    dsimp only
    split_ifs
    · rfl
    · cases unescape escaped with
      | none => rfl
      | some unescaped =>
        rw [Nat.add_assoc]
        rfl
  | none =>
    cases content.items? with
    | none => rfl
    | some blocks =>
      dsimp only [Option.map_some, orError, bind, Except.bind]
      rw [← planBlocks_shift, List.zipIdx_map]
      rfl

theorem contentView_shift (message : View) :
    contentView (message.shift d) = (contentView message).map (Option.map (View.shift d)) := by
  rw [contentView, contentView, structViews_shift]
  cases structViews ["content"] message with
  | none => rfl
  | some ws =>
    rcases ws with _ | ⟨w, _ | ⟨w', ws⟩⟩
    · rfl
    · exact congrArg some (optRaw_shift d w)
    · rfl

/-- The plan for a message as if it were all there is. -/
def relativePlan (R : Rules) (guards : List (String × ToolGuard)) (protectText : Bool) (message : Raw) :
    Except PlanError (List PlanSlot) :=
  planMessage R (View.mk 0 message).span guards protectText ⟨0, message⟩

theorem planMessage_eq {body : Body} {message : View} (h : message.stop ≤ Text.utf8Length body.text) :
    planMessage R body.span guards protectText message =
      (relativePlan R guards protectText message.raw).map (List.map (PlanSlot.shift message.start)) := by
  obtain ⟨start, raw⟩ := message
  have hbody : bytesOffsetOf body.span ((View.mk 0 raw).shift start).span = some start :=
    bytesOffsetOf_eq_some.2 ⟨Nat.zero_le _, h, rfl⟩
  have hself : bytesOffsetOf (View.mk 0 raw).span (View.mk 0 raw).span = some 0 :=
    bytesOffsetOf_eq_some.2 ⟨Nat.le_refl _, Nat.le_refl _, rfl⟩
  show planMessage R body.span guards protectText ((View.mk 0 raw).shift start) =
    (relativePlan R guards protectText raw).map (List.map (PlanSlot.shift start))
  rw [relativePlan, planMessage, planMessage, hbody, hself, contentView_shift]
  cases contentView (View.mk 0 raw) with
  | none => rfl
  | some content? =>
    cases content? with
    | none => rfl
    | some content =>
      dsimp only [Option.map_some, orError, bind, Except.bind]
      rw [bytesOffsetOf_shift]
      cases bytesOffsetOf (View.mk 0 raw).span content.span with
      | none => rfl
      | some offset =>
        dsimp only
        rw [Nat.zero_add]
        exact planContent_shift start offset content

end

/-! ### Guards that matter -/

section

variable {R : Rules} {guards guards' : List (String × ToolGuard)} {protectText : Bool}

/-- Two conversations have the same guard for the call that a block answers. -/
def SameGuard (guards guards' : List (String × ToolGuard)) (block : View) : Prop :=
  ∀ header id, blockHeader block = some header → header.toolUseId = some id →
    guardFor guards id = guardFor guards' id

theorem planBlock_congr {block : View} (h : SameGuard guards guards' block) (blockOffset : ℕ) :
    planBlock R guards protectText blockOffset block = planBlock R guards' protectText blockOffset block := by
  rw [planBlock, planBlock]
  cases hheader : blockHeader block with
  | none => rfl
  | some header =>
    have hguard : header.toolUseId.bind (guardFor guards) = header.toolUseId.bind (guardFor guards') := by
      cases hid : header.toolUseId with
      | none => rfl
      | some id => exact h header id hheader hid
    dsimp only [orError, bind, Except.bind]
    rw [hguard]

theorem planBlocks_congr {content : View} {blocks : List (View × ℕ)}
    (h : ∀ entry ∈ blocks, SameGuard guards guards' entry.1) (contentOffset : ℕ) :
    planBlocks R guards protectText contentOffset content blocks =
      planBlocks R guards' protectText contentOffset content blocks := by
  induction blocks with
  | nil => rfl
  | cons entry blocks ih =>
    obtain ⟨block, i⟩ := entry
    have hblock : SameGuard guards guards' block := h (block, i) List.mem_cons_self
    rw [planBlocks, planBlocks, ih fun entry hentry => h entry (List.mem_cons_of_mem _ hentry)]
    cases bytesOffsetOf content.span block.span with
    | none => rfl
    | some offset =>
      dsimp only [orError, bind, Except.bind]
      rw [planBlock_congr hblock]

theorem relativePlan_congr {message : Raw}
    (h : ∀ content blocks block, contentView ⟨0, message⟩ = some (some content) →
      content.items? = some blocks → block ∈ blocks → SameGuard guards guards' block) :
    relativePlan R guards protectText message = relativePlan R guards' protectText message := by
  rw [relativePlan, relativePlan, planMessage, planMessage]
  cases hcontent : contentView ⟨0, message⟩ with
  | none => rfl
  | some content? =>
    cases content? with
    | none => rfl
    | some content =>
      have hplan : ∀ offset, planContent R guards protectText offset content =
          planContent R guards' protectText offset content := by
        intro offset
        rw [planContent, planContent]
        cases content.string? with
        | some escaped => rfl
        | none =>
          dsimp only
          cases hblocks : content.items? with
          | none => rfl
          | some blocks =>
            exact planBlocks_congr (fun entry hentry => h content blocks entry.1 hcontent hblocks
              (List.fst_mem_of_mem_zipIdx hentry)) offset
      dsimp only [orError, bind, Except.bind]
      cases bytesOffsetOf (View.mk 0 message).span content.span with
      | none => rfl
      | some inMessage =>
        cases bytesOffsetOf (View.mk 0 message).span (View.mk 0 message).span with
        | none => rfl
        | some inBody => exact hplan _

end

theorem messageViews_swap (e : ℕ → Option (List Char)) (body : Body) :
    (messageViews ⟨[], body.view.swap e, []⟩).map (List.map View.raw) =
      (messageViews body).map (List.map (View.swap e)) := by
  have hrecord := structViews_swap e ["messages"] 0 body.view
  have hview : (Body.mk [] (body.view.swap e) []).view = ⟨0, body.view.swap e⟩ := rfl
  rw [messageViews, messageViews, hview]
  cases hnew : structViews ["messages"] ⟨0, body.view.swap e⟩ with
  | none =>
    rw [hnew] at hrecord
    rw [Option.map_eq_none_iff.1 hrecord.symm]
    rfl
  | some ws' =>
    rw [hnew] at hrecord
    obtain ⟨ws, hold, hws⟩ := Option.map_eq_some_iff.1 hrecord.symm
    rw [hold]
    rcases ws with _ | ⟨w?, _ | ⟨second, rest⟩⟩
    · obtain rfl := List.map_eq_nil_iff.1 hws.symm
      rfl
    · obtain ⟨w'?, rest', rfl, hw, hrest⟩ := List.map_eq_cons_iff.1 hws.symm
      obtain rfl := List.map_eq_nil_iff.1 hrest
      cases w? with
      | none =>
        obtain rfl := Option.map_eq_none_iff.1 hw
        rfl
      | some w =>
        obtain ⟨⟨start, raw⟩, rfl, hraw⟩ := Option.map_eq_some_iff.1 hw
        obtain rfl : raw = w.swap e := hraw
        exact w.items?_swap e start
    · obtain ⟨w'?, rest', rfl, -, hrest⟩ := List.map_eq_cons_iff.1 hws.symm
      obtain ⟨second', rest'', rfl, -, -⟩ := List.map_eq_cons_iff.1 hrest
      cases w? with
      | none =>
        cases w'? with
        | none => rfl
        | some w' => rfl
      | some w =>
        cases w'? with
        | none => rfl
        | some w' => rfl

end Headroom.LiveZone
