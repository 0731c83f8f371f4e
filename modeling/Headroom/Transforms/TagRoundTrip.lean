import Headroom.Transforms.TagProtector

/-!
# The round trip of tag protection

The protected spans are in order and disjoint, whatever the text. The restoration gives the text
back exactly when no placeholder occurs before its own span or in an unprotected part behind it;
that is so unless the text holds all seventeen prefixes that are tried.

## Main results

* `roundTrips_iff` : when the round trip gives the text back.
-/

open Foundation

namespace Headroom.Transforms

/-! ### The spans of a scan -/

/-- The spans are in order, and none of them goes over the start of an open tag. -/
structure SpansInv (text : Bytes) (i : ℕ) (spans : List Span) (stack : List OpenTag) : Prop where
  ordered : spans.Pairwise fun a b => a.stop ≤ b.start
  within : ∀ s ∈ spans, s.start < s.stop ∧ s.stop ≤ i ∧ text[s.start]? = some lt
  rising : stack.Pairwise fun a b => a.openStart < b.openStart
  opened : ∀ tag ∈ stack, tag.openStart < i ∧ text[tag.openStart]? = some lt ∧
    ∀ s ∈ spans, s.start < tag.openStart → s.stop ≤ tag.openStart

namespace SpansInv

variable {text : Bytes} {i j : ℕ} {spans : List Span} {stack stack' : List OpenTag}

theorem empty (text : Bytes) : SpansInv text 0 [] [] :=
  ⟨List.Pairwise.nil, fun _ h => absurd h List.not_mem_nil, List.Pairwise.nil,
    fun _ h => absurd h List.not_mem_nil⟩

theorem mono (h : SpansInv text i spans stack) (hij : i ≤ j) : SpansInv text j spans stack :=
  ⟨h.ordered, fun s hs => ⟨(h.within s hs).1, (h.within s hs).2.1.trans hij, (h.within s hs).2.2⟩,
    h.rising, fun tag htag => ⟨(h.opened tag htag).1.trans_le hij, (h.opened tag htag).2⟩⟩

theorem of_sublist (h : SpansInv text i spans stack) (hs : stack'.Sublist stack) :
    SpansInv text i spans stack' :=
  ⟨h.ordered, h.within, h.rising.sublist hs, fun tag htag => h.opened tag (hs.subset htag)⟩

/-- A span from where the scan stands. -/
theorem push_span (h : SpansInv text i spans stack) (hlt : text[i]? = some lt) (hij : i < j)
    (kind : SpanKind) : SpansInv text j (spans ++ [⟨i, j, kind⟩]) stack := by
  refine ⟨?_, ?_, h.rising, ?_⟩
  · refine List.pairwise_append.mpr ⟨h.ordered, List.pairwise_singleton _ _, fun s hs s' hs' => ?_⟩
    rw [List.mem_singleton.mp hs']
    exact (h.within s hs).2.1
  · intro s hs
    rcases List.mem_append.mp hs with hs | hs
    · exact (h.mono hij.le).within s hs
    · rw [List.mem_singleton.mp hs]
      exact ⟨hij, le_rfl, hlt⟩
  · intro tag htag
    obtain ⟨hopen, hchar, hspans⟩ := h.opened tag htag
    refine ⟨hopen.trans hij, hchar, fun s hs hstart => ?_⟩
    rcases List.mem_append.mp hs with hs | hs
    · exact hspans s hs hstart
    · rw [List.mem_singleton.mp hs] at hstart
      exact absurd hstart (Nat.lt_asymm hopen)

theorem push_tag (h : SpansInv text j spans stack) (hlt : text[i]? = some lt) (hij : i < j)
    (hstack : ∀ tag ∈ stack, tag.openStart < i) (hspans : ∀ s ∈ spans, s.start < i → s.stop ≤ i)
    (name : Bytes) : SpansInv text j spans (stack ++ [⟨name, i⟩]) := by
  refine ⟨h.ordered, h.within, ?_, fun tag htag => ?_⟩
  · refine List.pairwise_append.mpr ⟨h.rising, List.pairwise_singleton _ _, fun tag htag tag' htag' => ?_⟩
    rw [List.mem_singleton.mp htag']
    exact hstack tag htag
  · rcases List.mem_append.mp htag with htag | htag
    · exact h.opened tag htag
    · rw [List.mem_singleton.mp htag]
      exact ⟨hij, hlt, hspans⟩

/-- A block from an open tag on takes the place of the spans inside. -/
theorem collapse (h : SpansInv text i spans stack) {idx : ℕ} {tag : OpenTag}
    (htag : stack[idx]? = some tag) (hij : i < j) (kind : SpanKind) :
    SpansInv text j (spans.filter (fun s => s.start < tag.openStart) ++ [⟨tag.openStart, j, kind⟩])
      (stack.take idx) := by
  obtain ⟨hopen, hchar, hspans⟩ := h.opened tag (List.mem_of_getElem? htag)
  have hbelow : ∀ tag' ∈ stack.take idx, tag'.openStart < tag.openStart := by
    obtain ⟨hidx, rfl⟩ := List.getElem?_eq_some_iff.mp htag
    have hsplit : stack = stack.take idx ++ stack[idx] :: stack.drop (idx + 1) := by
      rw [← List.drop_eq_getElem_cons hidx, List.take_append_drop]
    have hrising := h.rising
    rw [hsplit] at hrising
    exact fun tag' htag' => (List.pairwise_append.mp hrising).2.2 tag' htag' _ List.mem_cons_self
  have hkept : ∀ s ∈ spans.filter (fun s => s.start < tag.openStart),
      s ∈ spans ∧ s.stop ≤ tag.openStart := by
    intro s hs
    obtain ⟨hs, hstart⟩ := List.mem_filter.mp hs
    exact ⟨hs, hspans s hs (of_decide_eq_true hstart)⟩
  refine ⟨?_, ?_, h.rising.sublist (List.take_sublist _ _), fun tag' htag' => ?_⟩
  · refine List.pairwise_append.mpr
      ⟨h.ordered.sublist List.filter_sublist, List.pairwise_singleton _ _, fun s hs s' hs' => ?_⟩
    rw [List.mem_singleton.mp hs']
    exact (hkept s hs).2
  · intro s hs
    rcases List.mem_append.mp hs with hs | hs
    · exact (h.mono hij.le).within s (hkept s hs).1
    · rw [List.mem_singleton.mp hs]
      exact ⟨hopen.trans hij, le_rfl, hchar⟩
  · obtain ⟨hopen', hchar', hspans'⟩ := h.opened tag' (List.mem_of_mem_take htag')
    refine ⟨hopen'.trans hij, hchar', fun s hs hstart => ?_⟩
    rcases List.mem_append.mp hs with hs | hs
    · exact hspans' s (hkept s hs).1 hstart
    · rw [List.mem_singleton.mp hs] at hstart
      exact absurd hstart (Nat.lt_asymm (hbelow tag' htag'))

end SpansInv

/-- The invariant where a scan stands. -/
def Walk.Inv (text : Bytes) (w : Walk) : Prop := SpansInv text w.i w.spans w.stack

namespace Walk

variable {text : Bytes} {mode : Bool} {w : Walk}

theorem Inv.onOpen (h : w.Inv text) (hlt : text[w.i]? = some lt) {nameEnd tagEnd : ℕ}
    (hend : w.i < tagEnd) (closes : Bool) : (w.onOpen text mode nameEnd tagEnd closes).Inv text := by
  rw [Walk.onOpen]
  dsimp only
  split_ifs with hhtml hself hmode
  · exact SpansInv.mono h hend.le
  · exact SpansInv.push_span h hlt hend _
  · refine (SpansInv.push_span h hlt hend .openMarker).push_tag hlt hend
      (fun tag htag => (h.opened tag htag).1) (fun s hs hstart => ?_) _
    rcases List.mem_append.mp hs with hs | hs
    · exact (h.within s hs).2.1
    · rw [List.mem_singleton.mp hs] at hstart
      exact absurd hstart (Nat.lt_irrefl _)
  · exact (SpansInv.mono h hend.le).push_tag hlt hend (fun tag htag => (h.opened tag htag).1)
      (fun s hs _ => (h.within s hs).2.1) _

theorem Inv.onClose (h : w.Inv text) (hlt : text[w.i]? = some lt) {nameEnd tagEnd : ℕ}
    (hend : w.i < tagEnd) : (w.onClose text mode nameEnd tagEnd).Inv text := by
  rw [Walk.onClose]
  dsimp only
  split_ifs with hhtml hmode
  · exact SpansInv.mono h hend.le
  · split
    · exact (SpansInv.push_span h hlt hend _).of_sublist
        ((List.dropLast_sublist _).trans (List.take_sublist _ _))
    · exact SpansInv.mono h hend.le
  · split
    · rename_i idx tag hmatch
      obtain ⟨idx', -, hidx⟩ := Option.bind_eq_some_iff.mp hmatch
      obtain ⟨tag', htag, heq⟩ := Option.map_eq_some_iff.mp hidx
      obtain ⟨rfl, rfl⟩ := Prod.mk.inj heq
      exact SpansInv.collapse h htag hend _
    · exact SpansInv.mono h hend.le

/-- One round keeps the invariant. -/
theorem Inv.step (h : w.Inv text) : (w.step text mode).Inv text := by
  rw [Walk.step]
  split_ifs with hlt
  · exact SpansInv.mono h (Nat.le_add_right _ _)
  · have hspec := parseTagAt_spec text w.i
    split
    · exact SpansInv.mono h (Nat.le_succ _)
    · rename_i nameEnd tagEnd closes hparse
      rw [hparse] at hspec
      dsimp only at hspec
      exact h.onOpen (not_not.mp hlt) (by omega) closes
    · rename_i nameEnd tagEnd hparse
      rw [hparse] at hspec
      dsimp only at hspec
      exact h.onClose (not_not.mp hlt) (by omega)

/-- A scan keeps the invariant, and it ends with the text. -/
theorem Inv.run (mode : Bool) (h : w.Inv text) (hi : w.i ≤ text.length) :
    (Walk.run text mode w).Inv text ∧ (Walk.run text mode w).i = text.length := by
  generalize hn : text.length - w.i = n
  induction n using Nat.strongRecOn generalizing w with
  | ind n ih =>
    rw [Walk.run]
    split_ifs with hlt
    · have hstep := step_i mode hlt
      exact ih _ (by omega) h.step hstep.2 rfl
    · exact ⟨h, by omega⟩

end Walk

section Spans

variable (text : Bytes) (mode : Bool)

/-- The spans are in order and disjoint, inside of the text, and start with a `<`. -/
theorem spansInv_run : SpansInv text text.length (identifySpans text mode).1 [] := by
  obtain ⟨hinv, hi⟩ := Walk.Inv.run mode (w := {}) (SpansInv.empty text) (Nat.zero_le _)
  rw [Walk.Inv, hi] at hinv
  exact hinv.of_sublist (List.nil_sublist _)

variable {text} in
theorem identifySpans_eq_nil (h : lt ∉ text) : (identifySpans text mode).1 = [] := by
  refine List.eq_nil_iff_forall_not_mem.mpr fun s hs => h ?_
  exact List.mem_of_getElem? ((spansInv_run text mode).within s hs).2.2

end Spans

/-! ### Gaps and parts -/

/-- The parts of a text between spans, from a position on. -/
def outside (text : Bytes) (cursor : ℕ) : List Span → List Bytes
  | [] => [text.drop cursor]
  | span :: spans => slice text cursor span.start :: outside text span.stop spans

/-- Texts put between the members of a list of texts. -/
def weave : List Bytes → List Bytes → Bytes
  | gap :: rest, part :: parts => gap ++ (part ++ weave rest parts)
  | rest, _ => rest.flatten

/-- The text in gaps and spans. -/
def segments (text : Bytes) (cursor : ℕ) : List Span → List (Bytes × Bytes)
  | [] => []
  | span :: spans => (slice text cursor span.start, slice text span.start span.stop) ::
      segments text span.stop spans

/-- What is behind the last span. -/
def lastGap (text : Bytes) (cursor : ℕ) : List Span → Bytes
  | [] => text.drop cursor
  | span :: spans => lastGap text span.stop spans

/-- Spans in order behind a position. -/
structure Ordered (text : Bytes) (cursor : ℕ) (spans : List Span) : Prop where
  ordered : spans.Pairwise fun a b => a.stop ≤ b.start
  within : ∀ s ∈ spans, cursor ≤ s.start ∧ s.start < s.stop ∧ s.stop ≤ text.length

section Segments

variable {text : Bytes} {cursor : ℕ} {span : Span} {spans : List Span}

theorem ordered_identifySpans (text : Bytes) (mode : Bool) : Ordered text 0 (identifySpans text mode).1 :=
  ⟨(spansInv_run text mode).ordered, fun s hs =>
    ⟨Nat.zero_le _, ((spansInv_run text mode).within s hs).1, ((spansInv_run text mode).within s hs).2.1⟩⟩

theorem Ordered.tail (h : Ordered text cursor (span :: spans)) : Ordered text span.stop spans :=
  ⟨(List.pairwise_cons.mp h.ordered).2, fun s hs => ⟨(List.pairwise_cons.mp h.ordered).1 s hs,
    (h.within s (List.mem_cons_of_mem _ hs)).2⟩⟩

theorem slice_append_drop {a b : ℕ} (hab : a ≤ b) : slice text a b ++ text.drop b = text.drop a := by
  have hdrop : text.drop b = (text.drop a).drop (b - a) := by
    rw [List.drop_drop, Nat.add_sub_cancel' hab]
  rw [slice, List.drop_take, hdrop, List.take_append_drop]

theorem gaps_segments : gaps (segments text cursor spans) (lastGap text cursor spans) =
    outside text cursor spans := by
  induction spans generalizing cursor with
  | nil => rfl
  | cons span spans ih => exact congrArg (slice text cursor span.start :: ·) ih

theorem whole_segments (h : Ordered text cursor spans) :
    whole (segments text cursor spans) (lastGap text cursor spans) = text.drop cursor := by
  induction spans generalizing cursor with
  | nil => rfl
  | cons span spans ih =>
    have hspan := h.within span List.mem_cons_self
    rw [segments, lastGap, whole, ih h.tail, slice_append_drop hspan.2.1.le, slice_append_drop hspan.1]

end Segments

/-! ### Placeholders -/

/-- The prefixes that a placeholder can have. -/
def prefixes : List Bytes := DEFAULT_PREFIX :: FALLBACK :: (List.range 16).map candidate

theorem pickPlaceholderPrefix_mem (text : Bytes) : (pickPlaceholderPrefix text).1 ∈ prefixes := by
  rw [pickPlaceholderPrefix]
  split_ifs
  · exact List.mem_cons_self
  · split
    · rename_i c hfind
      exact List.mem_cons_of_mem _ (List.mem_cons_of_mem _ (List.mem_of_find?_eq_some hfind))
    · exact List.mem_cons_of_mem _ List.mem_cons_self

theorem prefixes_spec {pfx : Bytes} (h : pfx ∈ prefixes) :
    ∃ tail, pfx = 123 :: 123 :: tail ∧ 123 ∉ tail ∧ lt ∉ pfx := by
  have hall : ∀ pfx ∈ prefixes, pfx = 123 :: 123 :: pfx.drop 2 ∧ 123 ∉ pfx.drop 2 ∧ lt ∉ pfx := by
    decide
  exact ⟨_, hall pfx h⟩

theorem notMem_ascii_toString {n : ℕ} {b : UInt8} (h : b.toNat < 48 ∨ 57 < b.toNat) :
    b ∉ ascii (toString n) := by
  intro hmem
  have := isDigit_of_mem_ascii_toString hmem
  omega

theorem placeholder_prefix_free {pfx : Bytes} {j k : ℕ} (h : placeholder pfx j <+: placeholder pfx k) :
    j = k := by
  rw [placeholder, placeholder, List.append_assoc, List.append_assoc, List.prefix_append_right_inj] at h
  obtain ⟨more, hmore⟩ := h
  have hdigits : ∀ (n : ℕ) (tail : Bytes),
      (ascii (toString n) ++ (PLACEHOLDER_SUFFIX ++ tail)).takeWhile (· != 125) = ascii (toString n) := by
    intro n tail
    have hne : ∀ b ∈ ascii (toString n), (b != 125) = true := by
      intro b hb
      rw [bne_iff_ne]
      rintro rfl
      exact notMem_ascii_toString (Or.inr (by decide)) hb
    rw [List.takeWhile_append_of_pos hne]
    exact List.append_nil _
  have heq := congrArg (List.takeWhile (· != 125)) hmore
  rw [List.append_assoc, hdigits, ← List.append_nil PLACEHOLDER_SUFFIX, hdigits] at heq
  exact ascii_toString_injective heq

/-- The placeholders of a prefix. -/
def placeholders (pfx : Bytes) (h : pfx ∈ prefixes) : MarkFamily UInt8 where
  letter := 123
  mark := placeholder pfx
  isMark k := by
    obtain ⟨tail, hpfx, hnot, -⟩ := prefixes_spec h
    refine ⟨tail ++ (ascii (toString k) ++ PLACEHOLDER_SUFFIX), ?_, ?_, ?_⟩
    · rw [placeholder, hpfx]
      simp
    · exact List.append_ne_nil_of_right_ne_nil _ (List.append_ne_nil_of_right_ne_nil _ (by decide))
    · rw [List.mem_append, List.mem_append, not_or, not_or]
      exact ⟨hnot, notMem_ascii_toString (Or.inr (by decide)), by decide⟩
  prefix_free := placeholder_prefix_free

theorem lt_notMem_placeholder {pfx : Bytes} (h : pfx ∈ prefixes) (k : ℕ) : lt ∉ placeholder pfx k := by
  obtain ⟨-, -, -, hnot⟩ := prefixes_spec h
  rw [placeholder, List.mem_append, List.mem_append, not_or, not_or]
  exact ⟨⟨hnot, notMem_ascii_toString (Or.inr (by decide))⟩, by decide⟩

/-! ### The round trip -/

section RoundTrip

variable {text pfx : Bytes} {mode : Bool} {cursor k : ℕ} {spans : List Span}

/-- The blocks of some spans. -/
def blocksFrom (text pfx : Bytes) (k : ℕ) : List Span → List (Bytes × Bytes)
  | [] => []
  | span :: spans => (placeholder pfx k, slice text span.start span.stop) ::
      blocksFrom text pfx (k + 1) spans

theorem emitFrom_eq (hpfx : pfx ∈ prefixes) (h : Ordered text cursor spans) :
    emitFrom text pfx cursor k spans =
      some ((placeholders pfx hpfx).fill k (segments text cursor spans) (lastGap text cursor spans),
        blocksFrom text pfx k spans) := by
  induction spans generalizing cursor k with
  | nil => rfl
  | cons span spans ih =>
    have hcursor := (h.within span List.mem_cons_self).1
    rw [emitFrom, if_neg (Nat.not_lt.mpr hcursor), ih h.tail]
    rfl

/-- What protection makes of a text. -/
theorem protectTags_eq (text : Bytes) (mode : Bool) :
    (protectTags text mode).1 =
        (placeholders _ (pickPlaceholderPrefix_mem text)).fill 0
          (segments text 0 (identifySpans text mode).1) (lastGap text 0 (identifySpans text mode).1) ∧
      (protectTags text mode).2.1 =
        blocksFrom text (pickPlaceholderPrefix text).1 0 (identifySpans text mode).1 := by
  rw [protectTags]
  split_ifs with hplain
  · have hlt : lt ∉ text := by
      rcases Bool.or_eq_true_iff.mp hplain with hempty | hlt
      · rw [List.isEmpty_iff.mp hempty]
        exact List.not_mem_nil
      · exact of_decide_eq_true hlt
    rw [identifySpans_eq_nil mode hlt]
    exact ⟨rfl, rfl⟩
  · dsimp only
    rw [emitOutput, emitFrom_eq (pickPlaceholderPrefix_mem text) (ordered_identifySpans text mode)]
    exact ⟨rfl, rfl⟩

theorem foldl_blocksFrom (hpfx : pfx ∈ prefixes) (result : Bytes) :
    restoreTags result (blocksFrom text pfx k spans) =
      (placeholders pfx hpfx).unfill k (segments text cursor spans) result := by
  induction spans generalizing cursor k result with
  | nil => rfl
  | cons span spans ih =>
    have hstep : (if contains (placeholder pfx k) result then
        replaceAll (placeholder pfx k) (slice text span.start span.stop) result else result) =
        replaceAll (placeholder pfx k) (slice text span.start span.stop) result := by
      split_ifs with hcontains
      · rfl
      · rw [replaceAll_of_absent (mt contains_iff.mpr hcontains)]
    rw [restoreTags, blocksFrom, List.foldl_cons, hstep]
    exact ih _

theorem weave_placeholders (hpfx : pfx ∈ prefixes) (text : Bytes) (cursor : ℕ) (spans : List Span)
    (k : ℕ) : weave (outside text cursor spans) ((blocksFrom text pfx k spans).map Prod.fst) =
      (placeholders pfx hpfx).fill k (segments text cursor spans) (lastGap text cursor spans) := by
  induction spans generalizing cursor k with
  | nil => exact List.append_nil _
  | cons span spans ih =>
    rw [outside, blocksFrom, List.map_cons, weave, ih, segments, lastGap, MarkFamily.fill]
    rfl

variable (text mode) in
/-- The round trip gives the text back, with what else is promised of it. -/
structure RoundTrips : Prop where
  restored : restoreTags (protectTags text mode).1 (protectTags text mode).2.1 = text
  ordered : (identifySpans text mode).1.Pairwise fun a b => a.stop ≤ b.start
  within : ∀ s ∈ (identifySpans text mode).1, s.start < s.stop ∧ s.stop ≤ text.length
  blocks : (protectTags text mode).2.1.map Prod.snd =
    (identifySpans text mode).1.map fun s => slice text s.start s.stop
  once : ∀ block ∈ (protectTags text mode).2.1, occurrences block.1 (protectTags text mode).1 = 1
  kept : (protectTags text mode).1 =
    weave (outside text 0 (identifySpans text mode).1) ((protectTags text mode).2.1.map Prod.fst)

variable (text mode) in
/-- A placeholder occurs neither in the text before its span nor between spans behind it. -/
def Unambiguous : Prop :=
  ∀ before span behind, (identifySpans text mode).1 = before ++ span :: behind →
    ¬ placeholder (pickPlaceholderPrefix text).1 before.length <:+: text.take span.start ∧
      ∀ gap ∈ outside text span.stop behind,
        ¬ placeholder (pickPlaceholderPrefix text).1 before.length <:+: gap

theorem take_append_slice (text : Bytes) {a b : ℕ} (hab : a ≤ b) : text.take a ++ slice text a b = text.take b := by
  have htake : text.take a = (text.take b).take a := by rw [List.take_take, Nat.min_eq_left hab]
  rw [slice, htake, List.take_append_drop]

theorem unambiguous_segments (hpfx : pfx ∈ prefixes) (h : Ordered text cursor spans) :
    (placeholders pfx hpfx).Unambiguous k (text.take cursor) (segments text cursor spans)
        (lastGap text cursor spans) ↔
      ∀ before span behind, spans = before ++ span :: behind →
        ¬ placeholder pfx (k + before.length) <:+: text.take span.start ∧
          ∀ gap ∈ outside text span.stop behind, ¬ placeholder pfx (k + before.length) <:+: gap := by
  induction spans generalizing cursor k with
  | nil =>
    refine ⟨fun _ before span behind hsplit => ?_, fun _ before gap part behind hsplit => ?_⟩
    · exact absurd hsplit.symm (List.append_ne_nil_of_right_ne_nil before (List.cons_ne_nil _ _))
    · exact absurd hsplit.symm (List.append_ne_nil_of_right_ne_nil before (List.cons_ne_nil _ _))
  | cons span spans ih =>
    have hspan := h.within span List.mem_cons_self
    have hfirst := take_append_slice text hspan.1
    have hsecond := take_append_slice text hspan.2.1.le
    rw [segments, lastGap, MarkFamily.unambiguous_cons, gaps_segments, hfirst, hsecond, ih h.tail,
      forall_split_cons]
    refine and_congr Iff.rfl ?_
    simp only [List.length_cons, Nat.add_assoc, Nat.add_comm 1]

theorem map_fst_blocksFrom (text pfx : Bytes) (k : ℕ) (spans : List Span) :
    (blocksFrom text pfx k spans).map Prod.fst = (List.range' k spans.length).map (placeholder pfx) := by
  induction spans generalizing k with
  | nil => rfl
  | cons span spans ih => rw [blocksFrom, List.map_cons, ih, List.length_cons, List.range'_succ, List.map_cons]

theorem map_snd_blocksFrom (text pfx : Bytes) (k : ℕ) (spans : List Span) :
    (blocksFrom text pfx k spans).map Prod.snd = spans.map fun s => slice text s.start s.stop := by
  induction spans generalizing k with
  | nil => rfl
  | cons span spans ih => rw [blocksFrom, List.map_cons, ih, List.map_cons]

theorem length_segments (text : Bytes) (cursor : ℕ) (spans : List Span) :
    (segments text cursor spans).length = spans.length := by
  induction spans generalizing cursor with
  | nil => rfl
  | cons span spans ih => rw [segments, List.length_cons, ih, List.length_cons]

theorem lt_mem_segments {seg : Bytes × Bytes} (hspans : ∀ s ∈ spans, s.start < s.stop ∧ text[s.start]? = some lt)
    (h : seg ∈ segments text cursor spans) : lt ∈ seg.2 := by
  induction spans generalizing cursor with
  | nil => exact absurd h List.not_mem_nil
  | cons span spans ih =>
    rcases List.mem_cons.mp h with rfl | h
    · obtain ⟨hlt, hchar⟩ := hspans span List.mem_cons_self
      show lt ∈ slice text span.start span.stop
      refine List.mem_of_getElem? (i := 0) ?_
      rw [slice, List.getElem?_drop, Nat.add_zero, List.getElem?_take_of_lt hlt]
      exact hchar
    · exact ih (fun s hs => hspans s (List.mem_cons_of_mem _ hs)) h

theorem once_iff (hpfx : pfx ∈ prefixes) :
    (∀ block ∈ blocksFrom text pfx 0 spans, occurrences block.1
        ((placeholders pfx hpfx).fill 0 (segments text cursor spans) (lastGap text cursor spans)) = 1) ↔
      ∀ j < spans.length, ∀ gap ∈ gaps (segments text cursor spans) (lastGap text cursor spans),
        ¬ placeholder pfx j <:+: gap := by
  have hmem : ∀ P : Bytes → Prop, (∀ block ∈ blocksFrom text pfx 0 spans, P block.1) ↔
      ∀ j < spans.length, P (placeholder pfx j) := by
    intro P
    rw [← List.forall_mem_map (f := Prod.fst) (P := P), map_fst_blocksFrom, List.forall_mem_map]
    simp [List.mem_range'_1]
  refine (hmem fun p => occurrences p ((placeholders pfx hpfx).fill 0 (segments text cursor spans)
    (lastGap text cursor spans)) = 1).trans ?_
  refine forall_congr' fun j => forall_congr' fun hj => ?_
  have hne := ((placeholders pfx hpfx).isMark j).ne_nil
  have hfill := (placeholders pfx hpfx).occurrences_fill j 0 (segments text cursor spans)
    (lastGap text cursor spans)
  rw [length_segments, if_pos ⟨Nat.zero_le j, by omega⟩] at hfill
  rw [show placeholder pfx j = (placeholders pfx hpfx).mark j from rfl, hfill, Nat.add_eq_left,
    List.sum_eq_zero_iff_forall_eq_nat, List.forall_mem_map]
  exact forall_congr' fun gap => forall_congr' fun _ => occurrences_eq_zero_iff hne

/-- The round trip gives the text back exactly when no placeholder is in its way. -/
theorem roundTrips_iff (text : Bytes) (mode : Bool) : RoundTrips text mode ↔ Unambiguous text mode := by
  have hpfx := pickPlaceholderPrefix_mem text
  have hordered := ordered_identifySpans text mode
  have hspans := spansInv_run text mode
  obtain ⟨hcleaned, hblocks⟩ := protectTags_eq text mode
  rw [Unambiguous]
  have hparts : ∀ seg ∈ segments text 0 (identifySpans text mode).1, lt ∈ seg.2 := fun seg hseg =>
    lt_mem_segments (fun s hs => ⟨(hspans.within s hs).1, (hspans.within s hs).2.2⟩) hseg
  have hiff := MarkFamily.unfill_fill_iff (M := placeholders _ hpfx) 0 []
    (lastGap text 0 (identifySpans text mode).1) (lt_notMem_placeholder hpfx) hparts
  have hcond := unambiguous_segments (k := 0) hpfx hordered
  simp only [Nat.zero_add] at hcond
  rw [List.take_zero] at hcond
  rw [← hcond, ← hiff, List.nil_append, List.nil_append, whole_segments hordered, List.drop_zero,
    ← foldl_blocksFrom hpfx, ← hcleaned, ← hblocks]
  have honce : (∀ block ∈ (protectTags text mode).2.1, occurrences block.1 (protectTags text mode).1 = 1) ↔
      ∀ j, 0 ≤ j → j < 0 + (segments text 0 (identifySpans text mode).1).length →
        ∀ gap ∈ gaps (segments text 0 (identifySpans text mode).1)
          (lastGap text 0 (identifySpans text mode).1), ¬ placeholder (pickPlaceholderPrefix text).1 j <:+: gap := by
    rw [hblocks, hcleaned, once_iff hpfx, length_segments]
    exact ⟨fun h j _ hj => h j (by omega), fun h j hj => h j (Nat.zero_le _) (by omega)⟩
  constructor
  · intro h
    exact ⟨h.restored, honce.mp h.once⟩
  · rintro ⟨hrestored, hgaps⟩
    refine ⟨hrestored, hordered.ordered, fun s hs => (hordered.within s hs).2, ?_, honce.mpr hgaps, ?_⟩
    · rw [hblocks, map_snd_blocksFrom]
    · rw [hblocks, hcleaned, weave_placeholders hpfx]

end RoundTrip

/-- A text with all prefixes that are tried, and with the first placeholder of the last resort. -/
def crowded : Bytes :=
  ((List.range 16).map candidate).flatten ++ FALLBACK ++ ascii "0\x7d\x7d<x/>"

/-- Such a text does not come back. -/
theorem not_roundTrips_crowded : ¬ ∀ text mode, RoundTrips text mode := by
  intro h
  have hrestored := (h crowded false).restored
  revert hrestored
  decide +kernel

end Headroom.Transforms
