import Headroom.Foundation.LostMarks
import Headroom.Transforms.TagRoundTrip

/-!
# Placeholders that are lost

The compressor may drop placeholders. Restoration puts the tags back whose placeholders it finds, and reports the
others as lost. An element is an opening tag and the closing tag that block protection pairs with it. A block is
one span, so that the tags of an element are there or not together. With markers only they are two spans, and
where elements are nested the outer closing tag is no span at all, since a second open tag leaves the stack with
the one that is closed.

## Main statements

* `allOrNothing_iff` : when the promise is kept.
-/

open Foundation

namespace Headroom.Transforms

/-! ### Restoration with reports -/

/-- Whether the placeholder of a block is found when its turn comes; if not, the block is reported as lost. -/
def found : Bytes → List (Bytes × Bytes) → ℕ → Bool
  | _, [], _ => false
  | result, block :: _, 0 => contains block.1 result
  | result, block :: blocks, i + 1 => found (restoreTags result [block]) blocks i

/-- Some texts of a list, and nothing for the others. -/
def keepOnly : (ℕ → Bool) → List Bytes → List Bytes
  | _, [] => []
  | keep, part :: parts => keptIf (keep 0) part :: keepOnly (fun i => keep (i + 1)) parts

section Blocks

variable {text pfx : Bytes} {cursor k : ℕ} {keep : ℕ → Bool} {spans : List Span}

theorem weave_kept_placeholders (hpfx : pfx ∈ prefixes) :
    weave (outside text cursor spans) (keepOnly keep ((blocksFrom text pfx k spans).map Prod.fst)) =
      (placeholders pfx hpfx).fillKept keep k (segments text cursor spans) (lastGap text cursor spans) := by
  induction spans generalizing cursor k keep with
  | nil => exact List.append_nil _
  | cons span spans ih =>
    rw [outside, blocksFrom, List.map_cons, keepOnly, weave, ih, segments, lastGap, MarkFamily.fillKept]
    rfl

theorem weave_kept_originals :
    weave (outside text cursor spans) (keepOnly keep ((blocksFrom text pfx k spans).map Prod.snd)) =
      wholeKept keep (segments text cursor spans) (lastGap text cursor spans) := by
  induction spans generalizing cursor k keep with
  | nil => exact List.append_nil _
  | cons span spans ih =>
    rw [outside, blocksFrom, List.map_cons, keepOnly, weave, ih, segments, lastGap, wholeKept]

theorem restoreTags_singleton (result : Bytes) (block : Bytes × Bytes) :
    restoreTags result [block] = replaceAll block.1 block.2 result := by
  show (if contains block.1 result then replaceAll block.1 block.2 result else result) = _
  split_ifs with hcontains
  · rfl
  · rw [replaceAll_of_absent (mt contains_iff.mpr hcontains)]

theorem found_blocksFrom (hpfx : pfx ∈ prefixes) (result : Bytes) :
    found result (blocksFrom text pfx k spans) =
      (placeholders pfx hpfx).found k (segments text cursor spans) result := by
  induction spans generalizing cursor k result with
  | nil =>
    funext i
    simp only [blocksFrom, segments, found, MarkFamily.found]
  | cons span spans ih =>
    funext i
    cases i with
    | zero => rfl
    | succ i =>
      rw [blocksFrom, found, restoreTags_singleton, ih]
      rfl

theorem lt_mem_partAt (hspans : ∀ s ∈ spans, s.start < s.stop ∧ text[s.start]? = some lt) {i : ℕ}
    (hi : i < (segments text cursor spans).length) : lt ∈ partAt (segments text cursor spans) i := by
  have hmem : (segments text cursor spans).getD i ([], []) ∈ segments text cursor spans := by
    rw [List.getD_eq_getElem _ _ hi]
    exact List.getElem_mem hi
  exact lt_mem_segments hspans hmem

end Blocks

/-! ### Elements -/

/-- The element that a scan closes where it stands. -/
def closes (text : Bytes) (w : Walk) : Option (ℕ × ℕ) :=
  if text[w.i]? ≠ some lt then none
  else
    match parseTagAt text w.i with
    | .closing nameEnd _ =>
      let closeName := slice text (w.i + 2) nameEnd
      if isKnownHtmlTag closeName then none
      else
        ((rposition w.stack (toAsciiLowercase closeName)).bind fun idx =>
          (w.stack[idx]?).map fun tag => (idx, tag)).map fun matching => (matching.2.openStart, w.i)
    | _ => none

/-- The elements that are closed from where a scan of blocks stands. -/
def elementsFrom (text : Bytes) (w : Walk) : List (ℕ × ℕ) :=
  if _h : w.i < text.length then (closes text w).toList ++ elementsFrom text (w.step text false)
  else []
termination_by text.length - w.i
decreasing_by
  have := (Walk.step_i false ‹_›).1
  omega

/-- Where the opening and the closing tags of the elements of a text start. -/
def elements (text : Bytes) : List (ℕ × ℕ) := elementsFrom text {}

/-- A tag inside of a span is there if what stands for the span is. -/
def Present (spans : List Span) (flags : ℕ → Bool) (p : ℕ) : Prop :=
  ∀ k s, spans[k]? = some s → s.start ≤ p → p < s.stop → flags k = true

/-- An element is inside of a span. -/
def Covered (spans : List Span) (e : ℕ × ℕ) : Prop := ∃ s ∈ spans, s.start ≤ e.1 ∧ e.1 ≤ e.2 ∧ e.2 < s.stop

section Elements

variable {text : Bytes} {w : Walk} {e : ℕ × ℕ} {spans : List Span} {flags flags' : ℕ → Bool} {p : ℕ}

theorem Covered.append (h : Covered spans e) (more : List Span) : Covered (spans ++ more) e := by
  obtain ⟨s, hs, hcovers⟩ := h
  exact ⟨s, List.mem_append_left _ hs, hcovers⟩

/-- A block covers what was covered before, the spans that it takes away included. -/
theorem Covered.collapse (h : Covered spans e) (hstop : ∀ s ∈ spans, s.stop ≤ p) {openStart tagEnd : ℕ}
    (hend : p < tagEnd) :
    Covered (spans.filter (fun s => s.start < openStart) ++ [⟨openStart, tagEnd, .block⟩]) e := by
  obtain ⟨s, hs, hstart, hle, hlt⟩ := h
  by_cases hinside : s.start < openStart
  · exact Covered.append ⟨s, List.mem_filter.mpr ⟨hs, decide_eq_true hinside⟩, hstart, hle, hlt⟩ _
  · have := hstop s hs
    refine ⟨⟨openStart, tagEnd, .block⟩, List.mem_append_right _ (List.mem_singleton_self _), ?_, hle, ?_⟩
    · show openStart ≤ e.1
      omega
    · show e.2 < tagEnd
      omega

theorem Covered.onOpen (h : Covered w.spans e) (nameEnd tagEnd : ℕ) (isSelfClosing : Bool) :
    Covered (w.onOpen text false nameEnd tagEnd isSelfClosing).spans e := by
  rw [Walk.onOpen]
  dsimp only
  split
  · exact h
  · split
    · exact h.append _
    · exact h

theorem Covered.onClose (h : Covered w.spans e) (hinv : w.Inv text) {nameEnd tagEnd : ℕ} (hend : w.i < tagEnd) :
    Covered (w.onClose text false nameEnd tagEnd).spans e := by
  rw [Walk.onClose]
  dsimp only
  split
  · exact h
  · split
    · exact h.collapse (fun s hs => (hinv.within s hs).2.1) hend
    · exact h

/-- A scan of blocks keeps elements covered. -/
theorem Covered.step (h : Covered w.spans e) (hinv : w.Inv text) : Covered (w.step text false).spans e := by
  rw [Walk.step]
  split_ifs with hlt
  · exact h
  · have hspec := parseTagAt_spec text w.i
    split
    · exact h
    · exact h.onOpen _ _ _
    · rename_i nameEnd tagEnd hparse
      rw [hparse] at hspec
      exact h.onClose hinv (Nat.lt_of_succ_lt hspec.1)

theorem covered_of_closes (h : closes text w = some e) (hinv : w.Inv text) :
    Covered (w.step text false).spans e := by
  rw [closes] at h
  split_ifs at h with hlt
  rw [Walk.step, if_neg hlt]
  have hspec := parseTagAt_spec text w.i
  split at h
  · rename_i nameEnd tagEnd hparse
    rw [hparse] at hspec ⊢
    dsimp only at hspec h ⊢
    split_ifs at h with hhtml
    obtain ⟨⟨idx, tag⟩, hmatch, rfl⟩ := Option.map_eq_some_iff.mp h
    obtain ⟨idx', -, hidx⟩ := Option.bind_eq_some_iff.mp hmatch
    obtain ⟨tag', htag, heq⟩ := Option.map_eq_some_iff.mp hidx
    obtain ⟨rfl, rfl⟩ := Prod.mk.inj heq
    have hopen := (hinv.opened tag' (List.mem_of_getElem? htag)).1
    simp only [Walk.onClose, hhtml, hmatch]
    refine ⟨⟨tag'.openStart, tagEnd, .block⟩, List.mem_append_right _ (List.mem_singleton_self _), le_rfl, hopen.le, ?_⟩
    exact Nat.lt_of_succ_lt hspec.1
  · exact absurd h (by simp)

/-- A scan of blocks covers what was covered and the elements that it closes. -/
theorem Covered.run (hinv : w.Inv text) (h : Covered w.spans e ∨ e ∈ elementsFrom text w) :
    Covered (Walk.run text false w).spans e := by
  generalize hn : text.length - w.i = n
  induction n using Nat.strongRecOn generalizing w with
  | ind n ih =>
    rw [elementsFrom] at h
    rw [Walk.run]
    split_ifs at h ⊢ with hlt
    · have hstep := Walk.step_i false hlt
      refine ih _ (by omega) hinv.step ?_ rfl
      rcases h with h | h
      · exact Or.inl (h.step hinv)
      · rcases List.mem_append.mp h with h | h
        · exact Or.inl (covered_of_closes (Option.mem_toList.mp h) hinv)
        · exact Or.inr h
    · exact h.resolve_right List.not_mem_nil

theorem elements_covered (h : e ∈ elements text) : Covered (identifySpans text false).1 e :=
  Covered.run (SpansInv.empty text) (Or.inr h)

/-- What is inside of a span is there if what stands for the span is. -/
theorem present_iff {k : ℕ} {s : Span} (hordered : spans.Pairwise fun a b => a.stop ≤ b.start)
    (hs : spans[k]? = some s) (hstart : s.start ≤ p) (hstop : p < s.stop) :
    Present spans flags p ↔ flags k = true := by
  constructor
  · intro h
    exact h k s hs hstart hstop
  · intro h k' s' hs' hstart' hstop'
    obtain ⟨hk, rfl⟩ := List.getElem?_eq_some_iff.mp hs
    obtain ⟨hk', rfl⟩ := List.getElem?_eq_some_iff.mp hs'
    rcases Nat.lt_trichotomy k k' with hlt | rfl | hlt
    · have := List.pairwise_iff_getElem.mp hordered k k' hk hk' hlt
      omega
    · exact h
    · have := List.pairwise_iff_getElem.mp hordered k' k hk' hk hlt
      omega

theorem Covered.present_iff (h : Covered spans e) (hordered : spans.Pairwise fun a b => a.stop ≤ b.start) :
    Present spans flags e.1 ↔ Present spans flags e.2 := by
  obtain ⟨s, hs, hstart, hle, hstop⟩ := h
  obtain ⟨k, hk⟩ := List.mem_iff_getElem?.mp hs
  rw [Transforms.present_iff hordered hk hstart (hle.trans_lt hstop),
    Transforms.present_iff hordered hk (hstart.trans hle) hstop]

theorem Present.congr (h : ∀ k < spans.length, flags k = flags' k) :
    Present spans flags p ↔ Present spans flags' p := by
  refine forall₂_congr fun k s => forall_congr' fun hs => ?_
  rw [h k (List.getElem?_eq_some_iff.mp hs).1]

end Elements

/-! ### All or nothing -/

variable (text : Bytes) (mode : Bool) (keep : ℕ → Bool)

/-- The protected text with some of its placeholders. -/
def compressed : Bytes :=
  weave (outside text 0 (identifySpans text mode).1) (keepOnly keep ((protectTags text mode).2.1.map Prod.fst))

/-- What is found in it. -/
def foundIn : ℕ → Bool := found (compressed text mode keep) (protectTags text mode).2.1

/-- The restoration gives the text without the spans that it reports as lost, and of each element both tags or
none. -/
structure AllOrNothing : Prop where
  restored : restoreTags (compressed text mode keep) (protectTags text mode).2.1 =
    weave (outside text 0 (identifySpans text mode).1)
      (keepOnly (foundIn text mode keep) ((protectTags text mode).2.1.map Prod.snd))
  whole : ∀ e ∈ elements text, Present (identifySpans text mode).1 (foundIn text mode keep) e.1 ↔
    Present (identifySpans text mode).1 (foundIn text mode keep) e.2

/-- The placeholders that are there occur at their places only, and the others nowhere. -/
def Unmistaken : Prop :=
  (placeholders _ (pickPlaceholderPrefix_mem text)).Unmistakable keep 0 []
    (segments text 0 (identifySpans text mode).1) (lastGap text 0 (identifySpans text mode).1)

/-- The spans that were found come back, and nothing else changes, exactly if no placeholder is mistaken; then
those are found that are there. -/
theorem restored_iff :
    restoreTags (compressed text mode keep) (protectTags text mode).2.1 =
        weave (outside text 0 (identifySpans text mode).1)
          (keepOnly (foundIn text mode keep) ((protectTags text mode).2.1.map Prod.snd)) ↔
      Unmistaken text mode keep := by
  have hpfx := pickPlaceholderPrefix_mem text
  have hspans := spansInv_run text mode
  obtain ⟨-, hblocks⟩ := protectTags_eq text mode
  have hparts : ∀ i < (segments text 0 (identifySpans text mode).1).length,
      lt ∈ partAt (segments text 0 (identifySpans text mode).1) i := fun i hi =>
    lt_mem_partAt (fun s hs => ⟨(hspans.within s hs).1, (hspans.within s hs).2.2⟩) hi
  rw [foundIn, compressed, hblocks, weave_kept_placeholders hpfx, weave_kept_originals,
    @found_blocksFrom text _ 0 0 _ hpfx, @foldl_blocksFrom text _ 0 0 _ hpfx]
  exact MarkFamily.unfill_fillKept_iff keep 0 [] _ (lt_notMem_placeholder hpfx) hparts

variable {text mode keep} in
theorem Unmistaken.foundIn_eq (h : Unmistaken text mode keep) {i : ℕ} (hi : i < (identifySpans text mode).1.length) :
    foundIn text mode keep i = keep i := by
  have hpfx := pickPlaceholderPrefix_mem text
  rw [← length_segments text 0] at hi
  rw [foundIn, compressed, (protectTags_eq text mode).2, weave_kept_placeholders hpfx,
    @found_blocksFrom text _ 0 0 _ hpfx]
  exact MarkFamily.Unmistakable.found_eq h hi

/-- A restoration is all or nothing exactly if no placeholder is mistaken and, with markers only, the compressor
has left both tags of each element or none. -/
theorem allOrNothing_iff :
    AllOrNothing text mode keep ↔ Unmistaken text mode keep ∧
      (mode = true → ∀ e ∈ elements text,
        Present (identifySpans text mode).1 keep e.1 ↔ Present (identifySpans text mode).1 keep e.2) := by
  have hsame : Unmistaken text mode keep → ∀ p, Present (identifySpans text mode).1 (foundIn text mode keep) p ↔
      Present (identifySpans text mode).1 keep p := fun h p => Present.congr fun _ hi => h.foundIn_eq hi
  constructor
  · intro h
    have hclear := (restored_iff text mode keep).mp h.restored
    refine ⟨hclear, fun _ e he => ?_⟩
    rw [← hsame hclear, ← hsame hclear]
    exact h.whole e he
  · rintro ⟨hclear, hpairs⟩
    refine ⟨(restored_iff text mode keep).mpr hclear, fun e he => ?_⟩
    rw [hsame hclear, hsame hclear]
    cases mode with
    | true => exact hpairs rfl e he
    | false => exact (elements_covered he).present_iff (spansInv_run text false).ordered

/-- The outer closing tag of nested elements is no span. -/
example : (identifySpans (ascii "<x><y></y></x>") true).1.map Span.start = [0, 3, 6] := by decide +kernel

/-- With markers only a lost placeholder leaves the other tag of its element. -/
theorem lone_closing_tag : ¬ ∀ text mode keep, AllOrNothing text mode keep := by
  intro h
  have hwhole := (h (ascii "<x>y</x>") true (· ≠ 0)).whole (0, 4) (by decide +kernel)
  have hspans : (identifySpans (ascii "<x>y</x>") true).1 = [⟨0, 3, .openMarker⟩, ⟨4, 8, .closeMarker⟩] := by
    decide +kernel
  have hordered := (spansInv_run (ascii "<x>y</x>") true).ordered
  rw [hspans] at hwhole hordered
  rw [@present_iff _ _ 0 0 _ hordered rfl (by decide) (by decide),
    @present_iff _ _ 4 1 _ hordered rfl (by decide) (by decide)] at hwhole
  exact absurd hwhole (by decide +kernel)

end Headroom.Transforms
