import Headroom.LiveZone.EmbeddedSpans

/-!
# Routing the containers of a text

Containers begin and end at characters, so that no slice of the text fails, and a text that was rewritten is
the text with some of its containers replaced.

## Main results

* `embeddedJson_routing` : what is found and what is rewritten.
-/

open Foundation

namespace Headroom.LiveZone.EmbeddedJson

/-- A text may be cut at an offset. -/
def IsCharBoundary (text : String) (i : ℕ) : Prop :=
  ∃ front back : String, text = front ++ back ∧ (utf8 front).length = i

variable {text : String} {a b : ℕ}

theorem isCharBoundary_zero : IsCharBoundary text 0 := ⟨"", text, String.empty_append.symm, rfl⟩

theorem isCharBoundary_length : IsCharBoundary text (utf8 text).length := ⟨text, "", String.append_empty.symm, rfl⟩

theorem isCharBoundary_of_ascii {ch : UInt8} (hch : (utf8 text)[a]? = some ch) (hascii : ch < 128) :
    IsCharBoundary text a ∧ IsCharBoundary text (a + 1) := by
  obtain ⟨hlt, hget⟩ := List.getElem?_eq_some_iff.mp hch
  have hsplit : utf8 text = (utf8 text).take a ++ ch :: (utf8 text).drop (a + 1) := by
    rw [← hget, ← List.drop_eq_getElem_cons hlt, List.take_append_drop]
  obtain ⟨front, middle, back, hfront, hmiddle, -, htext⟩ := exists_utf8_split hascii hsplit
  have hlength : (utf8 front).length = a := by
    rw [hfront, List.length_take]
    omega
  refine ⟨⟨front, middle ++ back, by rw [htext, String.append_assoc], hlength⟩,
    ⟨front ++ middle, back, htext, ?_⟩⟩
  rw [utf8_append, List.length_append, hlength, hmiddle, List.length_singleton]

theorem Encloses.isCharBoundary (h : Encloses (utf8 text) a b) : IsCharBoundary text a ∧ IsCharBoundary text b := by
  obtain ⟨⟨ch, hch, hopen⟩, ch', hch', hclose⟩ := h.brackets
  have hlt := h.1
  refine ⟨(isCharBoundary_of_ascii hch ?_).1, ?_⟩
  · obtain rfl | rfl := hopen <;> decide
  · rw [show b = b - 1 + 1 by omega]
    refine (isCharBoundary_of_ascii hch' ?_).2
    obtain rfl | rfl := hclose <;> decide

/-- What stands between two characters is a text. -/
theorem exists_subtext (ha : IsCharBoundary text a) (hb : IsCharBoundary text b) (hab : a ≤ b) :
    ∃ chunk, subtext text a b = some chunk ∧ utf8 chunk = ((utf8 text).drop a).take (b - a) := by
  obtain ⟨front, back, rfl, rfl⟩ := ha
  obtain ⟨front', back', heq, rfl⟩ := hb
  obtain ⟨middle, hmiddle⟩ : ∃ middle, utf8 front' = utf8 front ++ utf8 middle := by
    have hlist := congrArg String.toList heq
    rw [String.toList_append, String.toList_append] at hlist
    rcases List.append_eq_append_iff.mp hlist with ⟨m, hm, -⟩ | ⟨m, hm, -⟩
    · refine ⟨String.ofList m, ?_⟩
      rw [utf8_eq_encode, hm, utf8_eq_encode front, utf8_ofList]
      exact List.flatMap_append
    · have hcut : utf8 front = utf8 front' ++ Text.encode m := by
        rw [utf8_eq_encode, hm, utf8_eq_encode front']
        exact List.flatMap_append
      have hnil : Text.encode m = [] := by
        have hlength := congrArg List.length hcut
        rw [List.length_append] at hlength
        exact List.eq_nil_of_length_eq_zero (by omega)
      refine ⟨"", ?_⟩
      rw [hcut, hnil, List.append_nil]
      exact (List.append_nil _).symm
  have hchunk : utf8 middle = ((utf8 (front ++ back)).drop (utf8 front).length).take
      ((utf8 front').length - (utf8 front).length) := by
    rw [heq, utf8_append, hmiddle, List.append_assoc, List.drop_left, List.length_append, Nat.add_sub_cancel_left,
      List.take_left]
  refine ⟨middle, ?_, hchunk⟩
  rw [subtext, ← hchunk, fromUtf8?_utf8]

/-! ### What is found -/

/-- What the search finds in a text. -/
structure SpansFound (text : String) : Prop where
  increasing : (spans text).ranges.Pairwise fun x y => x.2 ≤ y.1
  boundary : ∀ x ∈ (spans text).ranges, IsCharBoundary text x.1 ∧ IsCharBoundary text x.2
  container : ∀ x ∈ (spans text).ranges, ∀ stop, Encloses (utf8 text) x.1 stop ↔ stop = x.2
  outermost : ∀ x ∈ (spans text).ranges, ∀ y ∈ (spans text).ranges, y.1 ≤ x.1 → x.2 ≤ y.2 → x = y
  /-- A bracket that is in none of the ranges never balances. -/
  complete : (spans text).exhausted = false → ∀ j ch, (utf8 text)[j]? = some ch →
    (ch = 91 ∨ ch = 93 ∨ ch = 123 ∨ ch = 125) →
      (∀ x ∈ (spans text).ranges, ¬(x.1 ≤ j ∧ j < x.2)) → ∀ stop, ¬Encloses (utf8 text) j stop
  read_le : (spans text).read ≤ 17 * (utf8 text).length

theorem spansFound (text : String) : SpansFound text := by
  have hencloses (x : ℕ × ℕ) (hx : x ∈ (spans text).ranges) : Encloses (utf8 text) x.1 x.2 :=
    (scanSpans_encloses hx).2
  have hpairwise : (spans text).ranges.Pairwise fun x y => x.2 ≤ y.1 := scanSpans_pairwise
  refine ⟨hpairwise, fun x hx => (hencloses x hx).isCharBoundary, ?_, ?_, ?_, ?_⟩
  · intro x hx stop
    constructor
    · exact fun h => h.stop_unique (hencloses x hx)
    · rintro rfl
      exact hencloses x hx
  · intro x hx y hy hstart hstop
    have hlt := (hencloses x hx).1
    obtain ⟨m, hm, rfl⟩ := List.getElem_of_mem hx
    obtain ⟨n, hn, rfl⟩ := List.getElem_of_mem hy
    rcases Nat.lt_trichotomy m n with hmn | rfl | hmn
    · have := List.pairwise_iff_getElem.mp hpairwise m n hm hn hmn
      omega
    · rfl
    · have := List.pairwise_iff_getElem.mp hpairwise n m hn hm hmn
      omega
  · intro hdone j ch hch hbracket houtside stop h
    obtain ⟨x, hx, hxj⟩ := scanSpans_complete (by omega) hdone (Nat.zero_le j) h
    exact houtside x hx hxj
  · have hread : (spans text).read ≤ _ := scanSpans_read_le
    rw [saturatingMul, SCAN_BUDGET_FACTOR] at hread
    omega

/-! ### What is rewritten -/

/-- The replacements as edits of the bytes of a text. -/
def edits (repls : List ((ℕ × ℕ) × String)) : List (Edit UInt8) :=
  repls.map fun r => ⟨r.1.1, r.1.2, utf8 r.2⟩

section Routing

variable {σ : Type} (read : String → Option Json) (crush : String → σ → Crushed × σ)

/-- What takes the place of a range is what the crusher made of it, and the range held no marker. -/
def FromCrusher (text : String) (r : (ℕ × ℕ) × String) : Prop :=
  ∃ chunk, subtext text r.1.1 r.1.2 = some chunk ∧ Text.contains "<<ccr:".toList chunk.toList = false ∧
    ∃ s, r.2 = (crush chunk s).1.compressed

/-- A rewritten text is the text with some of its containers replaced, and it is shorter. -/
def RoutedTo (text out : String) : Prop :=
  ∃ repls, (repls.map Prod.fst).Sublist (spans text).ranges ∧ (∀ r ∈ repls, FromCrusher crush text r) ∧
    Edited 0 (utf8 text) (edits repls) (utf8 out) ∧ (utf8 out).length < (utf8 text).length

theorem replacements_eq {ranges : List (ℕ × ℕ)} (s : σ)
    (h : ∀ x ∈ ranges, IsCharBoundary text x.1 ∧ IsCharBoundary text x.2 ∧ x.1 ≤ x.2) :
    ∃ repls s', replacements read crush text ranges s = some (repls, s') ∧
      (repls.map Prod.fst).Sublist ranges ∧ ∀ r ∈ repls, FromCrusher crush text r := by
  induction ranges generalizing s with
  | nil => exact ⟨[], s, rfl, .slnil, fun r hr => absurd hr List.not_mem_nil⟩
  | cons x ranges ih =>
    obtain ⟨a, b⟩ := x
    obtain ⟨⟨ha, hb, hab⟩, hranges⟩ := List.forall_mem_cons.mp h
    obtain ⟨chunk, hchunk, -⟩ := exists_subtext ha hb hab
    rw [replacements, hchunk, Option.bind_eq_bind, Option.bind_some]
    by_cases hskip : (Text.contains "<<ccr:".toList chunk.toList || !hasRoutableJson read chunk) = true
    · rw [if_pos hskip]
      obtain ⟨repls, s', hrepls, hsub, hfrom⟩ := ih s hranges
      exact ⟨repls, s', hrepls, hsub.cons _, hfrom⟩
    · rw [if_neg hskip]
      have hmarker : Text.contains "<<ccr:".toList chunk.toList = false := by
        rw [Bool.or_eq_true, not_or, Bool.not_eq_true] at hskip
        exact hskip.1
      obtain ⟨repls, s', hrepls, hsub, hfrom⟩ := ih (crush chunk s).2 hranges
      dsimp only
      rw [hrepls, Option.bind_eq_bind, Option.bind_some]
      dsimp only
      split_ifs
      · refine ⟨_, s', rfl, hsub.cons_cons _, List.forall_mem_cons.mpr ⟨?_, hfrom⟩⟩
        exact ⟨chunk, hchunk, hmarker, s, rfl⟩
      · exact ⟨repls, s', rfl, hsub.cons _, hfrom⟩

variable {read crush}

theorem spliced_eq {last : ℕ} {repls : List ((ℕ × ℕ) × String)} (hlast : IsCharBoundary text last)
    (hboundary : ∀ r ∈ repls, IsCharBoundary text r.1.1 ∧ IsCharBoundary text r.1.2)
    (hfits : Edit.Fits last (utf8 text).length (edits repls)) :
    ∃ out, spliced text last repls = some out ∧ utf8 out = splice last ((utf8 text).drop last) (edits repls) := by
  induction repls generalizing last with
  | nil =>
    obtain ⟨out, hout, hbytes⟩ := exists_subtext hlast isCharBoundary_length hfits
    refine ⟨out, hout, ?_⟩
    rw [hbytes]
    exact List.take_of_length_le (by rw [List.length_drop])
  | cons r repls ih =>
    obtain ⟨⟨a, b⟩, replacement⟩ := r
    obtain ⟨⟨ha, hb⟩, hrest⟩ := List.forall_mem_cons.mp hboundary
    obtain ⟨hstart, hstop, hfits⟩ : last ≤ a ∧ a ≤ b ∧ Edit.Fits b (utf8 text).length (edits repls) := hfits
    obtain ⟨front, hfront, hfrontBytes⟩ := exists_subtext hlast ha hstart
    obtain ⟨back, hback, hbackBytes⟩ := ih hb hrest hfits
    refine ⟨front ++ replacement ++ back, ?_, ?_⟩
    · rw [spliced, hfront, hback]
      rfl
    · show _ = ((utf8 text).drop last).take (a - last) ++ utf8 replacement ++
        splice b (((utf8 text).drop last).drop (b - last)) (edits repls)
      rw [utf8_append, utf8_append, hfrontBytes, hbackBytes, List.drop_drop, show last + (b - last) = b by omega]

theorem fits_edits {repls : List ((ℕ × ℕ) × String)} {base stop : ℕ} (hbase : base ≤ stop)
    (hranges : ∀ r ∈ repls, base ≤ r.1.1 ∧ r.1.1 ≤ r.1.2 ∧ r.1.2 ≤ stop)
    (hpairwise : (repls.map Prod.fst).Pairwise fun x y => x.2 ≤ y.1) : Edit.Fits base stop (edits repls) := by
  induction repls generalizing base with
  | nil => exact hbase
  | cons r repls ih =>
    obtain ⟨⟨hstart, hle, hstop⟩, hrest⟩ := List.forall_mem_cons.mp hranges
    obtain ⟨hhead, htail⟩ := List.pairwise_cons.mp hpairwise
    refine ⟨hstart, hle, ih hstop ?_ htail⟩
    intro r' hr'
    exact ⟨hhead r'.1 (List.mem_map_of_mem hr'), (hrest r' hr').2⟩

/-- The search finds outermost containers, and a rewritten text is the text with some of them replaced. -/
theorem embeddedJson_routing (read : String → Option Json) (crush : String → σ → Crushed × σ) (text : String)
    (s : σ) :
    SpansFound text ∧ ∃ result s', routeEmbeddedJson read crush text s = some (result, s') ∧
      ∀ out, result = some out → RoutedTo crush text out := by
  have hfound := spansFound text
  refine ⟨hfound, ?_⟩
  have hencloses (x : ℕ × ℕ) (hx : x ∈ (spans text).ranges) : Encloses (utf8 text) x.1 x.2 :=
    (hfound.container x hx x.2).mpr rfl
  have hcut (x : ℕ × ℕ) (hx : x ∈ (spans text).ranges) :
      IsCharBoundary text x.1 ∧ IsCharBoundary text x.2 ∧ x.1 ≤ x.2 :=
    ⟨(hfound.boundary x hx).1, (hfound.boundary x hx).2, Nat.le_of_lt (hencloses x hx).1⟩
  obtain ⟨repls, s', hrepls, hsub, hfrom⟩ := replacements_eq read crush s hcut
  have hmem (r : (ℕ × ℕ) × String) (hr : r ∈ repls) : r.1 ∈ (spans text).ranges :=
    hsub.subset (List.mem_map_of_mem hr)
  rw [routeEmbeddedJson, hrepls, Option.bind_eq_bind, Option.bind_some]
  dsimp only
  by_cases hnil : repls = []
  · rw [if_pos hnil]
    exact ⟨none, s', rfl, nofun⟩
  rw [if_neg hnil]
  have hfits : Edit.Fits 0 (utf8 text).length (edits repls) := by
    refine fits_edits (Nat.zero_le _) ?_ (hfound.increasing.sublist hsub)
    intro r hr
    obtain ⟨hlt, hle, -⟩ := hencloses r.1 (hmem r hr)
    exact ⟨Nat.zero_le _, Nat.le_of_lt hlt, hle⟩
  obtain ⟨out, hout, hbytes⟩ := spliced_eq isCharBoundary_zero (fun r hr => hfound.boundary r.1 (hmem r hr)) hfits
  rw [hout, Option.bind_eq_bind, Option.bind_some]
  refine ⟨_, s', rfl, ?_⟩
  intro out' hout'
  split_ifs at hout' with hshort
  obtain rfl := Option.some.inj hout'
  refine ⟨repls, hsub, hfrom, ⟨?_, hbytes.symm⟩, hshort⟩
  rw [Nat.zero_add]
  exact hfits

end Routing

end Headroom.LiveZone.EmbeddedJson
