import Headroom.Foundation.Replace
import Headroom.PrefixReplay.EphemeralSpans

/-!
# Spans at the end of a text

A text whose reminder spans all stand at its end is its prose, then spans with nothing but whitespace
between them. Taken out, each span is a text that is that span and nothing else, and what is left has
none. So spans can be moved from one text to others without one coming or going.
-/

open Foundation

namespace Headroom.PrefixReplay

/-- The spans of a text. -/
def spansOf (text : List Char) : List (List Char) := (splitEphemeralSpans text).2

/-- How often the opening tag stands in a text. Two of them never overlap. -/
def spanCount (text : List Char) : ℕ := occurrences systemReminderOpenTag text

/-- A text that is one span and nothing else. -/
def IsSpan (span : List Char) : Prop := splitEphemeralSpans span = ([], [span])

/-- A text of spans and whitespace. -/
def Scaffold (text : List Char) (spans : List (List Char)) : Prop :=
  splitEphemeralSpans text = ([], spans)

/-! ### The two tags -/

theorem openTag_ne_nil : systemReminderOpenTag ≠ [] := by decide

theorem closeTag_ne_nil : systemReminderCloseTag ≠ [] := by decide

theorem clear_of_getLast {a b : List Char} {c : Char} (hlast : a.getLast? = some c)
    (hc : c ∉ systemReminderOpenTag.dropLast) : Clear systemReminderOpenTag a b := by
  intro a' hne hsuffix hpre
  refine List.prefix_of_prefix_length_le hpre (List.prefix_append a' b) ?_
  by_contra hlt
  have hshort : a' <+: systemReminderOpenTag :=
    List.prefix_of_prefix_length_le (List.prefix_append a' b) hpre (by omega)
  have hdrop : a' <+: systemReminderOpenTag.dropLast := by
    rw [List.dropLast_eq_take]
    exact List.prefix_take_iff.mpr ⟨hshort, by omega⟩
  have hlast' : a'.getLast? = some c := by
    obtain ⟨front, rfl⟩ := hsuffix
    rwa [List.getLast?_append_of_ne_nil _ hne] at hlast
  exact hc (hdrop.subset (List.mem_of_getLast? hlast'))

theorem not_prefix_of_isWhitespace {c : Char} (hc : Text.isWhitespace c) (text : List Char) :
    ¬ systemReminderOpenTag <+: c :: text := by
  intro h
  obtain rfl : '<' = c := (List.cons_prefix_cons.mp h).1
  exact absurd hc (by decide)

variable {text : List Char}

theorem spanCount_of_blank (h : ∀ c ∈ text, Text.isWhitespace c) :
    spanCount text = 0 := by
  induction text with
  | nil => rfl
  | cons c text ih =>
    rw [spanCount, occurrences, if_neg, Nat.zero_add]
    · exact ih fun c hc => h c (List.mem_cons_of_mem _ hc)
    · rw [List.isPrefixOf_iff_prefix]
      exact not_prefix_of_isWhitespace (h c List.mem_cons_self) text

variable {i : ℕ}

theorem spanCount_drop (h : ∀ j < i, ¬ systemReminderOpenTag <+: text.drop j) :
    spanCount text = spanCount (text.drop i) := by
  induction i generalizing text with
  | zero => rfl
  | succ i ih =>
    cases text with
    | nil => rfl
    | cons c text =>
      have hfirst : ¬ systemReminderOpenTag.isPrefixOf (c :: text) = true := by
        rw [List.isPrefixOf_iff_prefix]
        exact h 0 (Nat.succ_pos i)
      rw [spanCount, occurrences, if_neg hfirst, Nat.zero_add]
      exact ih fun j hj => h (j + 1) (by omega)

/-! ### Lifting -/

/-- The spans of a text and the pieces between them. -/
def lift (text : List Char) : List Char × List (List Char) := liftSpans text.length text

theorem spansOf_eq (text : List Char) : spansOf text = (lift text).2 := by
  rw [spansOf, splitEphemeralSpans, lift]
  dsimp only
  split_ifs with h
  · rfl
  · rfl

theorem lift_of_absent (h : ¬ systemReminderOpenTag <:+: text) :
    lift text = (text, []) := by
  have hfind := (Text.find?_eq_none_iff openTag_ne_nil).mpr h
  rw [lift]
  cases text with
  | nil => rfl
  | cons c text => rw [List.length_cons, liftSpans, hfind]

theorem lift_of_unclosed (hopen : Text.find? systemReminderOpenTag text = some i)
    (hclose : Text.find? systemReminderCloseTag (text.drop i) = none) : lift text = (text, []) := by
  rw [lift]
  cases text with
  | nil => rfl
  | cons c text =>
    rw [List.length_cons, liftSpans, hopen]
    dsimp only
    rw [hclose]

theorem lift_of_closed {i j : ℕ}
    (hopen : Text.find? systemReminderOpenTag text = some i)
    (hclose : Text.find? systemReminderCloseTag (text.drop i) = some j) :
    lift text =
      (text.take i ++ (lift (text.drop (i + j + systemReminderCloseTag.length))).1,
        (text.take (i + j + systemReminderCloseTag.length)).drop i ::
          (lift (text.drop (i + j + systemReminderCloseTag.length))).2) := by
  have hpos : 0 < systemReminderCloseTag.length := by decide
  cases text with
  | nil =>
    have := Text.add_length_le_of_find? openTag_ne_nil hopen
    simp at this
    exact absurd this.2 openTag_ne_nil
  | cons c text =>
    have hfuel : liftSpans text.length
        ((c :: text).drop (i + j + systemReminderCloseTag.length)) =
        lift ((c :: text).drop (i + j + systemReminderCloseTag.length)) :=
      liftSpans_of_length_le (by rw [List.length_drop, List.length_cons]; omega)
    rw [lift, List.length_cons, liftSpans, hopen]
    dsimp only
    rw [hclose]
    dsimp only
    rw [hfuel]

theorem lift_drop (hopen : Text.find? systemReminderOpenTag text = some i) :
    lift text = (text.take i ++ (lift (text.drop i)).1, (lift (text.drop i)).2) := by
  have hopen' : Text.find? systemReminderOpenTag (text.drop i) = some 0 :=
    Text.find?_eq_some openTag_ne_nil (by simpa using Text.prefix_of_find? hopen) (by omega)
  cases hclose : Text.find? systemReminderCloseTag (text.drop i) with
  | none =>
    rw [lift_of_unclosed hopen hclose, lift_of_unclosed hopen' (by simpa using hclose),
      List.take_append_drop]
  | some j =>
    rw [lift_of_closed hopen hclose, lift_of_closed hopen' (by simpa using hclose)]
    simp only [List.drop_drop, List.take_zero, List.nil_append, Nat.zero_add, List.drop_take,
      Nat.add_assoc, Nat.add_sub_cancel_left, Nat.sub_zero, Nat.add_zero]

theorem lift_nil : lift [] = ([], []) := rfl

/-- A text of spans and whitespace, by its pieces. -/
theorem scaffold_iff {spans : List (List Char)} (hne : spans ≠ []) :
    Scaffold text spans ↔ (lift text).2 = spans ∧ ∀ c ∈ (lift text).1, Text.isWhitespace c := by
  rw [Scaffold, splitEphemeralSpans, ← lift]
  dsimp only
  split_ifs with hempty
  · refine iff_of_false (fun h => hne ?_) (fun h => hne ?_)
    · rw [← List.isEmpty_iff.mp hempty]
      exact (congrArg Prod.snd h).symm
    · rw [← List.isEmpty_iff.mp hempty, h.1]
  · rw [Prod.mk.injEq, Text.trim_eq_nil_iff, and_comm]

theorem span_of_closed {j : ℕ}
    (hopen : Text.find? systemReminderOpenTag text = some 0)
    (hclose : Text.find? systemReminderCloseTag text = some j) :
    IsSpan (text.take (j + systemReminderCloseTag.length)) ∧
      (text.take (j + systemReminderCloseTag.length)).getLast? = some '>' := by
  have hopens : systemReminderOpenTag <+: text := by simpa using Text.prefix_of_find? hopen
  have hlength := Text.add_length_le_of_find? closeTag_ne_nil hclose
  have hlong : systemReminderOpenTag.length ≤ j + systemReminderCloseTag.length :=
    Nat.le_trans (by decide : systemReminderOpenTag.length ≤ systemReminderCloseTag.length)
      (Nat.le_add_left _ _)
  have hopen' : Text.find? systemReminderOpenTag
      (text.take (j + systemReminderCloseTag.length)) = some 0 :=
    Text.find?_eq_some openTag_ne_nil (List.prefix_take_iff.mpr ⟨hopens, hlong⟩) (by omega)
  have hbehind : (text.take (j + systemReminderCloseTag.length)).drop j =
      (text.drop j).take systemReminderCloseTag.length := by
    rw [List.drop_take, Nat.add_sub_cancel_left]
  have hclose' : Text.find? systemReminderCloseTag
      (text.take (j + systemReminderCloseTag.length)) = some j := by
    refine Text.find?_eq_some closeTag_ne_nil ?_ fun k hk hpre => ?_
    · rw [hbehind]
      exact List.prefix_take_iff.mpr ⟨Text.prefix_of_find? hclose, le_rfl⟩
    · refine Text.not_prefix_of_find? hclose hk (hpre.trans ?_)
      rw [List.drop_take]
      exact List.take_prefix _ _
  refine ⟨(scaffold_iff (List.cons_ne_nil _ _)).mpr ?_, ?_⟩
  · rw [lift_of_closed hopen' (by simpa using hclose')]
    have hall : (text.take (j + systemReminderCloseTag.length)).drop
        (0 + j + systemReminderCloseTag.length) = [] := by
      rw [List.drop_eq_nil_iff, List.length_take]
      omega
    rw [hall, lift_nil]
    simp
  · obtain ⟨behind, hbehind'⟩ := Text.prefix_of_find? hclose
    have htake : (text.drop j).take systemReminderCloseTag.length = systemReminderCloseTag := by
      rw [← hbehind', List.take_left]
    rw [List.take_add, htake, List.getLast?_append_of_ne_nil _ closeTag_ne_nil]
    decide

theorem spanCount_lift (h : ∀ c ∈ (lift text).1, Text.isWhitespace c) :
    spanCount text = ((lift text).2.map spanCount).sum ∧ ∀ span ∈ (lift text).2, IsSpan span := by
  generalize hn : text.length = n
  induction n using Nat.strongRecOn generalizing text with
  | ind n ih =>
    have hblank (hlift : lift text = (text, [])) :
        spanCount text = ((lift text).2.map spanCount).sum ∧ ∀ span ∈ (lift text).2, IsSpan span := by
      rw [hlift] at h ⊢
      exact ⟨spanCount_of_blank h, by simp⟩
    cases hopen : Text.find? systemReminderOpenTag text with
    | none => exact hblank (lift_of_absent ((Text.find?_eq_none_iff openTag_ne_nil).mp hopen))
    | some i =>
      cases hclose : Text.find? systemReminderCloseTag (text.drop i) with
      | none => exact hblank (lift_of_unclosed hopen hclose)
      | some j =>
        have hopen' : Text.find? systemReminderOpenTag (text.drop i) = some 0 :=
          Text.find?_eq_some openTag_ne_nil (by simpa using Text.prefix_of_find? hopen) (by omega)
        obtain ⟨hspan, hlast⟩ := span_of_closed hopen' hclose
        have hrest := lift_of_closed hopen hclose
        have hlength := Text.add_length_le_of_find? closeTag_ne_nil hclose
        rw [List.length_drop] at hlength
        have hpos : 0 < systemReminderCloseTag.length := by decide
        have hlt : (text.drop (i + j + systemReminderCloseTag.length)).length < n := by
          rw [List.length_drop]
          omega
        have htail := ih _ hlt (fun c hc => h c (by
          rw [hrest]
          exact List.mem_append_right _ hc)) rfl
        have hcut : (text.take (i + j + systemReminderCloseTag.length)).drop i =
            (text.drop i).take (j + systemReminderCloseTag.length) := by
          rw [List.drop_take]
          congr 1
          omega
        have hdrop : text.drop (i + j + systemReminderCloseTag.length) =
            (text.drop i).drop (j + systemReminderCloseTag.length) := by
          rw [List.drop_drop, Nat.add_assoc]
        have hcount : spanCount text =
            spanCount ((text.drop i).take (j + systemReminderCloseTag.length)) +
              spanCount (text.drop (i + j + systemReminderCloseTag.length)) := by
          rw [spanCount_drop fun k hk => Text.not_prefix_of_find? hopen hk, hdrop, spanCount, spanCount,
            spanCount, ← (clear_of_getLast hlast (by decide)).occurrences_append,
            List.take_append_drop]
        rw [hrest]
        refine ⟨?_, fun span hmem => ?_⟩
        · rw [hcount, htail.1, List.map_cons, List.sum_cons, hcut]
        · rcases List.mem_cons.mp hmem with rfl | hmem
          · rw [hcut]
            exact hspan
          · exact htail.2 span hmem

/-! ### Spans at the end -/

theorem of_absent (h : ¬ systemReminderOpenTag <:+: text) :
    splitTrailingEphemeralSpans text = none ∧ spansOf text = [] ∧ spanCount text = 0 := by
  refine ⟨?_, ?_, (occurrences_eq_zero_iff openTag_ne_nil).mpr h⟩
  · rw [splitTrailingEphemeralSpans, (Text.find?_eq_none_iff openTag_ne_nil).mpr h]
  · rw [spansOf_eq, lift_of_absent h]

theorem IsSpan.spansOf_eq {span : List Char} (h : IsSpan span) : spansOf span = [span] := by
  rw [spansOf, h]

theorem IsSpan.splitTrailing {span : List Char} (h : IsSpan span) :
    splitTrailingEphemeralSpans span = some ([], [span]) := by
  have hlift := ((scaffold_iff (List.cons_ne_nil span [])).mp h).1
  cases hopen : Text.find? systemReminderOpenTag span with
  | none =>
    rw [lift_of_absent ((Text.find?_eq_none_iff openTag_ne_nil).mp hopen)] at hlift
    cases hlift
  | some i =>
    cases hclose : Text.find? systemReminderCloseTag (span.drop i) with
    | none =>
      rw [lift_of_unclosed hopen hclose] at hlift
      cases hlift
    | some j =>
      -- the span that is lifted is as long as the text only if it starts at its front
      have hzero : i = 0 := by
        rw [lift_of_closed hopen hclose] at hlift
        have hlength := congrArg List.length (List.cons.inj hlift).1
        rw [List.length_drop, List.length_take] at hlength
        have := Text.add_length_le_of_find? openTag_ne_nil hopen
        have hpos : 0 < systemReminderOpenTag.length := by decide
        omega
      have hself : splitEphemeralSpans span = ([], [span]) := h
      simp only [splitTrailingEphemeralSpans, hopen, hzero, List.drop_zero, hself]
      rfl

/-- What the prose and the spans of a text are. -/
theorem splitTrailing_spec {text prose : List Char} {spans : List (List Char)}
    (h : splitTrailingEphemeralSpans text = some (prose, spans)) :
    (∃ tail, text = prose ++ tail ∧ Scaffold tail spans) ∧ ¬ systemReminderOpenTag <:+: prose ∧
      spans ≠ [] ∧ spansOf text = spans ∧ spanCount text = (spans.map spanCount).sum ∧
      ∀ span ∈ spans, IsSpan span := by
  cases hopen : Text.find? systemReminderOpenTag text with
  | none => simp [splitTrailingEphemeralSpans, hopen] at h
  | some i =>
    obtain ⟨hne, hscaffold, hprose⟩ : spans ≠ [] ∧ Scaffold (text.drop i) spans ∧
        Text.trimEnd (text.take i) = prose := by
      simp only [splitTrailingEphemeralSpans, hopen] at h
      split_ifs at h with hcond
      rw [Option.some.injEq, Prod.mk.injEq] at h
      simp only [Bool.or_eq_true, List.isEmpty_iff, Bool.not_eq_true', not_or,
        Bool.not_eq_false] at hcond
      exact ⟨h.2 ▸ hcond.1, Prod.ext hcond.2 h.2, h.1⟩
    obtain ⟨hspans, hblank⟩ := (scaffold_iff hne).mp hscaffold
    obtain ⟨blank, htake, hblank'⟩ := Text.exists_eq_trimEnd_append (text.take i)
    rw [hprose] at htake
    have htext : text = prose ++ (blank ++ text.drop i) := by
      rw [← List.append_assoc, ← htake, List.take_append_drop]
    have hlift := lift_drop hopen
    have hcount := spanCount_lift hblank
    refine ⟨⟨blank ++ text.drop i, htext, ?_⟩, ?_, hne, ?_, ?_, ?_⟩
    · have hfirst : Text.find? systemReminderOpenTag (blank ++ text.drop i) = some blank.length := by
        refine Text.find?_eq_some openTag_ne_nil ?_ fun j hj hpre => ?_
        · rw [List.drop_left]
          exact Text.prefix_of_find? hopen
        · rw [List.drop_append_of_le_length hj.le, List.drop_eq_getElem_cons hj,
            List.cons_append] at hpre
          exact not_prefix_of_isWhitespace (hblank' _ (List.getElem_mem hj)) _ hpre
      refine (scaffold_iff hne).mpr ?_
      rw [lift_drop hfirst, List.take_left, List.drop_left]
      refine ⟨hspans, fun c hc => ?_⟩
      rcases List.mem_append.mp hc with hc | hc
      · exact hblank' c hc
      · exact hblank c hc
    · rintro ⟨before, behind, hinfix⟩
      have hshort : before.length < i := by
        have h₁ := congrArg List.length hinfix
        have h₂ := congrArg List.length htake
        have hpos : 0 < systemReminderOpenTag.length := by decide
        rw [List.length_append, List.length_append] at h₁
        rw [List.length_append, List.length_take] at h₂
        omega
      refine Text.not_prefix_of_find? hopen hshort ?_
      rw [htext, ← hinfix, List.append_assoc, List.append_assoc, List.drop_left]
      exact List.prefix_append _ _
    · rw [spansOf_eq, hlift]
      exact hspans
    · rw [spanCount_drop fun k hk => Text.not_prefix_of_find? hopen hk, hcount.1, hspans]
    · rw [← hspans]
      exact hcount.2

end Headroom.PrefixReplay
