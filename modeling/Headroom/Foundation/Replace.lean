import Mathlib.Algebra.GroupWithZero.Nat
import Mathlib.Algebra.Order.Group.Nat
import Mathlib.Data.List.Infix
import Mathlib.Data.List.Count

/-!
# Replacement of marks

Replacing every occurrence of a pattern undoes an insertion of it, if the pattern occurs where it
was inserted and nowhere else. A *mark* starts with a letter twice and holds it nowhere else, so
that marks overlap neither themselves nor each other. A text is cut into gaps and parts; filling
puts a mark in the place of every part, and unfilling replaces the marks by the parts, one after
the other.
-/

namespace Foundation

variable {α : Type*} [DecidableEq α]

/-! ### Replacing and counting -/

/-- Replace the occurrences of a pattern, after a number of elements that are left out. -/
def replaceFrom (pattern new : List α) : ℕ → List α → List α
  | _, [] => []
  | skip + 1, _ :: l => replaceFrom pattern new skip l
  | 0, a :: l =>
    if pattern.isPrefixOf (a :: l) then new ++ replaceFrom pattern new (pattern.length - 1) l
    else a :: replaceFrom pattern new 0 l

/-- Replace the occurrences of a pattern that is not empty, from left to right. -/
def replaceAll (pattern new l : List α) : List α := replaceFrom pattern new 0 l

/-- How many positions a pattern occurs at. -/
def occurrences (pattern : List α) : List α → ℕ
  | [] => 0
  | a :: l => (if pattern.isPrefixOf (a :: l) then 1 else 0) + occurrences pattern l

/-- Whether a pattern occurs. -/
def contains (pattern l : List α) : Bool := l.tails.any pattern.isPrefixOf

section Replace

variable {p s l A B : List α} {a : α}

theorem contains_iff : contains p l = true ↔ p <:+: l := by
  rw [contains, List.any_eq_true, List.infix_iff_prefix_suffix]
  refine exists_congr fun t => ?_
  rw [List.mem_tails, List.isPrefixOf_iff_prefix, and_comm]

theorem replaceFrom_eq (p s : List α) (skip : ℕ) (l : List α) :
    replaceFrom p s skip l = replaceAll p s (l.drop skip) := by
  induction l generalizing skip with
  | nil => rw [List.drop_nil]; cases skip <;> rfl
  | cons a l ih =>
    cases skip with
    | zero => rfl
    | succ skip => exact ih skip

@[simp] theorem replaceAll_nil : replaceAll p s [] = [] := rfl

theorem replaceAll_of_prefix (hp : p ≠ []) (l : List α) :
    replaceAll p s (p ++ l) = s ++ replaceAll p s l := by
  obtain ⟨a, t, rfl⟩ := List.exists_cons_of_ne_nil hp
  have hpre : (a :: t).isPrefixOf (a :: (t ++ l)) = true :=
    List.isPrefixOf_iff_prefix.mpr (List.prefix_append (a :: t) l)
  rw [List.cons_append, replaceAll, replaceFrom, if_pos hpre, replaceFrom_eq, List.length_cons,
    Nat.add_sub_cancel, List.drop_left]

theorem replaceAll_of_not_start (h : ¬ p <+: a :: l) :
    replaceAll p s (a :: l) = a :: replaceAll p s l := by
  rw [replaceAll, replaceFrom, if_neg (mt List.isPrefixOf_iff_prefix.mp h)]
  rfl

theorem replaceAll_of_absent (h : ¬ p <:+: l) : replaceAll p s l = l := by
  induction l with
  | nil => rfl
  | cons a l ih =>
    rw [replaceAll_of_not_start fun hp => h hp.isInfix,
      ih fun hp => h (hp.trans (List.suffix_cons a l).isInfix)]

theorem occurrences_eq_zero_iff (hp : p ≠ []) : occurrences p l = 0 ↔ ¬ p <:+: l := by
  induction l with
  | nil => simp [occurrences, hp]
  | cons a l ih =>
    rw [occurrences, List.infix_cons_iff, not_or, ← ih, ← List.isPrefixOf_iff_prefix]
    split_ifs with h
    · simp [h]
    · simp [h]

/-- No occurrence of the pattern goes over the cut between two texts. -/
def Clear (p A B : List α) : Prop := ∀ A', A' ≠ [] → A' <:+ A → p <+: A' ++ B → p <+: A'

omit [DecidableEq α] in
theorem Clear.of_suffix {A' : List α} (h : Clear p A B) (hA : A' <:+ A) : Clear p A' B :=
  fun A'' hne hs => h A'' hne (hs.trans hA)

theorem Clear.occurrences_append (h : Clear p A B) :
    occurrences p (A ++ B) = occurrences p A + occurrences p B := by
  induction A with
  | nil => rw [List.nil_append, occurrences, Nat.zero_add]
  | cons a A ih =>
    have hiff : p.isPrefixOf (a :: (A ++ B)) = p.isPrefixOf (a :: A) := by
      rw [Bool.eq_iff_iff, List.isPrefixOf_iff_prefix, List.isPrefixOf_iff_prefix]
      exact ⟨h _ (List.cons_ne_nil a A) List.suffix_rfl, fun hp => hp.trans (List.prefix_append (a :: A) B)⟩
    rw [List.cons_append, occurrences, occurrences, hiff, ih (h.of_suffix (List.suffix_cons a A)),
      Nat.add_assoc]

theorem Clear.replaceAll_append (hp : p ≠ []) (h : Clear p A B) :
    replaceAll p s (A ++ B) = replaceAll p s A ++ replaceAll p s B := by
  generalize hn : A.length = n
  induction n using Nat.strongRecOn generalizing A with
  | ind n ih =>
    cases A with
    | nil => rfl
    | cons a A =>
      by_cases hpre : p <+: a :: (A ++ B)
      · obtain ⟨A', hA'⟩ := h _ (List.cons_ne_nil a A) List.suffix_rfl hpre
        have hlt : A'.length < n := by
          have hlength := congrArg List.length hA'
          rw [List.length_append, hn] at hlength
          have := List.length_pos_iff.mpr hp
          omega
        have hclear : Clear p A' B := h.of_suffix (hA' ▸ List.suffix_append p A')
        rw [← hA', List.append_assoc, replaceAll_of_prefix hp, replaceAll_of_prefix hp,
          ih _ hlt hclear rfl, List.append_assoc]
      · have hshort : ¬ p <+: a :: A := fun hp' => hpre (hp'.trans (List.prefix_append (a :: A) B))
        rw [List.cons_append, replaceAll_of_not_start hpre, replaceAll_of_not_start hshort,
          ih A.length (by rw [← hn, List.length_cons]; omega)
            (h.of_suffix (List.suffix_cons a A)) rfl, List.cons_append]

end Replace

omit [DecidableEq α] in
/-- The cuts of a list, by its first element. -/
theorem forall_split_cons {P : List α → α → List α → Prop} {a : α} {l : List α} :
    (∀ before x behind, a :: l = before ++ x :: behind → P before x behind) ↔
      P [] a l ∧ ∀ before x behind, l = before ++ x :: behind → P (a :: before) x behind := by
  refine ⟨fun h => ⟨h [] a l rfl, fun before x behind hsplit =>
    h (a :: before) x behind (by rw [hsplit, List.cons_append])⟩, ?_⟩
  rintro ⟨hfirst, hrest⟩ before x behind hsplit
  cases before with
  | nil =>
    obtain ⟨rfl, rfl⟩ := List.cons.inj hsplit
    exact hfirst
  | cons b before =>
    obtain ⟨rfl, rfl⟩ := List.cons.inj hsplit
    exact hrest before x behind rfl

/-! ### Marks -/

/-- A letter twice, and then something without it. -/
def IsMark (a : α) (p : List α) : Prop := ∃ tail, p = a :: a :: tail ∧ tail ≠ [] ∧ a ∉ tail

section Mark

variable {a : α} {p w s A B : List α}

omit [DecidableEq α]

theorem IsMark.ne_nil (h : IsMark a p) : p ≠ [] := by
  obtain ⟨tail, rfl, -⟩ := h
  exact List.cons_ne_nil _ _

theorem IsMark.two_lt_length (h : IsMark a p) : 2 < p.length := by
  obtain ⟨tail, rfl, hne, -⟩ := h
  have := List.length_pos_iff.mpr hne
  simp only [List.length_cons]
  omega

/-- The letter of a mark stands at its first two positions and at no other. -/
theorem IsMark.getElem?_iff (h : IsMark a p) {i : ℕ} : p[i]? = some a ↔ i < 2 := by
  obtain ⟨tail, rfl, -, hnot⟩ := h
  match i with
  | 0 => simp
  | 1 => simp
  | i + 2 =>
    have hne : tail[i]? ≠ some a := fun hget => hnot (List.mem_of_getElem? hget)
    simp [hne]

theorem IsMark.clear_left (hp : IsMark a p) (hw : IsMark a w) : Clear p A (w ++ B) := by
  intro A' hne _ hpre
  by_contra hnot
  have hlt : A'.length < p.length := by
    by_contra hge
    exact hnot (List.prefix_of_prefix_length_le hpre (List.prefix_append _ _) (by omega))
  have hget : ∀ i < w.length, A'.length + i < p.length → p[A'.length + i]? = w[i]? := by
    intro i hi hlen
    obtain ⟨more, hmore⟩ := hpre
    rw [← @List.getElem?_append_left _ p more _ hlen, hmore,
      List.getElem?_append_right (Nat.le_add_right _ _), Nat.add_sub_cancel_left,
      List.getElem?_append_left hi]
  have hpos := List.length_pos_iff.mpr hne
  have htwo := hw.two_lt_length
  have hthree := hp.two_lt_length
  have hfirst : A'.length + 0 < 2 :=
    hp.getElem?_iff.mp ((hget 0 (by omega) (by omega)).trans (hw.getElem?_iff.mpr (by omega)))
  have hsecond : A'.length + 1 < 2 :=
    hp.getElem?_iff.mp ((hget 1 (by omega) (by omega)).trans (hw.getElem?_iff.mpr (by omega)))
  omega

/-- A mark ends no occurrence of a mark that starts in it, if it is not the start of that mark. -/
theorem IsMark.clear_right (hp : IsMark a p) (hw : IsMark a w) (hne : w <+: p → w = p) :
    Clear p w B := by
  rintro A' hA' ⟨front, rfl⟩ hpre
  cases front with
  | nil =>
    rcases Nat.le_total p.length A'.length with hle | hle
    · exact List.prefix_of_prefix_length_le hpre (List.prefix_append _ _) hle
    · rw [show p = A' from (hne (List.prefix_of_prefix_length_le (List.prefix_append _ _) hpre hle)).symm]
  | cons b front =>
    have hget : ∀ i < 2, i < A'.length → (b :: front ++ A')[(b :: front).length + i]? = some a := by
      intro i hi hlen
      obtain ⟨more, hmore⟩ := hpre
      rw [List.getElem?_append_right (Nat.le_add_right _ _), Nat.add_sub_cancel_left,
        ← @List.getElem?_append_left _ _ B _ hlen, ← hmore,
        List.getElem?_append_left (by have := hp.two_lt_length; omega)]
      exact hp.getElem?_iff.mpr hi
    have hpos := List.length_pos_iff.mpr hA'
    have hfirst := hw.getElem?_iff.mp (hget 0 (by omega) hpos)
    by_cases hone : 1 < A'.length
    · have hsecond := hw.getElem?_iff.mp (hget 1 (by omega) hone)
      rw [List.length_cons] at hsecond
      omega
    · have hlength := hw.two_lt_length
      rw [List.length_append] at hlength
      rw [List.length_cons] at hfirst hlength
      omega

variable [DecidableEq α]

/-- A mark cuts a text in two. -/
theorem replaceAll_append_mark (hp : IsMark a p) (hw : IsMark a w) (hne : w <+: p → w = p) :
    replaceAll p s (A ++ (w ++ B)) = replaceAll p s A ++ (replaceAll p s w ++ replaceAll p s B) := by
  rw [(hp.clear_left hw).replaceAll_append hp.ne_nil,
    (hp.clear_right hw hne).replaceAll_append hp.ne_nil]

theorem occurrences_append_mark (hp : IsMark a p) (hw : IsMark a w) (hne : w <+: p → w = p) :
    occurrences p (A ++ (w ++ B)) = occurrences p A + (occurrences p w + occurrences p B) := by
  rw [(hp.clear_left hw).occurrences_append, (hp.clear_right hw hne).occurrences_append]

theorem replaceAll_self (hp : p ≠ []) : replaceAll p s p = s := by
  have h := replaceAll_of_prefix (s := s) hp []
  rwa [List.append_nil, replaceAll_nil, List.append_nil] at h

omit [DecidableEq α] in
theorem IsMark.prefix_of_occurs (hp : IsMark a p) (hw : IsMark a w) (h : p <:+: w) : p <+: w := by
  obtain ⟨front, back, hsplit⟩ := h
  have hget : ∀ i < 2, w[front.length + i]? = some a := by
    intro i hi
    rw [← hsplit, List.append_assoc, List.getElem?_append_right (Nat.le_add_right _ _),
      Nat.add_sub_cancel_left, List.getElem?_append_left (by have := hp.two_lt_length; omega)]
    exact hp.getElem?_iff.mpr hi
  have hsecond := hw.getElem?_iff.mp (hget 1 (by omega))
  obtain rfl : front = [] := List.eq_nil_of_length_eq_zero (by omega)
  exact ⟨back, hsplit⟩

theorem occurrences_self (hp : IsMark a p) : occurrences p p = 1 := by
  obtain ⟨tail, rfl, hne, hnot⟩ := id hp
  have hzero : occurrences (a :: a :: tail) (a :: tail) = 0 := by
    rw [occurrences_eq_zero_iff hp.ne_nil]
    intro h
    have := h.length_le
    simp at this
  rw [occurrences, hzero, if_pos (List.isPrefixOf_iff_prefix.mpr List.prefix_rfl)]

/-- Replacing does not make a letter rarer that is not in the pattern. -/
theorem count_le_replaceAll {c : α} (hp : IsMark a p) (hc : c ∉ p) (l : List α) :
    l.count c ≤ (replaceAll p s l).count c := by
  generalize hn : l.length = n
  induction n using Nat.strongRecOn generalizing l with
  | ind n ih =>
    cases l with
    | nil => exact Nat.zero_le _
    | cons b l =>
      by_cases hpre : p <+: b :: l
      · obtain ⟨l', hl'⟩ := hpre
        have hlt : l'.length < n := by
          have hlength := congrArg List.length hl'
          rw [List.length_append, hn] at hlength
          have := List.length_pos_iff.mpr hp.ne_nil
          omega
        have := ih _ hlt l' rfl
        rw [← hl', replaceAll_of_prefix hp.ne_nil, List.count_append, List.count_append,
          List.count_eq_zero.mpr hc]
        omega
      · have := ih l.length (by rw [← hn, List.length_cons]; omega) l rfl
        rw [replaceAll_of_not_start hpre, List.count_cons, List.count_cons]
        omega

end Mark

/-! ### Parts taken out and put back -/

/-- Marks none of which starts another. -/
structure MarkFamily (α : Type*) where
  letter : α
  mark : ℕ → List α
  isMark : ∀ k, IsMark letter (mark k)
  prefix_free : ∀ {j k}, mark j <+: mark k → j = k

/-- The gaps of a text that is cut into gaps and parts. -/
def gaps (segs : List (List α × List α)) (last : List α) : List (List α) := segs.map Prod.fst ++ [last]

/-- The text that is cut. -/
def whole : List (List α × List α) → List α → List α
  | [], last => last
  | (gap, part) :: segs, last => gap ++ (part ++ whole segs last)

namespace MarkFamily

variable (M : MarkFamily α)

/-- The text with a mark in the place of every part. -/
def fill : ℕ → List (List α × List α) → List α → List α
  | _, [], last => last
  | k, (gap, _) :: segs, last => gap ++ (M.mark k ++ fill (k + 1) segs last)

/-- The marks replaced by the parts, one after the other. -/
def unfill : ℕ → List (List α × List α) → List α → List α
  | _, [], text => text
  | k, (_, part) :: segs, text => unfill (k + 1) segs (replaceAll (M.mark k) part text)

/-- A mark occurs neither in the text before its part nor in a gap behind it. -/
def Unambiguous (k : ℕ) (front : List α) (segs : List (List α × List α)) (last : List α) : Prop :=
  ∀ before gap part behind, segs = before ++ (gap, part) :: behind →
    ¬ M.mark (k + before.length) <:+: front ++ whole before gap ∧
      ∀ gap' ∈ gaps behind last, ¬ M.mark (k + before.length) <:+: gap'

variable {M} {k j : ℕ} {segs : List (List α × List α)} {front gap part last : List α} {c : α}

omit [DecidableEq α] in
theorem eq_of_prefix {j k : ℕ} (h : M.mark j <+: M.mark k) : M.mark j = M.mark k := by
  rw [M.prefix_free h]

theorem occurrences_mark (j k : ℕ) : occurrences (M.mark j) (M.mark k) = if j = k then 1 else 0 := by
  split_ifs with h
  · rw [h, occurrences_self (M.isMark k)]
  · rw [occurrences_eq_zero_iff (M.isMark j).ne_nil]
    exact fun hoccurs => h (M.prefix_free ((M.isMark j).prefix_of_occurs (M.isMark k) hoccurs))

theorem occurrences_fill (j k : ℕ) (segs : List (List α × List α)) (last : List α) :
    occurrences (M.mark j) (M.fill k segs last) =
      (if k ≤ j ∧ j < k + segs.length then 1 else 0) +
        ((gaps segs last).map (occurrences (M.mark j))).sum := by
  induction segs generalizing k with
  | nil => simp [fill, gaps]
  | cons seg segs ih =>
    have hgaps : gaps (seg :: segs) last = seg.1 :: gaps segs last := rfl
    rw [fill, occurrences_append_mark (M.isMark j) (M.isMark k) eq_of_prefix, occurrences_mark, ih,
      hgaps, List.map_cons, List.sum_cons, List.length_cons]
    split_ifs <;> omega

theorem not_infix_fill (hj : j < k ∨ k + segs.length ≤ j)
    (hgaps : ∀ gap ∈ gaps segs last, ¬ M.mark j <:+: gap) : ¬ M.mark j <:+: M.fill k segs last := by
  rw [← occurrences_eq_zero_iff (M.isMark j).ne_nil, occurrences_fill, if_neg (by omega), Nat.zero_add]
  refine List.sum_eq_zero_iff_forall_eq_nat.mpr fun n hn => ?_
  obtain ⟨gap, hgap, rfl⟩ := List.mem_map.mp hn
  exact (occurrences_eq_zero_iff (M.isMark j).ne_nil).mpr (hgaps gap hgap)

/-- One replacement, when the mark is in no gap behind its part. -/
theorem replaceAll_fill (hgaps : ∀ gap' ∈ gaps segs last, ¬ M.mark k <:+: gap') :
    replaceAll (M.mark k) part (front ++ M.fill k ((gap, part) :: segs) last) =
      (replaceAll (M.mark k) part (front ++ gap) ++ part) ++ M.fill (k + 1) segs last := by
  rw [fill, ← List.append_assoc, replaceAll_append_mark (M.isMark k) (M.isMark k) eq_of_prefix,
    replaceAll_self (M.isMark k).ne_nil,
    replaceAll_of_absent (not_infix_fill (Or.inl (Nat.lt_succ_self k)) hgaps), List.append_assoc]

omit [DecidableEq α] in
theorem unambiguous_cons : M.Unambiguous k front ((gap, part) :: segs) last ↔
    (¬ M.mark k <:+: front ++ gap ∧ ∀ gap' ∈ gaps segs last, ¬ M.mark k <:+: gap') ∧
      M.Unambiguous (k + 1) (front ++ gap ++ part) segs last := by
  have hcons := forall_split_cons (a := (gap, part)) (l := segs)
    (P := fun before seg behind => ¬ M.mark (k + before.length) <:+: front ++ whole before seg.1 ∧
      ∀ gap' ∈ gaps behind last, ¬ M.mark (k + before.length) <:+: gap')
  have hshift : ∀ before : List (List α × List α),
      k + ((gap, part) :: before).length = k + 1 + before.length := by
    intro before
    rw [List.length_cons]
    omega
  have hwhole : ∀ (before : List (List α × List α)) gap', front ++ whole ((gap, part) :: before) gap' =
      front ++ gap ++ part ++ whole before gap' := by
    intro before gap'
    simp only [whole, List.append_assoc]
  simp only [hshift, hwhole, Prod.forall] at hcons
  exact hcons

omit [DecidableEq α] in
theorem gap_infix_whole {before : List (List α × List α)} {gap gap' : List α}
    (h : gap' ∈ gaps before gap) : gap' <:+: whole before gap := by
  induction before with
  | nil => rw [List.mem_singleton.mp h, whole]
  | cons seg before ih =>
    rcases List.mem_cons.mp h with rfl | h
    · exact (List.prefix_append _ _).isInfix
    · exact (ih h).trans ((List.suffix_append _ _).trans (List.suffix_append _ _)).isInfix

omit [DecidableEq α] in
theorem Unambiguous.notMem_gaps (h : M.Unambiguous k front segs last) (hj : k ≤ j)
    (hlt : j < k + segs.length) : ∀ gap ∈ gaps segs last, ¬ M.mark j <:+: gap := by
  obtain ⟨i, rfl⟩ := Nat.exists_eq_add_of_le hj
  have hi : i < segs.length := by omega
  have hsplit : segs = segs.take i ++ (segs[i].1, segs[i].2) :: segs.drop (i + 1) := by
    rw [← List.drop_eq_getElem_cons hi, List.take_append_drop]
  obtain ⟨hbefore, hbehind⟩ := h _ _ _ _ hsplit
  rw [List.length_take, Nat.min_eq_left hi.le] at hbefore hbehind
  intro gap hgap hoccurs
  rw [hsplit, gaps, List.map_append, List.map_cons, List.append_assoc, List.cons_append,
    ← List.singleton_append, ← List.append_assoc] at hgap
  rcases List.mem_append.mp hgap with hgap | hgap
  · exact hbefore (hoccurs.trans ((gap_infix_whole hgap).trans (List.suffix_append _ _).isInfix))
  · exact hbehind gap hgap hoccurs

theorem count_le_unfill (front : List α) (hc : ∀ k, c ∉ M.mark k)
    (hgaps : ∀ j, k ≤ j → j < k + segs.length → ∀ gap ∈ gaps segs last, ¬ M.mark j <:+: gap) :
    (front ++ whole segs last).count c ≤ (M.unfill k segs (front ++ M.fill k segs last)).count c := by
  induction segs generalizing k front with
  | nil => exact le_rfl
  | cons seg segs ih =>
    obtain ⟨gap, part⟩ := seg
    have hbehind : ∀ gap' ∈ gaps segs last, ¬ M.mark k <:+: gap' := fun gap' hgap' =>
      hgaps k le_rfl (by rw [List.length_cons]; omega) gap' (List.mem_cons_of_mem _ hgap')
    rw [unfill, replaceAll_fill hbehind]
    refine le_trans ?_ (ih _ fun j hj hlt gap' hgap' => hgaps j (by omega)
      (by rw [List.length_cons]; omega) gap' (List.mem_cons_of_mem _ hgap'))
    have := count_le_replaceAll (s := part) (M.isMark k) (hc k) (front ++ gap)
    simp only [whole, List.count_append] at *
    omega

theorem unfill_fill_iff (k : ℕ) (front last : List α) (hc : ∀ k, c ∉ M.mark k) (hparts : ∀ seg ∈ segs, c ∈ seg.2) :
    (M.unfill k segs (front ++ M.fill k segs last) = front ++ whole segs last ∧
        ∀ j, k ≤ j → j < k + segs.length → ∀ gap ∈ gaps segs last, ¬ M.mark j <:+: gap) ↔
      M.Unambiguous k front segs last := by
  induction segs generalizing k front with
  | nil =>
    refine ⟨fun _ before gap part behind hsplit => ?_, fun _ => ⟨rfl, fun j hj hlt => ?_⟩⟩
    · exact absurd hsplit.symm (by simp)
    · rw [List.length_nil] at hlt
      omega
  | cons seg segs ih =>
    obtain ⟨gap, part⟩ := seg
    have hiff := ih (k + 1) (front ++ gap ++ part) fun seg hseg =>
      hparts seg (List.mem_cons_of_mem _ hseg)
    have hwhole : front ++ whole ((gap, part) :: segs) last =
        (front ++ gap ++ part) ++ whole segs last := by
      simp only [whole, List.append_assoc]
    rw [hwhole, unfill]
    constructor
    · rintro ⟨hback, hgaps⟩
      have hbehind : ∀ gap' ∈ gaps segs last, ¬ M.mark k <:+: gap' := fun gap' hgap' =>
        hgaps k le_rfl (by rw [List.length_cons]; omega) gap' (List.mem_cons_of_mem _ hgap')
      have hgaps' : ∀ j, k + 1 ≤ j → j < k + 1 + segs.length → ∀ gap' ∈ gaps segs last,
          ¬ M.mark j <:+: gap' := fun j hj hlt gap' hgap' =>
        hgaps j (by omega) (by rw [List.length_cons]; omega) gap' (List.mem_cons_of_mem _ hgap')
      rw [replaceAll_fill hbehind] at hback
      -- A second occurrence would bring in the part once more.
      have hnone : ¬ M.mark k <:+: front ++ gap := by
        rintro ⟨before, behind, hsplit⟩
        have hcount := count_le_unfill (k := k + 1)
          (replaceAll (M.mark k) part (front ++ gap) ++ part) hc hgaps'
        have hmore : replaceAll (M.mark k) part (front ++ gap) =
            replaceAll (M.mark k) part before ++ (part ++ replaceAll (M.mark k) part behind) := by
          rw [← hsplit, List.append_assoc, replaceAll_append_mark (M.isMark k) (M.isMark k) eq_of_prefix,
            replaceAll_self (M.isMark k).ne_nil]
        have hbefore := count_le_replaceAll (s := part) (M.isMark k) (hc k) before
        have hafter := count_le_replaceAll (s := part) (M.isMark k) (hc k) behind
        have hpart := List.count_pos_iff.mpr (hparts _ List.mem_cons_self)
        have hmark := List.count_eq_zero.mpr (hc k)
        rw [hback, hmore, ← hsplit] at hcount
        simp only [List.count_append] at *
        omega
      rw [replaceAll_of_absent hnone] at hback
      exact unambiguous_cons.mpr ⟨⟨hnone, hbehind⟩, hiff.mp ⟨hback, hgaps'⟩⟩
    · intro h
      obtain ⟨⟨hnone, hbehind⟩, hrest⟩ := unambiguous_cons.mp h
      rw [replaceAll_fill hbehind, replaceAll_of_absent hnone]
      exact ⟨(hiff.mpr hrest).1, fun j => h.notMem_gaps⟩

end MarkFamily

end Foundation
