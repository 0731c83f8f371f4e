import Headroom.Foundation.Text

/-!
# Values behind a marker

A text is cut at the occurrences of a marker. Behind each stands a value, which ends before the next stop
character or with the text. Other values may be put in their places: the text is then cut at the same markers.
-/

namespace Foundation.Text

/-- What follows an occurrence does not matter. -/
theorem find?_append {pattern text : List Char} {i : ℕ} (hne : pattern ≠ []) (h : find? pattern text = some i)
    (more : List Char) : find? pattern (text ++ more) = some i := by
  have hlength := add_length_le_of_find? hne h
  have hdrop (j : ℕ) (hj : j ≤ text.length) : (text ++ more).drop j = text.drop j ++ more :=
    List.drop_append_of_le_length hj
  refine find?_eq_some hne ?_ fun j hj hpre => not_prefix_of_find? h hj ?_
  · rw [hdrop i (by omega)]
    exact (prefix_of_find? h).trans (List.prefix_append _ _)
  · rw [hdrop j (by omega)] at hpre
    refine List.prefix_of_prefix_length_le hpre (List.prefix_append _ _) ?_
    rw [List.length_drop]
    omega

variable (marker : List Char) (stop : Char)

/-- The parts of a text that end with the marker, each with the value behind it, and what is left; the fuel
bounds their number. -/
def spans : ℕ → List Char → List (List Char × List Char) × List Char
  | 0, rest => ([], rest)
  | fuel + 1, rest =>
    match find? marker rest with
    | none => ([], rest)
    | some i =>
      let after := rest.drop (i + marker.length)
      let next := spans fuel (after.dropWhile (· ≠ stop))
      ((rest.take (i + marker.length), after.takeWhile (· ≠ stop)) :: next.1, next.2)

/-- Parts with their values, and what is left, as one text. -/
def joined (parts : List (List Char × List Char)) (tail : List Char) : List Char :=
  parts.flatMap (fun part => part.1 ++ part.2) ++ tail

/-- Parts and values as a text is cut into them: the marker ends each part and stands nowhere before, a value
ends where the stop character or nothing follows, and there is no marker in what is left. -/
def WellCut : List (List Char × List Char) → List Char → Prop
  | [], tail => find? marker tail = none
  | part :: parts, tail =>
    (∃ i, find? marker part.1 = some i ∧ part.1.length = i + marker.length) ∧ stop ∉ part.2 ∧
      (∀ c ∈ (joined parts tail).head?, c = stop) ∧ WellCut parts tail

variable {marker stop} {parts : List (List Char × List Char)} {tail : List Char}

variable {rest : List Char}

theorem spans_of_none (h : find? marker rest = none) (fuel : ℕ) :
    spans marker stop (fuel + 1) rest = ([], rest) := by
  rw [spans, h]

theorem spans_of_some {i : ℕ} (h : find? marker rest = some i) (fuel : ℕ) :
    spans marker stop (fuel + 1) rest =
      ((rest.take (i + marker.length), (rest.drop (i + marker.length)).takeWhile (· ≠ stop)) ::
          (spans marker stop fuel ((rest.drop (i + marker.length)).dropWhile (· ≠ stop))).1,
        (spans marker stop fuel ((rest.drop (i + marker.length)).dropWhile (· ≠ stop))).2) := by
  rw [spans, h]

theorem joined_cons (part : List Char × List Char) (parts : List (List Char × List Char)) (tail : List Char) :
    joined (part :: parts) tail = part.1 ++ (part.2 ++ joined parts tail) := by
  rw [joined, List.flatMap_cons, List.append_assoc, List.append_assoc]
  rfl

theorem joined_spans (fuel : ℕ) (rest : List Char) :
    joined (spans marker stop fuel rest).1 (spans marker stop fuel rest).2 = rest := by
  induction fuel generalizing rest with
  | zero => rfl
  | succ fuel ih =>
    rw [spans]
    split
    · rfl
    · rw [joined_cons, ih, List.takeWhile_append_dropWhile, List.take_append_drop]

theorem wellCut_spans (hne : marker ≠ []) {fuel : ℕ} (hfuel : rest.length ≤ fuel) :
    WellCut marker stop (spans marker stop fuel rest).1 (spans marker stop fuel rest).2 := by
  induction fuel generalizing rest with
  | zero =>
    obtain rfl := List.length_eq_zero_iff.1 (Nat.le_zero.1 hfuel)
    show find? marker [] = none
    rw [find?, if_neg hne]
  | succ fuel ih =>
    rw [spans]
    split
    · rename_i hnone
      exact hnone
    · rename_i i hfind
      have hlength := add_length_le_of_find? hne hfind
      have hpos := List.length_pos_iff.2 hne
      have hshort : ((rest.drop (i + marker.length)).dropWhile (· ≠ stop)).length ≤ fuel := by
        have hdrop := (List.dropWhile_suffix (· ≠ stop) (l := rest.drop (i + marker.length))).length_le
        rw [List.length_drop] at hdrop
        omega
      refine ⟨⟨i, ?_, by rw [List.length_take]; omega⟩, fun hmem => ?_, fun c hc => ?_, ih hshort⟩
      · have htake : marker <+: (rest.take (i + marker.length)).drop i := by
          rw [List.drop_take, Nat.add_sub_cancel_left]
          exact (List.prefix_take_iff.2 ⟨prefix_of_find? hfind, le_rfl⟩)
        refine find?_eq_some hne htake fun j hj hpre => not_prefix_of_find? hfind hj ?_
        rw [List.drop_take] at hpre
        exact hpre.trans (List.take_prefix _ _)
      · simpa using List.mem_takeWhile_imp hmem
      · rw [joined_spans] at hc
        by_contra hno
        have hhead := List.head?_dropWhile_not (· ≠ stop) (rest.drop (i + marker.length))
        rw [Option.mem_def.1 hc] at hhead
        simp [hno] at hhead

/-- There are no more parts than characters. -/
theorem WellCut.length_le (hne : marker ≠ []) (h : WellCut marker stop parts tail) :
    parts.length ≤ (joined parts tail).length := by
  induction parts with
  | nil => exact Nat.zero_le _
  | cons part parts ih =>
    obtain ⟨⟨i, -, hlength⟩, -, -, hrest⟩ := h
    have hpos := List.length_pos_iff.2 hne
    have hle := ih hrest
    rw [joined_cons, List.length_cons, List.length_append, List.length_append]
    omega

theorem spans_of_wellCut (hne : marker ≠ []) (h : WellCut marker stop parts tail) {fuel : ℕ}
    (hfuel : parts.length ≤ fuel) : spans marker stop fuel (joined parts tail) = (parts, tail) := by
  induction parts generalizing fuel with
  | nil =>
    have hnone : find? marker tail = none := h
    cases fuel with
    | zero => rfl
    | succ fuel =>
      show spans marker stop (fuel + 1) tail = ([], tail)
      rw [spans, hnone]
  | cons part parts ih =>
    obtain ⟨⟨i, hfind, hlength⟩, hvalue, hhead, hrest⟩ := h
    obtain ⟨fuel, rfl⟩ : ∃ n, fuel = n + 1 := ⟨fuel - 1, by rw [List.length_cons] at hfuel; omega⟩
    have hvalueAll : ∀ c ∈ part.2, (decide (c ≠ stop)) = true := by
      intro c hc
      rw [decide_eq_true_iff]
      rintro rfl
      exact hvalue hc
    have hstops : (joined parts tail).takeWhile (· ≠ stop) = [] ∧
        (joined parts tail).dropWhile (· ≠ stop) = joined parts tail := by
      cases hjoined : joined parts tail with
      | nil => exact ⟨rfl, rfl⟩
      | cons c cs =>
        obtain rfl : c = stop := hhead c (by rw [hjoined]; rfl)
        exact ⟨List.takeWhile_cons_of_neg (by simp), List.dropWhile_cons_of_neg (by simp)⟩
    rw [joined_cons, spans, find?_append hne hfind]
    dsimp only
    rw [← hlength, List.take_left, List.drop_left]
    rw [List.takeWhile_append_of_pos hvalueAll, List.dropWhile_append_of_pos hvalueAll, hstops.1, hstops.2,
      List.append_nil, ih hrest (by rw [List.length_cons] at hfuel; omega)]

theorem WellCut.setValues (hne : marker ≠ []) (h : WellCut marker stop parts tail)
    {parts' : List (List Char × List Char)} (hparts : parts'.map Prod.fst = parts.map Prod.fst)
    (hvalues : ∀ part ∈ parts', stop ∉ part.2) : WellCut marker stop parts' tail := by
  induction parts generalizing parts' with
  | nil =>
    obtain rfl := List.map_eq_nil_iff.1 hparts
    exact h
  | cons part parts ih =>
    obtain ⟨hpart, -, hhead, hrest⟩ := h
    obtain ⟨part', parts'', rfl⟩ : ∃ p ps, parts' = p :: ps := by
      cases parts' with
      | nil => simp at hparts
      | cons p ps => exact ⟨p, ps, rfl⟩
    obtain ⟨hfirst, hparts⟩ := List.cons.inj hparts
    obtain ⟨hvalue, hvalues⟩ := List.forall_mem_cons.1 hvalues
    have hcut := ih hrest hparts hvalues
    refine ⟨hfirst ▸ hpart, hvalue, fun c hc => hhead c ?_, hcut⟩
    cases parts with
    | nil =>
      obtain rfl := List.map_eq_nil_iff.1 hparts
      exact hc
    | cons q qs =>
      obtain ⟨q', qs', rfl⟩ : ∃ p ps, parts'' = p :: ps := by
        cases parts'' with
        | nil => simp at hparts
        | cons p ps => exact ⟨p, ps, rfl⟩
      obtain ⟨hq, -⟩ := List.cons.inj hparts
      obtain ⟨⟨j, -, hlength⟩, -⟩ := hrest
      have hnil : q.1 ≠ [] := by
        have hpos := List.length_pos_iff.2 hne
        rw [← List.length_pos_iff]
        omega
      rw [joined_cons, List.head?_append_of_ne_nil _ (hq ▸ hnil)] at hc
      rw [joined_cons, List.head?_append_of_ne_nil _ hnil, ← hq]
      exact hc

end Foundation.Text
