import Headroom.Foundation.RawValue

/-!
# A compact text has one value

The compact serialization of a value ends where the value ends: what follows a value in a text begins with a comma
or a closing bracket, or the text is over. So a text is that of at most one value.
-/

namespace Foundation

/-- A character of a number. -/
def isNumberChar (c : Char) : Bool := c.isDigit || c == '+' || c == '-' || c == '.' || c == 'e' || c == 'E'

/-- What may follow a value in a text. -/
def Delimited (rest : List Char) : Prop := ∀ c ∈ rest.head?, c = ',' ∨ c = ']' ∨ c = '\x7d'

theorem delimited_nil : Delimited [] := nofun

theorem delimited_cons {c : Char} {rest : List Char} (h : c = ',' ∨ c = ']' ∨ c = '\x7d') : Delimited (c :: rest) := by
  rintro d hd
  obtain rfl := Option.some.inj hd
  exact h

namespace Json

/-- Every number in a value is written as a number. -/
def Numeric : Json → Prop
  | .num literal => literal.toList ≠ [] ∧ literal.toList.all isNumberChar = true
  | .arr items => NumericItems items
  | .obj fields => NumericFields fields
  | _ => True
where
  /-- Every number in the items of an array. -/
  NumericItems : List Json → Prop
    | [] => True
    | j :: js => Numeric j ∧ NumericItems js
  /-- Every number in the fields of an object. -/
  NumericFields : List (String × Json) → Prop
    | [] => True
    | (_, j) :: fs => Numeric j ∧ NumericFields fs

theorem numericItems_iff {items : List Json} : Numeric.NumericItems items ↔ ∀ j ∈ items, Numeric j := by
  induction items with
  | nil => exact iff_of_true trivial nofun
  | cons j js ih => rw [Numeric.NumericItems, ih, List.forall_mem_cons]

theorem numericFields_iff {fields : List (String × Json)} :
    Numeric.NumericFields fields ↔ ∀ f ∈ fields, Numeric f.2 := by
  induction fields with
  | nil => exact iff_of_true trivial nofun
  | cons f fs ih => rw [Numeric.NumericFields, ih, List.forall_mem_cons]

/-! ### Strings -/

theorem unescape_escape_append (text rest : List Char) :
    unescape (escape text ++ rest) = (unescape rest).map (text ++ ·) := by
  induction text with
  | nil => simp [escape]
  | cons c text ih =>
    rw [escape, List.flatMap_cons, List.append_assoc, unescape_escapeChar, ← escape, ih, Option.map_map]
    rfl

theorem unescape_quote (rest : List Char) : unescape ('"' :: rest) = none := by
  rw [unescape.eq_def]
  split
  · contradiction
  · rename_i heq
    exact absurd (List.cons.inj heq).1 (by decide)
  · rename_i heq
    exact absurd (List.cons.inj heq).1 (by decide)
  · rename_i heq
    exact absurd (List.cons.inj heq).1 (by decide)
  · rename_i heq
    obtain ⟨rfl, rfl⟩ := List.cons.inj heq
    exact if_pos (.inl rfl)

theorem escape_append_quote_inj {s t r r' : List Char} (h : escape s ++ '"' :: r = escape t ++ '"' :: r') :
    s = t ∧ r = r' := by
  -- A longer one would hold a bare quote, which no escaped text does.
  have hle (s t r r' : List Char) (h : escape s ++ '"' :: r = escape t ++ '"' :: r') :
      (escape t).length ≤ (escape s).length := by
    by_contra hlt
    rw [not_le] at hlt
    obtain ⟨more, hmore⟩ : escape s <+: escape t :=
      List.prefix_of_prefix_length_le ⟨_, rfl⟩ ⟨_, h.symm⟩ hlt.le
    rw [← hmore, List.append_assoc, List.append_cancel_left_eq] at h
    cases more with
    | nil =>
      rw [List.append_nil] at hmore
      rw [hmore] at hlt
      exact absurd hlt (lt_irrefl _)
    | cons c more =>
      obtain ⟨rfl, -⟩ := List.cons.inj h
      have hread := unescape_escape t
      rw [← hmore, unescape_escape_append, unescape_quote] at hread
      exact absurd hread nofun
  have hlength : (escape s).length = (escape t).length := le_antisymm (hle t s r' r h.symm) (hle s t r r' h)
  obtain ⟨hescape, hrest⟩ := List.append_inj h hlength
  have hread := unescape_escape s
  rw [hescape, unescape_escape] at hread
  exact ⟨(Option.some.inj hread).symm, (List.cons.inj hrest).2⟩

theorem quote_append_inj {s t : String} {r r' : List Char} (h : quote s ++ r = quote t ++ r') : s = t ∧ r = r' := by
  rw [quote, quote, List.cons_append, List.cons_append, List.append_assoc, List.append_assoc] at h
  obtain ⟨hs, hr⟩ := escape_append_quote_inj (List.cons.inj h).2
  exact ⟨String.toList_injective hs, hr⟩

/-! ### Numbers -/

theorem takeWhile_number_append {literal rest : List Char} (hall : literal.all isNumberChar = true)
    (hrest : Delimited rest) : (literal ++ rest).takeWhile isNumberChar = literal := by
  rw [List.takeWhile_append_of_pos (List.all_eq_true.1 hall)]
  cases rest with
  | nil => rw [List.takeWhile_nil, List.append_nil]
  | cons c rest =>
    have hc : isNumberChar c = false := by
      rcases hrest c rfl with rfl | rfl | rfl <;> decide
    rw [List.takeWhile_cons, hc, if_neg Bool.false_ne_true, List.append_nil]

theorem number_append_inj {a b r r' : List Char} (ha : a.all isNumberChar = true) (hb : b.all isNumberChar = true)
    (hr : Delimited r) (hr' : Delimited r') (h : a ++ r = b ++ r') : a = b ∧ r = r' := by
  have hab : a = b := by rw [← takeWhile_number_append ha hr, h, takeWhile_number_append hb hr']
  rw [hab, List.append_cancel_left_eq] at h
  exact ⟨hab, h⟩

/-! ### Values -/

variable {a b : Json} {items : List Json} {fields : List (String × Json)} {r r' : List Char}

theorem exists_compact_eq_cons (ha : a.Numeric) : ∃ c rest, compact a = c :: rest ∧ c ≠ ']' := by
  cases a with
  | null => exact ⟨_, _, rfl, by decide⟩
  | bool flag => cases flag with
    | true => exact ⟨_, _, rfl, by decide⟩
    | false => exact ⟨_, _, rfl, by decide⟩
  | num literal =>
    obtain ⟨hne, hall⟩ : literal.toList ≠ [] ∧ literal.toList.all isNumberChar = true := ha
    obtain ⟨c, rest, hliteral⟩ := List.exists_cons_of_ne_nil hne
    rw [hliteral, List.all_cons, Bool.and_eq_true] at hall
    refine ⟨c, rest, hliteral, ?_⟩
    rintro rfl
    exact absurd hall.1 (by decide)
  | str text => exact ⟨_, _, rfl, by decide⟩
  | arr items => exact ⟨_, _, rfl, by decide⟩
  | obj fields => exact ⟨_, _, rfl, by decide⟩

theorem delimited_items (items : List Json) (r : List Char) : Delimited (compact.compactItems false items ++ ']' :: r) := by
  cases items with
  | nil => exact delimited_cons (.inr (.inl rfl))
  | cons j js => exact delimited_cons (.inl rfl)

theorem delimited_fields (fields : List (String × Json)) (r : List Char) :
    Delimited (compact.compactFields false fields ++ '\x7d' :: r) := by
  cases fields with
  | nil => exact delimited_cons (.inr (.inr rfl))
  | cons f fs => exact delimited_cons (.inl rfl)

/-- A number begins with no character that another value begins with. -/
theorem number_ne_of_head {literal : String} {c : Char} {rest : List Char}
    (ha : (Json.num literal).Numeric) (hc : isNumberChar c = false) : compact (.num literal) ++ r ≠ c :: rest := by
  obtain ⟨hne, hall⟩ : literal.toList ≠ [] ∧ literal.toList.all isNumberChar = true := ha
  obtain ⟨d, ds, hliteral⟩ := List.exists_cons_of_ne_nil hne
  rw [hliteral, List.all_cons, Bool.and_eq_true] at hall
  intro h
  rw [compact, hliteral, List.cons_append] at h
  rw [(List.cons.inj h).1, hc] at hall
  exact absurd hall.1 nofun

theorem compactItems_cons_ne {j : Json} {js : List Json} (first : Bool) (hj : j.Numeric) :
    compact.compactItems first (j :: js) ++ r ≠ ']' :: r' := by
  obtain ⟨c, rest, hcompact, hc⟩ := exists_compact_eq_cons hj
  rw [compact.compactItems, hcompact]
  cases first with
  | true => exact fun h => hc (List.cons.inj h).1
  | false => exact fun h => absurd (List.cons.inj h).1 (by decide)

theorem compactFields_cons_ne {f : String × Json} {fs : List (String × Json)} (first : Bool) :
    compact.compactFields first (f :: fs) ++ r ≠ '\x7d' :: r' := by
  rw [compact.compactFields, quote]
  cases first with
  | true => exact fun h => absurd (List.cons.inj h).1 (by decide)
  | false => exact fun h => absurd (List.cons.inj h).1 (by decide)

mutual

/-- A text has one value, and it ends where the value ends. -/
theorem compact_append_inj : ∀ (a b : Json) {r r' : List Char}, a.Numeric → b.Numeric → Delimited r → Delimited r' →
    compact a ++ r = compact b ++ r' → a = b ∧ r = r'
  | .null, b, r, r', _, hb, hr, hr', h => by
    cases b with
    | null => exact ⟨rfl, by simpa [compact] using h⟩
    | str text | arr items | obj fields => simp [compact, quote] at h
    | bool flag => cases flag <;> simp [compact] at h
    | num literal => exact absurd h.symm (number_ne_of_head hb (by decide))
  | .bool true, b, r, r', _, hb, hr, hr', h => by
    cases b with
    | bool flag => cases flag with
      | true => exact ⟨rfl, by simpa [compact] using h⟩
      | false => simp [compact] at h
    | null | str text | arr items | obj fields => simp [compact, quote] at h
    | num literal => exact absurd h.symm (number_ne_of_head hb (by decide))
  | .bool false, b, r, r', _, hb, hr, hr', h => by
    cases b with
    | bool flag => cases flag with
      | true => simp [compact] at h
      | false => exact ⟨rfl, by simpa [compact] using h⟩
    | null | str text | arr items | obj fields => simp [compact, quote] at h
    | num literal => exact absurd h.symm (number_ne_of_head hb (by decide))
  | .num literal, b, r, r', ha, hb, hr, hr', h => by
    cases b with
    | num literal' =>
      obtain ⟨hliteral, hrest⟩ := number_append_inj ha.2 hb.2 hr hr' h
      exact ⟨congrArg Json.num (String.toList_injective hliteral), hrest⟩
    | null => exact absurd h (number_ne_of_head ha (by decide))
    | str text | arr items | obj fields => exact absurd h (number_ne_of_head ha (by decide))
    | bool flag => cases flag with
      | true => exact absurd h (number_ne_of_head ha (by decide))
      | false => exact absurd h (number_ne_of_head ha (by decide))
  | .str text, b, r, r', _, hb, hr, hr', h => by
    cases b with
    | str text' =>
      obtain ⟨rfl, hrest⟩ := quote_append_inj h
      exact ⟨rfl, hrest⟩
    | null | arr items | obj fields => simp [compact, quote] at h
    | bool flag => cases flag <;> simp [compact, quote] at h
    | num literal => exact absurd h.symm (number_ne_of_head hb (by decide))
  | .arr items, b, r, r', ha, hb, hr, hr', h => by
    cases b with
    | arr items' =>
      rw [compact, compact, List.cons_append, List.cons_append, List.append_assoc, List.append_assoc] at h
      obtain ⟨rfl, hrest⟩ := compactItems_append_inj items items' true ha hb (List.cons.inj h).2
      exact ⟨rfl, hrest⟩
    | null | str text | obj fields => simp [compact, quote] at h
    | bool flag => cases flag <;> simp [compact] at h
    | num literal => exact absurd h.symm (number_ne_of_head hb (by decide))
  | .obj fields, b, r, r', ha, hb, hr, hr', h => by
    cases b with
    | obj fields' =>
      rw [compact, compact, List.cons_append, List.cons_append, List.append_assoc, List.append_assoc] at h
      obtain ⟨rfl, hrest⟩ := compactFields_append_inj fields fields' true ha hb (List.cons.inj h).2
      exact ⟨rfl, hrest⟩
    | null | str text | arr items => simp [compact, quote] at h
    | bool flag => cases flag <;> simp [compact] at h
    | num literal => exact absurd h.symm (number_ne_of_head hb (by decide))

theorem compactItems_append_inj : ∀ (items items' : List Json) (first : Bool) {r r' : List Char},
    Numeric.NumericItems items → Numeric.NumericItems items' →
    compact.compactItems first items ++ ']' :: r = compact.compactItems first items' ++ ']' :: r' →
    items = items' ∧ r = r'
  | [], items', first, r, r', _, hitems', h => by
    cases items' with
    | nil => exact ⟨rfl, (List.cons.inj h).2⟩
    | cons j' js' => exact absurd h.symm (compactItems_cons_ne first hitems'.1)
  | j :: js, items', first, r, r', hitems, hitems', h => by
    cases items' with
    | nil => exact absurd h (compactItems_cons_ne first hitems.1)
    | cons j' js' =>
      rw [compact.compactItems, compact.compactItems, List.append_assoc, List.append_assoc, List.append_assoc,
        List.append_assoc, List.append_cancel_left_eq] at h
      obtain ⟨rfl, hrest⟩ := compact_append_inj j j' hitems.1 hitems'.1 (delimited_items js r)
        (delimited_items js' r') h
      obtain ⟨rfl, hr⟩ := compactItems_append_inj js js' false hitems.2 hitems'.2 hrest
      exact ⟨rfl, hr⟩

theorem compactFields_append_inj : ∀ (fields fields' : List (String × Json)) (first : Bool) {r r' : List Char},
    Numeric.NumericFields fields → Numeric.NumericFields fields' →
    compact.compactFields first fields ++ '\x7d' :: r = compact.compactFields first fields' ++ '\x7d' :: r' →
    fields = fields' ∧ r = r'
  | [], fields', first, r, r', _, hfields', h => by
    cases fields' with
    | nil => exact ⟨rfl, (List.cons.inj h).2⟩
    | cons f' fs' => exact absurd h.symm (compactFields_cons_ne first)
  | (k, j) :: fs, fields', first, r, r', hfields, hfields', h => by
    cases fields' with
    | nil => exact absurd h (compactFields_cons_ne first)
    | cons f' fs' =>
      obtain ⟨k', j'⟩ := f'
      rw [compact.compactFields, compact.compactFields, List.append_assoc, List.append_assoc, List.append_assoc,
        List.append_assoc, List.append_assoc, List.append_assoc, List.append_cancel_left_eq, List.cons_append,
        List.cons_append] at h
      obtain ⟨rfl, hvalue⟩ := quote_append_inj h
      obtain ⟨rfl, hrest⟩ := compact_append_inj j j' hfields.1 hfields'.1 (delimited_fields fs r)
        (delimited_fields fs' r') (List.cons.inj hvalue).2
      obtain ⟨rfl, hr⟩ := compactFields_append_inj fs fs' false hfields.2 hfields'.2 hrest
      exact ⟨rfl, hr⟩

end

theorem compact_inj (ha : a.Numeric) (hb : b.Numeric) (h : compact a = compact b) : a = b := by
  refine (compact_append_inj a b ha hb delimited_nil delimited_nil ?_).1
  rw [h]

end Json

end Foundation
