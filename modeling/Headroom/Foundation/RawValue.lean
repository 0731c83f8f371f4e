import Headroom.Foundation.RawJson

/-!
# What a written JSON text says

A written value is well formed if its blanks are blanks, its literals are literals and its strings are
escaped as they must be. The value that it says is read off; of several fields of one key the last counts,
in the place of the first.
-/

namespace Foundation

/-! ### Escaping -/

theorem hexValue?_digitChar {n : ℕ} (h : n < 16) : hexValue? n.digitChar = some n := by
  decide +revert

variable {rest : List Char}

theorem unescape_plain {c : Char} (h : ¬(c = '"' ∨ c = '\\' ∨ c.toNat < 32)) :
    unescape (c :: rest) = (unescape rest).map (c :: ·) := by
  have hc : c ≠ '\\' := fun heq => h (Or.inr (Or.inl heq))
  rw [unescape.eq_def]
  split
  · contradiction
  · rename_i heq
    exact absurd (List.cons.inj heq).1 hc
  · rename_i heq
    exact absurd (List.cons.inj heq).1 hc
  · rename_i heq
    exact absurd (List.cons.inj heq).1 hc
  · rename_i heq
    obtain ⟨rfl, rfl⟩ := List.cons.inj heq
    rw [if_neg h]

theorem unescape_simple {c d : Char} (hc : c ≠ 'u') (h : simpleEscape? c = some d) :
    unescape ('\\' :: c :: rest) = (unescape rest).map (d :: ·) := by
  rw [unescape.eq_def]
  split
  · contradiction
  · rename_i heq
    exact absurd (List.cons.inj (List.cons.inj heq).2).1 hc
  · rename_i heq
    exact absurd (List.cons.inj (List.cons.inj heq).2).1 hc
  · rename_i heq
    obtain ⟨rfl, rfl⟩ := List.cons.inj (List.cons.inj heq).2
    rw [h]
    rfl
  · rename_i hne heq
    obtain ⟨rfl, rfl⟩ := List.cons.inj heq
    exact absurd rfl (hne c rest rfl)

theorem unescape_unicode {a b c d : Char} {n : ℕ} (h : hex4? a b c d = some n)
    (hn : n < 0xD800) :
    unescape ('\\' :: 'u' :: a :: b :: c :: d :: rest) = (unescape rest).map (Char.ofNat n :: ·) := by
  rw [unescape.eq_def]
  split
  · contradiction
  · rename_i heq
    simp only [List.cons.injEq] at heq
    obtain ⟨-, -, rfl, rfl, rfl, rfl, rfl⟩ := heq
    simp only [h, Option.bind_eq_bind, Option.bind_some]
    rw [if_neg (by omega), if_neg (by omega)]
  · rename_i heq
    simp only [List.cons.injEq] at heq
    obtain ⟨-, -, rfl, rfl, rfl, rfl, rfl⟩ := heq
    simp only [h, Option.bind_eq_bind, Option.bind_some]
    rw [if_neg (by omega)]
  · rename_i hne heq
    simp only [List.cons.injEq] at heq
    obtain ⟨-, rfl, rfl⟩ := heq
    exact absurd rfl (hne a b c d rest rfl)
  · rename_i hne heq
    obtain ⟨rfl, rfl⟩ := List.cons.inj heq
    exact absurd rfl (hne _ _ rfl)

theorem unescape_escapeChar (c : Char) (rest : List Char) :
    unescape (Json.escapeChar c ++ rest) = (unescape rest).map (c :: ·) := by
  have hof : ∀ n, c.toNat = n → c = Char.ofNat n := fun n hn => hn ▸ (Char.ofNat_toNat c).symm
  rw [Json.escapeChar]
  split_ifs with h₁ h₂ h₃ h₄ h₅ h₆ h₇ h₈
  · rw [h₁]
    exact unescape_simple (by decide) rfl
  · rw [h₂]
    exact unescape_simple (by decide) rfl
  · exact unescape_simple (by decide) (hof 8 h₃ ▸ rfl)
  · exact unescape_simple (by decide) (hof 9 h₄ ▸ rfl)
  · exact unescape_simple (by decide) (hof 10 h₅ ▸ rfl)
  · exact unescape_simple (by decide) (hof 12 h₆ ▸ rfl)
  · exact unescape_simple (by decide) (hof 13 h₇ ▸ rfl)
  · have hhex : hex4? '0' '0' (Nat.digitChar (c.toNat / 16)) (Nat.digitChar (c.toNat % 16)) =
        some c.toNat := by
      have hzero : hexValue? '0' = some 0 := rfl
      rw [hex4?, hzero, hexValue?_digitChar (by omega), hexValue?_digitChar (by omega)]
      exact congrArg some (by omega)
    rw [List.cons_append, List.cons_append, List.cons_append, List.cons_append, List.cons_append,
      List.cons_append, List.nil_append, unescape_unicode hhex (by omega), Char.ofNat_toNat]
  · exact unescape_plain (by tauto)

/-- A text is read back as it was escaped. -/
theorem unescape_escape (text : List Char) : unescape (escape text) = some text := by
  induction text with
  | nil => rfl
  | cons c text ih =>
    rw [escape, List.flatMap_cons, unescape_escapeChar, show text.flatMap Json.escapeChar = escape text from rfl,
      ih, Option.map_some]

/-! ### Well-formed texts -/

def isBlank (text : List Char) : Bool := text.all fun c => c == ' ' || c == '\n' || c == '\t' || c == '\r'

/-- Digits up to the end of what is given, after a check of what comes behind. -/
def digitsThen (behind : List Char → Bool) (text : List Char) : Bool :=
  text.takeWhile Char.isDigit != [] && behind (text.dropWhile Char.isDigit)

/-- Nothing, or an exponent. -/
def isExponent : List Char → Bool
  | [] => true
  | e :: '+' :: rest => (e == 'e' || e == 'E') && digitsThen List.isEmpty rest
  | e :: '-' :: rest => (e == 'e' || e == 'E') && digitsThen List.isEmpty rest
  | e :: rest => (e == 'e' || e == 'E') && digitsThen List.isEmpty rest

/-- Nothing, or a fraction and an exponent. -/
def isFraction : List Char → Bool
  | '.' :: rest => digitsThen isExponent rest
  | rest => isExponent rest

def isUnsigned : List Char → Bool
  | '0' :: rest => isFraction rest
  | text => digitsThen isFraction text

def isNumber : List Char → Bool
  | '-' :: rest => isUnsigned rest
  | text => isUnsigned text

/-- The value of a literal. -/
def literalValue (literal : List Char) : Json :=
  if literal = "null".toList then .null
  else if literal = "true".toList then .bool true
  else if literal = "false".toList then .bool false
  else .num (String.ofList literal)

def isLiteral (literal : List Char) : Bool :=
  literal == "null".toList || literal == "true".toList || literal == "false".toList || isNumber literal

/-- What stands in front of a value of an array, or of an object. -/
def Lead.valid (inObject : Bool) (l : Lead) : Bool :=
  isBlank l.blank && match l.key with
  | none => !inObject
  | some (key, mid, gap) => inObject && (unescape key).isSome && isBlank mid && isBlank gap

namespace Raw

def valid : Raw → Bool
  | .token literal => isLiteral literal
  | .str escaped => (unescape escaped).isSome
  | .arr blank elems => isBlank blank && (elems.isEmpty || blank.isEmpty) && validElems false elems
  | .obj blank elems => isBlank blank && (elems.isEmpty || blank.isEmpty) && validElems true elems
where
  /-- The values of a container. -/
  validElems : Bool → List (Lead × Raw × List Char) → Bool
    | _, [] => true
    | inObject, (lead, r, trail) :: rest =>
      lead.valid inObject && valid r && isBlank trail && validElems inObject rest

/-- Fields in the order in which their keys come up, each with the last of its values. -/
def fieldsOf (fields : List (List Char × Json)) : List (String × Json) :=
  fields.foldl (fun acc f => Json.insertField (String.ofList f.1) f.2 acc) []

/-- The value with other texts in the place of some of its strings, which are named by their bytes. -/
def valueWith (e : ℕ → Option (List Char)) : ℕ → Raw → Json
  | _, .token literal => literalValue literal
  | base, .str escaped => .str (String.ofList ((e base).getD ((unescape escaped).getD [])))
  | base, .arr blank elems =>
    .arr ((valueElems e (base + Text.utf8Length ('[' :: blank)) true elems).map Prod.snd)
  | base, .obj blank elems =>
    .obj (fieldsOf (valueElems e (base + Text.utf8Length ('\x7b' :: blank)) true elems))
where
  /-- The values of a container under their keys. -/
  valueElems (e : ℕ → Option (List Char)) :
      ℕ → Bool → List (Lead × Raw × List Char) → List (List Char × Json)
    | _, _, [] => []
    | base, first, (lead, r, trail) :: rest =>
      (View.keyOf lead, valueWith e (base + Text.utf8Length (lead.textBehind first)) r) ::
        valueElems e (base + Text.utf8Length (lead.textBehind first ++ r.text ++ trail)) false rest

/-- The value that a text says. -/
def value (r : Raw) : Json := r.valueWith (fun _ => none) 0

mutual

theorem valueWith_none : ∀ (base base' : ℕ) (r : Raw),
    r.valueWith (fun _ => none) base = r.valueWith (fun _ => none) base'
  | _, _, .token _ => rfl
  | _, _, .str _ => rfl
  | base, base', .arr blank elems => by
    rw [valueWith, valueWith, valueElems_none _ (base' + Text.utf8Length ('[' :: blank)) true elems]
  | base, base', .obj blank elems => by
    rw [valueWith, valueWith, valueElems_none _ (base' + Text.utf8Length ('\x7b' :: blank)) true elems]

theorem valueElems_none : ∀ (base base' : ℕ) (first : Bool) (elems : List (Lead × Raw × List Char)),
    valueWith.valueElems (fun _ => none) base first elems =
      valueWith.valueElems (fun _ => none) base' first elems
  | _, _, _, [] => rfl
  | base, base', first, (lead, r, trail) :: rest => by
    rw [valueWith.valueElems, valueWith.valueElems,
      valueWith_none _ (base' + Text.utf8Length (lead.textBehind first)) r,
      valueElems_none _ (base' + Text.utf8Length (lead.textBehind first ++ r.text ++ trail)) false rest]

end

mutual

theorem valueWith_swap (e : ℕ → Option (List Char)) : ∀ (base base' : ℕ) (r : Raw),
    (r.swap e base).valueWith (fun _ => none) base' = r.valueWith e base
  | _, _, .token _ => rfl
  | base, _, .str escaped => by
    rw [swap, valueWith, valueWith]
    cases e base with
    | none => rfl
    | some new =>
      rw [Option.map_some, Option.getD_some, Option.getD_none, Option.getD_some, unescape_escape,
        Option.getD_some]
  | base, base', .arr blank elems => by
    rw [swap, valueWith, valueWith, valueElems_swap e _ _ true elems]
  | base, base', .obj blank elems => by
    rw [swap, valueWith, valueWith, valueElems_swap e _ _ true elems]

theorem valueElems_swap (e : ℕ → Option (List Char)) :
    ∀ (base base' : ℕ) (first : Bool) (elems : List (Lead × Raw × List Char)),
      valueWith.valueElems (fun _ => none) base' first (swap.swapElems e base first elems) =
        valueWith.valueElems e base first elems
  | _, _, _, [] => rfl
  | base, base', first, (lead, r, trail) :: rest => by
    rw [swap.swapElems, valueWith.valueElems, valueWith.valueElems, valueWith_swap e _ _ r,
      valueElems_swap e _ _ false rest]

end

theorem isEmpty_swapElems (e : ℕ → Option (List Char)) (base : ℕ) (first : Bool)
    (elems : List (Lead × Raw × List Char)) :
    (swap.swapElems e base first elems).isEmpty = elems.isEmpty := by
  cases elems with
  | nil => rfl
  | cons elem rest => rfl

mutual

theorem valid_swap (e : ℕ → Option (List Char)) : ∀ (base : ℕ) (r : Raw), r.valid → (r.swap e base).valid
  | _, .token _, h => h
  | base, .str escaped, h => by
    rw [swap]
    cases e base with
    | none => exact h
    | some new => rw [Option.map_some, Option.getD_some, valid, unescape_escape, Option.isSome_some]
  | base, .arr blank elems, h => by
    rw [valid, Bool.and_eq_true] at h
    rw [swap, valid, isEmpty_swapElems, Bool.and_eq_true]
    exact ⟨h.1, validElems_swap e _ true elems h.2⟩
  | base, .obj blank elems, h => by
    rw [valid, Bool.and_eq_true] at h
    rw [swap, valid, isEmpty_swapElems, Bool.and_eq_true]
    exact ⟨h.1, validElems_swap e _ true elems h.2⟩

theorem validElems_swap (e : ℕ → Option (List Char)) {inObject : Bool} :
    ∀ (base : ℕ) (first : Bool) (elems : List (Lead × Raw × List Char)), valid.validElems inObject elems →
      valid.validElems inObject (swap.swapElems e base first elems)
  | _, _, [], h => h
  | base, first, (lead, r, trail) :: rest, h => by
    rw [valid.validElems, Bool.and_eq_true, Bool.and_eq_true, Bool.and_eq_true] at h
    obtain ⟨⟨⟨hlead, hr⟩, htrail⟩, hrest⟩ := h
    rw [swap.swapElems, valid.validElems, hlead, valid_swap e _ r hr, htrail,
      validElems_swap e _ false rest hrest]
    rfl

end

end Raw

end Foundation
