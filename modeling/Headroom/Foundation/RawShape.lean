import Headroom.Foundation.Brackets
import Headroom.Foundation.LineStarts
import Headroom.Foundation.RawValue

/-!
# The shape of written JSON

The containers of a JSON text are containers for the scanner of brackets, and its lines begin with blanks or
with the first characters of tokens.
-/

namespace Foundation

/-- What the scanner takes a character for. -/
def charKind (c : Char) : BracketKind :=
  if c = '"' then .quote
  else if c = '\\' then .escape
  else if c = '[' then .opens true
  else if c = '\x7b' then .opens false
  else if c = ']' then .closes true
  else if c = '\x7d' then .closes false
  else .plain

/-- What a line of a JSON text may begin with: a blank, or the first character of a token. -/
def mayBegin (c : Char) : Bool :=
  isBlank [c] || c.isDigit || ['[', ']', '\x7b', '\x7d', ',', ':', '"', '-', 't', 'f', 'n'].contains c

/-- The characters that the scanner looks at, and the one that ends lines. -/
def marked : List Char := ['\n', '"', '\\', '[', ']', '\x7b', '\x7d']

/-- A text in which brackets are balanced, and whose lines begin as those of JSON do. -/
structure Shaped (text : List Char) : Prop where
  inside : Inside (text.map charKind)
  lines : LinesBegin '\n' (mayBegin ·) text

variable {c : Char} {text a b : List Char}

theorem charKind_eq_plain (h : c ∉ marked) : charKind c = .plain := by
  simp only [marked, List.mem_cons, List.not_mem_nil, or_false, not_or] at h
  obtain ⟨-, hquote, hslash, hopen, hclose, hopen', hclose'⟩ := h
  rw [charKind, if_neg hquote, if_neg hslash, if_neg hopen, if_neg hopen', if_neg hclose, if_neg hclose']

theorem inside_of_plain (h : ∀ c ∈ text, charKind c = .plain) : Inside (text.map charKind) := by
  induction text with
  | nil => exact .nil
  | cons c text ih =>
    obtain ⟨hc, htext⟩ := List.forall_mem_cons.mp h
    exact .plain (Or.inl hc) (ih htext)

namespace Shaped

theorem nil : Shaped [] := ⟨.nil, .nil⟩

theorem append (ha : Shaped a) (hb : Shaped b) : Shaped (a ++ b) := by
  refine ⟨?_, ha.lines.append hb.lines⟩
  rw [List.map_append]
  exact ha.inside.append hb.inside

theorem cons (hplain : charKind c = .plain) (hbegin : mayBegin c = true) (h : Shaped text) :
    Shaped (c :: text) :=
  ⟨.plain (Or.inl hplain) h.inside, h.lines.cons hbegin⟩

/-- A token without marks. -/
theorem of_unmarked (hhead : ∀ c ∈ text.head?, mayBegin c = true) (h : ∀ c ∈ text, c ∉ marked) : Shaped text := by
  refine ⟨inside_of_plain fun c hc => charKind_eq_plain (h c hc), .of_notMem hhead ?_⟩
  exact fun hmem => h _ hmem List.mem_cons_self

theorem of_isBlank (h : isBlank text = true) : Shaped text := by
  have hblank : ∀ c ∈ text, c = ' ' ∨ c = '\n' ∨ c = '\t' ∨ c = '\r' := by
    intro c hc
    have := List.all_eq_true.mp h c hc
    simpa [or_assoc] using this
  refine ⟨inside_of_plain ?_, .of_forall ?_⟩
  · intro c hc
    obtain rfl | rfl | rfl | rfl := hblank c hc <;> rfl
  · intro c hc
    obtain rfl | rfl | rfl | rfl := hblank c hc <;> rfl

end Shaped

/-! ### Strings -/

theorem notMem_marked_of_hexValue {n : ℕ} (h : hexValue? c = some n) : c ∉ marked := by
  have hnone : ∀ c ∈ marked, hexValue? c = none := List.forall_iff_forall_mem.mp (by decide)
  intro hc
  rw [hnone c hc] at h
  cases h

theorem notMem_marked_of_hex4 {w x y z : Char} {n : ℕ} (h : hex4? w x y z = some n) :
    w ∉ marked ∧ x ∉ marked ∧ y ∉ marked ∧ z ∉ marked := by
  simp only [hex4?, Option.bind_eq_bind, Option.bind_eq_some_iff] at h
  obtain ⟨_, hw, _, hx, _, hy, _, hz, -⟩ := h
  exact ⟨notMem_marked_of_hexValue hw, notMem_marked_of_hexValue hx, notMem_marked_of_hexValue hy,
    notMem_marked_of_hexValue hz⟩

theorem Quoted.unmarked {ks : List BracketKind} (hc : c ∉ marked) (h : Quoted ks) : Quoted (charKind c :: ks) := by
  rw [charKind_eq_plain hc]
  exact .other nofun nofun h

/-- What may stand between two quotes: the quote behind it is the first one that counts. -/
structure StringBody (escaped : List Char) : Prop where
  quoted : Quoted ((escaped ++ ['"']).map charKind)
  line : '\n' ∉ escaped

namespace StringBody

theorem nil : StringBody [] := ⟨.close, List.not_mem_nil⟩

theorem escaped (hc : c ≠ '\n') (h : StringBody text) : StringBody ('\\' :: c :: text) := by
  refine ⟨.escaped (charKind c) h.quoted, ?_⟩
  exact List.not_mem_cons_of_ne_of_not_mem (by decide) (List.not_mem_cons_of_ne_of_not_mem hc.symm h.line)

theorem unmarked (hc : c ∉ marked) (h : StringBody text) : StringBody (c :: text) := by
  refine ⟨h.quoted.unmarked hc, ?_⟩
  rintro (_ | ⟨_, hmem⟩)
  · exact hc List.mem_cons_self
  · exact h.line hmem

/-- Any character but a quote and a backslash. -/
theorem plain (hquote : c ≠ '"') (hslash : c ≠ '\\') (hline : c ≠ '\n') (h : StringBody text) :
    StringBody (c :: text) := by
  refine ⟨.other ?_ ?_ h.quoted, List.not_mem_cons_of_ne_of_not_mem hline.symm h.line⟩
  · rw [charKind, if_neg hquote, if_neg hslash]
    split_ifs <;> nofun
  · rw [charKind, if_neg hquote, if_neg hslash]
    split_ifs <;> nofun

theorem unicode {w x y z : Char} {n : ℕ} (h : hex4? w x y z = some n) (htext : StringBody text) :
    StringBody ('\\' :: 'u' :: w :: x :: y :: z :: text) := by
  obtain ⟨hw, hx, hy, hz⟩ := notMem_marked_of_hex4 h
  exact .escaped (by decide) (.unmarked hw (.unmarked hx (.unmarked hy (.unmarked hz htext))))

end StringBody

theorem stringBody_of_unescape {escaped : List Char} (h : (unescape escaped).isSome) : StringBody escaped := by
  fun_induction unescape escaped with
  | case1 => exact .nil
  | case2 w x y z w' x' y' z' rest ihRest ihLow =>
    rcases hhigh : hex4? w x y z with _ | high
    · rw [hhigh] at h
      cases h
    refine .unicode hhigh ?_
    rw [hhigh, Option.bind_eq_bind, Option.bind_some] at h
    split_ifs at h
    · rcases hlow : hex4? w' x' y' z' with _ | low
      · rw [hlow] at h
        cases h
      rw [hlow, Option.bind_some] at h
      split_ifs at h
      · rw [Option.isSome_map] at h
        exact .unicode hlow (ihRest h)
      · cases h
    · cases h
    · rw [Option.isSome_map] at h
      exact ihLow h
  | case3 w x y z rest _ ih =>
    rcases hhex : hex4? w x y z with _ | n
    · rw [hhex] at h
      cases h
    rw [hhex, Option.bind_eq_bind, Option.bind_some] at h
    split_ifs at h
    · cases h
    · rw [Option.isSome_map] at h
      exact .unicode hhex (ih h)
  | case4 c rest _ _ ih =>
    rcases hsimple : simpleEscape? c with _ | d
    · rw [hsimple] at h
      cases h
    rw [hsimple, Option.bind_eq_bind, Option.bind_some, Option.isSome_map] at h
    refine .escaped ?_ (ih h)
    rintro rfl
    cases hsimple
  | case5 => cases h
  | case6 c rest _ _ _ hplain ih =>
    rw [Option.isSome_map] at h
    rw [not_or, not_or] at hplain
    refine .plain hplain.1 hplain.2.1 ?_ (ih h)
    rintro rfl
    exact hplain.2.2 (by decide)

/-- A string with its quotes. -/
theorem StringBody.shaped {escaped : List Char} (h : StringBody escaped) :
    Shaped ('"' :: (escaped ++ ['"'])) := by
  constructor
  · have hstring := Inside.string h.quoted .nil
    rwa [List.append_nil] at hstring
  · refine .of_notMem (fun c hc => Option.some.inj hc ▸ rfl) ?_
    rintro (_ | ⟨_, hmem⟩)
    rcases List.mem_append.mp hmem with hmem | hmem
    · exact h.line hmem
    · cases List.mem_singleton.mp hmem

/-! ### Literals -/

/-- A character of a number. -/
def isNumeral (c : Char) : Bool := c.isDigit || ['+', '-', '.', 'e', 'E'].contains c

theorem notMem_marked_of_isNumeral (h : isNumeral c = true) : c ∉ marked := by
  have hnone : ∀ c ∈ marked, isNumeral c = false := List.forall_iff_forall_mem.mp (by decide)
  intro hc
  rw [hnone c hc] at h
  cases h

theorem isNumeral_of_isDigit (h : c.isDigit = true) : isNumeral c = true := Bool.or_eq_true_iff.mpr (Or.inl h)

/-- Digits, and what the check behind them lets through. -/
theorem numerals_of_digitsThen {behind : List Char → Bool}
    (hbehind : ∀ rest, behind rest = true → ∀ c ∈ rest, isNumeral c = true) (h : digitsThen behind text = true) :
    (∀ c ∈ text, isNumeral c = true) ∧ ∀ c ∈ text.head?, c.isDigit = true := by
  rw [digitsThen, Bool.and_eq_true, bne_iff_ne] at h
  obtain ⟨hne, hrest⟩ := h
  have hdigits : ∀ c ∈ text.takeWhile Char.isDigit, c.isDigit = true := fun c hc => List.mem_takeWhile_imp hc
  constructor
  · intro c hc
    rw [← List.takeWhile_append_dropWhile (p := Char.isDigit) (l := text), List.mem_append] at hc
    rcases hc with hc | hc
    · exact isNumeral_of_isDigit (hdigits c hc)
    · exact hbehind _ hrest c hc
  · obtain ⟨d, ds, hd⟩ := List.exists_cons_of_ne_nil hne
    intro c hc
    rw [← List.takeWhile_append_dropWhile (p := Char.isDigit) (l := text), hd] at hc
    obtain rfl := Option.some.inj hc
    exact hdigits d (hd ▸ List.mem_cons_self)

theorem numerals_of_isExponent (h : isExponent text = true) : ∀ c ∈ text, isNumeral c = true := by
  have hexp {e : Char} {rest : List Char} (h : ((e == 'e' || e == 'E') && digitsThen List.isEmpty rest) = true) :
      isNumeral e = true ∧ ∀ c ∈ rest, isNumeral c = true := by
    rw [Bool.and_eq_true, Bool.or_eq_true, beq_iff_eq, beq_iff_eq] at h
    refine ⟨by obtain rfl | rfl := h.1 <;> rfl, (numerals_of_digitsThen ?_ h.2).1⟩
    intro rest hrest
    rw [List.isEmpty_iff.mp hrest]
    exact fun c hc => absurd hc List.not_mem_nil
  fun_cases isExponent text with
  | case1 => exact fun c hc => absurd hc List.not_mem_nil
  | case2 e rest =>
    obtain ⟨he, hrest⟩ := hexp h
    exact List.forall_mem_cons.mpr ⟨he, List.forall_mem_cons.mpr ⟨rfl, hrest⟩⟩
  | case3 e rest =>
    obtain ⟨he, hrest⟩ := hexp h
    exact List.forall_mem_cons.mpr ⟨he, List.forall_mem_cons.mpr ⟨rfl, hrest⟩⟩
  | case4 e rest hplus hminus =>
    rw [isExponent.eq_def] at h
    split at h
    · contradiction
    · rename_i heq
      exact absurd (List.cons.inj heq).2 (hplus _ )
    · rename_i heq
      exact absurd (List.cons.inj heq).2 (hminus _ )
    · rename_i heq
      obtain ⟨rfl, rfl⟩ := List.cons.inj heq
      exact List.forall_mem_cons.mpr (hexp h)

theorem numerals_of_isFraction (h : isFraction text = true) : ∀ c ∈ text, isNumeral c = true := by
  rw [isFraction.eq_def] at h
  split at h
  · exact List.forall_mem_cons.mpr ⟨rfl, (numerals_of_digitsThen (fun _ => numerals_of_isExponent) h).1⟩
  · exact numerals_of_isExponent h

theorem numerals_of_isUnsigned (h : isUnsigned text = true) :
    (∀ c ∈ text, isNumeral c = true) ∧ ∀ c ∈ text.head?, c.isDigit = true := by
  rw [isUnsigned.eq_def] at h
  split at h
  · refine ⟨List.forall_mem_cons.mpr ⟨rfl, numerals_of_isFraction h⟩, ?_⟩
    rintro c ⟨⟩
    rfl
  · exact numerals_of_digitsThen (fun _ => numerals_of_isFraction) h

theorem numerals_of_isNumber (h : isNumber text = true) :
    (∀ c ∈ text, isNumeral c = true) ∧ ∀ c ∈ text.head?, mayBegin c = true := by
  have hdigit {c : Char} (hc : c.isDigit = true) : mayBegin c = true := by
    rw [mayBegin, hc, Bool.or_true, Bool.true_or]
  rw [isNumber.eq_def] at h
  split at h
  · refine ⟨List.forall_mem_cons.mpr ⟨rfl, (numerals_of_isUnsigned h).1⟩, ?_⟩
    rintro c ⟨⟩
    rfl
  · obtain ⟨hall, hhead⟩ := numerals_of_isUnsigned h
    exact ⟨hall, fun c hc => hdigit (hhead c hc)⟩

theorem shaped_of_isLiteral (h : isLiteral text = true) : Shaped text := by
  simp only [isLiteral, Bool.or_eq_true, beq_iff_eq] at h
  obtain ((rfl | rfl) | rfl) | h := h
  · exact .of_unmarked (by simp [mayBegin]) (by simp [marked])
  · exact .of_unmarked (by simp [mayBegin]) (by simp [marked])
  · exact .of_unmarked (by simp [mayBegin]) (by simp [marked])
  · obtain ⟨hall, hhead⟩ := numerals_of_isNumber h
    exact .of_unmarked hhead fun c hc => notMem_marked_of_isNumeral (hall c hc)

/-! ### Values -/

theorem Lead.shaped {inObject first : Bool} {lead : Lead} (h : lead.valid inObject = true) :
    Shaped (lead.textBehind first) := by
  have hcomma : Shaped (if first then [] else [',']) := by
    split_ifs
    · exact .nil
    · exact .cons rfl rfl .nil
  obtain ⟨blank, key⟩ := lead
  rw [Lead.valid, Bool.and_eq_true] at h
  obtain ⟨hblank, hkey⟩ := h
  cases key with
  | none => exact hcomma.append (.of_isBlank hblank)
  | some key =>
    obtain ⟨key, mid, gap⟩ := key
    simp only [Bool.and_eq_true] at hkey
    obtain ⟨⟨⟨-, hkey⟩, hmid⟩, hgap⟩ := hkey
    have hcolon : Shaped (':' :: gap) := .cons rfl rfl (.of_isBlank hgap)
    have hname := (stringBody_of_unescape hkey).shaped.append ((Shaped.of_isBlank hmid).append hcolon)
    have htext := hcomma.append ((Shaped.of_isBlank hblank).append hname)
    rw [Lead.textBehind, Lead.text]
    simpa only [List.append_assoc, List.cons_append, List.nil_append] using htext

namespace Raw

/-- What stands between brackets, with the brackets. -/
theorem shaped_container {opener closer : Char} {square : Bool} {body : List Char}
    (hopen : charKind opener = .opens square) (hclose : charKind closer = .closes square)
    (hbegin : mayBegin opener = true ∧ mayBegin closer = true) (h : Shaped body) :
    Shaped (opener :: (body ++ [closer])) ∧ Enclosure ((opener :: (body ++ [closer])).map charKind) := by
  have henclosure : Enclosure ((opener :: (body ++ [closer])).map charKind) := by
    rw [List.map_cons, List.map_append, List.map_singleton, hopen, hclose]
    exact .mk square h.inside
  exact ⟨⟨henclosure.inside, .cons hbegin.1 (h.lines.append (.singleton hbegin.2))⟩, henclosure⟩

mutual

/-- The brackets of a JSON text are balanced, and its lines begin as they may. -/
theorem shaped_text : ∀ r : Raw, r.valid = true → Shaped r.text
  | .token _, h => shaped_of_isLiteral h
  | .str _, h => (stringBody_of_unescape h).shaped
  | .arr blank elems, h => by
    simp only [valid, Bool.and_eq_true] at h
    have hbody := (Shaped.of_isBlank h.1.1).append (shaped_textElems true h.2)
    have hshaped := (@shaped_container '[' ']' true _ rfl rfl ⟨rfl, rfl⟩ hbody).1
    rw [List.append_assoc] at hshaped
    rw [Raw.text, List.cons_append, List.cons_append, List.append_assoc]
    exact hshaped
  | .obj blank elems, h => by
    simp only [valid, Bool.and_eq_true] at h
    have hbody := (Shaped.of_isBlank h.1.1).append (shaped_textElems true h.2)
    have hshaped := (@shaped_container '\x7b' '\x7d' false _ rfl rfl ⟨rfl, rfl⟩ hbody).1
    rw [List.append_assoc] at hshaped
    rw [Raw.text, List.cons_append, List.cons_append, List.append_assoc]
    exact hshaped

theorem shaped_textElems {inObject : Bool} : ∀ (first : Bool) {elems : List (Lead × Raw × List Char)},
    valid.validElems inObject elems = true → Shaped (Raw.text.textElems first elems)
  | _, [], _ => .nil
  | first, (lead, r, trail) :: rest, h => by
    simp only [valid.validElems, Bool.and_eq_true] at h
    obtain ⟨⟨⟨hlead, hr⟩, htrail⟩, hrest⟩ := h
    exact (((Lead.shaped hlead).append (shaped_text r hr)).append (.of_isBlank htrail)).append
      (shaped_textElems false hrest)

end

theorem enclosure_text {blank : List Char} {elems : List (Lead × Raw × List Char)}
    (h : (obj blank elems).valid = true) : Enclosure ((obj blank elems).text.map charKind) := by
  simp only [valid, Bool.and_eq_true] at h
  have hbody := (Shaped.of_isBlank h.1.1).append (shaped_textElems true h.2)
  have henclosure := (@shaped_container '\x7b' '\x7d' false _ rfl rfl ⟨rfl, rfl⟩ hbody).2
  rw [List.append_assoc] at henclosure
  rw [Raw.text, List.cons_append, List.cons_append, List.append_assoc]
  exact henclosure

end Raw

end Foundation
