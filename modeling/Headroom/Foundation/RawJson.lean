import Headroom.Foundation.Json
import Headroom.Foundation.Splice
import Headroom.Foundation.Text

/-!
# JSON as it is written

A JSON text with its blanks, its escapes and the order of its keys. The string values in it are found
by the byte at which they begin, and replacing some of them leaves every other byte as it was.
-/

namespace Foundation

namespace Text

/-- A text in UTF-8. -/
def encode (text : List Char) : List UInt8 := text.flatMap String.utf8EncodeChar

@[simp] theorem encode_append (a b : List Char) : encode (a ++ b) = encode a ++ encode b := List.flatMap_append

@[simp] theorem length_encode (text : List Char) : (encode text).length = utf8Length text := by
  induction text with
  | nil => rfl
  | cons c text ih =>
    rw [encode, List.flatMap_cons, List.length_append, String.length_utf8EncodeChar, utf8Length_cons]
    exact congrArg _ ih

theorem encode_eq_nil {text : List Char} : encode text = [] ↔ text = [] := by
  refine ⟨fun h => ?_, fun h => h ▸ rfl⟩
  cases text with
  | nil => rfl
  | cons c text =>
    have hlength := congrArg List.length h
    rw [length_encode, utf8Length_cons] at hlength
    have := Char.utf8Size_pos c
    rw [List.length_nil] at hlength
    omega

/-- The bytes of a text tell its characters. -/
theorem encode_injective : Function.Injective encode := by
  intro a b h
  have hbytes : a.utf8Encode = b.utf8Encode := congrArg List.toByteArray h
  have hchars := congrArg ByteArray.utf8Decode? hbytes
  rw [List.utf8Decode?_utf8Encode, List.utf8Decode?_utf8Encode] at hchars
  exact List.toArray_inj (Option.some.inj hchars)

end Text

/-! ### Written strings -/

/-- The value of a hexadecimal digit. -/
def hexValue? (c : Char) : Option ℕ :=
  if '0' ≤ c ∧ c ≤ '9' then some (c.toNat - 48)
  else if 'a' ≤ c ∧ c ≤ 'f' then some (c.toNat - 87)
  else if 'A' ≤ c ∧ c ≤ 'F' then some (c.toNat - 55)
  else none

def hex4? (a b c d : Char) : Option ℕ := do
  let a ← hexValue? a
  let b ← hexValue? b
  let c ← hexValue? c
  let d ← hexValue? d
  return ((a * 16 + b) * 16 + c) * 16 + d

/-- The character that stands behind a backslash. -/
def simpleEscape? (c : Char) : Option Char :=
  if c = '"' then some '"' else if c = '\\' then some '\\' else if c = '/' then some '/'
  else if c = 'b' then some (Char.ofNat 8) else if c = 'f' then some (Char.ofNat 12)
  else if c = 'n' then some '\n' else if c = 'r' then some '\r' else if c = 't' then some '\t'
  else none

/-- The text that stands between two quotes; none for what is no string of JSON. -/
def unescape : List Char → Option (List Char)
  | [] => some []
  | '\\' :: 'u' :: a :: b :: c :: d :: '\\' :: 'u' :: a' :: b' :: c' :: d' :: rest => do
    let high ← hex4? a b c d
    if 0xD800 ≤ high ∧ high < 0xDC00 then
      let low ← hex4? a' b' c' d'
      if 0xDC00 ≤ low ∧ low < 0xE000 then
        (unescape rest).map (Char.ofNat (0x10000 + (high - 0xD800) * 1024 + (low - 0xDC00)) :: ·)
      else none
    else if 0xDC00 ≤ high ∧ high < 0xE000 then none
    else (unescape ('\\' :: 'u' :: a' :: b' :: c' :: d' :: rest)).map (Char.ofNat high :: ·)
  | '\\' :: 'u' :: a :: b :: c :: d :: rest => do
    let n ← hex4? a b c d
    if 0xD800 ≤ n ∧ n < 0xE000 then none else (unescape rest).map (Char.ofNat n :: ·)
  | '\\' :: c :: rest => do
    let c ← simpleEscape? c
    (unescape rest).map (c :: ·)
  | c :: rest => if c = '"' ∨ c = '\\' ∨ c.toNat < 32 then none else (unescape rest).map (c :: ·)

/-- A text as it is written between quotes. -/
def escape (text : List Char) : List Char := text.flatMap Json.escapeChar

/-! ### Written values -/

/-- What stands in front of a value in its container: blanks, and in an object the key between its
quotes, with the blanks on both sides of the colon. -/
structure Lead where
  blank : List Char
  key : Option (List Char × List Char × List Char)

/-- A written value. An empty container may hold blanks; behind each value of a container stand blanks. -/
inductive Raw where
  | token (literal : List Char)
  | str (escaped : List Char)
  | arr (blank : List Char) (elems : List (Lead × Raw × List Char))
  | obj (blank : List Char) (elems : List (Lead × Raw × List Char))

def Lead.text (l : Lead) : List Char :=
  match l.key with
  | none => l.blank
  | some (key, mid, gap) => l.blank ++ '"' :: key ++ '"' :: mid ++ ':' :: gap

/-- The comma in front of all values of a container but the first, and what stands in front of a value. -/
def Lead.textBehind (first : Bool) (l : Lead) : List Char := (if first then [] else [',']) ++ l.text

namespace Raw

def text : Raw → List Char
  | .token literal => literal
  | .str escaped => '"' :: (escaped ++ ['"'])
  | .arr blank elems => ('[' :: blank) ++ textElems true elems ++ [']']
  | .obj blank elems => ('\x7b' :: blank) ++ textElems true elems ++ ['\x7d']
where
  /-- The values of a container. -/
  textElems : Bool → List (Lead × Raw × List Char) → List Char
    | _, [] => []
    | first, (lead, r, trail) :: rest =>
      lead.textBehind first ++ text r ++ trail ++ textElems false rest

/-- The string values of a text that begins at some byte: where they begin, and what is between their
quotes. -/
def strings : ℕ → Raw → List (ℕ × List Char)
  | _, .token _ => []
  | base, .str escaped => [(base, escaped)]
  | base, .arr blank elems => stringsElems (base + Text.utf8Length ('[' :: blank)) true elems
  | base, .obj blank elems => stringsElems (base + Text.utf8Length ('\x7b' :: blank)) true elems
where
  /-- The string values in the values of a container. -/
  stringsElems : ℕ → Bool → List (Lead × Raw × List Char) → List (ℕ × List Char)
    | _, _, [] => []
    | base, first, (lead, r, trail) :: rest =>
      strings (base + Text.utf8Length (lead.textBehind first)) r ++
        stringsElems (base + Text.utf8Length (lead.textBehind first ++ r.text ++ trail)) false rest

/-- The value with other texts in the place of some of its string values. -/
def swap (e : ℕ → Option (List Char)) : ℕ → Raw → Raw
  | _, .token literal => .token literal
  | base, .str escaped => .str (((e base).map escape).getD escaped)
  | base, .arr blank elems => .arr blank (swapElems e (base + Text.utf8Length ('[' :: blank)) true elems)
  | base, .obj blank elems => .obj blank (swapElems e (base + Text.utf8Length ('\x7b' :: blank)) true elems)
where
  /-- The values of a container with some of their string values replaced. -/
  swapElems (e : ℕ → Option (List Char)) :
      ℕ → Bool → List (Lead × Raw × List Char) → List (Lead × Raw × List Char)
    | _, _, [] => []
    | base, first, (lead, r, trail) :: rest =>
      (lead, swap e (base + Text.utf8Length (lead.textBehind first)) r, trail) ::
        swapElems e (base + Text.utf8Length (lead.textBehind first ++ r.text ++ trail)) false rest

/-- A text as a string value. -/
def string (text : String) : Raw := .str (escape text.toList)

/-- A field of an object, and an item of an array, without blanks. -/
def field (key : String) (r : Raw) : Lead × Raw × List Char := (⟨[], some (escape key.toList, [], [])⟩, r, [])

def item (r : Raw) : Lead × Raw × List Char := (⟨[], none⟩, r, [])

/-- A string between its quotes, in UTF-8. -/
def quoted (escaped : List Char) : List UInt8 := Text.encode ('"' :: (escaped ++ ['"']))

/-- The edit of the text that replaces a string value. -/
def editOf (e : ℕ → Option (List Char)) (start : ℕ) (escaped : List Char) : Option (Edit UInt8) :=
  (e start).map fun new => ⟨start, start + (quoted escaped).length, quoted (escape new)⟩

/-- The edits of the text that replace the string values. -/
def edits (e : ℕ → Option (List Char)) (strings : List (ℕ × List Char)) : List (Edit UInt8) :=
  strings.filterMap fun (start, escaped) => editOf e start escaped

/-! ### Replacing string values edits the text -/

theorem edits_append (e : ℕ → Option (List Char)) (as bs : List (ℕ × List Char)) :
    edits e (as ++ bs) = edits e as ++ edits e bs := List.filterMap_append

/-- A text around which others are kept. -/
theorem edited_around {s : List Char} {es : List (Edit UInt8)} {s' : List UInt8} (base : ℕ)
    (before after : List Char) (h : Edited (base + Text.utf8Length before) (Text.encode s) es s') :
    Edited base (Text.encode (before ++ s ++ after)) es (Text.encode before ++ s' ++ Text.encode after) := by
  have hbefore := Edited.keep base (Text.encode before)
  have h' : Edited (base + (Text.encode before).length) (Text.encode s) es s' := by
    rw [Text.length_encode]
    exact h
  have hafter := Edited.keep (base + (Text.encode before ++ Text.encode s).length) (Text.encode after)
  have hall := (hbefore.append h').append hafter
  rw [List.nil_append, List.append_nil, ← Text.encode_append, ← Text.encode_append] at hall
  exact hall

mutual

/-- Replacing string values is an edit of the text. -/
theorem edited_swap (e : ℕ → Option (List Char)) : ∀ (base : ℕ) (r : Raw),
    Edited base (Text.encode r.text) (edits e (r.strings base)) (Text.encode (r.swap e base).text)
  | base, .token literal => Edited.keep base (Text.encode literal)
  | base, .str escaped => by
    rw [strings, swap, edits, List.filterMap_cons]
    dsimp only [editOf]
    cases e base with
    | none => exact Edited.keep base (quoted escaped)
    | some new => exact Edited.replace base (quoted escaped) (quoted (escape new))
  | base, .arr blank elems => by
    have h := edited_around base ('[' :: blank) [']'] (edited_swapElems e _ true elems)
    rw [← Text.encode_append, ← Text.encode_append] at h
    exact h
  | base, .obj blank elems => by
    have h := edited_around base ('\x7b' :: blank) ['\x7d'] (edited_swapElems e _ true elems)
    rw [← Text.encode_append, ← Text.encode_append] at h
    exact h

theorem edited_swapElems (e : ℕ → Option (List Char)) :
    ∀ (base : ℕ) (first : Bool) (elems : List (Lead × Raw × List Char)),
      Edited base (Text.encode (text.textElems first elems)) (edits e (strings.stringsElems base first elems))
        (Text.encode (text.textElems first (swap.swapElems e base first elems)))
  | base, first, [] => Edited.keep base []
  | base, first, (lead, r, trail) :: rest => by
    have hr := edited_around base (lead.textBehind first) trail (edited_swap e _ r)
    rw [← Text.encode_append, ← Text.encode_append] at hr
    have hrest := edited_swapElems e
      (base + Text.utf8Length (lead.textBehind first ++ r.text ++ trail)) false rest
    rw [← Text.length_encode] at hrest
    have h := hr.append hrest
    rw [Text.length_encode, ← edits_append, ← Text.encode_append, ← Text.encode_append] at h
    exact h

end

/-! ### The edits in any order -/

theorem mem_edits {e : ℕ → Option (List Char)} {strings : List (ℕ × List Char)} {x : Edit UInt8} :
    x ∈ edits e strings ↔ ∃ start escaped new, (start, escaped) ∈ strings ∧ e start = some new ∧
      x = ⟨start, start + (quoted escaped).length, quoted (escape new)⟩ := by
  rw [edits, List.mem_filterMap]
  refine ⟨?_, ?_⟩
  · rintro ⟨⟨start, escaped⟩, hmem, hedit⟩
    obtain ⟨new, hnew, rfl⟩ := Option.map_eq_some_iff.1 hedit
    exact ⟨start, escaped, new, hmem, hnew, rfl⟩
  · rintro ⟨start, escaped, new, hmem, hnew, rfl⟩
    exact ⟨(start, escaped), hmem, Option.map_eq_some_iff.2 ⟨new, hnew, rfl⟩⟩

theorem length_quoted_pos (escaped : List Char) : 0 < (quoted escaped).length := by
  rw [quoted, Text.length_encode, Text.utf8Length_cons]
  have : Char.utf8Size '"' = 1 := rfl
  omega

theorem pairwise_edits (e : ℕ → Option (List Char)) (base : ℕ) (r : Raw) :
    (edits e (r.strings base)).Pairwise fun x y => x.start < y.start := by
  refine List.Pairwise.imp_of_mem ?_ (edited_swap e base r).fits.pairwise
  intro x y hx _ hxy
  obtain ⟨start, escaped, new, -, -, rfl⟩ := mem_edits.1 hx
  have := length_quoted_pos escaped
  dsimp only at hxy ⊢
  omega

theorem strings_inj {base start : ℕ} {r : Raw} {a b : List Char} (ha : (start, a) ∈ r.strings base)
    (hb : (start, b) ∈ r.strings base) : a = b := by
  have hedits : edits (fun _ => some []) (r.strings base) = (r.strings base).map fun x =>
      ⟨x.1, x.1 + (quoted x.2).length, quoted (escape [])⟩ := by
    rw [← List.filterMap_eq_map]
    rfl
  have hpair := pairwise_edits (fun _ => some []) base r
  rw [hedits, List.pairwise_map] at hpair
  have hnodup : ((r.strings base).map Prod.fst).Nodup :=
    List.pairwise_map.2 (hpair.imp fun hlt => Nat.ne_of_lt hlt)
  exact congrArg Prod.snd (List.inj_on_of_nodup_map hnodup ha hb rfl)

theorem sorted_edits_eq {e : ℕ → Option (List Char)} {base : ℕ} {r : Raw} {es : List (Edit UInt8)}
    (hnodup : es.Nodup) (hmem : ∀ x, x ∈ es ↔ x ∈ edits e (r.strings base)) :
    es.insertionSort Edit.Before = edits e (r.strings base) := by
  have hsorted := pairwise_edits e base r
  have hnodup' : (edits e (r.strings base)).Nodup := by
    refine hsorted.imp ?_
    rintro x y hlt rfl
    exact Nat.lt_irrefl _ hlt
  exact insertionSort_eq ((List.perm_ext_iff_of_nodup hnodup hnodup').2 hmem) hsorted

/-! ### Replacing depends on the string values only -/

mutual

theorem swap_congr {e e' : ℕ → Option (List Char)} : ∀ (base : ℕ) (r : Raw),
    (∀ x ∈ r.strings base, e x.1 = e' x.1) → r.swap e base = r.swap e' base
  | _, .token _, _ => rfl
  | base, .str escaped, h => by rw [swap, swap, h (base, escaped) (List.mem_singleton.2 rfl)]
  | _, .arr _ elems, h => by rw [swap, swap, swapElems_congr _ true elems h]
  | _, .obj _ elems, h => by rw [swap, swap, swapElems_congr _ true elems h]

theorem swapElems_congr {e e' : ℕ → Option (List Char)} :
    ∀ (base : ℕ) (first : Bool) (elems : List (Lead × Raw × List Char)),
      (∀ x ∈ strings.stringsElems base first elems, e x.1 = e' x.1) →
        swap.swapElems e base first elems = swap.swapElems e' base first elems
  | _, _, [], _ => rfl
  | _, _, (_, r, _) :: rest, h => by
    rw [swap.swapElems, swap.swapElems, swap_congr _ r fun x hx => h x (List.mem_append_left _ hx),
      swapElems_congr _ false rest fun x hx => h x (List.mem_append_right _ hx)]

end

mutual

theorem swap_add (e : ℕ → Option (List Char)) (k : ℕ) : ∀ (base : ℕ) (r : Raw),
    r.swap e (k + base) = r.swap (fun start => e (k + start)) base
  | _, .token _ => rfl
  | _, .str _ => rfl
  | base, .arr blank elems => by
    rw [swap, swap, Nat.add_assoc, swapElems_add e k _ true elems]
  | base, .obj blank elems => by
    rw [swap, swap, Nat.add_assoc, swapElems_add e k _ true elems]

theorem swapElems_add (e : ℕ → Option (List Char)) (k : ℕ) :
    ∀ (base : ℕ) (first : Bool) (elems : List (Lead × Raw × List Char)),
      swap.swapElems e (k + base) first elems =
        swap.swapElems (fun start => e (k + start)) base first elems
  | _, _, [] => rfl
  | base, first, (lead, r, trail) :: rest => by
    rw [swap.swapElems, swap.swapElems, Nat.add_assoc, Nat.add_assoc, swap_add e k _ r,
      swapElems_add e k _ false rest]

end

/-! ### Values within a value -/

end Raw

/-- A value within a text, and the byte at which it begins. -/
structure View where
  start : ℕ
  raw : Raw

namespace View

/-- The byte behind a value. -/
def stop (v : View) : ℕ := v.start + Text.utf8Length v.raw.text

/-- The bytes at which a value begins and ends. -/
def span (v : View) : ℕ × ℕ := (v.start, v.stop)

/-- The string values in a value. -/
def strings (v : View) : List (ℕ × List Char) := v.raw.strings v.start

/-- The value with some of its string values replaced. -/
def swap (e : ℕ → Option (List Char)) (v : View) : Raw := v.raw.swap e v.start

/-- The values of a container that begins at some byte. -/
def ofElems : ℕ → Bool → List (Lead × Raw × List Char) → List (Lead × View)
  | _, _, [] => []
  | base, first, (lead, r, trail) :: rest =>
    (lead, ⟨base + Text.utf8Length (lead.textBehind first), r⟩) ::
      ofElems (base + Text.utf8Length (lead.textBehind first ++ r.text ++ trail)) false rest

/-- The values of a container. -/
def elems (v : View) : List (Lead × View) :=
  match v.raw with
  | .arr blank elems => ofElems (v.start + Text.utf8Length ('[' :: blank)) true elems
  | .obj blank elems => ofElems (v.start + Text.utf8Length ('\x7b' :: blank)) true elems
  | _ => []

/-- The items of an array. -/
def items? (v : View) : Option (List View) :=
  match v.raw with
  | .arr _ _ => some (v.elems.map Prod.snd)
  | _ => none

/-- The text of a key. -/
def keyOf (lead : Lead) : List Char := (lead.key.bind fun k => unescape k.1).getD []

/-- The fields of an object under their keys. -/
def fields? (v : View) : Option (List (List Char × View)) :=
  match v.raw with
  | .obj _ _ => some (v.elems.map fun (lead, w) => (keyOf lead, w))
  | _ => none

/-- The text between the quotes of a string value. -/
def string? (v : View) : Option (List Char) :=
  match v.raw with
  | .str escaped => some escaped
  | _ => none

variable {lead : Lead} {w : View}

theorem within_ofElems {base : ℕ} {first : Bool} {elems : List (Lead × Raw × List Char)}
    (hw : (lead, w) ∈ ofElems base first elems) :
    base ≤ w.start ∧ w.stop ≤ base + Text.utf8Length (Raw.text.textElems first elems) := by
  induction elems generalizing base first with
  | nil => exact absurd hw List.not_mem_nil
  | cons elem rest ih =>
    obtain ⟨lead', r, trail⟩ := elem
    rw [Raw.text.textElems, Text.utf8Length_append, Text.utf8Length_append, Text.utf8Length_append]
    rw [ofElems, List.mem_cons] at hw
    rcases hw with heq | hw
    · obtain ⟨rfl, rfl⟩ := Prod.mk.inj heq
      rw [stop]
      dsimp only
      omega
    · have h := ih hw
      rw [Text.utf8Length_append, Text.utf8Length_append] at h
      omega

variable {v : View}

/-- The values of a container lie within it. -/
theorem within_elems (hw : (lead, w) ∈ v.elems) :
    v.start ≤ w.start ∧ w.stop ≤ v.stop := by
  obtain ⟨start, raw⟩ := v
  cases raw with
  | token literal => exact absurd hw List.not_mem_nil
  | str escaped => exact absurd hw List.not_mem_nil
  | arr blank elems =>
    have h := within_ofElems hw
    show start ≤ w.start ∧
      w.stop ≤ start + Text.utf8Length (('[' :: blank) ++ Raw.text.textElems true elems ++ [']'])
    rw [Text.utf8Length_append, Text.utf8Length_append]
    dsimp only at h
    omega
  | obj blank elems =>
    have h := within_ofElems hw
    show start ≤ w.start ∧
      w.stop ≤ start + Text.utf8Length (('\x7b' :: blank) ++ Raw.text.textElems true elems ++ ['\x7d'])
    rw [Text.utf8Length_append, Text.utf8Length_append]
    dsimp only at h
    omega

theorem pairwise_ofElems (base : ℕ) (first : Bool) (elems : List (Lead × Raw × List Char)) :
    (ofElems base first elems).Pairwise fun a b => a.2.stop ≤ b.2.start := by
  induction elems generalizing base first with
  | nil => exact List.Pairwise.nil
  | cons elem rest ih =>
    obtain ⟨lead, r, trail⟩ := elem
    refine List.pairwise_cons.2 ⟨?_, ih _ _⟩
    rintro ⟨lead', w⟩ hw
    have h := (within_ofElems hw).1
    rw [Text.utf8Length_append, Text.utf8Length_append] at h
    rw [stop]
    dsimp only
    omega

theorem pairwise_elems (v : View) : v.elems.Pairwise fun a b => a.2.stop ≤ b.2.start := by
  obtain ⟨start, raw⟩ := v
  cases raw with
  | token literal => exact List.Pairwise.nil
  | str escaped => exact List.Pairwise.nil
  | arr blank elems => exact pairwise_ofElems _ _ elems
  | obj blank elems => exact pairwise_ofElems _ _ elems

theorem mem_strings_of_mem_ofElems {base : ℕ} {first : Bool} {elems : List (Lead × Raw × List Char)}
    {x : ℕ × List Char} (hw : (lead, w) ∈ ofElems base first elems)
    (hx : x ∈ w.strings) : x ∈ Raw.strings.stringsElems base first elems := by
  induction elems generalizing base first with
  | nil => exact absurd hw List.not_mem_nil
  | cons elem rest ih =>
    obtain ⟨lead', r, trail⟩ := elem
    rw [Raw.strings.stringsElems, List.mem_append]
    rw [ofElems, List.mem_cons] at hw
    rcases hw with heq | hw
    · obtain ⟨rfl, rfl⟩ := Prod.mk.inj heq
      exact Or.inl hx
    · exact Or.inr (ih hw)

/-- The string values of a value in a container are string values of the container. -/
theorem mem_strings_of_mem_elems {x : ℕ × List Char}
    (hw : (lead, w) ∈ v.elems) (hx : x ∈ w.strings) : x ∈ v.strings := by
  obtain ⟨start, raw⟩ := v
  cases raw with
  | token literal => exact absurd hw List.not_mem_nil
  | str escaped => exact absurd hw List.not_mem_nil
  | arr blank elems => exact mem_strings_of_mem_ofElems hw hx
  | obj blank elems => exact mem_strings_of_mem_ofElems hw hx

theorem mem_elems_of_items {ws : List View} (h : v.items? = some ws) (hw : w ∈ ws) :
    ∃ lead, (lead, w) ∈ v.elems := by
  rw [items?] at h
  split at h
  · obtain rfl := Option.some.inj h
    obtain ⟨⟨lead, w'⟩, hmem, rfl⟩ := List.mem_map.1 hw
    exact ⟨lead, hmem⟩
  · exact absurd h nofun

theorem mem_elems_of_fields {key : List Char} {fs : List (List Char × View)}
    (h : v.fields? = some fs) (hw : (key, w) ∈ fs) : ∃ lead, (lead, w) ∈ v.elems := by
  rw [fields?] at h
  split at h
  · obtain rfl := Option.some.inj h
    obtain ⟨⟨lead, w'⟩, hmem, heq⟩ := List.mem_map.1 hw
    obtain ⟨-, rfl⟩ := Prod.mk.inj heq
    exact ⟨lead, hmem⟩
  · exact absurd h nofun

theorem pairwise_items {ws : List View} (h : v.items? = some ws) :
    ws.Pairwise fun a b => a.stop ≤ b.start := by
  rw [items?] at h
  split at h
  · obtain rfl := Option.some.inj h
    exact List.pairwise_map.2 v.pairwise_elems
  · exact absurd h nofun

theorem mem_strings_of_string {escaped : List Char} (h : v.string? = some escaped) :
    (v.start, escaped) ∈ v.strings := by
  obtain ⟨start, raw⟩ := v
  cases raw with
  | str escaped' =>
    obtain rfl := Option.some.inj h
    exact List.mem_singleton.2 rfl
  | token literal => exact absurd h nofun
  | arr blank elems => exact absurd h nofun
  | obj blank elems => exact absurd h nofun

end View

end Foundation
