import Headroom.Foundation.JsonObject
import Headroom.Foundation.RawValue

/-!
# Views of a text that is moved or changed

A value that stands elsewhere in a text has the same values in it, all moved by the same distance. A value
of which some strings were replaced has the same values in it, each with its own strings replaced.
-/

namespace Foundation

mutual

theorem Raw.strings_add (k : ℕ) : ∀ (base : ℕ) (r : Raw),
    r.strings (k + base) = (r.strings base).map fun x => (k + x.1, x.2)
  | _, .token _ => rfl
  | _, .str _ => rfl
  | base, .arr blank elems => by
    rw [Raw.strings, Raw.strings, Nat.add_assoc, stringsElems_add k _ true elems]
  | base, .obj blank elems => by
    rw [Raw.strings, Raw.strings, Nat.add_assoc, stringsElems_add k _ true elems]

theorem stringsElems_add (k : ℕ) :
    ∀ (base : ℕ) (first : Bool) (elems : List (Lead × Raw × List Char)),
      Raw.strings.stringsElems (k + base) first elems =
        (Raw.strings.stringsElems base first elems).map fun x => (k + x.1, x.2)
  | _, _, [] => rfl
  | base, first, (lead, r, trail) :: rest => by
    rw [Raw.strings.stringsElems, Raw.strings.stringsElems, Nat.add_assoc, Nat.add_assoc,
      Raw.strings_add k _ r, stringsElems_add k _ false rest, List.map_append]

end

theorem Raw.quoted_escape_injective : Function.Injective fun text => Raw.quoted (escape text) := by
  intro a b h
  obtain ⟨-, htext⟩ := List.cons.inj (Text.encode_injective h)
  have hescape : escape a = escape b := (List.append_inj' htext rfl).1
  have hunescape := congrArg unescape hescape
  rw [unescape_escape, unescape_escape] at hunescape
  exact Option.some.inj hunescape

namespace View

/-- The same value some bytes further on. -/
def shift (d : ℕ) (v : View) : View := ⟨d + v.start, v.raw⟩

/-! ### A value that is moved -/

section

variable (d : ℕ)

theorem stop_shift (v : View) : (v.shift d).stop = d + v.stop := Nat.add_assoc d v.start _

theorem span_shift (v : View) : (v.shift d).span = (d + v.start, d + v.stop) :=
  congrArg (fun stop => (d + v.start, stop)) (v.stop_shift d)

@[simp] theorem raw_shift (v : View) : (v.shift d).raw = v.raw := rfl

@[simp] theorem string?_shift (v : View) : (v.shift d).string? = v.string? := rfl

theorem ofElems_shift (base : ℕ) (first : Bool) (elems : List (Lead × Raw × List Char)) :
    ofElems (d + base) first elems = (ofElems base first elems).map fun e => (e.1, e.2.shift d) := by
  induction elems generalizing base first with
  | nil => rfl
  | cons elem rest ih =>
    obtain ⟨lead, r, trail⟩ := elem
    rw [ofElems, ofElems, List.map_cons, Nat.add_assoc, Nat.add_assoc, ih]
    rfl

theorem elems_shift (v : View) : (v.shift d).elems = v.elems.map fun e => (e.1, e.2.shift d) := by
  obtain ⟨start, raw⟩ := v
  cases raw with
  | token literal => rfl
  | str escaped => rfl
  | arr blank elems =>
    rw [shift, View.elems, View.elems]
    dsimp only
    rw [Nat.add_assoc, ofElems_shift]
  | obj blank elems =>
    rw [shift, View.elems, View.elems]
    dsimp only
    rw [Nat.add_assoc, ofElems_shift]

theorem items?_shift (v : View) : (v.shift d).items? = v.items?.map (List.map (shift d)) := by
  have helems := v.elems_shift d
  obtain ⟨start, raw⟩ := v
  cases raw with
  | token literal => rfl
  | str escaped => rfl
  | obj blank elems => rfl
  | arr blank elems =>
    show some ((View.shift d ⟨start, .arr blank elems⟩).elems.map Prod.snd) =
      some (((View.mk start (.arr blank elems)).elems.map Prod.snd).map (shift d))
    rw [helems, List.map_map, List.map_map]
    rfl

theorem fields?_shift (v : View) :
    (v.shift d).fields? = v.fields?.map (List.map fun f => (f.1, f.2.shift d)) := by
  have helems := v.elems_shift d
  obtain ⟨start, raw⟩ := v
  cases raw with
  | token literal => rfl
  | str escaped => rfl
  | arr blank elems => rfl
  | obj blank elems =>
    show some ((View.shift d ⟨start, .obj blank elems⟩).elems.map fun e => (keyOf e.1, e.2)) =
      some (((View.mk start (.obj blank elems)).elems.map fun e => (keyOf e.1, e.2)).map fun f =>
        (f.1, f.2.shift d))
    rw [helems, List.map_map, List.map_map]
    rfl

theorem start_lt_of_mem_strings {base start : ℕ} {r : Raw} {escaped : List Char}
    (h : (start, escaped) ∈ r.strings base) : start < base + Text.utf8Length r.text := by
  have hedit : (⟨start, start + (Raw.quoted escaped).length, Raw.quoted (escape [])⟩ : Edit UInt8) ∈
      Raw.edits (fun _ => some []) (r.strings base) :=
    Raw.mem_edits.2 ⟨start, escaped, [], h, rfl, rfl⟩
  have hstop := (Raw.edited_swap (fun _ => some []) base r).fits.stop_le hedit
  have hpos := Raw.length_quoted_pos escaped
  rw [Text.length_encode] at hstop
  dsimp only at hstop
  omega

theorem swap_eq {v w : View} {e e' : ℕ → Option (List Char)} (hraw : w.raw = v.raw)
    (h : ∀ off < Text.utf8Length v.raw.text, e' (w.start + off) = e (v.start + off)) :
    w.swap e' = v.swap e := by
  have hw := Raw.swap_add e' w.start 0 w.raw
  have hv := Raw.swap_add e v.start 0 v.raw
  rw [Nat.add_zero] at hw hv
  rw [swap, swap, hw, hv, hraw]
  refine Raw.swap_congr 0 v.raw fun x hx => h x.1 ?_
  have hlt := start_lt_of_mem_strings hx
  rwa [Nat.zero_add] at hlt

end

/-! ### A value of which strings were replaced -/

section

variable (e : ℕ → Option (List Char))

theorem ofElems_swap (base base' : ℕ) (first : Bool) (elems : List (Lead × Raw × List Char)) :
    (ofElems base' first (Raw.swap.swapElems e base first elems)).map (fun x => (x.1, x.2.raw)) =
      (ofElems base first elems).map fun x => (x.1, x.2.swap e) := by
  induction elems generalizing base base' first with
  | nil => rfl
  | cons elem rest ih =>
    obtain ⟨lead, r, trail⟩ := elem
    rw [Raw.swap.swapElems, ofElems, ofElems, List.map_cons, List.map_cons, ih]
    rfl

/-- What is in a value of which strings were replaced, wherever it stands. -/
theorem elems_swap (start : ℕ) (v : View) :
    (View.mk start (v.swap e)).elems.map (fun x => (x.1, x.2.raw)) =
      v.elems.map fun x => (x.1, x.2.swap e) := by
  obtain ⟨start', raw⟩ := v
  cases raw with
  | token literal => rfl
  | str escaped => rfl
  | arr blank elems => exact ofElems_swap e _ _ true elems
  | obj blank elems => exact ofElems_swap e _ _ true elems

theorem items?_swap (start : ℕ) (v : View) :
    (View.mk start (v.swap e)).items?.map (List.map View.raw) = v.items?.map (List.map (View.swap e)) := by
  have helems := congrArg (List.map Prod.snd) (v.elems_swap e start)
  rw [List.map_map, List.map_map] at helems
  obtain ⟨start', raw⟩ := v
  cases raw with
  | token literal => rfl
  | str escaped => rfl
  | obj blank elems => rfl
  | arr blank elems =>
    show some (List.map View.raw (List.map Prod.snd _)) = some (List.map (View.swap e) (List.map Prod.snd _))
    rw [List.map_map, List.map_map]
    exact congrArg some helems

theorem fields?_swap (start : ℕ) (v : View) :
    (View.mk start (v.swap e)).fields?.map (List.map fun f => (f.1, f.2.raw)) =
      v.fields?.map (List.map fun f => (f.1, f.2.swap e)) := by
  have helems := congrArg (List.map fun x => (keyOf x.1, x.2)) (v.elems_swap e start)
  rw [List.map_map, List.map_map] at helems
  obtain ⟨start', raw⟩ := v
  cases raw with
  | token literal => rfl
  | str escaped => rfl
  | arr blank elems => rfl
  | obj blank elems =>
    show some (List.map _ (List.map _ _)) = some (List.map _ (List.map _ _))
    rw [List.map_map, List.map_map]
    exact congrArg some helems

end

end View

mutual

theorem Raw.swap_none : ∀ (base : ℕ) (r : Raw), r.swap (fun _ => none) base = r
  | _, .token _ => rfl
  | _, .str _ => rfl
  | base, .arr blank elems => by rw [Raw.swap, swapElems_none _ true elems]
  | base, .obj blank elems => by rw [Raw.swap, swapElems_none _ true elems]

theorem swapElems_none : ∀ (base : ℕ) (first : Bool) (elems : List (Lead × Raw × List Char)),
    Raw.swap.swapElems (fun _ => none) base first elems = elems
  | _, _, [] => rfl
  | base, first, (lead, r, trail) :: rest => by
    rw [Raw.swap.swapElems, Raw.swap_none _ r, swapElems_none _ false rest]

end

/-! ### The value of a view -/

theorem get?_fieldsOf (key : String) (fields : List (List Char × Json)) :
    (Json.obj (Raw.fieldsOf fields)).get? key =
      ((fields.filter fun f => f.1 = key.toList).getLast?).map Prod.snd := by
  rw [Raw.fieldsOf]
  induction fields using List.reverseRecOn with
  | nil => rfl
  | append_singleton fields f ih =>
    rw [List.foldl_append, List.filter_append]
    rw [List.foldl_cons, List.foldl_nil]
    by_cases hkey : f.1 = key.toList
    · rw [hkey, String.ofList_toList, Json.get?_insertField_self, List.filter_singleton, decide_eq_true hkey,
        cond_true, List.getLast?_concat]
      rfl
    · have hne : key ≠ String.ofList f.1 := by
        rintro rfl
        exact hkey String.toList_ofList.symm
      rw [List.filter_singleton, decide_eq_false hkey, cond_false, List.append_nil, ← ih]
      exact Json.get?_insert_of_ne (j := .obj _) hne

namespace View

theorem valueElems_eq (base : ℕ) (first : Bool) (elems : List (Lead × Raw × List Char)) :
    Raw.valueWith.valueElems (fun _ => none) base first elems =
      (ofElems base first elems).map fun x => (keyOf x.1, x.2.raw.value) := by
  induction elems generalizing base first with
  | nil => rfl
  | cons elem rest ih =>
    obtain ⟨lead, r, trail⟩ := elem
    rw [Raw.valueWith.valueElems, ofElems, List.map_cons, ih]
    exact congrArg (fun value => (keyOf lead, value) :: _) (Raw.valueWith_none _ 0 r)

theorem getArr_of_items {v : View} {items : List View} (h : v.items? = some items) :
    v.raw.value.asArr? = some (items.map fun w => w.raw.value) := by
  obtain ⟨start, raw⟩ := v
  cases raw with
  | arr blank elems =>
    obtain rfl := Option.some.inj h
    show some ((Raw.valueWith.valueElems (fun _ => none) (0 + Text.utf8Length ('[' :: blank)) true elems).map
      Prod.snd) = some (((ofElems (start + Text.utf8Length ('[' :: blank)) true elems).map Prod.snd).map
        fun w => w.raw.value)
    rw [Raw.valueElems_none _ (start + Text.utf8Length ('[' :: blank)), valueElems_eq, List.map_map,
      List.map_map]
    rfl
  | token literal => exact absurd h nofun
  | str escaped => exact absurd h nofun
  | obj blank elems => exact absurd h nofun

theorem get_of_fields {v : View} {fields : List (List Char × View)} (h : v.fields? = some fields)
    (key : String) :
    v.raw.value.get? key =
      ((fields.filter fun f => f.1 = key.toList).getLast?).map fun f => f.2.raw.value := by
  obtain ⟨start, raw⟩ := v
  cases raw with
  | obj blank elems =>
    obtain rfl := Option.some.inj h
    show (Json.obj (Raw.fieldsOf (Raw.valueWith.valueElems (fun _ => none)
      (0 + Text.utf8Length ('\x7b' :: blank)) true elems))).get? key = _
    rw [Raw.valueElems_none _ (start + Text.utf8Length ('\x7b' :: blank)), valueElems_eq, get?_fieldsOf,
      List.filter_map, List.filter_map, List.getLast?_map, List.getLast?_map, Option.map_map, Option.map_map]
    rfl
  | token literal => exact absurd h nofun
  | str escaped => exact absurd h nofun
  | arr blank elems => exact absurd h nofun

end View

end Foundation
