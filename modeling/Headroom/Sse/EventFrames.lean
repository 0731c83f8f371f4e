import Headroom.Sse.ContentBlocks

/-!
# Written events are read back

An event that is written on one line of its own is one frame, and the frame has that event.
-/

open Foundation

namespace Headroom.Sse

section Lines

variable {a b : Bytes}

/-- Two lines and a blank one. -/
def twoLines (a b : Bytes) : Bytes := a ++ lf :: (b ++ [lf, lf])

theorem length_twoLines : (twoLines a b).length = a.length + b.length + 3 := by
  simp only [twoLines, List.length_append, List.length_cons, List.length_nil]
  omega

theorem getElem?_twoLines_eq_lf (ha : lf ∉ a) (hb : lf ∉ b) {i : ℕ} :
    (twoLines a b)[i]? = some lf ↔
      i = a.length ∨ i = a.length + 1 + b.length ∨ i = a.length + 2 + b.length := by
  have hne {l : Bytes} (hl : lf ∉ l) (i : ℕ) : l[i]? ≠ some lf :=
    fun h => hl (List.mem_of_getElem? h)
  rw [twoLines]
  rcases lt_trichotomy i a.length with h | rfl | h
  · rw [List.getElem?_append_left h]
    exact iff_of_false (hne ha i) (by omega)
  · simp
  · rw [List.getElem?_append_right h.le]
    obtain ⟨j, rfl⟩ : ∃ j, i = a.length + 1 + j := ⟨i - (a.length + 1), by omega⟩
    rw [show a.length + 1 + j - a.length = j + 1 by omega, List.getElem?_cons_succ]
    rcases lt_trichotomy j b.length with h | rfl | h
    · rw [List.getElem?_append_left h]
      exact iff_of_false (hne hb j) (by omega)
    · simp
    · rw [List.getElem?_append_right h.le]
      obtain ⟨k, rfl⟩ : ∃ k, j = b.length + 1 + k := ⟨j - (b.length + 1), by omega⟩
      rw [show b.length + 1 + k - b.length = k + 1 by omega, List.getElem?_cons_succ]
      cases k with
      | zero => simp; omega
      | succ k => simp; omega

theorem findDoubleNewline_twoLines (ha : lf ∉ a) (hb : lf ∉ b) (ha' : 2 ≤ a.length)
    (hb' : 2 ≤ b.length) : findDoubleNewline (twoLines a b) = some (a.length + 1 + b.length, 2) := by
  have hmiss : (List.range (a.length + b.length + 2)).findSome? (terminatorAt (twoLines a b)) = none := by
    rw [List.findSome?_eq_none_iff]
    intro i hi
    have hi := List.mem_range.mp hi
    simp only [terminatorAt, ne_eq, getElem?_twoLines_eq_lf ha hb]
    rw [ite_eq_left_iff]
    intro h
    split_ifs
    · rfl
    · omega
    · omega
    · rfl
  rw [findDoubleNewline, length_twoLines, List.range_succ, List.findSome?_append, hmiss]
  simp only [Option.none_or, List.findSome?_cons, List.findSome?_nil]
  have hlast : terminatorAt (twoLines a b) (a.length + b.length + 2) =
      some (a.length + 1 + b.length, 2) := by
    have hlf : ∀ i, i = a.length + 1 + b.length ∨ i = a.length + 2 + b.length →
        (twoLines a b)[i]? = some lf := fun i hi => (getElem?_twoLines_eq_lf ha hb).mpr (Or.inr hi)
    rw [terminatorAt, if_neg (not_not.mpr (hlf _ (by omega))), if_neg (by omega),
      if_pos (hlf _ (by omega))]
    simp only [Option.some.injEq, Prod.mk.injEq, and_true]
    omega
  rw [hlast]

theorem first_twoLines_append (ha : lf ∉ a) (hb : lf ∉ b) (ha' : 2 ≤ a.length) (hb' : 2 ≤ b.length)
    (more : Bytes) : terminator.first (twoLines a b ++ more) = some (twoLines a b).length := by
  have h := findDoubleNewline_append more (findDoubleNewline_twoLines ha hb ha' hb')
  show (findDoubleNewline (twoLines a b ++ more)).map _ = _
  rw [h, length_twoLines, Option.map_some]
  congr 1
  omega

theorem body_twoLines (ha : lf ∉ a) (hb : lf ∉ b) (ha' : 2 ≤ a.length) (hb' : 2 ≤ b.length) :
    body (twoLines a b) = a ++ lf :: b := by
  rw [body, findDoubleNewline_twoLines ha hb ha' hb']
  show (twoLines a b).take (a.length + 1 + b.length) = _
  rw [twoLines, show a ++ lf :: (b ++ [lf, lf]) = (a ++ lf :: b) ++ [lf, lf] by simp,
    List.take_left' (by simp; omega)]

theorem splitOn_lines (ha : lf ∉ a) (hb : lf ∉ b) : (a ++ lf :: b).splitOn lf = [a, b] := by
  rw [List.splitOn_append_cons_self, List.splitOn_eq_singleton ha, List.splitOn_eq_singleton hb]
  rfl

end Lines

theorem splitField_line {field value : Bytes} (h : 58 ∉ field) :
    splitField (field ++ 58 :: 32 :: value) = (field, value) := by
  have htake : (field ++ 58 :: 32 :: value).takeWhile (· != 58) = field := by
    rw [List.takeWhile_append_of_pos (by
      intro b hb
      simpa using fun hb' : b = 58 => h (hb' ▸ hb))]
    simp
  rw [splitField, htake, List.drop_left]
  rfl

theorem line_field {f : Fields} {field value : Bytes} (hne : field ≠ []) (h : 58 ∉ field)
    (hcr : cr ∉ field ++ 58 :: 32 :: value) :
    f.line (field ++ 58 :: 32 :: value) =
      if field = ascii "event" then
        match fromUtf8? value with
        | some name => .ok { f with eventName := some name }
        | none => .error (.eventNameNotUtf8 value)
      else if field = ascii "data" then .ok (f.pushData value)
      else .ok f := by
  have hstrip : stripCr (field ++ 58 :: 32 :: value) = field ++ 58 :: 32 :: value := by
    rw [stripCr, if_neg]
    exact fun hlast => hcr (List.mem_of_getLast? hlast)
  have hline : ((field ++ 58 :: 32 :: value).isEmpty || (field ++ 58 :: 32 :: value).head? = some 58) =
      false := by
    obtain ⟨b, field, rfl⟩ := List.exists_cons_of_ne_nil hne
    have hb : b ≠ 58 := fun hb => h (hb ▸ List.mem_cons_self)
    simp [hb]
  simp only [Fields.line, hstrip, hline, Bool.false_eq_true, if_false, splitField_line h] <;> rfl

section Events

variable {name : String} {data : Bytes}

theorem eventBytes_eq : eventBytes name data =
    twoLines (ascii "event" ++ 58 :: 32 :: utf8 name) (ascii "data" ++ 58 :: 32 :: data) := by
  have hevent : ascii "event: " = ascii "event" ++ [58, 32] := by decide
  have hdata : ascii "data: " = ascii "data" ++ [58, 32] := by decide
  simp only [eventBytes, twoLines, hevent, hdata, List.append_assoc, List.cons_append,
    List.nil_append]

/-- A field on a line of its own. -/
theorem not_mem_field {b : UInt8} {field value : Bytes} (hfield : b ∉ field) (hvalue : b ∉ value)
    (hcolon : b ≠ 58) (hspace : b ≠ 32) : b ∉ field ++ 58 :: 32 :: value := by
  simp [hfield, hvalue, hcolon, hspace]

theorem meaning_eventBytes (hname : lf ∉ utf8 name) (hname' : cr ∉ utf8 name) (hdata : lf ∉ data)
    (hdata' : cr ∉ data) : meaning (eventBytes name data) = some (.ok ⟨some name, data⟩) := by
  have ha : lf ∉ ascii "event" ++ 58 :: 32 :: utf8 name :=
    not_mem_field (by decide) hname (by decide) (by decide)
  have hb : lf ∉ ascii "data" ++ 58 :: 32 :: data :=
    not_mem_field (by decide) hdata (by decide) (by decide)
  have hlines : (body (eventBytes name data)).splitOn lf =
      [ascii "event" ++ 58 :: 32 :: utf8 name, ascii "data" ++ 58 :: 32 :: data] := by
    rw [eventBytes_eq, body_twoLines ha hb (by simp; omega) (by simp; omega), splitOn_lines ha hb]
  have hfirst : Fields.line {} (ascii "event" ++ 58 :: 32 :: utf8 name) =
      .ok { eventName := some name } := by
    rw [line_field (by decide) (by decide)
      (not_mem_field (by decide) hname' (by decide) (by decide)), if_pos rfl, fromUtf8?_utf8]
  have hsecond : Fields.line { eventName := some name } (ascii "data" ++ 58 :: 32 :: data) =
      .ok { eventName := some name, dataFirst := some data } := by
    rw [line_field (by decide) (by decide)
      (not_mem_field (by decide) hdata' (by decide) (by decide)), if_neg (by decide), if_pos rfl]
    rfl
  have hparse : parseEventBlock (body (eventBytes name data)) = .ok (some ⟨some name, data⟩) := by
    rw [parseEventBlock, hlines, List.foldlM_cons, hfirst]
    show (do
      let f ← List.foldlM Fields.line { eventName := some name } [ascii "data" ++ 58 :: 32 :: data]
      _) = _
    rw [List.foldlM_cons, hsecond]
    rfl
  rw [meaning, hparse]
  rfl

theorem first_eventBytes_append (hname : lf ∉ utf8 name) (hdata : lf ∉ data) (more : Bytes) :
    terminator.first (eventBytes name data ++ more) = some (eventBytes name data).length := by
  rw [eventBytes_eq]
  exact first_twoLines_append (not_mem_field (by decide) hname (by decide) (by decide))
    (not_mem_field (by decide) hdata (by decide) (by decide)) (by simp; omega) (by simp; omega) more

end Events

end Headroom.Sse
