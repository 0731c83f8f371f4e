import Mathlib.Data.List.DropRight
import Headroom.Foundation.RawShape

/-!
# JSON read from bytes

What is read as JSON is a written value between blanks, and blanks behind it count for nothing. Then no
object stands in front of another one, but for blanks.
-/

namespace Foundation

/-- A reader of JSON from bytes. -/
structure ReadsJson (read : Bytes → Option Json) : Prop where
  /-- What is read is a written value between blanks. -/
  sound : ∀ bytes v, read bytes = some v → ∃ (before : List Char) (r : Raw) (after : List Char),
    isBlank before = true ∧ isBlank after = true ∧ r.valid = true ∧ r.value = v ∧
      bytes = Text.encode (before ++ r.text ++ after)
  /-- Blanks behind a text count for nothing. -/
  blanks : ∀ bytes blank, isBlank blank = true → read (bytes ++ Text.encode blank) = read bytes

theorem isBlank_append {a b : List Char} : isBlank (a ++ b) = true ↔ isBlank a = true ∧ isBlank b = true := by
  rw [isBlank, List.all_append, Bool.and_eq_true]
  rfl

namespace Raw

theorem literalValue_ne_obj (literal : List Char) (fields : List (String × Json)) :
    literalValue literal ≠ .obj fields := by
  rw [literalValue]
  split_ifs <;> nofun

theorem eq_obj_of_value {r : Raw} {fields : List (String × Json)} (h : r.value = .obj fields) :
    ∃ blank elems, r = .obj blank elems := by
  rw [value] at h
  cases r with
  | token literal => exact absurd h (literalValue_ne_obj literal fields)
  | str => cases h
  | arr => cases h
  | obj blank elems => exact ⟨blank, elems, rfl⟩

end Raw

theorem eq_of_blank_append {before before' a b : List Char} (h : isBlank before = true) (h' : isBlank before' = true)
    (heq : before ++ '\x7b' :: a = before' ++ '\x7b' :: b) : before = before' := by
  have htake {front : List Char} (hfront : isBlank front = true) (tail : List Char) :
      (front ++ '\x7b' :: tail).takeWhile (fun c => c == ' ' || c == '\n' || c == '\t' || c == '\r') = front := by
    rw [List.takeWhile_append_of_pos (List.all_eq_true.mp hfront), List.takeWhile_cons_of_neg (by decide),
      List.append_nil]
  rw [← htake h a, heq, htake h' b]

namespace ReadsJson

variable {read : Bytes → Option Json}

theorem blank_behind (h : ReadsJson read) {bytes more : Bytes} {fields fields' : List (String × Json)}
    (hfront : read bytes = some (.obj fields)) (hall : read (bytes ++ more) = some (.obj fields')) :
    ∃ blank, isBlank blank = true ∧ more = Text.encode blank := by
  obtain ⟨before, r, after, hbefore, -, hvalid, hvalue, rfl⟩ := h.sound _ _ hfront
  obtain ⟨before', r', after', hbefore', hafter', hvalid', hvalue', hbytes⟩ := h.sound _ _ hall
  obtain ⟨behind, hsplit, rfl⟩ := exists_of_encode_append hbytes
  obtain ⟨blank, elems, rfl⟩ := Raw.eq_obj_of_value hvalue
  obtain ⟨blank', elems', rfl⟩ := Raw.eq_obj_of_value hvalue'
  have hsame : before' = before := by
    rw [List.append_assoc, List.append_assoc, List.append_assoc] at hsplit
    exact eq_of_blank_append hbefore' hbefore hsplit
  subst hsame
  rw [List.append_assoc, List.append_assoc, List.append_assoc] at hsplit
  have htail := List.append_cancel_left hsplit
  have hkinds := congrArg (List.map charKind) htail
  rw [List.map_append, List.map_append] at hkinds
  have hlength := congrArg List.length
    (Enclosure.eq_of_append_eq (Raw.enclosure_text hvalid') (Raw.enclosure_text hvalid) hkinds)
  rw [List.length_map, List.length_map] at hlength
  have hafter := (List.append_inj htail hlength).2
  rw [hafter] at hafter'
  exact ⟨behind, (isBlank_append.mp hafter').2, rfl⟩

/-- What is read has lines as those of JSON. -/
theorem lines (h : ReadsJson read) {bytes : Bytes} {v : Json} (hread : read bytes = some v) :
    ∃ chars, bytes = Text.encode chars ∧ LinesBegin '\n' (mayBegin ·) chars := by
  obtain ⟨before, r, after, hbefore, hafter, hvalid, -, rfl⟩ := h.sound _ _ hread
  exact ⟨_, rfl, (((Shaped.of_isBlank hbefore).append (r.shaped_text hvalid)).append (.of_isBlank hafter)).lines⟩

end ReadsJson

/-! ### A reader of one text -/

def isBlankByte (b : UInt8) : Bool := b == 32 || b == 10 || b == 9 || b == 13

/-- A reader of one text, with blanks behind it. -/
def readsOnly (r : Raw) (bytes : Bytes) : Option Json :=
  if bytes.rdropWhile isBlankByte = Text.encode r.text then some r.value else none

theorem exists_blank {bytes : Bytes} (h : ∀ b ∈ bytes, isBlankByte b = true) :
    ∃ blank, isBlank blank = true ∧ bytes = Text.encode blank := by
  induction bytes with
  | nil => exact ⟨[], rfl, rfl⟩
  | cons b bytes ih =>
    obtain ⟨hb, hbytes⟩ := List.forall_mem_cons.mp h
    obtain ⟨blank, hblank, rfl⟩ := ih hbytes
    have hone {c : Char} (hc : isBlank [c] = true) (hbyte : String.utf8EncodeChar c = [b]) :
        ∃ blank', isBlank blank' = true ∧ b :: Text.encode blank = Text.encode blank' := by
      refine ⟨c :: blank, isBlank_append.mpr ⟨hc, hblank⟩, ?_⟩
      rw [show Text.encode (c :: blank) = String.utf8EncodeChar c ++ Text.encode blank from List.flatMap_cons, hbyte]
      rfl
    simp only [isBlankByte, Bool.or_eq_true, beq_iff_eq] at hb
    obtain ((rfl | rfl) | rfl) | rfl := hb
    · exact @hone ' ' rfl rfl
    · exact @hone '\n' rfl rfl
    · exact @hone '\t' rfl rfl
    · exact @hone '\r' rfl rfl

theorem isBlankByte_of_mem {blank : List Char} (h : isBlank blank = true) {b : UInt8} (hb : b ∈ Text.encode blank) :
    isBlankByte b = true := by
  obtain ⟨c, hc, hb⟩ := List.mem_flatMap.mp hb
  have hblank := List.all_eq_true.mp h c hc
  simp only [Bool.or_eq_true, beq_iff_eq] at hblank
  obtain ((rfl | rfl) | rfl) | rfl := hblank <;>
  · obtain rfl := List.mem_singleton.mp hb
    rfl

theorem readsJson_readsOnly {r : Raw} (h : r.valid = true) : ReadsJson (readsOnly r) := by
  constructor
  · intro bytes v hread
    rw [readsOnly] at hread
    split_ifs at hread with hbytes
    obtain rfl := Option.some.inj hread
    obtain ⟨blank, hblank, heq⟩ := @exists_blank (bytes.rtakeWhile isBlankByte)
      (fun b hb => List.mem_rtakeWhile_imp hb)
    refine ⟨[], r, blank, rfl, hblank, h, rfl, ?_⟩
    rw [List.nil_append, Text.encode_append, ← heq, ← hbytes]
    exact (List.rdropWhile_append_rtakeWhile ..).symm
  · intro bytes blank hblank
    have hdrop : (bytes ++ Text.encode blank).rdropWhile isBlankByte = bytes.rdropWhile isBlankByte := by
      rw [List.rdropWhile, List.rdropWhile, List.reverse_append, List.dropWhile_append_of_pos]
      intro b hb
      exact isBlankByte_of_mem hblank (List.mem_reverse.mp hb)
    rw [readsOnly, readsOnly, hdrop]

end Foundation
