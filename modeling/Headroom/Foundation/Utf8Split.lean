import Headroom.Foundation.Bytes
import Headroom.Foundation.RawJson

/-!
# ASCII bytes in UTF-8

A byte below 128 is a character of its own, so that a text can be cut on both sides of it.
-/

namespace Foundation

theorem utf8_eq_encode (text : String) : utf8 text = Text.encode text.toList := by
  have h : (String.ofList text.toList).toByteArray = (text.toList.flatMap String.utf8EncodeChar).toByteArray := by
    rw [String.toByteArray_ofList, List.utf8Encode]
  rw [String.ofList_toList] at h
  rw [utf8, h, List.data_toByteArray, List.toList_toArray]
  rfl

theorem le_or_right {y k : UInt8} (hk : 128 ≤ k) : 128 ≤ y ||| k := by
  rw [UInt8.le_iff_toNat_le, UInt8.toNat_or] at *
  exact hk.trans Nat.right_le_or

variable {b : UInt8}

/-- An ASCII byte is a character of its own. -/
theorem utf8EncodeChar_of_ascii {c : Char} (hb : b < 128) (hmem : b ∈ String.utf8EncodeChar c) :
    String.utf8EncodeChar c = [b] := by
  have hlt : ¬128 ≤ b := by
    rw [UInt8.le_iff_toNat_le]
    have := UInt8.lt_iff_toNat_lt.mp hb
    omega
  rcases c.utf8Size_eq with h | h | h | h
  · rw [String.utf8EncodeChar_eq_singleton h, List.mem_singleton] at hmem
    rw [String.utf8EncodeChar_eq_singleton h, hmem]
  · rw [String.utf8EncodeChar_eq_cons_cons h] at hmem
    simp only [List.mem_cons, List.not_mem_nil, or_false] at hmem
    rcases hmem with rfl | rfl <;> exact absurd (le_or_right (by decide)) hlt
  · rw [String.utf8EncodeChar_eq_cons_cons_cons h] at hmem
    simp only [List.mem_cons, List.not_mem_nil, or_false] at hmem
    rcases hmem with rfl | rfl | rfl <;> exact absurd (le_or_right (by decide)) hlt
  · rw [String.utf8EncodeChar_eq_cons_cons_cons_cons h] at hmem
    simp only [List.mem_cons, List.not_mem_nil, or_false] at hmem
    rcases hmem with rfl | rfl | rfl | rfl <;> exact absurd (le_or_right (by decide)) hlt

variable {y x : Bytes}

theorem encode_split {chars : List Char} (hb : b < 128)
    (h : Text.encode chars = x ++ b :: y) :
    ∃ front c back, chars = front ++ c :: back ∧ Text.encode front = x ∧ Text.encode back = y ∧
      String.utf8EncodeChar c = [b] := by
  induction chars generalizing x with
  | nil =>
    have hnil : [] = x ++ b :: y := h
    simp at hnil
  | cons c chars ih =>
    have hcons : Text.encode (c :: chars) = String.utf8EncodeChar c ++ Text.encode chars := List.flatMap_cons
    rw [hcons] at h
    rcases List.append_eq_append_iff.mp h with ⟨z, rfl, hz⟩ | ⟨z, hz, hz'⟩
    · obtain ⟨front, c', back, rfl, rfl, rfl, hc'⟩ := ih hz
      exact ⟨c :: front, c', back, rfl, List.flatMap_cons, rfl, hc'⟩
    · cases z with
      | nil =>
        obtain ⟨front, c', back, rfl, hfront, rfl, hc'⟩ := ih (x := []) hz'.symm
        refine ⟨c :: front, c', back, rfl, ?_, rfl, hc'⟩
        rw [show Text.encode (c :: front) = String.utf8EncodeChar c ++ Text.encode front from List.flatMap_cons,
          hfront, hz, List.append_nil, List.append_nil]
      | cons b' z =>
        obtain ⟨rfl, rfl⟩ := List.cons.inj hz'
        have hone := utf8EncodeChar_of_ascii hb (hz ▸ List.mem_append_right x List.mem_cons_self)
        rw [hone] at hz
        obtain ⟨rfl, hz⟩ | ⟨x', rfl, hx'⟩ := List.cons_eq_append_iff.mp hz
        · obtain ⟨-, rfl⟩ := List.cons.inj hz
          exact ⟨[], c, chars, rfl, rfl, rfl, hone⟩
        · simp at hx'

theorem utf8_ofList (chars : List Char) : utf8 (String.ofList chars) = Text.encode chars := by
  rw [utf8_eq_encode, String.toList_ofList]

theorem eq_of_utf8EncodeChar {c d : Char} (h : String.utf8EncodeChar c = String.utf8EncodeChar d) : c = d := by
  have hone (c : Char) : Text.encode [c] = String.utf8EncodeChar c := List.append_nil _
  rw [← hone, ← hone] at h
  exact (List.cons.inj (Text.encode_injective h)).1

theorem eq_of_utf8EncodeChar_append {c d : Char}
    (h : String.utf8EncodeChar c ++ x = String.utf8EncodeChar d ++ y) : c = d := by
  have hdecode (c : Char) (x : Bytes) :
      (String.utf8EncodeChar c ++ x).toByteArray.utf8DecodeChar? 0 = some c := by
    rw [List.toByteArray_append]
    exact ByteArray.utf8DecodeChar?_utf8EncodeChar_append
  refine Option.some.inj ?_
  rw [← hdecode c x, h, hdecode]

theorem exists_of_encode_append {front chars : List Char}
    (h : Text.encode front ++ x = Text.encode chars) : ∃ back, chars = front ++ back ∧ x = Text.encode back := by
  have hcons (c : Char) (chars : List Char) : Text.encode (c :: chars) = String.utf8EncodeChar c ++ Text.encode chars :=
    List.flatMap_cons
  induction front generalizing chars with
  | nil => exact ⟨chars, rfl, h⟩
  | cons c front ih =>
    rw [hcons, List.append_assoc] at h
    cases chars with
    | nil => exact absurd (List.append_eq_nil_iff.mp h).1 String.utf8EncodeChar_ne_nil
    | cons d chars =>
      rw [hcons] at h
      obtain rfl := eq_of_utf8EncodeChar_append h
      obtain ⟨back, rfl, hback⟩ := ih (List.append_cancel_left h)
      exact ⟨back, rfl, hback⟩

/-- What stands before an ASCII byte and what stands behind it are texts. -/
theorem exists_utf8_split {text : String} (hb : b < 128)
    (h : utf8 text = x ++ b :: y) :
    ∃ front middle back : String, utf8 front = x ∧ utf8 middle = [b] ∧ utf8 back = y ∧
      text = front ++ middle ++ back := by
  rw [utf8_eq_encode] at h
  obtain ⟨front, c, back, hchars, hfront, hback, hc⟩ := encode_split hb h
  refine ⟨String.ofList front, String.ofList [c], String.ofList back, ?_, ?_, ?_, ?_⟩
  · rw [utf8_ofList, hfront]
  · rw [utf8_ofList, ← hc]
    exact List.append_nil _
  · rw [utf8_ofList, hback]
  · rw [← String.ofList_append, ← String.ofList_append, List.append_assoc, List.singleton_append, ← hchars,
      String.ofList_toList]

end Foundation
