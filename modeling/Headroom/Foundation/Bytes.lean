import Mathlib.Data.List.Basic
import Mathlib.Algebra.GroupWithZero.Nat

/-!
# Bytes

Byte strings as lists, the bytes of ASCII literals, and UTF-8.
-/

namespace Foundation

/-- A byte string. -/
abbrev Bytes := List UInt8

instance : LawfulBEq Bytes := inferInstance

/-- The bytes of an ASCII text. -/
def ascii (text : String) : Bytes := text.toList.map fun c => c.val.toUInt8

/-- The UTF-8 bytes of a text. -/
def utf8 (text : String) : Bytes := text.toByteArray.data.toList

/-- A byte string read as UTF-8. -/
def fromUtf8? (bytes : Bytes) : Option String := String.fromUTF8? ⟨bytes.toArray⟩

/-- The whitespace of ASCII. -/
def isAsciiWhitespace (b : UInt8) : Bool := b = 32 || b = 9 || b = 10 || b = 12 || b = 13

/-- A line feed. -/
def lf : UInt8 := 10

/-- A carriage return. -/
def cr : UInt8 := 13

/-! ### Lossy UTF-8 -/

/-- The character at the front, and its length in bytes. -/
def firstChar? (bytes : Bytes) : Option (Char × ℕ) :=
  (List.range' 1 4).findSome? fun n =>
    (fromUtf8? (bytes.take n)).bind fun text => text.toList.head?.map fun c => (c, n)

def isTail (b : UInt8) : Bool := 0x80 ≤ b && b ≤ 0xBF

/-- Whether a byte can be the second one of a character of three or four bytes. -/
def isSecond (a b : UInt8) : Bool :=
  if a = 0xE0 then 0xA0 ≤ b && b ≤ 0xBF
  else if a = 0xED then 0x80 ≤ b && b ≤ 0x9F
  else if a = 0xF0 then 0x90 ≤ b && b ≤ 0xBF
  else if a = 0xF4 then 0x80 ≤ b && b ≤ 0x8F
  else 0xE1 ≤ a && a ≤ 0xF3 && isTail b

/-- How many bytes at the front stand for one replacement character: as many as could begin a
character. -/
def maximalSubpart : Bytes → ℕ
  | a :: b :: rest =>
    if isSecond a b then (if 0xF0 ≤ a && rest.head?.any isTail then 3 else 2) else 1
  | _ => 1

/-- The characters of bytes that are not UTF-8, for as many rounds as there are bytes. -/
def replaceInvalid : ℕ → Bytes → List Char
  | 0, _ => []
  | _, [] => []
  | fuel + 1, bytes =>
    match firstChar? bytes with
    | some (c, n) => c :: replaceInvalid fuel (bytes.drop n)
    | none => '\ufffd' :: replaceInvalid fuel (bytes.drop (maximalSubpart bytes))

/-- A byte string read as UTF-8, with replacement characters for what is not. -/
def fromUtf8Lossy (bytes : Bytes) : List Char :=
  match fromUtf8? bytes with
  | some text => text.toList
  | none => replaceInvalid bytes.length bytes

/-- Whole characters and nothing else. -/
def WholeChars (bytes : Bytes) : Prop := (fromUtf8? bytes).isSome

instance (bytes : Bytes) : Decidable (WholeChars bytes) := inferInstanceAs (Decidable (_ = true))

theorem fromUtf8?_utf8 (text : String) : fromUtf8? (utf8 text) = some text := by
  have hbytes : (⟨(utf8 text).toArray⟩ : ByteArray) = text.toByteArray := by
    rw [utf8, Array.toArray_toList]
  rw [fromUtf8?, hbytes, String.fromUTF8?, dif_pos text.isValidUTF8]
  rfl

theorem eq_utf8_of_fromUtf8? {bytes : Bytes} {text : String} (h : fromUtf8? bytes = some text) :
    bytes = utf8 text := by
  rw [fromUtf8?, String.fromUTF8?] at h
  split_ifs at h with hvalid
  rw [← Option.some.inj h]
  rfl

theorem utf8_append (a b : String) : utf8 (a ++ b) = utf8 a ++ utf8 b := by
  rw [utf8, utf8, utf8, String.toByteArray_append, ByteArray.data_append, Array.toList_append]

theorem fromUtf8Lossy_append {a b : Bytes} (ha : WholeChars a) (hb : WholeChars b) :
    WholeChars (a ++ b) ∧ fromUtf8Lossy (a ++ b) = fromUtf8Lossy a ++ fromUtf8Lossy b := by
  obtain ⟨s, hs⟩ := Option.isSome_iff_exists.mp ha
  obtain ⟨s', hs'⟩ := Option.isSome_iff_exists.mp hb
  have hab : fromUtf8? (a ++ b) = some (s ++ s') := by
    rw [eq_utf8_of_fromUtf8? hs, eq_utf8_of_fromUtf8? hs', ← utf8_append, fromUtf8?_utf8]
  refine ⟨Option.isSome_iff_exists.mpr ⟨_, hab⟩, ?_⟩
  rw [fromUtf8Lossy, fromUtf8Lossy, fromUtf8Lossy, hab, hs, hs']
  exact String.toList_append

/-! ### Decimal numbers -/

theorem toNat_toUInt8 {c : Char} (h : c.isDigit = true) : c.val.toUInt8.toNat = c.toNat := by
  have hle : c.toNat ≤ 57 := (Char.isDigit_iff_toNat.mp h).2
  rw [UInt32.toNat_toUInt8]
  exact Nat.mod_eq_of_lt (Nat.lt_of_le_of_lt hle (by decide))

theorem isDigit_of_mem_toString {n : ℕ} {c : Char} (h : c ∈ (toString n).toList) : c.isDigit = true := by
  rw [Nat.toString_eq_ofList_toDigits, String.toList_ofList] at h
  exact Nat.isDigit_of_mem_toDigits (by decide) (by decide) h

theorem isDigit_of_mem_ascii_toString {n : ℕ} {b : UInt8} (h : b ∈ ascii (toString n)) :
    48 ≤ b.toNat ∧ b.toNat ≤ 57 := by
  obtain ⟨c, hc, rfl⟩ := List.mem_map.mp h
  have hdigit := isDigit_of_mem_toString hc
  rw [toNat_toUInt8 hdigit]
  exact Char.isDigit_iff_toNat.mp hdigit

theorem ascii_toString_injective : Function.Injective fun n : ℕ => ascii (toString n) := by
  intro m n h
  have hback : ∀ k : ℕ, (ascii (toString k)).map (fun b => Char.ofNat b.toNat) = (toString k).toList := by
    intro k
    rw [ascii, List.map_map]
    refine (List.map_congr_left fun c hc => ?_).trans (List.map_id _)
    show Char.ofNat c.val.toUInt8.toNat = c
    rw [toNat_toUInt8 (isDigit_of_mem_toString hc), Char.ofNat_toNat]
  have hdigits : (toString m).toList = (toString n).toList := by
    rw [← hback, ← hback]
    exact congrArg _ h
  rw [Nat.toString_eq_ofList_toDigits, Nat.toString_eq_ofList_toDigits, String.toList_ofList,
    String.toList_ofList] at hdigits
  rw [← Nat.ofDigitChars_ten_toDigits (n := m), hdigits, Nat.ofDigitChars_ten_toDigits]

/-! ### Big-endian numbers -/

/-- A number in so many bytes, the most significant first. -/
def toBe : ℕ → ℕ → Bytes
  | 0, _ => []
  | width + 1, n => UInt8.ofNat (n / 256 ^ width) :: toBe width n

/-- The number of bytes, the most significant first. -/
def fromBe : Bytes → ℕ
  | [] => 0
  | b :: bytes => b.toNat * 256 ^ bytes.length + fromBe bytes

@[simp] theorem length_toBe (width n : ℕ) : (toBe width n).length = width := by
  induction width with
  | zero => rfl
  | succ width ih => rw [toBe, List.length_cons, ih]

@[simp] theorem fromBe_singleton (b : UInt8) : fromBe [b] = b.toNat := by
  rw [fromBe, fromBe, List.length_nil, Nat.pow_zero, Nat.mul_one, Nat.add_zero]

theorem fromBe_toBe (width n : ℕ) : fromBe (toBe width n) = n % 256 ^ width := by
  induction width with
  | zero => rw [toBe, fromBe, Nat.pow_zero, Nat.mod_one]
  | succ width ih =>
    rw [toBe, fromBe, length_toBe, ih, Nat.mod_pow_succ, UInt8.toNat_ofNat', Nat.mul_comm, Nat.add_comm]

theorem fromBe_toBe_of_lt {width n : ℕ} (h : n < 256 ^ width) : fromBe (toBe width n) = n := by
  rw [fromBe_toBe, Nat.mod_eq_of_lt h]

end Foundation
