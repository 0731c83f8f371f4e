import Headroom.Foundation.Bytes

/-!
# Base64 without padding

The codec with the alphabet for file names. Three bytes are four digits; one or two bytes at the end are
two or three digits, and the bits that they do not need are zero.
-/

namespace Foundation

/-- The digit of six bits. -/
def base64Digit (n : ℕ) : Char :=
  if n < 26 then Char.ofNat (65 + n)
  else if n < 52 then Char.ofNat (71 + n)
  else if n < 62 then Char.ofNat (n - 4)
  else if n = 62 then '-'
  else '_'

/-- The six bits of a digit. -/
def base64Value? (c : Char) : Option ℕ :=
  if 'A' ≤ c ∧ c ≤ 'Z' then some (c.toNat - 65)
  else if 'a' ≤ c ∧ c ≤ 'z' then some (c.toNat - 71)
  else if '0' ≤ c ∧ c ≤ '9' then some (c.toNat + 4)
  else if c = '-' then some 62
  else if c = '_' then some 63
  else none

def base64Encode : Bytes → List Char
  | [] => []
  | [a] => [base64Digit (a.toNat / 4), base64Digit (a.toNat % 4 * 16)]
  | [a, b] => [base64Digit (a.toNat / 4), base64Digit (a.toNat % 4 * 16 + b.toNat / 16),
      base64Digit (b.toNat % 16 * 4)]
  | a :: b :: c :: rest =>
    base64Digit (a.toNat / 4) :: base64Digit (a.toNat % 4 * 16 + b.toNat / 16) ::
      base64Digit (b.toNat % 16 * 4 + c.toNat / 64) :: base64Digit (c.toNat % 64) :: base64Encode rest

def base64Decode : List Char → Option Bytes
  | [] => some []
  | [_] => none
  | [p, q] => do
    let p ← base64Value? p
    let q ← base64Value? q
    if q % 16 = 0 then some [UInt8.ofNat (p * 4 + q / 16)] else none
  | [p, q, r] => do
    let p ← base64Value? p
    let q ← base64Value? q
    let r ← base64Value? r
    if r % 4 = 0 then some [UInt8.ofNat (p * 4 + q / 16), UInt8.ofNat (q % 16 * 16 + r / 4)] else none
  | p :: q :: r :: s :: rest => do
    let p ← base64Value? p
    let q ← base64Value? q
    let r ← base64Value? r
    let s ← base64Value? s
    let bytes ← base64Decode rest
    some (UInt8.ofNat (p * 4 + q / 16) :: UInt8.ofNat (q % 16 * 16 + r / 4) ::
      UInt8.ofNat (r % 4 * 64 + s) :: bytes)

/-! ### Digits -/

theorem base64Value?_digit {n : ℕ} (h : n < 64) : base64Value? (base64Digit n) = some n := by
  have hall : ∀ n : Fin 64, base64Value? (base64Digit n) = some n.val := by decide
  exact hall ⟨n, h⟩

theorem base64Digit_ascii {n : ℕ} (h : n < 64) :
    (base64Digit n).toNat < 128 ∧ base64Digit n ≠ ':' := by
  have hall : ∀ n : Fin 64, (base64Digit n).toNat < 128 ∧ base64Digit n ≠ ':' := by decide
  exact hall ⟨n, h⟩

theorem base64Encode_digits (bytes : Bytes) :
    ∀ c ∈ base64Encode bytes, ∃ n < 64, c = base64Digit n := by
  fun_induction base64Encode bytes with
  | case1 => exact fun c hc => absurd hc List.not_mem_nil
  | case2 a =>
    have ha := a.toNat_lt
    simp only [List.mem_cons, List.not_mem_nil, or_false]
    rintro c (rfl | rfl)
    · exact ⟨_, by omega, rfl⟩
    · exact ⟨_, by omega, rfl⟩
  | case3 a b =>
    have ha := a.toNat_lt
    have hb := b.toNat_lt
    simp only [List.mem_cons, List.not_mem_nil, or_false]
    rintro c (rfl | rfl | rfl)
    · exact ⟨_, by omega, rfl⟩
    · exact ⟨_, by omega, rfl⟩
    · exact ⟨_, by omega, rfl⟩
  | case4 a b c rest ih =>
    have ha := a.toNat_lt
    have hb := b.toNat_lt
    have hc := c.toNat_lt
    simp only [List.mem_cons]
    rintro d (rfl | rfl | rfl | rfl | hd)
    · exact ⟨_, by omega, rfl⟩
    · exact ⟨_, by omega, rfl⟩
    · exact ⟨_, by omega, rfl⟩
    · exact ⟨_, by omega, rfl⟩
    · exact ih d hd

/-! ### Round trip -/

theorem ofNat_eq {n : ℕ} {b : UInt8} (h : n = b.toNat) : UInt8.ofNat n = b := by
  rw [h, UInt8.ofNat_toNat]

theorem base64Decode_encode (bytes : Bytes) : base64Decode (base64Encode bytes) = some bytes := by
  fun_induction base64Encode bytes with
  | case1 => rfl
  | case2 a =>
    have ha := a.toNat_lt
    have hp : a.toNat / 4 < 64 := by omega
    have hq : a.toNat % 4 * 16 < 64 := by omega
    rw [base64Decode, base64Value?_digit hp, base64Value?_digit hq]
    show (if _ then _ else _) = _
    rw [if_pos (by omega), ofNat_eq (b := a) (by omega)]
  | case3 a b =>
    have ha := a.toNat_lt
    have hb := b.toNat_lt
    have hp : a.toNat / 4 < 64 := by omega
    have hq : a.toNat % 4 * 16 + b.toNat / 16 < 64 := by omega
    have hr : b.toNat % 16 * 4 < 64 := by omega
    rw [base64Decode, base64Value?_digit hp, base64Value?_digit hq, base64Value?_digit hr]
    show (if _ then _ else _) = _
    rw [if_pos (by omega), ofNat_eq (b := a) (by omega), ofNat_eq (b := b) (by omega)]
  | case4 a b c rest ih =>
    have ha := a.toNat_lt
    have hb := b.toNat_lt
    have hc := c.toNat_lt
    have hp : a.toNat / 4 < 64 := by omega
    have hq : a.toNat % 4 * 16 + b.toNat / 16 < 64 := by omega
    have hr : b.toNat % 16 * 4 + c.toNat / 64 < 64 := by omega
    have hs : c.toNat % 64 < 64 := by omega
    rw [base64Decode, base64Value?_digit hp, base64Value?_digit hq, base64Value?_digit hr,
      base64Value?_digit hs, ih]
    show some (_ :: _ :: _ :: rest) = _
    rw [ofNat_eq (b := a) (by omega), ofNat_eq (b := b) (by omega), ofNat_eq (b := c) (by omega)]

theorem length_base64Encode (bytes : Bytes) : (base64Encode bytes).length = (bytes.length * 4 + 2) / 3 := by
  fun_induction base64Encode bytes with
  | case1 => rfl
  | case2 a => simp
  | case3 a b => simp
  | case4 a b c rest ih =>
    simp only [List.length_cons, ih]
    omega

/-! ### ASCII texts -/

theorem length_utf8_of_ascii {chars : List Char} (h : ∀ c ∈ chars, c.toNat < 128) :
    (utf8 (String.ofList chars)).length = chars.length := by
  rw [utf8, String.toByteArray_ofList, List.utf8Encode, List.data_toByteArray, List.toList_toArray,
    List.length_flatMap]
  have hone : ∀ c ∈ chars, (String.utf8EncodeChar c).length = 1 := by
    intro c hc
    rw [String.length_utf8EncodeChar, Char.utf8Size_eq_one_iff]
    exact UInt32.le_iff_toNat_le.mpr (Nat.le_of_lt_succ (h c hc))
  rw [List.map_congr_left hone, List.map_const', List.sum_replicate_nat, Nat.mul_one]

end Foundation
