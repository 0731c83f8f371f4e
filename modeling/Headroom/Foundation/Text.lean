import Mathlib.Algebra.GroupWithZero.Nat
import Mathlib.Algebra.Order.Group.Nat
import Mathlib.Data.List.Basic
import Mathlib.Data.List.DropRight
import Mathlib.Data.List.Induction
import Mathlib.Data.List.TakeWhile

/-!
# Text as a list of characters

Search and trimming on lists of characters, by recursion on the text so that they can be
evaluated.
-/

namespace Foundation.Text

/-- The Unicode property `White_Space`. -/
def isWhitespace (c : Char) : Bool :=
  let n := c.toNat
  (9 ≤ n && n ≤ 13) || n == 32 || n == 133 || n == 160 || n == 5760 || (8192 ≤ n && n ≤ 8202) ||
    n == 8232 || n == 8233 || n == 8239 || n == 8287 || n == 12288

/-- The zeros of the Unicode category `Nd`, each followed by the other nine digits. -/
def decimalZeros : List ℕ :=
  [0x30, 0x660, 0x6f0, 0x7c0, 0x966, 0x9e6, 0xa66, 0xae6, 0xb66, 0xbe6, 0xc66, 0xce6, 0xd66, 0xde6,
    0xe50, 0xed0, 0xf20, 0x1040, 0x1090, 0x17e0, 0x1810, 0x1946, 0x19d0, 0x1a80, 0x1a90, 0x1b50,
    0x1bb0, 0x1c40, 0x1c50, 0xa620, 0xa8d0, 0xa900, 0xa9d0, 0xa9f0, 0xaa50, 0xabf0, 0xff10,
    0x104a0, 0x10d30, 0x10d40, 0x11066, 0x110f0, 0x11136, 0x111d0, 0x112f0, 0x11450, 0x114d0,
    0x11650, 0x116c0, 0x116d0, 0x116da, 0x11730, 0x118e0, 0x11950, 0x11bf0, 0x11c50, 0x11d50,
    0x11da0, 0x11f50, 0x16130, 0x16a60, 0x16ac0, 0x16b50, 0x16d70, 0x1ccf0, 0x1d7ce, 0x1d7d8,
    0x1d7e2, 0x1d7ec, 0x1d7f6, 0x1e140, 0x1e2f0, 0x1e4f0, 0x1e5f1, 0x1e950, 0x1fbf0]

/-- The Unicode category `Nd`. -/
def isDecimalDigit (c : Char) : Bool := decimalZeros.any fun first => first ≤ c.toNat && c.toNat ≤ first + 9

/-- The text without its leading whitespace. -/
def trimStart (text : List Char) : List Char := text.dropWhile isWhitespace

/-- The text without its trailing whitespace. -/
def trimEnd (text : List Char) : List Char := (text.reverse.dropWhile isWhitespace).reverse

/-- The text without whitespace on either end. -/
def trim (text : List Char) : List Char := trimEnd (trimStart text)

/-- The position of the first occurrence of a pattern. -/
def find? (pattern : List Char) : List Char → Option ℕ
  | [] => if pattern = [] then some 0 else none
  | c :: cs =>
    if pattern.isPrefixOf (c :: cs) then some 0 else (find? pattern cs).map (· + 1)

/-- Whether a pattern occurs. -/
def contains (pattern text : List Char) : Bool := (find? pattern text).isSome

/-- The length of a text in bytes of UTF-8. -/
def byteLength (text : String) : ℕ := (text.toList.map Char.utf8Size).sum

/-- The length of a list of characters in bytes of UTF-8. -/
def utf8Length (text : List Char) : ℕ := (text.map Char.utf8Size).sum

/-! ### Search -/

section Search

variable {pattern text : List Char} {i : ℕ}

/-- The position that is found is the first one at which the pattern stands. -/
theorem prefix_of_find? (h : find? pattern text = some i) : pattern <+: text.drop i := by
  induction text generalizing i with
  | nil =>
    rw [find?] at h
    split_ifs at h with hnil
    rw [hnil]
    exact List.nil_prefix
  | cons c cs ih =>
    rw [find?] at h
    split_ifs at h with hpre
    · obtain rfl : 0 = i := Option.some.inj h
      exact List.isPrefixOf_iff_prefix.mp hpre
    · obtain ⟨j, hj, rfl⟩ := Option.map_eq_some_iff.mp h
      exact ih hj

theorem not_prefix_of_find? (h : find? pattern text = some i) {j : ℕ} (hj : j < i) :
    ¬ pattern <+: text.drop j := by
  induction text generalizing i j with
  | nil =>
    rw [find?] at h
    split_ifs at h
    have := Option.some.inj h
    omega
  | cons c cs ih =>
    rw [find?] at h
    split_ifs at h with hpre
    · have := Option.some.inj h
      omega
    · obtain ⟨k, hk, rfl⟩ := Option.map_eq_some_iff.mp h
      cases j with
      | zero => rwa [List.isPrefixOf_iff_prefix] at hpre
      | succ j => exact ih hk (by omega)

theorem find?_eq_none_iff (hne : pattern ≠ []) : find? pattern text = none ↔ ¬ pattern <:+: text := by
  induction text with
  | nil => simp [find?, hne]
  | cons c cs ih =>
    rw [find?, List.infix_cons_iff, ← List.isPrefixOf_iff_prefix]
    split_ifs with hpre
    · simp [hpre]
    · rw [Option.map_eq_none_iff, ih]
      simp [hpre]

/-- A position is found if the pattern stands there and nowhere before. -/
theorem find?_eq_some (hne : pattern ≠ []) (h : pattern <+: text.drop i)
    (hfirst : ∀ j < i, ¬ pattern <+: text.drop j) : find? pattern text = some i := by
  cases hfind : find? pattern text with
  | none =>
    refine absurd ?_ ((find?_eq_none_iff hne).mp hfind)
    exact h.isInfix.trans (List.drop_suffix i text).isInfix
  | some k =>
    rcases Nat.lt_trichotomy k i with hlt | rfl | hlt
    · exact absurd (prefix_of_find? hfind) (hfirst k hlt)
    · rfl
    · exact absurd h (not_prefix_of_find? hfind hlt)

theorem add_length_le_of_find? (hne : pattern ≠ []) (h : find? pattern text = some i) :
    i + pattern.length ≤ text.length := by
  have := (prefix_of_find? h).length_le
  have := List.length_pos_iff.mpr hne
  rw [List.length_drop] at *
  omega

/-- A word stands in front of a separator or behind it. -/
theorem infix_append_cons_iff {α : Type*} {x : α} {word a b : List α} (h : x ∉ word) :
    word <:+: a ++ x :: b ↔ word <:+: a ∨ word <:+: b := by
  constructor
  · rintro ⟨s, t, hst⟩
    rcases List.append_eq_append_iff.mp hst with ⟨z, rfl, -⟩ | ⟨z, hz, hz'⟩
    · exact Or.inl ⟨s, z, rfl⟩
    obtain ⟨rfl, -⟩ | ⟨z, rfl, rfl⟩ := List.cons_eq_append_iff.mp hz'
    · exact Or.inl ⟨s, [], by rw [List.append_nil, hz, List.append_nil]⟩
    rcases List.append_eq_append_iff.mp hz with ⟨w, -, rfl⟩ | ⟨w, rfl, hw⟩
    · exact absurd (List.mem_append_right w List.mem_cons_self) h
    obtain ⟨-, rfl⟩ | ⟨w, rfl, rfl⟩ := List.cons_eq_append_iff.mp hw
    · exact absurd List.mem_cons_self h
    · exact Or.inr ⟨w, t, rfl⟩
  · rintro (ha | hb)
    · exact ha.trans (List.prefix_append a _).isInfix
    · exact hb.trans ((List.suffix_cons x b).trans (List.suffix_append a _)).isInfix

end Search

/-! ### Trimming -/

theorem trimEnd_trimEnd (text : List Char) : trimEnd (trimEnd text) = trimEnd text := by
  rw [trimEnd, trimEnd, List.reverse_reverse]
  exact congrArg List.reverse (List.dropWhile_idempotent isWhitespace text.reverse)

theorem trimEnd_prefix (text : List Char) : trimEnd text <+: text := by
  rw [trimEnd, ← List.reverse_suffix, List.reverse_reverse]
  exact List.dropWhile_suffix _

theorem exists_eq_trimEnd_append (text : List Char) :
    ∃ blank, text = trimEnd text ++ blank ∧ ∀ c ∈ blank, isWhitespace c := by
  refine ⟨(text.reverse.takeWhile isWhitespace).reverse, ?_, fun c hc => ?_⟩
  · rw [trimEnd, ← List.reverse_append, List.takeWhile_append_dropWhile, List.reverse_reverse]
  · exact List.mem_takeWhile_imp (List.mem_reverse.mp hc)

theorem trim_eq_nil_iff {text : List Char} : trim text = [] ↔ ∀ c ∈ text, isWhitespace c := by
  rw [trim, trimEnd, trimStart, List.reverse_eq_nil_iff, List.dropWhile_eq_nil_iff]
  refine ⟨fun h c hc => ?_, fun h c hc => ?_⟩
  · rw [← List.takeWhile_append_dropWhile (p := isWhitespace) (l := text), List.mem_append] at hc
    rcases hc with hc | hc
    · exact List.mem_takeWhile_imp hc
    · exact h c (List.mem_reverse.mpr hc)
  · exact h c ((List.dropWhile_suffix _).subset (List.mem_reverse.mp hc))

/-! ### Lengths -/

@[simp] theorem utf8Length_append (a b : List Char) : utf8Length (a ++ b) = utf8Length a + utf8Length b := by
  rw [utf8Length, utf8Length, utf8Length, List.map_append, List.sum_append]

@[simp] theorem utf8Length_cons (c : Char) (text : List Char) :
    utf8Length (c :: text) = c.utf8Size + utf8Length text := by
  rw [utf8Length, utf8Length, List.map_cons, List.sum_cons]

/-! ### Decimal numbers -/

theorem digitChar_sub {c : Char} (h : c.isDigit = true) : (c.toNat - 48).digitChar = c := by
  obtain ⟨hlow, hhigh⟩ := Char.isDigit_iff_toNat.mp h
  have hlow' : 48 ≤ c.toNat := hlow
  have hhigh' : c.toNat ≤ 57 := hhigh
  rw [← Char.toNat_inj, Nat.toNat_digitChar_of_lt_ten (by omega)]
  omega

theorem ofDigitChars_pos {digits : List Char} (hne : digits ≠ [])
    (hdigits : ∀ c ∈ digits, c.isDigit = true) (hzero : digits.head? ≠ some '0') :
    0 < Nat.ofDigitChars 10 digits 0 := by
  obtain ⟨c, tail, rfl⟩ := List.exists_cons_of_ne_nil hne
  have hlow : 48 ≤ c.toNat := (Char.isDigit_iff_toNat.mp (hdigits c List.mem_cons_self)).1
  have hne' : c.toNat ≠ 48 := by
    intro h
    refine hzero ?_
    rw [List.head?_cons, Option.some.injEq, ← Char.toNat_inj, h]
    rfl
  have hpow : 0 < 10 ^ tail.length := Nat.pow_pos (by decide)
  rw [Nat.ofDigitChars_cons, Nat.ofDigitChars_eq_ofDigitChars_zero]
  have hfirst : 1 ≤ 10 * 0 + (c.toNat - '0'.toNat) := by
    show 1 ≤ 10 * 0 + (c.toNat - 48)
    omega
  have := Nat.mul_le_mul_left (10 ^ tail.length) hfirst
  omega

theorem toDigits_ofDigitChars {digits : List Char} (hne : digits ≠ [])
    (hdigits : ∀ c ∈ digits, c.isDigit = true) (hzero : digits.head? ≠ some '0') :
    Nat.toDigits 10 (Nat.ofDigitChars 10 digits 0) = digits := by
  induction digits using List.reverseRecOn with
  | nil => exact absurd rfl hne
  | append_singleton front c ih =>
    have hc := hdigits c (List.mem_append_right _ List.mem_cons_self)
    have hhigh : c.toNat ≤ 57 := (Char.isDigit_iff_toNat.mp hc).2
    rw [Nat.ofDigitChars_append, Nat.ofDigitChars_cons, Nat.ofDigitChars_nil]
    show Nat.toDigits 10 (10 * Nat.ofDigitChars 10 front 0 + (c.toNat - 48)) = front ++ [c]
    by_cases hfront : front = []
    · rw [hfront, Nat.ofDigitChars_nil, Nat.mul_zero, Nat.zero_add,
        Nat.toDigits_of_lt_base (by omega), digitChar_sub hc, List.nil_append]
    · have hfront' : ∀ c ∈ front, c.isDigit = true := fun c hc => hdigits c (List.mem_append_left _ hc)
      have hzero' : front.head? ≠ some '0' := by
        rwa [List.head?_append_of_ne_nil _ hfront] at hzero
      rw [← Nat.toDigits_append_toDigits (by decide) (ofDigitChars_pos hfront hfront' hzero') (by omega),
        ih hfront hfront' hzero', Nat.toDigits_of_lt_base (by omega), digitChar_sub hc]

end Foundation.Text
