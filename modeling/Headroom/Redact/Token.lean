import Mathlib.Data.List.Infix
import Mathlib.Data.List.TakeWhile
import Headroom.Foundation.Bytes
import Headroom.Foundation.Scan

/-!
# Placeholders

A placeholder is `__HR_<KIND>__` or `__HR_<KIND>_<hex>__`, with one of four kinds and at most 2048
hexadecimal digits.
-/

open Foundation

namespace Headroom.Redact

/-! ### The parser -/

/-- How many hexadecimal digits a placeholder may carry. -/
def MAX_TOKEN_HEX : ℕ := 2048

def PREFIX : Bytes := ascii "__HR_"

/-- The longest a placeholder can be. -/
def MAX_TOKEN_LEN : ℕ := PREFIX.length + 6 + 1 + MAX_TOKEN_HEX + 2

def HOME_TOKEN : Bytes := ascii "__HR_HOME__"

/-- The kinds of a placeholder. -/
def KINDS : List Bytes := [ascii "PATH", ascii "SECRET", ascii "EMAIL", ascii "HOME"]

def isUppercase (b : UInt8) : Bool := 65 ≤ b && b ≤ 90

def isDigit (b : UInt8) : Bool := 48 ≤ b && b ≤ 57

def isHexdigit (b : UInt8) : Bool := isDigit b || (65 ≤ b && b ≤ 70) || (97 ≤ b && b ≤ 102)

/-- The underscore. -/
def us : UInt8 := 95

/-- The length of what closes a placeholder behind its kind: `__`, or `_`, digits and `__`. -/
def closeLen (behind : Bytes) : Option ℕ :=
  if [us, us].isPrefixOf behind then some 2
  else if [us].isPrefixOf behind then
    let hex := (behind.tail.take MAX_TOKEN_HEX).takeWhile isHexdigit
    if hex.isEmpty || !([us, us].isPrefixOf (behind.tail.drop hex.length)) then none
    else some (1 + hex.length + 2)
  else none

/-- The length of the placeholder at the start of some bytes. -/
def tokenLen (rest : Bytes) : Option ℕ :=
  if !PREFIX.isPrefixOf rest then none
  else
    let kind := (rest.drop PREFIX.length).takeWhile isUppercase
    let behind := (rest.drop PREFIX.length).drop kind.length
    if kind.isEmpty || behind.isEmpty then none
    else if kind ∉ KINDS then none
    else (closeLen behind).map (PREFIX.length + kind.length + ·)

/-- The placeholder at a position, with its length. -/
def parseToken (bytes : Bytes) (i : ℕ) : Option (Bytes × ℕ) :=
  (tokenLen (bytes.drop i)).map fun n => ((bytes.drop i).take n, n)

/-! ### The shapes -/

/-- What closes a placeholder. -/
inductive IsClose : Bytes → Prop
  | plain : IsClose [us, us]
  | counted (hex : Bytes) (hne : hex ≠ []) (hlen : hex.length ≤ MAX_TOKEN_HEX)
      (hhex : ∀ b ∈ hex, isHexdigit b = true) : IsClose (us :: (hex ++ [us, us]))

/-- A placeholder is the prefix, one of the kinds and a close. -/
def IsToken (t : Bytes) : Prop :=
  ∃ kind ∈ KINDS, ∃ close, IsClose close ∧ t = PREFIX ++ (kind ++ close)

theorem kind_spec {kind : Bytes} (h : kind ∈ KINDS) :
    kind ≠ [] ∧ kind.length ≤ 6 ∧ (∀ b ∈ kind, isUppercase b = true) := by
  simp only [KINDS, List.mem_cons, List.not_mem_nil, or_false] at h
  rcases h with rfl | rfl | rfl | rfl
  · exact ⟨by decide, by decide, List.all_eq_true.mp (by decide)⟩
  · exact ⟨by decide, by decide, List.all_eq_true.mp (by decide)⟩
  · exact ⟨by decide, by decide, List.all_eq_true.mp (by decide)⟩
  · exact ⟨by decide, by decide, List.all_eq_true.mp (by decide)⟩

theorem takeWhile_append_of_stop {p : UInt8 → Bool} {l m : Bytes} (hl : ∀ a ∈ l, p a = true)
    (hm : ∀ b ∈ m.head?, p b = false) : (l ++ m).takeWhile p = l := by
  rw [List.takeWhile_append_of_pos hl]
  cases m with
  | nil => rw [List.takeWhile_nil, List.append_nil]
  | cons b m =>
    have hb : p b = false := hm b rfl
    rw [List.takeWhile_cons_of_neg (by simp [hb]), List.append_nil]

variable {close : Bytes}

theorem closeLen_append (h : IsClose close) (more : Bytes) :
    closeLen (close ++ more) = some close.length := by
  cases h with
  | plain => rfl
  | counted hex hne hlen hhex =>
    obtain ⟨b, hex, rfl⟩ := List.exists_cons_of_ne_nil hne
    have hb : us ≠ b := by
      rintro rfl
      exact absurd (hhex us List.mem_cons_self) (by decide)
    have hdigits : (((b :: hex) ++ us :: us :: more).take MAX_TOKEN_HEX).takeWhile isHexdigit =
        b :: hex := by
      rw [List.take_append, List.take_of_length_le hlen]
      refine takeWhile_append_of_stop hhex fun c hc => ?_
      generalize MAX_TOKEN_HEX - (b :: hex).length = room at hc
      cases room with
      | zero => simp at hc
      | succ room =>
        rw [List.take_succ_cons, List.head?_cons, Option.mem_some_iff] at hc
        rw [← hc]
        decide
    have hbody : us :: ((b :: hex) ++ [us, us]) ++ more = us :: ((b :: hex) ++ us :: us :: more) := by
      simp
    have hfirst : [us, us].isPrefixOf (us :: ((b :: hex) ++ us :: us :: more)) = false := by
      simp [List.isPrefixOf, hb]
    have hclose : [us, us].isPrefixOf (us :: us :: more) = true := by simp
    rw [hbody, closeLen, hfirst]
    simp only [Bool.false_eq_true, if_false, List.tail_cons, hdigits, List.drop_left, hclose]
    simp
    omega

variable {n : ℕ}

theorem closeLen_eq_some {behind : Bytes} (h : closeLen behind = some n) :
    n ≤ behind.length ∧ IsClose (behind.take n) := by
  rw [closeLen] at h
  split_ifs at h with hplain hcounted
  · obtain ⟨more, rfl⟩ := List.isPrefixOf_iff_prefix.mp hplain
    obtain rfl := Option.some.inj h
    exact ⟨by simp, IsClose.plain⟩
  · obtain ⟨tail, rfl⟩ := List.isPrefixOf_iff_prefix.mp hcounted
    rw [List.singleton_append, List.tail_cons] at h
    dsimp only at h
    generalize hdigits : (tail.take MAX_TOKEN_HEX).takeWhile isHexdigit = hex at h
    split_ifs at h with hbad
    simp only [Bool.or_eq_true, Bool.not_eq_true', not_or, Bool.not_eq_false,
      List.isEmpty_iff] at hbad
    obtain rfl := Option.some.inj h
    have hpre : hex <+: tail :=
      hdigits ▸ (List.takeWhile_prefix _).trans (List.take_prefix _ _)
    obtain ⟨rest, rfl⟩ := hpre
    have hclose := hbad.2
    rw [List.drop_left] at hclose
    obtain ⟨more, rfl⟩ := List.isPrefixOf_iff_prefix.mp hclose
    have htake : ([us] ++ (hex ++ ([us, us] ++ more))).take (1 + hex.length + 2) =
        us :: (hex ++ [us, us]) := by
      rw [show [us] ++ (hex ++ ([us, us] ++ more)) = (us :: (hex ++ [us, us])) ++ more by simp]
      exact List.take_left' (by simp; omega)
    rw [htake]
    refine ⟨by simp; omega, .counted hex hbad.1 ?_ fun b hb => ?_⟩
    · rw [← hdigits]
      exact (List.takeWhile_prefix _).length_le.trans (List.length_take_le _ _)
    · rw [← hdigits] at hb
      exact List.mem_takeWhile_imp hb

theorem IsClose.head? (h : IsClose close) (more : Bytes) :
    (close ++ more).head? = some us := by
  cases h <;> rfl

theorem IsToken.tokenLen {t : Bytes} (h : IsToken t) (more : Bytes) :
    tokenLen (t ++ more) = some t.length := by
  obtain ⟨kind, hkind, close, hclose, rfl⟩ := h
  obtain ⟨hne, -, hupper⟩ := kind_spec hkind
  have htake : (kind ++ (close ++ more)).takeWhile isUppercase = kind := by
    refine takeWhile_append_of_stop hupper fun b hb => ?_
    rw [hclose.head? more, Option.mem_some_iff] at hb
    rw [← hb]
    decide
  have hmore : (close ++ more).isEmpty = false := by
    cases hclose <;> rfl
  have hempty : kind.isEmpty = false := by simpa using hne
  rw [List.append_assoc, List.append_assoc, Redact.tokenLen, if_neg (by simp)]
  simp only [List.drop_left, htake, hempty, hmore, Bool.or_self, Bool.false_eq_true, if_false,
    hkind, not_true, closeLen_append hclose, Option.map_some, List.length_append, Nat.add_assoc]

theorem tokenLen_eq_some {rest : Bytes} (h : tokenLen rest = some n) :
    n ≤ rest.length ∧ IsToken (rest.take n) := by
  rw [tokenLen] at h
  split_ifs at h with hpre
  simp only [Bool.not_eq_true', Bool.not_eq_false] at hpre
  obtain ⟨tail, rfl⟩ := List.isPrefixOf_iff_prefix.mp hpre
  rw [List.drop_left] at h
  dsimp only at h
  split_ifs at h with hempty hkind
  obtain ⟨m, hm, rfl⟩ := Option.map_eq_some_iff.mp h
  generalize hword : tail.takeWhile isUppercase = kind at hm hkind ⊢
  obtain ⟨behind, rfl⟩ : kind <+: tail := hword ▸ List.takeWhile_prefix _
  rw [List.drop_left] at hm
  obtain ⟨hle, hclose⟩ := closeLen_eq_some hm
  refine ⟨by simp; omega, kind, hkind, _, hclose, ?_⟩
  rw [Nat.add_assoc, List.take_length_add_append, List.take_length_add_append]

/-- What is parsed is exactly the placeholders. -/
theorem tokenLen_eq_some_iff {rest : Bytes} :
    tokenLen rest = some n ↔ n ≤ rest.length ∧ IsToken (rest.take n) := by
  refine ⟨tokenLen_eq_some, fun ⟨hle, h⟩ => ?_⟩
  have hparse := h.tokenLen (rest.drop n)
  rwa [List.take_append_drop, List.length_take, Nat.min_eq_left hle] at hparse

theorem IsClose.length_le (h : IsClose close) :
    close.length ≤ 1 + MAX_TOKEN_HEX + 2 := by
  cases h with
  | plain => decide
  | counted hex hne hlen hhex =>
    simp
    omega

theorem IsClose.notMem (h : IsClose close) : (82 : UInt8) ∉ close := by
  intro hmem
  cases h with
  | plain => exact absurd hmem (by decide)
  | counted hex hne hlen hhex =>
    have hR : (82 : UInt8) ∈ hex := by
      simpa [us] using hmem
    exact absurd (hhex 82 hR) (by decide)

namespace IsToken

variable {t : Bytes}

theorem length_pos (h : IsToken t) : 0 < t.length := by
  obtain ⟨kind, -, close, -, rfl⟩ := h
  rw [List.length_append]
  exact Nat.add_pos_left (by decide) _

theorem length_le (h : IsToken t) : t.length ≤ MAX_TOKEN_LEN := by
  obtain ⟨kind, hkind, close, hclose, rfl⟩ := h
  have := (kind_spec hkind).2.1
  have := hclose.length_le
  simp only [List.length_append, MAX_TOKEN_LEN]
  omega

theorem prefix_le (h : IsToken t) : PREFIX <+: t := by
  obtain ⟨kind, -, close, -, rfl⟩ := h
  exact List.prefix_append _ _

/-- The prefix of a placeholder stands at its start only. -/
theorem eq_zero_of_prefix_drop (h : IsToken t) {k : ℕ} (hk : PREFIX <+: t.drop k) : k = 0 := by
  obtain ⟨kind, hkind, close, hclose, rfl⟩ := h
  obtain ⟨rest, hrest⟩ := hk
  have hget : ∀ i < PREFIX.length, (PREFIX ++ (kind ++ close))[k + i]? = PREFIX[i]? := by
    intro i hi
    rw [← List.getElem?_drop, ← hrest, List.getElem?_append_left hi]
  have hH := hget 2 (by decide)
  have hR := hget 3 (by decide)
  rw [← List.append_assoc] at hH hR
  by_cases hin : k + 3 < (PREFIX ++ kind).length
  · rw [List.getElem?_append_left (by omega)] at hH hR
    have hword : ∀ kind ∈ KINDS, ∀ k < (PREFIX ++ kind).length,
        (PREFIX ++ kind)[k + 2]? = PREFIX[2]? → (PREFIX ++ kind)[k + 3]? = PREFIX[3]? → k = 0 := by
      decide
    exact hword kind hkind k (by omega) hH hR
  · -- A close has no `R`.
    rw [List.getElem?_append_right (by omega)] at hR
    exact absurd (List.mem_of_getElem? hR) hclose.notMem

end IsToken

/-- Placeholders as a token rule. -/
def tokens : TokenRule UInt8 where
  len := tokenLen
  pos h := by
    obtain ⟨hle, htoken⟩ := tokenLen_eq_some_iff.mp h
    have := htoken.length_pos
    rw [List.length_take] at this
    omega
  le_length h := (tokenLen_eq_some_iff.mp h).1
  append m h := by
    obtain ⟨hle, htoken⟩ := tokenLen_eq_some_iff.mp h
    refine tokenLen_eq_some_iff.mpr ⟨by rw [List.length_append]; omega, ?_⟩
    rwa [List.take_append_of_le_length hle]
  seen h hle := by
    refine tokenLen_eq_some_iff.mpr ⟨hle, ?_⟩
    rw [← List.take_append_of_le_length hle]
    exact (tokenLen_eq_some_iff.mp h).2
  nested {l m n k} hnone h hk := by
    obtain ⟨hle, htoken⟩ := tokenLen_eq_some_iff.mp h
    have hlong : l.length < n := by
      by_contra hshort
      have hseen : tokenLen l = some n := by
        refine tokenLen_eq_some_iff.mpr ⟨by omega, ?_⟩
        rwa [← List.take_append_of_le_length (by omega)]
      exact Option.some_ne_none n (hseen.symm.trans hnone)
    by_contra hinner
    obtain ⟨n', hn'⟩ := Option.ne_none_iff_exists'.mp hinner
    have hpre := (tokenLen_eq_some_iff.mp hn').2.prefix_le.trans (List.take_prefix _ _)
    have hsub : l.drop k <+: ((l ++ m).take n).drop k := by
      rw [List.take_append, List.take_of_length_le hlong.le]
      exact (List.prefix_append l _).drop k
    exact absurd (htoken.eq_zero_of_prefix_drop (hpre.trans hsub)) hk.ne'

/-! ### Unfinished placeholders -/

/-- An unfinished placeholder is a start of one. -/
theorem exists_token_of_open {l : Bytes} (h : tokens.Open l) :
    ∃ t, IsToken t ∧ l <+: t ∧ l.length < t.length := by
  obtain ⟨hnone, m, n, hn⟩ := h
  obtain ⟨hle, htoken⟩ := tokenLen_eq_some_iff.mp hn
  have hlong : l.length < n := by
    by_contra hshort
    exact Option.some_ne_none n ((tokens.seen hn (by omega)).symm.trans hnone)
  refine ⟨_, htoken, ?_, by rw [List.length_take]; omega⟩
  rw [List.take_append, List.take_of_length_le hlong.le]
  exact List.prefix_append l _

namespace Open

variable {l : Bytes}

/-- An unfinished placeholder is shorter than the longest one. -/
theorem length_lt (h : tokens.Open l) : l.length < MAX_TOKEN_LEN := by
  obtain ⟨t, ht, -, hlt⟩ := exists_token_of_open h
  exact hlt.trans_le ht.length_le

theorem prefix_or (h : tokens.Open l) : PREFIX <+: l ∨ l <+: PREFIX := by
  obtain ⟨t, ht, hl, -⟩ := exists_token_of_open h
  rcases Nat.le_total PREFIX.length l.length with hle | hle
  · exact Or.inl (List.prefix_of_prefix_length_le ht.prefix_le hl hle)
  · exact Or.inr (List.prefix_of_prefix_length_le hl ht.prefix_le hle)

/-- No second prefix stands in it. -/
theorem eq_zero_of_prefix_drop (h : tokens.Open l) {k : ℕ} (hk : PREFIX <+: l.drop k) : k = 0 := by
  obtain ⟨t, ht, hl, -⟩ := exists_token_of_open h
  exact ht.eq_zero_of_prefix_drop (hk.trans (hl.drop k))

end Open

end Headroom.Redact
