import Headroom.Foundation.Utf8Split

/-!
# ASCII in bytes that are read with replacement characters

An ASCII character stands for one byte, and the bytes of every other character, as well as those for which a
replacement character stands, are no ASCII. So an ASCII word is in the text just if its bytes are in the bytes.
-/

namespace Foundation

/-- Bytes read as characters: an ASCII character is its byte, and other characters stand for bytes that are no
ASCII. -/
inductive Decodes : Bytes → List Char → Prop
  | nil : Decodes [] []
  | ascii {c : Char} {bytes : Bytes} {cs : List Char} (hc : c.toNat < 128) (h : Decodes bytes cs) :
      Decodes (c.val.toUInt8 :: bytes) (c :: cs)
  | other {c : Char} {chunk bytes : Bytes} {cs : List Char} (hc : 128 ≤ c.toNat) (hne : chunk ≠ [])
      (hchunk : ∀ b ∈ chunk, 128 ≤ b) (h : Decodes bytes cs) : Decodes (chunk ++ bytes) (c :: cs)

/-! ### What is read -/

variable {c : Char}

theorem utf8Size_eq_one : c.utf8Size = 1 ↔ c.toNat < 128 := by
  rw [Char.utf8Size_eq_one_iff, UInt32.le_iff_toNat_le]
  exact Nat.lt_succ_iff.symm

theorem encode_of_ascii (h : c.toNat < 128) : String.utf8EncodeChar c = [c.val.toUInt8] :=
  String.utf8EncodeChar_eq_singleton (utf8Size_eq_one.mpr h)

variable {bytes : Bytes}

/-- One character and the bytes of others behind it. -/
theorem Decodes.char {cs : List Char} (h : Decodes bytes cs) :
    Decodes (String.utf8EncodeChar c ++ bytes) (c :: cs) := by
  by_cases hc : c.toNat < 128
  · rw [encode_of_ascii hc]
    exact .ascii hc h
  · refine .other (Nat.le_of_not_lt hc) String.utf8EncodeChar_ne_nil ?_ h
    intro b hb
    by_contra hlt
    have hascii : b < 128 := UInt8.not_le.mp hlt
    have hone := congrArg List.length (utf8EncodeChar_of_ascii hascii hb)
    rw [String.length_utf8EncodeChar] at hone
    exact hc (utf8Size_eq_one.mp hone)

theorem decodes_encode (chars : List Char) : Decodes (Text.encode chars) chars := by
  induction chars with
  | nil => exact .nil
  | cons c chars ih => exact ih.char

theorem encode_singleton (c : Char) : Text.encode [c] = String.utf8EncodeChar c := List.append_nil _

theorem firstChar?_eq_some {n : ℕ} (h : firstChar? bytes = some (c, n)) :
    ∃ rest, bytes = String.utf8EncodeChar c ++ rest ∧ n = (String.utf8EncodeChar c).length := by
  obtain ⟨before, m, after, hrange, hhit, hmiss⟩ := List.findSome?_eq_some_iff.mp h
  obtain ⟨text, htext, hhead⟩ := Option.bind_eq_some_iff.mp hhit
  obtain ⟨c', hc', hpair⟩ := Option.map_eq_some_iff.mp hhead
  obtain ⟨rfl, rfl⟩ := Prod.mk.inj hpair
  have hchars : text.toList = c' :: text.toList.tail := List.eq_cons_of_mem_head? hc'
  have htake : bytes.take m = String.utf8EncodeChar c' ++ Text.encode text.toList.tail := by
    rw [eq_utf8_of_fromUtf8? htext, utf8_eq_encode, hchars]
    exact List.flatMap_cons
  have hpos : 0 < (String.utf8EncodeChar c').length := List.length_pos_iff.mpr String.utf8EncodeChar_ne_nil
  have hle : (String.utf8EncodeChar c').length ≤ m := by
    have hlength := congrArg List.length htake
    rw [List.length_append, List.length_take] at hlength
    omega
  have hfour : m ≤ 4 := by
    have hmem : m ∈ List.range' 1 4 := hrange ▸ List.mem_append_right _ List.mem_cons_self
    rw [List.mem_range'_1] at hmem
    omega
  -- A shorter front would have been found before.
  have hsame : m = (String.utf8EncodeChar c').length := by
    by_contra hne
    have hbefore : (String.utf8EncodeChar c').length ∈ before := by
      have hpairwise : (List.range' 1 4).Pairwise (· < ·) := List.pairwise_lt_range'
      have hmem : (String.utf8EncodeChar c').length ∈ List.range' 1 4 := by
        rw [List.mem_range'_1]
        omega
      rw [hrange] at hmem hpairwise
      rcases List.mem_append.mp hmem with hmem | hmem
      · exact hmem
      · have hafter := (List.pairwise_cons.mp (List.pairwise_append.mp hpairwise).2.1).1
        rcases List.mem_cons.mp hmem with heq | hmem
        · exact absurd heq.symm hne
        · have := hafter _ hmem
          omega
    have hshort : bytes.take (String.utf8EncodeChar c').length = utf8 (String.ofList [c']) := by
      have htakes : bytes.take (String.utf8EncodeChar c').length =
          (bytes.take m).take (String.utf8EncodeChar c').length := by
        rw [List.take_take, Nat.min_eq_left hle]
      rw [htakes, htake, List.take_left, utf8_ofList, encode_singleton]
    have hnone := hmiss _ hbefore
    rw [hshort, fromUtf8?_utf8, Option.bind_some, String.toList_ofList] at hnone
    cases hnone
  refine ⟨Text.encode text.toList.tail ++ bytes.drop m, ?_, hsame⟩
  rw [← List.append_assoc, ← htake, List.take_append_drop]

theorem firstChar?_of_ascii {b : UInt8} {rest : Bytes} (hb : b < 128) : (firstChar? (b :: rest)).isSome := by
  have hlt : b.toUInt32.toNat < 128 := (UInt8.toNat_toUInt32 b).symm ▸ UInt8.lt_iff_toNat_lt.mp hb
  obtain ⟨c, hc⟩ : ∃ c : Char, c.val = b.toUInt32 := ⟨⟨b.toUInt32, Or.inl (hlt.trans (by decide))⟩, rfl⟩
  have hbyte : c.val.toUInt8 = b := by
    rw [hc]
    exact UInt8.toUInt8_toUInt32 b
  have hascii : c.toNat < 128 := by
    rw [← hc] at hlt
    exact hlt
  have hone : fromUtf8? [b] = some (String.ofList [c]) := by
    rw [← fromUtf8?_utf8, utf8_ofList, encode_singleton, encode_of_ascii hascii, hbyte]
  have hfirst : firstChar? (b :: rest) = some (c, 1) := by
    rw [firstChar?, List.range'_succ, List.findSome?_cons, List.take_succ_cons, List.take_zero, hone,
      Option.bind_some, String.toList_ofList]
    rfl
  rw [hfirst]
  rfl

theorem le_of_isSecond {a b : UInt8} (h : isSecond a b = true) : 128 ≤ b := by
  have htrans {x : UInt8} (hx : 128 ≤ x) (hb : x ≤ b) : 128 ≤ b := UInt8.le_trans hx hb
  rw [isSecond] at h
  split_ifs at h
  · rw [Bool.and_eq_true, decide_eq_true_eq] at h
    exact htrans (by decide) h.1
  · rw [Bool.and_eq_true, decide_eq_true_eq] at h
    exact h.1
  · rw [Bool.and_eq_true, decide_eq_true_eq] at h
    exact htrans (by decide) h.1
  · rw [Bool.and_eq_true, decide_eq_true_eq] at h
    exact h.1
  · simp only [isTail, Bool.and_eq_true, decide_eq_true_eq] at h
    exact h.2.1

theorem maximalSubpart_bytes {b : UInt8} {rest : Bytes} (hb : 128 ≤ b) :
    0 < maximalSubpart (b :: rest) ∧ ∀ x ∈ (b :: rest).take (maximalSubpart (b :: rest)), 128 ≤ x := by
  have hone : ∀ x ∈ (b :: rest).take 1, 128 ≤ x := by
    rw [List.take_succ_cons, List.take_zero]
    exact List.forall_mem_singleton.mpr hb
  cases rest with
  | nil => exact ⟨Nat.one_pos, hone⟩
  | cons b' rest =>
    rw [maximalSubpart]
    split_ifs with hsecond hthird
    · rw [Bool.and_eq_true] at hthird
      cases rest with
      | nil => exact absurd hthird.2 Bool.false_ne_true
      | cons b'' rest =>
        have htail : isTail b'' = true := hthird.2
        rw [isTail, Bool.and_eq_true, decide_eq_true_eq] at htail
        refine ⟨by decide, List.forall_mem_cons.mpr ⟨hb, ?_⟩⟩
        exact List.forall_mem_cons.mpr ⟨le_of_isSecond hsecond, List.forall_mem_singleton.mpr htail.1⟩
    · refine ⟨by decide, List.forall_mem_cons.mpr ⟨hb, ?_⟩⟩
      exact List.forall_mem_singleton.mpr (le_of_isSecond hsecond)
    · exact ⟨Nat.one_pos, hone⟩

theorem decodes_replaceInvalid {fuel : ℕ} (h : bytes.length ≤ fuel) :
    Decodes bytes (replaceInvalid fuel bytes) := by
  induction fuel generalizing bytes with
  | zero =>
    obtain rfl := List.eq_nil_of_length_eq_zero (Nat.le_zero.mp h)
    exact .nil
  | succ fuel ih =>
    cases bytes with
    | nil => exact .nil
    | cons b rest =>
      rw [List.length_cons] at h
      rw [replaceInvalid.eq_3 _ _ (List.cons_ne_nil b rest)]
      rcases hfirst : firstChar? (b :: rest) with _ | ⟨c, n⟩
      · have hb : 128 ≤ b := by
          by_contra hlt
          have hsome := @firstChar?_of_ascii b rest (UInt8.not_le.mp hlt)
          rw [hfirst] at hsome
          cases hsome
        obtain ⟨hpos, hchunk⟩ := @maximalSubpart_bytes b rest hb
        have hshort : ((b :: rest).drop (maximalSubpart (b :: rest))).length ≤ fuel := by
          rw [List.length_drop, List.length_cons]
          omega
        have hne : (b :: rest).take (maximalSubpart (b :: rest)) ≠ [] := by
          rw [List.ne_nil_iff_length_pos, List.length_take, List.length_cons]
          omega
        have hall := @Decodes.other '\ufffd' _ _ _ (by decide) hne hchunk (ih hshort)
        rwa [List.take_append_drop] at hall
      · obtain ⟨rest', heq, rfl⟩ := firstChar?_eq_some hfirst
        have hpos : 0 < (String.utf8EncodeChar c).length := List.length_pos_iff.mpr String.utf8EncodeChar_ne_nil
        have hlength := congrArg List.length heq
        rw [List.length_cons, List.length_append] at hlength
        dsimp only
        rw [heq, List.drop_left]
        exact (ih (by omega)).char

theorem decodes_fromUtf8Lossy (bytes : Bytes) : Decodes bytes (fromUtf8Lossy bytes) := by
  rw [fromUtf8Lossy]
  split
  · rename_i text htext
    rw [eq_utf8_of_fromUtf8? htext, utf8_eq_encode]
    exact decodes_encode text.toList
  · exact decodes_replaceInvalid (Nat.le_refl _)

/-! ### ASCII words -/

/-- The byte of an ASCII character. -/
def asciiByte (c : Char) : UInt8 := c.val.toUInt8

theorem asciiByte_lt (h : c.toNat < 128) : asciiByte c < 128 := by
  rw [UInt8.lt_iff_toNat_lt, asciiByte, UInt32.toNat_toUInt8]
  exact Nat.lt_of_le_of_lt (Nat.mod_le _ _) h

theorem asciiByte_inj {c d : Char} (hc : c.toNat < 128) (hd : d.toNat < 128) : asciiByte c = asciiByte d ↔ c = d := by
  refine ⟨fun h => ?_, fun h => h ▸ rfl⟩
  refine eq_of_utf8EncodeChar ?_
  rw [encode_of_ascii hc, encode_of_ascii hd]
  exact congrArg (fun b => [b]) h

namespace Decodes

variable {bytes : Bytes} {cs word : List Char}

theorem prefix_iff (h : Decodes bytes cs) (hword : ∀ c ∈ word, c.toNat < 128) :
    word <+: cs ↔ word.map asciiByte <+: bytes := by
  induction h generalizing word with
  | nil => rw [List.prefix_nil, List.prefix_nil, List.map_eq_nil_iff]
  | ascii hc h ih =>
    cases word with
    | nil => exact iff_of_true List.nil_prefix List.nil_prefix
    | cons d word =>
      obtain ⟨hd, hword⟩ := List.forall_mem_cons.mp hword
      rw [List.map_cons, List.cons_prefix_cons, List.cons_prefix_cons, ih hword]
      exact and_congr_left' (asciiByte_inj hd hc).symm
  | @other c chunk bytes cs hc hne hchunk h ih =>
    cases word with
    | nil => exact iff_of_true List.nil_prefix List.nil_prefix
    | cons d word =>
      obtain ⟨hd, -⟩ := List.forall_mem_cons.mp hword
      obtain ⟨b, chunk, rfl⟩ := List.exists_cons_of_ne_nil hne
      rw [List.map_cons, List.cons_append, List.cons_prefix_cons, List.cons_prefix_cons]
      refine iff_of_false ?_ ?_
      · rintro ⟨rfl, -⟩
        omega
      · rintro ⟨rfl, -⟩
        exact absurd (asciiByte_lt hd) (UInt8.not_lt.mpr (hchunk _ List.mem_cons_self))

theorem infix_chunk (hc : c.toNat < 128) {chunk : Bytes} (hchunk : ∀ b ∈ chunk, 128 ≤ b) :
    (c :: word).map asciiByte <:+: chunk ++ bytes ↔ (c :: word).map asciiByte <:+: bytes := by
  induction chunk with
  | nil => rfl
  | cons b chunk ih =>
    obtain ⟨hb, hchunk⟩ := List.forall_mem_cons.mp hchunk
    rw [List.cons_append, List.infix_cons_iff, ih hchunk, List.map_cons, List.cons_prefix_cons]
    refine or_iff_right ?_
    rintro ⟨rfl, -⟩
    exact absurd (asciiByte_lt hc) (UInt8.not_lt.mpr hb)

theorem infix_iff (h : Decodes bytes cs) (hne : word ≠ []) (hword : ∀ c ∈ word, c.toNat < 128) :
    word <:+: cs ↔ word.map asciiByte <:+: bytes := by
  induction h with
  | nil => rw [List.infix_nil, List.infix_nil, List.map_eq_nil_iff]
  | @ascii c bytes cs hc h ih =>
    have hfront : Decodes (c.val.toUInt8 :: bytes) (c :: cs) := .ascii hc h
    rw [List.infix_cons_iff, List.infix_cons_iff, hfront.prefix_iff hword, ih]
  | @other c chunk bytes cs hc hne' hchunk h ih =>
    obtain ⟨d, word, rfl⟩ := List.exists_cons_of_ne_nil hne
    obtain ⟨hd, -⟩ := List.forall_mem_cons.mp hword
    rw [infix_chunk hd hchunk, ← ih, List.infix_cons_iff, List.cons_prefix_cons]
    refine or_iff_right ?_
    rintro ⟨rfl, -⟩
    omega

end Decodes

theorem contains_fromUtf8Lossy {word : String} (hne : word.toList ≠ []) (hword : ∀ c ∈ word.toList, c.toNat < 128)
    (bytes : Bytes) : Text.contains word.toList (fromUtf8Lossy bytes) = true ↔ ascii word <:+: bytes := by
  have hfind : Text.contains word.toList (fromUtf8Lossy bytes) = true ↔ word.toList <:+: fromUtf8Lossy bytes := by
    rw [Text.contains, Option.isSome_iff_ne_none, ne_eq, Text.find?_eq_none_iff hne, not_not]
  rw [hfind]
  exact (decodes_fromUtf8Lossy bytes).infix_iff hne hword

end Foundation
