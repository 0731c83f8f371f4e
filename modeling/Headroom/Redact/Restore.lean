import Mathlib.Data.List.AList
import Headroom.Foundation.Json
import Headroom.Foundation.Lru
import Headroom.Redact.Token

/-!
# Restoring placeholders

A placeholder is opened by the cipher, by the map of the session, or by the map of all sessions;
the home placeholder by the home directory of the machine. One that nothing opens becomes a notice,
or stays as it is.
-/

open Foundation

namespace Headroom.Redact

/-! ### Stores and tables -/

def NONCE_LEN : ℕ := 12

/-- The bytes of a sealed value besides the value: its nonce and its tag. -/
def TOKEN_OVERHEAD : ℕ := NONCE_LEN + 16

/-- What is used from outside of this code. -/
structure Outside where
  /-- The bytes of hexadecimal digits. -/
  hexDecode : Bytes → Option Bytes
  /-- What the cipher opens, given the nonce, the associated data and the sealed bytes. -/
  decrypt : Bytes → Bytes → Bytes → Option Bytes
  /-- The JSON literal of a string. -/
  toJson : String → Bytes
  parseJson : Bytes → Option Json
  printJson : Json → Bytes
  /-- What is read from bytes that are not UTF-8. -/
  lossy : Bytes → String
  /-- The environment variable of the home directory. -/
  home : Option String

/-- The values behind the placeholders of one session. -/
structure SessionMap where
  forward : AList fun _ : Bytes => String

structure RedactStore where
  inner : Lru String SessionMap
  /-- The placeholders of all sessions. -/
  global : Lru Bytes String
  outside : Outside

def SessionMap.new : SessionMap := ⟨∅⟩

/-- The map of a session, a new one if there is none. -/
def RedactStore.withSession (store : RedactStore) (sessionKey : String) : SessionMap × RedactStore :=
  match store.inner.get sessionKey with
  | (some map, inner) => (map, { store with inner })
  | (none, inner) => (.new, { store with inner := inner.put sessionKey .new })

/-- The value behind a placeholder, whichever session minted it. -/
def RedactStore.recall (store : RedactStore) (token : Bytes) : Option String :=
  (store.global.get token).1

/-- A byte string split at the first occurrence of a byte. -/
def splitOnce (sep : UInt8) (bytes : Bytes) : Option (Bytes × Bytes) :=
  if sep ∈ bytes then
    let before := bytes.takeWhile (· != sep)
    some (before, bytes.drop (before.length + 1))
  else none

/-- The value that a placeholder carries. -/
def valueOf (outside : Outside) (token : Bytes) : Option String := do
  let rest ← PREFIX.isPrefixOf? token
  let rest ← [us, us].isSuffixOf? rest
  let (kind, hexBody) ← splitOnce us rest
  let body ← outside.hexDecode hexBody
  if body.length ≤ TOKEN_OVERHEAD then none
  else
    let opened ← outside.decrypt (body.take NONCE_LEN) kind (body.drop NONCE_LEN)
    fromUtf8? opened

inductive Escape
  | raw
  | json
  deriving DecidableEq

structure RestoreTable where
  forward : AList fun _ : Bytes => String
  maxLen : ℕ
  global : RedactStore
  labelMisses : Bool

def restoreTable (store : RedactStore) (sessionKey : String) : RestoreTable :=
  let (map, store) := store.withSession sessionKey
  let maxLen := max ((map.forward.keys.map List.length).max?.getD 0) MAX_TOKEN_LEN
  { forward := map.forward, maxLen, global := store, labelMisses := true }

/-- The most that is held back of a stream. -/
def MAX_OVERLAP : ℕ := MAX_TOKEN_LEN

def toLowercase (b : UInt8) : UInt8 := if isUppercase b then b + 32 else b

/-- The notice for a placeholder that nothing opens. -/
def redactedLabel (token : Bytes) : Bytes :=
  let kind := ((PREFIX.isPrefixOf? token).map fun s => (s.takeWhile (· != us)).map toLowercase).filter
    fun kind => !kind.isEmpty
  ascii "[redacted:" ++ kind.getD (ascii "unknown") ++ ascii "]"

namespace RestoreTable

def overlap (table : RestoreTable) : ℕ := min (table.maxLen - 1) MAX_OVERLAP

/-- A value as it is written. -/
def push (table : RestoreTable) (escape : Escape) (value : String) : Bytes :=
  match escape with
  | .raw => utf8 value
  | .json =>
    let quoted := table.global.outside.toJson value
    (quoted.take (quoted.length - 1)).drop 1

def miss (table : RestoreTable) (token : Bytes) : Bytes :=
  if table.labelMisses then redactedLabel token else token

/-- What a placeholder becomes, with the number of misses. -/
def restoreToken (table : RestoreTable) (escape : Escape) (token : Bytes) : Bytes × ℕ :=
  match valueOf table.global.outside token with
  | some original => (table.push escape original, 0)
  | none =>
    match table.forward.lookup token with
    | some original => (table.push escape original, 0)
    | none =>
      match table.global.recall token with
      | some original => (table.push escape original, 0)
      | none =>
        if token = HOME_TOKEN then
          match table.global.outside.home with
          | some home =>
            if home.toList.head? = some '/' then (table.push escape home, 0) else (table.miss token, 1)
          | none => (table.miss token, 1)
        else (table.miss token, 1)

/-- The restoration of a byte string, with the number of misses. -/
def restoreBytesAs (table : RestoreTable) (escape : Escape) : Bytes → Bytes × ℕ
  | [] => ([], 0)
  | b :: bytes =>
    match _h : tokenLen (b :: bytes) with
    | some len =>
      let original := table.restoreToken escape ((b :: bytes).take len)
      let rest := table.restoreBytesAs escape ((b :: bytes).drop len)
      (original.1 ++ rest.1, original.2 + rest.2)
    | none =>
      let rest := table.restoreBytesAs escape bytes
      (b :: rest.1, rest.2)
termination_by bytes => bytes.length
decreasing_by
  · exact tokens.length_drop_lt ‹_›
  · exact Nat.lt_succ_self _

/-- What a piece of a scan becomes. -/
def restorePiece (table : RestoreTable) (escape : Escape) : Piece UInt8 → Bytes × ℕ
  | .token text => table.restoreToken escape text
  | .plain b => ([b], 0)

theorem restoreBytesAs_eq (table : RestoreTable) (escape : Escape) (bytes : Bytes) :
    table.restoreBytesAs escape bytes =
      ((((tokens.scan bytes).map (table.restorePiece escape)).map Prod.fst).flatten,
        (((tokens.scan bytes).map (table.restorePiece escape)).map Prod.snd).sum) := by
  induction bytes using tokens.scan_induction with
  | nil => rw [restoreBytesAs, TokenRule.scan_nil]; rfl
  | token l n h ih =>
    obtain ⟨b, bytes, rfl⟩ := List.exists_cons_of_ne_nil (TokenRule.ne_nil_of_len h)
    rw [TokenRule.scan_token h, restoreBytesAs]
    have hlen : tokenLen (b :: bytes) = some n := h
    split <;> simp_all [restorePiece]
  | plain b bytes h ih =>
    rw [TokenRule.scan_plain h, restoreBytesAs]
    have hlen : tokenLen (b :: bytes) = none := h
    split <;> simp_all [restorePiece]

theorem restoreBytesAs_append (table : RestoreTable) (escape : Escape) {bytes : Bytes} {i : ℕ}
    (h : tokens.Safe i bytes) (more : Bytes) :
    (table.restoreBytesAs escape (bytes ++ more)).1 =
      (table.restoreBytesAs escape (bytes.take i)).1 ++
        (table.restoreBytesAs escape (bytes.drop i ++ more)).1 := by
  simp only [restoreBytesAs_eq, h.scan_append, List.map_append, List.flatten_append]

theorem restoreBytesAs_of_notMem (table : RestoreTable) (escape : Escape) {bytes : Bytes}
    (h : us ∉ bytes) : table.restoreBytesAs escape bytes = (bytes, 0) := by
  induction bytes with
  | nil => rw [restoreBytesAs]
  | cons b bytes ih =>
    obtain ⟨hb, hbytes⟩ := not_or.mp (mt List.mem_cons.mpr h)
    have hnone : tokenLen (b :: bytes) = none := by
      have hpre : PREFIX.isPrefixOf (b :: bytes) = false := by
        show (us == b && PREFIX.tail.isPrefixOf bytes) = false
        rw [beq_false_of_ne hb, Bool.false_and]
      rw [tokenLen, hpre]
      rfl
    rw [restoreBytesAs]
    split
    · simp_all
    · rw [ih hbytes]

end RestoreTable

/-! ### Where a part has to stop -/

theorem parseToken_pos {bytes token : Bytes} {i len : ℕ} (h : parseToken bytes i = some (token, len)) :
    0 < len := by
  obtain ⟨n, hn, heq⟩ := Option.map_eq_some_iff.mp h
  obtain ⟨-, rfl⟩ := Prod.mk.inj heq
  exact tokens.pos hn

/-- Where the last complete placeholder ends, in a scan that goes on at a position. -/
def settledFrom (pending : Bytes) (i settled : ℕ) : ℕ :=
  if i < pending.length then
    match _h : parseToken pending i with
    | some (_, len) => settledFrom pending (i + len) (i + len)
    | none => settledFrom pending (i + 1) settled
  else settled
termination_by pending.length - i
decreasing_by
  · have := parseToken_pos ‹_›
    omega
  · omega

/-- The last start of a placeholder that is not complete, in a window. -/
def openFrom (pending : Bytes) (window settled : ℕ) : Option ℕ :=
  let floor := max (pending.length - window) settled
  ((List.range' floor (pending.length - (PREFIX.length - 1) - floor)).reverse.find? fun i =>
    PREFIX.isPrefixOf (pending.drop i)).filter fun i => (parseToken pending i).isNone

/-- The start of a prefix that the end of the bytes cuts in half. -/
def partialFrom (pending : Bytes) (settled : ℕ) : Option ℕ :=
  ((List.range' 1 (PREFIX.length - 1)).reverse.find? fun k =>
    k ≤ pending.length && settled ≤ pending.length - k &&
      pending.drop (pending.length - k) == PREFIX.take k).map (pending.length - ·)

/-- Where a chunk has to stop, so that no placeholder is split. -/
def holdFrom (pending : Bytes) (window : ℕ) : Option ℕ :=
  let settled := settledFrom pending 0 0
  match openFrom pending window settled, partialFrom pending settled with
  | some a, some b => some (min a b)
  | a, b => a.or b

theorem settledFrom_eq (pending : Bytes) (i settled : ℕ) (hi : i ≤ pending.length) :
    settledFrom pending i settled =
      if tokens.settled (pending.drop i) = 0 then settled
      else i + tokens.settled (pending.drop i) := by
  generalize hl : pending.drop i = l
  induction l using tokens.scan_induction generalizing i settled with
  | nil =>
    have := List.drop_eq_nil_iff.mp hl
    rw [settledFrom, if_neg (by omega), TokenRule.settled_nil, if_pos rfl]
  | token l n h ih =>
    have hlen : tokenLen (pending.drop i) = some n := hl ▸ h
    have hparse : parseToken pending i = some ((pending.drop i).take n, n) := by
      rw [parseToken, hlen, Option.map_some]
    have hpos := tokens.pos h
    have hle := tokens.le_length h
    rw [← hl, List.length_drop] at hle
    rw [settledFrom, if_pos (by omega)]
    split
    · rename_i token len heq
      obtain ⟨-, rfl⟩ := Prod.mk.inj (Option.some.inj (heq.symm.trans hparse))
      rw [ih (i + len) (i + len) (by omega) (by rw [← hl, List.drop_drop]),
        TokenRule.settled_token h]
      split_ifs <;> omega
    · rename_i heq
      rw [hparse] at heq
      exact absurd heq (Option.some_ne_none _)
  | plain a l h ih =>
    have hlen : tokenLen (pending.drop i) = none := hl ▸ h
    have hlt : i < pending.length := by
      by_contra hge
      rw [List.drop_eq_nil_iff.mpr (by omega)] at hl
      exact absurd hl (by simp)
    rw [settledFrom, if_pos hlt]
    split
    · rename_i token len heq
      rw [parseToken, hlen] at heq
      exact absurd heq (by simp)
    · rw [ih (i + 1) settled (by omega) (by rw [← List.drop_drop, hl, List.drop_one, List.tail_cons]),
        TokenRule.settled_plain h]
      by_cases hzero : tokens.settled l = 0
      · simp only [hzero, if_true]
      · simp only [hzero, if_false, Nat.succ_ne_zero]
        omega

theorem settledFrom_zero (pending : Bytes) : settledFrom pending 0 0 = tokens.settled pending := by
  rw [settledFrom_eq pending 0 0 (Nat.zero_le _), List.drop_zero]
  split_ifs <;> omega

theorem exists_find?_reverse_range' {p : ℕ → Bool} {a n i : ℕ} (hi : i ∈ List.range' a n)
    (hp : p i = true) : ∃ j, (List.range' a n).reverse.find? p = some j ∧ i ≤ j ∧ p j = true := by
  obtain ⟨j, hj⟩ : ∃ j, (List.range' a n).reverse.find? p = some j := by
    rw [← Option.isSome_iff_exists, List.find?_isSome]
    exact ⟨i, List.mem_reverse.mpr hi, hp⟩
  obtain ⟨hpj, before, behind, hsplit, hnot⟩ := List.find?_eq_some_iff_append.mp hj
  refine ⟨j, hj, ?_, hpj⟩
  by_contra hlt
  have hmem : i ∈ before ++ j :: behind := hsplit ▸ List.mem_reverse.mpr hi
  have hsorted : (before ++ j :: behind).Pairwise (· > ·) := by
    rw [← hsplit, List.pairwise_reverse]
    exact List.pairwise_lt_range'
  rcases List.mem_append.mp hmem with hbefore | hbehind
  · exact absurd hp (by simpa using hnot i hbefore)
  · rcases List.mem_cons.mp hbehind with rfl | hbehind
    · omega
    · have := (List.pairwise_cons.mp (List.pairwise_append.mp hsorted).2.1).1 i hbehind
      omega

variable {pending : Bytes}

theorem openFrom_ge {window settled i : ℕ}
    (h : openFrom pending window settled = some i) : settled ≤ i ∧ i ≤ pending.length := by
  obtain ⟨hfind, -⟩ := Option.filter_eq_some_iff.mp h
  have hmem := List.mem_reverse.mp (List.mem_of_find?_eq_some hfind)
  rw [List.mem_range'_1] at hmem
  omega

theorem partialFrom_ge {settled i : ℕ} (h : partialFrom pending settled = some i) :
    settled ≤ i ∧ i ≤ pending.length := by
  obtain ⟨k, hfind, rfl⟩ := Option.map_eq_some_iff.mp h
  have hk := List.find?_some hfind
  simp only [Bool.and_eq_true, decide_eq_true_eq, beq_iff_eq] at hk
  omega

theorem holdFrom_ge {window i : ℕ} (h : holdFrom pending window = some i) :
    tokens.settled pending ≤ i ∧ i ≤ pending.length := by
  rw [holdFrom, settledFrom_zero] at h
  split at h
  · rename_i a b ha hb
    obtain rfl := Option.some.inj h
    have := openFrom_ge ha
    have := partialFrom_ge hb
    omega
  · rcases Option.or_eq_some_iff.mp h with ha | ⟨-, hb⟩
    · exact openFrom_ge ha
    · exact partialFrom_ge hb

/-- An unfinished placeholder behind the settled ones is held from its start on. -/
theorem holdFrom_le_of_open {window p : ℕ} (hwindow : MAX_TOKEN_LEN - 1 ≤ window)
    (hsettled : tokens.settled pending ≤ p) (hlt : p < pending.length)
    (hopen : tokens.Open (pending.drop p)) : ∃ i, holdFrom pending window = some i ∧ i ≤ p := by
  have hshort := Open.length_lt hopen
  rw [List.length_drop] at hshort
  have hcases : (∃ i, openFrom pending window (tokens.settled pending) = some i ∧ i ≤ p) ∨
      ∃ i, partialFrom pending (tokens.settled pending) = some i ∧ i ≤ p := by
    by_cases hlong : PREFIX.length ≤ (pending.drop p).length
    · left
      have hpre : PREFIX <+: pending.drop p := by
        rcases Open.prefix_or hopen with h | h
        · exact h
        · rw [h.eq_of_length (le_antisymm h.length_le hlong)]
      rw [List.length_drop] at hlong
      have hfive : 1 ≤ PREFIX.length := by decide
      obtain ⟨q, hfind, hle, hq⟩ := exists_find?_reverse_range'
        (p := fun i => PREFIX.isPrefixOf (pending.drop i))
        (a := max (pending.length - window) (tokens.settled pending))
        (n := pending.length - (PREFIX.length - 1) -
          max (pending.length - window) (tokens.settled pending))
        (List.mem_range'_1.mpr ⟨by omega, by omega⟩)
        (List.isPrefixOf_iff_prefix.mpr hpre)
      -- No second prefix stands in an unfinished placeholder.
      obtain rfl : q = p := by
        have hinner : PREFIX <+: (pending.drop p).drop (q - p) := by
          rw [List.drop_drop, Nat.add_sub_cancel' hle]
          exact List.isPrefixOf_iff_prefix.mp hq
        have := Open.eq_zero_of_prefix_drop hopen hinner
        omega
      refine ⟨q, ?_, le_rfl⟩
      have hnone : parseToken pending q = none := Option.map_eq_none_iff.mpr hopen.1
      rw [openFrom]
      exact Option.filter_eq_some_iff.mpr ⟨hfind, by rw [hnone]; rfl⟩
    · right
      rw [List.length_drop] at hlong
      have hpre : pending.drop p <+: PREFIX := by
        rcases Open.prefix_or hopen with h | h
        · have := h.length_le
          rw [List.length_drop] at this
          omega
        · exact h
      have hk := List.prefix_iff_eq_take.mp hpre
      rw [List.length_drop] at hk
      obtain ⟨k, hfind, hle, hq⟩ := exists_find?_reverse_range'
        (p := fun k => k ≤ pending.length && tokens.settled pending ≤ pending.length - k &&
          pending.drop (pending.length - k) == PREFIX.take k)
        (a := 1) (n := PREFIX.length - 1) (i := pending.length - p)
        (List.mem_range'_1.mpr ⟨by omega, by omega⟩)
        (by
          rw [Nat.sub_sub_self hlt.le, ← hk]
          simp
          omega)
      exact ⟨pending.length - k, Option.map_eq_some_iff.mpr ⟨k, hfind, rfl⟩, by omega⟩
  rw [holdFrom, settledFrom_zero]
  rcases hcases with ⟨i, hi, hle⟩ | ⟨i, hi, hle⟩
  · rw [hi]
    cases partialFrom pending (tokens.settled pending) with
    | none => exact ⟨i, rfl, hle⟩
    | some b => exact ⟨min i b, rfl, le_trans (Nat.min_le_left _ _) hle⟩
  · rw [hi]
    cases openFrom pending window (tokens.settled pending) with
    | none => exact ⟨i, rfl, hle⟩
    | some a => exact ⟨min a i, rfl, le_trans (Nat.min_le_right _ _) hle⟩

theorem safe_holdFrom {window : ℕ} (hwindow : MAX_TOKEN_LEN - 1 ≤ window) (pending : Bytes) :
    tokens.Safe ((holdFrom pending window).getD pending.length) pending := by
  have hlength : tokens.settled pending ≤ pending.length := tokens.settled_le_length pending
  cases hhold : holdFrom pending window with
  | none =>
    refine TokenRule.safe_of_settled hlength le_rfl fun p hp hlt hopen => ?_
    obtain ⟨i, hi, -⟩ := holdFrom_le_of_open hwindow hp hlt hopen
    rw [hi] at hhold
    exact absurd hhold (Option.some_ne_none i)
  | some i =>
    obtain ⟨hge, hle⟩ := holdFrom_ge hhold
    refine TokenRule.safe_of_settled hge hle fun p hp hlt hopen => ?_
    obtain ⟨j, hj, hjp⟩ := holdFrom_le_of_open hwindow hp (Nat.lt_of_lt_of_le hlt hle) hopen
    obtain rfl := Option.some.inj (hj.symm.trans hhold)
    exact absurd hjp (Nat.not_le_of_lt hlt)

end Headroom.Redact
