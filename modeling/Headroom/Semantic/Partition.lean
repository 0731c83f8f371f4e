import Mathlib.Data.Prod.Lex
import Headroom.Foundation.Bytes
import Headroom.Foundation.JsonInjective

/-!
# The caller of a cached answer

The entries of the cache are kept apart by the credentials of the caller. The credential headers of a request are
sorted and signed with the key of the process, and a request without any has a partition of its own. A value that is
no visible ASCII counts as empty.
-/

open Foundation

namespace Headroom.Semantic

/-- The headers of a request, each with the bytes of its value. -/
abbrev HeaderMap : Type := List (String × Bytes)

def ANONYMOUS_PARTITION : String := "anon"

def CREDENTIAL_NAME_COMPONENTS : List String :=
  ["token", "secret", "password", "passwd", "credential", "credentials", "authorization", "apikey", "key", "bearer",
    "cookie", "signature", "account", "organization", "project"]

def toAsciiLowercase (name : List Char) : List Char := name.map Char.toLower

/-- Whether an inbound header carries a credential. -/
def isCredentialHeader (name : String) : Bool :=
  if "x-headroom-".toList.isPrefixOf name.toList || "X-Headroom-".toList.isPrefixOf name.toList then false
  else
    let lower := toAsciiLowercase (Text.trim name.toList)
    if lower = "idempotency-key".toList || lower = "x-idempotency-key".toList then false
    else if lower = "authorization".toList || lower = "proxy-authorization".toList || lower = "cookie".toList ||
        lower = "x-api-key".toList then true
    else
      ((lower.map fun c => if c = '_' then '-' else c).splitOn '-').any fun part =>
        CREDENTIAL_NAME_COMPONENTS.any fun component => component.toList = part

/-! ### The values of headers -/

/-- The characters of a value, one for each byte. -/
def latin1 (value : Bytes) : List Char := value.map fun b => Char.ofNat b.toNat

/-- A value of visible ASCII. -/
def isVisible (value : Bytes) : Bool := value.all fun b => (32 ≤ b && b < 127) || b = 9

/-- The text of a value; none for one that is no visible ASCII. -/
def toStr? (value : Bytes) : Option (List Char) := if isVisible value then some (latin1 value) else none

/-- A pair of a partition: a name in lower case, and a value that is not empty. -/
def pair? (name : String) (text : List Char) : Option (String × String) :=
  if Text.trim text = [] then none
  else some (String.ofList (toAsciiLowercase name.toList), String.ofList (Text.trim text))

/-- The pairs that the partition of a request is made of. -/
def credentialPairs (headers : HeaderMap) : List (String × String) :=
  (headers.filter fun h => isCredentialHeader h.1).filterMap fun h => pair? h.1 ((toStr? h.2).getD [])

/-- The parameters of a proxy: the hash of a key text, the keyed signature, and the reader of a reply. -/
structure Outside where
  keyHash : List Char → String
  mac : List Char → String
  fromSlice : Bytes → Option Json

/-- What is signed for some pairs. -/
def canonicalText (pairs : List (String × String)) : List Char :=
  let sorted := (pairs.map toLex).insertionSort (· ≤ ·)
  (Json.arr ((sorted.flatMap fun p => ["h:" ++ (ofLex p).1, (ofLex p).2]).map .str)).compact

/-- The partition of the entries of a caller. -/
def computeCachePartition (o : Outside) (headers : HeaderMap) : String :=
  if credentialPairs headers = [] then ANONYMOUS_PARTITION
  else "p_" ++ o.mac (canonicalText (credentialPairs headers))

/-! ### Who shares a partition -/

theorem numeric_strings (texts : List String) : (Json.arr (texts.map .str)).Numeric :=
  Json.numericItems_iff.2 fun j hj => by
    obtain ⟨text, -, rfl⟩ := List.mem_map.1 hj
    trivial

theorem flatMap_pairs_inj {as bs : List (String ×ₗ String)}
    (h : (as.flatMap fun p => ["h:" ++ (ofLex p).1, (ofLex p).2]) =
      bs.flatMap fun p => ["h:" ++ (ofLex p).1, (ofLex p).2]) : as = bs := by
  induction as generalizing bs with
  | nil =>
    cases bs with
    | nil => rfl
    | cons b bs => exact absurd h (by simp)
  | cons a as ih =>
    cases bs with
    | nil => exact absurd h (by simp)
    | cons b bs =>
      rw [List.flatMap_cons, List.flatMap_cons] at h
      obtain ⟨hname, hrest⟩ := List.cons.inj h
      obtain ⟨hvalue, hrest⟩ := List.cons.inj hrest
      have hname' : (ofLex a).1 = (ofLex b).1 := by simpa using hname
      rw [ih hrest, ofLex.injective (Prod.ext hname' hvalue)]

theorem canonicalText_eq_iff {as bs : List (String × String)} : canonicalText as = canonicalText bs ↔ as.Perm bs := by
  constructor
  · intro h
    have harr := Json.compact_inj (numeric_strings _) (numeric_strings _) h
    have hsorted : (as.map toLex).insertionSort (· ≤ ·) = (bs.map toLex).insertionSort (· ≤ ·) :=
      flatMap_pairs_inj (List.map_injective_iff.2 (fun _ _ h => Json.str.inj h) (Json.arr.inj harr))
    have hperm : (as.map toLex).Perm (bs.map toLex) := by
      refine (List.perm_insertionSort (· ≤ ·) _).symm.trans ?_
      rw [hsorted]
      exact List.perm_insertionSort _ _
    have hback (pairs : List (String × String)) : (pairs.map toLex).map ofLex = pairs := by
      rw [List.map_map]
      exact List.map_id pairs
    rw [← hback as, ← hback bs]
    exact hperm.map ofLex
  · intro h
    have hsorted : (as.map toLex).insertionSort (· ≤ ·) = (bs.map toLex).insertionSort (· ≤ ·) := by
      refine List.Perm.eq_of_sortedLE List.sortedLE_insertionSort List.sortedLE_insertionSort ?_
      exact (List.perm_insertionSort _ _).trans ((h.map toLex).trans (List.perm_insertionSort _ _).symm)
    rw [canonicalText, canonicalText, hsorted]

/-- Two callers share a partition when their pairs are the same, in any order. -/
theorem computeCachePartition_eq_iff {o : Outside} {headers headers' : HeaderMap}
    (hmac : o.mac (canonicalText (credentialPairs headers)) = o.mac (canonicalText (credentialPairs headers')) →
      canonicalText (credentialPairs headers) = canonicalText (credentialPairs headers')) :
    computeCachePartition o headers = computeCachePartition o headers' ↔
      (credentialPairs headers).Perm (credentialPairs headers') := by
  -- A signed partition is none that a caller without credentials has.
  have hanonymous (text : String) : ANONYMOUS_PARTITION ≠ "p_" ++ text := by
    intro h
    have hhead := congrArg (fun s => s.toList.head?) h
    simp [ANONYMOUS_PARTITION] at hhead
  rw [computeCachePartition, computeCachePartition]
  split_ifs with hnil hnil' hnil'
  · rw [hnil, hnil']
    exact iff_of_true rfl (.refl _)
  · rw [hnil]
    exact iff_of_false (hanonymous _) fun h => hnil' h.nil_eq.symm
  · rw [hnil']
    exact iff_of_false (hanonymous _).symm fun h => hnil h.eq_nil
  · rw [← canonicalText_eq_iff]
    refine ⟨fun h => hmac ?_, fun h => by rw [h]⟩
    simpa using h

/-! ### What is not seen -/

/-- The credentials of a request. -/
def credentials (headers : HeaderMap) : List (String × String) :=
  (headers.filter fun h => isCredentialHeader h.1).filterMap fun h => pair? h.1 (latin1 h.2)

/-- The credentials whose value is no visible ASCII. -/
def hiddenCredentials (headers : HeaderMap) : List (String × String) :=
  (headers.filter fun h => isCredentialHeader h.1 && !isVisible h.2).filterMap fun h => pair? h.1 (latin1 h.2)

/-- The credentials of a request are those of its partition and those that are not seen. -/
theorem credentials_perm (headers : HeaderMap) :
    (credentials headers).Perm (credentialPairs headers ++ hiddenCredentials headers) := by
  induction headers with
  | nil => exact .refl _
  | cons h headers ih =>
    rw [credentials, credentialPairs, hiddenCredentials] at ih ⊢
    by_cases hcredential : isCredentialHeader h.1 = true
    · by_cases hvisible : isVisible h.2 = true
      · have hread : (toStr? h.2).getD [] = latin1 h.2 := by rw [toStr?, if_pos hvisible, Option.getD_some]
        simp only [List.filter_cons, hcredential, hvisible, Bool.not_true, Bool.and_false, Bool.false_eq_true, if_true,
          if_false, List.filterMap_cons, hread]
        cases pair? h.1 (latin1 h.2) with
        | none => exact ih
        | some p => exact ih.cons p
      · have hread : pair? h.1 ((toStr? h.2).getD []) = none := by
          rw [toStr?, if_neg hvisible]
          rfl
        rw [Bool.not_eq_true] at hvisible
        simp only [List.filter_cons, hcredential, hvisible, Bool.not_false, Bool.and_true, if_true,
          List.filterMap_cons, hread]
        cases pair? h.1 (latin1 h.2) with
        | none => exact ih
        | some p => exact (ih.cons p).trans List.perm_middle.symm
    · rw [Bool.not_eq_true] at hcredential
      simp only [List.filter_cons, hcredential, Bool.false_and, Bool.false_eq_true, if_false]
      exact ih

end Headroom.Semantic
