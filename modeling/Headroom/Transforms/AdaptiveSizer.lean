import Mathlib.Algebra.Ring.Int.Defs
import Headroom.Foundation.Bytes
import Headroom.Foundation.Text

/-!
# How many items to keep

The number of items that are worth keeping is read off a curve: how many pairs of neighbouring words have come up after
each item. Where the curve stops growing there is the number, within bounds of the caller, more for items that differ,
and corrected where the part that is kept is more regular than the whole.
-/

open Foundation

namespace Headroom.Transforms.AdaptiveSizer

/-- What is asked of others: the lower case of Unicode, the digest, and the length of compressed bytes. -/
structure Outside where
  toLowercase : String → String
  md5 : Bytes → Bytes
  zlibCompressedLen : Bytes → ℕ

variable (o : Outside)

/-! ### Items that differ -/

/-- The first 64 bits of the digest of some characters. -/
def gramHash (gram : List Char) : BitVec 64 := BitVec.ofNat 64 (fromBe ((o.md5 (utf8 (String.ofList gram))).take 8))

/-- The runs of four characters, or the whole of a shorter text. -/
def grams (chars : List Char) : List (List Char) :=
  (List.range (if chars.length ≤ 3 then 1 else chars.length - 3)).map fun i => (chars.drop i).take 4

/-- The bits that most of the runs have. -/
def simhash (text : String) : BitVec 64 :=
  let hashes := (grams (o.toLowercase text).toList).map (gramHash o)
  let votes (j : ℕ) : ℤ := (hashes.map fun h => if h.getLsbD j then 1 else -1).sum
  (List.range 64).foldl (fun fingerprint j => if 0 < votes j then fingerprint ||| (1#64 <<< j) else fingerprint) 0#64

def hammingDistance (a b : BitVec 64) : ℕ := (List.range 64).countP fun j => (a ^^^ b).getLsbD j

/-- How many items are not close to an earlier one that counts. -/
def countUniqueSimhash (items : List String) (threshold : ℕ) : ℕ :=
  ((items.map (simhash o)).foldl (fun clusters fp =>
    if clusters.any fun rep => hammingDistance fp rep ≤ threshold then clusters else clusters ++ [fp]) []).length

/-! ### The curve -/

/-- Ideographs, kana and Hangul. -/
def isCjkChar (c : Char) : Bool :=
  [(0x3040, 0x30FF), (0x3400, 0x4DBF), (0x4E00, 0x9FFF), (0xAC00, 0xD7AF), (0xF900, 0xFAFF)].any fun range =>
    range.1 ≤ c.toNat && c.toNat ≤ range.2

abbrev Bigram : Type := List Char × List Char

/-- The pairs of neighbouring words of an item; of characters where it is one word of ideographs. -/
def bigrams (item : String) : List Bigram :=
  let words := ((o.toLowercase item).toList.splitOnP Text.isWhitespace).filter fun w => w ≠ []
  match words with
  | [] => [([], [])]
  | [w] =>
    if 2 ≤ w.length && w.any isCjkChar then (w.zip w.tail).map fun (a, b) => ([a], [b])
    else [(w, [])]
  | _ => words.zip words.tail

/-- How many pairs have come up after each item. -/
def computeUniqueBigramCurve (items : List String) : List ℕ :=
  (items.foldl (fun (seen, curve) item =>
    let seen := (bigrams o item).foldl (fun (seen : List Bigram) b => seen.insert b) seen
    (seen, curve ++ [seen.length])) (([] : List Bigram), ([] : List ℕ))).2

def EPSILON : Float := 2.220446049250313e-16

/-- Where a curve is farthest above the straight line, counted from one. -/
def findKnee (curve : List ℕ) : Option ℕ :=
  if curve.length < 3 then none
  else
    let yMin := Float.ofNat (curve.headD 0)
    let yMax := Float.ofNat (curve.getLastD 0)
    if (yMax - yMin).abs < EPSILON then some 1
    else
      let farthest := curve.zipIdx.foldl (fun (maxDiff, knee) (y, i) =>
        let diff := (Float.ofNat y - yMin) / (yMax - yMin) - Float.ofNat i / Float.ofNat (curve.length - 1)
        if diff > maxDiff then (diff, some i) else (maxDiff, knee)) ((-1.0 : Float), (none : Option ℕ))
      if farthest.1 < 0.05 then none else farthest.2.map (· + 1)

/-! ### The number of items -/

/-- The integer part of a float. -/
def truncate (x : Float) : ℕ := x.toUInt64.toNat

/-- The number, a fifth more where the part that is kept compresses differently from the whole. -/
def validateWithZlib (items : List String) (k maxK : ℕ) (tolerance : Float) : ℕ :=
  if items.length ≤ k ∨ maxK ≤ k then k
  else
    let fullText := "\n".intercalate items
    let subsetText := "\n".intercalate (items.take k)
    if Text.byteLength fullText < 200 then k
    else
      let ratio (text : String) : Float :=
        if text = "" then 1.0
        else Float.ofNat (o.zlibCompressedLen (utf8 text)) / Float.ofNat (Text.byteLength text)
      if (ratio fullText - ratio subsetText).abs > tolerance then min (truncate (Float.ofNat k * 1.2)) maxK
      else k

/-- How many of some items to keep, from their texts in order of importance. -/
def computeOptimalK (items : List String) (bias : Float) (minK : ℕ) (maxK : Option ℕ) : ℕ :=
  let n := items.length
  let effectiveMax := maxK.getD n
  if n ≤ 8 then min n effectiveMax
  else
    let uniqueCount := countUniqueSimhash o items 3
    if uniqueCount ≤ 3 then min (max minK uniqueCount) effectiveMax
    else
      let diversityRatio := Float.ofNat uniqueCount / Float.ofNat n
      let floor := max minK (truncate (Float.ofNat n * (0.3 + 0.7 * diversityRatio)))
      let knee :=
        match findKnee (computeUniqueBigramCurve o items) with
        | none => floor
        | some k => if diversityRatio > 0.7 then max k floor else k
      let k := min (max minK (truncate (Float.ofNat knee * bias))) effectiveMax
      -- The lower bound is applied last, also above the bound of the caller.
      max minK (min (validateWithZlib o items k effectiveMax 0.15) effectiveMax)

/-! ### The bounds -/

variable {o} {items : List String} {bias : Float} {minK : ℕ}

theorem computeOptimalK_le {maxK : ℕ} (h : minK ≤ maxK) : computeOptimalK o items bias minK (some maxK) ≤ maxK := by
  rw [computeOptimalK]
  dsimp only [Option.getD_some]
  by_cases hn : items.length ≤ 8
  · rw [if_pos hn]
    exact min_le_right _ _
  rw [if_neg hn]
  by_cases hunique : countUniqueSimhash o items 3 ≤ 3
  · rw [if_pos hunique]
    exact min_le_right _ _
  · rw [if_neg hunique]
    exact max_le h (min_le_right _ _)

theorem le_computeOptimalK {maxK : Option ℕ} (hn : 8 < items.length) (hunique : 3 < countUniqueSimhash o items 3) :
    minK ≤ computeOptimalK o items bias minK maxK := by
  rw [computeOptimalK]
  dsimp only
  rw [if_neg (Nat.not_le_of_lt hn), if_neg (Nat.not_le_of_lt hunique)]
  exact le_max_left _ _

theorem computeOptimalK_of_few {maxK : Option ℕ} (hn : 8 < items.length) (hunique : countUniqueSimhash o items 3 ≤ 3) :
    computeOptimalK o items bias minK maxK =
      min (max minK (countUniqueSimhash o items 3)) (maxK.getD items.length) := by
  rw [computeOptimalK]
  dsimp only
  rw [if_neg (Nat.not_le_of_lt hn), if_pos hunique]

end Headroom.Transforms.AdaptiveSizer
