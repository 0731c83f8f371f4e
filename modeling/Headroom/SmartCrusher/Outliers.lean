import Mathlib.Data.List.Dedup
import Mathlib.Data.List.Sort
import Headroom.Foundation.Json
import Headroom.Foundation.Text

/-!
# Items that stand out

Detectors for the items of an array that are to be kept: those with an error keyword in their text,
those with a field that few others have, and those with a rare value in a field that most others have.
The fractions of the number of items are compared exactly.
-/

open Foundation

namespace Headroom.SmartCrusher

/-! ### Errors -/

def errorKeywords : List String :=
  ["error", "exception", "failed", "failure", "critical", "fatal", "crash", "panic", "abort",
    "timeout", "denied", "rejected"]

/-- A text in lower case. No letter beyond ASCII has a lower case that is part of a keyword. -/
def lowerText (text : List Char) : List Char := text.map Char.toLower

/-- The text of an item: as it was serialized, where that is given. -/
def itemText (itemStrings : Option (List String)) (i : ℕ) (item : Json) : List Char :=
  match itemStrings.bind fun strings => strings[i]? with
  | some text => text.toList
  | none => item.compact

def hasErrorKeyword (text : List Char) : Bool :=
  errorKeywords.any fun keyword => Text.contains keyword.toList (lowerText text)

def detectErrorItemsForPreservation (items : List Json) (itemStrings : Option (List String)) : List ℕ :=
  (items.zipIdx.filter fun (item, i) => item.isObj && hasErrorKeyword (itemText itemStrings i item)).map
    Prod.snd

/-! ### Rare fields and rare values -/

/-- The keys of an object. -/
def keysOf : Json → List String
  | .obj fields => fields.map Prod.fst
  | _ => []

/-- In how many items a field comes up. -/
def fieldCount (items : List Json) (key : String) : ℕ := items.countP fun item => key ∈ keysOf item

/-- A value as it is compared. -/
def stringify : Json → String
  | .bool true => "true"
  | .bool false => "false"
  | .num literal => literal
  | .str s => s
  | .null => "__none__"
  | value => String.ofList value.compact

/-- The most frequent values, until they cover a number of items. -/
def topValues (threshold : ℕ) : ℕ → List (String × ℕ) → List String
  | _, [] => []
  | cumulative, (value, count) :: counts =>
    value :: if threshold ≤ cumulative + count then [] else topValues threshold (cumulative + count) counts

/-- The values of a field that cover four fifths of its items, most frequent first. -/
def frequentValues (values : List Json) : List String :=
  let texts := values.map stringify
  let counts := texts.dedup.map fun text => (text, texts.count text)
  let sortedCounts := counts.insertionSort fun a b => b.2 < a.2 ∨ (a.2 = b.2 ∧ a.1 ≤ b.1)
  topValues ((4 * values.length + 4) / 5) 0 sortedCounts

/-- The items with a rare value in one field. -/
def rareStatusOf (items : List Json) (field : String) : List ℕ :=
  let values := items.filterMap (Json.get? field)
  let uniqueValues := ((values.filter (· ≠ .null)).map stringify).dedup
  if ¬(2 ≤ uniqueValues.length ∧ uniqueValues.length ≤ 50) then []
  else
    let topK := frequentValues values
    -- many frequent values make none of the others rare
    if 5 < topK.length then []
    else (items.zipIdx.filter fun (item, _) =>
      (item.get? field).any fun value => stringify value ∉ topK).map Prod.snd

def detectRareStatusValues (items : List Json) (commonFields : List String) : List ℕ :=
  (commonFields.insertionSort (· ≤ ·)).flatMap (rareStatusOf items)

def detectStructuralOutliers (items : List Json) : List ℕ :=
  if items.length < 5 then []
  else
    let fields := (items.flatMap keysOf).dedup
    let commonFields := fields.filter fun key => 4 * items.length ≤ 5 * fieldCount items key
    let rareFields := fields.filter fun key => 5 * fieldCount items key < items.length
    let rare := (items.zipIdx.filter fun (item, _) => (keysOf item).any (· ∈ rareFields)).map Prod.snd
    (rare ++ detectRareStatusValues items commonFields).dedup.insertionSort (· ≤ ·)

end Headroom.SmartCrusher
