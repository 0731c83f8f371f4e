import Headroom.Foundation.Json
import Headroom.Foundation.Text

/-!
# Cells

What becomes of one value in a table: a value as it is, an object or an array, a string that holds JSON,
or a long string that is stored elsewhere and named by a marker. A compaction is a tree of tables, whose
cells may hold compactions again.
-/

open Foundation

namespace Foundation.Json

/-- A size of values: no more than the length of any text of the value. -/
def weight : Json → ℕ
  | .null => 1
  | .bool _ => 1
  | .num _ => 1
  | .str s => s.length + 2
  | .arr items => 1 + weightItems items
  | .obj fields => 1 + weightFields fields
where
  /-- The items of an array. -/
  weightItems : List Json → ℕ
    | [] => 0
    | j :: js => weight j + weightItems js
  /-- The fields of an object. -/
  weightFields : List (String × Json) → ℕ
    | [] => 0
    | (_, j) :: fs => weight j + weightFields fs

def isContainer : Json → Bool
  | .arr _ => true
  | .obj _ => true
  | _ => false

end Foundation.Json

namespace Headroom.SmartCrusher

/-- What is known of the parser: a value is no larger than the text it was read from. -/
structure JsonReader where
  fromStr : String → Option Json
  weight_le : ∀ {text value}, fromStr text = some value → value.weight ≤ text.length

/-! ### Kinds of strings -/

inductive OpaqueKind where
  | base64Blob
  | longString
  | htmlChunk
  | other (name : String)
  deriving DecidableEq

/-- The kind as markers and labels spell it. -/
def OpaqueKind.label : OpaqueKind → String
  | base64Blob => "base64"
  | longString => "string"
  | htmlChunk => "html"
  | other name => name

/-- How every marker starts. -/
def CCR_MARKER_PREFIX : String := "<<ccr:"

def carriesMarker (s : String) : Bool := Text.contains CCR_MARKER_PREFIX.toList s.toList

structure ClassifyConfig where
  opaqueMinBytes : ℕ
  htmlMinOpenBrackets : ℕ
  emitOpaqueMarkers : Bool

/-- The settings that all crushers share; they differ in whether long strings are replaced at all. -/
def ClassifyConfig.standard (emitOpaqueMarkers : Bool) : ClassifyConfig := ⟨256, 3, emitOpaqueMarkers⟩

def isBase64Char (c : Char) : Bool := c.isAlphanum || c ∈ ['+', '/', '=', '_', '-']

/-- Whether nearly all characters are from the alphabet of base64, and many of it are used. The ratio of
nineteen in twenty is compared exactly. -/
def looksLikeBase64 (s : String) : Bool :=
  let text := s.toList
  let total := Text.utf8Length text
  64 ≤ total && !text.any (fun c => c == '<' || c == '>' || Text.isWhitespace c) &&
    decide (19 * total ≤ 20 * text.countP fun c => isBase64Char c) && 16 ≤ text.dedup.length

/-- The brackets that open a tag. -/
def tagStarts : List Char → ℕ
  | '<' :: next :: rest =>
    (if next.isAlpha || next == '/' || next == '!' then 1 else 0) + tagStarts (next :: rest)
  | _ :: rest => tagStarts rest
  | [] => 0

def looksLikeHtml (s : String) (minOpenBrackets : ℕ) : Bool :=
  minOpenBrackets ≤ s.toList.count '<' && minOpenBrackets ≤ tagStarts s.toList

/-! ### Kinds of cells -/

inductive CellClass where
  | scalar
  | jsonObject
  | jsonArray
  | stringifiedJson (parsed : Json)
  | isOpaque (kind : OpaqueKind)

variable (R : JsonReader)

/-- The object or array that a string spells. -/
def tryParseJsonContainer (s : String) : Option Json :=
  match Text.trimStart s.toList with
  | '\x7b' :: _ => (R.fromStr s).filter Json.isContainer
  | '[' :: _ => (R.fromStr s).filter Json.isContainer
  | _ => none

def classifyString (cfg : ClassifyConfig) (s : String) : CellClass :=
  -- what carries a marker was compressed before
  if carriesMarker s then .scalar
  else match tryParseJsonContainer R s with
  | some parsed => .stringifiedJson parsed
  | none =>
    if Text.byteLength s ≤ cfg.opaqueMinBytes ∨ cfg.emitOpaqueMarkers = false then .scalar
    else if looksLikeBase64 s then .isOpaque .base64Blob
    else if looksLikeHtml s cfg.htmlMinOpenBrackets then .isOpaque .htmlChunk
    else .isOpaque .longString

def classifyCell (cfg : ClassifyConfig) : Json → CellClass
  | .obj _ => .jsonObject
  | .arr _ => .jsonArray
  | .str s => classifyString R cfg s
  | _ => .scalar

/-! ### Tables -/

structure FieldSpec where
  name : String
  typeTag : String
  nullable : Bool
  deriving DecidableEq

mutual

/-- One cell of a row. -/
inductive CellValue where
  | scalar (v : Json)
  | nested (sub : Compaction)
  | opaqueRef (ccrHash : String) (byteSize : ℕ) (kind : OpaqueKind)
  | missing

/-- The rows under one value of the field that tells rows apart. -/
inductive Bucket where
  | mk (key : Json) (schema : List FieldSpec) (rows : List (List CellValue))

/-- What an array was turned into. -/
inductive Compaction where
  | table (schema : List FieldSpec) (rows : List (List CellValue)) (originalCount : ℕ)
  | buckets (discriminator : String) (parts : List Bucket) (originalCount : ℕ)
  | opaqueRef (ccrHash : String) (byteSize : ℕ) (kind : OpaqueKind)
  | untouched (v : Json)

end

abbrev Row := List CellValue

def Bucket.key : Bucket → Json
  | mk key _ _ => key

def Bucket.rows : Bucket → List Row
  | mk _ _ rows => rows

namespace Compaction

def keptRowCount : Compaction → ℕ
  | table _ rows _ => rows.length
  | buckets _ parts _ => (parts.map fun bucket => bucket.rows.length).sum
  | opaqueRef .. => 0
  | untouched _ => 0

def wasCompacted : Compaction → Bool
  | untouched _ => false
  | _ => true

/-- The name of the kind of a compaction. -/
def kindStr : Compaction → String
  | table .. => "table"
  | buckets .. => "buckets"
  | opaqueRef .. => "ccr"
  | untouched _ => "untouched"

/-- The rows of a compaction, those of all buckets one after the other. -/
def allRows : Compaction → List Row
  | table _ rows _ => rows
  | buckets _ parts _ => parts.flatMap Bucket.rows
  | opaqueRef .. => []
  | untouched _ => []

end Compaction

end Headroom.SmartCrusher
