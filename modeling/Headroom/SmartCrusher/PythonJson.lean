import Headroom.Foundation.Json

/-!
# JSON as Python writes it

Values are written as `json.dumps` writes them: with blanks behind the separators or without, with the
keys of an object sorted or as they come, and with text beyond ASCII escaped or not.
-/

open Foundation

namespace Headroom.SmartCrusher

/-- How values are written. -/
structure JsonFmt where
  sortKeys : Bool
  compact : Bool
  ensureAscii : Bool

/-- Four hexadecimal digits. -/
def hex4 (n : ℕ) : List Char :=
  [Nat.digitChar (n / 4096 % 16), Nat.digitChar (n / 256 % 16), Nat.digitChar (n / 16 % 16),
    Nat.digitChar (n % 16)]

/-- One character of a string. -/
def writePythonChar (ensureAscii : Bool) (c : Char) : List Char :=
  if c = '"' ∨ c = '\\' ∨ c.toNat < 32 then Json.escapeChar c
  else if c.toNat ≤ 0x7E ∨ ensureAscii = false then [c]
  else if c.toNat ≤ 0xFFFF then '\\' :: 'u' :: hex4 c.toNat
  else
    -- a surrogate pair
    let cp := c.toNat - 0x10000
    '\\' :: 'u' :: hex4 (0xD800 + cp / 1024) ++ '\\' :: 'u' :: hex4 (0xDC00 + cp % 1024)

def writePythonJsonString (ensureAscii : Bool) (s : String) : List Char :=
  '"' :: s.toList.flatMap (writePythonChar ensureAscii) ++ ['"']

/-- A value whose keys are in the order in which they are written. -/
def writePythonJson (fmt : JsonFmt) : Json → List Char
  | .null => "null".toList
  | .bool true => "true".toList
  | .bool false => "false".toList
  | .num literal => literal.toList
  | .str s => writePythonJsonString fmt.ensureAscii s
  | .arr items => '[' :: writeItems true items ++ [']']
  | .obj fields => '\x7b' :: writeFields true fields ++ ['\x7d']
where
  /-- The items of an array, each after the first behind a separator. -/
  writeItems : Bool → List Json → List Char
    | _, [] => []
    | first, j :: js =>
      (if first then [] else if fmt.compact then [','] else [',', ' ']) ++
        writePythonJson fmt j ++ writeItems false js
  /-- The fields of an object, each after the first behind a separator. -/
  writeFields : Bool → List (String × Json) → List Char
    | _, [] => []
    | first, (k, j) :: fs =>
      (if first then [] else if fmt.compact then [','] else [',', ' ']) ++
        writePythonJsonString fmt.ensureAscii k ++ (if fmt.compact then [':'] else [':', ' ']) ++
        writePythonJson fmt j ++ writeFields false fs

/-- A value as text; sorted keys are sorted in every object. -/
def writePython (fmt : JsonFmt) (value : Json) : String :=
  String.ofList (writePythonJson fmt (if fmt.sortKeys then value.norm else value))

def pythonJsonDumpsSortKeys : Json → String := writePython ⟨true, false, true⟩

theorem pythonJsonDumpsSortKeys_congr {a b : Json} (h : Json.SameValue a b) :
    pythonJsonDumpsSortKeys a = pythonJsonDumpsSortKeys b := by
  have hnorm : a.norm = b.norm := h
  simp only [pythonJsonDumpsSortKeys, writePython, if_true, hnorm]

end Headroom.SmartCrusher
