import Headroom.Transforms.CrossTurnDedup

/-!
# Lossless folds of structured text

Repeated lines and repeated blocks of lines fold into markers that say what stood there. A fold is
taken only when unfolding gives the text back and the text gets shorter; a switch in the environment
turns all folds off.
-/

open Foundation

namespace Headroom.Transforms

def FOLD_MIN_BLOCK : ℕ := 3
def FOLD_MAX_BLOCK : ℕ := 64
def FOLD_MAX_CANDIDATES : ℕ := 8
def FOLD_MAX_LINES : ℕ := 20000

/-! ### Lines and markers -/

/-- The lines of a text, and whether the last one is ended. -/
def splitKeepTrailing (text : List Char) : List Line × Bool :=
  if text = [] then ([], false)
  else if text.getLast? = some '\n' then (text.dropLast.splitOn '\n', true)
  else (text.splitOn '\n', false)

/-- The text of lines. -/
def join (lines : List Line) (hadTrailing : Bool) : List Char :=
  joinLines lines ++ if hadTrailing then ['\n'] else []

/-- The number that ASCII digits write, when a machine word holds it. -/
def parseUsize? (digits : List Char) : Option ℕ :=
  if digits ≠ [] ∧ digits.all Char.isDigit ∧ Nat.ofDigitChars 10 digits 0 < 2 ^ 64 then
    some (Nat.ofDigitChars 10 digits 0)
  else none

/-- The digits at the front of a line after a prefix, and the rest. -/
def digitsAfter? (before : String) (line : Line) : Option (List Char × Line) :=
  if before.toList.isPrefixOf line then
    let rest := line.drop before.length
    let digits := rest.takeWhile Text.isDecimalDigit
    if digits = [] then none else some (digits, rest.drop digits.length)
  else none

def runMarker (count : ℕ) : Line := s!"... (repeated {count} times)".toList

/-- The digits of a run marker. -/
def runMarker? (line : Line) : Option (List Char) :=
  match digitsAfter? "... (repeated " line with
  | some (digits, rest) => if rest = " times)".toList then some digits else none
  | none => none

def blockMarker (len dist : ℕ) : Line := s!"... (repeats {len} lines from {dist} lines back)".toList

/-- The digits of a block marker: the length of the block and how far back it stood. -/
def blockMarker? (line : Line) : Option (List Char × List Char) :=
  match digitsAfter? "... (repeats " line with
  | some (len, rest) =>
    match digitsAfter? " lines from " rest with
    | some (dist, rest) => if rest = " lines back)".toList then some (len, dist) else none
    | none => none
  | none => none

/-! ### Runs of one line -/

/-- The runs of equal lines, with their lengths. -/
def lineRuns : List Line → List (Line × ℕ)
  | [] => []
  | line :: rest =>
    match lineRuns rest with
    | [] => [(line, 1)]
    | (l, n) :: more => if l = line then (l, n + 1) :: more else (line, 1) :: (l, n) :: more

def collapseRuns (text : List Char) : List Char :=
  let (lines, hadTrailing) := splitKeepTrailing text
  if lines = [] then text
  else
    let out := (lineRuns lines).flatMap fun (line, n) => if 2 ≤ n then [line, runMarker n] else [line]
    join out hadTrailing

/-- The lines with every run marker replaced by copies of the line before it. -/
def expandLines : List Line → List Line
  | [] => []
  | [line] => [line]
  | line :: next :: rest =>
    match (runMarker? next).bind parseUsize? with
    | some count => List.replicate count line ++ expandLines rest
    | none => line :: expandLines (next :: rest)

def expandRuns (text : List Char) : List Char :=
  let (lines, hadTrailing) := splitKeepTrailing text
  if lines = [] then text else join (expandLines lines) hadTrailing

/-! ### Repeated blocks -/

/-- The places where a line stood lately, the oldest first. -/
abbrev Positions := Line → List ℕ

def rememberPosition (positions : Positions) (line : Line) (index : ℕ) : Positions :=
  let bucket := positions line ++ [index]
  Function.update positions line (if FOLD_MAX_CANDIDATES < bucket.length then bucket.drop 1 else bucket)

/-- Remember the lines of a block that starts at an index. -/
def rememberBlock (positions : Positions) (block : List Line) (index : ℕ) : Positions :=
  (block.zipIdx index).foldl (fun positions (line, i) => rememberPosition positions line i) positions

/-- How many lines two lists have in common at their fronts, at most so many. -/
def matchLength : ℕ → List Line → List Line → ℕ
  | n + 1, a :: as, b :: bs => if a = b then matchLength n as bs + 1 else 0
  | _, _, _ => 0

/-- The longest block from a line on that an earlier place shows, and how far back that is. -/
def bestAnchor (lines : List Line) (positions : Positions) (i : ℕ) (line : Line) : ℕ × ℕ :=
  (positions line).reverse.foldl (fun best q =>
    let maxLen := min (min FOLD_MAX_BLOCK (lines.length - i)) (i - q)
    let len := matchLength maxLen (lines.drop q) (lines.drop i)
    if best.1 < len then (len, i - q) else best) (0, 0)

/-- The folded lines from an index on, for as many rounds as there are lines. -/
def foldFrom (lines : List Line) : ℕ → ℕ → Positions → List Line
  | 0, _, _ => []
  | fuel + 1, i, positions =>
    match lines[i]? with
    | none => []
    | some line =>
      let (bestLen, bestDist) := bestAnchor lines positions i line
      let marker := blockMarker bestLen bestDist
      let block := (lines.drop i).take bestLen
      let blockChars := (block.map fun l => Text.utf8Length l + 1).sum
      if FOLD_MIN_BLOCK ≤ bestLen ∧ Text.utf8Length marker + 1 < blockChars then
        marker :: foldFrom lines fuel (i + bestLen) (rememberBlock positions block i)
      else line :: foldFrom lines fuel (i + 1) (rememberPosition positions line i)

def foldRepeatedBlocks (text : List Char) : List Char :=
  let (lines, hadTrailing) := splitKeepTrailing text
  let n := lines.length
  if ¬(FOLD_MIN_BLOCK * 2 ≤ n ∧ n ≤ FOLD_MAX_LINES) then text
  else join (foldFrom lines n 0 fun _ => []) hadTrailing

/-- One line unfolded after the lines already put back. -/
def unfoldLine (out : List Line) (line : Line) : List Line :=
  match blockMarker? line with
  | some (len, dist) =>
    let len := (parseUsize? len).getD 0
    let dist := (parseUsize? dist).getD 0
    -- a marker that reaches before the text or into itself is text like any other
    if dist ≤ out.length ∧ len ≤ dist then out ++ (out.drop (out.length - dist)).take len
    else out ++ [line]
  | none => out ++ [line]

def unfoldRepeatedBlocks (text : List Char) : List Char :=
  let (lines, hadTrailing) := splitKeepTrailing text
  if lines = [] then text else join (lines.foldl unfoldLine []) hadTrailing

/-! ### The switch and the fold of configuration files -/

/-- Whether a value of the environment variable `HEADROOM_LOSSLESS_COMPACTION` leaves the folds on. -/
def enabledForValue : Option String → Bool
  | none => true
  | some v =>
    !(["0", "false", "no", "off"].map String.toList).contains ((Text.trim v.toList).map Char.toLower)

/-- The fold of a configuration file: runs first, then blocks. -/
def foldConfig (content : List Char) : List Char :=
  let candidate := foldRepeatedBlocks (collapseRuns content)
  if expandRuns (unfoldRepeatedBlocks candidate) ≠ content then content
  else if Text.utf8Length candidate < Text.utf8Length content then candidate
  else content

/-- `compact_lossless` at the kind `config`, with the value of the environment variable. -/
def compactConfig (env : Option String) (content : List Char) : List Char :=
  if content = [] then content
  else if !enabledForValue env then content
  else foldConfig content

theorem compactConfig_of_disabled {env : Option String} (h : enabledForValue env = false)
    (content : List Char) : compactConfig env content = content := by
  rw [compactConfig, h, Bool.not_false, if_pos rfl, ite_self]

theorem compactConfig_of_enabled {env : Option String} (h : enabledForValue env = true)
    {content : List Char} (hne : content ≠ []) : compactConfig env content = foldConfig content := by
  rw [compactConfig, if_neg hne, h]
  rfl

end Headroom.Transforms
