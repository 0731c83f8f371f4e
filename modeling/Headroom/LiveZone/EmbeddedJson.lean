import Headroom.Foundation.Brackets
import Headroom.Foundation.Bytes
import Headroom.Foundation.Json
import Headroom.Foundation.Text

/-!
# JSON in a larger text

A text that is no JSON may hold some. The containers in it are found at any offset, each one that holds an
array of objects is crushed, and the results are put back in their places. The search has a budget, so that
brackets that never close cannot make it quadratic.
-/

open Foundation

namespace Headroom.LiveZone.EmbeddedJson

/-- The bytes that the search may read, as a multiple of the length of the text. -/
def SCAN_BUDGET_FACTOR : ℕ := 16

/-! ### One container -/

/-- The open brackets, the innermost first, and whether the scanner is in a string or behind a backslash. -/
structure SpanScan where
  stack : Bytes := []
  inStr : Bool := false
  esc : Bool := false

namespace SpanScan

/-- A byte of a string. -/
def inString (s : SpanScan) (ch : UInt8) : SpanScan :=
  if s.esc then { s with esc := false }
  else if ch = 92 then { s with esc := true }
  else if ch = 34 then { s with inStr := false }
  else s

end SpanScan

/-- One more byte was read. -/
def counted (found : Option ℕ × ℕ) : Option ℕ × ℕ := (found.1.map (· + 1), found.2 + 1)

/-- Where the outermost open container ends, if it does, and how many bytes were read. -/
def matchSpanFrom : SpanScan → Bytes → Option ℕ × ℕ
  | _, [] => (none, 0)
  | s, ch :: rest =>
    if s.inStr then counted (matchSpanFrom (s.inString ch) rest)
    else if ch = 34 then counted (matchSpanFrom { s with inStr := true } rest)
    else if ch = 91 ∨ ch = 123 then counted (matchSpanFrom { s with stack := ch :: s.stack } rest)
    else if ch = 93 ∨ ch = 125 then
      if s.stack.head? ≠ some (if ch = 93 then 91 else 123) then (none, 1)
      else if s.stack.tail = [] then (some 1, 1)
      else counted (matchSpanFrom { s with stack := s.stack.tail } rest)
    else counted (matchSpanFrom s rest)

def matchSpan (bytes : Bytes) (start : ℕ) : Option ℕ × ℕ :=
  ((matchSpanFrom {} (bytes.drop start)).1.map (start + ·), (matchSpanFrom {} (bytes.drop start)).2)

/-! ### All containers -/

/-- The containers that were found, how many bytes were read for them, and whether the budget ended the search. -/
structure SpanRun where
  ranges : List (ℕ × ℕ) := []
  read : ℕ := 0
  exhausted : Bool := false

namespace SpanRun

/-- What came before the rest of a run. -/
def behind (run : SpanRun) (found : List (ℕ × ℕ)) (read : ℕ) : SpanRun :=
  { run with ranges := found ++ run.ranges, read := read + run.read }

end SpanRun

/-- The containers from an offset on, for so many rounds. -/
def scanSpans (bytes : Bytes) : ℕ → ℕ → ℕ → SpanRun
  | 0, _, _ => {}
  | rounds + 1, i, budget =>
    match bytes[i]? with
    | none => {}
    | some ch =>
      if ch = 91 ∨ ch = 123 then
        let read := (matchSpan bytes i).2
        match (matchSpan bytes i).1 with
        | some stop => (scanSpans bytes rounds stop (budget - read)).behind [(i, stop)] read
        | none =>
          if budget - read = 0 then { read := read, exhausted := true }
          else (scanSpans bytes rounds (i + 1) (budget - read)).behind [] read
      else scanSpans bytes rounds (i + 1) budget

/-- A product, or the greatest word if that is less. -/
def saturatingMul (a b : ℕ) : ℕ := min (a * b) (2 ^ 64 - 1)

def spans (text : String) : SpanRun :=
  scanSpans (utf8 text) (utf8 text).length 0 (saturatingMul (utf8 text).length SCAN_BUDGET_FACTOR)

/-! ### Routing -/

/-- Whether a value holds an array of at least two items, four fifths of them objects. -/
def walk : Json → Bool
  | .arr items =>
    let objects := (items.filter Json.isObj).length
    (2 ≤ items.length && items.length * 4 ≤ objects * 5) || walkItems items
  | .obj fields => walkFields fields
  | _ => false
where
  /-- `walk` on the items of an array. -/
  walkItems : List Json → Bool
    | [] => false
    | j :: js => walk j || walkItems js
  /-- `walk` on the values of an object. -/
  walkFields : List (String × Json) → Bool
    | [] => false
    | (_, j) :: fs => walk j || walkFields fs

/-- What a crusher made of a text. -/
structure Crushed where
  compressed : String
  wasModified : Bool

section Routing

variable {σ : Type} (read : String → Option Json) (crush : String → σ → Crushed × σ)

def hasRoutableJson (span : String) : Bool := (read span).any walk

/-- `text[start..stop]`, which must be between characters. -/
def subtext (text : String) (start stop : ℕ) : Option String :=
  fromUtf8? (((utf8 text).drop start).take (stop - start))

/-- The ranges that are replaced, each with what takes its place. -/
def replacements (text : String) : List (ℕ × ℕ) → σ → Option (List ((ℕ × ℕ) × String) × σ)
  | [], s => some ([], s)
  | (a, b) :: ranges, s => do
    let chunk ← subtext text a b
    if Text.contains "<<ccr:".toList chunk.toList || !hasRoutableJson read chunk then
      replacements text ranges s
    else
      let (crushed, s) := crush chunk s
      let (repls, s) ← replacements text ranges s
      if crushed.wasModified && (utf8 crushed.compressed).length < (utf8 chunk).length then
        return (((a, b), crushed.compressed) :: repls, s)
      else return (repls, s)

/-- The text from an offset on, with its replacements. -/
def spliced (text : String) : ℕ → List ((ℕ × ℕ) × String) → Option String
  | last, [] => subtext text last (utf8 text).length
  | last, ((a, b), replacement) :: repls => do
    let front ← subtext text last a
    let back ← spliced text b repls
    return front ++ replacement ++ back

/-- A text with its containers crushed, if that made it shorter. -/
def routeEmbeddedJson (text : String) (s : σ) : Option (Option String × σ) := do
  let (repls, s) ← replacements read crush text (spans text).ranges s
  if repls = [] then return (none, s)
  else
    let out ← spliced text 0 repls
    return (if (utf8 out).length < (utf8 text).length then some out else none, s)

end Routing

end Headroom.LiveZone.EmbeddedJson
