import Headroom.SmartCrusher.Compaction.Compactor

/-!
# Markers in tables

What stands in a cell for a text that went to the store.
-/

open Foundation

namespace Headroom.SmartCrusher

/-- A quotient with one decimal, halves to even. -/
def oneDecimal (n d : ℕ) : List Char :=
  let tenths := 10 * n / d
  let rest := 10 * n % d
  let rounded := if d < 2 * rest ∨ (2 * rest = d ∧ tenths % 2 = 1) then tenths + 1 else tenths
  (toString (rounded / 10)).toList ++ '.' :: (toString (rounded % 10)).toList

def humanizeBytes (n : ℕ) : List Char :=
  if n < 1024 then (toString n).toList ++ ['B']
  else if n < 1024 * 1024 then oneDecimal n 1024 ++ ['K', 'B']
  else oneDecimal n (1024 * 1024) ++ ['M', 'B']

def formatCcrMarker (hash : String) (byteSize : ℕ) (kind : OpaqueKind) : List Char :=
  CCR_MARKER_PREFIX.toList ++ hash.toList ++ ',' :: kind.label.toList ++ ',' :: humanizeBytes byteSize ++
    ['>', '>']

end Headroom.SmartCrusher
