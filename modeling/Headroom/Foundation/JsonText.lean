import Headroom.Foundation.Bytes
import Headroom.Foundation.Json
import Headroom.Foundation.Text

/-!
# Values as text

JSON is read and written by a library. What is known of it is stated for the values that are written:
they come out as text on one line, and are read back as themselves.
-/

namespace Foundation

/-- How values are written as text, and text is read as a value. -/
structure JsonText where
  write : Json → String
  read : String → Option Json

namespace JsonText

variable (text : JsonText)

/-- A value as bytes. -/
def toVec (value : Json) : Bytes := utf8 (text.write value)

/-- The value of some bytes. -/
def fromSlice (bytes : Bytes) : Option Json := (fromUtf8? bytes).bind text.read

/-- A value is written on one line, not blank, and read back as itself. -/
structure Writes (value : Json) : Prop where
  read_write : text.read (text.write value) = some value
  lf_not_mem : lf ∉ text.toVec value
  cr_not_mem : cr ∉ text.toVec value
  not_blank : Text.trim (text.write value).toList ≠ []

instance (value : Json) : Decidable (text.Writes value) :=
  decidable_of_iff (text.read (text.write value) = some value ∧ lf ∉ text.toVec value ∧
      cr ∉ text.toVec value ∧ Text.trim (text.write value).toList ≠ [])
    ⟨fun ⟨h, hlf, hcr, hblank⟩ => ⟨h, hlf, hcr, hblank⟩,
      fun ⟨h, hlf, hcr, hblank⟩ => ⟨h, hlf, hcr, hblank⟩⟩

variable {text}

end JsonText

end Foundation
