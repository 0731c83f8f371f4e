import Headroom.Foundation.Json
import Headroom.Foundation.Text

/-!
# Client scaffolding

The one definition of the ephemeral `<system-reminder>` scaffolding a client attaches to its own
history and withdraws again.
-/

open Foundation

namespace Headroom.PrefixReplay

/-- The opening tag of a reminder. -/
def systemReminderOpenTag : List Char := "<system-reminder>".toList

/-- The closing tag of a reminder. -/
def systemReminderCloseTag : List Char := "</system-reminder>".toList

/-- Whether a text starts with a reminder. -/
def isEphemeralClientText (text : String) : Bool :=
  systemReminderOpenTag.isPrefixOf (Text.trimStart text.toList)

/-- Whether a block has type `text`. -/
def isTextBlock (block : Json) : Bool := block.getStr? "type" == some "text"

/-- Whether a block is a text block that starts with a reminder. -/
def isEphemeralClientBlock (block : Json) : Bool :=
  isTextBlock block && (block.getStr? "text").any isEphemeralClientText

/-- The spans of a text in order and the pieces between them; `fuel` bounds the number of spans.
A span that never closes stays in the text. -/
def liftSpans : ℕ → List Char → List Char × List (List Char)
  | 0, rest => (rest, [])
  | fuel + 1, rest =>
    match Text.find? systemReminderOpenTag rest with
    | none => (rest, [])
    | some openAt =>
      match Text.find? systemReminderCloseTag (rest.drop openAt) with
      | none => (rest, [])
      | some close =>
        let stop := openAt + close + systemReminderCloseTag.length
        let tail := liftSpans fuel (rest.drop stop)
        (rest.take openAt ++ tail.1, (rest.take stop).drop openAt :: tail.2)

/-- Lift every reminder span out of a text. The rest is trimmed when a span was lifted. -/
def splitEphemeralSpans (text : List Char) : List Char × List (List Char) :=
  let (kept, spans) := liftSpans text.length text
  if spans.isEmpty then (kept, spans) else (Text.trim kept, spans)

/-- Whether a block is a text block with a reminder tag anywhere in it. -/
def blockCarriesEphemeralSpan (block : Json) : Bool :=
  isTextBlock block &&
    (block.getStr? "text").any fun t => Text.contains systemReminderOpenTag t.toList

/-- The prose of a text and the spans that trail it; `none` when a span sits in the middle. -/
def splitTrailingEphemeralSpans (text : List Char) : Option (List Char × List (List Char)) :=
  match Text.find? systemReminderOpenTag text with
  | none => none
  | some firstOpen =>
    let (leftover, spans) := splitEphemeralSpans (text.drop firstOpen)
    if spans.isEmpty || !leftover.isEmpty then none
    else some (Text.trimEnd (text.take firstOpen), spans)

/-- What remains of a block without its trailing spans (`none` when nothing does), and the spans.
The outer `none` means that the block must not be touched. -/
def takeTrailingEphemeralSpans (block : Json) : Option (Option Json × List (List Char)) :=
  if !blockCarriesEphemeralSpan block then none
  else
    match block.getStr? "text" with
    | none => none
    | some text =>
      match splitTrailingEphemeralSpans text.toList with
      | none => none
      | some (prose, spans) =>
        if prose.isEmpty then some (none, spans)
        else some (some (block.insert "text" (.str (String.ofList prose))), spans)

/-- Whether a message is nothing but scaffolding, without prose of its own. The words of the
assistant never are. -/
def isPureClientScaffolding (message : Json) : Bool :=
  if message.getStr? "role" = some "assistant" then false
  else
    match message.get? "content" with
    | some (.str text) =>
      match splitTrailingEphemeralSpans text.toList with
      | some (prose, _) => prose.isEmpty
      | none => false
    | some (.arr blocks) =>
      !blocks.isEmpty && blocks.all fun block =>
        match takeTrailingEphemeralSpans block with
        | some (none, _) => true
        | _ => false
    | _ => false

/-- Whether the message at `index` is scaffolding rather than conversation: a `system` message
anywhere but first, or a message that is scaffolding by its text. -/
def isClientScaffoldingMessage (index : ℕ) (message : Json) : Bool :=
  (0 < index && message.getStr? "role" == some "system") || isPureClientScaffolding message

/-! ### The fuel of `liftSpans` -/

theorem liftSpans_of_length_le {fuel : ℕ} {rest : List Char} (h : rest.length ≤ fuel) :
    liftSpans fuel rest = liftSpans rest.length rest := by
  have stable : ∀ fuel fuel' : ℕ, ∀ rest : List Char, rest.length ≤ fuel → rest.length ≤ fuel' →
      liftSpans fuel rest = liftSpans fuel' rest := by
    intro fuel
    induction fuel with
    | zero =>
      intro fuel' rest hz _
      obtain rfl : rest = [] := List.length_eq_zero_iff.mp (Nat.le_zero.mp hz)
      cases fuel' with
      | zero => rfl
      | succ n => rfl
    | succ fuel ih =>
      intro fuel' rest hf hf'
      cases fuel' with
      | zero =>
        obtain rfl : rest = [] := List.length_eq_zero_iff.mp (Nat.le_zero.mp hf')
        rfl
      | succ fuel' =>
        rw [liftSpans, liftSpans]
        cases hopen : Text.find? systemReminderOpenTag rest with
        | none => rfl
        | some i =>
          dsimp only
          cases hclose : Text.find? systemReminderCloseTag (rest.drop i) with
          | none => rfl
          | some j =>
            have hpos : 0 < systemReminderCloseTag.length := by decide
            have hlen := List.length_drop (i := i + j + systemReminderCloseTag.length) (l := rest)
            dsimp only
            rw [ih fuel' (rest.drop (i + j + systemReminderCloseTag.length))
              (by omega) (by omega)]
  exact stable fuel rest.length rest h le_rfl

end Headroom.PrefixReplay
