import Headroom.Transforms.LosslessCompaction

/-!
# Lossless compaction by kind of content

Rows with a path fold under a heading, a file, a directory or the parent of a listed path. Each kind of content has
folds of its own; a candidate is taken only if the inverses of its fold give the content back and it is shorter.
-/

open Foundation

namespace Headroom.Transforms

/-! ### Patterns -/

/-- What may be left of a text behind a match at its front. -/
abbrev Pattern := List Char → List (List Char)

namespace Pattern

def one (p : Char → Bool) : Pattern
  | [] => []
  | c :: text => if p c then [text] else []

def many (p : Char → Bool) : Pattern
  | [] => [[]]
  | c :: text => (c :: text) :: if p c then many p text else []

def word (s : String) : Pattern := fun text => if s.toList.isPrefixOf text then [text.drop s.length] else []

def atEnd : Pattern := fun text => if text = [] then [[]] else []

def seq (ps : List Pattern) : Pattern := fun text => ps.foldl (fun texts p => texts.flatMap p) [text]

def alt (ps : List Pattern) : Pattern := fun text => ps.flatMap fun p => p text

def opt (p : Pattern) : Pattern := fun text => text :: p text

/-- From so many up to so many. -/
def upTo (p : Char → Bool) (least : ℕ) : ℕ → Pattern
  | 0 => seq (List.replicate least (one p))
  | more + 1 => alt [upTo p least more, seq (List.replicate (least + more + 1) (one p))]

end Pattern

open Pattern

/-- Whether a line starts with a timestamp. -/
def isTimestampRow (line : Line) : Bool :=
  let digit := Text.isDecimalDigit
  let space := Text.isWhitespace
  let clock := [upTo digit 1 1, word ":", upTo digit 2 0]
  let tOrSpace := one (· ∈ ['T', ' '])
  let date := [upTo digit 4 0, word "-", upTo digit 2 0, word "-", upTo digit 2 0, tOrSpace] ++ clock
  let slashed := [upTo digit 2 0, word "/", upTo digit 2 0, word "/", upTo digit 2 2, tOrSpace] ++ clock
  let syslog := [one (fun c => 'A' ≤ c && c ≤ 'Z'), upTo (fun c => 'a' ≤ c && c ≤ 'z') 2 0, one space, many space,
    upTo digit 1 1, one space, many space] ++ clock
  let bare := clock ++ [word ":", upTo digit 2 0, opt (seq [one (· ∈ ['.', ',']), one digit, many digit]),
    alt [one space, word "]", atEnd]]
  (seq [many space, opt (word "["), alt [seq date, seq slashed, seq syslog, seq bare]] line) ≠ []

/-- The path, the number and the rest of a grep row. -/
def grepRow? (line : Line) : Option (Line × Line × Line) :=
  let path := line.takeWhile (· ≠ ':')
  let rest := line.drop (path.length + 1)
  let number := rest.takeWhile Text.isDecimalDigit
  if path ≠ [] ∧ path.length < line.length ∧ number ≠ [] ∧ rest[number.length]? = some ':' then
    some (path, number, rest.drop (number.length + 1))
  else none

/-- The number and the rest of a row under a file. -/
def headingRow? (row : Line) : Option (Line × Line) :=
  let number := row.takeWhile Text.isDecimalDigit
  if number ≠ [] ∧ row[number.length]? = some ':' then some (number, row.drop (number.length + 1)) else none

/-- A row under a directory. -/
def isDirData (line : Line) : Bool :=
  match grepRow? line with
  | some (base, _, _) => '/' ∉ base
  | none => false

/-- Segments that are not empty, each ended by a slash. -/
def segmentsOk (text : List Char) : Bool :=
  let segments := text.splitOn '/'
  2 ≤ segments.length && segments.getLast? = some [] && segments.dropLast.all (· ≠ [])

/-- The text up to and with the last slash, and what is behind it. -/
def cutAtSlash (line : Line) : Line × Line :=
  let base := (line.reverse.takeWhile (· ≠ '/')).reverse
  (line.take (line.length - base.length), base)

/-- The directory and the base of a line that is a path. -/
def pathRow? (line : Line) : Option (Line × Line) :=
  let (dir, base) := cutAtSlash line
  let rooted := ["", "/", "./", "../"].any fun root =>
    root.toList.isPrefixOf dir && segmentsOk (dir.drop root.length)
  if base ≠ [] ∧ rooted ∧ line.all (fun c => !Text.isWhitespace c && c ≠ ':') then some (dir, base) else none

/-- A line of a diff that only names blobs. -/
def isDiffIndex (line : Line) : Bool :=
  let hex := fun c : Char => c.isDigit || ('a' ≤ c && c ≤ 'f') || ('A' ≤ c && c ≤ 'F')
  let octal := fun c : Char => '0' ≤ c && c ≤ '7'
  (seq [word "index ", one hex, many hex, word "..", one hex, many hex,
    opt (seq [word " ", one octal, many octal]), atEnd] line) ≠ []

/-- The length of a color sequence at the front of a text, less one. -/
def ansi? (text : List Char) : Option ℕ :=
  if ['\x1b', '['].isPrefixOf text then
    let parameters := (text.drop 2).takeWhile fun c => c.isDigit || c = ';'
    if text[parameters.length + 2]? = some 'm' then some (parameters.length + 2) else none
  else none

/-- The text without its color sequences, after a number of characters that are left out. -/
def stripAnsiFrom : ℕ → List Char → List Char
  | _, [] => []
  | skip + 1, _ :: text => stripAnsiFrom skip text
  | 0, c :: text =>
    match ansi? (c :: text) with
    | some n => stripAnsiFrom n text
    | none => c :: stripAnsiFrom 0 text

def stripAnsi (text : List Char) : List Char := stripAnsiFrom 0 text

/-! ### Headings -/

/-- The rows under their headings; a heading stands once for the rows in a row that share it. -/
def headLines (row? : Line → Option (Line × Line)) : Option Line → List Line → List Line
  | _, [] => []
  | current, line :: lines =>
    match row? line with
    | some (heading, row) =>
      (if current = some heading then [row] else [heading, row]) ++ headLines row? (some heading) lines
    | none => line :: headLines row? none lines

/-- The rows with their headings put back. -/
def unheadLines (isData isHeader : Line → Bool) (glue : Line → Line → Line) : Option Line → List Line → List Line
  | _, [] => []
  | current, line :: lines =>
    match current, isData line with
    | some heading, true => glue heading line :: unheadLines isData isHeader glue (some heading) lines
    | _, _ =>
      if isHeader line ∧ lines.head?.any isData then unheadLines isData isHeader glue (some line) lines
      else line :: unheadLines isData isHeader glue none lines

/-- A function of lines on a text. -/
def onLines (f : List Line → List Line) (text : List Char) : List Char :=
  let (lines, hadTrailing) := splitKeepTrailing text
  if lines = [] then text else join (f lines) hadTrailing

/-- A grep row that is no row of a log. -/
def searchRow? (line : Line) : Option (Line × Line × Line) := if isTimestampRow line then none else grepRow? line

def searchHeadingLines : List Line → List Line :=
  headLines (fun line => (searchRow? line).map fun (path, number, content) => (path, number ++ ':' :: content)) none

def searchUnheadingLines : List Line → List Line :=
  unheadLines (fun line => (headingRow? line).isSome) (fun line => (headingRow? line).isNone)
    (fun path line =>
      match headingRow? line with
      | some (number, content) => path ++ ':' :: (number ++ ':' :: content)
      | none => line)
    none

def searchDirHeadingLines : List Line → List Line :=
  headLines (fun line =>
    (searchRow? line).bind fun (path, number, content) =>
      if '/' ∈ path then
        let (dir, base) := cutAtSlash path
        some (dir, base ++ ':' :: (number ++ ':' :: content))
      else none)
    none

def searchDirUnheadingLines : List Line → List Line :=
  unheadLines isDirData (fun line => line.getLast? = some '/') (fun dir line => dir ++ line) none

def pathHeadingLines : List Line → List Line := headLines pathRow? none

def pathUnheadingLines : List Line → List Line :=
  unheadLines (fun line => line ≠ [] ∧ '/' ∉ line) (fun line => line.getLast? = some '/')
    (fun dir line => dir ++ line) none

def searchHeading : List Char → List Char := onLines searchHeadingLines
def searchUnheading : List Char → List Char := onLines searchUnheadingLines
def searchDirHeading : List Char → List Char := onLines searchDirHeadingLines
def searchDirUnheading : List Char → List Char := onLines searchDirUnheadingLines
def pathUnheading : List Char → List Char := onLines pathUnheadingLines

def pathHeading (text : List Char) : List Char :=
  if ((splitKeepTrailing text).1.filter fun line => (pathRow? line).isSome).length < 2 then text
  else onLines pathHeadingLines text

def diffStripIndex : List Char → List Char := onLines fun lines => lines.filter fun line => !isDiffIndex line

/-! ### The dispatch -/

/-- A candidate that was verified, if it is shorter than the content. -/
def keepShorter (candidate content : List Char) : List Char :=
  if Text.utf8Length candidate < Text.utf8Length content then candidate else content

def compactLossless (env : Option String) (content : List Char) (kind : String) : List Char :=
  if content = [] then content
  else if !enabledForValue env then content
  else
    match kind with
    | "log" =>
      let baseline := stripAnsi content
      let candidate := collapseRuns baseline
      if expandRuns candidate ≠ baseline then content else keepShorter candidate content
    | "search" =>
      [(searchHeading content, searchUnheading), (searchDirHeading content, searchDirUnheading)].foldl
        (fun best (candidate, inverse) =>
          if inverse candidate = content ∧ Text.utf8Length candidate < Text.utf8Length best then candidate else best)
        content
    | "paths" =>
      let candidate := pathHeading content
      if pathUnheading candidate ≠ content then content else keepShorter candidate content
    | "config" => foldConfig content
    | "diff" => keepShorter (diffStripIndex content) content
    | "text" =>
      let candidate := collapseRuns content
      if expandRuns candidate ≠ content then content else keepShorter candidate content
    | _ => content

/-- A candidate, the inverses that are run on it one after the other, and what they have to give. -/
structure Check where
  candidate : List Char
  inverses : List (List Line → List Line)
  baseline : List Char

namespace Check

/-- The texts that the inverses are run on, with the inverses. -/
def runs (c : Check) : List ((List Line → List Line) × List Char) :=
  (c.inverses.foldl (fun (text, runs) f => (onLines f text, runs ++ [(f, text)])) (c.candidate, [])).2

/-- What the inverses give. -/
def restored (c : Check) : List Char := c.inverses.foldl (fun text f => onLines f text) c.candidate

end Check

def unfoldLines (lines : List Line) : List Line := lines.foldl unfoldLine []

/-- The checks at a kind of content that is not empty. -/
def checks (content : List Char) (kind : String) : List Check :=
  match kind with
  | "log" => [⟨collapseRuns (stripAnsi content), [expandLines], stripAnsi content⟩]
  | "search" =>
    [⟨searchHeading content, [searchUnheadingLines], content⟩,
      ⟨searchDirHeading content, [searchDirUnheadingLines], content⟩]
  | "paths" => [⟨pathHeading content, [pathUnheadingLines], content⟩]
  | "config" => [⟨foldRepeatedBlocks (collapseRuns content), [unfoldLines, expandLines], content⟩]
  | "text" => [⟨collapseRuns content, [expandLines], content⟩]
  | _ => []

/-- The candidate of a check, if it is verified and shorter. -/
def Check.pick (best : List Char) (c : Check) : List Char :=
  if c.restored = c.baseline ∧ Text.utf8Length c.candidate < Text.utf8Length best then c.candidate else best

/-- The content, or something shorter: a diff without its blob lines, or a candidate that its inverses verify. -/
def Compacted (content : List Char) (kind : String) (text : List Char) : Prop :=
  text = content ∨ Text.utf8Length text < Text.utf8Length content ∧
    (kind = "diff" ∧ text = diffStripIndex content ∨
      ∃ c ∈ checks content kind, text = c.candidate ∧ c.restored = c.baseline)

theorem Compacted.pick {content best : List Char} {kind : String} {c : Check} (h : Compacted content kind best)
    (hc : c ∈ checks content kind) : Compacted content kind (c.pick best) := by
  rw [Check.pick]
  split_ifs with hpick
  · refine Or.inr ⟨?_, Or.inr ⟨c, hc, rfl, hpick.1⟩⟩
    rcases h with rfl | ⟨hlt, -⟩
    · exact hpick.2
    · exact hpick.2.trans hlt
  · exact h

example : compactLossless none "a/b:1:x\na/b:2:y\na/b:3:z".toList "search" = "a/b\n1:x\n2:y\n3:z".toList := by
  decide +kernel

end Headroom.Transforms
