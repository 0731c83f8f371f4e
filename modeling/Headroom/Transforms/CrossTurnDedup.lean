import Mathlib.Data.List.AList
import Headroom.Foundation.Text

/-!
# Deduplication across turns

A span of lines that an earlier block has already shown is replaced by a pointer to that block. A
leading line number does not count for the comparison, as long as all numbers of the span are
shifted by the same amount; the pointer states the shift.
-/

open Foundation

namespace Headroom.Transforms

/-- A line of a text. -/
abbrev Line := List Char

def DEFAULT_MIN_LINES : ℕ := 3
def DEFAULT_MIN_CHARS : ℕ := 40

/-- How many places are remembered for a line. -/
def MAX_ANCHOR_CANDIDATES : ℕ := 16

/-- One tool output. A protected one is not rewritten. -/
structure DedupBlock where
  text : List Char
  turn : ℕ
  isProtected : Bool := false
  deriving DecidableEq

structure DedupStats where
  spansFolded : ℕ := 0
  linesRemoved : ℕ := 0
  charsRemoved : ℕ := 0
  blocks : ℕ := 0
  deriving DecidableEq

/-! ### Lines -/

def TRIVIAL_LINES : List String :=
  ["return", "pass", "else:", "try:", "except:", "finally:", "break", "continue", "\x7d);", "\x7d)", "],",
    "),", "\"\"\"", "'''", "..."]

/-- A line that is too common or too short to start a match. -/
def isTrivial (line : Line) : Bool :=
  let s := Text.trim line
  Text.utf8Length s < 4 || s ∈ TRIVIAL_LINES.map String.toList

/-- The line number, what a line is compared by, and its content. -/
def numAndKey (row : Line) : Option ℤ × Line × Line :=
  let digits := row.takeWhile Char.isDigit
  let i := digits.length
  if digits.head?.any (· ≠ '0') && i ≤ 18 && (row[i]? = some ':' || row[i]? = some '\t') then
    (some (Nat.ofDigitChars 10 digits 0), row.drop i, row.drop (i + 1))
  else (none, row, row)

/-- The line with its number shifted. -/
def shiftLine (delta : ℤ) (line : Line) : Line :=
  match numAndKey line with
  | (some n, key, _) => (toString (n + delta)).toList ++ key
  | (none, _, _) => line

/-! ### Pointers -/

/-- A text as a string literal of Python. -/
def pyRepr (s : List Char) : List Char :=
  let quote := if '\'' ∈ s ∧ '"' ∉ s then '"' else '\''
  let escape (c : Char) : List Char :=
    if c = '\\' then ['\\', '\\']
    else if c = '\n' then ['\\', 'n']
    else if c = '\r' then ['\\', 'r']
    else if c = '\t' then ['\\', 't']
    else if c = quote then ['\\', c]
    else [c]
  quote :: (s.flatMap escape ++ [quote])

/-- A number with its sign. -/
def signed (delta : ℤ) : List Char := (if 0 ≤ delta then ['+'] else []) ++ (toString delta).toList

/-- The start of the first line of a span that is not blank. -/
def anchorOf (span : List Line) : List Char :=
  let anchor := ((span.find? fun ln => Text.trim ln ≠ []).map fun ln =>
    Text.trim (numAndKey ln).2.2).getD []
  if 20 < anchor.length then anchor.take 17 ++ ['.', '.', '.'] else anchor

/-- What stands for a folded span. -/
def pointer (span : List Line) (refTurn : ℕ) (delta : ℤ) : Line :=
  ['[', '↑'] ++ (toString span.length).toList ++ "L same as msg ".toList ++ (toString refTurn).toList ++
    (if delta ≠ 0 then [' '] ++ signed delta ++ ['L'] else []) ++ [':', ' '] ++
      pyRepr (anchorOf span) ++ [']']

/-! ### Matching -/

/-- The places of the lines shown so far, by what they are compared by. -/
abbrev AnchorIndex := AList fun _ : Line => List (ℕ × ℕ)

/-- The lines of the outputs, without the folded ones. -/
abbrev Corpus := List (List (Option Line))

/-- One line remembered. -/
def indexLine (blockPos : ℕ) (anchorIndex : AnchorIndex) (entry : Option Line × ℕ) : AnchorIndex :=
  match entry with
  | (none, _) => anchorIndex
  | (some ln, li) =>
    let (_, key, content) := numAndKey ln
    if isTrivial content then anchorIndex
    else
      let bucket := (anchorIndex.lookup key).getD []
      anchorIndex.insert key
        (if bucket.length < MAX_ANCHOR_CANDIDATES then bucket ++ [(blockPos, li)] else bucket)

def indexLines (lines : List (Option Line)) (blockPos : ℕ) (anchorIndex : AnchorIndex) : AnchorIndex :=
  lines.zipIdx.foldl (indexLine blockPos) anchorIndex

/-- Whether a line agrees with one of an earlier block, and the shift of the numbers after it. -/
def extendLine (delta : Option ℤ) (ca cb : Line) : Option (Option ℤ) :=
  let (na, ka, _) := numAndKey ca
  let (nb, kb, _) := numAndKey cb
  if ka ≠ kb then none
  else
    match na, nb with
    | some na, some nb =>
      let d := na - nb
      match delta with
      | none => some (some d)
      -- An edit inside of the span ends it.
      | some prev => if prev ≠ d then none else some (some prev)
    | _, _ => if ca ≠ cb then none else some delta

/-- How many lines agree with those of an earlier block, and the shift of their numbers. -/
def extend (delta : Option ℤ) : List Line → List (Option Line) → ℕ × Option ℤ
  | ca :: cur, some cb :: blockLines =>
    match extendLine delta ca cb with
    | none => (0, delta)
    | some delta =>
      let (k, delta) := extend delta cur blockLines
      (k + 1, delta)
  | _, _ => (0, delta)

structure Match where
  len : ℕ
  blockPos : ℕ
  lineIdx : ℕ
  delta : ℤ
  deriving DecidableEq

/-- The better one of a match and a candidate; the earlier one of two that are as long. -/
def better (cur : List Line) (corpus : Corpus) (best : Match) (candidate : ℕ × ℕ) : Match :=
  let (bp, li) := candidate
  let (k, delta) := extend none cur ((corpus.getD bp []).drop li)
  if best.len < k then ⟨k, bp, li, delta.getD 0⟩ else best

/-- The longest run of lines, from the first one on, that a single earlier block shows. -/
def longestMatch (cur : List Line) (anchorIndex : AnchorIndex) (corpus : Corpus) : Option Match := do
  let line ← cur.head?
  let candidates ← anchorIndex.lookup (numAndKey line).2.1
  let best := candidates.foldl (better cur corpus) ⟨0, 0, 0, 0⟩
  if best.len = 0 then none else some best

/-! ### Blocks -/

/-- What a pass over blocks knows of the thresholds and of the turns. -/
structure Setting where
  minLines : ℕ
  minChars : ℕ
  turns : ℕ → ℕ

/-- Lines as one text. -/
def joinLines (lines : List Line) : List Char := ['\n'].intercalate lines

/-- The match to fold at the first line, with the pointer for it, if folding pays. -/
def foldAt (σ : Setting) (anchorIndex : AnchorIndex) (corpus : Corpus) (cur : List Line) :
    Option (Match × Line) := do
  let m ← longestMatch cur anchorIndex corpus
  if m.len < σ.minLines then none
  else
    let span := cur.take m.len
    let spanText := joinLines span
    let ptr := pointer span (σ.turns m.blockPos) m.delta
    if σ.minChars ≤ spanText.length && Text.utf8Length ptr < Text.utf8Length spanText then some (m, ptr)
    else none

/-- What the lines of a block become. -/
structure Pass where
  out : List Line := []
  verbatim : List (Option Line) := []
  spansFolded : ℕ := 0
  linesRemoved : ℕ := 0
  charsRemoved : ℕ := 0

theorem len_pos_of_longestMatch {cur : List Line} {anchorIndex : AnchorIndex} {corpus : Corpus}
    {m : Match} (h : longestMatch cur anchorIndex corpus = some m) : 0 < m.len := by
  obtain ⟨line, -, h⟩ := Option.bind_eq_some_iff.mp h
  obtain ⟨candidates, -, h⟩ := Option.bind_eq_some_iff.mp h
  dsimp only at h
  split_ifs at h with hlen
  obtain rfl := Option.some.inj h
  exact Nat.pos_of_ne_zero hlen

theorem foldAt_spec {σ : Setting} {anchorIndex : AnchorIndex} {corpus : Corpus} {cur : List Line}
    {m : Match} {ptr : Line} (h : foldAt σ anchorIndex corpus cur = some (m, ptr)) :
    longestMatch cur anchorIndex corpus = some m ∧
      ptr = pointer (cur.take m.len) (σ.turns m.blockPos) m.delta ∧
      Text.utf8Length ptr < Text.utf8Length (joinLines (cur.take m.len)) := by
  obtain ⟨m', hm, h⟩ := Option.bind_eq_some_iff.mp h
  dsimp only at h
  split_ifs at h with hlen hpays
  obtain ⟨rfl, rfl⟩ := Prod.mk.inj (Option.some.inj h)
  exact ⟨hm, rfl, of_decide_eq_true (Bool.and_eq_true_iff.mp hpays).2⟩

/-- The pass over the lines of a block. -/
def foldLines (σ : Setting) (anchorIndex : AnchorIndex) (corpus : Corpus) : List Line → Pass
  | [] => {}
  | line :: rest =>
    match _h : foldAt σ anchorIndex corpus (line :: rest) with
    | some (m, ptr) =>
      let span := (line :: rest).take m.len
      let pass := foldLines σ anchorIndex corpus ((line :: rest).drop m.len)
      { out := ptr :: pass.out
        verbatim := List.replicate m.len none ++ pass.verbatim
        spansFolded := pass.spansFolded + 1
        linesRemoved := pass.linesRemoved + m.len
        charsRemoved := pass.charsRemoved + ((joinLines span).length - ptr.length) }
    | none =>
      let pass := foldLines σ anchorIndex corpus rest
      { pass with out := line :: pass.out, verbatim := some line :: pass.verbatim }
termination_by lines => lines.length
decreasing_by
  · have := len_pos_of_longestMatch (foldAt_spec ‹_›).1
    simp only [List.length_drop, List.length_cons]
    omega
  · exact Nat.lt_succ_self _

/-- What the blocks so far have become. -/
structure DedupState where
  corpus : Corpus := []
  anchorIndex : AnchorIndex := ∅
  outBlocks : List DedupBlock := []
  stats : DedupStats := {}

/-- One block. -/
def dedupStep (σ : Setting) (s : DedupState) (blk : DedupBlock) : DedupState :=
  let lines := blk.text.splitOn '\n'
  if blk.isProtected then
    let verbatim := lines.map some
    { s with
      corpus := s.corpus ++ [verbatim]
      anchorIndex := indexLines verbatim s.corpus.length s.anchorIndex
      outBlocks := s.outBlocks ++ [blk] }
  else
    let pass := foldLines σ s.anchorIndex s.corpus lines
    { corpus := s.corpus ++ [pass.verbatim]
      anchorIndex := indexLines pass.verbatim s.corpus.length s.anchorIndex
      outBlocks := s.outBlocks ++ [{ text := joinLines pass.out, turn := blk.turn }]
      stats := { s.stats with
        spansFolded := s.stats.spansFolded + pass.spansFolded
        linesRemoved := s.stats.linesRemoved + pass.linesRemoved
        charsRemoved := s.stats.charsRemoved + pass.charsRemoved } }

/-- The turn of every block. -/
def turnsOf (blocks : List DedupBlock) (i : ℕ) : ℕ := (blocks[i]?.map DedupBlock.turn).getD 0

def dedupBlocksWith (blocks : List DedupBlock) (minLines minChars : ℕ) :
    List DedupBlock × DedupStats :=
  let s := blocks.foldl (dedupStep ⟨minLines, minChars, turnsOf blocks⟩)
    { stats := { blocks := blocks.length } }
  (s.outBlocks, s.stats)

def dedupBlocks (blocks : List DedupBlock) : List DedupBlock × DedupStats :=
  dedupBlocksWith blocks DEFAULT_MIN_LINES DEFAULT_MIN_CHARS

end Headroom.Transforms
