import Headroom.Foundation.Bytes

/-!
# Lines with their endings

A byte stream is a sequence of lines, each ended by a line feed or by a carriage return and a line feed, and
what stands behind the last ending. If every carriage return is followed by a line feed, no text holds either
of the two, and the line feeds of the stream are the ends of its lines.
-/

namespace Foundation

/-- A line and how it ends. -/
structure EndedLine where
  text : Bytes
  crlf : Bool
  deriving DecidableEq

namespace EndedLine

/-- The bytes that end a line. -/
def ending (l : EndedLine) : Bytes := if l.crlf then [cr, lf] else [lf]

/-- The line as it stands in the stream. -/
def bytes (l : EndedLine) : Bytes := l.text ++ l.ending

/-- The line as a split at line feeds leaves it. -/
def piece (l : EndedLine) : Bytes := l.text ++ if l.crlf then [cr] else []

/-- The line with a line feed for its ending. -/
def withLf (l : EndedLine) : EndedLine := { l with crlf := false }

/-- The text holds neither of the bytes that end lines. -/
def Clean (l : EndedLine) : Prop := lf ∉ l.text ∧ cr ∉ l.text

theorem bytes_eq_piece (l : EndedLine) : l.bytes = l.piece ++ [lf] := by
  obtain ⟨text, crlf⟩ := l
  cases crlf with
  | true => simp [bytes, ending, piece]
  | false => simp [bytes, ending, piece]

theorem lf_notMem_piece {l : EndedLine} (h : l.Clean) : lf ∉ l.piece := by
  rw [piece, List.mem_append, not_or]
  refine ⟨h.1, ?_⟩
  split_ifs
  · decide
  · exact List.not_mem_nil

end EndedLine

/-- The bytes of lines. -/
def render (lines : List EndedLine) : Bytes := lines.flatMap EndedLine.bytes

/-- The lines of a stream, and what stands behind the last of them. -/
def linesOf : Bytes → List EndedLine × Bytes
  | [] => ([], [])
  | b :: rest =>
    if b = lf then (⟨[], false⟩ :: (linesOf rest).1, (linesOf rest).2)
    else
      match (linesOf rest).1 with
      | [] => ([], b :: (linesOf rest).2)
      | l :: lines =>
        if b = cr ∧ rest.head? = some lf then ({ l with crlf := true } :: lines, (linesOf rest).2)
        else ({ l with text := b :: l.text } :: lines, (linesOf rest).2)

/-- The stream with each carriage return dropped that a line feed follows. -/
def lfOnly : Bytes → Bytes
  | [] => []
  | b :: rest => if b = cr ∧ rest.head? = some lf then lfOnly rest else b :: lfOnly rest

/-- Every carriage return is followed by a line feed. -/
def CrLf (s : Bytes) : Prop := ∀ i, s[i]? = some cr → s[i + 1]? = some lf

theorem crLf_iff {s : Bytes} : CrLf s ↔ ∀ i < s.length, s[i]? = some cr → s[i + 1]? = some lf := by
  constructor
  · intro h i _
    exact h i
  · intro h i hcr
    obtain ⟨hi, -⟩ := List.getElem?_eq_some_iff.1 hcr
    exact h i hi hcr

instance : DecidablePred CrLf := fun _ => decidable_of_iff' _ crLf_iff

variable {lines : List EndedLine} {l : EndedLine} {s behind rest : Bytes} {b : UInt8}

@[simp] theorem render_nil : render [] = [] := rfl

@[simp] theorem render_cons (l : EndedLine) (lines : List EndedLine) :
    render (l :: lines) = l.bytes ++ render lines := rfl

@[simp] theorem render_append (lines lines' : List EndedLine) :
    render (lines ++ lines') = render lines ++ render lines' := List.flatMap_append

theorem linesOf_lf (rest : Bytes) : linesOf (lf :: rest) = (⟨[], false⟩ :: (linesOf rest).1, (linesOf rest).2) :=
  if_pos rfl

theorem linesOf_nil (hlf : b ≠ lf) (h : (linesOf rest).1 = []) :
    linesOf (b :: rest) = ([], b :: (linesOf rest).2) := by
  simp only [linesOf, if_neg hlf, h]

theorem linesOf_cr (h : rest.head? = some lf) (hcons : (linesOf rest).1 = l :: lines) :
    linesOf (cr :: rest) = ({ l with crlf := true } :: lines, (linesOf rest).2) := by
  have hlf : cr ≠ lf := by decide
  simp only [linesOf, if_neg hlf, hcons, true_and, if_pos h]

theorem linesOf_text (hlf : b ≠ lf) (hcr : ¬ (b = cr ∧ rest.head? = some lf))
    (hcons : (linesOf rest).1 = l :: lines) :
    linesOf (b :: rest) = ({ l with text := b :: l.text } :: lines, (linesOf rest).2) := by
  simp only [linesOf, if_neg hlf, hcons, if_neg hcr]

theorem linesOf_of_head? (h : s.head? = some lf) : ∃ lines, (linesOf s).1 = ⟨[], false⟩ :: lines := by
  cases s with
  | nil => exact absurd h nofun
  | cons b rest =>
    obtain rfl : b = lf := Option.some.inj h
    exact ⟨_, congrArg Prod.fst (linesOf_lf rest)⟩

/-- How the lines of a stream begin. -/
theorem linesOf_cases (b : UInt8) (rest : Bytes) :
    (b = lf ∧ linesOf (b :: rest) = (⟨[], false⟩ :: (linesOf rest).1, (linesOf rest).2)) ∨
    (b ≠ lf ∧ ¬ (b = cr ∧ rest.head? = some lf) ∧ (linesOf rest).1 = [] ∧
      linesOf (b :: rest) = ([], b :: (linesOf rest).2)) ∨
    (b = cr ∧ rest.head? = some lf ∧ ∃ lines, (linesOf rest).1 = ⟨[], false⟩ :: lines ∧
      linesOf (b :: rest) = (⟨[], true⟩ :: lines, (linesOf rest).2)) ∨
    (b ≠ lf ∧ ¬ (b = cr ∧ rest.head? = some lf) ∧ ∃ l lines, (linesOf rest).1 = l :: lines ∧
      linesOf (b :: rest) = (⟨b :: l.text, l.crlf⟩ :: lines, (linesOf rest).2)) := by
  by_cases hlf : b = lf
  · subst hlf
    exact Or.inl ⟨rfl, linesOf_lf rest⟩
  · refine Or.inr ?_
    by_cases hcr : b = cr ∧ rest.head? = some lf
    · obtain ⟨rfl, hhead⟩ := hcr
      obtain ⟨lines, hlines⟩ := linesOf_of_head? hhead
      exact Or.inr (Or.inl ⟨rfl, hhead, lines, hlines, linesOf_cr hhead hlines⟩)
    · cases hlines : (linesOf rest).1 with
      | nil => exact Or.inl ⟨hlf, hcr, rfl, linesOf_nil hlf hlines⟩
      | cons l lines => exact Or.inr (Or.inr ⟨hlf, hcr, l, lines, rfl, linesOf_text hlf hcr hlines⟩)

theorem render_linesOf (s : Bytes) : render (linesOf s).1 ++ (linesOf s).2 = s := by
  induction s with
  | nil => rfl
  | cons b rest ih =>
    rcases linesOf_cases b rest with ⟨rfl, heq⟩ | ⟨-, -, hnil, heq⟩ | ⟨rfl, -, lines, hlines, heq⟩ |
      ⟨-, -, l, lines, hlines, heq⟩
    · rw [heq]
      exact congrArg (lf :: ·) ih
    · rw [hnil] at ih
      rw [heq]
      exact congrArg (b :: ·) ih
    · rw [hlines] at ih
      rw [heq]
      exact congrArg (cr :: ·) ih
    · rw [hlines] at ih
      rw [heq]
      exact congrArg (b :: ·) ih

theorem lfOnly_eq (s : Bytes) :
    lfOnly s = render ((linesOf s).1.map EndedLine.withLf) ++ (linesOf s).2 := by
  induction s with
  | nil => rfl
  | cons b rest ih =>
    rcases linesOf_cases b rest with ⟨rfl, heq⟩ | ⟨-, hcr, hnil, heq⟩ | ⟨rfl, hhead, lines, hlines, heq⟩ |
      ⟨-, hcr, l, lines, hlines, heq⟩
    · have hlf : ¬ (lf = cr ∧ rest.head? = some lf) := fun h => absurd h.1 (by decide)
      rw [lfOnly, if_neg hlf, ih, heq]
      rfl
    · rw [lfOnly, if_neg hcr, ih, heq, hnil]
      rfl
    · rw [lfOnly, if_pos ⟨rfl, hhead⟩, ih, heq, hlines]
      rfl
    · rw [lfOnly, if_neg hcr, ih, heq, hlines]
      rfl

theorem CrLf.tail (h : CrLf (b :: s)) : CrLf s := fun i hi => h (i + 1) hi

theorem clean_linesOf (h : CrLf s) :
    (∀ l ∈ (linesOf s).1, l.Clean) ∧ lf ∉ (linesOf s).2 ∧ cr ∉ (linesOf s).2 := by
  induction s with
  | nil => exact ⟨nofun, List.not_mem_nil, List.not_mem_nil⟩
  | cons b rest ih =>
    obtain ⟨hlines, htail⟩ := ih h.tail
    have hnext : b = cr → rest.head? = some lf := by
      rintro rfl
      rw [List.head?_eq_getElem?]
      exact h 0 rfl
    rcases linesOf_cases b rest with ⟨rfl, heq⟩ | ⟨hlf, hcr, hnil, heq⟩ | ⟨rfl, -, lines, hcons, heq⟩ |
      ⟨hlf, hcr, l, lines, hcons, heq⟩
    · rw [heq]
      exact ⟨List.forall_mem_cons.2 ⟨⟨List.not_mem_nil, List.not_mem_nil⟩, hlines⟩, htail⟩
    · have hne : b ≠ cr := fun hb => hcr ⟨hb, hnext hb⟩
      rw [heq]
      exact ⟨nofun, List.not_mem_cons_of_ne_of_not_mem hlf.symm htail.1, List.not_mem_cons_of_ne_of_not_mem hne.symm htail.2⟩
    · rw [hcons] at hlines
      rw [heq]
      exact ⟨List.forall_mem_cons.2 ⟨⟨List.not_mem_nil, List.not_mem_nil⟩,
        (List.forall_mem_cons.1 hlines).2⟩, htail⟩
    · have hne : b ≠ cr := fun hb => hcr ⟨hb, hnext hb⟩
      rw [hcons] at hlines
      obtain ⟨hl, hrest⟩ := List.forall_mem_cons.1 hlines
      rw [heq]
      exact ⟨List.forall_mem_cons.2 ⟨⟨List.not_mem_cons_of_ne_of_not_mem hlf.symm hl.1,
        List.not_mem_cons_of_ne_of_not_mem hne.symm hl.2⟩, hrest⟩, htail⟩

/-! ### Line feeds -/

theorem getElem?_render_eq_lf (hlines : ∀ l ∈ lines, l.Clean) (htail : lf ∉ behind) {pos : ℕ}
    (h : (render lines ++ behind)[pos]? = some lf) :
    ∃ i < lines.length, pos + 1 = (render (lines.take (i + 1))).length := by
  induction lines generalizing pos with
  | nil => exact absurd (List.mem_of_getElem? h) htail
  | cons l lines ih =>
    obtain ⟨hl, hrest⟩ := List.forall_mem_cons.1 hlines
    rw [render_cons, l.bytes_eq_piece, List.append_assoc, List.append_assoc] at h
    have hlength : l.bytes.length = l.piece.length + 1 := by
      rw [l.bytes_eq_piece, List.length_append, List.length_singleton]
    rcases Nat.lt_trichotomy pos l.piece.length with hlt | rfl | hgt
    · rw [List.getElem?_append_left hlt] at h
      exact absurd (List.mem_of_getElem? h) (EndedLine.lf_notMem_piece hl)
    · refine ⟨0, Nat.succ_pos _, ?_⟩
      rw [List.take_succ_cons, List.take_zero, render_cons, render_nil, List.append_nil, hlength]
    · rw [List.getElem?_append_right (Nat.le_of_lt hgt), List.singleton_append,
        show pos - l.piece.length = (pos - l.piece.length - 1) + 1 by omega, List.getElem?_cons_succ] at h
      obtain ⟨i, hi, hpos⟩ := ih hrest h
      refine ⟨i + 1, Nat.succ_lt_succ hi, ?_⟩
      rw [List.take_succ_cons, render_cons, List.length_append, hlength]
      omega

theorem splitOn_render (hlines : ∀ l ∈ lines, l.Clean) (htail : lf ∉ behind) :
    (render lines ++ behind).splitOn lf = lines.map EndedLine.piece ++ [behind] := by
  induction lines with
  | nil =>
    rw [render_nil, List.nil_append, List.map_nil, List.nil_append, List.splitOn_eq_singleton htail]
  | cons l lines ih =>
    obtain ⟨hl, hrest⟩ := List.forall_mem_cons.1 hlines
    rw [render_cons, l.bytes_eq_piece, List.append_assoc, List.append_assoc, List.singleton_append,
      List.splitOn_append_cons_self, List.splitOn_eq_singleton (EndedLine.lf_notMem_piece hl), ih hrest]
    rfl

end Foundation
