import Headroom.Foundation.EndedLines
import Headroom.Sse.Framing

/-!
# Blank lines

The framer looks for a blank line as one of two byte patterns. In terms of the lines of a stream, an empty
line ends the block before it unless it ends with a carriage return and a line feed while the line before it
ends with a line feed alone: that one is read as one more line of the block.
-/

open Foundation

namespace Headroom.Sse

/-! ### The end of a block -/

/-- Whether an empty line is seen as a blank one, by how the line before it ended. -/
def seenAsBlank (before : Option Bool) (crlf : Bool) : Bool :=
  match before with
  | none => false
  | some p => p || !crlf

/-- Whether a line ends the block before it. -/
def closes (before : Option Bool) (l : EndedLine) : Bool := l.text.isEmpty && seenAsBlank before l.crlf

/-- How the last line of a block ends. -/
def lastCrlf (lines : List EndedLine) : Option Bool := lines.getLast?.map EndedLine.crlf

/-- The length of the blank line that a line feed completes, by the bytes before it, the last one first. -/
def blankBehind : Bytes → Option ℕ
  | [] => none
  | a :: r => if a = lf then some 2 else if a = cr ∧ r.take 2 = [lf, cr] then some 4 else none

/-- The length of the blank line that a line completes. -/
def blankLength (l : EndedLine) : ℕ := if l.crlf then 4 else 2

variable {lines block : List EndedLine} {l : EndedLine} {behind : Bytes}

theorem terminatorAt_last (bytes : Bytes) : terminatorAt (bytes ++ [lf]) bytes.length =
    (blankBehind bytes.reverse).map fun n => (bytes.length + 1 - n, n) := by
  obtain ⟨r, rfl⟩ : ∃ r : Bytes, bytes = r.reverse := ⟨bytes.reverse, bytes.reverse_reverse.symm⟩
  rw [List.reverse_reverse]
  rcases r with _ | ⟨a, _ | ⟨b, _ | ⟨c, r⟩⟩⟩
  · rfl
  · by_cases ha : a = lf
    · simp [terminatorAt, blankBehind, ha]
    · simp [terminatorAt, blankBehind, ha]
  · by_cases ha : a = lf
    · simp [terminatorAt, blankBehind, ha]
    · simp [terminatorAt, blankBehind, ha]
  · have hlength : (a :: b :: c :: r).reverse.length = r.length + 3 := by simp
    have hget : ∀ i x, (a :: b :: c :: r)[i]? = some x → i < 3 →
        ((a :: b :: c :: r).reverse ++ [lf])[r.length + 3 - (i + 1)]? = some x := by
      intro i x hx hi
      have hbound : r.length + 3 - (i + 1) < (a :: b :: c :: r).length := by
        simp only [List.length_cons]
        omega
      rw [List.getElem?_append_left (by rw [hlength]; omega), List.getElem?_reverse hbound, ← hx]
      refine congrArg ((a :: b :: c :: r)[·]?) ?_
      simp only [List.length_cons]
      omega
    have hlast : ((a :: b :: c :: r).reverse ++ [lf])[r.length + 3]? = some lf := by
      rw [← hlength, List.getElem?_append_right le_rfl, Nat.sub_self]
      rfl
    rw [terminatorAt, hlength, hlast, hget 0 a rfl (by omega), hget 1 b rfl (by omega),
      hget 2 c rfl (by omega), blankBehind]
    have hne : cr ≠ lf := by decide
    by_cases ha : a = lf
    · simp [ha]
    · by_cases hfour : a = cr ∧ b = lf ∧ c = cr
      · simp [hfour, hne]
      · have hfour' : ¬ (a = cr ∧ List.take 2 (b :: c :: r) = [lf, cr]) := by
          simpa using hfour
        rw [if_neg ha, if_neg hfour', if_neg (by simp), if_neg (by omega), if_neg (by simpa using ha),
          if_neg]
        · rfl
        · rintro ⟨-, hc, hb, ha'⟩
          exact hfour ⟨Option.some.inj ha', Option.some.inj hb, Option.some.inj hc⟩

theorem blankBehind_render (hblock : ∀ l ∈ block, l.Clean) (hl : l.Clean) :
    blankBehind (render block ++ l.piece).reverse =
      if closes (lastCrlf block) l then some (blankLength l) else none := by
  rw [blankLength]
  obtain ⟨text, crlf⟩ := l
  have hne : cr ≠ lf := by decide
  rcases List.eq_nil_or_concat text with rfl | ⟨front, x, rfl⟩
  · rcases List.eq_nil_or_concat block with rfl | ⟨init, ⟨text', crlf'⟩, rfl⟩
    · cases crlf with
      | true => rfl
      | false => rfl
    · have hlast : lastCrlf (init.concat ⟨text', crlf'⟩) = some crlf' := by simp [lastCrlf]
      have hl' : lf ∉ text' ∧ cr ∉ text' := hblock ⟨text', crlf'⟩ (by simp)
      rw [hlast, List.concat_eq_append, render_append, render_cons, render_nil, List.append_nil]
      cases crlf with
      | false => simp [closes, seenAsBlank, blankBehind, EndedLine.piece, EndedLine.bytes_eq_piece]
      | true =>
        cases crlf' with
        | true =>
          simp [closes, seenAsBlank, blankBehind, EndedLine.piece, EndedLine.bytes_eq_piece, hne]
        | false =>
          have hbefore : (render init ++ text').getLast? ≠ some cr := by
            rcases List.eq_nil_or_concat text' with rfl | ⟨front', x', rfl⟩
            · rcases List.eq_nil_or_concat init with rfl | ⟨init', l', rfl⟩
              · nofun
              · rw [List.concat_eq_append, render_append, render_cons, render_nil, EndedLine.bytes_eq_piece]
                simp only [List.append_nil, ← List.append_assoc, List.getLast?_concat]
                decide
            · rw [List.concat_eq_append, ← List.append_assoc, List.getLast?_concat]
              intro h
              obtain rfl := Option.some.inj h
              exact hl'.2 (by simp)
          rw [← List.head?_reverse] at hbefore
          have hfour : ((render init ++ text').reverse.take 1) ≠ [cr] := by
            intro h
            rw [List.take_one] at h
            cases hhead : (render init ++ text').reverse.head? with
            | none =>
              rw [hhead] at h
              exact absurd h nofun
            | some x =>
              rw [hhead] at h
              obtain rfl : x = cr := by simpa using h
              exact hbefore hhead
          simp only [List.reverse_append] at hfour
          simp [closes, seenAsBlank, blankBehind, EndedLine.piece, EndedLine.bytes_eq_piece, hne, hfour]
  · have hx : x ≠ lf ∧ x ≠ cr := by
      refine ⟨?_, ?_⟩
      · rintro rfl
        exact hl.1 (by simp)
      · rintro rfl
        exact hl.2 (by simp)
    cases crlf with
    | true => simp [closes, blankBehind, EndedLine.piece, hne, hx]
    | false => simp [closes, blankBehind, EndedLine.piece, hx]

/-- No line closes the block before it. -/
def NoClose (lines : List EndedLine) : Prop :=
  ∀ i l, lines[i]? = some l → closes (lastCrlf (lines.take i)) l = false

theorem terminatorAt_render (hblock : ∀ l ∈ block, l.Clean) (hl : l.Clean) (more : Bytes) {pos : ℕ}
    (hpos : pos + 1 = (render (block ++ [l])).length) :
    terminatorAt (render (block ++ [l]) ++ more) pos =
      if closes (lastCrlf block) l then some (pos + 1 - blankLength l, blankLength l) else none := by
  have hbytes : render (block ++ [l]) = (render block ++ l.piece) ++ [lf] := by
    rw [render_append, render_cons, render_nil, List.append_nil, l.bytes_eq_piece, List.append_assoc]
  have hlength : (render block ++ l.piece).length = pos := by
    rw [hbytes, List.length_append, List.length_singleton] at hpos
    omega
  rw [terminatorAt_append (by omega), hbytes, ← hlength, terminatorAt_last, blankBehind_render hblock hl]
  by_cases hcloses : closes (lastCrlf block) l
  · rw [if_pos hcloses, if_pos hcloses, Option.map_some]
  · rw [if_neg hcloses, if_neg hcloses, Option.map_none]

theorem terminatorAt_cases (hlines : ∀ l ∈ lines, l.Clean) (hbehind : lf ∉ behind) {pos : ℕ} {t : ℕ × ℕ}
    (h : terminatorAt (render lines ++ behind) pos = some t) :
    ∃ i l, lines[i]? = some l ∧ closes (lastCrlf (lines.take i)) l ∧
      pos + 1 = (render (lines.take (i + 1))).length := by
  have hlf : (render lines ++ behind)[pos]? = some lf := by
    by_contra hne
    rw [terminatorAt, if_pos hne] at h
    exact absurd h (by simp)
  obtain ⟨i, hi, hpos⟩ := getElem?_render_eq_lf hlines hbehind hlf
  obtain ⟨l, hget⟩ : ∃ l, lines[i]? = some l := ⟨_, List.getElem?_eq_getElem hi⟩
  have htake : lines.take (i + 1) = lines.take i ++ [l] := by
    rw [List.take_add_one, hget]
    rfl
  have hsplit : render lines ++ behind =
      render (lines.take i ++ [l]) ++ (render (lines.drop (i + 1)) ++ behind) := by
    rw [← htake, ← List.append_assoc, ← render_append, List.take_append_drop]
  refine ⟨i, l, hget, ?_, hpos⟩
  rw [htake] at hpos
  rw [hsplit, terminatorAt_render (fun l hl => hlines l (List.mem_of_mem_take hl))
    (hlines _ (List.mem_of_getElem? hget)) _ hpos] at h
  by_contra hopen
  rw [if_neg hopen] at h
  exact absurd h (by simp)

theorem findDoubleNewline_of_noClose (hlines : ∀ l ∈ lines, l.Clean) (hbehind : lf ∉ behind)
    (h : NoClose lines) : findDoubleNewline (render lines ++ behind) = none := by
  rw [findDoubleNewline, List.findSome?_eq_none_iff]
  intro pos _
  by_contra hne
  obtain ⟨t, ht⟩ := Option.ne_none_iff_exists'.1 hne
  obtain ⟨i, l, hget, hcloses, -⟩ := terminatorAt_cases hlines hbehind ht
  rw [h i l hget] at hcloses
  exact absurd hcloses nofun

theorem findDoubleNewline_of_closes (hblock : ∀ l ∈ block, l.Clean) (hl : l.Clean) (hno : NoClose block)
    (hcloses : closes (lastCrlf block) l) (more : Bytes) :
    findDoubleNewline (render (block ++ [l]) ++ more) =
      some ((render (block ++ [l])).length - blankLength l, blankLength l) := by
  have hbytes : (render (block ++ [l])).length = (render block ++ l.piece).length + 1 := by
    rw [render_append, render_cons, render_nil, List.append_nil, l.bytes_eq_piece, ← List.append_assoc,
      List.length_append, List.length_singleton]
  have hrange : List.range (render (block ++ [l]) ++ more).length =
      List.range (render block ++ l.piece).length ++ (render block ++ l.piece).length ::
        (List.range more.length).map ((render block ++ l.piece).length + 1 + ·) := by
    rw [List.length_append, hbytes, List.range_add, List.range_succ, List.append_assoc,
      List.singleton_append]
  rw [findDoubleNewline]
  refine List.findSome?_eq_some_iff.2 ⟨_, (render block ++ l.piece).length, _, hrange, ?_, fun pos hpos => ?_⟩
  · rw [terminatorAt_render hblock hl more hbytes.symm, if_pos hcloses, hbytes]
  · rw [List.mem_range] at hpos
    by_contra hne
    obtain ⟨t, ht⟩ := Option.ne_none_iff_exists'.1 hne
    have hshort : pos < (render block ++ l.piece).length := hpos
    have hfront : terminatorAt (render block ++ l.piece) pos = some t := by
      have hbuf : render (block ++ [l]) ++ more = (render block ++ l.piece) ++ ([lf] ++ more) := by
        rw [render_append, render_cons, render_nil, List.append_nil, l.bytes_eq_piece, ← List.append_assoc,
          List.append_assoc]
      rw [hbuf, terminatorAt_append hshort] at ht
      exact ht
    obtain ⟨i, l', hget, hcloses', -⟩ := terminatorAt_cases hblock (EndedLine.lf_notMem_piece hl) hfront
    rw [hno i l' hget] at hcloses'
    exact absurd hcloses' nofun

/-! ### What a block says -/

/-- The fields of lines with their values. -/
def lineFields (texts : List Bytes) : List (Bytes × Bytes) :=
  (texts.filter fun line => !(line.isEmpty || line.head? = some 58)).map splitField

theorem stripCr_piece (hl : l.Clean) : stripCr l.piece = l.text := by
  obtain ⟨text, crlf⟩ := l
  have htext : text.getLast? ≠ some cr := fun h => hl.2 (List.mem_of_getLast? h)
  cases crlf with
  | true => simp [EndedLine.piece, stripCr]
  | false => simp [EndedLine.piece, stripCr, htext]

theorem lineFields_append (texts texts' : List Bytes) :
    lineFields (texts ++ texts') = lineFields texts ++ lineFields texts' := by
  rw [lineFields, List.filter_append, List.map_append]
  rfl

theorem lineFields_empty : lineFields [[]] = [] := rfl

theorem fields_body (hblock : ∀ l ∈ block, l.Clean) (hl : l.Clean) (hno : NoClose block)
    (hcloses : closes (lastCrlf block) l) :
    fields (body (render (block ++ [l]))) = lineFields (block.map EndedLine.text) := by
  have hfind := findDoubleNewline_of_closes hblock hl hno hcloses []
  rw [List.append_nil] at hfind
  rw [closes, Bool.and_eq_true, List.isEmpty_iff] at hcloses
  obtain ⟨htext, hseen⟩ := hcloses
  obtain ⟨text, crlf⟩ := l
  obtain rfl : text = [] := htext
  rcases List.eq_nil_or_concat block with rfl | ⟨init, l', rfl⟩
  · exact absurd hseen nofun
  · rw [List.concat_eq_append] at *
    have hl' : l'.Clean := hblock l' (by simp)
    have hinit : ∀ l ∈ init, l.Clean := fun l hl => hblock l (List.mem_append_left _ hl)
    have hlast : lastCrlf (init ++ [l']) = some l'.crlf := by
      rw [lastCrlf, List.getLast?_concat]
      rfl
    rw [hlast] at hseen
    -- What stands before the blank line is the block without the end of its last line.
    have hbody : ∃ t, lf ∉ t ∧ stripCr t = l'.text ∧
        body (render (init ++ [l'] ++ [⟨[], crlf⟩])) = render init ++ t := by
      simp only [body, hfind]
      cases crlf with
      | false =>
        refine ⟨l'.piece, EndedLine.lf_notMem_piece hl', stripCr_piece hl', ?_⟩
        have hraw : render (init ++ [l'] ++ [⟨[], false⟩]) = (render init ++ l'.piece) ++ [lf, lf] := by
          simp [EndedLine.bytes_eq_piece, EndedLine.piece]
        rw [hraw]
        exact List.take_left' (by simp [blankLength]; omega)
      | true =>
        have hcrlf : l'.crlf = true := by simpa [seenAsBlank] using hseen
        have htext : l'.text.getLast? ≠ some cr := fun h => hl'.2 (List.mem_of_getLast? h)
        refine ⟨l'.text, hl'.1, if_neg htext, ?_⟩
        have hraw : render (init ++ [l'] ++ [⟨[], true⟩]) =
            (render init ++ l'.text) ++ [cr, lf, cr, lf] := by
          simp [EndedLine.bytes, EndedLine.ending, hcrlf]
        rw [hraw]
        exact List.take_left' (by simp [blankLength]; omega)
    obtain ⟨t, hlf, hstrip, hbody⟩ := hbody
    have hpieces : (init.map EndedLine.piece).map stripCr = init.map EndedLine.text := by
      rw [List.map_map]
      exact List.map_congr_left fun l hl => stripCr_piece (hinit l hl)
    rw [hbody, fields, splitOn_render hinit hlf, List.map_append, hpieces, List.map_singleton, hstrip,
      List.map_append, List.map_singleton]
    rfl

/-- What a block of lines comes out as. -/
def say (texts : List Bytes) : Option (Except FramingError SseEvent) :=
  match Fields.add {} (lineFields texts) with
  | .ok f => f.event.map .ok
  | .error e => some (.error e)

theorem meaning_render (hblock : ∀ l ∈ block, l.Clean) (hl : l.Clean) (hno : NoClose block)
    (hcloses : closes (lastCrlf block) l) :
    meaning (render (block ++ [l])) = say (block.map EndedLine.text) := by
  have hempty : Fields.Ordered {} := ⟨fun h => absurd h (by simp)⟩
  have hfold : ((body (render (block ++ [l]))).splitOn lf).foldlM Fields.line {} =
      Fields.add {} (lineFields (block.map EndedLine.text)) := by
    rw [← fields_body hblock hl hno hcloses]
    exact Fields.foldlM_line {} _
  rcases Fields.add_spec hempty (lineFields (block.map EndedLine.text)) with
    ⟨-, e, he⟩ | ⟨-, f, hf, hordered, -⟩
  · rw [meaning, parseEventBlock, hfold, say, he]
    rfl
  · have hevent : parseEventBlock (body (render (block ++ [l]))) = .ok f.event := by
      rw [parseEventBlock, hfold, hf, Fields.event_of_ordered hordered]
      simp only [bind, Except.bind, pure, Except.pure]
      split <;> rfl
    rw [meaning, hevent, say, hf]

/-! ### The blocks of a stream -/

/-- The blocks of lines, given the lines of the block under way and how the last of them ended. -/
def cut (texts : List Bytes) (before : Option Bool) : List EndedLine → List (List Bytes)
  | [] => []
  | l :: lines =>
    if closes before l then texts :: cut [] none lines else cut (texts ++ [l.text]) (some l.crlf) lines

theorem NoClose.concat (h : NoClose block) (hl : closes (lastCrlf block) l = false) :
    NoClose (block ++ [l]) := by
  intro i l' hget
  rcases Nat.lt_trichotomy i block.length with hlt | rfl | hgt
  · rw [List.getElem?_append_left hlt] at hget
    rw [List.take_append_of_le_length (Nat.le_of_lt hlt)]
    exact h i l' hget
  · rw [List.getElem?_append_right le_rfl, Nat.sub_self] at hget
    obtain rfl : l = l' := Option.some.inj hget
    rw [List.take_left]
    exact hl
  · rw [List.getElem?_eq_none (by rw [List.length_append, List.length_singleton]; omega)] at hget
    exact absurd hget nofun

theorem frames_render (hblock : ∀ l ∈ block, l.Clean) (hlines : ∀ l ∈ lines, l.Clean)
    (hbehind : lf ∉ behind) (hno : NoClose block) :
    (terminator.frames (render (block ++ lines) ++ behind)).filterMap meaning =
      (cut (block.map EndedLine.text) (lastCrlf block) lines).filterMap say := by
  induction lines generalizing block with
  | nil =>
    have hnone : terminator.first (render (block ++ []) ++ behind) = none := by
      rw [List.append_nil]
      exact Option.map_eq_none_iff.2 (findDoubleNewline_of_noClose hblock hbehind hno)
    rw [FrameRule.frames_of_none hnone]
    rfl
  | cons l lines ih =>
    obtain ⟨hl, hrest⟩ := List.forall_mem_cons.1 hlines
    have hsplit : render (block ++ l :: lines) ++ behind =
        render (block ++ [l]) ++ (render lines ++ behind) := by
      rw [← List.append_assoc, ← render_append, List.append_assoc, List.singleton_append]
    rw [cut]
    split_ifs with hcloses
    · have hfirst : terminator.first (render (block ++ l :: lines) ++ behind) =
          some (render (block ++ [l])).length := by
        have hfind := findDoubleNewline_of_closes hblock hl hno hcloses (render lines ++ behind)
        have hle := (findDoubleNewline_eq_some hfind).2.1
        rw [hsplit]
        show (findDoubleNewline _).map _ = _
        rw [hfind, Option.map_some]
        have hlong : blankLength l ≤ (render (block ++ [l])).length := by
          have hpos : (render (block ++ [l])).length - 1 + 1 = (render (block ++ [l])).length := by
            rw [render_append, render_cons, render_nil, List.append_nil, l.bytes_eq_piece, ← List.append_assoc,
              List.length_append, List.length_singleton]
            omega
          have hat := terminatorAt_render hblock hl [] hpos
          rw [if_pos hcloses] at hat
          have := (terminatorAt_eq_some hat).1
          omega
        exact congrArg some (Nat.sub_add_cancel hlong)
      have hnil : ∀ l ∈ ([] : List EndedLine), l.Clean := nofun
      have hempty : NoClose [] := fun i l' h => absurd h nofun
      have hnext := ih hnil hrest hempty
      rw [FrameRule.frames_of_some hfirst, hsplit, List.take_left, List.drop_left, List.filterMap_cons,
        List.filterMap_cons, meaning_render hblock hl hno hcloses]
      rw [List.nil_append] at hnext
      rw [hnext]
      rfl
    · have hopen : closes (lastCrlf block) l = false := by simpa using hcloses
      have hlonger : ∀ l' ∈ block ++ [l], l'.Clean :=
        List.forall_mem_append.2 ⟨hblock, List.forall_mem_singleton.2 hl⟩
      have hnext := ih hlonger hrest (hno.concat hopen)
      rw [List.append_assoc, List.singleton_append, List.map_append, lastCrlf, List.getLast?_concat] at hnext
      exact hnext

end Headroom.Sse
