import Mathlib.Data.List.GetD
import Mathlib.Data.List.Infix
import Headroom.Transforms.CrossTurnDedup

/-!
# What a pointer stands for

The output of a block is cut into lines that were kept and spans that were folded. The lines of a
folded span are those of an earlier block, with their numbers shifted, and that block has kept all
of them, one after the other. Appending blocks changes no output.
-/

open Foundation

namespace Headroom.Transforms

/-! ### Lines -/

section Lines

variable {line key content : Line} {n delta : ℤ}

theorem numAndKey_eq_some (h : numAndKey line = (some n, key, content)) :
    line = (toString n).toList ++ key := by
  rw [numAndKey] at h
  split_ifs at h with hnum
  · simp only [Bool.and_eq_true, decide_eq_true_eq] at hnum
    obtain ⟨⟨hhead, -⟩, -⟩ := hnum
    obtain ⟨c, hc, hne⟩ := (Option.any_eq_true _ _).mp hhead
    have hdigits : ∀ c ∈ line.takeWhile Char.isDigit, c.isDigit = true :=
      fun c hc => List.mem_takeWhile_imp hc
    have hnil : line.takeWhile Char.isDigit ≠ [] := by
      intro hnil
      rw [hnil] at hc
      exact absurd hc.symm (Option.some_ne_none c)
    have hzero : (line.takeWhile Char.isDigit).head? ≠ some '0' := by
      rw [hc]
      exact fun h => of_decide_eq_true hne (Option.some.inj h)
    obtain ⟨hn, rest⟩ := Prod.mk.inj h
    obtain ⟨rfl, -⟩ := Prod.mk.inj rest
    obtain rfl := Option.some.inj hn
    show line = (toString (Nat.ofDigitChars 10 (line.takeWhile Char.isDigit) 0)).toList ++ _
    rw [Nat.toString_eq_ofList_toDigits, String.toList_ofList,
      Text.toDigits_ofDigitChars hnil hdigits hzero]
    exact List.prefix_append_drop (List.takeWhile_prefix _)
  · exact absurd (Prod.mk.inj h).1.symm (Option.some_ne_none n)

theorem shiftLine_of_none (h : (numAndKey line).1 = none) : shiftLine delta line = line := by
  rw [shiftLine]
  split
  · rename_i heq
    rw [heq] at h
    exact absurd h (Option.some_ne_none _)
  · rfl

end Lines

/-! ### Matches -/

section Matches

variable {cur kept : List Line} {blockLines : List (Option Line)} {corpus : Corpus}

/-- The lines of the current block agree with the kept lines of an earlier one, up to a shift. -/
structure Agrees (cur : List Line) (blockLines : List (Option Line)) (len : ℕ) (delta : ℤ)
    (kept : List Line) : Prop where
  length : kept.length = len
  shown : kept.map some <+: blockLines
  shifted : cur.take len = kept.map (shiftLine delta)

theorem agrees_zero (cur : List Line) (blockLines : List (Option Line)) (delta : ℤ) :
    Agrees cur blockLines 0 delta [] :=
  ⟨rfl, List.nil_prefix, rfl⟩

theorem Agrees.cons {ca cb : Line} {k : ℕ} {delta : ℤ} (h : Agrees cur blockLines k delta kept)
    (hshift : shiftLine delta cb = ca) :
    Agrees (ca :: cur) (some cb :: blockLines) (k + 1) delta (cb :: kept) :=
  ⟨congrArg (· + 1) h.length, List.prefix_cons_inj _ |>.mpr h.shown, by
    rw [List.take_succ_cons, h.shifted, List.map_cons, hshift]⟩

theorem extendLine_spec {delta delta' : Option ℤ} {ca cb : Line}
    (h : extendLine delta ca cb = some delta') :
    (∀ d, delta = some d → delta' = some d) ∧
      ∀ e, (∀ d, delta' = some d → e = d) → shiftLine e cb = ca := by
  rw [extendLine] at h
  rcases ha : numAndKey ca with ⟨na, ka, contentA⟩
  rcases hb : numAndKey cb with ⟨nb, kb, contentB⟩
  rw [ha, hb] at h
  dsimp only at h
  by_cases hkey : ka ≠ kb
  · rw [if_pos hkey] at h
    exact absurd h.symm (Option.some_ne_none _)
  rw [if_neg hkey] at h
  obtain rfl := not_not.mp hkey
  have hunnumbered : (if ca ≠ cb then none else some delta) = some delta' → (nb = none ∨ na = none) →
      (∀ d, delta = some d → delta' = some d) ∧
        ∀ e, (∀ d, delta' = some d → e = d) → shiftLine e cb = ca := by
    intro h hnone
    split_ifs at h with heq
    obtain rfl := Option.some.inj h
    obtain rfl := not_not.mp heq
    rw [ha] at hb
    obtain ⟨rfl, -⟩ := Prod.mk.inj hb
    refine ⟨fun d hd => hd, fun e _ => shiftLine_of_none ?_⟩
    rw [ha]
    exact hnone.elim id id
  rcases na with _ | na
  · exact hunnumbered h (Or.inr rfl)
  rcases nb with _ | nb
  · exact hunnumbered h (Or.inl rfl)
  have hshift : shiftLine (na - nb) cb = ca := by
    have hnumber : nb + (na - nb) = na := by omega
    rw [shiftLine, hb]
    dsimp only
    rw [hnumber, numAndKey_eq_some ha]
  rcases delta with _ | prev
  · obtain rfl := Option.some.inj h
    exact ⟨fun d hd => absurd hd.symm (Option.some_ne_none d), fun e he => by rw [he _ rfl, hshift]⟩
  · dsimp only at h
    split_ifs at h with hprev
    obtain rfl := Option.some.inj h
    rw [not_not] at hprev
    exact ⟨fun d hd => hd, fun e he => by rw [he _ rfl, hprev, hshift]⟩

theorem extend_spec (delta : Option ℤ) (cur : List Line) (blockLines : List (Option Line)) :
    (∃ kept, Agrees cur blockLines (extend delta cur blockLines).1
        ((extend delta cur blockLines).2.getD 0) kept) ∧
      ∀ d, delta = some d → (extend delta cur blockLines).2 = some d := by
  induction cur generalizing delta blockLines with
  | nil =>
    rw [extend.eq_def]
    exact ⟨⟨[], agrees_zero _ _ _⟩, fun d hd => hd⟩
  | cons ca cur ih =>
    rw [extend.eq_def]
    rcases blockLines with _ | ⟨_ | cb, blockLines⟩
    · exact ⟨⟨[], agrees_zero _ _ _⟩, fun d hd => hd⟩
    · exact ⟨⟨[], agrees_zero _ _ _⟩, fun d hd => hd⟩
    · dsimp only
      cases hline : extendLine delta ca cb with
      | none => exact ⟨⟨[], agrees_zero _ _ _⟩, fun d hd => hd⟩
      | some delta' =>
        obtain ⟨hknown, hshift⟩ := extendLine_spec hline
        obtain ⟨⟨kept, hkept⟩, hstays⟩ := ih delta' blockLines
        refine ⟨⟨cb :: kept, hkept.cons (hshift _ fun d hd => ?_)⟩, fun d hd => hstays d (hknown d hd)⟩
        rw [hstays d hd]
        rfl

/-- What a match is: a run of lines that one earlier block has kept. -/
theorem longestMatch_spec {anchorIndex : AnchorIndex} {m : Match}
    (h : longestMatch cur anchorIndex corpus = some m) :
    m.blockPos < corpus.length ∧
      ∃ kept, Agrees cur ((corpus.getD m.blockPos []).drop m.lineIdx) m.len m.delta kept := by
  have hpos := len_pos_of_longestMatch h
  obtain ⟨line, -, h⟩ := Option.bind_eq_some_iff.mp h
  obtain ⟨candidates, -, h⟩ := Option.bind_eq_some_iff.mp h
  dsimp only at h
  split_ifs at h
  obtain rfl := Option.some.inj h
  have hfold : ∀ (candidates : List (ℕ × ℕ)) (best : Match),
      (∃ kept, Agrees cur ((corpus.getD best.blockPos []).drop best.lineIdx) best.len best.delta kept) →
        ∃ kept, Agrees cur ((corpus.getD (candidates.foldl (better cur corpus) best).blockPos []).drop
          (candidates.foldl (better cur corpus) best).lineIdx)
            (candidates.foldl (better cur corpus) best).len
              (candidates.foldl (better cur corpus) best).delta kept := by
    intro candidates
    induction candidates with
    | nil => exact fun best h => h
    | cons candidate candidates ih =>
      intro best hbest
      refine ih _ ?_
      obtain ⟨bp, li⟩ := candidate
      rw [better]
      dsimp only
      split_ifs
      · exact (extend_spec none cur _).1
      · exact hbest
  obtain ⟨kept, hkept⟩ := hfold candidates ⟨0, 0, 0, 0⟩ ⟨[], agrees_zero _ _ _⟩
  refine ⟨?_, kept, hkept⟩
  by_contra hout
  have hshown := hkept.shown
  rw [List.getD_eq_default _ _ (Nat.le_of_not_lt hout), List.drop_nil, List.prefix_nil,
    List.map_eq_nil_iff] at hshown
  have hlength := hkept.length
  rw [hshown, List.length_nil] at hlength
  omega

end Matches

/-! ### The parts of an output -/

/-- A part of an output: a line that was kept, or a span that was folded. -/
inductive Seg
  | keep (line : Line)
  | fold (span : List Line) (turn : ℕ) (delta : ℤ)

namespace Seg

/-- The lines of the input. -/
def input : Seg → List Line
  | .keep line => [line]
  | .fold span _ _ => span

/-- The line of the output. -/
def output : Seg → Line
  | .keep line => line
  | .fold span turn delta => pointer span turn delta

/-- What later blocks are compared with. -/
def verbatim : Seg → List (Option Line)
  | .keep line => [some line]
  | .fold span _ _ => List.replicate span.length none

end Seg

/-- A folded span has its lines, with their numbers shifted, in an earlier block, one after the
other, and its pointer is shorter. -/
def Faithful (corpus : Corpus) (turns : ℕ → ℕ) (segs : List Seg) : Prop :=
  ∀ span turn delta, Seg.fold span turn delta ∈ segs → span ≠ [] ∧
    (∃ bp < corpus.length, turn = turns bp ∧ ∃ kept : List Line,
      kept.map some <:+: corpus.getD bp [] ∧ span = kept.map (shiftLine delta)) ∧
    Text.utf8Length (pointer span turn delta) < Text.utf8Length (joinLines span)

section Parts

variable {σ : Setting} {anchorIndex : AnchorIndex} {corpus : Corpus}

/-- What the lines of a block become. -/
theorem foldLines_spec (σ : Setting) (anchorIndex : AnchorIndex) (corpus : Corpus) (lines : List Line) :
    ∃ segs, Faithful corpus σ.turns segs ∧ segs.flatMap Seg.input = lines ∧
      (foldLines σ anchorIndex corpus lines).out = segs.map Seg.output ∧
      (foldLines σ anchorIndex corpus lines).verbatim = segs.flatMap Seg.verbatim := by
  fun_induction foldLines σ anchorIndex corpus lines with
  | case1 => exact ⟨[], fun _ _ _ h => absurd h List.not_mem_nil, rfl, rfl, rfl⟩
  | case2 line rest m ptr hfold span pass ih =>
    obtain ⟨segs, hfaithful, hinput, hout, hverbatim⟩ := ih
    obtain ⟨hmatch, rfl, hshort⟩ := foldAt_spec hfold
    obtain ⟨hblock, kept, hkept⟩ := longestMatch_spec hmatch
    have hspan : span = kept.map (shiftLine m.delta) := hkept.shifted
    have hlength : span.length = m.len := by
      rw [hspan, List.length_map, hkept.length]
    refine ⟨.fold span (σ.turns m.blockPos) m.delta :: segs, ?_, ?_, ?_, ?_⟩
    · intro span' turn delta hmem
      rcases List.mem_cons.mp hmem with heq | hmem
      · obtain ⟨rfl, rfl, rfl⟩ := Seg.fold.inj heq
        refine ⟨?_, ⟨m.blockPos, hblock, rfl, kept, ?_, hkept.shifted⟩, hshort⟩
        · intro hnil
          have hpos := len_pos_of_longestMatch hmatch
          rw [← hlength, hnil, List.length_nil] at hpos
          exact absurd hpos (Nat.lt_irrefl 0)
        · exact hkept.shown.isInfix.trans (List.drop_suffix _ _).isInfix
      · exact hfaithful span' turn delta hmem
    · rw [List.flatMap_cons, hinput]
      exact List.take_append_drop m.len (line :: rest)
    · rw [List.map_cons, ← hout]
      rfl
    · show List.replicate m.len none ++ pass.verbatim =
        List.replicate span.length none ++ segs.flatMap Seg.verbatim
      rw [hlength, ← hverbatim]
  | case3 line rest hfold pass ih =>
    obtain ⟨segs, hfaithful, hinput, hout, hverbatim⟩ := ih
    refine ⟨.keep line :: segs, ?_, ?_, ?_, ?_⟩
    · intro span turn delta hmem
      rcases List.mem_cons.mp hmem with heq | hmem
      · exact absurd heq (by simp)
      · exact hfaithful span turn delta hmem
    · rw [List.flatMap_cons, hinput]
      rfl
    · rw [List.map_cons, ← hout]
      rfl
    · rw [List.flatMap_cons, ← hverbatim]
      rfl

variable {kept : List Line}

theorem not_some_prefix_none {entries : List (Option Line)} (hne : kept ≠ []) :
    ¬ kept.map some <+: none :: entries := by
  obtain ⟨line, rest, rfl⟩ := List.exists_cons_of_ne_nil hne
  rw [List.map_cons, List.cons_prefix_cons]
  exact fun h => Option.some_ne_none line h.1

variable {segs : List Seg}

theorem keep_of_prefix (hspans : ∀ span turn delta, Seg.fold span turn delta ∈ segs → span ≠ [])
    (h : kept.map some <+: segs.flatMap Seg.verbatim) : ∃ after, segs = kept.map Seg.keep ++ after := by
  induction kept generalizing segs with
  | nil => exact ⟨segs, rfl⟩
  | cons line kept ih =>
    rcases segs with _ | ⟨line' | ⟨span, turn, delta⟩, segs⟩
    · exact absurd (List.prefix_nil.mp h) (by simp)
    · obtain ⟨hline, hrest⟩ := List.cons_prefix_cons.mp h
      obtain ⟨after, rfl⟩ := ih (fun span turn delta hmem =>
        hspans span turn delta (List.mem_cons_of_mem _ hmem)) hrest
      exact ⟨after, by rw [Option.some.inj hline]; rfl⟩
    · obtain ⟨first, rest, rfl⟩ := List.exists_cons_of_ne_nil (hspans span turn delta List.mem_cons_self)
      exact absurd h (not_some_prefix_none (List.cons_ne_nil _ _))

theorem shown_of_replicate {entries : List (Option Line)} {n : ℕ} (hne : kept ≠ [])
    (h : kept.map some <:+: List.replicate n none ++ entries) : kept.map some <:+: entries := by
  induction n with
  | zero => exact h
  | succ n ih =>
    rw [List.replicate_succ, List.cons_append] at h
    rcases List.infix_cons_iff.mp h with h | h
    · exact absurd h (not_some_prefix_none hne)
    · exact ih h

theorem keep_of_shown (hne : kept ≠ [])
    (hspans : ∀ span turn delta, Seg.fold span turn delta ∈ segs → span ≠ [])
    (h : kept.map some <:+: segs.flatMap Seg.verbatim) :
    ∃ before after, segs = before ++ (kept.map Seg.keep ++ after) := by
  induction segs with
  | nil => exact absurd (List.infix_nil.mp h) (by simpa using hne)
  | cons seg segs ih =>
    have hrest : kept.map some <:+: segs.flatMap Seg.verbatim →
        ∃ before after, seg :: segs = before ++ (kept.map Seg.keep ++ after) := by
      intro h
      obtain ⟨before, after, rfl⟩ := ih (fun span turn delta hmem =>
        hspans span turn delta (List.mem_cons_of_mem _ hmem)) h
      exact ⟨seg :: before, after, rfl⟩
    rcases seg with line | ⟨span, turn, delta⟩
    · rcases List.infix_cons_iff.mp h with hstart | hbehind
      · obtain ⟨after, hafter⟩ := keep_of_prefix hspans hstart
        exact ⟨[], after, hafter⟩
      · exact hrest hbehind
    · exact hrest (shown_of_replicate hne h)

/-- The length of lines with a line feed behind each. -/
theorem utf8Length_joinLines {lines : List Line} (h : lines ≠ []) :
    Text.utf8Length (joinLines lines) + 1 = (lines.map fun l => Text.utf8Length l + 1).sum := by
  induction lines with
  | nil => exact absurd rfl h
  | cons line lines ih =>
    rcases lines with _ | ⟨next, lines⟩
    · simp [joinLines]
    · have hjoin : joinLines (line :: next :: lines) = line ++ '\n' :: joinLines (next :: lines) := by
        rw [joinLines, List.intercalate_cons_cons, List.append_assoc]
        rfl
      have hfeed : '\n'.utf8Size = 1 := by decide
      rw [hjoin, List.map_cons, List.sum_cons, ← ih (List.cons_ne_nil _ _), Text.utf8Length_append,
        Text.utf8Length_cons, hfeed]
      omega

theorem utf8Length_output_le {turns : ℕ → ℕ} (h : Faithful corpus turns segs)
    (hne : segs ≠ []) : Text.utf8Length (joinLines (segs.map Seg.output)) ≤
      Text.utf8Length (joinLines (segs.flatMap Seg.input)) := by
  have hweight : ∀ segs : List Seg, Faithful corpus turns segs →
      ((segs.map Seg.output).map fun l => Text.utf8Length l + 1).sum ≤
        ((segs.flatMap Seg.input).map fun l => Text.utf8Length l + 1).sum := by
    intro segs hsegs
    induction segs with
    | nil => exact le_rfl
    | cons seg segs ih =>
      have hrest := ih fun span turn delta hmem => hsegs span turn delta (List.mem_cons_of_mem _ hmem)
      rw [List.map_cons, List.map_cons, List.sum_cons, List.flatMap_cons, List.map_append, List.sum_append]
      refine Nat.add_le_add ?_ hrest
      rcases seg with line | ⟨span, turn, delta⟩
      · exact le_of_eq (by simp [Seg.output, Seg.input])
      · obtain ⟨hspan, -, hshort⟩ := hsegs span turn delta List.mem_cons_self
        rw [Seg.output, Seg.input, ← utf8Length_joinLines hspan]
        omega
  have hinput : segs.flatMap Seg.input ≠ [] := by
    obtain ⟨seg, rest, rfl⟩ := List.exists_cons_of_ne_nil hne
    rcases seg with line | ⟨span, turn, delta⟩
    · exact List.cons_ne_nil _ _
    · rw [List.flatMap_cons]
      exact List.append_ne_nil_of_left_ne_nil (h span turn delta List.mem_cons_self).1 _
  have hout := utf8Length_joinLines (mt List.map_eq_nil_iff.mp hne : segs.map Seg.output ≠ [])
  have hin := utf8Length_joinLines hinput
  have := hweight segs h
  omega

end Parts

/-! ### Pointers are one line -/

theorem notMem_toString_nat (n : ℕ) : '\n' ∉ (toString n).toList := by
  intro h
  rw [Nat.toString_eq_ofList_toDigits, String.toList_ofList] at h
  exact absurd (Nat.isDigit_of_mem_toDigits (by decide) (by decide) h) (by decide)

theorem notMem_toString_int (n : ℤ) : '\n' ∉ (toString n).toList := by
  rcases n with n | n
  · exact notMem_toString_nat n
  · show '\n' ∉ ("-" ++ toString (n + 1)).toList
    rw [String.toList_append, List.mem_append, not_or]
    exact ⟨by decide, notMem_toString_nat _⟩

theorem notMem_pyRepr (s : List Char) : '\n' ∉ pyRepr s := by
  rw [pyRepr]
  generalize hquote : (if '\'' ∈ s ∧ '"' ∉ s then '"' else '\'') = quote
  have hne : '\n' ≠ quote := by
    rw [← hquote]
    split_ifs <;> decide
  rw [List.mem_cons, List.mem_append, List.mem_singleton, List.mem_flatMap]
  rintro (h | ⟨c, -, hc⟩ | h)
  · exact hne h
  · split_ifs at hc with h1 h2 h3 h4 h5
    · exact absurd hc (by decide)
    · exact absurd hc (by decide)
    · exact absurd hc (by decide)
    · exact absurd hc (by decide)
    · rw [List.mem_pair] at hc
      exact hc.elim (by decide) fun hc => h2 hc.symm
    · exact h2 (List.mem_singleton.mp hc).symm
  · exact hne h

theorem notMem_pointer (span : List Line) (turn : ℕ) (delta : ℤ) : '\n' ∉ pointer span turn delta := by
  have hsigned : '\n' ∉ if delta ≠ 0 then [' '] ++ signed delta ++ ['L'] else [] := by
    split_ifs
    · have := notMem_toString_int delta
      rw [signed]
      split_ifs <;> simp_all
    · exact List.not_mem_nil
  have hfront : '\n' ∉ ['[', '↑'] := by decide
  have hwords : '\n' ∉ "L same as msg ".toList := by decide
  have hcolon : '\n' ∉ [':', ' '] := by decide
  have hback : '\n' ∉ [']'] := by decide
  rw [pointer]
  refine List.not_mem_append (List.not_mem_append (List.not_mem_append (List.not_mem_append
    (List.not_mem_append (List.not_mem_append (List.not_mem_append hfront (notMem_toString_nat _)) hwords)
      (notMem_toString_nat _)) hsigned) hcolon) (notMem_pyRepr _)) hback

theorem notMem_of_mem_splitOn {line text : List Char} (h : line ∈ text.splitOn '\n') : '\n' ∉ line := by
  induction text generalizing line with
  | nil =>
    rw [List.splitOn_nil, List.mem_singleton] at h
    rw [h]
    exact List.not_mem_nil
  | cons c text ih =>
    rw [List.splitOn_cons_eq_if_modifyHead] at h
    split_ifs at h with hc
    · rcases List.mem_cons.mp h with rfl | h
      · exact List.not_mem_nil
      · exact ih h
    · obtain ⟨first, rest, hsplit⟩ := List.exists_cons_of_ne_nil (List.splitOn_ne_nil '\n' text)
      rw [hsplit] at h ih
      rcases List.mem_cons.mp h with rfl | h
      · rw [List.mem_cons, not_or]
        exact ⟨fun heq => hc (beq_iff_eq.mpr heq.symm), ih List.mem_cons_self⟩
      · exact ih (List.mem_cons_of_mem _ h)

/-! ### All blocks -/

/-- What became of one block, against the parts of the outputs before it. -/
structure Part (turns : ℕ → ℕ) (earlier : List (List Seg)) (blk out : DedupBlock) (segs : List Seg) :
    Prop where
  input : segs.flatMap Seg.input = blk.text.splitOn '\n'
  output : segs.map Seg.output = out.text.splitOn '\n'
  turn : out.turn = blk.turn
  unchanged : blk.isProtected = true → out = blk
  short : Text.utf8Length out.text ≤ Text.utf8Length blk.text
  folded : ∀ span turn delta, Seg.fold span turn delta ∈ segs →
    ∃ j segs', earlier[j]? = some segs' ∧ turn = turns j ∧ ∃ kept before after, kept ≠ [] ∧
      segs' = before ++ (kept.map Seg.keep ++ after) ∧ span = kept.map (shiftLine delta)

/-- What became of the blocks, one after the other. -/
inductive Folds (turns : ℕ → ℕ) : List DedupBlock → List DedupBlock → List (List Seg) → Prop
  | nil : Folds turns [] [] []
  | snoc {blocks outs : List DedupBlock} {segss : List (List Seg)} {blk out : DedupBlock}
      {segs : List Seg} (h : Folds turns blocks outs segss) (hpart : Part turns segss blk out segs) :
      Folds turns (blocks ++ [blk]) (outs ++ [out]) (segss ++ [segs])

section Blocks

variable {σ : Setting} {s : DedupState} {segss : List (List Seg)}

theorem splitOn_joinLines {lines : List Line} (hne : lines ≠ []) (h : ∀ l ∈ lines, '\n' ∉ l) :
    (joinLines lines).splitOn '\n' = lines :=
  List.splitOn_intercalate _ h hne

/-- The lines of an output are its parts. -/
theorem splitOn_output {segs : List Seg} {text : List Char} (h : segs.flatMap Seg.input = text.splitOn '\n') :
    (joinLines (segs.map Seg.output)).splitOn '\n' = segs.map Seg.output := by
  refine splitOn_joinLines (fun hnil => ?_) fun l hl => ?_
  · rw [List.map_eq_nil_iff.mp hnil] at h
    exact List.splitOn_ne_nil '\n' text h.symm
  · obtain ⟨seg, hseg, rfl⟩ := List.mem_map.mp hl
    rcases seg with line | ⟨span, turn, delta⟩
    · have hline : line ∈ text.splitOn '\n' := by
        rw [← h, List.mem_flatMap]
        exact ⟨_, hseg, List.mem_singleton_self line⟩
      exact notMem_of_mem_splitOn hline
    · exact notMem_pointer span turn delta

theorem part_dedupStep (σ : Setting) (blk : DedupBlock)
    (hcorpus : s.corpus = segss.map fun segs => segs.flatMap Seg.verbatim)
    (hspans : ∀ segs ∈ segss, ∀ span turn delta, Seg.fold span turn delta ∈ segs → span ≠ []) :
    ∃ out segs, (dedupStep σ s blk).outBlocks = s.outBlocks ++ [out] ∧
      (dedupStep σ s blk).corpus = s.corpus ++ [segs.flatMap Seg.verbatim] ∧
      Part σ.turns segss blk out segs ∧
      ∀ span turn delta, Seg.fold span turn delta ∈ segs → span ≠ [] := by
  rw [dedupStep]
  dsimp only
  by_cases hprotected : blk.isProtected = true
  · rw [if_pos hprotected]
    refine ⟨blk, (blk.text.splitOn '\n').map .keep, rfl, ?_, ⟨?_, ?_, rfl, fun _ => rfl, le_rfl, ?_⟩, ?_⟩
    · rw [List.flatMap_map]
      exact congrArg (fun l => s.corpus ++ [l]) List.map_eq_flatMap
    · rw [List.flatMap_map]
      exact List.flatMap_singleton' _
    · rw [List.map_map]
      exact List.map_id _
    · intro span turn delta hmem
      obtain ⟨line, -, heq⟩ := List.mem_map.mp hmem
      exact absurd heq (by simp)
    · intro span turn delta hmem
      obtain ⟨line, -, heq⟩ := List.mem_map.mp hmem
      exact absurd heq (by simp)
  · rw [if_neg hprotected]
    obtain ⟨segs, hfaithful, hinput, hout, hverbatim⟩ :=
      foldLines_spec σ s.anchorIndex s.corpus (blk.text.splitOn '\n')
    refine ⟨_, segs, rfl, ?_, ⟨hinput, ?_, rfl, fun h => absurd h hprotected, ?_, ?_⟩, ?_⟩
    · rw [hverbatim]
    · rw [hout, splitOn_output hinput]
    · have hne : segs ≠ [] := by
        rintro rfl
        exact List.splitOn_ne_nil '\n' blk.text hinput.symm
      have hle := utf8Length_output_le hfaithful hne
      rw [hinput] at hle
      dsimp only
      rw [hout]
      exact hle.trans (le_of_eq (congrArg _ (List.intercalate_splitOn _)))
    · intro span turn delta hmem
      obtain ⟨hspan, ⟨bp, hbp, hturn, kept, hshown, hshift⟩, -⟩ := hfaithful span turn delta hmem
      have hkept : kept ≠ [] := by
        rintro rfl
        exact hspan hshift
      rw [hcorpus, List.length_map] at hbp
      rw [hcorpus, List.getD_eq_getElem _ _ (by rwa [List.length_map]), List.getElem_map] at hshown
      obtain ⟨before, after, hsplit⟩ := keep_of_shown hkept (hspans _ (List.getElem_mem hbp)) hshown
      exact ⟨bp, segss[bp], List.getElem?_eq_getElem hbp, hturn, kept, before, after, hkept, hsplit, hshift⟩
    · exact fun span turn delta hmem => (hfaithful span turn delta hmem).1

theorem exists_folds (σ : Setting) (blocks : List DedupBlock) (stats : DedupStats) :
    ∃ segss, (blocks.foldl (dedupStep σ) { stats }).corpus =
        segss.map (fun segs => segs.flatMap Seg.verbatim) ∧
      (∀ segs ∈ segss, ∀ span turn delta, Seg.fold span turn delta ∈ segs → span ≠ []) ∧
      Folds σ.turns blocks (blocks.foldl (dedupStep σ) { stats }).outBlocks segss := by
  induction blocks using List.reverseRecOn with
  | nil => exact ⟨[], rfl, fun _ h => absurd h List.not_mem_nil, .nil⟩
  | append_singleton blocks blk ih =>
    obtain ⟨segss, hcorpus, hspans, hfolds⟩ := ih
    obtain ⟨out, segs, hout, hcorpus', hpart, hspans'⟩ := part_dedupStep σ blk hcorpus hspans
    rw [List.foldl_append, List.foldl_cons, List.foldl_nil]
    refine ⟨segss ++ [segs], ?_, ?_, ?_⟩
    · rw [hcorpus', hcorpus, List.map_append]
      rfl
    · intro segs' hmem
      rcases List.mem_append.mp hmem with hmem | hmem
      · exact hspans segs' hmem
      · rw [List.mem_singleton.mp hmem]
        exact hspans'
    · rw [hout]
      exact hfolds.snoc hpart

end Blocks

end Headroom.Transforms
