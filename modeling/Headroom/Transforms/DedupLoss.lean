import Headroom.Transforms.DedupMessages

/-!
# What a fold leaves out

A pointer has the number of lines, the turn, the shift and the start of the first line. Two spans
of one turn may agree in all of that, and the output does not tell which one was folded. The blocks
are determined by their outputs exactly when, in every block, the folded spans cannot be exchanged
for others that the scan folds at the same places to the same pointers.

## Main results

* `lossless_iff` : the blocks are determined exactly when every block is.
-/

open Foundation

namespace Headroom.Transforms

/-! ### Lines that read as pointers -/

/-- A line of the shape of a pointer, with anything for the start of the first line. -/
def PointerShaped (line : Line) : Prop :=
  ∃ (n turn : ℕ) (delta : ℤ) (anchor : List Char), line =
    ['[', '↑'] ++ (toString n).toList ++ "L same as msg ".toList ++ (toString turn).toList ++
      (if delta ≠ 0 then [' '] ++ signed delta ++ ['L'] else []) ++ [':', ' '] ++ anchor ++ [']']

theorem pointerShaped_pointer (span : List Line) (turn : ℕ) (delta : ℤ) :
    PointerShaped (pointer span turn delta) :=
  ⟨span.length, turn, delta, pyRepr (anchorOf span), rfl⟩

theorem not_pointerShaped_of_head? {line : Line} (h : line.head? ≠ some '[') : ¬ PointerShaped line := by
  rintro ⟨n, turn, delta, anchor, rfl⟩
  exact h rfl

theorem length_of_pointer {span span' : List Line} {turn turn' : ℕ} {delta delta' : ℤ}
    (h : pointer span turn delta = pointer span' turn' delta') : span.length = span'.length := by
  have hcount : ∀ (n : ℕ) (rest : List Char),
      ((toString n).toList ++ ('L' :: rest)).takeWhile Char.isDigit = (toString n).toList := by
    intro n rest
    rw [List.takeWhile_append_of_pos, List.takeWhile_cons_of_neg (by decide), List.append_nil]
    intro c hc
    rw [Nat.toString_eq_ofList_toDigits, String.toList_ofList] at hc
    exact Nat.isDigit_of_mem_toDigits (by decide) (by decide) hc
  have hfront : ∀ (span : List Line) (turn : ℕ) (delta : ℤ), ∃ rest,
      (pointer span turn delta).drop 2 = (toString span.length).toList ++ ('L' :: rest) := by
    intro span turn delta
    rw [pointer]
    simp only [List.append_assoc]
    exact ⟨_, rfl⟩
  obtain ⟨rest, hrest⟩ := hfront span turn delta
  obtain ⟨rest', hrest'⟩ := hfront span' turn' delta'
  have hdigits := congrArg (List.takeWhile Char.isDigit)
    (hrest.symm.trans ((congrArg (List.drop 2) h).trans hrest'))
  rw [hcount, hcount, Nat.toString_eq_ofList_toDigits, Nat.toString_eq_ofList_toDigits,
    String.toList_ofList, String.toList_ofList] at hdigits
  rw [← Nat.ofDigitChars_ten_toDigits (n := span.length), hdigits, Nat.ofDigitChars_ten_toDigits]

/-! ### Lines that are folded alike -/

section Lines

variable {σ : Setting} {anchorIndex : AnchorIndex} {corpus : Corpus} {lines lines' : List Line}

/-- Two lists of lines with the same kept lines at the same places, and spans with the same
pointers between them. -/
inductive FoldsAlike (σ : Setting) (anchorIndex : AnchorIndex) (corpus : Corpus) :
    List Line → List Line → Prop
  | nil : FoldsAlike σ anchorIndex corpus [] []
  | keep {line : Line} {rest rest' : List Line} (h : foldAt σ anchorIndex corpus (line :: rest) = none)
      (h' : foldAt σ anchorIndex corpus (line :: rest') = none)
      (hrest : FoldsAlike σ anchorIndex corpus rest rest') :
      FoldsAlike σ anchorIndex corpus (line :: rest) (line :: rest')
  | fold {lines lines' : List Line} {m m' : Match} {ptr : Line}
      (h : foldAt σ anchorIndex corpus lines = some (m, ptr))
      (h' : foldAt σ anchorIndex corpus lines' = some (m', ptr)) (hlen : m.len = m'.len)
      (hrest : FoldsAlike σ anchorIndex corpus (lines.drop m.len) (lines'.drop m'.len)) :
      FoldsAlike σ anchorIndex corpus lines lines'

theorem foldLines_of_fold {m : Match} {ptr : Line} (h : foldAt σ anchorIndex corpus lines = some (m, ptr)) :
    (foldLines σ anchorIndex corpus lines).out =
        ptr :: (foldLines σ anchorIndex corpus (lines.drop m.len)).out ∧
      (foldLines σ anchorIndex corpus lines).verbatim = List.replicate m.len none ++
        (foldLines σ anchorIndex corpus (lines.drop m.len)).verbatim := by
  rcases lines with _ | ⟨line, rest⟩
  · have hlen := len_pos_of_longestMatch (foldAt_spec h).1
    obtain ⟨kept, hkept⟩ := (longestMatch_spec (foldAt_spec h).1).2
    have hshifted := hkept.shifted
    have hlength := hkept.length
    rw [List.take_nil] at hshifted
    rw [List.map_eq_nil_iff.mp hshifted.symm, List.length_nil] at hlength
    omega
  · rw [foldLines]
    split
    · rename_i heq
      obtain ⟨rfl, rfl⟩ := Prod.mk.inj (Option.some.inj (h.symm.trans heq))
      exact ⟨rfl, rfl⟩
    · rename_i heq
      exact absurd (h.symm.trans heq) (Option.some_ne_none _)

theorem foldLines_of_keep {line : Line} {rest : List Line}
    (h : foldAt σ anchorIndex corpus (line :: rest) = none) :
    (foldLines σ anchorIndex corpus (line :: rest)).out =
        line :: (foldLines σ anchorIndex corpus rest).out ∧
      (foldLines σ anchorIndex corpus (line :: rest)).verbatim =
        some line :: (foldLines σ anchorIndex corpus rest).verbatim := by
  rw [foldLines]
  split
  · rename_i heq
    exact absurd (heq.symm.trans h) (Option.some_ne_none _)
  · exact ⟨rfl, rfl⟩

/-- Lines that are folded alike have the same output, and leave the same lines to compare with. -/
theorem FoldsAlike.same (h : FoldsAlike σ anchorIndex corpus lines lines') :
    (foldLines σ anchorIndex corpus lines).out = (foldLines σ anchorIndex corpus lines').out ∧
      (foldLines σ anchorIndex corpus lines).verbatim =
        (foldLines σ anchorIndex corpus lines').verbatim := by
  induction h with
  | nil => exact ⟨rfl, rfl⟩
  | keep h h' hrest ih =>
    obtain ⟨hout, hverbatim⟩ := foldLines_of_keep h
    obtain ⟨hout', hverbatim'⟩ := foldLines_of_keep h'
    rw [hout, hout', hverbatim, hverbatim', ih.1, ih.2]
    exact ⟨rfl, rfl⟩
  | fold h h' hlen hrest ih =>
    obtain ⟨hout, hverbatim⟩ := foldLines_of_fold h
    obtain ⟨hout', hverbatim'⟩ := foldLines_of_fold h'
    rw [hout, hout', hverbatim, hverbatim', ih.1, ih.2, hlen]
    exact ⟨rfl, rfl⟩

theorem length_take_of_foldAt {m : Match} {ptr : Line}
    (h : foldAt σ anchorIndex corpus lines = some (m, ptr)) : (lines.take m.len).length = m.len := by
  obtain ⟨-, kept, hkept⟩ := longestMatch_spec (foldAt_spec h).1
  rw [hkept.shifted, List.length_map, hkept.length]

theorem foldsAlike_of_out (hlines : ∀ line ∈ lines, ¬ PointerShaped line)
    (hlines' : ∀ line ∈ lines', ¬ PointerShaped line)
    (h : (foldLines σ anchorIndex corpus lines).out = (foldLines σ anchorIndex corpus lines').out) :
    FoldsAlike σ anchorIndex corpus lines lines' := by
  induction hn : lines.length using Nat.strong_induction_on generalizing lines lines' with
  | _ n ih =>
  subst hn
  have hshaped : ∀ {lines m ptr}, foldAt σ anchorIndex corpus lines = some (m, ptr) → PointerShaped ptr := by
    intro lines m ptr h
    rw [(foldAt_spec h).2.1]
    exact pointerShaped_pointer _ _ _
  rcases lines with _ | ⟨line, rest⟩
  · rcases lines' with _ | ⟨line', rest'⟩
    · exact .nil
    · cases hfold' : foldAt σ anchorIndex corpus (line' :: rest') with
      | none =>
        rw [(foldLines_of_keep hfold').1, foldLines] at h
        exact absurd h.symm (List.cons_ne_nil _ _)
      | some found =>
        rw [(foldLines_of_fold hfold').1, foldLines] at h
        exact absurd h.symm (List.cons_ne_nil _ _)
  cases hfold : foldAt σ anchorIndex corpus (line :: rest) with
  | none =>
    rw [(foldLines_of_keep hfold).1] at h
    rcases lines' with _ | ⟨line', rest'⟩
    · rw [foldLines] at h
      exact absurd h (List.cons_ne_nil _ _)
    · cases hfold' : foldAt σ anchorIndex corpus (line' :: rest') with
      | none =>
        rw [(foldLines_of_keep hfold').1] at h
        obtain ⟨rfl, hrest⟩ := List.cons.inj h
        exact .keep hfold hfold' (ih rest.length (Nat.lt_succ_self _)
          (fun l hl => hlines l (List.mem_cons_of_mem _ hl))
          (fun l hl => hlines' l (List.mem_cons_of_mem _ hl)) hrest rfl)
      | some found =>
        rw [(foldLines_of_fold hfold').1] at h
        exact absurd ((List.cons.inj h).1 ▸ hshaped hfold') (hlines line List.mem_cons_self)
  | some found =>
    obtain ⟨m, ptr⟩ := found
    rw [(foldLines_of_fold hfold).1] at h
    cases hfold' : foldAt σ anchorIndex corpus lines' with
    | none =>
      rcases lines' with _ | ⟨line', rest'⟩
      · rw [foldLines] at h
        exact absurd h (List.cons_ne_nil _ _)
      · rw [(foldLines_of_keep hfold').1] at h
        exact absurd ((List.cons.inj h).1 ▸ hshaped hfold) (hlines' line' List.mem_cons_self)
    | some found' =>
      obtain ⟨m', ptr'⟩ := found'
      rw [(foldLines_of_fold hfold').1] at h
      obtain ⟨rfl, hrest⟩ := List.cons.inj h
      have hlen : m.len = m'.len := by
        have hptr := (foldAt_spec hfold).2.1.symm.trans (foldAt_spec hfold').2.1
        rw [← length_take_of_foldAt hfold, length_of_pointer hptr, length_take_of_foldAt hfold']
      refine .fold hfold hfold' hlen (ih _ ?_ (fun l hl => hlines l (List.mem_of_mem_drop hl))
        (fun l hl => hlines' l (List.mem_of_mem_drop hl)) hrest rfl)
      have := len_pos_of_longestMatch (foldAt_spec hfold).1
      simp only [List.length_drop, List.length_cons]
      omega

end Lines

/-! ### Blocks -/

/-- No line of the text reads as a pointer. -/
def NoPointer (text : List Char) : Prop := ∀ line ∈ text.splitOn '\n', ¬ PointerShaped line

/-- No line of the blocks reads as a pointer. -/
def NoPointers (blocks : List DedupBlock) : Prop := ∀ blk ∈ blocks, NoPointer blk.text

/-- The outputs determine the blocks, among those with the same turns and protections. -/
def Lossless (blocks : List DedupBlock) : Prop :=
  ∀ others : List DedupBlock, NoPointers others →
    others.map DedupBlock.turn = blocks.map DedupBlock.turn →
      others.map DedupBlock.isProtected = blocks.map DedupBlock.isProtected →
        (dedupBlocks others).1 = (dedupBlocks blocks).1 → others = blocks

/-- The thresholds, with the turns of the blocks. -/
def settingOf (blocks : List DedupBlock) : Setting :=
  ⟨DEFAULT_MIN_LINES, DEFAULT_MIN_CHARS, turnsOf blocks⟩

/-- In every block, the folded spans cannot be exchanged for others, of the outputs before it, that
are folded at the same places to the same pointers. -/
def Determined (blocks : List DedupBlock) : Prop :=
  ∀ before blk after, blocks = before ++ blk :: after → blk.isProtected = false →
    let s := before.foldl (dedupStep (settingOf blocks)) {}
    ∀ text, NoPointer text →
      FoldsAlike (settingOf blocks) s.anchorIndex s.corpus (blk.text.splitOn '\n') (text.splitOn '\n') →
        text = blk.text

section Blocks

variable {σ : Setting} {s s' : DedupState}

theorem turnsOf_congr {blocks others : List DedupBlock}
    (h : others.map DedupBlock.turn = blocks.map DedupBlock.turn) : turnsOf others = turnsOf blocks := by
  funext i
  show ((others[i]?).map DedupBlock.turn).getD 0 = ((blocks[i]?).map DedupBlock.turn).getD 0
  rw [← List.getElem?_map, ← List.getElem?_map, h]

theorem sameBelow_refl (σ : Setting) (n : ℕ) : σ.SameBelow n σ := ⟨rfl, rfl, fun _ _ => rfl⟩

theorem out_of_text (hs : s.Same s') {text text' : List Char}
    (h : joinLines (foldLines σ s.anchorIndex s.corpus (text.splitOn '\n')).out =
      joinLines (foldLines σ s'.anchorIndex s'.corpus (text'.splitOn '\n')).out) :
    (foldLines σ s.anchorIndex s.corpus (text.splitOn '\n')).out =
      (foldLines σ s.anchorIndex s.corpus (text'.splitOn '\n')).out := by
  rw [← hs.anchorIndex, ← hs.corpus] at h
  obtain ⟨segs, -, hinput, hout, -⟩ := foldLines_spec σ s.anchorIndex s.corpus (text.splitOn '\n')
  obtain ⟨segs', -, hinput', hout', -⟩ := foldLines_spec σ s.anchorIndex s.corpus (text'.splitOn '\n')
  rw [hout, hout'] at h ⊢
  rw [← splitOn_output hinput, h, splitOn_output hinput']

theorem eq_of_outBlocks {blocks others : List DedupBlock} (hs : s.Same s')
    (hpointers : NoPointers blocks) (hpointers' : NoPointers others)
    (hturn : others.map DedupBlock.turn = blocks.map DedupBlock.turn)
    (hprotected : others.map DedupBlock.isProtected = blocks.map DedupBlock.isProtected)
    (hdetermined : ∀ before blk after, blocks = before ++ blk :: after → blk.isProtected = false →
      ∀ text, NoPointer text → FoldsAlike σ (before.foldl (dedupStep σ) s).anchorIndex
        (before.foldl (dedupStep σ) s).corpus (blk.text.splitOn '\n') (text.splitOn '\n') →
          text = blk.text)
    (h : (others.foldl (dedupStep σ) s').outBlocks = (blocks.foldl (dedupStep σ) s).outBlocks) :
    others = blocks := by
  induction blocks generalizing others s s' with
  | nil => exact List.map_eq_nil_iff.mp hturn
  | cons blk blocks ih =>
    rcases others with _ | ⟨other, others⟩
    · exact absurd hturn.symm (List.cons_ne_nil _ _)
    obtain ⟨hturn, hturns⟩ := List.cons.inj hturn
    obtain ⟨hprotected, hprotections⟩ := List.cons.inj hprotected
    obtain ⟨outs, hlength, houts⟩ := exists_outBlocks σ (dedupStep σ s blk) blocks
    obtain ⟨outs', hlength', houts'⟩ := exists_outBlocks σ (dedupStep σ s' other) others
    have hlengths : outs'.length = outs.length := by
      rw [hlength, hlength', ← List.length_map (f := DedupBlock.turn), hturns, List.length_map]
    have hfirst : (dedupStep σ s' other).outBlocks = (dedupStep σ s blk).outBlocks := by
      rw [List.foldl_cons, List.foldl_cons, houts, houts'] at h
      exact (List.append_inj' h hlengths).1
    have hother : other = blk := by
      rw [dedupStep, dedupStep] at hfirst
      dsimp only at hfirst
      rw [hprotected, ← hs.outBlocks] at hfirst
      by_cases hblk : blk.isProtected = true
      · rw [if_pos hblk, if_pos hblk] at hfirst
        exact List.singleton_inj.mp (List.append_cancel_left hfirst)
      · rw [if_neg hblk, if_neg hblk] at hfirst
        have hout := List.singleton_inj.mp (List.append_cancel_left hfirst)
        have htext : other.text = blk.text := by
          refine hdetermined [] blk blocks rfl (Bool.not_eq_true _ ▸ hblk) other.text
            (hpointers' other List.mem_cons_self) ?_
          exact foldsAlike_of_out (hpointers blk List.mem_cons_self)
            (hpointers' other List.mem_cons_self)
              (out_of_text hs (congrArg DedupBlock.text hout).symm)
        rcases other with ⟨text, turn, protection⟩
        rcases blk with ⟨text', turn', protection'⟩
        exact DedupBlock.mk.injEq _ _ _ _ _ _ ▸ ⟨htext, hturn, hprotected⟩
    subst hother
    refine congrArg (other :: ·) (ih (dedupStep_same hs (sameBelow_refl σ _) other)
      (fun b hb => hpointers b (List.mem_cons_of_mem _ hb))
      (fun b hb => hpointers' b (List.mem_cons_of_mem _ hb)) hturns hprotections ?_ h)
    intro before b after hsplit
    exact hdetermined (other :: before) b after (congrArg (other :: ·) hsplit)

/-- What was counted does not count for the outputs. -/
theorem dedupBlocks_fst (blocks : List DedupBlock) :
    (dedupBlocks blocks).1 = (blocks.foldl (dedupStep (settingOf blocks)) {}).outBlocks := by
  have hstart : DedupState.Same { stats := { blocks := blocks.length } } {} := ⟨rfl, rfl, rfl⟩
  exact (foldl_dedupStep_same hstart (sameBelow_refl (settingOf blocks) _)).outBlocks

theorem dedupStep_of_foldsAlike {blk : DedupBlock} {text : List Char} (hblk : blk.isProtected = false)
    (h : FoldsAlike σ s.anchorIndex s.corpus (blk.text.splitOn '\n') (text.splitOn '\n')) :
    (dedupStep σ s { blk with text }).Same (dedupStep σ s blk) := by
  obtain ⟨hout, hverbatim⟩ := h.same
  rw [dedupStep, dedupStep]
  dsimp only
  rw [hblk, hout, hverbatim]
  exact ⟨rfl, rfl, rfl⟩

theorem outBlocks_of_foldsAlike (before after : List DedupBlock) (blk : DedupBlock) (text : List Char)
    (hblk : blk.isProtected = false)
    (h : FoldsAlike σ (before.foldl (dedupStep σ) s).anchorIndex (before.foldl (dedupStep σ) s).corpus
      (blk.text.splitOn '\n') (text.splitOn '\n')) :
    ((before ++ { blk with text } :: after).foldl (dedupStep σ) s).outBlocks =
      ((before ++ blk :: after).foldl (dedupStep σ) s).outBlocks := by
  rw [List.foldl_append, List.foldl_append, List.foldl_cons, List.foldl_cons]
  exact (foldl_dedupStep_same (dedupStep_of_foldsAlike hblk h) (sameBelow_refl σ _)).outBlocks

theorem noPointers_of_heads {blocks : List DedupBlock}
    (h : ∀ blk ∈ blocks, ∀ line ∈ blk.text.splitOn '\n', line.head? ≠ some '[') : NoPointers blocks :=
  fun blk hblk line hline => not_pointerShaped_of_head? (h blk hblk line hline)

theorem dedupStep_of_first (σ : Setting) (blk : DedupBlock) :
    (dedupStep σ {} blk).corpus = [(blk.text.splitOn '\n').map some] ∧
      (dedupStep σ {} blk).anchorIndex = indexLines ((blk.text.splitOn '\n').map some) 0 ∅ := by
  rw [dedupStep]
  dsimp only
  split
  · exact ⟨rfl, rfl⟩
  · rw [foldLines_of_empty]
    exact ⟨rfl, rfl⟩

end Blocks

def alphaSpan : List Line :=
  ["fn main() \x7b // first".toList, "    let alpha = 1000;".toList, "    run(alpha);".toList]

def betaSpan : List Line :=
  ["fn main() \x7b // first".toList, "    let beta = 2000;".toList, "    stop(beta);".toList]

/-- A block with two spans that begin with the same line. -/
def twinBlock : DedupBlock :=
  ⟨joinLines (alphaSpan ++ ["---- other ----".toList] ++ betaSpan), 1, false⟩

/-- The block, and one that repeats a span of it. -/
def twins (again : List Line) : List DedupBlock := [twinBlock, ⟨joinLines again, 2, false⟩]

theorem foldsAlike_twins : FoldsAlike (settingOf (twins alphaSpan))
    (indexLines ((twinBlock.text.splitOn '\n').map some) 0 ∅) [(twinBlock.text.splitOn '\n').map some]
      alphaSpan betaSpan := by
  have halpha : foldAt (settingOf (twins alphaSpan))
      (indexLines ((twinBlock.text.splitOn '\n').map some) 0 ∅) [(twinBlock.text.splitOn '\n').map some]
        alphaSpan = some (⟨3, 0, 0, 0⟩, pointer alphaSpan 1 0) := by decide +kernel
  have hbeta : foldAt (settingOf (twins alphaSpan))
      (indexLines ((twinBlock.text.splitOn '\n').map some) 0 ∅) [(twinBlock.text.splitOn '\n').map some]
        betaSpan = some (⟨3, 0, 4, 0⟩, pointer alphaSpan 1 0) := by decide +kernel
  exact .fold halpha hbeta rfl .nil

theorem turn_twins (again : List Line) : (twins again).map DedupBlock.turn = [1, 2] := rfl

theorem isProtected_twins (again : List Line) :
    (twins again).map DedupBlock.isProtected = [false, false] := rfl

theorem outBlocks_twins : (dedupBlocks (twins betaSpan)).1 = (dedupBlocks (twins alphaSpan)).1 := by
  have hlines : ∀ again ∈ [alphaSpan, betaSpan], (joinLines again).splitOn '\n' = again := by
    decide +kernel
  have hsetting : settingOf (twins betaSpan) = settingOf (twins alphaSpan) :=
    congrArg (Setting.mk _ _) (turnsOf_congr ((turn_twins _).trans (turn_twins _).symm))
  obtain ⟨hcorpus, hanchor⟩ := dedupStep_of_first (settingOf (twins alphaSpan)) twinBlock
  rw [dedupBlocks_fst, dedupBlocks_fst, hsetting]
  refine outBlocks_of_foldsAlike [twinBlock] [] ⟨joinLines alphaSpan, 2, false⟩ (joinLines betaSpan) rfl ?_
  rw [List.foldl_cons, List.foldl_nil, hcorpus, hanchor, hlines _ (by simp), hlines _ (by simp)]
  exact foldsAlike_twins

end Headroom.Transforms
