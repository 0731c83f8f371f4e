import Headroom.Transforms.DedupSpans
import Headroom.Transforms.LosslessKinds

/-!
# Run and block folds are reversed exactly

A text without a line of a marker's shape comes back from a fold: each run marker stands behind the line that it
repeats, and each block marker is met when the lines that it points to have been put back. A block fold of collapsed
runs is reversed to the collapsed runs first, so that a marker inside of a folded block, or cut off from its line by
one, is in its place again when runs are expanded.
-/

open Foundation

namespace Headroom.Transforms

/-! ### Texts and their lines -/

/-- The lines of a text that is not empty, and whether the last of them is ended. -/
structure IsSplit (lines : List Line) (hadTrailing : Bool) : Prop where
  ne : lines ≠ []
  clean : ∀ l ∈ lines, '\n' ∉ l
  last : hadTrailing = false → lines.getLast? ≠ some []

section Lines

variable {lines : List Line} {line : Line} {hadTrailing : Bool} {text : List Char} {f g : List Line → List Line}

theorem joinLines_concat {front : List Line} (hne : front ≠ []) (line : Line) :
    joinLines (front ++ [line]) = joinLines front ++ '\n' :: line := by
  induction front with
  | nil => exact absurd rfl hne
  | cons l front ih =>
    have hmore : front ++ [line] ≠ [] := List.append_ne_nil_of_right_ne_nil _ (List.cons_ne_nil _ _)
    rw [List.cons_append, joinLines, List.intercalate_cons_of_ne_nil hmore]
    cases front with
    | nil => simp [joinLines]
    | cons l' front =>
      have hrest : ['\n'].intercalate (l' :: front ++ [line]) = ['\n'].intercalate (l' :: front) ++ '\n' :: line :=
        ih (List.cons_ne_nil _ _)
      have hfirst : joinLines (l :: l' :: front) = l ++ ['\n'] ++ ['\n'].intercalate (l' :: front) :=
        List.intercalate_cons_of_ne_nil (List.cons_ne_nil l' front)
      rw [hrest, hfirst, List.append_assoc, List.append_assoc, List.append_assoc]

theorem suffix_joinLines (front : List Line) (line : Line) : line <:+ joinLines (front ++ [line]) := by
  by_cases hne : front = []
  · rw [hne, joinLines, List.nil_append, List.intercalate_singleton]
  · rw [joinLines_concat hne, ← List.singleton_append, ← List.append_assoc]
    exact List.suffix_append _ _

theorem IsSplit.splitKeepTrailing_join (h : IsSplit lines hadTrailing) :
    splitKeepTrailing (join lines hadTrailing) = (lines, hadTrailing) := by
  have hsplit : (joinLines lines).splitOn '\n' = lines := List.splitOn_intercalate '\n' h.clean h.ne
  cases hadTrailing with
  | true =>
    show splitKeepTrailing (joinLines lines ++ ['\n']) = _
    rw [splitKeepTrailing, if_neg (List.append_ne_nil_of_right_ne_nil _ (List.cons_ne_nil _ _)),
      List.getLast?_concat, if_pos rfl, List.dropLast_concat, hsplit]
  | false =>
    obtain ⟨front, line, rfl⟩ := (List.eq_nil_or_concat lines).resolve_left h.ne
    rw [List.concat_eq_append] at *
    have hline : line ≠ [] := by
      rintro rfl
      exact h.last rfl List.getLast?_concat
    obtain ⟨before, hbefore⟩ := suffix_joinLines front line
    have hlast : (joinLines (front ++ [line])).getLast? = some (line.getLast hline) := by
      rw [← hbefore, List.getLast?_append_of_ne_nil _ hline, List.getLast?_eq_some_getLast hline]
    have hne : joinLines (front ++ [line]) ≠ [] := by
      intro hnil
      rw [hnil] at hlast
      exact absurd hlast nofun
    have hclean : line.getLast hline ≠ '\n' := fun heq =>
      h.clean line (List.mem_append_right _ (List.mem_singleton_self _)) (heq ▸ List.getLast_mem hline)
    show splitKeepTrailing (joinLines (front ++ [line]) ++ []) = _
    rw [List.append_nil, splitKeepTrailing, if_neg hne, hlast, if_neg fun heq => hclean (Option.some.inj heq), hsplit]

theorem join_splitKeepTrailing (hne : text ≠ []) :
    join (splitKeepTrailing text).1 (splitKeepTrailing text).2 = text := by
  rw [splitKeepTrailing, if_neg hne]
  split_ifs with hlast
  · obtain ⟨front, c, rfl⟩ := (List.eq_nil_or_concat text).resolve_left hne
    rw [List.concat_eq_append] at *
    rw [List.getLast?_concat] at hlast
    rw [join, if_pos rfl, List.dropLast_concat, joinLines, List.intercalate_splitOn, Option.some.inj hlast]
  · rw [join, if_neg Bool.false_ne_true, List.append_nil, joinLines, List.intercalate_splitOn]

theorem isSplit_splitKeepTrailing (hne : text ≠ []) :
    IsSplit (splitKeepTrailing text).1 (splitKeepTrailing text).2 := by
  rw [splitKeepTrailing, if_neg hne]
  split_ifs with hlast
  · exact ⟨List.splitOn_ne_nil _ _, fun l hl => notMem_of_mem_splitOn hl, fun h => absurd h nofun⟩
  · refine ⟨List.splitOn_ne_nil _ _, fun l hl => notMem_of_mem_splitOn hl, fun _ hempty => hlast ?_⟩
    -- A last line that is empty stands behind a line feed.
    obtain ⟨front, line, hsplit⟩ := (List.eq_nil_or_concat (text.splitOn '\n')).resolve_left
      (List.splitOn_ne_nil _ _)
    rw [List.concat_eq_append] at hsplit
    dsimp only at hempty
    rw [hsplit, List.getLast?_concat] at hempty
    obtain rfl : line = [] := Option.some.inj hempty
    have htext : text = joinLines (front ++ [[]]) := by rw [← hsplit, joinLines, List.intercalate_splitOn]
    by_cases hfront : front = []
    · rw [hfront] at htext
      exact absurd htext hne
    · rw [htext, joinLines_concat hfront, List.getLast?_concat]

theorem lines_ne_nil_iff : (splitKeepTrailing text).1 ≠ [] ↔ text ≠ [] := by
  constructor
  · rintro h rfl
    exact h rfl
  · intro h
    exact (isSplit_splitKeepTrailing h).ne

/-- What a function of lines makes of a text that is not empty. -/
theorem onLines_of_ne (hne : text ≠ []) :
    onLines f text = join (f (splitKeepTrailing text).1) (splitKeepTrailing text).2 := by
  rw [onLines]
  exact if_neg (lines_ne_nil_iff.mpr hne)

/-- The lines of what a function of lines gives. -/
theorem splitKeepTrailing_onLines (hne : text ≠ [])
    (h : IsSplit (f (splitKeepTrailing text).1) (splitKeepTrailing text).2) :
    splitKeepTrailing (onLines f text) = (f (splitKeepTrailing text).1, (splitKeepTrailing text).2) := by
  rw [onLines_of_ne hne, h.splitKeepTrailing_join]

theorem IsSplit.join_ne_nil (h : IsSplit lines hadTrailing) : join lines hadTrailing ≠ [] := by
  intro hnil
  have hlines := h.splitKeepTrailing_join
  rw [hnil] at hlines
  exact h.ne (congrArg Prod.fst hlines).symm

theorem onLines_onLines (hne : text ≠ [])
    (h : IsSplit (f (splitKeepTrailing text).1) (splitKeepTrailing text).2)
    (hback : g (f (splitKeepTrailing text).1) = (splitKeepTrailing text).1) : onLines g (onLines f text) = text := by
  have hlines := splitKeepTrailing_onLines hne h
  have hfold : onLines f text ≠ [] := by
    rw [onLines_of_ne hne]
    exact h.join_ne_nil
  rw [onLines_of_ne hfold, hlines, hback, join_splitKeepTrailing hne]

end Lines

/-! ### Markers -/

section Markers

theorem toList_toString (n : ℕ) : (toString n).toList = Nat.toDigits 10 n := by
  rw [Nat.toString_eq_ofList_toDigits, String.toList_ofList]

theorem isDecimalDigit_of_isDigit {c : Char} (h : c.isDigit = true) : Text.isDecimalDigit c = true := by
  obtain ⟨hlow, hhigh⟩ := Char.isDigit_iff_toNat.mp h
  have hlow' : 0x30 ≤ c.toNat := hlow
  have hhigh' : c.toNat ≤ 0x30 + 9 := hhigh
  rw [Text.isDecimalDigit, List.any_eq_true]
  exact ⟨0x30, List.mem_cons_self, by simp only [hlow', hhigh', decide_true, Bool.and_self]⟩

theorem isDigit_of_mem_toDigits {n : ℕ} {c : Char} (h : c ∈ Nat.toDigits 10 n) : c.isDigit = true :=
  Nat.isDigit_of_mem_toDigits (by decide) (by decide) h

theorem parseUsize?_toDigits {n : ℕ} (h : n < 2 ^ 64) : parseUsize? (Nat.toDigits 10 n) = some n := by
  have hne : Nat.toDigits 10 n ≠ [] := Nat.toDigits_ne_nil
  have hall : (Nat.toDigits 10 n).all Char.isDigit = true := List.all_eq_true.mpr fun c hc => isDigit_of_mem_toDigits hc
  rw [parseUsize?, Nat.ofDigitChars_ten_toDigits, if_pos ⟨hne, hall, h⟩]

/-- Digits are read up to what is no digit. -/
theorem digitsAfter?_append (before : String) (n : ℕ) {c : Char} (hc : Text.isDecimalDigit c = false)
    (rest : List Char) :
    digitsAfter? before (before.toList ++ (Nat.toDigits 10 n ++ c :: rest)) = some (Nat.toDigits 10 n, c :: rest) := by
  have hprefix : before.toList.isPrefixOf (before.toList ++ (Nat.toDigits 10 n ++ c :: rest)) = true :=
    List.isPrefixOf_iff_prefix.mpr (List.prefix_append _ _)
  have hdrop : (before.toList ++ (Nat.toDigits 10 n ++ c :: rest)).drop before.length =
      Nat.toDigits 10 n ++ c :: rest := by
    rw [← String.length_toList, List.drop_left]
  have htake : (Nat.toDigits 10 n ++ c :: rest).takeWhile Text.isDecimalDigit = Nat.toDigits 10 n := by
    rw [List.takeWhile_append_of_pos fun d hd => isDecimalDigit_of_isDigit (isDigit_of_mem_toDigits hd),
      List.takeWhile_cons_of_neg (by rw [hc]; exact Bool.false_ne_true), List.append_nil]
  rw [digitsAfter?, if_pos hprefix]
  dsimp only
  rw [hdrop, htake, if_neg Nat.toDigits_ne_nil, List.drop_left]

theorem runMarker_eq (n : ℕ) :
    runMarker n = "... (repeated ".toList ++ (Nat.toDigits 10 n ++ ' ' :: "times)".toList) := by
  have hconcat : s!"... (repeated {n} times)" = "... (repeated " ++ toString n ++ " times)" := rfl
  rw [runMarker, hconcat, String.toList_append, String.toList_append, toList_toString, List.append_assoc]
  rfl

theorem runMarker?_runMarker (n : ℕ) : runMarker? (runMarker n) = some (Nat.toDigits 10 n) := by
  rw [runMarker?, runMarker_eq, digitsAfter?_append _ _ (by decide)]
  rfl

theorem blockMarker_eq (len dist : ℕ) :
    blockMarker len dist = "... (repeats ".toList ++ (Nat.toDigits 10 len ++ ' ' :: ("lines from ".toList ++
      (Nat.toDigits 10 dist ++ ' ' :: "lines back)".toList))) := by
  have hconcat : s!"... (repeats {len} lines from {dist} lines back)" =
      "... (repeats " ++ toString len ++ " lines from " ++ toString dist ++ " lines back)" := rfl
  rw [blockMarker, hconcat]
  simp only [String.toList_append, toList_toString, List.append_assoc]
  rfl

theorem blockMarker?_blockMarker (len dist : ℕ) :
    blockMarker? (blockMarker len dist) = some (Nat.toDigits 10 len, Nat.toDigits 10 dist) := by
  have hsecond := digitsAfter?_append " lines from " dist (c := ' ') (by decide) "lines back)".toList
  have htext : " lines from ".toList ++ (Nat.toDigits 10 dist ++ ' ' :: "lines back)".toList) =
      ' ' :: ("lines from ".toList ++ (Nat.toDigits 10 dist ++ ' ' :: "lines back)".toList)) := rfl
  rw [htext] at hsecond
  rw [blockMarker?, blockMarker_eq, digitsAfter?_append _ _ (by decide)]
  dsimp only
  rw [hsecond]
  rfl

theorem blockMarker?_runMarker (n : ℕ) : blockMarker? (runMarker n) = none := by
  rw [blockMarker?, digitsAfter?, runMarker_eq]
  rfl

theorem clean_runMarker (n : ℕ) : '\n' ∉ runMarker n := by
  rw [runMarker_eq]
  simp only [List.mem_append, List.mem_cons, not_or]
  refine ⟨by decide, fun h => ?_, by decide, by decide⟩
  exact absurd (isDigit_of_mem_toDigits h) (by decide)

theorem clean_blockMarker (len dist : ℕ) : '\n' ∉ blockMarker len dist := by
  have hdigits : ∀ n, '\n' ∉ Nat.toDigits 10 n := fun n h => absurd (isDigit_of_mem_toDigits h) (by decide)
  rw [blockMarker_eq]
  simp only [List.mem_append, List.mem_cons, not_or]
  exact ⟨by decide, hdigits len, by decide, by decide, hdigits dist, by decide, by decide⟩

theorem runMarker_ne_nil (n : ℕ) : runMarker n ≠ [] := by
  rw [runMarker_eq]
  exact List.append_ne_nil_of_left_ne_nil (by decide) _

theorem blockMarker_ne_nil (len dist : ℕ) : blockMarker len dist ≠ [] := by
  rw [blockMarker_eq]
  exact List.append_ne_nil_of_left_ne_nil (by decide) _

end Markers

/-! ### Runs -/

/-- A run with its marker. -/
def markedRun (run : Line × ℕ) : List Line := if 2 ≤ run.2 then [run.1, runMarker run.2] else [run.1]

/-- The lines with their runs collapsed. -/
def collapseLines (lines : List Line) : List Line := (lineRuns lines).flatMap markedRun

theorem collapseRuns_eq (text : List Char) : collapseRuns text = onLines collapseLines text := rfl

theorem expandRuns_eq (text : List Char) : expandRuns text = onLines expandLines text := rfl

section Runs

variable {lines rest : List Line} {line : Line} {runs : List (Line × ℕ)} {run : Line × ℕ}

/-- The runs of lines make them up, and none of them is empty. -/
theorem lineRuns_spec (lines : List Line) :
    (lineRuns lines).flatMap (fun run => List.replicate run.2 run.1) = lines ∧ ∀ run ∈ lineRuns lines, 0 < run.2 := by
  induction lines with
  | nil => exact ⟨rfl, nofun⟩
  | cons line rest ih =>
    obtain ⟨hlines, hpos⟩ := ih
    rw [lineRuns]
    cases hruns : lineRuns rest with
    | nil =>
      rw [hruns] at hlines
      refine ⟨?_, by simp⟩
      rw [← hlines]
      rfl
    | cons run more =>
      obtain ⟨l, n⟩ := run
      rw [hruns, List.flatMap_cons] at hlines
      rw [hruns, List.forall_mem_cons] at hpos
      dsimp only
      split_ifs with hsame
      · subst hsame
        rw [List.flatMap_cons, List.replicate_succ, List.cons_append, hlines]
        exact ⟨rfl, List.forall_mem_cons.mpr ⟨Nat.succ_pos _, hpos.2⟩⟩
      · rw [List.flatMap_cons, List.flatMap_cons, hlines]
        exact ⟨rfl, List.forall_mem_cons.mpr ⟨Nat.one_pos, List.forall_mem_cons.mpr hpos⟩⟩

theorem flatMap_lineRuns (lines : List Line) :
    (lineRuns lines).flatMap (fun run => List.replicate run.2 run.1) = lines := (lineRuns_spec lines).1

/-- A run is no longer than all lines, and its line is one of them. -/
theorem mem_of_mem_lineRuns (h : run ∈ lineRuns lines) : run.1 ∈ lines ∧ run.2 ≤ lines.length := by
  have hpos := (lineRuns_spec lines).2 run h
  obtain ⟨before, behind, hsplit⟩ := List.append_of_mem h
  have hlines := flatMap_lineRuns lines
  rw [hsplit, List.flatMap_append, List.flatMap_cons] at hlines
  constructor
  · rw [← hlines]
    exact List.mem_append_right _ (List.mem_append_left _ (List.mem_replicate.mpr ⟨by omega, rfl⟩))
  · have hlength := congrArg List.length hlines
    rw [List.length_append, List.length_append, List.length_replicate] at hlength
    omega

theorem expandLines_marker {n : ℕ} (hn : n < 2 ^ 64) (line : Line) (rest : List Line) :
    expandLines (line :: runMarker n :: rest) = List.replicate n line ++ expandLines rest := by
  rw [expandLines, runMarker?_runMarker, Option.bind_some, parseUsize?_toDigits hn]

theorem expandLines_cons (h : ∀ next, rest.head? = some next → runMarker? next = none) :
    expandLines (line :: rest) = line :: expandLines rest := by
  cases rest with
  | nil => rfl
  | cons next rest => rw [expandLines, h next rfl, Option.bind_none]

theorem expandLines_runs (h : ∀ run ∈ runs, runMarker? run.1 = none ∧ 0 < run.2 ∧ run.2 < 2 ^ 64) :
    expandLines (runs.flatMap markedRun) = runs.flatMap fun run => List.replicate run.2 run.1 := by
  induction runs with
  | nil => rfl
  | cons run runs ih =>
    obtain ⟨⟨-, hpos, hsize⟩, hrest⟩ := List.forall_mem_cons.mp h
    rw [List.flatMap_cons, List.flatMap_cons, markedRun]
    split_ifs with hlong
    · show expandLines (run.1 :: runMarker run.2 :: runs.flatMap markedRun) = _
      rw [expandLines_marker hsize, ih hrest]
    · have hone : run.2 = 1 := by omega
      have hnext : ∀ next, (runs.flatMap markedRun).head? = some next → runMarker? next = none := by
        intro next hhead
        cases runs with
        | nil => exact absurd hhead nofun
        | cons run' runs =>
          have hfirst : ((run' :: runs).flatMap markedRun).head? = some run'.1 := by
            rw [List.flatMap_cons, markedRun]
            split_ifs <;> rfl
          rw [← Option.some.inj (hfirst.symm.trans hhead)]
          exact (hrest run' List.mem_cons_self).1
      show expandLines (run.1 :: runs.flatMap markedRun) = _
      rw [expandLines_cons hnext, ih hrest, hone]
      rfl

theorem mem_collapseLines (h : line ∈ collapseLines lines) : line ∈ lines ∨ ∃ n, line = runMarker n := by
  obtain ⟨run, hrun, hline⟩ := List.mem_flatMap.mp h
  rw [markedRun] at hline
  split_ifs at hline
  · rcases List.mem_pair.mp hline with rfl | rfl
    · exact Or.inl (mem_of_mem_lineRuns hrun).1
    · exact Or.inr ⟨_, rfl⟩
  · rw [List.mem_singleton.mp hline]
    exact Or.inl (mem_of_mem_lineRuns hrun).1

theorem IsSplit.collapseLines {hadTrailing : Bool} (h : IsSplit lines hadTrailing) :
    IsSplit (collapseLines lines) hadTrailing := by
  have hruns : lineRuns lines ≠ [] := by
    intro hnil
    have hlines := flatMap_lineRuns lines
    rw [hnil] at hlines
    exact h.ne hlines.symm
  obtain ⟨front, run, hsplit⟩ := (List.eq_nil_or_concat (lineRuns lines)).resolve_left hruns
  rw [List.concat_eq_append] at hsplit
  have hpos := (lineRuns_spec lines).2 run (hsplit ▸ List.mem_append_right _ (List.mem_singleton_self _))
  have hlines := flatMap_lineRuns lines
  rw [hsplit, List.flatMap_append, List.flatMap_singleton] at hlines
  refine ⟨?_, fun l hl => ?_, fun htrailing => ?_⟩
  · rw [Transforms.collapseLines, hsplit, List.flatMap_append, List.flatMap_singleton, markedRun]
    refine List.append_ne_nil_of_right_ne_nil _ ?_
    split_ifs <;> exact List.cons_ne_nil _ _
  · rcases mem_collapseLines hl with hl | ⟨n, rfl⟩
    · exact h.clean l hl
    · exact clean_runMarker n
  · rw [Transforms.collapseLines, hsplit, List.flatMap_append, List.flatMap_singleton, markedRun]
    split_ifs with hlong
    · rw [List.getLast?_append_of_ne_nil _ (List.cons_ne_nil _ _)]
      exact fun heq => runMarker_ne_nil _ (Option.some.inj heq)
    · rw [List.getLast?_concat]
      have hlast := h.last htrailing
      rw [← hlines, show run.2 = 1 by omega, List.replicate_one, List.getLast?_concat] at hlast
      exact hlast

end Runs

/-! ### Blocks -/

/-- All places that are remembered lie before an index. -/
def Recent (positions : Positions) (i : ℕ) : Prop := ∀ line, ∀ q ∈ positions line, q < i

section Blocks

variable {lines block : List Line} {positions : Positions} {i fuel : ℕ} {line : Line}

theorem Recent.rememberPosition (h : Recent positions i) (line : Line) :
    Recent (rememberPosition positions line i) (i + 1) := by
  intro line' q hq
  have hbucket : ∀ q ∈ positions line ++ [i], q < i + 1 := by
    intro q hq
    rcases List.mem_append.mp hq with hq | hq
    · exact Nat.lt_succ_of_lt (h line q hq)
    · rw [List.mem_singleton.mp hq]
      exact Nat.lt_succ_self i
  rw [Transforms.rememberPosition] at hq
  by_cases hline : line' = line
  · rw [hline, Function.update_self] at hq
    split_ifs at hq
    · exact hbucket q (List.mem_of_mem_drop hq)
    · exact hbucket q hq
  · rw [Function.update_of_ne hline] at hq
    exact Nat.lt_succ_of_lt (h line' q hq)

theorem Recent.rememberBlock (h : Recent positions i) (block : List Line) :
    Recent (rememberBlock positions block i) (i + block.length) := by
  induction block generalizing positions i with
  | nil => exact h
  | cons line block ih =>
    have hrest := ih (h.rememberPosition line)
    rw [Nat.add_right_comm] at hrest
    exact hrest

theorem matchLength_spec (n : ℕ) (as bs : List Line) :
    matchLength n as bs ≤ n ∧ as.take (matchLength n as bs) = bs.take (matchLength n as bs) := by
  induction n generalizing as bs with
  | zero => exact ⟨le_rfl, rfl⟩
  | succ n ih =>
    cases as with
    | nil => exact ⟨Nat.zero_le _, rfl⟩
    | cons a as =>
      cases bs with
      | nil => exact ⟨Nat.zero_le _, rfl⟩
      | cons b bs =>
        obtain ⟨hle, htake⟩ := ih as bs
        rw [matchLength]
        split_ifs with hsame
        · rw [List.take_succ_cons, List.take_succ_cons, hsame, htake]
          exact ⟨Nat.succ_le_succ hle, rfl⟩
        · exact ⟨Nat.zero_le _, rfl⟩

/-- A block that an earlier place shows, no longer than the way back. -/
def Shows (lines : List Line) (i : ℕ) (best : ℕ × ℕ) : Prop :=
  best.1 ≤ best.2 ∧ best.2 ≤ i ∧ best.1 ≤ lines.length - i ∧
    (lines.drop (i - best.2)).take best.1 = (lines.drop i).take best.1

theorem bestAnchor_shows (h : Recent positions i) (line : Line) :
    Shows lines i (bestAnchor lines positions i line) := by
  have hfold : ∀ (places : List ℕ) (best : ℕ × ℕ), (∀ q ∈ places, q < i) → Shows lines i best →
      Shows lines i (places.foldl (fun best q =>
        let maxLen := min (min FOLD_MAX_BLOCK (lines.length - i)) (i - q)
        let len := matchLength maxLen (lines.drop q) (lines.drop i)
        if best.1 < len then (len, i - q) else best) best) := by
    intro places
    induction places with
    | nil => exact fun _ _ hbest => hbest
    | cons q places ih =>
      intro best hplaces hbest
      obtain ⟨hq, hrest⟩ := List.forall_mem_cons.mp hplaces
      refine ih _ hrest ?_
      dsimp only
      split_ifs
      · obtain ⟨hle, htake⟩ := matchLength_spec (min (min FOLD_MAX_BLOCK (lines.length - i)) (i - q)) (lines.drop q)
          (lines.drop i)
        refine ⟨by dsimp only; omega, by dsimp only; omega, by dsimp only; omega, ?_⟩
        rw [Nat.sub_sub_self hq.le]
        exact htake
      · exact hbest
  refine hfold _ (0, 0) (fun q hq => h line q (List.mem_reverse.mp hq)) ?_
  exact ⟨le_rfl, Nat.zero_le _, Nat.zero_le _, rfl⟩

theorem unfoldLine_of_none (h : blockMarker? line = none) (out : List Line) :
    unfoldLine out line = out ++ [line] := by
  rw [unfoldLine, h]

theorem unfoldLine_blockMarker {best : ℕ × ℕ} (h : Shows lines i best) (hi : i ≤ lines.length)
    (hsize : lines.length < 2 ^ 64) :
    unfoldLine (lines.take i) (blockMarker best.1 best.2) = lines.take (i + best.1) := by
  obtain ⟨hle, hback, hlen, htake⟩ := h
  have hlength : (lines.take i).length = i := by rw [List.length_take, Nat.min_eq_left hi]
  rw [unfoldLine, blockMarker?_blockMarker]
  dsimp only
  rw [parseUsize?_toDigits (by omega), parseUsize?_toDigits (by omega), Option.getD_some, Option.getD_some, hlength,
    if_pos ⟨hback, hle⟩, List.take_add, ← htake]
  congr 1
  rw [List.drop_take, List.take_take]
  congr 1
  omega

theorem foldFrom_of_le (h : lines.length ≤ i) : foldFrom lines fuel i positions = [] := by
  cases fuel with
  | zero => rfl
  | succ fuel => rw [foldFrom, List.getElem?_eq_none h]

/-- What a round of the fold puts out, and how far it gets: a line, or a marker for a block. -/
theorem foldFrom_cases (hrecent : Recent positions i) (hline : lines[i]? = some line) (fuel : ℕ) :
    (∃ best, Shows lines i best ∧ 0 < best.1 ∧ ∃ positions', Recent positions' (i + best.1) ∧
        foldFrom lines (fuel + 1) i positions =
          blockMarker best.1 best.2 :: foldFrom lines fuel (i + best.1) positions') ∨
      ∃ positions', Recent positions' (i + 1) ∧
        foldFrom lines (fuel + 1) i positions = line :: foldFrom lines fuel (i + 1) positions' := by
  have hshows : Shows lines i (bestAnchor lines positions i line) := bestAnchor_shows hrecent line
  rw [foldFrom, hline]
  dsimp only
  split_ifs with hfold
  · refine Or.inl ⟨bestAnchor lines positions i line, hshows, ?_, _, ?_, rfl⟩
    · have : 0 < FOLD_MIN_BLOCK := by decide
      omega
    · have hblock := hrecent.rememberBlock ((lines.drop i).take (bestAnchor lines positions i line).1)
      rw [List.length_take, List.length_drop, Nat.min_eq_left hshows.2.2.1] at hblock
      exact hblock
  · exact Or.inr ⟨_, hrecent.rememberPosition line, rfl⟩

theorem foldl_unfoldLine_foldFrom (hshape : ∀ l ∈ lines, blockMarker? l = none) (hsize : lines.length < 2 ^ 64)
    (hrecent : Recent positions i) (hi : i ≤ lines.length) (hfuel : lines.length ≤ i + fuel) :
    (foldFrom lines fuel i positions).foldl unfoldLine (lines.take i) = lines := by
  induction fuel generalizing i positions with
  | zero =>
    rw [foldFrom, List.foldl_nil, List.take_of_length_le (by omega)]
  | succ fuel ih =>
    rcases Nat.eq_or_lt_of_le hi with hend | hlt
    · rw [foldFrom_of_le hend.ge, List.foldl_nil, List.take_of_length_le hend.ge]
    · have hline : lines[i]? = some lines[i] := List.getElem?_eq_getElem hlt
      rcases foldFrom_cases hrecent hline fuel with ⟨best, hshows, hpos, positions', hrecent', hfold⟩ |
        ⟨positions', hrecent', hfold⟩
      · have hlen := hshows.2.2.1
        rw [hfold, List.foldl_cons, unfoldLine_blockMarker hshows hi hsize]
        exact ih hrecent' (by omega) (by omega)
      · rw [hfold, List.foldl_cons, unfoldLine_of_none (hshape _ (List.getElem_mem hlt)), List.take_concat_get' _ _ hlt]
        exact ih hrecent' (by omega) (by omega)

theorem mem_foldFrom {l : Line} (h : l ∈ foldFrom lines fuel i positions) :
    l ∈ lines ∨ ∃ len dist, l = blockMarker len dist := by
  induction fuel generalizing i positions with
  | zero => exact absurd h List.not_mem_nil
  | succ fuel ih =>
    rw [foldFrom] at h
    cases hline : lines[i]? with
    | none =>
      rw [hline] at h
      exact absurd h List.not_mem_nil
    | some line =>
      rw [hline] at h
      dsimp only at h
      split_ifs at h
      · rcases List.mem_cons.mp h with rfl | h
        · exact Or.inr ⟨_, _, rfl⟩
        · exact ih h
      · rcases List.mem_cons.mp h with rfl | h
        · exact Or.inl (List.mem_of_getElem? hline)
        · exact ih h

theorem getLast?_foldFrom (hlast : lines.getLast? ≠ some []) (hrecent : Recent positions i)
    (hfuel : lines.length ≤ i + fuel) :
    (foldFrom lines fuel i positions).getLast? ≠ some [] ∧
      (i < lines.length → foldFrom lines fuel i positions ≠ []) := by
  induction fuel generalizing i positions with
  | zero => exact ⟨nofun, fun hlt => absurd hfuel (by omega)⟩
  | succ fuel ih =>
    rcases Nat.lt_or_ge i lines.length with hlt | hge
    · have hline : lines[i]? = some lines[i] := List.getElem?_eq_getElem hlt
      have hcons : ∀ (first : Line) (i' : ℕ) (positions' : Positions), Recent positions' i' → i < i' →
          (lines.length ≤ i' → first ≠ []) → (first :: foldFrom lines fuel i' positions').getLast? ≠ some [] := by
        intro first i' positions' hrecent' hnext hfirst
        rcases Nat.lt_or_ge i' lines.length with hmore | hend
        · obtain ⟨hrest, hne⟩ := ih hrecent' (by omega)
          rw [List.getLast?_cons_of_ne_nil (hne hmore)]
          exact hrest
        · rw [foldFrom_of_le hend]
          exact fun heq => hfirst hend (Option.some.inj heq)
      rcases foldFrom_cases hrecent hline fuel with ⟨best, hshows, hpos, positions', hrecent', hfold⟩ |
        ⟨positions', hrecent', hfold⟩
      · rw [hfold]
        exact ⟨hcons _ _ _ hrecent' (by omega) fun _ => blockMarker_ne_nil _ _, fun _ => List.cons_ne_nil _ _⟩
      · rw [hfold]
        refine ⟨hcons _ _ _ hrecent' (by omega) fun hend hempty => hlast ?_, fun _ => List.cons_ne_nil _ _⟩
        rw [List.getLast?_eq_getElem?, show lines.length - 1 = i by omega, hline, hempty]
    · rw [foldFrom_of_le hge]
      exact ⟨nofun, fun hlt => absurd hge (by omega)⟩

/-- The lines with their blocks folded. -/
def foldLinesOf (lines : List Line) : List Line :=
  if ¬(FOLD_MIN_BLOCK * 2 ≤ lines.length ∧ lines.length ≤ FOLD_MAX_LINES) then lines
  else foldFrom lines lines.length 0 fun _ => []

theorem IsSplit.foldLinesOf {hadTrailing : Bool} (h : IsSplit lines hadTrailing) :
    IsSplit (foldLinesOf lines) hadTrailing := by
  rw [Transforms.foldLinesOf]
  split_ifs with hlong
  · have hrecent : Recent (fun _ => []) 0 := fun _ _ hq => absurd hq List.not_mem_nil
    have hne : foldFrom lines lines.length 0 (fun _ => []) ≠ [] := by
      obtain ⟨line, rest, rfl⟩ := List.exists_cons_of_ne_nil h.ne
      have hline : (line :: rest)[0]? = some line := rfl
      rcases foldFrom_cases hrecent hline rest.length with ⟨best, -, -, positions', -, hfold⟩ | ⟨positions', -, hfold⟩
      · rw [List.length_cons, hfold]
        exact List.cons_ne_nil _ _
      · rw [List.length_cons, hfold]
        exact List.cons_ne_nil _ _
    refine ⟨hne, fun l hl => ?_, fun htrailing => ?_⟩
    · rcases mem_foldFrom hl with hl | ⟨len, dist, rfl⟩
      · exact h.clean l hl
      · exact clean_blockMarker len dist
    · exact (getLast?_foldFrom (h.last htrailing) hrecent (by omega)).1
  · exact h

theorem unfoldLines_of_none (hshape : ∀ l ∈ lines, blockMarker? l = none) : unfoldLines lines = lines := by
  have hfold : ∀ out : List Line, lines.foldl unfoldLine out = out ++ lines := by
    induction lines with
    | nil => exact fun out => (List.append_nil out).symm
    | cons line lines ih =>
      obtain ⟨hline, hrest⟩ := List.forall_mem_cons.mp hshape
      intro out
      rw [List.foldl_cons, unfoldLine_of_none hline, ih hrest, List.append_assoc, List.singleton_append]
  exact hfold []

theorem unfoldLines_foldLinesOf (hshape : ∀ l ∈ lines, blockMarker? l = none) :
    unfoldLines (foldLinesOf lines) = lines := by
  rw [foldLinesOf]
  split_ifs with hlong
  · have hsize : lines.length < 2 ^ 64 := hlong.2.trans_lt (by decide)
    have hrecent : Recent (fun _ => []) 0 := fun _ _ hq => absurd hq List.not_mem_nil
    exact foldl_unfoldLine_foldFrom hshape hsize hrecent (Nat.zero_le _) (by omega)
  · exact unfoldLines_of_none hshape

end Blocks

theorem foldRepeatedBlocks_eq (text : List Char) : foldRepeatedBlocks text = onLines foldLinesOf text := by
  by_cases hne : text = []
  · rw [hne]
    rfl
  · rw [onLines_of_ne hne, foldRepeatedBlocks, foldLinesOf]
    dsimp only
    split_ifs
    · rfl
    · exact (join_splitKeepTrailing hne).symm

theorem unfoldRepeatedBlocks_eq (text : List Char) : unfoldRepeatedBlocks text = onLines unfoldLines text := rfl

/-! ### The folds of a text -/

/-- No line of a text has the shape of a run marker. -/
def NoRunMarker (text : List Char) : Prop := ∀ line ∈ (splitKeepTrailing text).1, runMarker? line = none

instance : DecidablePred NoRunMarker := fun _ => inferInstanceAs (Decidable (∀ line ∈ _, _))

/-- No line of a text has the shape of a block marker. -/
def NoBlockMarker (text : List Char) : Prop := ∀ line ∈ (splitKeepTrailing text).1, blockMarker? line = none

instance : DecidablePred NoBlockMarker := fun _ => inferInstanceAs (Decidable (∀ line ∈ _, _))

/-- No candidate of a kind is thrown away because its inverses do not give the content back. -/
def Verified (text : List Char) (kind : String) : Prop := ∀ c ∈ checks text kind, c.restored = c.baseline

instance (text : List Char) (kind : String) : Decidable (Verified text kind) :=
  inferInstanceAs (Decidable (∀ c ∈ _, _))

section Texts

variable {text : List Char}

theorem length_splitOn (text : List Char) : (text.splitOn '\n').length = text.count '\n' + 1 := by
  induction text with
  | nil => rfl
  | cons c text ih =>
    rw [List.splitOn_cons_eq_if_modifyHead, List.count_cons]
    by_cases hc : c = '\n'
    · rw [if_pos (beq_iff_eq.mpr hc), if_pos (beq_iff_eq.mpr hc), List.length_cons, ih]
    · rw [if_neg (mt beq_iff_eq.mp hc), if_neg (mt beq_iff_eq.mp hc), List.length_modifyHead, ih]

theorem length_lines_le (text : List Char) : (splitKeepTrailing text).1.length ≤ text.length := by
  rw [splitKeepTrailing]
  split_ifs with hnil hlast
  · exact Nat.zero_le _
  · obtain ⟨front, c, rfl⟩ := (List.eq_nil_or_concat text).resolve_left hnil
    have := List.count_le_length (l := front) (a := '\n')
    rw [List.concat_eq_append, List.dropLast_concat, length_splitOn, List.length_append, List.length_singleton]
    omega
  · obtain ⟨front, c, rfl⟩ := (List.eq_nil_or_concat text).resolve_left hnil
    have := List.count_le_length (l := front) (a := '\n')
    rw [List.concat_eq_append, List.getLast?_concat] at hlast
    have hzero : [c].count '\n' = 0 := List.count_eq_zero.mpr fun hmem =>
      hlast (congrArg some (List.mem_singleton.mp hmem).symm)
    rw [List.concat_eq_append, length_splitOn, List.count_append, hzero, List.length_append, List.length_singleton]
    omega

/-- Expanding the runs of a text that a machine word can measure gives it back. -/
theorem expandRuns_collapseRuns (hsize : text.length < 2 ^ 64) (h : NoRunMarker text) :
    expandRuns (collapseRuns text) = text := by
  by_cases hne : text = []
  · rw [hne]
    rfl
  · rw [collapseRuns_eq, expandRuns_eq]
    refine onLines_onLines hne (isSplit_splitKeepTrailing hne).collapseLines ?_
    have hlength := length_lines_le text
    rw [collapseLines, expandLines_runs, flatMap_lineRuns]
    intro run hrun
    obtain ⟨hmem, hle⟩ := mem_of_mem_lineRuns hrun
    exact ⟨h _ hmem, (lineRuns_spec _).2 run hrun, by omega⟩

theorem unfold_foldRepeatedBlocks (h : NoBlockMarker text) :
    unfoldRepeatedBlocks (foldRepeatedBlocks text) = text := by
  by_cases hne : text = []
  · rw [hne]
    rfl
  · rw [foldRepeatedBlocks_eq, unfoldRepeatedBlocks_eq]
    exact onLines_onLines hne (isSplit_splitKeepTrailing hne).foldLinesOf (unfoldLines_foldLinesOf h)

/-- A run marker has not the shape of a block marker. -/
theorem NoBlockMarker.collapseRuns (h : NoBlockMarker text) : NoBlockMarker (collapseRuns text) := by
  by_cases hne : text = []
  · rw [hne]
    exact fun line hline => absurd hline List.not_mem_nil
  · intro line hline
    rw [collapseRuns_eq, splitKeepTrailing_onLines hne (isSplit_splitKeepTrailing hne).collapseLines] at hline
    rcases mem_collapseLines hline with hline | ⟨n, rfl⟩
    · exact h line hline
    · exact blockMarker?_runMarker n

/-- The block fold of collapsed runs is reversed to the collapsed runs, and these to the text. -/
theorem expandRuns_unfold (hsize : text.length < 2 ^ 64) (hrun : NoRunMarker text) (hblock : NoBlockMarker text) :
    expandRuns (unfoldRepeatedBlocks (foldRepeatedBlocks (collapseRuns text))) = text := by
  rw [unfold_foldRepeatedBlocks hblock.collapseRuns, expandRuns_collapseRuns hsize hrun]

theorem length_stripAnsiFrom_le (skip : ℕ) (text : List Char) : (stripAnsiFrom skip text).length ≤ text.length := by
  induction text generalizing skip with
  | nil =>
    cases skip with
    | zero => exact le_rfl
    | succ skip => exact le_rfl
  | cons c text ih =>
    cases skip with
    | zero =>
      rw [stripAnsiFrom]
      split
      · exact Nat.le_succ_of_le (ih _)
      · exact Nat.succ_le_succ (ih 0)
    | succ skip => exact Nat.le_succ_of_le (ih skip)

/-- Runs and blocks are folded and put back exactly, so that no candidate of such a fold is thrown away for what its
inverse gives. -/
theorem folds_reversed (text : List Char) (hsize : text.length < 2 ^ 64) :
    (NoRunMarker text → expandRuns (collapseRuns text) = text) ∧
      (NoBlockMarker text → unfoldRepeatedBlocks (foldRepeatedBlocks text) = text) ∧
      (NoRunMarker text → NoBlockMarker text →
        expandRuns (unfoldRepeatedBlocks (foldRepeatedBlocks (collapseRuns text))) = text ∧
          Verified text "text" ∧ Verified text "config" ∧ (NoRunMarker (stripAnsi text) → Verified text "log")) := by
  refine ⟨expandRuns_collapseRuns hsize, unfold_foldRepeatedBlocks, fun hrun hblock =>
    ⟨expandRuns_unfold hsize hrun hblock, ?_, ?_, fun hstripped => ?_⟩⟩
  · exact List.forall_mem_singleton.mpr (expandRuns_collapseRuns hsize hrun)
  · exact List.forall_mem_singleton.mpr (expandRuns_unfold hsize hrun hblock)
  · have hshort : (stripAnsi text).length < 2 ^ 64 := (length_stripAnsiFrom_le 0 text).trans_lt hsize
    exact List.forall_mem_singleton.mpr (expandRuns_collapseRuns hshort hstripped)

/-- A text with runs and a block that stands twice. -/
theorem folds_reversed_stanza :
    expandRuns (unfoldRepeatedBlocks (foldRepeatedBlocks (collapseRuns
      "a\nb\nb\nc\nd\na\nb\nb\nc\n".toList))) = "a\nb\nb\nc\nd\na\nb\nb\nc\n".toList :=
  ((folds_reversed "a\nb\nb\nc\nd\na\nb\nb\nc\n".toList (by decide +kernel)).2.2 (by decide +kernel)
    (by decide +kernel)).1

/-- Texts without lines of a marker's shape whose candidates are thrown away: a log whose colors hide a marker, a
number behind a line that is no path, and a line that looks like a base. -/
theorem candidates_thrown_away :
    (NoRunMarker "a\n... (rep\x1b[meated 2 times)".toList ∧ NoBlockMarker "a\n... (rep\x1b[meated 2 times)".toList ∧
        ¬ Verified "a\n... (rep\x1b[meated 2 times)".toList "log") ∧
      (NoRunMarker "foo\n12:bar".toList ∧ NoBlockMarker "foo\n12:bar".toList ∧
        ¬ Verified "foo\n12:bar".toList "search") ∧
      (NoRunMarker "a/b\na/c\nnote".toList ∧ NoBlockMarker "a/b\na/c\nnote".toList ∧
        ¬ Verified "a/b\na/c\nnote".toList "paths") := by
  decide +kernel

end Texts

end Headroom.Transforms
