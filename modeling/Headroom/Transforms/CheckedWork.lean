import Headroom.Transforms.FoldReversal

/-!
# The work of the checks

The inverses that verify a candidate trust every line of a marker's shape, also one that the content itself holds. How
many lines they put out is the number of lines that they are given, plus what the markers name that they take, less
the lines that they take for markers. The folds under a file and under a listed path take every heading back that was
put in; the fold under a directory does not where a path ends in a slash.

## Main statements

* `bounded_iff` : when the promise is kept.
-/

open Foundation

namespace Headroom.Transforms

/-! ### Runs -/

/-- The count of a line of a run marker's shape, when a machine word holds it. -/
def runCount? (line : Line) : Option ℕ := (runMarker? line).bind parseUsize?

/-- What expanding adds to the lines of some runs, where a line may wait before them for a marker. -/
def runGain : Bool → List (Line × ℕ) → ℤ
  | _, [] => 0
  | waiting, (line, n) :: runs =>
    match if waiting then runCount? line else none with
    | some count =>
      -- The line is taken for the marker of the one before; the marker of its own run then waits.
      if 2 ≤ n then count - n + runGain true runs else count - 2 + runGain false runs
    | none => runGain (n < 2) runs

section Runs

variable {runs : List (Line × ℕ)} {lines : List Line}

theorem length_expandLines_cons (x line : Line) (rest : List Line) :
    ((expandLines (x :: line :: rest)).length : ℤ) =
      (match runCount? line with
      | some count => (count : ℤ) + (expandLines rest).length
      | none => 1 + (expandLines (line :: rest)).length : ℤ) := by
  rw [expandLines]
  show ((match runCount? line with
    | some count => List.replicate count x ++ expandLines rest
    | none => x :: expandLines (line :: rest)).length : ℤ) = _
  cases runCount? line with
  | some count =>
    dsimp only
    rw [List.length_append, List.length_replicate]
    omega
  | none =>
    dsimp only
    rw [List.length_cons]
    omega

/-- The number of lines that expanding collapsed runs gives, with and without a line that waits before them. -/
theorem length_expandLines_runs (h : ∀ run ∈ runs, 0 < run.2 ∧ run.2 < 2 ^ 64) :
    ((expandLines (runs.flatMap markedRun)).length : ℤ) = (runs.map Prod.snd).sum + runGain false runs ∧
      ∀ x, ((expandLines (x :: runs.flatMap markedRun)).length : ℤ) =
        1 + (runs.map Prod.snd).sum + runGain true runs := by
  induction runs with
  | nil => exact ⟨rfl, fun x => rfl⟩
  | cons run runs ih =>
    obtain ⟨line, n⟩ := run
    obtain ⟨⟨hpos, hsize⟩, hrest⟩ := List.forall_mem_cons.mp h
    obtain ⟨hfree, hwaiting⟩ := ih hrest
    have hsum : (((((line, n) :: runs).map Prod.snd).sum : ℕ) : ℤ) = n + (runs.map Prod.snd).sum := by
      rw [List.map_cons, List.sum_cons]
      omega
    have hfirst : ((expandLines (((line, n) :: runs).flatMap markedRun)).length : ℤ) =
        n + (runs.map Prod.snd).sum + runGain (n < 2) runs := by
      rw [List.flatMap_cons, markedRun]
      split_ifs with hlong
      · show ((expandLines (line :: runMarker n :: runs.flatMap markedRun)).length : ℤ) = _
        rw [expandLines_marker hsize, List.length_append, List.length_replicate,
          decide_eq_false (Nat.not_lt.mpr hlong)]
        omega
      · have hone : n = 1 := by
          dsimp only at hpos hlong
          omega
        show ((expandLines (line :: runs.flatMap markedRun)).length : ℤ) = _
        rw [hwaiting, hone]
        rfl
    refine ⟨?_, fun x => ?_⟩
    · rw [hfirst, hsum, runGain]
      rfl
    · rw [hsum, runGain, if_pos rfl]
      have hsplit : ∃ rest, ((line, n) :: runs).flatMap markedRun = line :: rest ∧
          rest = if 2 ≤ n then runMarker n :: runs.flatMap markedRun else runs.flatMap markedRun := by
        rw [List.flatMap_cons, markedRun]
        split_ifs <;> exact ⟨_, rfl, rfl⟩
      obtain ⟨rest, hlines, hbehind⟩ := hsplit
      rw [hlines] at hfirst ⊢
      rw [length_expandLines_cons, hfirst]
      cases runCount? line with
      | none =>
        dsimp only
        omega
      | some count =>
        dsimp only
        rw [hbehind]
        split_ifs with hlong
        · rw [hwaiting]
          omega
        · have hone : n = 1 := by
            dsimp only at hpos
            omega
          rw [hfree, hone]
          omega

theorem sum_lineRuns (lines : List Line) : ((lineRuns lines).map Prod.snd).sum = lines.length := by
  have hlength := congrArg List.length (flatMap_lineRuns lines)
  rw [List.length_flatMap] at hlength
  simp only [List.length_replicate] at hlength
  exact hlength

theorem length_expandLines_collapseLines (hsize : lines.length < 2 ^ 64) :
    ((expandLines (collapseLines lines)).length : ℤ) = lines.length + runGain false (lineRuns lines) := by
  have hruns : ∀ run ∈ lineRuns lines, 0 < run.2 ∧ run.2 < 2 ^ 64 := fun run hrun =>
    ⟨(lineRuns_spec lines).2 run hrun, (mem_of_mem_lineRuns hrun).2.trans_lt hsize⟩
  rw [collapseLines, (length_expandLines_runs hruns).1, sum_lineRuns]

theorem length_expandLines (lines : List Line) :
    ((expandLines lines).length : ℤ) = lines.length + runGain false (lines.map fun line => (line, 1)) := by
  have hruns : ∀ run ∈ lines.map fun line : Line => (line, 1), 0 < run.2 ∧ run.2 < 2 ^ 64 := by
    intro run hrun
    obtain ⟨line, -, rfl⟩ := List.mem_map.mp hrun
    exact ⟨Nat.one_pos, Nat.one_lt_two_pow (by decide)⟩
  have hlines : (lines.map fun line => (line, 1)).flatMap markedRun = lines := by
    rw [List.flatMap_map]
    exact List.flatMap_singleton' lines
  have hsum : ((lines.map fun line : Line => (line, 1)).map Prod.snd).sum = lines.length := by
    rw [List.map_map]
    show (lines.map fun _ => 1).sum = lines.length
    rw [List.map_const', List.sum_replicate_nat, Nat.mul_one]
  have hlength := (length_expandLines_runs hruns).1
  rw [hlines, hsum] at hlength
  exact hlength

end Runs

/-! ### Blocks -/

/-- What unfolding adds to lines behind so many that were put back. -/
def blockGain : ℕ → List Line → ℤ
  | _, [] => 0
  | out, line :: lines =>
    match blockMarker? line with
    | some (len, dist) =>
      let len := (parseUsize? len).getD 0
      let dist := (parseUsize? dist).getD 0
      if dist ≤ out ∧ len ≤ dist then len - 1 + blockGain (out + len) lines else blockGain (out + 1) lines
    | none => blockGain (out + 1) lines

theorem length_unfoldLines (lines : List Line) :
    ((unfoldLines lines).length : ℤ) = lines.length + blockGain 0 lines := by
  have hfold : ∀ out : List Line, ((lines.foldl unfoldLine out).length : ℤ) =
      out.length + lines.length + blockGain out.length lines := by
    induction lines with
    | nil =>
      intro out
      show (out.length : ℤ) = out.length + 0 + 0
      omega
    | cons line lines ih =>
      intro out
      have hplain : (unfoldLine out line).length = out.length + 1 →
          (((line :: lines).foldl unfoldLine out).length : ℤ) =
            out.length + (line :: lines).length + blockGain (out.length + 1) lines := by
        intro hout
        rw [List.foldl_cons, ih, hout, List.length_cons]
        omega
      rw [blockGain]
      rcases hmarker : blockMarker? line with _ | ⟨len, dist⟩
      · exact hplain (by rw [unfoldLine_of_none hmarker, List.length_append, List.length_singleton])
      · dsimp only
        split_ifs with hvalid
        · have hout : (unfoldLine out line).length = out.length + (parseUsize? len).getD 0 := by
            rw [unfoldLine, hmarker]
            dsimp only
            rw [if_pos hvalid, List.length_append, List.length_take, List.length_drop]
            omega
          rw [List.foldl_cons, ih, hout, List.length_cons]
          omega
        · refine hplain ?_
          rw [unfoldLine, hmarker]
          dsimp only
          rw [if_neg hvalid, List.length_append, List.length_singleton]
  have h := hfold []
  rw [List.length_nil] at h
  show ((lines.foldl unfoldLine []).length : ℤ) = _
  omega

/-! ### Headings -/

/-- How many headings are put in. -/
def headingsIn (row? : Line → Option (Line × Line)) : Option Line → List Line → ℕ
  | _, [] => 0
  | current, line :: lines =>
    match row? line with
    | some (heading, _) => (if current = some heading then 0 else 1) + headingsIn row? (some heading) lines
    | none => headingsIn row? none lines

/-- How many lines are taken for headings. -/
def headingsTaken (isData isHeader : Line → Bool) : Option Line → List Line → ℕ
  | _, [] => 0
  | current, line :: lines =>
    match current, isData line with
    | some heading, true => headingsTaken isData isHeader (some heading) lines
    | _, _ =>
      if isHeader line ∧ lines.head?.any isData then headingsTaken isData isHeader (some line) lines + 1
      else headingsTaken isData isHeader none lines

section Headings

variable {row? : Line → Option (Line × Line)} {isData isHeader : Line → Bool} {glue : Line → Line → Line}
  {current current' : Option Line} {lines : List Line} {line heading row : Line} {hadTrailing : Bool}

theorem length_headLines (current : Option Line) (lines : List Line) :
    (headLines row? current lines).length = lines.length + headingsIn row? current lines := by
  induction lines generalizing current with
  | nil => rfl
  | cons line lines ih =>
    rw [headLines, headingsIn]
    rcases row? line with _ | ⟨heading, row⟩
    · dsimp only
      rw [List.length_cons, List.length_cons, ih]
      omega
    · dsimp only
      rw [List.length_append, List.length_cons, ih]
      split_ifs
      · rw [List.length_singleton]
        omega
      · rw [List.length_cons, List.length_singleton]
        omega

theorem headingsTaken_data (h : isData line = true) (heading : Line) (lines : List Line) :
    headingsTaken isData isHeader (some heading) (line :: lines) =
      headingsTaken isData isHeader (some heading) lines := by
  simp only [headingsTaken, h]

theorem headingsTaken_other (h : current = none ∨ isData line = false) (lines : List Line) :
    headingsTaken isData isHeader current (line :: lines) =
      if isHeader line ∧ lines.head?.any isData then headingsTaken isData isHeader (some line) lines + 1
      else headingsTaken isData isHeader none lines := by
  cases current with
  | none =>
    rw [headingsTaken]
    exact nofun
  | some heading =>
    have hdata : isData line = false := h.resolve_left nofun
    simp only [headingsTaken, hdata]

theorem length_unheadLines (current : Option Line) (lines : List Line) :
    (unheadLines isData isHeader glue current lines).length + headingsTaken isData isHeader current lines =
      lines.length := by
  induction lines generalizing current with
  | nil => rfl
  | cons line lines ih =>
    have hother : (if isHeader line ∧ lines.head?.any isData then unheadLines isData isHeader glue (some line) lines
          else line :: unheadLines isData isHeader glue none lines).length +
        (if isHeader line ∧ lines.head?.any isData then headingsTaken isData isHeader (some line) lines + 1
          else headingsTaken isData isHeader none lines) = (line :: lines).length := by
      split_ifs
      · have := ih (some line)
        rw [List.length_cons]
        omega
      · have := ih none
        rw [List.length_cons, List.length_cons]
        omega
    cases current with
    | none =>
      rw [unheadLines, headingsTaken]
      · exact hother
      all_goals exact nofun
    | some heading =>
      cases hdata : isData line with
      | true =>
        simp only [unheadLines, headingsTaken, hdata]
        have := ih (some heading)
        rw [List.length_cons, List.length_cons]
        omega
      | false =>
        simp only [unheadLines, headingsTaken, hdata]
        exact hother

/-- What is known of the rows that a fold puts under headings. -/
def Known (row? : Line → Option (Line × Line)) (isData isHeader : Line → Bool) (line : Line) : Prop :=
  ∀ heading row, row? line = some (heading, row) →
    isData row = true ∧ isHeader heading = true ∧ isData heading = false

/-- If its rows are known, every heading that is put in is taken for a heading. -/
theorem headingsIn_le_headingsTaken (h : ∀ line ∈ lines, Known row? isData isHeader line)
    (hcurrent : ∀ heading, current = some heading → current' = some heading) :
    headingsIn row? current lines ≤ headingsTaken isData isHeader current' (headLines row? current lines) := by
  induction lines generalizing current current' with
  | nil => exact Nat.zero_le _
  | cons line lines ih =>
    obtain ⟨hline, hrest⟩ := List.forall_mem_cons.mp h
    rw [headingsIn, headLines]
    rcases hrow : row? line with _ | ⟨heading, row⟩
    · have hnext : ∀ current', headingsIn row? none lines ≤
          headingsTaken isData isHeader current' (headLines row? none lines) := fun _ => ih hrest nofun
      dsimp only
      by_cases hother : current' = none ∨ isData line = false
      · rw [headingsTaken_other hother]
        split_ifs
        · exact Nat.le_succ_of_le (hnext _)
        · exact hnext _
      · obtain ⟨hsome, hdata⟩ := not_or.mp hother
        obtain ⟨heading, rfl⟩ := Option.ne_none_iff_exists'.mp hsome
        rw [headingsTaken_data (Bool.not_eq_false _ ▸ hdata)]
        exact hnext _
    · obtain ⟨hdata, hheader, hnot⟩ := hline heading row hrow
      have hnext : headingsIn row? (some heading) lines ≤
          headingsTaken isData isHeader (some heading) (headLines row? (some heading) lines) := ih hrest fun _ h => h
      dsimp only
      split_ifs with hsame
      · rw [hcurrent heading hsame, List.singleton_append, headingsTaken_data hdata, Nat.zero_add]
        exact hnext
      · have htaken : isHeader heading ∧
            (row :: headLines row? (some heading) lines).head?.any isData := ⟨hheader, hdata⟩
        rw [List.cons_append, List.singleton_append, headingsTaken_other (Or.inr hnot), if_pos htaken,
          headingsTaken_data hdata]
        omega

theorem headLines_ne_nil (hne : lines ≠ []) : headLines row? current lines ≠ [] := by
  obtain ⟨line, lines, rfl⟩ := List.exists_cons_of_ne_nil hne
  rw [headLines]
  rcases row? line with _ | ⟨heading, row⟩
  · exact List.cons_ne_nil _ _
  · dsimp only
    split_ifs <;> exact List.cons_ne_nil _ _

/-- Rows under headings are lines that a text can have, if the rows and the headings are. -/
theorem IsSplit.headLines (h : IsSplit lines hadTrailing)
    (hrows : ∀ line ∈ lines, ∀ heading row, row? line = some (heading, row) →
      '\n' ∉ heading ∧ '\n' ∉ row ∧ row ≠ []) (current : Option Line) :
    IsSplit (headLines row? current lines) hadTrailing := by
  refine ⟨headLines_ne_nil h.ne, ?_, fun htrailing => ?_⟩
  · have hclean := h.clean
    clear h
    induction lines generalizing current with
    | nil => exact nofun
    | cons line lines ih =>
      obtain ⟨hline, hlines⟩ := List.forall_mem_cons.mp hclean
      obtain ⟨hrow, hrest⟩ := List.forall_mem_cons.mp hrows
      rw [Transforms.headLines]
      rcases hsplit : row? line with _ | ⟨heading, row⟩
      · exact List.forall_mem_cons.mpr ⟨hline, ih hrest _ hlines⟩
      · obtain ⟨hheading, hclean, -⟩ := hrow heading row hsplit
        refine List.forall_mem_append.mpr ⟨?_, ih hrest _ hlines⟩
        split_ifs
        · exact List.forall_mem_singleton.mpr hclean
        · exact List.forall_mem_cons.mpr ⟨hheading, List.forall_mem_singleton.mpr hclean⟩
  · have hlast := h.last htrailing
    clear h
    induction lines generalizing current with
    | nil => exact hlast
    | cons line lines ih =>
      obtain ⟨hrow, hrest⟩ := List.forall_mem_cons.mp hrows
      rw [Transforms.headLines]
      by_cases hnil : lines = []
      · subst hnil
        rcases hsplit : row? line with _ | ⟨heading, row⟩
        · exact hlast
        · obtain ⟨-, -, hne⟩ := hrow heading row hsplit
          dsimp only
          split_ifs
          · exact fun heq => hne (Option.some.inj heq)
          · exact fun heq => hne (Option.some.inj heq)
      · rw [List.getLast?_cons_of_ne_nil hnil] at hlast
        rcases row? line with _ | ⟨heading, row⟩
        · show (line :: Transforms.headLines row? none lines).getLast? ≠ some []
          rw [List.getLast?_cons_of_ne_nil (headLines_ne_nil hnil)]
          exact ih hrest _ hlast
        · dsimp only
          rw [List.getLast?_append_of_ne_nil _ (headLines_ne_nil hnil)]
          exact ih hrest _ hlast

end Headings

/-! ### Rows -/

section Rows

variable {line row path number content dir base rest : Line} {p : Char → Bool} {c : Char}

theorem eq_takeWhile_append (h : row[(row.takeWhile p).length]? = some c) :
    row = row.takeWhile p ++ c :: row.drop ((row.takeWhile p).length + 1) ∧ p c = false := by
  induction row with
  | nil => exact absurd h nofun
  | cons d row ih =>
    cases hd : p d with
    | true =>
      rw [List.takeWhile_cons_of_pos hd] at h ⊢
      obtain ⟨hline, hc⟩ := ih h
      exact ⟨congrArg (d :: ·) hline, hc⟩
    | false =>
      have hnot : ¬ p d = true := by
        rw [hd]
        exact Bool.false_ne_true
      rw [List.takeWhile_cons_of_neg hnot] at h ⊢
      obtain rfl : d = c := Option.some.inj h
      exact ⟨rfl, hd⟩

theorem takeWhile_append_cons (hfront : ∀ d ∈ path, p d = true) (hc : p c = false) (rest : Line) :
    (path ++ c :: rest).takeWhile p = path := by
  have hnot : ¬ p c = true := by
    rw [hc]
    exact Bool.false_ne_true
  rw [List.takeWhile_append_of_pos hfront, List.takeWhile_cons_of_neg hnot, List.append_nil]

theorem colon_not_digit : Text.isDecimalDigit ':' = false := by decide

theorem grepRow?_spec (h : grepRow? line = some (path, number, content)) :
    line = path ++ ':' :: (number ++ ':' :: content) ∧ path ≠ [] ∧ ':' ∉ path ∧ number ≠ [] ∧
      ∀ d ∈ number, Text.isDecimalDigit d = true := by
  rw [grepRow?] at h
  split_ifs at h with hparts
  obtain ⟨hpath, hlt, hnumber, hcolon⟩ := hparts
  obtain ⟨rfl, hrest⟩ := Prod.mk.inj (Option.some.inj h)
  obtain ⟨rfl, rfl⟩ := Prod.mk.inj hrest
  obtain ⟨hline, hc⟩ := eq_takeWhile_append (List.getElem?_eq_getElem hlt)
  obtain ⟨hbehind, -⟩ := eq_takeWhile_append hcolon
  rw [not_not.mp (of_decide_eq_false hc)] at hline
  refine ⟨?_, hpath, fun hmem => ?_, hnumber, fun d hd => List.mem_takeWhile_imp hd⟩
  · rw [← hbehind]
    exact hline
  · exact of_decide_eq_true (@List.mem_takeWhile_imp _ (fun d => decide (d ≠ ':')) _ _ hmem) rfl

theorem headingRow?_append (hnumber : number ≠ []) (hdigits : ∀ d ∈ number, Text.isDecimalDigit d = true) :
    headingRow? (number ++ ':' :: content) = some (number, content) := by
  have hat : (number ++ ':' :: content)[number.length]? = some ':' := by
    rw [List.getElem?_append_right le_rfl, Nat.sub_self, List.getElem?_cons_zero]
  have hcontent : (number ++ ':' :: content).drop (number.length + 1) = content := by
    rw [← List.drop_drop, List.drop_left, List.drop_one, List.tail_cons]
  rw [headingRow?]
  rw [takeWhile_append_cons hdigits colon_not_digit content, if_pos ⟨hnumber, hat⟩, hcontent]

theorem headingRow?_of_notMem (h : ':' ∉ line) : headingRow? line = none := by
  rw [headingRow?]
  split_ifs with hparts
  · exact absurd (List.mem_of_getElem? hparts.2) h
  · rfl

theorem cutAtSlash_spec (line : Line) :
    line = (cutAtSlash line).1 ++ (cutAtSlash line).2 ∧ '/' ∉ (cutAtSlash line).2 ∧
      ((cutAtSlash line).1 ≠ [] → (cutAtSlash line).1.getLast? = some '/') := by
  have hsplit := @List.takeWhile_append_dropWhile _ (fun c => decide (c ≠ '/')) line.reverse
  have hline : line = (line.reverse.dropWhile fun c => decide (c ≠ '/')).reverse ++
      (line.reverse.takeWhile fun c => decide (c ≠ '/')).reverse := by
    rw [← List.reverse_append, hsplit, List.reverse_reverse]
  have hdir : (cutAtSlash line).1 = (line.reverse.dropWhile fun c => decide (c ≠ '/')).reverse := by
    show line.take (line.length - (line.reverse.takeWhile fun c => decide (c ≠ '/')).reverse.length) = _
    generalize (line.reverse.dropWhile fun c => decide (c ≠ '/')).reverse = dir at hline ⊢
    generalize (line.reverse.takeWhile fun c => decide (c ≠ '/')).reverse = base at hline ⊢
    rw [hline, List.length_append, Nat.add_sub_cancel, List.take_left]
  have hbase : (cutAtSlash line).2 = (line.reverse.takeWhile fun c => decide (c ≠ '/')).reverse := rfl
  refine ⟨?_, fun hmem => ?_, fun hne => ?_⟩
  · rw [hdir]
    exact hline
  · rw [hbase, List.mem_reverse] at hmem
    exact of_decide_eq_true (@List.mem_takeWhile_imp _ (fun c => decide (c ≠ '/')) _ _ hmem) rfl
  · rw [hdir] at hne ⊢
    rw [List.getLast?_reverse]
    have hnil : line.reverse.dropWhile (fun c => decide (c ≠ '/')) ≠ [] := fun hnil => hne (by rw [hnil]; rfl)
    have hhead := List.head_dropWhile_not (fun c => decide (c ≠ '/')) hnil
    rw [List.head?_eq_some_head hnil, not_not.mp (of_decide_eq_false hhead)]

theorem pathRow?_spec (h : pathRow? line = some (dir, base)) :
    line = dir ++ base ∧ base ≠ [] ∧ '/' ∉ base ∧ dir.getLast? = some '/' := by
  rw [pathRow?] at h
  dsimp only at h
  split_ifs at h with hparts
  obtain ⟨rfl, rfl⟩ := Prod.mk.inj (Option.some.inj h)
  obtain ⟨hline, hbase, hdir⟩ := cutAtSlash_spec line
  refine ⟨hline, hparts.1, hbase, hdir fun hnil => ?_⟩
  have hrooted := hparts.2.1
  rw [hnil] at hrooted
  exact absurd hrooted (by decide)

/-- The row and the heading of a fold under files. -/
def searchSplit? (line : Line) : Option (Line × Line) :=
  (searchRow? line).map fun (path, number, content) => (path, number ++ ':' :: content)

/-- The row and the heading of a fold under directories. -/
def searchDirSplit? (line : Line) : Option (Line × Line) :=
  (searchRow? line).bind fun (path, number, content) =>
    if '/' ∈ path then some ((cutAtSlash path).1, (cutAtSlash path).2 ++ ':' :: (number ++ ':' :: content)) else none

theorem grepRow?_of_searchRow? {row : Line × Line × Line} (h : searchRow? line = some row) : grepRow? line = some row := by
  rw [searchRow?] at h
  split_ifs at h
  exact h

theorem searchSplit?_spec {heading row : Line} (h : searchSplit? line = some (heading, row)) :
    ∃ number content, line = heading ++ ':' :: row ∧ row = number ++ ':' :: content ∧ ':' ∉ heading ∧ number ≠ [] ∧
      ∀ d ∈ number, Text.isDecimalDigit d = true := by
  obtain ⟨⟨path, number, content⟩, hrow, heq⟩ := Option.map_eq_some_iff.mp h
  obtain ⟨rfl, rfl⟩ := Prod.mk.inj heq
  obtain ⟨hline, -, hcolon, hnumber, hdigits⟩ := grepRow?_spec (grepRow?_of_searchRow? hrow)
  exact ⟨number, content, hline, rfl, hcolon, hnumber, hdigits⟩

theorem searchDirSplit?_spec {heading row : Line} (h : searchDirSplit? line = some (heading, row)) :
    ∃ base number content, line = heading ++ row ∧ row = base ++ ':' :: (number ++ ':' :: content) ∧
      heading.getLast? = some '/' ∧ ':' ∉ heading ∧ ':' ∉ base ∧ '/' ∉ base ∧ number ≠ [] ∧
      ∀ d ∈ number, Text.isDecimalDigit d = true := by
  obtain ⟨⟨path, number, content⟩, hrow, hsplit⟩ := Option.bind_eq_some_iff.mp h
  dsimp only at hsplit
  split_ifs at hsplit with hslash
  obtain ⟨rfl, rfl⟩ := Prod.mk.inj (Option.some.inj hsplit)
  obtain ⟨hline, -, hcolon, hnumber, hdigits⟩ := grepRow?_spec (grepRow?_of_searchRow? hrow)
  obtain ⟨hpath, hbase, hdir⟩ := cutAtSlash_spec path
  have hne : (cutAtSlash path).1 ≠ [] := by
    intro hnil
    rw [hnil, List.nil_append] at hpath
    exact hbase (hpath ▸ hslash)
  rw [hpath, List.mem_append, not_or] at hcolon
  refine ⟨_, number, content, ?_, rfl, hdir hne, hcolon.1, hcolon.2, hbase, hnumber, hdigits⟩
  rw [← List.append_assoc, ← hpath]
  exact hline

theorem known_search (line : Line) : Known searchSplit? (fun line => (headingRow? line).isSome)
    (fun line => (headingRow? line).isNone) line := by
  intro heading row hsplit
  obtain ⟨number, content, -, rfl, hcolon, hnumber, hdigits⟩ := searchSplit?_spec hsplit
  dsimp only
  rw [headingRow?_append hnumber hdigits, headingRow?_of_notMem hcolon]
  exact ⟨rfl, rfl, rfl⟩

theorem known_path (line : Line) : Known pathRow? (fun line => line ≠ [] ∧ '/' ∉ line)
    (fun line => line.getLast? = some '/') line := by
  intro heading row hsplit
  obtain ⟨-, hrow, hbase, hlast⟩ := pathRow?_spec hsplit
  refine ⟨decide_eq_true ⟨hrow, hbase⟩, decide_eq_true hlast, decide_eq_false fun hdata => ?_⟩
  exact hdata.2 (List.mem_of_getLast? hlast)

end Rows

/-! ### What the checks put out -/

/-- The lines of a text. -/
def linesIn (text : List Char) : List Line := (splitKeepTrailing text).1

/-- No inverse that is run for a check puts out more lines than the content has. -/
def Bounded (content : List Char) (kind : String) : Prop :=
  ∀ c ∈ checks content kind, ∀ run ∈ c.runs, (run.1 (linesIn run.2)).length ≤ (linesIn c.baseline).length

instance (content : List Char) (kind : String) : Decidable (Bounded content kind) :=
  inferInstanceAs (Decidable (∀ c ∈ _, ∀ run ∈ _, _))

/-- What a candidate with blocks and runs names, in the blocks that are unfolded first and in the runs then, is no
more than the content has. -/
def NamesWithin (content : List Char) : Prop :=
  let candidate := foldRepeatedBlocks (collapseRuns content)
  let unfolded := unfoldRepeatedBlocks candidate
  (linesIn candidate).length + blockGain 0 (linesIn candidate) ≤ (linesIn content).length ∧
    (linesIn unfolded).length + runGain false ((linesIn unfolded).map fun line => (line, 1)) ≤ (linesIn content).length

/-- The condition of each kind. -/
def WithinBounds (content : List Char) (kind : String) : Prop :=
  match kind with
  | "log" => runGain false (lineRuns (linesIn (stripAnsi content))) ≤ 0
  | "search" =>
    headingsIn searchDirSplit? none (linesIn content) ≤
      headingsTaken isDirData (fun line => line.getLast? = some '/') none (headLines searchDirSplit? none (linesIn content))
  | "config" => NamesWithin content
  | "text" => runGain false (lineRuns (linesIn content)) ≤ 0
  | _ => True

section Bounds

variable {content text : List Char} {f : List Line → List Line}

theorem length_linesIn_lt (h : text.length < 2 ^ 64) : (linesIn text).length < 2 ^ 64 := (length_lines_le text).trans_lt h

theorem linesIn_collapseRuns (text : List Char) : linesIn (collapseRuns text) = collapseLines (linesIn text) := by
  by_cases hne : text = []
  · rw [hne]
    rfl
  · rw [linesIn, collapseRuns_eq, splitKeepTrailing_onLines hne (isSplit_splitKeepTrailing hne).collapseLines]
    rfl

/-- Expanding the runs that were collapsed is bounded if the lines of a marker's shape name no more than they take. -/
theorem length_expand_le_iff (h : text.length < 2 ^ 64) :
    (expandLines (linesIn (collapseRuns text))).length ≤ (linesIn text).length ↔
      runGain false (lineRuns (linesIn text)) ≤ 0 := by
  have hlength := length_expandLines_collapseLines (length_linesIn_lt h)
  rw [linesIn_collapseRuns]
  omega

/-- Taking headings back is bounded if as many are taken as were put in. -/
theorem length_unhead_le_iff {row? : Line → Option (Line × Line)} {isData isHeader : Line → Bool}
    {glue : Line → Line → Line} (hne : content ≠ [])
    (hrows : ∀ line ∈ linesIn content, ∀ heading row, row? line = some (heading, row) →
      '\n' ∉ heading ∧ '\n' ∉ row ∧ row ≠ []) :
    (unheadLines isData isHeader glue none (linesIn (onLines (headLines row? none) content))).length ≤
        (linesIn content).length ↔
      headingsIn row? none (linesIn content) ≤
        headingsTaken isData isHeader none (headLines row? none (linesIn content)) := by
  have hlines : linesIn (onLines (headLines row? none) content) = headLines row? none (linesIn content) :=
    congrArg Prod.fst (splitKeepTrailing_onLines hne ((isSplit_splitKeepTrailing hne).headLines hrows none))
  have hlength : (unheadLines isData isHeader glue none (headLines row? none (linesIn content))).length + _ = _ :=
    length_unheadLines none (headLines row? none (linesIn content))
  rw [length_headLines] at hlength
  rw [hlines]
  omega

variable {line heading row : Line}

theorem clean_of_searchSplit? (hclean : '\n' ∉ line)
    (h : searchSplit? line = some (heading, row)) : '\n' ∉ heading ∧ '\n' ∉ row ∧ row ≠ [] := by
  obtain ⟨number, content, rfl, hrow, -, hnumber, -⟩ := searchSplit?_spec h
  rw [List.mem_append, List.mem_cons, not_or, not_or] at hclean
  refine ⟨hclean.1, hclean.2.2, ?_⟩
  rw [hrow]
  exact List.append_ne_nil_of_right_ne_nil _ (List.cons_ne_nil _ _)

theorem clean_of_searchDirSplit? (hclean : '\n' ∉ line)
    (h : searchDirSplit? line = some (heading, row)) : '\n' ∉ heading ∧ '\n' ∉ row ∧ row ≠ [] := by
  obtain ⟨base, number, content, rfl, hrow, -⟩ := searchDirSplit?_spec h
  rw [List.mem_append, not_or] at hclean
  refine ⟨hclean.1, hclean.2, ?_⟩
  rw [hrow]
  exact List.append_ne_nil_of_right_ne_nil _ (List.cons_ne_nil _ _)

theorem clean_of_pathRow? (hclean : '\n' ∉ line)
    (h : pathRow? line = some (heading, row)) : '\n' ∉ heading ∧ '\n' ∉ row ∧ row ≠ [] := by
  obtain ⟨rfl, hrow, -, -⟩ := pathRow?_spec h
  rw [List.mem_append, not_or] at hclean
  exact ⟨hclean.1, hclean.2, hrow⟩

theorem searchUnheading_le (content : List Char) :
    (searchUnheadingLines (linesIn (searchHeading content))).length ≤ (linesIn content).length := by
  by_cases hne : content = []
  · rw [hne]
    exact le_rfl
  · have hclean := (isSplit_splitKeepTrailing hne).clean
    refine (@length_unhead_le_iff content searchSplit? _ _ _ hne fun line hline heading row h =>
      clean_of_searchSplit? (hclean line hline) h).mpr ?_
    exact headingsIn_le_headingsTaken (fun line _ => known_search line) nofun

theorem pathUnheading_le (content : List Char) :
    (pathUnheadingLines (linesIn (pathHeading content))).length ≤ (linesIn content).length := by
  rw [pathHeading]
  split_ifs with hfew
  · have hlength : (pathUnheadingLines (linesIn content)).length + _ = _ :=
      length_unheadLines none (linesIn content)
    omega
  · have hne : content ≠ [] := by
      rintro rfl
      exact hfew (by decide)
    have hclean := (isSplit_splitKeepTrailing hne).clean
    refine (@length_unhead_le_iff content pathRow? _ _ _ hne fun line hline heading row h =>
      clean_of_pathRow? (hclean line hline) h).mpr ?_
    exact headingsIn_le_headingsTaken (fun line _ => known_path line) nofun

theorem searchDirUnheading_le_iff (content : List Char) :
    (searchDirUnheadingLines (linesIn (searchDirHeading content))).length ≤ (linesIn content).length ↔
      WithinBounds content "search" := by
  by_cases hne : content = []
  · rw [hne]
    exact iff_of_true le_rfl le_rfl
  · have hclean := (isSplit_splitKeepTrailing hne).clean
    exact @length_unhead_le_iff content searchDirSplit? _ _ _ hne fun line hline heading row h =>
      clean_of_searchDirSplit? (hclean line hline) h

/-- No inverse that is run for a check puts out more lines than the content has exactly if the markers and headings
that the inverses take keep within bounds. -/
theorem bounded_iff (content : List Char) (hsize : content.length < 2 ^ 64) (kind : String) :
    Bounded content kind ↔ WithinBounds content kind := by
  have hone : ∀ (f : List Line → List Line) (candidate baseline : List Char),
      (∀ c ∈ [(⟨candidate, [f], baseline⟩ : Check)], ∀ run ∈ c.runs,
        (run.1 (linesIn run.2)).length ≤ (linesIn c.baseline).length) ↔
      (f (linesIn candidate)).length ≤ (linesIn baseline).length := by
    intro f candidate baseline
    rw [List.forall_mem_singleton]
    exact List.forall_mem_singleton
  by_cases hlog : kind = "log"
  · subst hlog
    have hshort : (stripAnsi content).length < 2 ^ 64 := (length_stripAnsiFrom_le 0 content).trans_lt hsize
    exact (hone _ _ _).trans (length_expand_le_iff hshort)
  by_cases hsearch : kind = "search"
  · subst hsearch
    refine (List.forall_mem_cons.trans (and_iff_right ?_)).trans
      ((hone _ _ _).trans (searchDirUnheading_le_iff content))
    exact List.forall_mem_singleton.mpr (searchUnheading_le content)
  by_cases hpaths : kind = "paths"
  · subst hpaths
    exact iff_of_true ((hone _ _ _).mpr (pathUnheading_le content)) trivial
  by_cases hconfig : kind = "config"
  · subst hconfig
    have hunfold := length_unfoldLines (linesIn (foldRepeatedBlocks (collapseRuns content)))
    have hexpand := length_expandLines (linesIn (unfoldRepeatedBlocks (foldRepeatedBlocks (collapseRuns content))))
    refine List.forall_mem_singleton.trans (List.forall_mem_cons.trans (and_congr ?_ ?_))
    · show (unfoldLines (linesIn (foldRepeatedBlocks (collapseRuns content)))).length ≤ (linesIn content).length ↔ _
      omega
    · refine (@List.forall_mem_singleton _ _
        (expandLines, unfoldRepeatedBlocks (foldRepeatedBlocks (collapseRuns content)))).trans ?_
      show (expandLines (linesIn (unfoldRepeatedBlocks (foldRepeatedBlocks (collapseRuns content))))).length ≤
        (linesIn content).length ↔ _
      omega
  by_cases htext : kind = "text"
  · subst htext
    exact (hone _ _ _).trans (length_expand_le_iff hsize)
  · have hnone : checks content kind = [] ∧ WithinBounds content kind = True := by
      unfold checks WithinBounds
      constructor
      · split <;> first | rfl | contradiction
      · split <;> first | rfl | contradiction
    rw [Bounded, hnone.1, hnone.2]
    exact iff_of_true nofun trivial

/-- A text with a run and a marker that follows it. -/
theorem bounded_iff_repeated : Bounded "a\na\n... (repeated 5 times)\n".toList "text" ↔
    WithinBounds "a\na\n... (repeated 5 times)\n".toList "text" :=
  bounded_iff "a\na\n... (repeated 5 times)\n".toList (by decide +kernel) "text"

/-- Markers that the content holds name more lines than it has, and a heading is not taken back. -/
theorem inverses_grow :
    ¬ Bounded "a\n... (repeated 3 times)".toList "text" ∧
      ¬ Bounded "x\ny\n... (repeats 2 lines from 2 lines back)".toList "config" ∧
      ¬ Bounded "foo/:12:x".toList "search" := by
  decide +kernel

end Bounds

end Headroom.Transforms
