import Headroom.Foundation.MarkedValues
import Headroom.Preamble.Pins

/-!
# The working directory of a conversation

The environment section of the preamble names the working directories, each behind a marker on a line of its own.
They are held at the values with which the conversation opened, and the live one is stated at the tail.
-/

open Foundation
open Foundation.Text

namespace Headroom.Preamble

def MARKER : List Char := "orking directory: ".toList

/-! ### Reading and writing -/

/-- The directories of a text; the fuel bounds their number. -/
def readText : ℕ → List Char → List String
  | 0, _ => []
  | fuel + 1, rest =>
    match find? MARKER rest with
    | none => []
    | some at_ =>
      let rest := rest.drop (at_ + MARKER.length)
      let dir := trimEnd (rest.takeWhile (· ≠ '\n'))
      let more := readText fuel (rest.dropWhile (· ≠ '\n'))
      if dir = [] then more else String.ofList dir :: more

/-- Every working directory named in a preamble, in order. -/
def readDirs (system : Json) : List String :=
  (systemTexts system).flatMap fun text => readText text.toList.length text.toList

/-- What stands behind a marker afterwards: the next held value, unless the line is bare. -/
def valueFor (next : List String) (line : List Char) : List Char :=
  match next.head? with
  | some value => if trimEnd line ≠ [] then value.toList else line
  | none => line

/-- A text with the next held values behind its markers, and the values that are left. -/
def writeText : ℕ → List String → List Char → List Char × List String
  | 0, next, rest => (rest, next)
  | fuel + 1, next, rest =>
    match find? MARKER rest with
    | none => (rest, next)
    | some at_ =>
      let after := rest.drop (at_ + MARKER.length)
      let more := writeText fuel next.tail (after.dropWhile (· ≠ '\n'))
      (rest.take (at_ + MARKER.length) ++ (valueFor next (after.takeWhile (· ≠ '\n')) ++ more.1), more.2)

/-- One text of the preamble rewritten. -/
def rewriteText (text : String) (next : List String) : String × List String :=
  let out := writeText text.toList.length next text.toList
  (String.ofList out.1, out.2)

/-- Rewrite the directories of a preamble by position, and tell whether every value was used. -/
def writeDirs (system : Json) (held : List String) : Json × Bool :=
  let out := mapTexts rewriteText system held
  (out.1, out.2.isEmpty)

/-! ### The note -/

def noteText (live held : String) : String :=
  "Working directory is now " ++ live ++ ". The environment section above was captured when this conversation " ++
    "started and still names " ++ held ++ "; " ++ live ++ " is the current one."

/-- State the live directory on the newest message, when it is the user's and holds blocks. -/
def noteAtTail (body : Json) (live held : String) : Json :=
  match body.getArr? "messages" with
  | none => body
  | some messages =>
    match messages.getLast? with
    | none => body
    | some last =>
      if last.getStr? "role" ≠ some "user" then body
      else
        match last.getArr? "content" with
        | none => body
        | some blocks =>
          if blocks.any fun block => block.getStr? "text" == some (noteText live held) then body
          else
            let note := Json.obj [("type", .str "text"), ("text", .str (noteText live held))]
            body.insert "messages"
              (.arr (messages.dropLast ++ [last.insert "content" (.arr (blocks ++ [note]))]))

/-- The working directories as a value that is held. -/
def workingDirs : Pinned (List String) where
  read system := if (readDirs system).isEmpty then none else some (readDirs system)
  write held system := writeDirs system held
  fits held live := held.length == live.length
  name live := live.headD ""
  note live held body := noteAtTail body (live.headD "") (held.headD "")

/-! ### Values by position -/

/-- What stands behind the markers of a text. -/
def rawValues (text : String) : List (List Char) :=
  (spans MARKER '\n' text.toList.length text.toList).1.map Prod.snd

/-- What stands behind the markers of a preamble. -/
def dirValues (system : Json) : List (List Char) := (systemTexts system).flatMap rawValues

/-- The values that are written, by position. -/
def fill : List (List Char) → List String → List (List Char)
  | [], _ => []
  | line :: lines, next => valueFor next line :: fill lines next.tail

/-- No bare marker stands before one with a value. -/
def Aligned (system : Json) : Prop :=
  ∃ named bare, dirValues system = named ++ bare ∧ (∀ line ∈ named, trimEnd line ≠ []) ∧
    ∀ line ∈ bare, trimEnd line = []

/-- A text without what stands behind its markers. -/
def blankText (text : String) (_ : Unit) : String × Unit :=
  let cut := spans MARKER '\n' text.toList.length text.toList
  (String.ofList (joined (cut.1.map fun part => (part.1, [])) cut.2), ())

/-- Two preambles that differ in what stands behind their markers at most. -/
def SameOutside (system system' : Json) : Prop := (mapTexts blankText system ()).1 = (mapTexts blankText system' ()).1

theorem marker_ne_nil : MARKER ≠ [] := by decide

theorem readText_eq (fuel : ℕ) (rest : List Char) :
    readText fuel rest =
      ((((spans MARKER '\n' fuel rest).1.map Prod.snd).map trimEnd).filter (· ≠ [])).map String.ofList := by
  induction fuel generalizing rest with
  | zero => rfl
  | succ fuel ih =>
    obtain hfind | ⟨i, hfind⟩ := Option.eq_none_or_eq_some (find? MARKER rest)
    · rw [spans_of_none hfind, readText, hfind]
      rfl
    · rw [spans_of_some hfind, List.map_cons, List.map_cons, List.filter_cons]
      simp only [readText, hfind, ih]
      split_ifs with hdir hkeep hkeep
      · exact absurd hdir (by simpa using hkeep)
      · rfl
      · rfl
      · exact absurd (by simpa using hkeep) hdir

theorem readDirs_eq (system : Json) :
    readDirs system = (((dirValues system).map trimEnd).filter (· ≠ [])).map String.ofList := by
  rw [readDirs, dirValues]
  induction systemTexts system with
  | nil => rfl
  | cons text texts ih =>
    rw [List.flatMap_cons, List.flatMap_cons, ih, readText_eq, List.map_append, List.filter_append,
      List.map_append]
    rfl

/-- The parts of a text with other values. -/
def refill (parts : List (List Char × List Char)) (next : List String) : List (List Char × List Char) :=
  List.zip (parts.map Prod.fst) (fill (parts.map Prod.snd) next)

theorem refill_cons (part : List Char × List Char) (parts : List (List Char × List Char)) (next : List String) :
    refill (part :: parts) next = (part.1, valueFor next part.2) :: refill parts next.tail := rfl

theorem length_fill (lines : List (List Char)) (next : List String) : (fill lines next).length = lines.length := by
  induction lines generalizing next with
  | nil => rfl
  | cons line lines ih => rw [fill, List.length_cons, List.length_cons, ih]

theorem fill_append (lines more : List (List Char)) (next : List String) :
    fill (lines ++ more) next = fill lines next ++ fill more (next.drop lines.length) := by
  induction lines generalizing next with
  | nil => rfl
  | cons line lines ih =>
    rw [List.cons_append, fill, fill, ih, List.length_cons, List.cons_append, List.drop_tail]

theorem writeText_eq (fuel : ℕ) (next : List String) (rest : List Char) :
    writeText fuel next rest =
      (joined (refill (spans MARKER '\n' fuel rest).1 next) (spans MARKER '\n' fuel rest).2,
        next.drop (spans MARKER '\n' fuel rest).1.length) := by
  induction fuel generalizing next rest with
  | zero => rfl
  | succ fuel ih =>
    obtain hfind | ⟨i, hfind⟩ := Option.eq_none_or_eq_some (find? MARKER rest)
    · rw [spans_of_none hfind, writeText, hfind]
      rfl
    · rw [spans_of_some hfind]
      simp only [writeText, hfind, ih, List.length_cons, List.drop_tail, refill_cons, joined_cons]

theorem map_fst_refill (parts : List (List Char × List Char)) (next : List String) :
    (refill parts next).map Prod.fst = parts.map Prod.fst := by
  rw [refill, List.map_fst_zip]
  rw [length_fill, List.length_map, List.length_map]

theorem map_snd_refill (parts : List (List Char × List Char)) (next : List String) :
    (refill parts next).map Prod.snd = fill (parts.map Prod.snd) next := by
  rw [refill, List.map_snd_zip]
  rw [length_fill, List.length_map, List.length_map]

/-! ### Held values -/

/-- A value that was read: it stands on one line, without blanks behind it, and is not empty. -/
def IsDir (value : String) : Prop := '\n' ∉ value.toList ∧ trimEnd value.toList = value.toList ∧ value.toList ≠ []

theorem stop_notMem_rawValues {text : String} {line : List Char} (h : line ∈ rawValues text) : '\n' ∉ line := by
  have hcut : ∀ {parts tail}, WellCut MARKER '\n' parts tail → ∀ part ∈ parts, '\n' ∉ part.2 := by
    intro parts tail hcut
    induction parts with
    | nil => exact fun _ h => absurd h List.not_mem_nil
    | cons part parts ih =>
      obtain ⟨-, hvalue, -, hrest⟩ := hcut
      exact List.forall_mem_cons.2 ⟨hvalue, ih hrest⟩
  obtain ⟨part, hpart, rfl⟩ := List.mem_map.1 h
  exact hcut (wellCut_spans marker_ne_nil le_rfl) part hpart

theorem isDir_of_mem_readDirs {system : Json} {value : String} (h : value ∈ readDirs system) : IsDir value := by
  rw [readDirs_eq] at h
  obtain ⟨dir, hdir, rfl⟩ := List.mem_map.1 h
  obtain ⟨hdir, hne⟩ := List.mem_filter.1 hdir
  obtain ⟨line, hline, rfl⟩ := List.mem_map.1 hdir
  obtain ⟨text, -, hline⟩ := List.mem_flatMap.1 hline
  rw [IsDir, String.toList_ofList]
  refine ⟨fun hmem => ?_, trimEnd_trimEnd line, by simpa using hne⟩
  have hstart := trimEnd_prefix line
  exact stop_notMem_rawValues hline (hstart.subset hmem)

variable {next : List String}

theorem stop_notMem_fill {lines : List (List Char)} (hlines : ∀ line ∈ lines, '\n' ∉ line)
    (hnext : ∀ value ∈ next, IsDir value) : ∀ line ∈ fill lines next, '\n' ∉ line := by
  induction lines generalizing next with
  | nil => exact fun _ h => absurd h List.not_mem_nil
  | cons line lines ih =>
    obtain ⟨hline, hlines⟩ := List.forall_mem_cons.1 hlines
    refine List.forall_mem_cons.2 ⟨?_, ih hlines fun value hvalue => hnext value (List.mem_of_mem_tail hvalue)⟩
    rw [valueFor]
    split
    · rename_i value hvalue
      split_ifs
      · exact (hnext value (List.mem_of_mem_head? hvalue)).1
      · exact hline
    · exact hline

/-- A text that is rewritten is cut at the same markers, with the new values behind them. -/
theorem rewriteText_spans (text : String) (hnext : ∀ value ∈ next, IsDir value) :
    spans MARKER '\n' (rewriteText text next).1.toList.length (rewriteText text next).1.toList =
        (refill (spans MARKER '\n' text.toList.length text.toList).1 next,
          (spans MARKER '\n' text.toList.length text.toList).2) ∧
      (rewriteText text next).2 = next.drop (rawValues text).length := by
  have hwritten : (rewriteText text next).1.toList =
      joined (refill (spans MARKER '\n' text.toList.length text.toList).1 next)
        (spans MARKER '\n' text.toList.length text.toList).2 := by
    rw [rewriteText, writeText_eq, String.toList_ofList]
  have hcut : WellCut MARKER '\n' (refill (spans MARKER '\n' text.toList.length text.toList).1 next)
      (spans MARKER '\n' text.toList.length text.toList).2 := by
    refine (wellCut_spans marker_ne_nil le_rfl).setValues marker_ne_nil (map_fst_refill _ _) fun part hpart => ?_
    have hvalue : part.2 ∈ (refill (spans MARKER '\n' text.toList.length text.toList).1 next).map Prod.snd :=
      List.mem_map_of_mem hpart
    rw [map_snd_refill] at hvalue
    exact stop_notMem_fill (fun line hline => stop_notMem_rawValues hline) hnext _ hvalue
  refine ⟨?_, ?_⟩
  · rw [hwritten]
    exact spans_of_wellCut marker_ne_nil hcut (hcut.length_le marker_ne_nil)
  · rw [rewriteText, writeText_eq, rawValues, List.length_map]

theorem rawValues_rewriteText (text : String) (hnext : ∀ value ∈ next, IsDir value) :
    rawValues (rewriteText text next).1 = fill (rawValues text) next := by
  rw [rawValues, (rewriteText_spans text hnext).1, map_snd_refill]
  rfl

theorem blankText_rewriteText (text : String) (hnext : ∀ value ∈ next, IsDir value) :
    (blankText (rewriteText text next).1 ()).1 = (blankText text ()).1 := by
  have hparts (parts : List (List Char × List Char)) :
      (parts.map fun part => (part.1, ([] : List Char))) = (parts.map Prod.fst).map fun before => (before, []) := by
    rw [List.map_map]
    rfl
  rw [blankText, (rewriteText_spans text hnext).1]
  show String.ofList (joined ((refill _ next).map _) _) = _
  rw [hparts, map_fst_refill, ← hparts]
  rfl

theorem dirValues_writeDirs (system : Json) {held : List String} (hheld : ∀ value ∈ held, IsDir value) :
    dirValues (writeDirs system held).1 = fill (dirValues system) held ∧
      (writeDirs system held).2 = (held.drop (dirValues system).length).isEmpty := by
  obtain ⟨htexts, hstate⟩ := systemTexts_mapTexts rewriteText system held
  rw [dirValues, dirValues, writeDirs]
  dsimp only
  rw [htexts, hstate]
  clear htexts hstate
  induction systemTexts system generalizing held with
  | nil => exact ⟨rfl, rfl⟩
  | cons text texts ih =>
    have hrest : ∀ value ∈ held.drop (rawValues text).length, IsDir value :=
      fun value hvalue => hheld value (List.mem_of_mem_drop hvalue)
    obtain ⟨hvalues, hleft⟩ := ih hrest
    rw [thread_cons, (rewriteText_spans text hheld).2, List.flatMap_cons, List.flatMap_cons, fill_append,
      rawValues_rewriteText text hheld, hvalues, hleft, List.length_append, List.drop_drop]
    exact ⟨rfl, rfl⟩

theorem fill_aligned {named bare : List (List Char)} {held : List String}
    (hnamed : ∀ line ∈ named, trimEnd line ≠ []) (hlength : held.length = named.length) :
    fill (named ++ bare) held = held.map String.toList ++ bare := by
  have hnil (lines : List (List Char)) : fill lines [] = lines := by
    induction lines with
    | nil => rfl
    | cons line lines ih => exact congrArg (line :: ·) ih
  induction named generalizing held with
  | nil =>
    obtain rfl := List.length_eq_zero_iff.1 hlength
    exact hnil bare
  | cons line named ih =>
    obtain ⟨value, held, rfl⟩ : ∃ v vs, held = v :: vs := List.exists_cons_of_length_eq_add_one hlength
    obtain ⟨hline, hnamed⟩ := List.forall_mem_cons.1 hnamed
    rw [List.cons_append, fill, List.tail_cons, ih hnamed (by simpa using hlength)]
    show (if _ then _ else _) :: _ = _
    rw [if_pos hline]
    rfl

theorem readDirs_of_read {system : Json} {dirs : List String} (h : workingDirs.read system = some dirs) :
    readDirs system = dirs ∧ dirs ≠ [] := by
  have hif : (if (readDirs system).isEmpty then none else some (readDirs system)) = some dirs := h
  split_ifs at hif with hempty
  obtain rfl := Option.some.inj hif
  exact ⟨rfl, by simpa using hempty⟩

theorem lawful_workingDirs : workingDirs.Lawful SameOutside Aligned where
  same _ := rfl
  writes := by
    intro other system live held hother hlive hfits
    obtain ⟨rfl, -⟩ := readDirs_of_read hother
    obtain ⟨rfl, -⟩ := readDirs_of_read hlive
    have hlength : (readDirs other).length = (readDirs system).length := beq_iff_eq.1 hfits
    have hle : (readDirs system).length ≤ (dirValues system).length := by
      rw [readDirs_eq, List.length_map]
      exact (List.length_filter_le _ _).trans (List.length_map _).le
    show (writeDirs system (readDirs other)).2 = true
    rw [(dirValues_writeDirs system fun value => isDir_of_mem_readDirs).2, List.isEmpty_iff,
      List.drop_eq_nil_iff]
    omega
  outside := by
    intro other system live held hother _ _
    obtain ⟨rfl, -⟩ := readDirs_of_read hother
    refine (mapTexts_mapTexts (J := fun next _ => ∀ value ∈ next, IsDir value) system
      (fun value => isDir_of_mem_readDirs) fun text next _ hnext => ⟨?_, ?_⟩).symm
    · exact Prod.ext (blankText_rewriteText text hnext) rfl
    · rw [(rewriteText_spans text hnext).2]
      exact fun value hvalue => hnext value (List.mem_of_mem_drop hvalue)
  reads := by
    intro other system live held hother hlive hfits haligned
    obtain ⟨rfl, hne⟩ := readDirs_of_read hother
    obtain ⟨rfl, -⟩ := readDirs_of_read hlive
    have hlength : (readDirs other).length = (readDirs system).length := beq_iff_eq.1 hfits
    have hdirs : ∀ value ∈ readDirs other, IsDir value := fun value => isDir_of_mem_readDirs
    obtain ⟨named, bare, hvalues, hnamed, hbare⟩ := haligned
    have hfilter {lines : List (List Char)} (hlines : ∀ line ∈ lines, trimEnd line = []) :
        (lines.map trimEnd).filter (· ≠ []) = [] := by
      rw [List.filter_eq_nil_iff]
      intro line hline
      obtain ⟨line, hmem, rfl⟩ := List.mem_map.1 hline
      simp [hlines line hmem]
    have hcount : (readDirs system).length = named.length := by
      have hkeep : (named.map trimEnd).filter (· ≠ []) = named.map trimEnd := by
        rw [List.filter_eq_self]
        intro line hline
        obtain ⟨line, hmem, rfl⟩ := List.mem_map.1 hline
        simpa using hnamed line hmem
      rw [readDirs_eq, hvalues, List.map_append, List.filter_append, hfilter hbare, hkeep, List.append_nil,
        List.length_map, List.length_map]
    have hback : readDirs (writeDirs system (readDirs other)).1 = readDirs other := by
      have hsame : ((readDirs other).map String.toList).map trimEnd = (readDirs other).map String.toList :=
        (List.map_congr_left fun line hline => by
          obtain ⟨value, hvalue, rfl⟩ := List.mem_map.1 hline
          exact (hdirs value hvalue).2.1).trans (List.map_id _)
      have hkeep : ((readDirs other).map String.toList).filter (· ≠ []) = (readDirs other).map String.toList := by
        rw [List.filter_eq_self]
        intro line hline
        obtain ⟨value, hvalue, rfl⟩ := List.mem_map.1 hline
        simpa using (hdirs value hvalue).2.2
      rw [readDirs_eq, (dirValues_writeDirs system hdirs).1, hvalues, fill_aligned hnamed (hlength.trans hcount),
        List.map_append, List.filter_append, hfilter hbare, List.append_nil, hsame, hkeep, List.map_map]
      exact (List.map_congr_left fun value _ => String.ofList_toList).trans (List.map_id _)
    show (if (readDirs (writeDirs system (readDirs other)).1).isEmpty then none
      else some (readDirs (writeDirs system (readDirs other)).1)) = _
    rw [hback, if_neg (by simpa using hne)]

/-- A body with one more block on its newest message at most. -/
def NoteOnly (body body' : Json) : Prop :=
  body' = body ∨ ∃ messages last blocks note,
    body.getArr? "messages" = some (messages ++ [last]) ∧ last.getStr? "role" = some "user" ∧
      last.getArr? "content" = some blocks ∧
      body' = body.insert "messages" (.arr (messages ++ [last.insert "content" (.arr (blocks ++ [note]))]))

theorem noteOnly_noteAtTail (body : Json) (live held : String) : NoteOnly body (noteAtTail body live held) := by
  rw [noteAtTail]
  split
  · exact .inl rfl
  · rename_i messages hmessages
    split
    · exact .inl rfl
    · rename_i last hlast
      split_ifs with hrole
      · exact .inl rfl
      · split
        · exact .inl rfl
        · rename_i blocks hblocks
          split_ifs
          · exact .inl rfl
          · obtain ⟨front, rfl⟩ := List.getLast?_eq_some_iff.1 hlast
            rw [List.dropLast_concat]
            exact .inr ⟨front, last, blocks, _, hmessages, not_ne_iff.1 hrole, hblocks, rfl⟩

end Headroom.Preamble
