import Headroom.Pipeline.Orchestrator
import Headroom.Proxy.Continuation
import Headroom.SmartCrusher.Compaction.Compactor

/-!
# Noise in diffs

Lock files and changes of nothing but whitespace are noise. The body of a file section that is noise gives way to a
note; the whole diff goes to the store.
-/

open Foundation Headroom.Pipeline Headroom.SmartCrusher
open Headroom.Proxy (textLines)

namespace Headroom.Transforms.DiffNoise

abbrev Line : Type := List Char

structure DiffNoiseConfig where
  lockfileSuffixes : List Line
  dropWhitespaceOnlyHunks : Bool

/-! ### Sections -/

/-- The section of one file: up to the first hunk, and from there. -/
structure Segment where
  newPath : Line
  headerLines : List Line
  bodyLines : List Line
  deriving DecidableEq

def startsFile (line : Line) : Bool := "diff --git".toList.isPrefixOf line

def startsHunk (line : Line) : Bool := "@@".toList.isPrefixOf line

/-- What stands behind the last place of a pattern. -/
def afterLast (pattern : Line) : Line → Option Line
  | [] => none
  | c :: cs =>
    (afterLast pattern cs).or (if pattern.isPrefixOf (c :: cs) then some ((c :: cs).drop pattern.length) else none)

/-- The path of the new file. -/
def parseNewPath (header : Line) : Line := (afterLast " b/".toList header).getD []

/-- The sections so far, the one that is open, and whether its body is. -/
structure Parsing where
  segments : List Segment := []
  current : Option Segment := none
  inBody : Bool := false

def Parsing.all (p : Parsing) : List Segment := p.segments ++ p.current.toList

def Parsing.feed (p : Parsing) (line : Line) : Parsing :=
  if startsFile line then ⟨p.all, some ⟨parseNewPath line, [line], []⟩, false⟩
  else
    match p.current with
    -- The prelude is not a section.
    | none => p
    | some seg =>
      if p.inBody || startsHunk line then
        ⟨p.segments, some { seg with bodyLines := seg.bodyLines ++ [line] }, true⟩
      else ⟨p.segments, some { seg with headerLines := seg.headerLines ++ [line] }, false⟩

def parseSegments (content : Line) : List Segment := ((textLines content).foldl Parsing.feed {}).all

/-- The lines before the first section. -/
def leadingPreDiffLines (content : Line) : List Line := (textLines content).takeWhile (!startsFile ·)

/-! ### Noise -/

def isAsciiBlank (c : Char) : Bool := c = ' ' || c = '\t' || c = '\n' || c.toNat = 12 || c = '\r'

def stripWs (text : Line) : Line := text.filter (!isAsciiBlank ·)

/-- The text of a line with a sign; lines with the whole mark do not count. -/
def changed? (sign : Char) (mark line : Line) : Option Line :=
  if line.head? = some sign ∧ ¬ mark.isPrefixOf line then some (stripWs line.tail) else none

def added (body : List Line) : List Line := body.filterMap (changed? '+' "+++".toList)

def removed (body : List Line) : List Line := body.filterMap (changed? '-' "---".toList)

def Segment.bodyIsWhitespaceOnly (seg : Segment) : Bool :=
  !((added seg.bodyLines).isEmpty && (removed seg.bodyLines).isEmpty) && added seg.bodyLines == removed seg.bodyLines

/-- Whether a path is the name of a lock file, or ends with one behind a separator. -/
def isLockfile (config : DiffNoiseConfig) (path : Line) : Bool :=
  !path.isEmpty && config.lockfileSuffixes.any fun ending =>
    ending.isSuffixOf path &&
      ((path.take (path.length - ending.length)).getLast?.all fun c => c = '/' || c = '\\')

def dropsWhitespace (config : DiffNoiseConfig) (seg : Segment) : Bool :=
  config.dropWhitespaceOnlyHunks && seg.bodyIsWhitespaceOnly

def isDropped (config : DiffNoiseConfig) (seg : Segment) : Bool :=
  isLockfile config seg.newPath || dropsWhitespace config seg

/-- What stands for a body. -/
def note (config : DiffNoiseConfig) (seg : Segment) : Line :=
  "[diff_noise: ".toList ++ (if isLockfile config seg.newPath then "lockfile" else "whitespace-only").toList ++
    " hunks dropped (".toList ++ (toString seg.bodyLines.length).toList ++ " lines)]".toList

/-- The lines of a section behind the pass. -/
def shown (config : DiffNoiseConfig) (seg : Segment) : List Line :=
  seg.headerLines ++ if isDropped config seg then [note config seg] else seg.bodyLines

def joined (lines : List Line) : Line := lines.flatMap (· ++ ['\n'])

def marker (key : String) : Line := "\n[diff_noise CCR: hash=".toList ++ key.toList ++ "]".toList

variable {σ : Type} (md5Hex24 : String → String) (store : CcrStore σ) (config : DiffNoiseConfig)

def apply (content : Line) (s : σ) : Except TransformError OffloadOutput × σ :=
  let segments := parseSegments content
  if segments.isEmpty then (.error (.skipped "diff_noise" "no diff sections"), s)
  else
    let output := joined (leadingPreDiffLines content ++ segments.flatMap (shown config))
    if !segments.any (isDropped config) || Text.utf8Length content ≤ Text.utf8Length output then
      (.error (.skipped "diff_noise" "no droppable hunks"), s)
    else
      let text := String.ofList content
      let key := md5Hex24 text
      match store.put s key text with
      | (false, s) => (.error (.skipped "diff_noise" "ccr store refused the original"), s)
      | (true, s) =>
        (.ok (.fromLengths text.utf8ByteSize (String.ofList (output ++ marker key)) key), s)

/-! ### What a diff is made of -/

/-- A section: it starts with the line of a file, its header goes up to the first hunk, and no other file starts in it. -/
structure Segment.Parsed (seg : Segment) : Prop where
  header : ∃ first rest, seg.headerLines = first :: rest ∧ startsFile first = true ∧ seg.newPath = parseNewPath first ∧
    ∀ line ∈ rest, startsFile line = false ∧ startsHunk line = false
  body : ∀ line ∈ seg.bodyLines, startsFile line = false
  hunk : ∀ line ∈ seg.bodyLines.head?, startsHunk line = true

/-- The lines of a section. -/
def Segment.lines (seg : Segment) : List Line := seg.headerLines ++ seg.bodyLines

/-- What has been read: a prelude without a file, and sections, of which the last one is open. -/
structure Parsing.Reads (p : Parsing) (lines : List Line) : Prop where
  whole : lines = lines.takeWhile (!startsFile ·) ++ p.all.flatMap Segment.lines
  parsed : ∀ seg ∈ p.all, seg.Parsed
  closed : p.current = none → p.segments = [] ∧ ∀ line ∈ lines, startsFile line = false
  opened : p.current ≠ none → ∃ line ∈ lines, startsFile line = true
  inBody : ∀ seg, p.current = some seg → (p.inBody = false ↔ seg.bodyLines = [])

theorem takeWhile_append_of_exists {lines more : List Line} (h : ∃ line ∈ lines, startsFile line = true) :
    (lines ++ more).takeWhile (!startsFile ·) = lines.takeWhile (!startsFile ·) := by
  obtain ⟨line, hline, hfile⟩ := h
  rw [List.takeWhile_append, if_neg]
  intro hall
  have heq : lines.takeWhile (!startsFile ·) = lines := (List.takeWhile_prefix _).eq_of_length hall
  have hnot := List.takeWhile_eq_self_iff.mp heq line hline
  rw [hfile] at hnot
  exact absurd hnot (by decide)

variable {line : Line}

theorem flatMap_all_update {p : Parsing} {seg seg' : Segment} (h : p.current = some seg) {inBody : Bool}
    (hline : seg'.lines = seg.lines ++ [line]) :
    (Parsing.all ⟨p.segments, some seg', inBody⟩).flatMap Segment.lines = p.all.flatMap Segment.lines ++ [line] := by
  rw [Parsing.all, Parsing.all, h, List.flatMap_append, List.flatMap_append]
  simp [hline]

/-- One more line of an open section. -/
theorem Parsing.Reads.extend {p : Parsing} {lines : List Line} {seg seg' : Segment} {inBody : Bool}
    (h : p.Reads lines) (hcurrent : p.current = some seg) (hline : seg'.lines = seg.lines ++ [line])
    (hparsed : seg.Parsed → seg'.Parsed) (hbody : inBody = false ↔ seg'.bodyLines = []) :
    Parsing.Reads ⟨p.segments, some seg', inBody⟩ (lines ++ [line]) where
  whole := by
    rw [takeWhile_append_of_exists (h.opened (by rw [hcurrent]; nofun)), flatMap_all_update hcurrent hline,
      ← List.append_assoc, ← h.whole]
  parsed := by
    intro other hother
    rcases List.mem_append.mp hother with hbefore | hlast
    · exact h.parsed other (List.mem_append_left _ hbefore)
    · rw [List.mem_singleton.mp hlast]
      refine hparsed (h.parsed seg (List.mem_append_right _ ?_))
      rw [hcurrent]
      exact List.mem_singleton_self seg
  closed := nofun
  opened := by
    intro _
    obtain ⟨file, hfile, hstarts⟩ := h.opened (by rw [hcurrent]; nofun)
    exact ⟨file, List.mem_append_left _ hfile, hstarts⟩
  inBody := by
    rintro _ ⟨⟩
    exact hbody

theorem reads (lines : List Line) : (lines.foldl Parsing.feed {}).Reads lines := by
  induction lines using List.reverseRecOn with
  | nil => exact ⟨rfl, nofun, fun _ => ⟨rfl, nofun⟩, fun h => absurd rfl h, nofun⟩
  | append_singleton lines line ih =>
    rw [List.foldl_concat, Parsing.feed]
    by_cases hfile : startsFile line = true
    · -- the line of a file opens a section
      rw [if_pos hfile]
      refine ⟨?_, ?_, nofun, fun _ => ⟨line, List.mem_append_right _ (List.mem_singleton_self line), hfile⟩, ?_⟩
      · have htake : (lines ++ [line]).takeWhile (!startsFile ·) = lines.takeWhile (!startsFile ·) := by
          rw [List.takeWhile_append]
          split_ifs with hall
          · rw [List.takeWhile_cons, hfile, if_neg (by decide), List.append_nil]
            exact ((List.takeWhile_prefix _).eq_of_length hall).symm
          · rfl
        rw [htake, Parsing.all, List.flatMap_append, ← List.append_assoc, ← ih.whole]
        rfl
      · intro seg hseg
        rcases List.mem_append.mp hseg with hbefore | hlast
        · exact ih.parsed seg hbefore
        · rw [List.mem_singleton.mp hlast]
          exact ⟨⟨line, [], rfl, hfile, rfl, nofun⟩, nofun, nofun⟩
      · rintro _ ⟨⟩
        exact iff_of_true rfl rfl
    · have hnot : startsFile line = false := Bool.eq_false_of_not_eq_true hfile
      rw [if_neg hfile]
      cases hcurrent : (lines.foldl Parsing.feed {}).current with
      | none =>
        obtain ⟨hnil, hall⟩ := ih.closed hcurrent
        have hmore : ∀ l ∈ lines ++ [line], startsFile l = false := by
          intro l hl
          rcases List.mem_append.mp hl with hbefore | hlast
          · exact hall l hbefore
          · rw [List.mem_singleton.mp hlast, hnot]
        refine ⟨?_, ih.parsed, fun _ => ⟨hnil, hmore⟩, fun h => absurd hcurrent h, ih.inBody⟩
        rw [List.takeWhile_eq_self_iff.mpr fun l hl => by rw [hmore l hl]; rfl, Parsing.all, hnil, hcurrent]
        exact (List.append_nil _).symm
      | some seg =>
        dsimp only
        split_ifs with hbody
        · refine ih.extend hcurrent (List.append_assoc ..).symm (fun hparsed => ⟨hparsed.header, ?_, ?_⟩)
            (iff_of_false (by decide) (List.append_ne_nil_of_right_ne_nil _ (List.cons_ne_nil _ _)))
          · intro l hl
            rcases List.mem_append.mp hl with hbefore | hlast
            · exact hparsed.body l hbefore
            · rw [List.mem_singleton.mp hlast, hnot]
          · intro l hl
            cases hlines : seg.bodyLines with
            | nil =>
              rw [hlines] at hl
              obtain rfl : line = l := Option.some.inj hl
              rwa [(ih.inBody seg hcurrent).mpr hlines, Bool.false_or] at hbody
            | cons head rest =>
              refine hparsed.hunk l ?_
              rw [hlines] at hl ⊢
              exact hl
        · rw [Bool.or_eq_true_iff, not_or, Bool.not_eq_true, Bool.not_eq_true] at hbody
          have hnil := (ih.inBody seg hcurrent).mp hbody.1
          refine ih.extend hcurrent ?_ (fun hparsed => ⟨?_, hparsed.body, hparsed.hunk⟩)
            (iff_of_true rfl hnil)
          · rw [Segment.lines, Segment.lines, hnil, List.append_nil, List.append_nil]
          · obtain ⟨first, rest, hheader, hfirst, hpath, hrest⟩ := hparsed.header
            refine ⟨first, rest ++ [line], by rw [hheader]; rfl, hfirst, hpath, ?_⟩
            intro l hl
            rcases List.mem_append.mp hl with hbefore | hlast
            · exact hrest l hbefore
            · rw [List.mem_singleton.mp hlast]
              exact ⟨hnot, hbody.2⟩

/-- A diff is its prelude and its sections. -/
theorem textLines_eq (content : Line) :
    textLines content = leadingPreDiffLines content ++ (parseSegments content).flatMap Segment.lines ∧
      ∀ seg ∈ parseSegments content, seg.Parsed :=
  ⟨(reads (textLines content)).whole, (reads (textLines content)).parsed⟩

/-! ### Lines that are not counted -/

/-- The text of a line with a sign, whatever stands behind the sign. -/
def signed? (sign : Char) (line : Line) : Option Line :=
  if line.head? = some sign then some (stripWs line.tail) else none

/-- Lines that look like the marks of a file header. -/
def isHidden (line : Line) : Bool := "+++".toList.isPrefixOf line || "---".toList.isPrefixOf line

theorem changed?_of_not_isHidden (h : isHidden line = false) :
    changed? '+' "+++".toList line = signed? '+' line ∧ changed? '-' "---".toList line = signed? '-' line := by
  rw [isHidden, Bool.or_eq_false_iff] at h
  rw [changed?, changed?, signed?, signed?, h.1, h.2]
  simp

/-- Some of the texts are those of counted lines, and some those of lines with the whole mark. -/
theorem countP_signed (sign : Char) (P : Line → Bool) (body : List Line) :
    (body.filterMap (signed? sign)).countP P = (body.filterMap (changed? sign [sign, sign, sign])).countP P +
      body.countP fun line => [sign, sign, sign].isPrefixOf line && P (stripWs line.tail) := by
  induction body with
  | nil => rfl
  | cons line body ih =>
    rw [List.filterMap_cons, List.filterMap_cons, List.countP_cons, signed?, changed?]
    by_cases hsign : line.head? = some sign
    · by_cases hmark : [sign, sign, sign].isPrefixOf line = true
      · by_cases htext : P (stripWs line.tail) = true <;> simp [hsign, hmark, htext, ih]
        omega
      · by_cases htext : P (stripWs line.tail) = true <;> simp [hsign, hmark, htext, ih]
        omega
    · have hmark : [sign, sign, sign].isPrefixOf line = false := by
        refine Bool.eq_false_of_not_eq_true fun hmark => hsign ?_
        obtain ⟨rest, rfl⟩ := List.isPrefixOf_iff_prefix.mp hmark
        rfl
      simp [hsign, hmark, ih]

/-- The text of a line with a whole mark starts with the sign. -/
theorem stripWs_tail_of_mark {sign : Char} (hsign : isAsciiBlank sign = false)
    (h : [sign, sign, sign].isPrefixOf line = true) : ∃ rest, stripWs line.tail = sign :: sign :: rest := by
  obtain ⟨rest, rfl⟩ := List.isPrefixOf_iff_prefix.mp h
  refine ⟨stripWs rest, ?_⟩
  simp [stripWs, hsign]

/-- Where the counted lines agree, all lines do if and only if none has a whole mark. -/
theorem signed_eq_iff {body : List Line} (h : added body = removed body) :
    body.filterMap (signed? '+') = body.filterMap (signed? '-') ↔ ∀ line ∈ body, isHidden line = false := by
  constructor
  · intro heq line hline
    rw [isHidden, Bool.or_eq_false_iff]
    -- counts the texts that start with two of a sign
    have hcount (sign other : Char) (hsign : isAsciiBlank sign = false) (hother : isAsciiBlank other = false)
        (hne : sign ≠ other)
        (hvisible : body.filterMap (changed? sign [sign, sign, sign]) =
          body.filterMap (changed? other [other, other, other]))
        (hall : body.filterMap (signed? sign) = body.filterMap (signed? other)) :
        [sign, sign, sign].isPrefixOf line = false := by
      have hone := countP_signed sign ([sign, sign].isPrefixOf ·) body
      have htwo := countP_signed other ([sign, sign].isPrefixOf ·) body
      have hnone : (body.countP fun l => [other, other, other].isPrefixOf l && [sign, sign].isPrefixOf (stripWs l.tail)) =
          0 := by
        rw [List.countP_eq_zero]
        intro l _ hboth
        rw [Bool.and_eq_true_iff] at hboth
        obtain ⟨rest, hrest⟩ := stripWs_tail_of_mark hother hboth.1
        rw [hrest] at hboth
        obtain ⟨tail, htail⟩ := List.isPrefixOf_iff_prefix.mp hboth.2
        exact hne (List.cons.inj htail).1
      rw [hvisible] at hone
      rw [← hall, hnone] at htwo
      have hzero : (body.countP fun l => [sign, sign, sign].isPrefixOf l && [sign, sign].isPrefixOf (stripWs l.tail)) =
          0 := by omega
      refine Bool.eq_false_of_not_eq_true fun hmark => ?_
      obtain ⟨rest, hrest⟩ := stripWs_tail_of_mark hsign hmark
      refine List.countP_eq_zero.mp hzero line hline ?_
      rw [hmark, hrest, Bool.true_and, List.isPrefixOf_iff_prefix]
      exact ⟨rest, rfl⟩
    exact ⟨hcount '+' '-' (by decide) (by decide) (by decide) h heq,
      hcount '-' '+' (by decide) (by decide) (by decide) h.symm heq.symm⟩
  · intro hnone
    have hplus : added body = body.filterMap (signed? '+') :=
      List.filterMap_congr fun line hline => (changed?_of_not_isHidden (hnone line hline)).1
    have hminus : removed body = body.filterMap (signed? '-') :=
      List.filterMap_congr fun line hline => (changed?_of_not_isHidden (hnone line hline)).2
    rw [← hplus, ← hminus, h]

/-! ### What is dropped -/

/-- What the pass is for: sections that are dropped for their whitespace change nothing but whitespace, all other lines
are shown, and the diff is in the store under the key that is named. -/
structure DropsNoise (content : Line) (out : OffloadOutput) (s : σ) : Prop where
  noise : ∀ seg ∈ parseSegments content, isDropped config seg = true → isLockfile config seg.newPath = false →
    seg.bodyLines.filterMap (signed? '+') = seg.bodyLines.filterMap (signed? '-')
  shown : out.output = String.ofList
    (joined (leadingPreDiffLines content ++ (parseSegments content).flatMap (shown config)) ++ marker out.cacheKey)
  whole : textLines content = leadingPreDiffLines content ++ (parseSegments content).flatMap Segment.lines ∧
    ∀ seg ∈ parseSegments content, seg.Parsed
  stored : store.get s out.cacheKey = some (String.ofList content)

variable {md5Hex24 store config}

theorem apply_eq_ok {content : Line} {s s' : σ} {out : OffloadOutput}
    (h : apply md5Hex24 store config content s = (.ok out, s')) :
    store.put s out.cacheKey (String.ofList content) = (true, s') ∧ out.output = String.ofList
      (joined (leadingPreDiffLines content ++ (parseSegments content).flatMap (DiffNoise.shown config)) ++
        marker out.cacheKey) := by
  rw [apply] at h
  dsimp only at h
  split_ifs at h with hempty hsmall
  · exact absurd (Prod.mk.inj h).1 nofun
  · exact absurd (Prod.mk.inj h).1 nofun
  · split at h
    · exact absurd (Prod.mk.inj h).1 nofun
    · rename_i hput
      obtain ⟨hout, rfl⟩ := Prod.mk.inj h
      obtain rfl := Except.ok.inj hout
      exact ⟨hput, rfl⟩

/-- The pass drops nothing but noise exactly where no section that is dropped for its whitespace holds a line that looks
like the mark of a file header. -/
theorem dropsNoise_iff {content : Line} {s s' : σ} {out : OffloadOutput}
    (h : apply md5Hex24 store config content s = (.ok out, s')) :
    DropsNoise store config content out s' ↔
      ∀ seg ∈ parseSegments content, dropsWhitespace config seg = true → isLockfile config seg.newPath = false →
        ∀ line ∈ seg.bodyLines, isHidden line = false := by
  obtain ⟨hput, hout⟩ := apply_eq_ok h
  have hequal : ∀ seg : Segment, dropsWhitespace config seg = true → added seg.bodyLines = removed seg.bodyLines := by
    intro seg hdrops
    exact beq_iff_eq.mp (Bool.and_eq_true_iff.mp (Bool.and_eq_true_iff.mp hdrops).2).2
  constructor
  · intro hnoise seg hseg hdrops hpath
    refine (signed_eq_iff (hequal seg hdrops)).mp (hnoise.noise seg hseg ?_ hpath)
    rw [isDropped, hdrops, Bool.or_true]
  · intro hnone
    refine ⟨fun seg hseg hdropped hpath => ?_, hout, textLines_eq content, store.get_put hput⟩
    rw [isDropped, hpath, Bool.false_or] at hdropped
    exact (signed_eq_iff (hequal seg hdropped)).mpr (hnone seg hseg hdropped hpath)

/-- A store that is a map. -/
def mapStore : CcrStore (String → Option String) where
  put := fun entries hash payload => (true, fun key => if key = hash then some payload else entries key)
  get := fun entries hash => entries hash
  get_put := by
    rintro entries hash payload _ ⟨⟩
    exact if_pos rfl

/-- A diff of one section, in which a line moves, and one more line. -/
def movedDiff (more : String) : Line :=
  ("diff --git a/x b/x\n@@ -1 +1,2 @@\n-moved far over to the right\n+    moved far over to the right\n" ++ more).toList

theorem apply_movedDiff {more : String} (hmore : more = "" ∨ more = "+++ a line\n") :
    ∃ out s', apply (fun _ => "k") mapStore ⟨[], true⟩ (movedDiff more) (fun _ => none) = (.ok out, s') := by
  rcases hmore with rfl | rfl
  · exact ⟨_, _, by rw [apply, if_neg (by decide +kernel), if_neg (by decide +kernel)]; rfl⟩
  · exact ⟨_, _, by rw [apply, if_neg (by decide +kernel), if_neg (by decide +kernel)]; rfl⟩

theorem dropsNoise_movedDiff : ∃ out s',
    apply (fun _ => "k") mapStore ⟨[], true⟩ (movedDiff "") (fun _ => none) = (.ok out, s') ∧
      DropsNoise mapStore ⟨[], true⟩ (movedDiff "") out s' := by
  obtain ⟨out, s', h⟩ := apply_movedDiff (.inl rfl)
  exact ⟨out, s', h, (dropsNoise_iff h).mpr (by decide +kernel)⟩

/-- A line is added that starts with two more signs. -/
theorem not_dropsNoise_movedDiff : ∃ out s',
    apply (fun _ => "k") mapStore ⟨[], true⟩ (movedDiff "+++ a line\n") (fun _ => none) = (.ok out, s') ∧
      ¬ DropsNoise mapStore ⟨[], true⟩ (movedDiff "+++ a line\n") out s' := by
  obtain ⟨out, s', h⟩ := apply_movedDiff (.inr rfl)
  refine ⟨out, s', h, fun hnoise => ?_⟩
  have hall : ¬ ∀ seg ∈ parseSegments (movedDiff "+++ a line\n"), isDropped ⟨[], true⟩ seg = true →
      isLockfile ⟨[], true⟩ seg.newPath = false →
        seg.bodyLines.filterMap (signed? '+') = seg.bodyLines.filterMap (signed? '-') := by decide +kernel
  exact hall hnoise.noise

end Headroom.Transforms.DiffNoise
