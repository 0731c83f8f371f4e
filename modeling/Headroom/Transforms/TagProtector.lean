import Headroom.Foundation.Bytes
import Headroom.Foundation.Replace

/-!
# Protecting tags

Custom tags are taken out of a text before it is compressed and put back afterwards. A scan finds
them and matches the closing tags with the opening ones on a stack; each protected span is replaced
by a placeholder. A text that holds the usual placeholder prefix gets another one.
-/

open Foundation

namespace Headroom.Transforms

/-! ### Names -/

/-- The elements of HTML, which are never protected. -/
def HTML5_TAGS : List String :=
  ["html", "base", "head", "link", "meta", "style", "title", "body", "address", "article",
    "aside", "footer", "h1", "h2", "h3", "h4", "h5", "h6", "header", "hgroup", "main", "nav",
    "section", "search", "blockquote", "dd", "div", "dl", "dt", "figcaption", "figure", "hr",
    "li", "menu", "ol", "p", "pre", "ul", "a", "abbr", "b", "bdi", "bdo", "br", "cite", "code",
    "data", "dfn", "em", "i", "kbd", "mark", "q", "rp", "rt", "ruby", "s", "samp", "small",
    "span", "strong", "sub", "sup", "time", "u", "var", "wbr", "area", "audio", "img", "map",
    "track", "video", "embed", "iframe", "object", "param", "picture", "portal", "source", "svg",
    "math", "canvas", "noscript", "script", "del", "ins", "caption", "col", "colgroup", "table",
    "tbody", "td", "tfoot", "th", "thead", "tr", "button", "datalist", "fieldset", "form",
    "input", "label", "legend", "meter", "optgroup", "option", "output", "progress", "select",
    "textarea", "details", "dialog", "summary", "slot", "template"]

def lt : UInt8 := 60
def gt : UInt8 := 62
def slash : UInt8 := 47

def isAsciiUppercase (b : UInt8) : Bool := 65 ≤ b && b ≤ 90
def isAsciiLowercase (b : UInt8) : Bool := 97 ≤ b && b ≤ 122
def isAsciiDigit (b : UInt8) : Bool := 48 ≤ b && b ≤ 57

def isNameStart (b : UInt8) : Bool := isAsciiUppercase b || isAsciiLowercase b || b = 95

def isNameCont (b : UInt8) : Bool :=
  isNameStart b || isAsciiDigit b || b = 45 || b = 46 || b = 58

def toAsciiLowercase (name : Bytes) : Bytes := name.map fun b => if isAsciiUppercase b then b + 32 else b

/-- Whether a name is an element of HTML, in any case. -/
def isKnownHtmlTag (name : Bytes) : Bool :=
  let set := HTML5_TAGS.map ascii
  name ∈ set || (name.any isAsciiUppercase && toAsciiLowercase name ∈ set)

/-! ### The tag at a position -/

inductive TagParse
  | opening (nameEnd tagEnd : ℕ) (isSelfClosing : Bool)
  | closing (nameEnd tagEnd : ℕ)
  | notTag
  deriving DecidableEq

/-- How far an opening tag goes behind its name, and whether it closes itself. A quoted value may
hold the end of a tag. -/
def attributes (selfClosing : Bool) (quote : Option UInt8) : Bytes → Option (ℕ × Bool)
  | [] => none
  | b :: bytes =>
    match quote with
    | some q =>
      (if b = q then attributes false none bytes else attributes selfClosing (some q) bytes).map
        fun (n, closes) => (n + 1, closes)
    | none =>
      if b = gt then some (1, selfClosing)
      else
        (if b = slash then attributes true none bytes
          else if b = 34 || b = 39 then attributes selfClosing (some b) bytes
          else attributes (selfClosing && !isAsciiWhitespace b) none bytes).map
            fun (n, closes) => (n + 1, closes)

/-- The tag behind a `<`. -/
def parseTagAt (bytes : Bytes) (start : ℕ) : TagParse :=
  let rest := bytes.drop (start + 1)
  let isClose := rest.head? = some slash
  let nameStart := if isClose then start + 2 else start + 1
  match bytes.drop nameStart with
  | [] => .notTag
  | first :: name =>
    if !isNameStart first then .notTag
    else
      let nameEnd := nameStart + 1 + (name.takeWhile isNameCont).length
      let behind := bytes.drop nameEnd
      if isClose then
        let blank := behind.takeWhile isAsciiWhitespace
        if (behind.drop blank.length).head? = some gt then .closing nameEnd (nameEnd + blank.length + 1)
        else .notTag
      else
        match attributes false none behind with
        | some (n, closes) => .opening nameEnd (nameEnd + n) closes
        | none => .notTag

/-! ### Spans -/

structure OpenTag where
  nameLower : Bytes
  openStart : ℕ
  deriving DecidableEq

inductive SpanKind
  | block
  | selfClosing
  | openMarker
  | closeMarker
  deriving DecidableEq

structure Span where
  start : ℕ
  stop : ℕ
  kind : SpanKind
  deriving DecidableEq

structure ProtectStats where
  tagsSeen : ℕ := 0
  htmlTagsSkipped : ℕ := 0
  customBlocksProtected : ℕ := 0
  selfClosingProtected : ℕ := 0
  orphanCloses : ℕ := 0
  placeholderCollisionAvoided : Bool := false
  deriving DecidableEq

/-- Where the scan stands. -/
structure Walk where
  i : ℕ := 0
  spans : List Span := []
  stack : List OpenTag := []
  stats : ProtectStats := {}

/-- A part of a text. -/
def slice (text : Bytes) (start stop : ℕ) : Bytes := (text.take stop).drop start

/-- The last open tag of a name. -/
def rposition (stack : List OpenTag) (name : Bytes) : Option ℕ :=
  ((List.range stack.length).reverse.find? fun i =>
    (stack[i]?.map OpenTag.nameLower) = some name)

namespace Walk

/-- An opening tag that ends at a position. -/
def onOpen (text : Bytes) (compressTaggedContent : Bool) (w : Walk) (nameEnd tagEnd : ℕ)
    (isSelfClosing : Bool) : Walk :=
  let stats := { w.stats with tagsSeen := w.stats.tagsSeen + 1 }
  let name := slice text (w.i + 1) nameEnd
  if isKnownHtmlTag name then
    { w with i := tagEnd, stats := { stats with htmlTagsSkipped := stats.htmlTagsSkipped + 1 } }
  else if isSelfClosing then
    { w with
      i := tagEnd
      spans := w.spans ++ [⟨w.i, tagEnd, .selfClosing⟩]
      stats := { stats with selfClosingProtected := stats.selfClosingProtected + 1 } }
  else
    { w with
      i := tagEnd
      spans := if compressTaggedContent then w.spans ++ [⟨w.i, tagEnd, .openMarker⟩] else w.spans
      stack := w.stack ++ [⟨toAsciiLowercase name, w.i⟩]
      stats }

/-- A closing tag that ends at a position. -/
def onClose (text : Bytes) (compressTaggedContent : Bool) (w : Walk) (nameEnd tagEnd : ℕ) : Walk :=
  let stats := { w.stats with tagsSeen := w.stats.tagsSeen + 1 }
  let closeName := slice text (w.i + 2) nameEnd
  if isKnownHtmlTag closeName then
    { w with i := tagEnd, stats := { stats with htmlTagsSkipped := stats.htmlTagsSkipped + 1 } }
  else
    match (rposition w.stack (toAsciiLowercase closeName)).bind fun idx =>
      (w.stack[idx]?).map fun tag => (idx, tag) with
    | some (idx, tag) =>
      if compressTaggedContent then
        -- One more tag leaves the stack than was truncated.
        { w with
          i := tagEnd
          stack := (w.stack.take idx).dropLast
          spans := w.spans ++ [⟨w.i, tagEnd, .closeMarker⟩]
          stats }
      else
        -- The spans inside of the block are part of it.
        { i := tagEnd
          stack := w.stack.take idx
          spans := w.spans.filter (fun s => s.start < tag.openStart) ++ [⟨tag.openStart, tagEnd, .block⟩]
          stats := { stats with customBlocksProtected := stats.customBlocksProtected + 1 } }
    | none => { w with i := tagEnd, stats := { stats with orphanCloses := stats.orphanCloses + 1 } }

/-- One round of the scan. -/
def step (text : Bytes) (compressTaggedContent : Bool) (w : Walk) : Walk :=
  if text[w.i]? ≠ some lt then
    { w with i := w.i + ((text.drop w.i).takeWhile (· != lt)).length }
  else
    match parseTagAt text w.i with
    | .notTag => { w with i := w.i + 1 }
    | .opening nameEnd tagEnd isSelfClosing =>
      w.onOpen text compressTaggedContent nameEnd tagEnd isSelfClosing
    | .closing nameEnd tagEnd => w.onClose text compressTaggedContent nameEnd tagEnd

end Walk

theorem attributes_spec {selfClosing closes : Bool} {quote : Option UInt8} {bytes : Bytes} {n : ℕ}
    (h : attributes selfClosing quote bytes = some (n, closes)) : 0 < n ∧ n ≤ bytes.length := by
  induction bytes generalizing selfClosing quote n with
  | nil => exact absurd h.symm (Option.some_ne_none _)
  | cons b bytes ih =>
    have hmap : ∀ {sc q}, (attributes sc q bytes).map (fun x => (x.1 + 1, x.2)) = some (n, closes) →
        0 < n ∧ n ≤ (b :: bytes).length := by
      intro sc q hn
      obtain ⟨⟨m, closes'⟩, hm, heq⟩ := Option.map_eq_some_iff.mp hn
      obtain ⟨rfl, rfl⟩ := Prod.mk.inj heq
      have := ih hm
      rw [List.length_cons]
      omega
    cases quote with
    | some q =>
      rw [attributes] at h
      split_ifs at h <;> exact hmap h
    | none =>
      rw [attributes] at h
      split_ifs at h with hgt
      · obtain ⟨rfl, -⟩ := Prod.mk.inj (Option.some.inj h)
        rw [List.length_cons]
        omega
      all_goals exact hmap h

/-- Where the tag at a position ends. -/
theorem parseTagAt_spec (text : Bytes) (start : ℕ) :
    match parseTagAt text start with
    | .notTag => True
    | .opening _ tagEnd _ => start + 1 < tagEnd ∧ tagEnd ≤ text.length
    | .closing _ tagEnd => start + 1 < tagEnd ∧ tagEnd ≤ text.length := by
  rw [parseTagAt]
  dsimp only
  generalize hstart : (if (text.drop (start + 1)).head? = some slash then start + 2 else start + 1) =
    nameStart
  have hle : start + 1 ≤ nameStart := by
    rw [← hstart]
    split_ifs <;> omega
  cases hname : text.drop nameStart with
  | nil => trivial
  | cons first name =>
    dsimp only
    split_ifs with hfirst hclose hgt
    · trivial
    · dsimp only
      generalize hend : nameStart + 1 + (name.takeWhile isNameCont).length = nameEnd at *
      generalize hblank : (text.drop nameEnd).takeWhile isAsciiWhitespace = blank at *
      rw [List.drop_drop, List.head?_drop] at hgt
      have := (List.getElem?_eq_some_iff.mp hgt).1
      omega
    · trivial
    · generalize hend : nameStart + 1 + (name.takeWhile isNameCont).length = nameEnd
      cases hattr : attributes false none (text.drop nameEnd) with
      | none => trivial
      | some found =>
        obtain ⟨n, closes⟩ := found
        have := attributes_spec hattr
        rw [List.length_drop] at this
        dsimp only
        omega

namespace Walk

variable {text : Bytes} {compressTaggedContent : Bool} {w : Walk}

theorem i_onOpen (nameEnd tagEnd : ℕ) (closes : Bool) :
    (w.onOpen text compressTaggedContent nameEnd tagEnd closes).i = tagEnd := by
  rw [onOpen]
  dsimp only
  split_ifs <;> rfl

theorem i_onClose (nameEnd tagEnd : ℕ) :
    (w.onClose text compressTaggedContent nameEnd tagEnd).i = tagEnd := by
  rw [onClose]
  dsimp only
  split_ifs
  · rfl
  · split
    · rfl
    · rfl
  · split
    · rfl
    · rfl

/-- A round of the scan gets further, and not over the end. -/
theorem step_i (compressTaggedContent : Bool) (h : w.i < text.length) :
    w.i < (w.step text compressTaggedContent).i ∧ (w.step text compressTaggedContent).i ≤ text.length := by
  rw [step]
  split_ifs with hlt
  · have hdrop := List.drop_eq_getElem_cons h
    have hne : (text[w.i] != lt) = true := by
      rw [List.getElem?_eq_getElem h] at hlt
      simpa using hlt
    have hlen := (List.takeWhile_prefix (p := (· != lt)) (l := text.drop w.i)).length_le
    rw [List.length_drop] at hlen
    have hpos : 0 < ((text.drop w.i).takeWhile (· != lt)).length := by
      rw [hdrop, List.takeWhile_cons_of_pos (p := (· != lt)) hne, List.length_cons]
      exact Nat.succ_pos _
    dsimp only
    omega
  · have hspec := parseTagAt_spec text w.i
    split
    · dsimp only
      omega
    · rename_i nameEnd tagEnd closes hparse
      rw [hparse] at hspec
      rw [i_onOpen]
      dsimp only at hspec
      omega
    · rename_i nameEnd tagEnd hparse
      rw [hparse] at hspec
      rw [i_onClose]
      dsimp only at hspec
      omega

/-- The scan from where it stands to the end. -/
def run (text : Bytes) (compressTaggedContent : Bool) (w : Walk) : Walk :=
  if _h : w.i < text.length then run text compressTaggedContent (w.step text compressTaggedContent)
  else w
termination_by text.length - w.i
decreasing_by
  have := (step_i compressTaggedContent ‹_›).1
  omega

end Walk

/-- The spans that are protected. -/
def identifySpans (text : Bytes) (compressTaggedContent : Bool) : List Span × ProtectStats :=
  let w := Walk.run text compressTaggedContent {}
  (w.spans, w.stats)

/-! ### Placeholders -/

def DEFAULT_PREFIX : Bytes := ascii "\x7b\x7bHEADROOM_TAG_"
def PLACEHOLDER_SUFFIX : Bytes := ascii "\x7d\x7d"
def FALLBACK : Bytes := ascii "\x7b\x7bHEADROOM_TAG_FALLBACK_a4f1c7e2_"

/-- The prefix with a salt. -/
def candidate (salt : ℕ) : Bytes := ascii "\x7b\x7bHEADROOM_TAG_" ++ ascii (toString salt) ++ ascii "_"

/-- A placeholder prefix that the text does not hold, if one of seventeen will do. -/
def pickPlaceholderPrefix (text : Bytes) : Bytes × Bool :=
  if !contains DEFAULT_PREFIX text then (DEFAULT_PREFIX, false)
  else
    match ((List.range 16).map candidate).find? fun c => !contains c text with
    | some c => (c, true)
    | none => (FALLBACK, true)

def placeholder (pfx : Bytes) (counter : ℕ) : Bytes :=
  pfx ++ ascii (toString counter) ++ PLACEHOLDER_SUFFIX

/-! ### Protection and restoration -/

/-- The text with its spans replaced, from a position on, and the blocks. -/
def emitFrom (text pfx : Bytes) (cursor counter : ℕ) :
    List Span → Option (Bytes × List (Bytes × Bytes))
  | [] => some (text.drop cursor, [])
  | span :: spans =>
    if span.start < cursor then none
    else do
      let (out, blocks) ← emitFrom text pfx span.stop (counter + 1) spans
      let original := slice text span.start span.stop
      some (slice text cursor span.start ++ (placeholder pfx counter ++ out),
        (placeholder pfx counter, original) :: blocks)

def emitOutput (text : Bytes) (spans : List Span) (pfx : Bytes) :
    Option (Bytes × List (Bytes × Bytes)) :=
  emitFrom text pfx 0 0 spans

/-- The text with its custom tags taken out, the blocks to put back, and the statistics. -/
def protectTags (text : Bytes) (compressTaggedContent : Bool) :
    Bytes × List (Bytes × Bytes) × ProtectStats :=
  if text.isEmpty || lt ∉ text then (text, [], {})
  else
    let (pfx, salted) := pickPlaceholderPrefix text
    let (spans, stats) := identifySpans text compressTaggedContent
    let stats := { stats with placeholderCollisionAvoided := salted }
    match emitOutput text spans pfx with
    | some (cleaned, blocks) => (cleaned, blocks, stats)
    | none => (text, [], stats)

/-- The placeholders replaced by their originals, one after the other. -/
def restoreTags (text : Bytes) (blocks : List (Bytes × Bytes)) : Bytes :=
  blocks.foldl (fun result block =>
    if contains block.1 result then replaceAll block.1 block.2 result else result) text

end Headroom.Transforms
