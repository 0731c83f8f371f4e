import Headroom.Foundation.Frames
import Headroom.Foundation.Text
import Headroom.OpenAi.Stream

/-!
# The bytes of a provider's stream

The bytes arrive in chunks. Every chunk is read as text, the text is cut into lines, and the lines make
frames for the translator. What is left of a line, and of a frame, waits for the next chunk.

## Main results

* `translate_wholeChars` : it does not matter how the bytes are cut, as long as no character is.
-/

open Foundation

namespace Headroom.OpenAi

/-! ### Lines -/

/-- A line with its end. -/
def lineRule : FrameRule Char where
  first text := (text.findIdx? (· = '\n')).map (· + 1)
  pos h := by
    obtain ⟨i, -, rfl⟩ := Option.map_eq_some_iff.mp h
    exact Nat.succ_pos i
  le_length h := by
    obtain ⟨i, hi, rfl⟩ := Option.map_eq_some_iff.mp h
    exact (List.findIdx?_eq_some_iff_getElem.mp hi).1
  append m h := by
    obtain ⟨i, hi, rfl⟩ := Option.map_eq_some_iff.mp h
    rw [List.findIdx?_append, hi]
    rfl

/-- The text without carriage returns at its end. -/
def trimCarriageReturns (text : List Char) : List Char := (text.reverse.dropWhile (· = '\r')).reverse

/-- The text behind a given start. -/
def stripPrefix? (start : String) (line : List Char) : Option (List Char) :=
  if start.toList <+: line then some (line.drop start.toList.length) else none

/-! ### Frames of lines -/

/-- The data of a frame; `parse` reads JSON. -/
def readData (parse : String → Option Json) (data : String) : Data :=
  let trimmed := Text.trim data.toList
  if trimmed = [] then .blank
  else if trimmed = "[DONE]".toList then .done
  else
    match parse data with
    | some chunk => .chunk chunk
    | none => .malformed

structure TranslateState where
  translator : StreamTranslator
  buffer : List Char := []
  currentEvent : Option String := none
  currentData : List String := []

namespace TranslateState

variable (parse : String → Option Json) (B : Base64) (s : TranslateState)

/-- The frame that the lines so far make. -/
def dispatch : TranslateState :=
  let data := String.ofList (List.intercalate ['\n'] (s.currentData.map String.toList))
  { s with
    translator := s.translator.processFrame B ⟨s.currentEvent, readData parse data⟩
    currentEvent := none
    currentData := [] }

def pushLine (line : List Char) : TranslateState :=
  if line = [] then s.dispatch parse B
  else
    match stripPrefix? "event:" line with
    | some event => { s with currentEvent := some (String.ofList (Text.trim event)) }
    | none =>
      match stripPrefix? "data:" line with
      | some data => { s with currentData := s.currentData ++ [String.ofList (Text.trimStart data)] }
      | none => s

/-- A line that comes with its end. -/
def pushWholeLine (s : TranslateState) (line : List Char) : TranslateState :=
  s.pushLine parse B (trimCarriageReturns line.dropLast)

def pushChunk (text : List Char) : TranslateState :=
  (lineRule.frames (s.buffer ++ text)).foldl (pushWholeLine parse B)
    { s with buffer := lineRule.rest (s.buffer ++ text) }

/-- What waits at the end: a line without its end, and a frame without its blank line. -/
def flushTrailing : TranslateState :=
  let s :=
    if s.buffer = [] then s
    else (s.buffer.splitOn '\n').foldl (fun s line => s.pushLine parse B (trimCarriageReturns line))
      { s with buffer := [] }
  if s.currentEvent.isSome || s.currentData ≠ [] then s.dispatch parse B else s

end TranslateState

/-- The translator behind all chunks of a body. -/
def translateWithTranslator (parse : String → Option Json) (B : Base64) (t : StreamTranslator)
    (chunks : List Bytes) : StreamTranslator :=
  ((chunks.foldl (fun s bytes => s.pushChunk parse B (fromUtf8Lossy bytes))
    ({ translator := t } : TranslateState)).flushTrailing parse B).translator

/-! ### Chunks -/

namespace TranslateState

variable {parse : String → Option Json} {B : Base64} {s : TranslateState}

theorem pushWholeLine_buffer (line buffer : List Char) :
    ({ s with buffer } : TranslateState).pushWholeLine parse B line =
      { s.pushWholeLine parse B line with buffer } := by
  rw [pushWholeLine, pushWholeLine, pushLine, pushLine]
  split_ifs
  · rfl
  · cases stripPrefix? "event:" (trimCarriageReturns line.dropLast) with
    | some event => rfl
    | none => cases stripPrefix? "data:" (trimCarriageReturns line.dropLast) <;> rfl

theorem foldl_pushWholeLine_buffer (lines : List (List Char)) (buffer : List Char) :
    lines.foldl (pushWholeLine parse B) { s with buffer } =
      { lines.foldl (pushWholeLine parse B) s with buffer } := by
  induction lines generalizing s with
  | nil => rfl
  | cons line lines ih => rw [List.foldl_cons, List.foldl_cons, pushWholeLine_buffer, ih]

theorem buffer_pushChunk (text : List Char) :
    (s.pushChunk parse B text).buffer = lineRule.rest (s.buffer ++ text) := by
  rw [pushChunk, foldl_pushWholeLine_buffer]

theorem pushChunk_append (a b : List Char) :
    s.pushChunk parse B (a ++ b) = (s.pushChunk parse B a).pushChunk parse B b := by
  have hsecond : ∀ u : TranslateState, u.pushChunk parse B b =
      (lineRule.frames (u.buffer ++ b)).foldl (pushWholeLine parse B)
        { u with buffer := lineRule.rest (u.buffer ++ b) } := fun _ => rfl
  rw [hsecond, buffer_pushChunk, pushChunk, ← List.append_assoc, FrameRule.frames_append,
    FrameRule.rest_append, List.foldl_append]
  refine congrArg (List.foldl _ · _) ?_
  rw [pushChunk, foldl_pushWholeLine_buffer _ (lineRule.rest (lineRule.rest (s.buffer ++ a) ++ b)),
    foldl_pushWholeLine_buffer _ (lineRule.rest (s.buffer ++ a))]

theorem pushChunk_nil (h : lineRule.first s.buffer = none) : s.pushChunk parse B [] = s := by
  rw [pushChunk, List.append_nil, FrameRule.frames_of_none h, FrameRule.rest_of_none h]
  rfl

end TranslateState

/-- The bytes may be cut anywhere between characters. -/
theorem translate_wholeChars (parse : String → Option Json) (B : Base64) (t : StreamTranslator)
    (chunks : List Bytes) (h : ∀ chunk ∈ chunks, WholeChars chunk) :
    translateWithTranslator parse B t chunks = translateWithTranslator parse B t [chunks.flatten] := by
  have hnil : fromUtf8Lossy [] = [] := by decide +kernel
  have hfold : ∀ (chunks : List Bytes) (s : TranslateState), (∀ chunk ∈ chunks, WholeChars chunk) →
      lineRule.first s.buffer = none → WholeChars chunks.flatten ∧
        chunks.foldl (fun s bytes => s.pushChunk parse B (fromUtf8Lossy bytes)) s =
          s.pushChunk parse B (fromUtf8Lossy chunks.flatten) := by
    intro chunks
    induction chunks with
    | nil =>
      intro s _ hrest
      refine ⟨by decide +kernel, ?_⟩
      rw [List.flatten_nil, hnil, TranslateState.pushChunk_nil hrest]
      rfl
    | cons chunk chunks ih =>
      intro s hchunks hrest
      have hbuffer : lineRule.first (s.pushChunk parse B (fromUtf8Lossy chunk)).buffer = none := by
        rw [TranslateState.buffer_pushChunk]
        exact FrameRule.first_rest _
      obtain ⟨hwhole, hmore⟩ := ih _ (fun c hc => hchunks c (List.mem_cons_of_mem _ hc)) hbuffer
      obtain ⟨hboth, heq⟩ := fromUtf8Lossy_append (hchunks chunk List.mem_cons_self) hwhole
      refine ⟨hboth, ?_⟩
      rw [List.flatten_cons, heq, List.foldl_cons, hmore, TranslateState.pushChunk_append]
  obtain ⟨-, heq⟩ := hfold chunks { translator := t } h rfl
  rw [translateWithTranslator, heq]
  rfl

/-- A body that is cut in the middle of a line ending. -/
theorem translate_wholeChars_line : translateWithTranslator (fun _ => none) urlSafeNoPad { model := "m" }
    [utf8 "data: é\r", utf8 "\n", utf8 "\r\n"] =
      translateWithTranslator (fun _ => none) urlSafeNoPad { model := "m" }
        [[utf8 "data: é\r", utf8 "\n", utf8 "\r\n"].flatten] :=
  translate_wholeChars _ _ _ _ (by decide +kernel)

/-! ### A character that is cut -/

/-- The chunk of a text. -/
def chunkOf (text : String) : Json :=
  .obj [("choices", .arr [.obj [("delta", .obj [("content", .str text)])]])]

/-- Reads the chunk with a letter, and with two replacement characters in its place. -/
def parseLetter (data : String) : Option Json :=
  let read (text : String) :=
    "\x7b\"choices\":[\x7b\"delta\":\x7b\"content\":\"" ++ text ++ "\"\x7d\x7d]\x7d"
  if data = read "é" then some (chunkOf "é")
  else if data = read "\ufffd\ufffd" then some (chunkOf "\ufffd\ufffd")
  else none

/-- The body up to the first byte of the letter. -/
def beforeCut : Bytes := ascii "data: \x7b\"choices\":[\x7b\"delta\":\x7b\"content\":\"" ++ [0xC3]

/-- The body from the second byte of the letter on. -/
def behindCut : Bytes := 0xA9 :: ascii "\"\x7d\x7d]\x7d"

theorem translate_line {parse : String → Option Json} {B : Base64} {t : StreamTranslator}
    {chunks : List Bytes} (h : '\n' ∉ chunks.flatMap fromUtf8Lossy) : translateWithTranslator parse B t chunks =
      (({ translator := t, buffer := chunks.flatMap fromUtf8Lossy } : TranslateState).flushTrailing
        parse B).translator := by
  have hpush : ∀ (text : List Char) (s : TranslateState), '\n' ∉ s.buffer ++ text →
      s.pushChunk parse B text = { s with buffer := s.buffer ++ text } := by
    intro text s hnone
    have hfirst : lineRule.first (s.buffer ++ text) = none := by
      refine Option.map_eq_none_iff.mpr (List.findIdx?_eq_none_iff.mpr fun c hc => ?_)
      exact decide_eq_false fun heq => hnone (heq ▸ hc)
    rw [TranslateState.pushChunk, FrameRule.frames_of_none hfirst, FrameRule.rest_of_none hfirst]
    rfl
  have hfold : ∀ (chunks : List Bytes) (s : TranslateState), '\n' ∉ s.buffer ++ chunks.flatMap fromUtf8Lossy →
      chunks.foldl (fun s bytes => s.pushChunk parse B (fromUtf8Lossy bytes)) s =
        { s with buffer := s.buffer ++ chunks.flatMap fromUtf8Lossy } := by
    intro chunks
    induction chunks with
    | nil =>
      intro s _
      rw [List.flatMap_nil, List.append_nil]
      rfl
    | cons chunk chunks ih =>
      intro s hnone
      rw [List.flatMap_cons, ← List.append_assoc] at hnone
      have hfront : '\n' ∉ s.buffer ++ fromUtf8Lossy chunk := fun hmem =>
        hnone (List.mem_append_left _ hmem)
      rw [List.foldl_cons, hpush _ s hfront, ih _ hnone, List.flatMap_cons, List.append_assoc]
  rw [translateWithTranslator, hfold chunks { translator := t } h]
  rfl

/-- The letter comes out as two replacement characters. -/
theorem not_translate_cut : ¬ ∀ (parse : String → Option Json) (B : Base64) (t : StreamTranslator)
    (chunks : List Bytes), WholeChars chunks.flatten →
      (translateWithTranslator parse B t chunks).events =
        (translateWithTranslator parse B t [chunks.flatten]).events := by
  intro h
  have hcut : [beforeCut, behindCut].flatMap fromUtf8Lossy =
      "data: \x7b\"choices\":[\x7b\"delta\":\x7b\"content\":\"\ufffd\ufffd\"\x7d\x7d]\x7d".toList := by
    decide +kernel
  have hwhole : [[beforeCut, behindCut].flatten].flatMap fromUtf8Lossy =
      "data: \x7b\"choices\":[\x7b\"delta\":\x7b\"content\":\"é\"\x7d\x7d]\x7d".toList := by
    decide +kernel
  have heq := h parseLetter urlSafeNoPad { model := "m" } [beforeCut, behindCut] (by decide +kernel)
  rw [translate_line (by rw [hcut]; decide), translate_line (by rw [hwhole]; decide), hcut, hwhole] at heq
  revert heq
  decide +kernel

end Headroom.OpenAi
