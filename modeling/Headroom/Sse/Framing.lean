import Mathlib.Data.List.ReduceOption
import Headroom.Foundation.Bytes
import Headroom.Foundation.Frames

/-!
# Server-sent event framing

The framer collects the bytes of a stream and takes events out of it, ended by a blank line. It can
hand out events, parsed, or the raw blocks they are parsed from.

## Main results

* `SseFramer.framing` : results depend neither on how the stream is cut nor on when they are asked
  for, and no byte is lost.
-/

open Foundation

namespace Headroom.Sse

/-! ### The framer -/

/-- One framed event: its name, if it has one, and its payload. -/
structure SseEvent where
  eventName : Option String
  data : Bytes
  deriving DecidableEq

namespace SseEvent

/-- Whether the payload is the end-of-stream sentinel. -/
def isDoneSentinel (event : SseEvent) : Bool := event.data == ascii "[DONE]"

end SseEvent

/-- An `event:` field that is not valid UTF-8. -/
inductive FramingError
  | eventNameNotUtf8 (value : Bytes)
  deriving DecidableEq

/-- The blank line that ends at a position, if one does: where its block ends, and its length. -/
def terminatorAt (buf : Bytes) (pos : ℕ) : Option (ℕ × ℕ) :=
  if buf[pos]? ≠ some lf then none
  else if pos = 0 then none
  else if buf[pos - 1]? = some lf then some (pos - 1, 2)
  else if 3 ≤ pos ∧ buf[pos - 3]? = some cr ∧ buf[pos - 2]? = some lf ∧ buf[pos - 1]? = some cr then
    some (pos - 3, 4)
  else none

/-- The first blank line of a buffer: where its block ends, and its length. -/
def findDoubleNewline (buf : Bytes) : Option (ℕ × ℕ) :=
  (List.range buf.length).findSome? (terminatorAt buf)

/-- The fields of a block read so far. The first data line is kept apart until there is a second
one. -/
structure Fields where
  eventName : Option String := none
  dataFirst : Option Bytes := none
  dataRest : List Bytes := []

/-- A line without the carriage return at its end. -/
def stripCr (line : Bytes) : Bytes := if line.getLast? = some cr then line.dropLast else line

/-- The field and the value of a line; one space behind the colon is not part of the value. -/
def splitField (line : Bytes) : Bytes × Bytes :=
  let field := line.takeWhile (· != 58)
  let valueWithSpace := (line.drop field.length).tail
  (field, if valueWithSpace.head? = some 32 then valueWithSpace.tail else valueWithSpace)

/-- One more data line. -/
def Fields.pushData (f : Fields) (value : Bytes) : Fields :=
  match f.dataFirst with
  | some first => { f with dataFirst := none, dataRest := f.dataRest ++ [first, value] }
  | none =>
    if !f.dataRest.isEmpty then { f with dataRest := f.dataRest ++ [value] }
    else { f with dataFirst := some value }

/-- One line of a block. -/
def Fields.line (f : Fields) (line : Bytes) : Except FramingError Fields :=
  let line := stripCr line
  -- Empty lines and comments convey nothing.
  if line.isEmpty || line.head? = some 58 then .ok f
  else
    let (field, value) := splitField line
    if field = ascii "event" then
      match fromUtf8? value with
      | some name => .ok { f with eventName := some name }
      | none => .error (.eventNameNotUtf8 value)
    else if field = ascii "data" then .ok (f.pushData value)
    else .ok f

/-- The event of a block, if the block has data lines. -/
def parseEventBlock (block : Bytes) : Except FramingError (Option SseEvent) := do
  let f ← (block.splitOn lf).foldlM Fields.line {}
  match f.dataFirst, f.dataRest with
  | none, [] => return none
  | some single, [] => return some ⟨f.eventName, single⟩
  | first, rest => return some ⟨f.eventName, [lf].intercalate (first.toList ++ rest)⟩

/-- The bytes that are not framed yet. -/
structure SseFramer where
  buf : Bytes := []
  maxBufferedBytes : Option ℕ := none
  doneSeen : Bool := false

namespace SseFramer

/-- A framer without a limit. -/
def new : SseFramer := {}

/-- The ceiling of a capped framer. -/
def MAX_BUFFERED_BYTES : ℕ := 4 * 1024 * 1024

/-- A framer that drops what it holds when that becomes too much. -/
def newCapped : SseFramer := { maxBufferedBytes := some MAX_BUFFERED_BYTES }

/-- Take in a chunk. -/
def push (f : SseFramer) (chunk : Bytes) : SseFramer :=
  if chunk.isEmpty then f
  else if f.maxBufferedBytes.any fun max => f.buf.length + chunk.length > max then
    { f with buf := [] }
  else { f with buf := f.buf ++ chunk }

/-- Blocks are dropped until one is an event or an error, for as many rounds as there are bytes. -/
def nextEventWithin : ℕ → SseFramer → Option (Except FramingError SseEvent) × SseFramer
  | 0, f => (none, f)
  | fuel + 1, f =>
    match findDoubleNewline f.buf with
    | none => (none, f)
    | some (blockEnd, termLen) =>
      let f' := { f with buf := f.buf.drop (blockEnd + termLen) }
      match parseEventBlock (f.buf.take blockEnd) with
      | .ok (some event) =>
        (some (.ok event), { f' with doneSeen := f'.doneSeen || event.isDoneSentinel })
      | .ok none => nextEventWithin fuel f'
      | .error e => (some (.error e), f')

/-- The next event. -/
def nextEvent (f : SseFramer) : Option (Except FramingError SseEvent) × SseFramer :=
  nextEventWithin f.buf.length f

/-- The next block as it came, with its blank line. -/
def nextRawBlock (f : SseFramer) : Option Bytes × SseFramer :=
  match findDoubleNewline f.buf with
  | none => (none, f)
  | some (blockEnd, termLen) =>
    (some (f.buf.take (blockEnd + termLen)), { f with buf := f.buf.drop (blockEnd + termLen) })

/-- The bytes that are left. -/
def takeRemaining (f : SseFramer) : Bytes × SseFramer := (f.buf, { f with buf := [] })

end SseFramer

/-! ### Blank lines as a frame rule -/

variable {buf : Bytes}

theorem terminatorAt_eq_some {pos e len : ℕ} (h : terminatorAt buf pos = some (e, len)) :
    e + len = pos + 1 ∧ 0 < len ∧ pos < buf.length := by
  rw [terminatorAt] at h
  split_ifs at h with hlf hzero htwo hfour
  · have hpos := (List.getElem?_eq_some_iff.mp (not_not.mp hlf)).1
    simp only [Option.some.injEq, Prod.mk.injEq] at h
    omega
  · have hpos := (List.getElem?_eq_some_iff.mp (not_not.mp hlf)).1
    simp only [Option.some.injEq, Prod.mk.injEq] at h
    omega

/-- What ends at a position is decided by the bytes up to it. -/
theorem terminatorAt_append {pos : ℕ} (h : pos < buf.length) (more : Bytes) :
    terminatorAt (buf ++ more) pos = terminatorAt buf pos := by
  have hget : ∀ i ≤ pos, (buf ++ more)[i]? = buf[i]? :=
    fun i hi => List.getElem?_append_left (by omega)
  rw [terminatorAt, terminatorAt, hget pos le_rfl, hget _ (Nat.sub_le pos 1),
    hget _ (Nat.sub_le pos 2), hget _ (Nat.sub_le pos 3)]

theorem findDoubleNewline_eq_some {e len : ℕ}
    (h : findDoubleNewline buf = some (e, len)) :
    0 < len ∧ e + len ≤ buf.length ∧
      ∀ more, findDoubleNewline (buf.take (e + len) ++ more) = some (e, len) := by
  obtain ⟨before, pos, after, hrange, hhit, hmiss⟩ := List.findSome?_eq_some_iff.mp h
  obtain ⟨hpos, hlen, hlt⟩ := terminatorAt_eq_some hhit
  refine ⟨hlen, by omega, fun more => ?_⟩
  -- The positions before the hit are those of the shorter buffer, and they miss there as well.
  have htake : ∀ i ≤ pos, terminatorAt (buf.take (e + len) ++ more) i = terminatorAt buf i := by
    intro i hi
    have hi' : i < (buf.take (e + len)).length := by rw [List.length_take]; omega
    rw [terminatorAt_append hi', ← terminatorAt_append hi' (buf.drop (e + len)),
      List.take_append_drop]
  have hbefore : before = List.range pos := by
    have hlength : before.length = pos := by
      have hget : (List.range buf.length)[before.length]? = some pos := by
        rw [hrange, List.getElem?_append_right le_rfl, Nat.sub_self, List.getElem?_cons_zero]
      obtain ⟨hl, hget⟩ := List.getElem?_eq_some_iff.mp hget
      rwa [List.getElem_range] at hget
    have hpre : before = (List.range buf.length).take before.length := by
      rw [hrange, List.take_left']
      rfl
    rw [hpre, hlength, List.take_range, Nat.min_eq_left hlt.le]
  have hsplit : List.range (buf.take (e + len) ++ more).length =
      List.range pos ++ pos :: (List.range more.length).map (pos + 1 + ·) := by
    rw [List.length_append, List.length_take, Nat.min_eq_left (by omega), hpos, List.range_add,
      List.range_succ, List.append_assoc, List.singleton_append]
  refine List.findSome?_eq_some_iff.mpr ⟨_, pos, _, hsplit, ?_, fun i hi => ?_⟩
  · rw [htake pos le_rfl, hhit]
  · rw [htake i (List.mem_range.mp hi).le]
    exact hmiss i (hbefore ▸ hi)

theorem findDoubleNewline_append {t : ℕ × ℕ} (more : Bytes)
    (h : findDoubleNewline buf = some t) : findDoubleNewline (buf ++ more) = some t := by
  obtain ⟨e, len⟩ := t
  obtain ⟨-, -, hstable⟩ := findDoubleNewline_eq_some h
  rw [← List.take_append_drop (e + len) buf, List.append_assoc]
  exact hstable _

/-- The blocks of a stream, each with the blank line that ends it. -/
def terminator : FrameRule UInt8 where
  first buf := (findDoubleNewline buf).map fun t => t.1 + t.2
  pos h := by
    obtain ⟨⟨e, len⟩, ht, rfl⟩ := Option.map_eq_some_iff.mp h
    have := (findDoubleNewline_eq_some ht).1
    omega
  le_length h := by
    obtain ⟨⟨e, len⟩, ht, rfl⟩ := Option.map_eq_some_iff.mp h
    exact (findDoubleNewline_eq_some ht).2.1
  append more h := by
    obtain ⟨t, ht, rfl⟩ := Option.map_eq_some_iff.mp h
    rw [findDoubleNewline_append more ht, Option.map_some]

/-! ### What a block says -/

/-- The fields of a block with their values, in order. -/
def fields (block : Bytes) : List (Bytes × Bytes) :=
  (((block.splitOn lf).map stripCr).filter fun line =>
    !(line.isEmpty || line.head? = some 58)).map splitField

/-- The values of one field. -/
def valuesOf (name : Bytes) (pairs : List (Bytes × Bytes)) : List Bytes :=
  (pairs.filter fun p => p.1 = name).map Prod.snd

/-- The values of the data lines of a block. -/
def dataLines (block : Bytes) : List Bytes := valuesOf (ascii "data") (fields block)

/-- The names in a block, each as far as it is UTF-8. -/
def eventNames (block : Bytes) : List (Option String) :=
  (valuesOf (ascii "event") (fields block)).map fromUtf8?

namespace Fields

/-- The data lines read so far. -/
def data (f : Fields) : List Bytes := f.dataFirst.toList ++ f.dataRest

/-- A first line is kept apart only while it is the only one. -/
structure Ordered (f : Fields) : Prop where
  first : f.dataFirst.isSome → f.dataRest = []

variable {f : Fields}

theorem pushData_spec (h : f.Ordered) (value : Bytes) :
    (f.pushData value).Ordered ∧ (f.pushData value).data = f.data ++ [value] ∧
      (f.pushData value).eventName = f.eventName := by
  rw [pushData]
  cases hfirst : f.dataFirst with
  | some first =>
    refine ⟨⟨fun h => absurd h (by simp)⟩, ?_, rfl⟩
    have hrest : f.dataRest = [] := h.first (by rw [hfirst]; rfl)
    simp [data, hfirst, hrest]
  | none =>
    dsimp only
    split_ifs with hrest
    · exact ⟨⟨fun h => absurd h (by simp)⟩, by simp [data, hfirst], rfl⟩
    · have hnil : f.dataRest = [] := by simpa using hrest
      exact ⟨⟨fun _ => hnil⟩, by simp [data, hfirst, hnil], rfl⟩

/-- The event of the fields read. -/
def event (f : Fields) : Option SseEvent :=
  if f.data = [] then none else some ⟨f.eventName, [lf].intercalate f.data⟩

theorem event_of_ordered (h : f.Ordered) : f.event =
    match f.dataFirst, f.dataRest with
    | none, [] => none
    | some single, [] => some ⟨f.eventName, single⟩
    | first, rest => some ⟨f.eventName, [lf].intercalate (first.toList ++ rest)⟩ := by
  have hfirst := h.first
  rw [event, data]
  rcases f with ⟨name, _ | first, _ | ⟨a, rest⟩⟩
  · rfl
  · simp
  · simp
  · simp at hfirst

/-- Fields after further ones. -/
def add (f : Fields) (pairs : List (Bytes × Bytes)) : Except FramingError Fields :=
  pairs.foldlM (fun f p =>
    if p.1 = ascii "event" then
      match fromUtf8? p.2 with
      | some name => .ok { f with eventName := some name }
      | none => .error (.eventNameNotUtf8 p.2)
    else if p.1 = ascii "data" then .ok (f.pushData p.2)
    else .ok f) f

theorem foldlM_line (f : Fields) (lines : List Bytes) :
    lines.foldlM Fields.line f = f.add (((lines.map stripCr).filter fun line =>
      !(line.isEmpty || line.head? = some 58)).map splitField) := by
  induction lines generalizing f with
  | nil => rfl
  | cons line lines ih =>
    rw [List.foldlM_cons, List.map_cons, List.filter_cons, Fields.line]
    by_cases hskip : ((stripCr line).isEmpty || decide ((stripCr line).head? = some 58)) = true
    · simp only [hskip, if_true, Bool.not_true, Bool.false_eq_true, if_false]
      exact ih f
    · simp only [hskip, Bool.not_eq_true] at *
      simp only [Bool.not_false, if_true, List.map_cons, add, List.foldlM_cons]
      refine congrArg (_ >>= ·) (funext fun f' => ?_)
      exact ih f'

/-- Fields collect the data lines and the last name, unless a name is not UTF-8. -/
theorem add_spec (h : f.Ordered) (pairs : List (Bytes × Bytes)) :
    let names := (valuesOf (ascii "event") pairs).map fromUtf8?
    (none ∈ names ∧ ∃ e, f.add pairs = .error e) ∨
    (none ∉ names ∧ ∃ f' : Fields, f.add pairs = .ok f' ∧ f'.Ordered ∧
      f'.data = f.data ++ valuesOf (ascii "data") pairs ∧
      f'.eventName = names.reduceOption.getLast?.or f.eventName) := by
  induction pairs generalizing f with
  | nil => exact Or.inr ⟨List.not_mem_nil, f, rfl, h, by simp [valuesOf], by simp [valuesOf]⟩
  | cons p pairs ih =>
    have hdistinct : ascii "data" ≠ ascii "event" := by decide
    by_cases hevent : p.1 = ascii "event"
    · have hdata : ¬ p.1 = ascii "data" := fun h => hdistinct (h.symm.trans hevent)
      cases hname : fromUtf8? p.2 with
      | none =>
        refine Or.inl ⟨?_, .eventNameNotUtf8 p.2, ?_⟩
        · simp [valuesOf, hevent, hname]
        · simp [add, hevent, hname, Except.bind, bind]
      | some name =>
        have hstep : f.add (p :: pairs) = Fields.add { f with eventName := some name } pairs := by
          simp [add, hevent, hname, Except.bind, bind]
        have h' : Ordered { f with eventName := some name } := ⟨h.first⟩
        rcases ih h' with ⟨hbad, e, he⟩ | ⟨hgood, f', hf', hord, hdata', hname'⟩
        · refine Or.inl ⟨?_, e, hstep.trans he⟩
          simp only [valuesOf, List.filter_cons, hevent, decide_true, if_true, List.map_cons]
          exact List.mem_cons_of_mem _ hbad
        · refine Or.inr ⟨?_, f', hstep.trans hf', hord, ?_, ?_⟩
          · simp only [valuesOf, List.filter_cons, hevent, decide_true, if_true, List.map_cons,
              hname, List.mem_cons, not_or]
            exact ⟨(Option.some_ne_none name).symm, hgood⟩
          · simp only [valuesOf, List.filter_cons, hdata, decide_false, Bool.false_eq_true,
              if_false]
            exact hdata'
          · rw [hname']
            simp only [valuesOf, List.filter_cons, hevent, decide_true, if_true, List.map_cons,
              hname, List.reduceOption_cons_of_some]
            rw [List.getLast?_cons]
            cases List.getLast? _ <;> rfl
    · have hvalues : valuesOf (ascii "event") (p :: pairs) = valuesOf (ascii "event") pairs := by
        simp [valuesOf, hevent]
      by_cases hdata : p.1 = ascii "data"
      · obtain ⟨hord, hpush, hname⟩ := pushData_spec h p.2
        have hstep : f.add (p :: pairs) = (f.pushData p.2).add pairs := by
          simp [add, hdata, hdistinct, Except.bind, bind]
        dsimp only
        rw [hvalues, hstep]
        rcases ih hord with hbad | ⟨hgood, f', hf', hord', hdata', hname'⟩
        · exact Or.inl hbad
        · refine Or.inr ⟨hgood, f', hf', hord', ?_, hname'.trans (by rw [hname])⟩
          rw [hdata', hpush, List.append_assoc, List.singleton_append]
          simp [valuesOf, hdata]
      · have hstep : f.add (p :: pairs) = f.add pairs := by
          simp [add, hevent, hdata, Except.bind, bind]
        dsimp only
        rw [hvalues, hstep]
        have hother : valuesOf (ascii "data") (p :: pairs) = valuesOf (ascii "data") pairs := by
          simp [valuesOf, hdata]
        rw [hother]
        exact ih h

end Fields

/-- A block has an event if it has a data line, with the values of these joined by line feeds, unless
one of its names is not UTF-8. -/
theorem parseEventBlock_spec (block : Bytes) :
    (none ∈ eventNames block ∧ ∃ e, parseEventBlock block = .error e) ∨
    (none ∉ eventNames block ∧ parseEventBlock block = .ok (
      if dataLines block = [] then none
      else some ⟨(eventNames block).reduceOption.getLast?,
        [lf].intercalate (dataLines block)⟩)) := by
  have hempty : Fields.Ordered {} := ⟨fun h => absurd h (by simp)⟩
  have hspec := Fields.add_spec hempty (fields block)
  have hfold : (block.splitOn lf).foldlM Fields.line {} = Fields.add {} (fields block) :=
    Fields.foldlM_line {} _
  rcases hspec with ⟨hbad, e, he⟩ | ⟨hgood, f, hf, hord, hdata, hname⟩
  · refine Or.inl ⟨hbad, e, ?_⟩
    rw [parseEventBlock, hfold, he]
    rfl
  · refine Or.inr ⟨hgood, ?_⟩
    have hevent : parseEventBlock block = .ok f.event := by
      rw [parseEventBlock, hfold, hf, Fields.event_of_ordered hord]
      simp only [bind, Except.bind, pure, Except.pure]
      split <;> rfl
    have hdata' : f.data = dataLines block := hdata
    have hname' : f.eventName = (eventNames block).reduceOption.getLast? :=
      hname.trans (Option.or_none)
    rw [hevent, Fields.event, hdata', hname']

/-! ### Calls on the framer -/

/-- A raw block without the blank line that ends it. -/
def body (raw : Bytes) : Bytes :=
  match findDoubleNewline raw with
  | some (blockEnd, _) => raw.take blockEnd
  | none => raw

/-- What a raw block comes out as, if it does. -/
def meaning (raw : Bytes) : Option (Except FramingError SseEvent) :=
  match parseEventBlock (body raw) with
  | .ok event => event.map .ok
  | .error e => some (.error e)

/-- The event of a block with data lines. -/
def eventOf (block : Bytes) : Option SseEvent :=
  if none ∈ eventNames block then none
  else some ⟨(eventNames block).reduceOption.getLast?, [lf].intercalate (dataLines block)⟩

namespace SseFramer

section

variable {β : Type} (next : SseFramer → Option β × SseFramer)

/-- A chunk arrives, or a result is asked for. -/
def call (f : SseFramer) : FrameRule.Call UInt8 → Option β × SseFramer
  | .push chunk => (none, f.push chunk)
  | .pull => next f

/-- The results of calls, and the framer after them. -/
def run (f : SseFramer) : List (FrameRule.Call UInt8) → List β × SseFramer
  | [] => ([], f)
  | c :: calls =>
    ((f.call next c).1.toList ++ (run (f.call next c).2 calls).1, (run (f.call next c).2 calls).2)

/-- Calls, and asking at the end as often as bytes arrived. -/
def toEnd (calls : List (FrameRule.Call UInt8)) : List (FrameRule.Call UInt8) :=
  calls ++ List.replicate (FrameRule.arrived calls).length .pull

/-- An uncapped framer that takes out the blocks with a meaning. -/
def Pulls (m : Bytes → Option β) : Prop :=
  ∀ f : SseFramer, f.maxBufferedBytes = none →
    ((next f).1, (next f).2.buf) = terminator.pull m f.buf ∧ (next f).2.maxBufferedBytes = none

variable {next} {m : Bytes → Option β} {f : SseFramer}

theorem push_buf (h : f.maxBufferedBytes = none) (chunk : Bytes) :
    (f.push chunk).buf = f.buf ++ chunk ∧ (f.push chunk).maxBufferedBytes = none := by
  rw [push, h]
  split_ifs with hempty hover
  · rw [List.isEmpty_iff.mp hempty, List.append_nil]
    exact ⟨rfl, h⟩
  · simp at hover
  · exact ⟨rfl, rfl⟩

/-- The framer runs as its frame rule does. -/
theorem run_eq (hnext : Pulls next m) (h : f.maxBufferedBytes = none)
    (calls : List (FrameRule.Call UInt8)) :
    ((f.run next calls).1, (f.run next calls).2.buf) = terminator.run m f.buf calls := by
  induction calls generalizing f with
  | nil => rfl
  | cons c calls ih =>
    obtain ⟨hcall, hmax⟩ : ((f.call next c).1, (f.call next c).2.buf) = terminator.call m f.buf c ∧
        (f.call next c).2.maxBufferedBytes = none := by
      cases c with
      | push chunk => exact ⟨Prod.ext rfl (push_buf h chunk).1, (push_buf h chunk).2⟩
      | pull => exact hnext f h
    have htail := ih hmax
    rw [Prod.ext_iff] at hcall htail
    dsimp only at hcall htail
    rw [hcall.2] at htail
    rw [run, FrameRule.run]
    refine Prod.ext ?_ htail.2
    rw [hcall.1, htail.1]

theorem run_new (hnext : Pulls next m) (calls : List (FrameRule.Call UInt8)) :
    ((new.run next calls).1, (new.run next calls).2.buf) = terminator.run m [] calls :=
  run_eq hnext rfl calls

theorem run_toEnd (hnext : Pulls next m) (calls : List (FrameRule.Call UInt8)) :
    (new.run next (toEnd calls)).1 =
      (terminator.frames (FrameRule.arrived calls)).filterMap m := by
  have h := run_new hnext (toEnd calls)
  rw [toEnd, FrameRule.run_toEnd] at h
  exact congrArg Prod.fst h

end

/-- The frame rule finds the end of the first block with its blank line. -/
theorem first_eq_some {n : ℕ} (h : terminator.first buf = some n) :
    ∃ e len, findDoubleNewline buf = some (e, len) ∧ n = e + len ∧
      body (buf.take n) = buf.take e := by
  obtain ⟨⟨e, len⟩, ht, rfl⟩ := Option.map_eq_some_iff.mp h
  refine ⟨e, len, ht, rfl, ?_⟩
  have hself : findDoubleNewline (buf.take (e + len)) = some (e, len) := by
    have := (findDoubleNewline_eq_some ht).2.2 []
    rwa [List.append_nil] at this
  simp only [body, hself, List.take_take]
  rw [Nat.min_eq_left (Nat.le_add_right e len)]

theorem first_eq_none (h : terminator.first buf = none) :
    findDoubleNewline buf = none :=
  Option.map_eq_none_iff.mp h

theorem nextRawBlock_pulls : Pulls nextRawBlock some := by
  intro f h
  cases hfirst : terminator.first f.buf with
  | none =>
    rw [FrameRule.pull_of_none hfirst, nextRawBlock, first_eq_none hfirst]
    exact ⟨rfl, h⟩
  | some n =>
    obtain ⟨e, len, hfind, rfl, -⟩ := first_eq_some hfirst
    rw [FrameRule.pull_of_some hfirst, nextRawBlock, hfind]
    exact ⟨rfl, h⟩

theorem nextEventWithin_pulls {fuel : ℕ} {f : SseFramer} (hfuel : f.buf.length ≤ fuel)
    (h : f.maxBufferedBytes = none) :
    ((nextEventWithin fuel f).1, (nextEventWithin fuel f).2.buf) =
        terminator.pull meaning f.buf ∧
      (nextEventWithin fuel f).2.maxBufferedBytes = none := by
  induction fuel generalizing f with
  | zero =>
    have hnil : f.buf = [] := List.eq_nil_of_length_eq_zero (Nat.le_zero.mp hfuel)
    rw [FrameRule.pull_of_none (by rw [hnil]; exact FrameRule.first_nil)]
    exact ⟨rfl, h⟩
  | succ fuel ih =>
    cases hfirst : terminator.first f.buf with
    | none =>
      rw [FrameRule.pull_of_none hfirst, nextEventWithin, first_eq_none hfirst]
      exact ⟨rfl, h⟩
    | some n =>
      obtain ⟨e, len, hfind, rfl, hbody⟩ := first_eq_some hfirst
      have hlt := terminator.length_drop_lt hfirst
      rw [FrameRule.pull_of_some hfirst, nextEventWithin, hfind]
      dsimp only
      rw [meaning, hbody]
      rcases parseEventBlock (f.buf.take e) with err | _ | event
      · exact ⟨rfl, h⟩
      · exact ih (by dsimp only; omega) h
      · exact ⟨rfl, h⟩

theorem nextEvent_pulls : Pulls nextEvent meaning :=
  fun _ h => nextEventWithin_pulls le_rfl h

theorem filterMap_meaning (blocks : List Bytes) :
    (blocks.filterMap meaning).filterMap Except.toOption =
      ((blocks.map body).filter fun block => !(dataLines block).isEmpty).filterMap eventOf := by
  induction blocks with
  | nil => rfl
  | cons raw blocks ih =>
    rw [List.map_cons, List.filter_cons, List.filterMap_cons, meaning]
    rcases parseEventBlock_spec (body raw) with ⟨hbad, e, he⟩ | ⟨hgood, hok⟩
    · have hnone : eventOf (body raw) = none := if_pos hbad
      rw [he]
      dsimp only
      rw [List.filterMap_cons_none rfl, ih]
      split_ifs
      · rw [List.filterMap_cons_none hnone]
      · rfl
    · rw [hok]
      by_cases hdata : dataLines (body raw) = []
      · simp only [hdata, if_true, Option.map_none, List.isEmpty_nil, Bool.not_true,
          Bool.false_eq_true, if_false]
        exact ih
      · have hsome : eventOf (body raw) = some ⟨(eventNames (body raw)).reduceOption.getLast?,
            [lf].intercalate (dataLines (body raw))⟩ := if_neg hgood
        have hisEmpty : (dataLines (body raw)).isEmpty = false := by simpa using hdata
        simp only [hdata, if_false, Option.map_some, hisEmpty, Bool.not_false, if_true]
        rw [List.filterMap_cons, List.filterMap_cons_some hsome, ih]
        rfl

/-- However a stream is cut and whenever results are asked for, they are those of the stream pushed
whole; the raw blocks with what remains are the stream; and the events are those of the raw blocks
with a data line. -/
theorem framing (calls : List (FrameRule.Call UInt8)) :
    (new.run nextEvent (toEnd calls)).1 =
        (new.run nextEvent (toEnd [.push (FrameRule.arrived calls)])).1 ∧
      (new.run nextEvent calls).1 <+:
        (new.run nextEvent (toEnd [.push (FrameRule.arrived calls)])).1 ∧
      (new.run nextRawBlock calls).1.flatten ++ (new.run nextRawBlock calls).2.takeRemaining.1 =
        FrameRule.arrived calls ∧
      (new.run nextEvent (toEnd calls)).1 =
        (new.run nextRawBlock (toEnd calls)).1.filterMap meaning ∧
      (new.run nextEvent (toEnd calls)).1.filterMap Except.toOption =
        (((new.run nextRawBlock (toEnd calls)).1.map body).filter fun block =>
          !(dataLines block).isEmpty).filterMap eventOf := by
  have hwhole : FrameRule.arrived [.push (FrameRule.arrived calls)] = FrameRule.arrived calls := by
    simp [FrameRule.arrived, FrameRule.Call.part]
  have hevents := run_toEnd nextEvent_pulls calls
  have hraw : (new.run nextRawBlock (toEnd calls)).1 =
      terminator.frames (FrameRule.arrived calls) :=
    (run_toEnd nextRawBlock_pulls calls).trans List.filterMap_some
  refine ⟨?_, ?_, ?_, ?_, ?_⟩
  · rw [hevents, run_toEnd nextEvent_pulls, hwhole]
  · rw [run_toEnd nextEvent_pulls, hwhole]
    have hrun := run_new nextEvent_pulls calls
    have hpulled := (terminator.pulled_run (f := meaning) [] calls).1
    rw [← hrun, List.nil_append] at hpulled
    rw [hpulled]
    exact List.prefix_append _ _
  · have hrun := run_new nextRawBlock_pulls calls
    obtain ⟨hframes, hrest⟩ := terminator.pulled_run (f := some) [] calls
    rw [← hrun, List.nil_append, List.filterMap_some, List.filterMap_some] at hframes
    rw [← hrun, List.nil_append] at hrest
    have htotal := terminator.flatten_frames (FrameRule.arrived calls)
    rw [hframes, hrest, List.flatten_append, List.append_assoc, FrameRule.flatten_frames] at htotal
    exact htotal
  · rw [hevents, hraw]
  · rw [hevents, hraw]
    exact filterMap_meaning _

end SseFramer

end Headroom.Sse
