import Headroom.Bedrock.EventStream
import Headroom.Foundation.JsonBytes
import Headroom.Sse.FirstBlock
import Headroom.Sse.WrittenNames

/-!
# From the binary event stream to server-sent events

The payload of a message is sent on as the data line of an event, with its type on a name line in front. It is
copied as it is. So a payload with a line feed in front of its last bracket is cut, and a type with a line feed
in it, or with a carriage return at its end, is not read back.

## Main results

* `payloads_survive_iff` : every message comes out as an event of its own just if every payload is on one line.
-/

open Foundation

namespace Headroom.Bedrock

open Sse

section Translation

variable (read : Bytes → Option Json)

/-- The type of an event. -/
def extractAnthropicEventType (payload : Bytes) : Option String := do
  let v ← read payload
  let t ← v.get? "type"
  t.asStr?

/-- The frame of a payload; without a type it has no name line. -/
def payloadToSseFrame (payload : Bytes) : Bytes :=
  (match extractAnthropicEventType read payload with
    | some name => ascii "event: " ++ utf8 name ++ ascii "\n"
    | none => []) ++ ascii "data: " ++ payload ++ ascii "\n\n"

/-- The payload is an object with a string for its type. -/
def IsTyped (message : EventStreamMessage) : Prop :=
  ∃ fields name, read message.payload = some (.obj fields) ∧ (Json.obj fields).getStr? "type" = some name

/-- An event has the type of a message for its name, and data with the same value. -/
def ComesOut (message : EventStreamMessage) (result : Except FramingError SseEvent) : Prop :=
  ∃ event name, result = .ok event ∧ extractAnthropicEventType read message.payload = some name ∧
    event.eventName = some name ∧ read event.data = read message.payload

/-- The type has no line feed and no carriage return at its end, and what stands behind the first line feed of
the payload is blank. -/
def OnOneLine (message : EventStreamMessage) : Prop :=
  (∀ name, extractAnthropicEventType read message.payload = some name →
    lf ∉ utf8 name ∧ (utf8 name).getLast? ≠ some cr) ∧
  ∀ b ∈ message.payload.dropWhile (· != lf), isBlankByte b = true

/-- What an event has of a message whose type is on one line. -/
def CutBack (message : EventStreamMessage) (result : Except FramingError SseEvent) : Prop :=
  ∃ name eventName value k, extractAnthropicEventType read message.payload = some name ∧ lf ∉ utf8 name ∧
    fromUtf8? (stripCr (utf8 name)) = some eventName ∧
    firstLine message.payload = value ++ List.replicate k cr ∧ result = .ok ⟨some eventName, value⟩

end Translation

variable {read : Bytes → Option Json} {message : EventStreamMessage} {result : Except FramingError SseEvent}

theorem extract_eq_getStr? {payload : Bytes} {v : Json} (h : read payload = some v) :
    extractAnthropicEventType read payload = v.getStr? "type" := by
  rw [extractAnthropicEventType, h, Json.getStr?]
  rfl

/-! ### One frame -/

theorem fieldless_payload (h : ReadsJson read) {payload : Bytes} {v : Json} (hread : read payload = some v) :
    Fieldless payload := by
  obtain ⟨chars, rfl, hlines⟩ := h.lines hread
  refine hlines.encode ?_
  have hletter {c d : Char} {b : UInt8} (hc : mayBegin c = true) (hd : mayBegin d = false)
      (hb : b < 128) (hbyte : String.utf8EncodeChar d = [b]) : b ∉ (String.utf8EncodeChar c).head? := by
    intro hmem
    have hone := utf8EncodeChar_of_ascii hb (List.mem_of_mem_head? hmem)
    obtain rfl := eq_of_utf8EncodeChar (hone.trans hbyte.symm)
    rw [hc] at hd
    cases hd
  intro c hc b hb
  constructor
  · rintro rfl
    exact @hletter c 'd' 100 hc rfl (by decide) rfl hb
  · rintro rfl
    exact @hletter c 'e' 101 hc rfl (by decide) rfl hb

theorem exists_stripped (name : String) : ∃ eventName, fromUtf8? (stripCr (utf8 name)) = some eventName := by
  rw [stripCr]
  split_ifs with hlast
  · obtain ⟨front, hfront⟩ := List.getLast?_eq_some_iff.mp hlast
    obtain ⟨eventName, -, -, hname, -⟩ := exists_utf8_split (by decide : cr < 128) hfront
    refine ⟨eventName, ?_⟩
    rw [hfront, List.dropLast_concat, ← hname, fromUtf8?_utf8]
  · exact ⟨name, fromUtf8?_utf8 name⟩

theorem firstLine_append (payload : Bytes) :
    firstLine payload ++ payload.dropWhile (· != lf) = payload := List.takeWhile_append_dropWhile

theorem lf_notMem_firstLine (payload : Bytes) : lf ∉ firstLine payload := by
  intro h
  have := List.mem_takeWhile_imp h
  simp at this

theorem exists_behind (payload : Bytes) : ∃ rest, payload ++ [lf, lf] = firstLine payload ++ lf :: rest := by
  rcases hdrop : payload.dropWhile (· != lf) with _ | ⟨b, tail⟩
  · refine ⟨[lf], ?_⟩
    have hsplit := firstLine_append payload
    rw [hdrop, List.append_nil] at hsplit
    rw [hsplit]
  · have hb : b = lf := by
      have := List.head?_dropWhile_not (fun b : UInt8 => b != lf) payload
      rw [hdrop] at this
      simpa using this
    refine ⟨tail ++ [lf, lf], ?_⟩
    conv_lhs => rw [← firstLine_append payload, hdrop, hb]
    rw [List.append_assoc]
    rfl

theorem frames_frame (h : ReadsJson read) {lead : Bytes} (hlead : MayLead lead) {v : Json} {name : String}
    (hread : read message.payload = some v) (hname : extractAnthropicEventType read message.payload = some name)
    (hline : lf ∉ utf8 name) :
    ∃ result, (terminator.frames (lead ++ payloadToSseFrame read message.payload)).filterMap meaning = [result] ∧
      CutBack read message result := by
  obtain ⟨rest, hrest⟩ := exists_behind message.payload
  have hfieldless : Fieldless rest := by
    have hends : Fieldless [lf, lf] := .of_forall (by simp [lf])
    have hall := (fieldless_payload h hread).append hends
    rw [hrest] at hall
    exact hall.behind
  have hframe : lead ++ payloadToSseFrame read message.payload =
      lead ++ (ascii "event" ++ 58 :: 32 :: utf8 name) ++
        lf :: (ascii "data" ++ 58 :: 32 :: firstLine message.payload ++ lf :: rest) := by
    rw [payloadToSseFrame, hname, show ascii "\n\n" = [lf, lf] from rfl, List.append_assoc _ message.payload, hrest,
      show ascii "event: " = ascii "event" ++ [58, 32] by decide, show ascii "data: " = ascii "data" ++ [58, 32] by decide,
      show ascii "\n" = [lf] from rfl]
    simp only [List.append_assoc, List.cons_append, List.nil_append]
  have hends : (terminator.first (lead ++ payloadToSseFrame read message.payload)).isSome := by
    rw [payloadToSseFrame, show ascii "\n\n" = [lf, lf] from rfl, ← List.append_assoc]
    exact isSome_first _
  obtain ⟨eventName, heventName⟩ := exists_stripped name
  rw [hframe] at hends ⊢
  obtain ⟨value, k, hvalue, hframes⟩ :=
    frames_twoFields hlead hline (lf_notMem_firstLine message.payload) heventName hfieldless hends
  exact ⟨_, hframes, name, eventName, value, k, hname, hline, heventName, hvalue, rfl⟩

/-! ### The frames of a stream -/

theorem frames_messages (h : ReadsJson read) {messages : List EventStreamMessage} {lead : Bytes} (hlead : MayLead lead)
    (htyped : ∀ message ∈ messages, IsTyped read message)
    (hline : ∀ message ∈ messages, ∀ name, extractAnthropicEventType read message.payload = some name → lf ∉ utf8 name) :
    List.Forall₂ (CutBack read) messages
      ((terminator.frames (lead ++ messages.flatMap fun m => payloadToSseFrame read m.payload)).filterMap meaning) := by
  induction messages generalizing lead with
  | nil =>
    have hnone : terminator.first lead = none := by obtain rfl | rfl := hlead <;> rfl
    rw [List.flatMap_nil, List.append_nil, FrameRule.frames_of_none hnone]
    exact .nil
  | cons message messages ih =>
    obtain ⟨⟨fields, name, hread, hname⟩, htyped⟩ := List.forall_mem_cons.mp htyped
    obtain ⟨hmessage, hline⟩ := List.forall_mem_cons.mp hline
    rw [← extract_eq_getStr? hread] at hname
    obtain ⟨result, hframe, hresult⟩ := frames_frame h hlead hread hname (hmessage name hname)
    rw [List.flatMap_cons, ← List.append_assoc, FrameRule.frames_append, List.filterMap_append, hframe]
    refine .cons hresult (ih ?_ htyped hline)
    rw [payloadToSseFrame, show ascii "\n\n" = [lf, lf] from rfl, ← List.append_assoc]
    exact mayLead_rest _

/-! ### Which payloads survive -/

theorem stripped_eq_iff {name eventName : String} (h : fromUtf8? (stripCr (utf8 name)) = some eventName) :
    eventName = name ↔ (utf8 name).getLast? ≠ some cr := by
  rw [stripCr] at h
  split_ifs at h with hlast
  · refine iff_of_false ?_ (not_not.mpr hlast)
    rintro rfl
    obtain ⟨front, hfront⟩ := List.getLast?_eq_some_iff.mp hlast
    have hlength := congrArg List.length (eq_utf8_of_fromUtf8? h)
    rw [hfront, List.dropLast_concat, List.length_append, List.length_singleton] at hlength
    omega
  · rw [fromUtf8?_utf8] at h
    exact iff_of_true (Option.some.inj h).symm hlast

theorem read_value_iff (h : ReadsJson read) {payload value : Bytes} {fields : List (String × Json)} {k : ℕ}
    (hread : read payload = some (.obj fields)) (hvalue : firstLine payload = value ++ List.replicate k cr) :
    read value = read payload ↔ ∀ b ∈ payload.dropWhile (· != lf), isBlankByte b = true := by
  have hsplit : payload = value ++ (List.replicate k cr ++ payload.dropWhile (· != lf)) := by
    rw [← List.append_assoc, ← hvalue, firstLine_append]
  generalize payload.dropWhile (· != lf) = tail at hsplit
  constructor
  · intro hsame
    rw [hread] at hsame
    rw [hsplit] at hread
    obtain ⟨blank, hblank, heq⟩ := h.blank_behind hsame hread
    intro b hb
    exact isBlankByte_of_mem hblank (heq ▸ List.mem_append_right _ hb)
  · intro htail
    have hall : ∀ b ∈ List.replicate k cr ++ tail, isBlankByte b = true := by
      rintro b hb
      rcases List.mem_append.mp hb with hb | hb
      · rw [List.eq_of_mem_replicate hb]
        rfl
      · exact htail b hb
    obtain ⟨blank, hblank, heq⟩ := exists_blank hall
    rw [hsplit, heq, h.blanks _ _ hblank]

theorem comesOut_iff (h : ReadsJson read) (htyped : IsTyped read message) (hback : CutBack read message result) :
    ComesOut read message result ↔ OnOneLine read message := by
  obtain ⟨fields, -, hread, -⟩ := htyped
  obtain ⟨name, eventName, value, k, hname, hline, hstripped, hvalue, rfl⟩ := hback
  have hdata := read_value_iff h hread hvalue
  constructor
  · rintro ⟨event, name', hevent, hname', heventName, hsame⟩
    obtain rfl := Except.ok.inj hevent
    rw [hname] at hname'
    obtain rfl := Option.some.inj hname'
    refine ⟨?_, hdata.mp hsame⟩
    intro name' hname'
    rw [hname] at hname'
    obtain rfl := Option.some.inj hname'
    exact ⟨hline, (stripped_eq_iff hstripped).mp (Option.some.inj heventName)⟩
  · rintro ⟨hnames, htail⟩
    obtain rfl := (stripped_eq_iff hstripped).mpr (hnames name hname).2
    exact ⟨_, eventName, rfl, hname, rfl, hdata.mpr htail⟩

theorem forall₂_iff {α β : Type*} {R S : α → β → Prop} {P : α → Prop} {as : List α} {bs : List β}
    (h : List.Forall₂ R as bs) (hiff : ∀ a ∈ as, ∀ b, R a b → (S a b ↔ P a)) :
    List.Forall₂ S as bs ↔ ∀ a ∈ as, P a := by
  induction h with
  | nil => exact iff_of_true .nil fun a ha => absurd ha List.not_mem_nil
  | cons hab _ ih =>
    rw [List.forall₂_cons, List.forall_mem_cons, hiff _ List.mem_cons_self _ hab,
      ih fun a ha => hiff a (List.mem_cons_of_mem _ ha)]

/-- Messages whose types are on one line come out just if their payloads are. -/
theorem comesOut_frames_iff (h : ReadsJson read) {messages : List EventStreamMessage}
    (htyped : ∀ message ∈ messages, IsTyped read message)
    (hline : ∀ message ∈ messages, ∀ name, extractAnthropicEventType read message.payload = some name → lf ∉ utf8 name) :
    List.Forall₂ (ComesOut read) messages
        ((terminator.frames (messages.flatMap fun m => payloadToSseFrame read m.payload)).filterMap meaning) ↔
      ∀ message ∈ messages, OnOneLine read message :=
  forall₂_iff (frames_messages h (Or.inl rfl) htyped hline) fun message hmem _ => comesOut_iff h (htyped message hmem)

/-- Every message comes out as one event, in order, with its type and its value, just if every payload is on
one line. -/
theorem payloads_survive_iff (hread : ReadsJson read) {messages : List EventStreamMessage}
    (htyped : ∀ message ∈ messages, IsTyped read message) {calls : List (FrameRule.Call UInt8)}
    (hcalls : FrameRule.arrived calls = messages.flatMap fun m => payloadToSseFrame read m.payload) :
    List.Forall₂ (ComesOut read) messages (SseFramer.new.run SseFramer.nextEvent (SseFramer.toEnd calls)).1 ↔
      ∀ message ∈ messages, OnOneLine read message := by
  rw [SseFramer.run_toEnd SseFramer.nextEvent_pulls, hcalls]
  by_cases hline : ∀ message ∈ messages, ∀ name, extractAnthropicEventType read message.payload = some name →
      lf ∉ utf8 name
  · exact comesOut_frames_iff hread htyped hline
  · -- A type with a line feed is no event's name.
    refine iff_of_false ?_ fun honeLine => hline fun message hmem name hname => ((honeLine message hmem).1 name hname).1
    intro hout
    refine hline ?_
    intro message hmem name hname
    obtain ⟨i, hi, rfl⟩ := List.getElem_of_mem hmem
    obtain ⟨hlength, hall⟩ := List.forall₂_iff_get.mp hout
    obtain ⟨event, name', hevent, hname', heventName, -⟩ := hall i hi (hlength ▸ hi)
    have hresult := List.get_mem ((terminator.frames
      (messages.flatMap fun m => payloadToSseFrame read m.payload)).filterMap meaning) ⟨i, hlength ▸ hi⟩
    rw [hevent] at hresult
    obtain ⟨raw, -, hraw⟩ := List.mem_filterMap.mp hresult
    rw [show extractAnthropicEventType read messages[i].payload = some name' from hname'] at hname
    obtain rfl := Option.some.inj hname
    exact (eventName_written hraw heventName).1

/-! ### A payload on two lines -/

/-- An object with a type, with blanks behind its colon. -/
def typedText (blank : String) (name : String) : Raw :=
  .obj [] [(⟨[], some (escape "type".toList, [], blank.toList)⟩, .string name, [])]

/-- A message with that payload. -/
def typedMessage (blank : String) (name : String) : EventStreamMessage :=
  ⟨[], Text.encode (typedText blank name).text⟩

theorem read_typedMessage :
    readsOnly (typedText "" "ping") (typedMessage "" "ping").payload = some (.obj [("type", .str "ping")]) ∧
      readsOnly (typedText "\n" "ping") (typedMessage "\n" "ping").payload = some (.obj [("type", .str "ping")]) := by
  decide +kernel

/-- A payload on one line comes out. -/
theorem payload_survives :
    List.Forall₂ (ComesOut (readsOnly (typedText "" "ping"))) [typedMessage "" "ping"]
      (SseFramer.new.run SseFramer.nextEvent (SseFramer.toEnd
        [.push (payloadToSseFrame (readsOnly (typedText "" "ping")) (typedMessage "" "ping").payload)])).1 := by
  refine (payloads_survive_iff (readsJson_readsOnly (by decide +kernel)) ?_ ?_).mpr ?_
  · rintro message (_ | ⟨_, ⟨⟩⟩)
    exact ⟨_, "ping", read_typedMessage.1, rfl⟩
  · rfl
  · rintro message (_ | ⟨_, ⟨⟩⟩)
    refine ⟨?_, by decide +kernel⟩
    intro name hname
    rw [extract_eq_getStr? read_typedMessage.1] at hname
    obtain rfl := Option.some.inj hname
    decide +kernel

/-- A payload with a line feed behind a colon does not come out. -/
theorem not_payloads_survive :
    ¬∀ read, ReadsJson read → ∀ messages : List EventStreamMessage, (∀ message ∈ messages, IsTyped read message) →
      ∀ calls, FrameRule.arrived calls = (messages.flatMap fun m => payloadToSseFrame read m.payload) →
        List.Forall₂ (ComesOut read) messages
          (SseFramer.new.run SseFramer.nextEvent (SseFramer.toEnd calls)).1 := by
  intro h
  have hread : ReadsJson (readsOnly (typedText "\n" "ping")) := readsJson_readsOnly (by decide +kernel)
  have htyped : ∀ message ∈ [typedMessage "\n" "ping"], IsTyped (readsOnly (typedText "\n" "ping")) message := by
    rintro message (_ | ⟨_, ⟨⟩⟩)
    exact ⟨_, "ping", read_typedMessage.2, rfl⟩
  have hout := h _ hread _ htyped
    [.push (payloadToSseFrame (readsOnly (typedText "\n" "ping")) (typedMessage "\n" "ping").payload)] rfl
  rw [SseFramer.run_toEnd SseFramer.nextEvent_pulls] at hout
  have honeLine := (comesOut_frames_iff hread htyped ?_).mp hout _ List.mem_cons_self
  · exact absurd honeLine.2 (by decide +kernel)
  · rintro message (_ | ⟨_, ⟨⟩⟩) name hname
    rw [extract_eq_getStr? read_typedMessage.2] at hname
    obtain rfl := Option.some.inj hname
    decide +kernel

end Headroom.Bedrock
