import Headroom.Bedrock.EventStreamGrammar

/-!
# One message and nothing else

The one-shot parser with every index checked: none is out of bounds, whatever the bytes are. It is meant
to take exactly the bytes of one message, and takes more than that.

## Main results

* `parse_exactly` : the parser is exact but for bytes that a message stands in front of.
-/

open Foundation

namespace Headroom.Bedrock

variable {crc : Bytes → UInt32}

/-! ### Every index is checked -/

/-- A computation that comes to nothing where an index is out of bounds. -/
abbrev Indexed := ExceptT ParseError Option

namespace Indexed

def lift {α : Type} (x : Except ParseError α) : Indexed α := ExceptT.mk (some x)

def outOfBounds {α : Type} : Indexed α := ExceptT.mk none

end Indexed

/-- `bytes[start..stop]`. -/
def index (bytes : Bytes) (start stop : ℕ) : Indexed Bytes :=
  if start ≤ stop ∧ stop ≤ bytes.length then .lift (.ok ((bytes.drop start).take (stop - start)))
  else .outOfBounds

/-- A difference of two lengths, which is not below zero. -/
def minus (a b : ℕ) : Indexed ℕ := if b ≤ a then .lift (.ok (a - b)) else .outOfBounds

/-- So many bytes of the headers from a cursor on. -/
def bytesAtIndexed (slice : Bytes) (cursor n : ℕ) : Indexed Bytes :=
  if slice.length < cursor + n then throw (.truncatedHeader cursor n) else index slice cursor (cursor + n)

def sizedBytesAtIndexed (slice : Bytes) (cursor : ℕ) : Indexed (ℕ × Bytes) := do
  let valueLen ← bytesAtIndexed slice cursor 2
  let value ← bytesAtIndexed slice (cursor + 2) (fromBe valueLen)
  return (cursor + 2, value)

def parseValueIndexed (slice : Bytes) (cursor : ℕ) (valueType : UInt8) : Indexed (HeaderValue × ℕ) :=
  if valueType = HeaderType.STRING then do
    let (start, value) ← sizedBytesAtIndexed slice cursor
    match fromUtf8? value with
    | some s => return (.string s, start + value.length)
    | none => throw (.headerValueNotUtf8 start)
  else if valueType = HeaderType.BYTE_ARRAY then do
    let (start, value) ← sizedBytesAtIndexed slice cursor
    return (.bytes value, start + value.length)
  else if valueType = HeaderType.TRUE then return (.bytes [1], cursor)
  else if valueType = HeaderType.FALSE then return (.bytes [0], cursor)
  else match fixedLength? valueType with
    | some n => do
      let value ← bytesAtIndexed slice cursor n
      return (.bytes value, cursor + n)
    | none => throw (.unsupportedHeaderType valueType (cursor - 1))

def parseHeaderIndexed (slice : Bytes) (cursor : ℕ) : Indexed ((String × HeaderValue) × ℕ) := do
  let nameLen ← bytesAtIndexed slice cursor 1
  let cursor := cursor + 1
  let name ← bytesAtIndexed slice cursor (fromBe nameLen)
  match fromUtf8? name with
  | none => throw (.headerNameNotUtf8 cursor)
  | some s =>
    let cursor := cursor + name.length
    let valueType ← bytesAtIndexed slice cursor 1
    let (value, cursor) ← parseValueIndexed slice (cursor + 1) (UInt8.ofNat (fromBe valueType))
    return ((s.toLower, value), cursor)

def parseHeadersFromIndexed (slice : Bytes) : ℕ → ℕ → Headers → Indexed Headers
  | 0, _, out => return out
  | rounds + 1, cursor, out =>
    if cursor < slice.length then do
      let ((name, value), cursor) ← parseHeaderIndexed slice cursor
      parseHeadersFromIndexed slice rounds cursor (insertHeader out name value)
    else return out

def nextMessageIndexed (crc : Bytes → UInt32) (p : EventStreamParser) : Indexed (Option EventStreamMessage) :=
  if p.buf.length < PRELUDE_LEN then return none
  else do
    let total := fromBe (← index p.buf 0 4)
    let headersLen := fromBe (← index p.buf 4 8)
    let preludeCrc := UInt32.ofNat (fromBe (← index p.buf 8 12))
    if total < PRELUDE_LEN + headersLen + MESSAGE_CRC_LEN then
      throw (.implausiblePreludeLengths total headersLen)
    else if p.maxMessageBytes < total then throw (.messageTooLarge total p.maxMessageBytes)
    else do
      let lengths ← index p.buf 0 8
      if p.crcValidation = .yes ∧ crc lengths ≠ preludeCrc then
        throw (.preludeCrcMismatch preludeCrc (crc lengths))
      else if p.buf.length < total then return none
      else do
        let payloadEnd ← minus total MESSAGE_CRC_LEN
        let messageCrc := UInt32.ofNat (fromBe (← index p.buf payloadEnd total))
        let body ← index p.buf 0 payloadEnd
        if p.crcValidation = .yes ∧ crc body ≠ messageCrc then
          throw (.messageCrcMismatch messageCrc (crc body))
        else do
          let messageBytes ← index p.buf 0 total
          let headersEnd := PRELUDE_LEN + headersLen
          let headersSlice ← index messageBytes PRELUDE_LEN headersEnd
          let payload ← index messageBytes headersEnd payloadEnd
          let headers ← parseHeadersFromIndexed headersSlice headersSlice.length 0 []
          return some ⟨headers, payload⟩

/-- The one-shot parser with every index checked. -/
def parseIndexed (crc : Bytes → UInt32) (bytes : Bytes) : Indexed EventStreamMessage := do
  match ← nextMessageIndexed crc (EventStreamParser.new.push bytes) with
  | some message => return message
  | none => throw (.implausiblePreludeLengths 0 0)

theorem index_of_le {bytes : Bytes} {start stop : ℕ} (h : start ≤ stop) (hstop : stop ≤ bytes.length) :
    index bytes start stop = .lift (.ok ((bytes.drop start).take (stop - start))) := if_pos ⟨h, hstop⟩

theorem bytesAtIndexed_eq (slice : Bytes) (cursor n : ℕ) :
    bytesAtIndexed slice cursor n = .lift (bytesAt slice cursor n) := by
  rw [bytesAtIndexed, bytesAt]
  split_ifs with hshort
  · rfl
  · rw [index_of_le (Nat.le_add_right ..) (not_lt.mp hshort), Nat.add_sub_cancel_left]

theorem sizedBytesAtIndexed_eq (slice : Bytes) (cursor : ℕ) :
    sizedBytesAtIndexed slice cursor = .lift (sizedBytesAt slice cursor) := by
  rw [sizedBytesAtIndexed, sizedBytesAt, bytesAtIndexed_eq]
  rcases bytesAt slice cursor 2 with e | valueLen
  · rfl
  · show (bytesAtIndexed slice (cursor + 2) (fromBe valueLen) >>= _) =
      .lift (bytesAt slice (cursor + 2) (fromBe valueLen) >>= _)
    rw [bytesAtIndexed_eq]
    rcases bytesAt slice (cursor + 2) (fromBe valueLen) with e | value <;> rfl

theorem parseValueIndexed_eq (slice : Bytes) (cursor : ℕ) (valueType : UInt8) :
    parseValueIndexed slice cursor valueType = .lift (parseValue slice cursor valueType) := by
  unfold parseValueIndexed parseValue
  split_ifs
  · rw [sizedBytesAtIndexed_eq]
    rcases sizedBytesAt slice cursor with e | ⟨start, value⟩
    · rfl
    · show (match fromUtf8? value with | some s => _ | none => _) =
        Indexed.lift (match fromUtf8? value with | some s => _ | none => _)
      cases fromUtf8? value <;> rfl
  · rw [sizedBytesAtIndexed_eq]
    rcases sizedBytesAt slice cursor with e | ⟨start, value⟩ <;> rfl
  · rfl
  · rfl
  · cases fixedLength? valueType with
    | none => rfl
    | some n =>
      dsimp only
      rw [bytesAtIndexed_eq]
      rcases bytesAt slice cursor n with e | value <;> rfl

theorem parseHeaderIndexed_eq (slice : Bytes) (cursor : ℕ) :
    parseHeaderIndexed slice cursor = .lift (parseHeader slice cursor) := by
  rw [parseHeaderIndexed, parseHeader, bytesAtIndexed_eq]
  rcases bytesAt slice cursor 1 with e | nameLen
  · rfl
  show (bytesAtIndexed slice (cursor + 1) (fromBe nameLen) >>= _) =
    .lift (bytesAt slice (cursor + 1) (fromBe nameLen) >>= _)
  rw [bytesAtIndexed_eq]
  rcases bytesAt slice (cursor + 1) (fromBe nameLen) with e | name
  · rfl
  show (match fromUtf8? name with | none => _ | some s => _) =
    Indexed.lift (match fromUtf8? name with | none => _ | some s => _)
  cases fromUtf8? name with
  | none => rfl
  | some s =>
    dsimp only
    rw [bytesAtIndexed_eq]
    rcases bytesAt slice (cursor + 1 + name.length) 1 with e | valueType
    · rfl
    show (parseValueIndexed slice (cursor + 1 + name.length + 1) (UInt8.ofNat (fromBe valueType)) >>= _) =
      .lift (parseValue slice (cursor + 1 + name.length + 1) (UInt8.ofNat (fromBe valueType)) >>= _)
    rw [parseValueIndexed_eq]
    rcases parseValue slice (cursor + 1 + name.length + 1) (UInt8.ofNat (fromBe valueType)) with
      e | ⟨value, after⟩ <;> rfl

theorem parseHeadersFromIndexed_eq (slice : Bytes) (rounds cursor : ℕ) (out : Headers) :
    parseHeadersFromIndexed slice rounds cursor out = .lift (parseHeadersFrom slice rounds cursor out) := by
  induction rounds generalizing cursor out with
  | zero => rfl
  | succ rounds ih =>
    rw [parseHeadersFromIndexed, parseHeadersFrom]
    split_ifs
    · rw [parseHeaderIndexed_eq]
      rcases parseHeader slice cursor with e | ⟨⟨name, value⟩, after⟩
      · rfl
      · exact ih after _
    · rfl

theorem readMessage_take {buf : Bytes}
    (hroom : PRELUDE_LEN + headersLength buf + MESSAGE_CRC_LEN ≤ totalLength buf) :
    readMessage (buf.take (totalLength buf)) = do
      let headers ← parseHeaders (((buf.take (totalLength buf)).drop PRELUDE_LEN).take (headersLength buf))
      return ⟨headers, ((buf.take (totalLength buf)).drop (PRELUDE_LEN + headersLength buf)).take
        (totalLength buf - MESSAGE_CRC_LEN - (PRELUDE_LEN + headersLength buf))⟩ := by
  have hprelude : PRELUDE_LEN = 12 := rfl
  have htotal : totalLength (buf.take (totalLength buf)) = totalLength buf := by
    conv_lhs => rw [totalLength, List.take_take, min_eq_left (by omega)]
    rfl
  have hheaders : headersLength (buf.take (totalLength buf)) = headersLength buf := by
    conv_lhs => rw [headersLength, List.drop_take, List.take_take, min_eq_left (by omega)]
    rfl
  rw [readMessage, htotal, hheaders]

theorem lift_ok_bind {α β : Type} (a : α) (f : α → Indexed β) : (Indexed.lift (.ok a) >>= f) = f a := rfl

theorem nextMessageIndexed_eq (crc : Bytes → UInt32) (p : EventStreamParser) :
    nextMessageIndexed crc p = .lift (p.nextMessage crc).1 := by
  have hprelude : PRELUDE_LEN = 12 := rfl
  have hcrcLen : MESSAGE_CRC_LEN = 4 := rfl
  rw [nextMessageIndexed, EventStreamParser.nextMessage, messageAhead]
  by_cases hshort : p.buf.length < PRELUDE_LEN
  · rw [if_pos hshort, if_pos hshort]
    rfl
  have htotal : index p.buf 0 4 = .lift (.ok (p.buf.take 4)) := index_of_le (by omega) (by omega)
  have hheaders : index p.buf 4 8 = .lift (.ok ((p.buf.drop 4).take 4)) := index_of_le (by omega) (by omega)
  have hcrc : index p.buf 8 12 = .lift (.ok ((p.buf.drop 8).take 4)) := index_of_le (by omega) (by omega)
  have hlengths : index p.buf 0 8 = .lift (.ok (p.buf.take 8)) := index_of_le (by omega) (by omega)
  simp only [if_neg hshort, htotal, hheaders, hcrc, hlengths, lift_ok_bind,
    show fromBe (p.buf.take 4) = totalLength p.buf from rfl,
    show fromBe ((p.buf.drop 4).take 4) = headersLength p.buf from rfl,
    show UInt32.ofNat (fromBe ((p.buf.drop 8).take 4)) = preludeCrcExpected p.buf from rfl]
  split_ifs with hroom hlarge hbad hwhole
  · rfl
  · rfl
  · rfl
  · rfl
  all_goals
    have hend : minus (totalLength p.buf) MESSAGE_CRC_LEN =
        .lift (.ok (totalLength p.buf - MESSAGE_CRC_LEN)) := if_pos (by omega)
    have hlast : index p.buf (totalLength p.buf - MESSAGE_CRC_LEN) (totalLength p.buf) =
        .lift (.ok ((p.buf.drop (totalLength p.buf - MESSAGE_CRC_LEN)).take 4)) := by
      rw [index_of_le (by omega) (by omega), show totalLength p.buf - (totalLength p.buf - MESSAGE_CRC_LEN) = 4 by omega]
    have hbody : index p.buf 0 (totalLength p.buf - MESSAGE_CRC_LEN) =
        .lift (.ok (p.buf.take (totalLength p.buf - MESSAGE_CRC_LEN))) := index_of_le (by omega) (by omega)
    simp only [hend, hlast, hbody, lift_ok_bind,
      show UInt32.ofNat (fromBe ((p.buf.drop (totalLength p.buf - MESSAGE_CRC_LEN)).take 4)) =
        messageCrcExpected p.buf from rfl]
  · rename_i hmismatch
    rw [if_pos hmismatch]
    rfl
  · rename_i hmatch
    rw [if_neg hmatch]
    have hmessage : index p.buf 0 (totalLength p.buf) = .lift (.ok (p.buf.take (totalLength p.buf))) :=
      index_of_le (by omega) (by omega)
    have hlength : (p.buf.take (totalLength p.buf)).length = totalLength p.buf := by
      rw [List.length_take]
      omega
    have hslice : index (p.buf.take (totalLength p.buf)) PRELUDE_LEN (PRELUDE_LEN + headersLength p.buf) =
        .lift (.ok (((p.buf.take (totalLength p.buf)).drop PRELUDE_LEN).take (headersLength p.buf))) := by
      rw [index_of_le (by omega) (by omega), Nat.add_sub_cancel_left]
    have hpayload : index (p.buf.take (totalLength p.buf)) (PRELUDE_LEN + headersLength p.buf)
        (totalLength p.buf - MESSAGE_CRC_LEN) =
        .lift (.ok (((p.buf.take (totalLength p.buf)).drop (PRELUDE_LEN + headersLength p.buf)).take
          (totalLength p.buf - MESSAGE_CRC_LEN - (PRELUDE_LEN + headersLength p.buf)))) :=
      index_of_le (by omega) (by omega)
    simp only [hmessage, hslice, hpayload, lift_ok_bind, parseHeadersFromIndexed_eq]
    rw [readMessage_take (not_lt.mp hroom), parseHeaders]
    cases parseHeadersFrom (((p.buf.take (totalLength p.buf)).drop PRELUDE_LEN).take (headersLength p.buf))
      (((p.buf.take (totalLength p.buf)).drop PRELUDE_LEN).take (headersLength p.buf)).length 0 [] <;> rfl

theorem parseIndexed_eq (crc : Bytes → UInt32) (bytes : Bytes) :
    parseIndexed crc bytes = .lift (parse crc bytes) := by
  rw [parseIndexed, nextMessageIndexed_eq, parse]
  rcases ((EventStreamParser.new.push bytes).nextMessage crc).1 with e | _ | message <;> rfl

/-! ### Exactly one message -/

/-- What the parser promises of bytes: no index is out of bounds, and they are accepted if they are the
bytes of a message, and only then. -/
def ParsedExactly (crc : Bytes → UInt32) (bytes : Bytes) : Prop :=
  ∃ result, (parseIndexed crc bytes).run = some result ∧
    ((∃ message, result = .ok message) ↔ ∃ message, MessageWire crc bytes message)

theorem MessageWire.eq_nil_of_append {front rest : Bytes} {message message' : EventStreamMessage}
    (hfront : MessageWire crc front message) (h : MessageWire crc (front ++ rest) message') : rest = [] := by
  obtain ⟨htotal, hlen⟩ := hfront.totalLength
  obtain ⟨htotal', -⟩ := h.totalLength
  rw [totalLength_append rest (show 12 ≤ front.length by omega), htotal, List.length_append] at htotal'
  exact List.length_eq_zero_iff.mp (by omega)

/-- The parser is exact but for bytes that a message stands in front of. -/
theorem parse_exactly (crc : Bytes → UInt32) (bytes : Bytes) :
    ParsedExactly crc bytes ↔
      ¬∃ front rest message, bytes = front ++ rest ∧ rest ≠ [] ∧ MessageWire crc front message := by
  have hrun : (parseIndexed crc bytes).run = some (parse crc bytes) := by
    rw [parseIndexed_eq]
    rfl
  constructor
  · rintro ⟨result, hresult, hexact⟩ ⟨front, rest, message, rfl, hne, hfront⟩
    obtain rfl := Option.some.inj (hrun.symm.trans hresult)
    obtain ⟨message', hwire⟩ := hexact.mp ⟨message, parse_eq_ok.mpr ⟨front, rest, rfl, hfront⟩⟩
    exact hne (hfront.eq_nil_of_append hwire)
  · intro hexact
    refine ⟨_, hrun, ?_, ?_⟩
    · rintro ⟨message, hparse⟩
      obtain ⟨front, rest, rfl, hfront⟩ := parse_eq_ok.mp hparse
      by_cases hrest : rest = []
      · rw [hrest, List.append_nil]
        exact ⟨message, hfront⟩
      · exact absurd ⟨front, rest, message, rfl, hrest, hfront⟩ hexact
    · rintro ⟨message, hwire⟩
      exact ⟨message, parse_eq_ok.mpr ⟨bytes, [], (List.append_nil bytes).symm, hwire⟩⟩

/-! ### The checksum -/

/-- One bit of the cyclic checksum. -/
def crcShift (crc : UInt32) : UInt32 := if crc &&& 1 = 1 then (crc >>> 1) ^^^ 0xEDB88320 else crc >>> 1

/-- One byte of the cyclic checksum. -/
def crcByte (crc : UInt32) (b : UInt8) : UInt32 :=
  (List.range 8).foldl (fun crc _ => crcShift crc) (crc ^^^ b.toUInt32)

/-- The cyclic checksum of 32 bits, as messages carry it. -/
def crc32 (bytes : Bytes) : UInt32 := bytes.foldl crcByte 0xFFFFFFFF ^^^ 0xFFFFFFFF

/-- The smallest message. -/
def emptyMessage : Bytes := [0, 0, 0, 16, 0, 0, 0, 0, 5, 194, 72, 235, 125, 152, 200, 255]

theorem emptyMessage_eq : emptyMessage = wire crc32 [] [] := by decide +kernel

/-- A byte behind a message goes unnoticed. -/
theorem not_parsedExactly_trailing : ¬ParsedExactly crc32 (emptyMessage ++ [0]) := by
  intro h
  obtain ⟨result, hresult, hexact⟩ := h
  have hfront : MessageWire crc32 emptyMessage ⟨[], []⟩ :=
    emptyMessage_eq ▸ .mk .nil (by unfold DEFAULT_MAX_MESSAGE_BYTES; decide)
  have hparse : parse crc32 (emptyMessage ++ [0]) = .ok ⟨[], []⟩ := parse_eq_ok.mpr ⟨_, [0], rfl, hfront⟩
  rw [parseIndexed_eq, hparse] at hresult
  obtain rfl := Option.some.inj hresult
  obtain ⟨message, hwire⟩ := hexact.mp ⟨_, rfl⟩
  exact absurd (hfront.eq_nil_of_append hwire) (by decide)

end Headroom.Bedrock
