import Headroom.Foundation.Bytes
import Headroom.Foundation.Reader

/-!
# The binary event stream of Bedrock

A message is a prelude of three numbers, headers, a payload and a checksum. The parser buffers what
arrives and takes complete messages off the front; it refuses a prelude that cannot be right as soon
as the prelude is there. The builder writes messages in the same format.
-/

open Foundation
open FrameRule (Call arrived)

namespace Headroom.Bedrock

namespace HeaderType

def TRUE : UInt8 := 0
def FALSE : UInt8 := 1
def BYTE : UInt8 := 2
def SHORT : UInt8 := 3
def INTEGER : UInt8 := 4
def LONG : UInt8 := 5
def BYTE_ARRAY : UInt8 := 6
def STRING : UInt8 := 7
def TIMESTAMP : UInt8 := 8
def UUID : UInt8 := 9

end HeaderType

/-- The length of the prelude in bytes. -/
def PRELUDE_LEN : ℕ := 12

/-- The length of the checksum behind a message. -/
def MESSAGE_CRC_LEN : ℕ := 4

def DEFAULT_MAX_MESSAGE_BYTES : ℕ := 32 * 1024 * 1024

inductive HeaderValue where
  | string (value : String)
  | bytes (value : Bytes)
  deriving DecidableEq

/-- Headers by name, in the order in which the names came first. -/
abbrev Headers := List (String × HeaderValue)

/-- The headers with the value of a name set. -/
def insertHeader (headers : Headers) (name : String) (value : HeaderValue) : Headers :=
  if name ∈ headers.map Prod.fst then
    headers.map fun h => if h.1 = name then (name, value) else h
  else headers ++ [(name, value)]

structure EventStreamMessage where
  headers : Headers
  payload : Bytes
  deriving DecidableEq

inductive ParseError where
  | implausiblePreludeLengths (totalLength headersLength : ℕ)
  | messageTooLarge (totalLength cap : ℕ)
  | preludeCrcMismatch (expected got : UInt32)
  | messageCrcMismatch (expected got : UInt32)
  | truncatedHeader (offset needed : ℕ)
  | headerNameNotUtf8 (offset : ℕ)
  | headerValueNotUtf8 (offset : ℕ)
  | unsupportedHeaderType (valueType : UInt8) (offset : ℕ)
  deriving DecidableEq

/-! ### Headers -/

/-- So many bytes of the headers from a cursor on. -/
def bytesAt (slice : Bytes) (cursor n : ℕ) : Except ParseError Bytes :=
  if slice.length < cursor + n then .error (.truncatedHeader cursor n)
  else .ok ((slice.drop cursor).take n)

/-- The bytes of a value whose length stands before them, and the cursor at their start. -/
def sizedBytesAt (slice : Bytes) (cursor : ℕ) : Except ParseError (ℕ × Bytes) := do
  let valueLen ← bytesAt slice cursor 2
  let value ← bytesAt slice (cursor + 2) (fromBe valueLen)
  return (cursor + 2, value)

/-- The length of the values of a type that says nothing more about its length. -/
def fixedLength? (valueType : UInt8) : Option ℕ :=
  if valueType = HeaderType.BYTE then some 1
  else if valueType = HeaderType.SHORT then some 2
  else if valueType = HeaderType.INTEGER then some 4
  else if valueType = HeaderType.LONG ∨ valueType = HeaderType.TIMESTAMP then some 8
  else if valueType = HeaderType.UUID then some 16
  else none

/-- A value of a type, and the cursor behind it. -/
def parseValue (slice : Bytes) (cursor : ℕ) (valueType : UInt8) : Except ParseError (HeaderValue × ℕ) :=
  if valueType = HeaderType.STRING then do
    let (start, value) ← sizedBytesAt slice cursor
    match fromUtf8? value with
    | some s => return (.string s, start + value.length)
    | none => throw (.headerValueNotUtf8 start)
  else if valueType = HeaderType.BYTE_ARRAY then do
    let (start, value) ← sizedBytesAt slice cursor
    return (.bytes value, start + value.length)
  else if valueType = HeaderType.TRUE then return (.bytes [1], cursor)
  else if valueType = HeaderType.FALSE then return (.bytes [0], cursor)
  else match fixedLength? valueType with
    | some n => do
      let value ← bytesAt slice cursor n
      return (.bytes value, cursor + n)
    | none => throw (.unsupportedHeaderType valueType (cursor - 1))

/-- A header, and the cursor behind it. -/
def parseHeader (slice : Bytes) (cursor : ℕ) : Except ParseError ((String × HeaderValue) × ℕ) := do
  let nameLen ← bytesAt slice cursor 1
  let cursor := cursor + 1
  let name ← bytesAt slice cursor (fromBe nameLen)
  match fromUtf8? name with
  | none => throw (.headerNameNotUtf8 cursor)
  | some s =>
    let cursor := cursor + name.length
    let valueType ← bytesAt slice cursor 1
    let (value, cursor) ← parseValue slice (cursor + 1) (UInt8.ofNat (fromBe valueType))
    return ((s.toLower, value), cursor)

/-- The headers from a cursor on after those already read, for so many rounds. -/
def parseHeadersFrom (slice : Bytes) : ℕ → ℕ → Headers → Except ParseError Headers
  | 0, _, out => .ok out
  | rounds + 1, cursor, out =>
    if cursor < slice.length then do
      let ((name, value), cursor) ← parseHeader slice cursor
      parseHeadersFrom slice rounds cursor (insertHeader out name value)
    else .ok out

def parseHeaders (slice : Bytes) : Except ParseError Headers :=
  parseHeadersFrom slice slice.length 0 []

/-! ### Messages -/

inductive CrcValidation where
  | yes | no
  deriving DecidableEq

structure EventStreamParser where
  buf : Bytes
  crcValidation : CrcValidation
  maxMessageBytes : ℕ
  deriving DecidableEq

/-- The three numbers of a prelude. -/
def totalLength (buf : Bytes) : ℕ := fromBe (buf.take 4)
def headersLength (buf : Bytes) : ℕ := fromBe ((buf.drop 4).take 4)
def preludeCrcExpected (buf : Bytes) : UInt32 := UInt32.ofNat (fromBe ((buf.drop 8).take 4))

/-- The checksum behind a message. -/
def messageCrcExpected (buf : Bytes) : UInt32 :=
  UInt32.ofNat (fromBe ((buf.drop (totalLength buf - MESSAGE_CRC_LEN)).take 4))

/-- The checks before a message is taken off the buffer: nothing yet, or the length of a complete
message. -/
def messageAhead (crc : Bytes → UInt32) (p : EventStreamParser) : Except ParseError (Option ℕ) :=
  if p.buf.length < PRELUDE_LEN then .ok none
  else if totalLength p.buf < PRELUDE_LEN + headersLength p.buf + MESSAGE_CRC_LEN then
    .error (.implausiblePreludeLengths (totalLength p.buf) (headersLength p.buf))
  else if p.maxMessageBytes < totalLength p.buf then
    .error (.messageTooLarge (totalLength p.buf) p.maxMessageBytes)
  else if p.crcValidation = .yes ∧ crc (p.buf.take 8) ≠ preludeCrcExpected p.buf then
    .error (.preludeCrcMismatch (preludeCrcExpected p.buf) (crc (p.buf.take 8)))
  else if p.buf.length < totalLength p.buf then .ok none
  else if p.crcValidation = .yes ∧
      crc (p.buf.take (totalLength p.buf - MESSAGE_CRC_LEN)) ≠ messageCrcExpected p.buf then
    .error (.messageCrcMismatch (messageCrcExpected p.buf)
      (crc (p.buf.take (totalLength p.buf - MESSAGE_CRC_LEN))))
  else .ok (some (totalLength p.buf))

/-- The message of its bytes. -/
def readMessage (messageBytes : Bytes) : Except ParseError EventStreamMessage := do
  let headersEnd := PRELUDE_LEN + headersLength messageBytes
  let payloadEnd := totalLength messageBytes - MESSAGE_CRC_LEN
  let headers ← parseHeaders ((messageBytes.drop PRELUDE_LEN).take (headersLength messageBytes))
  return ⟨headers, (messageBytes.drop headersEnd).take (payloadEnd - headersEnd)⟩

namespace EventStreamParser

def new : EventStreamParser := ⟨[], .yes, DEFAULT_MAX_MESSAGE_BYTES⟩

def push (p : EventStreamParser) (chunk : Bytes) : EventStreamParser := { p with buf := p.buf ++ chunk }

def nextMessage (crc : Bytes → UInt32) (p : EventStreamParser) :
    Except ParseError (Option EventStreamMessage) × EventStreamParser :=
  match messageAhead crc p with
  | .error e => (.error e, p)
  | .ok none => (.ok none, p)
  | .ok (some total) => ((readMessage (p.buf.take total)).map some, { p with buf := p.buf.drop total })

/-- One call, with the bytes that a call of `nextMessage` takes off the buffer and its result, if it
has one. -/
def call (crc : Bytes → UInt32) (p : EventStreamParser) :
    Call UInt8 → Option (Bytes × Except ParseError EventStreamMessage) × EventStreamParser
  | .push chunk => (none, p.push chunk)
  | .pull =>
    let (result, after) := p.nextMessage crc
    let taken := p.buf.take (p.buf.length - after.buf.length)
    match result with
    | .ok none => (none, after)
    | .ok (some message) => (some (taken, .ok message), after)
    | .error e => (some (taken, .error e), after)

/-- The results of calls in any order. -/
def run (crc : Bytes → UInt32) (p : EventStreamParser) :
    List (Call UInt8) → List (Bytes × Except ParseError EventStreamMessage) × EventStreamParser
  | [] => ([], p)
  | c :: calls =>
    ((p.call crc c).1.toList ++ (run crc (p.call crc c).2 calls).1, (run crc (p.call crc c).2 calls).2)

end EventStreamParser

/-! ### The builder -/

structure MessageBuilder where
  headers : Headers
  payload : Bytes
  deriving DecidableEq

/-- The type of a value, and its bytes. -/
def HeaderValue.encoded : HeaderValue → UInt8 × Bytes
  | .string value => (HeaderType.STRING, utf8 value)
  | .bytes value => (HeaderType.BYTE_ARRAY, value)

/-- The bytes of a header. Its lengths are cut to what their fields hold. -/
def headerBytes (header : String × HeaderValue) : Bytes :=
  [UInt8.ofNat (utf8 header.1).length] ++ utf8 header.1 ++ [header.2.encoded.1] ++
    toBe 2 header.2.encoded.2.length ++ header.2.encoded.2

/-- The bytes of the headers. -/
def headersBytes (headers : Headers) : Bytes := headers.flatMap headerBytes

/-- The bytes of a message; a name of more than 255 bytes fails an assertion. -/
def MessageBuilder.build (crc : Bytes → UInt32) (b : MessageBuilder) : Option Bytes :=
  if b.headers.any fun h => 255 < (utf8 h.1).length then none
  else
    let headers := headersBytes b.headers
    -- the lengths are words of 32 bits
    let total := PRELUDE_LEN + headers.length % 2 ^ 32 + b.payload.length % 2 ^ 32 + MESSAGE_CRC_LEN
    let lengths := toBe 4 total ++ toBe 4 headers.length
    let out := lengths ++ toBe 4 (crc lengths).toNat ++ headers ++ b.payload
    some (out ++ toBe 4 (crc out).toNat)

end Headroom.Bedrock
