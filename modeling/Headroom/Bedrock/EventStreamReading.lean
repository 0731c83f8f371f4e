import Headroom.Bedrock.MessageWire

/-!
# Reading the event stream

The parser is a reader of its buffer: what it says about the next message does not change when more
bytes arrive. So the messages up to the first error do not depend on the chunks, and the messages of
the builder are read back.

## Main results

* `eventStream_messages` : the messages do not depend on the chunks, and invert the builder.
-/

open Foundation
open FrameRule (Call arrived)

namespace Headroom.Bedrock

variable {crc : Bytes → UInt32} {p : EventStreamParser} {buf : Bytes} {n : ℕ}

theorem messageAhead_some (h : messageAhead crc p = .ok (some n)) :
    n = totalLength p.buf ∧ PRELUDE_LEN + headersLength p.buf + MESSAGE_CRC_LEN ≤ n ∧
      n ≤ p.buf.length := by
  unfold messageAhead at h
  split_ifs at h with hprelude hroom hlarge hcrc hwhole hcrc'
  · exact absurd (Except.ok.inj h) nofun
  · exact absurd (Except.ok.inj h) nofun
  · obtain rfl := Option.some.inj (Except.ok.inj h)
    exact ⟨rfl, not_lt.mp hroom, not_lt.mp hwhole⟩

theorem totalLength_append (m : Bytes) (h : PRELUDE_LEN ≤ buf.length) :
    totalLength (buf ++ m) = totalLength buf := by
  have : 4 ≤ buf.length := by unfold PRELUDE_LEN at h; omega
  rw [totalLength, totalLength, List.take_append_of_le_length this]

/-- A field of the prelude does not change when more bytes arrive. -/
theorem take_drop_append {i k : ℕ} (m : Bytes) (h : i + k ≤ buf.length) :
    ((buf ++ m).drop i).take k = (buf.drop i).take k := by
  rw [List.drop_append_of_le_length (by omega), List.take_append_of_le_length]
  rw [List.length_drop]
  omega

theorem messageAhead_append (m : Bytes) (h : messageAhead crc p ≠ .ok none) :
    messageAhead crc { p with buf := p.buf ++ m } = messageAhead crc p := by
  by_cases hlen : p.buf.length < PRELUDE_LEN
  · exact absurd (by rw [messageAhead, if_pos hlen]) h
  have hprelude : 12 ≤ p.buf.length := not_lt.mp hlen
  have htotal : totalLength (p.buf ++ m) = totalLength p.buf := totalLength_append m (not_lt.mp hlen)
  have hheaders : headersLength (p.buf ++ m) = headersLength p.buf := by
    rw [headersLength, headersLength, take_drop_append m (by omega)]
  have hcrc : preludeCrcExpected (p.buf ++ m) = preludeCrcExpected p.buf := by
    rw [preludeCrcExpected, preludeCrcExpected, take_drop_append m (by omega)]
  have htake : (p.buf ++ m).take 8 = p.buf.take 8 := List.take_append_of_le_length (by omega)
  have hlonger : ¬ (p.buf ++ m).length < PRELUDE_LEN := by
    rw [List.length_append]
    omega
  unfold messageAhead at h ⊢
  simp only [htotal, hheaders, hcrc, htake, if_neg hlonger, if_neg hlen] at h ⊢
  by_cases hroom : totalLength p.buf < PRELUDE_LEN + headersLength p.buf + MESSAGE_CRC_LEN
  · simp only [if_pos hroom]
  simp only [if_neg hroom] at h ⊢
  refine if_ctx_congr Iff.rfl (fun _ => rfl) fun hlarge => ?_
  simp only [if_neg hlarge] at h
  refine if_ctx_congr Iff.rfl (fun _ => rfl) fun hprelude => ?_
  simp only [if_neg hprelude] at h
  by_cases hwhole : p.buf.length < totalLength p.buf
  · exact absurd (by rw [if_pos hwhole]) h
  have hwhole' : ¬ (p.buf ++ m).length < totalLength p.buf := by
    rw [List.length_append]
    omega
  have hbehind : messageCrcExpected (p.buf ++ m) = messageCrcExpected p.buf := by
    have hcrcLen : MESSAGE_CRC_LEN = 4 := rfl
    rw [messageCrcExpected, messageCrcExpected, htotal, take_drop_append m (by omega)]
  simp only [if_neg hwhole, if_neg hwhole', hbehind]
  rw [List.take_append_of_le_length (by omega)]

/-- The parser as a reader of its buffer. -/
def messageReader (crc : Bytes → UInt32) (crcValidation : CrcValidation) (maxMessageBytes : ℕ) :
    Reader UInt8 EventStreamMessage ParseError where
  next buf :=
    match messageAhead crc ⟨buf, crcValidation, maxMessageBytes⟩ with
    | .error e => some (.error e, 0)
    | .ok none => none
    | .ok (some total) => some (readMessage (buf.take total), total)
  pos := by
    intro l b n h
    split at h
    · exact absurd (Option.some.inj h) nofun
    · exact absurd h nofun
    · rename_i total hahead
      have hspec := messageAhead_some hahead
      have hprelude : PRELUDE_LEN = 12 := rfl
      rw [← (Prod.mk.inj (Option.some.inj h)).2]
      omega
  le_length := by
    intro l r n h
    split at h
    · rw [← (Prod.mk.inj (Option.some.inj h)).2]
      exact Nat.zero_le _
    · exact absurd h nofun
    · rename_i total hahead
      rw [← (Prod.mk.inj (Option.some.inj h)).2]
      exact (messageAhead_some hahead).2.2
  append := by
    intro l r m h
    have hstands : messageAhead crc ⟨l, crcValidation, maxMessageBytes⟩ ≠ .ok none := by
      intro hnone
      rw [hnone] at h
      exact absurd h nofun
    have happend := messageAhead_append m hstands
    split at h
    · rename_i e hahead
      simp only [happend, hahead, h]
    · exact absurd h nofun
    · rename_i total hahead
      have hle := (messageAhead_some hahead).2.2
      simp only [happend, hahead, List.take_append_of_le_length hle, h]

/-- The reader of a parser. -/
def EventStreamParser.reader (crc : Bytes → UInt32) (p : EventStreamParser) :
    Reader UInt8 EventStreamMessage ParseError :=
  messageReader crc p.crcValidation p.maxMessageBytes

theorem next_reader (crc : Bytes → UInt32) (p : EventStreamParser) (buf : Bytes) :
    (p.reader crc).next buf =
      match messageAhead crc { p with buf := buf } with
      | .error e => some (.error e, 0)
      | .ok none => none
      | .ok (some total) => some (readMessage (buf.take total), total) := rfl

theorem call_eq (crc : Bytes → UInt32) (p : EventStreamParser) (c : Call UInt8) :
    p.call crc c = (((p.reader crc).call p.buf c).1, { p with buf := ((p.reader crc).call p.buf c).2 }) := by
  cases c with
  | push chunk => rfl
  | pull =>
    rw [EventStreamParser.call, EventStreamParser.nextMessage, Reader.call, next_reader]
    rcases hahead : messageAhead crc p with e | _ | total
    · simp
    · rfl
    · have hle := (messageAhead_some hahead).2.2
      have htaken : p.buf.length - (p.buf.drop total).length = total := by
        rw [List.length_drop]
        omega
      rcases hread : readMessage (p.buf.take total) with e | message <;>
        simp only [hread, Except.map, htaken]

/-- A run of the parser is a run of its reader. -/
theorem run_eq (crc : Bytes → UInt32) (p : EventStreamParser) (calls : List (Call UInt8)) :
    p.run crc calls =
      (((p.reader crc).run p.buf calls).1, { p with buf := ((p.reader crc).run p.buf calls).2 }) := by
  induction calls generalizing p with
  | nil => rfl
  | cons c calls ih =>
    rw [EventStreamParser.run, ih, call_eq, Reader.run]
    rfl

theorem length_of_next {message : EventStreamMessage}
    (h : (p.reader crc).next buf = some (.ok message, n)) :
    (buf.take n).length = totalLength (buf.take n) := by
  rw [next_reader] at h
  split at h
  · exact absurd (Option.some.inj h) nofun
  · exact absurd h nofun
  · rename_i total hahead
    obtain ⟨htotal, hroom, hle⟩ := messageAhead_some hahead
    obtain rfl := (Prod.mk.inj (Option.some.inj h)).2
    have hprelude : PRELUDE_LEN = 12 := rfl
    rw [totalLength, List.take_take, min_eq_left (by omega), List.length_take, min_eq_left hle]
    exact htotal

/-! ### The rounds of the header loop -/

theorem bind_eq_ok {ε α β : Type} {x : Except ε α} {f : α → Except ε β} {b : β} (h : x >>= f = .ok b) :
    ∃ a, x = .ok a ∧ f a = .ok b := by
  cases x with
  | error e => exact absurd h nofun
  | ok a => exact ⟨a, rfl, h⟩

theorem start_of_sizedBytesAt {slice value : Bytes} {cursor start : ℕ}
    (h : sizedBytesAt slice cursor = .ok (start, value)) : start = cursor + 2 := by
  obtain ⟨valueLen, -, h⟩ := bind_eq_ok h
  obtain ⟨bytes, -, h⟩ := bind_eq_ok h
  exact (Prod.mk.inj (Except.ok.inj h)).1.symm

theorem le_of_parseValue {slice : Bytes} {cursor cursor' : ℕ} {valueType : UInt8} {value : HeaderValue}
    (h : parseValue slice cursor valueType = .ok (value, cursor')) : cursor ≤ cursor' := by
  unfold parseValue at h
  split_ifs at h
  · obtain ⟨⟨start, bytes⟩, hsized, h⟩ := bind_eq_ok h
    have := start_of_sizedBytesAt hsized
    dsimp only at h
    split at h
    · have := (Prod.mk.inj (Except.ok.inj h)).2
      omega
    · exact absurd h nofun
  · obtain ⟨⟨start, bytes⟩, hsized, h⟩ := bind_eq_ok h
    have := start_of_sizedBytesAt hsized
    have := (Prod.mk.inj (Except.ok.inj h)).2
    omega
  · exact le_of_eq (Prod.mk.inj (Except.ok.inj h)).2
  · exact le_of_eq (Prod.mk.inj (Except.ok.inj h)).2
  · split at h
    · obtain ⟨bytes, -, h⟩ := bind_eq_ok h
      have := (Prod.mk.inj (Except.ok.inj h)).2
      omega
    · exact absurd h nofun

theorem lt_of_parseHeader {slice : Bytes} {cursor cursor' : ℕ} {header : String × HeaderValue}
    (h : parseHeader slice cursor = .ok (header, cursor')) : cursor < cursor' := by
  obtain ⟨nameLen, -, h⟩ := bind_eq_ok h
  obtain ⟨name, -, h⟩ := bind_eq_ok h
  dsimp only at h
  split at h
  · exact absurd h nofun
  · obtain ⟨valueType, -, h⟩ := bind_eq_ok h
    obtain ⟨⟨value, after⟩, hvalue, h⟩ := bind_eq_ok h
    have hle := le_of_parseValue hvalue
    have := (Prod.mk.inj (Except.ok.inj h)).2
    omega

/-! ### The messages of the builder -/

theorem bytesAt_append (before value after : Bytes) :
    bytesAt (before ++ value ++ after) before.length value.length = .ok value := by
  rw [bytesAt, if_neg (by simp), List.append_assoc, List.drop_left, List.take_left]

theorem sizedBytesAt_append (before value after : Bytes) (h : value.length ≤ 65535) :
    sizedBytesAt (before ++ (toBe 2 value.length ++ value) ++ after) before.length =
      .ok (before.length + 2, value) := by
  have hlen : bytesAt (before ++ (toBe 2 value.length ++ value) ++ after) before.length 2 =
      .ok (toBe 2 value.length) := by
    have := bytesAt_append before (toBe 2 value.length) (value ++ after)
    simpa [List.append_assoc] using this
  have hvalue : bytesAt (before ++ (toBe 2 value.length ++ value) ++ after) (before.length + 2)
      value.length = .ok value := by
    have := bytesAt_append (before ++ toBe 2 value.length) value after
    simpa [List.append_assoc] using this
  rw [sizedBytesAt, hlen]
  show (bytesAt _ _ (fromBe (toBe 2 value.length)) >>= _) = _
  rw [fromBe_toBe_of_lt (by omega), hvalue]
  rfl

theorem parseValue_encoded (before after : Bytes) (value : HeaderValue)
    (h : value.encoded.2.length ≤ 65535) :
    parseValue (before ++ (toBe 2 value.encoded.2.length ++ value.encoded.2) ++ after) before.length
        value.encoded.1 =
      .ok (value, before.length + 2 + value.encoded.2.length) := by
  have hsized := sizedBytesAt_append before value.encoded.2 after h
  cases value with
  | string s =>
    rw [parseValue, HeaderValue.encoded, if_pos rfl]
    rw [HeaderValue.encoded] at hsized
    rw [hsized]
    dsimp only [bind, Except.bind]
    rw [fromUtf8?_utf8]
    rfl
  | bytes value =>
    rw [parseValue, HeaderValue.encoded, if_neg (show ¬ HeaderType.BYTE_ARRAY = HeaderType.STRING by decide), if_pos rfl]
    rw [HeaderValue.encoded] at hsized
    rw [hsized]
    rfl

/-- What the builder takes for a header: a lower-case name of at most 255 bytes, and a value of at
most 65535 bytes. -/
structure HeaderFits (header : String × HeaderValue) : Prop where
  lower : header.1.toLower = header.1
  name : (utf8 header.1).length ≤ 255
  value : header.2.encoded.2.length ≤ 65535

theorem parseHeader_headerBytes (before after : Bytes) {header : String × HeaderValue}
    (h : HeaderFits header) :
    parseHeader (before ++ headerBytes header ++ after) before.length =
      .ok (header, before.length + (headerBytes header).length) := by
  obtain ⟨name, value⟩ := header
  obtain ⟨hlower, hname, hvalue⟩ := h
  dsimp only at hlower hname hvalue
  have hslice : before ++ headerBytes (name, value) ++ after =
      before ++ [UInt8.ofNat (utf8 name).length] ++ (utf8 name ++ ([value.encoded.1] ++
        (toBe 2 value.encoded.2.length ++ value.encoded.2) ++ after)) := by
    simp [headerBytes]
  have hnameLen := bytesAt_append before [UInt8.ofNat (utf8 name).length]
    (utf8 name ++ ([value.encoded.1] ++ (toBe 2 value.encoded.2.length ++ value.encoded.2) ++ after))
  have hnameBytes := bytesAt_append (before ++ [UInt8.ofNat (utf8 name).length]) (utf8 name)
    ([value.encoded.1] ++ (toBe 2 value.encoded.2.length ++ value.encoded.2) ++ after)
  have htype := bytesAt_append (before ++ [UInt8.ofNat (utf8 name).length] ++ utf8 name)
    [value.encoded.1] (toBe 2 value.encoded.2.length ++ value.encoded.2 ++ after)
  have hparsed := parseValue_encoded
    (before ++ [UInt8.ofNat (utf8 name).length] ++ utf8 name ++ [value.encoded.1]) after value hvalue
  simp only [List.length_append, List.length_cons, List.length_nil, Nat.zero_add]
    at hnameLen hnameBytes htype hparsed
  simp only [List.append_assoc] at hnameLen hnameBytes htype hparsed
  rw [hslice, parseHeader]
  simp only [List.append_assoc]
  rw [hnameLen]
  show (bytesAt _ _ (fromBe [UInt8.ofNat (utf8 name).length]) >>= _) = _
  have hfrom : fromBe [UInt8.ofNat (utf8 name).length] = (utf8 name).length := by
    rw [fromBe_singleton, UInt8.toNat_ofNat_of_lt' (show _ < 256 by omega)]
  rw [hfrom, hnameBytes]
  dsimp only [bind, Except.bind]
  rw [fromUtf8?_utf8]
  dsimp only
  rw [htype]
  show (parseValue _ _ (UInt8.ofNat (fromBe [value.encoded.1])) >>= _) = _
  rw [fromBe_singleton, UInt8.ofNat_toNat, hparsed]
  show Except.ok ((name.toLower, value), _) = _
  have hlen : (headerBytes (name, value)).length =
      1 + (utf8 name).length + 1 + 2 + value.encoded.2.length := by
    simp [headerBytes]
    omega
  rw [hlower, hlen]
  simp only [Nat.add_assoc]

theorem insertHeader_of_notMem {headers : Headers} {name : String} (h : name ∉ headers.map Prod.fst)
    (value : HeaderValue) : insertHeader headers name value = headers ++ [(name, value)] := by
  rw [insertHeader, if_neg h]

theorem length_headerBytes_pos (header : String × HeaderValue) : 0 < (headerBytes header).length := by
  simp [headerBytes]

theorem parseHeadersFrom_headersBytes (before : Bytes) {headers out : Headers} {rounds : ℕ}
    (hfits : ∀ h ∈ headers, HeaderFits h) (hnames : ((out ++ headers).map Prod.fst).Nodup)
    (hrounds : headers.length ≤ rounds) :
    parseHeadersFrom (before ++ headersBytes headers) rounds before.length out =
      .ok (out ++ headers) := by
  induction headers generalizing before out rounds with
  | nil =>
    rw [List.append_nil, headersBytes, List.flatMap_nil, List.append_nil]
    cases rounds with
    | zero => rfl
    | succ rounds => rw [parseHeadersFrom, if_neg (Nat.lt_irrefl _)]
  | cons header headers ih =>
    obtain ⟨rounds, rfl⟩ : ∃ k, rounds = k + 1 := ⟨rounds - 1, by rw [List.length_cons] at hrounds; omega⟩
    have hslice : before ++ headersBytes (header :: headers) =
        before ++ headerBytes header ++ headersBytes headers := by
      rw [headersBytes, List.flatMap_cons, List.append_assoc]
      rfl
    have hpos := length_headerBytes_pos header
    have hlt : before.length < (before ++ headerBytes header ++ headersBytes headers).length := by
      rw [List.length_append, List.length_append]
      omega
    have hnew : header.1 ∉ out.map Prod.fst := by
      intro hmem
      rw [List.map_append, List.map_cons] at hnames
      exact (List.nodup_append.mp hnames).2.2 _ hmem _ List.mem_cons_self rfl
    rw [hslice, parseHeadersFrom, if_pos hlt,
      parseHeader_headerBytes before _ (hfits header List.mem_cons_self)]
    show parseHeadersFrom _ rounds _ (insertHeader out header.1 header.2) = _
    rw [insertHeader_of_notMem hnew, ← List.length_append,
      ih (before ++ headerBytes header) (fun h hmem => hfits h (List.mem_cons_of_mem _ hmem))
        (by simpa using hnames) (Nat.le_of_succ_le_succ hrounds), List.append_assoc]
    rfl

theorem length_le_length_headersBytes (headers : Headers) :
    headers.length ≤ (headersBytes headers).length := by
  induction headers with
  | nil => exact Nat.zero_le _
  | cons header headers ih =>
    have hpos := length_headerBytes_pos header
    rw [headersBytes, List.flatMap_cons, List.length_append, List.length_cons]
    change _ ≤ (headerBytes header).length + (headersBytes headers).length
    omega

theorem parseHeaders_headersBytes {headers : Headers} (hfits : ∀ h ∈ headers, HeaderFits h)
    (hnames : (headers.map Prod.fst).Nodup) : parseHeaders (headersBytes headers) = .ok headers := by
  have hread : parseHeadersFrom ([] ++ headersBytes headers) (headersBytes headers).length 0 [] =
      .ok ([] ++ headers) :=
    parseHeadersFrom_headersBytes [] hfits hnames (length_le_length_headersBytes headers)
  rw [List.nil_append, List.nil_append] at hread
  exact hread

namespace MessageBuilder

/-- Lower-case distinct names and values that their length fields can hold. -/
structure WellFormed (b : MessageBuilder) : Prop where
  fits : ∀ h ∈ b.headers, HeaderFits h
  nodup : (b.headers.map Prod.fst).Nodup

/-- The length of the message in bytes. -/
def encodedLength (b : MessageBuilder) : ℕ :=
  PRELUDE_LEN + (headersBytes b.headers).length + b.payload.length + MESSAGE_CRC_LEN

/-- The message that the builder describes. -/
def message (b : MessageBuilder) : EventStreamMessage := ⟨b.headers, b.payload⟩

end MessageBuilder

namespace MessageBuilder

/-- The two length fields. -/
def lengths (b : MessageBuilder) : Bytes := toBe 4 b.encodedLength ++ toBe 4 (headersBytes b.headers).length

/-- Everything before the checksum behind the message. -/
def body (crc : Bytes → UInt32) (b : MessageBuilder) : Bytes :=
  b.lengths ++ toBe 4 (crc b.lengths).toNat ++ headersBytes b.headers ++ b.payload

/-- The bytes of a message whose lengths fit their fields. -/
def encoded (crc : Bytes → UInt32) (b : MessageBuilder) : Bytes :=
  b.body crc ++ toBe 4 (crc (b.body crc)).toNat

variable {b : MessageBuilder}

theorem build_eq (hfits : ∀ h ∈ b.headers, HeaderFits h) (hlen : b.encodedLength < 2 ^ 32) :
    b.build crc = some (b.encoded crc) := by
  have hnames : ¬ b.headers.any (fun h => 255 < (utf8 h.1).length) = true := by
    rw [List.any_eq_true]
    rintro ⟨h, hmem, hlong⟩
    have := (hfits h hmem).name
    have := of_decide_eq_true hlong
    omega
  have hheaders : (headersBytes b.headers).length % 2 ^ 32 = (headersBytes b.headers).length :=
    Nat.mod_eq_of_lt (by unfold encodedLength at hlen; omega)
  have hpayload : b.payload.length % 2 ^ 32 = b.payload.length :=
    Nat.mod_eq_of_lt (by unfold encodedLength at hlen; omega)
  rw [build, if_neg hnames]
  simp only [hheaders, hpayload]
  rfl

theorem encoded_eq_wire (crc : Bytes → UInt32) (b : MessageBuilder) :
    b.encoded crc = wire crc (headersBytes b.headers) b.payload := rfl

theorem length_encoded (crc : Bytes → UInt32) (b : MessageBuilder) :
    (b.encoded crc).length = b.encodedLength := length_wire crc (headersBytes b.headers) b.payload

theorem messageAhead_encoded (crc : Bytes → UInt32) {crcValidation : CrcValidation} {cap : ℕ}
    (hlen : b.encodedLength < 2 ^ 32) (hcap : b.encodedLength ≤ cap) :
    messageAhead crc ⟨b.encoded crc, crcValidation, cap⟩ = .ok (some b.encodedLength) :=
  messageAhead_wire crc hlen hcap

theorem readMessage_encoded (crc : Bytes → UInt32) (hwf : b.WellFormed) (hlen : b.encodedLength < 2 ^ 32) :
    readMessage (b.encoded crc) = .ok b.message := by
  rw [encoded_eq_wire, readMessage_wire crc hlen, parseHeaders_headersBytes hwf.fits hwf.nodup]
  rfl

/-- The next message of a stream that begins with a message of the builder. -/
theorem next_encoded (crc : Bytes → UInt32) (p : EventStreamParser) (hwf : b.WellFormed) (hlen : b.encodedLength < 2 ^ 32)
    (hcap : b.encodedLength ≤ p.maxMessageBytes) (m : Bytes) :
    (p.reader crc).next (b.encoded crc ++ m) = some (.ok b.message, (b.encoded crc).length) := by
  refine (p.reader crc).append m ?_
  have hwhole : (b.encoded crc).take b.encodedLength = b.encoded crc :=
    List.take_of_length_le (le_of_eq (length_encoded crc b))
  rw [next_reader, messageAhead_encoded crc hlen hcap]
  simp only [hwhole, readMessage_encoded crc hwf hlen, length_encoded]

end MessageBuilder

theorem reading_encoded (crc : Bytes → UInt32) (p : EventStreamParser) {bs : List MessageBuilder}
    (hwf : ∀ b ∈ bs, b.WellFormed) (hlen : ∀ b ∈ bs, b.encodedLength < 2 ^ 32)
    (hcap : ∀ b ∈ bs, b.encodedLength ≤ p.maxMessageBytes) :
    (p.reader crc).reading (bs.flatMap (MessageBuilder.encoded crc)) =
      (bs.map fun b => (b.encoded crc, b.message), none) := by
  induction bs with
  | nil => exact Reader.reading_of_none rfl
  | cons b bs ih =>
    have hnext := MessageBuilder.next_encoded crc p (hwf b List.mem_cons_self) (hlen b List.mem_cons_self)
      (hcap b List.mem_cons_self) (bs.flatMap (MessageBuilder.encoded crc))
    rw [List.flatMap_cons, Reader.reading_of_ok hnext, List.take_left, List.drop_left,
      ih (fun b h => hwf b (List.mem_cons_of_mem _ h)) (fun b h => hlen b (List.mem_cons_of_mem _ h))
        fun b h => hcap b (List.mem_cons_of_mem _ h)]
    rfl

/-! ### Runs -/

/-- Calls, and after them as many reads as there can be messages. -/
def toEnd (calls : List (Call UInt8)) : List (Call UInt8) :=
  calls ++ List.replicate ((arrived calls).length + 1) .pull

/-- The messages that a run returns before its first error, with the bytes each is taken from, and
the error. -/
def EventStreamParser.messages (crc : Bytes → UInt32) (p : EventStreamParser) (calls : List (Call UInt8)) :
    List (Bytes × EventStreamMessage) × Option ParseError :=
  Reader.upToError (p.run crc calls).1

/-- Parsing the concatenated messages of builders returns their headers and payloads and no error. -/
def ReadBack (crc : Bytes → UInt32) (p : EventStreamParser) (bs : List MessageBuilder) : Prop :=
  ∃ parts, bs.mapM (MessageBuilder.build crc) = some parts ∧
    (p.messages crc (toEnd [.push parts.flatten])).1.map Prod.snd = bs.map MessageBuilder.message ∧
    (p.messages crc (toEnd [.push parts.flatten])).2 = none

theorem messages_toEnd (crc : Bytes → UInt32) (hbuf : p.buf = [])
    (calls : List (Call UInt8)) : p.messages crc (toEnd calls) = (p.reader crc).reading (arrived calls) := by
  rw [EventStreamParser.messages, run_eq, hbuf]
  exact Reader.upToError_toEnd calls

theorem arrived_push (stream : Bytes) : arrived [Call.push stream] = stream := by
  simp [arrived, Call.part]

theorem mapM_build {bs : List MessageBuilder} (hfits : ∀ b ∈ bs, ∀ h ∈ b.headers, HeaderFits h)
    (hlen : ∀ b ∈ bs, b.encodedLength < 2 ^ 32) :
    bs.mapM (MessageBuilder.build crc) = some (bs.map (MessageBuilder.encoded crc)) := by
  induction bs with
  | nil => rfl
  | cons b bs ih =>
    rw [List.mapM_cons, MessageBuilder.build_eq (hfits b List.mem_cons_self) (hlen b List.mem_cons_self),
      ih (fun b h => hfits b (List.mem_cons_of_mem _ h)) fun b h => hlen b (List.mem_cons_of_mem _ h)]
    rfl

/-- The messages up to the first error are those of the stream pushed whole, whatever the chunks and
the order of the calls; a run that stops earlier returns the first of them. Each message takes as many
bytes off the front as its prelude says, and what was taken and what is buffered are the stream. The
messages of builders that fit the cap and the length fields are read back. -/
theorem eventStream_messages (crc : Bytes → UInt32) (crcValidation : CrcValidation) (cap : ℕ) :
    let p : EventStreamParser := ⟨[], crcValidation, cap⟩
    (∀ calls, p.messages crc (toEnd calls) = p.messages crc (toEnd [.push (arrived calls)]) ∧
      ∃ later, p.messages crc (toEnd [.push (arrived calls)]) =
        Reader.continued (p.messages crc calls) later) ∧
    (∀ calls, ((p.run crc calls).1.map Prod.fst).flatten ++ (p.run crc calls).2.buf = arrived calls ∧
      ∀ part message, (part, .ok message) ∈ (p.run crc calls).1 → part.length = totalLength part) ∧
    ∀ bs : List MessageBuilder,
      (∀ b ∈ bs, b.WellFormed ∧ b.encodedLength ≤ cap ∧ b.encodedLength < 2 ^ 32) → ReadBack crc p bs := by
  refine ⟨fun calls => ⟨?_, ?_⟩, fun calls => ⟨?_, ?_⟩, fun bs hbs => ?_⟩
  · rw [messages_toEnd crc rfl, messages_toEnd crc rfl, arrived_push]
  · rw [messages_toEnd crc rfl, arrived_push, EventStreamParser.messages, run_eq]
    exact ⟨_, Reader.reading_run [] calls⟩
  · rw [run_eq]
    exact Reader.flatten_run [] calls
  · rw [run_eq]
    exact Reader.forall_run (fun h => length_of_next h) [] calls
  · refine ⟨_, mapM_build (fun b hb => (hbs b hb).1.fits) fun b hb => (hbs b hb).2.2, ?_⟩
    have hread := reading_encoded crc ⟨[], crcValidation, cap⟩ (fun b hb => (hbs b hb).1)
      (fun b hb => (hbs b hb).2.2) fun b hb => (hbs b hb).2.1
    rw [messages_toEnd crc rfl, arrived_push, ← List.flatMap_def, hread, List.map_map]
    exact ⟨rfl, rfl⟩

/-- A chunk message of Bedrock. -/
def chunkMessage : MessageBuilder where
  headers := [(":event-type", .string "chunk"), (":message-type", .string "event")]
  payload := ascii "payload"

/-- Two messages are read back. -/
theorem readBack_chunkMessages :
    ReadBack (fun bytes => UInt32.ofNat bytes.length) ⟨[], .yes, DEFAULT_MAX_MESSAGE_BYTES⟩
      [chunkMessage, chunkMessage] := by
  refine (eventStream_messages _ .yes DEFAULT_MAX_MESSAGE_BYTES).2.2 _ fun b hb => ?_
  obtain rfl : b = chunkMessage := by simpa using hb
  refine ⟨⟨fun h hmem => ?_, by decide⟩, by decide +kernel, by decide +kernel⟩
  rw [chunkMessage, List.mem_cons, List.mem_singleton] at hmem
  rcases hmem with rfl | rfl
  · exact ⟨by decide +kernel, by decide +kernel, by decide +kernel⟩
  · exact ⟨by decide +kernel, by decide +kernel, by decide +kernel⟩

/-- A message with a payload of zeros and nothing else. -/
def zeroMessage (n : ℕ) : MessageBuilder := ⟨[], List.replicate n 0⟩

theorem encodedLength_zeroMessage (n : ℕ) : (zeroMessage n).encodedLength = 16 + n := by
  rw [MessageBuilder.encodedLength, zeroMessage, List.length_replicate]
  show 12 + 0 + n + 4 = _
  omega

theorem build_zeroMessage (h : n % 2 ^ 32 = 0) :
    (zeroMessage n).build (fun _ => 0) =
      some (toBe 4 16 ++ toBe 4 0 ++ toBe 4 0 ++ List.replicate n 0 ++ toBe 4 0) := by
  have hnames : ¬ (([] : Headers).any fun h => 255 < (utf8 h.1).length) = true := by decide
  rw [MessageBuilder.build, zeroMessage, if_neg hnames]
  simp only [List.length_replicate, h]
  rfl

theorem not_readBack_zeroMessage {cap : ℕ} (hn : 4 ≤ n) (h : n % 2 ^ 32 = 0) (hcap : 16 ≤ cap) :
    ¬ ReadBack (fun _ => 0) ⟨[], .yes, cap⟩ [zeroMessage n] := by
  rintro ⟨parts, hparts, hmessages, -⟩
  obtain ⟨k, rfl⟩ : ∃ k, n = 4 + k := ⟨n - 4, by omega⟩
  -- the stream begins with the message that has no payload
  have hstream : parts.flatten = (zeroMessage 0).encoded (fun _ => 0) ++ (List.replicate k 0 ++ toBe 4 0) := by
    rw [List.mapM_cons, build_zeroMessage h, List.replicate_add] at hparts
    rw [← Option.some.inj hparts]
    show _ = toBe 4 16 ++ toBe 4 0 ++ toBe 4 0 ++ [] ++ [] ++ toBe 4 0 ++ _
    simp only [List.flatten_cons, List.append_nil, List.append_assoc]
    rfl
  have hempty : (zeroMessage 0).encodedLength = 16 := encodedLength_zeroMessage 0
  have hnext := MessageBuilder.next_encoded (fun _ => 0) ⟨[], .yes, cap⟩
    (⟨fun _ h => absurd h List.not_mem_nil, List.nodup_nil⟩ : (zeroMessage 0).WellFormed)
    (by rw [hempty]; decide) (by rw [hempty]; exact hcap) (List.replicate k 0 ++ toBe 4 0)
  rw [messages_toEnd _ rfl, arrived_push, hstream, Reader.reading_of_ok hnext] at hmessages
  have hpayload : ([] : Bytes) = List.replicate (4 + k) 0 :=
    congrArg EventStreamMessage.payload (List.cons.inj hmessages).1
  have hlength := congrArg List.length hpayload
  rw [List.length_replicate, List.length_nil] at hlength
  omega

/-- A message whose length does not fit its field is not read back, although the cap allows it. -/
theorem not_readBack_long :
    ¬ ∀ (crc : Bytes → UInt32) (crcValidation : CrcValidation) (cap : ℕ) (bs : List MessageBuilder),
      (∀ b ∈ bs, b.WellFormed ∧ b.encodedLength ≤ cap) → ReadBack crc ⟨[], crcValidation, cap⟩ bs := by
  intro h
  refine not_readBack_zeroMessage (n := 2 ^ 32) (by decide) (by decide) (by decide)
    (h (fun _ => 0) .yes (2 ^ 33) [zeroMessage (2 ^ 32)] fun b hb => ?_)
  obtain rfl := List.mem_singleton.mp hb
  refine ⟨⟨fun _ h => absurd h List.not_mem_nil, List.nodup_nil⟩, ?_⟩
  rw [encodedLength_zeroMessage]
  decide

end Headroom.Bedrock
