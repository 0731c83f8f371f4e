import Headroom.Bedrock.EventStreamReading

/-!
# The grammar of the event stream

What a well-formed message is, apart from any parser: headers of ten types of values, a payload, and the
lengths and checksums around them. The one-shot parser accepts the bytes that such a message stands in
front of.
-/

open Foundation

namespace Headroom.Bedrock

/-! ### The grammar -/

/-- The bytes of a value of a type, and what they stand for. -/
inductive ValueWire : UInt8 → Bytes → HeaderValue → Prop
  | true : ValueWire HeaderType.TRUE [] (.bytes [1])
  | false : ValueWire HeaderType.FALSE [] (.bytes [0])
  | fixed {valueType : UInt8} (value : Bytes) (h : fixedLength? valueType = some value.length) :
      ValueWire valueType value (.bytes value)
  | byteArray (value : Bytes) (h : value.length < 2 ^ 16) :
      ValueWire HeaderType.BYTE_ARRAY (toBe 2 value.length ++ value) (.bytes value)
  | string (value : String) (h : (utf8 value).length < 2 ^ 16) :
      ValueWire HeaderType.STRING (toBe 2 (utf8 value).length ++ utf8 value) (.string value)

/-- The bytes of a header; its name is read in lower case. -/
inductive HeaderWire : Bytes → String × HeaderValue → Prop
  | mk {name : String} {valueType : UInt8} {bytes : Bytes} {value : HeaderValue}
      (hname : (utf8 name).length < 2 ^ 8) (hvalue : ValueWire valueType bytes value) :
      HeaderWire ([UInt8.ofNat (utf8 name).length] ++ utf8 name ++ [valueType] ++ bytes) (name.toLower, value)

/-- The bytes of headers, one after the other. -/
inductive HeaderBlock : Bytes → List (String × HeaderValue) → Prop
  | nil : HeaderBlock [] []
  | cons {bytes rest : Bytes} {header : String × HeaderValue} {headers : List (String × HeaderValue)}
      (head : HeaderWire bytes header) (tail : HeaderBlock rest headers) :
      HeaderBlock (bytes ++ rest) (header :: headers)

/-- The headers as a map: the last value of a name stands. -/
def headerMap (headers : List (String × HeaderValue)) (out : Headers) : Headers :=
  headers.foldl (fun out header => insertHeader out header.1 header.2) out

/-- The bytes of a message. -/
inductive MessageWire (crc : Bytes → UInt32) : Bytes → EventStreamMessage → Prop
  | mk {block payload : Bytes} {headers : List (String × HeaderValue)} (hblock : HeaderBlock block headers)
      (hcap : wireLength block payload ≤ DEFAULT_MAX_MESSAGE_BYTES) :
      MessageWire crc (wire crc block payload) ⟨headerMap headers [], payload⟩

/-! ### The parser -/

/-- The one-shot parser. -/
def parse (crc : Bytes → UInt32) (bytes : Bytes) : Except ParseError EventStreamMessage :=
  match ((EventStreamParser.new.push bytes).nextMessage crc).1 with
  | .error e => .error e
  | .ok (some message) => .ok message
  | .ok none => .error (.implausiblePreludeLengths 0 0)

/-! ### Reading by cursor -/

variable {crc : Bytes → UInt32} {slice : Bytes} {cursor cursor' n : ℕ}

theorem bytesAt_eq_ok {value : Bytes} (hcursor : cursor ≤ slice.length) :
    bytesAt slice cursor n = .ok value ↔ ∃ rest, slice.drop cursor = value ++ rest ∧ value.length = n := by
  have hlen : (slice.drop cursor).length = slice.length - cursor := List.length_drop ..
  rw [bytesAt]
  split_ifs with hshort
  · refine ⟨by simp, ?_⟩
    rintro ⟨rest, hsplit, rfl⟩
    rw [hsplit, List.length_append] at hlen
    omega
  · constructor
    · intro h
      obtain rfl := Except.ok.inj h
      exact ⟨_, (List.take_append_drop n _).symm, by rw [List.length_take]; omega⟩
    · rintro ⟨rest, hsplit, rfl⟩
      rw [hsplit, List.take_left]

variable {bytes : Bytes}

/-- What lies behind bytes that were read. -/
theorem drop_of_split {bytes rest : Bytes} (hcursor : cursor ≤ slice.length)
    (h : slice.drop cursor = bytes ++ rest) :
    slice.drop (cursor + bytes.length) = rest ∧ cursor + bytes.length ≤ slice.length := by
  refine ⟨by rw [← List.drop_drop, h, List.drop_left], ?_⟩
  have hlength := congrArg List.length h
  rw [List.length_drop, List.length_append] at hlength
  omega

/-- A value with its length before it. -/
theorem sizedBytesAt_eq_ok {value : Bytes} {start : ℕ} (hcursor : cursor ≤ slice.length) :
    sizedBytesAt slice cursor = .ok (start, value) ↔
      start = cursor + 2 ∧ value.length < 2 ^ 16 ∧
        ∃ rest, slice.drop cursor = toBe 2 value.length ++ value ++ rest := by
  constructor
  · intro h
    obtain ⟨valueLen, hlen, h⟩ := bind_eq_ok h
    obtain ⟨bytes, hbytes, h⟩ := bind_eq_ok h
    obtain ⟨rfl, rfl⟩ := Prod.mk.inj (Except.ok.inj h)
    obtain ⟨rest, hsplit, htwo⟩ := (bytesAt_eq_ok hcursor).mp hlen
    obtain ⟨hbehind, hle⟩ := drop_of_split hcursor hsplit
    rw [htwo] at hbehind hle
    obtain ⟨rest', hsplit', hvalue⟩ := (bytesAt_eq_ok hle).mp hbytes
    have hbound := fromBe_lt valueLen
    rw [htwo] at hbound
    refine ⟨rfl, by omega, rest', ?_⟩
    have hsame := toBe_fromBe valueLen
    rw [htwo] at hsame
    rw [hsplit, ← hbehind, hsplit', hvalue, hsame, List.append_assoc]
  · rintro ⟨rfl, hbound, rest, hsplit⟩
    rw [List.append_assoc] at hsplit
    have hlen : bytesAt slice cursor 2 = .ok (toBe 2 value.length) :=
      (bytesAt_eq_ok hcursor).mpr ⟨value ++ rest, hsplit, length_toBe ..⟩
    obtain ⟨hbehind, hle⟩ := drop_of_split hcursor hsplit
    rw [length_toBe] at hbehind hle
    have hvalue : bytesAt slice (cursor + 2) (fromBe (toBe 2 value.length)) = .ok value :=
      (bytesAt_eq_ok hle).mpr ⟨rest, hbehind, (fromBe_toBe_of_lt hbound).symm⟩
    rw [sizedBytesAt, hlen]
    show (bytesAt slice (cursor + 2) (fromBe (toBe 2 value.length)) >>= _) = _
    rw [hvalue]
    rfl

theorem fixedLength?_of_sized {valueType : UInt8} (h : fixedLength? valueType = some n) :
    valueType ≠ HeaderType.STRING ∧ valueType ≠ HeaderType.BYTE_ARRAY ∧ valueType ≠ HeaderType.TRUE ∧
      valueType ≠ HeaderType.FALSE := by
  refine ⟨?_, ?_, ?_, ?_⟩
  all_goals
    rintro rfl
    exact absurd h nofun

theorem parseValue_eq_ok {valueType : UInt8} {value : HeaderValue} (hcursor : cursor ≤ slice.length) :
    parseValue slice cursor valueType = .ok (value, cursor') ↔
      ∃ bytes rest, slice.drop cursor = bytes ++ rest ∧ ValueWire valueType bytes value ∧
        cursor' = cursor + bytes.length := by
  constructor
  · intro h
    unfold parseValue at h
    split_ifs at h with hstring hbytes htrue hfalse
    · obtain ⟨⟨start, read⟩, hsized, h⟩ := bind_eq_ok h
      obtain ⟨rfl, hbound, rest, hsplit⟩ := (sizedBytesAt_eq_ok hcursor).mp hsized
      dsimp only at h
      cases hutf8 : fromUtf8? read with
      | none => rw [hutf8] at h; exact absurd h (by simp)
      | some s =>
        rw [hutf8] at h
        obtain ⟨rfl, rfl⟩ := Prod.mk.inj (Except.ok.inj h)
        obtain rfl := eq_utf8_of_fromUtf8? hutf8
        refine ⟨_, rest, hsplit, hstring ▸ .string s hbound, ?_⟩
        rw [List.length_append, length_toBe, Nat.add_assoc]
    · obtain ⟨⟨start, read⟩, hsized, h⟩ := bind_eq_ok h
      obtain ⟨rfl, hbound, rest, hsplit⟩ := (sizedBytesAt_eq_ok hcursor).mp hsized
      obtain ⟨rfl, rfl⟩ := Prod.mk.inj (Except.ok.inj h)
      refine ⟨_, rest, hsplit, hbytes ▸ .byteArray read hbound, ?_⟩
      rw [List.length_append, length_toBe, Nat.add_assoc]
    · obtain ⟨rfl, rfl⟩ := Prod.mk.inj (Except.ok.inj h)
      exact ⟨[], _, rfl, htrue ▸ .true, rfl⟩
    · obtain ⟨rfl, rfl⟩ := Prod.mk.inj (Except.ok.inj h)
      exact ⟨[], _, rfl, hfalse ▸ .false, rfl⟩
    · split at h
      · rename_i n hfixed
        obtain ⟨read, hread, h⟩ := bind_eq_ok h
        obtain ⟨rfl, rfl⟩ := Prod.mk.inj (Except.ok.inj h)
        obtain ⟨rest, hsplit, rfl⟩ := (bytesAt_eq_ok hcursor).mp hread
        exact ⟨read, rest, hsplit, .fixed read hfixed, rfl⟩
      · exact absurd h (by simp)
  · rintro ⟨bytes, rest, hsplit, hvalue, rfl⟩
    unfold parseValue
    cases hvalue with
    | true => rfl
    | false => rfl
    | fixed value hfixed =>
      obtain ⟨hstring, hbytes, htrue, hfalse⟩ := fixedLength?_of_sized hfixed
      rw [if_neg hstring, if_neg hbytes, if_neg htrue, if_neg hfalse, hfixed]
      show (bytesAt slice cursor bytes.length >>= _) = _
      rw [(bytesAt_eq_ok hcursor).mpr ⟨rest, hsplit, rfl⟩]
      rfl
    | byteArray value hbound =>
      rw [if_neg (show HeaderType.BYTE_ARRAY ≠ HeaderType.STRING by decide), if_pos rfl,
        (sizedBytesAt_eq_ok hcursor).mpr ⟨rfl, hbound, rest, hsplit⟩]
      show Except.ok _ = _
      rw [List.length_append, length_toBe, Nat.add_assoc]
    | string value hbound =>
      rw [if_pos rfl, (sizedBytesAt_eq_ok hcursor).mpr ⟨rfl, hbound, rest, hsplit⟩]
      dsimp only [bind, Except.bind]
      rw [fromUtf8?_utf8, List.length_append, length_toBe, ← Nat.add_assoc]
      rfl

theorem eq_singleton_of_fromBe (h : bytes.length = 1) :
    bytes = [UInt8.ofNat (fromBe bytes)] := by
  obtain ⟨b, rfl⟩ := List.length_eq_one_iff.mp h
  rw [fromBe_singleton, UInt8.ofNat_toNat]

theorem parseHeader_eq_ok {header : String × HeaderValue} (hcursor : cursor ≤ slice.length) :
    parseHeader slice cursor = .ok (header, cursor') ↔
      ∃ bytes rest, slice.drop cursor = bytes ++ rest ∧ HeaderWire bytes header ∧
        cursor' = cursor + bytes.length := by
  constructor
  · intro h
    obtain ⟨nameLen, hnameLen, h⟩ := bind_eq_ok h
    obtain ⟨name, hname, h⟩ := bind_eq_ok h
    dsimp only at h
    obtain ⟨rest, hsplit, hone⟩ := (bytesAt_eq_ok hcursor).mp hnameLen
    obtain ⟨hbehind, hle⟩ := drop_of_split hcursor hsplit
    rw [hone] at hbehind hle
    obtain ⟨restName, hsplitName, hlength⟩ := (bytesAt_eq_ok hle).mp hname
    obtain ⟨hbehindName, hleName⟩ := drop_of_split hle hsplitName
    cases hutf8 : fromUtf8? name with
    | none => rw [hutf8] at h; exact absurd h (by simp)
    | some s =>
      rw [hutf8] at h
      obtain ⟨valueType, htype, h⟩ := bind_eq_ok h
      obtain ⟨⟨value, after⟩, hvalue, h⟩ := bind_eq_ok h
      obtain ⟨rfl, rfl⟩ := Prod.mk.inj (Except.ok.inj h)
      obtain rfl := eq_utf8_of_fromUtf8? hutf8
      obtain ⟨restType, hsplitType, honeType⟩ := (bytesAt_eq_ok hleName).mp htype
      obtain ⟨hbehindType, hleType⟩ := drop_of_split hleName hsplitType
      rw [honeType] at hbehindType hleType
      obtain ⟨bytes, restValue, hsplitValue, hwire, rfl⟩ := (parseValue_eq_ok hleType).mp hvalue
      have hbound := fromBe_lt nameLen
      rw [hone, ← hlength] at hbound
      refine ⟨_, restValue, ?_, .mk hbound hwire, ?_⟩
      · rw [hlength, ← eq_singleton_of_fromBe hone, ← eq_singleton_of_fromBe honeType, hsplit, ← hbehind,
          hsplitName, ← hbehindName, hsplitType, ← hbehindType, hsplitValue]
        simp only [List.append_assoc]
      · simp only [List.length_append, List.length_singleton, Nat.add_assoc]
  · rintro ⟨bytes, rest, hsplit, hwire, rfl⟩
    cases hwire with
    | @mk name valueType bytes value hbound hvalue =>
      simp only [List.append_assoc] at hsplit
      obtain ⟨hbehind, hle⟩ := drop_of_split hcursor hsplit
      obtain ⟨hbehindName, hleName⟩ := drop_of_split hle hbehind
      obtain ⟨hbehindType, hleType⟩ := drop_of_split hleName hbehindName
      have hnameLen := (bytesAt_eq_ok hcursor).mpr ⟨_, hsplit, rfl⟩
      have hname := (bytesAt_eq_ok hle).mpr ⟨_, hbehind, rfl⟩
      have htype := (bytesAt_eq_ok hleName).mpr ⟨_, hbehindName, rfl⟩
      have hread := (parseValue_eq_ok hleType).mpr ⟨_, _, hbehindType, hvalue, rfl⟩
      have hfrom : fromBe [UInt8.ofNat (utf8 name).length] = (utf8 name).length := by
        rw [fromBe_singleton, UInt8.toNat_ofNat_of_lt' hbound]
      simp only [List.length_singleton] at hnameLen hname htype hread
      rw [parseHeader, hnameLen]
      show (bytesAt slice (cursor + 1) (fromBe [UInt8.ofNat (utf8 name).length]) >>= _) = _
      rw [hfrom, hname]
      dsimp only [bind, Except.bind]
      rw [fromUtf8?_utf8]
      show (bytesAt slice (cursor + 1 + (utf8 name).length) 1 >>= _) = _
      rw [htype]
      show (parseValue slice _ (UInt8.ofNat (fromBe [valueType])) >>= _) = _
      rw [fromBe_singleton, UInt8.ofNat_toNat, hread]
      show Except.ok _ = _
      simp only [List.length_append, List.length_singleton, Nat.add_assoc]

theorem HeaderWire.ne_nil {header : String × HeaderValue} (h : HeaderWire bytes header) :
    bytes ≠ [] := by
  cases h
  simp

theorem headerBlock_nil_iff {headers : List (String × HeaderValue)} :
    HeaderBlock [] headers ↔ headers = [] := by
  constructor
  · intro h
    generalize hnil : ([] : Bytes) = bytes at h
    cases h with
    | nil => rfl
    | cons head tail => exact absurd (List.append_eq_nil_iff.mp hnil.symm).1 head.ne_nil
  · rintro rfl
    exact .nil

theorem headerBlock_at_end {out result : Headers} (hend : ¬cursor < slice.length) :
    (Except.ok out : Except ParseError Headers) = .ok result ↔
      ∃ headers, HeaderBlock (slice.drop cursor) headers ∧ result = headerMap headers out := by
  rw [List.drop_of_length_le (not_lt.mp hend)]
  simp only [headerBlock_nil_iff, exists_eq_left, Except.ok.injEq]
  exact eq_comm

theorem parseHeadersFrom_eq_ok {rounds : ℕ} {out result : Headers} (hcursor : cursor ≤ slice.length)
    (hrounds : slice.length - cursor ≤ rounds) :
    parseHeadersFrom slice rounds cursor out = .ok result ↔
      ∃ headers, HeaderBlock (slice.drop cursor) headers ∧ result = headerMap headers out := by
  induction rounds generalizing cursor out with
  | zero => exact headerBlock_at_end (by omega)
  | succ rounds ih =>
    rw [parseHeadersFrom]
    split_ifs with hlt
    · constructor
      · intro h
        obtain ⟨⟨⟨name, value⟩, after⟩, hheader, h⟩ := bind_eq_ok h
        have hgrown := lt_of_parseHeader hheader
        obtain ⟨bytes, rest, hsplit, hwire, rfl⟩ := (parseHeader_eq_ok hcursor).mp hheader
        obtain ⟨hbehind, hle⟩ := drop_of_split hcursor hsplit
        obtain ⟨headers, hblock, rfl⟩ := (ih hle (by omega)).mp h
        exact ⟨(name, value) :: headers, hsplit ▸ .cons hwire (hbehind ▸ hblock), rfl⟩
      · rintro ⟨headers, hblock, rfl⟩
        generalize hbytes : slice.drop cursor = bytes at hblock
        cases hblock with
        | nil =>
          have := List.drop_eq_nil_iff.mp hbytes
          omega
        | @cons bytes rest header headers head tail =>
          obtain ⟨hbehind, hle⟩ := drop_of_split hcursor hbytes
          have hheader := (parseHeader_eq_ok hcursor).mpr ⟨bytes, rest, hbytes, head, rfl⟩
          have hgrown := lt_of_parseHeader hheader
          rw [hheader]
          exact (ih hle (by omega)).mpr ⟨headers, hbehind.symm ▸ tail, rfl⟩
    · exact headerBlock_at_end hlt

theorem parseHeaders_eq_ok {result : Headers} :
    parseHeaders slice = .ok result ↔
      ∃ headers, HeaderBlock slice headers ∧ result = headerMap headers [] :=
  parseHeadersFrom_eq_ok (Nat.zero_le _) (by omega)

/-! ### Messages -/

theorem cap_lt : DEFAULT_MAX_MESSAGE_BYTES < 2 ^ 32 := by
  unfold DEFAULT_MAX_MESSAGE_BYTES
  omega

variable {message : EventStreamMessage}

/-- A message is at least as long as its prelude and its checksum, and says how long it is. -/
theorem MessageWire.totalLength (h : MessageWire crc bytes message) :
    totalLength bytes = bytes.length ∧ 16 ≤ bytes.length := by
  cases h with
  | @mk block payload headers hblock hcap =>
    have hlen : wireLength block payload = 12 + block.length + payload.length + 4 := rfl
    rw [length_wire, totalLength_wire crc (hcap.trans_lt cap_lt)]
    exact ⟨rfl, by omega⟩

theorem new_push (bytes : Bytes) :
    EventStreamParser.new.push bytes = ⟨bytes, .yes, DEFAULT_MAX_MESSAGE_BYTES⟩ := rfl

theorem parse_of_messageAhead {result : Except ParseError EventStreamMessage}
    (hahead : messageAhead crc ⟨bytes, .yes, DEFAULT_MAX_MESSAGE_BYTES⟩ = .ok (some n))
    (hread : readMessage (bytes.take n) = result) : parse crc bytes = result := by
  rw [parse, EventStreamParser.nextMessage, new_push, hahead]
  dsimp only
  rw [hread]
  cases result <;> rfl

theorem exists_messageAhead_of_parse (h : parse crc bytes = .ok message) :
    ∃ n, messageAhead crc ⟨bytes, .yes, DEFAULT_MAX_MESSAGE_BYTES⟩ = .ok (some n) := by
  rw [parse, EventStreamParser.nextMessage, new_push] at h
  rcases hahead : messageAhead crc ⟨bytes, .yes, DEFAULT_MAX_MESSAGE_BYTES⟩ with e | _ | total
  · rw [hahead] at h
    exact absurd h (by simp)
  · rw [hahead] at h
    exact absurd h (by simp)
  · exact ⟨total, rfl⟩

/-- The parser accepts what a message stands in front of. -/
theorem parse_eq_ok :
    parse crc bytes = .ok message ↔
      ∃ front rest, bytes = front ++ rest ∧ MessageWire crc front message := by
  constructor
  · intro h
    obtain ⟨n, hahead⟩ := exists_messageAhead_of_parse h
    obtain ⟨block, payload, hwire, rfl, hcap⟩ := exists_wire_of_messageAhead hahead
    have hread := readMessage_wire crc (hcap.trans_lt cap_lt)
    rw [parse_of_messageAhead hahead rfl, hwire, hread] at h
    rcases hheaders : parseHeaders block with e | parsed
    · rw [hheaders] at h
      exact absurd h nofun
    · rw [hheaders] at h
      obtain rfl := Except.ok.inj h
      obtain ⟨headers, hblock, rfl⟩ := parseHeaders_eq_ok.mp hheaders
      refine ⟨wire crc block payload, bytes.drop (wireLength block payload), ?_, .mk hblock hcap⟩
      rw [← hwire, List.take_append_drop]
  · rintro ⟨front, rest, rfl, hfront⟩
    cases hfront with
    | @mk block payload headers hblock hcap =>
      have hlt : wireLength block payload < 2 ^ 32 := hcap.trans_lt cap_lt
      have hahead := @messageAhead_wire block payload crc .yes _ hlt hcap
      have hne : messageAhead crc ⟨wire crc block payload, .yes, DEFAULT_MAX_MESSAGE_BYTES⟩ ≠ .ok none := by
        rw [hahead]
        simp
      refine parse_of_messageAhead ((messageAhead_append rest hne).trans hahead) ?_
      rw [List.take_left' (length_wire crc block payload), readMessage_wire crc hlt,
        parseHeaders_eq_ok.mpr ⟨headers, hblock, rfl⟩]
      rfl

end Headroom.Bedrock
