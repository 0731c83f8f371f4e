import Headroom.Bedrock.EventStream

/-!
# The bytes of a message

A message is written from its headers and its payload: two lengths, their checksum, the headers, the
payload, and a checksum of all that. What the parser takes off the front of its buffer is written so.
-/

open Foundation

namespace Headroom.Bedrock

variable {crc : Bytes → UInt32} {headers payload buf : Bytes}

/-! ### Numbers -/

theorem ofNat_fromBe_toBe (v : UInt32) : UInt32.ofNat (fromBe (toBe 4 v.toNat)) = v := by
  rw [fromBe_toBe_of_lt (show v.toNat < 256 ^ 4 from v.toNat_lt), UInt32.ofNat_toNat]

theorem fromBe_lt (bytes : Bytes) : fromBe bytes < 256 ^ bytes.length := by
  induction bytes with
  | nil => exact Nat.one_pos
  | cons b bytes ih =>
    have hb : b.toNat + 1 ≤ 256 := b.toNat_lt
    have hhead : (b.toNat + 1) * 256 ^ bytes.length ≤ 256 * 256 ^ bytes.length :=
      Nat.mul_le_mul_right _ hb
    rw [fromBe, List.length_cons, Nat.pow_succ']
    rw [Nat.add_mul] at hhead
    omega

theorem toBe_fromBe (bytes : Bytes) : toBe bytes.length (fromBe bytes) = bytes := by
  have hskip : ∀ width a n : ℕ, toBe width (a * 256 ^ width + n) = toBe width n := by
    intro width
    induction width with
    | zero => exact fun _ _ => rfl
    | succ width ih =>
      intro a n
      have hsplit : a * 256 ^ (width + 1) + n = a * 256 * 256 ^ width + n := by
        rw [Nat.pow_succ', Nat.mul_assoc]
      rw [toBe, toBe, hsplit, ih, Nat.add_comm, Nat.add_mul_div_right _ _ (Nat.pow_pos (by decide))]
      refine congrArg (· :: _) (UInt8.toNat_inj.mp ?_)
      rw [UInt8.toNat_ofNat', UInt8.toNat_ofNat']
      omega
  induction bytes with
  | nil => rfl
  | cons b bytes ih =>
    have hlt := fromBe_lt bytes
    rw [List.length_cons, toBe, fromBe, hskip, ih, Nat.add_comm,
      Nat.add_mul_div_right _ _ (Nat.pow_pos (by decide)), Nat.div_eq_of_lt hlt, Nat.zero_add,
      UInt8.ofNat_toNat]

/-- A field of known length in the middle of bytes. -/
theorem take_drop_middle {before field after : Bytes} {i k : ℕ} (hi : i = before.length)
    (hk : k = field.length) : ((before ++ field ++ after).drop i).take k = field := by
  rw [hi, hk, List.append_assoc, List.drop_left, List.take_left]

/-! ### Writing -/

def wireLength (headers payload : Bytes) : ℕ :=
  PRELUDE_LEN + headers.length + payload.length + MESSAGE_CRC_LEN

/-- The two length fields. -/
def wireLengths (headers payload : Bytes) : Bytes :=
  toBe 4 (wireLength headers payload) ++ toBe 4 headers.length

/-- Everything before the checksum behind the message. -/
def wireBody (crc : Bytes → UInt32) (headers payload : Bytes) : Bytes :=
  wireLengths headers payload ++ toBe 4 (crc (wireLengths headers payload)).toNat ++ headers ++ payload

/-- The bytes of a message. -/
def wire (crc : Bytes → UInt32) (headers payload : Bytes) : Bytes :=
  wireBody crc headers payload ++ toBe 4 (crc (wireBody crc headers payload)).toNat

theorem length_wireLengths (headers payload : Bytes) : (wireLengths headers payload).length = 8 := by
  simp [wireLengths]

theorem length_wireBody (crc : Bytes → UInt32) (headers payload : Bytes) :
    (wireBody crc headers payload).length = wireLength headers payload - MESSAGE_CRC_LEN := by
  have hcrcLen : MESSAGE_CRC_LEN = 4 := rfl
  have hprelude : PRELUDE_LEN = 12 := rfl
  simp only [wireBody, wireLength, List.length_append, length_wireLengths, length_toBe]
  omega

theorem length_wire (crc : Bytes → UInt32) (headers payload : Bytes) :
    (wire crc headers payload).length = wireLength headers payload := by
  have hcrcLen : MESSAGE_CRC_LEN = 4 := rfl
  have hlen : wireLength headers payload = PRELUDE_LEN + headers.length + payload.length +
    MESSAGE_CRC_LEN := rfl
  rw [wire, List.length_append, length_wireBody, length_toBe]
  omega

theorem totalLength_wire (crc : Bytes → UInt32) (hlen : wireLength headers payload < 2 ^ 32) :
    totalLength (wire crc headers payload) = wireLength headers payload := by
  have htake : (wire crc headers payload).take 4 = toBe 4 (wireLength headers payload) := by
    simp only [wire, wireBody, wireLengths, List.append_assoc]
    exact List.take_left' (length_toBe ..)
  rw [totalLength, htake, fromBe_toBe_of_lt hlen]

theorem headersLength_wire (crc : Bytes → UInt32) (hlen : wireLength headers payload < 2 ^ 32) :
    headersLength (wire crc headers payload) = headers.length := by
  have hfield : ((wire crc headers payload).drop 4).take 4 = toBe 4 headers.length := by
    simp only [wire, wireBody, wireLengths, List.append_assoc]
    rw [← List.append_assoc]
    exact take_drop_middle (length_toBe ..).symm (length_toBe ..).symm
  rw [headersLength, hfield, fromBe_toBe_of_lt (by unfold wireLength at hlen; omega)]

theorem take_wire (crc : Bytes → UInt32) (headers payload : Bytes) :
    (wire crc headers payload).take 8 = wireLengths headers payload := by
  simp only [wire, wireBody, List.append_assoc]
  exact List.take_left' (length_wireLengths headers payload)

theorem preludeCrcExpected_wire (crc : Bytes → UInt32) (headers payload : Bytes) :
    preludeCrcExpected (wire crc headers payload) = crc (wireLengths headers payload) := by
  have hfield : ((wire crc headers payload).drop 8).take 4 =
      toBe 4 (crc (wireLengths headers payload)).toNat := by
    simp only [wire, wireBody, List.append_assoc]
    rw [← List.append_assoc]
    exact take_drop_middle (length_wireLengths headers payload).symm (length_toBe ..).symm
  rw [preludeCrcExpected, hfield, ofNat_fromBe_toBe]

theorem messageCrcExpected_wire (crc : Bytes → UInt32) (hlen : wireLength headers payload < 2 ^ 32) :
    messageCrcExpected (wire crc headers payload) = crc (wireBody crc headers payload) := by
  have hfield : ((wire crc headers payload).drop (wireLength headers payload - MESSAGE_CRC_LEN)).take 4 =
      toBe 4 (crc (wireBody crc headers payload)).toNat := by
    rw [wire, ← List.append_nil (wireBody crc headers payload ++ _)]
    exact take_drop_middle (length_wireBody crc headers payload).symm (length_toBe ..).symm
  rw [messageCrcExpected, totalLength_wire crc hlen, hfield, ofNat_fromBe_toBe]

theorem messageAhead_wire (crc : Bytes → UInt32) {crcValidation : CrcValidation} {cap : ℕ}
    (hlen : wireLength headers payload < 2 ^ 32) (hcap : wireLength headers payload ≤ cap) :
    messageAhead crc ⟨wire crc headers payload, crcValidation, cap⟩ =
      .ok (some (wireLength headers payload)) := by
  have hlen' : wireLength headers payload = PRELUDE_LEN + headers.length + payload.length +
    MESSAGE_CRC_LEN := rfl
  have hbody : (wire crc headers payload).take (wireLength headers payload - MESSAGE_CRC_LEN) =
      wireBody crc headers payload := List.take_left' (length_wireBody crc headers payload)
  simp only [messageAhead, length_wire, totalLength_wire crc hlen, headersLength_wire crc hlen,
    take_wire, preludeCrcExpected_wire, messageCrcExpected_wire crc hlen, hbody, ne_eq,
    not_true_eq_false, and_false, if_false]
  rw [if_neg (by omega), if_neg (by omega), if_neg (by omega), if_neg (Nat.lt_irrefl _)]

/-! ### What is taken off the buffer -/

/-- Four bytes are those of the number that they hold. -/
theorem toBe_fromBe_four {bytes : Bytes} (h : bytes.length = 4) : toBe 4 (fromBe bytes) = bytes := by
  have hsame := toBe_fromBe bytes
  rwa [h] at hsame

/-- A checksum of four bytes that agrees is the one that would be written. -/
theorem toBe_of_agrees {bytes : Bytes} {v : UInt32} (h : bytes.length = 4)
    (hcrc : v = UInt32.ofNat (fromBe bytes)) : toBe 4 v.toNat = bytes := by
  have hlt : fromBe bytes < 2 ^ 32 := by
    have := fromBe_lt bytes
    rwa [h] at this
  rw [hcrc, UInt32.toNat_ofNat_of_lt' hlt, toBe_fromBe_four h]

theorem exists_wire_of_messageAhead {cap n : ℕ} (h : messageAhead crc ⟨buf, .yes, cap⟩ = .ok (some n)) :
    ∃ headers payload, buf.take n = wire crc headers payload ∧ n = wireLength headers payload ∧ n ≤ cap := by
  have hprelude : PRELUDE_LEN = 12 := rfl
  have hcrcLen : MESSAGE_CRC_LEN = 4 := rfl
  unfold messageAhead at h
  split_ifs at h with hshort hroom hlarge hcrc hwhole hcrc'
  · exact absurd (Except.ok.inj h) nofun
  · exact absurd (Except.ok.inj h) nofun
  obtain rfl := Option.some.inj (Except.ok.inj h)
  simp only [not_lt, true_and, not_not] at hshort hroom hlarge hcrc hwhole hcrc'
  obtain ⟨k, hk⟩ : ∃ k, totalLength buf = 12 + headersLength buf + k + 4 :=
    ⟨totalLength buf - (12 + headersLength buf + 4), by omega⟩
  have hheaders : ((buf.drop 12).take (headersLength buf)).length = headersLength buf := by
    rw [List.length_take, List.length_drop]
    omega
  have hpayload : ((buf.drop (12 + headersLength buf)).take k).length = k := by
    rw [List.length_take, List.length_drop]
    omega
  refine ⟨(buf.drop 12).take (headersLength buf), (buf.drop (12 + headersLength buf)).take k, ?_, ?_, hlarge⟩
  · have hlen : wireLength ((buf.drop 12).take (headersLength buf))
        ((buf.drop (12 + headersLength buf)).take k) = totalLength buf := by
      rw [wireLength, hheaders, hpayload]
      omega
    have hlengths : wireLengths ((buf.drop 12).take (headersLength buf))
        ((buf.drop (12 + headersLength buf)).take k) = buf.take 8 := by
      rw [wireLengths, hlen, hheaders, totalLength, headersLength,
        toBe_fromBe_four (by rw [List.length_take]; omega),
        toBe_fromBe_four (by rw [List.length_take, List.length_drop]; omega), ← List.take_add]
    have hbody : wireBody crc ((buf.drop 12).take (headersLength buf))
        ((buf.drop (12 + headersLength buf)).take k) = buf.take (12 + headersLength buf + k) := by
      rw [wireBody, hlengths, toBe_of_agrees (by rw [List.length_take, List.length_drop]; omega) hcrc,
        ← List.take_add, ← List.take_add, ← List.take_add]
    have hlast : totalLength buf - MESSAGE_CRC_LEN = 12 + headersLength buf + k := by omega
    rw [messageCrcExpected, hlast] at hcrc'
    rw [wire, hbody, toBe_of_agrees (by rw [List.length_take, List.length_drop]; omega) hcrc',
      ← List.take_add, hk]
  · show totalLength buf = _
    rw [wireLength, hheaders, hpayload]
    omega

/-- The headers and the payload of a message are where its prelude says. -/
theorem readMessage_wire (crc : Bytes → UInt32) (hlen : wireLength headers payload < 2 ^ 32) :
    readMessage (wire crc headers payload) =
      (parseHeaders headers).map fun parsed => ⟨parsed, payload⟩ := by
  have hprelude : (wireLengths headers payload ++ toBe 4 (crc (wireLengths headers payload)).toNat).length =
      PRELUDE_LEN := by
    rw [List.length_append, length_wireLengths, length_toBe]
    rfl
  have hheaders : ((wire crc headers payload).drop PRELUDE_LEN).take headers.length = headers := by
    rw [wire, wireBody, List.append_assoc _ payload]
    exact take_drop_middle hprelude.symm rfl
  have hpayload : ((wire crc headers payload).drop (PRELUDE_LEN + headers.length)).take
      (wireLength headers payload - MESSAGE_CRC_LEN - (PRELUDE_LEN + headers.length)) = payload := by
    rw [wire, wireBody]
    refine take_drop_middle ?_ ?_
    · rw [List.length_append, hprelude]
    · unfold wireLength
      omega
  rw [readMessage, headersLength_wire crc hlen, totalLength_wire crc hlen, hheaders, hpayload]
  cases parseHeaders headers <;> rfl

end Headroom.Bedrock
