import Headroom.Foundation.Base64
import Headroom.Foundation.Json

/-!
# The replay envelope of a reasoning item

The id and the encrypted content of a reasoning item are packed into the signature of a thinking
block, and read back from it when the client sends the block again.
-/

open Foundation

namespace Headroom.OpenAi

/-- The base64 codec with the alphabet for file names and without padding. -/
structure Base64 where
  encode : Bytes → String
  decode : String → Option Bytes

/-- The length of a text in bytes. -/
def len (text : String) : ℕ := (utf8 text).length

/-- What is used of the codec: it reads what it wrote, which has no colon, and four characters for
three bytes. -/
structure Base64.Lawful (B : Base64) : Prop where
  decode_encode : ∀ bytes, B.decode (B.encode bytes) = some bytes
  notMem : ∀ bytes, ':' ∉ (B.encode bytes).toList
  len : ∀ bytes, len (B.encode bytes) = (bytes.length * 4 + 2) / 3

/-- The codec as it is. -/
def urlSafeNoPad : Base64 where
  encode bytes := String.ofList (base64Encode bytes)
  decode text := base64Decode text.toList

theorem lawful_urlSafeNoPad : urlSafeNoPad.Lawful := by
  refine ⟨fun bytes => ?_, fun bytes => ?_, fun bytes => ?_⟩
  · show base64Decode (String.ofList (base64Encode bytes)).toList = some bytes
    rw [String.toList_ofList, base64Decode_encode]
  · show ':' ∉ (String.ofList (base64Encode bytes)).toList
    rw [String.toList_ofList]
    intro hmem
    obtain ⟨n, hn, heq⟩ := base64Encode_digits bytes _ hmem
    exact (base64Digit_ascii hn).2 heq.symm
  · show (utf8 (String.ofList (base64Encode bytes))).length = _
    rw [length_utf8_of_ascii, length_base64Encode]
    intro c hc
    obtain ⟨n, hn, rfl⟩ := base64Encode_digits bytes c hc
    exact (base64Digit_ascii hn).1

def SIGNATURE_PREFIX : String := "headroom:codex:v1:"
def MAX_ID_BYTES : ℕ := 4 * 1024
def MAX_ENCRYPTED_CONTENT_BYTES : ℕ := 8 * 1024 * 1024

/-- A reasoning item, reduced to the two fields that must survive. -/
structure ReasoningReplay where
  id : String
  encryptedContent : String
  deriving DecidableEq

/-- What was captured of a reasoning item. -/
structure PendingReasoning where
  id : Option String := none
  encryptedContent : Option String := none
  deriving DecidableEq

def nonEmptyString (value : Option Json) : Option String :=
  (value.bind Json.asStr?).filter (· ≠ "")

namespace PendingReasoning

def capture (p : PendingReasoning) (item : Json) : PendingReasoning where
  id := (nonEmptyString (item.get? "id")).or p.id
  encryptedContent := (nonEmptyString (item.get? "encrypted_content")).or p.encryptedContent

/-- The captured pair. -/
def replay (p : PendingReasoning) : Option ReasoningReplay := do
  let id ← p.id
  let encryptedContent ← p.encryptedContent
  return ⟨id, encryptedContent⟩

end PendingReasoning

/-- Both halves are there, and neither is too long. -/
def Sealable (replay : ReasoningReplay) : Prop :=
  ¬ (replay.id = "" ∨ MAX_ID_BYTES < len replay.id ∨ replay.encryptedContent = "" ∨
    MAX_ENCRYPTED_CONTENT_BYTES < len replay.encryptedContent)

instance (replay : ReasoningReplay) : Decidable (Sealable replay) :=
  inferInstanceAs (Decidable (¬ _))

def encodeReasoningSignature (B : Base64) (replay : ReasoningReplay) : Option String :=
  if Sealable replay then
    some (SIGNATURE_PREFIX ++ (B.encode (utf8 replay.id) ++ ":" ++ replay.encryptedContent))
  else none

def encodedIdLenLimit : ℕ := (MAX_ID_BYTES + 2) / 3 * 4

def maxPayloadLen : ℕ := encodedIdLenLimit + 1 + MAX_ENCRYPTED_CONTENT_BYTES

/-- The text behind a given start. -/
def stripStart (start text : String) : Option String :=
  if start.toList <+: text.toList then some (String.ofList (text.toList.drop start.toList.length))
  else none

/-- The text before the first colon, and the text behind it. -/
def splitOnce (text : String) : Option (String × String) :=
  let before := text.toList.takeWhile (· ≠ ':')
  if ':' ∈ text.toList then
    some (String.ofList before, String.ofList (text.toList.drop (before.length + 1)))
  else none

def decodeReasoningSignature (B : Base64) (signature : String) : Option ReasoningReplay := do
  let payload ← stripStart SIGNATURE_PREFIX signature
  if payload = "" ∨ maxPayloadLen < len payload then none
  else
    let (encodedId, encryptedContent) ← splitOnce payload
    if encodedId = "" ∨ encodedIdLenLimit < len encodedId ∨ encryptedContent = "" ∨
        MAX_ENCRYPTED_CONTENT_BYTES < len encryptedContent then none
    else
      let id ← B.decode encodedId
      if id = [] ∨ MAX_ID_BYTES < id.length then none
      else
        let id ← fromUtf8? id
        return ⟨id, encryptedContent⟩

/-! ### Round trip -/

theorem len_append (a b : String) : len (a ++ b) = len a + len b := by
  rw [len, len, len, utf8_append, List.length_append]

theorem utf8_ne_nil {text : String} (h : text ≠ "") : utf8 text ≠ [] := by
  intro hnil
  have hback := fromUtf8?_utf8 text
  rw [hnil] at hback
  have hempty := fromUtf8?_utf8 ""
  exact h (Option.some.inj (hback.symm.trans hempty))

theorem stripStart_append (start text : String) : stripStart start (start ++ text) = some text := by
  rw [stripStart, String.toList_append, if_pos (List.prefix_append _ _), List.drop_left,
    String.ofList_toList]

theorem splitOnce_append {before : String} (h : ':' ∉ before.toList) (text : String) :
    splitOnce (before ++ ":" ++ text) = some (before, text) := by
  have hlist : (before ++ ":" ++ text).toList = before.toList ++ ':' :: text.toList := by
    rw [String.toList_append, String.toList_append, List.append_assoc]
    rfl
  have hbefore : (before.toList ++ ':' :: text.toList).takeWhile (· ≠ ':') = before.toList := by
    rw [List.takeWhile_append_of_pos, List.takeWhile_cons_of_neg (by decide), List.append_nil]
    intro c hc
    exact decide_eq_true fun heq => h (heq ▸ hc)
  rw [splitOnce, hlist, hbefore, if_pos (by simp), String.ofList_toList]
  simp

/-- What was packed is read back. -/
theorem decode_encode {B : Base64} (hB : B.Lawful) {replay : ReasoningReplay} {signature : String}
    (h : encodeReasoningSignature B replay = some signature) :
    decodeReasoningSignature B signature = some replay := by
  rw [encodeReasoningSignature] at h
  split_ifs at h with hsealable
  obtain rfl := Option.some.inj h
  obtain ⟨hid, hidLen, hcontent, hcontentLen⟩ : replay.id ≠ "" ∧ len replay.id ≤ MAX_ID_BYTES ∧
      replay.encryptedContent ≠ "" ∧ len replay.encryptedContent ≤ MAX_ENCRYPTED_CONTENT_BYTES := by
    simpa only [Sealable, not_or, not_lt] using hsealable
  have hlen : 0 < len replay.id := List.length_pos_of_ne_nil (utf8_ne_nil hid)
  have hencoded : len (B.encode (utf8 replay.id)) = (len replay.id * 4 + 2) / 3 := hB.len _
  have hcolon : len ":" = 1 := by decide
  have hpayload := len_append (B.encode (utf8 replay.id) ++ ":") replay.encryptedContent
  rw [len_append (B.encode (utf8 replay.id)) ":", hcolon] at hpayload
  have hempty : ∀ text : String, 0 < len text → text ≠ "" := by
    rintro text htext rfl
    exact absurd htext (by decide)
  rw [decodeReasoningSignature, stripStart_append]
  show (if _ then _ else _) = _
  rw [if_neg, splitOnce_append (hB.notMem _)]
  · show (if _ then _ else _) = _
    rw [if_neg, hB.decode_encode]
    · show (if _ then _ else _) = _
      rw [if_neg, fromUtf8?_utf8]
      · rfl
      · rintro (h | h)
        · exact utf8_ne_nil hid h
        · exact absurd hidLen (Nat.not_le_of_lt h)
    · rintro (h | h | h | h)
      · exact hempty _ (by omega) h
      · rw [hencoded, encodedIdLenLimit] at h
        rw [MAX_ID_BYTES] at hidLen h
        omega
      · exact hcontent h
      · exact absurd hcontentLen (Nat.not_le_of_lt h)
  · rintro (h | h)
    · exact hempty _ (by omega) h
    · rw [hpayload, hencoded, maxPayloadLen, encodedIdLenLimit] at h
      rw [MAX_ID_BYTES] at hidLen h
      omega

end Headroom.OpenAi
