import Mathlib.Data.List.DropRight
import Headroom.Foundation.Alignment
import Headroom.PrefixReplay.EphemeralSpans

/-!
# Canonical message comparison

Two turns send one message in different encodings: cache markers move, a bare string turns into a
block, a reminder comes and goes. Messages are compared by a projection that drops all of that and
keeps the content; the originals are what is forwarded.
-/

open Foundation

namespace Headroom.PrefixReplay

/-! ### The canonical projection -/

/-- How much of a stored prefix's tail may be edited and still count as the same stream. -/
def tailEditSlack : ℕ := 2

/-- The shortest agreeing run that counts as evidence of one stream. -/
def minAgreeingRun : ℕ := 4

/-- Keys without meaning for the model, dropped from the comparison. -/
def nonSemanticKeys : List String :=
  ["cache_control", "cachePoint", "caller", "provider_specific_fields", "reasoning_content",
    "reasoning_items", "annotations", "system_fingerprint", "service_tier", "providerMetadata",
    "providerOptions", "callProviderMetadata", "state", "providerExecuted", "synthetic", "ignored",
    "index"]

/-- Keys whose values are opaque payloads, compared verbatim. -/
def opaquePayloadKeys : List String := ["input", "arguments", "json"]

/-- Whether a key carries no meaning for the model. -/
def isNonSemantic (key : String) : Bool := nonSemanticKeys.contains key

/-- Whether the value of a key is compared verbatim. -/
def isOpaquePayload (key : String) : Bool := opaquePayloadKeys.contains key

/-- A block of plain text. -/
def textBlock (text : String) : Json := .obj [("type", .str "text"), ("text", .str text)]

/-- A message whose content is a bare string. -/
def plainMessage (role text : String) : Json := .obj [("role", .str role), ("content", .str text)]

/-- A block without its reminder spans; `none` when only scaffolding was there. -/
def withoutEphemeralSpans (block : Json) : Option Json :=
  if !blockCarriesEphemeralSpan block then some block
  else
    let text := (block.getStr? "text").getD ""
    let (kept, spans) := splitEphemeralSpans text.toList
    if spans.isEmpty then some block
    else if (Text.trim kept).isEmpty then none
    else some (block.insert "text" (.str (String.ofList kept)))

/-- A text block without edge whitespace; `none` when it is left empty. -/
def trimTextBlock (block : Json) : Option Json :=
  if !isTextBlock block then some block
  else
    match block.getStr? "text" with
    | none => some block
    | some text =>
      let trimmed := Text.trim text.toList
      if trimmed.isEmpty then none
      else if trimmed.length = text.length then some block
      else some (block.insert "text" (.str (String.ofList trimmed)))

/-- What stays of the projected items of an array: empty objects, reminders and edge whitespace
go. -/
def keepCanonical (items : List Json) : List Json :=
  (((items.filter fun v => !decide (v = .obj [])).filterMap withoutEphemeralSpans).filter
    fun v => !isEphemeralClientBlock v).filterMap trimTextBlock

/-- The canonical form of a value for the comparison across turns. -/
def canonicalizeForPrefixCompare : Json → Json
  | .obj fields => .obj (canonicalFields fields)
  | .arr items => .arr (keepCanonical (canonicalItems items))
  | j => j
where
  /-- The items of an array, projected. -/
  canonicalItems : List Json → List Json
    | [] => []
    | j :: js => canonicalizeForPrefixCompare j :: canonicalItems js
  /-- The fields of an object, projected. A bare string `content` is wrapped into a text block,
  which projects to itself before the blocks are filtered. -/
  canonicalFields : List (String × Json) → List (String × Json)
    | [] => []
    | (key, val) :: fs =>
      if isNonSemantic key then canonicalFields fs
      else if isOpaquePayload key then (key, val) :: canonicalFields fs
      else
        match key == "content", val.asStr? with
        | true, some text => (key, .arr (keepCanonical [textBlock text])) :: canonicalFields fs
        | _, _ => (key, canonicalizeForPrefixCompare val) :: canonicalFields fs

/-- A whole slice of messages, projected. -/
def canonicalizeSlice (messages : List Json) : List Json :=
  messages.map canonicalizeForPrefixCompare

/-- The normal form of a message's projection. -/
def messageKey (message : Json) : Json := (canonicalizeForPrefixCompare message).norm

/-- Whether two messages have the same projection. -/
def sameCanonical (a b : Json) : Bool :=
  decide (Json.SameValue (canonicalizeForPrefixCompare a) (canonicalizeForPrefixCompare b))

@[simp] theorem sameCanonical_iff {a b : Json} :
    sameCanonical a b = true ↔ messageKey a = messageKey b := by
  unfold sameCanonical
  exact decide_eq_true_iff

/-! ### Stored prefixes against a turn -/

/-- Whether `candidate` leads the turn whose projected messages are `canonicalCurrent`. -/
def matchesCanonicalPrefix (candidate canonicalCurrent : List Json) : Bool :=
  if candidate.isEmpty || canonicalCurrent.length < candidate.length then false
  else
    decide ((canonicalizeSlice candidate).map Json.norm =
      (canonicalCurrent.take candidate.length).map Json.norm)

/-- How many leading messages a stored prefix and a turn agree on. -/
def canonicalAgreementLen (candidate canonicalCurrent : List Json) : ℕ :=
  (((canonicalizeSlice candidate).zip canonicalCurrent).takeWhile fun p =>
    decide (Json.SameValue p.1 p.2)).length

/-- How many messages of the turn a stored prefix covers, stepping over stored scaffolding that
the client withdrew; `none` when the two disagree. A stored scaffolding message also takes a
scaffolding message in its place, the form the client shrank it to. -/
def alignOverWithdrawnScaffolding (previousOriginals currentOriginals : List Json) : Option ℕ :=
  Alignment.align (fun stored current => sameCanonical current stored) isClientScaffoldingMessage
    isClientScaffoldingMessage currentOriginals 0 0 previousOriginals

/-- The message of the turn that each stored message takes in that walk. -/
def alignedPlaces (previousOriginals currentOriginals : List Json) : List (Option ℕ) :=
  Alignment.places (fun stored current => sameCanonical current stored)
    isClientScaffoldingMessage isClientScaffoldingMessage currentOriginals 0 0 previousOriginals

/-- Whether a message has no content after the projection. -/
def hasEmptyCanonicalContent (message : Json) : Bool :=
  ((canonicalizeForPrefixCompare message).getArr? "content").any List.isEmpty

/-- The length of the replayable prefix: what is left without trailing messages of no content. -/
def replayableStoredPrefixLen (originalMessages : List Json) : ℕ :=
  (originalMessages.rdropWhile hasEmptyCanonicalContent).length

/-! ### The adjacency net -/

/-- Whether the last block of a message is a server tool result. -/
def endsInServerToolResult (message : Json) : Bool :=
  (((message.getArr? "content").bind List.getLast?).bind (Json.getStr? "type")).any fun kind =>
    "_tool_result".toList.isSuffixOf kind.toList

/-- Whether a `system` message behind `previous` is refused by the API. -/
def isIllegalSystem (previous : Option Json) (message : Json) : Bool :=
  if message.getStr? "role" ≠ some "system" then false
  else if hasEmptyCanonicalContent message then false
  else
    match previous with
    | none => true
    | some previous =>
      match previous.getStr? "role" with
      | some "user" => false
      | some "assistant" => !endsInServerToolResult previous
      | _ => true

/-- The position of the first `system` message that the API would refuse, the first of `messages`
standing at `index` behind `previous`. -/
def firstIllegalSystemFrom (index : ℕ) (previous : Option Json) : List Json → Option ℕ
  | [] => none
  | m :: ms =>
    if isIllegalSystem previous m then some index
    else firstIllegalSystemFrom (index + 1) (some m) ms

/-- The position of the first `system` message that the API would refuse. -/
def firstIllegalSystemPosition (messages : List Json) : Option ℕ :=
  firstIllegalSystemFrom 0 none messages

/-! ### Comparison in terms of keys -/

@[simp] theorem length_canonicalizeSlice (messages : List Json) :
    (canonicalizeSlice messages).length = messages.length :=
  List.length_map _

theorem norm_canonicalizeSlice (messages : List Json) :
    (canonicalizeSlice messages).map Json.norm = messages.map messageKey := by
  simp only [canonicalizeSlice, List.map_map]
  rfl

variable {candidate current : List Json}

/-- A stored prefix leads a turn when it is not empty and its keys are a prefix of the turn's. -/
theorem matchesCanonicalPrefix_iff :
    matchesCanonicalPrefix candidate (canonicalizeSlice current) = true ↔
      candidate ≠ [] ∧ candidate.map messageKey <+: current.map messageKey := by
  simp only [matchesCanonicalPrefix, length_canonicalizeSlice]
  split_ifs with h
  · simp only [false_iff, not_and, Bool.or_eq_true, List.isEmpty_iff, decide_eq_true_eq]
      at h ⊢
    rintro hne hpre
    have hlen := hpre.length_le
    simp only [List.length_map] at hlen
    rcases h with h | h
    · exact hne h
    · omega
  · simp only [Bool.or_eq_true, List.isEmpty_iff, decide_eq_true_eq, not_or, not_lt] at h
    rw [decide_eq_true_eq, List.map_take, norm_canonicalizeSlice, norm_canonicalizeSlice]
    constructor
    · intro heq
      refine ⟨h.1, ?_⟩
      rw [heq]
      exact List.take_prefix _ _
    · rintro ⟨-, hpre⟩
      have := List.prefix_iff_eq_take.mp hpre
      simpa only [List.length_map] using this

private theorem aligned_same_of_leads
    (h : candidate.map messageKey <+: current.map messageKey) (j : ℕ) (a : Json)
    (ha : candidate[j]? = some a) :
    (current[0 + j]?).any (fun b => sameCanonical b a) = true := by
  obtain ⟨rest, hrest⟩ := h
  have hj : j < candidate.length := (List.getElem?_eq_some_iff.mp ha).1
  have hkey : (current.map messageKey)[j]? = some (messageKey a) := by
    rw [← hrest, List.getElem?_append_left (by simpa using hj), List.getElem?_map, ha]
    rfl
  rw [List.getElem?_map, Option.map_eq_some_iff] at hkey
  obtain ⟨b, hb, hba⟩ := hkey
  simp [hb, hba]

theorem alignOverWithdrawnScaffolding_of_matches (h : candidate.map messageKey <+: current.map messageKey) :
    alignOverWithdrawnScaffolding candidate current = some candidate.length := by
  have : Alignment.align (fun stored current => sameCanonical current stored)
      isClientScaffoldingMessage isClientScaffoldingMessage current 0 0 candidate =
      some (0 + candidate.length) :=
    Alignment.align_of_forall₂ (aligned_same_of_leads h)
  simpa only [alignOverWithdrawnScaffolding, Nat.zero_add] using this

theorem replayableStoredPrefixLen_le (messages : List Json) :
    replayableStoredPrefixLen messages ≤ messages.length :=
  (List.rdropWhile_prefix _ _).length_le

end Headroom.PrefixReplay
