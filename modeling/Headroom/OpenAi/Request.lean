import Headroom.OpenAi.Blocks

/-!
# The way back of a turn

The client sends the assistant's message with the next request, and its blocks become items again. A
run of text blocks is one message, joined by newlines; a thinking block is a reasoning item if its
signature is an envelope, and is dropped otherwise.
-/

open Foundation

namespace Headroom.OpenAi

/-! ### Translation -/

/-- The texts, one to a line. -/
def joinLines (texts : List String) : String :=
  String.ofList (List.intercalate ['\n'] (texts.map String.toList))

def messageItem (content : String) : Json :=
  .obj [("type", .str "message"), ("role", .str "assistant"), ("content", .str content)]

def functionCallItem (callId name arguments : String) : Json :=
  .obj [("type", .str "function_call"), ("call_id", .str callId), ("name", .str name),
    ("arguments", .str arguments)]

def reasoningInputItemWithSummary (replay : ReasoningReplay) (summaryText : Option String) : Json :=
  let summary :=
    match summaryText.filter (· ≠ "") with
    | some text => [.obj [("type", .str "summary_text"), ("text", .str text)]]
    | none => []
  .obj [("type", .str "reasoning"), ("id", .str replay.id), ("summary", .arr summary),
    ("encrypted_content", .str replay.encryptedContent)]

/-- The items so far, and the texts that wait for the next one. -/
structure Draft where
  textParts : List String := []
  out : List Json := []

namespace Draft

def flush (s : Draft) : Draft :=
  if s.textParts = [] then s else { textParts := [], out := s.out ++ [messageItem (joinLines s.textParts)] }

def push (s : Draft) (item : Json) : Draft := { s.flush with out := s.flush.out ++ [item] }

def addBlock (B : Base64) (s : Draft) (block : Json) : Draft :=
  let type := block.getStr? "type"
  if type = some "text" then
    match block.getStr? "text" with
    | some text => { s with textParts := s.textParts ++ [text] }
    | none => s
  else if type = some "tool_use" then
    s.push (functionCallItem ((block.getStr? "id").getD "") ((block.getStr? "name").getD "")
      (String.ofList ((block.get? "input").getD (.obj [])).compact))
  else if type = some "thinking" then
    -- What is not our envelope decodes to nothing.
    match (block.getStr? "signature").bind (decodeReasoningSignature B) with
    | some replay => s.push (reasoningInputItemWithSummary replay (block.getStr? "thinking"))
    | none => s
  else s

end Draft

def translateAssistantMessageToResponses (B : Base64) (msg : Json) : List Json :=
  match msg.get? "content" with
  | some (.str text) => [messageItem text]
  | some (.arr blocks) => (blocks.foldl (Draft.addBlock B) {}).flush.out
  | _ => [messageItem ""]

/-- The items that the assistant's messages of a request become. -/
def responsesInput (B : Base64) (anthropic : Json) : List Json :=
  ((anthropic.getArr? "messages").getD []).flatMap fun msg =>
    if msg.getStr? "role" = some "assistant" then translateAssistantMessageToResponses B msg else []

/-! ### The client's message -/

/-- A block as the client sends it back; `parse` reads the input of a call. -/
def Block.toJson (parse : String → Option Json) (b : Block) : Json :=
  match b.content with
  | .text => .obj [("type", .str "text"), ("text", .str (String.ofList b.text))]
  | .thinking => .obj ([("type", .str "thinking"), ("thinking", .str (String.ofList b.text))] ++
      (b.signature.map fun signature => ("signature", Json.str signature)).toList)
  | .toolUse id name => .obj [("type", .str "tool_use"), ("id", .str id), ("name", .str name),
      ("input", (parse (String.ofList b.partialJson)).getD (.obj []))]

def assistantMessage (parse : String → Option Json) (blocks : List Block) : Json :=
  .obj [("role", .str "assistant"), ("content", .arr (blocks.map (Block.toJson parse)))]

/-! ### What is kept -/

/-- What a block keeps of a turn. -/
inductive Kept
  | text (text : List Char)
  | reasoning (replay : ReasoningReplay)
  | call (id name : String) (arguments : List Char)
  deriving DecidableEq

def Block.kept? (B : Base64) (b : Block) : Option Kept :=
  match b.content with
  | .text => some (.text b.text)
  | .thinking => (b.signature.bind (decodeReasoningSignature B)).map .reasoning
  | .toolUse id name => some (.call id name b.partialJson)

/-- An item that comes back. -/
inductive Returned
  | message (content : String)
  | reasoning (replay : ReasoningReplay)
  | call (callId name : String) (input : Json)
  deriving DecidableEq

/-- What an item of a request says; `parse` reads the arguments of a call. -/
def readBack (parse : String → Option Json) (item : Json) : Option Returned :=
  let type := item.getStr? "type"
  if type = some "message" then (item.getStr? "content").map .message
  else if type = some "reasoning" then do
    let id ← item.getStr? "id"
    let encryptedContent ← item.getStr? "encrypted_content"
    return .reasoning ⟨id, encryptedContent⟩
  else if type = some "function_call" then do
    let callId ← item.getStr? "call_id"
    let name ← item.getStr? "name"
    let input ← (item.getStr? "arguments").bind parse
    return .call callId name input
  else none

/-- The items that come back so far, and the texts that wait for the next one. -/
structure Sheet where
  texts : List String := []
  items : List Returned := []

namespace Sheet

def flush (s : Sheet) : Sheet :=
  if s.texts = [] then s else { texts := [], items := s.items ++ [.message (joinLines s.texts)] }

def push (s : Sheet) (item : Returned) : Sheet := { s.flush with items := s.flush.items ++ [item] }

def add (parse : String → Option Json) (s : Sheet) : Kept → Sheet
  | .text text => { s with texts := s.texts ++ [String.ofList text] }
  | .reasoning replay => s.push (.reasoning replay)
  | .call id name arguments => s.push (.call id name ((parse (String.ofList arguments)).getD (.obj [])))

end Sheet

/-- The items that come back: texts that stand side by side are one message. -/
def regroup (parse : String → Option Json) (kept : List Kept) : List Returned :=
  (kept.foldl (Sheet.add parse) {}).flush.items

/-- A value that was read is read again from what is written of it. -/
def RoundTripsJson (parse : String → Option Json) : Prop :=
  ∀ text j, parse text = some j → parse (String.ofList j.compact) = some j

/-! ### The items of a message -/

section Translate

variable {B : Base64} {parse : String → Option Json} {s : Draft} {s' : Sheet}

/-- The draft says what the sheet says. -/
structure Draft.Says (parse : String → Option Json) (s : Draft) (s' : Sheet) : Prop where
  texts : s.textParts = s'.texts
  items : s.out.map (readBack parse) = s'.items.map some

theorem Draft.Says.flush (h : s.Says parse s') : s.flush.Says parse s'.flush := by
  rw [Draft.flush, Sheet.flush, h.texts]
  split_ifs
  · exact h
  · refine ⟨rfl, ?_⟩
    rw [List.map_append, List.map_append, h.items]
    rfl

theorem Draft.Says.push (h : s.Says parse s') {item : Json} {item' : Returned}
    (hitem : readBack parse item = some item') : (s.push item).Says parse (s'.push item') := by
  obtain ⟨htexts, hitems⟩ := h.flush
  refine ⟨htexts, ?_⟩
  show (s.flush.out ++ [item]).map _ = (s'.flush.items ++ [item']).map some
  rw [List.map_append, List.map_append, hitems, List.map_singleton, hitem]
  rfl

/-- A block says what it keeps. -/
theorem Draft.Says.addBlock (h : s.Says parse s') (b : Block)
    (hcall : ∀ id name, b.content = .toolUse id name →
      parse (String.ofList ((parse (String.ofList b.partialJson)).getD (.obj [])).compact) =
        some ((parse (String.ofList b.partialJson)).getD (.obj []))) :
    (s.addBlock B (b.toJson parse)).Says parse ((b.kept? B).elim s' (s'.add parse)) := by
  obtain ⟨index, content, text, partialJson, signature⟩ := b
  cases content with
  | text =>
    refine ⟨?_, h.items⟩
    show s.textParts ++ [String.ofList text] = s'.texts ++ [String.ofList text]
    rw [h.texts]
  | thinking =>
    cases signature with
    | none => exact h
    | some signature =>
      show (match decodeReasoningSignature B signature with
        | some replay => s.push (reasoningInputItemWithSummary replay (some (String.ofList text)))
        | none => s).Says parse
          (Option.elim ((decodeReasoningSignature B signature).map Kept.reasoning) s' (s'.add parse))
      cases decodeReasoningSignature B signature with
      | none => exact h
      | some replay => exact h.push rfl
  | toolUse id name =>
    refine h.push ?_
    show (do
      let input ← parse (String.ofList ((parse (String.ofList partialJson)).getD (.obj [])).compact)
      return Returned.call id name input) = _
    rw [hcall id name rfl]
    rfl

theorem readBack_translate (blocks : List Block)
    (hcall : ∀ b ∈ blocks, ∀ id name, b.content = .toolUse id name →
      parse (String.ofList ((parse (String.ofList b.partialJson)).getD (.obj [])).compact) =
        some ((parse (String.ofList b.partialJson)).getD (.obj []))) :
    (translateAssistantMessageToResponses B (assistantMessage parse blocks)).map (readBack parse) =
      (regroup parse (blocks.filterMap (Block.kept? B))).map some := by
  have hfold : ∀ (blocks : List Block) (s : Draft) (s' : Sheet), s.Says parse s' →
      (∀ b ∈ blocks, ∀ id name, b.content = .toolUse id name →
        parse (String.ofList ((parse (String.ofList b.partialJson)).getD (.obj [])).compact) =
          some ((parse (String.ofList b.partialJson)).getD (.obj []))) →
      ((blocks.map (Block.toJson parse)).foldl (Draft.addBlock B) s).Says parse
        ((blocks.filterMap (Block.kept? B)).foldl (Sheet.add parse) s') := by
    intro blocks
    induction blocks with
    | nil => exact fun _ _ h _ => h
    | cons b blocks ih =>
      intro s s' h hcall
      have hb := h.addBlock (B := B) b (hcall b List.mem_cons_self)
      have hrest := ih _ _ hb fun b' hb' => hcall b' (List.mem_cons_of_mem _ hb')
      rw [List.map_cons, List.foldl_cons, List.filterMap_cons]
      cases hkept : b.kept? B with
      | none => rwa [hkept] at hrest
      | some kept => rwa [hkept] at hrest
  exact (hfold blocks {} {} ⟨rfl, rfl⟩ hcall).flush.items

end Translate

end Headroom.OpenAi
