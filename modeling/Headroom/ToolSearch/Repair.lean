import Mathlib.Data.Finset.Card
import Headroom.Foundation.Conversation
import Headroom.Foundation.Threading

/-!
# Server tools that a request does not support

A result of a server tool needs the call that it answers in front of it, and a result of a tool search needs the
search tool and the tools that it refers to. A block that the tools of a request cannot support is replaced with
a short text at its place, so that no other block moves.
-/

open Foundation

namespace Headroom.ToolSearch

def TOOL_SEARCH_TYPE_PREFIX : String := "tool_search_tool_"

def TOOL_SEARCH_PLACEHOLDER_TEXT : String := "[tool search omitted: unavailable in this request]"

def SERVER_RESULT_PLACEHOLDER_TEXT : String := "[search result omitted: unavailable in this request]"

def CLIENT_TOOL_REF_PLACEHOLDER : String := "[tool reference no longer available]"

def placeholderBlock : Json := .obj [("type", .str "text"), ("text", .str TOOL_SEARCH_PLACEHOLDER_TEXT)]

def serverResultPlaceholderBlock : Json :=
  .obj [("type", .str "text"), ("text", .str SERVER_RESULT_PLACEHOLDER_TEXT)]

/-! ### Tools and families -/

def startsWith (start text : String) : Bool := start.toList.isPrefixOf text.toList

/-- A tool of the search mechanism. -/
def isTypedSearchTool (tool : Json) : Bool :=
  (tool.getStr? "type").any (startsWith TOOL_SEARCH_TYPE_PREFIX)

def hasTypedSearchTool (tools : List Json) : Bool := tools.any isTypedSearchTool

def availableToolNames (tools : List Json) : List String :=
  tools.filterMap fun t => (t.getStr? "name").filter fun name => name ≠ "" && !isTypedSearchTool t

inductive ServerToolFamily where
  | search
  | webSearch
  | codeExec
  deriving DecidableEq

def serverResultFamily : String → Option ServerToolFamily
  | "tool_search_tool_result" => some .search
  | "web_search_tool_result" => some .webSearch
  | "code_execution_tool_result" => some .codeExec
  | _ => none

/-- The family of a call by its name. A call of another name pairs with every result. -/
def serverCallFamily (name : String) : Option ServerToolFamily :=
  if startsWith TOOL_SEARCH_TYPE_PREFIX name then some .search
  else if startsWith "web_search" name then some .webSearch
  else if startsWith "code_execution" name then some .codeExec
  else none

/-! ### References -/

/-- The tools that a result of a search refers to. -/
def toolSearchReferenceNames (content : Json) : List String :=
  let entries := match content with
    | .obj _ => content.getArr? "tool_references"
    | .arr items => some items
    | _ => none
  (entries.getD []).filterMap fun e =>
    if e.getStr? "type" = some "tool_reference" then
      (((e.get? "tool_name").or (e.get? "name")).bind Json.asStr?).filter fun name => name ≠ ""
    else none

/-- The tool that a reference in a result of the client names. -/
def clientReferenceName (b : Json) : Option String :=
  ((b.getStr? "tool_name").filter fun name => name ≠ "").or (b.getStr? "name")

def isDeadReference (available : List String) (b : Json) : Bool :=
  b.getStr? "type" = some "tool_reference" && (clientReferenceName b).any fun name => name ∉ available

/-- The content of a result of the client without the references to tools that are gone, and how many went. -/
def dropDeadClientReferences (available : List String) (block : Json) : Option (Json × ℕ) :=
  match block.getArr? "content" with
  | none => none
  | some inner =>
    let kept := inner.filter fun b => !isDeadReference available b
    let dropped := inner.length - kept.length
    if dropped = 0 then none
    else some (if kept = [] then .str CLIENT_TOOL_REF_PLACEHOLDER else .arr kept, dropped)

/-! ### One message -/

/-- The families of the calls by their ids. -/
abbrev CallMap : Type := String → Option (Option ServerToolFamily)

/-- The id of a server call with its family. A call without an id is none. -/
def serverCall? (block : Json) : Option (String × Option ServerToolFamily) :=
  if block.getStr? "type" = some "server_tool_use" then
    ((block.getStr? "id").filter fun id => id ≠ "").map fun id =>
      (id, serverCallFamily ((block.getStr? "name").getD ""))
  else none

/-- A call of the same family answers to an id, or one of no known family. -/
def pairOk (m : CallMap) (id : String) (family : ServerToolFamily) : Bool :=
  match m id with
  | some (some f) => f = family
  | some none => true
  | none => false

def isPaired (seen families : CallMap) (family : ServerToolFamily) (block : Json) : Bool :=
  match block.getStr? "tool_use_id" with
  | some id => id ≠ "" && (pairOk seen id family || pairOk families id family)
  | none => false

def isSupported (available : List String) (hasSearchTool : Bool) (family : ServerToolFamily) (block : Json) :
    Bool :=
  match family with
  | .search =>
    hasSearchTool &&
      (toolSearchReferenceNames ((block.get? "content").getD .null)).all fun n => n ∈ available
  | .webSearch | .codeExec => true

/-- What the blocks of a message have shown so far. -/
structure Scan where
  neutralizeIndexes : Finset ℕ := ∅
  genericPlaceholderIndexes : Finset ℕ := ∅
  orphanedIds : Finset String := ∅
  messageServerCalls : List (ℕ × String × Option ServerToolFamily) := []
  messageCallFamilies : CallMap := fun _ => none
  clientResultRewrites : List (ℕ × Json × ℕ) := []

variable (available : List String) (hasSearchTool : Bool)

def scanBlock (seen : CallMap) (scan : Scan) : Json × ℕ → Scan
  | (block, index) =>
    let blockType := block.getStr? "type"
    if blockType = some "tool_result" then
      match dropDeadClientReferences available block with
      | some (content, dropped) =>
        { scan with clientResultRewrites := scan.clientResultRewrites ++ [(index, content, dropped)] }
      | none => scan
    else if blockType = some "server_tool_use" then
      match serverCall? block with
      | some (id, family) =>
        { scan with
          messageCallFamilies := Function.update scan.messageCallFamilies id (some family)
          messageServerCalls := scan.messageServerCalls ++ [(index, id, family)] }
      | none => scan
    else
      match blockType.bind serverResultFamily with
      | none => scan
      | some family =>
        if isSupported available hasSearchTool family block &&
            isPaired seen scan.messageCallFamilies family block then scan
        else
          { scan with
            neutralizeIndexes := insert index scan.neutralizeIndexes
            genericPlaceholderIndexes :=
              if family ≠ .search then insert index scan.genericPlaceholderIndexes
              else scan.genericPlaceholderIndexes
            orphanedIds :=
              match (block.getStr? "tool_use_id").filter fun id => id ≠ "" with
              | some id => insert id scan.orphanedIds
              | none => scan.orphanedIds }

/-- A call that goes: its id is that of a result that goes, or it is a search without the search tool. -/
def isDroppedCall (orphanedIds : Finset String) (block : Json) : Bool :=
  block.getStr? "type" = some "server_tool_use" &&
    (decide ((block.getStr? "id").getD "" ∈ orphanedIds) ||
      (decide (serverCallFamily ((block.getStr? "name").getD "") = some .search) && !hasSearchTool))

def neutralizeUnpairedCalls (content : List Json) (orphanedIds : Finset String) (neutralize : Finset ℕ) :
    Finset ℕ :=
  content.zipIdx.foldl (fun neutralize (block, index) =>
    if isDroppedCall hasSearchTool orphanedIds block then insert index neutralize else neutralize) neutralize

/-- A result that is kept so far goes when it has the id of a call that goes. -/
def neutralizeResult (messageServerCalls : List (ℕ × String × Option ServerToolFamily)) :
    Finset ℕ × Finset ℕ → Json × ℕ → Finset ℕ × Finset ℕ
  | (neutralize, generic), (block, index) =>
    match (block.getStr? "type").bind serverResultFamily with
    | none => (neutralize, generic)
    | some family =>
      if index ∈ neutralize then (neutralize, generic)
      else
        match block.getStr? "tool_use_id" with
        | none => (neutralize, generic)
        | some id =>
          if messageServerCalls.any fun (i, cid, _) => cid = id && decide (i ∈ neutralize) then
            (insert index neutralize, if family ≠ .search then insert index generic else generic)
          else (neutralize, generic)

def neutralizeResultsOfDroppedCalls (content : List Json)
    (messageServerCalls : List (ℕ × String × Option ServerToolFamily)) (indexes : Finset ℕ × Finset ℕ) :
    Finset ℕ × Finset ℕ :=
  content.zipIdx.foldl (neutralizeResult messageServerCalls) indexes

def applyPlaceholders (content : List Json) (neutralize generic : Finset ℕ) : List Json :=
  content.zipIdx.map fun (block, index) =>
    if index ∈ neutralize then
      if index ∈ generic then serverResultPlaceholderBlock else placeholderBlock
    else block

/-- What the repair has so far: the calls that stand, and how many blocks went. -/
structure RepairState where
  seenServerCalls : CallMap
  neutralized : ℕ
  changed : Bool

def repairContent (content : List Json) (s : RepairState) : List Json × RepairState :=
  let scan := content.zipIdx.foldl (scanBlock available hasSearchTool s.seenServerCalls) {}
  let neutralize := neutralizeUnpairedCalls hasSearchTool content scan.orphanedIds scan.neutralizeIndexes
  let (neutralize, generic) := neutralizeResultsOfDroppedCalls content scan.messageServerCalls
    (neutralize, scan.genericPlaceholderIndexes)
  let rewritten := scan.clientResultRewrites.foldl (fun content (index, newContent, _) =>
    content.modify index fun block => block.insert "content" newContent) content
  let dropped := (scan.clientResultRewrites.map fun rewrite => rewrite.2.2).sum
  if neutralize = ∅ then
    (rewritten,
      { seenServerCalls := fun id => (scan.messageCallFamilies id).or (s.seenServerCalls id)
        neutralized := s.neutralized + dropped
        changed := s.changed || scan.clientResultRewrites ≠ [] })
  else
    (applyPlaceholders rewritten neutralize generic,
      { seenServerCalls :=
          (scan.messageServerCalls.filter fun call => call.1 ∉ neutralize).foldl (fun m call =>
            Function.update m call.2.1 (some call.2.2)) s.seenServerCalls
        neutralized := s.neutralized + dropped + neutralize.card
        changed := true })

def repairMessage (message : Json) (s : RepairState) : Json × RepairState :=
  match message.getArr? "content" with
  | none => (message, s)
  | some content =>
    let (content, s) := repairContent available hasSearchTool content s
    (message.insert "content" (.arr content), s)

structure RepairOutcome where
  messages : List Json
  neutralized : ℕ
  deriving DecidableEq

def stripUnsupportedBlocks (messages tools : List Json) : RepairOutcome :=
  let (out, s) := thread (repairMessage (availableToolNames tools) (hasTypedSearchTool tools)) messages
    { seenServerCalls := fun _ => none, neutralized := 0, changed := false }
  { messages := out, neutralized := if s.changed then s.neutralized else 0 }

end Headroom.ToolSearch
