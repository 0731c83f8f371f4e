import Headroom.ToolSearch.Repair

/-!
# Deferring tools behind a search tool

A request with many tools is sent with a search tool in front, and the tools outside a core set are marked so that
they are loaded on demand. A deferred tool cannot carry a cache breakpoint: the breakpoint moves to the last real tool
that stays. For an upstream without the mechanism the search tool and the marks are taken off again.
-/

open Foundation

namespace Headroom.ToolSearch

def TOOL_SEARCH_TYPE : String := "tool_search_tool_regex_20251119"

def TOOL_SEARCH_NAME : String := "tool_search_tool_regex"

/-- Below this many tools nothing is deferred. -/
def MIN_TOOLS : ℕ := 12

/-- The tools that stay by default. -/
def CORE_TOOLS : List String :=
  ["bash", "bash_background", "bash_background_output", "bash_background_wait", "bash_background_kill", "read",
    "write", "edit", "multiedit", "apply_patch", "glob", "grep", "task", "todowrite", "todoread", "webfetch",
    "question", "skill", "toolsearch"]

/-- The other spellings of a search tool, as a type or a name. -/
def TOOL_SEARCH_META_TOOL_NAMES : List String :=
  ["tool_search", "tool_search_tool", "tool_search_tool_regex", "composio_search_tools"]

def injectedSearchTool : Json := .obj [("type", .str TOOL_SEARCH_TYPE), ("name", .str TOOL_SEARCH_NAME)]

section Names

/- The lower case of Unicode. -/
variable (toLowercase : String → String)

/-- A name in lower case without leading underscores. -/
def residentKey (name : String) : String := String.ofList ((toLowercase name).toList.dropWhile fun c => c = '_')

/-- The key of the name of a tool. -/
def toolKey (tool : Json) : String := residentKey toLowercase ((tool.getStr? "name").getD "")

/-- The tools, and those one level inside a namespace. -/
def toolEntries (tools : List Json) : List Json :=
  tools.flatMap fun t =>
    t :: if t.getStr? "type" = some "namespace" then (t.getArr? "tools").getD [] else []

def isMeta (name : String) : Bool :=
  startsWith TOOL_SEARCH_TYPE_PREFIX name || TOOL_SEARCH_META_TOOL_NAMES.contains name

def isToolSearchMetaTool (tool : Json) : Bool :=
  (tool.getStr? "type").any isMeta || (tool.getStr? "name").any fun name => isMeta (residentKey toLowercase name)

/-- A tool that is loaded on demand. -/
def isDeferred (tool : Json) : Bool := tool.get? "defer_loading" = some (.bool true)

/-- The client defers its tools itself. -/
def clientUsesToolSearch (tools : List Json) : Bool :=
  (toolEntries tools).any fun t => isToolSearchMetaTool toLowercase t || isDeferred t

/-! ### An upstream without the mechanism -/

structure StripOutcome where
  tools : List Json
  removed : ℕ
  undeferred : ℕ

/-- The tools without the search tools, and with none deferred. -/
def stripForThirdPartyUpstream (tools : List Json) : StripOutcome :=
  if !hasTypedSearchTool tools then { tools, removed := 0, undeferred := 0 }
  else
    let rest := tools.filter fun t => !isTypedSearchTool t
    let kept := rest.map fun t => if isDeferred t then t.remove "defer_loading" else t
    { tools := kept, removed := tools.length - kept.length, undeferred := rest.countP fun t => isDeferred t }

/-! ### Deferring -/

structure InjectOutcome where
  tools : List Json
  changed : Bool
  deferred : List Json
  coreDeferred : List Json

def unchanged (tools : List Json) : InjectOutcome := { tools, changed := false, deferred := [], coreDeferred := [] }

/-- An object without a type. -/
def isTypeless (tool : Json) : Bool := tool.isObj && (tool.get? "type").isNone

section Core

variable (coreTools : List String)

/-- A tool of the core set, or the one that resolves the tools of the client. -/
def isCore (tool : Json) : Bool :=
  toolKey toLowercase tool = "toolsearch" || coreTools.any fun c => c = toolKey toLowercase tool

/-- What is remembered over the tools: the ones that go out so far, how many are deferred, the breakpoint that was
taken off one and whether there was any, the place of the last real tool that stays and whether one of those has a
breakpoint. -/
structure Deferring where
  out : List Json
  deferred : ℕ
  droppedMarker : Option Json
  droppedCacheControl : Bool
  lastResidentReal : Option ℕ
  residentHasCacheControl : Bool

/-- A breakpoint is there and not null. -/
def isMarked (tool : Json) : Bool := (tool.get? "cache_control").any fun c => c ≠ .null

/-- Take one tool. -/
def deferStep (s : Deferring) (tool : Json) : Deferring :=
  if !isTypeless tool || isCore toLowercase coreTools tool then
    -- A real tool is an object without a type; a breakpoint of any other tool is not looked at.
    if isTypeless tool then
      { s with
        lastResidentReal := some s.out.length
        residentHasCacheControl := s.residentHasCacheControl || isMarked tool
        out := s.out ++ [tool] }
    else { s with out := s.out ++ [tool] }
  else
    let newTool := tool.insert "defer_loading" (.bool true)
    match newTool.get? "cache_control" with
    | some dropped =>
      { s with
        droppedCacheControl := true
        droppedMarker := if dropped.isObj then some dropped else s.droppedMarker
        out := s.out ++ [newTool.remove "cache_control"]
        deferred := s.deferred + 1 }
    | none => { s with out := s.out ++ [newTool], deferred := s.deferred + 1 }

/-- Take all tools, behind the search tool. -/
def deferAll (tools : List Json) : Deferring :=
  tools.foldl (deferStep toLowercase coreTools)
    { out := [injectedSearchTool]
      deferred := 0
      droppedMarker := none
      droppedCacheControl := false
      lastResidentReal := none
      residentHasCacheControl := false }

/-- The breakpoint that stands for one that was no object. -/
def ephemeralMarker : Json := .obj [("type", .str "ephemeral")]

/-- The breakpoint of a deferred tool goes to the last real tool that stays, when none of those has one. -/
def placeDropped (s : Deferring) : List Json :=
  match s.lastResidentReal with
  | some idx =>
    if s.droppedCacheControl && !s.residentHasCacheControl then
      s.out.modify idx fun t => t.insert "cache_control" (s.droppedMarker.getD ephemeralMarker)
    else s.out
  | none => s.out

/-- The tools with those outside the core set deferred behind a search tool. -/
def injectDeferralWithCore (tools : List Json) : InjectOutcome :=
  if tools.length < MIN_TOOLS || clientUsesToolSearch toLowercase tools then unchanged tools
  else
    let s := deferAll toLowercase coreTools tools
    if s.deferred = 0 then unchanged (s.out.drop 1)
    else
      let out := placeDropped s
      let deferredTools := out.filter isDeferred
      { tools := out
        changed := true
        deferred := deferredTools
        coreDeferred := deferredTools.filter fun t => CORE_TOOLS.contains (toolKey toLowercase t) }

end Core

end Names

end Headroom.ToolSearch
