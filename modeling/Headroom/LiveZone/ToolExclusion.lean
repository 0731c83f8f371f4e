import Headroom.Foundation.Json
import Headroom.Foundation.Text

/-!
# Which tools are which

A tool comes under several names: a client may prefix the name of the server to it, in one of two ways.
An entry of an exclusion list matches every spelling of the tool that it names. An orchestrator hides the
tool that it calls in the script that it is given.
-/

open Foundation

namespace Headroom.LiveZone

/-- What is taken from elsewhere: lower case, globs, what a script calls, the parser of JSON, and whether
a command reads a file. -/
structure NameRules where
  toLowercase : String → String
  globMatches : String → String → Bool
  scriptInvokesRetrieve : String → Bool
  parseJson : String → Option Json
  isReadCommand : String → Bool

def DEFAULT_VERBATIM_EXCLUDE_TOOLS : List String :=
  ["WebSearch", "WebFetch", "web_search", "web_fetch", "view", "headroom_retrieve", "caveman_retrieve"]

def DEFAULT_BYTE_EXACT_EXCLUDE_TOOLS : List String := ["Read", "read", "read_file", "Skill", "skill"]

def CCR_TOOL_NAME : String := "headroom_retrieve"

def ORCHESTRATOR_WRAPPER_NAMES : List String := ["execute", "exec", "functions.exec"]

def SHELL_TOOL_NAMES : List String :=
  ["bash", "shell", "local_shell", "run_shell_command", "execute_command", "exec_command", "terminal",
    "run_command", "run_terminal_command", "shell_command", "write_stdin"]

/-! ### Spellings -/

def toAsciiLowercase (name : List Char) : List Char := name.map Char.toLower

/-- A text cut at the first place where a separator stands. -/
def splitOnce (sep text : List Char) : Option (List Char × List Char) :=
  (Text.find? sep text).map fun i => (text.take i, text.drop (i + sep.length))

/-- A text cut in three at the first two separators, if the parts behind the first are not empty. -/
def serverAndTool (sep name : List Char) : Option (List Char × List Char) := do
  let (_, rest) ← splitOnce sep name
  let (server, tool) ← splitOnce sep rest
  if server ≠ [] ∧ tool ≠ [] then some (server, tool) else none

def toolNameAliases (name : String) : List String :=
  let lname := toAsciiLowercase name.toList
  let aliases :=
    if lname = "headroom_headroom_retrieve".toList then [name, "headroom_retrieve"]
    else if "mcp__".toList.isPrefixOf lname then
      match serverAndTool "__".toList name.toList with
      | some (server, tool) =>
        [name, String.ofList ("mcp_".toList ++ server ++ '_' :: tool), String.ofList tool]
      | none => [name]
    else if "mcp_".toList.isPrefixOf lname then
      match serverAndTool "_".toList name.toList with
      | some (server, tool) =>
        [name, String.ofList ("mcp__".toList ++ server ++ "__".toList ++ tool), String.ofList tool]
      | none => [name]
    else [name]
  aliases.eraseReps

/-! ### Exclusion -/

variable (N : NameRules)

def isGlob (pattern : String) : Bool := pattern.toList.any fun c => c == '*' || c == '?' || c == '['

def isToolExcluded (name : String) (excludeTools : List String) : Bool :=
  if excludeTools = [] ∨ name = "" then false
  else
    let aliases := toolNameAliases name
    let lowerExact := excludeTools.map N.toLowercase
    if aliases.any fun spelling =>
        excludeTools.contains spelling || lowerExact.contains (N.toLowercase spelling) then true
    else (excludeTools.filter isGlob).any fun pattern =>
      aliases.any fun spelling => N.globMatches (N.toLowercase pattern) (N.toLowercase spelling)

def isVerbatimExcluded (name : String) : Bool := isToolExcluded N name DEFAULT_VERBATIM_EXCLUDE_TOOLS

def isByteExactExcluded (name : String) : Bool := isToolExcluded N name DEFAULT_BYTE_EXACT_EXCLUDE_TOOLS

def isCcrRetrieveTool (name : String) : Bool := isToolExcluded N name [CCR_TOOL_NAME]

def isMcpToolName (name : String) : Bool :=
  match name.toList with
  | m :: c :: p :: rest =>
    toAsciiLowercase [m, c, p] == "mcp".toList && match rest with
    | '_' :: _ => true
    | '-' :: '-' :: _ => true
    | _ => false
  | _ => false

def isShellToolName (name : String) : Bool :=
  SHELL_TOOL_NAMES.any fun shell => toAsciiLowercase shell.toList == toAsciiLowercase name.toList

def mcpResultIsSmall (text : List Char) (minChars : ℕ) : Bool := text.length < minChars

/-! ### Orchestrators -/

/-- The strings in a value. -/
def decodedStrings : Json → List String
  | .str s => [s]
  | .arr items => ofItems items
  | .obj fields => ofFields fields
  | _ => []
where
  /-- The strings in the items of an array. -/
  ofItems : List Json → List String
    | [] => []
    | item :: items => decodedStrings item ++ ofItems items
  /-- The strings in the values of an object. -/
  ofFields : List (String × Json) → List String
    | [] => []
    | (_, value) :: fields => decodedStrings value ++ ofFields fields

def orchestratorInvokesRetrieve (name : String) (arguments : Option Json) : Bool :=
  if !ORCHESTRATOR_WRAPPER_NAMES.contains name then false
  else match arguments with
  | some (.str raw) =>
    match N.parseJson raw with
    | some (.obj fields) => (decodedStrings (.obj fields)).any N.scriptInvokesRetrieve
    | some _ => false
    | none => N.scriptInvokesRetrieve raw
  | some (.obj fields) => (decodedStrings (.obj fields)).any N.scriptInvokesRetrieve
  | _ => false

def unwrapToolCallName (name : String) (arguments : Option Json) : String :=
  if orchestratorInvokesRetrieve N name arguments then CCR_TOOL_NAME else name

/-! ### Commands -/

/-- A token of a command. -/
def commandToken : Json → String
  | .str s => s
  | other => String.ofList other.compact

/-- The command in the arguments of a call. -/
def commandOf (arguments : Json) : String :=
  match (arguments.get? "command").or (arguments.get? "cmd") with
  | some (.str s) => s
  | some (.arr items) => " ".intercalate (items.map commandToken)
  | _ => ""

def toolCallCommandText (raw : Json) : String :=
  match raw with
  | .str s => match N.parseJson s with
    | some arguments => commandOf arguments
    | none => s
  | other => commandOf other

/-! ### Every spelling of an entry matches -/

variable {N}

end Headroom.LiveZone
