import Headroom.Foundation.FirstSeen
import Headroom.Foundation.Lru
import Headroom.Foundation.Separated
import Headroom.Semantic.Partition

/-!
# Sticky beta headers

A client may drop a beta token between two turns of a conversation, which changes the prefix under which the provider
caches. The tokens of a session are remembered for each provider, in the order in which they came first, and a request
is forwarded with all of them.
-/

open Foundation
open Headroom.Semantic (HeaderMap toAsciiLowercase latin1 isVisible)

namespace Headroom.CacheStabilization

/-- How many sessions are tracked. -/
def BETA_TRACKER_CAPACITY : ℕ := 1000

/-- The upstream of a set of tokens. -/
inductive BetaProvider where
  | Anthropic
  | OpenAi
  deriving DecidableEq, Repr

/-- The header in which the tokens of a provider travel. -/
def BetaProvider.headerName : BetaProvider → String
  | .Anthropic => "anthropic-beta"
  | .OpenAi => "openai-beta"

abbrev Token : Type := List Char

/-- The trimmed tokens of a value, without the empty ones. -/
def splitBetaTokens (value : Option (List Char)) : List Token :=
  (((value.getD []).splitOn ',').map Text.trim).filter fun t => t ≠ []

/-- Tokens as one value. -/
def join (tokens : List (List Char)) : List Char := [','].intercalate tokens

/-- The tokens of each session of a provider. -/
abbrev SessionTokenCache : Type := Lru (BetaProvider × String) (List Token)

/-- The tokens of a session and those of a request as one value, and the tracker with them. -/
def recordAndGetStickyBetas (sessions : SessionTokenCache) (provider : BetaProvider) (sessionKey : String)
    (clientValue : Option (List Char)) : List Char × SessionTokenCache :=
  let clientTokens := splitBetaTokens clientValue
  let key := (provider, sessionKey)
  match sessions.peek key with
  | some held =>
    let merged := pushUnseen toAsciiLowercase (held.map toAsciiLowercase) held clientTokens
    (join merged, sessions.modify key fun _ => merged)
  | none =>
    let merged := pushUnseen toAsciiLowercase [] [] clientTokens
    (join merged, sessions.put key merged)

/-! ### The header of a request -/

/-- The lines of a header. -/
def getAll (headers : HeaderMap) (name : String) : List Bytes :=
  (headers.filter fun h => h.1 = name).map Prod.snd

/-- One line in place of all lines of a header. -/
def insert (name : String) (value : Bytes) : HeaderMap → HeaderMap
  | [] => [(name, value)]
  | h :: rest =>
    if h.1 = name then (name, value) :: rest.filter fun h => h.1 ≠ name
    else h :: insert name value rest

/-- The conversions of header values, which are not part of the proxy. -/
structure HeaderText where
  toStr : Bytes → Option (List Char)
  fromStr : List Char → Option Bytes

/-- The value of a header, its lines joined; none for a request with a line that is no text. -/
def collectClientBetas (o : HeaderText) (headers : HeaderMap) (headerName : String) :
    Option (Option (List Char)) :=
  match (getAll headers headerName).mapM o.toStr with
  | none => none
  | some parts => some (if parts = [] then none else some (join parts))

/-- The headers with the value of a session, when it is not empty and differs from that of the client. -/
def rewriteStickyHeader (o : HeaderText) (headers : HeaderMap) (headerName : String) (sticky : List Char)
    (clientValue : Option (List Char)) : HeaderMap :=
  if sticky ≠ [] ∧ sticky ≠ clientValue.getD [] then
    match o.fromStr sticky with
    | some value => insert headerName value headers
    | none => headers
  else headers

/-- Record the tokens of a request and rewrite its header to those of the session. -/
def applyStickyBetas (o : HeaderText) (tracker : SessionTokenCache) (provider : BetaProvider) (sessionKey : String)
    (headers : HeaderMap) : HeaderMap × SessionTokenCache :=
  match collectClientBetas o headers provider.headerName with
  | none => (headers, tracker)
  | some clientValue =>
    let (sticky, tracker) := recordAndGetStickyBetas tracker provider sessionKey clientValue
    (rewriteStickyHeader o headers provider.headerName sticky clientValue, tracker)

/-! ### Tokens and values -/

/-- A token: not empty, without commas, without blanks around it. -/
structure IsToken (t : Token) : Prop where
  ne_nil : t ≠ []
  noComma : ',' ∉ t
  trim_eq : Text.trim t = t

theorem isToken_of_mem_splitBetaTokens {value : Option (List Char)} {t : Token} (h : t ∈ splitBetaTokens value) :
    IsToken t := by
  obtain ⟨hmem, hne⟩ := List.mem_filter.mp h
  obtain ⟨piece, hpiece, rfl⟩ := List.mem_map.mp hmem
  exact ⟨of_decide_eq_true hne, fun hcomma => (of_mem_splitOn hpiece).1 (Text.trim_subset piece hcomma),
    Text.trim_trim piece⟩

theorem subset_of_mem_splitBetaTokens {value : List Char} {t : Token} (h : t ∈ splitBetaTokens (some value)) :
    t ⊆ value := by
  obtain ⟨piece, hpiece, rfl⟩ := List.mem_map.mp (List.mem_filter.mp h).1
  exact List.Subset.trans (Text.trim_subset piece) (of_mem_splitOn hpiece).2

theorem splitBetaTokens_nil : splitBetaTokens (some []) = [] := rfl

theorem splitBetaTokens_lines (lines : List (List Char)) :
    splitBetaTokens (some (join lines)) = lines.flatMap fun line => splitBetaTokens (some line) := by
  rcases lines with _ | ⟨line, rest⟩
  · exact splitBetaTokens_nil
  · rw [splitBetaTokens, join, Option.getD_some, splitOn_intercalate_flatMap (List.cons_ne_nil _ _),
      List.map_flatMap, List.filter_flatMap]
    rfl

theorem IsToken.splitBetaTokens_eq {t : Token} (h : IsToken t) : splitBetaTokens (some t) = [t] := by
  rw [splitBetaTokens, Option.getD_some, List.splitOn_eq_singleton h.noComma, List.map_singleton, h.trim_eq]
  exact List.filter_cons_of_pos (decide_eq_true h.ne_nil)

/-- Tokens are read back from the value that they are joined to. -/
theorem splitBetaTokens_join {tokens : List Token} (h : ∀ t ∈ tokens, IsToken t) :
    splitBetaTokens (some (join tokens)) = tokens := by
  rw [splitBetaTokens_lines]
  calc tokens.flatMap (fun t => splitBetaTokens (some t)) = tokens.flatMap fun t => [t] :=
        List.flatMap_congr fun t ht => (h t ht).splitBetaTokens_eq
    _ = tokens := List.flatMap_singleton' tokens

theorem join_eq_nil_iff {tokens : List Token} (h : ∀ t ∈ tokens, IsToken t) : join tokens = [] ↔ tokens = [] := by
  constructor
  · intro hjoin
    rw [← splitBetaTokens_join h, hjoin, splitBetaTokens_nil]
  · rintro rfl
    rfl

/-! ### Lines -/

/-- A text of visible ASCII. -/
def IsVisibleText (text : List Char) : Prop := ∀ c ∈ text, (32 ≤ c.toNat ∧ c.toNat < 127) ∨ c = '\t'

/-- What the conversions do: only visible ASCII is a text, which has its bytes as characters, and every such text
is a value. -/
structure HeaderText.Documented (o : HeaderText) : Prop where
  toStr_eq : ∀ value, o.toStr value = if isVisible value then some (latin1 value) else none
  fromStr_of_visible : ∀ text, IsVisibleText text → ∃ value, o.fromStr text = some value ∧ o.toStr value = some text

theorem isVisibleText_latin1 {value : Bytes} (h : isVisible value = true) : IsVisibleText (latin1 value) := by
  intro c hc
  obtain ⟨b, hb, rfl⟩ := List.mem_map.mp hc
  have hvisible := List.all_eq_true.mp h b hb
  have hlt : b.toNat < 256 := b.toNat_lt
  have htoNat : (Char.ofNat b.toNat).toNat = b.toNat := by
    rw [Char.ofNat, dif_pos (Or.inl (by omega))]
    rfl
  rw [Bool.or_eq_true, Bool.and_eq_true, decide_eq_true_eq, decide_eq_true_eq, decide_eq_true_eq] at hvisible
  rcases hvisible with ⟨hlow, hhigh⟩ | rfl
  · refine Or.inl ?_
    rw [htoNat]
    exact ⟨hlow, hhigh⟩
  · exact Or.inr rfl

theorem isVisibleText_join {texts : List (List Char)} (h : ∀ t ∈ texts, IsVisibleText t) :
    IsVisibleText (join texts) := by
  induction texts with
  | nil => exact fun c hc => absurd hc List.not_mem_nil
  | cons text rest ih =>
    obtain ⟨htext, hrest⟩ := List.forall_mem_cons.mp h
    rcases rest with _ | ⟨next, rest⟩
    · rwa [join, List.intercalate_singleton]
    · intro c hc
      rw [join, List.intercalate_cons_cons, List.append_assoc, List.mem_append, List.mem_append,
        List.mem_singleton] at hc
      rcases hc with hc | rfl | hc
      · exact htext c hc
      · exact Or.inl (by decide)
      · exact ih hrest c hc

theorem getAll_insert (name : String) (value : Bytes) (headers : HeaderMap) :
    getAll (insert name value headers) name = [value] := by
  induction headers with
  | nil => simp [insert, getAll]
  | cons h rest ih =>
    rw [insert]
    split_ifs with hname
    · have hrest : (rest.filter fun h => h.1 ≠ name).filter (fun h => h.1 = name) = [] := by
        rw [List.filter_filter, List.filter_eq_nil_iff]
        simp
      rw [getAll, List.filter_cons, if_pos (by simp), hrest]
      rfl
    · rw [getAll, List.filter_cons_of_neg (by simpa using hname)]
      exact ih

section Documented

variable {o : HeaderText} (ho : o.Documented)
include ho

theorem HeaderText.Documented.mapM_toStr (lines : List Bytes) :
    lines.mapM o.toStr = if ∀ line ∈ lines, isVisible line = true then some (lines.map latin1) else none := by
  induction lines with
  | nil => rfl
  | cons line lines ih =>
    have hall : (∀ l ∈ line :: lines, isVisible l = true) ↔
        isVisible line = true ∧ ∀ l ∈ lines, isVisible l = true := List.forall_mem_cons
    rw [List.mapM_cons, ho.toStr_eq, ih]
    by_cases hline : isVisible line = true
    · rw [if_pos hline]
      by_cases hlines : ∀ l ∈ lines, isVisible l = true
      · rw [if_pos hlines, if_pos (hall.mpr ⟨hline, hlines⟩)]
        rfl
      · rw [if_neg hlines, if_neg fun h => hlines (hall.mp h).2]
        rfl
    · rw [if_neg hline, if_neg fun h => hline (hall.mp h).1]
      rfl

end Documented

/-! ### One request -/

/-- What is held for a session. -/
def held (sessions : SessionTokenCache) (key : BetaProvider × String) : List Token :=
  (sessions.peek key).getD []

theorem recordAndGetStickyBetas_eq (sessions : SessionTokenCache) (provider : BetaProvider) (sessionKey : String)
    (clientValue : Option (List Char)) :
    recordAndGetStickyBetas sessions provider sessionKey clientValue =
      let merged := pushUnseen toAsciiLowercase ((held sessions (provider, sessionKey)).map toAsciiLowercase)
        (held sessions (provider, sessionKey)) (splitBetaTokens clientValue)
      (join merged, sessions.put (provider, sessionKey) merged) := by
  rw [recordAndGetStickyBetas, held]
  rcases hpeek : sessions.peek (provider, sessionKey) with _ | tokens
  · rfl
  · simp only [Lru.modify, hpeek, Option.getD_some]

end Headroom.CacheStabilization
