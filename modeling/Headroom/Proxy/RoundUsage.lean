import Headroom.Foundation.JsonObject
import Mathlib.Data.List.Induction

/-!
# Usage of hidden rounds

Each round that the client does not see is billed. What the rounds of a turn used is added up response by response, and
what two parts of a turn used is added up once more.

## Main statements

* `collectGroups_eq_iff` : when the parts together are the whole.
-/

open Foundation

namespace Headroom.Proxy

/-- The value of a number that is an integer of 64 bits. -/
def asI64? : Json → Option ℤ
  | .num literal =>
    match literal.toList with
    | '-' :: digits =>
      let n := Nat.ofDigitChars 10 digits 0
      if digits ≠ [] ∧ digits.all Char.isDigit ∧ n ≠ 0 ∧ n ≤ 2 ^ 63 then some (-n) else none
    | digits =>
      let n := Nat.ofDigitChars 10 digits 0
      if digits ≠ [] ∧ digits.all Char.isDigit ∧ n < 2 ^ 63 then some n else none
  | _ => none

/-- A count of a usage block, zero where there is none. -/
def count (usage : Json) (key : String) : ℤ := ((usage.get? key).bind asI64?).getD 0

/-- What went in, what came out, and what was read from the cache, under the names of all three shapes. -/
def usageCounts (usage : Json) : ℤ × ℤ × ℤ :=
  let details := (usage.get? "input_tokens_details").or (usage.get? "prompt_tokens_details")
  (max (count usage "input_tokens") (count usage "prompt_tokens"),
    max (count usage "output_tokens") (count usage "completion_tokens"),
    max (count usage "cache_read_input_tokens") ((details.map fun d => count d "cached_tokens").getD 0))

/-- What a Responses block wrote to the cache. -/
def responsesCacheWrite (usage : Json) : Option ℤ :=
  (((usage.get? "input_tokens_details").bind (Json.get? "cache_write_tokens")).bind asI64?).map (max · 0)

/-- Usage of the rounds that the client does not see. -/
structure CcrRoundUsage where
  rounds : ℕ := 0
  inputTokens : ℤ := 0
  outputTokens : ℤ := 0
  cacheReadTokens : ℤ := 0
  cacheWriteTokens : ℤ := 0
  cacheWrite1hTokens : ℤ := 0
  responsesLogged : ℕ := 0
  clientInputTokens : ℕ := 0
  clientCacheReadTokens : ℕ := 0
  clientCacheWriteTokens : ℕ := 0
  lastRoundContext : Option (ℤ × ℤ) := none
  deriving DecidableEq

namespace CcrRoundUsage

/-- What is in the context after a round: the input that was not read from the cache, and what was. -/
def contextOf (usage : Json) : ℤ × ℤ :=
  let (input, _, cached) := usageCounts usage
  let exclusive := if (usage.get? "cache_read_input_tokens").isSome then input else input - cached
  (max exclusive 0, max cached 0)

def addResponse (u : CcrRoundUsage) (response : Json) : CcrRoundUsage :=
  match response.get? "usage" with
  | none => { u with lastRoundContext := none }
  | some usage =>
    let (input, output, cached) := usageCounts usage
    let write := max (count usage "cache_creation_input_tokens") ((responsesCacheWrite usage).getD 0)
    let u := if u.rounds = 0 then
      { u with clientInputTokens := input.toNat, clientCacheReadTokens := cached.toNat,
               clientCacheWriteTokens := write.toNat } else u
    { u with
      lastRoundContext := some (contextOf usage)
      rounds := u.rounds + 1
      inputTokens := u.inputTokens + input
      outputTokens := u.outputTokens + output
      cacheReadTokens := u.cacheReadTokens + cached
      cacheWriteTokens := u.cacheWriteTokens + write
      cacheWrite1hTokens := u.cacheWrite1hTokens +
        ((usage.get? "cache_creation").map fun c => count c "ephemeral_1h_input_tokens").getD 0 }

def addResponseLogged (u : CcrRoundUsage) (response : Json) : CcrRoundUsage :=
  addResponse { u with responsesLogged := u.responsesLogged + 1 } response

/-- The rounds of another part of the turn. -/
def absorb (u other : CcrRoundUsage) : CcrRoundUsage :=
  let first := u.rounds = 0 ∧ 0 < other.rounds
  { rounds := u.rounds + other.rounds
    inputTokens := u.inputTokens + other.inputTokens
    outputTokens := u.outputTokens + other.outputTokens
    cacheReadTokens := u.cacheReadTokens + other.cacheReadTokens
    cacheWriteTokens := u.cacheWriteTokens + other.cacheWriteTokens
    cacheWrite1hTokens := u.cacheWrite1hTokens + other.cacheWrite1hTokens
    responsesLogged := u.responsesLogged + other.responsesLogged
    clientInputTokens := if first then other.clientInputTokens else u.clientInputTokens
    clientCacheReadTokens := if first then other.clientCacheReadTokens else u.clientCacheReadTokens
    clientCacheWriteTokens := if first then other.clientCacheWriteTokens else u.clientCacheWriteTokens
    lastRoundContext := if 0 < other.rounds then other.lastRoundContext else u.lastRoundContext }

/-- The usage of some responses. -/
def collect (responses : List Json) : CcrRoundUsage := responses.foldl addResponseLogged {}

/-- The usage of groups of responses, each added up by itself. -/
def collectGroups (groups : List (List Json)) : CcrRoundUsage :=
  groups.foldl (fun u responses => u.absorb (collect responses)) {}

/-! ### All but the context -/

def forgetContext (u : CcrRoundUsage) : CcrRoundUsage := { u with lastRoundContext := none }

theorem eq_iff {u v : CcrRoundUsage} (h : u.forgetContext = v.forgetContext) :
    u = v ↔ u.lastRoundContext = v.lastRoundContext := by
  constructor
  · rintro rfl
    rfl
  · intro hcontext
    cases u
    cases v
    simp only [forgetContext, mk.injEq] at h
    simp only [mk.injEq]
    exact ⟨h.1, h.2.1, h.2.2.1, h.2.2.2.1, h.2.2.2.2.1, h.2.2.2.2.2.1, h.2.2.2.2.2.2.1, h.2.2.2.2.2.2.2.1,
      h.2.2.2.2.2.2.2.2.1, h.2.2.2.2.2.2.2.2.2.1, hcontext⟩

theorem absorb_empty (u : CcrRoundUsage) : u.absorb {} = u := by
  simp [absorb]

/-- The first of three parts that has rounds. -/
theorem first_assoc {α : Type} (a b c : ℕ) (x y z : α) :
    (if a + b = 0 ∧ 0 < c then z else if a = 0 ∧ 0 < b then y else x) =
      if a = 0 ∧ 0 < b + c then if b = 0 ∧ 0 < c then z else y else x := by
  by_cases ha : a = 0 <;> by_cases hb : b = 0 <;> by_cases hc : c = 0 <;> simp [ha, hb, hc, Nat.pos_iff_ne_zero]

/-- The last of three parts that has rounds. -/
theorem last_assoc {α : Type} (b c : ℕ) (x y z : α) :
    (if 0 < c then z else if 0 < b then y else x) = if 0 < b + c then if 0 < c then z else y else x := by
  by_cases hb : b = 0 <;> by_cases hc : c = 0 <;> simp [hb, hc, Nat.pos_iff_ne_zero]

theorem absorb_assoc (u v w : CcrRoundUsage) : (u.absorb v).absorb w = u.absorb (v.absorb w) := by
  simp only [absorb, mk.injEq]
  refine ⟨by omega, by omega, by omega, by omega, by omega, by omega, by omega, ?_, ?_, ?_, ?_⟩
  · exact first_assoc _ _ _ _ _ _
  · exact first_assoc _ _ _ _ _ _
  · exact first_assoc _ _ _ _ _ _
  · exact last_assoc _ _ _ _ _

theorem forgetContext_absorb {u u' v v' : CcrRoundUsage} (hu : u.forgetContext = u'.forgetContext)
    (hv : v.forgetContext = v'.forgetContext) : (u.absorb v).forgetContext = (u'.absorb v').forgetContext := by
  show (u.forgetContext.absorb v.forgetContext).forgetContext = (u'.forgetContext.absorb v'.forgetContext).forgetContext
  rw [hu, hv]

/-- One more response is one more part, but for the context. -/
theorem forgetContext_addResponseLogged (u : CcrRoundUsage) (response : Json) :
    (u.addResponseLogged response).forgetContext =
      (u.absorb (addResponseLogged {} response)).forgetContext := by
  rw [addResponseLogged, addResponse, addResponseLogged, addResponse]
  cases response.get? "usage" with
  | none => simp [forgetContext, absorb]
  | some usage =>
    by_cases hfirst : u.rounds = 0 <;> simp [forgetContext, absorb, hfirst]

theorem forgetContext_foldl (u : CcrRoundUsage) (responses : List Json) :
    (responses.foldl addResponseLogged u).forgetContext = (u.absorb (collect responses)).forgetContext := by
  induction responses using List.reverseRecOn with
  | nil => rw [collect, List.foldl_nil, List.foldl_nil, absorb_empty]
  | append_singleton responses response ih =>
    rw [collect, List.foldl_concat, List.foldl_concat, forgetContext_addResponseLogged, forgetContext_absorb ih rfl,
      absorb_assoc]
    exact forgetContext_absorb rfl (forgetContext_addResponseLogged _ _).symm

theorem forgetContext_collectGroups (groups : List (List Json)) :
    (collectGroups groups).forgetContext = (collect groups.flatten).forgetContext := by
  induction groups using List.reverseRecOn with
  | nil => rfl
  | append_singleton groups responses ih =>
    rw [collect, List.flatten_concat, List.foldl_append, forgetContext_foldl, collectGroups, List.foldl_concat]
    exact forgetContext_absorb ih rfl

/-! ### The context -/

def hasUsage (response : Json) : Bool := (response.get? "usage").isSome

theorem rounds_collect (responses : List Json) : (collect responses).rounds = responses.countP hasUsage := by
  induction responses using List.reverseRecOn with
  | nil => rfl
  | append_singleton responses response ih =>
    rw [collect, List.foldl_concat, List.countP_append, ← ih, List.countP_singleton, addResponseLogged, addResponse,
      hasUsage]
    cases response.get? "usage" with
    | none => rfl
    | some usage =>
      dsimp only [Option.isSome_some]
      rw [if_pos rfl]
      split_ifs <;> rfl

theorem lastRoundContext_addResponseLogged (u : CcrRoundUsage) (response : Json) :
    (u.addResponseLogged response).lastRoundContext = (response.get? "usage").map contextOf := by
  rw [addResponseLogged, addResponse]
  cases response.get? "usage" <;> rfl

theorem lastRoundContext_collect (responses : List Json) :
    (collect responses).lastRoundContext =
      responses.getLast?.bind fun response => (response.get? "usage").map contextOf := by
  induction responses using List.reverseRecOn with
  | nil => rfl
  | append_singleton responses response _ =>
    rw [collect, List.foldl_concat, List.getLast?_concat, Option.bind_some, lastRoundContext_addResponseLogged]

/-- The context of the groups is that of the last one with usage. -/
theorem lastRoundContext_collectGroups (groups : List (List Json)) :
    (collectGroups groups).lastRoundContext =
      (groups.filter (·.any hasUsage)).getLast?.bind fun responses => (collect responses).lastRoundContext := by
  induction groups using List.reverseRecOn with
  | nil => rfl
  | append_singleton groups responses ih =>
    have habsorb : (collectGroups (groups ++ [responses])).lastRoundContext =
        if 0 < (collect responses).rounds then (collect responses).lastRoundContext
        else (collectGroups groups).lastRoundContext := by
      rw [collectGroups, List.foldl_concat]
      rfl
    rw [habsorb, rounds_collect, List.filter_append, ih]
    by_cases husage : responses.any hasUsage = true
    · have hpos : 0 < responses.countP hasUsage := List.countP_pos_iff.mpr (List.any_eq_true.mp husage)
      rw [if_pos hpos, List.filter_cons, if_pos husage, List.filter_nil, List.getLast?_concat]
      rfl
    · have hzero : ¬ 0 < responses.countP hasUsage := fun hpos =>
        husage (List.any_eq_true.mpr (List.countP_pos_iff.mp hpos))
      rw [if_neg hzero, List.filter_cons, if_neg husage, List.filter_nil, List.append_nil]

theorem lastRoundContext_collect_eq_none {responses : List Json} :
    (collect responses).lastRoundContext = none ↔ ∀ r ∈ responses.getLast?, hasUsage r = false := by
  rw [lastRoundContext_collect, Option.bind_eq_none_iff]
  refine forall₂_congr fun r _ => ?_
  rw [Option.map_eq_none_iff, hasUsage, Option.isSome_eq_false_iff, Option.isNone_iff_eq_none]

/-- A last response with usage is the last one of the last group with usage. -/
theorem getLast?_filter_hasUsage {groups : List (List Json)} {r : Json} (h : groups.flatten.getLast? = some r)
    (husage : hasUsage r = true) :
    ∃ responses, (groups.filter (·.any hasUsage)).getLast? = some responses ∧ responses.getLast? = some r := by
  induction groups using List.reverseRecOn with
  | nil => exact absurd h (Option.some_ne_none r).symm
  | append_singleton groups responses ih =>
    rw [List.flatten_concat] at h
    rw [List.filter_append]
    by_cases hempty : responses = []
    · rw [hempty, List.append_nil] at h
      obtain ⟨last, hlast, hr⟩ := ih h
      refine ⟨last, ?_, hr⟩
      rw [hempty, List.filter_cons, if_neg (by decide), List.filter_nil, List.append_nil, hlast]
    · rw [List.getLast?_append_of_ne_nil _ hempty] at h
      refine ⟨responses, ?_, h⟩
      have hany : responses.any hasUsage = true :=
        List.any_eq_true.mpr ⟨r, List.mem_of_getLast? h, husage⟩
      rw [List.filter_cons, if_pos hany, List.filter_nil, List.getLast?_concat]

/-- If the last response of all has no usage, neither has the last one of the last group that has any. -/
def EndsAlike (groups : List (List Json)) : Prop :=
  (∀ r ∈ groups.flatten.getLast?, hasUsage r = false) →
    ∀ responses ∈ (groups.filter (·.any hasUsage)).getLast?, ∀ r ∈ responses.getLast?, hasUsage r = false

end CcrRoundUsage

end Headroom.Proxy
