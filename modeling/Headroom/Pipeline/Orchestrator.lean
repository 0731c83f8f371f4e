import Mathlib.Data.String.Basic

/-!
# The compression pipeline

A text goes through the reformats of its type, until enough is saved, and then through its offloads. An offload runs
when its own score is high, or when the reformats did little and the score is positive. A step that fails or saves
nothing leaves everything as it was.
-/

namespace Headroom.Pipeline

inductive ContentType where
  | jsonArray
  | sourceCode
  | searchResults
  | buildOutput
  | gitDiff
  | html
  | tabular
  | structuredConfig
  | plainText
  deriving DecidableEq

inductive TransformError where
  | invalidInput (transform message : String)
  | skipped (transform message : String)
  | internal (transform message : String)

/-- What a transform is told about the call. -/
structure CompressionContext where
  query : String
  tokenBudget : Option ℕ

structure ReformatOutput where
  output : String
  bytesSaved : ℕ

def ReformatOutput.fromLengths (inputLen : ℕ) (output : String) : ReformatOutput where
  output := output
  bytesSaved := inputLen - output.utf8ByteSize

structure OffloadOutput where
  output : String
  bytesSaved : ℕ
  cacheKey : String

def OffloadOutput.fromLengths (inputLen : ℕ) (output cacheKey : String) : OffloadOutput where
  output := output
  bytesSaved := inputLen - output.utf8ByteSize
  cacheKey := cacheKey

/-! ### The steps of a pipeline -/

/-- A transform that packs a text denser. What it saved is computed from the lengths. -/
structure ReformatTransform where
  name : String
  apply : String → Except TransformError ReformatOutput
  from_lengths : ∀ content out, apply content = .ok out → out = .fromLengths content.utf8ByteSize out.output

/-- A transform that drops bytes of a text and keeps the whole of it in a store, under the key that it returns. -/
structure OffloadTransform {Store : Type*} (lookup : Store → String → Option String) (S : Type*) where
  name : String
  estimateBloat : String → S
  apply : String → CompressionContext → Store → Except TransformError OffloadOutput × Store
  from_lengths : ∀ content ctx store out, (apply content ctx store).1 = .ok out →
    out = .fromLengths content.utf8ByteSize out.output out.cacheKey
  stored : ∀ content ctx store out, (apply content ctx store).1 = .ok out →
    lookup (apply content ctx store).2 out.cacheKey = some content

/-- How scores and ratios are computed and compared. -/
structure Numbers (S Q : Type*) where
  scoreAtLeast : S → S → Bool
  scorePositive : S → Bool
  ratio : ℕ → ℕ → Q
  ratioAtMost : Q → Q → Bool
  ratioAbove : Q → Q → Bool

structure PipelineConfig (S Q : Type*) where
  bloatThreshold : S
  offloadFallbackRatio : Q
  reformatTargetRatio : Q

variable {Store S Q : Type*} {lookup : Store → String → Option String} (N : Numbers S Q) (config : PipelineConfig S Q)

/-! ### Reformats -/

structure ReformatAccumulator where
  output : String
  bytesSaved : ℕ
  steps : List String

/-- Whether enough is saved already. -/
def reformatTargetReached (current : String) (originalLen : ℕ) : Bool :=
  N.ratioAtMost (N.ratio current.utf8ByteSize (max originalLen 1)) config.reformatTargetRatio

/-- One reformat; none when the phase is over. -/
def applyReformatStep (transform : ReformatTransform) (acc : ReformatAccumulator) (originalLen : ℕ) :
    Option ReformatAccumulator :=
  if reformatTargetReached N config acc.output originalLen then none
  else
    match transform.apply acc.output with
    | .ok out =>
      if out.bytesSaved = 0 then some acc
      else
        some
          { output := out.output
            bytesSaved := acc.bytesSaved + out.bytesSaved
            steps := acc.steps ++ [transform.name] }
    | .error _ => some acc

/-- The reformats in their order. -/
def reformatLoop (originalLen : ℕ) : List ReformatTransform → ReformatAccumulator → ReformatAccumulator
  | [], acc => acc
  | transform :: rest, acc =>
    match applyReformatStep N config transform acc originalLen with
    | some acc => reformatLoop originalLen rest acc
    | none => acc

def runReformats (content : String) (reformats : List ReformatTransform) : ReformatAccumulator :=
  reformatLoop N config content.utf8ByteSize reformats { output := content, bytesSaved := 0, steps := [] }

/-! ### Offloads -/

/-- Whether an offload runs. -/
def offloadPassesGate (score : S) (reformatRatio : Q) : Bool :=
  N.scoreAtLeast score config.bloatThreshold ||
    (N.ratioAbove reformatRatio config.offloadFallbackRatio && N.scorePositive score)

structure OffloadApplication where
  output : String
  bytesSaved : ℕ
  step : String
  cacheKey : String

def maybeApplyOffload (offload : OffloadTransform lookup S) (score : S) (reformatRatio : Q) (current : String)
    (ctx : CompressionContext) (store : Store) : Option OffloadApplication × Store :=
  if offloadPassesGate N config score reformatRatio then
    match offload.apply current ctx store with
    | (.ok out, store) =>
      if out.bytesSaved = 0 then (none, store)
      else
        (some
          { output := out.output, bytesSaved := out.bytesSaved, step := offload.name, cacheKey := out.cacheKey }, store)
    | (.error _, store) => (none, store)
  else (none, store)

/-! ### The pipeline -/

structure PipelineResult where
  output : String
  bytesSaved : ℕ
  stepsApplied : List String
  cacheKeys : List String

/-- One offload with its score, taken to the result so far. -/
def offloadStep (reformatRatio : Q) (ctx : CompressionContext) (state : PipelineResult × Store)
    (x : OffloadTransform lookup S × S) : PipelineResult × Store :=
  match maybeApplyOffload N config x.1 x.2 reformatRatio state.1.output ctx state.2 with
  | (some applied, store) =>
    ({ output := applied.output
       bytesSaved := state.1.bytesSaved + applied.bytesSaved
       stepsApplied := state.1.stepsApplied ++ [applied.step]
       cacheKeys := state.1.cacheKeys ++ [applied.cacheKey] }, store)
  | (none, store) => (state.1, store)

def estimateBloats (content : String) (offloads : List (OffloadTransform lookup S)) : List S :=
  offloads.map fun o => o.estimateBloat content

structure CompressionPipeline {Store : Type*} (lookup : Store → String → Option String) (S Q : Type*) where
  reformatsByType : ContentType → List ReformatTransform
  offloadsByType : ContentType → List (OffloadTransform lookup S)
  config : PipelineConfig S Q

namespace CompressionPipeline

/-- The text of a pipeline behind its reformats. -/
def reformatted (p : CompressionPipeline lookup S Q) (content : String) (contentType : ContentType) :
    ReformatAccumulator :=
  runReformats N p.config content (p.reformatsByType contentType)

def run (p : CompressionPipeline lookup S Q) (content : String) (contentType : ContentType)
    (ctx : CompressionContext) (store : Store) : PipelineResult × Store :=
  if content.utf8ByteSize = 0 then ({ output := "", bytesSaved := 0, stepsApplied := [], cacheKeys := [] }, store)
  else
    let acc := p.reformatted N content contentType
    let offloads := p.offloadsByType contentType
    (offloads.zip (estimateBloats content offloads)).foldl
      (offloadStep N p.config (N.ratio acc.output.utf8ByteSize content.utf8ByteSize) ctx)
      ({ output := acc.output, bytesSaved := acc.bytesSaved, stepsApplied := acc.steps, cacheKeys := [] }, store)

end CompressionPipeline

end Headroom.Pipeline
