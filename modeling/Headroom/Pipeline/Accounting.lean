import Headroom.Pipeline.Orchestrator

/-!
# What a run of the compression pipeline books

The steps of a run are followed by the log of the offloads that were applied. What is booked as saved is always what
the text lost, whatever step failed, was skipped or saved nothing. Each entry of the log received the text that the
entry before it left, so a store that keeps what it was given leads from the last key back to the reformatted text.

## Main results

* `CompressionPipeline.run_accounted` : the accounts of a run, and its way back.
-/

namespace Headroom.Pipeline

variable {Store S Q : Type*} {lookup : Store → String → Option String}

/-! ### Accounts -/

/-- A text with the bytes and the steps that are booked for it, against the text that it came from. -/
structure Booked (content output : String) (bytesSaved : ℕ) (steps : List String) : Prop where
  balance : bytesSaved + output.utf8ByteSize = content.utf8ByteSize
  idle : steps = [] → output = content
  saves : steps ≠ [] → 0 < bytesSaved

namespace Booked

theorem refl (content : String) : Booked content content 0 [] where
  balance := Nat.zero_add _
  idle _ := rfl
  saves h := absurd rfl h

variable {content output : String} {saved : ℕ} {steps : List String}

/-- A step that saved something is booked. -/
theorem step {content output out step : String} {saved more : ℕ}
    (h : Booked content output saved steps) (hmore : more = output.utf8ByteSize - out.utf8ByteSize) (hpos : more ≠ 0) :
    Booked content out (saved + more) (steps ++ [step]) where
  balance := by
    have hbalance := h.balance
    omega
  idle hnil := by simp at hnil
  saves _ := by omega

theorem bytesSaved_eq (h : Booked content output saved steps) :
    saved = content.utf8ByteSize - output.utf8ByteSize ∧ output.utf8ByteSize ≤ content.utf8ByteSize := by
  have hbalance := h.balance
  omega

theorem shorter (h : Booked content output saved steps)
    (hsteps : steps ≠ []) : output.utf8ByteSize < content.utf8ByteSize := by
  have hbalance := h.balance
  have hsaves := h.saves hsteps
  omega

theorem eq_of_empty
    (h : Booked content output saved steps) (hempty : content.utf8ByteSize = 0) : output = content ∧ steps = [] := by
  have hsteps : steps = [] := by
    by_contra hsome
    have hshorter := h.shorter hsome
    omega
  exact ⟨h.idle hsteps, hsteps⟩

end Booked

section Reformats

variable (N : Numbers S Q) (config : PipelineConfig S Q)

theorem booked_applyReformatStep {content : String} {transform : ReformatTransform} {acc acc' : ReformatAccumulator}
    {originalLen : ℕ} (h : Booked content acc.output acc.bytesSaved acc.steps)
    (hstep : applyReformatStep N config transform acc originalLen = some acc') :
    Booked content acc'.output acc'.bytesSaved acc'.steps := by
  rw [applyReformatStep] at hstep
  by_cases hreached : reformatTargetReached N config acc.output originalLen
  · simp [hreached] at hstep
  rw [if_neg hreached] at hstep
  rcases happly : transform.apply acc.output with e | out
  · simp only [happly] at hstep
    obtain rfl := Option.some.inj hstep
    exact h
  · simp only [happly] at hstep
    have hlengths := transform.from_lengths acc.output out happly
    by_cases hzero : out.bytesSaved = 0
    · rw [if_pos hzero] at hstep
      obtain rfl := Option.some.inj hstep
      exact h
    · rw [if_neg hzero] at hstep
      obtain rfl := Option.some.inj hstep
      refine h.step ?_ hzero
      rw [hlengths]
      rfl

theorem booked_reformatLoop {content : String} {originalLen : ℕ} (reformats : List ReformatTransform)
    (acc : ReformatAccumulator) (h : Booked content acc.output acc.bytesSaved acc.steps) :
    Booked content (reformatLoop N config originalLen reformats acc).output
      (reformatLoop N config originalLen reformats acc).bytesSaved
      (reformatLoop N config originalLen reformats acc).steps := by
  induction reformats generalizing acc with
  | nil => exact h
  | cons transform rest ih =>
    rw [reformatLoop]
    rcases hstep : applyReformatStep N config transform acc originalLen with _ | acc'
    · exact h
    · exact ih acc' (booked_applyReformatStep N config h hstep)

theorem booked_runReformats (content : String) (reformats : List ReformatTransform) :
    Booked content (runReformats N config content reformats).output
      (runReformats N config content reformats).bytesSaved (runReformats N config content reformats).steps :=
  booked_reformatLoop N config reformats _ (Booked.refl content)

end Reformats

/-! ### The log of the offloads -/

/-- An offload that was applied: the text that it received, what it left, and its key. -/
structure Application (lookup : Store → String → Option String) (S : Type*) where
  offload : OffloadTransform lookup S
  received : String
  output : String
  cacheKey : String

/-- The offload did return what the log says of it. -/
def Application.Real (ctx : CompressionContext) (a : Application lookup S) : Prop :=
  ∃ store out, (a.offload.apply a.received ctx store).1 = .ok out ∧ out.bytesSaved ≠ 0 ∧
    out.output = a.output ∧ out.cacheKey = a.cacheKey

/-- Each entry of a log received the text that the entry before it left. -/
inductive Linked (text : String) : List (Application lookup S) → String → Prop
  | nil : Linked text [] text
  | snoc {log : List (Application lookup S)} {a : Application lookup S} (h : Linked text log a.received) :
      Linked text (log ++ [a]) a.output

/-- The stored texts from the last key to the first, each in the place of the text behind it. -/
def unwind (lookup : String → Option String) (keys : List String) (output : String) : Option String :=
  keys.foldr (fun key text => text.bind fun _ => lookup key) (some output)

theorem unwind_append_singleton {lookup : String → Option String} {key text : String} (hkey : lookup key = some text)
    (keys : List String) (output : String) :
    unwind lookup (keys ++ [key]) output = unwind lookup keys text := by
  rw [unwind, unwind, List.foldr_append, ← hkey]
  rfl

/-- Where each entry's text is stored under its key, the keys lead back to the first text. -/
theorem Linked.unwind {text output : String} {log : List (Application lookup S)} (h : Linked text log output)
    (found : String → Option String) (hfound : ∀ a ∈ log, found a.cacheKey = some a.received) :
    unwind found (log.map (·.cacheKey)) output = some text := by
  induction h with
  | nil => rfl
  | @snoc log a h ih =>
    rw [List.map_append, List.map_singleton, unwind_append_singleton (hfound a (by simp))]
    exact ih fun b hb => hfound b (List.mem_append_left _ hb)

/-- Each entry's text is stored under its key. -/
def Stored (log : List (Application lookup S)) (store : Store) : Prop :=
  ∀ a ∈ log, lookup store a.cacheKey = some a.received

/-! ### The offloads of a run -/

/-- The result of a run, with the log of the offloads applied among those that were tried. -/
structure Traced (ctx : CompressionContext) (content : String) (acc : ReformatAccumulator)
    (tried : List (OffloadTransform lookup S)) (log : List (Application lookup S)) (result : PipelineResult) :
    Prop where
  booked : Booked content result.output result.bytesSaved result.stepsApplied
  steps_eq : result.stepsApplied = acc.steps ++ log.map (·.offload.name)
  keys_eq : result.cacheKeys = log.map (·.cacheKey)
  sublist : (log.map (·.offload)).Sublist tried
  real : ∀ a ∈ log, a.Real ctx
  linked : Linked acc.output log result.output

section Offloads

variable (N : Numbers S Q) (config : PipelineConfig S Q) {ctx : CompressionContext} {content : String}
  {acc : ReformatAccumulator} {tried : List (OffloadTransform lookup S)} {log : List (Application lookup S)}
  {result : PipelineResult} {store : Store}

/-- No offload changes what is stored under a key that the run returned before it. -/
def Undisturbed (ratio : Q) (ctx : CompressionContext) :
    List (OffloadTransform lookup S × S) → PipelineResult × Store → Prop
  | [], _ => True
  | x :: rest, state =>
    (∀ key ∈ state.1.cacheKeys, lookup (offloadStep N config ratio ctx state x).2 key = lookup state.2 key) ∧
      Undisturbed ratio ctx rest (offloadStep N config ratio ctx state x)

instance decidableUndisturbed (ratio : Q) (ctx : CompressionContext) :
    (rest : List (OffloadTransform lookup S × S)) → (state : PipelineResult × Store) →
      Decidable (Undisturbed N config ratio ctx rest state)
  | [], _ => .isTrue trivial
  | x :: rest, state =>
    have := decidableUndisturbed ratio ctx rest (offloadStep N config ratio ctx state x)
    inferInstanceAs (Decidable (_ ∧ _))

/-- An offload that did not count. -/
theorem Traced.skip (h : Traced ctx content acc tried log result) (o : OffloadTransform lookup S) :
    Traced ctx content acc (tried ++ [o]) log result :=
  { h with sublist := h.sublist.trans (List.sublist_append_left _ _) }

/-- The log entry of an offload that saved something. -/
def OffloadTransform.logged (o : OffloadTransform lookup S) (received : String) (out : OffloadOutput) :
    Application lookup S where
  offload := o
  received := received
  output := out.output
  cacheKey := out.cacheKey

/-- An offload that saved something. -/
theorem Traced.apply (h : Traced ctx content acc tried log result) {o : OffloadTransform lookup S}
    {out : OffloadOutput} (hout : (o.apply result.output ctx store).1 = .ok out) (hpos : out.bytesSaved ≠ 0) :
    Traced ctx content acc (tried ++ [o]) (log ++ [o.logged result.output out])
      { output := out.output
        bytesSaved := result.bytesSaved + out.bytesSaved
        stepsApplied := result.stepsApplied ++ [o.name]
        cacheKeys := result.cacheKeys ++ [out.cacheKey] } where
  booked := by
    refine h.booked.step ?_ hpos
    rw [o.from_lengths _ _ _ _ hout]
    rfl
  steps_eq := by
    rw [h.steps_eq, List.map_append, List.append_assoc, List.map_singleton]
    rfl
  keys_eq := by
    rw [h.keys_eq, List.map_append, List.map_singleton]
    rfl
  sublist := by
    rw [List.map_append, List.map_singleton]
    exact h.sublist.append (List.Sublist.refl _)
  real a ha := by
    rcases List.mem_append.mp ha with hlog | hnew
    · exact h.real a hlog
    · obtain rfl := List.mem_singleton.mp hnew
      exact ⟨store, out, hout, hpos, rfl, rfl⟩
  linked := Linked.snoc (a := o.logged result.output out) h.linked

/-- What is stored for a log stays so in a store that answers its keys as before. -/
theorem Stored.mono {store' : Store} (h : Stored log store) (hkeys : result.cacheKeys = log.map (·.cacheKey))
    (hkept : ∀ key ∈ result.cacheKeys, lookup store' key = lookup store key) : Stored log store' := by
  intro a ha
  have hmem : a.cacheKey ∈ result.cacheKeys := by
    rw [hkeys]
    exact List.mem_map_of_mem ha
  rw [hkept a.cacheKey hmem]
  exact h a ha

/-- One offload of a run, whether it is let through, fails, saves nothing or is applied. -/
theorem Traced.offloadStep (h : Traced ctx content acc tried log result) (ratio : Q) (store : Store)
    (x : OffloadTransform lookup S × S) :
    ∃ log', Traced ctx content acc (tried ++ [x.1]) log' (offloadStep N config ratio ctx (result, store) x).1 ∧
      (Stored log store →
        (∀ key ∈ result.cacheKeys,
          lookup (offloadStep N config ratio ctx (result, store) x).2 key = lookup store key) →
        Stored log' (offloadStep N config ratio ctx (result, store) x).2) := by
  rw [Pipeline.offloadStep, maybeApplyOffload]
  by_cases hgate : offloadPassesGate N config x.2 ratio
  · simp only [hgate, if_true]
    rcases happly : x.1.apply result.output ctx store with ⟨e | out, store'⟩
    · exact ⟨log, h.skip x.1, fun hstored hkept => hstored.mono h.keys_eq hkept⟩
    · by_cases hzero : out.bytesSaved = 0
      · simp only [hzero, if_true]
        exact ⟨log, h.skip x.1, fun hstored hkept => hstored.mono h.keys_eq hkept⟩
      · have hout : (x.1.apply result.output ctx store).1 = .ok out := by rw [happly]
        simp only [hzero, if_false]
        refine ⟨log ++ [x.1.logged result.output out], h.apply hout hzero, ?_⟩
        intro hstored hkept a ha
        rcases List.mem_append.mp ha with hlog | hnew
        · exact hstored.mono h.keys_eq hkept a hlog
        · obtain rfl := List.mem_singleton.mp hnew
          have hnow := x.1.stored _ _ _ _ hout
          rwa [happly] at hnow
  · simp only [hgate]
    exact ⟨log, h.skip x.1, fun hstored hkept => hstored.mono h.keys_eq hkept⟩

/-- The offloads of a run. -/
theorem Traced.offloads (ratio : Q) (rest : List (OffloadTransform lookup S × S))
    (h : Traced ctx content acc tried log result) (store : Store) :
    ∃ log', Traced ctx content acc (tried ++ rest.map Prod.fst) log'
        (rest.foldl (Pipeline.offloadStep N config ratio ctx) (result, store)).1 ∧
      (Stored log store → Undisturbed N config ratio ctx rest (result, store) →
        Stored log' (rest.foldl (Pipeline.offloadStep N config ratio ctx) (result, store)).2) := by
  induction rest generalizing tried log result store with
  | nil => exact ⟨log, by simpa using h, fun hstored _ => hstored⟩
  | cons x rest ih =>
    obtain ⟨log', hstep, hkeep⟩ := h.offloadStep N config ratio store x
    obtain ⟨log'', hrest, hkeeps⟩ := ih hstep (Pipeline.offloadStep N config ratio ctx (result, store) x).2
    refine ⟨log'', ?_, ?_⟩
    · rwa [List.append_assoc] at hrest
    · intro hstored hquiet
      exact hkeeps (hkeep hstored hquiet.1) hquiet.2

end Offloads

/-! ### A whole run -/

theorem map_fst_zip_estimateBloats (content : String) (offloads : List (OffloadTransform lookup S)) :
    (offloads.zip (estimateBloats content offloads)).map Prod.fst = offloads :=
  List.map_fst_zip (by rw [estimateBloats, List.length_map])

namespace CompressionPipeline

variable (N : Numbers S Q) (p : CompressionPipeline lookup S Q) (content : String) (contentType : ContentType)
  (ctx : CompressionContext) (store : Store)

/-- The offloads of a run with their scores. -/
def scoredOffloads : List (OffloadTransform lookup S × S) :=
  (p.offloadsByType contentType).zip (estimateBloats content (p.offloadsByType contentType))

/-- No offload of the run changes what is stored under a key that the run returned before it. -/
def UndisturbedRun : Prop :=
  Undisturbed N p.config
    (N.ratio (p.reformatted N content contentType).output.utf8ByteSize content.utf8ByteSize) ctx
    (p.scoredOffloads content contentType)
    ({ output := (p.reformatted N content contentType).output
       bytesSaved := (p.reformatted N content contentType).bytesSaved
       stepsApplied := (p.reformatted N content contentType).steps
       cacheKeys := [] }, store)

instance : Decidable (p.UndisturbedRun N content contentType ctx store) :=
  inferInstanceAs (Decidable (Undisturbed _ _ _ _ _ _))

theorem booked_reformatted :
    Booked content (p.reformatted N content contentType).output (p.reformatted N content contentType).bytesSaved
      (p.reformatted N content contentType).steps :=
  booked_runReformats N p.config content (p.reformatsByType contentType)

theorem traced_reformatted :
    Traced ctx content (p.reformatted N content contentType) ([] : List (OffloadTransform lookup S)) []
      { output := (p.reformatted N content contentType).output
        bytesSaved := (p.reformatted N content contentType).bytesSaved
        stepsApplied := (p.reformatted N content contentType).steps
        cacheKeys := [] } where
  booked := p.booked_reformatted N content contentType
  steps_eq := (List.append_nil _).symm
  keys_eq := rfl
  sublist := List.Sublist.refl _
  real a ha := by simp at ha
  linked := Linked.nil

theorem traced_run :
    ∃ log, Traced ctx content (p.reformatted N content contentType) (p.offloadsByType contentType) log
        (p.run N content contentType ctx store).1 ∧
      (p.UndisturbedRun N content contentType ctx store →
        Stored log (p.run N content contentType ctx store).2) := by
  rw [CompressionPipeline.run]
  by_cases hempty : content.utf8ByteSize = 0
  · rw [if_pos hempty]
    have hcontent : content = "" := String.utf8ByteSize_eq_zero_iff.mp hempty
    obtain ⟨houtput, hsteps⟩ := (p.booked_reformatted N content contentType).eq_of_empty hempty
    refine ⟨[], ⟨?_, ?_, rfl, List.nil_sublist _, ?_, ?_⟩, ?_⟩
    · rw [hcontent]
      exact Booked.refl ""
    · rw [hsteps]
      rfl
    · intro a ha
      simp at ha
    · rw [houtput, hcontent]
      exact Linked.nil
    · intro _ a ha
      simp at ha
  · rw [if_neg hempty]
    obtain ⟨log, hrun, hkeep⟩ := (p.traced_reformatted N content contentType ctx).offloads N p.config
      (N.ratio (p.reformatted N content contentType).output.utf8ByteSize content.utf8ByteSize)
      (p.scoredOffloads content contentType) store
    rw [List.nil_append, scoredOffloads, map_fst_zip_estimateBloats] at hrun
    refine ⟨log, hrun, hkeep ?_⟩
    intro a ha
    simp at ha

/-- A run accounts for every byte: what is booked as saved is what the text lost, and a text without a step is the one
that came in. Its keys are those of the offloads that were applied, each to the text that the one before it left, the
first to the reformatted one; and where no offload changes what is stored under an earlier key, each of these texts is
found under its key, so that the keys unwind to the reformatted text. -/
theorem run_accounted :
    (p.run N content contentType ctx store).1.bytesSaved =
        content.utf8ByteSize - (p.run N content contentType ctx store).1.output.utf8ByteSize ∧
      (p.run N content contentType ctx store).1.output.utf8ByteSize ≤ content.utf8ByteSize ∧
      ((p.run N content contentType ctx store).1.stepsApplied = [] →
        (p.run N content contentType ctx store).1.output = content) ∧
      ((p.run N content contentType ctx store).1.stepsApplied ≠ [] →
        (p.run N content contentType ctx store).1.output.utf8ByteSize < content.utf8ByteSize) ∧
      ∃ log : List (Application lookup S),
        (p.run N content contentType ctx store).1.cacheKeys = log.map (·.cacheKey) ∧
        (p.run N content contentType ctx store).1.stepsApplied =
          (p.reformatted N content contentType).steps ++ log.map (·.offload.name) ∧
        (log.map (·.offload)).Sublist (p.offloadsByType contentType) ∧
        (∀ a ∈ log, a.Real ctx) ∧
        Linked (p.reformatted N content contentType).output log
          (p.run N content contentType ctx store).1.output ∧
        (p.UndisturbedRun N content contentType ctx store →
          Stored log (p.run N content contentType ctx store).2 ∧
            unwind (lookup (p.run N content contentType ctx store).2)
                (p.run N content contentType ctx store).1.cacheKeys
                (p.run N content contentType ctx store).1.output =
              some (p.reformatted N content contentType).output) := by
  obtain ⟨log, h, hkeep⟩ := p.traced_run N content contentType ctx store
  obtain ⟨hsaved, hle⟩ := h.booked.bytesSaved_eq
  refine ⟨hsaved, hle, h.booked.idle, h.booked.shorter, log, h.keys_eq, h.steps_eq, h.sublist, h.real, h.linked, ?_⟩
  intro hquiet
  refine ⟨hkeep hquiet, ?_⟩
  rw [h.keys_eq]
  exact h.linked.unwind (lookup (p.run N content contentType ctx store).2) (hkeep hquiet)

/-! ### A store that is written over -/

/-- A store as the list of what was put, the latest first. -/
def latest (store : List (String × String)) (key : String) : Option String :=
  (store.find? fun entry => entry.1 = key).map Prod.snd

/-- An offload that keeps the first half of a text and stores all of it under a fixed key. -/
def halving (key : String) : OffloadTransform latest ℕ where
  name := "halving"
  estimateBloat _ := 1
  apply content _ store :=
    (.ok (.fromLengths content.utf8ByteSize (String.ofList (content.toList.take (content.length / 2))) key),
      (key, content) :: store)
  from_lengths content ctx store out h := by
    obtain rfl := Except.ok.inj h
    rfl
  stored content ctx store out h := by
    obtain rfl := Except.ok.inj h
    show latest ((key, content) :: store) key = some content
    simp [latest]

/-- Scores and ratios as numbers. -/
def plainNumbers : Numbers ℕ ℕ where
  scoreAtLeast a b := b ≤ a
  scorePositive a := 0 < a
  ratio a b := 100 * a / b
  ratioAtMost a b := a ≤ b
  ratioAbove a b := b < a

/-- A pipeline of halvings. -/
def halvings (keys : List String) : CompressionPipeline latest ℕ ℕ where
  reformatsByType _ := []
  offloadsByType _ := keys.map halving
  config := { bloatThreshold := 1, offloadFallbackRatio := 85, reformatTargetRatio := 50 }

def noContext : CompressionContext where
  query := ""
  tokenBudget := none

/-- Two halvings under different keys: the keys lead back to the text. -/
theorem run_accounted_halvings :
    unwind (latest ((halvings ["a", "b"]).run plainNumbers "text" .plainText noContext []).2)
      ((halvings ["a", "b"]).run plainNumbers "text" .plainText noContext []).1.cacheKeys
      ((halvings ["a", "b"]).run plainNumbers "text" .plainText noContext []).1.output = some "text" := by
  obtain ⟨-, -, -, -, log, -, -, -, -, -, hunwind⟩ :=
    run_accounted plainNumbers (halvings ["a", "b"]) "text" .plainText noContext []
  exact (hunwind (by decide +kernel)).2

/-- An offload that is registered twice stores twice under one key: the second text replaces the first one, and the keys
no longer lead back. -/
theorem not_unwinds :
    ¬ ∀ (p : CompressionPipeline latest ℕ ℕ) (content : String) (contentType : ContentType) (ctx : CompressionContext)
        (store : List (String × String)),
      unwind (latest (p.run plainNumbers content contentType ctx store).2)
        (p.run plainNumbers content contentType ctx store).1.cacheKeys
        (p.run plainNumbers content contentType ctx store).1.output =
      some (p.reformatted plainNumbers content contentType).output := by
  intro h
  have htwice := h (halvings ["k", "k"]) "text" .plainText noContext []
  have hlost : unwind (latest ((halvings ["k", "k"]).run plainNumbers "text" .plainText noContext []).2)
      ((halvings ["k", "k"]).run plainNumbers "text" .plainText noContext []).1.cacheKeys
      ((halvings ["k", "k"]).run plainNumbers "text" .plainText noContext []).1.output = some "te" := by
    decide +kernel
  rw [hlost] at htwice
  revert htwice
  decide +kernel

end CompressionPipeline

end Headroom.Pipeline
