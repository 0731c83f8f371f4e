import Headroom.LiveZone.CompressionCache
import Headroom.Transforms.LosslessCompaction

/-!
# The dispatch memo

A block of text goes to the compressor of its content type, and a process-wide cache remembers what
came of it. The key of the cache lists the text, the content type, the target ratio and the switches
of two compressors. The switch that the fold of configuration files reads is not among them.

## Main results

* `transparent_iff` : a run is transparent if and only if the memo never is stale.
-/

open Foundation Headroom.Transforms

namespace Headroom.LiveZone

inductive ContentType where
  | jsonArray | sourceCode | searchResults | buildOutput | gitDiff | html | tabular
  | structuredConfig | plainText
  deriving DecidableEq

def ContentType.asStr : ContentType → String
  | .jsonArray => "json_array"
  | .sourceCode => "source_code"
  | .searchResults => "search"
  | .buildOutput => "build"
  | .gitDiff => "diff"
  | .html => "html"
  | .tabular => "tabular"
  | .structuredConfig => "structured_config"
  | .plainText => "text"

theorem ContentType.asStr_injective : Function.Injective ContentType.asStr := by
  intro a b h
  cases a <;> cases b <;> first | rfl | exact absurd h (by decide)

def STRATEGY_SMART_CRUSHER : String := "smart_crusher"
def STRATEGY_LOG_COMPRESSOR : String := "log_compressor"
def STRATEGY_SEARCH_COMPRESSOR : String := "search_compressor"
def STRATEGY_DIFF_COMPRESSOR : String := "diff_compressor"
def STRATEGY_CODE_COMPRESSOR : String := "code_aware_compressor"
def STRATEGY_CONFIG_LOSSLESS : String := "config_lossless"
def STRATEGY_KOMPRESS : String := "kompress"
def STRATEGY_EMBEDDED_JSON : String := "embedded_json"

/-- What a dispatch came to. -/
inductive DispatchResult where
  | noOp (contentType : String) (declinedBy : Option String)
  | compressed (strategy : String) (compressed : List Char)
  | error (strategy : String) (error : String)
  deriving DecidableEq

/-- The compressed text, if the block changed. -/
def DispatchResult.outcome : DispatchResult → Option (List Char)
  | .compressed _ text => some text
  | _ => none

/-- The switches of the process that the compressors read: two flags, and the value of the
environment variable `HEADROOM_LOSSLESS_COMPACTION`. -/
structure Switches where
  kompressEnabled : Bool
  codeAwareEnabled : Bool
  losslessCompaction : Option String
  deriving DecidableEq

/-- What a request says about its dispatches. A ratio is given by the bits of its float. -/
structure DispatchConfig where
  targetRatio : Option UInt64
  disableKompress : Bool
  deriving DecidableEq

/-- The compressors as functions of their texts. -/
structure Compressors where
  routeEmbeddedJson : List Char → Option (List Char)
  /-- Whether the crusher changed the text, and what it made of it. -/
  smartCrusher : List Char → Bool × List Char
  /-- What the log and the search compressor say the original was, and what they made of it. -/
  logCompressor : List Char → List Char × List Char
  searchCompressor : List Char → List Char × List Char
  diffCompressor : List Char → List Char
  codeCompressor : List Char → List Char
  /-- The model of Kompress, when it is on disk. -/
  kompress : Option (List Char → Option UInt64 → List Char)
  kompressMaxTokens : ℕ

/-- One block to be dispatched: the switches at the moment, and the times at which the memo is asked
and told. -/
structure Dispatch where
  switches : Switches
  text : List Char
  contentType : ContentType
  config : DispatchConfig
  asked : ℕ
  told : ℕ

/-! ### The dispatch without the memo -/

/-- The result of a compressor that returned a text. -/
def unlessSame (contentType : ContentType) (strategy : String) (original compressed : List Char) :
    DispatchResult :=
  if compressed = original then .noOp contentType.asStr none else .compressed strategy compressed

def kompressSizeGateExceeded (maxTokens : ℕ) (content : List Char) : Bool :=
  0 < maxTokens && maxTokens * 4 < Text.utf8Length content

/-- What the compressor of the content type says. -/
def dispatchArm (c : Compressors) (s : Switches) (text : List Char) (contentType : ContentType)
    (config : DispatchConfig) : DispatchResult :=
  match contentType with
  | .jsonArray =>
    let (wasModified, compressed) := c.smartCrusher text
    if !wasModified then .noOp contentType.asStr none else .compressed STRATEGY_SMART_CRUSHER compressed
  | .buildOutput =>
    let (original, compressed) := c.logCompressor text
    unlessSame contentType STRATEGY_LOG_COMPRESSOR original compressed
  | .searchResults =>
    let (original, compressed) := c.searchCompressor text
    unlessSame contentType STRATEGY_SEARCH_COMPRESSOR original compressed
  | .gitDiff => unlessSame contentType STRATEGY_DIFF_COMPRESSOR text (c.diffCompressor text)
  | .sourceCode =>
    if !s.codeAwareEnabled then .noOp contentType.asStr (some "code_aware_disabled")
    else unlessSame contentType STRATEGY_CODE_COMPRESSOR text (c.codeCompressor text)
  | .structuredConfig =>
    let compressed := compactConfig s.losslessCompaction text
    if Text.utf8Length text ≤ Text.utf8Length compressed then .noOp contentType.asStr none
    else .compressed STRATEGY_CONFIG_LOSSLESS compressed
  | .plainText =>
    if config.disableKompress then .noOp contentType.asStr (some "kompress_disabled")
    else if kompressSizeGateExceeded c.kompressMaxTokens text then .noOp contentType.asStr none
    else if !s.kompressEnabled then .noOp contentType.asStr none
    else match c.kompress with
      | some model => unlessSame contentType STRATEGY_KOMPRESS text (model text config.targetRatio)
      | none => .noOp contentType.asStr none
  | .html => .noOp contentType.asStr none
  | .tabular => .noOp contentType.asStr none

/-- The result, unless the compressed text is no shorter than the block. -/
def unlessLonger (text : List Char) (contentType : ContentType) : DispatchResult → DispatchResult
  | .compressed strategy compressed =>
    if Text.utf8Length text ≤ Text.utf8Length compressed then .noOp contentType.asStr (some strategy)
    else .compressed strategy compressed
  | result => result

def dispatchCompressorUncached (c : Compressors) (s : Switches) (text : List Char)
    (contentType : ContentType) (config : DispatchConfig) : DispatchResult :=
  if text = [] then .noOp contentType.asStr none
  else
    match if contentType = .plainText then c.routeEmbeddedJson text else none with
    | some compressed => .compressed STRATEGY_EMBEDDED_JSON compressed
    | none => unlessLonger text contentType (dispatchArm c s text contentType config)

/-- The dispatch of a block without the memo. -/
def Dispatch.uncached (c : Compressors) (d : Dispatch) : DispatchResult :=
  dispatchCompressorUncached c d.switches d.text d.contentType d.config

/-! ### The dispatch with the memo -/

/-- What goes into the key. -/
structure KeyParts where
  text : List Char
  contentType : String
  targetRatio : Option UInt64
  kompressEnabled : Bool
  codeAwareEnabled : Bool
  deriving DecidableEq

def Dispatch.keyParts (d : Dispatch) : KeyParts where
  text := d.text
  contentType := d.contentType.asStr
  targetRatio := d.config.targetRatio
  kompressEnabled := d.switches.kompressEnabled
  codeAwareEnabled := d.switches.codeAwareEnabled

/-- The key of a dispatch under a hash function. -/
def dispatchCacheKey (hash : KeyParts → Int64) (d : Dispatch) : Int64 := hash d.keyParts

/-- The strategies that a dispatch can name. -/
def internDispatchStrategy (strategy : String) : Option String :=
  [STRATEGY_SMART_CRUSHER, STRATEGY_LOG_COMPRESSOR, STRATEGY_SEARCH_COMPRESSOR,
    STRATEGY_DIFF_COMPRESSOR, STRATEGY_CODE_COMPRESSOR, STRATEGY_CONFIG_LOSSLESS, STRATEGY_KOMPRESS,
    STRATEGY_EMBEDDED_JSON].find? (· = strategy)

def DISPATCH_CACHE_TTL_SECS : ℕ := 1800

/-- A dispatch past the memo, whose result is kept. -/
def dispatchAndKeep (c : Compressors) (cache : CompressionCache Int64) (key : Int64) (d : Dispatch) :
    DispatchResult × CompressionCache Int64 :=
  let result := d.uncached c
  match result with
  | .compressed strategy compressed => (result, cache.put d.told key compressed strategy)
  | .noOp _ _ => (result, cache.markSkip d.told key)
  | .error _ _ => (result, cache)

def dispatchCompressorWithConfig (hash : KeyParts → Int64) (c : Compressors)
    (cache : CompressionCache Int64) (d : Dispatch) : DispatchResult × CompressionCache Int64 :=
  if d.text = [] then (.noOp d.contentType.asStr none, cache)
  else if d.config.disableKompress ∧ d.contentType = .plainText then (d.uncached c, cache)
  else
    let key := dispatchCacheKey hash d
    match cache.get d.asked key with
    | (.skip, cache) => (.noOp d.contentType.asStr none, cache)
    | (.hit compressed strategy, cache) =>
      match internDispatchStrategy strategy with
      | some strategy => (.compressed strategy compressed, cache)
      | none => dispatchAndKeep c cache key d
    | (.miss, cache) => dispatchAndKeep c cache key d

/-- The memo after a run of dispatches. -/
def memo (hash : KeyParts → Int64) (c : Compressors) (ds : List Dispatch) : CompressionCache Int64 :=
  ds.foldl (fun cache d => (dispatchCompressorWithConfig hash c cache d).2)
    (CompressionCache.new DISPATCH_CACHE_TTL_SECS)

/-- Every dispatch of a run comes out as it would without the memo. -/
def Transparent (hash : KeyParts → Int64) (c : Compressors) (ds : List Dispatch) : Prop :=
  ∀ before d after, ds = before ++ d :: after →
    (dispatchCompressorWithConfig hash c (memo hash c before) d).1.outcome = (d.uncached c).outcome

/-- Dispatches under one key are dispatches of the same parts. -/
def NoCollision (hash : KeyParts → Int64) (ds : List Dispatch) : Prop :=
  ∀ d ∈ ds, ∀ d' ∈ ds, dispatchCacheKey hash d = dispatchCacheKey hash d' → d.keyParts = d'.keyParts

/-- Whether the fold of configuration files is on. -/
def Dispatch.folds (d : Dispatch) : Bool := enabledForValue d.switches.losslessCompaction

/-- The fold shortens the block. -/
def Dispatch.Shortens (d : Dispatch) : Prop :=
  Text.utf8Length (foldConfig d.text) < Text.utf8Length d.text

instance (d : Dispatch) : Decidable d.Shortens := inferInstanceAs (Decidable (_ < _))

/-- Whether the memo answers as if the fold were on while it is off, or the other way round. -/
def outdated : CacheLookup → Bool → Bool
  | .hit _ _, folds => !folds
  | .skip, folds => folds
  | .miss, _ => false

/-- The fold shortens the block, and the memo holds a fresh result for it while the switch of the fold
is off, or a fresh mark while the switch is on. -/
def Stale (hash : KeyParts → Int64) (cache : CompressionCache Int64) (d : Dispatch) : Prop :=
  d.contentType = .structuredConfig ∧ d.Shortens ∧
    outdated (cache.get d.asked (dispatchCacheKey hash d)).1 d.folds = true

instance (hash : KeyParts → Int64) (cache : CompressionCache Int64) (d : Dispatch) :
    Decidable (Stale hash cache d) := inferInstanceAs (Decidable (_ ∧ _ ∧ _))

/-! ### What a dispatch depends on -/

/-- The dispatch neither reads the memo nor writes to it. -/
def Dispatch.Bypasses (d : Dispatch) : Prop := d.config.disableKompress ∧ d.contentType = .plainText

theorem Dispatch.Shortens.ne_nil {d : Dispatch} (h : d.Shortens) : d.text ≠ [] := by
  intro hnil
  rw [Shortens, hnil] at h
  exact Nat.not_lt_zero _ h

variable {hash : KeyParts → Int64} {c : Compressors} {d d' : Dispatch}

/-- What becomes of a configuration file. -/
theorem uncached_structuredConfig (h : d.contentType = .structuredConfig) :
    d.uncached c = if d.folds ∧ d.Shortens then .compressed STRATEGY_CONFIG_LOSSLESS (foldConfig d.text)
      else .noOp d.contentType.asStr none := by
  by_cases hnil : d.text = []
  · have hnot : ¬ d.Shortens := fun hs => hs.ne_nil hnil
    rw [Dispatch.uncached, dispatchCompressorUncached, if_pos hnil, if_neg fun hs => hnot hs.2]
  have hplain : ¬ d.contentType = .plainText := by rw [h]; exact nofun
  rw [Dispatch.uncached, dispatchCompressorUncached, if_neg hnil, if_neg hplain]
  show unlessLonger _ _ (dispatchArm ..) = _
  rw [h, dispatchArm]
  by_cases hfolds : d.folds
  · have henabled : enabledForValue d.switches.losslessCompaction = true := hfolds
    simp only [compactConfig_of_enabled henabled hnil]
    by_cases hs : d.Shortens
    · rw [if_neg (not_le.mpr hs), if_pos ⟨hfolds, hs⟩, unlessLonger, if_neg (not_le.mpr hs)]
    · rw [if_pos (not_lt.mp hs), if_neg fun hs' => hs hs'.2, unlessLonger]
      exact nofun
  · have hdisabled : enabledForValue d.switches.losslessCompaction = false := by
      simpa [Dispatch.folds] using hfolds
    simp only [compactConfig_of_disabled hdisabled]
    rw [if_pos le_rfl, if_neg fun hs => hfolds hs.1, unlessLonger]
    exact nofun

theorem outcome_of_shortens (h : d.contentType = .structuredConfig) (hs : d.Shortens) :
    (d.uncached c).outcome = if d.folds then some (foldConfig d.text) else none := by
  rw [uncached_structuredConfig h]
  by_cases hfolds : d.folds
  · rw [if_pos ⟨hfolds, hs⟩, if_pos hfolds]
    rfl
  · rw [if_neg fun hboth => hfolds hboth.1, if_neg hfolds]
    rfl

theorem outcome_of_not_shortens (h : d.contentType = .structuredConfig) (hs : ¬ d.Shortens) :
    (d.uncached c).outcome = none := by
  rw [uncached_structuredConfig h, if_neg fun hboth => hs hboth.2]
  rfl

theorem folds_of_outcome {text : List Char} (h : d.contentType = .structuredConfig)
    (hout : (d.uncached c).outcome = some text) : d.folds = true := by
  by_contra hfolds
  rw [uncached_structuredConfig h, if_neg fun hboth => hfolds hboth.1] at hout
  exact absurd hout nofun

theorem not_folds_of_outcome (h : d.contentType = .structuredConfig) (hs : d.Shortens)
    (hout : (d.uncached c).outcome = none) : d.folds = false := by
  by_contra hfolds
  rw [outcome_of_shortens h hs, if_pos (by simpa using hfolds)] at hout
  exact absurd hout nofun

theorem uncached_congr (hparts : d.keyParts = d'.keyParts) (hd : ¬ d.Bypasses) (hd' : ¬ d'.Bypasses)
    (htype : d.contentType ≠ .structuredConfig) : d.uncached c = d'.uncached c := by
  obtain ⟨⟨kompress, codeAware, lossless⟩, text, contentType, ⟨ratio, disable⟩, asked, told⟩ := d
  obtain ⟨⟨kompress', codeAware', lossless'⟩, text', contentType', ⟨ratio', disable'⟩, asked', told'⟩ := d'
  simp only [Dispatch.keyParts, KeyParts.mk.injEq] at hparts
  obtain ⟨rfl, hasStr, rfl, rfl, rfl⟩ := hparts
  obtain rfl := ContentType.asStr_injective hasStr
  have harm : dispatchArm c ⟨kompress, codeAware, lossless⟩ text contentType ⟨ratio, disable⟩ =
      dispatchArm c ⟨kompress, codeAware, lossless'⟩ text contentType ⟨ratio, disable'⟩ := by
    cases contentType with
    | structuredConfig => exact absurd rfl htype
    | plainText =>
      have hoff : disable = false := by simpa [Dispatch.Bypasses] using hd
      have hoff' : disable' = false := by simpa [Dispatch.Bypasses] using hd'
      rw [hoff, hoff']
      rfl
    | _ => rfl
  simp only [Dispatch.uncached, dispatchCompressorUncached, harm]

variable {contentType : ContentType} {strategy : String}

theorem internDispatchStrategy_unlessSame {name strategy : String}
    {original compressed text : List Char} (hname : internDispatchStrategy name = some name)
    (h : unlessSame contentType name original compressed = .compressed strategy text) :
    internDispatchStrategy strategy = some strategy := by
  unfold unlessSame at h
  split_ifs at h
  rw [← (DispatchResult.compressed.inj h).1]
  exact hname

theorem internDispatchStrategy_dispatchArm {s : Switches} {text compressed : List Char}
    {config : DispatchConfig}
    (h : dispatchArm c s text contentType config = .compressed strategy compressed) :
    internDispatchStrategy strategy = some strategy := by
  unfold dispatchArm at h
  split at h
  · dsimp only at h
    split_ifs at h
    rw [← (DispatchResult.compressed.inj h).1]
    rfl
  · exact internDispatchStrategy_unlessSame rfl h
  · exact internDispatchStrategy_unlessSame rfl h
  · exact internDispatchStrategy_unlessSame rfl h
  · split_ifs at h
    exact internDispatchStrategy_unlessSame rfl h
  · dsimp only at h
    split_ifs at h
    rw [← (DispatchResult.compressed.inj h).1]
    rfl
  · split_ifs at h
    split at h
    · exact internDispatchStrategy_unlessSame rfl h
    · exact absurd h nofun
  · exact absurd h nofun
  · exact absurd h nofun

theorem internDispatchStrategy_unlessLonger {text compressed : List Char} {result : DispatchResult}
    (hresult : ∀ name text, result = .compressed name text → internDispatchStrategy name = some name)
    (h : unlessLonger text contentType result = .compressed strategy compressed) :
    internDispatchStrategy strategy = some strategy := by
  unfold unlessLonger at h
  split at h
  · split_ifs at h
    rw [← (DispatchResult.compressed.inj h).1]
    exact hresult _ _ rfl
  · exact hresult _ _ h

theorem internDispatchStrategy_uncached {text : List Char}
    (h : d.uncached c = .compressed strategy text) : internDispatchStrategy strategy = some strategy := by
  rw [Dispatch.uncached, dispatchCompressorUncached] at h
  by_cases hnil : d.text = []
  · rw [if_pos hnil] at h
    exact absurd h nofun
  rw [if_neg hnil] at h
  split at h
  · rw [← (DispatchResult.compressed.inj h).1]
    rfl
  · exact internDispatchStrategy_unlessLonger (fun _ _ => internDispatchStrategy_dispatchArm) h

/-! ### What the memo holds -/

/-- A dispatch of the run under the key gave the text. -/
def Computed (hash : KeyParts → Int64) (c : Compressors) (ds : List Dispatch) (key : Int64)
    (text : List Char) (strategy : String) : Prop :=
  ∃ d ∈ ds, ¬ d.Bypasses ∧ dispatchCacheKey hash d = key ∧ d.uncached c = .compressed strategy text

/-- A dispatch of the run under the key left its block as it was. -/
def Declined (hash : KeyParts → Int64) (c : Compressors) (ds : List Dispatch) (key : Int64) : Prop :=
  ∃ d ∈ ds, ¬ d.Bypasses ∧ dispatchCacheKey hash d = key ∧ (d.uncached c).outcome = none

variable {cache : CompressionCache Int64} {ds : List Dispatch}

theorem Wrote.snoc (h : cache.Wrote (Computed hash c ds) (Declined hash c ds)) (d : Dispatch) :
    cache.Wrote (Computed hash c (ds ++ [d])) (Declined hash c (ds ++ [d])) :=
  h.mono (fun _ _ _ ⟨e, he, hrest⟩ => ⟨e, List.mem_append_left _ he, hrest⟩)
    fun _ ⟨e, he, hrest⟩ => ⟨e, List.mem_append_left _ he, hrest⟩

theorem wrote_dispatchAndKeep (h : cache.Wrote (Computed hash c ds) (Declined hash c ds))
    (hd : ¬ d.Bypasses) :
    (dispatchAndKeep c cache (dispatchCacheKey hash d) d).2.Wrote (Computed hash c (ds ++ [d]))
      (Declined hash c (ds ++ [d])) := by
  have hmem : d ∈ ds ++ [d] := List.mem_append_right _ List.mem_cons_self
  unfold dispatchAndKeep
  dsimp only
  split
  · rename_i strategy text hresult
    exact (Wrote.snoc h d).put ⟨d, hmem, hd, rfl, hresult⟩
  · rename_i hresult
    exact (Wrote.snoc h d).markSkip ⟨d, hmem, hd, rfl, by rw [hresult]; rfl⟩
  · exact Wrote.snoc h d

theorem wrote_dispatchCompressorWithConfig
    (h : cache.Wrote (Computed hash c ds) (Declined hash c ds)) (d : Dispatch) :
    (dispatchCompressorWithConfig hash c cache d).2.Wrote (Computed hash c (ds ++ [d]))
      (Declined hash c (ds ++ [d])) := by
  have hget := h.get d.asked (dispatchCacheKey hash d)
  unfold dispatchCompressorWithConfig
  split_ifs with hnil hbypass
  · exact Wrote.snoc h d
  · exact Wrote.snoc h d
  · dsimp only
    split
    · rename_i hlookup
      rw [hlookup] at hget
      exact Wrote.snoc hget d
    · rename_i hlookup
      rw [hlookup] at hget
      split
      · exact Wrote.snoc hget d
      · exact wrote_dispatchAndKeep hget hbypass
    · rename_i hlookup
      rw [hlookup] at hget
      exact wrote_dispatchAndKeep hget hbypass

theorem memo_snoc (ds : List Dispatch) (d : Dispatch) :
    memo hash c (ds ++ [d]) = (dispatchCompressorWithConfig hash c (memo hash c ds) d).2 :=
  List.foldl_concat ..

theorem written_memo (ds : List Dispatch) :
    (memo hash c ds).Wrote (Computed hash c ds) (Declined hash c ds) := by
  induction ds using List.reverseRecOn with
  | nil => exact CompressionCache.Wrote.new _
  | append_singleton ds d ih =>
    rw [memo_snoc]
    exact wrote_dispatchCompressorWithConfig ih d

/-! ### What a lookup answers -/

theorem contentType_of_keyParts (hparts : d.keyParts = d'.keyParts) : d'.contentType = d.contentType :=
  (ContentType.asStr_injective (congrArg KeyParts.contentType hparts)).symm

theorem shortens_of_keyParts (hparts : d.keyParts = d'.keyParts) : d'.Shortens ↔ d.Shortens := by
  rw [Dispatch.Shortens, Dispatch.Shortens, show d.text = d'.text from congrArg KeyParts.text hparts]

/-- Two dispatches of the same parts come out alike, unless they are of a configuration file that the
fold shortens, and the fold is on for one of them only. -/
theorem outcome_eq_of_keyParts (hparts : d.keyParts = d'.keyParts) (hd : ¬ d.Bypasses)
    (hd' : ¬ d'.Bypasses) :
    (d'.uncached c).outcome = (d.uncached c).outcome ↔
      ¬(d.contentType = .structuredConfig ∧ d.Shortens ∧ d'.folds ≠ d.folds) := by
  by_cases htype : d.contentType = .structuredConfig
  · have htype' : d'.contentType = .structuredConfig := (contentType_of_keyParts hparts).trans htype
    have htext : d.text = d'.text := congrArg KeyParts.text hparts
    have hs := shortens_of_keyParts hparts
    by_cases hshort : d.Shortens
    · rw [outcome_of_shortens htype hshort, outcome_of_shortens htype' (hs.mpr hshort), htext]
      cases d.folds <;> cases d'.folds <;> simp [htype, hshort]
    · rw [outcome_of_not_shortens htype hshort, outcome_of_not_shortens htype' (mt hs.mp hshort)]
      exact iff_of_true rfl fun h => hshort h.2.1
  · rw [uncached_congr hparts hd hd' htype]
    exact iff_of_true rfl fun h => htype h.1

theorem outcome_eq_iff (h : cache.Wrote (Computed hash c ds) (Declined hash c ds))
    (hcollision : NoCollision hash (ds ++ [d])) :
    (dispatchCompressorWithConfig hash c cache d).1.outcome = (d.uncached c).outcome ↔
      ¬ Stale hash cache d := by
  by_cases hnil : d.text = []
  · have hnot : ¬ d.Shortens := fun hs => hs.ne_nil hnil
    have hout : d.uncached c = .noOp d.contentType.asStr none := by
      rw [Dispatch.uncached, dispatchCompressorUncached, if_pos hnil]
    rw [dispatchCompressorWithConfig, if_pos hnil, hout]
    exact iff_of_true rfl fun hs => hnot hs.2.1
  by_cases hbypass : d.Bypasses
  · have hbypass' : d.config.disableKompress ∧ d.contentType = .plainText := hbypass
    rw [dispatchCompressorWithConfig, if_neg hnil, if_pos hbypass']
    exact iff_of_true rfl fun hs => absurd (hs.1.symm.trans hbypass.2) nofun
  have hkeep : ∀ cache : CompressionCache Int64,
      (dispatchAndKeep c cache (dispatchCacheKey hash d) d).1 = d.uncached c := by
    intro cache
    unfold dispatchAndKeep
    dsimp only
    split <;> rfl
  have hmem : ∀ d' ∈ ds, dispatchCacheKey hash d' = dispatchCacheKey hash d → d.keyParts = d'.keyParts :=
    fun d' hd' hkey => hcollision d (List.mem_append_right _ List.mem_cons_self) d'
      (List.mem_append_left _ hd') hkey.symm
  have hbypass' : ¬(d.config.disableKompress = true ∧ d.contentType = .plainText) := hbypass
  rw [dispatchCompressorWithConfig, if_neg hnil, if_neg hbypass', Stale]
  dsimp only
  rcases hget : cache.get d.asked (dispatchCacheKey hash d) with ⟨answer, cache'⟩
  cases answer with
  | miss => simp [hkeep, outdated]
  | hit text strategy =>
    obtain ⟨d', hd', hbypass', hkey, hresult⟩ := h.of_hit (congrArg Prod.fst hget)
    have hparts := hmem d' hd' hkey
    have hout : (d'.uncached c).outcome = some text := by rw [hresult]; rfl
    simp only [internDispatchStrategy_uncached hresult]
    show some text = _ ↔ ¬(_ ∧ _ ∧ (!d.folds) = true)
    rw [← hout, outcome_eq_of_keyParts hparts hbypass hbypass', not_iff_not]
    refine and_congr_right fun htype => and_congr_right fun _ => ?_
    rw [folds_of_outcome ((contentType_of_keyParts hparts).trans htype) hout]
    cases d.folds <;> decide
  | skip =>
    obtain ⟨d', hd', hbypass', hkey, hout⟩ := h.of_skip (congrArg Prod.fst hget)
    have hparts := hmem d' hd' hkey
    show none = _ ↔ ¬(_ ∧ _ ∧ d.folds = true)
    rw [← hout, outcome_eq_of_keyParts hparts hbypass hbypass', not_iff_not]
    refine and_congr_right fun htype => and_congr_right fun hs => ?_
    rw [not_folds_of_outcome ((contentType_of_keyParts hparts).trans htype)
      ((shortens_of_keyParts hparts).mpr hs) hout]
    cases d.folds <;> decide

/-- A run is transparent if and only if the memo never is stale. -/
theorem transparent_iff (hash : KeyParts → Int64) (c : Compressors) (ds : List Dispatch)
    (hcollision : NoCollision hash ds) :
    Transparent hash c ds ↔
      ∀ before d after, ds = before ++ d :: after → ¬ Stale hash (memo hash c before) d := by
  have hstep : ∀ before d after, ds = before ++ d :: after →
      ((dispatchCompressorWithConfig hash c (memo hash c before) d).1.outcome = (d.uncached c).outcome ↔
        ¬ Stale hash (memo hash c before) d) := by
    rintro before d after rfl
    have hsub : ∀ e ∈ before ++ [d], e ∈ before ++ d :: after := by
      intro e he
      rw [List.mem_append, List.mem_singleton] at he
      rw [List.mem_append, List.mem_cons]
      exact he.imp_right Or.inl
    exact outcome_eq_iff (written_memo before) fun e he e' he' =>
      hcollision e (hsub e he) e' (hsub e' he')
  exact forall_congr' fun before => forall_congr' fun d => forall_congr' fun after =>
    forall_congr' fun hds => hstep before d after hds

/-- Six equal lines of a configuration file. -/
def repeatedLines : List Char := (List.replicate 6 "replicas: 1\n".toList).flatten

/-- The file dispatched under a value of the environment variable. -/
def repeatedDispatch (losslessCompaction : Option String) : Dispatch where
  switches := ⟨false, true, losslessCompaction⟩
  text := repeatedLines
  contentType := .structuredConfig
  config := ⟨none, false⟩
  asked := 0
  told := 0

/-- Compressors that leave every block as it is. -/
def idleCompressors : Compressors where
  routeEmbeddedJson := fun _ => none
  smartCrusher := fun text => (false, text)
  logCompressor := fun text => (text, text)
  searchCompressor := fun text => (text, text)
  diffCompressor := fun text => text
  codeCompressor := fun text => text
  kompress := none
  kompressMaxTokens := 0

theorem noCollision_repeatedDispatch (values : List (Option String)) :
    NoCollision (fun _ => 0) (values.map repeatedDispatch) := by
  intro d hd d' hd' _
  obtain ⟨value, -, rfl⟩ := List.mem_map.mp hd
  obtain ⟨value', -, rfl⟩ := List.mem_map.mp hd'
  rfl

/-- The folded file is served after the folds were turned off. -/
theorem not_transparent_turnedOff :
    ∃ (hash : KeyParts → Int64) (c : Compressors) (ds : List Dispatch),
      NoCollision hash ds ∧ ¬ Transparent hash c ds := by
  refine ⟨fun _ => 0, idleCompressors, [none, some "0"].map repeatedDispatch,
    noCollision_repeatedDispatch _, fun h => ?_⟩
  have hlast := h [repeatedDispatch none] (repeatedDispatch (some "0")) [] rfl
  revert hlast
  decide +kernel

/-- The file dispatched twice while the folds are on. -/
theorem transparent_repeatedLines :
    Transparent (fun _ => 0) idleCompressors ([none, none].map repeatedDispatch) := by
  refine (transparent_iff _ _ _ (noCollision_repeatedDispatch _)).mpr ?_
  rintro (_ | ⟨e, _ | ⟨e', before⟩⟩) d after hds
  · rw [← (List.cons.inj hds).1]
    decide +kernel
  · rw [← (List.cons.inj hds).1, ← (List.cons.inj (List.cons.inj hds).2).1]
    decide +kernel
  · simp at hds

end Headroom.LiveZone
