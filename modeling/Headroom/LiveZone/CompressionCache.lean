import Headroom.Foundation.BudgetedLru
import Headroom.Foundation.Lru
import Headroom.Foundation.Text

/-!
# The cache of compressions

One tier remembers what a content was compressed to, within a budget of bytes; the other remembers
which contents do not compress, within a number of marks. A result expires some time after it was
last used, a mark some time after it was set.
-/

open Foundation

namespace Headroom.LiveZone

/-- The budget of the results, in bytes. -/
def COMPRESSION_CACHE_MAX_BYTES : ℕ := 64 * 1024 * 1024
/-- What a result costs beyond its text. -/
def CACHE_ENTRY_OVERHEAD : ℕ := 256
def SKIP_ENTRIES_PER_MB : ℕ := 2000

/-- A result; times are in nanoseconds. -/
structure CacheEntry where
  compressed : List Char
  strategy : String
  lastUsed : ℕ
  deriving DecidableEq

def CacheEntry.cost (e : CacheEntry) : ℕ := Text.utf8Length e.compressed + CACHE_ENTRY_OVERHEAD

/-- The entry with its time started anew. -/
def CacheEntry.used (now : ℕ) (e : CacheEntry) : CacheEntry := { e with lastUsed := now }

theorem CacheEntry.cost_used (now : ℕ) (e : CacheEntry) : (e.used now).cost = e.cost := rfl

/-- The results and the skip marks under their keys. -/
structure CompressionCache (κ : Type*) where
  results : BudgetedLru κ CacheEntry CacheEntry.cost
  skip : Lru κ ℕ
  ttl : ℕ

inductive CacheLookup where
  | hit (compressed : List Char) (strategy : String)
  | miss
  | skip
  deriving DecidableEq

namespace CompressionCache

variable {κ : Type*}

def withLimits (ttl maxBytes : ℕ) : CompressionCache κ where
  results := BudgetedLru.empty maxBytes
  skip := Lru.empty (max (maxBytes / (1024 * 1024) * SKIP_ENTRIES_PER_MB) 1000) (by omega)
  ttl := ttl

def new (ttlSeconds : ℕ) : CompressionCache κ :=
  withLimits (ttlSeconds * 1000000000) COMPRESSION_CACHE_MAX_BYTES

variable [DecidableEq κ]

/-- What the cache holds for a key at a time, and the cache after the lookup. -/
def get (c : CompressionCache κ) (now : ℕ) (key : κ) : CacheLookup × CompressionCache κ :=
  match c.skip.peek key with
  | some ts =>
    if now - ts < c.ttl then (.skip, c)
    else lookUp { c with skip := (c.skip.pop key).2 }
  | none => lookUp c
where
  /-- The lookup in the results. A hit becomes the most recently used and starts its time anew. -/
  lookUp (c : CompressionCache κ) : CacheLookup × CompressionCache κ :=
    match c.results.peek key with
    | some entry =>
      if now - entry.lastUsed < c.ttl then
        (.hit entry.compressed entry.strategy,
          { c with results := c.results.refresh key (CacheEntry.used now) (CacheEntry.cost_used now) })
      else (.miss, { c with results := c.results.remove key })
    | none => (.miss, c)

/-- Keep a result. -/
def put (c : CompressionCache κ) (now : ℕ) (key : κ) (compressed : List Char) (strategy : String) :
    CompressionCache κ :=
  { c with results := c.results.put key ⟨compressed, strategy, now⟩ }

/-- Mark a content that does not compress. -/
def markSkip (c : CompressionCache κ) (now : ℕ) (key : κ) : CompressionCache κ :=
  { c with skip := c.skip.put key now }

/-! ### Where the contents come from -/

/-- Every result and every mark of a cache is one of those that were written. -/
structure Wrote (c : CompressionCache κ) (result : κ → List Char → String → Prop) (mark : κ → Prop) :
    Prop where
  result : ∀ key entry, (key, entry) ∈ c.results.entries → result key entry.compressed entry.strategy
  mark : ∀ key ts, (key, ts) ∈ c.skip.entries → mark key

variable {c : CompressionCache κ} {result : κ → List Char → String → Prop} {mark : κ → Prop}

omit [DecidableEq κ] in
theorem Wrote.new (ttlSeconds : ℕ) : (new ttlSeconds : CompressionCache κ).Wrote result mark :=
  ⟨fun _ _ h => absurd h List.not_mem_nil, fun _ _ h => absurd h List.not_mem_nil⟩

omit [DecidableEq κ] in
theorem Wrote.mono {result' : κ → List Char → String → Prop} {mark' : κ → Prop}
    (h : c.Wrote result mark) (hresult : ∀ key text strategy, result key text strategy →
      result' key text strategy) (hmark : ∀ key, mark key → mark' key) : c.Wrote result' mark' :=
  ⟨fun key entry he => hresult _ _ _ (h.result key entry he), fun key ts he => hmark _ (h.mark key ts he)⟩

variable {now : ℕ} {key : κ} {compressed : List Char} {strategy : String}

theorem Wrote.put (h : c.Wrote result mark) (hwrite : result key compressed strategy) :
    (c.put now key compressed strategy).Wrote result mark := by
  refine ⟨fun k entry he => ?_, h.mark⟩
  rcases BudgetedLru.mem_put he with he | he
  · obtain ⟨rfl, rfl⟩ := Prod.mk.inj he
    exact hwrite
  · exact h.result k entry he

theorem Wrote.markSkip (h : c.Wrote result mark) (hwrite : mark key) :
    (c.markSkip now key).Wrote result mark := by
  refine ⟨h.result, fun k ts he => ?_⟩
  rcases Lru.mem_put he with he | ⟨he, -⟩
  · obtain ⟨rfl, rfl⟩ := Prod.mk.inj he
    exact hwrite
  · exact h.mark k ts he

theorem Wrote.pop (h : c.Wrote result mark) (key : κ) :
    ({ c with skip := (c.skip.pop key).2 } : CompressionCache κ).Wrote result mark :=
  ⟨h.result, fun k ts he => h.mark k ts (Lru.mem_pop.mp he).1⟩

theorem Wrote.lookUp (h : c.Wrote result mark) (now : ℕ) (key : κ) :
    (get.lookUp now key c).2.Wrote result mark := by
  unfold get.lookUp
  split
  · split_ifs
    · refine ⟨fun k entry he => ?_, h.mark⟩
      rcases BudgetedLru.mem_refresh (CacheEntry.cost_used now) he with he | ⟨v, hv, he⟩
      · exact h.result k entry he
      · obtain ⟨rfl, rfl⟩ := Prod.mk.inj he
        exact h.result k v hv
    · exact ⟨fun k entry he => h.result k entry (BudgetedLru.mem_remove he), h.mark⟩
  · exact h

theorem Wrote.get (h : c.Wrote result mark) (now : ℕ) (key : κ) : (c.get now key).2.Wrote result mark := by
  unfold CompressionCache.get
  split
  · split_ifs
    · exact h
    · exact (h.pop key).lookUp now key
  · exact h.lookUp now key

theorem Wrote.of_lookUp_hit (h : c.Wrote result mark)
    (hget : (get.lookUp now key c).1 = .hit compressed strategy) :
    result key compressed strategy := by
  unfold get.lookUp at hget
  split at hget
  · rename_i entry hentry
    split_ifs at hget
    obtain ⟨rfl, rfl⟩ := CacheLookup.hit.inj hget
    exact h.result key entry (BudgetedLru.mem_of_peek hentry)
  · exact absurd hget nofun

theorem lookUp_ne_skip (c : CompressionCache κ) (now : ℕ) (key : κ) : (get.lookUp now key c).1 ≠ .skip := by
  unfold get.lookUp
  split
  · split_ifs <;> exact nofun
  · exact nofun

theorem Wrote.of_hit (h : c.Wrote result mark) (hget : (c.get now key).1 = .hit compressed strategy) :
    result key compressed strategy := by
  unfold CompressionCache.get at hget
  split at hget
  · split_ifs at hget
    exact (h.pop key).of_lookUp_hit hget
  · exact h.of_lookUp_hit hget

theorem Wrote.of_skip (h : c.Wrote result mark) (hget : (c.get now key).1 = .skip) :
    mark key := by
  unfold CompressionCache.get at hget
  split at hget
  · rename_i ts hts
    split_ifs at hget
    · exact h.mark key ts ((Lru.peek_eq_some_iff _ _ _).mp hts)
    · exact absurd hget (lookUp_ne_skip _ now key)
  · exact absurd hget (lookUp_ne_skip _ now key)

end CompressionCache

end Headroom.LiveZone
