import Headroom.Foundation.Lru
import Headroom.Semantic.Requests

/-!
# The cache of answers

Answers are kept under the hashes of the texts of their requests, for some time and up to a number of them. Along
every sequence of calls what is kept under a key is the answer that was last set under it, so a request is given the
answer of a request with the same text.

## Main statements

* `neverServesOther_of_told` : where the texts tell the requests apart.
-/

open Foundation

namespace Headroom.Semantic

/-- An answer of the upstream. -/
structure Reply where
  body : Bytes
  headers : List (String × String)
  deriving DecidableEq

/-- An answer that is kept, with the time at which it was set, in nanoseconds. -/
structure CacheEntry where
  responseBody : Bytes
  responseHeaders : List (String × String)
  createdAt : ℕ
  ttl : ℕ
  hitCount : ℕ
  deriving DecidableEq

/-- The cache of a process. -/
structure SemanticCache where
  maxEntries : ℕ
  ttl : ℕ
  entries : Lru String CacheEntry

/-- Whether an answer may be kept: an error that was delivered as an answer may not. -/
def isCacheableReply (o : Outside) (responseBody : Bytes) : Bool :=
  if responseBody = [] then false
  else
    match o.fromSlice responseBody with
    | some (.obj fields) =>
      if fields = [] then false
      else if (Json.obj fields).getStr? "type" = some "error" then false
      else
        match (Json.obj fields).get? "error" with
        | some .null | none => true
        | some _ => false
    | some _ => false
    | none => true

def computeKey (o : Outside) (partition : String) (messages : List Json) (model : String)
    (extra : List (String × Json)) : String :=
  o.keyHash (normalizedKeyJson partition messages model extra)

/-- The least recently used entries go until there is room; each of them takes one of the rounds. -/
def makeRoom (maxEntries : ℕ) : ℕ → Lru String CacheEntry → Lru String CacheEntry
  | 0, entries => entries
  | rounds + 1, entries =>
    if maxEntries ≤ entries.entries.length then
      match entries.popLru with
      | (some _, rest) => makeRoom maxEntries rounds rest
      | (none, _) => entries
    else entries

/-- A key that is held is refreshed; for another one there is made room. -/
def insertEntry (entries : Lru String CacheEntry) (key : String) (entry : CacheEntry) (maxEntries : ℕ) :
    Lru String CacheEntry :=
  if entries.contains key then entries.put key entry
  else (makeRoom maxEntries entries.entries.length entries).put key entry

namespace SemanticCache

def new (maxEntries ttlSeconds : ℕ) : SemanticCache where
  maxEntries := maxEntries
  ttl := ttlSeconds * 10 ^ 9
  entries := if h : 0 < maxEntries then Lru.empty maxEntries h else Lru.empty 1 one_pos

/-- The answer under a key, if it is kept and not too old. -/
def get (o : Outside) (partition : String) (messages : List Json) (model : String) (extra : List (String × Json))
    (now : ℕ) (cache : SemanticCache) : Option CacheEntry × SemanticCache :=
  let key := computeKey o partition messages model extra
  match cache.entries.get key with
  | (none, entries) => (none, { cache with entries })
  | (some entry, entries) =>
    if entry.ttl < now - entry.createdAt then (none, { cache with entries := (entries.pop key).2 })
    else
      (some entry, { cache with entries := entries.modify key fun e => { e with hitCount := e.hitCount + 1 } })

/-- An answer is set under a key. -/
def set (o : Outside) (partition : String) (messages : List Json) (model : String) (reply : Reply)
    (extra : List (String × Json)) (now : ℕ) (cache : SemanticCache) : SemanticCache :=
  let key := computeKey o partition messages model extra
  let entry : CacheEntry :=
    { responseBody := reply.body, responseHeaders := reply.headers, createdAt := now, ttl := cache.ttl, hitCount := 0 }
  if isCacheableReply o entry.responseBody then
    { cache with entries := insertEntry cache.entries key entry cache.maxEntries }
  else cache

def clear (cache : SemanticCache) : SemanticCache :=
  { cache with entries := Lru.empty cache.entries.capacity cache.entries.capacity_pos }

end SemanticCache

/-! ### Calls -/

/-- A call of the cache: a request is looked up, or its answer is set, or everything is dropped. -/
inductive Call where
  | get (R : Request) (now : ℕ)
  | set (R : Request) (reply : Reply) (now : ℕ)
  | clear

namespace SemanticCache

/-- One call: a request that cannot be keyed is neither looked up nor set. -/
def call (o : Outside) (cache : SemanticCache) : Call → Option CacheEntry × SemanticCache
  | .get R now =>
    match cacheKeyInputs R.body (.str R.upstream) with
    | some (messages, extra) =>
      cache.get o (computeCachePartition o R.headers) messages (requestModel R.body) extra now
    | none => (none, cache)
  | .set R reply now =>
    match cacheKeyInputs R.body (.str R.upstream) with
    | some (messages, extra) =>
      (none, cache.set o (computeCachePartition o R.headers) messages (requestModel R.body) reply extra now)
    | none => (none, cache)
  | .clear => (none, cache.clear)

/-- The cache after some calls. -/
def run (o : Outside) (cache : SemanticCache) (calls : List Call) : SemanticCache :=
  calls.foldl (fun cache c => (cache.call o c).2) cache

end SemanticCache

/-- The key of a request; none when it cannot be keyed. -/
def key? (o : Outside) (R : Request) : Option String := (keyText? o R).map o.keyHash

/-- What a call leaves as the last answer that was set under a key. -/
def noteSet (o : Outside) (key : String) (last : Option (Request × Reply)) : Call → Option (Request × Reply)
  | .set R reply _ => if key? o R = some key ∧ isCacheableReply o reply.body = true then some (R, reply) else last
  | .get _ _ | .clear => last

/-- The last answer that was set under a key, with its request. -/
def lastSet (o : Outside) (calls : List Call) (key : String) : Option (Request × Reply) :=
  calls.foldl (noteSet o key) none

/-- An entry holds an answer. -/
def Holds (entry : CacheEntry) (reply : Reply) : Prop :=
  entry.responseBody = reply.body ∧ entry.responseHeaders = reply.headers

/-- What is kept under each key is what was last set under it. -/
def Kept (o : Outside) (calls : List Call) (cache : SemanticCache) : Prop :=
  ∀ key entry, cache.entries.peek key = some entry →
    ∃ R reply, lastSet o calls key = some (R, reply) ∧ Holds entry reply

/-- An answer is given to the request that it was last set for only. -/
def NeverServesOther (o : Outside) (cache : SemanticCache) (calls : List Call) : Prop :=
  ∀ before B now after, calls = before ++ Call.get B now :: after →
    ∀ entry, ((cache.run o before).call o (.get B now)).1 = some entry →
      ∃ key A reply, key? o B = some key ∧ lastSet o before key = some (A, reply) ∧ Holds entry reply ∧
        SameRequest A B

/-! ### What one call leaves -/

variable {o : Outside} {cache : SemanticCache} {calls : List Call} {R : Request} {key key' : String}
  {entry : CacheEntry} {now : ℕ}

theorem peek_of_makeRoom {maxEntries : ℕ} (rounds : ℕ) {entries : Lru String CacheEntry}
    (h : (makeRoom maxEntries rounds entries).peek key = some entry) : entries.peek key = some entry := by
  induction rounds generalizing entries with
  | zero => exact h
  | succ rounds ih =>
    rw [makeRoom] at h
    split_ifs at h with hfull
    · cases hlast : entries.popLru with
      | mk last rest =>
        rw [hlast] at h
        cases last with
        | none => exact h
        | some e =>
          have hrest := ih h
          have hpop : entries.popLru.2 = rest := by rw [hlast]
          rw [← hpop] at hrest
          exact Lru.peek_of_peek_popLru hrest
    · exact h

theorem peek_insertEntry_self (entries : Lru String CacheEntry) (maxEntries : ℕ) :
    (insertEntry entries key entry maxEntries).peek key = some entry := by
  rw [insertEntry]
  split_ifs
  · exact Lru.peek_put_self _ _ _
  · exact Lru.peek_put_self _ _ _

theorem peek_of_insertEntry {entries : Lru String CacheEntry} {maxEntries : ℕ} {entry' : CacheEntry} (hne : key' ≠ key)
    (h : (insertEntry entries key entry maxEntries).peek key' = some entry') : entries.peek key' = some entry' := by
  rw [insertEntry] at h
  split_ifs at h
  · exact Lru.peek_put_of_ne hne h
  · exact peek_of_makeRoom _ (Lru.peek_put_of_ne hne h)

theorem cacheKeyInputs_of_key? (h : key? o R = some key) :
    ∃ messages extra, cacheKeyInputs R.body (.str R.upstream) = some (messages, extra) ∧
      computeKey o (computeCachePartition o R.headers) messages (requestModel R.body) extra = key := by
  obtain ⟨text, htext, rfl⟩ := Option.map_eq_some_iff.1 h
  obtain ⟨⟨messages, extra⟩, hinputs, rfl⟩ := Option.map_eq_some_iff.1 htext
  exact ⟨messages, extra, hinputs, rfl⟩

theorem cacheKeyInputs_of_key?_eq_none (h : key? o R = none) :
    cacheKeyInputs R.body (.str R.upstream) = none := by
  rwa [key?, keyText?, Option.map_eq_none_iff, Option.map_eq_none_iff] at h

theorem peek_of_get {partition model : String} {messages : List Json} {extra : List (String × Json)}
    (h : (cache.get o partition messages model extra now).1 = some entry) :
    cache.entries.peek (computeKey o partition messages model extra) = some entry := by
  rw [SemanticCache.get] at h
  rw [← Lru.get_fst]
  cases hget : cache.entries.get (computeKey o partition messages model extra) with
  | mk found entries =>
    rw [hget] at h
    cases found with
    | none => exact absurd h nofun
    | some e =>
      simp only at h
      split_ifs at h
      exact h

theorem peek_of_peek_get {partition model : String} {messages : List Json} {extra : List (String × Json)}
    (h : (cache.get o partition messages model extra now).2.entries.peek key = some entry) :
    ∃ entry', cache.entries.peek key = some entry' ∧ ∀ reply, Holds entry' reply → Holds entry reply := by
  rw [SemanticCache.get] at h
  cases hget : cache.entries.get (computeKey o partition messages model extra) with
  | mk found entries =>
    have hpeek (key : String) : entries.peek key = cache.entries.peek key := by
      have hsame := Lru.peek_get cache.entries (computeKey o partition messages model extra) key
      rwa [hget] at hsame
    rw [hget] at h
    cases found with
    | none => exact ⟨entry, (hpeek key).symm.trans h, fun _ => id⟩
    | some e =>
      simp only at h
      split_ifs at h with hold
      · exact ⟨entry, (hpeek key).symm.trans (Lru.peek_of_peek_pop h), fun _ => id⟩
      · by_cases hkey : key = computeKey o partition messages model extra
        · rw [← hkey, Lru.peek_modify_self, hpeek] at h
          obtain ⟨entry', hentry, rfl⟩ := Option.map_eq_some_iff.1 h
          exact ⟨entry', hentry, fun _ hholds => hholds⟩
        · exact ⟨entry, (hpeek key).symm.trans (Lru.peek_modify_of_ne hkey h), fun _ => id⟩

/-! ### Every sequence of calls -/

theorem lastSet_concat (calls : List Call) (c : Call) (key : String) :
    lastSet o (calls ++ [c]) key = noteSet o key (lastSet o calls key) c := by
  rw [lastSet, List.foldl_append, List.foldl_cons, List.foldl_nil, ← lastSet]

theorem run_concat (calls : List Call) (c : Call) :
    cache.run o (calls ++ [c]) = ((cache.run o calls).call o c).2 := by
  rw [SemanticCache.run, List.foldl_append, List.foldl_cons, List.foldl_nil, ← SemanticCache.run]

/-- Setting an answer keeps what is kept under the other keys. -/
theorem Kept.set (h : Kept o calls cache) (R : Request) (reply : Reply) (now : ℕ) :
    Kept o (calls ++ [.set R reply now]) (cache.call o (.set R reply now)).2 := by
  intro key entry hentry
  rw [lastSet_concat, noteSet]
  rw [SemanticCache.call] at hentry
  cases hR : key? o R with
  | none =>
    rw [cacheKeyInputs_of_key?_eq_none hR] at hentry
    rw [if_neg fun h => absurd h.1 nofun]
    exact h key entry hentry
  | some keyR =>
    obtain ⟨messages, extra, hinputs, hkey⟩ := cacheKeyInputs_of_key? hR
    rw [hinputs] at hentry
    simp only [SemanticCache.set, hkey] at hentry
    by_cases hcacheable : isCacheableReply o reply.body = true
    · rw [if_pos hcacheable] at hentry
      by_cases hsame : key = keyR
      · rw [hsame, peek_insertEntry_self, Option.some.injEq] at hentry
        obtain rfl := hentry
        rw [if_pos ⟨congrArg some hsame.symm, hcacheable⟩]
        exact ⟨R, reply, rfl, rfl, rfl⟩
      · rw [if_neg fun h => hsame (Option.some.inj h.1).symm]
        exact h key entry (peek_of_insertEntry hsame hentry)
    · rw [if_neg hcacheable] at hentry
      rw [if_neg fun h => hcacheable h.2]
      exact h key entry hentry

/-- One call keeps what is kept. -/
theorem Kept.call (h : Kept o calls cache) (c : Call) : Kept o (calls ++ [c]) (cache.call o c).2 := by
  cases c with
  | set R reply now => exact h.set R reply now
  | get R now =>
    intro key entry hentry
    rw [lastSet_concat]
    rw [SemanticCache.call] at hentry
    cases hinputs : cacheKeyInputs R.body (.str R.upstream) with
    | none =>
      rw [hinputs] at hentry
      exact h key entry hentry
    | some inputs =>
      rw [hinputs] at hentry
      obtain ⟨entry', hentry', hholds⟩ := peek_of_peek_get hentry
      obtain ⟨A, reply, hlast, hreply⟩ := h key entry' hentry'
      exact ⟨A, reply, hlast, hholds reply hreply⟩
  | clear =>
    intro key entry hentry
    have hempty : (SemanticCache.clear cache).entries.peek key = none := Lru.peek_empty _ _ _
    exact absurd (hempty.symm.trans hentry) nofun

theorem kept_new (o : Outside) (maxEntries ttlSeconds : ℕ) : Kept o [] (SemanticCache.new maxEntries ttlSeconds) := by
  intro key entry hentry
  have hempty : (SemanticCache.new maxEntries ttlSeconds).entries.peek key = none := by
    rw [SemanticCache.new]
    split_ifs with hpos
    · exact Lru.peek_empty _ _ _
    · exact Lru.peek_empty _ _ _
  exact absurd (hempty.symm.trans hentry) nofun

theorem kept_run (o : Outside) (maxEntries ttlSeconds : ℕ) (calls : List Call) :
    Kept o calls ((SemanticCache.new maxEntries ttlSeconds).run o calls) := by
  induction calls using List.reverseRecOn with
  | nil => exact kept_new o maxEntries ttlSeconds
  | append_singleton calls c ih =>
    rw [run_concat]
    exact ih.call c

theorem key?_of_lastSet {A : Request} {reply : Reply} (h : lastSet o calls key = some (A, reply)) :
    key? o A = some key ∧ ∃ now, Call.set A reply now ∈ calls := by
  induction calls using List.reverseRecOn with
  | nil => exact absurd h nofun
  | append_singleton calls c ih =>
    rw [lastSet_concat] at h
    have hold (h : lastSet o calls key = some (A, reply)) :
        key? o A = some key ∧ ∃ now, Call.set A reply now ∈ calls ++ [c] := by
      obtain ⟨hkey, now, hmem⟩ := ih h
      exact ⟨hkey, now, List.mem_append_left _ hmem⟩
    cases c with
    | get R now => exact hold h
    | clear => exact hold h
    | set R reply' now =>
      rw [noteSet] at h
      split_ifs at h with hset
      · obtain ⟨rfl, rfl⟩ := Prod.mk.inj (Option.some.inj h)
        exact ⟨hset.1, now, List.mem_concat_self⟩
      · exact hold h

/-! ### Which requests share an answer -/

/-- The hashes of texts and the signatures of callers do not collide for these requests. -/
def NoCollision (o : Outside) (A B : Request) : Prop :=
  (∀ text text', keyText? o A = some text → keyText? o B = some text' → o.keyHash text = o.keyHash text' →
    text = text') ∧ MacTells o A B

/-- Two requests that are alike in what a text tells are alike in what it leaves out. -/
def TextTells (A B : Request) : Prop := KeyedAgree A B → UnkeyedAgree A B

theorem turns?_of_keyText? {text : List Char} (h : keyText? o R = some text) :
    ∃ turns, turns? R.body = some turns := by
  rw [keyText?_eq] at h
  obtain ⟨turns, hturns, -⟩ := Option.map_eq_some_iff.1 h
  exact ⟨turns, hturns⟩

theorem sameRequest_of_key? {A B : Request} (hcollision : NoCollision o A B) (htells : TextTells A B)
    (hA : key? o A = some key) (hB : key? o B = some key) : SameRequest A B := by
  obtain ⟨text, htext, hhash⟩ := Option.map_eq_some_iff.1 hA
  obtain ⟨text', htext', hhash'⟩ := Option.map_eq_some_iff.1 hB
  obtain ⟨turns, hturns⟩ := turns?_of_keyText? htext
  have hsame : keyText? o A = keyText? o B := by
    rw [htext, htext', hcollision.1 text text' htext htext' (hhash.trans hhash'.symm)]
  have hkeyed := (keyText?_eq_iff hcollision.2 hturns).1 hsame
  exact (sameRequest_iff hturns hkeyed).2 (htells hkeyed)

/-- Bodies that differ only in where their markers stand have the same key. -/
def MarkersKeepKey (o : Outside) : Prop :=
  ∀ A B : Request, A.headers = B.headers → A.upstream = B.upstream → strip false A.body = strip false B.body →
    key? o A = key? o B

/-- The cache gives an answer to the requests that it is for only, when the texts tell apart each request that is
looked up from those that an answer was set for before; and markers change no key. -/
theorem neverServesOther_of_told (o : Outside) (maxEntries ttlSeconds : ℕ) (calls : List Call)
    (hcollision : ∀ A reply now B now', Call.set A reply now ∈ calls → Call.get B now' ∈ calls → NoCollision o A B)
    (htells : ∀ before B now after, calls = before ++ Call.get B now :: after →
      ∀ A reply now', Call.set A reply now' ∈ before → TextTells A B) :
    NeverServesOther o (SemanticCache.new maxEntries ttlSeconds) calls ∧ MarkersKeepKey o := by
  refine ⟨fun before B now after hcalls entry hentry => ?_, fun A B hheaders hupstream hbody => ?_⟩
  · rw [SemanticCache.call] at hentry
    cases hB : key? o B with
    | none =>
      rw [cacheKeyInputs_of_key?_eq_none hB] at hentry
      exact absurd hentry nofun
    | some key =>
      obtain ⟨messages, extra, hinputs, hkey⟩ := cacheKeyInputs_of_key? hB
      rw [hinputs] at hentry
      have hpeek := peek_of_get hentry
      rw [hkey] at hpeek
      obtain ⟨A, reply, hlast, hholds⟩ := kept_run o maxEntries ttlSeconds before key entry hpeek
      obtain ⟨hA, now', hset⟩ := key?_of_lastSet hlast
      have hsetCalls : Call.set A reply now' ∈ calls := by
        rw [hcalls]
        exact List.mem_append_left _ hset
      have hgetCalls : Call.get B now ∈ calls := by
        rw [hcalls]
        exact List.mem_append_right _ List.mem_cons_self
      exact ⟨key, A, reply, rfl, hlast, hholds,
        sameRequest_of_key? (hcollision A reply now' B now hsetCalls hgetCalls)
          (htells before B now after hcalls A reply now' hset) hA hB⟩
  · rw [key?, key?, keyText?_of_markers o hheaders hupstream hbody]

/-! ### A request that differs in a field that is not keyed -/

/-- A proxy whose hash and signature are the texts themselves. -/
def plainOutside : Outside where
  keyHash := String.ofList
  mac := String.ofList
  fromSlice _ := none

def question (extra : List (String × Json)) : Json :=
  .obj (("model", .str "claude") :: ("messages", .arr [.obj [("role", .str "user"), ("content", .str "hi")]]) :: extra)

def asked : Request where
  body := question []
  headers := []
  upstream := "https://api.anthropic.com/v1/messages"
  numeric := by simp [question, Json.Numeric, Json.Numeric.NumericFields, Json.Numeric.NumericItems]

/-- The same question with a sequence at which the answer has to stop. -/
def askedWithStop : Request where
  body := question [("stop_sequences", .arr [.str "hi"])]
  headers := []
  upstream := "https://api.anthropic.com/v1/messages"
  numeric := by simp [question, Json.Numeric, Json.Numeric.NumericFields, Json.Numeric.NumericItems]

def answer : Reply where
  body := [111, 107]
  headers := []

theorem noCollision_plainOutside (A B : Request) : NoCollision plainOutside A B :=
  ⟨fun _ _ _ _ h => String.ofList_injective h, fun h => String.ofList_injective h⟩

theorem UnkeyedAgree.refl (A : Request) : UnkeyedAgree A A where
  credentials := .refl _
  turn_field := rfl
  turn_shape := rfl
  model_named := rfl
  model_field _ := rfl
  fields _ _ _ _ _ := rfl

/-- A request is given the answer that was set for it. -/
theorem neverServesOther_single :
    NeverServesOther plainOutside (SemanticCache.new 8 60) [.set asked answer 0, .get asked 1] ∧
      MarkersKeepKey plainOutside := by
  refine neverServesOther_of_told plainOutside 8 60 _ (fun A _ _ B _ _ _ => noCollision_plainOutside A B) ?_
  intro before B now after hcalls A reply now' hset _
  have hA : Call.set A reply now' ∈ [Call.set asked answer 0, Call.get asked 1] := by
    rw [hcalls]
    exact List.mem_append_left _ hset
  have hB : Call.get B now ∈ [Call.set asked answer 0, Call.get asked 1] := by
    rw [hcalls]
    exact List.mem_append_right _ List.mem_cons_self
  simp only [List.mem_cons, List.not_mem_nil, Call.set.injEq, Call.get.injEq, reduceCtorEq, or_false, false_or] at hA hB
  rw [hA.1, hB.1]
  exact UnkeyedAgree.refl asked

/-- The answer that was to stop at a sequence is given to a request without one. -/
theorem not_neverServesOther :
    (∀ A B, NoCollision plainOutside A B) ∧
      ¬ NeverServesOther plainOutside (SemanticCache.new 8 60) [.set askedWithStop answer 0, .get asked 1] := by
  refine ⟨noCollision_plainOutside, fun h => ?_⟩
  obtain ⟨key, A, reply, hkey, hlast, -, hsame⟩ := h [.set askedWithStop answer 0] asked 1 [] rfl
    { responseBody := answer.body, responseHeaders := [], createdAt := 0, ttl := 60 * 10 ^ 9, hitCount := 0 }
    (by decide +kernel)
  obtain ⟨-, now, hset⟩ := key?_of_lastSet hlast
  obtain ⟨rfl, -⟩ : A = askedWithStop ∧ reply = answer ∧ now = 0 := by simpa using hset
  exact absurd (hsame.fields "stop_sequences" (by decide)) (by decide +kernel)

end Headroom.Semantic
