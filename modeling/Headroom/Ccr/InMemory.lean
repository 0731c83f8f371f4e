import Mathlib.Data.List.AList

/-!
# The store in memory

Originals are kept under their hash in a map. A second structure, a queue, remembers in which order the
hashes were put, and a full store evicts by it. An entry expires when it was not accessed for some time or
is too old; a read that comes upon an expired entry drops it from the map. Times are in nanoseconds.
-/

namespace Headroom.Ccr

structure Entry where
  payload : String
  inserted : ℕ
  lastAccessed : ℕ
  deriving DecidableEq

inductive CcrEntryState where
  | available
  | expired
  | missing
  deriving DecidableEq

structure CcrEntryStatus where
  state : CcrEntryState
  ttlSeconds : ℕ
  ageSeconds : Option ℕ
  defaultTtlSeconds : ℕ
  deriving DecidableEq

/-- The limits of a store. -/
structure Limits where
  ttl : ℕ
  maxLifetime : ℕ
  capacity : ℕ

def asSecs (nanos : ℕ) : ℕ := nanos / 1000000000

def Entry.isExpired (L : Limits) (now : ℕ) (e : Entry) : Bool :=
  L.ttl < now - e.lastAccessed || L.maxLifetime < now - e.inserted

/-- What is said of an entry. -/
def Entry.status (L : Limits) (now : ℕ) (e : Entry) : CcrEntryStatus :=
  ⟨if e.isExpired L now then .expired else .available, asSecs L.ttl, some (asSecs (now - e.inserted)),
    asSecs L.ttl⟩

/-- What is said of a hash without an entry. -/
def CcrEntryStatus.missing (L : Limits) : CcrEntryStatus := ⟨.missing, 0, none, asSecs L.ttl⟩

/-- The map, and the queue of the hashes as they were put. -/
structure InMemoryCcrStore where
  map : AList fun _ : String => Entry
  order : List String

namespace InMemoryCcrStore

def empty : InMemoryCcrStore := ⟨∅, []⟩

def len (s : InMemoryCcrStore) : ℕ := s.map.keys.length

/-- Take hashes from the queue until there is room, and what they name from the map. -/
def evictUntilUnderCapacity (capacity : ℕ) (map : AList fun _ : String => Entry) :
    List String → InMemoryCcrStore
  | [] => ⟨map, []⟩
  | oldest :: order =>
    if capacity ≤ map.keys.length then evictUntilUnderCapacity capacity (map.erase oldest) order
    else ⟨map, oldest :: order⟩

variable (L : Limits)

def put (now : ℕ) (hash payload : String) (s : InMemoryCcrStore) : InMemoryCcrStore :=
  let entry : Entry := ⟨payload, now, now⟩
  match s.map.lookup hash with
  | some _ => { s with map := s.map.insert hash entry }
  | none =>
    let room := if L.capacity ≤ s.len then evictUntilUnderCapacity L.capacity s.map s.order else s
    { map := room.map.insert hash entry
      order := match room.map.lookup hash with
        | none => room.order ++ [hash]
        | some _ => room.order }

/-- The payload under a hash; an expired entry is dropped from the map, and not from the queue. -/
def get (now : ℕ) (hash : String) (s : InMemoryCcrStore) : Option String × InMemoryCcrStore :=
  match s.map.lookup hash with
  | none => (none, s)
  | some e =>
    if e.isExpired L now then (none, { s with map := s.map.erase hash })
    else (some e.payload, { s with map := s.map.insert hash { e with lastAccessed := now } })

def entryStatus (now : ℕ) (hash : String) (s : InMemoryCcrStore) : CcrEntryStatus × InMemoryCcrStore :=
  match s.map.lookup hash with
  | none => (.missing L, s)
  | some e => (e.status L now, if e.isExpired L now then { s with map := s.map.erase hash } else s)

end InMemoryCcrStore

/-! ### Calls -/

inductive Call where
  | put (hash payload : String)
  | get (hash : String)
  | entryStatus (hash : String)
  deriving DecidableEq

inductive Answer where
  | stored
  | payload (found : Option String)
  | status (status : CcrEntryStatus)
  deriving DecidableEq

namespace InMemoryCcrStore

variable (L : Limits)

/-- One call at a time. -/
def step (s : InMemoryCcrStore) (now : ℕ) : Call → Answer × InMemoryCcrStore
  | .put hash payload => (.stored, put L now hash payload s)
  | .get hash => (.payload (get L now hash s).1, (get L now hash s).2)
  | .entryStatus hash => (.status (entryStatus L now hash s).1, (entryStatus L now hash s).2)

/-- The store after some calls, each with its time. -/
def run (calls : List (ℕ × Call)) : InMemoryCcrStore :=
  calls.foldl (fun s call => (step L s call.1 call.2).2) empty

end InMemoryCcrStore

end Headroom.Ccr
