import Mathlib.Data.Finset.Card
import Headroom.Foundation.Lru

/-!
# The offload gate

For every session the gate keeps the hashes of the blocks that were converted to digests. The sets are held in a
bounded map and written to one file a session; a set that is not in memory is read from its file. A session that
takes over the prefix of another takes its set over, and a newborn session may be seeded from one.
-/

open Foundation

namespace Headroom.Offload

/-- The most sessions that are remembered for a lineage. -/
def SEED_LINEAGE_CAP : ℕ := 4

/-- The most hashes a newborn session takes from its donor. -/
def SEED_MAX_HASHES : ℕ := 4096

/-- The branch of an identity and the hash of a first message. -/
abbrev Lineage : Type := String × String

/-- What the gate takes from elsewhere: the digest that names the file of a session, and the hashes that come
first when a set is gone through. -/
structure Outside where
  digest : String → String
  first : Finset String → Finset String
  digest_injective : Function.Injective digest
  first_subset : ∀ set, first set ⊆ set
  card_first : ∀ set, (first set).card = min SEED_MAX_HASHES set.card

noncomputable instance : Inhabited Outside where
  default :=
    have hfirst (set : Finset String) := Finset.exists_subset_card_eq (Nat.min_le_right SEED_MAX_HASHES set.card)
    { digest := id
      first := fun set => (hfirst set).choose
      digest_injective := Function.injective_id
      first_subset := fun set => (hfirst set).choose_spec.1
      card_first := fun set => (hfirst set).choose_spec.2 }

/-- The gate and its files. -/
structure Gate where
  sessions : Lru String (Finset String)
  lineages : Lru Lineage (List String)
  files : String → Option (Finset String)
  lineagesFile : List (Lineage × List String)

/-- Who gives its prefix to another session: a session, or the digest of one that is only on disk. -/
inductive AdoptionDonor where
  | session (key : String)
  | persistedDigest (digest : String)

inductive SeedOutcome where
  | seeded (count : ℕ)
  | refusedLive
  | donorEmpty
  deriving DecidableEq

/-- A conversion: what is put into the store, and the session and the hash that it was new for. -/
structure OffloadRecord where
  hash : String
  original : String
  title : String
  gateRollback : Option (String × String)
  deriving DecidableEq

variable (O : Outside)

namespace Gate

/-! ### The operations -/

/-- A set, written to the file of its session. -/
def persist (g : Gate) (session : String) (set : Finset String) : Gate :=
  { g with files := Function.update g.files (O.digest session) (some set) }

/-- The set of a session, set in memory and written to its file. -/
def install (g : Gate) (session : String) (set : Finset String) : Gate :=
  { g with sessions := g.sessions.put session set }.persist O session set

/-- A set that is not in memory is read from its file. -/
def hydrate (g : Gate) (session : String) : Gate :=
  if g.sessions.contains session then g
  else { g with sessions := g.sessions.put session ((g.files (O.digest session)).getD ∅) }

def contains (g : Gate) (session hash : String) : Bool × Gate :=
  let g := g.hydrate O session
  let (set, sessions) := g.sessions.get session
  ((set.map fun set => decide (hash ∈ set)).getD false, { g with sessions })

def record (g : Gate) (session hash : String) : Gate :=
  match g.sessions.peek session with
  | some set => g.install O session (insert hash set)
  | none => g.install O session {hash}

/-- Undo one conversion. A set that is not in memory stays as it is. -/
def rollback (g : Gate) (session key : String) : Gate :=
  match g.sessions.peek session with
  | some set => g.install O session (set.erase key)
  | none => g

def rollbackUnstoredRecords (g : Gate) (records : List OffloadRecord) : Gate :=
  records.foldl (fun g record =>
    match record.gateRollback with
    | some (session, key) => g.rollback O session key
    | none => g) g

def seedIfAbsent (g : Gate) (donorSession newSession : String) : SeedOutcome × Gate :=
  if g.sessions.contains newSession then (.refusedLive, g)
  else
    let g := g.hydrate O donorSession
    let donor := (g.sessions.peek donorSession).getD ∅
    if donor = ∅ then (.donorEmpty, g)
    else if g.sessions.contains newSession then (.refusedLive, g)
    else
      (.seeded (O.first donor).card, g.install O newSession (O.first donor))

def noteSessionBirth (g : Gate) (lineage : Lineage) (session : String) : Gate :=
  let (entry, lineages) := g.lineages.pop lineage
  let entry := (session :: (entry.getD []).filter fun s => s ≠ session).take SEED_LINEAGE_CAP
  let lineages := lineages.put lineage entry
  { g with lineages, lineagesFile := lineages.entries }

def seedCandidates (g : Gate) (lineage : Lineage) (exclude : String) : List String × Gate :=
  let (entry, lineages) := g.lineages.get lineage
  (((entry.map fun entry => entry.filter fun s => s ≠ exclude).getD []), { g with lineages })

/-- The hashes a donor gives away, and the gate after they were looked up. -/
def donated (g : Gate) : AdoptionDonor → Finset String × Gate
  | .session key =>
    let g := g.hydrate O key
    ((g.sessions.peek key).getD ∅, g)
  | .persistedDigest digest => ((g.files digest).getD ∅, g)

def adoptFrom (g : Gate) (donor : AdoptionDonor) (session : String) : Gate :=
  let (hashes, g) := g.donated O donor
  if hashes = ∅ then g
  else
    match g.sessions.peek session with
    | some set => g.install O session (set ∪ hashes)
    | none => g.install O session hashes

/-- The index of births that a file holds. -/
def rehydrateLineages (capacity : ℕ) (h : 0 < capacity) (entries : List (Lineage × List String)) :
    Lru Lineage (List String) :=
  entries.foldl (fun lineages (lineage, sessions) =>
    let sessions := sessions.take SEED_LINEAGE_CAP
    if sessions = [] then lineages else lineages.put lineage sessions) (Lru.empty capacity h)

/-- A gate over files that are there. -/
def withPersistence (capacity : ℕ) (h : 0 < capacity) (files : String → Option (Finset String))
    (lineagesFile : List (Lineage × List String)) : Gate where
  sessions := Lru.empty capacity h
  lineages := rehydrateLineages capacity h lineagesFile
  files := files
  lineagesFile := lineagesFile

end Gate

/-- What is done with a gate. Memory is lost at a restart, the files are kept. -/
inductive Op where
  | contains (session hash : String)
  | record (session hash : String)
  | rollbackUnstoredRecords (records : List OffloadRecord)
  | seedIfAbsent (donorSession newSession : String)
  | noteSessionBirth (lineage : Lineage) (session : String)
  | seedCandidates (lineage : Lineage) (exclude : String)
  | adoptFrom (donor : AdoptionDonor) (session : String)
  | restart (capacity : ℕ) (h : 0 < capacity)

def Op.step (g : Gate) : Op → Gate
  | .contains session hash => (g.contains O session hash).2
  | .record session hash => g.record O session hash
  | .rollbackUnstoredRecords records => g.rollbackUnstoredRecords O records
  | .seedIfAbsent donorSession newSession => (g.seedIfAbsent O donorSession newSession).2
  | .noteSessionBirth lineage session => g.noteSessionBirth lineage session
  | .seedCandidates lineage exclude => (g.seedCandidates lineage exclude).2
  | .adoptFrom donor session => g.adoptFrom O donor session
  | .restart capacity h => Gate.withPersistence capacity h g.files g.lineagesFile

/-- The sessions whose sets an operation is about. -/
def Op.sessions : Op → List String
  | .contains session _ | .record session _ | .adoptFrom _ session | .seedIfAbsent _ session => [session]
  | .rollbackUnstoredRecords records => records.filterMap fun record => record.gateRollback.map Prod.fst
  | .noteSessionBirth _ _ | .seedCandidates _ _ | .restart _ _ => []

namespace Gate

variable {O} {g : Gate}

/-! ### Memory and files -/

variable (O) in
/-- The set in the file of a session. -/
def stored (g : Gate) (session : String) : Finset String := (g.files (O.digest session)).getD ∅

variable (O) in
/-- The set of a session: the one in memory, or else the one in its file. -/
def reported (g : Gate) (session : String) : Finset String :=
  (g.sessions.peek session).getD (g.stored O session)

variable (O) in
/-- Each set in memory is what the file of its session holds. -/
def Cached (g : Gate) : Prop :=
  ∀ session set, g.sessions.peek session = some set → set = g.stored O session

theorem Cached.reported_eq (h : g.Cached O) (session : String) :
    g.reported O session = g.stored O session := by
  rw [reported]
  cases hpeek : g.sessions.peek session with
  | none => rfl
  | some set => exact h session set hpeek

theorem Cached.of_sessions {g' : Gate} (h : g.Cached O) (hfiles : g'.files = g.files)
    (hsessions : ∀ session set, g'.sessions.peek session = some set →
      g.sessions.peek session = some set ∨ set = g.stored O session) : g'.Cached O := by
  intro session set hset
  have hstored : g'.stored O session = g.stored O session := by rw [stored, stored, hfiles]
  rw [hstored]
  exact (hsessions session set hset).elim (h session set) id

@[simp] theorem stored_install (session : String) (set : Finset String) :
    (g.install O session set).stored O = Function.update (g.stored O) session set := by
  funext session'
  show (Function.update g.files (O.digest session) (some set) (O.digest session')).getD ∅ = _
  by_cases heq : session' = session
  · rw [heq, Function.update_self, Function.update_self, Option.getD_some]
  · have hne : O.digest session' ≠ O.digest session := fun h => heq (O.digest_injective h)
    rw [Function.update_of_ne heq, Function.update_of_ne hne, stored]

/-- A set goes to memory and to its file at once. -/
theorem Cached.install (h : g.Cached O) (session : String) (set : Finset String) :
    (g.install O session set).Cached O := by
  intro session' set' hset
  have hpeek : (g.sessions.put session set).peek session' = some set' := hset
  rw [stored_install]
  by_cases heq : session' = session
  · subst heq
    rw [Function.update_self]
    exact Option.some.inj (hpeek.symm.trans (Lru.peek_put_self g.sessions session' set))
  · rw [Function.update_of_ne heq]
    exact h session' set' (Lru.peek_put_of_ne heq hpeek)

/-! ### Reading a set into memory -/

@[simp] theorem files_hydrate (session : String) : (g.hydrate O session).files = g.files := by
  rw [hydrate]
  split_ifs <;> rfl

theorem stored_hydrate (session : String) : (g.hydrate O session).stored O = g.stored O := by
  funext session'
  rw [stored, files_hydrate, stored]

theorem contains_eq_isSome (session : String) :
    g.sessions.contains session = (g.sessions.peek session).isSome := rfl

theorem peek_hydrate (session : String) :
    (g.hydrate O session).sessions.peek session = some (g.reported O session) := by
  rw [hydrate]
  split_ifs with hin
  · obtain ⟨set, hset⟩ := Option.isSome_iff_exists.1 hin
    rw [reported, hset, Option.getD_some]
  · have hnone : g.sessions.peek session = none := Option.not_isSome_iff_eq_none.1 hin
    dsimp only
    rw [Lru.peek_put_self, reported, hnone, Option.getD_none, stored]

theorem Cached.hydrate (h : g.Cached O) (session : String) : (g.hydrate O session).Cached O := by
  refine h.of_sessions (files_hydrate session) fun session' set hset => ?_
  rw [Gate.hydrate] at hset
  split_ifs at hset with hin
  · exact Or.inl hset
  by_cases heq : session' = session
  · subst heq
    exact Or.inr (Option.some.inj (hset.symm.trans (Lru.peek_put_self _ _ _)))
  · exact Or.inl (Lru.peek_put_of_ne heq hset)

theorem contains_fst (session hash : String) :
    (g.contains O session hash).1 = decide (hash ∈ g.reported O session) := by
  rw [contains]
  dsimp only
  rw [Lru.get_fst, peek_hydrate, Option.map_some, Option.getD_some]

theorem stored_contains (session hash : String) : (g.contains O session hash).2.stored O = g.stored O :=
  stored_hydrate session

/-! ### What one operation does -/

variable {session : String} {hashes : Finset String}

theorem record_eq (hash : String) :
    g.record O session hash = g.install O session (insert hash ((g.sessions.peek session).getD ∅)) := by
  rw [record]
  cases g.sessions.peek session with
  | none => rw [Option.getD_none, insert_empty_eq]
  | some set => rfl

theorem files_donated (donor : AdoptionDonor) : (g.donated O donor).2.files = g.files := by
  cases donor with
  | session key => exact files_hydrate key
  | persistedDigest digest => rfl

theorem stored_donated (donor : AdoptionDonor) : (g.donated O donor).2.stored O = g.stored O := by
  funext session
  rw [stored, files_donated, stored]

theorem Cached.donated (h : g.Cached O) (donor : AdoptionDonor) : (g.donated O donor).2.Cached O := by
  cases donor with
  | session key => exact h.hydrate key
  | persistedDigest digest => exact h

/-- A session takes over what a donor gives: into its set in memory, or else as its set. -/
theorem adoptFrom_eq (donor : AdoptionDonor) (session : String) :
    g.adoptFrom O donor session =
      if (g.donated O donor).1 = ∅ then (g.donated O donor).2
      else (g.donated O donor).2.install O session
        (((g.donated O donor).2.sessions.peek session).getD ∅ ∪ (g.donated O donor).1) := by
  rw [adoptFrom]
  dsimp only
  split_ifs with hempty
  · rfl
  cases (g.donated O donor).2.sessions.peek session with
  | none => rw [Option.getD_none, Finset.empty_union]
  | some set => rfl

/-- A session is seeded when it is not in memory and its donor, another session, has hashes. -/
theorem seedIfAbsent_eq (donor session : String) :
    g.seedIfAbsent O donor session =
      if g.sessions.contains session then (.refusedLive, g)
      else if g.reported O donor = ∅ then (.donorEmpty, g.hydrate O donor)
      else if donor = session then (.refusedLive, g.hydrate O donor)
      else (.seeded (O.first (g.reported O donor)).card,
        (g.hydrate O donor).install O session (O.first (g.reported O donor))) := by
  rw [seedIfAbsent]
  dsimp only
  rw [peek_hydrate, Option.getD_some]
  split_ifs with hin hempty hheld hsame hsame
  · rfl
  · rfl
  · rfl
  · -- a session that was not in memory is there after a look at its donor
    exfalso
    obtain ⟨set, hset⟩ := Option.isSome_iff_exists.1 hheld
    rw [hydrate] at hset
    split_ifs at hset with hdonor
    · exact hin (by rw [contains_eq_isSome, hset, Option.isSome_some])
    · have hpeek := Lru.peek_put_of_ne (Ne.symm hsame) hset
      exact hin (by rw [contains_eq_isSome, hpeek, Option.isSome_some])
  · subst hsame
    exact absurd (by rw [contains_eq_isSome, peek_hydrate, Option.isSome_some]) hheld
  · rfl

theorem Cached.rollback (h : g.Cached O) (session key : String) : (g.rollback O session key).Cached O := by
  rw [Gate.rollback]
  cases g.sessions.peek session with
  | none => exact h
  | some set => exact h.install session _

theorem mem_stored_rollback (h : g.Cached O) {session session' key hash : String}
    (hne : ¬(session' = session ∧ hash = key)) :
    hash ∈ (g.rollback O session key).stored O session' ↔ hash ∈ g.stored O session' := by
  rw [Gate.rollback]
  cases hpeek : g.sessions.peek session with
  | none => rfl
  | some set =>
    dsimp only
    rw [stored_install]
    by_cases heq : session' = session
    · subst heq
      have hkey : hash ≠ key := fun hkey => hne ⟨rfl, hkey⟩
      rw [Function.update_self, Finset.mem_erase, h session' set hpeek]
      exact and_iff_right hkey
    · rw [Function.update_of_ne heq]

theorem Cached.rollbackUnstoredRecords (h : g.Cached O) (records : List OffloadRecord) :
    (g.rollbackUnstoredRecords O records).Cached O := by
  rw [Gate.rollbackUnstoredRecords]
  induction records generalizing g with
  | nil => exact h
  | cons record records ih =>
    rw [List.foldl_cons]
    cases record.gateRollback with
    | none => exact ih h
    | some entry => exact ih (h.rollback entry.1 entry.2)

theorem mem_stored_rollbackUnstoredRecords (h : g.Cached O) {records : List OffloadRecord}
    {session hash : String} (hnot : ∀ record ∈ records, record.gateRollback ≠ some (session, hash)) :
    hash ∈ (g.rollbackUnstoredRecords O records).stored O session ↔ hash ∈ g.stored O session := by
  rw [Gate.rollbackUnstoredRecords]
  induction records generalizing g with
  | nil => rfl
  | cons record records ih =>
    have hrest := fun record' hmem => hnot record' (List.mem_cons_of_mem _ hmem)
    have hfirst := hnot record List.mem_cons_self
    rw [List.foldl_cons]
    cases hentry : record.gateRollback with
    | none => exact ih h hrest
    | some entry =>
      have hne : ¬(session = entry.1 ∧ hash = entry.2) := by
        rintro ⟨rfl, rfl⟩
        exact hfirst hentry
      exact (ih (h.rollback entry.1 entry.2) hrest).trans (mem_stored_rollback h hne)

/-! ### What every operation does -/

theorem Cached.withPersistence (capacity : ℕ) (h : 0 < capacity) (files : String → Option (Finset String))
    (lineagesFile : List (Lineage × List String)) :
    (Gate.withPersistence capacity h files lineagesFile).Cached O := by
  intro session set hset
  exact absurd (hset.symm.trans (Lru.peek_empty capacity h session)) nofun

/-- An operation leaves what is in memory as it is in the files. -/
theorem Cached.step (h : g.Cached O) (op : Op) : (op.step O g).Cached O := by
  cases op with
  | contains session hash =>
    refine (h.hydrate session).of_sessions rfl fun session' set hset => Or.inl ?_
    rw [← hset]
    exact (Lru.peek_get _ _ _).symm
  | record session hash =>
    show (g.record O session hash).Cached O
    rw [record_eq]
    exact h.install session _
  | rollbackUnstoredRecords records => exact h.rollbackUnstoredRecords records
  | seedIfAbsent donor session =>
    show (g.seedIfAbsent O donor session).2.Cached O
    rw [seedIfAbsent_eq]
    split_ifs
    · exact h
    · exact h.hydrate donor
    · exact h.hydrate donor
    · exact (h.hydrate donor).install session _
  | noteSessionBirth lineage session => exact h
  | seedCandidates lineage exclude => exact h
  | adoptFrom donor session =>
    show (g.adoptFrom O donor session).Cached O
    rw [adoptFrom_eq]
    split_ifs
    · exact h.donated donor
    · exact (h.donated donor).install session _
  | restart capacity hpos => exact Cached.withPersistence capacity hpos g.files g.lineagesFile

/-- An operation leaves the files of all sessions alone that it is not about. -/
theorem stored_step (h : g.Cached O) {op : Op} (hnot : session ∉ op.sessions) :
    (op.step O g).stored O session = g.stored O session := by
  cases op with
  | contains session' hash => exact congrFun (stored_contains session' hash) session
  | record session' hash =>
    have hne : session ≠ session' := fun heq => hnot (heq ▸ List.mem_cons_self)
    show (g.record O session' hash).stored O session = _
    rw [record_eq, stored_install, Function.update_of_ne hne]
  | rollbackUnstoredRecords records =>
    ext hash
    refine mem_stored_rollbackUnstoredRecords h fun record hmem hentry => hnot ?_
    exact List.mem_filterMap.2 ⟨record, hmem, by rw [hentry, Option.map_some]⟩
  | seedIfAbsent donor session' =>
    have hne : session ≠ session' := fun heq => hnot (heq ▸ List.mem_cons_self)
    show (g.seedIfAbsent O donor session').2.stored O session = _
    rw [seedIfAbsent_eq]
    split_ifs
    · rfl
    · rw [stored_hydrate]
    · rw [stored_hydrate]
    · rw [stored_install, Function.update_of_ne hne, stored_hydrate]
  | noteSessionBirth lineage session' => rfl
  | seedCandidates lineage exclude => rfl
  | adoptFrom donor session' =>
    have hne : session ≠ session' := fun heq => hnot (heq ▸ List.mem_cons_self)
    show (g.adoptFrom O donor session').stored O session = _
    rw [adoptFrom_eq]
    split_ifs
    · rw [stored_donated]
    · rw [stored_install, Function.update_of_ne hne, stored_donated]
  | restart capacity hpos => rfl

end Gate

end Headroom.Offload
