import Headroom.Offload.Gate

/-!
# What the gate forgets

A session is owed the hashes that were recorded for it, that it adopted and that were seeded into it, until they
are rolled back. The gate reports them as long as an operation that writes a set has the whole set before it: a
session that is not in memory must not be written over its file.

## Main statements

* `remembers_of_safe` : in a run of safe operations each of them forgets nothing.
-/

open Foundation

namespace Headroom.Offload

variable (O : Outside)

/-! ### What a session is owed -/

/-- The hashes a donor has for others. -/
def AdoptionDonor.hashes (g : Gate) : AdoptionDonor → Finset String
  | .session key => g.reported O key
  | .persistedDigest digest => (g.files digest).getD ∅

/-- The hashes an operation records for a session, or has it adopt, or seeds into it. -/
def Op.grants (g : Gate) : Op → String → Finset String
  | .record session hash, session' => if session' = session then {hash} else ∅
  | .adoptFrom donor session, session' => if session' = session then donor.hashes O g else ∅
  | .seedIfAbsent donor session, session' =>
    match (g.seedIfAbsent O donor session).1 with
    | .seeded _ => if session' = session then O.first (g.reported O donor) else ∅
    | _ => ∅
  | _, _ => ∅

/-- The hashes an operation takes back, with their sessions. -/
def Op.rolledBack : Op → List (String × String)
  | .rollbackUnstoredRecords records => records.filterMap fun record => record.gateRollback
  | _ => []

/-- A gate, and what each session is owed. -/
structure Account where
  gate : Gate
  owed : String → Finset String

def Account.step (a : Account) (op : Op) : Account where
  gate := op.step O a.gate
  owed session := (a.owed session ∪ op.grants O a.gate session).filter fun hash =>
    (session, hash) ∉ op.rolledBack

/-- A gate over files that are there. What they hold was recorded, adopted or seeded before. -/
def Account.opening (capacity : ℕ) (h : 0 < capacity) (files : String → Option (Finset String))
    (lineagesFile : List (Lineage × List String)) : Account where
  gate := Gate.withPersistence capacity h files lineagesFile
  owed := (Gate.withPersistence capacity h files lineagesFile).stored O

/-- All steps of a run have a property. -/
def Along (P : Account → Op → Prop) (a : Account) : List Op → Prop
  | [] => True
  | op :: ops => P a op ∧ Along P (a.step O op) ops

/-- An operation forgets nothing: all that is owed after it is reported, the sets of other sessions are what they
were, and a session that is known is not seeded. -/
structure Remembers (a : Account) (op : Op) : Prop where
  owed : ∀ session, ∀ hash ∈ (a.step O op).owed session,
    ((a.step O op).gate.contains O session hash).1 = true
  others : ∀ session, session ∉ op.sessions →
    (a.step O op).gate.reported O session = a.gate.reported O session
  known : ∀ donor session, op = .seedIfAbsent donor session →
    a.gate.sessions.contains session ∨ (a.gate.files (O.digest session)).isSome →
      (a.step O op).gate.reported O session = a.gate.reported O session

/-! ### Safe operations -/

/-- The set of a session stays in memory while a donor is looked up. -/
def Gate.Stays (g : Gate) (session : String) : AdoptionDonor → Prop
  | .session key => g.sessions.contains session ∧
      (g.sessions.contains key ∨ ∀ set, g.sessions.displaced key ≠ some (session, set))
  | .persistedDigest _ => g.sessions.contains session

/-- An operation writes a set over what the session has in memory, or over a file that has nothing else. -/
def Op.Safe (g : Gate) : Op → Prop
  | .record session hash => g.sessions.contains session ∨ g.reported O session ⊆ {hash}
  | .adoptFrom donor session =>
    donor.hashes O g = ∅ ∨ g.Stays session donor ∨ g.reported O session ⊆ donor.hashes O g
  | .seedIfAbsent donor session =>
    g.sessions.contains session ∨ g.reported O donor = ∅ ∨ donor = session ∨
      g.files (O.digest session) = none ∨ g.files (O.digest session) = some (O.first (g.reported O donor))
  | _ => True

namespace Gate

variable {O} {g : Gate} {session hash : String}

theorem donated_fst (donor : AdoptionDonor) : (g.donated O donor).1 = donor.hashes O g := by
  cases donor with
  | session key =>
    rw [donated]
    dsimp only
    rw [peek_hydrate, Option.getD_some, AdoptionDonor.hashes]
  | persistedDigest digest => rfl

theorem Cached.peek_of_contains (h : g.Cached O) (hin : g.sessions.contains session = true) :
    g.sessions.peek session = some (g.stored O session) := by
  obtain ⟨set, hset⟩ := Option.isSome_iff_exists.1 hin
  rw [hset, h session set hset]

theorem peek_of_not_contains (hin : ¬g.sessions.contains session = true) :
    g.sessions.peek session = none := Option.not_isSome_iff_eq_none.1 hin

theorem contains_donated_iff (donor : AdoptionDonor)
    (hne : ¬g.reported O session ⊆ donor.hashes O g) :
    (g.donated O donor).2.sessions.contains session = true ↔ g.Stays session donor := by
  cases donor with
  | persistedDigest digest => rfl
  | session key =>
    have hkey : session ≠ key := by
      rintro rfl
      exact hne (Finset.Subset.refl _)
    show (g.hydrate O key).sessions.contains session = true ↔ _
    rw [Gate.hydrate, Stays]
    split_ifs with hdonor
    · exact ⟨fun hin => ⟨hin, Or.inl hdonor⟩, fun hin => hin.1⟩
    have hnone := peek_of_not_contains hdonor
    constructor
    · intro hin
      obtain ⟨set, hset⟩ := Option.isSome_iff_exists.1 hin
      have hbefore := Lru.peek_put_of_ne hkey hset
      refine ⟨by rw [contains_eq_isSome, hbefore, Option.isSome_some], Or.inr fun set' hgone => ?_⟩
      obtain rfl : set' = set := by
        have hentry := Lru.mem_of_displaced hnone hgone
        exact Option.some.inj (((g.sessions.peek_eq_some_iff session set').2 hentry).symm.trans hbefore)
      exact (Lru.peek_put_of_ne_iff hkey hnone hbefore).1 hset hgone
    · rintro ⟨hin, hstays⟩
      obtain ⟨set, hset⟩ := Option.isSome_iff_exists.1 hin
      have hkept := (Lru.peek_put_of_ne_iff (v := (g.files (O.digest key)).getD ∅) hkey hnone hset).2
        (hstays.resolve_left hdonor set)
      exact Option.isSome_iff_exists.2 ⟨set, hkept⟩

theorem Cached.subset_record_iff (h : g.Cached O) :
    g.stored O session ⊆ (g.record O session hash).stored O session ↔
      g.sessions.contains session ∨ g.reported O session ⊆ {hash} := by
  rw [record_eq, stored_install, Function.update_self, h.reported_eq]
  by_cases hin : g.sessions.contains session = true
  · rw [h.peek_of_contains hin, Option.getD_some]
    exact iff_of_true (Finset.subset_insert _ _) (Or.inl hin)
  · rw [peek_of_not_contains hin, Option.getD_none, insert_empty_eq]
    exact (or_iff_right hin).symm

/-- Taking over the hashes of a donor keeps the set of the session when there are none, when the set is in memory
after the donor was looked up, or when the donor has it all. -/
theorem Cached.subset_adoptFrom_iff (h : g.Cached O) (donor : AdoptionDonor) :
    g.stored O session ⊆ (g.adoptFrom O donor session).stored O session ↔
      donor.hashes O g = ∅ ∨ g.Stays session donor ∨ g.reported O session ⊆ donor.hashes O g := by
  rw [adoptFrom_eq, donated_fst]
  split_ifs with hempty
  · rw [stored_donated]
    exact iff_of_true (Finset.Subset.refl _) (Or.inl hempty)
  rw [stored_install, Function.update_self, or_iff_right hempty]
  by_cases hsub : g.reported O session ⊆ donor.hashes O g
  · rw [h.reported_eq] at hsub
    refine iff_of_true (hsub.trans Finset.subset_union_right) (Or.inr ?_)
    rwa [h.reported_eq]
  rw [or_iff_left hsub, ← contains_donated_iff donor hsub]
  by_cases hin : (g.donated O donor).2.sessions.contains session = true
  · rw [(h.donated donor).peek_of_contains hin, Option.getD_some, stored_donated]
    exact iff_of_true Finset.subset_union_left hin
  · rw [peek_of_not_contains hin, Option.getD_none, Finset.empty_union, ← h.reported_eq]
    exact iff_of_false hsub hin

/-- Seeding leaves a session that is known as it is, when it is in memory, when it is not seeded, or when what is
seeded is what it has. -/
theorem stored_seedIfAbsent_iff (donor : String) :
    (g.sessions.contains session ∨ (g.files (O.digest session)).isSome →
        (g.seedIfAbsent O donor session).2.stored O session = g.stored O session) ↔
      (Op.seedIfAbsent donor session).Safe O g := by
  rw [seedIfAbsent_eq, Op.Safe]
  split_ifs with hin hempty hsame
  · exact iff_of_true (fun _ => rfl) (Or.inl hin)
  · exact iff_of_true (fun _ => by rw [stored_hydrate]) (Or.inr (Or.inl hempty))
  · exact iff_of_true (fun _ => by rw [stored_hydrate]) (Or.inr (Or.inr (Or.inl hsame)))
  rw [or_iff_right hin, or_iff_right hin, or_iff_right hempty, or_iff_right hsame, stored_install,
    Function.update_self, stored]
  cases g.files (O.digest session) with
  | none => exact iff_of_true (by simp) (Or.inl rfl)
  | some set =>
    rw [Option.isSome_some, Option.getD_some, Option.some.injEq, or_iff_right (by simp)]
    exact ⟨fun heq => (heq rfl).symm, fun heq _ => heq.symm⟩

theorem subset_seedIfAbsent (donor : String)
    (hknown : g.sessions.contains session ∨ (g.files (O.digest session)).isSome →
      (g.seedIfAbsent O donor session).2.stored O session = g.stored O session) :
    g.stored O session ⊆ (g.seedIfAbsent O donor session).2.stored O session := by
  by_cases hfile : (g.files (O.digest session)).isSome
  · rw [hknown (Or.inr hfile)]
  · rw [stored, Option.not_isSome_iff_eq_none.1 hfile, Option.getD_none]
    exact Finset.empty_subset _

end Gate

variable {O} {g : Gate}

/-- The operations that keep all sets, up to what is rolled back, and leave a known session unseeded are the
safe ones. -/
theorem safe_iff (h : g.Cached O) (op : Op) :
    op.Safe O g ↔
      (∀ session, ∀ hash ∈ g.stored O session, (session, hash) ∉ op.rolledBack →
        hash ∈ (op.step O g).stored O session) ∧
      ∀ donor session, op = .seedIfAbsent donor session →
        g.sessions.contains session ∨ (g.files (O.digest session)).isSome →
          (op.step O g).stored O session = g.stored O session := by
  -- an operation on one session keeps the set of every other one
  have hone : ∀ session, op.sessions = [session] →
      (g.stored O session ⊆ (op.step O g).stored O session) →
      ∀ session', g.stored O session' ⊆ (op.step O g).stored O session' := by
    intro session hsessions hsub session'
    by_cases heq : session' = session
    · rwa [heq]
    · rw [Gate.stored_step h]
      rw [hsessions, List.mem_singleton]
      exact heq
  cases op with
  | contains session hash =>
    refine iff_of_true trivial ⟨fun session' hash' hmem _ => ?_, nofun⟩
    rwa [show (Op.contains session hash).step O g = (g.contains O session hash).2 from rfl,
      Gate.stored_contains]
  | record session hash =>
    rw [Op.Safe, ← h.subset_record_iff]
    constructor
    · exact fun hsub => ⟨fun session' hash' hmem _ => hone session rfl hsub session' hmem, nofun⟩
    · exact fun hkeeps hash' hmem => hkeeps.1 session hash' hmem List.not_mem_nil
  | rollbackUnstoredRecords records =>
    refine iff_of_true trivial ⟨fun session hash hmem hnot => ?_, nofun⟩
    refine (Gate.mem_stored_rollbackUnstoredRecords h fun record hin hentry => hnot ?_).2 hmem
    exact List.mem_filterMap.2 ⟨record, hin, hentry⟩
  | seedIfAbsent donor session =>
    rw [← Gate.stored_seedIfAbsent_iff]
    constructor
    · intro hknown
      refine ⟨fun session' hash hmem _ => ?_, ?_⟩
      · exact hone session rfl (Gate.subset_seedIfAbsent donor hknown) session' hmem
      · rintro donor' session' ⟨⟩
        exact hknown
    · exact fun hkeeps => hkeeps.2 donor session rfl
  | noteSessionBirth lineage session => exact iff_of_true trivial ⟨fun _ _ hmem _ => hmem, nofun⟩
  | seedCandidates lineage exclude => exact iff_of_true trivial ⟨fun _ _ hmem _ => hmem, nofun⟩
  | adoptFrom donor session =>
    rw [Op.Safe, ← h.subset_adoptFrom_iff]
    constructor
    · exact fun hsub => ⟨fun session' hash' hmem _ => hone session rfl hsub session' hmem, nofun⟩
    · exact fun hkeeps hash' hmem => hkeeps.1 session hash' hmem List.not_mem_nil
  | restart capacity hpos => exact iff_of_true trivial ⟨fun _ _ hmem _ => hmem, nofun⟩

/-! ### Runs -/

theorem grants_subset_stored (op : Op) (session : String) :
    op.grants O g session ⊆ (op.step O g).stored O session := by
  cases op with
  | contains | rollbackUnstoredRecords | noteSessionBirth | seedCandidates | restart =>
    exact Finset.empty_subset _
  | record session' hash =>
    rw [Op.grants]
    split_ifs with heq
    · subst heq
      show _ ⊆ (g.record O session hash).stored O session
      rw [Gate.record_eq, Gate.stored_install, Function.update_self, Finset.singleton_subset_iff]
      exact Finset.mem_insert_self _ _
    · exact Finset.empty_subset _
  | adoptFrom donor session' =>
    rw [Op.grants]
    split_ifs with heq
    · subst heq
      show _ ⊆ (g.adoptFrom O donor session).stored O session
      rw [Gate.adoptFrom_eq, Gate.donated_fst]
      split_ifs with hempty
      · rw [hempty]
        exact Finset.empty_subset _
      · rw [Gate.stored_install, Function.update_self]
        exact Finset.subset_union_right
    · exact Finset.empty_subset _
  | seedIfAbsent donor session' =>
    rw [Op.grants]
    show _ ⊆ (g.seedIfAbsent O donor session').2.stored O session
    rw [Gate.seedIfAbsent_eq]
    split_ifs
    · exact Finset.empty_subset _
    · exact Finset.empty_subset _
    · exact Finset.empty_subset _
    · exact Finset.empty_subset _
    · exact Finset.empty_subset _
    · exact Finset.empty_subset _
    · subst_vars
      rw [Gate.stored_install, Function.update_self]
    · exact Finset.empty_subset _

/-- What all sessions are owed is in their files, and memory is as the files. -/
structure Account.Covered (O : Outside) (a : Account) : Prop where
  cached : a.gate.Cached O
  owed_subset : ∀ session, a.owed session ⊆ a.gate.stored O session

theorem Account.Covered.step {a : Account} (h : a.Covered O) {op : Op} (hsafe : op.Safe O a.gate) :
    (a.step O op).Covered O where
  cached := h.cached.step op
  owed_subset := by
    intro session hash hmem
    obtain ⟨hmem, hnot⟩ := Finset.mem_filter.1 hmem
    rcases Finset.mem_union.1 hmem with hold | hnew
    · exact ((safe_iff h.cached op).1 hsafe).1 session hash (h.owed_subset session hold) hnot
    · exact grants_subset_stored op session hnew

theorem Account.Covered.remembers {a : Account} (h : a.Covered O) {op : Op} (hsafe : op.Safe O a.gate) :
    Remembers O a op := by
  have hnext := h.step hsafe
  have hreported : ∀ session, (a.step O op).gate.reported O session = (op.step O a.gate).stored O session :=
    hnext.cached.reported_eq
  refine ⟨fun session hash hmem => ?_, fun session hnot => ?_, fun donor session hop hknown => ?_⟩
  · rw [Gate.contains_fst, hreported, decide_eq_true_iff]
    exact hnext.owed_subset session hmem
  · rw [hreported, Gate.stored_step h.cached hnot, h.cached.reported_eq]
  · rw [hreported, h.cached.reported_eq]
    exact ((safe_iff h.cached op).1 hsafe).2 donor session hop hknown

theorem Account.covered_opening (capacity : ℕ) (h : 0 < capacity)
    (files : String → Option (Finset String)) (lineagesFile : List (Lineage × List String)) :
    (Account.opening O capacity h files lineagesFile).Covered O where
  cached := Gate.Cached.withPersistence capacity h files lineagesFile
  owed_subset _ := Finset.Subset.refl _

theorem along_remembers {a : Account} (h : a.Covered O) {ops : List Op}
    (hsafe : Along O (fun a op => op.Safe O a.gate) a ops) : Along O (Remembers O) a ops := by
  induction ops generalizing a with
  | nil => trivial
  | cons op ops ih => exact ⟨h.remembers hsafe.1, ih (h.step hsafe.1) hsafe.2⟩

/-- In a run of safe operations, from any files, each operation forgets nothing. -/
theorem remembers_of_safe (O : Outside) (capacity : ℕ) (h : 0 < capacity)
    (files : String → Option (Finset String)) (lineagesFile : List (Lineage × List String)) (ops : List Op)
    (hsafe : Along O (fun a op => op.Safe O a.gate) (Account.opening O capacity h files lineagesFile) ops) :
    Along O (Remembers O) (Account.opening O capacity h files lineagesFile) ops :=
  along_remembers (Account.covered_opening capacity h files lineagesFile) hsafe

/-- A session is read back after a restart, converts one more block, and hands its set to another session while
there is room in memory for one. -/
theorem remembers_after_restart :
    Along default (Remembers default) (Account.opening default 2 (by decide) (fun _ => none) [])
      [.record "s" "a", .restart 1 (by decide), .contains "s" "a", .record "s" "b",
        .adoptFrom (.session "s") "t", .contains "s" "b"] :=
  remembers_of_safe default 2 (by decide) (fun _ => none) [] _
    ⟨Or.inr (by decide +kernel), trivial, trivial, Or.inl (by decide +kernel),
      Or.inr (Or.inr (by decide +kernel)), trivial, trivial⟩

/-- A session that another one pushed out of memory converts one more block: its file then has this one only. -/
theorem not_remembers_of_evicted :
    ¬∀ (O : Outside) (capacity : ℕ) (h : 0 < capacity) (files : String → Option (Finset String))
      (lineagesFile : List (Lineage × List String)) (ops : List Op),
      Along O (Remembers O) (Account.opening O capacity h files lineagesFile) ops := by
  intro h
  obtain ⟨-, -, hthird, -⟩ := h default 1 (by decide) (fun _ => none) []
    [.record "s" "a", .record "t" "b", .record "s" "c"]
  have hreported := hthird.owed "s" "a" (by decide +kernel)
  revert hreported
  decide +kernel

end Headroom.Offload
