import Mathlib.Data.List.Induction
import Headroom.Foundation.Shelf
import Headroom.Ccr.InMemory

/-!
# What the store in memory evicts

A store is for a shelf of entries: a put of a hash that is not there goes to the end of it, and when it is
full the entry that is there for longest makes room. The queue of the store gives that order as long as it
has each stored hash once. A read that drops an expired entry leaves its hash in the queue, and a later put
of the same hash has it there twice: the entry then goes when it is its old turn.

## Main statements

* `evictsOldest_iff` : a run evicts what is there for longest if and only if all its calls are clean.
-/

open Foundation

namespace Headroom.Ccr

variable (L : Limits)

/-! ### A shelf of entries -/

/-- What a call does to a shelf of entries. -/
def shelfStep (l : Shelf String Entry) (now : ℕ) : Call → Answer × Shelf String Entry
  | .put hash payload => (.stored, l.put L.capacity hash ⟨payload, now, now⟩)
  | .get hash =>
    match l.find? hash with
    | none => (.payload none, l)
    | some e =>
      if e.isExpired L now then (.payload none, l.without hash)
      else (.payload (some e.payload), l.replace hash { e with lastAccessed := now })
  | .entryStatus hash =>
    match l.find? hash with
    | none => (.status (.missing L), l)
    | some e => (.status (e.status L now), if e.isExpired L now then l.without hash else l)

/-- The shelf after some calls. -/
def shelfRun (calls : List (ℕ × Call)) : Shelf String Entry :=
  calls.foldl (fun l call => (shelfStep L l call.1 call.2).2) []

/-- The payload of the last put of a hash. -/
def lastPut (calls : List (ℕ × Call)) (hash : String) : Option String :=
  calls.foldl (fun last call =>
    match call.2 with
    | .put hash' payload => if hash' = hash then some payload else last
    | _ => last) none

namespace InMemoryCcrStore

/-- The entries of a store in the order of its queue. -/
def held (s : InMemoryCcrStore) : Shelf String Entry := Shelf.laidOut s.order s.map.lookup

/-- A store is a shelf of entries: it is within its capacity, its queue has each stored hash once and is no
longer than the capacity, and it answers each call as the shelf does. -/
structure IsShelf (s : InMemoryCcrStore) (l : Shelf String Entry) : Prop where
  len_le : s.len ≤ L.capacity
  once : ∀ hash ∈ s.map, s.order.count hash = 1
  order_le : s.order.length ≤ L.capacity
  held_eq : s.held = l
  answer_eq : ∀ now call, (step L s now call).1 = (shelfStep L l now call).1

/-- In all states of a run the store is the shelf of the calls so far, with the payloads that were put last. -/
def EvictsOldest (calls : List (ℕ × Call)) : Prop :=
  ∀ before, before <+: calls → (run L before).IsShelf L (shelfRun L before) ∧
    ∀ hash e, (run L before).map.lookup hash = some e → lastPut before hash = some e.payload

/-- What is left of the queue when there is room for one more. -/
def remaining (s : InMemoryCcrStore) : List String :=
  if L.capacity ≤ s.len then (s.order.dropWhile fun hash => decide (hash ∉ s.map)).tail else s.order

/-- A put of a hash that is not stored finds neither this hash in what is left of the queue, nor as many
hashes as fit in. -/
def Clean (s : InMemoryCcrStore) (call : Call) : Prop :=
  ∀ hash payload, call = .put hash payload → hash ∉ s.map →
    hash ∉ s.remaining L ∧ (s.remaining L).length < L.capacity

/-! ### The queue has each stored hash -/

/-- What the calls of a clean run keep. -/
structure Ordered (s : InMemoryCcrStore) : Prop where
  nodup : s.order.Nodup
  subset : ∀ hash ∈ s.map, hash ∈ s.order
  order_le : s.order.length ≤ L.capacity

variable {L} {s : InMemoryCcrStore}

theorem Ordered.len_le (h : s.Ordered L) : s.len ≤ L.capacity := by
  have hsub : s.map.keys.Subperm s.order := List.subperm_of_subset s.map.keys_nodup h.subset
  exact Nat.le_trans hsub.length_le h.order_le

theorem lookup_insert_eq (map : AList fun _ : String => Entry) (hash : String) (e : Entry) :
    (map.insert hash e).lookup = Function.update map.lookup hash (some e) := by
  funext hash'
  by_cases heq : hash' = hash
  · subst heq
    rw [AList.lookup_insert, Function.update_self]
  · rw [AList.lookup_insert_ne heq, Function.update_of_ne heq]

theorem lookup_erase_eq (map : AList fun _ : String => Entry) (hash : String) :
    (map.erase hash).lookup = Function.update map.lookup hash none := by
  funext hash'
  by_cases heq : hash' = hash
  · subst heq
    rw [AList.lookup_erase, Function.update_self]
  · rw [AList.lookup_erase_ne heq, Function.update_of_ne heq]

variable {map : AList fun _ : String => Entry} {hash : String}

theorem erase_of_notMem (h : hash ∉ map) :
    map.erase hash = map := by
  refine AList.ext ?_
  exact List.kerase_of_notMem_keys h

theorem find?_held (h : s.Ordered L) (hash : String) : s.held.find? hash = s.map.lookup hash :=
  Shelf.find?_laidOut fun hsome => h.subset hash (AList.lookup_isSome.1 hsome)

theorem length_held (h : s.Ordered L) : s.held.length = s.len := by
  have hperm : (s.held.map Prod.fst).Perm s.map.keys := by
    rw [held, Shelf.map_fst_laidOut]
    rw [List.perm_ext_iff_of_nodup (h.nodup.filter _) s.map.keys_nodup]
    intro hash
    rw [List.mem_filter, AList.lookup_isSome]
    exact ⟨fun hmem => hmem.2, fun hmem => ⟨h.subset hash hmem, hmem⟩⟩
  have hlength := hperm.length_eq
  rwa [List.length_map] at hlength

/-! ### Eviction -/

theorem exists_evict {capacity : ℕ} {order : List String}
    (hfull : map.keys.length = capacity) (hpos : 0 < capacity) (hsubset : ∀ hash ∈ map, hash ∈ order) :
    ∃ before hash after, order = before ++ hash :: after ∧ (∀ hash' ∈ before, hash' ∉ map) ∧
      hash ∈ map ∧ evictUntilUnderCapacity capacity map order = ⟨map.erase hash, after⟩ := by
  induction order with
  | nil =>
    obtain ⟨hash, hmem⟩ := List.exists_mem_of_length_pos (show 0 < map.keys.length by omega)
    exact absurd (hsubset hash hmem) List.not_mem_nil
  | cons oldest order ih =>
    rw [evictUntilUnderCapacity, if_pos (by omega)]
    by_cases hmem : oldest ∈ map
    · refine ⟨[], oldest, order, rfl, fun _ => nofun, hmem, ?_⟩
      have hless : (map.erase oldest).keys.length < capacity := by
        rw [AList.keys_erase, List.length_erase_of_mem hmem]
        omega
      -- one removal makes room
      cases order with
      | nil => rfl
      | cons next order => rw [evictUntilUnderCapacity, if_neg (by omega)]
    · have hrest : ∀ hash ∈ map, hash ∈ order := by
        intro hash hhash
        refine (List.mem_cons.1 (hsubset hash hhash)).resolve_left ?_
        rintro rfl
        exact hmem hhash
      obtain ⟨before, hash, after, rfl, hbefore, hhash, hevict⟩ := ih hrest
      rw [erase_of_notMem hmem]
      refine ⟨oldest :: before, hash, after, rfl, fun hash' hmem' => ?_, hhash, hevict⟩
      rcases List.mem_cons.1 hmem' with rfl | hmem'
      · exact hmem
      · exact hbefore hash' hmem'

/-- What a put of a hash that is not stored finds when there is room for it: the map and the queue from
which the entry that is there for longest is gone, if the store was full. -/
theorem exists_room (h : s.Ordered L) (hpos : 0 < L.capacity) :
    ∃ map : AList fun _ : String => Entry,
      (if L.capacity ≤ s.len then evictUntilUnderCapacity L.capacity s.map s.order else s) =
          ⟨map, s.remaining L⟩ ∧
        (∀ hash ∈ map, hash ∈ s.map ∧ hash ∈ s.remaining L) ∧ (s.remaining L).Sublist s.order ∧
        Shelf.laidOut (s.remaining L) map.lookup =
          (if L.capacity ≤ s.held.length then s.held.tail else s.held) := by
  rw [length_held h, remaining]
  by_cases hfull : L.capacity ≤ s.len
  · rw [if_pos hfull, if_pos hfull, if_pos hfull]
    obtain ⟨before, hash, after, horder, hbefore, hhash, hevict⟩ :=
      exists_evict (le_antisymm h.len_le hfull) hpos h.subset
    have hnodup := h.nodup
    rw [horder, List.nodup_append, List.nodup_cons] at hnodup
    have hleft : (s.order.dropWhile fun hash => decide (hash ∉ s.map)).tail = after := by
      rw [horder, List.dropWhile_append_of_pos fun hash' hmem => decide_eq_true (hbefore hash' hmem),
        List.dropWhile_cons_of_neg (by simpa using hhash), List.tail_cons]
    rw [hleft]
    refine ⟨s.map.erase hash, hevict, fun hash' hmem => ?_, ?_, ?_⟩
    · obtain ⟨hne, hmem⟩ := AList.mem_erase.1 hmem
      refine ⟨hmem, ?_⟩
      have hin := h.subset hash' hmem
      rw [horder, List.mem_append, List.mem_cons] at hin
      rcases hin with hin | rfl | hin
      · exact absurd hmem (hbefore hash' hin)
      · exact absurd rfl hne
      · exact hin
    · rw [horder]
      exact (List.sublist_cons_self hash after).trans (List.sublist_append_right before _)
    · rw [held, horder, lookup_erase_eq]
      exact Shelf.laidOut_pop (fun hash' hmem => AList.lookup_eq_none.2 (hbefore hash' hmem))
        (AList.lookup_isSome.2 hhash) hnodup.2.1.1
  · rw [if_neg hfull, if_neg hfull, if_neg hfull]
    exact ⟨s.map, rfl, fun hash hmem => ⟨hmem, h.subset hash hmem⟩, List.Sublist.refl _, rfl⟩

/-! ### Steps -/

/-- Dropping an entry from the map keeps the queue in order. -/
theorem Ordered.erase (h : s.Ordered L) (hash : String) :
    Ordered L { s with map := s.map.erase hash } :=
  ⟨h.nodup, fun hash' hmem => h.subset hash' (AList.mem_erase.1 hmem).2, h.order_le⟩

/-- So does another entry for a stored hash. -/
theorem Ordered.insert (h : s.Ordered L) (hmem : hash ∈ s.map) (e : Entry) :
    Ordered L { s with map := s.map.insert hash e } := by
  refine ⟨h.nodup, fun hash' hmem' => ?_, h.order_le⟩
  rcases (AList.mem_insert s.map).1 hmem' with rfl | hmem'
  · exact h.subset hash' hmem
  · exact h.subset hash' hmem'

theorem held_erase (s : InMemoryCcrStore) (hash : String) :
    held { s with map := s.map.erase hash } = s.held.without hash := by
  show Shelf.laidOut s.order (s.map.erase hash).lookup = _
  rw [lookup_erase_eq]
  exact Shelf.laidOut_erase

theorem held_insert (hmem : hash ∈ s.map) (e : Entry) :
    held { s with map := s.map.insert hash e } = s.held.replace hash e := by
  show Shelf.laidOut s.order (s.map.insert hash e).lookup = _
  rw [lookup_insert_eq]
  exact Shelf.laidOut_update (AList.lookup_isSome.2 hmem)

theorem order_put (h : s.Ordered L) (hpos : 0 < L.capacity) (hnew : hash ∉ s.map)
    (now : ℕ) (payload : String) :
    hash ∈ (put L now hash payload s).map ∧ (put L now hash payload s).order = s.remaining L ++ [hash] := by
  obtain ⟨map, hevict, hstored, -, -⟩ := exists_room h hpos
  have hnone : map.lookup hash = none := AList.lookup_eq_none.2 fun hmem => hnew (hstored hash hmem).1
  rw [put, AList.lookup_eq_none.2 hnew]
  dsimp only
  rw [hevict, hnone]
  exact ⟨(AList.mem_insert map).2 (Or.inl rfl), rfl⟩

theorem put_of_notMem (h : s.Ordered L) (hpos : 0 < L.capacity) (hnew : hash ∉ s.map)
    (hleft : hash ∉ s.remaining L) (hroom : (s.remaining L).length < L.capacity) (now : ℕ)
    (payload : String) :
    (put L now hash payload s).Ordered L ∧
      (put L now hash payload s).held = s.held.put L.capacity hash ⟨payload, now, now⟩ := by
  obtain ⟨map, hevict, hstored, hsublist, hheld⟩ := exists_room h hpos
  have hnone : map.lookup hash = none := AList.lookup_eq_none.2 fun hmem => hnew (hstored hash hmem).1
  have hput : put L now hash payload s =
      ⟨map.insert hash ⟨payload, now, now⟩, s.remaining L ++ [hash]⟩ := by
    rw [put, AList.lookup_eq_none.2 hnew]
    dsimp only
    rw [hevict, hnone]
  rw [hput]
  constructor
  · refine ⟨?_, fun hash' hmem => ?_, ?_⟩
    · have hdisjoint : List.Disjoint (s.remaining L) [hash] := List.disjoint_singleton.2 hleft
      exact List.nodup_append'.2 ⟨h.nodup.sublist hsublist, List.nodup_singleton hash, hdisjoint⟩
    · rcases (AList.mem_insert map).1 hmem with rfl | hmem
      · exact List.mem_append_right _ (List.mem_singleton.2 rfl)
      · exact List.mem_append_left _ (hstored hash' hmem).2
    · rw [List.length_append, List.length_singleton]
      omega
  · have hfind : (s.held.find? hash).isSome = false := by
      rw [find?_held h, AList.lookup_eq_none.2 hnew]
      rfl
    rw [Shelf.put, hfind, if_neg Bool.false_ne_true, ← hheld]
    show Shelf.laidOut (s.remaining L ++ [hash]) (map.insert hash _).lookup = _
    rw [lookup_insert_eq, Shelf.laidOut_append, Shelf.laidOut_cons_some (Function.update_self ..)]
    refine congrArg (· ++ [(hash, Entry.mk payload now now)]) (Shelf.laidOut_congr fun hash' hmem => ?_)
    have hne : hash' ≠ hash := fun heq => hleft (heq ▸ hmem)
    exact Function.update_of_ne hne ..

theorem step_ordered (h : s.Ordered L) (hpos : 0 < L.capacity) {call : Call} (hclean : s.Clean L call)
    (now : ℕ) :
    (step L s now call).2.Ordered L ∧ (step L s now call).2.held = (shelfStep L s.held now call).2 := by
  cases call with
  | put hash payload =>
    show (put L now hash payload s).Ordered L ∧ (put L now hash payload s).held = s.held.put L.capacity hash _
    by_cases hmem : hash ∈ s.map
    · obtain ⟨e, he⟩ := Option.isSome_iff_exists.1 (AList.lookup_isSome.2 hmem)
      rw [put, he]
      refine ⟨h.insert hmem _, ?_⟩
      rw [held_insert hmem, Shelf.put, find?_held h, he, if_pos (Option.isSome_some)]
    · obtain ⟨hleft, hroom⟩ := hclean hash payload rfl hmem
      exact put_of_notMem h hpos hmem hleft hroom now payload
  | get hash =>
    show (get L now hash s).2.Ordered L ∧ (get L now hash s).2.held = _
    rw [shelfStep, find?_held h, get]
    cases he : s.map.lookup hash with
    | none => exact ⟨h, rfl⟩
    | some e =>
      have hmem : hash ∈ s.map := AList.lookup_isSome.1 (by rw [he]; rfl)
      dsimp only
      split_ifs
      · exact ⟨h.erase hash, held_erase s hash⟩
      · exact ⟨h.insert hmem _, held_insert hmem _⟩
  | entryStatus hash =>
    show (entryStatus L now hash s).2.Ordered L ∧ (entryStatus L now hash s).2.held = _
    rw [shelfStep, find?_held h, entryStatus]
    cases he : s.map.lookup hash with
    | none => exact ⟨h, rfl⟩
    | some e =>
      dsimp only
      split_ifs
      · exact ⟨h.erase hash, held_erase s hash⟩
      · exact ⟨h, rfl⟩

theorem answer_eq_of_ordered (h : s.Ordered L) (now : ℕ) (call : Call) :
    (step L s now call).1 = (shelfStep L s.held now call).1 := by
  cases call with
  | put hash payload => rfl
  | get hash =>
    show Answer.payload (get L now hash s).1 = _
    rw [shelfStep, find?_held h, get]
    cases s.map.lookup hash with
    | none => rfl
    | some e =>
      dsimp only
      split_ifs
      · rfl
      · rfl
  | entryStatus hash =>
    show Answer.status (entryStatus L now hash s).1 = _
    rw [shelfStep, find?_held h, entryStatus]
    cases s.map.lookup hash with
    | none => rfl
    | some e => rfl

theorem isShelf_of_ordered (h : s.Ordered L) : s.IsShelf L s.held where
  len_le := h.len_le
  once hash hmem := List.count_eq_one_of_mem h.nodup (h.subset hash hmem)
  order_le := h.order_le
  held_eq := rfl
  answer_eq := answer_eq_of_ordered h

/-! ### Runs -/

theorem run_concat (calls : List (ℕ × Call)) (now : ℕ) (call : Call) :
    run L (calls ++ [(now, call)]) = (step L (run L calls) now call).2 := List.foldl_concat ..

theorem shelfRun_concat (calls : List (ℕ × Call)) (now : ℕ) (call : Call) :
    shelfRun L (calls ++ [(now, call)]) = (shelfStep L (shelfRun L calls) now call).2 :=
  List.foldl_concat ..

theorem lastPut_concat (calls : List (ℕ × Call)) (now : ℕ) (call : Call) (hash : String) :
    lastPut (calls ++ [(now, call)]) hash =
      match call with
      | .put hash' payload => if hash' = hash then some payload else lastPut calls hash
      | _ => lastPut calls hash := by
  rw [lastPut, List.foldl_concat]
  rfl

variable {e : Entry}

theorem evict_lookup {capacity : ℕ} {order : List String}
    (h : (evictUntilUnderCapacity capacity map order).map.lookup hash = some e) :
    map.lookup hash = some e := by
  induction order generalizing map with
  | nil => exact h
  | cons oldest order ih =>
    rw [evictUntilUnderCapacity] at h
    split_ifs at h
    · have hrest := ih h
      by_cases heq : hash = oldest
      · subst heq
        rw [AList.lookup_erase] at hrest
        exact absurd hrest nofun
      · rwa [AList.lookup_erase_ne heq] at hrest
    · exact h

theorem lookup_put_self (now : ℕ) (hash payload : String) :
    (put L now hash payload s).map.lookup hash = some ⟨payload, now, now⟩ := by
  rw [put]
  cases s.map.lookup hash with
  | none => exact AList.lookup_insert _
  | some e => exact AList.lookup_insert _

variable {now : ℕ}

theorem lookup_put_of_ne {hash hash' payload : String} (hne : hash ≠ hash')
    (h : (put L now hash' payload s).map.lookup hash = some e) : s.map.lookup hash = some e := by
  rw [put] at h
  cases hfound : s.map.lookup hash' with
  | none =>
    rw [hfound] at h
    dsimp only at h
    rw [AList.lookup_insert_ne hne] at h
    split_ifs at h
    · exact evict_lookup h
    · exact h
  | some e' =>
    rw [hfound] at h
    dsimp only at h
    rwa [AList.lookup_insert_ne hne] at h

theorem lookup_get {hash hash' : String} (h : (get L now hash' s).2.map.lookup hash = some e) :
    ∃ e', s.map.lookup hash = some e' ∧ e'.payload = e.payload := by
  rw [get] at h
  cases hfound : s.map.lookup hash' with
  | none =>
    rw [hfound] at h
    exact ⟨e, h, rfl⟩
  | some e' =>
    rw [hfound] at h
    dsimp only at h
    by_cases heq : hash = hash'
    · subst heq
      split_ifs at h
      · rw [AList.lookup_erase] at h
        exact absurd h nofun
      · rw [AList.lookup_insert] at h
        obtain rfl := Option.some.inj h
        exact ⟨e', hfound, rfl⟩
    · refine ⟨e, ?_, rfl⟩
      split_ifs at h
      · rwa [AList.lookup_erase_ne heq] at h
      · rwa [AList.lookup_insert_ne heq] at h

theorem lookup_entryStatus {hash hash' : String}
    (h : (entryStatus L now hash' s).2.map.lookup hash = some e) : s.map.lookup hash = some e := by
  rw [entryStatus] at h
  cases hfound : s.map.lookup hash' with
  | none => rwa [hfound] at h
  | some e' =>
    rw [hfound] at h
    dsimp only at h
    split_ifs at h
    · by_cases heq : hash = hash'
      · subst heq
        rw [AList.lookup_erase] at h
        exact absurd h nofun
      · rwa [AList.lookup_erase_ne heq] at h
    · exact h

variable {calls : List (ℕ × Call)}

theorem lastPut_eq (h : (run L calls).map.lookup hash = some e) : lastPut calls hash = some e.payload := by
  induction calls using List.reverseRecOn generalizing e with
  | nil => exact absurd h nofun
  | append_singleton calls call ih =>
    obtain ⟨now, call⟩ := call
    rw [run_concat] at h
    rw [lastPut_concat]
    cases call with
    | put hash' payload =>
      dsimp only
      by_cases heq : hash' = hash
      · subst heq
        obtain rfl := Option.some.inj ((lookup_put_self now hash' payload).symm.trans h)
        exact if_pos rfl
      · rw [if_neg heq]
        exact ih (lookup_put_of_ne (Ne.symm heq) h)
    | get hash' =>
      obtain ⟨e', he', hpayload⟩ := lookup_get h
      rw [← hpayload]
      exact ih he'
    | entryStatus hash' => exact ih (lookup_entryStatus h)

/-- The calls so far are clean, and so is the next one, if all calls are. -/
def AllClean (L : Limits) (calls : List (ℕ × Call)) : Prop :=
  ∀ before now call, before ++ [(now, call)] <+: calls → (run L before).Clean L call

/-- After clean calls the queue is in order, and the store is the shelf of the calls. -/
theorem run_ordered (hpos : 0 < L.capacity) (hclean : AllClean L calls) :
    (run L calls).Ordered L ∧ (run L calls).held = shelfRun L calls := by
  induction calls using List.reverseRecOn with
  | nil =>
    refine ⟨⟨List.nodup_nil, fun hash hmem => ?_, Nat.zero_le _⟩, rfl⟩
    exact absurd hmem (AList.notMem_empty hash)
  | append_singleton calls call ih =>
    obtain ⟨now, call⟩ := call
    have hbefore : AllClean L calls := fun before now' call' hstart =>
      hclean before now' call' (hstart.trans (List.prefix_append _ _))
    obtain ⟨hordered, hheld⟩ := ih hbefore
    rw [run_concat, shelfRun_concat, ← hheld]
    exact step_ordered hordered hpos (hclean calls now call List.prefix_rfl) now

/-- In a run that evicts what is there for longest all calls are clean: another put would have its hash in
the queue twice, or the queue would be longer than the capacity. -/
theorem allClean_of_evictsOldest (hpos : 0 < L.capacity) (h : EvictsOldest L calls) : AllClean L calls := by
  induction calls using List.reverseRecOn with
  | nil =>
    intro before now call hstart
    exact absurd (List.prefix_nil.1 hstart) (by simp)
  | append_singleton calls last ih =>
    have hbefore := ih fun before hstart => h before (hstart.trans (List.prefix_append _ _))
    intro before now call hstart
    rcases List.prefix_concat_iff.1 hstart with heq | hstart
    · obtain ⟨rfl, rfl⟩ := List.append_inj' heq rfl |>.imp_right List.singleton_inj.1
      intro hash payload hcall hnew
      obtain ⟨hmem, horder⟩ := order_put (run_ordered hpos hbefore).1 hpos hnew now payload
      obtain ⟨hshelf, -⟩ := h _ List.prefix_rfl
      rw [run_concat, hcall] at hshelf
      have hcount := hshelf.once hash hmem
      have hlength := hshelf.order_le
      change (put L now hash payload (run L before)).order.count hash = 1 at hcount
      change (put L now hash payload (run L before)).order.length ≤ L.capacity at hlength
      rw [horder, List.count_append, List.count_singleton_self] at hcount
      rw [horder, List.length_append, List.length_singleton] at hlength
      exact ⟨List.count_eq_zero.1 (by omega), by omega⟩
    · exact hbefore before now call hstart

/-- A run evicts what is there for longest if and only if all its calls are clean. -/
theorem evictsOldest_iff (hpos : 0 < L.capacity) (calls : List (ℕ × Call)) :
    EvictsOldest L calls ↔ AllClean L calls := by
  constructor
  · exact allClean_of_evictsOldest hpos
  · intro hclean before hstart
    have hbefore : AllClean L before := fun before' now call hstart' =>
      hclean before' now call (hstart'.trans hstart)
    obtain ⟨hordered, hheld⟩ := run_ordered hpos hbefore
    rw [← hheld]
    exact ⟨isShelf_of_ordered hordered, fun hash e => lastPut_eq⟩

/-! ### A hash that comes again after it expired -/

/-- Two entries, each for ten nanoseconds. -/
def twoEntries : Limits := ⟨10, 80, 2⟩

/-- `a` expires and comes again behind `b`; then there is no room for `c`. -/
def comesAgain : List (ℕ × Call) :=
  [(0, .put "a" "stale"), (20, .get "a"), (21, .put "b" "other"), (22, .put "a" "fresh"), (23, .put "c" "new")]

/-- The entry that `a` has got last is evicted although `b` is there for longer. -/
theorem not_evictsOldest_comesAgain : ¬EvictsOldest twoEntries comesAgain := by
  intro h
  have hanswer := (h comesAgain List.prefix_rfl).1.answer_eq 24 (.get "a")
  have hstore : (step twoEntries (run twoEntries comesAgain) 24 (.get "a")).1 = .payload none := by decide
  have hshelf : (shelfStep twoEntries (shelfRun twoEntries comesAgain) 24 (.get "a")).1 =
      .payload (some "fresh") := by decide
  rw [hstore, hshelf] at hanswer
  exact absurd hanswer (by decide)

theorem evictsOldest_iff_comesAgain : EvictsOldest twoEntries comesAgain ↔ AllClean twoEntries comesAgain :=
  evictsOldest_iff (by decide) comesAgain

end InMemoryCcrStore

end Headroom.Ccr
