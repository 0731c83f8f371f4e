import Mathlib.Data.List.Perm.Subperm
import Mathlib.Data.List.ReduceOption

/-!
# Claiming items by key

Items with an optional key are claimed by a list of wanted keys: each wanted key takes the first
unclaimed item of that key, and what nobody claims keeps its order.
-/

namespace Foundation.Claim

variable {α κ : Type*} [DecidableEq κ] (key : α → Option κ)

/-- Whether an item has a key. -/
def has (k : κ) (a : α) : Bool := key a = some k

/-- The first unclaimed item of each wanted key. -/
def hits : List κ → List α → List (Option α)
  | [], _ => []
  | k :: ks, items => items.find? (has key k) :: hits ks (items.eraseP (has key k))

/-- The items that no wanted key takes. -/
def left : List κ → List α → List α
  | [], items => items
  | k :: ks, items => left ks (items.eraseP (has key k))

/-- The items with a key. -/
def keyed (items : List α) : List α := items.filter fun a => (key a).isSome

/-- The items without a key. -/
def unkeyed (items : List α) : List α := items.filter fun a => (key a).isNone

variable {key} {k k' : κ} {ks : List κ} {items : List α} {a : α}

@[simp] theorem has_iff : has key k a = true ↔ key a = some k := by
  simp [has]

/-! ### One claim -/

variable {p : α → Bool}

theorem perm_cons_eraseP (h : items.find? p = some a) :
    (a :: items.eraseP p).Perm items := by
  induction items with
  | nil => cases h
  | cons b items ih =>
    by_cases hb : p b = true
    · rw [List.find?_cons_of_pos hb, Option.some.injEq] at h
      rw [h, List.eraseP_cons_of_pos (h ▸ hb)]
    · rw [List.find?_cons_of_neg hb] at h
      rw [List.eraseP_cons_of_neg hb]
      exact (List.Perm.swap b a _).trans ((ih h).cons b)

theorem eraseP_of_find?_eq_none (h : items.find? p = none) :
    items.eraseP p = items :=
  List.eraseP_of_forall_not fun a ha => List.find?_eq_none.mp h a ha

/-- Of the items of its own key a claim takes the first one. -/
theorem filter_eraseP_self :
    (items.eraseP (has key k)).filter (has key k) = (items.filter (has key k)).tail := by
  induction items with
  | nil => rfl
  | cons b items ih =>
    by_cases hb : has key k b = true
    · rw [List.eraseP_cons_of_pos hb, List.filter_cons_of_pos hb, List.tail_cons]
    · rw [List.eraseP_cons_of_neg hb, List.filter_cons_of_neg hb, List.filter_cons_of_neg hb, ih]

/-- A claim leaves the items of other keys alone. -/
theorem filter_eraseP_of_ne (h : ∀ a, has key k a = true → p a = false) :
    (items.eraseP (has key k)).filter p = items.filter p := by
  induction items with
  | nil => rfl
  | cons b items ih =>
    by_cases hb : has key k b = true
    · have hpb : ¬ p b = true := by rw [h b hb]; exact Bool.false_ne_true
      rw [List.eraseP_cons_of_pos hb, List.filter_cons_of_neg hpb]
    · rw [List.eraseP_cons_of_neg hb, List.filter_cons, List.filter_cons, ih]

theorem not_has_of_ne (h : k ≠ k') (a : α) (ha : has key k a = true) : has key k' a = false := by
  rw [has_iff] at ha
  simp [has, ha, h]

/-! ### All claims -/

@[simp] theorem length_hits : (hits key ks items).length = ks.length := by
  induction ks generalizing items with
  | nil => rfl
  | cons k ks ih => rw [hits, List.length_cons, List.length_cons, ih]

variable (key ks items) in
/-- Nothing is lost or made up. -/
theorem perm_claimed : ((hits key ks items).reduceOption ++ left key ks items).Perm items := by
  induction ks generalizing items with
  | nil => exact List.Perm.refl items
  | cons k ks ih =>
    rw [hits, left]
    cases hfind : items.find? (has key k) with
    | none =>
      rw [List.reduceOption_cons_of_none, eraseP_of_find?_eq_none hfind]
      exact ih items
    | some a =>
      rw [List.reduceOption_cons_of_some, List.cons_append]
      exact ((ih _).cons a).trans (perm_cons_eraseP hfind)

/-- Of the items of one key as many are claimed as the key is wanted, the first ones. -/
theorem filter_hits : (hits key ks items).reduceOption.filter (has key k) =
    (items.filter (has key k)).take (ks.count k) := by
  induction ks generalizing items with
  | nil => rw [List.count_nil, List.take_zero]; rfl
  | cons k' ks ih =>
    rw [hits]
    by_cases hk : k' = k
    · subst hk
      rw [List.count_cons_self]
      cases hfind : items.find? (has key k') with
      | none =>
        have hnil : items.filter (has key k') = [] :=
          List.filter_eq_nil_iff.mpr fun a ha => List.find?_eq_none.mp hfind a ha
        rw [List.reduceOption_cons_of_none, ih, filter_eraseP_self, hnil]
        simp
      | some a =>
        have ha := List.find?_some hfind
        rw [← List.head?_filter] at hfind
        obtain ⟨rest, hrest⟩ := List.head?_eq_some_iff.mp hfind
        rw [List.reduceOption_cons_of_some, List.filter_cons_of_pos ha, ih, filter_eraseP_self,
          hrest, List.tail_cons, List.take_succ_cons]
    · rw [List.count_cons_of_ne hk]
      have hother : (items.eraseP (has key k')).filter (has key k) = items.filter (has key k) :=
        filter_eraseP_of_ne (not_has_of_ne hk)
      cases hfind : items.find? (has key k') with
      | none => rw [List.reduceOption_cons_of_none, ih, hother]
      | some a =>
        have ha := not_has_of_ne hk a (List.find?_some hfind)
        rw [List.reduceOption_cons_of_some, List.filter_cons_of_neg (by simp [ha]), ih, hother]

theorem filter_left : (left key ks items).filter (has key k) =
    (items.filter (has key k)).drop (ks.count k) := by
  induction ks generalizing items with
  | nil => rfl
  | cons k' ks ih =>
    rw [left, ih]
    by_cases hk : k' = k
    · subst hk
      rw [List.count_cons_self, filter_eraseP_self, ← List.drop_one, List.drop_drop, Nat.add_comm]
    · rw [List.count_cons_of_ne hk, filter_eraseP_of_ne (not_has_of_ne hk)]

theorem unkeyed_left : unkeyed key (left key ks items) = unkeyed key items := by
  induction ks generalizing items with
  | nil => rfl
  | cons k ks ih =>
    rw [left, ih, unkeyed, unkeyed]
    refine filter_eraseP_of_ne fun a ha => ?_
    rw [has_iff] at ha
    simp [ha]

theorem map_key_hits (h : ∀ k, ks.count k ≤ (items.filter (has key k)).length) :
    (hits key ks items).reduceOption.map key = ks.map some := by
  induction ks generalizing items with
  | nil => rfl
  | cons k ks ih =>
    rw [hits]
    cases hfind : items.find? (has key k) with
    | none =>
      have hk := h k
      have hnil : items.filter (has key k) = [] :=
        List.filter_eq_nil_iff.mpr fun a ha => List.find?_eq_none.mp hfind a ha
      rw [List.count_cons_self, hnil, List.length_nil] at hk
      exact absurd hk (Nat.not_succ_le_zero _)
    | some a =>
      have ha : key a = some k := by simpa using List.find?_some hfind
      rw [List.reduceOption_cons_of_some, List.map_cons, List.map_cons, ha]
      refine congrArg _ (ih fun k' => ?_)
      by_cases hk : k = k'
      · subst hk
        have := h k
        rw [List.count_cons_self] at this
        rw [filter_eraseP_self, List.length_tail]
        omega
      · have := h k'
        rw [List.count_cons_of_ne hk] at this
        rwa [filter_eraseP_of_ne (not_has_of_ne hk)]

/-! ### Replaying a sequence -/

theorem eq_of_map_key {l l' : List α} (hl : l.map key = ks.map some)
    (hl' : l'.map key = ks.map some)
    (h : ∀ k, l.filter (has key k) = l'.filter (has key k)) : l = l' := by
  induction ks generalizing l l' with
  | nil =>
    rw [List.map_nil, List.map_eq_nil_iff] at hl hl'
    rw [hl, hl']
  | cons k ks ih =>
    obtain ⟨a, t, rfl, ha, ht⟩ := List.map_eq_cons_iff.mp hl
    obtain ⟨a', t', rfl, ha', ht'⟩ := List.map_eq_cons_iff.mp hl'
    have hk := h k
    rw [List.filter_cons_of_pos (by simpa using ha), List.filter_cons_of_pos (by simpa using ha')]
      at hk
    obtain ⟨rfl, htail⟩ := List.cons.inj hk
    refine congrArg _ (ih ht ht' fun k' => ?_)
    by_cases hk' : has key k' a = true
    · have := h k'
      rw [List.filter_cons_of_pos hk', List.filter_cons_of_pos hk'] at this
      exact (List.cons.inj this).2
    · have := h k'
      rwa [List.filter_cons_of_neg hk', List.filter_cons_of_neg hk'] at this

omit [DecidableEq κ] in
theorem map_key_keyed (l : List α) : (keyed key l).map key = (l.filterMap key).map some := by
  induction l with
  | nil => rfl
  | cons a l ih =>
    cases ha : key a with
    | none =>
      rw [keyed, List.filter_cons_of_neg (by simp [ha]), List.filterMap_cons_none ha]
      exact ih
    | some k =>
      rw [keyed, List.filter_cons_of_pos (by simp [ha]), List.filterMap_cons_some ha,
        List.map_cons, List.map_cons, ha]
      exact congrArg _ ih

theorem filter_keyed (l : List α) : (keyed key l).filter (has key k) = l.filter (has key k) := by
  rw [keyed, List.filter_filter]
  refine List.filter_congr fun a _ => ?_
  by_cases ha : key a = some k
  · simp [has, ha]
  · simp [has, ha]

theorem count_filterMap (l : List α) :
    (l.filterMap key).count k = (l.filter (has key k)).length := by
  induction l with
  | nil => rfl
  | cons a l ih =>
    cases ha : key a with
    | none => rw [List.filterMap_cons_none ha, List.filter_cons_of_neg (by simp [ha]), ih]
    | some k' =>
      rw [List.filterMap_cons_some ha]
      by_cases hk : k' = k
      · rw [hk, List.count_cons_self, List.filter_cons_of_pos (by simp [ha, hk]), List.length_cons,
          ih]
      · rw [List.count_cons_of_ne hk, List.filter_cons_of_neg (by simp [ha, hk]), ih]

variable {before : List α}

omit [DecidableEq κ] in
theorem prefix_append_iff {claimed rest : List α} (hsome : ∀ a ∈ claimed, (key a).isSome = true)
    (hlen : claimed.length = (keyed key before).length) :
    before <+: claimed ++ rest ↔ before = keyed key before ++ unkeyed key before ∧
      claimed = keyed key before ∧ unkeyed key before <+: rest := by
  constructor
  · intro hpre
    have hle : claimed.length ≤ before.length := by
      rw [hlen]
      exact List.length_filter_le _ _
    obtain ⟨tail, rfl⟩ := List.prefix_of_prefix_length_le (List.prefix_append _ _) hpre hle
    have hclaimed : keyed key claimed = claimed := List.filter_eq_self.mpr hsome
    have hkeyed : keyed key (claimed ++ tail) = claimed ++ keyed key tail := by
      rw [keyed, List.filter_append]
      exact congrArg (· ++ _) hclaimed
    -- The claimed items are as many as the keyed ones, so the others have no key.
    have hnone : keyed key tail = [] := by
      rw [hkeyed, List.length_append] at hlen
      exact List.length_eq_zero_iff.mp (by omega)
    have hunkeyed : unkeyed key (claimed ++ tail) = tail := by
      rw [unkeyed, List.filter_append, List.filter_eq_nil_iff.mpr, List.nil_append]
      · refine List.filter_eq_self.mpr fun a ha => ?_
        simpa using List.filter_eq_nil_iff.mp hnone a ha
      · intro a ha
        have := hsome a ha
        rw [Option.isSome_iff_ne_none] at this
        simpa using this
    rw [hkeyed, hunkeyed, hnone, List.append_nil]
    exact ⟨rfl, rfl, (List.prefix_append_right_inj _).mp hpre⟩
  · rintro ⟨hsplit, hclaimed, hrest⟩
    have hpre := (List.prefix_append_right_inj (keyed key before)).mpr hrest
    rwa [← hsplit, ← hclaimed] at hpre

/-- A sequence whose keys claim from items that contain it leads what they claim, with the rest
behind, when its items without a key are its last ones, the items of each key start with its own in
their order, and the rest starts with its items without a key. -/
theorem prefix_claimed_iff (hsub : before.Subperm items) :
    before <+: (hits key (before.filterMap key) items).reduceOption ++
        left key (before.filterMap key) items ↔
      before = keyed key before ++ unkeyed key before ∧
      (∀ k, before.filter (has key k) <+: items.filter (has key k)) ∧
      unkeyed key before <+: left key (before.filterMap key) items := by
  have hkeys : (hits key (before.filterMap key) items).reduceOption.map key =
      (before.filterMap key).map some := by
    refine map_key_hits fun k => ?_
    rw [count_filterMap]
    exact (hsub.filter _).length_le
  have hclaimed : (hits key (before.filterMap key) items).reduceOption = keyed key before ↔
      ∀ k, before.filter (has key k) <+: items.filter (has key k) := by
    constructor
    · intro heq k
      rw [← filter_keyed, ← heq, filter_hits]
      exact List.take_prefix _ _
    · intro h
      refine eq_of_map_key hkeys (map_key_keyed before) fun k => ?_
      rw [filter_hits, filter_keyed, count_filterMap]
      exact (List.prefix_iff_eq_take.mp (h k)).symm
  rw [← hclaimed]
  refine prefix_append_iff (fun a ha => ?_) ?_
  · have := List.mem_map_of_mem (f := key) ha
    rw [hkeys] at this
    obtain ⟨k, -, hk⟩ := List.mem_map.mp this
    rw [← hk, Option.isSome_some]
  · rw [← List.length_map (f := key), hkeys, ← map_key_keyed, List.length_map]

/-! ### Distinct keys -/

theorem hits_eq_map (h : ks.Nodup) :
    hits key ks items = ks.map fun k => items.find? (has key k) := by
  induction ks generalizing items with
  | nil => rfl
  | cons k ks ih =>
    obtain ⟨hk, hks⟩ := List.nodup_cons.mp h
    rw [hits, ih hks, List.map_cons]
    refine congrArg _ (List.map_congr_left fun k' hk' => ?_)
    have hne : k ≠ k' := by
      rintro rfl
      exact hk hk'
    rw [← List.head?_filter, filter_eraseP_of_ne (not_has_of_ne hne), List.head?_filter]

theorem left_append {ks' : List κ} :
    left key (ks ++ ks') items = left key ks' (left key ks items) := by
  induction ks generalizing items with
  | nil => rfl
  | cons k ks ih => exact ih

theorem left_of_map_key {front back : List α} (h : front.map key = ks.map some) :
    left key ks (front ++ back) = back := by
  induction ks generalizing front with
  | nil =>
    rw [List.map_nil, List.map_eq_nil_iff] at h
    rw [h]
    rfl
  | cons k ks ih =>
    obtain ⟨a, front, rfl, ha, hrest⟩ := List.map_eq_cons_iff.mp h
    rw [left, List.cons_append, List.eraseP_cons_of_pos (by simpa using ha), ih hrest]

variable (key) in
/-- The first items of the keys that are not known. -/
def fresh (known : List κ) : List α → List α
  | [] => []
  | a :: items =>
    match key a with
    | some k => if k ∈ known then fresh known items else a :: fresh (known ++ [k]) items
    | none => fresh known items

section

variable {known : List κ}

theorem fresh_eraseP (h : k ∈ known) :
    fresh key known (items.eraseP (has key k)) = fresh key known items := by
  induction items generalizing known with
  | nil => rfl
  | cons a items ih =>
    by_cases ha : has key k a = true
    · rw [List.eraseP_cons_of_pos ha, fresh, has_iff.mp ha]
      simp only [h, if_true]
    · rw [List.eraseP_cons_of_neg ha, fresh, fresh]
      cases key a with
      | none => exact ih h
      | some k' =>
        dsimp only
        rw [ih h, ih (List.mem_append_left _ h)]

theorem fresh_left (h : ∀ k ∈ ks, k ∈ known) :
    fresh key known (left key ks items) = fresh key known items := by
  induction ks generalizing items with
  | nil => rfl
  | cons k ks ih =>
    rw [left, ih (fun k' hk' => h k' (List.mem_cons_of_mem _ hk')),
      fresh_eraseP (h k List.mem_cons_self)]

variable (key items known) in
/-- The fresh items have unknown keys, each once. -/
theorem fresh_keys : (fresh key known items).map key =
      ((fresh key known items).filterMap key).map some ∧
    ((fresh key known items).filterMap key).Nodup ∧
    ∀ k ∈ (fresh key known items).filterMap key, k ∉ known := by
  induction items generalizing known with
  | nil => exact ⟨rfl, List.nodup_nil, fun k h => absurd h List.not_mem_nil⟩
  | cons a items ih =>
    rw [fresh]
    cases hkey : key a with
    | none => exact ih known
    | some k =>
      dsimp only
      split_ifs with hknown
      · exact ih known
      · obtain ⟨hmap, hnodup, hnew⟩ := ih (known ++ [k])
        rw [List.filterMap_cons_some hkey, List.map_cons, List.map_cons, hkey, hmap]
        refine ⟨rfl, List.nodup_cons.mpr ⟨fun hmem => hnew k hmem (by simp), hnodup⟩, ?_⟩
        intro k' hk'
        rcases List.mem_cons.mp hk' with rfl | hk'
        · exact hknown
        · exact fun h => hnew k' hk' (List.mem_append_left _ h)

theorem fresh_sublist : (fresh key known items).Sublist items := by
  induction items generalizing known with
  | nil => exact List.Sublist.refl _
  | cons a items ih =>
    rw [fresh]
    cases key a with
    | none => exact ih.cons a
    | some k =>
      dsimp only
      split_ifs
      · exact ih.cons a
      · exact ih.cons_cons a

theorem known_or_fresh (ha : a ∈ items) (hkey : key a = some k) :
    k ∈ known ∨ k ∈ (fresh key known items).filterMap key := by
  induction items generalizing known with
  | nil => exact absurd ha List.not_mem_nil
  | cons b items ih =>
    rw [fresh]
    rcases List.mem_cons.mp ha with rfl | ha
    · rw [hkey]
      dsimp only
      split_ifs with hknown
      · exact Or.inl hknown
      · right
        rw [List.filterMap_cons_some hkey]
        exact List.mem_cons_self
    · cases hkey' : key b with
      | none => exact ih ha
      | some k' =>
        dsimp only
        split_ifs
        · exact ih ha
        · rw [List.filterMap_cons_some hkey']
          have htail : k ∈ known ++ [k'] ∨
              k ∈ (fresh key (known ++ [k']) items).filterMap key := ih ha
          rcases htail with h | h
          · rcases List.mem_append.mp h with h | h
            · exact Or.inl h
            · exact Or.inr (List.mem_singleton.mp h ▸ List.mem_cons_self)
          · exact Or.inr (List.mem_cons_of_mem _ h)

end

/-! ### Slots -/

/-- The first slot that holds an item with a property holds the first such item, and emptying it
erases that item. -/
theorem find?_of_findIdx? {slots : List (Option α)} {i : ℕ}
    (h : slots.findIdx? (fun s => s.any p) = some i) : ∃ a, slots[i]? = some (some a) ∧
      slots.reduceOption.find? p = some a ∧
      (slots.set i none).reduceOption = slots.reduceOption.eraseP p := by
  induction slots generalizing i with
  | nil => cases h
  | cons s slots ih =>
    rw [List.findIdx?_cons] at h
    by_cases hs : s.any p = true
    · rw [if_pos hs, Option.some.injEq] at h
      subst h
      obtain ⟨a, rfl, ha⟩ := Option.any_eq_true _ _ |>.mp hs
      refine ⟨a, rfl, ?_, ?_⟩
      · rw [List.reduceOption_cons_of_some, List.find?_cons_of_pos ha]
      · rw [List.set_cons_zero, List.reduceOption_cons_of_none, List.reduceOption_cons_of_some,
          List.eraseP_cons_of_pos ha]
    · rw [if_neg hs, Option.map_eq_some_iff] at h
      obtain ⟨j, hj, rfl⟩ := h
      obtain ⟨a, hget, hfind, hset⟩ := ih hj
      refine ⟨a, by simpa using hget, ?_, ?_⟩
      · cases s with
        | none => rw [List.reduceOption_cons_of_none, hfind]
        | some b =>
          have hb : ¬ p b = true := by simpa using hs
          rw [List.reduceOption_cons_of_some, List.find?_cons_of_neg hb, hfind]
      · rw [List.set_cons_succ]
        cases s with
        | none => rw [List.reduceOption_cons_of_none, List.reduceOption_cons_of_none, hset]
        | some b =>
          have hb : ¬ p b = true := by simpa using hs
          rw [List.reduceOption_cons_of_some, List.reduceOption_cons_of_some, hset,
            List.eraseP_cons_of_neg hb]

theorem find?_of_findIdx?_eq_none {slots : List (Option α)}
    (h : slots.findIdx? (fun s => s.any p) = none) : slots.reduceOption.find? p = none := by
  refine List.find?_eq_none.mpr fun a ha => ?_
  have := List.findIdx?_eq_none_iff.mp h (some a) (List.reduceOption_mem_iff.mp ha)
  simpa using this

end Foundation.Claim
