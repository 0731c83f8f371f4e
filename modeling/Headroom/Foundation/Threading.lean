import Mathlib.Data.List.Forall2

/-!
# Lists under a state

A step takes an element and a state to a result and a new state. `thread` takes the elements of a list
one after the other, each from the state that the one before it left.
-/

namespace Foundation

variable {α β σ : Type*}

/-- The elements of a list one after the other. -/
def thread (f : α → σ → β × σ) : List α → σ → List β × σ
  | [], s => ([], s)
  | a :: as, s => ((f a s).1 :: (thread f as (f a s).2).1, (thread f as (f a s).2).2)

/-- The elements of a list, each with the state that it is taken from. -/
def visits (f : α → σ → β × σ) : List α → σ → List (α × σ)
  | [], _ => []
  | a :: as, s => (a, s) :: visits f as (f a s).2

variable {f : α → σ → β × σ} {as : List α}

@[simp] theorem thread_nil (f : α → σ → β × σ) (s : σ) : thread f [] s = ([], s) := rfl

@[simp] theorem thread_cons (f : α → σ → β × σ) (a : α) (as : List α) (s : σ) :
    thread f (a :: as) s =
      ((f a s).1 :: (thread f as (f a s).2).1, (thread f as (f a s).2).2) := rfl

variable {R : α → β → Prop}

theorem forall₂_thread_of_inv {I : σ → Prop}
    (hstep : ∀ a ∈ as, ∀ s, I s → R a (f a s).1 ∧ I (f a s).2) {s : σ} (hs : I s) :
    List.Forall₂ R as (thread f as s).1 := by
  induction as generalizing s with
  | nil => exact List.Forall₂.nil
  | cons a as ih =>
    rw [thread_cons]
    obtain ⟨hfirst, hinv⟩ := hstep a List.mem_cons_self s hs
    exact List.Forall₂.cons hfirst (ih (fun b hb => hstep b (List.mem_cons_of_mem _ hb)) hinv)

/-- What every step relates, the whole list relates. -/
theorem forall₂_thread (hstep : ∀ a ∈ as, ∀ s, R a (f a s).1) (s : σ) :
    List.Forall₂ R as (thread f as s).1 := by
  have hinv : ∀ a ∈ as, ∀ s, True → R a (f a s).1 ∧ True := fun a ha s _ => ⟨hstep a ha s, trivial⟩
  exact forall₂_thread_of_inv hinv trivial

/-- What every step relates in view of the state behind it, the whole list relates in view of the last state, when
what is in view stays. -/
theorem forall₂_thread_subset {γ : Type*} {view : σ → List γ} {R : List γ → α → β → Prop}
    (hmono : ∀ l l' a b, l ⊆ l' → R l a b → R l' a b)
    (hstep : ∀ a ∈ as, ∀ s, view s ⊆ view (f a s).2 ∧ R (view (f a s).2) a (f a s).1) (s : σ) :
    view s ⊆ view (thread f as s).2 ∧ List.Forall₂ (R (view (thread f as s).2)) as (thread f as s).1 := by
  induction as generalizing s with
  | nil => exact ⟨List.Subset.refl _, .nil⟩
  | cons a as ih =>
    obtain ⟨hfirst, hrelated⟩ := hstep a List.mem_cons_self s
    obtain ⟨hrest, hothers⟩ := ih (fun b hb => hstep b (List.mem_cons_of_mem _ hb)) (f a s).2
    exact ⟨List.Subset.trans hfirst hrest, .cons (hmono _ _ _ _ hrest hrelated) hothers⟩

theorem length_thread (f : α → σ → β × σ) (as : List α) (s : σ) : (thread f as s).1.length = as.length :=
  (forall₂_thread (R := fun _ _ => True) (fun _ _ _ => trivial) s).length_eq.symm

variable {bs : List β}

/-- Each element of a list is related to one of another list that goes along with it. -/
theorem exists_mem_of_forall₂ {a : α}
    (h : List.Forall₂ R as bs) (ha : a ∈ as) : ∃ b ∈ bs, R a b := by
  induction h with
  | nil => exact absurd ha List.not_mem_nil
  | cons hab _ ih =>
    rcases List.mem_cons.1 ha with rfl | ha
    · exact ⟨_, List.mem_cons_self, hab⟩
    · obtain ⟨b, hb, hR⟩ := ih ha
      exact ⟨b, List.mem_cons_of_mem _ hb, hR⟩

/-- The result at a place comes from the state that the elements before it left. -/
theorem getElem?_thread (f : α → σ → β × σ) (as : List α) (s : σ) (i : ℕ) :
    (thread f as s).1[i]? = as[i]?.map fun a => (f a (thread f (as.take i) s).2).1 := by
  induction as generalizing s i with
  | nil => rfl
  | cons a as ih =>
    rw [thread_cons]
    cases i with
    | zero => rfl
    | succ i => exact ih (f a s).2 i

theorem take_thread (f : α → σ → β × σ) (as : List α) (s : σ) (i : ℕ) :
    (thread f as s).1.take i = (thread f (as.take i) s).1 := by
  induction as generalizing s i with
  | nil => rw [List.take_nil, thread_nil, List.take_nil]
  | cons a as ih =>
    cases i with
    | zero => rfl
    | succ i => rw [thread_cons, List.take_succ_cons, List.take_succ_cons, thread_cons, ih]

/-- What a list makes known, one of its elements does. -/
theorem known_thread {κ : Type*} {I : σ → Prop} {K : σ → κ → Prop} {G : α → κ → Prop}
    (hstep : ∀ a ∈ as, ∀ s, I s → I (f a s).2 ∧ ∀ k, K (f a s).2 k ↔ K s k ∨ G a k)
    {s : σ} (hs : I s) :
    I (thread f as s).2 ∧ ∀ k, K (thread f as s).2 k ↔ K s k ∨ ∃ a ∈ as, G a k := by
  induction as generalizing s with
  | nil =>
    refine ⟨hs, fun k => ?_⟩
    rw [thread_nil, or_iff_left]
    rintro ⟨a, ha, -⟩
    exact absurd ha List.not_mem_nil
  | cons a as ih =>
    obtain ⟨hinv, hfirst⟩ := hstep a List.mem_cons_self s hs
    obtain ⟨hfinal, hrest⟩ := ih (fun b hb => hstep b (List.mem_cons_of_mem _ hb)) hinv
    refine ⟨hfinal, fun k => ?_⟩
    rw [thread_cons, hrest k, hfirst k, List.exists_mem_cons_iff, or_assoc]

/-- Steps that neither read nor change the state. -/
theorem thread_eq_map {g : α → β} (h : ∀ a ∈ as, ∀ s, f a s = (g a, s)) (s : σ) :
    thread f as s = (as.map g, s) := by
  induction as with
  | nil => rfl
  | cons a as ih =>
    rw [thread_cons, h a List.mem_cons_self, ih fun b hb => h b (List.mem_cons_of_mem _ hb), List.map_cons]

theorem thread_congr {g : α → σ → β × σ} (h : ∀ a ∈ as, f a = g a) : thread f as = thread g as := by
  funext s
  induction as generalizing s with
  | nil => rfl
  | cons a as ih =>
    rw [thread_cons, thread_cons, h a List.mem_cons_self,
      ih fun b hb => h b (List.mem_cons_of_mem _ hb)]

/-- A list is taken without an error when each of its elements is. -/
theorem mapM_eq_ok_iff {ε : Type*} {f : α → Except ε β} :
    as.mapM f = .ok bs ↔ List.Forall₂ (fun a b => f a = .ok b) as bs := by
  induction as generalizing bs with
  | nil =>
    rw [List.mapM_nil, List.forall₂_nil_left_iff]
    exact ⟨fun h => (Except.ok.inj h).symm, fun h => h ▸ rfl⟩
  | cons a as ih =>
    rw [List.mapM_cons, List.forall₂_cons_left_iff]
    constructor
    · intro h
      cases ha : f a with
      | error e => simp [ha, bind, Except.bind] at h
      | ok b =>
        cases has : as.mapM f with
        | error e => simp [ha, has, bind, Except.bind] at h
        | ok bs' =>
          refine ⟨b, bs', rfl, ih.1 has, ?_⟩
          simpa [ha, has, bind, Except.bind, pure, Except.pure] using h.symm
    · rintro ⟨b, bs', ha, has, rfl⟩
      rw [ha, ih.2 has]
      rfl

theorem exists_forall₂ (h : ∀ a ∈ as, ∃ b, R a b) :
    ∃ bs, List.Forall₂ R as bs := by
  induction as with
  | nil => exact ⟨[], .nil⟩
  | cons a as ih =>
    obtain ⟨ha, has⟩ := List.forall_mem_cons.1 h
    obtain ⟨b, hb⟩ := ha
    obtain ⟨bs, hbs⟩ := ih has
    exact ⟨b :: bs, .cons hb hbs⟩

theorem forall₂_and_iff {R S : α → β → Prop} :
    List.Forall₂ (fun a b => R a b ∧ S a b) as bs ↔ List.Forall₂ R as bs ∧ List.Forall₂ S as bs := by
  refine ⟨fun h => ⟨h.imp fun _ _ h => h.1, h.imp fun _ _ h => h.2⟩, fun h => ?_⟩
  obtain ⟨hR, hS⟩ := h
  induction hR with
  | nil => exact .nil
  | cons hab _ ih =>
    obtain ⟨hab', hrest⟩ := List.forall₂_cons.1 hS
    exact .cons ⟨hab, hab'⟩ (ih hrest)

end Foundation
