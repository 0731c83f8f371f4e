import Mathlib.Data.List.Sort

/-!
# Splicing

Ranges of a list are replaced by others. The edits are in order, none begins before the one in front of
it ends, and what lies between them is copied.
-/

namespace Foundation

variable {α : Type*}

/-- A range and what is to stand there. -/
structure Edit (α : Type*) where
  start : ℕ
  stop : ℕ
  new : List α

/-- The rest of a list, which begins at a position, with its edits carried out. -/
def splice : ℕ → List α → List (Edit α) → List α
  | _, rest, [] => rest
  | base, rest, e :: es =>
    rest.take (e.start - base) ++ e.new ++ splice e.stop (rest.drop (e.stop - base)) es

namespace Edit

/-- The order in which edits are carried out. -/
def Before (e e' : Edit α) : Prop := e.start ≤ e'.start

instance : DecidableRel (Before : Edit α → Edit α → Prop) := fun e e' =>
  inferInstanceAs (Decidable (e.start ≤ e'.start))

instance : IsTrans (Edit α) Before := ⟨fun _ _ _ => Nat.le_trans⟩

instance : Std.Total (Before : Edit α → Edit α → Prop) := ⟨fun e e' => Nat.le_total e.start e'.start⟩

/-- The edits lie one behind the other from a position to another. -/
def Fits : ℕ → ℕ → List (Edit α) → Prop
  | base, stop, [] => base ≤ stop
  | base, stop, e :: es => base ≤ e.start ∧ e.start ≤ e.stop ∧ Fits e.stop stop es

variable {es es' : List (Edit α)} {base mid stop : ℕ}

theorem Fits.le (h : Fits base stop es) : base ≤ stop := by
  induction es generalizing base with
  | nil => exact h
  | cons e es ih =>
    have := ih h.2.2
    have := h.1
    have := h.2.1
    omega

theorem Fits.append (h : Fits base mid es) (h' : Fits mid stop es') : Fits base stop (es ++ es') := by
  induction es generalizing base with
  | nil =>
    cases es' with
    | nil => exact Nat.le_trans h h'
    | cons e es' => exact ⟨Nat.le_trans h h'.1, h'.2⟩
  | cons e es ih => exact ⟨h.1, h.2.1, ih h.2.2⟩

theorem Fits.mono {base' stop' : ℕ} (h : Fits base stop es) (hbase : base' ≤ base) (hstop : stop ≤ stop') :
    Fits base' stop' es := by
  induction es generalizing base base' with
  | nil => exact Nat.le_trans hbase (Nat.le_trans h hstop)
  | cons e es ih => exact ⟨Nat.le_trans hbase h.1, h.2.1, ih h.2.2 (Nat.le_refl _)⟩

theorem Fits.le_start (h : Fits base stop es) {e : Edit α} (he : e ∈ es) : base ≤ e.start := by
  induction es generalizing base with
  | nil => exact absurd he List.not_mem_nil
  | cons e' es ih =>
    rcases List.mem_cons.1 he with rfl | he
    · exact h.1
    · have := ih h.2.2 he
      have := h.1
      have := h.2.1
      omega

theorem Fits.stop_le (h : Fits base stop es) {e : Edit α} (he : e ∈ es) : e.stop ≤ stop := by
  induction es generalizing base with
  | nil => exact absurd he List.not_mem_nil
  | cons e' es ih =>
    rcases List.mem_cons.1 he with rfl | he
    · exact h.2.2.le
    · exact ih h.2.2 he

/-- No edit begins before one in front of it ends. -/
theorem Fits.pairwise (h : Fits base stop es) : es.Pairwise fun e e' => e.stop ≤ e'.start := by
  induction es generalizing base with
  | nil => exact List.Pairwise.nil
  | cons e es ih => exact List.pairwise_cons.2 ⟨fun e' he' => h.2.2.le_start he', ih h.2.2⟩

end Edit

open Edit

variable {es es' : List (Edit α)} {base stop : ℕ} {s t : List α}

theorem splice_skip (h : Fits (base + s.length) stop es) :
    splice base (s ++ t) es = s ++ splice (base + s.length) t es := by
  cases es with
  | nil => rfl
  | cons e es =>
    have hstart := h.1
    have hstop := h.2.1
    obtain ⟨i, hi⟩ : ∃ i, e.start = base + s.length + i := ⟨e.start - (base + s.length), by omega⟩
    obtain ⟨j, hj⟩ : ∃ j, e.stop = base + s.length + j := ⟨e.stop - (base + s.length), by omega⟩
    have htake : e.start - base = s.length + i := by omega
    have hdrop : e.stop - base = s.length + j := by omega
    rw [splice, splice, htake, hdrop, List.take_length_add_append, List.drop_length_add_append,
      show e.start - (base + s.length) = i by omega, show e.stop - (base + s.length) = j by omega]
    simp only [List.append_assoc]

theorem splice_append (h : Fits base (base + s.length) es) (h' : Fits (base + s.length) stop es') :
    splice base (s ++ t) (es ++ es') = splice base s es ++ splice (base + s.length) t es' := by
  induction es generalizing base s with
  | nil => exact splice_skip h'
  | cons e es ih =>
    have hstart := h.1
    have hstop := h.2.1
    have hle := h.2.2.le
    have htake : (s ++ t).take (e.start - base) = s.take (e.start - base) :=
      List.take_append_of_le_length (by omega)
    have hdrop : (s ++ t).drop (e.stop - base) = s.drop (e.stop - base) ++ t :=
      List.drop_append_of_le_length (by omega)
    have hlen : e.stop + (s.drop (e.stop - base)).length = base + s.length := by
      rw [List.length_drop]
      omega
    have hfits : Fits e.stop (e.stop + (s.drop (e.stop - base)).length) es := by
      rw [hlen]
      exact h.2.2
    have hrest := ih hfits (by rw [hlen]; exact h')
    rw [List.cons_append, splice, splice, htake, hdrop, hrest, hlen]
    simp only [List.append_assoc]

/-- Edits within a list that begins at a position, and the list with the edits carried out. -/
structure Edited (base : ℕ) (s : List α) (es : List (Edit α)) (s' : List α) : Prop where
  fits : Fits base (base + s.length) es
  splice_eq : splice base s es = s'

theorem Edited.keep (base : ℕ) (s : List α) : Edited base s [] s := ⟨Nat.le_add_right _ _, rfl⟩

/-- A list that is replaced as a whole. -/
theorem Edited.replace (base : ℕ) (s new : List α) :
    Edited base s [⟨base, base + s.length, new⟩] new := by
  refine ⟨⟨Nat.le_refl _, Nat.le_add_right _ _, Nat.le_refl _⟩, ?_⟩
  simp [splice]

theorem Edited.append {s' t' : List α} (h : Edited base s es s')
    (h' : Edited (base + s.length) t es' t') : Edited base (s ++ t) (es ++ es') (s' ++ t') := by
  refine ⟨?_, ?_⟩
  · rw [List.length_append, ← Nat.add_assoc]
    exact h.fits.append h'.fits
  · rw [splice_append h.fits h'.fits, h.splice_eq, h'.splice_eq]

theorem insertionSort_eq (hperm : es.Perm es') (hsorted : es'.Pairwise fun e e' => e.start < e'.start) :
    es.insertionSort Before = es' := by
  have hnodup : (es'.map Edit.start).Nodup :=
    List.pairwise_map.2 (hsorted.imp fun hlt => Nat.ne_of_lt hlt)
  refine List.Perm.eq_of_pairwise (fun e e' he he' hle hge => ?_) (List.pairwise_insertionSort _ _)
    (hsorted.imp Nat.le_of_lt) ((List.perm_insertionSort _ _).trans hperm)
  exact List.inj_on_of_nodup_map hnodup (hperm.subset ((List.perm_insertionSort _ _).subset he)) he'
    (Nat.le_antisymm hle hge)

end Foundation
