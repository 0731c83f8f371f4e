import Mathlib.Data.List.Induction
import Mathlib.Data.Set.Function

/-!
# Values under keys

A ledger keeps a value under each key, and the keys in the order in which they first came up. Each
entry changes the value under one key only, so that what stands under a key in the end is made of the
entries for this key, however they were mixed with the others.
-/

namespace Foundation

/-! ### First occurrences -/

section FirstOccurrences

variable {α β : Type*} [BEq α] [LawfulBEq α] [BEq β] [LawfulBEq β]

theorem eraseDups_concat (as : List α) (a : α) :
    (as ++ [a]).eraseDups = as.eraseDups ++ if a ∈ as then [] else [a] := by
  rw [List.eraseDups_append]
  refine congrArg (as.eraseDups ++ ·) ?_
  by_cases h : a ∈ as
  · simp [List.removeAll, h]
  · simp [List.removeAll, h, List.eraseDups_cons]

theorem eraseDups_map {f : α → β} {as : List α} (hf : Set.InjOn f {a | a ∈ as}) :
    (as.map f).eraseDups = as.eraseDups.map f := by
  induction as using List.reverseRecOn with
  | nil => rfl
  | append_singleton as a ih =>
    have hfront : Set.InjOn f {b | b ∈ as} := hf.mono fun b hb => List.mem_append_left _ hb
    have hmem : f a ∈ as.map f ↔ a ∈ as := by
      rw [List.mem_map]
      refine ⟨fun ⟨b, hb, hba⟩ => ?_, fun h => ⟨a, h, rfl⟩⟩
      have hb' : b ∈ as ++ [a] := List.mem_append_left _ hb
      have ha' : a ∈ as ++ [a] := List.mem_append_right _ List.mem_cons_self
      exact hf hb' ha' hba ▸ hb
    rw [List.map_append, List.map_singleton, eraseDups_concat, eraseDups_concat, ih hfront,
      List.map_append]
    refine congrArg (as.eraseDups.map f ++ ·) ?_
    by_cases h : a ∈ as
    · rw [if_pos h, if_pos (hmem.mpr h), List.map_nil]
    · rw [if_neg h, if_neg (hmem.not.mpr h), List.map_singleton]

theorem eraseDups_of_forall_eq {a : α} {as : List α} (hne : as ≠ []) (h : ∀ b ∈ as, b = a) :
    as.eraseDups = [a] := by
  obtain ⟨b, bs, rfl⟩ := List.exists_cons_of_ne_nil hne
  obtain rfl := h b List.mem_cons_self
  have hrest : bs.filter (fun c => !c == b) = [] := by
    rw [List.filter_eq_nil_iff]
    intro c hc
    simp [h c (List.mem_cons_of_mem _ hc)]
  rw [List.eraseDups_cons, hrest, List.eraseDups_nil]

end FirstOccurrences

/-! ### Ledgers -/

/-- Values under keys, and the keys in the order in which they came up. -/
structure Ledger (κ σ : Type*) where
  order : List κ := []
  items : κ → Option σ := fun _ => none

namespace Ledger

variable {κ σ : Type*} [DecidableEq κ]

/-- An entry for a key: what stands under it changes. -/
def record (l : Ledger κ σ) (k : κ) (f : Option σ → Option σ) : Ledger κ σ where
  order := if k ∈ l.order then l.order else l.order ++ [k]
  items := Function.update l.items k (f (l.items k))

/-- Entries one after the other. -/
def recordAll (l : Ledger κ σ) (entries : List (κ × (Option σ → Option σ))) : Ledger κ σ :=
  entries.foldl (fun l entry => l.record entry.1 entry.2) l

variable {l : Ledger κ σ} {entries : List (κ × (Option σ → Option σ))}

theorem recordAll_concat (entry : κ × (Option σ → Option σ)) :
    l.recordAll (entries ++ [entry]) = (l.recordAll entries).record entry.1 entry.2 := by
  simp only [recordAll, List.foldl_append, List.foldl_cons, List.foldl_nil]

theorem order_recordAll (entries : List (κ × (Option σ → Option σ))) :
    (({} : Ledger κ σ).recordAll entries).order = (entries.map Prod.fst).eraseDups := by
  induction entries using List.reverseRecOn with
  | nil => rfl
  | append_singleton entries entry ih =>
    have hmem : entry.1 ∈ (entries.map Prod.fst).eraseDups ↔ entry.1 ∈ entries.map Prod.fst :=
      List.mem_eraseDups
    rw [recordAll_concat, record, List.map_append, List.map_singleton, eraseDups_concat, ih]
    by_cases h : entry.1 ∈ entries.map Prod.fst
    · simp only [hmem.mpr h, h, if_true, List.append_nil]
    · simp only [hmem.not.mpr h, h, if_false]

theorem items_recordAll (l : Ledger κ σ) (entries : List (κ × (Option σ → Option σ))) (k : κ) :
    (l.recordAll entries).items k =
      (entries.filter fun entry => entry.1 = k).foldl (fun value entry => entry.2 value)
        (l.items k) := by
  induction entries using List.reverseRecOn with
  | nil => rfl
  | append_singleton entries entry ih =>
    rw [recordAll_concat, List.filter_append, List.foldl_append, ← ih]
    show Function.update _ _ _ k = _
    by_cases h : entry.1 = k
    · subst h
      simp
    · rw [Function.update_of_ne (Ne.symm h)]
      simp [h]

end Ledger

end Foundation
