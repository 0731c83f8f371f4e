import Headroom.Foundation.Text

/-!
# Texts between separators

The pieces of a text between the places of a separator, and what is left of them when they are joined and split again.
-/

namespace Foundation

section Pieces

variable {α : Type*} [BEq α] [LawfulBEq α] {sep : α}

/-- No piece has the separator, and a piece has nothing else than the text. -/
theorem of_mem_splitOn {text piece : List α} (h : piece ∈ text.splitOn sep) : sep ∉ piece ∧ piece ⊆ text := by
  induction text generalizing piece with
  | nil =>
    rw [List.splitOn_nil, List.mem_singleton] at h
    rw [h]
    exact ⟨List.not_mem_nil, List.nil_subset _⟩
  | cons c text ih =>
    rw [List.splitOn_cons_eq_if_modifyHead] at h
    split_ifs at h with hc
    · rcases List.mem_cons.mp h with rfl | h
      · exact ⟨List.not_mem_nil, List.nil_subset _⟩
      · exact ⟨(ih h).1, List.subset_cons_of_subset c (ih h).2⟩
    · obtain ⟨first, rest, hpieces⟩ := List.exists_cons_of_ne_nil (List.splitOn_ne_nil sep text)
      rw [hpieces, List.modifyHead_cons, List.mem_cons] at h
      rcases h with rfl | h
      · obtain ⟨hnot, hsubset⟩ := ih (hpieces ▸ List.mem_cons_self)
        refine ⟨?_, List.cons_subset_cons c hsubset⟩
        rw [List.mem_cons, not_or]
        refine ⟨?_, hnot⟩
        rintro rfl
        exact hc BEq.rfl
      · obtain ⟨hnot, hsubset⟩ := ih (hpieces ▸ List.mem_cons_of_mem _ h)
        exact ⟨hnot, List.subset_cons_of_subset c hsubset⟩

theorem splitOn_intercalate_flatMap {texts : List (List α)} (h : texts ≠ []) :
    ([sep].intercalate texts).splitOn sep = texts.flatMap fun text => text.splitOn sep := by
  induction texts with
  | nil => exact absurd rfl h
  | cons text rest ih =>
    rcases rest with _ | ⟨next, rest⟩
    · rw [List.intercalate_singleton, List.flatMap_cons, List.flatMap_nil, List.append_nil]
    · rw [List.intercalate_cons_cons, List.append_assoc, List.singleton_append, List.splitOn_append_cons_self,
        ih (List.cons_ne_nil _ _), List.flatMap_cons, List.flatMap_cons, List.flatMap_cons]

end Pieces

namespace Text

theorem trimStart_trimStart (text : List Char) : trimStart (trimStart text) = trimStart text :=
  List.dropWhile_idempotent isWhitespace text

theorem trimStart_of_prefix {text front : List Char} (h : trimStart text = text) (hfront : front <+: text) :
    trimStart front = front := by
  rcases front with _ | ⟨c, front⟩
  · rfl
  obtain ⟨rest, rfl⟩ := hfront
  have hc : isWhitespace c = false := by
    by_contra hc
    rw [Bool.not_eq_false] at hc
    rw [List.cons_append, trimStart, List.dropWhile_cons_of_pos hc] at h
    have hlength := (List.dropWhile_suffix isWhitespace (l := front ++ rest)).length_le
    rw [h, List.length_cons] at hlength
    omega
  rw [trimStart, List.dropWhile_cons_of_neg (by rw [hc]; exact Bool.false_ne_true)]

theorem trim_trim (text : List Char) : trim (trim text) = trim text := by
  have hfront := trimEnd_prefix (trimStart text)
  have hstart : trimStart (trim text) = trim text := trimStart_of_prefix (trimStart_trimStart text) hfront
  calc trim (trim text) = trimEnd (trim text) := congrArg trimEnd hstart
    _ = trim text := trimEnd_trimEnd _

theorem trim_subset (text : List Char) : trim text ⊆ text := by
  intro c hc
  have hfront := trimEnd_prefix (trimStart text)
  exact (List.dropWhile_suffix _).subset (hfront.subset hc)

end Text

end Foundation
