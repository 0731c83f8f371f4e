import Headroom.Foundation.Utf8Split

/-!
# How lines begin

What is known of the first symbol of every line of a text is known of its parts, and of its bytes.
-/

namespace Foundation

/-- A text begins with a symbol of some kind, and so does what stands behind a line end, unless it is empty. -/
structure LinesBegin {α : Type*} (nl : α) (p : α → Prop) (text : List α) : Prop where
  head : ∀ a ∈ text.head?, p a
  line : ∀ front a back, text = front ++ nl :: a :: back → p a

namespace LinesBegin

variable {α : Type*} {nl : α} {p : α → Prop} {a b : List α}

theorem nil : LinesBegin nl p [] := by
  refine ⟨nofun, ?_⟩
  intro front a back h
  simp at h

theorem left (h : LinesBegin nl p (a ++ b)) : LinesBegin nl p a := by
  constructor
  · intro c hc
    refine h.head c ?_
    rw [List.head?_append, hc]
    rfl
  · rintro front c back rfl
    refine h.line front c (back ++ b) ?_
    simp only [List.append_assoc, List.cons_append]

theorem behind (h : LinesBegin nl p (a ++ nl :: b)) : LinesBegin nl p b := by
  constructor
  · intro c hc
    obtain ⟨back, rfl⟩ : ∃ back, b = c :: back := ⟨b.tail, List.eq_cons_of_mem_head? hc⟩
    exact h.line a c back rfl
  · rintro front c back rfl
    refine h.line (a ++ nl :: front) c back ?_
    simp only [List.append_assoc, List.cons_append]

theorem append (ha : LinesBegin nl p a) (hb : LinesBegin nl p b) : LinesBegin nl p (a ++ b) := by
  constructor
  · intro c hc
    cases a with
    | nil => exact hb.head c hc
    | cons x a => exact ha.head c hc
  · intro front c back h
    rcases List.append_eq_append_iff.mp h with ⟨z, rfl, hz⟩ | ⟨z, rfl, hz⟩
    · exact hb.line z c back hz
    · obtain ⟨rfl, hback⟩ | ⟨z', rfl, hz'⟩ := List.cons_eq_append_iff.mp hz
      · exact hb.line [] c back hback
      · obtain ⟨rfl, hb'⟩ | ⟨z'', rfl, -⟩ := List.cons_eq_append_iff.mp hz'
        · exact hb.head c (by rw [hb']; rfl)
        · exact ha.line front c z'' rfl

theorem singleton {c : α} (hc : p c) : LinesBegin nl p [c] := by
  refine ⟨fun a ha => Option.some.inj ha ▸ hc, ?_⟩
  intro front a back h
  have hlength := congrArg List.length h
  rw [List.length_singleton, List.length_append, List.length_cons, List.length_cons] at hlength
  omega

theorem cons {c : α} (hc : p c) (h : LinesBegin nl p a) : LinesBegin nl p (c :: a) := (singleton hc).append h

theorem of_forall (h : ∀ c ∈ a, p c) : LinesBegin nl p a := by
  induction a with
  | nil => exact nil
  | cons c a ih =>
    obtain ⟨hc, ha⟩ := List.forall_mem_cons.mp h
    exact cons hc (ih ha)

theorem of_notMem (hhead : ∀ c ∈ a.head?, p c) (hnl : nl ∉ a) : LinesBegin nl p a := by
  refine ⟨hhead, ?_⟩
  rintro front c back rfl
  exact absurd (List.mem_append_right _ List.mem_cons_self) hnl

theorem exists_line [DecidableEq α] (nl : α) (text : List α) :
    nl ∉ text ∨ ∃ front back, text = front ++ nl :: back ∧ nl ∉ front := by
  by_cases h : nl ∈ text
  · exact Or.inr (List.eq_append_cons_of_mem h)
  · exact Or.inl h

theorem of_mem_splitOn [DecidableEq α] {piece : List α} (h : LinesBegin nl p a) (hpiece : piece ∈ a.splitOn nl) :
    ∀ c ∈ piece.head?, p c := by
  induction hn : a.length using Nat.strong_induction_on generalizing a with
  | h n ih =>
    obtain hnl | ⟨front, back, rfl, hfront⟩ := exists_line nl a
    · rw [List.splitOn_eq_singleton hnl, List.mem_singleton] at hpiece
      rw [hpiece]
      exact h.head
    · rw [List.splitOn_append_cons_self, List.splitOn_eq_singleton hfront, List.singleton_append,
        List.mem_cons] at hpiece
      obtain rfl | hpiece := hpiece
      · exact h.left.head
      · rw [List.length_append, List.length_cons] at hn
        exact ih back.length (by omega) h.behind hpiece rfl

/-- The lines of a text as bytes. -/
theorem encode {p : Char → Prop} {q : UInt8 → Prop} {chars : List Char} (h : LinesBegin '\n' p chars)
    (hq : ∀ c, p c → ∀ b ∈ (String.utf8EncodeChar c).head?, q b) : LinesBegin lf q (Text.encode chars) := by
  have hfirst (c : Char) (chars : List Char) :
      (Text.encode (c :: chars)).head? = (String.utf8EncodeChar c).head? := by
    obtain ⟨b, bs, hbs⟩ := List.exists_cons_of_ne_nil String.utf8EncodeChar_ne_nil
    rw [Text.encode, List.flatMap_cons, hbs]
    rfl
  constructor
  · intro b hb
    cases chars with
    | nil => cases hb
    | cons c chars =>
      rw [hfirst] at hb
      exact hq c (h.head c rfl) b hb
  · intro x b y heq
    obtain ⟨front, c, back, rfl, -, hback, hc⟩ := encode_split (by decide) heq
    obtain rfl : c = '\n' := eq_of_utf8EncodeChar hc
    cases back with
    | nil => cases hback
    | cons c back =>
      refine hq c (h.line front c back rfl) b ?_
      rw [← hfirst c back, hback]
      rfl

end LinesBegin

end Foundation
