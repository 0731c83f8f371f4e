import Mathlib.Data.List.Basic

/-!
# Balanced containers

Containers of two kinds nest in a text, with strings in it in which brackets count for nothing. A scanner
with a stack of open brackets finds where the container at its start ends. What a container is does not
depend on the scanner.
-/

namespace Foundation

/-- What a symbol is to the scanner; there are square brackets and braces. -/
inductive BracketKind
  | opens (square : Bool)
  | closes (square : Bool)
  | quote
  | escape
  | plain
  deriving DecidableEq

/-! ### The grammar -/

/-- What stands behind a quote, up to the next one that is not escaped. -/
inductive Quoted : List BracketKind → Prop
  | close : Quoted [.quote]
  | escaped (k : BracketKind) {ks : List BracketKind} (h : Quoted ks) : Quoted (.escape :: k :: ks)
  | other {k : BracketKind} {ks : List BracketKind} (hquote : k ≠ .quote) (hescape : k ≠ .escape) (h : Quoted ks) :
      Quoted (k :: ks)

/-- What may stand between two brackets. -/
inductive Inside : List BracketKind → Prop
  | nil : Inside []
  | plain {k : BracketKind} {ks : List BracketKind} (hk : k = .plain ∨ k = .escape) (h : Inside ks) : Inside (k :: ks)
  | string {s ks : List BracketKind} (hs : Quoted s) (h : Inside ks) : Inside (.quote :: (s ++ ks))
  | container (b : Bool) {inner ks : List BracketKind} (hinner : Inside inner) (h : Inside ks) :
      Inside (.opens b :: (inner ++ .closes b :: ks))

/-- A container with its brackets. -/
inductive Enclosure : List BracketKind → Prop
  | mk (b : Bool) {inner : List BracketKind} (h : Inside inner) : Enclosure (.opens b :: (inner ++ [.closes b]))

theorem Inside.append {ks ks' : List BracketKind} (h : Inside ks) (h' : Inside ks') : Inside (ks ++ ks') := by
  induction h with
  | nil => exact h'
  | plain hk _ ih => exact .plain hk ih
  | string hs _ ih =>
    rw [List.cons_append, List.append_assoc]
    exact .string hs ih
  | container b hinner _ _ ih =>
    rw [List.cons_append, List.append_assoc, List.cons_append]
    exact .container b hinner ih

theorem Enclosure.inside {ks : List BracketKind} (h : Enclosure ks) : Inside ks := by
  obtain ⟨b, hinner⟩ := h
  exact .container b hinner .nil

/-- What closes open brackets, the innermost first. -/
inductive Unwinds : List Bool → List BracketKind → Prop
  | nil : Unwinds [] []
  | cons {b : Bool} {stack : List Bool} {inner ks : List BracketKind} (hinner : Inside inner)
      (h : Unwinds stack ks) : Unwinds (b :: stack) (inner ++ .closes b :: ks)

variable {b : Bool} {stack : List Bool} {k : BracketKind} {ks w : List BracketKind}

theorem unwinds_nil_iff : Unwinds [] w ↔ w = [] := by
  constructor
  · rintro ⟨⟩
    rfl
  · rintro rfl
    exact .nil

theorem unwinds_cons_iff :
    Unwinds (b :: stack) w ↔ ∃ inner ks, w = inner ++ .closes b :: ks ∧ Inside inner ∧ Unwinds stack ks := by
  constructor
  · rintro ⟨⟩
    exact ⟨_, _, rfl, ‹_›, ‹_›⟩
  · rintro ⟨inner, ks, rfl, hinner, h⟩
    exact .cons hinner h

theorem enclosure_iff_unwinds : Enclosure (.opens b :: w) ↔ Unwinds [b] w := by
  rw [unwinds_cons_iff]
  constructor
  · rintro ⟨⟩
    exact ⟨_, [], rfl, ‹_›, .nil⟩
  · rintro ⟨inner, ks, rfl, hinner, h⟩
    rw [unwinds_nil_iff.mp h]
    exact .mk b hinner

theorem Unwinds.prepend {front : List BracketKind} (hfront : Inside front) (h : Unwinds (b :: stack) w) :
    Unwinds (b :: stack) (front ++ w) := by
  obtain ⟨inner, ks, rfl, hinner, htail⟩ := unwinds_cons_iff.mp h
  rw [← List.append_assoc]
  exact .cons (hfront.append hinner) htail

theorem not_unwinds_nil : ¬Unwinds (b :: stack) [] := by
  rw [unwinds_cons_iff]
  rintro ⟨inner, ks, h, -⟩
  simp at h

theorem unwinds_plain (hk : k = .plain ∨ k = .escape) :
    Unwinds (b :: stack) (k :: w) ↔ Unwinds (b :: stack) w := by
  constructor
  · intro h
    obtain ⟨inner, ks, hw, hinner, htail⟩ := unwinds_cons_iff.mp h
    cases hinner with
    | nil =>
      obtain ⟨rfl, -⟩ := List.cons.inj hw
      simp at hk
    | plain _ hinner =>
      obtain ⟨-, rfl⟩ := List.cons.inj hw
      exact .cons hinner htail
    | string =>
      obtain ⟨rfl, -⟩ := List.cons.inj hw
      simp at hk
    | container =>
      obtain ⟨rfl, -⟩ := List.cons.inj hw
      simp at hk
  · exact fun h => h.prepend (.plain hk .nil)

theorem unwinds_quote :
    Unwinds (b :: stack) (.quote :: w) ↔ ∃ s v, w = s ++ v ∧ Quoted s ∧ Unwinds (b :: stack) v := by
  constructor
  · intro h
    obtain ⟨inner, ks, hw, hinner, htail⟩ := unwinds_cons_iff.mp h
    cases hinner with
    | nil => cases hw
    | plain hk =>
      obtain ⟨rfl, -⟩ := List.cons.inj hw
      simp at hk
    | @string s ks' hs hinner =>
      obtain ⟨-, rfl⟩ := List.cons.inj hw
      exact ⟨s, ks' ++ .closes b :: ks, List.append_assoc .., hs, .cons hinner htail⟩
    | container => cases hw
  · rintro ⟨s, v, rfl, hs, h⟩
    have hfront := h.prepend (.string hs .nil)
    rwa [List.append_nil] at hfront

theorem unwinds_opens {c : Bool} :
    Unwinds (b :: stack) (.opens c :: w) ↔ Unwinds (c :: b :: stack) w := by
  constructor
  · intro h
    obtain ⟨inner, ks, hw, hinner, htail⟩ := unwinds_cons_iff.mp h
    cases hinner with
    | nil => cases hw
    | plain hk =>
      obtain ⟨rfl, -⟩ := List.cons.inj hw
      simp at hk
    | string => cases hw
    | @container c' inner' ks' hinner' hrest =>
      obtain ⟨hc, rfl⟩ := List.cons.inj hw
      obtain rfl := BracketKind.opens.inj hc
      show Unwinds (c :: b :: stack) ((inner' ++ .closes c :: ks') ++ .closes b :: ks)
      rw [List.append_assoc, List.cons_append]
      exact .cons hinner' (.cons hrest htail)
  · intro h
    obtain ⟨inner, ks, rfl, hinner, htail⟩ := unwinds_cons_iff.mp h
    obtain ⟨inner', ks', rfl, hinner', htail'⟩ := unwinds_cons_iff.mp htail
    have hbody := Unwinds.cons (b := b) (.container c hinner hinner') htail'
    rwa [List.cons_append, List.append_assoc, List.cons_append] at hbody

theorem unwinds_closes {c : Bool} : Unwinds (b :: stack) (.closes c :: w) ↔ c = b ∧ Unwinds stack w := by
  constructor
  · intro h
    obtain ⟨inner, ks, hw, hinner, htail⟩ := unwinds_cons_iff.mp h
    cases hinner with
    | nil =>
      obtain ⟨hc, rfl⟩ := List.cons.inj hw
      exact ⟨BracketKind.closes.inj hc, htail⟩
    | plain hk =>
      obtain ⟨rfl, -⟩ := List.cons.inj hw
      simp at hk
    | string => cases hw
    | container => cases hw
  · rintro ⟨rfl, h⟩
    exact .cons .nil h

/-! ### The scanner -/

/-- Where a scanner is: outside of strings, in a string, or in a string behind a backslash. -/
inductive ScanMode
  | outside
  | string
  | escaped
  deriving DecidableEq

/-- The open brackets, the innermost first, and where the scanner is. -/
structure Scan where
  stack : List Bool
  mode : ScanMode

/-- What a symbol does to a scan. -/
inductive ScanVerdict
  | more (s : Scan)
  | closed
  | refused

namespace Scan

/-- A closing bracket closes the innermost open one, if that is of its kind. -/
def close (b : Bool) : List Bool → ScanVerdict
  | [] => .refused
  | c :: stack => if c ≠ b then .refused else if stack = [] then .closed else .more ⟨stack, .outside⟩

def step (s : Scan) (k : BracketKind) : ScanVerdict :=
  match s.mode, k with
  | .escaped, _ => .more ⟨s.stack, .string⟩
  | .string, .escape => .more ⟨s.stack, .escaped⟩
  | .string, .quote => .more ⟨s.stack, .outside⟩
  | .string, _ => .more s
  | .outside, .quote => .more ⟨s.stack, .string⟩
  | .outside, .opens b => .more ⟨b :: s.stack, .outside⟩
  | .outside, .closes b => close b s.stack
  | .outside, _ => .more s

/-- Where the container ends, if it does, and how many symbols were read. -/
def run (s : Scan) : List BracketKind → Option ℕ × ℕ
  | [] => (none, 0)
  | k :: ks =>
    match s.step k with
    | .more s' => ((s'.run ks).1.map (· + 1), (s'.run ks).2 + 1)
    | .closed => (some 1, 1)
    | .refused => (none, 1)

end Scan

/-- The words that bring a scan to its end. -/
def Finishes (s : Scan) (w : List BracketKind) : Prop :=
  match s.mode with
  | .outside => Unwinds s.stack w
  | .string => ∃ q v, w = q ++ v ∧ Quoted q ∧ Unwinds s.stack v
  | .escaped => ∃ k q v, w = k :: (q ++ v) ∧ Quoted q ∧ Unwinds s.stack v

theorem quoted_cons_iff {q : List BracketKind} : Quoted (k :: q) ↔
    (k = .quote ∧ q = []) ∨ (k = .escape ∧ ∃ k' q', q = k' :: q' ∧ Quoted q') ∨
      (k ≠ .quote ∧ k ≠ .escape ∧ Quoted q) := by
  constructor
  · rintro (_ | ⟨k', h⟩ | ⟨hquote, hescape, h⟩)
    · exact Or.inl ⟨rfl, rfl⟩
    · exact Or.inr (Or.inl ⟨rfl, k', _, rfl, h⟩)
    · exact Or.inr (Or.inr ⟨hquote, hescape, h⟩)
  · rintro (⟨rfl, rfl⟩ | ⟨rfl, k', q', rfl, h⟩ | ⟨hquote, hescape, h⟩)
    · exact .close
    · exact .escaped k' h
    · exact .other hquote hescape h

theorem not_quoted_nil : ¬Quoted [] := nofun

theorem not_finishes_nil {s : Scan} (h : s.stack ≠ []) : ¬Finishes s [] := by
  obtain ⟨stack, mode⟩ := s
  obtain ⟨b, stack, rfl⟩ := List.exists_cons_of_ne_nil h
  cases mode with
  | outside => exact not_unwinds_nil
  | string =>
    rintro ⟨q, v, hnil, hq, -⟩
    rw [(List.append_eq_nil_iff.mp hnil.symm).1] at hq
    exact not_quoted_nil hq
  | escaped =>
    rintro ⟨k, q, v, hnil, -⟩
    cases hnil

theorem finishes_string_cons (stack : List Bool) :
    Finishes ⟨stack, .string⟩ (k :: w) ↔ ∃ q v, w = q ++ v ∧ Quoted (k :: q) ∧ Unwinds stack v := by
  constructor
  · rintro ⟨q, v, hw, hq, hv⟩
    cases q with
    | nil => exact absurd hq not_quoted_nil
    | cons k' q =>
      obtain ⟨rfl, rfl⟩ := List.cons.inj hw
      exact ⟨q, v, rfl, hq, hv⟩
  · rintro ⟨q, v, rfl, hq, hv⟩
    exact ⟨k :: q, v, rfl, hq, hv⟩

theorem finishes_cons {s : Scan} (h : s.stack ≠ []) :
    Finishes s (k :: w) ↔
      match s.step k with
      | .more s' => Finishes s' w
      | .closed => w = []
      | .refused => False := by
  obtain ⟨stack, mode⟩ := s
  obtain ⟨b, stack, rfl⟩ := List.exists_cons_of_ne_nil h
  cases mode with
  | outside =>
    cases k with
    | opens c => exact unwinds_opens
    | closes c =>
      show Unwinds (b :: stack) (.closes c :: w) ↔ (match Scan.close c (b :: stack) with
        | .more s' => Finishes s' w
        | .closed => w = []
        | .refused => False)
      rw [unwinds_closes, Scan.close]
      split_ifs with hbc hstack
      · exact iff_of_false (fun hc => hbc hc.1.symm) id
      · rw [hstack, unwinds_nil_iff]
        exact and_iff_right (not_not.mp hbc).symm
      · exact and_iff_right (not_not.mp hbc).symm
    | quote => exact unwinds_quote
    | escape => exact unwinds_plain (Or.inr rfl)
    | plain => exact unwinds_plain (Or.inl rfl)
  | escaped =>
    show (∃ k' q v, k :: w = k' :: (q ++ v) ∧ Quoted q ∧ Unwinds (b :: stack) v) ↔
      ∃ q v, w = q ++ v ∧ Quoted q ∧ Unwinds (b :: stack) v
    constructor
    · rintro ⟨k', q, v, hw, hq, hv⟩
      exact ⟨q, v, (List.cons.inj hw).2, hq, hv⟩
    · rintro ⟨q, v, rfl, hq, hv⟩
      exact ⟨k, q, v, rfl, hq, hv⟩
  | string =>
    rw [finishes_string_cons]
    have hother (hquote : k ≠ .quote) (hescape : k ≠ .escape) :
        (∃ q v, w = q ++ v ∧ Quoted (k :: q) ∧ Unwinds (b :: stack) v) ↔
          ∃ q v, w = q ++ v ∧ Quoted q ∧ Unwinds (b :: stack) v := by
      simp [quoted_cons_iff, hquote, hescape]
    cases k with
    | quote =>
      show _ ↔ Unwinds (b :: stack) w
      constructor
      · rintro ⟨q, v, rfl, hq, hv⟩
        obtain ⟨-, rfl⟩ | ⟨hk, -⟩ | ⟨hk, -⟩ := quoted_cons_iff.mp hq
        · exact hv
        · cases hk
        · exact absurd rfl hk
      · exact fun hv => ⟨[], w, rfl, .close, hv⟩
    | escape =>
      show _ ↔ ∃ k' q v, w = k' :: (q ++ v) ∧ Quoted q ∧ Unwinds (b :: stack) v
      constructor
      · rintro ⟨q, v, rfl, hq, hv⟩
        obtain ⟨hk, -⟩ | ⟨-, k', q', rfl, hq'⟩ | ⟨-, hk, -⟩ := quoted_cons_iff.mp hq
        · cases hk
        · exact ⟨k', q', v, rfl, hq', hv⟩
        · exact absurd rfl hk
      · rintro ⟨k', q, v, rfl, hq, hv⟩
        exact ⟨k' :: q, v, rfl, .escaped k' hq, hv⟩
    | opens c => exact hother nofun nofun
    | closes c => exact hother nofun nofun
    | plain => exact hother nofun nofun

namespace Scan

variable {s : Scan} {n : ℕ}

theorem stack_ne_nil_of_step {s' : Scan} (h : s.stack ≠ []) (hstep : s.step k = .more s') : s'.stack ≠ [] := by
  obtain ⟨stack, mode⟩ := s
  obtain ⟨b, stack, rfl⟩ := List.exists_cons_of_ne_nil h
  cases mode with
  | escaped =>
    obtain rfl := ScanVerdict.more.inj hstep
    exact h
  | string =>
    cases k <;>
    · obtain rfl := ScanVerdict.more.inj hstep
      exact h
  | outside =>
    cases k with
    | opens c =>
      obtain rfl := ScanVerdict.more.inj hstep
      exact List.cons_ne_nil _ _
    | closes c =>
      have hclose : Scan.close c (b :: stack) = .more s' := hstep
      rw [Scan.close] at hclose
      split_ifs at hclose with hbc hstack
      obtain rfl := ScanVerdict.more.inj hclose
      exact hstack
    | quote | escape | plain =>
      obtain rfl := ScanVerdict.more.inj hstep
      exact h

theorem run_eq_some (h : s.stack ≠ []) :
    (s.run ks).1 = some n ↔ ∃ w rest, ks = w ++ rest ∧ w.length = n ∧ Finishes s w := by
  induction ks generalizing s n with
  | nil =>
    refine iff_of_false nofun ?_
    rintro ⟨w, rest, hnil, -, hw⟩
    rw [(List.append_eq_nil_iff.mp hnil.symm).1] at hw
    exact not_finishes_nil h hw
  | cons k ks ih =>
    have hsplit : (∃ w rest, k :: ks = w ++ rest ∧ w.length = n ∧ Finishes s w) ↔
        ∃ w rest, ks = w ++ rest ∧ w.length + 1 = n ∧ Finishes s (k :: w) := by
      constructor
      · rintro ⟨w, rest, hw, rfl, hfin⟩
        cases w with
        | nil => exact absurd hfin (not_finishes_nil h)
        | cons k' w =>
          obtain ⟨rfl, rfl⟩ := List.cons.inj hw
          exact ⟨w, rest, rfl, rfl, hfin⟩
      · rintro ⟨w, rest, rfl, rfl, hfin⟩
        exact ⟨k :: w, rest, rfl, rfl, hfin⟩
    rw [hsplit, run]
    simp only [finishes_cons h]
    rcases hstep : s.step k with s' | _ | _
    · dsimp only
      rw [Option.map_eq_some_iff]
      constructor
      · rintro ⟨m, hm, rfl⟩
        obtain ⟨w, rest, rfl, rfl, hfin⟩ := (ih (stack_ne_nil_of_step h hstep)).mp hm
        exact ⟨w, rest, rfl, rfl, hfin⟩
      · rintro ⟨w, rest, rfl, rfl, hfin⟩
        exact ⟨w.length, (ih (stack_ne_nil_of_step h hstep)).mpr ⟨w, rest, rfl, rfl, hfin⟩, rfl⟩
    · constructor
      · intro hone
        exact ⟨[], ks, rfl, Option.some.inj hone, rfl⟩
      · rintro ⟨w, rest, -, rfl, rfl⟩
        rfl
    · refine iff_of_false nofun ?_
      rintro ⟨w, rest, -, -, hfin⟩
      exact hfin

/-- A scan reads what there is, and up to the end of the container if it finds one. -/
theorem read_le (s : Scan) (ks : List BracketKind) :
    (s.run ks).2 ≤ ks.length ∧ ∀ n, (s.run ks).1 = some n → (s.run ks).2 = n := by
  induction ks generalizing s with
  | nil => exact ⟨Nat.le_refl 0, nofun⟩
  | cons k ks ih =>
    rw [run]
    rcases s.step k with s' | _ | _
    · obtain ⟨hle, hend⟩ := ih s'
      refine ⟨Nat.succ_le_succ hle, ?_⟩
      intro n hn
      obtain ⟨m, hm, rfl⟩ := Option.map_eq_some_iff.mp hn
      exact congrArg (· + 1) (hend m hm)
    · exact ⟨Nat.succ_le_succ (Nat.zero_le _), fun n hn => Option.some.inj hn⟩
    · exact ⟨Nat.succ_le_succ (Nat.zero_le _), nofun⟩

end Scan

/-- The scanner behind an opening bracket finds the container that begins there. -/
theorem run_opens_eq_some {n : ℕ} :
    ((Scan.mk [b] .outside).run ks).1 = some n ↔
      ∃ w rest, ks = w ++ rest ∧ w.length = n ∧ Enclosure (.opens b :: w) := by
  rw [Scan.run_eq_some (List.cons_ne_nil b [])]
  simp only [enclosure_iff_unwinds]
  rfl

theorem Enclosure.eq_of_append_eq {w' rest rest' : List BracketKind} (h : Enclosure w) (h' : Enclosure w')
    (heq : w ++ rest = w' ++ rest') : w = w' := by
  obtain ⟨b, hinner⟩ := h
  obtain ⟨b', hinner'⟩ := h'
  obtain ⟨hb, htail⟩ := List.cons.inj heq
  obtain rfl := BracketKind.opens.inj hb
  have hfound := run_opens_eq_some.mpr ⟨_, rest, rfl, rfl, .mk b hinner⟩
  have hfound' := run_opens_eq_some.mpr ⟨_, rest', rfl, rfl, .mk b hinner'⟩
  rw [List.append_eq, List.append_eq] at htail
  rw [htail, hfound'] at hfound
  exact congrArg _ (List.append_inj_left htail (Option.some.inj hfound).symm)

end Foundation
