import Mathlib.Data.List.Basic
import Mathlib.Algebra.Order.Group.Nat

/-!
# Scanning for tokens

A scan goes through a sequence from left to right, takes the token that starts where it stands, or
else one element. What arrives later may complete a token, so a scan in parts must stop where no
token can be under way.
-/

namespace Foundation

/-- A rule for the token at the start of a sequence. A token is decided by its own elements, and no
token starts inside one that is under way. -/
structure TokenRule (α : Type*) where
  len : List α → Option ℕ
  pos : ∀ {l n}, len l = some n → 0 < n
  le_length : ∀ {l n}, len l = some n → n ≤ l.length
  append : ∀ {l n} (m : List α), len l = some n → len (l ++ m) = some n
  seen : ∀ {l m n}, len (l ++ m) = some n → n ≤ l.length → len l = some n
  nested : ∀ {l m n k}, len l = none → len (l ++ m) = some n → 0 < k → len (l.drop k) = none

/-- A piece of a scanned sequence. -/
inductive Piece (α : Type*)
  | token (text : List α)
  | plain (a : α)

namespace TokenRule

variable {α : Type*} (R : TokenRule α) {l m : List α} {a : α} {n i : ℕ}

/-- The start of a token that is not complete. -/
def Open (l : List α) : Prop := R.len l = none ∧ ∃ m n, R.len (l ++ m) = some n

theorem length_drop_lt (h : R.len l = some n) : (l.drop n).length < l.length := by
  have := R.pos h
  have := R.le_length h
  rw [List.length_drop]
  omega

/-- The pieces of a sequence. -/
def scan : List α → List (Piece α)
  | [] => []
  | a :: l =>
    match _h : R.len (a :: l) with
    | some n => .token ((a :: l).take n) :: scan ((a :: l).drop n)
    | none => .plain a :: scan l
termination_by l => l.length
decreasing_by
  · exact R.length_drop_lt ‹_›
  · exact Nat.lt_succ_self _

/-- The end of the last token of a scan, or zero. -/
def settled : List α → ℕ
  | [] => 0
  | a :: l =>
    match _h : R.len (a :: l) with
    | some n => n + settled ((a :: l).drop n)
    | none => if settled l = 0 then 0 else settled l + 1
termination_by l => l.length
decreasing_by
  · exact R.length_drop_lt ‹_›
  · exact Nat.lt_succ_self _

/-- A position where a scan may stop, whatever comes behind the sequence. -/
inductive Safe : ℕ → List α → Prop
  | zero (l : List α) : Safe 0 l
  | token {l : List α} {n i : ℕ} (h : R.len l = some n) (hs : Safe i (l.drop n)) : Safe (n + i) l
  | plain {a : α} {l : List α} {i : ℕ} (h : R.len (a :: l) = none) (ho : ¬ R.Open (a :: l)) (hs : Safe i l) :
      Safe (i + 1) (a :: l)

variable {R}

theorem len_nil : R.len [] = none := by
  cases h : R.len [] with
  | none => rfl
  | some n => exact absurd (R.le_length h) (by have := R.pos h; simp; omega)

theorem ne_nil_of_len (h : R.len l = some n) : l ≠ [] := by
  rintro rfl
  rw [len_nil] at h
  exact Option.some_ne_none n h.symm

@[simp] theorem scan_nil : R.scan [] = [] := by
  rw [scan]

theorem scan_token (h : R.len l = some n) : R.scan l = .token (l.take n) :: R.scan (l.drop n) := by
  obtain ⟨a, t, rfl⟩ := List.exists_cons_of_ne_nil (ne_nil_of_len h)
  rw [scan]
  split <;> simp_all

theorem scan_plain (h : R.len (a :: l) = none) : R.scan (a :: l) = .plain a :: R.scan l := by
  rw [scan]
  split <;> simp_all

@[simp] theorem settled_nil : R.settled [] = 0 := by
  rw [settled]

theorem settled_token (h : R.len l = some n) : R.settled l = n + R.settled (l.drop n) := by
  obtain ⟨a, t, rfl⟩ := List.exists_cons_of_ne_nil (ne_nil_of_len h)
  rw [settled]
  split <;> simp_all

theorem settled_plain (h : R.len (a :: l) = none) :
    R.settled (a :: l) = if R.settled l = 0 then 0 else R.settled l + 1 := by
  rw [settled]
  split <;> simp_all

variable (R) in
/-- Induction along a scan. -/
@[elab_as_elim]
theorem scan_induction {motive : List α → Prop} (l : List α) (nil : motive [])
    (token : ∀ l n, R.len l = some n → motive (l.drop n) → motive l)
    (plain : ∀ a l, R.len (a :: l) = none → motive l → motive (a :: l)) : motive l := by
  generalize hk : l.length = k
  induction k using Nat.strongRecOn generalizing l with
  | ind k ih =>
    cases hlen : R.len l with
    | some n => exact token l n hlen (ih _ (hk ▸ R.length_drop_lt hlen) _ rfl)
    | none =>
      cases l with
      | nil => exact nil
      | cons a l => exact plain a l hlen (ih _ (by simp [← hk]) _ rfl)

variable (R) in
theorem settled_le_length (l : List α) : R.settled l ≤ l.length := by
  induction l using R.scan_induction with
  | nil => rw [settled_nil]; exact Nat.zero_le _
  | token l n h ih =>
    have := R.le_length h
    rw [List.length_drop] at ih
    rw [settled_token h]
    omega
  | plain a l h ih =>
    rw [settled_plain h, List.length_cons]
    split_ifs <;> omega

theorem Safe.scan_append (h : R.Safe i l) (m : List α) :
    R.scan (l ++ m) = R.scan (l.take i) ++ R.scan (l.drop i ++ m) := by
  induction h with
  | zero l => rw [List.take_zero, scan_nil, List.nil_append, List.drop_zero]
  | @token l n i hlen hs ih =>
    have hle := R.le_length hlen
    have htake : R.len (l.take (n + i)) = some n := by
      refine R.seen (m := l.drop (n + i)) (by rwa [List.take_append_drop]) ?_
      rw [List.length_take]
      omega
    rw [scan_token (R.append m hlen), scan_token htake, List.take_append_of_le_length hle,
      List.drop_append_of_le_length hle, List.take_take, Nat.min_eq_left (Nat.le_add_right n i),
      List.drop_take, Nat.add_sub_cancel_left, ih, List.drop_drop, List.cons_append]
  | @plain a l i hlen ho hs ih =>
    have hlater : R.len (a :: (l ++ m)) = none := by
      cases hm : R.len (a :: (l ++ m)) with
      | none => rfl
      | some n => exact absurd ⟨hlen, m, n, hm⟩ ho
    have htake : R.len (a :: l.take i) = none := by
      cases hi : R.len (a :: l.take i) with
      | none => rfl
      | some n =>
        have hfull := R.append (l.drop i) hi
        rw [List.cons_append, List.take_append_drop, hlen] at hfull
        exact absurd hfull (Option.some_ne_none n).symm
    rw [List.cons_append, scan_plain hlater, List.take_succ_cons, scan_plain htake,
      List.drop_succ_cons, ih, List.cons_append]

theorem exists_token_of_settled (h : 0 < R.settled l) : ∃ k n, R.len (l.drop k) = some n := by
  induction l using R.scan_induction with
  | nil => simp at h
  | token l n hlen ih => exact ⟨0, n, hlen⟩
  | plain a l hlen ih =>
    rw [settled_plain hlen] at h
    split_ifs at h with hzero
    · exact absurd h (Nat.lt_irrefl 0)
    · obtain ⟨k, n, hk⟩ := ih (Nat.pos_of_ne_zero hzero)
      exact ⟨k + 1, n, hk⟩

/-- Behind the last token a position is safe if nothing before it is open. -/
theorem safe_of_settled (hsettled : R.settled l ≤ i) (hi : i ≤ l.length)
    (hopen : ∀ p, R.settled l ≤ p → p < i → ¬ R.Open (l.drop p)) : R.Safe i l := by
  induction l using R.scan_induction generalizing i with
  | nil =>
    obtain rfl := Nat.le_zero.mp hi
    exact .zero _
  | token l n hlen ih =>
    rw [settled_token hlen] at hsettled hopen
    obtain ⟨j, rfl⟩ := Nat.exists_eq_add_of_le (Nat.le_of_add_right_le hsettled)
    refine .token hlen (ih (by omega) (by rw [List.length_drop]; omega) fun p hp hlt => ?_)
    rw [List.drop_drop]
    exact hopen (n + p) (by omega) (by omega)
  | plain a l hlen ih =>
    cases i with
    | zero => exact .zero _
    | succ i =>
      rw [settled_plain hlen] at hsettled hopen
      by_cases hzero : R.settled l = 0
      · rw [if_pos hzero] at hopen
        refine .plain hlen (hopen 0 le_rfl (Nat.succ_pos i)) (ih (by omega) ?_ fun p _ hlt => ?_)
        · simpa using hi
        · exact hopen (p + 1) (Nat.zero_le _) (by omega)
      · rw [if_neg hzero] at hsettled hopen
        refine .plain hlen ?_ (ih (by omega) (by simpa using hi) fun p hp hlt => ?_)
        · -- A token further on is not inside one that is under way.
          rintro ⟨hnone, m, n, hm⟩
          obtain ⟨k, n', hk⟩ := exists_token_of_settled (Nat.pos_of_ne_zero hzero)
          have := R.nested (k := k + 1) hnone hm (Nat.succ_pos k)
          rw [List.drop_succ_cons, hk] at this
          exact Option.some_ne_none _ this
        · exact hopen (p + 1) (by omega) (by omega)

end TokenRule

end Foundation
