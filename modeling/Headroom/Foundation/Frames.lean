import Mathlib.Data.List.Basic
import Mathlib.Algebra.Order.Group.Nat

/-!
# Frames of a stream

A frame rule finds the first frame of a sequence. It decides on what it has seen: more data behind
a frame that is there does not change it. Then the frames of a stream do not depend on how the
stream is cut, nor on when they are taken out between the arrivals.
-/

namespace Foundation

/-- A rule for the first frame of a sequence. -/
structure FrameRule (α : Type*) where
  first : List α → Option ℕ
  pos : ∀ {l n}, first l = some n → 0 < n
  le_length : ∀ {l n}, first l = some n → n ≤ l.length
  append : ∀ {l n} (m : List α), first l = some n → first (l ++ m) = some n

namespace FrameRule

variable {α β : Type*} (R : FrameRule α) {l m : List α} {n : ℕ}

theorem length_drop_lt (h : R.first l = some n) : (l.drop n).length < l.length := by
  have := R.pos h
  have := R.le_length h
  rw [List.length_drop]
  omega

/-- The frames of a sequence. -/
def frames (l : List α) : List (List α) :=
  match _h : R.first l with
  | none => []
  | some n => l.take n :: frames (l.drop n)
termination_by l.length
decreasing_by exact R.length_drop_lt ‹_›

/-- What is behind the last frame. -/
def rest (l : List α) : List α :=
  match _h : R.first l with
  | none => l
  | some n => rest (l.drop n)
termination_by l.length
decreasing_by exact R.length_drop_lt ‹_›

variable {R}

theorem frames_of_none (h : R.first l = none) : R.frames l = [] := by
  rw [frames]
  split
  · rfl
  · simp_all

theorem frames_of_some (h : R.first l = some n) :
    R.frames l = l.take n :: R.frames (l.drop n) := by
  rw [frames]
  split <;> simp_all

theorem rest_of_none (h : R.first l = none) : R.rest l = l := by
  rw [rest]
  split
  · rfl
  · simp_all

theorem rest_of_some (h : R.first l = some n) : R.rest l = R.rest (l.drop n) := by
  rw [rest]
  split <;> simp_all

/-- Nothing is lost. -/
theorem flatten_frames (l : List α) : (R.frames l).flatten ++ R.rest l = l := by
  induction l using frames.induct R with
  | case1 l h =>
    rw [frames_of_none h, rest_of_none h, List.flatten_nil, List.nil_append]
  | case2 l n h ih =>
    rw [frames_of_some h, rest_of_some h, List.flatten_cons, List.append_assoc, ih,
      List.take_append_drop]

/-- No frame is left behind. -/
theorem first_rest (l : List α) : R.first (R.rest l) = none := by
  induction l using frames.induct R with
  | case1 l h =>
    rw [rest_of_none h, h]
  | case2 l n h ih =>
    rw [rest_of_some h, ih]

/-- A second part adds the frames that the rest of the first makes with it. -/
theorem frames_append (l m : List α) : R.frames (l ++ m) = R.frames l ++ R.frames (R.rest l ++ m) := by
  induction l using frames.induct R with
  | case1 l h =>
    rw [frames_of_none h, rest_of_none h, List.nil_append]
  | case2 l n h ih =>
    rw [frames_of_some (R.append m h), frames_of_some h, rest_of_some h,
      List.take_append_of_le_length (R.le_length h), List.drop_append_of_le_length (R.le_length h),
      ih, List.cons_append]

theorem rest_append (l m : List α) : R.rest (l ++ m) = R.rest (R.rest l ++ m) := by
  induction l using frames.induct R with
  | case1 l h =>
    rw [rest_of_none h]
  | case2 l n h ih =>
    rw [rest_of_some (R.append m h), rest_of_some h,
      List.drop_append_of_le_length (R.le_length h), ih]

theorem frames_flatten {frames : List (List α)}
    (h : ∀ frame ∈ frames, ∀ more, R.first (frame ++ more) = some frame.length) :
    R.frames frames.flatten = frames := by
  induction frames with
  | nil =>
    refine frames_of_none (Option.eq_none_iff_forall_not_mem.mpr fun n hn => ?_)
    exact absurd (R.le_length hn) (Nat.not_le.mpr (R.pos hn))
  | cons frame frames ih =>
    rw [List.flatten_cons, frames_of_some (h frame List.mem_cons_self _), List.take_left,
      List.drop_left, ih fun frame hframe => h frame (List.mem_cons_of_mem _ hframe)]

/-! ### Taking frames out -/

variable (R) in
/-- Drop frames until one has a meaning. -/
def pull (f : List α → Option β) (l : List α) : Option β × List α :=
  match _h : R.first l with
  | none => (none, l)
  | some n =>
    match f (l.take n) with
    | some b => (some b, l.drop n)
    | none => pull f (l.drop n)
termination_by l.length
decreasing_by exact R.length_drop_lt ‹_›

variable {f : List α → Option β}

theorem pull_of_none (h : R.first l = none) : R.pull f l = (none, l) := by
  rw [pull]
  split
  · rfl
  · simp_all

theorem pull_of_some (h : R.first l = some n) : R.pull f l =
    match f (l.take n) with
    | some b => (some b, l.drop n)
    | none => R.pull f (l.drop n) := by
  rw [pull]
  split <;> simp_all

theorem filterMap_frames_pull (l : List α) :
    (R.frames l).filterMap f =
      (R.pull f l).1.toList ++ (R.frames (R.pull f l).2).filterMap f := by
  induction l using frames.induct R with
  | case1 l h =>
    rw [pull_of_none h, Option.toList_none, List.nil_append]
  | case2 l n h ih =>
    rw [frames_of_some h, pull_of_some h]
    cases hf : f (l.take n) with
    | none => rw [List.filterMap_cons_none hf, ih]
    | some b => rw [List.filterMap_cons_some hf, Option.toList_some, List.singleton_append]

theorem rest_pull (l : List α) : R.rest (R.pull f l).2 = R.rest l := by
  induction l using frames.induct R with
  | case1 l h =>
    rw [pull_of_none h]
  | case2 l n h ih =>
    rw [rest_of_some h, pull_of_some h]
    cases f (l.take n) with
    | none => exact ih
    | some b => rfl

theorem pull_eq_none (h : (R.pull f l).1 = none) : (R.pull f l).2 = R.rest l := by
  revert h
  induction l using frames.induct R with
  | case1 l h =>
    intro hpull
    rw [pull_of_none h, rest_of_none h]
  | case2 l n h ih =>
    intro hpull
    rw [pull_of_some h] at hpull ⊢
    rw [rest_of_some h]
    cases hf : f (l.take n) with
    | none =>
      rw [hf] at hpull
      exact ih hpull
    | some b =>
      rw [hf] at hpull
      exact absurd hpull (Option.some_ne_none b)

theorem first_nil : R.first [] = none := by
  cases h : R.first [] with
  | none => rfl
  | some n => exact absurd (R.le_length h) (by have := R.pos h; simp; omega)

theorem length_pull_lt {b : β} (h : (R.pull f l).1 = some b) : (R.pull f l).2.length < l.length := by
  revert h
  induction l using frames.induct R with
  | case1 l h =>
    intro hpull
    rw [pull_of_none h] at hpull
    exact absurd hpull (Option.some_ne_none b).symm
  | case2 l n h ih =>
    intro hpull
    have hlt := R.length_drop_lt h
    rw [pull_of_some h] at hpull ⊢
    cases hf : f (l.take n) with
    | none =>
      rw [hf] at hpull
      exact (ih hpull).trans hlt
    | some b' => exact hlt

/-! ### Arrivals and pulls -/

/-- A part of the stream arrives, or a result is asked for. -/
inductive Call (α : Type*)
  | push (part : List α)
  | pull

/-- What arrives. -/
def Call.part : Call α → List α
  | .push part => part
  | .pull => []

/-- All that arrives. -/
def arrived (calls : List (Call α)) : List α := (calls.map Call.part).flatten

variable (R f) in
/-- One call on what is buffered. -/
def call (buf : List α) : Call α → Option β × List α
  | .push part => (none, buf ++ part)
  | .pull => R.pull f buf

variable (R f) in
/-- The results of calls, and what is buffered at the end. -/
def run (buf : List α) : List (Call α) → List β × List α
  | [] => ([], buf)
  | c :: calls =>
    ((R.call f buf c).1.toList ++ (run (R.call f buf c).2 calls).1,
      (run (R.call f buf c).2 calls).2)

theorem filterMap_frames_call (buf m : List α) (c : Call α) :
    (R.frames (buf ++ c.part ++ m)).filterMap f =
      (R.call f buf c).1.toList ++ (R.frames ((R.call f buf c).2 ++ m)).filterMap f := by
  cases c with
  | push part => rfl
  | pull =>
    rw [Call.part, List.append_nil, call, frames_append, List.filterMap_append,
      filterMap_frames_pull buf, frames_append (R.pull f buf).2, rest_pull, List.filterMap_append,
      List.append_assoc]

theorem rest_call (buf m : List α) (c : Call α) :
    R.rest (buf ++ c.part ++ m) = R.rest ((R.call f buf c).2 ++ m) := by
  cases c with
  | push part => rfl
  | pull =>
    rw [Call.part, List.append_nil, call, rest_append, rest_append (R.pull f buf).2, rest_pull]

/-- The results of any calls, and then of what is buffered, are those of all that arrives. -/
theorem pulled_run (buf : List α) (calls : List (Call α)) :
    (R.frames (buf ++ arrived calls)).filterMap f =
        (R.run f buf calls).1 ++ (R.frames (R.run f buf calls).2).filterMap f ∧
      R.rest (buf ++ arrived calls) = R.rest (R.run f buf calls).2 := by
  induction calls generalizing buf with
  | nil => simp [arrived, run]
  | cons c calls ih =>
    have hcons : arrived (c :: calls) = c.part ++ arrived calls := by simp [arrived]
    obtain ⟨hframes, hrest⟩ := ih (R.call f buf c).2
    rw [hcons, ← List.append_assoc]
    constructor
    · rw [filterMap_frames_call, hframes, run, List.append_assoc]
    · rw [rest_call (f := f), hrest, run]

theorem length_pull_le (l : List α) : (R.pull f l).2.length ≤ l.length := by
  cases h : (R.pull f l).1 with
  | none => rw [pull_eq_none h, ← congrArg List.length (flatten_frames (R := R) l)]; simp
  | some b => exact (length_pull_lt h).le

theorem length_run_le (buf : List α) (calls : List (Call α)) :
    (R.run f buf calls).2.length ≤ (buf ++ arrived calls).length := by
  induction calls generalizing buf with
  | nil => simp [run, arrived]
  | cons c calls ih =>
    refine (ih _).trans ?_
    have hcall : (R.call f buf c).2.length ≤ (buf ++ c.part).length := by
      cases c with
      | push part => exact le_rfl
      | pull => simpa [call, Call.part] using length_pull_le buf
    simp only [List.length_append, arrived, List.map_cons, List.flatten_cons] at hcall ⊢
    omega

theorem run_append (buf : List α) (calls calls' : List (Call α)) :
    R.run f buf (calls ++ calls') =
      ((R.run f buf calls).1 ++ (R.run f (R.run f buf calls).2 calls').1,
        (R.run f (R.run f buf calls).2 calls').2) := by
  induction calls generalizing buf with
  | nil => rfl
  | cons c calls ih => rw [List.cons_append, run, ih, run, List.append_assoc]

theorem run_pulls_of_none (h : R.first l = none) (n : ℕ) :
    R.run f l (List.replicate n .pull) = ([], l) := by
  induction n with
  | zero => rfl
  | succ n ih => rw [List.replicate_succ, run, call, pull_of_none h, ih]; rfl

theorem run_pulls (h : l.length ≤ n) :
    R.run f l (List.replicate n .pull) = ((R.frames l).filterMap f, R.rest l) := by
  induction n generalizing l with
  | zero =>
    obtain rfl := List.eq_nil_of_length_eq_zero (Nat.le_zero.mp h)
    rw [frames_of_none first_nil, rest_of_none first_nil]
    rfl
  | succ n ih =>
    rw [List.replicate_succ, run, call, filterMap_frames_pull, ← rest_pull (f := f)]
    cases hpull : (R.pull f l).1 with
    | none =>
      have hrest : R.first (R.pull f l).2 = none := pull_eq_none hpull ▸ first_rest l
      rw [run_pulls_of_none hrest, frames_of_none hrest, rest_of_none hrest]
      rfl
    | some b =>
      have hlt := length_pull_lt hpull
      rw [ih (by omega)]

/-- All results there are, when the pulls at the end are as many as what arrived. -/
theorem run_toEnd (calls : List (Call α)) :
    R.run f [] (calls ++ List.replicate (arrived calls).length .pull) =
      ((R.frames (arrived calls)).filterMap f, R.rest (arrived calls)) := by
  obtain ⟨hframes, hrest⟩ := R.pulled_run (f := f) [] calls
  rw [List.nil_append] at hframes hrest
  have hlen : (R.run f [] calls).2.length ≤ (arrived calls).length := by
    have := R.length_run_le (f := f) [] calls
    simpa using this
  rw [run_append, run_pulls hlen, hframes, hrest]

end FrameRule

end Foundation
