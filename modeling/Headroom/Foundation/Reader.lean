import Headroom.Foundation.Frames

/-!
# Readers of a stream

A reader takes the next item off the front of a sequence, or fails, or waits for more. Once it has
decided, more data does not change the decision. Then what is read up to the first failure does not
depend on how the stream is cut, nor on when the items are taken out between the arrivals.
-/

namespace Foundation

open FrameRule (Call arrived)

/-- A rule for the next item of a sequence. -/
structure Reader (α β ε : Type*) where
  next : List α → Option (Except ε β × ℕ)
  pos : ∀ {l b n}, next l = some (.ok b, n) → 0 < n
  le_length : ∀ {l r n}, next l = some (r, n) → n ≤ l.length
  append : ∀ {l r} (m : List α), next l = some r → next (l ++ m) = some r

namespace Reader

variable {α β ε : Type*} (R : Reader α β ε) {l m buf : List α} {n : ℕ}

theorem length_drop_lt {b : β} (h : R.next l = some (.ok b, n)) : (l.drop n).length < l.length := by
  have := R.pos h
  have := R.le_length h
  rw [List.length_drop]
  omega

/-- The items of a sequence with the parts they are read from, up to the first failure. -/
def reading (l : List α) : List (List α × β) × Option ε :=
  match _h : R.next l with
  | none => ([], none)
  | some (.ok b, n) => ((l.take n, b) :: (reading (l.drop n)).1, (reading (l.drop n)).2)
  | some (.error e, _) => ([], some e)
termination_by l.length
decreasing_by all_goals exact R.length_drop_lt ‹_›

/-- The results before the first failure, and the failure. -/
def upToError : List (List α × Except ε β) → List (List α × β) × Option ε
  | [] => ([], none)
  | (part, .ok b) :: results => ((part, b) :: (upToError results).1, (upToError results).2)
  | (_, .error e) :: _ => ([], some e)

/-- Results followed by others, unless there was a failure. -/
def continued {γ : Type*} (first second : List γ × Option ε) : List γ × Option ε :=
  match first with
  | (results, some e) => (results, some e)
  | (results, none) => (results ++ second.1, second.2)

/-- One call on what is buffered; a read takes a part off the front. -/
def call (buf : List α) : Call α → Option (List α × Except ε β) × List α
  | .push part => (none, buf ++ part)
  | .pull =>
    match R.next buf with
    | none => (none, buf)
    | some (r, n) => (some (buf.take n, r), buf.drop n)

/-- The results of calls, and what is buffered at the end. -/
def run (buf : List α) : List (Call α) → List (List α × Except ε β) × List α
  | [] => ([], buf)
  | c :: calls =>
    ((R.call buf c).1.toList ++ (run (R.call buf c).2 calls).1, (run (R.call buf c).2 calls).2)

variable {R}

theorem reading_of_none (h : R.next l = none) : R.reading l = ([], none) := by
  rw [reading]
  split <;> simp_all

theorem reading_of_ok {b : β} (h : R.next l = some (.ok b, n)) :
    R.reading l = ((l.take n, b) :: (R.reading (l.drop n)).1, (R.reading (l.drop n)).2) := by
  rw [reading]
  split <;> simp_all

theorem reading_of_error {e : ε} (h : R.next l = some (.error e, n)) : R.reading l = ([], some e) := by
  rw [reading]
  split <;> simp_all

theorem upToError_append (first second : List (List α × Except ε β)) :
    upToError (first ++ second) = continued (upToError first) (upToError second) := by
  induction first with
  | nil => rfl
  | cons result first ih =>
    obtain ⟨part, b | e⟩ := result
    · rfl
    · rw [List.cons_append, upToError, upToError, ih]
      obtain ⟨results, _ | e⟩ := upToError first <;> rfl

theorem run_append (buf : List α) (calls calls' : List (Call α)) :
    R.run buf (calls ++ calls') =
      ((R.run buf calls).1 ++ (R.run (R.run buf calls).2 calls').1,
        (R.run (R.run buf calls).2 calls').2) := by
  induction calls generalizing buf with
  | nil => rfl
  | cons c calls ih => rw [List.cons_append, run, ih, run, List.append_assoc]

/-! ### Nothing is lost -/

theorem flatten_call (buf : List α) (c : Call α) :
    ((R.call buf c).1.toList.map Prod.fst).flatten ++ (R.call buf c).2 = buf ++ c.part := by
  cases c with
  | push part => rfl
  | pull =>
    rw [call, Call.part, List.append_nil]
    split
    · rfl
    · rename_i r n h
      simp

theorem flatten_run (buf : List α) (calls : List (Call α)) :
    ((R.run buf calls).1.map Prod.fst).flatten ++ (R.run buf calls).2 = buf ++ arrived calls := by
  induction calls generalizing buf with
  | nil => simp [run, arrived]
  | cons c calls ih =>
    rw [run, List.map_append, List.flatten_append, List.append_assoc, ih, ← List.append_assoc,
      flatten_call, List.append_assoc]
    rfl

theorem length_run_le (buf : List α) (calls : List (Call α)) :
    (R.run buf calls).2.length ≤ (buf ++ arrived calls).length := by
  rw [← flatten_run (R := R), List.length_append]
  exact Nat.le_add_left _ _

theorem forall_run {p : List α → β → Prop} (h : ∀ {l b n}, R.next l = some (.ok b, n) → p (l.take n) b)
    (buf : List α) (calls : List (Call α)) :
    ∀ part b, (part, .ok b) ∈ (R.run buf calls).1 → p part b := by
  induction calls generalizing buf with
  | nil => exact fun _ _ hmem => absurd hmem List.not_mem_nil
  | cons c calls ih =>
    intro part b hmem
    rw [run, List.mem_append] at hmem
    refine hmem.elim (fun hmem => ?_) (ih _ part b)
    cases c with
    | push chunk => exact absurd hmem List.not_mem_nil
    | pull =>
      rw [call] at hmem
      split at hmem
      · exact absurd hmem List.not_mem_nil
      · rename_i r n hnext
        rw [Option.toList_some, List.mem_singleton] at hmem
        obtain ⟨rfl, rfl⟩ := Prod.mk.inj hmem
        exact h hnext

/-! ### The order of arrivals and reads -/

theorem reading_call (buf m : List α) (c : Call α) :
    R.reading (buf ++ c.part ++ m) =
      continued (upToError (R.call buf c).1.toList) (R.reading ((R.call buf c).2 ++ m)) := by
  cases c with
  | push part => rfl
  | pull =>
    rw [Call.part, List.append_nil, call]
    split
    · rfl
    · rename_i r n hnext
      have hle := R.le_length hnext
      obtain e | b := r
      · rw [reading_of_error (R.append m hnext)]
        rfl
      · rw [reading_of_ok (R.append m hnext), List.take_append_of_le_length hle,
          List.drop_append_of_le_length hle]
        rfl

theorem continued_assoc {γ : Type*} (a b c : List γ × Option ε) :
    continued (continued a b) c = continued a (continued b c) := by
  obtain ⟨as, _ | e⟩ := a
  · obtain ⟨bs, _ | e⟩ := b
    · simp [continued]
    · rfl
  · rfl

/-- What a run read up to the first failure, and then what is buffered, is what the whole reads as. -/
theorem reading_run (buf : List α) (calls : List (Call α)) :
    R.reading (buf ++ arrived calls) =
      continued (upToError (R.run buf calls).1) (R.reading (R.run buf calls).2) := by
  induction calls generalizing buf with
  | nil => simp [arrived, run, upToError, continued]
  | cons c calls ih =>
    have hcons : arrived (c :: calls) = c.part ++ arrived calls := by simp [arrived]
    rw [hcons, ← List.append_assoc, reading_call, ih, run, upToError_append, continued_assoc]

theorem run_pulls_of_none (h : R.next l = none) (n : ℕ) : R.run l (List.replicate n .pull) = ([], l) := by
  induction n with
  | zero => rfl
  | succ n ih => rw [List.replicate_succ, run, call, h, ih]; rfl

theorem upToError_run_pulls (h : l.length < n) :
    upToError (R.run l (List.replicate n .pull)).1 = R.reading l := by
  induction n generalizing l with
  | zero => exact absurd h (Nat.not_lt_zero _)
  | succ n ih =>
    rcases hnext : R.next l with _ | ⟨e | b, k⟩
    · rw [run_pulls_of_none hnext, reading_of_none hnext]
      rfl
    · rw [List.replicate_succ, run, call, hnext, reading_of_error hnext]
      rfl
    · have hlt := R.length_drop_lt hnext
      rw [List.replicate_succ, run, call, hnext, reading_of_ok hnext, ← ih (by omega)]
      rfl

theorem upToError_toEnd (calls : List (Call α)) :
    upToError (R.run [] (calls ++ List.replicate ((arrived calls).length + 1) .pull)).1 =
      R.reading (arrived calls) := by
  have hlen := length_run_le (R := R) [] calls
  rw [List.nil_append] at hlen
  rw [run_append, upToError_append, upToError_run_pulls (Nat.lt_succ_of_le hlen), ← reading_run,
    List.nil_append]

end Reader

end Foundation
