import Headroom.Foundation.Utf8Split
import Headroom.LiveZone.EmbeddedJson

/-!
# The containers of a text

The scanner of the search is the one for balanced containers, so that the search finds containers that begin
and end at characters, one behind the other, and misses none unless its budget ends it.
-/

open Foundation

namespace Headroom.LiveZone.EmbeddedJson

/-- What the scanner takes a byte for. -/
def bracketKind (ch : UInt8) : BracketKind :=
  if ch = 34 then .quote
  else if ch = 92 then .escape
  else if ch = 91 then .opens true
  else if ch = 123 then .opens false
  else if ch = 93 then .closes true
  else if ch = 125 then .closes false
  else .plain

/-! ### The scanner -/

namespace SpanScan

variable {s : SpanScan} {ch : UInt8}

/-- Only brackets are open, and a backslash counts in strings only. -/
structure Sound (s : SpanScan) : Prop where
  stack : ∀ b ∈ s.stack, b = 91 ∨ b = 123
  esc : s.esc = true → s.inStr = true

theorem sound_start : Sound {} := ⟨fun _ h => absurd h List.not_mem_nil, nofun⟩

/-- The scan as one of brackets. -/
def toScan (s : SpanScan) : Scan :=
  ⟨s.stack.map (· == 91), if s.esc then .escaped else if s.inStr then .string else .outside⟩

theorem Sound.inString (h : s.Sound) (hstr : s.inStr = true) (ch : UInt8) : (s.inString ch).Sound := by
  rw [SpanScan.inString]
  split_ifs
  · exact ⟨h.stack, nofun⟩
  · exact ⟨h.stack, fun _ => hstr⟩
  · rename_i hesc _ _
    exact ⟨h.stack, fun hesc' => absurd hesc' hesc⟩
  · exact h

theorem step_inString (hstr : s.inStr = true) (ch : UInt8) :
    s.toScan.step (bracketKind ch) = .more (s.inString ch).toScan := by
  obtain ⟨stack, inStr, esc⟩ := s
  obtain rfl : inStr = true := hstr
  rw [SpanScan.inString]
  cases esc with
  | true => rfl
  | false =>
    dsimp only
    rw [if_neg Bool.false_ne_true]
    split_ifs with hslash hquote
    · rw [hslash]
      rfl
    · rw [hquote]
      rfl
    · have hquoteKind : bracketKind ch ≠ .quote := by
        rw [bracketKind, if_neg hquote]
        split_ifs <;> nofun
      have hescapeKind : bracketKind ch ≠ .escape := by
        rw [bracketKind, if_neg hquote, if_neg hslash]
        split_ifs <;> nofun
      show Scan.step ⟨_, .string⟩ (bracketKind ch) = .more ⟨_, .string⟩
      generalize bracketKind ch = k at hquoteKind hescapeKind
      cases k with
      | quote => exact absurd rfl hquoteKind
      | escape => exact absurd rfl hescapeKind
      | opens | closes | plain => rfl

end SpanScan

theorem run_cons_more {s s' : Scan} {k : BracketKind} {ks : List BracketKind} (h : s.step k = .more s') :
    s.run (k :: ks) = counted (s'.run ks) := by
  rw [Scan.run, h]
  rfl

theorem close_eq {stack : Bytes} (hstack : ∀ b ∈ stack, b = 91 ∨ b = 123) {ch : UInt8} {square : Bool}
    (hch : bracketKind ch = .closes square) :
    Scan.close square (stack.map (· == 91)) =
      if stack.head? ≠ some (if ch = 93 then 91 else 123) then .refused
      else if stack.tail = [] then .closed
      else .more ⟨stack.tail.map (· == 91), .outside⟩ := by
  have hsquare : square = true ↔ ch = 93 := by
    rw [bracketKind] at hch
    split_ifs at hch with _ _ _ _ h93 h125
    · exact iff_of_true (BracketKind.closes.inj hch).symm h93
    · exact iff_of_false (by rw [← BracketKind.closes.inj hch]; decide) h93
  cases stack with
  | nil => rfl
  | cons b stack =>
    rw [List.map_cons, Scan.close]
    have hkind : (b == 91) ≠ square ↔ ¬b = if ch = 93 then 91 else 123 := by
      obtain rfl | rfl := hstack b List.mem_cons_self
      · cases square
        · rw [if_neg (fun h => absurd (hsquare.mpr h) (by simp))]
          decide
        · rw [if_pos (hsquare.mp rfl)]
          decide
      · cases square
        · rw [if_neg (fun h => absurd (hsquare.mpr h) (by simp))]
          decide
        · rw [if_pos (hsquare.mp rfl)]
          decide
    exact if_congr (hkind.trans (not_congr ⟨congrArg some, Option.some.inj⟩)) rfl
      (if_congr List.map_eq_nil_iff rfl rfl)

theorem matchSpanFrom_eq {s : SpanScan} (h : s.Sound) (bytes : Bytes) :
    matchSpanFrom s bytes = s.toScan.run (bytes.map bracketKind) := by
  induction bytes generalizing s with
  | nil => rfl
  | cons ch rest ih =>
    rw [List.map_cons, matchSpanFrom]
    by_cases hstr : s.inStr = true
    · rw [if_pos hstr, run_cons_more (SpanScan.step_inString hstr ch), ih (h.inString hstr ch)]
    have hesc : s.esc = false := by
      rw [← Bool.not_eq_true]
      exact fun hesc => hstr (h.esc hesc)
    obtain ⟨stack, inStr, esc⟩ := s
    obtain rfl : inStr = false := Bool.not_eq_true _ ▸ hstr
    obtain rfl : esc = false := hesc
    have hsound (stack : Bytes) (hstack : ∀ b ∈ stack, b = 91 ∨ b = 123) (inStr : Bool) :
        SpanScan.Sound ⟨stack, inStr, false⟩ := ⟨hstack, nofun⟩
    show _ = Scan.run ⟨stack.map (· == 91), .outside⟩ _
    rw [if_neg hstr]
    by_cases hquote : ch = 34
    · rw [if_pos hquote, hquote, @run_cons_more _ ⟨stack.map (· == 91), .string⟩ _ _ rfl,
        ih (hsound stack h.stack true)]
      rfl
    rw [if_neg hquote]
    by_cases hopen : ch = 91 ∨ ch = 123
    · have hpush : ∀ b ∈ ch :: stack, b = 91 ∨ b = 123 := List.forall_mem_cons.mpr ⟨hopen, h.stack⟩
      rw [if_pos hopen, @run_cons_more _ ⟨(ch :: stack).map (· == 91), .outside⟩ _ _,
        ih (hsound _ hpush false)]
      · rfl
      · obtain rfl | rfl := hopen <;> rfl
    rw [if_neg hopen]
    by_cases hclose : ch = 93 ∨ ch = 125
    · obtain ⟨square, hkind⟩ : ∃ square, bracketKind ch = .closes square := by
        obtain rfl | rfl := hclose
        · exact ⟨true, rfl⟩
        · exact ⟨false, rfl⟩
      have hstep : Scan.step ⟨stack.map (· == 91), .outside⟩ (bracketKind ch) =
          Scan.close square (stack.map (· == 91)) := by
        rw [hkind]
        rfl
      rw [if_pos hclose, Scan.run, hstep, close_eq h.stack hkind]
      dsimp only
      split_ifs
      · rfl
      · rfl
      · have htail : ∀ b ∈ stack.tail, b = 91 ∨ b = 123 := fun b hb => h.stack b (List.mem_of_mem_tail hb)
        rw [ih (hsound _ htail false)]
        rfl
      · rfl
      · rfl
      · have htail : ∀ b ∈ stack.tail, b = 91 ∨ b = 123 := fun b hb => h.stack b (List.mem_of_mem_tail hb)
        rw [ih (hsound _ htail false)]
        rfl
    · rw [if_neg hclose, @run_cons_more _ ⟨stack.map (· == 91), .outside⟩ _ _, ih h]
      · rfl
      · rw [not_or] at hopen hclose
        rw [bracketKind, if_neg hquote]
        by_cases hslash : ch = 92
        · rw [if_pos hslash]
          rfl
        · rw [if_neg hslash, if_neg hopen.1, if_neg hopen.2, if_neg hclose.1, if_neg hclose.2]
          rfl

/-! ### Containers in a text -/

/-- A container stands in a range. -/
def Encloses (bytes : Bytes) (start stop : ℕ) : Prop :=
  start < stop ∧ stop ≤ bytes.length ∧
    Enclosure (((bytes.drop start).take (stop - start)).map bracketKind)

/-- A byte opens a container. -/
def IsOpener (ch : UInt8) : Prop := ch = 91 ∨ ch = 123

instance : DecidablePred IsOpener := fun ch => inferInstanceAs (Decidable (ch = 91 ∨ ch = 123))

variable {bytes : Bytes} {i stop : ℕ} {ch : UInt8}

theorem exists_opens (h : IsOpener ch) : ∃ b, bracketKind ch = .opens b := by
  obtain rfl | rfl := h
  · exact ⟨true, rfl⟩
  · exact ⟨false, rfl⟩

theorem isOpener_of_opens {b : Bool} (h : bracketKind ch = .opens b) : IsOpener ch := by
  rw [bracketKind] at h
  split_ifs at h with _ _ h91 h123
  · exact Or.inl h91
  · exact Or.inr h123

theorem eq_of_closes {b : Bool} (h : bracketKind ch = .closes b) : ch = 93 ∨ ch = 125 := by
  rw [bracketKind] at h
  split_ifs at h with _ _ _ _ h93 h125
  · exact Or.inl h93
  · exact Or.inr h125

/-- The scanner finds the container at an offset. -/
theorem matchSpan_eq_some (hch : bytes[i]? = some ch) (hopen : IsOpener ch) :
    (matchSpan bytes i).1 = some stop ↔ Encloses bytes i stop := by
  obtain ⟨b, hkind⟩ := exists_opens hopen
  obtain ⟨hlt, hget⟩ := List.getElem?_eq_some_iff.mp hch
  have hdrop : bytes.drop i = ch :: bytes.drop (i + 1) := by
    rw [List.drop_eq_getElem_cons hlt, hget]
  have hlength : (bytes.drop (i + 1)).length = bytes.length - (i + 1) := List.length_drop ..
  have hrun : matchSpanFrom {} (bytes.drop i) =
      counted ((Scan.mk [b] .outside).run ((bytes.drop (i + 1)).map bracketKind)) := by
    rw [hdrop, matchSpanFrom_eq SpanScan.sound_start, List.map_cons]
    refine run_cons_more ?_
    rw [hkind]
    rfl
  rw [matchSpan, hrun, counted, Option.map_map, Option.map_eq_some_iff]
  constructor
  · rintro ⟨m, hm, rfl⟩
    obtain ⟨w, rest, hsplit, rfl, hw⟩ := run_opens_eq_some.mp hm
    have hle : w.length ≤ (bytes.drop (i + 1)).length := by
      have := congrArg List.length hsplit
      rw [List.length_map, List.length_append] at this
      omega
    show Encloses bytes i (i + (w.length + 1))
    refine ⟨by omega, by omega, ?_⟩
    rw [Nat.add_sub_cancel_left, hdrop, List.take_succ_cons, List.map_cons, List.map_take, hsplit,
      List.take_left, hkind]
    exact hw
  · rintro ⟨hlt, hle, hw⟩
    obtain ⟨m, rfl⟩ : ∃ m, stop = i + (m + 1) := ⟨stop - i - 1, by omega⟩
    rw [Nat.add_sub_cancel_left, hdrop, List.take_succ_cons, List.map_cons, hkind] at hw
    refine ⟨m, run_opens_eq_some.mpr ⟨_, ((bytes.drop (i + 1)).drop m).map bracketKind, ?_, ?_, hw⟩, rfl⟩
    · rw [← List.map_append, List.take_append_drop]
    · rw [List.length_map, List.length_take]
      omega

/-- A range that holds a container begins with an opening bracket and ends with a closing one. -/
theorem Encloses.brackets (h : Encloses bytes i stop) :
    (∃ ch, bytes[i]? = some ch ∧ IsOpener ch) ∧ ∃ ch, bytes[stop - 1]? = some ch ∧ (ch = 93 ∨ ch = 125) := by
  obtain ⟨hlt, hle, hw⟩ := h
  have hget (n : ℕ) (hn : n < stop - i) :
      (((bytes.drop i).take (stop - i)).map bracketKind)[n]? = (bytes[i + n]?).map bracketKind := by
    rw [List.getElem?_map, List.getElem?_take, if_pos hn, List.getElem?_drop]
  have hlength : (((bytes.drop i).take (stop - i)).map bracketKind).length = stop - i := by
    rw [List.length_map, List.length_take, List.length_drop]
    omega
  generalize ((bytes.drop i).take (stop - i)).map bracketKind = w at hw hget hlength
  obtain ⟨b, hinner⟩ := hw
  rename_i inner
  rw [List.length_cons, List.length_append, List.length_singleton] at hlength
  constructor
  · obtain ⟨ch, hch, hkind⟩ := Option.map_eq_some_iff.mp (hget 0 (by omega)).symm
    exact ⟨ch, hch, isOpener_of_opens hkind⟩
  · have hlast := hget (inner.length + 1) (by omega)
    rw [List.getElem?_cons_succ, List.getElem?_append_right (Nat.le_refl _), Nat.sub_self] at hlast
    obtain ⟨ch, hch, hkind⟩ := Option.map_eq_some_iff.mp hlast.symm
    rw [show stop - 1 = i + (inner.length + 1) by omega]
    exact ⟨ch, hch, eq_of_closes hkind⟩

theorem Encloses.stop_unique {stop' : ℕ} (h : Encloses bytes i stop) (h' : Encloses bytes i stop') :
    stop = stop' := by
  obtain ⟨⟨ch, hch, hopen⟩, -⟩ := h.brackets
  exact Option.some.inj
    (((matchSpan_eq_some hch hopen).mpr h).symm.trans ((matchSpan_eq_some hch hopen).mpr h'))

/-- A scan reads the container, or what there is at most. -/
theorem read_le (bytes : Bytes) (i : ℕ) :
    (matchSpan bytes i).2 ≤ bytes.length - i ∧
      ∀ stop, (matchSpan bytes i).1 = some stop → (matchSpan bytes i).2 = stop - i := by
  obtain ⟨hle, hend⟩ := Scan.read_le (SpanScan.toScan {}) ((bytes.drop i).map bracketKind)
  rw [← matchSpanFrom_eq SpanScan.sound_start] at hle hend
  rw [List.length_map, List.length_drop] at hle
  refine ⟨hle, ?_⟩
  intro stop hstop
  obtain ⟨n, hn, rfl⟩ := Option.map_eq_some_iff.mp hstop
  rw [Nat.add_sub_cancel_left]
  exact hend n hn

/-! ### The search -/

variable {rounds budget : ℕ}

/-- What one round of the search does. -/
theorem scanSpans_succ (hch : bytes[i]? = some ch) :
    scanSpans bytes (rounds + 1) i budget =
      if IsOpener ch then
        match (matchSpan bytes i).1 with
        | some stop => (scanSpans bytes rounds stop (budget - (matchSpan bytes i).2)).behind [(i, stop)]
            (matchSpan bytes i).2
        | none =>
          if budget - (matchSpan bytes i).2 = 0 then { read := (matchSpan bytes i).2, exhausted := true }
          else (scanSpans bytes rounds (i + 1) (budget - (matchSpan bytes i).2)).behind [] (matchSpan bytes i).2
      else scanSpans bytes rounds (i + 1) budget := by
  rw [scanSpans, hch]
  rfl

theorem scanSpans_none (hch : bytes[i]? = none) : scanSpans bytes rounds i budget = {} := by
  cases rounds with
  | zero => rfl
  | succ rounds => rw [scanSpans, hch]

theorem scanSpans_encloses {x : ℕ × ℕ} (h : x ∈ (scanSpans bytes rounds i budget).ranges) :
    i ≤ x.1 ∧ Encloses bytes x.1 x.2 := by
  induction rounds generalizing i budget with
  | zero => exact absurd h List.not_mem_nil
  | succ rounds ih =>
    rcases hch : bytes[i]? with _ | ch
    · rw [scanSpans_none hch] at h
      exact absurd h List.not_mem_nil
    rw [scanSpans_succ hch] at h
    by_cases hopen : IsOpener ch
    · rw [if_pos hopen] at h
      rcases hfound : (matchSpan bytes i).1 with _ | stop
      · rw [hfound] at h
        dsimp only at h
        split_ifs at h with hbudget
        · exact absurd h List.not_mem_nil
        · obtain ⟨hle, hencloses⟩ := ih h
          exact ⟨by omega, hencloses⟩
      · rw [hfound] at h
        have hencloses := (matchSpan_eq_some hch hopen).mp hfound
        obtain rfl | h := List.mem_cons.mp h
        · exact ⟨Nat.le_refl _, hencloses⟩
        · obtain ⟨hle, hx⟩ := ih h
          have hlt := hencloses.1
          exact ⟨by omega, hx⟩
    · rw [if_neg hopen] at h
      obtain ⟨hle, hencloses⟩ := ih h
      exact ⟨by omega, hencloses⟩

theorem scanSpans_pairwise : (scanSpans bytes rounds i budget).ranges.Pairwise fun x y => x.2 ≤ y.1 := by
  induction rounds generalizing i budget with
  | zero => exact .nil
  | succ rounds ih =>
    rcases hch : bytes[i]? with _ | ch
    · rw [scanSpans_none hch]
      exact .nil
    rw [scanSpans_succ hch]
    by_cases hopen : IsOpener ch
    · rw [if_pos hopen]
      rcases (matchSpan bytes i).1 with _ | stop
      · dsimp only
        split_ifs
        · exact .nil
        · exact ih
      · exact List.pairwise_cons.mpr ⟨fun y hy => (scanSpans_encloses hy).1, ih⟩
    · rw [if_neg hopen]
      exact ih

theorem scanSpans_complete {j : ℕ} (hrounds : bytes.length ≤ i + rounds)
    (hdone : (scanSpans bytes rounds i budget).exhausted = false) (hj : i ≤ j) (hencloses : Encloses bytes j stop) :
    ∃ x ∈ (scanSpans bytes rounds i budget).ranges, x.1 ≤ j ∧ j < x.2 := by
  have hlt := hencloses.1
  have hle := hencloses.2.1
  induction rounds generalizing i budget with
  | zero => omega
  | succ rounds ih =>
    rcases hch : bytes[i]? with _ | ch
    · have := List.getElem?_eq_none_iff.mp hch
      omega
    obtain ⟨⟨opener, hopener, hopens⟩, -⟩ := hencloses.brackets
    rw [scanSpans_succ hch] at hdone ⊢
    by_cases hopen : IsOpener ch
    · rw [if_pos hopen] at hdone ⊢
      rcases hfound : (matchSpan bytes i).1 with _ | stop'
      · have hne : i ≠ j := by
          rintro rfl
          rw [(matchSpan_eq_some hch hopen).mpr hencloses] at hfound
          cases hfound
        rw [hfound] at hdone
        dsimp only at hdone ⊢
        split_ifs at hdone with hbudget
        rw [if_neg hbudget]
        exact ih (by omega) hdone (by omega)
      · rw [hfound] at hdone
        have hrange := ((matchSpan_eq_some hch hopen).mp hfound).1
        by_cases hinside : j < stop'
        · exact ⟨_, List.mem_cons_self, hj, hinside⟩
        · obtain ⟨x, hx, hxj⟩ := ih (by omega) hdone (by omega)
          exact ⟨x, List.mem_cons_of_mem _ hx, hxj⟩
    · rw [if_neg hopen] at hdone ⊢
      have hne : i ≠ j := by
        rintro rfl
        rw [hch] at hopener
        obtain rfl := Option.some.inj hopener
        exact hopen hopens
      exact ih (by omega) hdone (by omega)

theorem scanSpans_read_le : (scanSpans bytes rounds i budget).read ≤ budget + (bytes.length - i) := by
  induction rounds generalizing i budget with
  | zero => exact Nat.zero_le _
  | succ rounds ih =>
    rcases hch : bytes[i]? with _ | ch
    · rw [scanSpans_none hch]
      exact Nat.zero_le _
    obtain ⟨hlt, -⟩ := List.getElem?_eq_some_iff.mp hch
    rw [scanSpans_succ hch]
    obtain ⟨hread, hend⟩ := read_le bytes i
    by_cases hopen : IsOpener ch
    · rw [if_pos hopen]
      rcases hfound : (matchSpan bytes i).1 with _ | stop
      · dsimp only
        split_ifs with hbudget
        · show (matchSpan bytes i).2 ≤ _
          omega
        · have := @ih (i + 1) (budget - (matchSpan bytes i).2)
          show (matchSpan bytes i).2 + SpanRun.read _ ≤ _
          omega
      · have := @ih stop (budget - (matchSpan bytes i).2)
        have hstop := hend stop hfound
        have hencloses := (matchSpan_eq_some hch hopen).mp hfound
        have hrange := hencloses.1
        have hle := hencloses.2.1
        show (matchSpan bytes i).2 + SpanRun.read _ ≤ _
        omega
    · rw [if_neg hopen]
      have := @ih (i + 1) budget
      omega

end Headroom.LiveZone.EmbeddedJson
