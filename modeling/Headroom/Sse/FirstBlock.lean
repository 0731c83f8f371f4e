import Headroom.Foundation.LineStarts
import Headroom.Sse.EventFrames
import Headroom.Sse.LineEndings

/-!
# A name line and a data line

What the framer makes of a name line and a data line with more lines behind them, none of which begins as a
field with a meaning does: one event, with the first data line and no other.
-/

open Foundation

namespace Headroom.Sse

/-- No line is a name line or a data line, since none begins with the letter of one. -/
def Fieldless (bytes : Bytes) : Prop := LinesBegin lf (fun b => b ≠ 100 ∧ b ≠ 101) bytes

/-- What stands in front of the first line feed. -/
def firstLine (bytes : Bytes) : Bytes := bytes.takeWhile (· != lf)

variable {lead e d rest bytes : Bytes} {n : ℕ}

/-! ### Bytes without fields -/

theorem head?_stripCr {line : Bytes} {b : UInt8} (h : b ∈ (stripCr line).head?) : b ∈ line.head? := by
  rw [stripCr] at h
  split_ifs at h
  · cases line with
    | nil => exact h
    | cons c line =>
      cases line with
      | nil => cases h
      | cons => exact h
  · exact h

theorem head?_splitField {line : Bytes} {b : UInt8} (h : b ∈ (splitField line).1.head?) : b ∈ line.head? := by
  cases line with
  | nil => exact h
  | cons c line =>
    have htake : (splitField (c :: line)).1 = (c :: line).takeWhile (· != 58) := rfl
    rw [htake, List.takeWhile_cons] at h
    split_ifs at h
    · exact h
    · cases h

variable {name : Bytes}

/-- Lines that begin with other letters have no values. -/
theorem valuesOf_fieldless {lines : List Bytes} (h : ∀ l ∈ lines, ∀ b ∈ l.head?, b ≠ 100 ∧ b ≠ 101)
    (hname : name = ascii "event" ∨ name = ascii "data") :
    valuesOf name (lineFields (lines.map stripCr)) = [] := by
  rw [valuesOf, List.map_eq_nil_iff, List.filter_eq_nil_iff]
  intro p hp hfield
  rw [decide_eq_true_eq] at hfield
  obtain ⟨line, hline, rfl⟩ := List.mem_map.mp hp
  obtain ⟨l, hl, rfl⟩ := List.mem_map.mp (List.mem_filter.mp hline).1
  have hbegins (b : UInt8) (hb : b ∈ name.head?) : b ≠ 100 ∧ b ≠ 101 :=
    h l hl b (head?_stripCr (head?_splitField (hfield ▸ hb)))
  obtain rfl | rfl := hname
  · exact (hbegins 101 (by decide)).2 rfl
  · exact (hbegins 100 (by decide)).1 rfl

theorem meaning_of_fieldless (h : Fieldless bytes) : meaning bytes = none := by
  have hbody : Fieldless (body bytes) := by
    rw [body]
    split
    · rename_i blockEnd _ _
      rw [← List.take_append_drop blockEnd bytes] at h
      exact h.left
    · exact h
  have hvalues {name : Bytes} (hname : name = ascii "event" ∨ name = ascii "data") :
      valuesOf name (fields (body bytes)) = [] :=
    valuesOf_fieldless (fun l hl => hbody.of_mem_splitOn hl) hname
  have hnames : eventNames (body bytes) = [] := by
    rw [eventNames, hvalues (Or.inl rfl)]
    rfl
  obtain ⟨hbad, -⟩ | ⟨-, hparse⟩ := parseEventBlock_spec (body bytes)
  · rw [hnames] at hbad
    exact absurd hbad List.not_mem_nil
  · rw [if_pos (show dataLines (body bytes) = [] from hvalues (Or.inr rfl))] at hparse
    rw [meaning, hparse]
    rfl

/-- What the first block and its blank line are: they end with a line feed at a position that ends a blank
line. -/
theorem exists_terminatorAt (h : terminator.first bytes = some n) :
    ∃ pos t, terminatorAt bytes pos = some t ∧ n = pos + 1 ∧ body (bytes.take n) = bytes.take t.1 := by
  obtain ⟨blockEnd, len, hfind, rfl, hbody⟩ := SseFramer.first_eq_some h
  obtain ⟨pos, -, hat⟩ := List.exists_of_findSome?_eq_some hfind
  exact ⟨pos, _, hat, (terminatorAt_eq_some hat).1, hbody⟩

theorem getElem?_of_terminatorAt {pos : ℕ} {t : ℕ × ℕ} (h : terminatorAt bytes pos = some t) :
    bytes[pos]? = some lf := by
  rw [terminatorAt] at h
  by_contra hlf
  rw [if_pos hlf] at h
  cases h

theorem take_first (h : terminator.first bytes = some n) : bytes.take n = bytes.take (n - 1) ++ [lf] := by
  obtain ⟨pos, t, hat, rfl, -⟩ := exists_terminatorAt h
  obtain ⟨hlt, hget⟩ := List.getElem?_eq_some_iff.mp (getElem?_of_terminatorAt hat)
  rw [Nat.add_sub_cancel, List.take_succ_eq_append_getElem hlt, hget]

theorem frames_fieldless (h : Fieldless bytes) : (terminator.frames bytes).filterMap meaning = [] := by
  induction bytes using FrameRule.frames.induct terminator with
  | case1 bytes hfirst =>
    rw [FrameRule.frames_of_none hfirst]
    rfl
  | case2 bytes n hfirst ih =>
    have hsplit := List.take_append_drop n bytes
    have hleft : Fieldless (bytes.take n) := by
      rw [Fieldless, ← hsplit] at h
      exact h.left
    have hbehind : Fieldless (bytes.drop n) := by
      rw [take_first hfirst, List.append_assoc, List.singleton_append] at hsplit
      rw [Fieldless, ← hsplit] at h
      exact h.behind
    rw [FrameRule.frames_of_some hfirst, List.filterMap_cons_none (meaning_of_fieldless hleft), ih hbehind]

/-! ### A name line and a data line -/

/-- A line feed that stands in front of the lines may be left of what came before. -/
def MayLead (lead : Bytes) : Prop := lead = [] ∨ lead = [lf]

theorem MayLead.length_le (h : MayLead lead) : lead.length ≤ 1 := by
  obtain rfl | rfl := h <;> decide

theorem lf_positions (he : lf ∉ e) (hd : lf ∉ d) {i : ℕ} (hi : i ≤ lead.length + e.length + 1 + d.length)
    (h : (lead ++ e ++ lf :: (d ++ lf :: rest))[i]? = some lf) :
    i < lead.length ∨ i = lead.length + e.length ∨ i = lead.length + e.length + 1 + d.length := by
  have hne {l : Bytes} (hl : lf ∉ l) (i : ℕ) : l[i]? ≠ some lf := fun h => hl (List.mem_of_getElem? h)
  by_cases hlt : i < lead.length
  · exact Or.inl hlt
  obtain ⟨j, rfl⟩ : ∃ j, i = lead.length + j := ⟨i - lead.length, by omega⟩
  rw [List.append_assoc, List.getElem?_append_right (Nat.le_add_right _ _), Nat.add_sub_cancel_left] at h
  rcases Nat.lt_trichotomy j e.length with hj | rfl | hj
  · rw [List.getElem?_append_left hj] at h
    exact absurd h (hne he j)
  · exact Or.inr (Or.inl rfl)
  · obtain ⟨k, rfl⟩ : ∃ k, j = e.length + (k + 1) := ⟨j - e.length - 1, by omega⟩
    rw [List.getElem?_append_right (Nat.le_add_right _ _), Nat.add_sub_cancel_left, List.getElem?_cons_succ] at h
    by_cases hk : k < d.length
    · rw [List.getElem?_append_left hk] at h
      exact absurd h (hne hd k)
    · omega

theorem terminatorAt_spec {pos : ℕ} {t : ℕ × ℕ} (h : terminatorAt bytes pos = some t) :
    bytes[pos]? = some lf ∧ ((0 < pos ∧ bytes[pos - 1]? = some lf ∧ t = (pos - 1, 2)) ∨
      (3 ≤ pos ∧ bytes[pos - 3]? = some cr ∧ bytes[pos - 2]? = some lf ∧ t = (pos - 3, 4))) := by
  refine ⟨getElem?_of_terminatorAt h, ?_⟩
  rw [terminatorAt] at h
  split_ifs at h with _ hzero htwo hfour
  · exact Or.inl ⟨by omega, htwo, (Option.some.inj h).symm⟩
  · exact Or.inr ⟨hfour.1, hfour.2.1, hfour.2.2.1, (Option.some.inj h).symm⟩

theorem take_twoFields {k : ℕ} (hk : lead.length + e.length + 1 + d.length ≤ k) :
    (lead ++ e ++ lf :: (d ++ lf :: rest)).take k =
      lead ++ e ++ lf :: (d ++ (lf :: rest).take (k - (lead.length + e.length + 1 + d.length))) := by
  obtain ⟨m, rfl⟩ : ∃ m, k = (lead ++ e).length + (d.length + m + 1) :=
    ⟨k - (lead.length + e.length + 1 + d.length), by rw [List.length_append]; omega⟩
  rw [List.take_length_add_append, List.take_succ_cons, List.take_length_add_append, List.length_append]
  congr
  omega

/-- The first block reaches to the end of the second line, or to the carriage return in front of it. -/
theorem body_twoFields (hlead : MayLead lead) (he : lf ∉ e) (he' : 3 ≤ e.length) (hd : lf ∉ d) (hd' : 3 ≤ d.length)
    (hfirst : terminator.first (lead ++ e ++ lf :: (d ++ lf :: rest)) = some n) :
    lead.length + e.length + 1 + d.length + 2 ≤ n ∧
      ((∃ k, body ((lead ++ e ++ lf :: (d ++ lf :: rest)).take n) = lead ++ e ++ lf :: (d ++ (lf :: rest).take k)) ∨
        ∃ d', d = d' ++ [cr] ∧ body ((lead ++ e ++ lf :: (d ++ lf :: rest)).take n) = lead ++ e ++ lf :: d') := by
  obtain ⟨pos, t, hat, rfl, hbody⟩ := exists_terminatorAt hfirst
  have hleadLength := hlead.length_le
  have hpositions {i : ℕ} := @lf_positions lead e d rest he hd i
  rw [hbody]
  obtain ⟨hlast, ⟨hpos, hbefore, rfl⟩ | ⟨hpos, hcr, hbefore, rfl⟩⟩ := terminatorAt_spec hat
  · have hlong : lead.length + e.length + 1 + d.length < pos := by
      by_contra hle
      have := hpositions (by omega) hlast
      have := hpositions (by omega) hbefore
      omega
    exact ⟨by omega, Or.inl ⟨_, take_twoFields (by omega)⟩⟩
  · have hlong : lead.length + e.length + 1 + d.length ≤ pos - 2 := by
      by_contra hle
      have := hpositions (by omega) hbefore
      by_cases hin : pos ≤ lead.length + e.length + 1 + d.length
      · have := hpositions hin hlast
        omega
      · omega
    refine ⟨by omega, ?_⟩
    by_cases hin : lead.length + e.length + 1 + d.length ≤ pos - 3
    · exact Or.inl ⟨_, take_twoFields hin⟩
    · obtain ⟨d', b, rfl⟩ : ∃ d' b, d = d' ++ [b] :=
        ⟨d.dropLast, d.getLast (by rintro rfl; simp at hd'), (List.dropLast_append_getLast _).symm⟩
      rw [List.length_append, List.length_singleton] at hlong hin
      have hindex : pos - 3 = (lead ++ e).length + (d'.length + 1) := by
        rw [List.length_append]
        omega
      rw [hindex, List.append_assoc d'] at hcr ⊢
      rw [List.getElem?_append_right (Nat.le_add_right _ _), Nat.add_sub_cancel_left, List.getElem?_cons_succ,
        List.getElem?_append_right (Nat.le_refl _), Nat.sub_self] at hcr
      obtain rfl : b = cr := Option.some.inj hcr
      refine Or.inr ⟨d', rfl, ?_⟩
      rw [List.take_length_add_append, List.take_succ_cons, List.take_left]

/-! ### The event of two lines -/

theorem stripCr_append {a b : Bytes} (ha : a.getLast? ≠ some cr) : stripCr (a ++ b) = a ++ stripCr b := by
  rw [stripCr, stripCr]
  cases b using List.reverseRecOn with
  | nil =>
    rw [List.append_nil, if_neg ha]
    exact (List.append_nil a).symm
  | append_singleton b x =>
    rw [← List.append_assoc, List.getLast?_concat, List.getLast?_concat, List.dropLast_concat, List.dropLast_concat]
    split_ifs
    · rfl
    · exact List.append_assoc ..

theorem exists_stripCr (value : Bytes) : ∃ k, value = stripCr value ++ List.replicate k cr := by
  rw [stripCr]
  split_ifs with h
  · refine ⟨1, ?_⟩
    obtain ⟨front, rfl⟩ := List.getLast?_eq_some_iff.mp h
    rw [List.dropLast_concat]
    rfl
  · exact ⟨0, (List.append_nil _).symm⟩

theorem lineFields_field {name value : Bytes} (hne : name ≠ []) (hcolon : 58 ∉ name) :
    lineFields [stripCr (name ++ 58 :: 32 :: value)] = [(name, stripCr value)] := by
  have hstrip : stripCr (name ++ 58 :: 32 :: value) = name ++ 58 :: 32 :: stripCr value := by
    have hlast : (name ++ [58, 32]).getLast? ≠ some cr := by
      rw [List.getLast?_append_cons]
      decide
    have h := @stripCr_append (name ++ [58, 32]) value hlast
    rwa [List.append_assoc, List.append_assoc] at h
  obtain ⟨b, name, rfl⟩ := List.exists_cons_of_ne_nil hne
  have hb : b ≠ 58 := fun hb => hcolon (hb ▸ List.mem_cons_self)
  rw [hstrip, lineFields, List.filter_cons, List.filter_nil, if_pos, List.map_singleton, splitField_line hcolon]
  simp [hb]

variable {data : Bytes}

theorem valuesOf_twoFields {more : List Bytes} {block : Bytes} (hlead : MayLead lead)
    (hlines : block.splitOn lf = lead.map (fun _ => []) ++ (ascii "event" ++ 58 :: 32 :: name) ::
      (ascii "data" ++ 58 :: 32 :: data) :: more)
    (hmore : ∀ l ∈ more, ∀ b ∈ l.head?, b ≠ 100 ∧ b ≠ 101) :
    valuesOf (ascii "event") (fields block) = [stripCr name] ∧
      valuesOf (ascii "data") (fields block) = [stripCr data] := by
  have hfields : fields block = (ascii "event", stripCr name) :: (ascii "data", stripCr data) ::
      lineFields (more.map stripCr) := by
    have hempty : lineFields ((lead.map fun _ => ([] : Bytes)).map stripCr) = [] := by
      obtain rfl | rfl := hlead <;> rfl
    show lineFields ((block.splitOn lf).map stripCr) = _
    have hcons (line : Bytes) (lines : List Bytes) : lineFields (line :: lines) = lineFields [line] ++ lineFields lines :=
      lineFields_append [line] lines
    rw [hlines, List.map_append, lineFields_append, hempty, List.nil_append, List.map_cons, List.map_cons, hcons,
      lineFields_field (by decide) (by decide), hcons, lineFields_field (by decide) (by decide)]
    rfl
  have hnot : ¬ascii "data" = ascii "event" := by decide
  have hnot' : ¬ascii "event" = ascii "data" := by decide
  rw [hfields]
  constructor
  · rw [valuesOf, List.filter_cons, List.filter_cons, if_pos (by rfl), if_neg (by simpa using hnot), List.map_cons]
    exact congrArg _ (valuesOf_fieldless hmore (Or.inl rfl))
  · rw [valuesOf, List.filter_cons, List.filter_cons, if_neg (by simpa using hnot'), if_pos (by rfl), List.map_cons]
    exact congrArg _ (valuesOf_fieldless hmore (Or.inr rfl))

theorem meaning_of_values {raw name data : Bytes} (hname : valuesOf (ascii "event") (fields (body raw)) = [name])
    (hdata : valuesOf (ascii "data") (fields (body raw)) = [data]) {eventName : String}
    (hutf8 : fromUtf8? name = some eventName) : meaning raw = some (.ok ⟨some eventName, data⟩) := by
  have hnames : eventNames (body raw) = [some eventName] := by
    rw [eventNames, hname, ← hutf8]
    rfl
  have hlines : dataLines (body raw) = [data] := hdata
  obtain ⟨hbad, -⟩ | ⟨-, hparse⟩ := parseEventBlock_spec (body raw)
  · rw [hnames, List.mem_singleton] at hbad
    cases hbad
  · rw [hnames, hlines, if_neg (List.cons_ne_nil _ _)] at hparse
    rw [meaning, hparse]
    simp [List.reduceOption]

theorem splitOn_lead {tail : Bytes} (hlead : MayLead lead) (he : lf ∉ e) :
    (lead ++ e ++ lf :: tail).splitOn lf = lead.map (fun _ => []) ++ e :: tail.splitOn lf := by
  have hline : (e ++ lf :: tail).splitOn lf = e :: tail.splitOn lf := by
    rw [List.splitOn_append_cons_self, List.splitOn_eq_singleton he]
    rfl
  obtain rfl | rfl := hlead
  · exact hline
  · show ([] ++ lf :: (e ++ lf :: tail)).splitOn lf = _
    rw [List.splitOn_append_cons_self, hline]
    rfl

theorem fieldless_drop {front : Bytes} (hfirst : terminator.first (front ++ lf :: rest) = some n)
    (hn : front.length + 2 ≤ n) (hrest : Fieldless rest) : Fieldless ((front ++ lf :: rest).drop n) := by
  obtain ⟨m, rfl⟩ : ∃ m, n = front.length + (m + 1 + 1) := ⟨n - front.length - 2, by omega⟩
  obtain ⟨pos, t, hat, hpos, -⟩ := exists_terminatorAt hfirst
  have hlast := getElem?_of_terminatorAt hat
  rw [show pos = front.length + (m + 1) by omega, List.getElem?_append_right (Nat.le_add_right _ _),
    Nat.add_sub_cancel_left, List.getElem?_cons_succ] at hlast
  obtain ⟨hlt, hget⟩ := List.getElem?_eq_some_iff.mp hlast
  rw [List.drop_length_add_append, List.drop_succ_cons]
  rw [Fieldless, ← List.take_append_drop m rest, List.drop_eq_getElem_cons hlt, hget] at hrest
  exact hrest.behind

theorem lines_twoFields (hlead : MayLead lead) (he : lf ∉ e) (he' : 3 ≤ e.length) (hdata : lf ∉ data)
    (hrest : Fieldless rest)
    (hfirst : terminator.first (lead ++ e ++ lf :: (ascii "data" ++ 58 :: 32 :: data ++ lf :: rest)) = some n) :
    ∃ data' k more, data = data' ++ List.replicate k cr ∧ (∀ l ∈ more, ∀ b ∈ l.head?, b ≠ 100 ∧ b ≠ 101) ∧
      (body ((lead ++ e ++ lf :: (ascii "data" ++ 58 :: 32 :: data ++ lf :: rest)).take n)).splitOn lf =
        lead.map (fun _ => []) ++ e :: (ascii "data" ++ 58 :: 32 :: data') :: more := by
  have hd : lf ∉ ascii "data" ++ 58 :: 32 :: data := not_mem_field (by decide) hdata (by decide) (by decide)
  have hlong : 3 ≤ (ascii "data" ++ 58 :: 32 :: data).length := by
    rw [List.length_append, List.length_cons, List.length_cons, show (ascii "data").length = 4 by decide]
    omega
  obtain ⟨-, ⟨k, hbody⟩ | ⟨d', hd', hbody⟩⟩ := body_twoFields hlead he he' hd hlong hfirst
  · rw [hbody, splitOn_lead hlead he]
    cases k with
    | zero =>
      refine ⟨data, 0, [], (List.append_nil _).symm, fun l hl => absurd hl List.not_mem_nil, ?_⟩
      rw [List.take_zero, List.append_nil, List.splitOn_eq_singleton hd]
    | succ k =>
      have hleft : Fieldless (rest.take k) := by
        rw [Fieldless, ← List.take_append_drop k rest] at hrest
        exact hrest.left
      refine ⟨data, 0, (rest.take k).splitOn lf, (List.append_nil _).symm, fun l hl => hleft.of_mem_splitOn hl, ?_⟩
      rw [List.take_succ_cons, List.splitOn_append_cons_self, List.splitOn_eq_singleton hd, List.singleton_append]
  · obtain ⟨data', rfl⟩ : ∃ data', data = data' ++ [cr] := by
      have hlast := congrArg List.getLast? hd'
      rw [List.getLast?_concat, List.getLast?_append_cons, List.getLast?_cons_cons] at hlast
      cases data using List.reverseRecOn with
      | nil => cases hlast
      | append_singleton data b =>
        rw [← List.cons_append, List.getLast?_concat] at hlast
        obtain rfl := Option.some.inj hlast
        exact ⟨data, rfl⟩
    have heq : ascii "data" ++ 58 :: 32 :: data' = d' := by
      have hsame : (ascii "data" ++ 58 :: 32 :: data') ++ [cr] = d' ++ [cr] := by
        rw [← hd', List.append_assoc]
        rfl
      exact List.append_cancel_right hsame
    refine ⟨data', 1, [], rfl, fun l hl => absurd hl List.not_mem_nil, ?_⟩
    have hnot : lf ∉ d' := fun hmem => hd (hd' ▸ List.mem_append_left _ hmem)
    rw [hbody, splitOn_lead hlead he, List.splitOn_eq_singleton hnot, heq]

/-- A name line and a data line with lines without fields behind them are one event, with the data line less
some carriage returns at its end. -/
theorem frames_twoFields {eventName : String} (hlead : MayLead lead) (hname : lf ∉ name)
    (hdata : lf ∉ data) (hutf8 : fromUtf8? (stripCr name) = some eventName) (hrest : Fieldless rest)
    (hends : (terminator.first (lead ++ (ascii "event" ++ 58 :: 32 :: name) ++
      lf :: (ascii "data" ++ 58 :: 32 :: data ++ lf :: rest))).isSome) :
    ∃ value k, data = value ++ List.replicate k cr ∧
      (terminator.frames (lead ++ (ascii "event" ++ 58 :: 32 :: name) ++
        lf :: (ascii "data" ++ 58 :: 32 :: data ++ lf :: rest))).filterMap meaning =
          [.ok ⟨some eventName, value⟩] := by
  obtain ⟨n, hfirst⟩ := Option.isSome_iff_exists.mp hends
  have he : lf ∉ ascii "event" ++ 58 :: 32 :: name := not_mem_field (by decide) hname (by decide) (by decide)
  have hd : lf ∉ ascii "data" ++ 58 :: 32 :: data := not_mem_field (by decide) hdata (by decide) (by decide)
  have helong : 3 ≤ (ascii "event" ++ 58 :: 32 :: name).length := by
    rw [List.length_append, show (ascii "event").length = 5 by decide]
    omega
  have hdlong : 3 ≤ (ascii "data" ++ 58 :: 32 :: data).length := by
    rw [List.length_append, show (ascii "data").length = 4 by decide, List.length_cons]
    omega
  have hn := (body_twoFields hlead he helong hd hdlong hfirst).1
  obtain ⟨data', k, more, rfl, hmore, hlines⟩ := lines_twoFields hlead he helong hdata hrest hfirst
  obtain ⟨hnames, hvalues⟩ := valuesOf_twoFields hlead hlines hmore
  obtain ⟨k', hk'⟩ := exists_stripCr data'
  refine ⟨stripCr data', k' + k, ?_, ?_⟩
  · rw [← List.replicate_append_replicate, ← List.append_assoc, ← hk']
  · rw [FrameRule.frames_of_some hfirst, List.filterMap_cons_some (meaning_of_values hnames hvalues hutf8)]
    have hsplit : lead ++ (ascii "event" ++ 58 :: 32 :: name) ++ lf ::
        (ascii "data" ++ 58 :: 32 :: (data' ++ List.replicate k cr) ++ lf :: rest) =
          (lead ++ (ascii "event" ++ 58 :: 32 :: name) ++ lf ::
            (ascii "data" ++ 58 :: 32 :: (data' ++ List.replicate k cr))) ++ lf :: rest :=
      (List.append_assoc _ (lf :: _) _).symm
    rw [hsplit] at hfirst ⊢
    refine congrArg _ (frames_fieldless (fieldless_drop hfirst ?_ hrest))
    rw [List.length_append, List.length_append, List.length_cons]
    omega

/-! ### What is left -/

/-- Bytes that end with a blank line have a block. -/
theorem isSome_first (front : Bytes) : (terminator.first (front ++ [lf, lf])).isSome := by
  by_contra hnone
  rw [Option.not_isSome_iff_eq_none] at hnone
  have hmiss := List.findSome?_eq_none_iff.mp (SseFramer.first_eq_none hnone) (front.length + 1)
    (List.mem_range.mpr (by rw [List.length_append]; exact Nat.lt_succ_self _))
  have hat (i : ℕ) (hi : i ≤ 1) : (front ++ [lf, lf])[front.length + i]? = some lf := by
    rw [List.getElem?_append_right (Nat.le_add_right _ _), Nat.add_sub_cancel_left]
    obtain rfl | rfl : i = 0 ∨ i = 1 := by omega
    · rfl
    · rfl
  rw [terminatorAt, if_neg (not_not.mpr (hat 1 (Nat.le_refl 1))), if_neg (Nat.succ_ne_zero _), Nat.add_sub_cancel,
    if_pos (show (front ++ [lf, lf])[front.length]? = some lf from hat 0 (Nat.zero_le 1))] at hmiss
  cases hmiss

theorem mayLead_rest (front : Bytes) : MayLead (terminator.rest (front ++ [lf, lf])) := by
  have hnone := terminator.first_rest (front ++ [lf, lf])
  have hsplit := terminator.flatten_frames (front ++ [lf, lf])
  generalize terminator.rest (front ++ [lf, lf]) = left at hnone hsplit
  rcases List.append_eq_append_iff.mp hsplit with ⟨z, -, rfl⟩ | ⟨z, -, hz⟩
  · have hsome := isSome_first z
    rw [hnone] at hsome
    cases hsome
  · obtain ⟨-, hleft⟩ | ⟨z', rfl, hz'⟩ := List.cons_eq_append_iff.mp hz
    · have hsome := isSome_first []
      rw [List.nil_append, ← hleft, hnone] at hsome
      cases hsome
    · obtain ⟨-, hleft⟩ | ⟨z'', rfl, hz''⟩ := List.cons_eq_append_iff.mp hz'
      · exact Or.inr hleft
      · exact Or.inl (List.append_eq_nil_iff.mp hz''.symm).2

end Headroom.Sse
