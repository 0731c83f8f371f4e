import Headroom.Foundation.LineStarts
import Headroom.Sse.Framing

/-!
# The names of events are written in the stream

The name of an event stands in one line of the bytes that the event was read from.
-/

open Foundation

namespace Headroom.Sse

theorem infix_of_mem_splitOn {piece bytes : Bytes} (h : piece ∈ bytes.splitOn lf) :
    lf ∉ piece ∧ piece <:+: bytes := by
  induction hn : bytes.length using Nat.strong_induction_on generalizing bytes with
  | h n ih =>
    obtain hnot | ⟨front, back, rfl, hfront⟩ := LinesBegin.exists_line lf bytes
    · rw [List.splitOn_eq_singleton hnot, List.mem_singleton] at h
      rw [h]
      exact ⟨hnot, List.infix_rfl⟩
    · rw [List.splitOn_append_cons_self, List.splitOn_eq_singleton hfront, List.singleton_append, List.mem_cons] at h
      obtain rfl | h := h
      · exact ⟨hfront, (List.prefix_append piece _).isInfix⟩
      · rw [List.length_append, List.length_cons] at hn
        obtain ⟨hnot, hinside⟩ := ih back.length (by omega) h rfl
        exact ⟨hnot, hinside.trans ((List.suffix_cons lf back).trans (List.suffix_append front _)).isInfix⟩

theorem stripCr_prefix_line (line : Bytes) : stripCr line <+: line := by
  rw [stripCr]
  split_ifs
  · exact List.dropLast_prefix line
  · exact List.prefix_rfl

theorem splitField_suffix_line (line : Bytes) : (splitField line).2 <:+ line := by
  have hvalue : (line.drop (splitField line).1.length).tail <:+ line :=
    (List.tail_suffix _).trans (List.drop_suffix _ _)
  rw [splitField]
  dsimp only
  split_ifs
  · exact (List.tail_suffix _).trans hvalue
  · exact hvalue

theorem body_prefix_raw (raw : Bytes) : body raw <+: raw := by
  rw [body]
  split
  · exact List.take_prefix _ _
  · exact List.prefix_rfl

theorem eventName_written {raw : Bytes} {event : SseEvent} (h : meaning raw = some (.ok event)) {name : String}
    (hname : event.eventName = some name) : lf ∉ utf8 name ∧ utf8 name <:+: raw := by
  rw [meaning] at h
  obtain ⟨-, e, hparse⟩ | ⟨-, hparse⟩ := parseEventBlock_spec (body raw)
  · rw [hparse] at h
    cases h
  rw [hparse] at h
  split_ifs at h
  · cases h
  obtain rfl := Except.ok.inj (Option.some.inj h)
  have hmem : some name ∈ eventNames (body raw) :=
    List.reduceOption_mem_iff.mp (List.mem_of_getLast? hname)
  obtain ⟨value, hvalue, hutf8⟩ := List.mem_map.mp hmem
  obtain ⟨p, hp, rfl⟩ := List.mem_map.mp hvalue
  obtain ⟨line, hline, rfl⟩ := List.mem_map.mp (List.mem_filter.mp hp).1
  obtain ⟨l, hl, rfl⟩ := List.mem_map.mp (List.mem_filter.mp hline).1
  obtain ⟨hnot, hinside⟩ := infix_of_mem_splitOn hl
  have hpart : (splitField (stripCr l)).2 <:+: l :=
    (splitField_suffix_line _).isInfix.trans (stripCr_prefix_line l).isInfix
  rw [← eq_utf8_of_fromUtf8? hutf8]
  exact ⟨fun hlf => hnot (hpart.subset hlf), hpart.trans (hinside.trans (body_prefix_raw raw).isInfix)⟩

theorem exists_frame {bytes : Bytes} {result : Except FramingError SseEvent}
    (h : result ∈ (terminator.frames bytes).filterMap meaning) : ∃ raw, meaning raw = some result ∧ raw <:+: bytes := by
  obtain ⟨raw, hraw, hmeaning⟩ := List.mem_filterMap.mp h
  refine ⟨raw, hmeaning, ?_⟩
  rw [← terminator.flatten_frames bytes]
  exact (List.infix_of_mem_flatten hraw).trans (List.prefix_append _ _).isInfix

end Headroom.Sse
