import Headroom.Sse.BlankLines

/-!
# Mixed line endings

A stream whose lines end partly with line feeds and partly with carriage returns and line feeds is cut like the
one with line feeds only, but for one case: a lone empty line that ends with a carriage return and a line feed,
behind a line that ends with a line feed alone, is not seen. The paragraphs on both sides of it are then one
block, and behind the last of them nothing comes out at all.

## Main statements

* `lineEndings_iff` : mixed endings change no event exactly in the harmless streams.
-/

open Foundation

namespace Headroom.Sse

/-! ### Paragraphs -/

/-- What stands behind the last line with a text: nothing, an empty line that is not seen, or one that is. -/
inductive Gap
  | text (crlf : Bool)
  | unseen
  | closed

/-- The paragraphs that are complete while the lines behind them are not seen to end the block. -/
def complete (joined : List (List Bytes)) (paragraph : List Bytes) : Gap → List (List Bytes)
  | .text _ => joined
  | .unseen => joined ++ [paragraph]
  | .closed => []

/-- The paragraphs of lines, those together that no line seen as blank divides, and the complete ones behind
the last such line. -/
def runs (joined : List (List Bytes)) (paragraph : List Bytes) (gap : Gap) :
    List EndedLine → List (List (List Bytes)) × List (List Bytes)
  | [] => ([], complete joined paragraph gap)
  | l :: lines =>
    if l.text = [] then
      match gap with
      | .text p =>
        if seenAsBlank (some p) l.crlf then
          ((joined ++ [paragraph]) :: (runs [] [] .closed lines).1, (runs [] [] .closed lines).2)
        else runs joined paragraph .unseen lines
      | .unseen => ((joined ++ [paragraph]) :: (runs [] [] .closed lines).1, (runs [] [] .closed lines).2)
      | .closed => runs [] [] .closed lines
    else
      match gap with
      | .text _ => runs joined (paragraph ++ [l.text]) (.text l.crlf) lines
      | .unseen => runs (joined ++ [paragraph]) [l.text] (.text l.crlf) lines
      | .closed => runs [] [l.text] (.text l.crlf) lines

variable {lines : List EndedLine} {joined : List (List Bytes)} {paragraph texts texts' : List Bytes}
  {gap : Gap} {before : Option Bool}

theorem say_congr (h : lineFields texts = lineFields texts') : say texts = say texts' := by
  rw [say, say, h]

theorem say_of_empty (h : lineFields texts = []) : say texts = none := by
  rw [say, h]
  rfl

theorem lineFields_concat_empty (texts : List Bytes) : lineFields (texts ++ [[]]) = lineFields texts := by
  rw [lineFields_append, lineFields_empty, List.append_nil]

variable {l : EndedLine}

/-- A line that ends no block is one more line of it. -/
theorem cut_of_text (h : l.text ≠ []) : cut texts before (l :: lines) =
    cut (texts ++ [l.text]) (some l.crlf) lines := by
  rw [cut, if_neg]
  rw [closes, Bool.and_eq_true, List.isEmpty_iff]
  exact fun hc => h hc.1

theorem cut_of_seen (h : l.text = []) (hseen : seenAsBlank before l.crlf) :
    cut texts before (l :: lines) = texts :: cut [] none lines := by
  rw [cut, if_pos]
  rw [closes, h, hseen]
  rfl

theorem cut_of_not_seen (h : l.text = []) (hseen : ¬ seenAsBlank before l.crlf) :
    cut texts before (l :: lines) = cut (texts ++ [[]]) (some l.crlf) lines := by
  rw [cut, if_neg, h]
  rw [closes, Bool.and_eq_true]
  exact fun hc => hseen hc.2

/-- The lines of the block under way, by what stands behind its last text. -/
def UnderWay (joined : List (List Bytes)) (paragraph texts : List Bytes) (before : Option Bool) : Gap → Prop
  | .text p => lineFields texts = lineFields (joined.flatten ++ paragraph) ∧ before = some p
  | .unseen => lineFields texts = lineFields (joined.flatten ++ paragraph) ∧ before = some true
  | .closed => lineFields texts = []

theorem cut_runs (h : UnderWay joined paragraph texts before gap) :
    (cut texts before lines).filterMap say =
      (runs joined paragraph gap lines).1.filterMap fun run => say run.flatten := by
  induction lines generalizing joined paragraph texts before gap with
  | nil => rfl
  | cons l lines ih =>
    have hclosed : ∀ {texts before}, lineFields texts = [] →
        (cut texts before lines).filterMap say =
          (runs [] [] .closed lines).1.filterMap fun run => say run.flatten := fun h => ih h
    have hrun : ∀ {texts}, lineFields texts = lineFields (joined.flatten ++ paragraph) →
        (texts :: cut [] none lines).filterMap say = ((joined ++ [paragraph]) ::
          (runs [] [] .closed lines).1).filterMap fun run => say run.flatten := by
      intro texts htexts
      have hsay : say texts = say (joined ++ [paragraph]).flatten := by
        refine say_congr ?_
        rw [htexts, List.flatten_append, List.flatten_singleton]
      rw [List.filterMap_cons, List.filterMap_cons, hsay, hclosed rfl]
    have hmore : ∀ {joined : List (List Bytes)} {paragraph texts : List Bytes},
        lineFields texts = lineFields (joined.flatten ++ paragraph) →
        lineFields (texts ++ [l.text]) = lineFields (joined.flatten ++ (paragraph ++ [l.text])) := by
      intro joined paragraph texts htexts
      rw [lineFields_append, htexts, ← List.append_assoc, lineFields_append (joined.flatten ++ paragraph)]
    cases gap with
    | text p =>
      obtain ⟨htexts, rfl⟩ := h
      rw [runs]
      split_ifs with htext hseen
      · rw [cut_of_seen htext hseen]
        exact hrun htexts
      · rw [cut_of_not_seen htext hseen]
        have hcrlf : l.crlf = true := by
          rw [seenAsBlank] at hseen
          simp only [Bool.or_eq_true, Bool.not_eq_true', not_or, Bool.not_eq_false] at hseen
          exact hseen.2
        exact ih ⟨(lineFields_concat_empty texts).trans htexts, congrArg some hcrlf⟩
      · rw [cut_of_text htext]
        exact ih ⟨hmore htexts, rfl⟩
    | unseen =>
      obtain ⟨htexts, rfl⟩ := h
      rw [runs]
      split_ifs with htext
      · rw [cut_of_seen htext rfl]
        exact hrun htexts
      · rw [cut_of_text htext]
        refine ih ⟨?_, rfl⟩
        rw [List.flatten_append, List.flatten_singleton]
        exact (hmore htexts).trans (by rw [List.append_assoc])
    | closed =>
      rw [runs]
      split_ifs with htext
      · by_cases hseen : seenAsBlank before l.crlf
        · rw [cut_of_seen htext hseen, List.filterMap_cons_none (say_of_empty h)]
          exact hclosed rfl
        · rw [cut_of_not_seen htext hseen]
          exact hclosed ((lineFields_concat_empty texts).trans h)
      · rw [cut_of_text htext]
        refine ih ⟨?_, rfl⟩
        rw [lineFields_append, show lineFields texts = [] from h]
        rfl

/-- The lines of the block under way when all lines end with line feeds. -/
def UnderWayLf (paragraph texts : List Bytes) (before : Option Bool) : Gap → Prop
  | .text _ => lineFields texts = lineFields paragraph ∧ before.isSome
  | .unseen => lineFields texts = []
  | .closed => lineFields texts = []

theorem cut_withLf_runs (h : UnderWayLf paragraph texts before gap) :
    (complete joined paragraph gap).filterMap say ++
        (cut texts before (lines.map EndedLine.withLf)).filterMap say =
      ((runs joined paragraph gap lines).1.flatten ++ (runs joined paragraph gap lines).2).filterMap say := by
  induction lines generalizing joined paragraph texts before gap with
  | nil =>
    rw [runs, List.map_nil, cut, List.filterMap_nil, List.append_nil]
    rfl
  | cons l lines ih =>
    have hclosed : ∀ {texts before}, lineFields texts = [] →
        (cut texts before (lines.map EndedLine.withLf)).filterMap say =
          ((runs [] [] .closed lines).1.flatten ++ (runs [] [] .closed lines).2).filterMap say :=
      fun h => @ih [] [] _ .closed _ h
    have hseenLf : before.isSome → seenAsBlank before l.withLf.crlf := by
      intro hsome
      obtain ⟨b, rfl⟩ := Option.isSome_iff_exists.1 hsome
      exact Bool.or_true b
    have hrest : ∀ texts, lineFields texts = lineFields paragraph → joined.filterMap say ++
        (texts :: cut [] none (lines.map EndedLine.withLf)).filterMap say =
          (joined ++ [paragraph]).filterMap say ++
            (cut [] none (lines.map EndedLine.withLf)).filterMap say := by
      intro texts htexts
      rw [List.filterMap_append, List.append_assoc, List.filterMap_cons, List.filterMap_cons, say_congr htexts]
      cases say paragraph with
      | none => rfl
      | some e => rfl
    have hsilent : l.text = [] → lineFields texts = [] →
        (cut texts before ((l :: lines).map EndedLine.withLf)).filterMap say =
          ((runs [] [] .closed lines).1.flatten ++ (runs [] [] .closed lines).2).filterMap say := by
      intro htext htexts
      have hempty : l.withLf.text = [] := htext
      rw [List.map_cons]
      by_cases hseen : seenAsBlank before l.withLf.crlf
      · rw [cut_of_seen hempty hseen, List.filterMap_cons_none (say_of_empty htexts)]
        exact hclosed rfl
      · rw [cut_of_not_seen hempty hseen]
        exact hclosed ((lineFields_concat_empty texts).trans htexts)
    have hempty : l.text = [] → l.withLf.text = [] := id
    have htextLf : l.text ≠ [] → cut texts before ((l :: lines).map EndedLine.withLf) =
        cut (texts ++ [l.text]) (some false) (lines.map EndedLine.withLf) :=
      fun htext => by rw [List.map_cons, cut_of_text (show l.withLf.text ≠ [] from htext)]; rfl
    have hmore : ∀ paragraph, lineFields texts = lineFields paragraph →
        lineFields (texts ++ [l.text]) = lineFields (paragraph ++ [l.text]) := by
      intro paragraph htexts
      rw [lineFields_append, htexts, lineFields_append]
    cases gap with
    | text p =>
      obtain ⟨htexts, hbefore⟩ := h
      rw [runs]
      split_ifs with htext hseen
      · rw [List.map_cons, cut_of_seen (hempty htext) (hseenLf hbefore), complete, hrest texts htexts, hclosed rfl,
          ← List.filterMap_append, List.flatten_cons]
        simp only [List.append_assoc]
      · rw [List.map_cons, cut_of_seen (hempty htext) (hseenLf hbefore), complete, hrest texts htexts]
        exact @ih joined paragraph _ .unseen _ rfl
      · rw [htextLf htext]
        exact @ih joined _ _ (.text l.crlf) _ ⟨hmore paragraph htexts, rfl⟩
    | unseen =>
      rw [runs]
      split_ifs with htext
      · rw [hsilent htext h, complete, ← List.filterMap_append, List.flatten_cons]
        simp only [List.append_assoc]
      · rw [htextLf htext]
        exact @ih (joined ++ [paragraph]) _ _ (.text l.crlf) _ ⟨hmore [] h, rfl⟩
    | closed =>
      rw [runs]
      split_ifs with htext
      · exact hsilent htext h
      · rw [htextLf htext]
        exact @ih [] _ _ (.text l.crlf) _ ⟨hmore [] h, rfl⟩

/-! ### Joined paragraphs -/

/-- The names in lines, each as far as it is UTF-8. -/
def namesIn (texts : List Bytes) : List (Option String) :=
  (valuesOf (ascii "event") (lineFields texts)).map fromUtf8?

/-- The values of the data lines. -/
def dataIn (texts : List Bytes) : List Bytes := valuesOf (ascii "data") (lineFields texts)

/-- The name in force at the end of lines. -/
def nameIn (texts : List Bytes) : Option String := (namesIn texts).reduceOption.getLast?

/-- A name of the lines is not UTF-8. -/
def Fails (texts : List Bytes) : Prop := none ∈ namesIn texts

/-- The lines come out as an event or as an error. -/
def Speaks (texts : List Bytes) : Prop := Fails texts ∨ dataIn texts ≠ []

/-- Joined paragraphs of which at most one speaks, with a name of its own unless it fails. -/
def Quiet (run : List (List Bytes)) : Prop :=
  (∀ texts ∈ run, ¬ Speaks texts) ∨
    ∃ front texts back, run = front ++ texts :: back ∧ Speaks texts ∧
      (∀ silent ∈ front ++ back, ¬ Speaks silent) ∧ (Fails texts ∨ nameIn run.flatten = nameIn texts)

theorem valuesOf_append (name : Bytes) (pairs pairs' : List (Bytes × Bytes)) :
    valuesOf name (pairs ++ pairs') = valuesOf name pairs ++ valuesOf name pairs' := by
  rw [valuesOf, List.filter_append, List.map_append]
  rfl

theorem namesIn_append (texts texts' : List Bytes) :
    namesIn (texts ++ texts') = namesIn texts ++ namesIn texts' := by
  rw [namesIn, lineFields_append, valuesOf_append, List.map_append]
  rfl

theorem dataIn_append (texts texts' : List Bytes) :
    dataIn (texts ++ texts') = dataIn texts ++ dataIn texts' := by
  rw [dataIn, lineFields_append, valuesOf_append]
  rfl

/-- What lines come out as. -/
theorem say_spec (texts : List Bytes) :
    (Fails texts ∧ ∃ e, Fields.add {} (lineFields texts) = .error e ∧ say texts = some (.error e)) ∨
    (¬ Fails texts ∧ say texts = if dataIn texts = [] then none
      else some (.ok ⟨nameIn texts, [lf].intercalate (dataIn texts)⟩)) := by
  have hempty : Fields.Ordered {} := ⟨fun h => absurd h (by simp)⟩
  rcases Fields.add_spec hempty (lineFields texts) with ⟨hfails, e, he⟩ | ⟨hgood, f, hf, -, hdata, hname⟩
  · refine Or.inl ⟨hfails, e, he, ?_⟩
    rw [say, he]
  · refine Or.inr ⟨hgood, ?_⟩
    have hdata' : f.data = dataIn texts := hdata
    have hname' : f.eventName = nameIn texts := hname.trans Option.or_none
    rw [say, hf]
    show (if f.data = [] then none else some _).map Except.ok = _
    rw [hdata', hname']
    split_ifs
    · rfl
    · rfl

theorem say_eq_none_iff (texts : List Bytes) : say texts = none ↔ ¬ Speaks texts := by
  rcases say_spec texts with ⟨hfails, e, -, hsay⟩ | ⟨hgood, hsay⟩
  · rw [hsay]
    exact iff_of_false nofun (not_not.2 (Or.inl hfails))
  · rw [hsay, Speaks, not_or]
    split_ifs with hdata
    · exact iff_of_true rfl ⟨hgood, not_not.2 hdata⟩
    · exact iff_of_false nofun fun h => h.2 hdata

theorem speaks_flatten {run : List (List Bytes)} : Speaks run.flatten ↔ ∃ texts ∈ run, Speaks texts := by
  induction run with
  | nil =>
    refine iff_of_false ?_ fun ⟨texts, h, _⟩ => absurd h List.not_mem_nil
    rintro (h | h)
    · exact absurd h List.not_mem_nil
    · exact h rfl
  | cons texts run ih =>
    rw [List.flatten_cons, List.exists_mem_cons_iff, ← ih, Speaks, Speaks, Speaks, Fails, Fails, Fails,
      namesIn_append, List.mem_append, dataIn_append, Ne, List.append_eq_nil_iff]
    tauto

theorem add_error {f : Fields} {pairs : List (Bytes × Bytes)} {e : FramingError}
    (h : f.add pairs = .error e) (f' : Fields) : f'.add pairs = .error e := by
  induction pairs generalizing f f' with
  | nil => exact absurd h nofun
  | cons p pairs ih =>
    by_cases hevent : p.1 = ascii "event"
    · cases hname : fromUtf8? p.2 with
      | none =>
        simp only [Fields.add, List.foldlM_cons, hevent, if_true, hname, bind, Except.bind] at h ⊢
        exact h
      | some name =>
        simp only [Fields.add, List.foldlM_cons, hevent, if_true, hname, bind, Except.bind] at h ⊢
        exact ih h _
    · by_cases hdata : p.1 = ascii "data"
      · simp only [Fields.add, List.foldlM_cons, hdata, if_true, bind, Except.bind] at h ⊢
        exact ih h _
      · simp only [Fields.add, List.foldlM_cons, hevent, if_false, hdata, bind, Except.bind] at h ⊢
        exact ih h _
theorem add_append (f : Fields) (pairs pairs' : List (Bytes × Bytes)) :
    f.add (pairs ++ pairs') = (f.add pairs).bind fun f' => f'.add pairs' := List.foldlM_append

/-- Among silent paragraphs one that fails comes out as on its own, and one with data does so if the name in
force is its own. -/
theorem say_flatten_eq_iff {front back : List (List Bytes)} (hspeaks : Speaks texts)
    (hsilent : ∀ silent ∈ front ++ back, ¬ Speaks silent) :
    say (front ++ texts :: back).flatten = say texts ↔
      Fails texts ∨ nameIn (front ++ texts :: back).flatten = nameIn texts := by
  have hfront : ¬ Speaks front.flatten := fun h => by
    obtain ⟨silent, hmem, hs⟩ := speaks_flatten.1 h
    exact hsilent silent (List.mem_append_left _ hmem) hs
  have hback : ¬ Speaks back.flatten := fun h => by
    obtain ⟨silent, hmem, hs⟩ := speaks_flatten.1 h
    exact hsilent silent (List.mem_append_right _ hmem) hs
  have hjoin : (front ++ texts :: back).flatten = front.flatten ++ (texts ++ back.flatten) := by
    rw [List.flatten_append, List.flatten_cons]
  rw [Speaks, not_or, not_not] at hfront hback
  have hdata : dataIn (front ++ texts :: back).flatten = dataIn texts := by
    rw [hjoin, dataIn_append, dataIn_append, hfront.2, hback.2, List.nil_append, List.append_nil]
  have hfails : Fails (front ++ texts :: back).flatten ↔ Fails texts := by
    rw [hjoin, Fails, namesIn_append, namesIn_append, List.mem_append, List.mem_append]
    exact ⟨fun h => (h.resolve_left hfront.1).resolve_right hback.1, fun h => Or.inr (Or.inl h)⟩
  rcases say_spec texts with ⟨hfail, e, he, hsay⟩ | ⟨hgood, hsay⟩
  · refine iff_of_true ?_ (Or.inl hfail)
    rw [hsay]
    have hwhole : Fields.add {} (lineFields (front ++ texts :: back).flatten) = .error e := by
      rw [hjoin, lineFields_append, lineFields_append, add_append]
      have hempty : Fields.Ordered {} := ⟨fun h => absurd h (by simp)⟩
      rcases Fields.add_spec hempty (lineFields front.flatten) with ⟨hbad, -⟩ | ⟨-, f, hf, -⟩
      · exact absurd hbad hfront.1
      · rw [hf]
        show f.add (lineFields texts ++ lineFields back.flatten) = _
        rw [add_append, add_error he f]
        rfl
    rw [say, hwhole]
  · rcases say_spec (front ++ texts :: back).flatten with ⟨hbad, -⟩ | ⟨-, hwhole⟩
    · exact absurd (hfails.1 hbad) hgood
    · have hsome : dataIn texts ≠ [] := hspeaks.resolve_left hgood
      rw [hsay, hwhole, hdata, if_neg hsome, if_neg hsome, or_iff_right hgood]
      simp only [Option.some.injEq, Except.ok.injEq, SseEvent.mk.injEq, and_true]

theorem filterMap_say_eq_nil {run : List (List Bytes)} :
    run.filterMap say = [] ↔ ∀ texts ∈ run, ¬ Speaks texts := by
  rw [List.filterMap_eq_nil_iff]
  exact forall₂_congr fun texts _ => say_eq_none_iff texts

/-- What joined paragraphs with a speaking one come out as on their own. -/
theorem filterMap_say_append {front back : List (List Bytes)} {e : Except FramingError SseEvent}
    (h : say texts = some e) : (front ++ texts :: back).filterMap say =
      front.filterMap say ++ e :: back.filterMap say := by
  rw [List.filterMap_append, List.filterMap_cons_some h]

theorem exists_say (h : Speaks texts) : ∃ e, say texts = some e :=
  Option.ne_none_iff_exists'.1 fun hnone => (say_eq_none_iff texts).1 hnone h

theorem quiet_iff (run : List (List Bytes)) :
    run.filterMap say = (say run.flatten).toList ↔ Quiet run := by
  constructor
  · intro h
    by_cases hnone : ∀ texts ∈ run, ¬ Speaks texts
    · exact Or.inl hnone
    · obtain ⟨texts, hmem, hspeaks⟩ : ∃ texts ∈ run, Speaks texts := by
        by_contra hcontra
        exact hnone fun texts hmem hspeaks => hcontra ⟨texts, hmem, hspeaks⟩
      obtain ⟨front, back, rfl⟩ := List.append_of_mem hmem
      obtain ⟨e, he⟩ := exists_say hspeaks
      rw [filterMap_say_append he] at h
      -- At most one thing comes out, so the others are silent.
      have hlength := congrArg List.length h
      have hone := Option.length_toList_le (o := say (front ++ texts :: back).flatten)
      rw [List.length_append, List.length_cons] at hlength
      have hfront : front.filterMap say = [] := List.eq_nil_of_length_eq_zero (by omega)
      have hback : back.filterMap say = [] := List.eq_nil_of_length_eq_zero (by omega)
      have hsilent : ∀ silent ∈ front ++ back, ¬ Speaks silent :=
        List.forall_mem_append.2 ⟨filterMap_say_eq_nil.1 hfront, filterMap_say_eq_nil.1 hback⟩
      rw [hfront, hback, List.nil_append] at h
      refine Or.inr ⟨front, texts, back, rfl, hspeaks, hsilent, (say_flatten_eq_iff hspeaks hsilent).1 ?_⟩
      have hmem : e ∈ (say (front ++ texts :: back).flatten).toList := by
        rw [← h]
        exact List.mem_singleton_self e
      rw [he]
      exact Option.mem_toList.1 hmem
  · rintro (hnone | ⟨front, texts, back, rfl, hspeaks, hsilent, hname⟩)
    · have hflatten : say run.flatten = none := by
        rw [say_eq_none_iff, speaks_flatten]
        rintro ⟨texts, hmem, hspeaks⟩
        exact hnone texts hmem hspeaks
      rw [filterMap_say_eq_nil.2 hnone, hflatten]
      rfl
    · obtain ⟨e, he⟩ := exists_say hspeaks
      obtain ⟨hfront, hback⟩ := List.forall_mem_append.1 hsilent
      rw [(say_flatten_eq_iff hspeaks hsilent).2 hname, filterMap_say_append he,
        filterMap_say_eq_nil.2 hfront, filterMap_say_eq_nil.2 hback, he]
      rfl

theorem length_say_flatten_le (run : List (List Bytes)) :
    (say run.flatten).toList.length ≤ (run.filterMap say).length := by
  by_cases hspeaks : Speaks run.flatten
  · obtain ⟨texts, hmem, hs⟩ := speaks_flatten.1 hspeaks
    obtain ⟨e, he⟩ := exists_say hs
    have hin : e ∈ run.filterMap say := List.mem_filterMap.2 ⟨texts, hmem, he⟩
    exact le_trans Option.length_toList_le (List.length_pos_of_mem hin)
  · rw [(say_eq_none_iff _).2 hspeaks]
    exact Nat.zero_le _

theorem flatMap_append_eq_iff {α β : Type*} {f g : α → List β} (hle : ∀ a, (g a).length ≤ (f a).length)
    (as : List α) (rest : List β) :
    as.flatMap f ++ rest = as.flatMap g ↔ (∀ a ∈ as, f a = g a) ∧ rest = [] := by
  induction as with
  | nil => exact ⟨fun h => ⟨nofun, h⟩, fun h => h.2⟩
  | cons a as ih =>
    have hshort : ∀ as : List α, (as.flatMap g).length ≤ (as.flatMap f).length := by
      intro as
      induction as with
      | nil => exact le_rfl
      | cons a as ih =>
        rw [List.flatMap_cons, List.flatMap_cons, List.length_append, List.length_append]
        exact Nat.add_le_add (hle a) ih
    rw [List.flatMap_cons, List.flatMap_cons, List.append_assoc, List.forall_mem_cons, and_assoc, ← ih]
    constructor
    · intro h
      have hlength := congrArg List.length h
      rw [List.length_append, List.length_append, List.length_append] at hlength
      have ha := hle a
      have has := hshort as
      exact List.append_inj h (by omega)
    · rintro ⟨ha, has⟩
      rw [ha, has]

/-! ### The events of a stream -/

/-- No empty line that is not seen joins paragraphs that would then come out otherwise. -/
def Harmless (s : Bytes) : Prop :=
  (∀ run ∈ (runs [] [] .closed (linesOf s).1).1, Quiet run) ∧
    ∀ texts ∈ (runs [] [] .closed (linesOf s).1).2, ¬ Speaks texts

theorem run_render {calls : List (FrameRule.Call UInt8)} {behind : Bytes} (hlines : ∀ l ∈ lines, l.Clean)
    (hbehind : lf ∉ behind) (h : FrameRule.arrived calls = render lines ++ behind) :
    (SseFramer.new.run SseFramer.nextEvent (SseFramer.toEnd calls)).1 =
      (cut [] none lines).filterMap say := by
  rw [SseFramer.run_toEnd SseFramer.nextEvent_pulls, h]
  have hno : NoClose [] := fun i l hget => absurd hget nofun
  have hnil : ∀ l ∈ ([] : List EndedLine), l.Clean := nofun
  exact frames_render hnil hlines hbehind hno

/-- A stream in which every carriage return is followed by a line feed has the events of the stream with line
feeds only exactly if it is harmless. -/
theorem lineEndings_iff {calls calls' : List (FrameRule.Call UInt8)} (hcrlf : CrLf (FrameRule.arrived calls))
    (hlf : FrameRule.arrived calls' = lfOnly (FrameRule.arrived calls)) :
    (SseFramer.new.run SseFramer.nextEvent (SseFramer.toEnd calls)).1 =
        (SseFramer.new.run SseFramer.nextEvent (SseFramer.toEnd calls')).1 ↔
      Harmless (FrameRule.arrived calls) := by
  obtain ⟨hlines, hbehind, -⟩ := clean_linesOf hcrlf
  have hclean : ∀ l ∈ (linesOf (FrameRule.arrived calls)).1.map EndedLine.withLf, l.Clean := by
    intro l hl
    obtain ⟨l', hl', rfl⟩ := List.mem_map.1 hl
    exact hlines l' hl'
  have hstart : UnderWay [] [] [] none .closed := show lineFields [] = [] from rfl
  have hstartLf : UnderWayLf [] [] none .closed := show lineFields [] = [] from rfl
  rw [run_render hlines hbehind (render_linesOf _).symm,
    run_render hclean hbehind (hlf.trans (lfOnly_eq _)), cut_runs hstart, Harmless]
  generalize (linesOf (FrameRule.arrived calls)).1 = lines at *
  have hsplit : (complete [] [] .closed).filterMap say ++ (cut [] none (lines.map EndedLine.withLf)).filterMap
      say = ((runs [] [] .closed lines).1.flatten ++ (runs [] [] .closed lines).2).filterMap say :=
    cut_withLf_runs hstartLf
  rw [complete, List.filterMap_nil, List.nil_append] at hsplit
  rw [hsplit, eq_comm, List.filterMap_append, List.filterMap_flatten, ← List.flatMap_def,
    List.filterMap_eq_flatMap_toList (fun run : List (List Bytes) => say run.flatten),
    flatMap_append_eq_iff length_say_flatten_le]
  exact and_congr (forall₂_congr fun run _ => quiet_iff run) filterMap_say_eq_nil

/-- An event whose lines all end with a carriage return and a line feed. -/
theorem lineEndings_crlf_event :
    (SseFramer.new.run SseFramer.nextEvent
        (SseFramer.toEnd [.push (ascii "data: a\r"), .push (ascii "\n\r\n")])).1 =
      (SseFramer.new.run SseFramer.nextEvent (SseFramer.toEnd [.push (ascii "data: a\n\n")])).1 ↔
    Harmless (ascii "data: a\r\n\r\n") :=
  have hcrlf : CrLf (FrameRule.arrived [.push (ascii "data: a\r"), .push (ascii "\n\r\n")]) := by
    decide +kernel
  lineEndings_iff hcrlf (by decide +kernel)

/-- Two events whose first ends with a line feed and whose blank line between them ends with a carriage return
and a line feed come out as one. -/
theorem unseen_blank_line :
    ¬ ∀ calls calls' : List (FrameRule.Call UInt8), CrLf (FrameRule.arrived calls) →
      FrameRule.arrived calls' = lfOnly (FrameRule.arrived calls) →
      (SseFramer.new.run SseFramer.nextEvent (SseFramer.toEnd calls)).1 =
        (SseFramer.new.run SseFramer.nextEvent (SseFramer.toEnd calls')).1 := by
  intro h
  have hsame := h [.push (ascii "data: a\n\r\ndata: b\n\n")] [.push (ascii "data: a\n\ndata: b\n\n")]
    (by decide +kernel) (by decide +kernel)
  exact absurd hsame (by decide +kernel)

end Headroom.Sse
