import Headroom.Preamble.WorkingDir

/-!
# The role sentence of a conversation

The preamble opens with one sentence that names what the agent is. The conversation keeps the sentence it opened
with; nothing is said about it at the tail.

## Main statements

* `pins_forward` : within the limits of the store a conversation keeps its directories and its sentence.
-/

open Foundation
open Foundation.Text

namespace Headroom.Preamble

def HEAD : List Char := "You are an interactive agent that helps users ".toList

/-- Where the sentence of a text starts and where its period stands from there. -/
def sentenceSpan (text : List Char) : Option (ℕ × ℕ) :=
  (find? HEAD text).bind fun at_ => (find? ['.'] (text.drop at_)).map fun len => (at_, len)

/-- The sentence of a text. -/
def sentenceOf (text : String) : Option String :=
  (sentenceSpan text.toList).map fun span => String.ofList ((text.toList.drop span.1).take (span.2 + 1))

/-- The sentence of the first text that has one. -/
def readSentence (system : Json) : Option String := (systemTexts system).findSome? sentenceOf

/-- A text with the sentence replaced, while there is one to put there. -/
def replaceSentence (text : String) : Option String → String × Option String
  | some held =>
    match sentenceSpan text.toList with
    | some (at_, len) =>
      (String.ofList (text.toList.take at_ ++ (held.toList ++ text.toList.drop (at_ + len + 1))), none)
    | none => (text, some held)
  | none => (text, none)

/-- Replace the sentence in the first text that has one, and tell whether there was one. -/
def writeSentence (system : Json) (held : String) : Json × Bool :=
  let out := mapTexts replaceSentence system (some held)
  (out.1, out.2.isNone)

/-- The role sentence as a value that is held. -/
def roleSentence : Pinned String where
  read := readSentence
  write held system := writeSentence system held
  fits _ _ := true
  name live := live
  note _ _ body := body

/-! ### One text -/

/-- A sentence: it starts with the head, and its period ends it. -/
def IsSentence (held : List Char) : Prop :=
  HEAD <+: held ∧ ∃ front, held = front ++ ['.'] ∧ '.' ∉ front

variable {text : List Char} {len : ℕ}

theorem find?_period (h : find? ['.'] text = some len) :
    ∃ front rest, text = front ++ '.' :: rest ∧ '.' ∉ front ∧ front.length = len := by
  obtain ⟨rest, hrest⟩ := prefix_of_find? h
  have hlength := add_length_le_of_find? (by simp) h
  refine ⟨text.take len, rest, ?_, fun hmem => ?_, ?_⟩
  · rw [← List.singleton_append, hrest, List.take_append_drop]
  · obtain ⟨j, hj, hget⟩ := List.mem_iff_getElem.1 hmem
    rw [List.length_take] at hj
    refine not_prefix_of_find? h (by omega : j < len) ?_
    rw [List.drop_eq_getElem_cons (by omega : j < text.length)]
    rw [List.getElem_take] at hget
    rw [hget]
    exact List.prefix_append ['.'] _
  · rw [List.length_take]
    rw [List.length_singleton] at hlength
    omega

theorem find?_period_append {front : List Char} (h : '.' ∉ front) (rest : List Char) :
    find? ['.'] (front ++ '.' :: rest) = some front.length := by
  refine find?_eq_some (by simp) ?_ fun j hj hpre => ?_
  · rw [List.drop_left]
    exact List.prefix_append ['.'] _
  · rw [List.drop_append_of_le_length hj.le, List.drop_eq_getElem_cons hj, List.cons_append] at hpre
    obtain ⟨more, hmore⟩ := hpre
    have hget := (List.cons.inj hmore).1
    exact h (hget ▸ List.getElem_mem hj)

theorem head_ne_nil : HEAD ≠ [] := by decide

theorem find?_head {i : ℕ} (h : find? HEAD text = some i) (sentence more : List Char)
    (hsentence : HEAD <+: sentence) : find? HEAD (text.take i ++ (sentence ++ more)) = some i := by
  have hlength := add_length_le_of_find? head_ne_nil h
  have htake : (text.take i).length = i := by
    rw [List.length_take]
    omega
  obtain ⟨rest, hrest⟩ := prefix_of_find? h
  obtain ⟨tail, rfl⟩ := hsentence
  have htext : text = text.take i ++ HEAD ++ rest := by
    rw [List.append_assoc, hrest, List.take_append_drop]
  have hfind : find? HEAD (text.take i ++ HEAD) = some i := by
    refine find?_eq_some head_ne_nil ?_ fun j hj hpre => not_prefix_of_find? h hj ?_
    · have hdrop : (text.take i ++ HEAD).drop i = HEAD := List.drop_left' htake
      exact hdrop.symm ▸ List.prefix_refl HEAD
    · rw [htext, List.drop_append_of_le_length (by rw [List.length_append]; omega)]
      exact hpre.trans (List.prefix_append _ _)
  rw [← List.append_assoc, ← List.append_assoc, List.append_assoc]
  exact find?_append head_ne_nil hfind _

variable {at_ : ℕ}

/-- A text around its sentence. -/
theorem sentenceSpan_cases (h : sentenceSpan text = some (at_, len)) :
    ∃ sentence, text.take at_ ++ (sentence ++ text.drop (at_ + len + 1)) = text ∧
      (text.drop at_).take (len + 1) = sentence ∧ IsSentence sentence ∧ find? HEAD text = some at_ := by
  obtain ⟨i, hhead, hmap⟩ := Option.bind_eq_some_iff.1 h
  obtain ⟨n, hperiod, heq⟩ := Option.map_eq_some_iff.1 hmap
  obtain ⟨rfl, rfl⟩ := Prod.mk.inj heq
  obtain ⟨front, rest, hdrop, hfront, rfl⟩ := find?_period hperiod
  have hsentence : (text.drop i).take (front.length + 1) = front ++ ['.'] := by
    rw [hdrop, List.take_append, List.take_of_length_le (by omega), Nat.add_sub_cancel_left]
    rfl
  refine ⟨front ++ ['.'], ?_, hsentence, ⟨?_, front, rfl, hfront⟩, hhead⟩
  · rw [← hsentence, Nat.add_assoc, ← List.drop_drop, List.take_append_drop, List.take_append_drop]
  · have hpre := prefix_of_find? hhead
    rw [hdrop] at hpre
    refine List.prefix_of_prefix_length_le hpre ?_ ?_
    · exact ⟨rest, by rw [List.append_assoc]; rfl⟩
    · by_contra hlong
      have hmem : '.' ∈ HEAD := by
        rw [List.prefix_iff_eq_take.1 hpre, List.take_append]
        refine List.mem_append_right _ ?_
        rw [List.length_append, List.length_singleton] at hlong
        obtain ⟨k, hk⟩ : ∃ k, HEAD.length - front.length = k + 1 := ⟨HEAD.length - front.length - 1, by omega⟩
        rw [hk, List.take_succ_cons]
        exact List.mem_cons_self
      revert hmem
      decide

theorem sentenceSpan_replaced {text held : List Char} (h : sentenceSpan text = some (at_, len))
    (hheld : IsSentence held) :
    sentenceSpan (text.take at_ ++ (held ++ text.drop (at_ + len + 1))) = some (at_, held.length - 1) := by
  obtain ⟨sentence, -, -, -, hhead⟩ := sentenceSpan_cases h
  obtain ⟨hstart, front, rfl, hfront⟩ := hheld
  have htake : (text.take at_).length = at_ := by
    have hlength := add_length_le_of_find? head_ne_nil hhead
    rw [List.length_take]
    omega
  rw [sentenceSpan, find?_head hhead _ _ hstart, Option.bind_some, List.drop_left' htake, List.append_assoc,
    List.singleton_append, find?_period_append hfront, Option.map_some, List.length_append, List.length_singleton,
    Nat.add_sub_cancel]

/-! ### The preamble -/

/-- The texts with the sentence taken out of the first that has one. -/
def blankSentence (text : String) : Bool → String × Bool
  | true =>
    match sentenceSpan text.toList with
    | some (at_, len) => (String.ofList (text.toList.take at_ ++ text.toList.drop (at_ + len + 1)), false)
    | none => (text, true)
  | false => (text, false)

/-- Two preambles that differ in their sentence at most. -/
def SameAround (system system' : Json) : Prop :=
  (mapTexts blankSentence system true).1 = (mapTexts blankSentence system' true).1

theorem isSentence_of_readSentence {system : Json} {held : String} (h : readSentence system = some held) :
    IsSentence held.toList := by
  obtain ⟨text, -, hmap⟩ := List.exists_of_findSome?_eq_some h
  obtain ⟨⟨at_, len⟩, hspan, rfl⟩ := Option.map_eq_some_iff.1 hmap
  obtain ⟨sentence, -, hsentence, his, -⟩ := sentenceSpan_cases hspan
  rw [String.toList_ofList, hsentence]
  exact his

theorem blankSentence_replaceSentence (text : String) {held : String} (hheld : IsSentence held.toList) :
    blankSentence (replaceSentence text (some held)).1 true = blankSentence text true ∧
      (replaceSentence text (some held)).2.isSome = (blankSentence text true).2 := by
  cases hspan : sentenceSpan text.toList with
  | none =>
    have hsame : replaceSentence text (some held) = (text, some held) := by rw [replaceSentence, hspan]
    have hblank : blankSentence text true = (text, true) := by rw [blankSentence, hspan]
    rw [hsame, hblank]
    exact ⟨rfl, rfl⟩
  | some span =>
    obtain ⟨at_, len⟩ := span
    have hlength : (text.toList.take at_).length = at_ := by
      obtain ⟨-, -, -, -, hhead⟩ := sentenceSpan_cases hspan
      have hle := add_length_le_of_find? head_ne_nil hhead
      rw [List.length_take]
      omega
    have hnew : replaceSentence text (some held) =
        (String.ofList (text.toList.take at_ ++ (held.toList ++ text.toList.drop (at_ + len + 1))), none) := by
      rw [replaceSentence, hspan]
    have hblank : blankSentence text true =
        (String.ofList (text.toList.take at_ ++ text.toList.drop (at_ + len + 1)), false) := by
      rw [blankSentence, hspan]
    obtain ⟨-, front, hfront, -⟩ := id hheld
    have hpos : at_ + (held.toList.length - 1) + 1 = at_ + held.toList.length := by
      rw [hfront, List.length_append, List.length_singleton]
      omega
    rw [hnew, hblank, blankSentence, String.toList_ofList, sentenceSpan_replaced hspan hheld]
    refine ⟨?_, rfl⟩
    dsimp only
    rw [hpos, List.take_left' hlength, ← List.drop_drop, List.drop_left' hlength, List.drop_left]

theorem sentenceOf_replaceSentence {text held : String} (hheld : IsSentence held.toList)
    (h : sentenceSpan text.toList = some (at_, len)) :
    sentenceOf (replaceSentence text (some held)).1 = some held ∧ (replaceSentence text (some held)).2 = none := by
  obtain ⟨-, -, -, -, hhead⟩ := sentenceSpan_cases h
  have hlength : (text.toList.take at_).length = at_ := by
    have hle := add_length_le_of_find? head_ne_nil hhead
    rw [List.length_take]
    omega
  have hnew : replaceSentence text (some held) =
      (String.ofList (text.toList.take at_ ++ (held.toList ++ text.toList.drop (at_ + len + 1))), none) := by
    rw [replaceSentence, h]
  have hspan := sentenceSpan_replaced h hheld
  obtain ⟨-, front, hfront, -⟩ := hheld
  have hpos : held.toList.length - 1 + 1 = held.toList.length := by
    rw [hfront, List.length_append, List.length_singleton]
    omega
  rw [hnew]
  refine ⟨?_, rfl⟩
  rw [sentenceOf, String.toList_ofList, hspan, Option.map_some]
  dsimp only
  rw [hpos, List.drop_left' hlength, List.take_left, String.ofList_toList]

theorem thread_replaceSentence {texts : List String} {live held : String} (hheld : IsSentence held.toList)
    (h : texts.findSome? sentenceOf = some live) :
    (thread replaceSentence texts (some held)).1.findSome? sentenceOf = some held ∧
      (thread replaceSentence texts (some held)).2 = none := by
  induction texts with
  | nil => cases h
  | cons text texts ih =>
    rw [thread_cons]
    cases hspan : sentenceSpan text.toList with
    | none =>
      have hsame : replaceSentence text (some held) = (text, some held) := by rw [replaceSentence, hspan]
      have hno : sentenceOf text = none := by
        rw [sentenceOf, hspan]
        rfl
      rw [List.findSome?_cons, hno] at h
      rw [hsame, List.findSome?_cons, hno]
      exact ih h
    | some span =>
      obtain ⟨hnew, hdone⟩ := sentenceOf_replaceSentence hheld hspan
      have hrest : ∀ texts : List String, thread replaceSentence texts none = (texts, none) := by
        intro texts
        induction texts with
        | nil => rfl
        | cons text texts ih =>
          have hsame : replaceSentence text none = (text, none) := rfl
          rw [thread_cons, hsame, ih]
      rw [List.findSome?_cons, hnew, hdone, hrest]
      exact ⟨rfl, rfl⟩

theorem lawful_roleSentence : roleSentence.Lawful SameAround (fun _ => True) where
  same _ := rfl
  writes := by
    intro other system live held hother hlive _
    have hdone := (thread_replaceSentence (isSentence_of_readSentence hother) hlive).2
    show (mapTexts replaceSentence system (some held)).2.isNone = true
    rw [(systemTexts_mapTexts replaceSentence system (some held)).2, hdone]
    rfl
  outside := by
    intro other system live held hother _ _
    have hheld := isSentence_of_readSentence hother
    refine (mapTexts_mapTexts (J := fun (next : Option String) (blank : Bool) =>
      next.isSome = blank ∧ ∀ held : String, next = some held → IsSentence held.toList)
      system ⟨rfl, fun h heq => Option.some.inj heq ▸ hheld⟩ fun text next blank hnext => ?_).symm
    obtain ⟨rfl, hnext⟩ := hnext
    cases next with
    | none => exact ⟨rfl, rfl, fun _ h => by cases h⟩
    | some held =>
      obtain ⟨hsame, hsome⟩ := blankSentence_replaceSentence text (hnext held rfl)
      refine ⟨hsame, hsome, fun h heq => ?_⟩
      cases hspan : sentenceSpan text.toList with
      | none =>
        have hkeep : replaceSentence text (some held) = (text, some held) := by rw [replaceSentence, hspan]
        rw [hkeep] at heq
        exact Option.some.inj heq ▸ hnext held rfl
      | some span =>
        rw [(sentenceOf_replaceSentence (hnext held rfl) hspan).2] at heq
        cases heq
  reads := by
    intro other system live held hother hlive _ _
    show ((systemTexts (mapTexts replaceSentence system (some held)).1).findSome? sentenceOf) = some held
    rw [(systemTexts_mapTexts replaceSentence system (some held)).1]
    exact (thread_replaceSentence (isSentence_of_readSentence hother) hlive).1

/-! ### Both values -/

/-- Once a conversation has its directories and its sentence, every later turn forwards them, whatever the client
sends in their place. Nothing else of the preamble changes; the preview shows the preamble that is forwarded, and
the body that is forwarded is the preview's with the note that names the live directory; where the directories do
not fit, the body stays. -/
theorem pins_forward {capacity : ℕ} (hcapacity : 0 < capacity) (before more : List Event) (key : String)
    {body system : Json} (now : ℕ) (hsystem : body.get? "system" = some system) :
    (∀ pin live, workingDirs.Within capacity (before ++ more ++ [.request key body now]) →
      workingDirs.pinOf before key = some pin → workingDirs.read system = some live →
      let pins := workingDirs.run capacity hcapacity (before ++ more)
      workingDirs.Forwards SameOutside Aligned pin.1 live system body
          ((workingDirs.hold pins now body key).1, (workingDirs.hold pins now body key).2.1)
          (workingDirs.preview pins now body key) ∧
        NoteOnly (workingDirs.preview pins now body key).2 (workingDirs.hold pins now body key).2.1) ∧
    (∀ pin live, roleSentence.Within capacity (before ++ more ++ [.request key body now]) →
      roleSentence.pinOf before key = some pin → roleSentence.read system = some live →
      let pins := roleSentence.run capacity hcapacity (before ++ more)
      roleSentence.Forwards SameAround (fun _ => True) pin.1 live system body
          ((roleSentence.hold pins now body key).1, (roleSentence.hold pins now body key).2.1)
          (roleSentence.preview pins now body key) ∧
        (roleSentence.hold pins now body key).2.1 = (roleSentence.preview pins now body key).2) := by
  refine ⟨fun pin live hwithin hpin hread => ?_, fun pin live hwithin hpin hread => ?_⟩
  · have hforwards := Pinned.forwards_run lawful_workingDirs hcapacity hwithin
      (Pinned.pinOf_append hpin more) hsystem hread
    refine ⟨hforwards, ?_⟩
    by_cases hsame : live = pin.1
    · obtain ⟨hout, hseen⟩ := hforwards.matched hsame
      exact .inl ((congrArg Prod.snd hout).trans (congrArg Prod.snd hseen).symm)
    · by_cases hfits : workingDirs.fits pin.1 live = true
      · have hout := congrArg Prod.snd (hforwards.held hsame hfits).1
        dsimp only at hout
        rw [hout]
        exact noteOnly_noteAtTail _ _ _
      · obtain ⟨hout, hseen⟩ := hforwards.reshaped hsame (Bool.not_eq_true _ |>.mp hfits)
        exact .inl ((congrArg Prod.snd hout).trans (congrArg Prod.snd hseen).symm)
  · have hforwards := Pinned.forwards_run lawful_roleSentence hcapacity hwithin
      (Pinned.pinOf_append hpin more) hsystem hread
    refine ⟨hforwards, ?_⟩
    by_cases hsame : live = pin.1
    · obtain ⟨hout, hseen⟩ := hforwards.matched hsame
      exact (congrArg Prod.snd hout).trans (congrArg Prod.snd hseen).symm
    · exact congrArg Prod.snd (hforwards.held hsame rfl).1

namespace Sample

def preamble (dir : String) : Json :=
  .arr [.obj [("type", .str "text"), ("text", .str ("env\n - Primary working directory: " ++ dir ++ "\n"))]]

def request (dir : String) : Json :=
  .obj [("system", preamble dir), ("messages", .arr [.obj [("role", .str "user"), ("content", .arr [])]])]

end Sample

theorem pins_forward_moved :
    ∃ system', (workingDirs.preview (workingDirs.run 4 (by decide) ([.request "s" (Sample.request "/a") 0] ++ []))
        1 (Sample.request "/b") "s").2 = (Sample.request "/b").insert "system" system' ∧
      workingDirs.read system' = some ["/a"] := by
  have hwithin : workingDirs.Within 4 ([.request "s" (Sample.request "/a") 0] ++ [] ++
      [.request "s" (Sample.request "/b") 1]) := by
    refine ⟨by decide, fun before key body now hbefore pin _ => ?_⟩
    have hmem : Event.request key body now ∈ [Event.request "s" (Sample.request "/a") 0,
        .request "s" (Sample.request "/b") 1] := hbefore.subset (by simp)
    have hnow : now ≤ 1 := by
      obtain hfirst | hsecond := List.mem_cons.1 hmem
      · injection hfirst with _ _ hnow
        omega
      · injection List.mem_singleton.1 hsecond with _ _ hnow
        omega
    have hone : 1 ≤ PIN_TTL := by decide
    omega
  obtain ⟨hforwards, -⟩ := (pins_forward (by decide) [.request "s" (Sample.request "/a") 0] [] "s" 1 rfl).1
    (["/a"], 0) ["/b"] hwithin (by decide +kernel) (by decide +kernel)
  obtain ⟨system', hseen, -, hread⟩ := hforwards.written (.inr rfl)
  exact ⟨system', hseen, hread ⟨["/b".toList], [], by decide +kernel, by decide +kernel, by simp⟩⟩

/-- The newest message gets a note, which the preview does not show. -/
theorem hold_notes_moved :
    (workingDirs.hold (workingDirs.run 4 (by decide) [.request "s" (Sample.request "/a") 0]) 1
        (Sample.request "/b") "s").2.1.get? "messages" ≠ (Sample.request "/b").get? "messages" ∧
      (workingDirs.hold (workingDirs.run 4 (by decide) [.request "s" (Sample.request "/a") 0]) 1
        (Sample.request "/b") "s").2.1 ≠
      (workingDirs.preview (workingDirs.run 4 (by decide) [.request "s" (Sample.request "/a") 0]) 1
        (Sample.request "/b") "s").2 := by
  decide +kernel

end Headroom.Preamble
