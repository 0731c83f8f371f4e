import Headroom.PrefixReplay.SystemGate

/-!
# Selection and acceptance

The store selects a prefix for a turn by the exact canonical prefix, and failing that by an agreeing
run with an edited tail. The overlay accepts a prefix whole by a walk that also steps over
scaffolding the client withdrew. A prefix that only the walk accepts is handed over with its chain
when it happens to be the one selected by its agreeing run, and lost otherwise.

## Main results

* `previousTurnFor_agrees_iff` : the turns on which selection and acceptance agree.
-/

open Foundation

namespace Headroom.PrefixReplay

open SessionReplayStore

/-! ### The last maximum -/

section

variable {α : Type*} {p : α → Bool} {key : α → ℕ} {l : List α} {a b : α}

/-- The last of the elements with the property whose key is the largest. -/
def LastMax (p : α → Bool) (key : α → ℕ) (l : List α) (a : α) : Prop :=
  ∃ before after, l = before ++ a :: after ∧ p a = true ∧
    (∀ x ∈ before, p x = true → key x ≤ key a) ∧ ∀ x ∈ after, p x = true → key x < key a

theorem LastMax.mem (h : LastMax p key l a) : a ∈ l := by
  obtain ⟨before, after, rfl, -⟩ := h
  exact List.mem_append_right _ List.mem_cons_self

theorem LastMax.prop (h : LastMax p key l a) : p a = true := by
  obtain ⟨_, _, -, hp, -⟩ := h
  exact hp

theorem not_lastMax_nil : ¬ LastMax p key [] a := by
  rintro ⟨before, after, h, -⟩
  exact absurd h.symm (by simp)

theorem lastMax_cons : LastMax p key (b :: l) a ↔
    (a = b ∧ p b = true ∧ ∀ x ∈ l, p x = true → key x < key b) ∨
    (LastMax p key l a ∧ (p b = true → key b ≤ key a)) := by
  constructor
  · rintro ⟨before, after, heq, hp, hbefore, hafter⟩
    cases before with
    | nil =>
      obtain ⟨rfl, rfl⟩ := List.cons.inj heq
      exact Or.inl ⟨rfl, hp, hafter⟩
    | cons c before =>
      obtain ⟨rfl, rfl⟩ := List.cons.inj heq
      exact Or.inr ⟨⟨before, after, rfl, hp,
        fun x hx => hbefore x (List.mem_cons_of_mem _ hx), hafter⟩, hbefore b List.mem_cons_self⟩
  · rintro (⟨rfl, hp, hafter⟩ | ⟨⟨before, after, rfl, hp, hbefore, hafter⟩, hb⟩)
    · exact ⟨[], l, rfl, hp, fun x hx => absurd hx List.not_mem_nil, hafter⟩
    · refine ⟨b :: before, after, rfl, hp, fun x hx => ?_, hafter⟩
      rcases List.mem_cons.mp hx with rfl | hx
      · exact hb
      · exact hbefore x hx

theorem lastMaxBy_cons : lastMaxBy key (b :: l) =
    match lastMaxBy key l with
    | none => some b
    | some c => if key c < key b then some b else some c := by
  rw [lastMaxBy, List.reverse_cons, List.argmax_concat]
  rw [lastMaxBy]
  cases List.argmax key l.reverse with
  | none => rfl
  | some c => rfl

theorem lastMaxBy_filter_eq_some_iff :
    lastMaxBy key (l.filter p) = some a ↔ LastMax p key l a := by
  induction l generalizing a with
  | nil => exact iff_of_false (fun h => nomatch h) not_lastMax_nil
  | cons b l ih =>
    rw [lastMax_cons]
    by_cases hb : p b = true
    · rw [List.filter_cons_of_pos hb, lastMaxBy_cons]
      cases hmax : lastMaxBy key (l.filter p) with
      | none =>
        have hnone := List.filter_eq_nil_iff.mp (lastMaxBy_eq_none.mp hmax)
        have hno : ¬ LastMax p key l a := fun h => hnone a h.mem h.prop
        simp only [Option.some.injEq, hno, false_and, or_false]
        constructor
        · rintro rfl
          exact ⟨rfl, hb, fun x hx hp => absurd hp (hnone x hx)⟩
        · exact fun h => h.1.symm
      | some c =>
        have hc := ih.mp hmax
        have hle : ∀ x ∈ l, p x = true → key x ≤ key c := fun x hx hp =>
          le_of_lastMaxBy hmax (List.mem_filter.mpr ⟨hx, hp⟩)
        by_cases hlt : key c < key b
        · simp only [hlt, if_true, Option.some.injEq]
          constructor
          · rintro rfl
            exact Or.inl ⟨rfl, hb, fun x hx hp => Nat.lt_of_le_of_lt (hle x hx hp) hlt⟩
          · rintro (⟨rfl, -⟩ | ⟨ha, hba⟩)
            · rfl
            · have h1 := hba hb
              have h2 := hle a ha.mem ha.prop
              omega
        · simp only [hlt, if_false, Option.some.injEq]
          constructor
          · rintro rfl
            exact Or.inr ⟨hc, fun _ => Nat.not_lt.mp hlt⟩
          · rintro (⟨rfl, -, hall⟩ | ⟨ha, -⟩)
            · exact absurd (hall c hc.mem hc.prop) hlt
            · exact Option.some.inj (hmax.symm.trans (ih.mpr ha))
    · rw [List.filter_cons_of_neg hb, ih]
      simp only [hb, false_implies, and_true, Bool.false_eq_true, false_and, and_false, false_or]

end

/-! ### Chain numbers -/

/-- Every prefix of a tracker with something forwarded has a chain, and the next chain will have
one. -/
structure Numbered (t : PrefixReplayTracker) : Prop where
  next : t.nextChainId ≠ 0
  primary : t.lastForwardedMessages ≠ [] → t.primaryChainId ≠ 0
  alternates : ∀ h ∈ t.alternates, h.chainId ≠ 0

namespace PrefixReplayTracker

variable {t : PrefixReplayTracker}

theorem displace_numbered (ht : Numbered t) (canonicalIncoming : List Json) :
    Numbered (t.displace canonicalIncoming) := by
  simp only [displace]
  split_ifs with hd
  · simp only [displaces, Bool.and_eq_true, Bool.not_eq_true', List.isEmpty_eq_false_iff] at hd
    refine ⟨ht.next, fun h => absurd rfl h, fun h hh => ?_⟩
    rcases List.mem_cons.mp ((Budget.trim_sublist _).subset hh) with rfl | hh
    · exact ht.primary hd.1
    · exact ht.alternates h (List.mem_of_mem_filter hh)
  · exact ht

theorem joinChain_numbered (ht : Numbered t) (canonicalIncoming : List Json) :
    (t.joinChain canonicalIncoming).nextChainId ≠ 0 ∧
      (t.joinChain canonicalIncoming).primaryChainId ≠ 0 := by
  simp only [joinChain]
  split_ifs with hzero
  · cases hfind : t.alternates.find? fun h => matchesCanonicalPrefix h.originals canonicalIncoming with
    | some h => exact ⟨ht.next, ht.alternates h (List.mem_of_find?_eq_some hfind)⟩
    | none => exact ⟨Nat.succ_ne_zero _, ht.next⟩
  · exact ⟨ht.next, hzero⟩

theorem updateFromResponse_numbered (ht : Numbered t) (now read write : ℕ)
    (forwarded originals : List Json) (hash : String) :
    Numbered (t.updateFromResponse now read write forwarded (some originals) hash) := by
  have hcounted : Numbered { t with lastActivity := now, turnNumber := t.turnNumber + 1 } :=
    ⟨ht.next, ht.primary, ht.alternates⟩
  have hdisplaced := displace_numbered hcounted (canonicalizeSlice (storedOriginals originals))
  obtain ⟨hnext, hid⟩ := joinChain_numbered hdisplaced (canonicalizeSlice (storedOriginals originals))
  refine ⟨?_, fun _ => ?_, fun h hh => ?_⟩
  · simp only [updateFromResponse, confirm_nextChainId, Option.getD_some]
    exact hnext
  · have hprimary : (t.updateFromResponse now read write forwarded (some originals)
        hash).primary.chainId ≠ 0 := by
      simp only [updateFromResponse, confirm_primary, Option.getD_some]
      exact hid
    exact hprimary
  · simp only [updateFromResponse, confirm_alternates, joinChain_alternates,
      Option.getD_some] at hh
    exact hdisplaced.alternates h (List.mem_of_mem_filter hh)

end PrefixReplayTracker

theorem respected_numbered :
    Respected Numbered (fun p => p.forwarded ≠ [] → p.chainId ≠ 0) (fun _ => True)
      (fun _ => True) where
  fresh now := ⟨Nat.one_ne_zero, fun h => absurd rfl h, fun h hh => absurd hh List.not_mem_nil⟩
  restore p now hp hne :=
    ⟨Nat.succ_ne_zero _, fun _ => hp hne, fun h hh => absurd hh List.not_mem_nil⟩
  update t turn now read write ht _ :=
    PrefixReplayTracker.updateFromResponse_numbered ht now read write _ _ _
  invalidate t ht := ⟨ht.next, fun h => absurd rfl h, fun h hh => absurd hh List.not_mem_nil⟩
  snapshot clock t headHash ht := ht.primary
  adoptHeld _ _ _ _ _ _ _ := trivial
  adoptFile _ _ _ _ _ := trivial
  seed a now _ := ⟨by simp [AdoptedPrefix.seed], fun _ => Nat.one_ne_zero,
    fun h hh => absurd hh List.not_mem_nil⟩
  join a t now _ ht _ := by
    refine ⟨Nat.succ_ne_zero _, ht.primary, fun h hh => ?_⟩
    rcases List.mem_cons.mp (List.mem_of_mem_take hh) with rfl | hh
    · exact ht.next
    · exact ht.alternates h (List.mem_of_mem_filter hh)

section

variable {sha256 : String → String} {persistDir : Option (List PersistedFile)}
  {turns : List PendingTurn} {s : SessionReplayStore}

/-- In every state of a run on files with chains, the tracker of a session numbers its chains,
before a turn and after its hydration and adoption. -/
theorem StoreRun.numbered (hrun : StoreRun sha256 persistDir turns s)
    (hfiles : ∀ f ∈ persistDir.getD [], ∀ p, f.contents = some p → p.forwarded ≠ [] →
      p.chainId ≠ 0)
    {clock : Clock} {key : String} {originals canonicalCurrent : List Json} {hash : Option String}
    {t : PrefixReplayTracker} (ht : (s.hydrateOrAdopt sha256 clock key originals canonicalCurrent
      hash).2.trackers.peek key = some t) : Numbered t :=
  ((hrun.satisfies respected_numbered hfiles fun _ _ => trivial).hydrateOrAdopt
    respected_numbered clock key originals canonicalCurrent hash).peek ht

/-! ### Selection against acceptance -/

/-- The overlay's alignment accepts a held prefix whole, and it is of the turn's system. -/
def Accepts (originals : List Json) (systemHash : String) (h : HeldPrefix) : Prop :=
  h.originals ≠ [] ∧ h.forwarded ≠ [] ∧ h.systemHash = systemHash ∧
    (alignOverWithdrawnScaffolding h.originals originals).isSome = true

/-- An answer that is a chain leads the turn or agrees with it but for an edited tail, and the
answer is a chain that the overlay accepts whole when a held prefix is accepted. -/
structure AgreesWithOverlay (held : List HeldPrefix) (originals : List Json) (systemHash : String)
    (answer : Except PrefixMiss (List Json × List Json × ℕ)) : Prop where
  accepted : (∃ h ∈ held, Accepts originals systemHash h) →
    ∃ o f chainId, answer = .ok (o, f, chainId) ∧ chainId ≠ 0 ∧ o ≠ [] ∧ f ≠ [] ∧
      (alignOverWithdrawnScaffolding o originals).isSome = true
  continued : ∀ o f chainId, answer = .ok (o, f, chainId) → chainId ≠ 0 →
    matchesCanonicalPrefix o (canonicalizeSlice originals) = true ∨
    (minAgreeingRun ≤ canonicalAgreementLen o (canonicalizeSlice originals) ∧
      o.length ≤ canonicalAgreementLen o (canonicalizeSlice originals) + tailEditSlack)

/-- What is selected of the held prefixes is accepted: one leads the turn, or the one whose agreeing
run is the longest is accepted. -/
def SelectsAccepted (held : List HeldPrefix) (originals : List Json) (systemHash : String) : Prop :=
  (∃ h ∈ held, leadsTurn (canonicalizeSlice originals) (systemOk (some systemHash)) h = true) ∨
  ∃ h, LastMax (editsTail (canonicalizeSlice originals) (systemOk (some systemHash)))
      (fun h => canonicalAgreementLen h.originals (canonicalizeSlice originals)) held h ∧
    (alignOverWithdrawnScaffolding h.originals originals).isSome = true

variable {t : PrefixReplayTracker} {originals : List Json} {d : String} {h : HeldPrefix}

theorem accepts_of_leadsTurn
    (hlead : leadsTurn (canonicalizeSlice originals) (systemOk (some d)) h = true) :
    Accepts originals d h := by
  simp only [leadsTurn, Bool.and_eq_true, Bool.not_eq_true', List.isEmpty_eq_false_iff,
    matchesCanonicalPrefix_iff, systemOk, Option.map_some, Option.getD_some, beq_iff_eq] at hlead
  obtain ⟨⟨hfwd, horig, hpre⟩, hsys⟩ := hlead
  exact ⟨horig, hfwd, hsys, by rw [alignOverWithdrawnScaffolding_of_matches hpre]; rfl⟩

theorem ne_nil_of_editsTail {ok : String → Bool}
    (hedit : editsTail (canonicalizeSlice originals) ok h = true) :
    h.originals ≠ [] ∧ h.forwarded ≠ [] := by
  simp only [editsTail, Bool.and_eq_true, decide_eq_true_eq, Bool.not_eq_true',
    List.isEmpty_eq_false_iff] at hedit
  refine ⟨?_, hedit.1.1.1⟩
  intro hnil
  simp [hnil, canonicalAgreementLen, canonicalizeSlice, minAgreeingRun] at hedit

/-- What is picked is accepted exactly when selection goes to an accepted prefix. -/
theorem pick_accepted_iff :
    (∃ h, pickReplayCandidate t (canonicalizeSlice originals) (systemOk (some d)) = some h ∧
      (alignOverWithdrawnScaffolding h.originals originals).isSome = true) ↔
    SelectsAccepted t.held originals d := by
  have hpick : pickReplayCandidate t (canonicalizeSlice originals) (systemOk (some d)) =
      (lastMaxBy (fun h : HeldPrefix => h.originals.length)
        (t.held.filter (leadsTurn (canonicalizeSlice originals) (systemOk (some d))))).or
      (lastMaxBy (fun h : HeldPrefix => canonicalAgreementLen h.originals
        (canonicalizeSlice originals))
        (t.held.filter (editsTail (canonicalizeSlice originals) (systemOk (some d))))) := rfl
  rw [hpick]
  cases hbest : lastMaxBy (fun h : HeldPrefix => h.originals.length)
      (t.held.filter (leadsTurn (canonicalizeSlice originals) (systemOk (some d)))) with
  | some b =>
    obtain ⟨hb, hlead⟩ := List.mem_filter.mp (mem_of_lastMaxBy hbest)
    simp only [Option.some_or, Option.some.injEq]
    exact iff_of_true ⟨b, rfl, (accepts_of_leadsTurn hlead).2.2.2⟩ (Or.inl ⟨b, hb, hlead⟩)
  | none =>
    have hnone := List.filter_eq_nil_iff.mp (lastMaxBy_eq_none.mp hbest)
    simp only [Option.none_or, lastMaxBy_filter_eq_some_iff]
    constructor
    · exact Or.inr
    · rintro (⟨h, hh, hlead⟩ | hedit)
      · exact absurd hlead (hnone h hh)
      · exact hedit

theorem chainId_of_pick (ht : Numbered t) {canonicalCurrent : List Json} {ok : String → Bool}
    (hpick : pickReplayCandidate t canonicalCurrent ok = some h) : h.chainId ≠ 0 := by
  have hheld : h ∈ t.held ∧ h.forwarded ≠ [] := by
    rcases pickReplayCandidate_spec hpick with ⟨hh, hlead, -⟩ | ⟨hh, hedit, -⟩
    · simp only [leadsTurn, Bool.and_eq_true, Bool.not_eq_true', List.isEmpty_eq_false_iff] at hlead
      exact ⟨hh, hlead.1.1⟩
    · simp only [editsTail, Bool.and_eq_true, Bool.not_eq_true', List.isEmpty_eq_false_iff] at hedit
      exact ⟨hh, hedit.1.1.1⟩
  rcases List.mem_cons.mp hheld.1 with rfl | hh
  · exact ht.primary hheld.2
  · exact ht.alternates h hh

theorem pick_of_lookup {l : Lookup}
    (hlookup : lookup t (canonicalizeSlice originals) (some d) = .ok l) (hid : l.chainId ≠ 0) :
    pickReplayCandidate t (canonicalizeSlice originals) (systemOk (some d)) = some l.source := by
  rcases lookup_ok hlookup with ⟨hpick, -⟩ | ⟨-, -, -, rfl⟩
  · exact hpick
  · exact absurd rfl hid

/-- What is picked is the answer. -/
theorem lookup_of_pick
    (hpick : pickReplayCandidate t (canonicalizeSlice originals) (systemOk (some d)) = some h) :
    lookup t (canonicalizeSlice originals) (some d) = .ok ⟨h, h.chainId⟩ := by
  have hne : (t.lastForwardedMessages.isEmpty && t.alternates.isEmpty) = false := by
    rw [Bool.and_eq_false_iff, List.isEmpty_eq_false_iff, List.isEmpty_eq_false_iff]
    rcases pickReplayCandidate_spec hpick with ⟨hh, hcand, -⟩ | ⟨hh, hcand, -⟩
    all_goals
      rcases List.mem_cons.mp hh with rfl | hh
      · left
        rintro hnil
        simp [leadsTurn, editsTail, PrefixReplayTracker.primary, hnil] at hcand
      · exact Or.inr (List.ne_nil_of_mem hh)
  simp only [lookup, hne, hpick, Bool.false_eq_true, if_false]

/-- In every state of every run, the store answers a turn with an accepted chain when one is held
under the turn's system, exactly when nothing is accepted, or the session is live and what is
selected of its prefixes is accepted. -/
theorem previousTurnFor_agrees_iff (hrun : StoreRun sha256 persistDir turns s)
    (hfiles : ∀ f ∈ persistDir.getD [], ∀ p, f.contents = some p → p.forwarded ≠ [] →
      p.chainId ≠ 0)
    (clock : Clock) (key : String)
    (ht : (s.hydrateOrAdopt sha256 clock key originals (canonicalizeSlice originals)
      (some d)).2.trackers.peek key = some t) :
    AgreesWithOverlay t.held originals d
      (s.previousTurnFor sha256 clock key originals (some d)).1 ↔
    (∀ h ∈ t.held, ¬ Accepts originals d h) ∨
      ((s.hydrateOrAdopt sha256 clock key originals (canonicalizeSlice originals)
        (some d)).2.idle clock t = false ∧ SelectsAccepted t.held originals d) := by
  have hnumbered := hrun.numbered hfiles ht
  have hanswer := s.previousTurnFor_fst sha256 clock key originals (some d)
  simp only [ht] at hanswer
  rw [hanswer]
  generalize (s.hydrateOrAdopt sha256 clock key originals (canonicalizeSlice originals)
    (some d)).2.idle clock t = idle
  constructor
  · intro hagrees
    by_cases hacc : ∃ h ∈ t.held, Accepts originals d h
    · right
      obtain ⟨o, f, id, hok, hid, -, -, halign⟩ := hagrees.accepted hacc
      split_ifs at hok with hidle
      refine ⟨by simpa using hidle, ?_⟩
      cases hlookup : lookup t (canonicalizeSlice originals) (some d) with
      | error miss => simp [hlookup, Except.map] at hok
      | ok l =>
        simp only [hlookup, Except.map, Except.ok.injEq, Prod.mk.injEq] at hok
        obtain ⟨rfl, rfl, rfl⟩ := hok
        exact pick_accepted_iff.mp ⟨l.source, pick_of_lookup hlookup hid, halign⟩
    · exact Or.inl fun h hh haccepts => hacc ⟨h, hh, haccepts⟩
  · intro hcond
    constructor
    · rintro ⟨h, hh, hacc⟩
      obtain ⟨rfl, hselects⟩ := hcond.resolve_left fun hnone => hnone h hh hacc
      obtain ⟨b, hpick, halign⟩ := pick_accepted_iff.mpr hselects
      have hne : b.originals ≠ [] ∧ b.forwarded ≠ [] := by
        rcases pickReplayCandidate_spec hpick with ⟨-, hlead, -⟩ | ⟨-, hedit, -⟩
        · exact ⟨(accepts_of_leadsTurn hlead).1, (accepts_of_leadsTurn hlead).2.1⟩
        · exact ne_nil_of_editsTail hedit
      refine ⟨b.originals, b.forwarded, b.chainId, ?_, chainId_of_pick hnumbered hpick, hne.1,
        hne.2, halign⟩
      rw [if_neg Bool.false_ne_true, lookup_of_pick hpick]
      rfl
    · intro o f id hok hid
      split_ifs at hok
      cases hlookup : lookup t (canonicalizeSlice originals) (some d) with
      | error miss => simp [hlookup, Except.map] at hok
      | ok l =>
        simp only [hlookup, Except.map, Except.ok.injEq, Prod.mk.injEq] at hok
        obtain ⟨rfl, rfl, rfl⟩ := hok
        rcases pickReplayCandidate_spec (pick_of_lookup hlookup hid) with
          ⟨-, hlead, -⟩ | ⟨-, hedit, -⟩
        · left
          simp only [leadsTurn, Bool.and_eq_true] at hlead
          exact hlead.1.2
        · right
          simp only [editsTail, Bool.and_eq_true, decide_eq_true_eq] at hedit
          exact ⟨hedit.1.1.2, hedit.1.2⟩

end

/-! ### A stream lost to selection -/

instance decidableAccepts (originals : List Json) (d : String) (h : HeldPrefix) :
    Decidable (Accepts originals d h) :=
  inferInstanceAs (Decidable (_ ∧ _))

/-- The messages of a turn, as the client sends them. -/
def plainMessages (messages : List (String × String)) : List Json :=
  messages.map fun m => plainMessage m.1 m.2

/-- The stream with a `system` message early in it appends to its turn, and is answered by its own
prefix. -/
theorem previousTurnFor_agrees_appended :
    let originals := plainMessages [("user", "a"), ("system", "x"), ("user", "b"), ("user", "c")]
    ∃ t, (noticeStore.hydrateOrAdopt id ⟨0, 0⟩ "k" originals (canonicalizeSlice originals)
      (some "d")).2.trackers.peek "k" = some t ∧
      AgreesWithOverlay t.held originals "d"
        (noticeStore.previousTurnFor id ⟨0, 0⟩ "k" originals (some "d")).1 := by
  intro originals
  have hselects : ((noticeStore.hydrateOrAdopt id ⟨0, 0⟩ "k" originals
      (canonicalizeSlice originals) (some "d")).2.trackers.peek "k").any (fun t =>
        !(noticeStore.hydrateOrAdopt id ⟨0, 0⟩ "k" originals (canonicalizeSlice originals)
          (some "d")).2.idle ⟨0, 0⟩ t &&
        t.held.any (leadsTurn (canonicalizeSlice originals) (systemOk (some "d")))) = true := by
    decide +kernel
  obtain ⟨t, ht, hlive⟩ := (Option.any_eq_true _ _).mp hselects
  simp only [Bool.and_eq_true, Bool.not_eq_true', List.any_eq_true] at hlive
  exact ⟨t, ht, (previousTurnFor_agrees_iff noticeStore_run
    (fun f hf => absurd hf List.not_mem_nil) ⟨0, 0⟩ "k" ht).mpr
    (Or.inr ⟨hlive.1, Or.inl hlive.2⟩)⟩

/-- A turn of a second stream on the session. -/
def otherParked : PendingTurn := plainParked "k" "d" [("user", "q"), ("user", "r")]

/-- The store after the second stream's turn completed as well. -/
def twoStreamStore : SessionReplayStore :=
  StoreCall.apply id ⟨0, 0⟩ (StoreCall.apply id ⟨0, 0⟩ noticeStore
    (.beginRequest "2" otherParked)) (.complete "2" 2000 0)

/-- With its `system` message withdrawn, the first stream is answered by the prefix of the second
one and chain 0, although the overlay would accept its own prefix whole. -/
theorem previousTurnFor_loses_stream :
    let originals := plainMessages [("user", "a"), ("user", "b"), ("user", "c")]
    StoreRun id none [otherParked, noticeParked] twoStreamStore ∧
    ∃ t, (twoStreamStore.hydrateOrAdopt id ⟨0, 0⟩ "k" originals (canonicalizeSlice originals)
      (some "d")).2.trackers.peek "k" = some t ∧
      ¬ AgreesWithOverlay t.held originals "d"
        (twoStreamStore.previousTurnFor id ⟨0, 0⟩ "k" originals (some "d")).1 := by
  intro originals
  refine ⟨.call _ (.complete "2" 2000 0) (.call _ (.beginRequest "2" otherParked)
    noticeStore_run), ?_⟩
  have haccepted : ((twoStreamStore.hydrateOrAdopt id ⟨0, 0⟩ "k" originals
      (canonicalizeSlice originals) (some "d")).2.trackers.peek "k").any (fun t =>
        t.held.any fun h => decide (Accepts originals "d" h)) = true := by decide +kernel
  have hchain : (twoStreamStore.previousTurnFor id ⟨0, 0⟩ "k" originals
      (some "d")).1.toOption.map (fun found => found.2.2) = some 0 := by decide +kernel
  obtain ⟨t, ht, hany⟩ := (Option.any_eq_true _ _).mp haccepted
  obtain ⟨h, hh, hacc⟩ := List.any_eq_true.mp hany
  refine ⟨t, ht, fun hagrees => ?_⟩
  obtain ⟨o, f, chainId, hok, hid, -⟩ := hagrees.accepted ⟨h, hh, of_decide_eq_true hacc⟩
  rw [hok] at hchain
  exact hid (Option.some.inj hchain)

end Headroom.PrefixReplay
