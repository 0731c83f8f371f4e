import Mathlib.Data.List.Dedup
import Headroom.CacheStabilization.BetaSticky

/-!
# Sticky beta headers over a run

What a run of requests forwards, with any interleaving of sessions and providers, while the tracker has room for all of
them.

## Main statements

* `forwarded_sticky` : the forwarded tokens are the first occurrences of those that the session has sent.
-/

open Foundation
open Headroom.Semantic (HeaderMap toAsciiLowercase latin1 isVisible)

namespace Headroom.CacheStabilization

/-- A request of a session to a provider. -/
structure Turn where
  provider : BetaProvider
  sessionKey : String
  headers : HeaderMap
  deriving DecidableEq

namespace Turn

/-- The session of a provider. -/
def key (t : Turn) : BetaProvider × String := (t.provider, t.sessionKey)

/-- Every line of the header is visible ASCII. -/
def Readable (t : Turn) : Prop := ∀ line ∈ getAll t.headers t.provider.headerName, isVisible line = true

instance (t : Turn) : Decidable t.Readable := by
  unfold Readable
  infer_instance

end Turn

/-- The tokens of the header of a provider, line by line. -/
def betaTokens (provider : BetaProvider) (headers : HeaderMap) : List Token :=
  (getAll headers provider.headerName).flatMap fun line => splitBetaTokens (some (latin1 line))

def Turn.tokens (t : Turn) : List Token := betaTokens t.provider t.headers

section Run

variable (o : HeaderText)

/-- What one request does. -/
def step (sessions : SessionTokenCache) (t : Turn) : HeaderMap × SessionTokenCache :=
  applyStickyBetas o sessions t.provider t.sessionKey t.headers

/-- The tracker after some requests. -/
def after (sessions : SessionTokenCache) (turns : List Turn) : SessionTokenCache :=
  turns.foldl (fun sessions t => (step o sessions t).2) sessions

/-- The headers with which a request goes upstream after others. -/
def forwarded (sessions : SessionTokenCache) (before : List Turn) (t : Turn) : HeaderMap :=
  (step o (after o sessions before) t).1

theorem after_append (sessions : SessionTokenCache) (before : List Turn) (t : Turn) :
    after o sessions (before ++ [t]) = (step o (after o sessions before) t).2 := by
  rw [after, List.foldl_append]
  rfl

end Run

/-- The readable tokens that a session has sent to a provider, in order. -/
def sent (key : BetaProvider × String) (turns : List Turn) : List Token :=
  (turns.filter fun t => t.key = key ∧ t.Readable).flatMap Turn.tokens

/-- The sessions of a run, each with its provider, fit into a tracker. -/
def WithinCapacity (capacity : ℕ) (turns : List Turn) : Prop := (turns.map Turn.key).dedup.length ≤ capacity

instance (capacity : ℕ) (turns : List Turn) : Decidable (WithinCapacity capacity turns) :=
  inferInstanceAs (Decidable (_ ≤ _))

theorem WithinCapacity.mono {capacity : ℕ} {turns turns' : List Turn} (h : WithinCapacity capacity turns')
    (hsubset : turns ⊆ turns') : WithinCapacity capacity turns := by
  refine Nat.le_trans (List.Subperm.length_le ?_) h
  refine List.subperm_of_subset (List.nodup_dedup _) fun k hk => ?_
  rw [List.mem_dedup] at hk ⊢
  exact List.map_subset Turn.key hsubset hk

theorem sent_append (key : BetaProvider × String) (turns turns' : List Turn) :
    sent key (turns ++ turns') = sent key turns ++ sent key turns' := by
  rw [sent, List.filter_append, List.flatMap_append]
  rfl

theorem sent_singleton (key : BetaProvider × String) (t : Turn) :
    sent key [t] = if t.key = key ∧ t.Readable then t.tokens else [] := by
  rw [sent, List.filter_singleton]
  by_cases h : t.key = key ∧ t.Readable
  · rw [if_pos h, decide_eq_true h, cond_true, List.flatMap_singleton]
  · rw [if_neg h, decide_eq_false h]
    rfl

theorem sent_filter (key : BetaProvider × String) (turns : List Turn) :
    sent key (turns.filter fun t => t.key = key) = sent key turns := by
  rw [sent, List.filter_filter, sent]
  refine congrArg (List.flatMap Turn.tokens) (List.filter_congr fun t _ => ?_)
  by_cases hkey : t.key = key <;> simp [hkey]

/-! ### One request -/

section Documented

variable {o : HeaderText} (ho : o.Documented)
include ho

/-- A header with a line that is no text is left alone. -/
theorem step_of_not_readable {t : Turn} (h : ¬ t.Readable) (sessions : SessionTokenCache) :
    step o sessions t = (t.headers, sessions) := by
  have hnot : ¬ ∀ line ∈ getAll t.headers t.provider.headerName, isVisible line = true := h
  have hcollect : collectClientBetas o t.headers t.provider.headerName = none := by
    rw [collectClientBetas, ho.mapM_toStr, if_neg hnot]
  rw [step, applyStickyBetas, hcollect]

theorem exists_clientValue {t : Turn} (h : t.Readable) :
    ∃ value, collectClientBetas o t.headers t.provider.headerName = some value ∧
      splitBetaTokens value = t.tokens ∧ splitBetaTokens (some (value.getD [])) = t.tokens := by
  have hall : ∀ line ∈ getAll t.headers t.provider.headerName, isVisible line = true := h
  have htokens : splitBetaTokens (some (join ((getAll t.headers t.provider.headerName).map latin1))) = t.tokens := by
    rw [splitBetaTokens_lines, List.flatMap_map]
    rfl
  rw [collectClientBetas, ho.mapM_toStr, if_pos hall]
  refine ⟨_, rfl, ?_⟩
  split_ifs with hnil
  · rw [hnil] at htokens
    exact ⟨htokens, htokens⟩
  · exact ⟨htokens, htokens⟩

theorem betaTokens_rewriteStickyHeader {t : Turn} {value : Option (List Char)} {tokens : List Token}
    (hvalue : splitBetaTokens (some (value.getD [])) = t.tokens)
    (htokens : ∀ x ∈ tokens, IsToken x ∧ IsVisibleText x) (hnil : tokens = [] → t.tokens = []) :
    betaTokens t.provider
      (rewriteStickyHeader o t.headers t.provider.headerName (join tokens) value) = tokens := by
  have htoken : ∀ x ∈ tokens, IsToken x := fun x hx => (htokens x hx).1
  rw [rewriteStickyHeader]
  split_ifs with hrewrite
  · obtain ⟨line, hline, hread⟩ := ho.fromStr_of_visible (join tokens)
      (isVisibleText_join fun x hx => (htokens x hx).2)
    have hlatin : latin1 line = join tokens := by
      rw [ho.toStr_eq] at hread
      split_ifs at hread with hvisible
      exact Option.some.inj hread
    rw [hline, betaTokens, getAll_insert, List.flatMap_singleton, hlatin, splitBetaTokens_join htoken]
  · by_cases hempty : join tokens = []
    · have htokens_nil : tokens = [] := (join_eq_nil_iff htoken).mp hempty
      rw [htokens_nil]
      exact hnil htokens_nil
    · have hsame : join tokens = value.getD [] := by
        by_contra hne
        exact hrewrite ⟨hempty, hne⟩
      show t.tokens = tokens
      rw [← hvalue, ← hsame, splitBetaTokens_join htoken]

end Documented

/-- The tokens of a session together with those of a request. -/
def mergedTokens (sessions : SessionTokenCache) (t : Turn) : List Token :=
  pushUnseen toAsciiLowercase ((held sessions t.key).map toAsciiLowercase) (held sessions t.key) t.tokens

section Documented

variable {o : HeaderText} (ho : o.Documented)
include ho

/-- A readable request goes upstream with the tokens of its session, which are held from then on. -/
theorem step_of_readable {t : Turn} (h : t.Readable) (sessions : SessionTokenCache) :
    (step o sessions t).2 = sessions.put t.key (mergedTokens sessions t) ∧
      ((∀ x ∈ mergedTokens sessions t, IsToken x ∧ IsVisibleText x) →
        (mergedTokens sessions t = [] → t.tokens = []) →
        betaTokens t.provider (step o sessions t).1 = mergedTokens sessions t) ∧
      ∀ sessions' : SessionTokenCache, held sessions' t.key = held sessions t.key →
        (step o sessions' t).1 = (step o sessions t).1 := by
  obtain ⟨value, hcollect, htokens, hvalue⟩ := exists_clientValue ho h
  have hstep : ∀ sessions : SessionTokenCache, step o sessions t =
      (rewriteStickyHeader o t.headers t.provider.headerName (join (mergedTokens sessions t)) value,
        sessions.put t.key (mergedTokens sessions t)) := by
    intro sessions
    simp only [step, applyStickyBetas, hcollect, recordAndGetStickyBetas_eq, htokens]
    rfl
  refine ⟨by rw [hstep], ?_, ?_⟩
  · intro hmerged hnil
    rw [hstep]
    exact betaTokens_rewriteStickyHeader ho hvalue hmerged hnil
  · intro sessions' hheld
    rw [hstep, hstep, mergedTokens, mergedTokens, hheld]

end Documented

/-! ### What the tracker holds -/

/-- After some requests the tracker holds the first occurrences of the tokens of every session. -/
structure Tracks (capacity : ℕ) (turns : List Turn) (sessions : SessionTokenCache) : Prop where
  capacity_eq : sessions.capacity = capacity
  mem_keys : ∀ e ∈ sessions.entries, e.1 ∈ turns.map Turn.key
  held_eq : ∀ key, held sessions key = firstSeen toAsciiLowercase (sent key turns)

theorem tracks_empty (capacity : ℕ) (h : 0 < capacity) : Tracks capacity [] (Lru.empty capacity h) where
  capacity_eq := rfl
  mem_keys := fun _ he => absurd he List.not_mem_nil
  held_eq := fun _ => rfl

theorem isToken_of_mem_sent {key : BetaProvider × String} {turns : List Turn} {x : Token}
    (h : x ∈ sent key turns) : IsToken x ∧ IsVisibleText x := by
  obtain ⟨t, ht, hx⟩ := List.mem_flatMap.mp h
  obtain ⟨line, hline, hx⟩ := List.mem_flatMap.mp hx
  have hreadable : t.Readable := (of_decide_eq_true (List.mem_filter.mp ht).2).2
  refine ⟨isToken_of_mem_splitBetaTokens hx, fun c hc => ?_⟩
  exact isVisibleText_latin1 (hreadable line hline) c (subset_of_mem_splitBetaTokens hx hc)

namespace Tracks

variable {capacity : ℕ} {turns : List Turn} {sessions : SessionTokenCache} {t : Turn}

/-- A session that is not held finds room within the capacity. -/
theorem length_lt (h : Tracks capacity turns sessions) (hcapacity : WithinCapacity capacity (turns ++ [t]))
    (hnone : sessions.peek t.key = none) : sessions.entries.length < sessions.capacity := by
  have hnotMem : t.key ∉ sessions.entries.map Prod.fst := by
    rw [List.mem_map]
    rintro ⟨e, he, hkey⟩
    have hpeek := (sessions.peek_eq_some_iff e.1 e.2).mpr he
    rw [hkey, hnone] at hpeek
    exact Option.some_ne_none _ hpeek.symm
  have hsubset : t.key :: sessions.entries.map Prod.fst ⊆ ((turns ++ [t]).map Turn.key).dedup := by
    intro k hk
    rw [List.mem_dedup, List.map_append, List.mem_append]
    rcases List.mem_cons.mp hk with rfl | hk
    · exact Or.inr List.mem_cons_self
    · obtain ⟨e, he, rfl⟩ := List.mem_map.mp hk
      exact Or.inl (h.mem_keys e he)
  have hlength := (List.subperm_of_subset (List.nodup_cons.mpr ⟨hnotMem, sessions.nodup⟩) hsubset).length_le
  rw [List.length_cons, List.length_map] at hlength
  have hcap := h.capacity_eq
  unfold WithinCapacity at hcapacity
  omega

theorem displaced_ne (h : Tracks capacity turns sessions) (hcapacity : WithinCapacity capacity (turns ++ [t]))
    {key : BetaProvider × String} (hkey : key ≠ t.key) (tokens : List Token) :
    sessions.displaced t.key ≠ some (key, tokens) := by
  rw [Lru.displaced]
  rcases hpeek : sessions.peek t.key with _ | tokens'
  · rw [if_pos (h.length_lt hcapacity hpeek)]
    simp
  · intro heq
    exact hkey (congrArg Prod.fst (Option.some.inj heq)).symm

theorem mergedTokens_eq (h : Tracks capacity turns sessions) (hreadable : t.Readable) :
    mergedTokens sessions t = firstSeen toAsciiLowercase (sent t.key (turns ++ [t])) := by
  rw [mergedTokens, h.held_eq, pushUnseen_firstSeen, sent_append, sent_singleton, if_pos ⟨rfl, hreadable⟩]

theorem step {o : HeaderText} (ho : o.Documented) (h : Tracks capacity turns sessions)
    (hcapacity : WithinCapacity capacity (turns ++ [t])) :
    Tracks capacity (turns ++ [t]) (step o sessions t).2 := by
  by_cases hreadable : t.Readable
  · rw [(step_of_readable ho hreadable sessions).1]
    refine ⟨h.capacity_eq, fun e he => ?_, fun key => ?_⟩
    · rw [List.map_append, List.mem_append]
      rcases Lru.mem_put he with rfl | ⟨he, -⟩
      · exact Or.inr List.mem_cons_self
      · exact Or.inl (h.mem_keys e he)
    · by_cases hkey : key = t.key
      · rw [hkey, held, Lru.peek_put_self, Option.getD_some, h.mergedTokens_eq hreadable]
      · rw [held, Lru.peek_put_of_not_displaced hkey (h.displaced_ne hcapacity hkey), sent_append, sent_singleton,
          if_neg fun hsame => hkey hsame.1.symm, List.append_nil]
        exact h.held_eq key
  · rw [step_of_not_readable ho hreadable]
    refine ⟨h.capacity_eq, fun e he => ?_, fun key => ?_⟩
    · rw [List.map_append, List.mem_append]
      exact Or.inl (h.mem_keys e he)
    · rw [sent_append, sent_singleton, if_neg fun hsame => hreadable hsame.2, List.append_nil]
      exact h.held_eq key

end Tracks

/-- A run within the capacity is tracked without loss. -/
theorem tracks_after {o : HeaderText} (ho : o.Documented) {capacity : ℕ} (hpos : 0 < capacity) {turns : List Turn}
    (hcapacity : WithinCapacity capacity turns) :
    Tracks capacity turns (after o (Lru.empty capacity hpos) turns) := by
  induction turns using List.reverseRecOn with
  | nil => exact tracks_empty capacity hpos
  | append_singleton turns t ih =>
    rw [after_append]
    exact (ih (hcapacity.mono (List.subset_append_left _ _))).step ho hcapacity

/-! ### What goes upstream -/

section Forwarded

variable {o : HeaderText} (ho : o.Documented) {capacity : ℕ} (hpos : 0 < capacity)
include ho

/-- The tokens of a readable request upstream. -/
theorem betaTokens_forwarded {before : List Turn} {t : Turn} (hcapacity : WithinCapacity capacity (before ++ [t]))
    (hreadable : t.Readable) :
    betaTokens t.provider (forwarded o (Lru.empty capacity hpos) before t) =
      firstSeen toAsciiLowercase (sent t.key (before ++ [t])) := by
  have htracks := tracks_after ho hpos (hcapacity.mono (List.subset_append_left before [t]))
  have hmerged := htracks.mergedTokens_eq hreadable
  rw [forwarded, (step_of_readable ho hreadable _).2.1, hmerged]
  · intro x hx
    rw [hmerged] at hx
    exact isToken_of_mem_sent (mem_of_mem_firstSeen _ hx)
  · intro hnil
    rw [hmerged, firstSeen_eq_nil_iff, sent_append, List.append_eq_nil_iff, sent_singleton,
      if_pos ⟨rfl, hreadable⟩] at hnil
    exact hnil.2

theorem forwarded_filter {before : List Turn} {t : Turn} (hcapacity : WithinCapacity capacity (before ++ [t])) :
    forwarded o (Lru.empty capacity hpos) before t =
      forwarded o (Lru.empty capacity hpos) (before.filter fun u => u.key = t.key) t := by
  have hbefore := hcapacity.mono (List.subset_append_left before [t])
  have htracks := tracks_after ho hpos hbefore
  have hown : before.filter (fun u => u.key = t.key) ⊆ before := List.filter_sublist.subset
  have htracks' := tracks_after ho hpos (hbefore.mono hown)
  by_cases hreadable : t.Readable
  · refine (step_of_readable ho hreadable _).2.2 _ ?_
    rw [htracks.held_eq, htracks'.held_eq, sent_filter]
  · rw [forwarded, forwarded, step_of_not_readable ho hreadable, step_of_not_readable ho hreadable]

/-- Within the capacity, the tokens of a readable request upstream are the first occurrences of the readable tokens
that its session has sent to its provider: they go on from those of every earlier readable request of the session,
and no other session or provider has a part in them. A request with a line that is no visible ASCII goes upstream as
it is and leaves the tracker alone. -/
theorem forwarded_sticky (before : List Turn) (t : Turn) (hcapacity : WithinCapacity capacity (before ++ [t])) :
    (t.Readable → betaTokens t.provider (forwarded o (Lru.empty capacity hpos) before t) =
      firstSeen toAsciiLowercase (sent t.key (before ++ [t]))) ∧
    (¬ t.Readable → forwarded o (Lru.empty capacity hpos) before t = t.headers ∧
      after o (Lru.empty capacity hpos) (before ++ [t]) = after o (Lru.empty capacity hpos) before) ∧
    (∀ front u back, before = front ++ u :: back → u.key = t.key → u.Readable → t.Readable →
      betaTokens u.provider (forwarded o (Lru.empty capacity hpos) front u) <+:
        betaTokens t.provider (forwarded o (Lru.empty capacity hpos) before t)) ∧
    (∀ x ∈ betaTokens t.provider (forwarded o (Lru.empty capacity hpos) before t),
      ∃ u ∈ before ++ [t], u.key = t.key ∧ x ∈ u.tokens) ∧
    forwarded o (Lru.empty capacity hpos) before t =
      forwarded o (Lru.empty capacity hpos) (before.filter fun u => u.key = t.key) t := by
  refine ⟨betaTokens_forwarded ho hpos hcapacity, fun hnot => ?_, ?_, ?_, forwarded_filter ho hpos hcapacity⟩
  · rw [after_append, forwarded, step_of_not_readable ho hnot]
    exact ⟨rfl, rfl⟩
  · rintro front u back rfl hkey hu ht
    have hsplit : (front ++ u :: back) ++ [t] = (front ++ [u]) ++ (back ++ [t]) := by
      simp only [List.append_assoc, List.cons_append, List.nil_append]
    have hfront : WithinCapacity capacity (front ++ [u]) := by
      rw [hsplit] at hcapacity
      exact hcapacity.mono (List.subset_append_left _ _)
    rw [betaTokens_forwarded ho hpos hfront hu, betaTokens_forwarded ho hpos hcapacity ht, hsplit, hkey,
      sent_append t.key (front ++ [u])]
    exact firstSeen_prefix_append _ _ _
  · intro x hx
    by_cases hreadable : t.Readable
    · rw [betaTokens_forwarded ho hpos hcapacity hreadable] at hx
      obtain ⟨u, hu, hmem⟩ := List.mem_flatMap.mp (mem_of_mem_firstSeen _ hx)
      obtain ⟨hin, hown⟩ := List.mem_filter.mp hu
      exact ⟨u, hin, (of_decide_eq_true hown).1, hmem⟩
    · rw [forwarded, step_of_not_readable ho hreadable] at hx
      exact ⟨t, List.mem_append_right _ List.mem_cons_self, rfl, hx⟩

end Forwarded

/-- Conversions that do what is documented. -/
def asciiText : HeaderText where
  toStr := Semantic.toStr?
  fromStr text :=
    if text.all fun c => (32 ≤ c.toNat && c.toNat < 127) || c = '\t' then
      some (text.map fun c => UInt8.ofNat c.toNat)
    else none

theorem asciiText_documented : asciiText.Documented where
  toStr_eq := fun _ => rfl
  fromStr_of_visible := by
    intro text htext
    have hbyte : ∀ c ∈ text, (UInt8.ofNat c.toNat).toNat = c.toNat := by
      intro c hc
      refine UInt8.toNat_ofNat_of_lt' (?_ : c.toNat < 256)
      rcases htext c hc with ⟨-, hlt⟩ | rfl
      · omega
      · decide
    have hvisible : isVisible (text.map fun c => UInt8.ofNat c.toNat) = true := by
      refine List.all_eq_true.mpr fun b hb => ?_
      obtain ⟨c, hc, rfl⟩ := List.mem_map.mp hb
      rcases htext c hc with hrange | rfl
      · simp only [Bool.or_eq_true, Bool.and_eq_true, decide_eq_true_eq, UInt8.le_iff_toNat_le,
          UInt8.lt_iff_toNat_lt, hbyte c hc]
        exact Or.inl hrange
      · decide
    have hread : latin1 (text.map fun c => UInt8.ofNat c.toNat) = text := by
      rw [latin1, List.map_map]
      refine (List.map_congr_left fun c hc => ?_).trans (List.map_id _)
      show Char.ofNat (UInt8.ofNat c.toNat).toNat = c
      rw [hbyte c hc, Char.ofNat_toNat]
    refine ⟨text.map fun c => UInt8.ofNat c.toNat, ?_, ?_⟩
    · have hall : (text.all fun c => (32 ≤ c.toNat && c.toNat < 127) || c = '\t') = true := by
        refine List.all_eq_true.mpr fun c hc => ?_
        simpa using htext c hc
      show (if _ then _ else _) = _
      rw [if_pos hall]
    · show Semantic.toStr? _ = _
      rw [Semantic.toStr?, if_pos hvisible, hread]

/-- Two turns of a session, with another session between them that sends the same token to the other provider. -/
theorem forwarded_sticky_two :
    betaTokens .Anthropic (forwarded asciiText (Lru.empty 2 (by decide))
      [⟨.Anthropic, "s", [("anthropic-beta", ascii "b, a")]⟩, ⟨.OpenAi, "s", [("openai-beta", ascii "c")]⟩]
      ⟨.Anthropic, "s", [("anthropic-beta", ascii "A,d")]⟩) = ["b".toList, "a".toList, "d".toList] :=
  ((forwarded_sticky asciiText_documented (by decide) _ _ (by decide)).1 (by decide)).trans (by decide)

/-- A request with a line that is not visible ASCII goes upstream without the tokens that its session has sent
before. -/
theorem not_forwarded_sticky :
    ∃ t u : Turn, t.key = u.key ∧ WithinCapacity 1 [t, u] ∧
      betaTokens u.provider (forwarded asciiText (Lru.empty 1 (by decide)) [t] u) ≠
        firstSeen toAsciiLowercase ([t, u].flatMap Turn.tokens) :=
  ⟨⟨.Anthropic, "s", [("anthropic-beta", ascii "a")]⟩, ⟨.Anthropic, "s", [("anthropic-beta", [98, 250])]⟩,
    by decide +kernel⟩

end Headroom.CacheStabilization
