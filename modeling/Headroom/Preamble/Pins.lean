import Mathlib.Data.List.Dedup
import Mathlib.Data.List.Induction
import Headroom.Foundation.Json
import Headroom.Foundation.Lru
import Headroom.Foundation.Threading

/-!
# Pins on the system preamble

Some of the preamble changes in the middle of a conversation and would cost its cached prefix. A store keeps the
value with which each conversation opened, for a while, and writes it over the one that the client sends later.
Two values are held this way, each with its own reading and writing of the preamble.
-/

open Foundation

namespace Headroom.Preamble

/-! ### The texts of a preamble -/

/-- The text of each block of a preamble, or the preamble when it is a text. -/
def systemTexts : Json → List String
  | .str text => [text]
  | .arr blocks => blocks.filterMap fun block => block.getStr? "text"
  | _ => []

/-- A block with its text rewritten, if it has one. -/
def onText {σ : Type} (f : String → σ → String × σ) (block : Json) (s : σ) : Json × σ :=
  match block.getStr? "text" with
  | some text => (block.insert "text" (.str (f text s).1), (f text s).2)
  | none => (block, s)

/-- The texts of a preamble rewritten one after the other. -/
def mapTexts {σ : Type} (f : String → σ → String × σ) : Json → σ → Json × σ
  | .str text, s => (.str (f text s).1, (f text s).2)
  | .arr blocks, s => (.arr (thread (onText f) blocks s).1, (thread (onText f) blocks s).2)
  | j, s => (j, s)

/-- Rewriting a preamble rewrites its texts. -/
theorem systemTexts_mapTexts {σ : Type} (f : String → σ → String × σ) (system : Json) (s : σ) :
    systemTexts (mapTexts f system s).1 = (thread f (systemTexts system) s).1 ∧
      (mapTexts f system s).2 = (thread f (systemTexts system) s).2 := by
  cases system with
  | str text => exact ⟨rfl, rfl⟩
  | arr blocks =>
    simp only [mapTexts, systemTexts]
    induction blocks generalizing s with
    | nil => exact ⟨rfl, rfl⟩
    | cons block blocks ih =>
      rw [thread_cons]
      cases htext : block.getStr? "text" with
      | none =>
        have hblock : onText f block s = (block, s) := by rw [onText, htext]
        rw [hblock, List.filterMap_cons_none htext, List.filterMap_cons_none htext]
        exact ih s
      | some text =>
        have hblock : onText f block s = (block.insert "text" (.str (f text s).1), (f text s).2) := by
          rw [onText, htext]
        have hnew (t : String) : (block.insert "text" (.str t)).getStr? "text" = some t := by
          obtain ⟨value, hvalue, -⟩ := Option.bind_eq_some_iff.1 htext
          rw [Json.getStr?, Json.get?_insert_self hvalue]
          rfl
        obtain ⟨htexts, hstate⟩ := ih (f text s).2
        rw [hblock, List.filterMap_cons_some htext, thread_cons, List.filterMap_cons_some (hnew _)]
        exact ⟨congrArg (_ :: ·) htexts, hstate⟩
  | null => exact ⟨rfl, rfl⟩
  | bool b => exact ⟨rfl, rfl⟩
  | num literal => exact ⟨rfl, rfl⟩
  | obj fields => exact ⟨rfl, rfl⟩

theorem mapTexts_mapTexts {σ τ : Type} {J : σ → τ → Prop} {f : String → σ → String × σ}
    {g : String → τ → String × τ} {s : σ} {t : τ} (system : Json) (hst : J s t)
    (h : ∀ text s t, J s t → g (f text s).1 t = g text t ∧ J (f text s).2 (g text t).2) :
    (mapTexts g (mapTexts f system s).1 t).1 = (mapTexts g system t).1 := by
  cases system with
  | str text => exact congrArg (fun out => Json.str (Prod.fst out)) (h text s t hst).1
  | arr blocks =>
    refine congrArg Json.arr ?_
    show (thread (onText g) (thread (onText f) blocks s).1 t).1 = (thread (onText g) blocks t).1
    induction blocks generalizing s t with
    | nil => rfl
    | cons block blocks ih =>
      rw [thread_cons, thread_cons, thread_cons]
      cases htext : block.getStr? "text" with
      | none =>
        have hf : onText f block s = (block, s) := by rw [onText, htext]
        have hg : onText g block t = (block, t) := by rw [onText, htext]
        rw [hf, hg]
        exact congrArg (_ :: ·) (ih hst)
      | some text =>
        obtain ⟨value, hvalue, -⟩ := Option.bind_eq_some_iff.1 htext
        have hnew : (block.insert "text" (.str (f text s).1)).getStr? "text" = some (f text s).1 := by
          rw [Json.getStr?, Json.get?_insert_self hvalue]
          rfl
        have hf : onText f block s = (block.insert "text" (.str (f text s).1), (f text s).2) := by
          rw [onText, htext]
        have hg : onText g block t = (block.insert "text" (.str (g text t).1), (g text t).2) := by
          rw [onText, htext]
        have hgf : onText g (block.insert "text" (.str (f text s).1)) t =
            (block.insert "text" (.str (g text t).1), (g text t).2) := by
          rw [onText, hnew]
          show ((block.insert "text" _).insert "text" _, _) = _
          rw [Json.insert_insert, (h text s t hst).1]
        rw [hf, hg, hgf]
        exact congrArg (_ :: ·) (ih (h text s t hst).2)
  | null => rfl
  | bool b => rfl
  | num literal => rfl
  | obj fields => rfl

/-! ### The store -/

/-- What a hold did. -/
inductive Hold where
  | held (live : String)
  | latched
  | relatched
  | matched
  | absent
  | reshaped
  | notWritable
  deriving DecidableEq

/-- How long a pin outlives the latch, in nanoseconds. -/
def PIN_TTL : ℕ := 2 * 3600 * 1000000000

/-- A value of the preamble that is held: how it is read and written, whether one fits where another is, how it is
named, and what is said at the tail when it is displaced. -/
structure Pinned (V : Type) where
  read : Json → Option V
  write : V → Json → Json × Bool
  fits : V → V → Bool
  name : V → String
  note : V → V → Json → Json

namespace Pinned

variable {V : Type} (P : Pinned V)

/-- The pins of the conversations, each with the time at which it was latched. -/
abbrev Pins (V : Type) : Type := Lru String (V × ℕ)

/-- Hold a conversation's value: what was done, the body that is forwarded and the pins. -/
def hold [DecidableEq V] (pins : Pins V) (now : ℕ) (body : Json) (key : String) : Hold × Json × Pins V :=
  match body.get? "system" with
  | none => (.absent, body, pins)
  | some system =>
    match P.read system with
    | none => (.absent, body, pins)
    | some live =>
      let pins' := (pins.get key).2
      match (pins.get key).1 with
      | none => (.latched, body, pins'.put key (live, now))
      | some (held, latched) =>
        if PIN_TTL < now - latched then (.relatched, body, pins'.put key (live, now))
        else if held = live then (.matched, body, pins')
        else if P.fits held live = false then (.reshaped, body, pins')
        else
          let written := P.write held system
          if written.2 = false then (.notWritable, body.insert "system" written.1, pins')
          else (.held (P.name live), P.note live held (body.insert "system" written.1), pins')

/-- What the hold would forward, without latching and without the note: the client's preamble when it is another
one, and the body. -/
def preview [DecidableEq V] (pins : Pins V) (now : ℕ) (body : Json) (key : String) : Option Json × Json :=
  match body.get? "system" with
  | none => (none, body)
  | some system =>
    match P.read system with
    | none => (none, body)
    | some live =>
      match pins.peek key with
      | none => (none, body)
      | some (held, latched) =>
        if PIN_TTL < now - latched then (none, body)
        else if held = live ∨ P.fits held live = false then (none, body)
        else
          let written := P.write held system
          if written.2 = false then (none, body) else (some system, body.insert "system" written.1)

/-- Copy the pin of one conversation to another that has none. -/
def inheritPin (pins : Pins V) (fromKey toKey : String) : Pins V × Bool :=
  if fromKey = toKey then (pins, false)
  else
    match pins.peek toKey with
    | some _ => (pins, false)
    | none =>
      match pins.peek fromKey with
      | none => (pins, false)
      | some entry => (pins.put toKey entry, true)

/-! ### Runs -/

end Pinned

/-- A step of the proxy: a request of a conversation, or one conversation taking over the pin of another. -/
inductive Event where
  | request (key : String) (body : Json) (now : ℕ)
  | inherit (fromKey toKey : String)

/-- The conversation whose pin an event may set. -/
def Event.key : Event → String
  | .request key _ _ => key
  | .inherit _ toKey => toKey

namespace Pinned

variable {V : Type} (P : Pinned V)

def step [DecidableEq V] (pins : Pins V) : Event → Pins V
  | .request key body now => (P.hold pins now body key).2.2
  | .inherit fromKey toKey => (inheritPin pins fromKey toKey).1

/-- The pins after some events. -/
def run [DecidableEq V] (capacity : ℕ) (hcapacity : 0 < capacity) (events : List Event) : Pins V :=
  events.foldl P.step (Lru.empty capacity hcapacity)

/-- The value that a body shows. -/
def live (body : Json) : Option V := (body.get? "system").bind P.read

/-- The pins as a table without limits, in which the first value of a conversation stays. -/
def table (pin : String → Option (V × ℕ)) : Event → String → Option (V × ℕ)
  | .request key body now, k =>
    if k = key ∧ pin k = none then (P.live body).map fun live => (live, now) else pin k
  | .inherit fromKey toKey, k => if k = toKey ∧ pin k = none then pin fromKey else pin k

/-- The value with which a conversation opened, or which it took over, and when it was latched. -/
def pinOf (events : List Event) : String → Option (V × ℕ) := events.foldl P.table fun _ => none

/-- The events stay within the limits of a store: no more conversations than fit, and no request after the pin of
its conversation ran out. -/
structure Within (capacity : ℕ) (events : List Event) : Prop where
  room : (events.map Event.key).dedup.length ≤ capacity
  alive : ∀ before key body now, before ++ [Event.request key body now] <+: events →
    ∀ pin, P.pinOf before key = some pin → now - pin.2 ≤ PIN_TTL

variable {P}

variable {capacity : ℕ} {events : List Event}

theorem Within.of_prefix {before events : List Event} (h : P.Within capacity events)
    (hbefore : before <+: events) : P.Within capacity before := by
  refine ⟨?_, fun front key body now hfront => h.alive front key body now (hfront.trans hbefore)⟩
  have hsub : (before.map Event.key).dedup ⊆ (events.map Event.key).dedup := fun k hk => by
    rw [List.mem_dedup] at hk ⊢
    exact (hbefore.map Event.key).subset hk
  exact ((List.subperm_of_subset (List.nodup_dedup _) hsub).length_le).trans h.room

theorem pinOf_concat (events : List Event) (e : Event) :
    P.pinOf (events ++ [e]) = P.table (P.pinOf events) e := by
  rw [pinOf, List.foldl_append]
  rfl

variable {pin : V × ℕ}

theorem pinOf_append {key : String} (h : P.pinOf events key = some pin)
    (more : List Event) : P.pinOf (events ++ more) key = some pin := by
  induction more using List.reverseRecOn with
  | nil => rwa [List.append_nil]
  | append_singleton more e ih =>
    rw [← List.append_assoc, pinOf_concat]
    cases e with
    | request k body now =>
      show (if _ then _ else _) = _
      rw [if_neg fun hk => ?_, ih]
      rw [ih] at hk
      cases hk.2
    | inherit fromKey toKey =>
      show (if _ then _ else _) = _
      rw [if_neg fun hk => ?_, ih]
      rw [ih] at hk
      cases hk.2

/-! ### The store within its limits -/

theorem peek_put_of_lt {pins : Pins V} {key : String}
    (h : (pins.others key).length < pins.capacity) (k : String) :
    (pins.put key pin).peek k = if k = key then some pin else pins.peek k := by
  split_ifs with hk
  · rw [hk, Lru.peek_put_self]
  · ext value
    rw [Lru.peek_eq_some_iff, Lru.peek_eq_some_iff, Lru.put_entries_of_lt h, List.mem_cons, Lru.others,
      List.mem_filter]
    simp [hk]

variable [DecidableEq V]

section

variable {pins : Pins V} {now : ℕ} {body system : Json} {key : String} {value : V}

theorem hold_of_absent (h : P.live body = none) : P.hold pins now body key = (.absent, body, pins) := by
  rw [live] at h
  cases hsystem : body.get? "system" with
  | none => simp only [hold, hsystem]
  | some system =>
    rw [hsystem, Option.bind_some] at h
    simp only [hold, hsystem, h]

theorem hold_of_unpinned (h : P.live body = some value) (hpin : pins.peek key = none) :
    P.hold pins now body key = (.latched, body, (pins.get key).2.put key (value, now)) := by
  obtain ⟨system, hsystem, hread⟩ := Option.bind_eq_some_iff.1 h
  simp only [hold, hsystem, hread, Lru.get_fst, hpin]

theorem hold_of_pinned (hsystem : body.get? "system" = some system)
    (hread : P.read system = some value) (hpin : pins.peek key = some pin) (halive : now - pin.2 ≤ PIN_TTL) :
    P.hold pins now body key =
      if pin.1 = value then (.matched, body, (pins.get key).2)
      else if P.fits pin.1 value = false then (.reshaped, body, (pins.get key).2)
      else if (P.write pin.1 system).2 = false then
        (.notWritable, body.insert "system" (P.write pin.1 system).1, (pins.get key).2)
      else (.held (P.name value), P.note value pin.1 (body.insert "system" (P.write pin.1 system).1),
        (pins.get key).2) := by
  simp only [hold, hsystem, hread, Lru.get_fst, hpin]
  rw [if_neg (by omega)]

theorem preview_of_pinned (hsystem : body.get? "system" = some system)
    (hread : P.read system = some value) (hpin : pins.peek key = some pin) (halive : now - pin.2 ≤ PIN_TTL) :
    P.preview pins now body key =
      if pin.1 = value ∨ P.fits pin.1 value = false then (none, body)
      else if (P.write pin.1 system).2 = false then (none, body)
      else (some system, body.insert "system" (P.write pin.1 system).1) := by
  simp only [preview, hsystem, hread, hpin]
  rw [if_neg (by omega)]

end

theorem step_cases (pins : Pins V) (e : Event)
    (halive : ∀ key body now pin, e = .request key body now → pins.peek key = some pin → now - pin.2 ≤ PIN_TTL) :
    ((P.step pins e).peek = pins.peek ∧ (P.step pins e).capacity = pins.capacity ∧
        P.table pins.peek e = pins.peek) ∨
      ∃ (pins' : Pins V) (pin : V × ℕ), P.step pins e = pins'.put e.key pin ∧ pins'.peek = pins.peek ∧ pins'.capacity = pins.capacity ∧
        P.table pins.peek e = fun k => if k = e.key then some pin else pins.peek k := by
  cases e with
  | request key body now =>
    have hget : (pins.get key).2.peek = pins.peek := funext fun k => Lru.peek_get pins key k
    have hcapacity : (pins.get key).2.capacity = pins.capacity := by
      unfold Lru.get
      split <;> rfl
    have hkeep (hlive : P.live body = none ∨ pins.peek key ≠ none) :
        P.table pins.peek (.request key body now) = pins.peek := by
      funext k
      show (if _ then _ else _) = _
      split_ifs with hk
      · obtain hlive | hlive := hlive
        · rw [hlive, hk.2]
          rfl
        · exact absurd (hk.1 ▸ hk.2) hlive
      · rfl
    cases hlive : P.live body with
    | none =>
      refine .inl ⟨?_, ?_, hkeep (.inl hlive)⟩
      · rw [step, hold_of_absent hlive]
      · rw [step, hold_of_absent hlive]
    | some value =>
      cases hpeek : pins.peek key with
      | none =>
        refine .inr ⟨(pins.get key).2, (value, now), ?_, hget, hcapacity, funext fun k => ?_⟩
        · rw [step, hold_of_unpinned hlive hpeek]
          rfl
        · show (if _ then _ else _) = if k = key then _ else _
          by_cases hk : k = key
          · rw [if_pos ⟨hk, hk ▸ hpeek⟩, if_pos hk, hlive]
            rfl
          · rw [if_neg fun h => hk h.1, if_neg hk]
      | some pin =>
        obtain ⟨system, hsystem, hread⟩ := Option.bind_eq_some_iff.1 hlive
        have hpins : (P.hold pins now body key).2.2 = (pins.get key).2 := by
          rw [hold_of_pinned hsystem hread hpeek (halive key body now pin rfl hpeek)]
          split_ifs <;> rfl
        rw [step, hpins]
        exact .inl ⟨hget, hcapacity, hkeep (.inr (by rw [hpeek]; simp))⟩
  | inherit fromKey toKey =>
    have hkeep (hpin : pins.peek toKey ≠ none ∨ pins.peek fromKey = none ∨ fromKey = toKey) :
        P.table pins.peek (.inherit fromKey toKey) = pins.peek := by
      funext k
      show (if _ then _ else _) = _
      split_ifs with hk
      · obtain hpin | hpin | rfl := hpin
        · exact absurd (hk.1 ▸ hk.2) hpin
        · rw [hpin, hk.2]
        · rw [hk.1]
      · rfl
    simp only [step, inheritPin]
    split_ifs with hsame
    · exact .inl ⟨rfl, rfl, hkeep (.inr (.inr hsame))⟩
    · cases hto : pins.peek toKey with
      | some pin => exact .inl ⟨rfl, rfl, hkeep (.inl (by rw [hto]; simp))⟩
      | none =>
        cases hfrom : pins.peek fromKey with
        | none => exact .inl ⟨rfl, rfl, hkeep (.inr (.inl hfrom))⟩
        | some pin =>
          refine .inr ⟨pins, pin, rfl, rfl, rfl, funext fun k => ?_⟩
          show (if _ then _ else _) = if k = toKey then _ else _
          by_cases hk : k = toKey
          · rw [if_pos ⟨hk, hk ▸ hto⟩, if_pos hk, hfrom]
          · rw [if_neg fun h => hk h.1, if_neg hk]

theorem peek_run (hcapacity : 0 < capacity) (h : P.Within capacity events) :
    (P.run capacity hcapacity events).peek = P.pinOf events ∧
      (P.run capacity hcapacity events).capacity = capacity ∧
      ∀ entry ∈ (P.run capacity hcapacity events).entries, entry.1 ∈ events.map Event.key := by
  induction events using List.reverseRecOn with
  | nil => exact ⟨rfl, rfl, fun entry hentry => by cases hentry⟩
  | append_singleton events e ih =>
    obtain ⟨hpeek, hcap, hkeys⟩ := ih (h.of_prefix (List.prefix_append _ _))
    have hrun : P.run capacity hcapacity (events ++ [e]) = P.step (P.run capacity hcapacity events) e := by
      rw [run, List.foldl_append]
      rfl
    have hknown {pins : Pins V} (hp : pins.peek = (P.run capacity hcapacity events).peek) :
        ∀ entry ∈ pins.entries, entry.1 ∈ events.map Event.key := by
      intro entry hentry
      have hin := (Lru.peek_eq_some_iff _ entry.1 entry.2).2 hentry
      rw [hp] at hin
      exact hkeys entry ((Lru.peek_eq_some_iff _ entry.1 entry.2).1 hin)
    have hcases := step_cases (P := P) (P.run capacity hcapacity events) e fun key body now pin he hpin => by
      subst he
      exact h.alive events key body now (List.prefix_refl _) pin (by rwa [← hpeek])
    rw [hrun, pinOf_concat, ← hpeek]
    obtain ⟨hsame, hcapSame, htable⟩ | ⟨pins', pin, hput, hsame, hcapSame, htable⟩ := hcases
    · refine ⟨hsame.trans htable.symm, hcapSame.trans hcap, fun entry hentry => ?_⟩
      rw [List.map_append]
      exact List.mem_append_left _ (hknown hsame entry hentry)
    · have hroom : (pins'.others e.key).length < pins'.capacity := by
        have hnodup : (e.key :: (pins'.others e.key).map Prod.fst).Nodup :=
          List.nodup_cons.2 ⟨pins'.notMem_others e.key, pins'.nodup_others e.key⟩
        have hsub : e.key :: (pins'.others e.key).map Prod.fst ⊆ ((events ++ [e]).map Event.key).dedup := by
          intro k hk
          rw [List.mem_dedup, List.map_append]
          obtain rfl | hk := List.mem_cons.1 hk
          · exact List.mem_append_right _ (by simp)
          · obtain ⟨entry, hentry, rfl⟩ := List.mem_map.1 hk
            exact List.mem_append_left _ (hknown hsame entry (List.mem_of_mem_filter hentry))
        have hle := (List.subperm_of_subset hnodup hsub).length_le
        have hroom := h.room
        rw [List.length_cons, List.length_map] at hle
        omega
      refine ⟨?_, ?_, fun entry hentry => ?_⟩
      · rw [hput, htable]
        funext k
        rw [peek_put_of_lt hroom, hsame]
      · rw [hput]
        exact hcapSame.trans hcap
      · rw [hput] at hentry
        rw [List.map_append]
        obtain rfl | ⟨hold, -⟩ := Lru.mem_put hentry
        · exact List.mem_append_right _ (by simp)
        · exact List.mem_append_left _ (hknown hsame entry hold)

/-! ### What is forwarded -/

omit [DecidableEq V] in
theorem read_of_pinOf {key : String} (h : P.pinOf events key = some pin) :
    ∃ system, P.read system = some pin.1 := by
  induction events using List.reverseRecOn generalizing key with
  | nil => cases h
  | append_singleton events e ih =>
    rw [pinOf_concat] at h
    cases e with
    | request k body now =>
      have hif : (if key = k ∧ P.pinOf events key = none then (P.live body).map fun live => (live, now)
        else P.pinOf events key) = some pin := h
      split_ifs at hif
      · obtain ⟨value, hvalue, rfl⟩ := Option.map_eq_some_iff.1 hif
        obtain ⟨system, -, hread⟩ := Option.bind_eq_some_iff.1 hvalue
        exact ⟨system, hread⟩
      · exact ih hif
    | inherit fromKey toKey =>
      have hif : (if key = toKey ∧ P.pinOf events key = none then P.pinOf events fromKey
        else P.pinOf events key) = some pin := h
      split_ifs at hif
      · exact ih hif
      · exact ih hif

omit [DecidableEq V] in
/-- How a held value is written and read back, outside of what and in which preambles. -/
structure Lawful (P : Pinned V) (SameOutside : Json → Json → Prop) (Aligned : Json → Prop) : Prop where
  same : ∀ system, SameOutside system system
  writes : ∀ {other system live held}, P.read other = some held → P.read system = some live →
    P.fits held live = true → (P.write held system).2 = true
  outside : ∀ {other system live held}, P.read other = some held → P.read system = some live →
    P.fits held live = true → SameOutside system (P.write held system).1
  reads : ∀ {other system live held}, P.read other = some held → P.read system = some live →
    P.fits held live = true → Aligned system → P.read (P.write held system).1 = some held

omit [DecidableEq V] in
/-- What becomes of a request whose preamble shows `live`, for a conversation that opened with `pin`. -/
structure Forwards (P : Pinned V) (SameOutside : Json → Json → Prop) (Aligned : Json → Prop) (pin live : V)
    (system body : Json) (out : Hold × Json) (seen : Option Json × Json) : Prop where
  writable : out.1 ≠ .notWritable
  reshaped : live ≠ pin → P.fits pin live = false → out = (.reshaped, body) ∧ seen = (none, body)
  written : live = pin ∨ P.fits pin live = true → ∃ system', seen.2 = body.insert "system" system' ∧
    SameOutside system system' ∧ (Aligned system → P.read system' = some pin)
  matched : live = pin → out = (.matched, body) ∧ seen = (none, body)
  held : live ≠ pin → P.fits pin live = true →
    out = (.held (P.name live), P.note live pin seen.2) ∧ seen.1 = some system

/-- Within the limits of the store a conversation is forwarded with the value it opened with. -/
theorem forwards_run {SameOutside : Json → Json → Prop} {Aligned : Json → Prop}
    (hP : P.Lawful SameOutside Aligned) (hcapacity : 0 < capacity)
    {key : String} {body system : Json} {now : ℕ} {value : V}
    (hwithin : P.Within capacity (events ++ [.request key body now])) (hpin : P.pinOf events key = some pin)
    (hsystem : body.get? "system" = some system) (hread : P.read system = some value) :
    P.Forwards SameOutside Aligned pin.1 value system body
      ((P.hold (P.run capacity hcapacity events) now body key).1,
        (P.hold (P.run capacity hcapacity events) now body key).2.1)
      (P.preview (P.run capacity hcapacity events) now body key) := by
  have hpeek : (P.run capacity hcapacity events).peek key = some pin := by
    rw [(peek_run hcapacity (hwithin.of_prefix (List.prefix_append _ _))).1, hpin]
  have halive := hwithin.alive events key body now (List.prefix_refl _) pin hpin
  obtain ⟨other, hother⟩ := read_of_pinOf hpin
  rw [hold_of_pinned hsystem hread hpeek halive, preview_of_pinned hsystem hread hpeek halive]
  by_cases hsame : pin.1 = value
  · rw [if_pos hsame, if_pos (.inl hsame)]
    refine ⟨nofun, fun hne => absurd hsame.symm hne, fun _ => ⟨system, ?_, hP.same system, fun _ => ?_⟩,
      fun _ => ⟨rfl, rfl⟩, fun hne => absurd hsame.symm hne⟩
    · exact (Json.insert_self hsystem).symm
    · rw [hread, hsame]
  · rw [if_neg hsame]
    have hne : value ≠ pin.1 := Ne.symm hsame
    by_cases hfits : P.fits pin.1 value = true
    · have hwrites : ¬ (P.write pin.1 system).2 = false := by
        rw [hP.writes hother hread hfits]
        simp
      have hfits' : ¬ P.fits pin.1 value = false := by rw [hfits]; simp
      rw [if_neg hfits', if_neg (not_or.2 ⟨hsame, hfits'⟩), if_neg hwrites, if_neg hwrites]
      refine ⟨nofun, fun _ h => absurd h hfits', fun _ => ⟨_, rfl, hP.outside hother hread hfits,
        hP.reads hother hread hfits⟩, fun heq => absurd heq hne, fun _ _ => ⟨rfl, rfl⟩⟩
    · have hfits' : P.fits pin.1 value = false := Bool.not_eq_true _ |>.mp hfits
      rw [if_pos hfits', if_pos (.inr hfits')]
      exact ⟨nofun, fun _ _ => ⟨rfl, rfl⟩, fun h => absurd h (not_or.2 ⟨hne, hfits⟩),
        fun heq => absurd heq hne, fun _ h => absurd h hfits⟩

end Pinned

end Headroom.Preamble
