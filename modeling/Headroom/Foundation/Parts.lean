import Headroom.Foundation.JsonObject
import Headroom.Foundation.Threading

/-!
# Parts of a value

Some parts of a value stand in it at fixed places. They can be read as a list, in the order of their
places, and written back from a list of the same length. What is left when the parts are disregarded is the
shape of the value: two values have the same shape if they are equal once the same parts are written in both.

A visitor takes the parts one after the other under a state and replaces each of them. Whatever it does, the
shape stays and the new parts are what the visitor made of the old ones.
-/

namespace Foundation

/-! ### Lists under a state, continued -/

section Thread

variable {α β γ σ : Type*}

theorem thread_append (f : α → σ → β × σ) (as as' : List α) (s : σ) :
    thread f (as ++ as') s =
      ((thread f as s).1 ++ (thread f as' (thread f as s).2).1, (thread f as' (thread f as s).2).2) := by
  induction as generalizing s with
  | nil => rfl
  | cons a as ih => rw [List.cons_append, thread_cons, ih, thread_cons, List.cons_append]

end Thread

/-- Places in a value where parts of it stand. -/
structure Parts (α β : Type*) where
  /-- The parts, in the order of their places. -/
  see : α → List β
  /-- The value with other parts at the places. -/
  fill : α → List β → α
  see_fill : ∀ a bs, bs.length = (see a).length → see (fill a bs) = bs
  fill_see : ∀ a, fill a (see a) = a
  fill_fill : ∀ a bs cs, bs.length = (see a).length → cs.length = (see a).length →
    fill (fill a bs) cs = fill a cs

namespace Parts

variable {α β γ σ : Type*}

/-! ### Parts of parts -/

section Comp

variable (q : Parts β γ)

/-- Each value of a list with its own parts from a list of all parts. -/
def fillEach : List β → List γ → List β
  | [], _ => []
  | b :: bs, cs => q.fill b (cs.take (q.see b).length) :: fillEach bs (cs.drop (q.see b).length)

variable {q}

theorem length_fillEach (bs : List β) (cs : List γ) : (q.fillEach bs cs).length = bs.length := by
  induction bs generalizing cs with
  | nil => rfl
  | cons b bs ih => rw [fillEach, List.length_cons, List.length_cons, ih]

theorem fillEach_flatMap (bs : List β) : q.fillEach bs (bs.flatMap q.see) = bs := by
  induction bs with
  | nil => rfl
  | cons b bs ih => rw [List.flatMap_cons, fillEach, List.take_left, List.drop_left, q.fill_see, ih]

theorem flatMap_fillEach {bs : List β} {cs : List γ} (h : cs.length = (bs.flatMap q.see).length) :
    (q.fillEach bs cs).flatMap q.see = cs := by
  induction bs generalizing cs with
  | nil => exact (List.length_eq_zero_iff.1 h).symm
  | cons b bs ih =>
    rw [List.flatMap_cons, List.length_append] at h
    have hfirst : (cs.take (q.see b).length).length = (q.see b).length := by
      rw [List.length_take]
      omega
    have hrest : (cs.drop (q.see b).length).length = (bs.flatMap q.see).length := by
      rw [List.length_drop]
      omega
    rw [fillEach, List.flatMap_cons, q.see_fill b _ hfirst, ih hrest, List.take_append_drop]

theorem fillEach_fillEach {bs : List β} {cs ds : List γ} (hc : cs.length = (bs.flatMap q.see).length)
    (hd : ds.length = (bs.flatMap q.see).length) :
    q.fillEach (q.fillEach bs cs) ds = q.fillEach bs ds := by
  induction bs generalizing cs ds with
  | nil => rfl
  | cons b bs ih =>
    rw [List.flatMap_cons, List.length_append] at hc hd
    have hfirst : ∀ xs : List γ, xs.length = (q.see b).length + (bs.flatMap q.see).length →
        (xs.take (q.see b).length).length = (q.see b).length := by
      intro xs hxs
      rw [List.length_take]
      omega
    have hrest : ∀ xs : List γ, xs.length = (q.see b).length + (bs.flatMap q.see).length →
        (xs.drop (q.see b).length).length = (bs.flatMap q.see).length := by
      intro xs hxs
      rw [List.length_drop]
      omega
    rw [fillEach, fillEach, fillEach, q.see_fill b _ (hfirst cs hc),
      q.fill_fill b _ _ (by rw [hfirst cs hc]) (by rw [hfirst cs hc, hfirst ds hd]), hfirst cs hc,
      ih (hrest cs hc) (hrest ds hd)]

/-- The parts of the parts. -/
def comp (p : Parts α β) (q : Parts β γ) : Parts α γ where
  see a := (p.see a).flatMap q.see
  fill a cs := p.fill a (q.fillEach (p.see a) cs)
  see_fill a cs h := by rw [p.see_fill a _ (length_fillEach _ _), flatMap_fillEach h]
  fill_see a := by rw [fillEach_flatMap, p.fill_see]
  fill_fill a cs ds hc hd := by
    rw [p.see_fill a _ (length_fillEach _ _), fillEach_fillEach hc hd,
      p.fill_fill a _ _ (length_fillEach _ _) (length_fillEach _ _)]

end Comp

/-! ### Parts at two kinds of places -/

/-- Parts whose places are others: writing at one kind of places is not seen at the other. -/
structure Apart (p : Parts α β) (q : Parts α γ) : Prop where
  see_left : ∀ a cs, cs.length = (q.see a).length → p.see (q.fill a cs) = p.see a
  see_right : ∀ a bs, bs.length = (p.see a).length → q.see (p.fill a bs) = q.see a
  fill_comm : ∀ a bs cs, bs.length = (p.see a).length → cs.length = (q.see a).length →
    p.fill (q.fill a cs) bs = q.fill (p.fill a bs) cs

/-- Parts of parts are apart where the parts are. -/
theorem Apart.comp {δ ε : Type*} {p : Parts α β} {q : Parts α γ} (h : Apart p q) (p' : Parts β δ)
    (q' : Parts γ ε) : Apart (p.comp p') (q.comp q') where
  see_left a _ _ := congrArg (List.flatMap p'.see) (h.see_left a _ (length_fillEach _ _))
  see_right a _ _ := congrArg (List.flatMap q'.see) (h.see_right a _ (length_fillEach _ _))
  fill_comm a bs cs _ _ := by
    show p.fill (q.fill a (q'.fillEach (q.see a) cs))
        (p'.fillEach (p.see (q.fill a (q'.fillEach (q.see a) cs))) bs) =
      q.fill (p.fill a (p'.fillEach (p.see a) bs))
        (q'.fillEach (q.see (p.fill a (p'.fillEach (p.see a) bs))) cs)
    rw [h.see_left a _ (length_fillEach _ _), h.see_right a _ (length_fillEach _ _),
      h.fill_comm a _ _ (length_fillEach _ _) (length_fillEach _ _)]

theorem Apart.comp_right {δ : Type*} {p : Parts α β} {q : Parts α γ} (h : Apart p q) (q' : Parts γ δ) :
    Apart p (q.comp q') where
  see_left a _ _ := h.see_left a _ (length_fillEach _ _)
  see_right a _ hbs := congrArg (List.flatMap q'.see) (h.see_right a _ hbs)
  fill_comm a bs cs hbs _ := by
    show p.fill (q.fill a (q'.fillEach (q.see a) cs)) bs =
      q.fill (p.fill a bs) (q'.fillEach (q.see (p.fill a bs)) cs)
    rw [h.see_right a _ hbs, h.fill_comm a _ _ hbs (length_fillEach _ _)]

/-- The parts of one kind, then those of the other. -/
def both (p q : Parts α β) (h : Apart p q) : Parts α β where
  see a := p.see a ++ q.see a
  fill a bs := q.fill (p.fill a (bs.take (p.see a).length)) (bs.drop (p.see a).length)
  see_fill a bs hbs := by
    rw [List.length_append] at hbs
    have hp : (bs.take (p.see a).length).length = (p.see a).length := by
      rw [List.length_take]
      omega
    have hq : (bs.drop (p.see a).length).length = (q.see (p.fill a (bs.take (p.see a).length))).length := by
      rw [h.see_right a _ hp, List.length_drop]
      omega
    rw [h.see_left _ _ hq, p.see_fill a _ hp, q.see_fill _ _ hq, List.take_append_drop]
  fill_see a := by rw [List.take_left, List.drop_left, p.fill_see, q.fill_see]
  fill_fill a bs cs hb hc := by
    rw [List.length_append] at hb hc
    have hp : ∀ xs : List β, xs.length = (p.see a).length + (q.see a).length →
        (xs.take (p.see a).length).length = (p.see a).length := by
      intro xs hxs
      rw [List.length_take]
      omega
    have hq : ∀ xs : List β, xs.length = (p.see a).length + (q.see a).length →
        (xs.drop (p.see a).length).length = (q.see a).length := by
      intro xs hxs
      rw [List.length_drop]
      omega
    have hqb : (bs.drop (p.see a).length).length =
        (q.see (p.fill a (bs.take (p.see a).length))).length := by
      rw [h.see_right a _ (hp bs hb), hq bs hb]
    have hsee : p.see (q.fill (p.fill a (bs.take (p.see a).length)) (bs.drop (p.see a).length)) =
        bs.take (p.see a).length := by
      rw [h.see_left _ _ hqb, p.see_fill a _ (hp bs hb)]
    have hpc : (cs.take (p.see a).length).length =
        (p.see (p.fill a (bs.take (p.see a).length))).length := by
      rw [p.see_fill a _ (hp bs hb), hp bs hb, hp cs hc]
    rw [hsee, hp bs hb, h.fill_comm _ _ _ hpc hqb, p.fill_fill a _ _ (hp bs hb) (hp cs hc)]
    have hsee' : (q.see (p.fill a (cs.take (p.see a).length))).length = (q.see a).length := by
      rw [h.see_right a _ (hp cs hc)]
    exact q.fill_fill _ _ _ (by rw [hsee', hq bs hb]) (by rw [hsee', hq cs hc])

/-- Parts apart from two kinds of parts are apart from both. -/
theorem Apart.both {p q : Parts α β} {r : Parts α γ} {hpq : Apart p q} (hpr : Apart p r) (hqr : Apart q r) :
    Apart (p.both q hpq) r where
  see_left a cs hcs := by
    show p.see (r.fill a cs) ++ q.see (r.fill a cs) = p.see a ++ q.see a
    rw [hpr.see_left a cs hcs, hqr.see_left a cs hcs]
  see_right a bs hbs := by
    have hlen : bs.length = (p.see a).length + (q.see a).length := by
      rw [hbs, ← List.length_append]
      rfl
    have hp : (bs.take (p.see a).length).length = (p.see a).length := by
      rw [List.length_take]
      omega
    have hq : (bs.drop (p.see a).length).length = (q.see (p.fill a (bs.take (p.see a).length))).length := by
      rw [hpq.see_right a _ hp, List.length_drop]
      omega
    show r.see (q.fill (p.fill a (bs.take (p.see a).length)) (bs.drop (p.see a).length)) = r.see a
    rw [hqr.see_right _ _ hq, hpr.see_right a _ hp]
  fill_comm a bs cs hbs hcs := by
    have hlen : bs.length = (p.see a).length + (q.see a).length := by
      rw [hbs, ← List.length_append]
      rfl
    have hp : (bs.take (p.see a).length).length = (p.see a).length := by
      rw [List.length_take]
      omega
    have hq : (bs.drop (p.see a).length).length = (q.see (p.fill a (bs.take (p.see a).length))).length := by
      rw [hpq.see_right a _ hp, List.length_drop]
      omega
    show q.fill (p.fill (r.fill a cs) (bs.take (p.see (r.fill a cs)).length))
        (bs.drop (p.see (r.fill a cs)).length) =
      r.fill (q.fill (p.fill a (bs.take (p.see a).length)) (bs.drop (p.see a).length)) cs
    rw [hpr.see_left a cs hcs, hpr.fill_comm a _ cs hp hcs,
      hqr.fill_comm _ _ cs hq (by rw [hpr.see_right a _ hp, hcs])]

/-! ### Visitors -/

/-- The value after a visitor has been at each of the parts, in their order. -/
def walk (p : Parts α β) (visit : β → σ → β × σ) (a : α) (s : σ) : α × σ :=
  (p.fill a (thread visit (p.see a) s).1, (thread visit (p.see a) s).2)

variable {p : Parts α β} {visit : β → σ → β × σ} {a : α} {s : σ}

theorem thread_walk (q : Parts β γ) (visit : γ → σ → γ × σ) (bs : List β) (s : σ) :
    thread (q.walk visit) bs s =
      (q.fillEach bs (thread visit (bs.flatMap q.see) s).1, (thread visit (bs.flatMap q.see) s).2) := by
  induction bs generalizing s with
  | nil => rfl
  | cons b bs ih =>
    have hlen : (thread visit (q.see b) s).1.length = (q.see b).length := length_thread _ _ _
    rw [thread_cons, ih, List.flatMap_cons, thread_append, fillEach, List.take_left' hlen,
      List.drop_left' hlen]
    rfl

/-- A visitor of the parts of the parts visits the parts of each part. -/
theorem walk_comp (q : Parts β γ) (visit : γ → σ → γ × σ) (a : α) (s : σ) :
    (p.comp q).walk visit a s = p.walk (q.walk visit) a s := by
  show _ = (p.fill a (thread (q.walk visit) (p.see a) s).1, (thread (q.walk visit) (p.see a) s).2)
  rw [thread_walk]
  rfl

/-- A visitor at two kinds of places is at the one, then at the other. -/
theorem walk_both {q : Parts α β} (h : Apart p q) (visit : β → σ → β × σ) (a : α) (s : σ) :
    (p.both q h).walk visit a s = q.walk visit (p.walk visit a s).1 (p.walk visit a s).2 := by
  have hlen : (thread visit (p.see a) s).1.length = (p.see a).length := length_thread _ _ _
  have hright : q.see (p.walk visit a s).1 = q.see a := h.see_right a _ hlen
  show (q.fill (p.fill a ((thread visit (p.see a ++ q.see a) s).1.take (p.see a).length))
      ((thread visit (p.see a ++ q.see a) s).1.drop (p.see a).length),
    (thread visit (p.see a ++ q.see a) s).2) = _
  rw [thread_append, List.take_left' hlen, List.drop_left' hlen, Parts.walk, hright]
  rfl

/-! ### Parts of a JSON value -/

/-- The value of a field. -/
def field (key : String) : Parts Json Json where
  see j := (j.get? key).toList
  fill j vs := match vs with
    | v :: _ => j.insert key v
    | [] => j
  see_fill j vs h := by
    cases hj : j.get? key with
    | none =>
      rw [hj] at h
      obtain rfl : vs = [] := List.length_eq_zero_iff.1 h
      exact congrArg Option.toList hj
    | some v₀ =>
      rw [hj] at h
      obtain ⟨v, rfl⟩ := List.length_eq_one_iff.1 h
      exact congrArg Option.toList (Json.get?_insert_self hj)
  fill_see j := by
    cases hj : j.get? key with
    | none => rfl
    | some v => exact Json.insert_self hj
  fill_fill j vs ws hv hw := by
    cases hj : j.get? key with
    | none =>
      rw [hj] at hv hw
      obtain rfl : vs = [] := List.length_eq_zero_iff.1 hv
      rfl
    | some v₀ =>
      rw [hj] at hv hw
      obtain ⟨v, rfl⟩ := List.length_eq_one_iff.1 hv
      obtain ⟨w, rfl⟩ := List.length_eq_one_iff.1 hw
      exact Json.insert_insert

theorem apart_field {key key' : String} (h : key ≠ key') : Apart (field key) (field key') where
  see_left j vs _ := by
    cases vs with
    | nil => rfl
    | cons v vs => exact congrArg Option.toList (Json.get?_insert_of_ne h)
  see_right j vs _ := by
    cases vs with
    | nil => rfl
    | cons v vs => exact congrArg Option.toList (Json.get?_insert_of_ne h.symm)
  fill_comm j vs ws hv hw := by
    cases vs with
    | nil => rfl
    | cons v vs =>
      cases ws with
      | nil => rfl
      | cons w ws =>
        have hsome : ∀ (o : Option Json) (x : Json) (xs : List Json),
            (x :: xs).length = o.toList.length → o.isSome := by
          intro o x xs ho
          by_contra hnone
          rw [Option.length_toList, if_neg hnone] at ho
          exact Nat.succ_ne_zero _ ho
        exact Json.insert_comm h (hsome _ v vs hv) (hsome _ w ws hw)

/-- The items of an array. -/
def items : Parts Json Json where
  see j := j.asArr?.getD []
  fill j vs := match j with
    | .arr _ => .arr vs
    | j => j
  see_fill j vs h := by
    cases j with
    | arr items => rfl
    | _ => exact (List.length_eq_zero_iff.1 h).symm
  fill_see j := by cases j <;> rfl
  fill_fill j vs ws _ _ := by cases j <;> rfl

end Parts

end Foundation
