import Mathlib.Algebra.GroupWithZero.Nat
import Mathlib.Data.List.TakeWhile
import Mathlib.Data.String.Basic

/-!
# JSON values

Values as a parser that keeps key order builds them: a number is its literal, an object is the
list of its fields in insertion order. Two objects are the same map when they agree up to the
order of their fields; `Json.SameValue` is that equality, decided by sorting the fields of every
object (`Json.norm`).
-/

namespace Foundation

/-- A JSON value; a number keeps its literal, an object the order of its fields. -/
inductive Json where
  | null
  | bool (b : Bool)
  | num (literal : String)
  | str (s : String)
  | arr (items : List Json)
  | obj (fields : List (String × Json))
  deriving Inhabited

namespace Json

/-! ### Decidable equality -/

/-- Equality of two values, field order included. -/
def beq : Json → Json → Bool
  | .null, .null => true
  | .bool a, .bool b => a == b
  | .num a, .num b => a == b
  | .str a, .str b => a == b
  | .arr a, .arr b => beqItems a b
  | .obj a, .obj b => beqFields a b
  | _, _ => false
where
  /-- `beq` on the items of an array. -/
  beqItems : List Json → List Json → Bool
    | [], [] => true
    | a :: as, b :: bs => beq a b && beqItems as bs
    | _, _ => false
  /-- `beq` on the fields of an object. -/
  beqFields : List (String × Json) → List (String × Json) → Bool
    | [], [] => true
    | (k, a) :: as, (l, b) :: bs => k == l && beq a b && beqFields as bs
    | _, _ => false

mutual

theorem beq_iff : ∀ a b : Json, beq a b = true ↔ a = b
  | .null, b => by cases b <;> simp [beq]
  | .bool _, b => by cases b <;> simp [beq]
  | .num _, b => by cases b <;> simp [beq]
  | .str _, b => by cases b <;> simp [beq]
  | .arr as, b => by cases b <;> simp [beq, beqItems_iff as]
  | .obj as, b => by cases b <;> simp [beq, beqFields_iff as]

theorem beqItems_iff : ∀ as bs : List Json, beq.beqItems as bs = true ↔ as = bs
  | [], bs => by cases bs <;> simp [beq.beqItems]
  | a :: as, bs => by
    cases bs with
    | nil => simp [beq.beqItems]
    | cons b bs => simp [beq.beqItems, beq_iff a b, beqItems_iff as bs]

theorem beqFields_iff : ∀ as bs : List (String × Json), beq.beqFields as bs = true ↔ as = bs
  | [], bs => by cases bs <;> simp [beq.beqFields]
  | (k, a) :: as, bs => by
    cases bs with
    | nil => simp [beq.beqFields]
    | cons b bs => simp [beq.beqFields, beq_iff a b.2, beqFields_iff as bs, Prod.ext_iff]

end

instance : DecidableEq Json := fun a b => decidable_of_iff _ (beq_iff a b)

/-! ### Equality up to the order of fields -/

/-- Insert a field into fields sorted by key. -/
def insertSorted (f : String × Json) : List (String × Json) → List (String × Json)
  | [] => [f]
  | g :: gs => if f.1 ≤ g.1 then f :: g :: gs else g :: insertSorted f gs

/-- The value with the fields of every object sorted by key. -/
def norm : Json → Json
  | .arr items => .arr (normItems items)
  | .obj fields => .obj (normFields fields)
  | j => j
where
  /-- `norm` on every item of an array. -/
  normItems : List Json → List Json
    | [] => []
    | j :: js => norm j :: normItems js
  /-- The fields of an object, sorted, with their values in normal form. -/
  normFields : List (String × Json) → List (String × Json)
    | [] => []
    | (k, j) :: fs => insertSorted (k, norm j) (normFields fs)

/-- Two values are the same when they differ in the order of object fields at most. -/
def SameValue (a b : Json) : Prop := a.norm = b.norm

instance (a b : Json) : Decidable (SameValue a b) := inferInstanceAs (Decidable (a.norm = b.norm))

/-! ### Fields of an object -/

/-- The value of a field of an object. -/
def get? (key : String) : Json → Option Json
  | .obj fields => (fields.find? fun f => f.1 == key).map Prod.snd
  | _ => none

/-- The text of a string. -/
def asStr? : Json → Option String
  | .str s => some s
  | _ => none

/-- The value of a number that is a natural number of 64 bits. -/
def asU64? : Json → Option ℕ
  | .num literal =>
    let digits := literal.toList
    let n := Nat.ofDigitChars 10 digits 0
    if digits ≠ [] ∧ digits.all Char.isDigit ∧ n < 2 ^ 64 then some n else none
  | _ => none

/-- The items of an array. -/
def asArr? : Json → Option (List Json)
  | .arr items => some items
  | _ => none

/-- Whether the value is an object. -/
def isObj : Json → Bool
  | .obj _ => true
  | _ => false

/-- The text of a string field. -/
def getStr? (key : String) (j : Json) : Option String := (j.get? key).bind asStr?

/-- The items of an array field. -/
def getArr? (key : String) (j : Json) : Option (List Json) := (j.get? key).bind asArr?

/-- Replace the value of a field, or append the field when it is absent. -/
def insertField (key : String) (value : Json) : List (String × Json) → List (String × Json)
  | [] => [(key, value)]
  | f :: fs => if f.1 == key then (key, value) :: fs else f :: insertField key value fs

/-- Remove a field the way a hash map with an insertion-ordered index does: the last field takes
the place of the removed one. -/
def removeField (key : String) (fields : List (String × Json)) : List (String × Json) :=
  let rest := fields.filter fun f => f.1 != key
  let i := fields.findIdx fun f => f.1 == key
  if i < rest.length then rest.take i ++ rest.getLast?.toList ++ (rest.drop i).dropLast else rest

/-- `insertField` on an object; any other value is left alone. -/
def insert (key : String) (j value : Json) : Json :=
  match j with
  | .obj fields => .obj (insertField key value fields)
  | j => j

/-- `removeField` on an object; any other value is left alone. -/
def remove (key : String) : Json → Json
  | .obj fields => .obj (removeField key fields)
  | j => j

variable {fields : List (String × Json)}

theorem findIdx_eq_length_of_absent {key : String}
    (h : ∀ f ∈ fields, f.1 ≠ key) : fields.findIdx (fun f => f.1 == key) = fields.length := by
  rw [List.findIdx_eq_length]
  intro f hf
  simpa using h f hf

theorem removeField_of_absent {key : String}
    (h : ∀ f ∈ fields, f.1 ≠ key) : removeField key fields = fields := by
  have hrest : fields.filter (fun f => f.1 != key) = fields := by
    rw [List.filter_eq_self]
    intro f hf
    simpa using h f hf
  simp only [removeField, hrest, findIdx_eq_length_of_absent h, lt_irrefl, if_false]

theorem mem_removeField {key : String} {f : String × Json}
    (h : f ∈ removeField key fields) : f ∈ fields ∧ f.1 ≠ key := by
  have hmem : f ∈ fields.filter (fun f => f.1 != key) := by
    simp only [removeField] at h
    split_ifs at h
    · simp only [List.mem_append, Option.mem_toList] at h
      rcases h with (h | h) | h
      · exact List.mem_of_mem_take h
      · exact List.mem_of_mem_getLast? h
      · exact List.mem_of_mem_drop (List.dropLast_subset _ h)
    · exact h
  simpa using hmem

theorem insertField_of_absent {key : String} {value : Json}
    (h : ∀ f ∈ fields, f.1 ≠ key) : insertField key value fields = fields ++ [(key, value)] := by
  induction fields with
  | nil => rfl
  | cons f fs ih =>
    have hf : f.1 ≠ key := h f List.mem_cons_self
    simp only [insertField, beq_iff_eq, hf, if_false, List.cons_append,
      ih fun g hg => h g (List.mem_cons_of_mem _ hg)]

theorem removeField_append_self {key : String} {value : Json}
    (h : ∀ f ∈ fields, f.1 ≠ key) : removeField key (fields ++ [(key, value)]) = fields := by
  have hrest : (fields ++ [(key, value)]).filter (fun f => f.1 != key) = fields := by
    rw [List.filter_append, List.filter_eq_self.mpr]
    · simp
    · intro f hf
      simpa using h f hf
  have hidx : (fields ++ [(key, value)]).findIdx (fun f => f.1 == key) = fields.length := by
    rw [List.findIdx_append, findIdx_eq_length_of_absent h]
    simp
  simp only [removeField, hrest, hidx, lt_irrefl, if_false]

/-- What replaces or appends a field leaves the other fields where they are. -/
theorem filter_insertField (key : String) (value : Json) (fields : List (String × Json)) :
    (insertField key value fields).filter (fun f => f.1 != key) = fields.filter fun f => f.1 != key := by
  induction fields with
  | nil => simp [insertField]
  | cons f fs ih =>
    by_cases hf : f.1 = key
    · simp [insertField, hf]
    · simp [insertField, hf, ih]

theorem removeField_insertField (key : String) (value : Json) (fields : List (String × Json)) :
    removeField key (insertField key value fields) = removeField key fields := by
  by_cases habsent : ∀ f ∈ fields, f.1 ≠ key
  · rw [insertField_of_absent habsent, removeField_append_self habsent,
      removeField_of_absent habsent]
  · have hidx : (insertField key value fields).findIdx (fun f => f.1 == key) =
        fields.findIdx fun f => f.1 == key := by
      induction fields with
      | nil => exact absurd (fun f hf => absurd hf List.not_mem_nil) habsent
      | cons f fs ih =>
        by_cases hf : f.1 = key
        · simp [insertField, hf, List.findIdx_cons]
        · have htail : ¬ ∀ g ∈ fs, g.1 ≠ key := fun h => habsent fun g hg => by
            rcases List.mem_cons.mp hg with rfl | hg
            · exact hf
            · exact h g hg
          simp [insertField, hf, List.findIdx_cons, ih htail]
    simp only [removeField, filter_insertField, hidx]

/-! ### Field updates of a value -/

variable {key : String} {value value' j : Json}

theorem isObj_of_get? (h : j.get? key = some value) : ∃ fields, j = .obj fields := by
  cases j with
  | obj fields => exact ⟨fields, rfl⟩
  | null => cases h
  | bool b => cases h
  | num literal => cases h
  | str s => cases h
  | arr items => cases h

/-- A field that is set is read back. -/
theorem get?_insert_self (h : j.get? key = some value') :
    (j.insert key value).get? key = some value := by
  obtain ⟨fields, rfl⟩ := isObj_of_get? h
  clear h
  simp only [insert, get?]
  induction fields with
  | nil => simp [insertField]
  | cons f fs ih =>
    by_cases hf : f.1 = key
    · simp [insertField, hf]
    · simpa [insertField, hf] using ih

/-- A field that is set leaves the others alone. -/
theorem get?_insert_of_ne {key' : String} (h : key' ≠ key) :
    (j.insert key value).get? key' = j.get? key' := by
  cases j with
  | obj fields =>
    show ((insertField key value fields).find? fun f => f.1 == key').map Prod.snd = _
    refine congrArg (Option.map Prod.snd) ?_
    induction fields with
    | nil => simp [insertField, h.symm]
    | cons f fs ih =>
      by_cases hf : f.1 = key
      · simp [insertField, hf, List.find?_cons, h.symm]
      · by_cases hf' : f.1 = key'
        · simp [insertField, hf, List.find?_cons, hf', h]
        · simp [insertField, hf, List.find?_cons, hf', ih]
  | null => rfl
  | bool b => rfl
  | num literal => rfl
  | str s => rfl
  | arr items => rfl

/-- Setting a field to what it holds changes nothing. -/
theorem insert_self (h : j.get? key = some value) : j.insert key value = j := by
  obtain ⟨fields, rfl⟩ := isObj_of_get? h
  simp only [insert, obj.injEq]
  simp only [get?] at h
  induction fields with
  | nil => simp at h
  | cons f fs ih =>
    by_cases hf : f.1 = key
    · obtain rfl : f.2 = value := by simpa [hf] using h
      simp [insertField, ← hf]
    · simp only [insertField, beq_iff_eq, hf, if_false]
      rw [ih (by simpa [hf] using h)]

/-- The later of two updates of a field stands. -/
theorem insert_insert : (j.insert key value).insert key value' = j.insert key value' := by
  cases j with
  | obj fields =>
    simp only [insert, obj.injEq]
    induction fields with
    | nil => simp [insertField]
    | cons f fs ih =>
      by_cases hf : f.1 = key
      · simp [insertField, hf]
      · simp [insertField, hf, ih]
  | null => rfl
  | bool b => rfl
  | num literal => rfl
  | str s => rfl
  | arr items => rfl

theorem remove_insert_self : (j.insert key value).remove key = j.remove key := by
  cases j with
  | obj fields => exact congrArg obj (removeField_insertField key value fields)
  | null => rfl
  | bool b => rfl
  | num literal => rfl
  | str s => rfl
  | arr items => rfl

/-- A value without a field loses nothing by its removal. -/
theorem remove_of_get?_eq_none (h : j.get? key = none) : j.remove key = j := by
  cases j with
  | obj fields =>
    refine congrArg obj (removeField_of_absent fun f hf => ?_)
    have := List.find?_eq_none.mp (Option.map_eq_none_iff.mp h) f hf
    simpa using this
  | null => rfl
  | bool b => rfl
  | num literal => rfl
  | str s => rfl
  | arr items => rfl

theorem get?_remove_self : (j.remove key).get? key = none := by
  cases j with
  | obj fields =>
    refine Option.map_eq_none_iff.mpr (List.find?_eq_none.mpr fun f hf => ?_)
    simpa using (mem_removeField hf).2
  | null => rfl
  | bool b => rfl
  | num literal => rfl
  | str s => rfl
  | arr items => rfl

theorem remove_remove_self : (j.remove key).remove key = j.remove key :=
  remove_of_get?_eq_none get?_remove_self

/-! ### Fields of a normal form -/

theorem find?_insertSorted (f : String × Json) (fields : List (String × Json)) :
    (insertSorted f fields).find? (fun g => g.1 == key) =
      if f.1 = key then some f else fields.find? fun g => g.1 == key := by
  induction fields with
  | nil =>
    by_cases hf : f.1 = key
    · simp [insertSorted, hf]
    · simp [insertSorted, hf]
  | cons g gs ih =>
    simp only [insertSorted]
    split_ifs with hle hf hf
    · simp [hf]
    · simp [hf]
    · have hg : g.1 ≠ key := fun hg => hle (hf.trans hg.symm).le
      rw [List.find?_cons_of_neg (by simpa using hg), ih, if_pos hf]
    · by_cases hg : g.1 = key
      · rw [List.find?_cons_of_pos (by simpa using hg), List.find?_cons_of_pos (by simpa using hg)]
      · rw [List.find?_cons_of_neg (by simpa using hg), List.find?_cons_of_neg (by simpa using hg),
          ih, if_neg hf]

/-- The fields of a normal form are the normal forms of the fields. -/
theorem get?_norm : (norm j).get? key = (j.get? key).map norm := by
  cases j with
  | obj fields =>
    simp only [norm, get?, Option.map_map]
    induction fields with
    | nil => rfl
    | cons f fs ih =>
      obtain ⟨k, v⟩ := f
      rw [norm.normFields, find?_insertSorted]
      by_cases hk : k = key
      · simp [hk]
      · rw [if_neg hk, List.find?_cons_of_neg (by simpa using hk)]
        exact ih
  | null => rfl
  | bool b => rfl
  | num literal => rfl
  | str s => rfl
  | arr items => rfl

/-! ### Normal forms -/

/-- Fields of different names are sorted in whatever order they are inserted. -/
theorem insertSorted_comm {f g : String × Json} (h : f.1 ≠ g.1) (fields : List (String × Json)) :
    insertSorted f (insertSorted g fields) = insertSorted g (insertSorted f fields) := by
  induction fields with
  | nil =>
    rcases lt_or_gt_of_ne h with hlt | hlt
    · simp [insertSorted, hlt.le, hlt.not_ge]
    · simp [insertSorted, hlt.le, hlt.not_ge]
  | cons x xs ih =>
    by_cases hf : f.1 ≤ x.1
    · by_cases hg : g.1 ≤ x.1
      · rcases lt_or_gt_of_ne h with hlt | hlt
        · simp [insertSorted, hf, hg, hlt.le, hlt.not_ge]
        · simp [insertSorted, hf, hg, hlt.le, hlt.not_ge]
      · have hgf : ¬ g.1 ≤ f.1 := fun hle => hg (hle.trans hf)
        simp [insertSorted, hf, hg, hgf]
    · by_cases hg : g.1 ≤ x.1
      · have hfg : ¬ f.1 ≤ g.1 := fun hle => hf (hle.trans hg)
        simp [insertSorted, hf, hg, hfg]
      · simp [insertSorted, hf, hg, ih]

theorem normFields_insertSorted (f : String × Json) (fields : List (String × Json)) :
    norm.normFields (insertSorted f fields) =
      insertSorted (f.1, norm f.2) (norm.normFields fields) := by
  induction fields with
  | nil => rfl
  | cons g gs ih =>
    simp only [insertSorted]
    split_ifs with hle
    · rfl
    · have hne : (f.1, norm f.2).1 ≠ (g.1, norm g.2).1 := fun heq => hle (le_of_eq heq)
      simp only [norm.normFields, ih]
      exact (insertSorted_comm hne _).symm

mutual

theorem norm_norm : ∀ j : Json, norm (norm j) = norm j
  | .null => rfl
  | .bool _ => rfl
  | .num _ => rfl
  | .str _ => rfl
  | .arr items => congrArg arr (normItems_normItems items)
  | .obj fields => congrArg obj (normFields_normFields fields)

theorem normItems_normItems : ∀ items : List Json,
    norm.normItems (norm.normItems items) = norm.normItems items
  | [] => rfl
  | j :: js => by simp only [norm.normItems, norm_norm j, normItems_normItems js]

theorem normFields_normFields : ∀ fields : List (String × Json),
    norm.normFields (norm.normFields fields) = norm.normFields fields
  | [] => rfl
  | (k, j) :: fs => by
    simp only [norm.normFields, normFields_insertSorted, norm_norm j, normFields_normFields fs]

end

theorem normItems_eq_map (items : List Json) : norm.normItems items = items.map norm := by
  induction items with
  | nil => rfl
  | cons j js ih => simp only [norm.normItems, ih, List.map_cons]

/-- Inserting the normal form of a field that is present replaces it among the normal forms. -/
theorem normFields_insertField
    (h : ∃ f ∈ fields, f.1 = key) : norm.normFields (insertField key value fields) =
      insertField key (norm value) (norm.normFields fields) := by
  have replaces : ∀ (v : Json) (l : List (String × Json)),
      insertField key (norm value) (insertSorted (key, v) l) = insertSorted (key, norm value) l := by
    intro v l
    induction l with
    | nil => simp [insertSorted, insertField]
    | cons g gs ih =>
      by_cases hle : key ≤ g.1
      · simp [insertSorted, insertField, hle]
      · have hne : g.1 ≠ key := fun heq => hle (le_of_eq heq.symm)
        simp [insertSorted, insertField, hle, hne, ih]
  have commutes : ∀ (f : String × Json) (l : List (String × Json)), f.1 ≠ key →
      (∃ g ∈ l, g.1 = key) → insertField key (norm value) (insertSorted f l) =
        insertSorted f (insertField key (norm value) l) := by
    intro f l hf hl
    induction l with
    | nil => simp at hl
    | cons g gs ih =>
      by_cases hg : g.1 = key
      · by_cases hle : f.1 ≤ key
        · simp [insertSorted, insertField, hg, hle, hf]
        · simp [insertSorted, insertField, hg, hle]
      · have hgs : ∃ x ∈ gs, x.1 = key := by
          obtain ⟨x, hx, hkey⟩ := hl
          rcases List.mem_cons.mp hx with rfl | hx
          · exact absurd hkey hg
          · exact ⟨x, hx, hkey⟩
        by_cases hle : f.1 ≤ g.1
        · simp [insertSorted, insertField, hg, hle, hf]
        · simp [insertSorted, insertField, hg, hle, ih hgs]
  have present : ∀ l : List (String × Json), (∃ f ∈ l, f.1 = key) →
      ∃ g ∈ norm.normFields l, g.1 = key := by
    intro l hl
    obtain ⟨f, hf, hkey⟩ := hl
    have hget : ((obj l).get? key).isSome := by
      simp only [get?, Option.isSome_map, List.find?_isSome]
      exact ⟨f, hf, by simpa using hkey⟩
    have hnorm : ((norm (obj l)).get? key).isSome := by rw [get?_norm, Option.isSome_map]; exact hget
    simp only [norm, get?, Option.isSome_map, List.find?_isSome, beq_iff_eq] at hnorm
    exact hnorm
  induction fields with
  | nil => simp at h
  | cons f fs ih =>
    obtain ⟨k, v⟩ := f
    by_cases hk : k = key
    · subst hk
      simp only [insertField, beq_self_eq_true, if_true, norm.normFields, replaces]
    · have hfs : ∃ x ∈ fs, x.1 = key := by
        obtain ⟨x, hx, hkey⟩ := h
        rcases List.mem_cons.mp hx with rfl | hx
        · exact absurd hkey hk
        · exact ⟨x, hx, hkey⟩
      simp only [insertField, beq_iff_eq, hk, if_false, norm.normFields, ih hfs]
      exact (commutes (k, norm v) _ hk (present fs hfs)).symm

/-- Two values that are the same stay so when a field they hold is replaced. -/
theorem SameValue.insert {a b : Json} (h : SameValue a b) (ha : (a.get? key).isSome) :
    SameValue (a.insert key value) (b.insert key value) := by
  have hb : (b.get? key).isSome := by
    have := congrArg (fun j => (Json.get? key j).isSome) h
    simp only [get?_norm, Option.isSome_map] at this
    rwa [← this]
  obtain ⟨va, hva⟩ := Option.isSome_iff_exists.mp ha
  obtain ⟨vb, hvb⟩ := Option.isSome_iff_exists.mp hb
  obtain ⟨fa, rfl⟩ := isObj_of_get? hva
  obtain ⟨fb, rfl⟩ := isObj_of_get? hvb
  have mem : ∀ l : List (String × Json), ((obj l).get? key).isSome → ∃ f ∈ l, f.1 = key := by
    intro l hl
    simpa only [get?, Option.isSome_map, List.find?_isSome, beq_iff_eq] using hl
  have hfields : norm.normFields fa = norm.normFields fb := obj.inj h
  show obj (norm.normFields (insertField key value fa)) =
    obj (norm.normFields (insertField key value fb))
  rw [normFields_insertField (mem fa ha), normFields_insertField (mem fb hb), hfields]

theorem asU64?_toString {n : ℕ} (h : n < 2 ^ 64) : (Json.num (toString n)).asU64? = some n := by
  have hdigits : (toString n).toList = Nat.toDigits 10 n := by
    rw [Nat.toString_eq_ofList_toDigits, String.toList_ofList]
  have hall : (Nat.toDigits 10 n).all Char.isDigit := by
    rw [List.all_eq_true]
    intro c hc
    exact Nat.isDigit_of_mem_toDigits (by decide) (by decide) hc
  have hne : Nat.toDigits 10 n ≠ [] :=
    List.ne_nil_of_length_pos Nat.length_toDigits_pos
  simp only [asU64?, hdigits, Nat.ofDigitChars_ten_toDigits]
  exact if_pos ⟨hne, hall, h⟩

/-! ### Serialization -/

/-- One character inside a JSON string literal. -/
def escapeChar (c : Char) : List Char :=
  if c = '"' then ['\\', '"']
  else if c = '\\' then ['\\', '\\']
  else if c.toNat = 8 then ['\\', 'b']
  else if c.toNat = 9 then ['\\', 't']
  else if c.toNat = 10 then ['\\', 'n']
  else if c.toNat = 12 then ['\\', 'f']
  else if c.toNat = 13 then ['\\', 'r']
  else if c.toNat < 32 then
    ['\\', 'u', '0', '0', Nat.digitChar (c.toNat / 16), Nat.digitChar (c.toNat % 16)]
  else [c]

/-- A string literal. -/
def quote (s : String) : List Char := '"' :: s.toList.flatMap escapeChar ++ ['"']

/-- The compact serialization: no blanks, text beyond ASCII unescaped. -/
def compact : Json → List Char
  | .null => ['n', 'u', 'l', 'l']
  | .bool true => ['t', 'r', 'u', 'e']
  | .bool false => ['f', 'a', 'l', 's', 'e']
  | .num literal => literal.toList
  | .str s => quote s
  | .arr items => '[' :: compactItems true items ++ [']']
  | .obj fields => '\x7b' :: compactFields true fields ++ ['\x7d']
where
  /-- The items of an array, each after the first behind a comma. -/
  compactItems : Bool → List Json → List Char
    | _, [] => []
    | first, j :: js => (if first then [] else [',']) ++ compact j ++ compactItems false js
  /-- The fields of an object, each after the first behind a comma. -/
  compactFields : Bool → List (String × Json) → List Char
    | _, [] => []
    | first, (k, j) :: fs =>
      (if first then [] else [',']) ++ quote k ++ ':' :: compact j ++ compactFields false fs

/-- Length in bytes of the compact serialization. -/
def compactLength (j : Json) : ℕ := (j.compact.map Char.utf8Size).sum

end Json

end Foundation
