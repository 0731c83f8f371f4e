import Headroom.Semantic.Key

/-!
# Requests with the same answer

An answer may be given to a request that is the same but for its markers and for the fields that cannot change the
answer. The text of a request does not tell all of that: two requests with the same text are the same when they agree
in what it leaves out.
-/

open Foundation

namespace Headroom.Semantic

variable {A B : Request} {key : String} {body body' : Json} {turns : List Json}

/-- The fields that cannot change the answer. -/
def ANSWER_BLIND_FIELDS : List String := ["stream", "metadata", "user"]

/-- The requests that one answer is for. -/
structure SameRequest (A B : Request) : Prop where
  upstream : A.upstream = B.upstream
  model : requestModel A.body = requestModel B.body
  credentials : (credentials A.headers).Perm (credentials B.headers)
  fields : ∀ key, key ∉ ANSWER_BLIND_FIELDS → (strip false A.body).get? key = (strip false B.body).get? key

/-- Two requests are alike in what their texts leave out. -/
structure UnkeyedAgree (A B : Request) : Prop where
  /-- The credentials that are no visible ASCII are the same. -/
  credentials : (hiddenCredentials A.headers).Perm (hiddenCredentials B.headers)
  /-- The turns stand in the same field, -/
  turn_field : turnField A.body = turnField B.body
  /-- and are a text in both bodies or in none. -/
  turn_shape : (A.body.getStr? (turnField A.body)).isSome = (B.body.getStr? (turnField B.body)).isSome
  /-- The model is named in both bodies or in none, -/
  model_named : (A.body.getStr? "model").isSome = (B.body.getStr? "model").isSome
  /-- and where it is not, the field is the same. -/
  model_field : A.body.getStr? "model" = none → (strip false A.body).get? "model" = (strip false B.body).get? "model"
  /-- The other fields are the same. -/
  fields : ∀ key, key ∉ KEY_EXTRA_FIELDS → key ∉ ANSWER_BLIND_FIELDS → key ≠ "model" → key ≠ turnField A.body →
    (strip false A.body).get? key = (strip false B.body).get? key

/-! ### Fields without markers -/

theorem asStr?_strip (p : Bool) (j : Json) : (strip p j).asStr? = j.asStr? := by
  cases j <;> rfl

/-- A field that is a text is one without the markers too. -/
theorem getStr?_strip (hkey : key ≠ "cache_control") (body : Json) :
    (strip false body).getStr? key = body.getStr? key := by
  rw [Json.getStr?, Json.getStr?, get?_strip hkey]
  cases body.get? key with
  | none => rfl
  | some value => exact asStr?_strip _ value

theorem isSome_get?_strip (hkey : key ≠ "cache_control") (body : Json) :
    ((strip false body).get? key).isSome = (body.get? key).isSome := by
  rw [get?_strip hkey, Option.isSome_map]

theorem turnField_ne (body : Json) : turnField body ≠ "cache_control" ∧ turnField body ∉ ANSWER_BLIND_FIELDS := by
  rw [turnField]
  split_ifs
  · decide
  · decide

/-- Bodies that agree without their markers carry their turns in the same field. -/
theorem turnField_congr (h : (strip false body).get? "messages" = (strip false body').get? "messages") :
    turnField body = turnField body' := by
  have hsome : (body.get? "messages").isSome = (body'.get? "messages").isSome := by
    rw [← isSome_get?_strip (by decide) body, h, isSome_get?_strip (by decide)]
  rw [turnField, turnField, hsome]

/-- The turns of a body without the markers. -/
theorem map_strip_turns? (body : Json) :
    (turns? body).map (List.map (strip false)) =
      match (strip false body).get? (turnField body) with
      | some (.arr items) => some items
      | some (.str text) => some [.str text]
      | _ => none := by
  have hproperties : (turnField body = "properties") = False := by
    rw [turnField]
    split_ifs
    all_goals decide
  rw [turns?, get?_strip (turnField_ne body).1]
  simp only [hproperties, decide_false]
  cases body.get? (turnField body) with
  | none => rfl
  | some value =>
    cases value with
    | arr items =>
      rw [Option.map_some, Option.map_some, strip, stripItems_eq_map]
    | obj fields => rw [Option.map_some, strip]; rfl
    | str text => rfl
    | null | bool | num => rfl

theorem turns_congr (hmessages : (strip false body).get? "messages" = (strip false body').get? "messages")
    (hinput : (strip false body).get? "input" = (strip false body').get? "input") :
    (turns? body).map (List.map (strip false)) = (turns? body').map (List.map (strip false)) := by
  have hfield := turnField_congr hmessages
  have hvalue : (strip false body).get? (turnField body) = (strip false body').get? (turnField body') := by
    rw [← hfield, turnField]
    split_ifs
    · exact hmessages
    · exact hinput
  rw [map_strip_turns?, map_strip_turns?, hvalue]

theorem get?_turnField_congr (hturns : turns? body = some turns)
    (hsame : (turns? body).map (List.map (strip false)) = (turns? body').map (List.map (strip false)))
    (hshape : (body.getStr? (turnField body)).isSome = (body'.getStr? (turnField body')).isSome) :
    (strip false body).get? (turnField body) = (strip false body').get? (turnField body') := by
  have hsome : (turns? body).map (List.map (strip false)) ≠ none := by
    rw [hturns]
    exact nofun
  rw [← getStr?_strip (turnField_ne body).1, ← getStr?_strip (turnField_ne body').1, Json.getStr?,
    Json.getStr?] at hshape
  rw [map_strip_turns?] at hsome
  rw [map_strip_turns?, map_strip_turns?] at hsame
  -- Turns that are a text are the one text.
  generalize (strip false body).get? (turnField body) = value at *
  generalize (strip false body').get? (turnField body') = value' at *
  cases value with
  | none => exact absurd rfl hsome
  | some value =>
    cases value' with
    | none => exact absurd hsame hsome
    | some value' =>
      cases value with
      | str text =>
        cases value' with
        | str text' => simpa using hsame
        | arr => exact absurd hshape nofun
        | null | bool | num | obj => exact absurd hsame nofun
      | arr items =>
        cases value' with
        | arr items' => simpa using hsame
        | str => exact absurd hshape nofun
        | null | bool | num | obj => exact absurd hsame nofun
      | null | bool | num | obj => exact absurd rfl hsome

/-! ### What a text leaves out -/

theorem getStr?_congr (hkey : key ≠ "cache_control")
    (h : (strip false body).get? key = (strip false body').get? key) : body.getStr? key = body'.getStr? key := by
  rw [← getStr?_strip hkey body, ← getStr?_strip hkey body', Json.getStr?, Json.getStr?, h]

/-- A field that a text tells, read off a body without its markers. -/
theorem get?_strip_extra (hkey : key ∈ KEY_EXTRA_FIELDS) (body : Json) :
    (strip false body).get? key = (body.get? key).map (strip false) := by
  have hne : key ≠ "cache_control" ∧ key ≠ "properties" := by
    revert key
    decide
  rw [get?_strip hne.1, decide_eq_false hne.2]

theorem get?_of_getStr? {text : String} (hkey : key ≠ "cache_control") (h : body.getStr? key = some text) :
    (strip false body).get? key = some (.str text) := by
  rw [← getStr?_strip hkey] at h
  obtain ⟨value, hvalue, htext⟩ := Option.bind_eq_some_iff.1 h
  cases value with
  | str text' => rw [hvalue, Option.some.inj htext]
  | null | bool | num | arr | obj => exact absurd htext nofun

theorem keyedAgree_of_fields (hupstream : A.upstream = B.upstream)
    (hcredentials : (credentialPairs A.headers).Perm (credentialPairs B.headers))
    (hfields : ∀ key, key ∉ ANSWER_BLIND_FIELDS → (strip false A.body).get? key = (strip false B.body).get? key) :
    KeyedAgree A B where
  upstream := hupstream
  model := by rw [requestModel, requestModel, getStr?_congr (by decide) (hfields "model" (by decide))]
  credentials := hcredentials
  turns := turns_congr (hfields "messages" (by decide)) (hfields "input" (by decide))
  extra key hkey := by
    have hblind : key ∉ ANSWER_BLIND_FIELDS := by
      revert key
      decide
    rw [← get?_strip_extra hkey, ← get?_strip_extra hkey, hfields key hblind]

theorem sameRequest_iff (hturns : turns? A.body = some turns) (h : KeyedAgree A B) :
    SameRequest A B ↔ UnkeyedAgree A B := by
  have hcredentials : (credentials A.headers).Perm (credentials B.headers) ↔
      (hiddenCredentials A.headers).Perm (hiddenCredentials B.headers) := by
    have hseen : (credentialPairs A.headers ++ hiddenCredentials B.headers).Perm (credentials B.headers) :=
      (h.credentials.append_right _).trans (credentials_perm _).symm
    refine Iff.trans ?_ (List.perm_append_left_iff (credentialPairs A.headers))
    constructor
    · exact fun hperm => (credentials_perm _).symm.trans (hperm.trans hseen.symm)
    · exact fun hperm => (credentials_perm _).trans (hperm.trans hseen)
  constructor
  · intro hsame
    have hfield := turnField_congr (hsame.fields "messages" (by decide))
    exact
      { credentials := hcredentials.1 hsame.credentials
        turn_field := hfield
        turn_shape := by
          rw [← hfield, getStr?_congr (turnField_ne A.body).1 (hsame.fields _ (turnField_ne A.body).2)]
        model_named := by rw [getStr?_congr (by decide) (hsame.fields "model" (by decide))]
        model_field := fun _ => hsame.fields "model" (by decide)
        fields := fun key _ hblind _ _ => hsame.fields key hblind }
  · intro hrest
    refine ⟨h.upstream, h.model, hcredentials.2 hrest.credentials, fun key hblind => ?_⟩
    by_cases hextra : key ∈ KEY_EXTRA_FIELDS
    · rw [get?_strip_extra hextra, get?_strip_extra hextra, h.extra key hextra]
    by_cases hmodel : key = "model"
    · obtain rfl := hmodel
      cases hA : A.body.getStr? "model" with
      | none => exact hrest.model_field hA
      | some model =>
        have hnamed := hrest.model_named
        rw [hA] at hnamed
        obtain ⟨model', hB⟩ := Option.isSome_iff_exists.1 hnamed.symm
        have hmodel := h.model
        rw [requestModel, requestModel, hA, hB, Option.getD_some, Option.getD_some] at hmodel
        rw [get?_of_getStr? (by decide) hA, get?_of_getStr? (by decide) hB, hmodel]
    by_cases hturn : key = turnField A.body
    · have hvalue := get?_turnField_congr hturns h.turns hrest.turn_shape
      rwa [← hrest.turn_field, ← hturn] at hvalue
    · exact hrest.fields key hextra hblind hmodel hturn

theorem keyText?_of_markers (o : Outside) (hheaders : A.headers = B.headers) (hupstream : A.upstream = B.upstream)
    (hbody : strip false A.body = strip false B.body) : keyText? o A = keyText? o B := by
  have hagree : KeyedAgree A B := keyedAgree_of_fields hupstream (by rw [hheaders]) fun key _ => by rw [hbody]
  cases hturns : turns? A.body with
  | none =>
    have hturns' := hagree.turns
    rw [hturns, Option.map_none, eq_comm, Option.map_eq_none_iff] at hturns'
    rw [keyText?_eq, keyText?_eq, hturns, hturns']
    rfl
  | some turns => exact (keyText?_eq_iff (by rw [MacTells, hheaders]; exact fun _ => rfl) hturns).2 hagree

end Headroom.Semantic
