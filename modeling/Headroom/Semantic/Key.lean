import Headroom.Foundation.JsonObject
import Headroom.Semantic.Partition

/-!
# The key of a cached answer

A request is known to the cache by a text: the partition of its caller, its model, its turns and some of its fields,
without the markers of the prompt cache. The text is written in one pass and hashed.
-/

open Foundation

namespace Headroom.Semantic

/-! ### Values without markers -/

/-- Whether a field is a marker: it is none among the properties of a schema. -/
def isMarker (inProperties : Bool) (key : String) : Bool := key = "cache_control" && !inProperties

/-- A value is written without its markers. -/
def writeStripped : Bool → Json → List Char
  | inProperties, .obj fields => '\x7b' :: writeFields inProperties true fields ++ ['\x7d']
  | _, .arr items => '[' :: writeItems true items ++ [']']
  | _, scalar => scalar.compact
where
  /-- The fields of an object that are no markers, each after the first behind a comma. -/
  writeFields : Bool → Bool → List (String × Json) → List Char
    | _, _, [] => []
    | inProperties, first, (k, child) :: rest =>
      if isMarker inProperties k then writeFields inProperties first rest
      else
        (if first then [] else [',']) ++ Json.quote k ++ ':' :: writeStripped (k = "properties") child ++
          writeFields inProperties false rest
  /-- The items of an array, each after the first behind a comma. -/
  writeItems : Bool → List Json → List Char
    | _, [] => []
    | first, item :: rest =>
      (if first then [] else [',']) ++ writeStripped false item ++ writeItems false rest

/-- A value without its markers. -/
def strip : Bool → Json → Json
  | inProperties, .obj fields => .obj (stripFields inProperties fields)
  | _, .arr items => .arr (stripItems items)
  | _, scalar => scalar
where
  /-- The fields of an object that are no markers. -/
  stripFields : Bool → List (String × Json) → List (String × Json)
    | _, [] => []
    | inProperties, (k, child) :: rest =>
      if isMarker inProperties k then stripFields inProperties rest
      else (k, strip (k = "properties") child) :: stripFields inProperties rest
  /-- The items of an array. -/
  stripItems : List Json → List Json
    | [] => []
    | item :: rest => strip false item :: stripItems rest

theorem stripItems_eq_map (items : List Json) : strip.stripItems items = items.map (strip false) := by
  induction items with
  | nil => rfl
  | cons item rest ih => rw [strip.stripItems, ih, List.map_cons]

mutual

/-- What is written is the value without its markers. -/
theorem writeStripped_eq : ∀ (inProperties : Bool) (j : Json), writeStripped inProperties j = (strip inProperties j).compact
  | inProperties, .obj fields => by
    rw [writeStripped, strip, Json.compact, writeFields_eq inProperties true fields]
  | _, .arr items => by rw [writeStripped, strip, Json.compact, writeItems_eq true items]
  | _, .null | _, .bool _ | _, .num _ | _, .str _ => by
    rw [writeStripped, strip]
    all_goals exact fun _ => nofun

theorem writeFields_eq : ∀ (inProperties first : Bool) (fields : List (String × Json)),
    writeStripped.writeFields inProperties first fields =
      Json.compact.compactFields first (strip.stripFields inProperties fields)
  | _, _, [] => rfl
  | inProperties, first, (k, child) :: rest => by
    rw [writeStripped.writeFields, strip.stripFields]
    by_cases hmarker : isMarker inProperties k = true
    · rw [if_pos hmarker, if_pos hmarker, writeFields_eq inProperties first rest]
    · rw [if_neg hmarker, if_neg hmarker, Json.compact.compactFields, writeStripped_eq (k = "properties") child,
        writeFields_eq inProperties false rest]

theorem writeItems_eq : ∀ (first : Bool) (items : List Json),
    writeStripped.writeItems first items = Json.compact.compactItems first (strip.stripItems items)
  | _, [] => rfl
  | first, item :: rest => by
    rw [writeStripped.writeItems, strip.stripItems, Json.compact.compactItems, writeStripped_eq false item,
      writeItems_eq false rest]

end

mutual

theorem numeric_strip : ∀ (inProperties : Bool) {j : Json}, j.Numeric → (strip inProperties j).Numeric
  | inProperties, .obj fields, h => by
    rw [strip]
    exact numeric_stripFields inProperties h
  | _, .arr items, h => by
    rw [strip]
    exact numeric_stripItems h
  | _, .null, h | _, .bool _, h | _, .num _, h | _, .str _, h => by
    rw [strip]
    · exact h
    all_goals exact fun _ => nofun

theorem numeric_stripFields : ∀ (inProperties : Bool) {fields : List (String × Json)},
    Json.Numeric.NumericFields fields → Json.Numeric.NumericFields (strip.stripFields inProperties fields)
  | _, [], _ => trivial
  | inProperties, (k, child) :: rest, h => by
    rw [strip.stripFields]
    split_ifs with hmarker
    · exact numeric_stripFields inProperties h.2
    · exact ⟨numeric_strip (k = "properties") h.1, numeric_stripFields inProperties h.2⟩

theorem numeric_stripItems : ∀ {items : List Json},
    Json.Numeric.NumericItems items → Json.Numeric.NumericItems (strip.stripItems items)
  | [], _ => trivial
  | _ :: _, h => ⟨numeric_strip false h.1, numeric_stripItems h.2⟩

end

/-- A field of a value without its markers. -/
theorem get?_strip {key : String} (hkey : key ≠ "cache_control") (inProperties : Bool) (j : Json) :
    (strip inProperties j).get? key = (j.get? key).map (strip (key = "properties")) := by
  cases j with
  | obj fields =>
    rw [strip]
    induction fields with
    | nil => rfl
    | cons f rest ih =>
      obtain ⟨k, child⟩ := f
      rw [strip.stripFields]
      by_cases hk : k = key
      · obtain rfl := hk
        have hmarker : ¬ isMarker inProperties k = true := by simp [isMarker, hkey]
        rw [if_neg hmarker]
        simp [Json.get?]
      · have hskip (fields : List (String × Json)) (child : Json) :
            (Json.obj ((k, child) :: fields)).get? key = (Json.obj fields).get? key := by
          simp [Json.get?, hk]
        rw [hskip]
        split_ifs with hmarker
        · exact ih
        · rw [hskip]
          exact ih
  | arr items => rw [strip]; rfl
  | null | bool | num | str =>
    rw [strip]
    · rfl
    all_goals exact fun _ => nofun

/-! ### The text of a request -/

/-- The text under which an answer is kept. -/
def normalizedKeyJson (partition : String) (messages : List Json) (model : String) (extra : List (String × Json)) :
    List Char :=
  "\x7b\"partition\":".toList ++ Json.quote partition ++ ",\"model\":".toList ++ Json.quote model ++
    ",\"messages\":".toList ++ ('[' :: writeStripped.writeItems true messages ++ [']']) ++
    (extra.flatMap fun e => ',' :: Json.quote e.1 ++ ':' :: writeStripped false e.2) ++ ['\x7d']

/-- Fields besides the turns that change the answer. -/
def KEY_EXTRA_FIELDS : List String :=
  ["system", "instructions", "tools", "tool_choice", "temperature", "top_p", "top_k", "max_tokens", "stop"]

/-- The field that carries the turns of a body. -/
def turnField (parsed : Json) : String := if (parsed.get? "messages").isSome then "messages" else "input"

/-- The turns of a body; none when it carries none that are recognised. -/
def turns? (parsed : Json) : Option (List Json) :=
  match parsed.get? (turnField parsed) with
  | some (.arr items) => some items
  | some (.str text) => some [.str text]
  | _ => none

/-- The turns and the fields that a key covers. -/
def cacheKeyInputs (parsed upstream : Json) : Option (List Json × List (String × Json)) :=
  (turns? parsed).map fun turns =>
    (turns, ("upstream_base_url", upstream) ::
      KEY_EXTRA_FIELDS.filterMap fun key => (parsed.get? key).map fun value => (key, value))

/-- A request: a body as it was parsed, with the headers of the caller and the address that it goes to. -/
structure Request where
  body : Json
  headers : HeaderMap
  upstream : String
  numeric : body.Numeric

/-- The model of a body. -/
def requestModel (body : Json) : String := (body.getStr? "model").getD "unknown"

/-- The text of a request; none when it cannot be keyed. -/
def keyText? (o : Outside) (R : Request) : Option (List Char) :=
  (cacheKeyInputs R.body (.str R.upstream)).map fun inputs =>
    normalizedKeyJson (computeCachePartition o R.headers) inputs.1 (requestModel R.body) inputs.2

/-! ### The text of one value -/

/-- The value that the text of a request is written of. -/
def keyJson (partition : String) (messages : List Json) (model : String) (extra : List (String × Json)) : Json :=
  .obj (("partition", .str partition) :: ("model", .str model) :: ("messages", .arr (messages.map (strip false))) ::
    extra.map fun e => (e.1, strip false e.2))

theorem compactFields_extra (extra : List (String × Json)) :
    Json.compact.compactFields false (extra.map fun e => (e.1, strip false e.2)) =
      extra.flatMap fun e => ',' :: Json.quote e.1 ++ ':' :: writeStripped false e.2 := by
  induction extra with
  | nil => rfl
  | cons e extra ih =>
    rw [List.map_cons, Json.compact.compactFields, ih, List.flatMap_cons, writeStripped_eq]
    simp

theorem compactFields_cons (first : Bool) (k : String) (j : Json) (fields : List (String × Json)) :
    Json.compact.compactFields first ((k, j) :: fields) =
      (if first then [] else [',']) ++ Json.quote k ++ ':' :: j.compact ++ Json.compact.compactFields false fields := by
  rw [Json.compact.compactFields]

theorem normalizedKeyJson_eq (partition : String) (messages : List Json) (model : String)
    (extra : List (String × Json)) :
    normalizedKeyJson partition messages model extra = (keyJson partition messages model extra).compact := by
  have hpartition : "\x7b\"partition\":".toList = '\x7b' :: Json.quote "partition" ++ [':'] := by decide +kernel
  have hmodel : ",\"model\":".toList = ',' :: Json.quote "model" ++ [':'] := by decide +kernel
  have hmessages : ",\"messages\":".toList = ',' :: Json.quote "messages" ++ [':'] := by decide +kernel
  have hturns : (Json.arr (messages.map (strip false))).compact = '[' :: writeStripped.writeItems true messages ++ [']'] := by
    rw [Json.compact, ← stripItems_eq_map, writeItems_eq]
  have hobj (fields : List (String × Json)) :
      (Json.obj fields).compact = '\x7b' :: Json.compact.compactFields true fields ++ ['\x7d'] := by
    rw [Json.compact]
  have hstr (text : String) : (Json.str text).compact = Json.quote text := by rw [Json.compact]
  show "\x7b\"partition\":".toList ++ Json.quote partition ++ ",\"model\":".toList ++ Json.quote model ++
    ",\"messages\":".toList ++ ('[' :: writeStripped.writeItems true messages ++ [']']) ++
    (extra.flatMap fun e => ',' :: Json.quote e.1 ++ ':' :: writeStripped false e.2) ++ ['\x7d'] = _
  rw [hpartition, hmodel, hmessages, keyJson, hobj, compactFields_cons, compactFields_cons, compactFields_cons, hturns,
    hstr, hstr, compactFields_extra]
  generalize Json.quote "partition" = a, Json.quote "model" = b, Json.quote "messages" = c
  simp

/-! ### Which requests have the same text -/

theorem numeric_of_get? {j value : Json} {key : String} (hj : j.Numeric) (h : j.get? key = some value) :
    value.Numeric := by
  obtain ⟨fields, rfl⟩ := Json.isObj_of_get? h
  obtain ⟨f, hfind, rfl⟩ := Option.map_eq_some_iff.1 h
  exact Json.numericFields_iff.1 hj f (List.mem_of_find?_eq_some hfind)

variable {turns : List Json}

theorem numeric_of_turns? {body : Json} (hbody : body.Numeric) (h : turns? body = some turns) :
    ∀ turn ∈ turns, turn.Numeric := by
  rw [turns?] at h
  cases hvalue : body.get? (turnField body) with
  | none =>
    rw [hvalue] at h
    exact absurd h nofun
  | some value =>
    rw [hvalue] at h
    have hnumeric := numeric_of_get? hbody hvalue
    cases value with
    | arr items =>
      obtain rfl := Option.some.inj h
      exact Json.numericItems_iff.1 hnumeric
    | str text =>
      obtain rfl := Option.some.inj h
      exact List.forall_mem_singleton.2 hnumeric
    | null | bool | num | obj => exact absurd h nofun

/-- Fields under distinct names are read off the list of those that are there. -/
theorem filterMap_fields_eq_iff {keys : List String} (hkeys : keys.Nodup) {f g : String → Option Json} :
    (keys.filterMap fun key => (f key).map fun value => (key, value)) =
        (keys.filterMap fun key => (g key).map fun value => (key, value)) ↔
      ∀ key ∈ keys, f key = g key := by
  induction keys with
  | nil => exact iff_of_true rfl nofun
  | cons key keys ih =>
    obtain ⟨hkey, hkeys⟩ := List.nodup_cons.1 hkeys
    -- The fields under the other names have no field under the first one.
    have hother (f : String → Option Json) (value : Json) (rest : List (String × Json)) :
        (keys.filterMap fun key => (f key).map fun value => (key, value)) ≠ (key, value) :: rest := by
      intro h
      have hmem : (key, value) ∈ keys.filterMap fun key => (f key).map fun value => (key, value) := by
        rw [h]
        exact List.mem_cons_self
      obtain ⟨key', hkey', hvalue⟩ := List.mem_filterMap.1 hmem
      obtain ⟨value', -, heq⟩ := Option.map_eq_some_iff.1 hvalue
      obtain rfl : key' = key := congrArg Prod.fst heq
      exact hkey hkey'
    rw [List.forall_mem_cons, ← ih hkeys, List.filterMap_cons, List.filterMap_cons]
    cases f key with
    | none =>
      cases g key with
      | none => simp
      | some value => exact iff_of_false (hother f value _) fun h => absurd h.1 nofun
    | some value =>
      cases g key with
      | none => exact iff_of_false (hother g value _).symm fun h => absurd h.1 nofun
      | some value' => simp

/-- Two requests are alike in everything that the text of a request tells. -/
structure KeyedAgree (A B : Request) : Prop where
  upstream : A.upstream = B.upstream
  model : requestModel A.body = requestModel B.body
  credentials : (credentialPairs A.headers).Perm (credentialPairs B.headers)
  turns : (turns? A.body).map (List.map (strip false)) = (turns? B.body).map (List.map (strip false))
  extra : ∀ key ∈ KEY_EXTRA_FIELDS,
    (A.body.get? key).map (strip false) = (B.body.get? key).map (strip false)

/-- The signatures of two callers tell them apart. -/
def MacTells (o : Outside) (A B : Request) : Prop :=
  o.mac (canonicalText (credentialPairs A.headers)) = o.mac (canonicalText (credentialPairs B.headers)) →
    canonicalText (credentialPairs A.headers) = canonicalText (credentialPairs B.headers)

/-- The fields of a text behind its turns. -/
def extraFields (R : Request) : List (String × Json) :=
  ("upstream_base_url", .str R.upstream) ::
    KEY_EXTRA_FIELDS.filterMap fun key => (R.body.get? key).map fun value => (key, value)

theorem keyText?_eq (o : Outside) (R : Request) :
    keyText? o R = (turns? R.body).map fun turns =>
      (keyJson (computeCachePartition o R.headers) turns (requestModel R.body) (extraFields R)).compact := by
  rw [keyText?, cacheKeyInputs, Option.map_map]
  refine Option.map_congr fun turns _ => ?_
  exact normalizedKeyJson_eq _ _ _ _

theorem map_strip_extraFields (R : Request) :
    ((extraFields R).map fun e => (e.1, strip false e.2)) = ("upstream_base_url", .str R.upstream) ::
      KEY_EXTRA_FIELDS.filterMap fun key => ((R.body.get? key).map (strip false)).map fun value => (key, value) := by
  rw [extraFields, List.map_cons, List.map_filterMap]
  simp only [Option.map_map]
  rfl

theorem numeric_keyJson {partition model : String} {R : Request}
    (hturns : turns? R.body = some turns) : (keyJson partition turns model (extraFields R)).Numeric := by
  refine Json.numericFields_iff.2 fun f hf => ?_
  rw [map_strip_extraFields] at hf
  simp only [List.mem_cons, List.mem_filterMap] at hf
  rcases hf with rfl | rfl | rfl | rfl | ⟨key, -, hfield⟩
  · trivial
  · trivial
  · refine Json.numericItems_iff.2 fun j hj => ?_
    obtain ⟨turn, hturn, rfl⟩ := List.mem_map.1 hj
    exact numeric_strip false (numeric_of_turns? R.numeric hturns turn hturn)
  · trivial
  · rw [Option.map_map] at hfield
    obtain ⟨value, hvalue, rfl⟩ := Option.map_eq_some_iff.1 hfield
    exact numeric_strip false (numeric_of_get? R.numeric hvalue)

/-- Two requests have the same text when they are alike in what it tells. -/
theorem keyText?_eq_iff {o : Outside} {A B : Request} (hmac : MacTells o A B)
    (hturns : turns? A.body = some turns) : keyText? o A = keyText? o B ↔ KeyedAgree A B := by
  rw [keyText?_eq, keyText?_eq, hturns, Option.map_some]
  constructor
  · intro h
    obtain ⟨turns', hturns', htext⟩ := Option.map_eq_some_iff.1 h.symm
    have hjson := Json.compact_inj (numeric_keyJson hturns') (numeric_keyJson hturns) htext
    rw [keyJson, keyJson, map_strip_extraFields, map_strip_extraFields] at hjson
    simp only [Json.obj.injEq, List.cons.injEq, Prod.mk.injEq, Json.str.injEq, Json.arr.injEq, true_and] at hjson
    obtain ⟨hpartition, hmodel, hmessages, hupstream, hextra⟩ := hjson
    exact
      { upstream := hupstream.symm
        model := hmodel.symm
        credentials := (computeCachePartition_eq_iff hmac).1 hpartition.symm
        turns := by rw [hturns, hturns', Option.map_some, Option.map_some, hmessages]
        extra := (filterMap_fields_eq_iff (by decide)).1 hextra.symm }
  · intro h
    have hturns' := h.turns
    rw [hturns, Option.map_some] at hturns'
    obtain ⟨turns', hB, hmessages⟩ := Option.map_eq_some_iff.1 hturns'.symm
    rw [hB, Option.map_some, Option.some.injEq, keyJson, keyJson, map_strip_extraFields, map_strip_extraFields,
      (computeCachePartition_eq_iff hmac).2 h.credentials, h.model, hmessages, h.upstream,
      (filterMap_fields_eq_iff (by decide)).2 h.extra]

end Headroom.Semantic
