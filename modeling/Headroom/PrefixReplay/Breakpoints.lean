import Headroom.PrefixReplay.Compare

/-!
# Cache breakpoints

After the overlay the client's `cache_control` markers are taken off the messages and new ones are
placed on the newest blocks that may carry one. A bare string that may carry one is wrapped into a
text block whether it is chosen or not, so the shape of a message does not depend on the turn.
-/

open Foundation

namespace Headroom.PrefixReplay

/-! ### What may carry a marker -/

/-- The opening tag of a proactive expansion. -/
def proactiveExpansionOpenTag : List Char := "<headroom_proactive_expansion>".toList

/-- Whether a text is a proactive expansion. -/
def isProactiveExpansionText (text : String) : Bool :=
  Text.contains proactiveExpansionOpenTag text.toList

/-- Whether a block is a text block with a proactive expansion. -/
def isProactiveExpansionBlock (block : Json) : Bool :=
  isTextBlock block && (block.getStr? "text").any isProactiveExpansionText

/-- Whether a block holds the model's thinking, on which a marker is refused. -/
def isThinkingBlock (block : Json) : Bool :=
  block.getStr? "type" == some "thinking" || block.getStr? "type" == some "redacted_thinking"

/-- Whether a block may carry a marker. -/
def carriesMarker (block : Json) : Bool :=
  block.isObj && !isProactiveExpansionBlock block && !isThinkingBlock block

/-- Whether a bare string is wrapped into a block. -/
def eligibleText (text : String) : Bool :=
  !(Text.trim text.toList).isEmpty && !isProactiveExpansionText text

/-- One `cache_control` position. -/
structure CacheTarget where
  messageIdx : ℕ
  blockIdx : ℕ

/-- The last block of a message that may carry a marker, and whether the rest is sealed: in a live
message a reminder seals what stands behind it. -/
def scanBlocks (live : Bool) : ℕ → Bool → Option ℕ → List Json → Bool × Option ℕ
  | _, sealed_, last, [] => (sealed_, last)
  | idx, sealed_, last, block :: blocks =>
    let sealed_ := sealed_ || (live && isEphemeralClientBlock block)
    if sealed_ then scanBlocks live (idx + 1) sealed_ last blocks
    else
      scanBlocks live (idx + 1) sealed_ (if carriesMarker block then some idx else last) blocks

/-! ### Shapes -/

/-- A message without the markers of its blocks. -/
def withoutMarkers (msg : Json) : Json :=
  match msg.get? "content" with
  | some (.arr blocks) => msg.insert "content" (.arr (blocks.map fun b => b.remove "cache_control"))
  | _ => msg

/-- The shape in which a message goes out: markers off, a bare string that may carry one wrapped. -/
def settle (msg : Json) : Json :=
  match msg.get? "content" with
  | some (.arr blocks) =>
    if blocks.any fun b => b.isObj && (b.get? "cache_control").isSome then
      msg.insert "content" (.arr (blocks.map fun b => b.remove "cache_control"))
    else msg
  | some (.str text) => if eligibleText text then msg.insert "content" (.arr [textBlock text]) else msg
  | _ => msg

/-- The candidate target of the message at `i` and the seal behind it. -/
def scanMessage (live sealed_ : Bool) (i : ℕ) (msg : Json) : Bool × Option CacheTarget :=
  match msg.get? "content" with
  | some (.arr _) =>
    let (sealed_, last) := scanBlocks live 0 sealed_ none ((settle msg).getArr? "content" |>.getD [])
    (sealed_, last.map fun blockIdx => ⟨i, blockIdx⟩)
  | some (.str text) =>
    let sealed_ := sealed_ || (live && isEphemeralClientText text)
    (sealed_, if !sealed_ && eligibleText text then some ⟨i, 0⟩ else none)
  | _ => (sealed_, none)

/-- The candidate targets of the messages from index `i` on, oldest first. The final message and
the latest one of the user are live, the opening message never is. -/
def cacheableTargets (finalMessage : ℕ) (latestUserMessage : Option ℕ) :
    ℕ → Bool → List Json → List CacheTarget
  | _, _, [] => []
  | i, sealed_, msg :: msgs =>
    let live := 0 < i && (i == finalMessage || latestUserMessage == some i)
    let (sealed_, target) := scanMessage live sealed_ i msg
    target.toList ++ cacheableTargets finalMessage latestUserMessage (i + 1) sealed_ msgs

/-- The last block of the opening run of scaffolding in the first message. -/
def openingScaffoldingTarget (messages : List Json) : Option CacheTarget :=
  match messages with
  | [] => none
  | first :: _ =>
    if first.getStr? "role" ≠ some "user" then none
    else
      match first.getArr? "content" with
      | none => none
      | some blocks =>
        let run := (blocks.takeWhile isEphemeralClientBlock).length
        if run = 0 then none else some ⟨0, run - 1⟩

/-! ### Placement -/

/-- The marker. -/
def ephemeralMarker : Json := .obj [("type", .str "ephemeral")]

/-- Put a marker on one block of a message. -/
def markMessage (blockIdx : ℕ) (msg : Json) : Json :=
  match msg.get? "content" with
  | some (.arr blocks) =>
    msg.insert "content" (.arr (blocks.modify blockIdx fun b => b.insert "cache_control" ephemeralMarker))
  | _ => msg

/-- Whether putting a marker at a target adds one. -/
def addsMarker (out : List Json) (target : CacheTarget) : Bool :=
  ((out[target.messageIdx]?.bind (Json.getArr? "content")).bind fun blocks =>
    blocks[target.blockIdx]?).any fun block =>
      block.isObj && (block.get? "cache_control").isNone

/-- Put a marker at a target and count it, unless it is there already. -/
def placeMarker (placed : List Json × ℕ) (target : CacheTarget) : List Json × ℕ :=
  (placed.1.modify target.messageIdx (markMessage target.blockIdx),
    if addsMarker placed.1 target then placed.2 + 1 else placed.2)

/-- The messages with markers on the newest blocks that may carry one, and on the opening
scaffolding when asked for; with the number of markers placed. -/
def placeTailCacheBreakpoints (messages : List Json) (tailSlots : ℕ) (scaffold : Bool) :
    List Json × ℕ :=
  let finalMessage := messages.length - 1
  let latestUserMessage :=
    (messages.zipIdx.reverse.find? fun m => m.1.getStr? "role" == some "user").map Prod.snd
  let out := messages.map settle
  let targets := cacheableTargets finalMessage latestUserMessage 0 false messages
  let scaffoldTarget := if scaffold then openingScaffoldingTarget out else none
  (scaffoldTarget.toList ++ targets.reverse.take tailSlots).foldl placeMarker (out, 0)

/-! ### Shapes are kept -/

/-- A message whose string content, if any, may not carry a marker. -/
def Settled (msg : Json) : Prop :=
  ∀ text, msg.get? "content" = some (.str text) → eligibleText text = false

variable {msg : Json} {blocks : List Json}

theorem withoutMarkers_of_arr (h : msg.get? "content" = some (.arr blocks)) : withoutMarkers msg =
      msg.insert "content" (.arr (blocks.map fun b => b.remove "cache_control")) := by
  simp only [withoutMarkers, h]

theorem withoutMarkers_insert {msg content : Json} (h : msg.get? "content" = some content) :
    withoutMarkers (msg.insert "content" (.arr blocks)) =
      msg.insert "content" (.arr (blocks.map fun b => b.remove "cache_control")) := by
  rw [withoutMarkers_of_arr (Json.get?_insert_self h), Json.insert_insert]

theorem withoutMarkers_idem (h : msg.get? "content" = some (.arr blocks)) :
    withoutMarkers (withoutMarkers msg) = withoutMarkers msg := by
  rw [withoutMarkers_of_arr h, withoutMarkers_insert h, List.map_map]
  refine congrArg _ (congrArg Json.arr (List.map_congr_left fun b _ => ?_))
  exact Json.remove_remove_self

theorem remove_of_unmarked {block : Json}
    (h : (block.isObj && (block.get? "cache_control").isSome) = false) :
    block.remove "cache_control" = block := by
  refine Json.remove_of_get?_eq_none ?_
  cases hget : block.get? "cache_control" with
  | none => rfl
  | some marker =>
    obtain ⟨fields, rfl⟩ := Json.isObj_of_get? hget
    simp [hget, Json.isObj] at h

/-- A message of blocks settles by losing its markers. -/
theorem settle_of_arr (h : msg.get? "content" = some (.arr blocks)) : settle msg = withoutMarkers msg := by
  rw [withoutMarkers_of_arr h]
  simp only [settle, h]
  split_ifs with hmarked
  · rfl
  · have hsame : blocks.map (fun b => b.remove "cache_control") = blocks := by
      conv_rhs => rw [← List.map_id blocks]
      refine List.map_congr_left fun b hb => remove_of_unmarked ?_
      rw [Bool.not_eq_true, List.any_eq_false] at hmarked
      exact Bool.not_eq_true _ |>.mp (hmarked b hb)
    rw [hsame, Json.insert_self h]

theorem settled_of_arr (h : msg.get? "content" = some (.arr blocks)) : Settled msg := by
  intro text htext
  rw [h] at htext
  cases htext

/-- A message holds blocks, or is wrapped, or goes out as it is. -/
theorem settle_cases (msg : Json) :
    (∃ blocks, msg.get? "content" = some (.arr blocks)) ∨
    (∃ text, msg.get? "content" = some (.str text) ∧ eligibleText text = true ∧
      settle msg = msg.insert "content" (.arr [textBlock text])) ∨
    (settle msg = msg ∧ Settled msg) := by
  simp only [settle]
  split
  · rename_i blocks h
    exact Or.inl ⟨blocks, h⟩
  · rename_i text h
    split_ifs with heligible
    · exact Or.inr (Or.inl ⟨text, h, heligible, rfl⟩)
    · refine Or.inr (Or.inr ⟨rfl, fun text' h' => ?_⟩)
      obtain rfl := Json.str.inj (Option.some.inj (h.symm.trans h'))
      simpa using heligible
  · rename_i hother
    exact Or.inr (Or.inr ⟨rfl, fun text h => absurd h (hother text)⟩)

theorem Settled.withoutMarkers_settle (h : Settled msg) :
    withoutMarkers (settle msg) = withoutMarkers msg := by
  rcases settle_cases msg with ⟨blocks, harr⟩ | ⟨text, htext, heligible, -⟩ | ⟨hsame, -⟩
  · rw [settle_of_arr harr, withoutMarkers_idem harr]
  · rw [h text htext] at heligible
    cases heligible
  · rw [hsame]

theorem settled_settle (msg : Json) : Settled (settle msg) := by
  rcases settle_cases msg with ⟨blocks, harr⟩ | ⟨text, htext, -, heq⟩ | ⟨hsame, hsettled⟩
  · rw [settle_of_arr harr, withoutMarkers_of_arr harr]
    exact settled_of_arr (Json.get?_insert_self harr)
  · rw [heq]
    exact settled_of_arr (Json.get?_insert_self htext)
  · rwa [hsame]

/-! ### Markers aside -/

theorem map_modify_of_eq {α β : Type*} {f : α → α} {g : α → β} (h : ∀ a, g (f a) = g a) (i : ℕ)
    (l : List α) : (l.modify i f).map g = l.map g := by
  induction l generalizing i with
  | nil => simp
  | cons a l ih =>
    cases i with
    | zero => simp [h]
    | succ i => simp [ih]

theorem mem_modify {α : Type*} {f : α → α} {i : ℕ} {l : List α} {a : α} (h : a ∈ l.modify i f) :
    a ∈ l ∨ ∃ b ∈ l, a = f b := by
  induction l generalizing i with
  | nil => simp at h
  | cons b l ih =>
    cases i with
    | zero =>
      rw [List.modify_zero_cons] at h
      rcases List.mem_cons.mp h with rfl | h
      · exact Or.inr ⟨b, List.mem_cons_self, rfl⟩
      · exact Or.inl (List.mem_cons_of_mem _ h)
    | succ i =>
      rw [List.modify_succ_cons] at h
      rcases List.mem_cons.mp h with rfl | h
      · exact Or.inl List.mem_cons_self
      · rcases ih h with h | ⟨c, hc, rfl⟩
        · exact Or.inl (List.mem_cons_of_mem _ h)
        · exact Or.inr ⟨c, List.mem_cons_of_mem _ hc, rfl⟩

theorem markMessage_of_arr (i : ℕ)
    (h : msg.get? "content" = some (.arr blocks)) : markMessage i msg = msg.insert "content"
      (.arr (blocks.modify i fun b => b.insert "cache_control" ephemeralMarker)) := by
  simp only [markMessage, h]

/-- A message without blocks takes no marker. -/
theorem markMessage_cases (i : ℕ) (msg : Json) :
    (∃ blocks, msg.get? "content" = some (.arr blocks)) ∨ markMessage i msg = msg := by
  simp only [markMessage]
  split
  · rename_i blocks h
    exact Or.inl ⟨blocks, h⟩
  · exact Or.inr rfl

theorem withoutMarkers_markMessage (i : ℕ) (msg : Json) :
    withoutMarkers (markMessage i msg) = withoutMarkers msg := by
  rcases markMessage_cases i msg with ⟨blocks, h⟩ | h
  · rw [markMessage_of_arr i h, withoutMarkers_insert h, withoutMarkers_of_arr h,
      map_modify_of_eq fun b => Json.remove_insert_self]
  · rw [h]

theorem settled_markMessage (i : ℕ) (h : Settled msg) :
    Settled (markMessage i msg) := by
  rcases markMessage_cases i msg with ⟨blocks, harr⟩ | hsame
  · rw [markMessage_of_arr i harr]
    exact settled_of_arr (Json.get?_insert_self harr)
  · rwa [hsame]

section

variable (messages : List Json) (tailSlots : ℕ) (scaffold : Bool)

private theorem foldl_placeMarker (targets : List CacheTarget) (placed : List Json × ℕ)
    (hsettled : ∀ m ∈ placed.1, Settled m) :
    (targets.foldl placeMarker placed).1.map withoutMarkers = placed.1.map withoutMarkers ∧
      ∀ m ∈ (targets.foldl placeMarker placed).1, Settled m := by
  induction targets generalizing placed with
  | nil => exact ⟨rfl, hsettled⟩
  | cons target targets ih =>
    have hstep : ∀ m ∈ (placeMarker placed target).1, Settled m := by
      intro m hm
      rcases mem_modify hm with hm | ⟨m', hm', rfl⟩
      · exact hsettled m hm
      · exact settled_markMessage _ (hsettled m' hm')
    obtain ⟨hmap, hall⟩ := ih (placeMarker placed target) hstep
    refine ⟨hmap.trans ?_, hall⟩
    exact map_modify_of_eq (withoutMarkers_markMessage target.blockIdx) _ _

private theorem settled_map_settle : ∀ m ∈ messages.map settle, Settled m := by
  intro m hm
  obtain ⟨m', -, rfl⟩ := List.mem_map.mp hm
  exact settled_settle m'

theorem withoutMarkers_place :
    (placeTailCacheBreakpoints messages tailSlots scaffold).1.map withoutMarkers =
      messages.map fun m => withoutMarkers (settle m) := by
  simp only [placeTailCacheBreakpoints]
  rw [(foldl_placeMarker _ (messages.map settle, 0) (settled_map_settle messages)).1, List.map_map]
  rfl

theorem settled_of_mem_place {m : Json}
    (h : m ∈ (placeTailCacheBreakpoints messages tailSlots scaffold).1) : Settled m :=
  (foldl_placeMarker _ (messages.map settle, 0) (settled_map_settle messages)).2 m h

@[simp] theorem length_place :
    (placeTailCacheBreakpoints messages tailSlots scaffold).1.length = messages.length := by
  have := congrArg List.length (withoutMarkers_place messages tailSlots scaffold)
  simpa only [List.length_map] using this

end

end Headroom.PrefixReplay
