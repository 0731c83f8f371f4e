import Headroom.Foundation.Threading
import Headroom.SmartCrusher.Compaction.Cells
import Headroom.SmartCrusher.Outliers

/-!
# From arrays to tables

An array of objects becomes a table with a column for each key, or, where the objects are too uneven and
a field tells them apart, one table for each value of that field. Long strings go to a store, and their
cells name them. Columns that hold objects with the same keys in all rows are split into one column for
each key.
-/

open Foundation

namespace Headroom.SmartCrusher

/-- A store for what is not shown. A write that it takes can be read back. -/
structure CcrStore (σ : Type) where
  put : σ → String → String → Bool × σ
  get : σ → String → Option String
  get_put : ∀ {s hash payload s'}, put s hash payload = (true, s') → get s' hash = some payload

structure CompactConfig where
  classify : ClassifyConfig
  minItems : ℕ
  /-- In how many of so many rows a field must be to be core. -/
  coreThreshold : ℕ → ℕ
  /-- Whether so many core fields of so many fields are too few. -/
  isHeterogeneous : ℕ → ℕ → Bool
  maxFlattenInnerKeys : ℕ
  minBuckets : ℕ
  maxBuckets : ℕ

/-! ### Columns -/

/-- The keys of some objects in their order, each with the number of objects that have it. -/
def computeKeyFreqs (items : List Json) : List (String × ℕ) :=
  ((items.flatMap keysOf).dedup.insertionSort (· ≤ ·)).map fun key => (key, fieldCount items key)

/-- Whether a number is written as an integer of 64 bits, with a sign or without. -/
def isInteger64 (literal : String) : Bool :=
  let digits (text : List Char) := text ≠ [] && text.all Char.isDigit
  match literal.toList with
  | '-' :: text => digits text && Nat.ofDigitChars 10 text 0 ≤ 2 ^ 63
  | text => digits text && Nat.ofDigitChars 10 text 0 < 2 ^ 64

def typeTagFor : Json → String
  | .null => "null"
  | .bool _ => "bool"
  | .num literal => if isInteger64 literal then "int" else "float"
  | .str _ => "string"
  | .obj _ => "json"
  | .arr _ => "json"

/-- The tag that all tags of a list agree on. -/
def agreedTag : List String → String
  | [] => "string"
  | tag :: tags => if tags.all (· == tag) then tag else "json"

/-- The values of a field in the items that have it. -/
def columnOf (items : List Json) (key : String) : List Json := items.filterMap (Json.get? key)

def inferTypeTag (items : List Json) (key : String) : String :=
  agreedTag (((columnOf items key).filter (· ≠ .null)).map typeTagFor)

/-- The keys in the order of columns: the most frequent first, those of one frequency by name. -/
def orderedKeys (items : List Json) : List String :=
  ((computeKeyFreqs items).insertionSort fun a b => b.2 < a.2 ∨ (a.2 = b.2 ∧ a.1 ≤ b.1)).map Prod.fst

def fieldSpecOf (items : List Json) (key : String) : FieldSpec where
  name := key
  typeTag := inferTypeTag items key
  nullable := fieldCount items key < items.length || (columnOf items key).any (· == .null)

/-! ### Splitting columns -/

/-- The keys of a cell that is an object, or none if there is no cell. -/
def cellKeys : CellValue → Option (Option (List String))
  | .missing => some none
  | .scalar (.obj fields) => some (some (fields.map Prod.fst))
  | _ => none

/-- The keys that the objects of a column share; a row may lack the column. -/
def uniformObjectKeys (name : String) (cells : List CellValue) : Option (List String) :=
  if name.toList.contains '.' then none
  else match cells.mapM cellKeys with
  | none => none
  | some found =>
    match found.filterMap id with
    | [] => none
    | keys :: others => if others.all (· == keys) then some keys else none

/-- The cells for the keys of an object, or for an object that is not there. -/
def expandCell (keys : List String) : CellValue → List CellValue
  | .scalar (.obj fields) => keys.map fun key =>
    match (Json.obj fields).get? key with
    | none => .missing
    | some v => .scalar v
  | _ => keys.map fun _ => .missing

/-- Whether a cell is absent or null. -/
def isVoid : CellValue → Bool
  | .missing => true
  | .scalar .null => true
  | _ => false

def cellTag : CellValue → String
  | .scalar v => typeTagFor v
  | _ => "json"

/-- The tag of a column of cells. -/
def inferTypeTagFromCells (cells : List CellValue) : String :=
  agreedTag ((cells.filter fun cell => !isVoid cell).map cellTag)

/-- A column: what is known of it, and its cells. -/
structure Column where
  spec : FieldSpec
  cells : List CellValue

def splitColumn (maxInnerKeys : ℕ) (column : Column) : List Column :=
  match uniformObjectKeys column.spec.name column.cells with
  | none => [column]
  | some keys =>
    if keys = [] ∨ maxInnerKeys < keys.length then [column]
    else keys.zipIdx.map fun (key, i) =>
      let cells := column.cells.map fun cell => (expandCell keys cell).getD i .missing
      ⟨⟨column.spec.name ++ "." ++ key, inferTypeTagFromCells cells, cells.any isVoid⟩, cells⟩

/-- The columns of some rows. -/
def columnsOf (specs : List FieldSpec) (rows : List Row) : List Column :=
  specs.zipIdx.map fun (spec, i) => ⟨spec, rows.map fun row => row.getD i .missing⟩

/-- The rows of some columns. -/
def rowsOf (count : ℕ) (columns : List Column) : List Row :=
  (List.range count).map fun i => columns.map fun column => column.cells.getD i .missing

def flattenUniformNested (maxInnerKeys : ℕ) (specs : List FieldSpec) (rows : List Row) :
    List FieldSpec × List Row :=
  let columns := (columnsOf specs rows).flatMap (splitColumn maxInnerKeys)
  (columns.map Column.spec, rowsOf rows.length columns)

/-! ### Fields that tell rows apart -/

/-- The values of a field that is a string in every item. -/
def stringValues (items : List Json) (key : String) : Option (List String) :=
  items.mapM (Json.getStr? key)

/-- In how many groups a field parts the items, where it is fit for that. -/
def bucketCount (cfg : CompactConfig) (items : List Json) (key : String) : Option ℕ :=
  match stringValues items key with
  | none => none
  | some values =>
    let n := values.dedup.length
    if n < cfg.minBuckets ∨ cfg.maxBuckets < n ∨ 7 * items.length < 10 * n then none else some n

/-- The first of the fields with the most groups. -/
def detectDiscriminator (cfg : CompactConfig) (items : List Json) (keyFreqs : List (String × ℕ)) :
    Option String :=
  let candidates := keyFreqs.filterMap fun (key, freq) =>
    if freq < items.length then none else (bucketCount cfg items key).map fun n => (key, n)
  (candidates.foldl (fun best candidate =>
    match best with
    | some b => if b.2 < candidate.2 then some candidate else some b
    | none => some candidate) none).map Prod.fst

/-- The groups of items under each value of a field, by the order of the values. -/
def groupsBy (items : List Json) (discriminator : String) : List (String × List Json) :=
  let keyOf item := (Json.getStr? discriminator item).getD "__missing__"
  ((items.map keyOf).dedup.insertionSort (· ≤ ·)).map fun key =>
    (key, items.filter fun item => keyOf item == key)

/-! ### The compaction -/

section

variable {σ : Type} (R : JsonReader) (sha256 : String → String) (cfg : CompactConfig)
  (ccrStore : Option (CcrStore σ))

/-- The name of a text in the store. -/
def hashOpaque (text : String) : String := ((sha256 text).take 12).toString

/-- A write to the store; without one there is nothing to refuse it. -/
def putIn (hash payload : String) (s : σ) : Bool × σ :=
  match ccrStore with
  | none => (true, s)
  | some store => store.put s hash payload

/-- The items of an array that is worth a table of its own. -/
def tableItems : Json → Option (List Json)
  | .arr items => if items.all Json.isObj && 2 ≤ items.length then some items else none
  | _ => none

/-- The cell of a long string: what names it, once the store has it. -/
def opaqueCell (v : Json) (text : String) (kind : OpaqueKind) (s : σ) : CellValue × σ :=
  let hash := hashOpaque sha256 text
  if (putIn ccrStore hash text s).1 then
    (.opaqueRef hash (Text.byteLength text) kind, (putIn ccrStore hash text s).2)
  else (.scalar v, (putIn ccrStore hash text s).2)

/-- The cell of a value; `compact` is the compaction of the arrays inside. -/
def cellFromValue (compact : List Json → σ → Compaction × σ) (v : Json) (s : σ) : CellValue × σ :=
  let arrayCell (value : Json) : CellValue × σ :=
    match tableItems value with
    | some items => (.nested (compact items s).1, (compact items s).2)
    | none => (.scalar value, s)
  match classifyCell R cfg.classify v with
  | .scalar => (.scalar v, s)
  | .jsonObject => (.scalar v, s)
  | .jsonArray => arrayCell v
  | .stringifiedJson parsed => arrayCell parsed
  | .isOpaque kind =>
    match v with
    | .str text => opaqueCell sha256 ccrStore v text kind s
    | _ => (.scalar v, s)

/-- The row of an item. -/
def buildRow (compact : List Json → σ → Compaction × σ) (keys : List String) (item : Json) :
    σ → Row × σ :=
  thread (fun key s =>
    match item.get? key with
    | none => (.missing, s)
    | some v => cellFromValue R sha256 cfg ccrStore compact v s) keys

def buildHomogeneousTable (compact : List Json → σ → Compaction × σ) (items : List Json) (s : σ) :
    Compaction × σ :=
  let keys := orderedKeys items
  let built := thread (buildRow R sha256 cfg ccrStore compact keys) items s
  let flat := flattenUniformNested cfg.maxFlattenInnerKeys (keys.map (fieldSpecOf items)) built.1
  (.table flat.1 flat.2 items.length, built.2)

/-- The bucket of a group. One that is not compacted has its items in a column of their own. -/
def bucketOf (compact : List Json → σ → Compaction × σ) (group : String × List Json) (s : σ) : Bucket × σ :=
  match compact group.2 s with
  | (.table schema rows _, s) => (.mk (.str group.1) schema rows, s)
  | (_, s) => (.mk (.str group.1) [⟨"value", "json", false⟩] (group.2.map fun v => [.scalar v]), s)

def bucketBy (compact : List Json → σ → Compaction × σ) (items : List Json) (discriminator : String)
    (s : σ) : Compaction × σ :=
  let built := thread (bucketOf compact) (groupsBy items discriminator) s
  (.buckets discriminator built.1 items.length, built.2)

/-- The field by which the items are told apart, where they are too uneven for one table. -/
def discriminatorOf (items : List Json) : Option String :=
  let keyFreqs := computeKeyFreqs items
  let coreCount := keyFreqs.countP fun entry => cfg.coreThreshold items.length ≤ entry.2
  if cfg.isHeterogeneous coreCount keyFreqs.length then detectDiscriminator cfg items keyFreqs else none

/-- The compaction of an array; every array inside it has one less of what the number counts. -/
def compactInner : ℕ → List Json → σ → Compaction × σ
  | 0, items, s => (.untouched (.arr items), s)
  | size + 1, items, s =>
    if items.length < cfg.minItems ∨ ¬items.all Json.isObj then (.untouched (.arr items), s)
    else match discriminatorOf cfg items with
    | some discriminator => bucketBy (compactInner size) items discriminator s
    | none => buildHomogeneousTable R sha256 cfg ccrStore (compactInner size) items s

/-- The items of an array, each with its row: a table has them in order, a bucket those of its group. -/
def pairedRows (items : List Json) : Compaction → List (Json × Row)
  | .table _ rows _ => items.zip rows
  | .buckets discriminator parts _ =>
    ((groupsBy items discriminator).zip parts).flatMap fun pair => pair.1.2.zip pair.2.rows
  | _ => []

/-- The compaction of an array. The arrays inside it are smaller than it is, those that strings spell
among them. -/
def compactWithStore (items : List Json) (s : σ) : Compaction × σ :=
  compactInner R sha256 cfg ccrStore (Json.arr items).weight items s

/-! ### A row for each item -/

@[simp] theorem length_rowsOf (count : ℕ) (columns : List Column) : (rowsOf count columns).length = count := by
  rw [rowsOf, List.length_map, List.length_range]

theorem length_flattenUniformNested (maxInnerKeys : ℕ) (specs : List FieldSpec) (rows : List Row) :
    (flattenUniformNested maxInnerKeys specs rows).2.length = rows.length := length_rowsOf _ _

theorem exists_buildHomogeneousTable (compact : List Json → σ → Compaction × σ) (items : List Json) (s : σ) :
    ∃ schema rows, (buildHomogeneousTable R sha256 cfg ccrStore compact items s).1 =
      .table schema rows items.length ∧ rows.length = items.length := by
  refine ⟨_, _, rfl, ?_⟩
  rw [length_flattenUniformNested, length_thread]

theorem flatMap_filter_perm {α β : Type} [DecidableEq β] (g : α → β) {keys : List β} (hkeys : keys.Nodup)
    (items : List α) :
    List.Perm (keys.flatMap fun key => items.filter fun item => g item == key)
      (items.filter fun item => decide (g item ∈ keys)) := by
  induction keys with
  | nil =>
    rw [List.flatMap_nil, List.filter_eq_nil_iff.2 fun item _ => by simp]
  | cons key keys ih =>
    rw [List.nodup_cons] at hkeys
    have hfirst : (items.filter fun item => decide (g item ∈ key :: keys)).filter (fun item => g item == key) =
        items.filter fun item => g item == key := by
      rw [List.filter_filter]
      refine List.filter_congr fun item _ => ?_
      by_cases h : g item = key
      · simp [h]
      · simp [h]
    have hothers : (items.filter fun item => decide (g item ∈ key :: keys)).filter
        (fun item => !(g item == key)) = items.filter fun item => decide (g item ∈ keys) := by
      rw [List.filter_filter]
      refine List.filter_congr fun item _ => ?_
      by_cases h : g item = key
      · simp [h, hkeys.1]
      · simp [h]
    rw [List.flatMap_cons]
    refine ((List.Perm.refl _).append (ih hkeys.2)).trans ?_
    rw [← hfirst, ← hothers]
    exact List.filter_append_perm _ _

theorem groupsBy_perm (items : List Json) (discriminator : String) :
    List.Perm ((groupsBy items discriminator).flatMap Prod.snd) items := by
  have hflat : (groupsBy items discriminator).flatMap Prod.snd =
      (((items.map fun item => (Json.getStr? discriminator item).getD "__missing__").dedup).insertionSort
        (· ≤ ·)).flatMap fun key => items.filter fun item =>
          (Json.getStr? discriminator item).getD "__missing__" == key := by
    rw [groupsBy, List.flatMap_map]
  have hnodup : (((items.map fun item =>
      (Json.getStr? discriminator item).getD "__missing__").dedup).insertionSort (· ≤ ·)).Nodup :=
    (List.perm_insertionSort _ _).nodup_iff.2 (List.nodup_dedup _)
  rw [hflat]
  refine (flatMap_filter_perm _ hnodup items).trans ?_
  rw [List.filter_eq_self.2 fun item hitem => ?_]
  rw [decide_eq_true_iff, List.mem_insertionSort, List.mem_dedup]
  exact List.mem_map_of_mem hitem

variable {R} {sha256} {cfg} {ccrStore}

/-- What a compaction of some items is: nothing was done, or there is a row for each. -/
def Tabulated (items : List Json) (c : Compaction) : Prop :=
  c.wasCompacted → List.Perm ((pairedRows items c).map Prod.fst) items ∧
    (pairedRows items c).map Prod.snd = c.allRows

theorem tabulated_untouched (items : List Json) (v : Json) : Tabulated items (.untouched v) :=
  fun h => absurd h nofun

theorem tabulated_table {items : List Json} {schema : List FieldSpec} {rows : List Row} {n : ℕ}
    (h : rows.length = items.length) : Tabulated items (.table schema rows n) := by
  intro _
  refine ⟨?_, List.map_snd_zip h.le⟩
  rw [pairedRows, List.map_fst_zip h.ge]

theorem length_rows_bucketOf {compact : List Json → σ → Compaction × σ}
    (hcompact : ∀ items s schema rows n, (compact items s).1 = .table schema rows n →
      rows.length = items.length) (group : String × List Json) (s : σ) :
    (bucketOf compact group s).1.rows.length = group.2.length := by
  rw [bucketOf]
  split
  · rename_i schema rows n s' h
    exact hcompact group.2 s schema rows n (congrArg Prod.fst h)
  · exact List.length_map _

theorem tabulated_bucketBy {compact : List Json → σ → Compaction × σ}
    (hcompact : ∀ items s schema rows n, (compact items s).1 = .table schema rows n →
      rows.length = items.length) (items : List Json) (discriminator : String) (s : σ) :
    Tabulated items (bucketBy compact items discriminator s).1 := by
  intro _
  have hforall : List.Forall₂ (fun group (bucket : Bucket) => bucket.rows.length = group.2.length)
      (groupsBy items discriminator) (thread (bucketOf compact) (groupsBy items discriminator) s).1 :=
    forall₂_thread (fun group _ s => length_rows_bucketOf hcompact group s) s
  have hpairs : ∀ {groups : List (String × List Json)} {parts : List Bucket},
      List.Forall₂ (fun group bucket => bucket.rows.length = group.2.length) groups parts →
      ((groups.zip parts).flatMap fun pair => pair.1.2.zip pair.2.rows).map Prod.fst =
        groups.flatMap Prod.snd ∧
      ((groups.zip parts).flatMap fun pair => pair.1.2.zip pair.2.rows).map Prod.snd =
        parts.flatMap Bucket.rows := by
    intro groups parts h
    induction h with
    | nil => exact ⟨rfl, rfl⟩
    | cons hfirst _ ih =>
      rw [List.zip_cons_cons, List.flatMap_cons, List.map_append, List.map_append, ih.1, ih.2,
        List.map_fst_zip hfirst.ge, List.map_snd_zip hfirst.le]
      exact ⟨rfl, rfl⟩
  obtain ⟨hfst, hsnd⟩ := hpairs hforall
  refine ⟨?_, hsnd⟩
  rw [bucketBy, pairedRows, hfst]
  exact groupsBy_perm items discriminator

theorem length_rows_compactInner {size : ℕ} {items : List Json} {s : σ} {schema : List FieldSpec}
    {rows : List Row} {n : ℕ}
    (h : (compactInner R sha256 cfg ccrStore size items s).1 = .table schema rows n) :
    rows.length = items.length := by
  cases size with
  | zero => exact absurd h nofun
  | succ size =>
    rw [compactInner] at h
    split_ifs at h
    split at h
    · exact absurd h nofun
    · obtain ⟨schema', rows', htable, hrows⟩ := exists_buildHomogeneousTable R sha256 cfg ccrStore
        (compactInner R sha256 cfg ccrStore size) items s
      rw [htable] at h
      obtain ⟨-, rfl, -⟩ := Compaction.table.inj h
      exact hrows

theorem tabulated_compactInner (size : ℕ) (items : List Json) (s : σ) :
    Tabulated items (compactInner R sha256 cfg ccrStore size items s).1 := by
  cases size with
  | zero => exact tabulated_untouched items _
  | succ size =>
    rw [compactInner]
    split_ifs
    · exact tabulated_untouched items _
    · split
      · exact tabulated_bucketBy (fun _ _ _ _ _ h => length_rows_compactInner h) items _ s
      · obtain ⟨schema, rows, htable, hrows⟩ := exists_buildHomogeneousTable R sha256 cfg ccrStore
          (compactInner R sha256 cfg ccrStore size) items s
        rw [htable]
        exact tabulated_table hrows

theorem tabulated_compactWithStore (items : List Json) (s : σ) :
    Tabulated items (compactWithStore R sha256 cfg ccrStore items s).1 := tabulated_compactInner _ items s

end

end Headroom.SmartCrusher
