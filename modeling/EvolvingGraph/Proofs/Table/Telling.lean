/-
  EvolvingGraph.Proofs.Table.Telling
  ──────────────────────────────────
  **WHICH TABLES CAN BE READ AS GRAPHS.**

  A table of edges may have columns of any names, and a reading chooses those of
  the ends and of the id; every other column is one of attributes.  If no end and
  no id is missing and no two rows share their id or their pair, then two things
  are left that a row can fail at: what it names cannot be a name, or it tells of
  an attribute whose name is reserved.  The first row that fails ends the reading.

  Main statements:
    * `Describes.ofTable_eq` — the reading goes through the rows, whatever the columns are;
    * `Describes.ofTable_of_good` — rows that do not fail become edges;
    * `Describes.ofTable_of_clash`, `Describes.ofTable_of_not_good` — what the
      first row that fails comes to.
-/
import EvolvingGraph.Proofs.Import.Networks
import EvolvingGraph.Proofs.Table.Reading

namespace EvolvingGraph

/-! ## §1. What a table tells, read in one way. -/

namespace Table

/-- Whether there is a column of a name. -/
def hasColumn (t : Table) (name : Value) : Bool := t.columns.any (·.name.key? == name.key?)

/-- The column of a name, without cells if there is none. -/
def columnOf (t : Table) (name : Value) : NamedColumn :=
  (t.columns.find? (·.name.key? == name.key?)).getD ⟨name, []⟩

/-- The cell of a row in the column of a name. -/
def cell (t : Table) (i : Nat) (name : Value) : Value := Graph.cellAt i (t.columnOf name)

theorem find?_column_eq (t : Table) (name : Value) :
    t.columns.find? (·.name.key? == name.key?)
      = if t.hasColumn name then some (t.columnOf name) else none := by
  unfold columnOf hasColumn
  cases hfind : t.columns.find? (·.name.key? == name.key?) with
  | some c =>
    have hmem := List.mem_of_find?_eq_some hfind
    have hkey := List.find?_some hfind
    rw [if_pos (List.any_eq_true.2 ⟨c, hmem, hkey⟩)]
    rfl
  | none => rw [if_neg (by simpa using hfind)]

theorem column?_eq (t : Table) {name : Value} {k : Key} (hk : name.key? = some k) :
    t.column? name = .ok (if t.hasColumn name then some (t.columnOf name) else none) := by
  unfold column?
  rw [hk, ← find?_column_eq, hk]

theorem requiredColumn_eq {t : Table} {name : Value} {k : Key} (hk : name.key? = some k)
    (h : t.hasColumn name = true) : Graph.requiredColumn t name = .ok (t.columnOf name) := by
  unfold Graph.requiredColumn
  rw [t.column?_eq hk, if_pos h]
  rfl

end Table

/-- Of the column of the ids only the cell in the row matters, if there is one. -/
theorem Graph.addRow_congr_edgeId {source target c : NamedColumn} {edgeId : Option NamedColumn}
    {others : List NamedColumn} {i : Nat}
    (h : edgeId.elim (.tuple [cellAt i source, cellAt i target]) (cellAt i) = cellAt i c)
    (g : Graph) :
    g.addRow source target edgeId others i = g.addRow source target (some c) others i := by
  unfold addRow
  cases edgeId with
  | none => simp only [show Value.tuple [cellAt i source, cellAt i target] = cellAt i c from h]
  | some d => simp only [show cellAt i d = cellAt i c from h]

namespace TableReading

variable {reading : TableReading} {t : Table} {i : Nat}

/-- The id of the edge of a row: what stands in the column of the ids, or the pair
of the ends if there is no such column. -/
def edgeIdAt (reading : TableReading) (t : Table) (i : Nat) : Value :=
  if t.hasColumn reading.edgeId then t.cell i reading.edgeId
  else .tuple [t.cell i reading.source, t.cell i reading.target]

/-- The columns that are neither those of the ends nor that of the ids. -/
def attributeColumns (reading : TableReading) (t : Table) : List NamedColumn :=
  t.columns.filter fun c =>
    !([reading.source.key?, reading.target.key?, reading.edgeId.key?].contains c.name.key?)

/-- The edges of two rows join one pair: an ordered one in a directed graph, an
unordered one otherwise. -/
def SamePairAt (reading : TableReading) (t : Table) (i j : Nat) : Prop :=
  ((t.cell i reading.source).SameId (t.cell j reading.source)
      ∧ (t.cell i reading.target).SameId (t.cell j reading.target))
    ∨ (reading.directed = false
      ∧ (t.cell i reading.source).SameId (t.cell j reading.target)
      ∧ (t.cell i reading.target).SameId (t.cell j reading.source))

/-- A table of edges that is read by its columns: these have different names, which
are text; nothing is missing where an end or an id has to be; and no two rows have
equal ids or join one pair. -/
structure Describes (reading : TableReading) (t : Table) : Prop where
  named : ∀ c ∈ t.columns, ∃ s, c.name = .str s
  apart : t.columns.Pairwise fun c d => c.name ≠ d.name
  source_mem : ∃ c ∈ t.columns, c.name = reading.source
  target_mem : ∃ c ∈ t.columns, c.name = reading.target
  edgeId_text : reading.edgeId = .null ∨ ∃ s, reading.edgeId = .str s
  present : ∀ i < t.height, Column.isMissing (t.cell i reading.source) = false
    ∧ Column.isMissing (t.cell i reading.target) = false
    ∧ Column.isMissing (reading.edgeIdAt t i) = false
  ids_apart : ∀ i j, i < j → j < t.height →
    ¬(reading.edgeIdAt t i).SameId (reading.edgeIdAt t j)
  pairs_apart : ∀ i j, i < j → j < t.height → ¬reading.SamePairAt t i j

/-- The id and the ends of a row can be names. -/
structure NameableAt (reading : TableReading) (t : Table) (i : Nat) : Prop where
  source : ∃ k, (t.cell i reading.source).key? = some k
  target : ∃ k, (t.cell i reading.target).key? = some k
  edgeId : ∃ k, (reading.edgeIdAt t i).key? = some k

/-- A row tells of an attribute that has the name of something else that a request
for an edge is given. -/
def ClashesAt (reading : TableReading) (t : Table) (i : Nat) : Prop :=
  ∃ c ∈ reading.attributeColumns t, ∃ s ∈ ["self", "edge_id", "source", "target"],
    c.name = .str s ∧ Column.isMissing (Graph.cellAt i c) = false

/-- The columns, with the ids that are not in one put in one. -/
def roles (reading : TableReading) (t : Table) : ColumnRoles where
  source := t.columnOf reading.source
  target := t.columnOf reading.target
  edgeId := ⟨reading.edgeId, (List.range t.height).map (reading.edgeIdAt t)⟩
  others := reading.attributeColumns t

theorem cellAt_edgeId (hi : i < t.height) :
    Graph.cellAt i (reading.roles t).edgeId = reading.edgeIdAt t i := by
  simp [Graph.cellAt, roles, hi]

namespace Describes

theorem hasColumn_of_mem {name : Value} (h : ∃ c ∈ t.columns, c.name = name) :
    t.hasColumn name = true := by
  obtain ⟨c, hc, rfl⟩ := h
  exact List.any_eq_true.2 ⟨c, hc, beq_self_eq_true _⟩

theorem named_others (h : reading.Describes t) :
    ∀ c ∈ (reading.roles t).others, ∃ s, c.name = .str s :=
  fun c hc => h.named c (List.mem_of_mem_filter hc)

theorem apart_others (h : reading.Describes t) :
    ((reading.roles t).others.map (·.name.key?)).Nodup := by
  have hkeys : (t.columns.map (·.name.key?)).Nodup := by
    refine List.pairwise_map.2 (h.apart.imp_of_mem fun {c d} hc hd hne hkey => hne ?_)
    obtain ⟨s, hs⟩ := h.named d hd
    rw [hs] at hkey ⊢
    exact Value.eq_str_of_key? hkey
  exact hkeys.sublist (List.filter_sublist.map _)

theorem exists_key_of_mem (h : reading.Describes t) {name : Value}
    (hname : ∃ c ∈ t.columns, c.name = name) : ∃ k, name.key? = some k := by
  obtain ⟨c, hc, rfl⟩ := hname
  obtain ⟨s, hs⟩ := h.named c hc
  exact ⟨.text s, by rw [hs]; rfl⟩

/-- No column has the name "nothing". -/
theorem hasColumn_null (h : reading.Describes t) : t.hasColumn .null = false := by
  refine Bool.eq_false_iff.2 fun hany => ?_
  obtain ⟨c, hc, hkey⟩ := List.any_eq_true.1 hany
  obtain ⟨s, hs⟩ := h.named c hc
  rw [hs] at hkey
  exact absurd (eq_of_beq hkey) (by simp [Value.key?])

/-- The columns are found by their names. -/
theorem ofTable_eq_of_columns (h : reading.Describes t) : Graph.ofTable t reading
    = (List.range t.height).foldlM
      (Graph.addRow (t.columnOf reading.source) (t.columnOf reading.target)
        (if t.hasColumn reading.edgeId then some (t.columnOf reading.edgeId) else none)
        (reading.attributeColumns t))
      (Graph.empty reading.directed) := by
  obtain ⟨j, hj⟩ := h.exists_key_of_mem h.source_mem
  obtain ⟨k, hk⟩ := h.exists_key_of_mem h.target_mem
  unfold Graph.ofTable
  rw [Table.requiredColumn_eq hj (hasColumn_of_mem h.source_mem),
    Table.requiredColumn_eq hk (hasColumn_of_mem h.target_mem)]
  obtain hnull | ⟨s, hs⟩ := h.edgeId_text
  · have hnone : t.hasColumn reading.edgeId = false := by rw [hnull, h.hasColumn_null]
    have hisNull : reading.edgeId.isNull = true := by rw [hnull]; rfl
    rw [hnone]
    simp only [hisNull]
    rfl
  · have hisNull : reading.edgeId.isNull = false := by rw [hs]; rfl
    rw [t.column?_eq (k := .text s) (by rw [hs]; rfl)]
    simp only [hisNull]
    rfl

/-- **The rows are gone through, whatever the columns are.** -/
theorem ofTable_eq (h : reading.Describes t) : Graph.ofTable t reading
    = (List.range t.height).foldlM
      (Graph.addRow (reading.roles t).source (reading.roles t).target
        (some (reading.roles t).edgeId) (reading.roles t).others)
      (Graph.empty reading.directed) := by
  rw [h.ofTable_eq_of_columns]
  refine foldlM_congr fun i hi g => ?_
  refine Graph.addRow_congr_edgeId ?_ g
  rw [cellAt_edgeId (List.mem_range.1 hi), edgeIdAt]
  split <;> rfl

end Describes
end TableReading

/-! ## §2. Rows that fail. -/

namespace Graph

/-- What cannot be a name becomes no node. -/
theorem ensureNode_of_unhashable (g : Graph) {v : Value} (h : v.key? = none) :
    g.ensureNode v = .error .unhashable := by
  have hadd : g.addNode v = .error .unhashable := by
    unfold addNode identify
    rw [Identifier.ofValue?_eq_none_iff.2 h]
    rfl
  have happly : g.apply (.addNode v) = (g, .error .unhashable) := by
    show Outcome.ofExcept g (g.addNode v) = _
    rw [hadd]
    rfl
  have hnode : g.hasNode v = false := by
    unfold hasNode
    rw [h]
  unfold ensureNode
  rw [hnode]
  show g.applyAll [.addNode v] = _
  rw [applyAll, happly]

theorem exists_ensureNode (g : Graph) {v : Value} (h : ∃ k, v.key? = some k)
    (hpresent : Column.isMissing v = false) : ∃ g', g.ensureNode v = .ok g' := by
  obtain ⟨k, hk⟩ := h
  rw [← Value.asName_value hk] at hpresent ⊢
  exact ⟨_, g.ensureNode_eq (Value.isNull_eq_false_of_isMissing hpresent)⟩

/-- What cannot be a name becomes no edge. -/
theorem perform_addEdge_of_unhashable (g : Graph) {id : Value} (h : id.key? = none)
    (source target : Value) (attributes : Attributes) :
    ∃ e, g.perform (.addEdge id source target) attributes = .error e ∧ e.kind = .type := by
  cases haccepts : (Change.addEdge id source target).accepts attributes with
  | false => exact ⟨_, perform_of_not_accepts haccepts, rfl⟩
  | true =>
    have hadd : g.addEdge id source target = .error .unhashable := by
      unfold addEdge identify
      rw [Identifier.ofValue?_eq_none_iff.2 h]
      rfl
    have happly : g.apply (.addEdge id source target) = (g, .error .unhashable) := by
      show Outcome.ofExcept g (g.addEdge id source target) = _
      rw [hadd]
      rfl
    refine ⟨.unhashable, ?_, rfl⟩
    unfold perform
    rw [haccepts]
    show g.applyAll (.addEdge id source target :: Change.settings _ attributes) = _
    rw [applyAll, happly]

/-- An edge whose attributes cannot be taken along is not added; its ends are there
by then. -/
theorem requestRow_of_not_accepts (g : Graph) {r : EdgeRecord}
    (hsource : r.source.value.isNull = false) (htarget : r.target.value.isNull = false)
    (h : r.request.1.accepts r.request.2 = false) : g.requestRow r = .error .badArgument := by
  unfold requestRow
  rw [g.ensureNode_eq hsource]
  show ((g.plusEnd r.source).ensureNode r.target.value >>= _) = _
  rw [ensureNode_eq _ htarget]
  exact perform_of_not_accepts h

end Graph

namespace TableReading

variable {reading : TableReading} {t : Table} {i : Nat}

/-- The attributes of a row can be taken along unless it clashes. -/
theorem Describes.namedOutside_iff (h : reading.Describes t) :
    Attributes.NamedOutside ((reading.roles t).attributesAt i)
      ["self", "edge_id", "source", "target"] ↔ ¬reading.ClashesAt t i := by
  have hread {k : Key} {v : Value} := ColumnRoles.get?_attributesAt (i := i) (k := k) (v := v)
    h.named_others h.apart_others
  rw [Attributes.namedOutside_iff]
  constructor
  · rintro hout ⟨c, hc, s, hs, hname, hpresent⟩
    have hget := hread.2 ⟨c, hc, congrArg Value.key? hname, rfl, hpresent⟩
    obtain ⟨s', hs', hs''⟩ := hout (.text s) (Catalog.contains_iff_get?.2 ⟨_, hget⟩)
    exact hs'' (Key.text.inj hs' ▸ hs)
  · intro hclash k hk
    obtain ⟨v, hget⟩ := Catalog.contains_iff_get?.1 hk
    obtain ⟨c, hc, hkey, rfl, hpresent⟩ := hread.1 hget
    obtain ⟨s, hs⟩ := h.named_others c hc
    rw [hs] at hkey
    exact ⟨s, (Option.some.inj hkey).symm, fun hmem => hclash ⟨c, hc, s, hmem, hs, hpresent⟩⟩

theorem cell_asName_value {name : Value} (h : ∃ k, (t.cell i name).key? = some k) :
    (t.cell i name).asName.value = t.cell i name := by
  obtain ⟨k, hk⟩ := h
  exact Value.asName_value hk

theorem Describes.addRow_eq (h : reading.Describes t) (hi : i < t.height)
    (hnames : reading.NameableAt t i) (g : Graph) :
    g.addRow (reading.roles t).source (reading.roles t).target (some (reading.roles t).edgeId)
        (reading.roles t).others i
      = g.requestRow ((reading.roles t).recordAt i) :=
  ColumnRoles.addRow_eq h.named_others (by rw [cellAt_edgeId hi]; exact hnames.edgeId)
    hnames.source hnames.target g

theorem Describes.source_named (h : reading.Describes t) (hi : i < t.height)
    (hnames : reading.NameableAt t i) :
    ((reading.roles t).recordAt i).source.value.isNull = false := by
  show (t.cell i reading.source).asName.value.isNull = false
  rw [cell_asName_value hnames.source]
  exact Value.isNull_eq_false_of_isMissing (h.present i hi).1

theorem Describes.target_named (h : reading.Describes t) (hi : i < t.height)
    (hnames : reading.NameableAt t i) :
    ((reading.roles t).recordAt i).target.value.isNull = false := by
  show (t.cell i reading.target).asName.value.isNull = false
  rw [cell_asName_value hnames.target]
  exact Value.isNull_eq_false_of_isMissing (h.present i hi).2.1

/-- A row that clashes is refused. -/
theorem Describes.addRow_of_clash (h : reading.Describes t) (hi : i < t.height)
    (hnames : reading.NameableAt t i) (hclash : reading.ClashesAt t i) (g : Graph) :
    g.addRow (reading.roles t).source (reading.roles t).target (some (reading.roles t).edgeId)
      (reading.roles t).others i = .error .badArgument := by
  rw [h.addRow_eq hi hnames]
  refine g.requestRow_of_not_accepts (h.source_named hi hnames) (h.target_named hi hnames) ?_
  refine Bool.eq_false_iff.2 fun haccepts => ?_
  exact h.namedOutside_iff.1 (Change.accepts_iff.1 haccepts) hclash

/-- A row that names something by what cannot be a name is refused. -/
theorem Describes.addRow_of_not_nameable (h : reading.Describes t) (hi : i < t.height)
    (hnames : ¬reading.NameableAt t i) (g : Graph) :
    ∃ e, g.addRow (reading.roles t).source (reading.roles t).target
      (some (reading.roles t).edgeId) (reading.roles t).others i = .error e
      ∧ e.kind = .type := by
  have hnone : ∀ {v : Value}, (¬∃ k, v.key? = some k) → v.key? = none := fun h =>
    Option.eq_none_iff_forall_ne_some.2 fun k hk => h ⟨k, hk⟩
  rw [ColumnRoles.addRow_eq_perform h.named_others]
  -- the ends come first, the source before the target
  by_cases hsource : ∃ k, (t.cell i reading.source).key? = some k
  swap
  · refine ⟨.unhashable, ?_, rfl⟩
    show (g.ensureNode (t.cell i reading.source) >>= _) = _
    rw [g.ensureNode_of_unhashable (hnone hsource)]
    rfl
  obtain ⟨g₁, hg₁⟩ := g.exists_ensureNode hsource (h.present i hi).1
  by_cases htarget : ∃ k, (t.cell i reading.target).key? = some k
  swap
  · refine ⟨.unhashable, ?_, rfl⟩
    show (g.ensureNode (t.cell i reading.source) >>= _) = _
    rw [hg₁]
    show (g₁.ensureNode (t.cell i reading.target) >>= _) = _
    rw [g₁.ensureNode_of_unhashable (hnone htarget)]
    rfl
  obtain ⟨g₂, hg₂⟩ := g₁.exists_ensureNode htarget (h.present i hi).2.1
  have hid : (Graph.cellAt i (reading.roles t).edgeId).key? = none := by
    rw [cellAt_edgeId hi]
    exact hnone fun hid => hnames ⟨hsource, htarget, hid⟩
  obtain ⟨e, he, hkind⟩ := g₂.perform_addEdge_of_unhashable hid (t.cell i reading.source)
    (t.cell i reading.target) ((reading.roles t).attributesAt i)
  refine ⟨e, ?_, hkind⟩
  show (g.ensureNode (t.cell i reading.source) >>= _) = _
  rw [hg₁]
  show (g₁.ensureNode (t.cell i reading.target) >>= _) = _
  rw [hg₂]
  exact he

/-! ## §3. The first row that fails. -/

/-- What a row comes to if it does not fail. -/
structure GoodAt (reading : TableReading) (t : Table) (i : Nat) : Prop where
  nameable : reading.NameableAt t i
  clashFree : ¬reading.ClashesAt t i

theorem Describes.key?_edgeId (hi : i < t.height) (hnames : reading.NameableAt t i) :
    (reading.edgeIdAt t i).key? = some ((reading.roles t).recordAt i).name.key := by
  obtain ⟨k, hk⟩ := hnames.edgeId
  have hcell : (Graph.cellAt i (reading.roles t).edgeId).key? = some k := by
    rw [cellAt_edgeId hi, hk]
  rw [hk, ← Value.asName_key hcell]
  rfl

theorem key?_cell {name : Value} (h : ∃ k, (t.cell i name).key? = some k) :
    (t.cell i name).key? = some (t.cell i name).asName.key := by
  obtain ⟨k, hk⟩ := h
  rw [Value.asName_key hk, hk]

/-- Rows that do not fail tell of edges that can be added with their ends. -/
theorem Describes.fits (h : reading.Describes t) {rows : List Nat}
    (hrows : rows.Sublist (List.range t.height)) (hgood : ∀ i ∈ rows, reading.GoodAt t i) :
    (Graph.empty reading.directed).Fits (rows.map (reading.roles t).recordAt) := by
  have hlt : ∀ i ∈ rows, i < t.height := fun i hi => List.mem_range.1 (hrows.subset hi)
  have hpairs : ∀ {p : EdgeRecord → EdgeRecord → Prop},
      (∀ i ∈ rows, ∀ j ∈ rows, i < j →
        p ((reading.roles t).recordAt i) ((reading.roles t).recordAt j)) →
      (rows.map (reading.roles t).recordAt).Pairwise p := by
    intro p hp
    refine List.pairwise_map.2 ((List.pairwise_lt_range.sublist hrows).imp_of_mem ?_)
    exact fun {i j} hi hj hij => hp i hi j hj hij
  constructor
  · exact List.forall_mem_map.2 fun i hi => h.source_named (hlt i hi) (hgood i hi).nameable
  · exact List.forall_mem_map.2 fun i hi => h.target_named (hlt i hi) (hgood i hi).nameable
  · show (((rows.map (reading.roles t).recordAt).map EdgeRecord.entry).map (·.1.key)).Nodup
    rw [List.map_map]
    refine List.pairwise_map.2 (hpairs fun i hi j hj hij hkey => ?_)
    refine h.ids_apart i j hij (hlt j hj) ?_
    rw [Value.sameId_iff (key?_edgeId (hlt i hi) (hgood i hi).nameable)
      (key?_edgeId (hlt j hj) (hgood j hj).nameable)]
    exact hkey
  · exact fun _ _ => rfl
  · refine hpairs fun i hi j hj hij hsame => h.pairs_apart i j hij (hlt j hj) ?_
    have hi := (hgood i hi).nameable
    have hj := (hgood j hj).nameable
    unfold SamePairAt
    rw [Value.sameId_iff (key?_cell hi.source) (key?_cell hj.source),
      Value.sameId_iff (key?_cell hi.target) (key?_cell hj.target),
      Value.sameId_iff (key?_cell hi.source) (key?_cell hj.target),
      Value.sameId_iff (key?_cell hi.target) (key?_cell hj.source)]
    exact hsame
  · exact List.forall_mem_map.2 fun i hi =>
      Change.accepts_iff.2 (h.namedOutside_iff.2 (hgood i hi).clashFree)

/-- Rows that do not fail are added, whatever comes after them. -/
theorem Describes.foldlM_of_good (h : reading.Describes t) {rows : List Nat}
    (hrows : rows.Sublist (List.range t.height)) (hgood : ∀ i ∈ rows, reading.GoodAt t i) :
    rows.foldlM
        (Graph.addRow (reading.roles t).source (reading.roles t).target
          (some (reading.roles t).edgeId) (reading.roles t).others)
        (Graph.empty reading.directed)
      = .ok (Graph.ofRecords reading.directed (rows.map (reading.roles t).recordAt)) := by
  refine Eq.trans ?_ (h.fits hrows hgood).foldlM_requestRow
  rw [List.foldlM_map]
  refine foldlM_congr fun i hi g => ?_
  exact h.addRow_eq (List.mem_range.1 (hrows.subset hi)) (hgood i hi).nameable g

theorem good_of_lt (hgood : ∀ i < t.height, reading.GoodAt t i) :
    ∀ i ∈ List.range t.height, reading.GoodAt t i :=
  fun i hi => hgood i (List.mem_range.1 hi)

/-- **If no row fails, all of them become edges.** -/
theorem Describes.ofTable_of_good (h : reading.Describes t)
    (hgood : ∀ i < t.height, reading.GoodAt t i) :
    Graph.ofTable t reading = .ok (Graph.ofRecords reading.directed
      ((List.range t.height).map (reading.roles t).recordAt)) := by
  rw [h.ofTable_eq, h.foldlM_of_good (.refl _) (good_of_lt hgood)]

/-- **The first row that fails is the last that is looked at.** -/
theorem Describes.ofTable_of_failing (h : reading.Describes t)
    (hbad : ¬∀ i ∈ List.range t.height, reading.GoodAt t i) {p : Error → Prop}
    (hfail : ∀ i < t.height, ¬reading.GoodAt t i → ∀ g : Graph, ∃ e,
      g.addRow (reading.roles t).source (reading.roles t).target (some (reading.roles t).edgeId)
        (reading.roles t).others i = .error e ∧ p e) :
    ∃ e, Graph.ofTable t reading = .error e ∧ p e := by
  obtain ⟨before, i, after, hrange, hbad, hgood⟩ := exists_first_failure hbad
  have hi : i ∈ List.range t.height := by simp [hrange]
  have hrows : before.Sublist (List.range t.height) := hrange ▸ List.sublist_append_left ..
  obtain ⟨e, he, hp⟩ := hfail i (List.mem_range.1 hi) hbad
    (Graph.ofRecords reading.directed (before.map (reading.roles t).recordAt))
  refine ⟨e, ?_, hp⟩
  rw [h.ofTable_eq, hrange, List.foldlM_append, h.foldlM_of_good hrows hgood]
  show (Graph.addRow _ _ _ _ _ i >>= _) = _
  rw [he]
  rfl

/-- If all rows name what can be named, one that clashes is all that goes wrong. -/
theorem Describes.ofTable_of_clash (h : reading.Describes t)
    (hnames : ∀ i < t.height, reading.NameableAt t i)
    (hclash : ∃ i < t.height, reading.ClashesAt t i) :
    Graph.ofTable t reading = .error .badArgument := by
  obtain ⟨i, hi, hclash⟩ := hclash
  obtain ⟨e, he, rfl⟩ := h.ofTable_of_failing (p := (· = .badArgument))
    (fun hgood => (hgood i (List.mem_range.2 hi)).clashFree hclash)
    fun i hi hbad g => by
      have hclash : reading.ClashesAt t i := by_contra fun hfree => hbad ⟨hnames i hi, hfree⟩
      exact ⟨_, h.addRow_of_clash hi (hnames i hi) hclash g, rfl⟩
  exact he

/-- A row that fails makes the reading fail, by an error of one kind. -/
theorem Describes.ofTable_of_not_good (h : reading.Describes t)
    (hbad : ∃ i < t.height, ¬reading.GoodAt t i) :
    ∃ e, Graph.ofTable t reading = .error e ∧ e.kind = .type := by
  obtain ⟨i, hi, hbad⟩ := hbad
  refine h.ofTable_of_failing (fun hgood => hbad (hgood i (List.mem_range.2 hi))) ?_
  intro i hi hbad g
  by_cases hnames : reading.NameableAt t i
  · have hclash : reading.ClashesAt t i := by_contra fun hfree => hbad ⟨hnames, hfree⟩
    exact ⟨_, h.addRow_of_clash hi hnames hclash g, rfl⟩
  · exact h.addRow_of_not_nameable hi hnames g

end TableReading

/-! ## §4. What the rows have become. -/

/-- A graph holds the rows of a table: its edges are those of the rows, in their
order, between the ends that the rows tell; and in every other column of the table
an edge has as an attribute what stands in its row, unless that is missing. -/
structure Graph.HoldsRows (g : Graph) (t : Table) (reading : TableReading) : Prop where
  directed : g.directed = reading.directed
  edge_ids : g.edges.identifiers.map (·.value)
    = (List.range t.height).map (reading.edgeIdAt t)
  ends : ∀ i < t.height, ∃ ends, g.endpoints (reading.edgeIdAt t i) = .ok ends
    ∧ ends.source.value = t.cell i reading.source ∧ ends.target.value = t.cell i reading.target
  attributes : ∀ i < t.height, ∀ c ∈ reading.attributeColumns t, ∀ default,
    g.readAttribute .edge (reading.edgeIdAt t i) c.name default
      = .ok (if Column.isMissing (Graph.cellAt i c) then default else Graph.cellAt i c)

namespace TableReading

variable {reading : TableReading} {t : Table} {i : Nat}

theorem name_value_recordAt (hi : i < t.height) (hnames : reading.NameableAt t i) :
    ((reading.roles t).recordAt i).name.value = reading.edgeIdAt t i := by
  obtain ⟨k, hk⟩ := hnames.edgeId
  show (Graph.cellAt i (reading.roles t).edgeId).asName.value = _
  rw [cellAt_edgeId hi]
  exact Value.asName_value hk

/-- What stands in a column of attributes, read as an attribute. -/
theorem Describes.getD_attributesAt (h : reading.Describes t) {c : NamedColumn}
    (hc : c ∈ reading.attributeColumns t) {k : Key} (hk : c.name.key? = some k)
    (default : Value) : (((reading.roles t).attributesAt i).get? k).getD default
      = if Column.isMissing (Graph.cellAt i c) then default else Graph.cellAt i c := by
  have hread {v : Value} := ColumnRoles.get?_attributesAt (i := i) (k := k) (v := v)
    h.named_others h.apart_others
  cases hmissing : Column.isMissing (Graph.cellAt i c) with
  | false =>
    rw [hread.2 ⟨c, hc, hk, rfl, hmissing⟩]
    rfl
  | true =>
    -- no other column has this name
    have hnone : ((reading.roles t).attributesAt i).get? k = none := by
      refine Option.eq_none_iff_forall_ne_some.2 fun v hv => ?_
      obtain ⟨d, hd, hkey, rfl, hpresent⟩ := hread.1 hv
      obtain rfl : d = c :=
        List.inj_on_of_nodup_map h.apart_others hd hc (hkey.trans hk.symm)
      exact absurd (hpresent.symm.trans hmissing) (by simp)
    rw [hnone]
    rfl

/-- **The graph of rows that do not fail holds them.** -/
theorem Describes.holdsRows (h : reading.Describes t)
    (hgood : ∀ i < t.height, reading.GoodAt t i) :
    (Graph.ofRecords reading.directed
      ((List.range t.height).map (reading.roles t).recordAt)).HoldsRows t reading := by
  have hfits := h.fits (.refl _) (good_of_lt hgood)
  have hentries := hfits.entries_ofRecords
  have hmem : ∀ i < t.height, (reading.roles t).recordAt i
      ∈ (List.range t.height).map (reading.roles t).recordAt :=
    fun i hi => List.mem_map_of_mem (List.mem_range.2 hi)
  constructor
  · exact Graph.directed_ofRecords _ _
  · unfold Catalog.identifiers
    rw [hentries, List.map_map, List.map_map, List.map_map]
    refine List.map_congr_left fun i hi => ?_
    have hi := List.mem_range.1 hi
    exact name_value_recordAt hi (hgood i hi).nameable
  · intro i hi
    have hnames := (hgood i hi).nameable
    refine ⟨((reading.roles t).recordAt i).endpoints, ?_, cell_asName_value hnames.source,
      cell_asName_value hnames.target⟩
    rw [← name_value_recordAt hi hnames]
    refine Graph.Coherent.endpoints_of_mem (e := ((reading.roles t).recordAt i).entry) ?_
    rw [hentries]
    exact List.mem_map_of_mem (hmem i hi)
  · intro i hi c hc default
    obtain ⟨s, hs⟩ := h.named_others c hc
    have hk : c.name.key? = some (.text s) := by rw [hs]; rfl
    rw [← name_value_recordAt hi (hgood i hi).nameable, ← h.getD_attributesAt hc hk]
    unfold Graph.readAttribute Graph.keyOf
    rw [show Graph.attributesOf _ .edge _ = _ from hfits.edgeAttributes_ofRecords (hmem i hi), hk]
    rfl

end TableReading
end EvolvingGraph
