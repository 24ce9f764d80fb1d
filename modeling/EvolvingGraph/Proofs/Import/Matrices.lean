/-
  EvolvingGraph.Proofs.Import.Matrices
  ────────────────────────────────────
  **A MATRIX READ AS A GRAPH, AND WRITTEN AGAIN.**

  A square matrix becomes a graph with a node for each row and an edge for each
  entry that is kept; the adjacency matrix of that graph stores the kept entries
  again.  With direction all entries are kept that are not zero, without the
  diagonal if loops are ignored.  Without direction the matrix is made symmetric
  first: of two facing entries the greater or the smaller stands for both, the
  part above the diagonal becomes edges, and each edge has two entries in the
  adjacency matrix.  In either case nothing is lost when the adjacency matrix is
  read in its turn: it makes the same graph.

  Main statements:
    * `entryName_inj` — an edge id tells the row and the column;
    * `ofMatrix_eq` — the graph of the entries that are kept;
    * `adjacency_entryGraph` — the adjacency matrix of such a graph;
    * `matrix_roundTrip` — what is stored, what the graph is, and that it comes back.
-/
import EvolvingGraph.Proofs.Graph.Construction
import EvolvingGraph.Proofs.Matrix.Adjacency

namespace EvolvingGraph

/-! ## §1. The names of entries. -/

theorem dash_not_mem_digits (n : Nat) : '-' ∉ (toString n).toList := by
  intro h
  rw [Nat.toString_eq_ofList_toDigits, String.toList_ofList] at h
  have hdigit := Nat.isDigit_of_mem_toDigits (by decide) (by decide) h
  exact absurd hdigit (by decide)

namespace MatrixEntry

/-- The id of the edge that an entry becomes. -/
def name (e : MatrixEntry) : String := toString e.row ++ "-" ++ toString e.column

/-- An edge id tells the row and the column. -/
theorem name_inj {e f : MatrixEntry} (h : e.name = f.name) :
    e.row = f.row ∧ e.column = f.column := by
  have hchars : (toString e.row).toList ++ '-' :: (toString e.column).toList
      = (toString f.row).toList ++ '-' :: (toString f.column).toList := by
    simpa [name] using congrArg String.toList h
  obtain ⟨hrow, -, hcolumn⟩ := (List.append_cons_inj_of_notMem (dash_not_mem_digits e.row)
    (dash_not_mem_digits e.column)).1 hchars
  exact ⟨Nat.repr_inj.1 (String.toList_inj.1 hrow), Nat.repr_inj.1 (String.toList_inj.1 hcolumn)⟩

end MatrixEntry

namespace Graph

/-! ## §2. Numbered nodes. -/

/-- The nodes 0, 1, … up to a number of them. -/
def numberedNodes (n : Nat) : List (Identifier × Attributes) :=
  (List.range n).map fun (i : Nat) => (.ofInt i, .empty)

theorem nodup_numberedNodes (n : Nat) : ((numberedNodes n).map (·.1.key)).Nodup := by
  unfold numberedNodes
  rw [List.map_map]
  refine List.nodup_range.map fun i j hij => ?_
  exact Int.ofNat.inj (Key.int.inj hij)

/-- The graph of numbered nodes. -/
def numbered (directed : Bool) (n : Nat) : Graph :=
  { empty directed with nodes := Catalog.empty.insertAll (numberedNodes n) }

variable {directed : Bool} {n : Nat}

theorem entries_numbered (directed : Bool) (n : Nat) :
    (numbered directed n).nodes.entries = numberedNodes n :=
  Catalog.entries_insertAll (nodup_numberedNodes n)

theorem contains_numbered (directed : Bool) {i : Nat} (hi : i < n) :
    (numbered directed n).nodes.contains (.int i) = true := by
  refine Catalog.contains_iff_mem.2 ⟨(.ofInt i, .empty), ?_, rfl⟩
  rw [entries_numbered]
  exact List.mem_map_of_mem (List.mem_range.2 hi)

theorem identifiers_numbered (directed : Bool) (n : Nat) :
    (numbered directed n).nodes.identifiers = (List.range n).map fun (i : Nat) => .ofInt i := by
  unfold Catalog.identifiers
  rw [entries_numbered, numberedNodes, List.map_map]
  rfl

theorem position_numbered (directed : Bool) {i : Nat} (hi : i < n) :
    (numbered directed n).position (.int i) = i := by
  unfold Network.position
  rw [identifiers_numbered, List.findIdx_eq (by simpa using hi)]
  refine ⟨by simp [Identifier.ofInt], fun j hj => ?_⟩
  have hne : (j : Int) ≠ i := by omega
  simpa [Identifier.ofInt] using hne

/-! ## §3. The graph of entries. -/

/-- The edge that is asked for in the place of an entry. -/
def edgeOfEntry (name : String) (e : MatrixEntry) : EdgeRecord where
  name := .ofText e.name
  source := .ofInt e.row
  target := .ofInt e.column
  attributes := Catalog.empty.insert (.ofText name) (.ofDouble e.value)

/-- The graph of numbered nodes that has an edge for each of the entries. -/
def entryGraph (directed : Bool) (name : String) (n : Nat) (entries : List MatrixEntry) : Graph :=
  (numbered directed n).plusEdges (entries.map (edgeOfEntry name))

/-- Entries that can become edges: each at a place of its own, and above the
diagonal if there is no direction. -/
structure EdgeLike (directed : Bool) (n : Nat) (entries : List MatrixEntry) : Prop where
  before : entries.Pairwise MatrixEntry.Before
  row_lt : ∀ e ∈ entries, e.row < n
  column_lt : ∀ e ∈ entries, e.column < n
  above : directed = false → ∀ e ∈ entries, e.row < e.column

variable {name : String} {entries : List MatrixEntry}

theorem accepts_edgeOfEntry (hname : name ∉ ["self", "edge_id", "source", "target"])
    (e : MatrixEntry) : (Change.addEdge (.str e.name) (.int e.row) (.int e.column)).accepts
      (edgeOfEntry name e).attributes = true := by
  refine Change.accepts_iff.2 fun x hx => ⟨name, ?_, hname⟩
  rw [List.mem_singleton.1 (hx : x ∈ [Identifier.ofText name])]
  rfl

theorem EdgeLike.joinable (h : EdgeLike directed n entries)
    (hname : name ∉ ["self", "edge_id", "source", "target"]) :
    (numbered directed n).Joinable (entries.map (edgeOfEntry name)) where
  source_mem := List.forall_mem_map.2 fun e he => contains_numbered directed (h.row_lt e he)
  target_mem := List.forall_mem_map.2 fun e he => contains_numbered directed (h.column_lt e he)
  unlinked := fun _ _ => rfl
  apart := by
    refine List.pairwise_map.2 (h.before.imp_of_mem fun {e f} he hf hbefore => ?_)
    rintro (⟨hrow, hcolumn⟩ | ⟨hd, hrow, hcolumn⟩)
    · have hrow : e.row = f.row := Int.ofNat.inj (Key.int.inj hrow)
      have hcolumn : e.column = f.column := Int.ofNat.inj (Key.int.inj hcolumn)
      exact hbefore.ne_position (by rw [hrow, hcolumn])
    · -- above the diagonal no entry faces another one
      have hrow : e.row = f.column := Int.ofNat.inj (Key.int.inj hrow)
      have hcolumn : e.column = f.row := Int.ofNat.inj (Key.int.inj hcolumn)
      have he := h.above hd e he
      have hf := h.above hd f hf
      omega
  accepted := List.forall_mem_map.2 fun e _ => accepts_edgeOfEntry hname e

theorem EdgeLike.nodup_names (h : EdgeLike directed n entries) (name : String) :
    (((numbered directed n).edges.entries
      ++ (entries.map (edgeOfEntry name)).map EdgeRecord.entry).map (·.1.key)).Nodup := by
  have hnone : (numbered directed n).edges.entries = [] := rfl
  rw [hnone, List.nil_append, List.map_map, List.map_map]
  refine List.pairwise_map.2 (h.before.imp fun hbefore heq => hbefore.ne_position ?_)
  obtain ⟨hrow, hcolumn⟩ := MatrixEntry.name_inj (Key.text.inj heq)
  rw [hrow, hcolumn]

theorem edges_entryGraph (h : EdgeLike directed n entries) (name : String) :
    (entryGraph directed name n entries).edges.entries
      = entries.map fun e => (edgeOfEntry name e).entry := by
  refine (Catalog.entries_insertAll (h.nodup_names name)).trans ?_
  rw [List.map_map]
  rfl

/-- **The graph of a matrix is that of the entries that are kept.** -/
theorem ofMatrix_eq {m p : DenseMatrix} {reading : MatrixReading} (square : m.rows = m.columns)
    (weighted : reading.weighted = true) (named : reading.weightName = .str name)
    (hname : name ∉ ["self", "edge_id", "source", "target"])
    (hprepared : prepareMatrix m reading = .ok p)
    (h : EdgeLike reading.directed m.rows p.nonzeroEntries) :
    ofMatrix m reading = .ok (entryGraph reading.directed name m.rows p.nonzeroEntries) := by
  have hnodes : (empty reading.directed).performAll ((List.range m.rows).map
      fun (i : Nat) => (.addNode (.int i), .empty)) = .ok (numbered reading.directed m.rows) := by
    have hall : (empty reading.directed).performAll
        ((numberedNodes m.rows).map fun e => (.addNode e.1.value, e.2))
        = .ok (numbered reading.directed m.rows) :=
      performAll_addNodes (nodup_numberedNodes m.rows) (List.forall_mem_map.2 fun _ _ => rfl)
        (List.forall_mem_map.2 fun _ _ => rfl)
    unfold numberedNodes at hall
    rw [List.map_map] at hall
    exact hall
  -- the attribute can be named, so each entry makes a request
  have hedges : p.nonzeroEntries.mapM (requestOfEntry reading)
      = .ok (p.nonzeroEntries.map fun e => (edgeOfEntry name e).request) := by
    refine mapM_eq_ok fun e _ => ?_
    unfold requestOfEntry
    rw [weighted, named]
    rfl
  have hadded := performAll_addEdges (h.joinable hname) (h.nodup_names name)
  rw [List.map_map] at hadded
  unfold ofMatrix DenseMatrix.isSquare
  simp only [square, beq_self_eq_true, Bool.not_true, Bool.false_eq_true, if_false, hprepared]
  rw [← square]
  simp only [bind, Except.bind, hnodes, hedges]
  exact hadded

/-! ## §4. The adjacency matrix of such a graph. -/

theorem toDouble_ofDouble (x : Double) : (Value.ofDouble x).toDouble = .ok x := by
  cases x <;> rfl

theorem weight_edgeOfEntry (name : String) (e : MatrixEntry) :
    Attributes.weight (edgeOfEntry name e).attributes (.text name) = .ofDouble e.value := by
  have hread : (edgeOfEntry name e).attributes.get? (.text name) = some (.ofDouble e.value) :=
    Catalog.get?_insert_self _ (.ofText name) _
  unfold Attributes.weight
  rw [hread]
  rfl

theorem giveNumber_edgeOfEntry (name : String) (e : MatrixEntry) :
    Attributes.GiveNumber (edgeOfEntry name e).attributes (.text name) :=
  ⟨e.value, by rw [weight_edgeOfEntry, toDouble_ofDouble]⟩

theorem isNegatable_edgeOfEntry (name : String) (e : MatrixEntry) :
    (Attributes.weight (edgeOfEntry name e).attributes (.text name)).isNegatable = true := by
  rw [weight_edgeOfEntry]
  cases e.value <;> rfl

theorem number_edgeOfEntry (name : String) (e : MatrixEntry) :
    Attributes.number (edgeOfEntry name e).attributes (.text name) = e.value := by
  unfold Attributes.number
  rw [weight_edgeOfEntry, toDouble_ofDouble]

theorem links_entryGraph (directed : Bool) (name : String) (n : Nat)
    (entries : List MatrixEntry) : (entryGraph directed name n entries).links
      = entries.map fun e => (edgeOfEntry name e).link := by
  refine (List.nil_append _).trans ?_
  rw [List.map_map]
  rfl

theorem position_entryGraph {i : Nat} (hi : i < n) (name : String)
    (entries : List MatrixEntry) : (entryGraph directed name n entries).position (.int i) = i :=
  position_numbered directed hi

/-- The entries of an edge: one with direction, one on either side of the diagonal without. -/
theorem EdgeLike.linkEntries_eq (h : EdgeLike directed n entries) (name : String)
    {e : MatrixEntry} (he : e ∈ entries) :
    (entryGraph directed name n entries).linkEntries (.text name) (edgeOfEntry name e).link
      = if directed then [e] else [e, e.transposed] := by
  have hnumber : Attributes.number (edgeOfEntry name e).link.attributes (.text name) = e.value :=
    number_edgeOfEntry name e
  unfold Network.linkEntries
  rw [hnumber]
  exact Network.entriesOf_eq (position_entryGraph (h.row_lt e he) name entries)
    (position_entryGraph (h.column_lt e he) name entries) (fun hd => (h.above hd e he).ne) e.value

theorem EdgeLike.exists_met (h : EdgeLike directed n entries) (name : String) :
    ∀ l ∈ (entryGraph directed name n entries).links,
      ∃ node ∈ (entryGraph directed name n entries).nodes.identifiers,
        l.isMetAt (entryGraph directed name n entries).directed node.key = true := by
  rw [links_entryGraph]
  refine List.forall_mem_map.2 fun e he => ?_
  obtain ⟨node, hnode, hkey⟩ := Catalog.contains_iff_mem.1
    (contains_numbered directed (h.row_lt e he))
  exact ⟨node.1, List.mem_map_of_mem hnode, hkey ▸ Link.isMetAt_source directed _⟩

/-- **The adjacency matrix of a graph of entries has these entries**, and those
that face them if there is no direction. -/
theorem EdgeLike.adjacency_eq (h : EdgeLike directed n entries) (name : String) :
    ∃ stored : List MatrixEntry,
      stored.Perm (entries.flatMap fun e => if directed then [e] else [e, e.transposed])
        ∧ (entryGraph directed name n entries).adjacency (.str name)
          = .ok ⟨n, n, stored.mergeSort MatrixEntry.precedes⟩ := by
  have hnumber : ∀ l ∈ (entryGraph directed name n entries).links,
      Attributes.GiveNumber l.attributes (.text name) := by
    rw [links_entryGraph]
    exact List.forall_mem_map.2 fun e _ => giveNumber_edgeOfEntry name e
  have hfree : ∀ l ∈ (entryGraph directed name n entries).links,
      ¬(entryGraph directed name n entries).HindersAt (.text name) l := by
    rw [links_entryGraph]
    refine List.forall_mem_map.2 fun e _ hhinders => ?_
    exact absurd ((isNegatable_edgeOfEntry name e).symm.trans hhinders.2.2) (by simp)
  obtain ⟨stored, hperm, hadjacency⟩ := Network.adjacency_eq (h.exists_met name)
    (Network.weighs_text name) hnumber hfree
  have hsize : (entryGraph directed name n entries).nodes.size = n := by
    show (numbered directed n).nodes.entries.length = n
    rw [entries_numbered, numberedNodes, List.length_map, List.length_range]
  have hentries : (entryGraph directed name n entries).links.flatMap
      ((entryGraph directed name n entries).linkEntries (.text name))
        = entries.flatMap fun e => if directed then [e] else [e, e.transposed] := by
    rw [links_entryGraph, List.flatMap_map]
    exact List.flatMap_congr fun e he => h.linkEntries_eq name he
  rw [hsize] at hadjacency
  exact ⟨stored, hentries ▸ hperm, hadjacency⟩

end Graph

/-! ## §5. What a reading keeps of a matrix. -/

/-- The matrix that a reading is to keep.  With direction, the matrix itself,
without its diagonal if loops are ignored.  Without, and with loops ignored, the
greater or the smaller of two facing entries at either place. -/
inductive MatrixReading.Keeps (reading : MatrixReading) (m : DenseMatrix) : DenseMatrix → Prop where
  | directed (h : reading.directed = true) :
    Keeps reading m (if reading.ignoresLoops then m.withoutDiagonal else m)
  | undirected {way : DenseMatrix.Symmetrisation} (h : reading.directed = false)
    (loops : reading.ignoresLoops = true) (extreme : way ≠ .average)
    (named : reading.symmetrisation = .str way.name) : Keeps reading m (m.faced way)

/-- The entries that become edges: all of them, or those above the diagonal. -/
def MatrixReading.edgeEntries (reading : MatrixReading) (kept : DenseMatrix) :
    List MatrixEntry :=
  kept.nonzeroEntries.filter fun e => reading.directed || decide (e.row < e.column)

/-- Above the diagonal a matrix that has been prepared holds the symmetric form,
and zeros elsewhere. -/
theorem DenseMatrix.entry_prepared (m : DenseMatrix) {way : Symmetrisation}
    (extreme : way ≠ .average) (i j : Nat) :
    ((m.withoutDiagonal.symmetrised way).upperTriangle).entry i j
      = if i < j then ((m.faced way).entry i j).cleared else .zero := by
  show (if i ≤ j then m.withoutDiagonal.combineAt way i j else .zero) = _
  unfold combineAt withoutDiagonal faced
  rcases Nat.lt_trichotomy i j with hlt | rfl | hgt
  · simp only [hlt.le, hlt.ne, hlt.ne', hlt, if_true, if_false]
    rfl
  · simp only [Symmetrisation.combine_self extreme, Nat.lt_irrefl, le_refl, if_true, if_false,
      ite_self]
  · rw [if_neg (Nat.not_le.2 hgt), if_neg (Nat.lt_asymm hgt)]

namespace MatrixReading.Keeps

variable {reading : MatrixReading} {m kept : DenseMatrix}

theorem rows_eq (h : reading.Keeps m kept) : kept.rows = m.rows := by
  cases h with
  | directed _ => split <;> rfl
  | undirected _ _ _ _ => rfl

theorem columns_eq (h : reading.Keeps m kept) : kept.columns = m.columns := by
  cases h with
  | directed _ => split <;> rfl
  | undirected _ _ _ _ => rfl

/-- What is prepared are the entries that become edges. -/
theorem exists_prepared (h : reading.Keeps m kept) :
    ∃ p, Graph.prepareMatrix m reading = .ok p ∧ p.nonzeroEntries = reading.edgeEntries kept := by
  unfold edgeEntries
  cases h with
  | directed hd =>
    refine ⟨if reading.ignoresLoops then m.withoutDiagonal else m, ?_, ?_⟩
    · unfold Graph.prepareMatrix
      rw [if_pos hd]
      rfl
    · simp only [hd, Bool.true_or, List.filter_true]
  | @undirected way hd loops extreme named =>
    have hway : DenseMatrix.Symmetrisation.ofValue reading.symmetrisation = .ok way := by
      rw [named]
      cases way <;> rfl
    refine ⟨(m.withoutDiagonal.symmetrised way).upperTriangle, ?_, ?_⟩
    · unfold Graph.prepareMatrix
      simp only [loops, hd, if_true, Bool.false_eq_true, if_false, hway]
      rfl
    · -- both lists are strictly ordered, so it is enough to compare what is in them
      refine MatrixEntry.eq_of_before (DenseMatrix.nonzeroEntries_before _)
        ((DenseMatrix.nonzeroEntries_before _).filter _) fun e => ?_
      rw [List.mem_filter, DenseMatrix.mem_nonzeroEntries, DenseMatrix.mem_nonzeroEntries,
        DenseMatrix.entry_prepared m extreme, hd, Bool.false_or, decide_eq_true_iff]
      constructor
      · rintro ⟨hrow, hcolumn, hvalue, hzero⟩
        split at hvalue
        · next hlt => exact ⟨⟨hrow, hcolumn, (Double.cleared_eq_iff hzero).1 hvalue, hzero⟩, hlt⟩
        · rw [← hvalue] at hzero
          exact absurd hzero (by decide)
      · rintro ⟨⟨hrow, hcolumn, hvalue, hzero⟩, hlt⟩
        refine ⟨hrow, hcolumn, ?_, hzero⟩
        rw [if_pos hlt, hvalue, Double.cleared_of_not_isZero hzero]

theorem edgeLike (h : reading.Keeps m kept) (square : m.rows = m.columns) :
    Graph.EdgeLike reading.directed m.rows (reading.edgeEntries kept) where
  before := kept.nonzeroEntries_before.filter _
  row_lt := by
    intro e he
    obtain ⟨hrow, -⟩ := DenseMatrix.mem_nonzeroEntries.1 (List.mem_of_mem_filter he)
    exact h.rows_eq ▸ hrow
  column_lt := by
    intro e he
    obtain ⟨-, hcolumn, -⟩ := DenseMatrix.mem_nonzeroEntries.1 (List.mem_of_mem_filter he)
    rw [square, ← h.columns_eq]
    exact hcolumn
  above := by
    intro hd e he
    have habove := (List.mem_filter.1 he).2
    rw [hd, Bool.false_or, decide_eq_true_iff] at habove
    exact habove

/-- **The graph of a matrix is that of the entries that become edges.** -/
theorem ofMatrix_eq (h : reading.Keeps m kept) (square : m.rows = m.columns) {name : String}
    (weighted : reading.weighted = true) (named : reading.weightName = .str name)
    (hname : name ∉ ["self", "edge_id", "source", "target"]) : Graph.ofMatrix m reading
      = .ok (Graph.entryGraph reading.directed name m.rows (reading.edgeEntries kept)) := by
  obtain ⟨p, hprepared, hentries⟩ := h.exists_prepared
  rw [← hentries]
  exact Graph.ofMatrix_eq square weighted named hname hprepared (hentries ▸ h.edgeLike square)

/-- The entries of the edges are those of the matrix that is kept. -/
theorem mirrored (h : reading.Keeps m kept) (square : m.rows = m.columns)
    (nanFree : ∀ i < m.rows, ∀ j < m.rows, m.entry i j ≠ .nan) :
    ((reading.edgeEntries kept).flatMap fun e =>
      if reading.directed then [e] else [e, e.transposed]).Perm kept.nonzeroEntries := by
  unfold edgeEntries
  cases h with
  | directed hd => simp only [hd, Bool.true_or, List.filter_true, if_true, List.flatMap_singleton',
      List.Perm.refl]
  | @undirected way hd loops extreme named =>
    simp only [hd, Bool.false_or, Bool.false_eq_true, if_false]
    refine DenseMatrix.mirrored_perm square (fun i hi j hj => ?_) fun i _ => ?_
    · exact DenseMatrix.faced_symmetric extreme (nanFree i hi j hj) (nanFree j hj i hi)
    · show (if i = i then Double.zero else _).isZero = true
      rw [if_pos rfl]
      rfl

/-- Read again, the entries that are kept are kept. -/
theorem again (h : reading.Keeps m kept) (square : m.rows = m.columns)
    (nanFree : ∀ i < m.rows, ∀ j < m.rows, m.entry i j ≠ .nan) :
    ∃ kept', reading.Keeps (.ofEntries ⟨kept.rows, kept.columns, kept.nonzeroEntries⟩) kept'
      ∧ kept'.nonzeroEntries = kept.nonzeroEntries := by
  -- what was stored is what was kept, but for the signs of zeros
  have hread : ∀ i < kept.rows, ∀ j < kept.columns,
      (DenseMatrix.ofEntries ⟨kept.rows, kept.columns, kept.nonzeroEntries⟩).entry i j
        = (kept.entry i j).cleared :=
    fun i hi j hj => DenseMatrix.entry_ofEntries_nonzeroEntries hi hj
  cases h with
  | directed hd =>
    refine ⟨_, .directed hd, DenseMatrix.nonzeroEntries_congr ?_ ?_ fun i hi j hj => ?_⟩
    · split <;> rfl
    · split <;> rfl
    cases hloops : reading.ignoresLoops with
    | false =>
      simp only [hloops, Bool.false_eq_true, if_false] at hread hi hj ⊢
      rw [hread i hi j hj, Double.cleared_cleared]
    | true =>
      simp only [hloops, if_true] at hread hi hj ⊢
      by_cases hij : i = j
      · simp only [DenseMatrix.withoutDiagonal, hij, if_true]
      · have hentry := hread i hi j hj
        simp only [DenseMatrix.withoutDiagonal, hij, if_false] at hentry ⊢
        rw [hentry, Double.cleared_cleared]
  | @undirected way hd loops extreme named =>
    refine ⟨_, .undirected hd loops extreme named, DenseMatrix.nonzeroEntries_congr rfl rfl
      fun i hi j hj => ?_⟩
    have hi : i < m.rows := hi
    have hj : j < m.rows := square ▸ hj
    by_cases hdiagonal : i = j
    · simp only [DenseMatrix.faced, hdiagonal, if_true]
    -- the facing entries that have been stored are the same
    have hij := hread i hi j (square ▸ hj)
    have hji := hread j hj i (square ▸ hi)
    rw [DenseMatrix.faced_symmetric extreme (nanFree i hi j hj) (nanFree j hj i hi)] at hji
    show (if i = j then Double.zero else way.combine (DenseMatrix.entry _ i j)
      (DenseMatrix.entry _ j i)).cleared = _
    rw [if_neg hdiagonal, hij, hji, DenseMatrix.Symmetrisation.combine_self extreme,
      Double.cleared_cleared]

end MatrixReading.Keeps

/-! ## §6. Reading and writing. -/

/-- A matrix as it is given: an array, an array that may be flat, or stored entries. -/
inductive MatrixSource where
  | dense (a : DenseArray)
  | flat (a : DenseArray)
  | sparse (s : SparseMatrix)

namespace MatrixSource

/-- The matrix that is given, if it is one. -/
def matrix? : MatrixSource → Option DenseMatrix
  | .dense a => DenseMatrix.ofArray? a
  | .flat a => DenseMatrix.ofFlatArray? a
  | .sparse s => some (.ofEntries s)

/-- The graph that is made of it. -/
def graph (reading : MatrixReading) : MatrixSource → Except Error Graph
  | .dense a => Graph.ofDense a reading
  | .flat a => Graph.ofFlat a reading
  | .sparse s => Graph.ofMatrix (.ofEntries s) reading

theorem graph_eq {source : MatrixSource} {m : DenseMatrix} (h : source.matrix? = some m)
    (reading : MatrixReading) : source.graph reading = Graph.ofMatrix m reading := by
  cases source with
  | dense a =>
    have h : DenseMatrix.ofArray? a = some m := h
    simp only [graph, Graph.ofDense, h]
  | flat a =>
    have h : DenseMatrix.ofFlatArray? a = some m := h
    simp only [graph, Graph.ofFlat, h]
  | sparse s => rw [← Option.some.inj h, graph]

end MatrixSource

/-- A matrix is stored: exactly the entries that are not zero, each once, row by row. -/
structure SparseMatrix.Stores (s : SparseMatrix) (m : DenseMatrix) : Prop where
  rows : s.rows = m.rows
  columns : s.columns = m.columns
  exact : ∀ e, e ∈ s.entries ↔ e.row < m.rows ∧ e.column < m.columns
    ∧ m.entry e.row e.column = e.value ∧ e.value.isZero = false
  ordered : s.entries.Pairwise MatrixEntry.Before

/-- A graph is that of a stored matrix: numbered nodes, and for each entry, or for
each one above the diagonal if there is no direction, an edge that is named after
its row and its column. -/
structure Graph.DrawnFrom (g : Graph) (directed : Bool) (s : SparseMatrix) : Prop where
  directed_eq : g.directed = directed
  nodes : g.nodes.identifiers.map (·.value) = (List.range s.rows).map fun (i : Nat) => .int i
  edges : g.edges.entries.map (fun e => (e.1.value, e.2.source.value, e.2.target.value))
    = (s.entries.filter fun e => directed || decide (e.row < e.column)).map fun e =>
      (.str (toString e.row ++ "-" ++ toString e.column), .int e.row, .int e.column)

theorem Graph.drawnFrom_entryGraph {directed : Bool} {n : Nat} {entries : List MatrixEntry}
    {s : SparseMatrix} (h : EdgeLike directed n entries) (name : String) (rows : s.rows = n)
    (stored : s.entries.filter (fun e => directed || decide (e.row < e.column)) = entries) :
    (entryGraph directed name n entries).DrawnFrom directed s where
  directed_eq := rfl
  nodes := by
    show (numbered directed n).nodes.identifiers.map (·.value) = _
    rw [identifiers_numbered, List.map_map, rows]
    rfl
  edges := by
    rw [edges_entryGraph h, stored, List.map_map]
    rfl

/-- **A square matrix without NaN that is read as a graph is written as the matrix
that the reading keeps; the graph has the edges of what is written, and what is
written makes the same graph again.** -/
theorem matrix_roundTrip {source : MatrixSource} {m kept : DenseMatrix}
    (given : source.matrix? = some m) (square : m.rows = m.columns)
    (nanFree : ∀ i < m.rows, ∀ j < m.rows, m.entry i j ≠ .nan)
    {reading : MatrixReading} (keeps : reading.Keeps m kept) {name : String}
    (weighted : reading.weighted = true) (named : reading.weightName = .str name)
    (hname : name ∉ ["self", "edge_id", "source", "target"]) :
    ∃ g s, source.graph reading = .ok g ∧ g.adjacency (.str name) = .ok s ∧ s.Stores kept
      ∧ g.DrawnFrom reading.directed s
      ∧ (MatrixSource.sparse s).graph reading = .ok g := by
  have hentries := keeps.edgeLike square
  have hrows := keeps.rows_eq
  have hcolumns := keeps.columns_eq
  obtain ⟨stored, hperm, hadjacency⟩ := hentries.adjacency_eq name
  rw [MatrixEntry.mergeSort_eq_of_perm kept.nonzeroEntries_before
    (hperm.trans (keeps.mirrored square nanFree))] at hadjacency
  refine ⟨_, ⟨m.rows, m.rows, kept.nonzeroEntries⟩,
    (MatrixSource.graph_eq given reading).trans (keeps.ofMatrix_eq square weighted named hname),
    hadjacency, ?_, Graph.drawnFrom_entryGraph hentries name rfl rfl, ?_⟩
  · exact ⟨hrows.symm, (hcolumns.trans square.symm).symm,
      fun _ => DenseMatrix.mem_nonzeroEntries, kept.nonzeroEntries_before⟩
  · obtain ⟨kept', hkeeps', hsame⟩ := keeps.again square nanFree
    rw [hcolumns, hrows, ← square] at hkeeps'
    have hagain := hkeeps'.ofMatrix_eq rfl weighted named hname
    have hedges : reading.edgeEntries kept' = reading.edgeEntries kept :=
      congrArg (List.filter _) hsame
    rw [hedges] at hagain
    exact hagain

/-- Two entries that face each other, 1 and -1, and one on the diagonal. -/
def facingEntries : SparseMatrix :=
  ⟨2, 2, [⟨0, 1, .real .one⟩, ⟨1, 0, .real (.neg .one)⟩, ⟨1, 1, .real .one⟩]⟩

theorem matrix_roundTrip_facingEntries :
    ∃ g s, (MatrixSource.sparse facingEntries).graph .standard = .ok g
      ∧ g.adjacency (.str "weight") = .ok s
      ∧ s.Stores ((DenseMatrix.ofEntries facingEntries).faced .maximum)
      ∧ g.DrawnFrom false s ∧ (MatrixSource.sparse s).graph .standard = .ok g :=
  matrix_roundTrip rfl rfl (by decide) (.undirected rfl rfl (by decide) rfl) rfl rfl (by decide)

end EvolvingGraph
