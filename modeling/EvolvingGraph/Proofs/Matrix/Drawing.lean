/-
  EvolvingGraph.Proofs.Matrix.Drawing
  ───────────────────────────────────
  **THE ADJACENCY MATRIX OF A GRAPH, EDGE BY EDGE.**

  The nodes of a graph number the rows and the columns of its adjacency matrix.
  An edge with direction has the one entry in the row of its source and the
  column of its target; without direction it has the facing entry as well, unless
  it is a loop, whose entry stands on the diagonal.  No two edges share a
  position, so that each entry holds the number of its own edge.

  Main statements:
    * `Coherent.getElem?_position` — a node stands at its position;
    * `Coherent.cells_apart` — no two edges share a position;
    * `Coherent.exists_draws` — the matrix of a graph whose edges give numbers;
    * `adjacency_draws_edges` — the matrix of numbers that can be doubled.
-/
import EvolvingGraph.Proofs.Binary64.Doubling
import EvolvingGraph.Proofs.Graph.Gathering
import EvolvingGraph.Proofs.Matrix.Adjacency
import EvolvingGraph.Value.Equality

namespace EvolvingGraph

/-! ## §1. Positions. -/

/-- Both ends of an edge are the same node. -/
def EdgeRecord.IsLoop (r : EdgeRecord) : Prop := r.source.key = r.target.key

instance (r : EdgeRecord) : Decidable r.IsLoop :=
  inferInstanceAs (Decidable (r.source.key = r.target.key))

namespace Graph

variable {g : Graph} {r s : EdgeRecord} {k : Key}

/-- A node stands at its position. -/
theorem getElem?_position (h : g.nodes.contains k = true) :
    ∃ node, g.nodes.identifiers[g.position k]? = some node ∧ node.key = k := by
  obtain ⟨node, hnode, hkey⟩ := contains_iff_identifiers.1 h
  have hlt : g.position k < g.nodes.identifiers.length :=
    List.findIdx_lt_length_of_exists ⟨node, hnode, by simpa using hkey⟩
  refine ⟨_, List.getElem?_eq_getElem hlt, ?_⟩
  exact beq_iff_eq.1 (List.findIdx_getElem (w := hlt))

/-- Different nodes stand at different positions. -/
theorem position_inj {j : Key} (hk : g.nodes.contains k = true) (hj : g.nodes.contains j = true)
    (h : g.position k = g.position j) : k = j := by
  obtain ⟨node, hnode, rfl⟩ := getElem?_position hk
  obtain ⟨other, hother, rfl⟩ := getElem?_position hj
  rw [h, hother] at hnode
  rw [Option.some.inj hnode]

/-! ## §2. The entries of an edge. -/

/-- The entries that an edge has in a matrix: one with direction, or on the diagonal,
otherwise two that face each other. -/
def cells (g : Graph) (r : EdgeRecord) (x : Double) : List MatrixEntry :=
  if g.directed = true ∨ r.IsLoop then [⟨g.position r.source.key, g.position r.target.key, x⟩]
  else [⟨g.position r.source.key, g.position r.target.key, x⟩,
    ⟨g.position r.target.key, g.position r.source.key, x⟩]

/-- An entry of an edge stands in the row of one end and the column of the other. -/
theorem position_of_mem_cells {x : Double} {e : MatrixEntry} (he : e ∈ g.cells r x) :
    (e.row = g.position r.source.key ∧ e.column = g.position r.target.key)
      ∨ (g.directed = false ∧ e.row = g.position r.target.key
        ∧ e.column = g.position r.source.key) := by
  unfold cells at he
  split at he
  · obtain rfl := List.mem_singleton.1 he
    exact .inl ⟨rfl, rfl⟩
  · next h =>
    have hd : g.directed = false := by simpa using fun hd => h (.inl hd)
    obtain rfl | he := List.mem_cons.1 he
    · exact .inl ⟨rfl, rfl⟩
    · obtain rfl := List.mem_singleton.1 he
      exact .inr ⟨hd, rfl, rfl⟩

/-- The ends of an edge are nodes. -/
theorem Coherent.ends_of_record (hg : g.Coherent) (hr : r ∈ g.records) :
    g.nodes.contains r.source.key = true ∧ g.nodes.contains r.target.key = true := by
  obtain ⟨e, he, rfl⟩ := List.mem_map.1 hr
  exact hg.ends_mem e he

theorem Coherent.records_apart (hg : g.Coherent) :
    g.records.Pairwise fun r s => ¬r.endpoints.SamePair g.directed s.endpoints := by
  have hentries := hg.apart
  rw [← g.entries_records] at hentries
  exact List.pairwise_map.1 hentries

/-- Edges that share a position join one pair. -/
theorem Coherent.samePair_of_cells (hg : g.Coherent) (hr : r ∈ g.records) (hs : s ∈ g.records)
    {x y : Double} {e f : MatrixEntry} (he : e ∈ g.cells r x) (hf : f ∈ g.cells s y)
    (hrow : e.row = f.row) (hcolumn : e.column = f.column) :
    r.endpoints.SamePair g.directed s.endpoints := by
  obtain ⟨hrs, hrt⟩ := hg.ends_of_record hr
  obtain ⟨hss, hst⟩ := hg.ends_of_record hs
  obtain ⟨her, hec⟩ | ⟨hd, her, hec⟩ := position_of_mem_cells he <;>
    obtain ⟨hfr, hfc⟩ | ⟨hd', hfr, hfc⟩ := position_of_mem_cells hf <;>
    rw [her, hfr] at hrow <;> rw [hec, hfc] at hcolumn
  · exact .inl ⟨position_inj hrs hss hrow, position_inj hrt hst hcolumn⟩
  · exact .inr ⟨hd', position_inj hrs hst hrow, position_inj hrt hss hcolumn⟩
  · exact .inr ⟨hd, position_inj hrs hst hcolumn, position_inj hrt hss hrow⟩
  · exact .inl ⟨position_inj hrs hss hcolumn, position_inj hrt hst hrow⟩

/-- **No two edges share a position**, and no edge has two entries at one. -/
theorem Coherent.cells_apart (hg : g.Coherent) (number : EdgeRecord → Double) :
    (g.records.flatMap fun r => g.cells r (number r)).Pairwise
      fun e f => ¬(e.row = f.row ∧ e.column = f.column) := by
  refine List.pairwise_flatMap.2 ⟨fun r hr => ?_, ?_⟩
  · -- the two entries of an edge that is no loop face each other
    obtain ⟨hsource, htarget⟩ := hg.ends_of_record hr
    unfold cells
    split
    · exact List.pairwise_singleton ..
    · next h =>
      refine List.pairwise_pair.2 fun hsame => h (.inr ?_)
      exact position_inj hsource htarget hsame.1
  · refine hg.records_apart.imp_of_mem fun {r s} hr hs hne e he f hf hsame => hne ?_
    exact hg.samePair_of_cells hr hs he hf hsame.1 hsame.2

end Graph

/-! ## §3. Matrices that draw a graph. -/

/-- A matrix draws the edges of a graph: its rows and columns are the nodes, in their
order; its entries are those of the edges, each holding the number of its edge; and they
are listed row by row, so that no two stand at one position. -/
structure SparseMatrix.Draws (m : SparseMatrix) (g : Graph) (number : EdgeRecord → Double) :
    Prop where
  rows : m.rows = g.nodes.size
  columns : m.columns = g.nodes.size
  placed : ∀ r ∈ g.records, ∀ k ∈ [r.source.key, r.target.key],
    ∃ node, g.nodes.identifiers[g.position k]? = some node ∧ node.key = k
  entries : m.entries.Perm (g.records.flatMap fun r => g.cells r (number r))
  before : m.entries.Pairwise MatrixEntry.Before

/-- What a matrix draws are the numbers of the edges that there are. -/
theorem SparseMatrix.Draws.congr {m : SparseMatrix} {g : Graph}
    {number number' : EdgeRecord → Double} (h : m.Draws g number)
    (hsame : ∀ r ∈ g.records, number r = number' r) : m.Draws g number' where
  rows := h.rows
  columns := h.columns
  placed := h.placed
  entries := by
    rw [← List.flatMap_congr fun r hr => congrArg (g.cells r) (hsame r hr)]
    exact h.entries
  before := h.before

namespace Graph

variable {g : Graph} {r : EdgeRecord} {k : Key} {name : Value}

/-- The number that the matrix of a graph stores for an edge.  A loop without direction
is counted from both of its ends, and once of these taken away again. -/
def drawnNumber (g : Graph) (k : Key) (r : EdgeRecord) : Double :=
  let x := Attributes.number r.attributes k
  if g.directed = false ∧ r.IsLoop then (x.add x).add x.neg else x

theorem drawnNumber_of_not_isLoop (h : ¬r.IsLoop) :
    g.drawnNumber k r = Attributes.number r.attributes k := if_neg fun hloop => h hloop.2

/-- The entries of an edge are those of its link. -/
theorem Coherent.linkEntries_record (hg : g.Coherent) (hr : r ∈ g.records) (k : Key) :
    g.linkEntries k r.link = g.cells r (g.drawnNumber k r) := by
  obtain ⟨hsource, htarget⟩ := hg.ends_of_record hr
  have hattributes : r.link.attributes = r.attributes := rfl
  have hsourceKey : r.link.asListed.sourceKey = r.source.key := rfl
  have htargetKey : r.link.asListed.targetKey = r.target.key := rfl
  unfold Network.linkEntries Network.entriesOf cells drawnNumber
  simp only [hattributes, hsourceKey, htargetKey]
  cases hd : g.directed with
  | true => simp
  | false =>
    by_cases hloop : r.IsLoop
    · have hposition : g.position r.source.key = g.position r.target.key :=
        congrArg g.position hloop
      simp [hloop, hposition]
    · have hposition : g.position r.source.key ≠ g.position r.target.key :=
        fun h => hloop (position_inj hsource htarget h)
      simp [hloop, hposition]

theorem Coherent.exists_met (hg : g.Coherent) : ∀ l ∈ g.links,
    ∃ node ∈ g.nodes.identifiers, l.isMetAt g.directed node.key = true := by
  rw [hg.links_records]
  refine List.forall_mem_map.2 fun r hr => ?_
  obtain ⟨node, hnode, hkey⟩ := contains_iff_identifiers.1 (hg.ends_of_record hr).1
  exact ⟨node, hnode, hkey ▸ Link.isMetAt_source g.directed _⟩

/-- **The matrix of a graph whose edges all give numbers draws its edges.** -/
theorem Coherent.exists_draws (hg : g.Coherent) (hname : Network.Weighs name k)
    (hnumber : ∀ r ∈ g.records, Attributes.GiveNumber r.attributes k)
    (hfree : ∀ r ∈ g.records, ¬g.HindersAt k r.link) :
    ∃ m, g.adjacency name = .ok m ∧ m.Draws g (g.drawnNumber k) := by
  have hlinks := hg.links_records
  obtain ⟨stored, hperm, hadjacency⟩ := Network.adjacency_eq hg.exists_met hname
    (by rw [hlinks]; exact List.forall_mem_map.2 hnumber)
    (by rw [hlinks]; exact List.forall_mem_map.2 hfree)
  have hcells : g.links.flatMap (g.linkEntries k)
      = g.records.flatMap fun r => g.cells r (g.drawnNumber k r) := by
    rw [hlinks, List.flatMap_map]
    exact List.flatMap_congr fun r hr => hg.linkEntries_record hr k
  rw [hcells] at hperm
  refine ⟨_, hadjacency, ?_⟩
  exact {
    rows := rfl
    columns := rfl
    placed := by
      intro r hr k hk
      obtain ⟨hsource, htarget⟩ := hg.ends_of_record hr
      simp only [List.mem_cons, List.not_mem_nil, or_false] at hk
      obtain rfl | rfl := hk
      · exact getElem?_position hsource
      · exact getElem?_position htarget
    entries := (List.mergeSort_perm _ _).trans hperm
    before := by
      refine MatrixEntry.before_mergeSort ?_
      exact (hperm.pairwise_iff fun hne hsame => hne ⟨hsame.1.symm, hsame.2.symm⟩).2
        (hg.cells_apart _) }

end Graph

/-! ## §4. Numbers that can be doubled. -/

/-- A finite number below 2¹⁰²³. -/
def Real64.IsModest (x : Real64) : Prop := x.units < twoTo 1023 * Real64.unitsPerOne

/-- A whole number or a double that stands for a finite number below 2¹⁰²³. -/
def Value.IsModest : Value → Prop
  | .int n => ∃ x, Real64.ofInt? n = some x ∧ x.IsModest
  | .float x => x.IsModest
  | _ => False

theorem Value.IsModest.exists_toDouble {v : Value} (h : v.IsModest) :
    ∃ x, v.toDouble = .ok (.real x) ∧ x.IsModest := by
  cases v with
  | int n =>
    obtain ⟨x, hx, hmodest⟩ := h
    refine ⟨x, ?_, hmodest⟩
    show doubleOfInt n = _
    unfold doubleOfInt
    rw [hx]
  | float x => exact ⟨x, rfl, h⟩
  | _ => exact absurd h (by simp [IsModest])

theorem Value.IsModest.isNegatable {v : Value} (h : v.IsModest) : v.isNegatable = true := by
  cases v <;> first | rfl | exact absurd h (by simp [IsModest])

/-- Numbers with the same key are equal. -/
theorem Value.equals_float {x y : Real64} (h : key? (.float x) = key? (.float y)) :
    equals (.float x) (.float y) = .ok true := by
  obtain ⟨k, hk⟩ : ∃ k, key? (.float y) = some k := ⟨_, rfl⟩
  simp [equals, scalarEquals, numberKey?, h, hk]

/-- A zero without its sign is the same number. -/
theorem Double.equals_cleared (x : Real64) :
    Value.equals (.ofDouble (Double.real x).cleared) (.float x) = .ok true := by
  cases hzero : (Double.real x).isZero with
  | true =>
    rw [cleared_of_isZero hzero]
    have hplain : Value.key? (.float Real64.zero) = Value.key? (.bool false) := by decide +kernel
    refine Value.equals_float (x := Real64.zero) (hplain.trans ?_)
    obtain rfl | rfl := Real64.eq_of_isZero hzero
    · exact hplain.symm
    · exact Value.key?_negative_zero.symm
  | false =>
    rw [cleared_of_not_isZero hzero]
    exact Value.equals_float rfl

theorem Value.isModest_one : (Value.int 1).IsModest :=
  ⟨.one, by decide +kernel, by unfold Real64.IsModest; decide +kernel⟩

namespace Graph

variable {g : Graph} {r : EdgeRecord} {k : Key} {name : Value}

/-- The edges of a graph give such numbers under a key, or nothing. -/
def GivesModest (g : Graph) (k : Key) : Prop :=
  ∀ r ∈ g.records, ∀ v, r.attributes.get? k = some v → v.IsModest

theorem GivesModest.weight (h : g.GivesModest k) (hr : r ∈ g.records) :
    (Attributes.weight r.attributes k).IsModest := by
  unfold Attributes.weight
  cases hget : r.attributes.get? k with
  | none => exact Value.isModest_one
  | some v => exact h r hr v hget

theorem GivesModest.giveNumber (h : g.GivesModest k) (hr : r ∈ g.records) :
    Attributes.GiveNumber r.attributes k := by
  obtain ⟨x, hx, -⟩ := (h.weight hr).exists_toDouble
  exact ⟨_, hx⟩

/-- The number that an edge gives equals itself without the sign of a zero. -/
theorem GivesModest.equals_cleared (h : g.GivesModest k) (hr : r ∈ g.records) :
    Value.equals (.ofDouble (Attributes.number r.attributes k).cleared)
      (.ofDouble (Attributes.number r.attributes k)) = .ok true := by
  obtain ⟨x, hx, -⟩ := (h.weight hr).exists_toDouble
  unfold Attributes.number
  rw [hx]
  exact Double.equals_cleared x

/-- A number that can be doubled is not lost on a loop, but for the sign of a zero. -/
theorem GivesModest.drawnNumber_eq (h : g.GivesModest k) (hr : r ∈ g.records) :
    g.drawnNumber k r = if g.directed = false ∧ r.IsLoop
      then (Attributes.number r.attributes k).cleared else Attributes.number r.attributes k := by
  obtain ⟨x, hx, hmodest⟩ := (h.weight hr).exists_toDouble
  have hnumber : Attributes.number r.attributes k = .real x := by
    unfold Attributes.number
    rw [hx]
  unfold drawnNumber
  rw [hnumber]
  split
  · exact Double.add_self_add_neg hmodest
  · rfl

theorem GivesModest.exists_draws (h : g.GivesModest k) (hg : g.Coherent)
    (hname : Network.Weighs name k) : ∃ m, g.adjacency name = .ok m ∧ m.Draws g fun r =>
      if g.directed = false ∧ r.IsLoop then (Attributes.number r.attributes k).cleared
      else Attributes.number r.attributes k := by
  obtain ⟨m, hm, hdraws⟩ := hg.exists_draws hname (fun r hr => h.giveNumber hr)
    fun r hr hhinders => absurd ((h.weight hr).isNegatable.symm.trans hhinders.2.2) (by simp)
  exact ⟨m, hm, hdraws.congr fun r hr => h.drawnNumber_eq hr⟩

/-! ## §5. The weighted matrix, and the unweighted one. -/

/-- Nothing is filed under no name among attributes that are named by text. -/
theorem get?_null_of_named {a : Attributes} (h : Attributes.NamedOutside a []) :
    a.get? .null = none := by
  cases hget : a.get? .null with
  | none => rfl
  | some v =>
    obtain ⟨name, hname, hkey⟩ :=
      contains_iff_identifiers.1 (Catalog.contains_iff_get?.2 ⟨v, hget⟩)
    obtain ⟨s, hs, -⟩ := h name hname
    have hvalue := name.key?_value
    rw [hs, hkey] at hvalue
    exact absurd hvalue (by simp [Value.key?])

/-- **The weighted adjacency matrix of a graph draws its edges, each with its weight, or 1
if it has none; the unweighted one draws them all with 1.**  All weights that edges have are
whole numbers or doubles, finite and below 2¹⁰²³; those of loops without direction lose the
sign of a zero, which makes no other number of them. -/
theorem adjacency_draws_edges (hg : g.Coherent) (name : String)
    (hnames : ∀ r ∈ g.records, Attributes.NamedOutside r.attributes [])
    (hweights : ∀ r ∈ g.records, ∀ v, r.attributes.get? (.text name) = some v → v.IsModest) :
    (∀ r ∈ g.records, (Attributes.weight r.attributes (.text name)).toDouble
          = .ok (Attributes.number r.attributes (.text name))
        ∧ Value.equals (.ofDouble (Attributes.number r.attributes (.text name)).cleared)
          (.ofDouble (Attributes.number r.attributes (.text name))) = .ok true)
      ∧ (∃ m, g.adjacency (.str name) = .ok m ∧ m.Draws g fun r =>
        if g.directed = false ∧ r.IsLoop then (Attributes.number r.attributes (.text name)).cleared
        else Attributes.number r.attributes (.text name))
      ∧ ∃ m, g.adjacency .null = .ok m ∧ m.Draws g fun _ => .real .one := by
  have hmodest : g.GivesModest (.text name) := hweights
  have hnone : ∀ r ∈ g.records, r.attributes.get? .null = none :=
    fun r hr => get?_null_of_named (hnames r hr)
  have hplain : g.GivesModest .null := fun r hr v hv =>
    absurd ((hnone r hr).symm.trans hv) (by simp)
  refine ⟨fun r hr => ⟨(hmodest.giveNumber hr).toDouble, hmodest.equals_cleared hr⟩,
    hmodest.exists_draws hg (Network.weighs_text name), ?_⟩
  obtain ⟨m, hm, hdraws⟩ := hplain.exists_draws hg Network.weighs_null
  refine ⟨m, hm, hdraws.congr fun r hr => ?_⟩
  have hone : Attributes.number r.attributes .null = .real .one := by
    unfold Attributes.number Attributes.weight
    rw [hnone r hr]
    decide +kernel
  rw [hone]
  exact ite_self _

/-- Without direction: a loop that weighs 3, an edge that weighs nothing at all, and one
between an end and the other form of another that has no weight. -/
def looped : Graph :=
  (empty false).applied
    [.addNode (.str "b"), .addNode (.int 1), .addNode (.str "c"),
      .addEdge (.str "loop") (.int 1) (.int 1),
      .setAttribute .edge (.str "loop") (.str "weight") (.int 3),
      .addEdge (.str "zero") (.str "c") (.str "b"),
      .setAttribute .edge (.str "zero") (.str "weight") (.float Real64.zero.neg),
      .addEdge (.str "bare") (.bool true) (.str "c"),
      .setAttribute .edge (.str "bare") (.str "color") (.str "red")]

theorem reachable_looped : looped.Reachable := (Reachable.empty false).applied (by simp)

theorem adjacency_draws_edges_looped :
    (∀ r ∈ looped.records, (Attributes.weight r.attributes (.text "weight")).toDouble
          = .ok (Attributes.number r.attributes (.text "weight"))
        ∧ Value.equals (.ofDouble (Attributes.number r.attributes (.text "weight")).cleared)
          (.ofDouble (Attributes.number r.attributes (.text "weight"))) = .ok true)
      ∧ (∃ m, looped.adjacency (.str "weight") = .ok m ∧ m.Draws looped fun r =>
        if looped.directed = false ∧ r.IsLoop
        then (Attributes.number r.attributes (.text "weight")).cleared
        else Attributes.number r.attributes (.text "weight"))
      ∧ ∃ m, looped.adjacency .null = .ok m ∧ m.Draws looped fun _ => .real .one := by
  refine adjacency_draws_edges reachable_looped.coherent "weight" ?_ ?_
  · exact List.forall_mem_cons.2 ⟨List.forall_mem_singleton.2 ⟨"weight", rfl, List.not_mem_nil⟩,
      List.forall_mem_cons.2 ⟨List.forall_mem_singleton.2 ⟨"weight", rfl, List.not_mem_nil⟩,
        List.forall_mem_singleton.2
          (List.forall_mem_singleton.2 ⟨"color", rfl, List.not_mem_nil⟩)⟩⟩
  · have hthree : (Value.int 3).IsModest :=
      ⟨.round false 3 1, by decide +kernel, by unfold Real64.IsModest; decide +kernel⟩
    have hzero : (Value.float Real64.zero.neg).IsModest := by
      show Real64.units _ < _
      decide +kernel
    exact List.forall_mem_cons.2 ⟨fun v hv => Option.some.inj hv ▸ hthree,
      List.forall_mem_cons.2 ⟨fun v hv => Option.some.inj hv ▸ hzero,
        List.forall_mem_singleton.2 fun v (hv : none = some v) => absurd hv (by simp)⟩⟩

end Graph
end EvolvingGraph
