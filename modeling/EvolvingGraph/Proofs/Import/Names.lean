/-
  EvolvingGraph.Proofs.Import.Names
  ─────────────────────────────────
  **ATTRIBUTE NAMES THAT AN IMPORT CANNOT TAKE.**

  A foreign network and a table may name their attributes as they like.  When one
  is imported, the attributes of a node or an edge are given along with the request
  for it, where the names of what else the request is given are reserved.  So all
  attributes are taken, whatever their names are, but these few; an attribute with
  one of them makes the whole import fail, although it could be set by itself.

  Main statements:
    * `Network.ofNetwork_of_clashFree`, `Network.ofNetwork_of_clash` — networks;
    * `import_takes_names_but_reserved` — networks and tables.
-/
import EvolvingGraph.Proofs.Table.Telling

namespace EvolvingGraph

/-- Of names that are text the reserved ones are all that a request cannot take. -/
theorem Attributes.namedOutside_iff_of_text {a : Attributes} (h : NamedOutside a [])
    {reserved : List String} :
    NamedOutside a reserved ↔ ∀ s ∈ reserved, Catalog.contains a (.text s) = false := by
  constructor
  · intro hout s hs
    refine Bool.eq_false_iff.2 fun hcontains => ?_
    obtain ⟨s', hs', hs''⟩ := namedOutside_iff.1 hout _ hcontains
    exact hs'' (Key.text.inj hs' ▸ hs)
  · intro hfree
    refine namedOutside_iff.2 fun k hk => ?_
    obtain ⟨s, rfl, -⟩ := namedOutside_iff.1 h k hk
    exact ⟨s, rfl, fun hs => absurd (hfree s hs) (by simp [hk])⟩

namespace Network

variable {n : Network}

/-! ## §1. The names in a network. -/

/-- All attributes are named by text. -/
structure NamedByText (n : Network) : Prop where
  nodes : ∀ e ∈ n.nodes.entries, Attributes.NamedOutside e.2 []
  links : ∀ l ∈ n.links, Attributes.NamedOutside l.attributes []

/-- Some attribute has the name of something else that the request for its node or
its edge is given. -/
def Clashes (n : Network) : Prop :=
  (∃ e ∈ n.nodes.entries, ∃ s ∈ ["self", "node_id"], e.2.contains (.text s) = true)
    ∨ ∃ l ∈ n.links, ∃ s ∈ ["self", "edge_id", "source", "target"],
      l.attributes.contains (.text s) = true

/-- What can be given along is named by text, and not by a reserved name. -/
theorem readable_iff : n.Readable ↔ n.NamedByText ∧ n.Nameable ∧ ¬n.Clashes := by
  constructor
  · intro h
    have hnames : n.NamedByText := ⟨fun e he => (h.node_names e he).mono (by simp),
      fun l hl => (h.link_names l hl).mono (by simp)⟩
    refine ⟨hnames, h.hashable, ?_⟩
    rintro (⟨e, he, s, hs, hcontains⟩ | ⟨l, hl, s, hs, hcontains⟩)
    · have hfree := (Attributes.namedOutside_iff_of_text (hnames.nodes e he)).1
        (h.node_names e he) s hs
      exact absurd (hfree.symm.trans hcontains) (by simp)
    · have hfree := (Attributes.namedOutside_iff_of_text (hnames.links l hl)).1
        (h.link_names l hl) s hs
      exact absurd (hfree.symm.trans hcontains) (by simp)
  · rintro ⟨hnames, hnameable, hfree⟩
    refine ⟨fun e he => (Attributes.namedOutside_iff_of_text (hnames.nodes e he)).2 fun s hs => ?_,
      fun l hl => (Attributes.namedOutside_iff_of_text (hnames.links l hl)).2 fun s hs => ?_,
      hnameable⟩
    · exact Bool.eq_false_iff.2 fun hcontains => hfree (.inl ⟨e, he, s, hs, hcontains⟩)
    · exact Bool.eq_false_iff.2 fun hcontains => hfree (.inr ⟨l, hl, s, hs, hcontains⟩)

/-! ## §2. A clash. -/

/-- Nodes that are not all accepted make the import fail. -/
theorem Simple.ofNetwork_of_refused_node (h : n.Simple) (hrefused : ¬∀ e ∈ n.nodes.entries,
    (Change.addNode e.1.value).accepts e.2 = true) :
    Graph.ofNetwork n false = .error .badArgument := by
  obtain ⟨before, e, after, hsplit, hrefused, hbefore⟩ := exists_first_failure hrefused
  have hsub : before.Sublist n.nodes.entries := hsplit ▸ List.sublist_append_left ..
  have hfresh : (((Graph.empty n.directed).nodes.entries ++ before).map (·.1.key)).Nodup :=
    n.nodes.nodup.sublist (hsub.map _)
  have hadded := Graph.performAll_addNodes hfresh
    (fun e he => h.named e.1 (List.mem_map_of_mem (hsub.subset he))) hbefore
  show (Graph.empty n.directed).performAll (n.nodes.entries.map _ ++ _) = _
  rw [hsplit, List.map_append, List.map_cons, List.append_assoc]
  exact Graph.performAll_eq_error_of_refused hadded (Bool.not_eq_true _ ▸ hrefused) _

/-- Edges that are not all accepted make the import fail. -/
theorem Simple.ofNetwork_of_refused_edge (h : n.Simple) (hnameable : n.Nameable)
    (hapart : n.edgeIds.Pairwise fun v w => ¬v.SameId w)
    (hnodes : ∀ e ∈ n.nodes.entries, Attributes.NamedOutside e.2 ["self", "node_id"])
    (hrefused : ¬∀ r ∈ n.edgeRecords, r.request.1.accepts r.request.2 = true) :
    Graph.ofNetwork n false = .error .badArgument := by
  obtain ⟨before, r, after, hsplit, hrefused, hbefore⟩ := exists_first_failure hrefused
  have hsub : before.Sublist n.edgeRecords := hsplit ▸ List.sublist_append_left ..
  have hjoinable := h.joinable hsub fun r hr => Change.accepts_iff.1 (hbefore r hr)
  have hfresh := hnameable.edgeIds_apart_iff.1 hapart
  have hadded := Graph.performAll_addEdges hjoinable
    (hfresh.sublist (((hsub.map _).append_left _).map _))
  rw [h.ofNetwork_eq hnodes hnameable, hsplit, List.map_append, List.map_cons]
  exact Graph.performAll_eq_error_of_refused hadded (Bool.not_eq_true _ ▸ hrefused) _

/-- A link is asked for as an edge that has its attributes but the id. -/
theorem Simple.exists_record (h : n.Simple) {m : Link} (hm : m ∈ n.links) :
    ∃ r ∈ n.edgeRecords, r.attributes = m.attributes.erase (.text "id") := by
  obtain ⟨found, hperm, hturned⟩ := sweep_perm fun l hl => h.exists_met hl
  obtain ⟨l, hl, hlm⟩ := exists_of_forall₂ hturned.flip (hperm.mem_iff.2 hm)
  refine ⟨edgeOfLink l, List.mem_map_of_mem hl, ?_⟩
  rw [← hlm.attributes_eq]
  rfl

/-- **One reserved name makes the import fail.** -/
theorem ofNetwork_of_clash (h : n.Simple) (hnames : n.NamedByText) (hnameable : n.Nameable)
    (hapart : n.edgeIds.Pairwise fun v w => ¬v.SameId w) (hclash : n.Clashes) :
    Graph.ofNetwork n false = .error .badArgument := by
  by_cases haccepted : ∀ e ∈ n.nodes.entries, (Change.addNode e.1.value).accepts e.2 = true
  swap
  · exact h.ofNetwork_of_refused_node haccepted
  have hnodes : ∀ e ∈ n.nodes.entries, Attributes.NamedOutside e.2 ["self", "node_id"] :=
    fun e he => Change.accepts_iff.1 (haccepted e he)
  obtain ⟨e, he, s, hs, hcontains⟩ | ⟨l, hl, s, hs, hcontains⟩ := hclash
  · have hfree := (Attributes.namedOutside_iff_of_text (hnames.nodes e he)).1 (hnodes e he) s hs
    exact absurd (hfree.symm.trans hcontains) (by simp)
  · obtain ⟨r, hr, hattributes⟩ := h.exists_record hl
    refine h.ofNetwork_of_refused_edge hnameable hapart hnodes fun haccepts => ?_
    -- the id is taken out of the attributes, and its name is not reserved
    have hne : Key.text "id" ≠ .text s := by
      rintro ⟨⟩
      exact absurd hs (by decide)
    have hkept : r.attributes.contains (.text s) = true := by
      rw [hattributes, Catalog.contains_erase, hcontains, decide_eq_false hne]
      rfl
    obtain ⟨s', hs', hs''⟩ :=
      Attributes.namedOutside_iff.1 (Change.accepts_iff.1 (haccepts r hr)) _ hkept
    exact hs'' (Key.text.inj hs' ▸ hs)

end Network

/-! ## §3. What an import has read. -/

/-- Each attribute of a network but the id of an edge is read off a graph under its
name, and nothing is read where the network has no attribute. -/
structure Graph.ReadsAs (g : Graph) (n : Network) : Prop where
  nodes : ∀ e ∈ n.nodes.entries, ∀ (s : String) (default : Value),
    g.readAttribute .node e.1.value (.str s) default = .ok ((e.2.get? (.text s)).getD default)
  edges : ∀ x ∈ n.listing, ∀ s : String, s ≠ "id" → ∀ default : Value,
    g.readAttribute .edge x.edgeId (.str s) default
      = .ok ((x.attributes.get? (.text s)).getD default)

namespace Network

variable {n : Network}

theorem coherent_nodesAlone (n : Network) : n.nodesAlone.Coherent where
  aligned := rfl
  ends_mem := fun _ he => absurd he List.not_mem_nil
  apart := List.Pairwise.nil

/-- The attributes of an edge are those of its link but the id. -/
theorem edgeAttributes_plusEdges (h : n.Simple) (hread : n.Readable)
    (hapart : n.edgeIds.Pairwise fun v w => ¬v.SameId w) {x : Listed} (hx : x ∈ n.listing) :
    (n.nodesAlone.plusEdges n.edgeRecords).edgeAttributes x.edgeId
      = .ok (x.attributes.erase (.text "id")) := by
  rw [listing_eq_sweep] at hx
  obtain ⟨l, hl, rfl⟩ := List.mem_map.1 hx
  have hfresh := hread.edgeIds_apart_iff.1 hapart
  have hcoherent := (coherent_nodesAlone n).plusEdges (joinable_edgeRecords h hread) hfresh
  have hrecord : edgeOfLink l ∈ n.edgeRecords := List.mem_map_of_mem hl
  rw [← Nameable.name_value hread.hashable hl]
  refine hcoherent.edgeAttributes_of_link (r := edgeOfLink l) ?_ ?_
  · show _ ∈ (n.nodesAlone.edges.insertAll _).entries
    rw [Catalog.entries_insertAll hfresh]
    exact List.mem_append_right _ (List.mem_map_of_mem hrecord)
  · exact List.mem_append_right _ (List.mem_map_of_mem hrecord)

/-- The graph of the nodes and edges of a network has its attributes. -/
theorem readsAs_plusEdges (h : n.Simple) (hread : n.Readable)
    (hapart : n.edgeIds.Pairwise fun v w => ¬v.SameId w) :
    (n.nodesAlone.plusEdges n.edgeRecords).ReadsAs n where
  nodes := by
    intro e he s default
    have hkey : (n.nodesAlone.plusEdges n.edgeRecords).nodeKey e.1.value = .ok e.1.key :=
      Graph.nodeKey_value_eq_ok_iff.2 ⟨rfl, Catalog.contains_of_mem he⟩
    have hattributes : (n.nodesAlone.plusEdges n.edgeRecords).attributesOf .node e.1.value
        = .ok e.2 := by
      refine bind_eq_ok_iff.2 ⟨_, hkey, ?_⟩
      show Except.ok ((n.nodes.get? e.1.key).getD .empty) = _
      rw [Catalog.get?_of_mem he]
      rfl
    unfold Graph.readAttribute
    rw [hattributes]
    rfl
  edges := by
    intro x hx s hs default
    have hne : Key.text s ≠ .text "id" := fun heq => hs (Key.text.inj heq)
    unfold Graph.readAttribute
    rw [show Graph.attributesOf _ .edge _ = _ from edgeAttributes_plusEdges h hread hapart hx,
      ← Catalog.get?_erase_of_ne x.attributes hne]
    rfl

/-- **Without reserved names the import succeeds, whatever the other names are.** -/
theorem ofNetwork_of_clashFree (h : n.Simple) (hnames : n.NamedByText) (hnameable : n.Nameable)
    (hapart : n.edgeIds.Pairwise fun v w => ¬v.SameId w) (hfree : ¬n.Clashes) :
    ∃ g, Graph.ofNetwork n false = .ok g ∧ g.Holds n ∧ g.ReadsAs n := by
  have hread := readable_iff.2 ⟨hnames, hnameable, hfree⟩
  refine ⟨_, ?_, holds_plusEdges hread hapart, readsAs_plusEdges h hread hapart⟩
  rw [ofNetwork_eq h hread]
  exact Graph.performAll_addEdges (joinable_edgeRecords h hread)
    (hread.edgeIds_apart_iff.1 hapart)

end Network

/-! ## §4. Networks and tables. -/

/-- **An import takes attributes of all names but the reserved ones.**  Of a simple
network whose edges can be given their ids it fails exactly if some attribute is
named like what else its request is given; otherwise each attribute but the id of
an edge can be read.  Of a table it fails exactly if a row names something by what
cannot be a name, or fills a column that is named like this; otherwise each row is
an edge that has as attributes what stands in the other columns. -/
theorem import_takes_names_but_reserved (n : Network) (t : Table) (reading : TableReading) :
    (n.Simple → n.NamedByText → n.Nameable →
      (n.edgeIds.Pairwise fun v w => ¬v.SameId w) →
        (¬n.Clashes → ∃ g, Graph.ofNetwork n false = .ok g ∧ g.Holds n ∧ g.ReadsAs n)
          ∧ (n.Clashes → Graph.ofNetwork n false = .error .badArgument))
      ∧ (reading.Describes t →
        ((∀ i < t.height, reading.GoodAt t i) →
            ∃ g, Graph.ofTable t reading = .ok g ∧ g.HoldsRows t reading)
          ∧ ((∀ i < t.height, reading.NameableAt t i) → (∃ i < t.height, reading.ClashesAt t i) →
            Graph.ofTable t reading = .error .badArgument)
          ∧ ((∃ i < t.height, ¬reading.GoodAt t i) →
            ∃ e, Graph.ofTable t reading = .error e ∧ e.kind = .type)) := by
  constructor
  · intro hsimple hnames hnameable hapart
    exact ⟨Network.ofNetwork_of_clashFree hsimple hnames hnameable hapart,
      Network.ofNetwork_of_clash hsimple hnames hnameable hapart⟩
  · intro hdescribes
    exact ⟨fun hgood => ⟨_, hdescribes.ofTable_of_good hgood, hdescribes.holdsRows hgood⟩,
      hdescribes.ofTable_of_clash, hdescribes.ofTable_of_not_good⟩

/-- Two lines of a railway; of the second one it is known what it calls itself. -/
def railway (self : Value) : Table where
  columns := [⟨.str "from", [.int 1, .int 2]⟩, ⟨.str "to", [.int 2, .int 3]⟩,
    ⟨.str "self", [.null, self]⟩, ⟨.str "weight", [.int 3, .nan 1]⟩]
  height := 2

/-- How the lines are read: without ids of their own. -/
def railwayReading : TableReading where
  directed := false
  source := .str "from"
  target := .str "to"
  edgeId := .null

theorem describes_railway (self : Value) : railwayReading.Describes (railway self) where
  named := by
    intro c hc
    simp only [railway, List.mem_cons, List.not_mem_nil, or_false] at hc
    obtain rfl | rfl | rfl | rfl := hc <;> exact ⟨_, rfl⟩
  apart := by simp [railway]
  source_mem := ⟨_, List.mem_cons_self, rfl⟩
  target_mem := ⟨_, List.mem_cons_of_mem _ List.mem_cons_self, rfl⟩
  edgeId_text := .inl rfl
  present := by
    intro i hi
    obtain rfl | rfl : i = 0 ∨ i = 1 := by simp only [railway] at hi; omega
    · exact ⟨rfl, rfl, rfl⟩
    · exact ⟨rfl, rfl, rfl⟩
  ids_apart := by
    intro i j hij hj
    obtain ⟨rfl, rfl⟩ : i = 0 ∧ j = 1 := by simp only [railway] at hj; omega
    have hiff : (railwayReading.edgeIdAt (railway self) 0).SameId
        (railwayReading.edgeIdAt (railway self) 1)
        ↔ Key.cons (.int 1) (.cons (.int 2) .nil) = .cons (.int 2) (.cons (.int 3) .nil) :=
      Value.sameId_iff rfl rfl
    rw [hiff]
    decide
  pairs_apart := by
    intro i j hij hj
    obtain ⟨rfl, rfl⟩ : i = 0 ∧ j = 1 := by simp only [railway] at hj; omega
    rintro (⟨hsame, -⟩ | ⟨-, hsame, -⟩)
    · have hkeys : Key.int 1 = .int 2 := (Value.sameId_iff rfl rfl).1 hsame
      exact absurd hkeys (by decide)
    · have hkeys : Key.int 1 = .int 3 := (Value.sameId_iff rfl rfl).1 hsame
      exact absurd hkeys (by decide)

theorem nameableAt_railway (self : Value) :
    ∀ i < 2, railwayReading.NameableAt (railway self) i := by
  intro i hi
  obtain rfl | rfl : i = 0 ∨ i = 1 := by omega
  · exact ⟨⟨_, rfl⟩, ⟨_, rfl⟩, ⟨_, rfl⟩⟩
  · exact ⟨⟨_, rfl⟩, ⟨_, rfl⟩, ⟨_, rfl⟩⟩

/-- A column of attributes with a reserved name is no matter as long as it is empty. -/
theorem goodAt_railway : ∀ i < 2, railwayReading.GoodAt (railway .null) i := by
  intro i hi
  refine ⟨nameableAt_railway .null i hi, ?_⟩
  rintro ⟨c, hc, s, hs, hname, hpresent⟩
  obtain rfl | rfl : c = ⟨.str "self", [.null, .null]⟩ ∨ c = ⟨.str "weight", [.int 3, .nan 1]⟩ := by
    simpa [TableReading.attributeColumns, railway, railwayReading, Value.key?] using hc
  · obtain rfl | rfl : i = 0 ∨ i = 1 := by omega
    · exact absurd hpresent (by decide)
    · exact absurd hpresent (by decide)
  · obtain rfl := Value.str.inj hname
    exact absurd hs (by decide)

theorem clashesAt_railway (name : String) :
    railwayReading.ClashesAt (railway (.str name)) 1 := by
  refine ⟨⟨.str "self", [.null, .str name]⟩, ?_, "self", by simp, rfl, rfl⟩
  simp [TableReading.attributeColumns, railway, railwayReading, Value.key?]

/-- One node, with an attribute that is named like the id in its request. -/
def badge : Network where
  directed := false
  nodes := Catalog.empty.insert (.ofInt 1) (Catalog.empty.insert (.ofText "node_id") (.int 5))
  links := []

/-- An edge brings its id along; the lines become edges as long as none of them
tells what it calls itself. -/
theorem import_takes_names_but_reserved_railway :
    (∃ g, Graph.ofNetwork (Network.bondAndLoop (.str "bond")) false = .ok g
        ∧ g.Holds (Network.bondAndLoop (.str "bond"))
        ∧ g.ReadsAs (Network.bondAndLoop (.str "bond")))
      ∧ (∃ g, Graph.ofTable (railway .null) railwayReading = .ok g
        ∧ g.HoldsRows (railway .null) railwayReading)
      ∧ Graph.ofTable (railway (.str "night train")) railwayReading = .error .badArgument := by
  refine ⟨?_, ?_, ?_⟩
  · have hread : (Network.bondAndLoop (.str "bond")).Readable := Network.readable_bondAndLoop rfl
    obtain ⟨hnames, hnameable, hfree⟩ := Network.readable_iff.1 hread
    have htakes := import_takes_names_but_reserved (Network.bondAndLoop (.str "bond"))
      (railway .null) railwayReading
    refine (htakes.1 (Network.simple_bondAndLoop _) hnames hnameable ?_).1 hfree
    rw [Network.edgeIds_bondAndLoop]
    refine List.pairwise_cons.2 ⟨List.forall_mem_singleton.2 ?_, List.pairwise_singleton ..⟩
    rw [Value.sameId_iff rfl rfl]
    decide
  · have htakes := import_takes_names_but_reserved badge (railway .null) railwayReading
    exact (htakes.2 (describes_railway _)).1 goodAt_railway
  · have htakes := import_takes_names_but_reserved badge (railway (.str "night train"))
      railwayReading
    exact (htakes.2 (describes_railway _)).2.1 (nameableAt_railway _)
      ⟨1, by decide, clashesAt_railway _⟩

/-- A network and a table that have all that an import asks for but free names. -/
theorem import_refuses_badge_and_railway :
    (badge.Simple ∧ badge.NamedByText ∧ badge.Nameable
        ∧ (badge.edgeIds.Pairwise fun v w => ¬v.SameId w)
        ∧ ∀ g, Graph.ofNetwork badge false ≠ .ok g)
      ∧ railwayReading.Describes (railway (.str "night train"))
        ∧ ∀ g, Graph.ofTable (railway (.str "night train")) railwayReading ≠ .ok g := by
  have hids : badge.edgeIds = [] := rfl
  refine ⟨⟨?_, ⟨?_, ?_⟩, ?_, ?_, ?_⟩, describes_railway _, ?_⟩
  · exact ⟨fun _ hl => absurd hl List.not_mem_nil, fun _ hl => absurd hl List.not_mem_nil,
      .nil, List.forall_mem_singleton.2 rfl⟩
  · exact List.forall_mem_singleton.2 (List.forall_mem_singleton.2 ⟨"node_id", rfl, by simp⟩)
  · exact fun _ hl => absurd hl List.not_mem_nil
  · unfold Network.Nameable
    rw [hids]
    exact fun _ hid => absurd hid List.not_mem_nil
  · exact hids ▸ .nil
  · have hrefused : Graph.ofNetwork badge false = .error .badArgument := rfl
    exact fun g => hrefused ▸ by simp
  · have hrefused : Graph.ofTable (railway (.str "night train")) railwayReading
        = .error .badArgument :=
      (describes_railway _).ofTable_of_clash (nameableAt_railway _)
        ⟨1, by decide, clashesAt_railway _⟩
    exact fun g => hrefused ▸ by simp

end EvolvingGraph
