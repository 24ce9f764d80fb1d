/-
  EvolvingGraph.Proofs.Graph.Stores
  ─────────────────────────────────
  **CHANGES AND THE AGREEMENT OF THE EDGE TABLE WITH THE NETWORK.**

  The edge table and the network agree if the pairs that edges join are the pairs
  that links join, each of them once, and all ends are nodes; in which order either
  lists them is no matter.  A change keeps this, whatever it is, unless it removes
  a node that an edge is at: the links at the node go with it, the edges do not.

  Main statements:
    * `storesAgree_iff` — agreement told by the pairs;
    * `StoresAgree.takes` — orderly changes keep it;
    * `StoresAgree.removeNode_iff` — the removal of a node keeps it only if it is orderly;
    * `StoresAgree.leftWithout` — what can be done with all edges then.
-/
import EvolvingGraph.Proofs.Graph.Frame
import EvolvingGraph.Table.Basic

namespace EvolvingGraph

/-! ## §1. Pairs. -/

namespace Endpoints

/-- Ends that join one pair are alike. -/
def pairs (directed : Bool) : Setoid Endpoints where
  r := SamePair directed
  iseqv := ⟨samePair_refl directed, SamePair.symm, SamePair.trans⟩

/-- The pair of nodes that is joined: an ordered one in a directed graph, an
unordered one otherwise. -/
def pair (directed : Bool) (e : Endpoints) : Quotient (pairs directed) := Quotient.mk _ e

theorem pair_eq_iff {directed : Bool} {e f : Endpoints} :
    e.pair directed = f.pair directed ↔ SamePair directed e f := Quotient.eq (r := pairs directed)

end Endpoints

namespace Graph

variable {g g' : Graph}

/-- The pairs that edges join. -/
def edgePairs (directed : Bool) (g : Graph) : List (Quotient (Endpoints.pairs directed)) :=
  g.edges.entries.map (·.2.pair directed)

/-- The pairs that links join. -/
def linkPairs (directed : Bool) (g : Graph) : List (Quotient (Endpoints.pairs directed)) :=
  g.links.map (·.endpoints.pair directed)

theorem linked_iff_mem_linkPairs {f : Endpoints} :
    g.linked f.source.key f.target.key = true ↔ f.pair g.directed ∈ g.linkPairs g.directed := by
  unfold Network.linked Network.link? linkPairs
  rw [List.find?_isSome, List.mem_map]
  exact exists_congr fun l => and_congr_right fun _ =>
    Link.joins_iff.trans Endpoints.pair_eq_iff.symm

/-- Edges and links join the same pairs, each of them once, between nodes. -/
structure Matched (g : Graph) : Prop where
  ends_mem : ∀ e ∈ g.edges.entries,
    g.nodes.contains e.2.source.key = true ∧ g.nodes.contains e.2.target.key = true
  perm : (g.edgePairs g.directed).Perm (g.linkPairs g.directed)
  nodup : (g.edgePairs g.directed).Nodup

theorem Matched.linked (h : g.Matched) {e : Identifier × Endpoints} (he : e ∈ g.edges.entries) :
    g.linked e.2.source.key e.2.target.key = true :=
  linked_iff_mem_linkPairs.2 (h.perm.mem_iff.1 (List.mem_map_of_mem he))

theorem Matched.eq_of_samePair (h : g.Matched) {e f : Identifier × Endpoints}
    (he : e ∈ g.edges.entries) (hf : f ∈ g.edges.entries)
    (hsame : e.2.SamePair g.directed f.2) : e = f :=
  List.inj_on_of_nodup_map h.nodup he hf (Endpoints.pair_eq_iff.2 hsame)

/-- Each link joins the pair of an edge. -/
theorem Matched.exists_entry (h : g.Matched) {l : Link} (hl : l ∈ g.links) :
    ∃ e ∈ g.edges.entries, e.2.SamePair g.directed l.endpoints := by
  obtain ⟨e, he, hpair⟩ := List.mem_map.1 (h.perm.mem_iff.2 (List.mem_map_of_mem hl))
  exact ⟨e, he, Endpoints.pair_eq_iff.1 hpair⟩

theorem Matched.edgeAttributes (h : g.Matched) {e : Identifier × Endpoints}
    (he : e ∈ g.edges.entries) : ∃ a, g.edgeAttributes e.1.value = .ok a := by
  obtain ⟨l, hlink⟩ := Option.isSome_iff_exists.1 (h.linked he)
  exact ⟨l.attributes,
    edgeAttributes_eq_ok_iff.2 ⟨e.2, l, Coherent.endpoints_of_mem he, hlink, rfl⟩⟩

/-- **Agreement, told by the pairs.** -/
theorem storesAgree_iff : g.StoresAgree ↔ g.Matched := by
  constructor
  · intro h
    have hedges : (g.edgePairs g.directed).Nodup := by
      refine List.pairwise_map.2 (g.edges.nodup_entries.imp_of_mem fun he hf hne hpair => hne ?_)
      exact h.distinct _ he _ hf (Endpoints.pair_eq_iff.1 hpair)
    have hlinks : (g.linkPairs g.directed).Nodup :=
      List.pairwise_map.2 (h.simple.imp fun hne hpair => hne (Endpoints.pair_eq_iff.1 hpair))
    refine ⟨fun e he => ⟨(h.backed e he).1, (h.backed e he).2.1⟩, ?_, hedges⟩
    refine (List.perm_ext_iff_of_nodup hedges hlinks).2 fun p => ⟨fun hp => ?_, fun hp => ?_⟩
    · obtain ⟨e, he, rfl⟩ := List.mem_map.1 hp
      exact linked_iff_mem_linkPairs.1 (h.backed e he).2.2
    · obtain ⟨l, hl, rfl⟩ := List.mem_map.1 hp
      obtain ⟨e, ⟨he, hsame⟩, -⟩ := h.owned l hl
      exact List.mem_map.2 ⟨e, he, Endpoints.pair_eq_iff.2 hsame⟩
  · intro h
    constructor
    · exact fun e he => ⟨(h.ends_mem e he).1, (h.ends_mem e he).2, h.linked he⟩
    · intro l hl
      obtain ⟨e, he, hsame⟩ := h.exists_entry hl
      exact ⟨e, ⟨he, hsame⟩, fun f hf => h.eq_of_samePair hf.1 he (hf.2.trans hsame.symm)⟩
    · exact fun e he f hf hsame => h.eq_of_samePair he hf hsame
    · have hlinks : (g.linkPairs g.directed).Nodup := h.perm.nodup_iff.1 h.nodup
      exact (List.pairwise_map.1 hlinks).imp fun hne hsame => hne (Endpoints.pair_eq_iff.2 hsame)
    · simpa [edgePairs, linkPairs, Catalog.size] using h.perm.length_eq
    · intro ref v hv
      obtain ⟨e, he, rfl⟩ := List.mem_map.1 hv
      exact h.edgeAttributes he

/-! ## §2. Changes. -/

theorem Matched.of_sameShape (h : g.Matched) (hshape : g.SameShape g') : g'.Matched := by
  have hedges : ∀ directed, g'.edgePairs directed = g.edgePairs directed := fun directed => by
    unfold edgePairs
    rw [hshape.edges]
  have hlinks : ∀ directed, g'.linkPairs directed = g.linkPairs directed := fun directed => by
    have hmap := congrArg (List.map (·.pair directed)) hshape.links
    rw [List.map_map, List.map_map] at hmap
    exact hmap
  constructor
  · intro e he
    rw [hshape.edges] at he
    rw [hshape.contains, hshape.contains]
    exact h.ends_mem e he
  · rw [hedges, hlinks, hshape.directed]
    exact h.perm
  · rw [hedges, hshape.directed]
    exact h.nodup

theorem matched_empty (directed : Bool) : (empty directed).Matched where
  ends_mem := fun _ he => absurd he List.not_mem_nil
  perm := .nil
  nodup := .nil

theorem Matched.addNode (h : g.Matched) (name : Identifier) (attributes : Attributes) :
    Matched { g with nodes := g.nodes.insert name attributes } where
  ends_mem := by
    intro e he
    obtain ⟨hsource, htarget⟩ := h.ends_mem e he
    simp only [Catalog.contains_insert, hsource, htarget, Bool.or_true, and_self]
  perm := h.perm
  nodup := h.nodup

/-- A new edge and a new link join a pair that no other one joins. -/
theorem Matched.addEdge (h : g.Matched) {name source target : Identifier}
    (fresh : g.edges.contains name.key = false)
    (source_mem : g.nodes.contains source.key = true)
    (target_mem : g.nodes.contains target.key = true)
    (apart : g.linked source.key target.key = false) :
    Matched { g with
      toNetwork := g.connect source target
      edges := g.edges.insert name ⟨source, target⟩ } := by
  have hentries := Catalog.entries_insert_of_not_contains fresh (⟨source, target⟩ : Endpoints)
  have hnew : (⟨source, target⟩ : Endpoints).pair g.directed ∉ g.edgePairs g.directed := by
    rw [h.perm.mem_iff, ← linked_iff_mem_linkPairs, apart]
    exact Bool.false_ne_true
  constructor
  · show ∀ e ∈ (g.edges.insert name _).entries, _
    rw [hentries]
    exact List.forall_mem_append.2 ⟨h.ends_mem, List.forall_mem_singleton.2
      ⟨source_mem, target_mem⟩⟩
  · show ((g.edges.insert name _).entries.map _).Perm ((g.links ++ [_]).map _)
    rw [hentries, List.map_append, List.map_append]
    exact h.perm.append (.refl _)
  · show ((g.edges.insert name _).entries.map (·.2.pair g.directed)).Nodup
    rw [hentries, List.map_append]
    refine List.nodup_append.2 ⟨h.nodup, List.nodup_singleton _, fun p hp q hq hpq => hnew ?_⟩
    have hq : q = (⟨source, target⟩ : Endpoints).pair g.directed := List.mem_singleton.1 hq
    rw [← hq, ← hpq]
    exact hp

/-- An edge goes with the only link that joins its pair. -/
theorem Matched.removeEdge (h : g.Matched) {name : Identifier} {ends : Endpoints}
    (hmem : (name, ends) ∈ g.edges.entries) :
    Matched { g with
      edges := g.edges.erase name.key
      toNetwork := g.disconnect ends.source.key ends.target.key } := by
  classical
  -- in both places it is the pair that is left out
  have hedges : (g.edges.erase name.key).entries.map (·.2.pair g.directed)
      = (g.edgePairs g.directed).filter (· ≠ ends.pair g.directed) := by
    unfold edgePairs
    rw [List.filter_map, Catalog.entries_erase]
    refine congrArg _ (List.filter_congr fun e he => ?_)
    rw [Bool.eq_iff_iff, bne_iff_ne]
    simp only [Function.comp, decide_eq_true_eq]
    refine not_congr ⟨fun hkey => ?_, fun hpair => ?_⟩
    · rw [Catalog.eq_of_mem_of_key_eq he hmem hkey]
    · rw [h.eq_of_samePair he hmem (Endpoints.pair_eq_iff.1 hpair)]
  have hlinks : (g.disconnect ends.source.key ends.target.key).links.map
      (·.endpoints.pair g.directed)
      = (g.linkPairs g.directed).filter (· ≠ ends.pair g.directed) := by
    unfold linkPairs
    rw [List.filter_map]
    refine congrArg _ (List.filter_congr fun l hl => ?_)
    rw [Bool.eq_iff_iff, Bool.not_eq_true', ← Bool.not_eq_true, Link.joins_iff]
    simp only [Function.comp, decide_eq_true_eq]
    exact not_congr Endpoints.pair_eq_iff.symm
  constructor
  · exact fun e he => h.ends_mem e (List.mem_of_mem_filter he)
  · show ((g.edges.erase name.key).entries.map (·.2.pair g.directed)).Perm
      ((g.disconnect ends.source.key ends.target.key).links.map (·.endpoints.pair g.directed))
    rw [hedges, hlinks]
    exact h.perm.filter _
  · show ((g.edges.erase name.key).entries.map (·.2.pair g.directed)).Nodup
    rw [hedges]
    exact h.nodup.filter _

/-- A node goes that no edge is at, and so no link. -/
theorem Matched.removeNode (h : g.Matched) {k : Key} (hfree : g.incident k = []) :
    Matched { g with toNetwork := g.eraseNode k } := by
  have hapart := fun e he => Coherent.not_touches_of_incident_eq_nil hfree (e := e) he
  have hlinks : (g.links.filter fun l => !l.touches k) = g.links := by
    refine List.filter_eq_self.2 fun l hl => ?_
    obtain ⟨e, he, hsame⟩ := h.exists_entry hl
    obtain ⟨hsource, htarget⟩ := hapart e he
    obtain ⟨hs, ht⟩ | ⟨-, hs, ht⟩ := hsame
    · rw [hs] at hsource
      rw [ht] at htarget
      simpa [Link.touches] using ⟨hsource, htarget⟩
    · rw [hs] at hsource
      rw [ht] at htarget
      simpa [Link.touches] using ⟨htarget, hsource⟩
  constructor
  · intro e he
    obtain ⟨hs, ht⟩ := h.ends_mem e he
    obtain ⟨hks, hkt⟩ := hapart e he
    show (g.nodes.erase k).contains _ = true ∧ (g.nodes.erase k).contains _ = true
    simp [Catalog.contains_erase, hs, ht, Ne.symm hks, Ne.symm hkt]
  · show (g.edgePairs g.directed).Perm ((g.links.filter fun l => !l.touches k).map _)
    rw [hlinks]
    exact h.perm
  · exact h.nodup

theorem Matched.takes (h : g.Matched) {c : Change} {e : Event} (htakes : g.Takes c g' e)
    (horderly : g.Orderly c) : g'.Matched := by
  cases htakes with
  | addNode fresh named => exact h.addNode _ _
  | removeNode key present => exact h.removeNode (horderly _ _ rfl key)
  | addEdge fresh source_mem target_mem apart => exact h.addEdge fresh source_mem target_mem apart
  | removeEdge key found linked =>
    obtain ⟨name, hmem, rfl⟩ := Catalog.get?_eq_some_iff.1 found
    exact h.removeEdge hmem
  | setAttribute read put => exact h.of_sameShape (sameShape_of_putAttributes put)
  | removeAttribute read key found put => exact h.of_sameShape (sameShape_of_putAttributes put)
  | clear => exact matched_empty _

/-- **Orderly changes keep the agreement.** -/
theorem StoresAgree.takes (h : g.StoresAgree) {c : Change} {e : Event} (htakes : g.Takes c g' e)
    (horderly : g.Orderly c) : g'.StoresAgree :=
  storesAgree_iff.2 ((storesAgree_iff.1 h).takes htakes horderly)

/-- **The removal of a node keeps the agreement only if no edge is at the node.** -/
theorem StoresAgree.removeNode_iff (h : g.StoresAgree) {id : Value} {e : Event}
    (htakes : g.Takes (.removeNode id) g' e) :
    g'.StoresAgree ↔ g.Orderly (.removeNode id) := by
  refine ⟨fun hafter id' k heq hkey => ?_, h.takes htakes⟩
  obtain rfl : id = id' := Change.removeNode.inj heq
  cases htakes with
  | @removeNode _ k' key present =>
    obtain rfl : k' = k := Option.some.inj (key.symm.trans hkey)
    -- the ends of an edge at the node would still have to be nodes
    unfold incident
    refine List.map_eq_nil_iff.2 (List.filter_eq_nil_iff.2 fun f hf hat => ?_)
    obtain ⟨hsource, htarget, -⟩ := hafter.backed f hf
    have hsource : (g.nodes.erase k').contains f.2.source.key = true := hsource
    have htarget : (g.nodes.erase k').contains f.2.target.key = true := htarget
    rw [Catalog.contains_erase] at hsource htarget
    simp only [Bool.or_eq_true, beq_iff_eq] at hat
    obtain hat | hat := hat
    · simp [hat] at hsource
    · simp [hat] at htarget

/-- A change that reports nothing has done nothing. -/
theorem StoresAgree.apply_eq (h : g.StoresAgree) {c : Change} {r : Except Error (Option Event)}
    (happly : g.apply c = (g', r)) (hr : ∀ e, r ≠ .ok (some e)) : g' = g :=
  apply_eq_of_linked (fun e he => (h.backed e he).2.2) happly hr

/-! ## §3. Edges at a node. -/

/-- The ids of the edges at a node. -/
def idsAt (g : Graph) (k : Key) : List Key := (g.incident k).map (·.key)

theorem mem_idsAt {k j : Key} : j ∈ g.idsAt k ↔ ∃ e ∈ g.edges.entries, e.1.key = j
    ∧ (e.2.source.key = k ∨ e.2.target.key = k) := by
  unfold idsAt incident
  rw [List.map_map, List.mem_map]
  simp only [List.mem_filter, Bool.or_eq_true, beq_iff_eq, Function.comp, and_assoc]
  exact exists_congr fun e => and_congr_right fun _ => and_comm

/-- Where no edge is added, none comes to a node. -/
theorem idsAt_subset_of_entries (h : g'.edges.entries ⊆ g.edges.entries) (k : Key) :
    g'.idsAt k ⊆ g.idsAt k := by
  intro j hj
  obtain ⟨e, he, hends⟩ := mem_idsAt.1 hj
  exact mem_idsAt.2 ⟨e, h he, hends⟩

end Graph

/-- An event tells of an edge that has been added at a node. -/
def Event.JoinsTo (n : Value) : Event → Prop
  | .edgeAdded _ source target => source.key? = n.key? ∨ target.key? = n.key?
  | _ => False

namespace Graph

variable {g g' : Graph}

/-- A change that adds no edge at a node brings none there. -/
theorem Takes.idsAt_subset {c : Change} {event : Event} (h : g.Takes c g' event) {n : Value}
    {k : Key} (hk : n.key? = some k) (hjoins : ¬event.JoinsTo n) : g'.idsAt k ⊆ g.idsAt k := by
  cases h with
  | addNode fresh named => exact List.Subset.refl _
  | removeNode key present => exact List.Subset.refl _
  | @addEdge name source target fresh source_mem target_mem apart =>
    intro j hj
    obtain ⟨e, he, hkey, hends⟩ := mem_idsAt.1 hj
    rw [show _ = _ from Catalog.entries_insert_of_not_contains fresh ⟨source, target⟩,
      List.mem_append, List.mem_singleton] at he
    obtain he | rfl := he
    · exact mem_idsAt.2 ⟨e, he, hkey, hends⟩
    · -- the new edge would be at the node
      refine absurd ?_ hjoins
      show source.value.key? = n.key? ∨ target.value.key? = n.key?
      rw [hk, source.key?_value, target.key?_value]
      exact hends.imp (congrArg some) (congrArg some)
  | removeEdge key found linked => exact idsAt_subset_of_entries (List.filter_subset_self _) k
  | setAttribute read put =>
    exact idsAt_subset_of_entries (by rw [(sameShape_of_putAttributes put).edges]; simp) k
  | removeAttribute read key found put =>
    exact idsAt_subset_of_entries (by rw [(sameShape_of_putAttributes put).edges]; simp) k
  | clear => exact idsAt_subset_of_entries (List.nil_subset _) k

/-- A change that reports nothing brings no edge anywhere. -/
theorem idsAt_subset_of_idle {c : Change} {r : Except Error (Option Event)}
    (h : g.apply c = (g', r)) (hr : ∀ e, r ≠ .ok (some e)) (k : Key) : g'.idsAt k ⊆ g.idsAt k := by
  obtain rfl | ⟨name, ends, -, -, rfl⟩ := apply_idle h hr
  · exact List.Subset.refl _
  · exact idsAt_subset_of_entries (List.filter_subset_self _) k

/-- The removal of an edge is reported unless it fails. -/
theorem apply_removeEdge_ne_idle (g g' : Graph) (id : Value) :
    g.apply (.removeEdge id) ≠ (g', .ok none) := by
  show g.removeEdge id ≠ _
  unfold removeEdge
  split
  · simp
  · split
    · split <;> simp
    · simp
    · simp

/-- An edge that has been removed is at no node. -/
theorem Takes.not_mem_idsAt {id : Identifier} {event : Event}
    (h : g.Takes (.removeEdge id.value) g' event) (k : Key) : id.key ∉ g'.idsAt k := by
  intro hmem
  obtain ⟨e, he, hkey, -⟩ := mem_idsAt.1 hmem
  cases h with
  | @removeEdge _ j ends key found linked =>
    obtain rfl : id.key = j := Option.some.inj (id.key?_value.symm.trans key)
    exact absurd hkey (by simpa using (List.mem_filter.1 he).2)

theorem incident_eq_nil_iff {k : Key} : g.incident k = [] ↔ g.idsAt k = [] :=
  List.map_eq_nil_iff.symm

/-! ## §4. What the agreement is good for. -/

/-- A node is gone, and no edge has been left behind: the edge table and the network
agree, no edge is at the node, the attributes of each edge can be read, each edge can
be removed, and there is a table of the edges. -/
structure LeftWithout (g : Graph) (n : Value) : Prop where
  agree : g.StoresAgree
  none_at : ∀ e ∈ g.edges.entries,
    e.2.source.value.key? ≠ n.key? ∧ e.2.target.value.key? ≠ n.key?
  readable : ∀ e ∈ g.edges.entries, ∃ a : Attributes, ∀ (name : Identifier) (default : Value),
    g.readAttribute .edge e.1.value name.value default = .ok ((a.get? name.key).getD default)
  removable : ∀ e ∈ g.edges.entries, ∃ g',
    g.Takes (.removeEdge e.1.value) g' (.edgeRemoved e.1.value) ∧ g'.StoresAgree
  tabled : ∀ mark, ∃ t, g.table mark = .ok t ∧ t.height = g.edges.size

/-- The attributes of all edges are read for the table. -/
theorem StoresAgree.exists_table (h : g.StoresAgree) (mark : Nat) :
    ∃ t, g.table mark = .ok t ∧ t.height = g.edges.size := by
  have hrows : g.edgeRows = .ok (g.edges.entries.map fun e =>
      rowOf e.1 e.2 ((g.edgeAttributes e.1.value).toOption.getD .empty)) := by
    refine mapM_eq_ok fun e he => ?_
    obtain ⟨a, ha⟩ := (storesAgree_iff.1 h).edgeAttributes he
    show (g.edgeAttributes e.1.value >>= _) = _
    rw [ha]
    rfl
  unfold table
  rw [hrows]
  exact ⟨_, rfl, List.length_map _⟩

/-- **Where the two agree and a node is gone, no edge has been left behind.** -/
theorem StoresAgree.leftWithout (h : g.StoresAgree) {n : Value} (hgone : g.hasNode n = false) :
    g.LeftWithout n where
  agree := h
  none_at := by
    have hnode : ∀ name : Identifier, g.nodes.contains name.key = true →
        name.value.key? ≠ n.key? := by
      intro name hname hkey
      unfold hasNode at hgone
      rw [← hkey, name.key?_value] at hgone
      exact absurd (hname.symm.trans hgone) (by simp)
    intro e he
    obtain ⟨hsource, htarget, -⟩ := h.backed e he
    exact ⟨hnode _ hsource, hnode _ htarget⟩
  readable := by
    intro e he
    obtain ⟨a, ha⟩ := (storesAgree_iff.1 h).edgeAttributes he
    refine ⟨a, fun name default => ?_⟩
    unfold readAttribute keyOf
    rw [show g.attributesOf .edge e.1.value = .ok a from ha, name.key?_value]
    rfl
  removable := by
    intro e he
    have htakes : g.Takes (.removeEdge e.1.value) _ (.edgeRemoved e.1.value) :=
      .removeEdge e.1.key?_value (Catalog.get?_of_mem he) (h.backed e he).2.2
    exact ⟨_, htakes, h.takes htakes (orderly_of_ne (by simp))⟩
  tabled := h.exists_table

end Graph
end EvolvingGraph
