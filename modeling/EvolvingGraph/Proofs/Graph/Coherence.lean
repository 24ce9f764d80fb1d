/-
  EvolvingGraph.Proofs.Graph.Coherence
  ────────────────────────────────────
  **THE NETWORK AND THE EDGE TABLE OF A GRAPH TELL THE SAME.**

  A graph keeps its edges twice: the table knows the two ends of each edge id,
  the network has a link between them.  A graph is coherent when the links are,
  in order, those of the edges in the table, when the ends are nodes, and when
  no two edges join one pair.  Each change keeps a graph coherent that takes
  effect on it, except the removal of a node that still has edges; and a
  request removes those first.

  Main statements:
    * `Coherent.takes` — what one change keeps;
    * `Coherent.apply_eq` — a change without an event changes nothing;
    * `Coherent.applied_take` — a request keeps it wherever it is interrupted;
    * `Coherent.toStoresAgree` — what coherence says about edges and links.
-/
import EvolvingGraph.Proofs.Graph.Effect

namespace EvolvingGraph

/-! ## §1. Pairs of ends. -/

/-- The two ends of a link, as they were given. -/
def Link.endpoints (l : Link) : Endpoints := ⟨l.source, l.target⟩

/-- Two edges would join one pair of nodes: an ordered pair in a directed
graph, an unordered one otherwise. -/
def Endpoints.SamePair (directed : Bool) (e f : Endpoints) : Prop :=
  (e.source.key = f.source.key ∧ e.target.key = f.target.key)
    ∨ (directed = false ∧ e.source.key = f.target.key ∧ e.target.key = f.source.key)

namespace Endpoints

variable {directed : Bool} {e f d : Endpoints}

theorem samePair_refl (directed : Bool) (e : Endpoints) : SamePair directed e e :=
  .inl ⟨rfl, rfl⟩

theorem SamePair.symm (h : SamePair directed e f) : SamePair directed f e := by
  obtain ⟨h₁, h₂⟩ | ⟨hd, h₁, h₂⟩ := h
  · exact .inl ⟨h₁.symm, h₂.symm⟩
  · exact .inr ⟨hd, h₂.symm, h₁.symm⟩

end Endpoints

theorem Link.joins_iff {l : Link} {directed : Bool} {f : Endpoints} :
    l.joins directed f.source.key f.target.key = true
      ↔ Endpoints.SamePair directed l.endpoints f := by
  simp [joins, Endpoints.SamePair, endpoints, and_assoc]

namespace Graph

/-! ## §2. Coherent graphs. -/

/-- The edge table and the network tell the same. -/
structure Coherent (g : Graph) : Prop where
  /-- The links are those of the edges, in order. -/
  aligned : g.links.map Link.endpoints = g.edges.entries.map (·.2)
  ends_mem : ∀ e ∈ g.edges.entries,
    g.nodes.contains e.2.source.key = true ∧ g.nodes.contains e.2.target.key = true
  apart : g.edges.entries.Pairwise fun e f => ¬e.2.SamePair g.directed f.2

variable {g g' : Graph}

theorem coherent_empty (directed : Bool) : (empty directed).Coherent where
  aligned := rfl
  ends_mem := by intro e he; cases he
  apart := List.Pairwise.nil

namespace Coherent

/-- An edge is known by its pair. -/
theorem eq_of_samePair (hg : g.Coherent) {e f : Identifier × Endpoints}
    (he : e ∈ g.edges.entries) (hf : f ∈ g.edges.entries)
    (h : e.2.SamePair g.directed f.2) : e = f := by
  by_contra hne
  have : Std.Symm fun e f : Identifier × Endpoints => ¬e.2.SamePair g.directed f.2 :=
    ⟨fun _ _ hap hsame => hap hsame.symm⟩
  exact hg.apart.forall he hf hne h

theorem exists_link (hg : g.Coherent) {e : Identifier × Endpoints} (he : e ∈ g.edges.entries) :
    ∃ l ∈ g.links, l.endpoints = e.2 := by
  have hmem : e.2 ∈ g.links.map Link.endpoints := by
    rw [hg.aligned]
    exact List.mem_map_of_mem he
  simpa using hmem

theorem exists_entry (hg : g.Coherent) {l : Link} (hl : l ∈ g.links) :
    ∃ e ∈ g.edges.entries, e.2 = l.endpoints := by
  have hmem : l.endpoints ∈ g.edges.entries.map (·.2) := by
    rw [← hg.aligned]
    exact List.mem_map_of_mem hl
  simpa using hmem

theorem linked_iff (hg : g.Coherent) {f : Endpoints} :
    g.linked f.source.key f.target.key = true
      ↔ ∃ e ∈ g.edges.entries, e.2.SamePair g.directed f := by
  unfold Network.linked Network.link?
  rw [List.find?_isSome]
  constructor
  · rintro ⟨l, hl, hjoins⟩
    obtain ⟨e, he, hends⟩ := hg.exists_entry hl
    exact ⟨e, he, by rw [hends]; exact Link.joins_iff.1 hjoins⟩
  · rintro ⟨e, he, hsame⟩
    obtain ⟨l, hl, hends⟩ := hg.exists_link he
    exact ⟨l, hl, Link.joins_iff.2 (by rw [hends]; exact hsame)⟩

theorem linked_of_mem (hg : g.Coherent) {e : Identifier × Endpoints}
    (he : e ∈ g.edges.entries) : g.linked e.2.source.key e.2.target.key = true :=
  hg.linked_iff.2 ⟨e, he, Endpoints.samePair_refl _ _⟩

/-- In a coherent graph a link joins the ends of an edge only if it is its own. -/
theorem joins_iff (hg : g.Coherent) {e : Identifier × Endpoints}
    (he : e ∈ g.edges.entries) {l : Link} (hl : l ∈ g.links) :
    l.joins g.directed e.2.source.key e.2.target.key = true ↔ l.endpoints = e.2 := by
  rw [Link.joins_iff]
  constructor
  · intro hsame
    obtain ⟨f, hf, hends⟩ := hg.exists_entry hl
    rw [← hends] at hsame ⊢
    rw [hg.eq_of_samePair hf he hsame]
  · intro hends
    rw [hends]
    exact Endpoints.samePair_refl _ _

theorem nodup_endpoints (hg : g.Coherent) : (g.links.map Link.endpoints).Nodup := by
  rw [hg.aligned, List.Nodup, List.pairwise_map]
  refine hg.apart.imp fun hapart heq => hapart ?_
  rw [heq]
  exact Endpoints.samePair_refl _ _

/-- The link that is found between the ends of an edge is that of the edge. -/
theorem link?_of_mem (hg : g.Coherent) {e : Identifier × Endpoints}
    (he : e ∈ g.edges.entries) :
    ∃ l ∈ g.links, l.endpoints = e.2
      ∧ g.link? e.2.source.key e.2.target.key = some l := by
  obtain ⟨l, hfind⟩ := Option.isSome_iff_exists.1 (hg.linked_of_mem he)
  have hl : l ∈ g.links := List.mem_of_find?_eq_some hfind
  have hjoins := List.find?_some hfind
  exact ⟨l, hl, (hg.joins_iff he hl).1 hjoins, hfind⟩

theorem endpoints_of_mem {e : Identifier × Endpoints} (he : e ∈ g.edges.entries) :
    g.endpoints e.1.value = .ok e.2 :=
  endpoints_eq_ok_iff.2 ⟨e.1.key, e.1.key?_value, Catalog.get?_of_mem he⟩

theorem edgeAttributes_of_mem (hg : g.Coherent) {e : Identifier × Endpoints}
    (he : e ∈ g.edges.entries) : ∃ a, g.edgeAttributes e.1.value = .ok a := by
  obtain ⟨l, _, _, hlink⟩ := hg.link?_of_mem he
  exact ⟨l.attributes, edgeAttributes_eq_ok_iff.2 ⟨e.2, l, endpoints_of_mem he, hlink, rfl⟩⟩

theorem not_touches_of_incident_eq_nil {k : Key} (h : g.incident k = [])
    {e : Identifier × Endpoints} (he : e ∈ g.edges.entries) :
    e.2.source.key ≠ k ∧ e.2.target.key ≠ k := by
  unfold incident at h
  rw [List.map_eq_nil_iff, List.filter_eq_nil_iff] at h
  have := h e he
  simp only [Bool.or_eq_true, beq_iff_eq, not_or] at this
  exact this

end Coherent

/-! ## §3. Changes of attributes. -/

/-- Two graphs differ at most in the attributes of their elements. -/
structure SameShape (g g' : Graph) : Prop where
  directed : g'.directed = g.directed
  nodes : g'.nodes.identifiers = g.nodes.identifiers
  edges : g'.edges = g.edges
  links : g'.links.map Link.endpoints = g.links.map Link.endpoints

theorem contains_iff_identifiers {α : Type} {c : Catalog α} {k : Key} :
    c.contains k = true ↔ ∃ name ∈ c.identifiers, name.key = k := by
  rw [Catalog.contains_iff_mem]
  simp [Catalog.identifiers]

theorem SameShape.contains (h : g.SameShape g') (k : Key) :
    g'.nodes.contains k = g.nodes.contains k := by
  rw [Bool.eq_iff_iff, contains_iff_identifiers, contains_iff_identifiers, h.nodes]

theorem Coherent.of_sameShape (hg : g.Coherent) (h : g.SameShape g') : g'.Coherent where
  aligned := by rw [h.links, h.edges]; exact hg.aligned
  ends_mem := by
    intro e he
    rw [h.edges] at he
    rw [h.contains, h.contains]
    exact hg.ends_mem e he
  apart := by rw [h.edges, h.directed]; exact hg.apart

theorem identifiers_insert_of_contains {α : Type} {c : Catalog α} {name : Identifier}
    (h : c.contains name.key = true) (a : α) : (c.insert name a).identifiers = c.identifiers := by
  unfold Catalog.identifiers
  rw [Catalog.entries_insert_of_contains h, Catalog.replaceEntry, List.map_map]
  apply List.map_congr_left
  intro e _
  by_cases he : e.1.key = name.key <;> simp [he]

theorem identifiers_modify {α : Type} (c : Catalog α) (k : Key) (f : α → α) :
    (c.modify k f).identifiers = c.identifiers := by
  unfold Catalog.modify
  split
  · next name a hentry =>
    have hmem := (Catalog.entry?_eq_some_iff.1 hentry).1
    exact identifiers_insert_of_contains (Catalog.contains_of_mem hmem) _
  · rfl

theorem map_endpoints_modifyLink (n : Network) (a b : Key) (f : Attributes → Attributes) :
    (n.modifyLink a b f).links.map Link.endpoints = n.links.map Link.endpoints := by
  unfold Network.modifyLink
  rw [List.map_map]
  apply List.map_congr_left
  intro l _
  simp only [Function.comp]
  split <;> rfl

theorem sameShape_of_putAttributes {on : ElementKind} {id : Value} {a : Attributes}
    (h : g.putAttributes on id a = .ok g') : g.SameShape g' := by
  cases on with
  | node =>
    obtain ⟨k, _, rfl⟩ := putAttributes_node_eq_ok_iff.1 h
    exact ⟨rfl, identifiers_modify _ _ _, rfl, rfl⟩
  | edge =>
    obtain ⟨ends, _, rfl⟩ := putAttributes_edge_eq_ok_iff.1 h
    exact ⟨rfl, rfl, rfl, map_endpoints_modifyLink _ _ _ _⟩

/-! ## §4. Single changes. -/

/-- A change is orderly on a graph unless it removes a node that has edges. -/
def Orderly (g : Graph) (c : Change) : Prop :=
  ∀ id k, c = .removeNode id → id.key? = some k → g.incident k = []

/-- Of the links those stay that belong to the edges that stay. -/
theorem Coherent.aligned_erase (hg : g.Coherent) {e : Identifier × Endpoints}
    (he : e ∈ g.edges.entries) :
    (g.links.filter fun l => !l.joins g.directed e.2.source.key e.2.target.key).map Link.endpoints
      = (g.edges.entries.filter fun f => f.1.key != e.1.key).map (·.2) := by
  classical
  -- on both sides those ends are filtered out that are the ends of the edge
  have hlinks : (g.links.filter fun l => !l.joins g.directed e.2.source.key e.2.target.key)
      = g.links.filter ((fun ends => !decide (ends = e.2)) ∘ Link.endpoints) := by
    apply List.filter_congr
    intro l hl
    rw [Function.comp, Bool.not_inj_iff, Bool.eq_iff_iff, hg.joins_iff he hl, decide_eq_true_iff]
  have hedges : (g.edges.entries.filter fun f => f.1.key != e.1.key)
      = g.edges.entries.filter ((fun ends => !decide (ends = e.2)) ∘ fun f => f.2) := by
    apply List.filter_congr
    intro f hf
    rw [Function.comp, bne, Bool.not_inj_iff, Bool.eq_iff_iff, beq_iff_eq, decide_eq_true_iff]
    constructor
    · intro hkey
      rw [Catalog.eq_of_mem_of_key_eq hf he hkey]
    · intro hends
      rw [hg.eq_of_samePair hf he (hends ▸ Endpoints.samePair_refl _ _)]
  rw [hlinks, hedges, ← List.filter_map, ← List.filter_map, hg.aligned]

theorem Coherent.takes (hg : g.Coherent) {c : Change} {e : Event} (h : g.Takes c g' e)
    (horderly : g.Orderly c) : g'.Coherent := by
  cases h with
  | @addNode name fresh named =>
    refine ⟨hg.aligned, ?_, hg.apart⟩
    intro e he
    obtain ⟨hs, ht⟩ := hg.ends_mem e he
    simp only [Catalog.contains_insert, hs, ht, Bool.or_true, and_self]
  | @removeNode id k key present =>
    -- no edge is at the node, so no link is lost
    have hfree := fun e he => Coherent.not_touches_of_incident_eq_nil
      (horderly id k rfl key) (e := e) he
    have hlinks : (g.links.filter fun l => !l.touches k) = g.links := by
      rw [List.filter_eq_self]
      intro l hl
      obtain ⟨e, he, hends⟩ := hg.exists_entry hl
      obtain ⟨hs, ht⟩ := hfree e he
      rw [hends] at hs ht
      simpa [Link.touches] using ⟨hs, ht⟩
    refine ⟨?_, ?_, hg.apart⟩
    · show (g.links.filter fun l => !l.touches k).map Link.endpoints = _
      rw [hlinks]
      exact hg.aligned
    · intro e he
      obtain ⟨hs, ht⟩ := hg.ends_mem e he
      obtain ⟨hks, hkt⟩ := hfree e he
      show (g.nodes.erase k).contains _ = true ∧ (g.nodes.erase k).contains _ = true
      simp [Catalog.contains_erase, hs, ht, Ne.symm hks, Ne.symm hkt]
  | @addEdge name source target fresh source_mem target_mem apart =>
    -- the new edge and the new link are both last
    have hentries := Catalog.entries_insert_of_not_contains fresh (⟨source, target⟩ : Endpoints)
    refine ⟨?_, ?_, ?_⟩
    · show (g.links ++ [_]).map Link.endpoints = (g.edges.insert name _).entries.map _
      rw [hentries, List.map_append, List.map_append, hg.aligned]
      rfl
    · intro e he
      rw [show _ = _ from hentries, List.mem_append, List.mem_singleton] at he
      obtain he | rfl := he
      · exact hg.ends_mem e he
      · exact ⟨source_mem, target_mem⟩
    · show (g.edges.insert name _).entries.Pairwise _
      rw [hentries, List.pairwise_append]
      refine ⟨hg.apart, List.pairwise_singleton _ _, ?_⟩
      intro e he f hf hsame
      rw [List.mem_singleton] at hf
      subst hf
      have hlinked := (hg.linked_iff (f := ⟨source, target⟩)).2 ⟨e, he, hsame⟩
      exact absurd (hlinked.symm.trans apart) (by simp)
  | @removeEdge id k ends key found linked =>
    obtain ⟨name, hmem, rfl⟩ := Catalog.get?_eq_some_iff.1 found
    refine ⟨hg.aligned_erase hmem, ?_, ?_⟩
    · intro e he
      exact hg.ends_mem e (List.mem_of_mem_filter he)
    · exact hg.apart.sublist List.filter_sublist
  | setAttribute read put => exact hg.of_sameShape (sameShape_of_putAttributes put)
  | removeAttribute read key found put =>
    exact hg.of_sameShape (sameShape_of_putAttributes put)
  | clear => exact coherent_empty _

/-- A change that reports nothing has done nothing; or it has made the table forget
the id of an edge whose link is gone. -/
theorem apply_idle {c : Change} {r : Except Error (Option Event)}
    (h : g.apply c = (g', r)) (hr : ∀ e, r ≠ .ok (some e)) :
    g' = g ∨ ∃ name ends, (name, ends) ∈ g.edges.entries
      ∧ g.linked ends.source.key ends.target.key = false
      ∧ g' = { g with edges := g.edges.erase name.key } := by
  -- all but two kinds of changes are either refused before they begin or reported
  have hof : ∀ {x : Except Error (Graph × Option Event)}, Outcome.ofExcept g x = (g', r) →
      (∀ g'' , x = .ok (g'', none) → g'' = g) → g' = g := by
    intro x hx hnone
    unfold Outcome.ofExcept at hx
    split at hx
    · next g'' event =>
      obtain ⟨rfl, rfl⟩ := Prod.mk.inj hx
      cases event with
      | none => exact hnone _ rfl
      | some e => exact absurd rfl (hr e)
    · exact (Prod.mk.inj hx).1.symm
  cases c with
  | addNode id =>
    refine .inl (hof h fun g'' hx => ?_)
    obtain ⟨_, _, _, _, heq⟩ := addNode_eq_ok_iff.1 hx
    exact absurd (congrArg Prod.snd heq) (by simp)
  | removeNode id =>
    refine .inl (hof h fun g'' hx => ?_)
    obtain ⟨_, _, _, heq⟩ := removeNode_eq_ok_iff.1 hx
    exact absurd (congrArg Prod.snd heq) (by simp)
  | addEdge id source target =>
    refine .inl (hof h fun g'' hx => ?_)
    obtain ⟨_, _, _, _, _, _, _, _, _, _, heq⟩ := addEdge_eq_ok_iff.1 hx
    exact absurd (congrArg Prod.snd heq) (by simp)
  | removeEdge id =>
    replace h : g.removeEdge id = (g', r) := h
    unfold removeEdge at h
    split at h
    · exact .inl (Prod.mk.inj h).1.symm
    · split at h
      · next k ends hk hends =>
        obtain ⟨j, hj, hget⟩ := endpoints_eq_ok_iff.1 hends
        obtain ⟨name, hmem, rfl⟩ := Catalog.get?_eq_some_iff.1 hget
        obtain rfl : k = name.key := by
          unfold keyOf at hk
          rw [hj] at hk
          exact (Except.ok.inj hk).symm
        cases hlinked : g.linked ends.source.key ends.target.key with
        | true =>
          rw [if_pos hlinked] at h
          exact absurd (Prod.mk.inj h).2.symm (hr _)
        | false =>
          rw [hlinked] at h
          exact .inr ⟨name, ends, hmem, hlinked, (Prod.mk.inj h).1.symm⟩
      · exact .inl (Prod.mk.inj h).1.symm
      · exact .inl (Prod.mk.inj h).1.symm
  | setAttribute on id key value =>
    refine .inl (hof h fun g'' hx => ?_)
    obtain ⟨_, _, _, _, _, _, heq⟩ := setAttribute_eq_ok_iff.1 hx
    exact absurd (congrArg Prod.snd heq) (by simp)
  | removeAttribute on id key =>
    refine .inl (hof h fun g'' hx => ?_)
    obtain ⟨_, _, _, _, ⟨_, heq⟩ | ⟨_, _, _, _, heq⟩⟩ := removeAttribute_eq_ok_iff.1 hx
    · exact (congrArg Prod.fst heq).symm
    · exact absurd (congrArg Prod.snd heq) (by simp)
  | clear =>
    rw [apply_clear] at h
    exact absurd (Prod.mk.inj h).2.symm (hr _)

/-- Where each edge has a link, a change that reports nothing has done nothing. -/
theorem apply_eq_of_linked
    (hlinked : ∀ e ∈ g.edges.entries, g.linked e.2.source.key e.2.target.key = true)
    {c : Change} {r : Except Error (Option Event)} (h : g.apply c = (g', r))
    (hr : ∀ e, r ≠ .ok (some e)) : g' = g := by
  obtain rfl | ⟨name, ends, hmem, hfree, -⟩ := apply_idle h hr
  · rfl
  · exact absurd ((hlinked _ hmem).symm.trans hfree) (by simp)

/-- A change that reports nothing has done nothing. -/
theorem Coherent.apply_eq (hg : g.Coherent) {c : Change} {r : Except Error (Option Event)}
    (h : g.apply c = (g', r)) (hr : ∀ e, r ≠ .ok (some e)) : g' = g :=
  apply_eq_of_linked (fun _ he => hg.linked_of_mem he) h hr

/-- A change either takes effect, or it leaves a coherent graph as it is and
reports nothing. -/
theorem Coherent.takes_or_eq (hg : g.Coherent) (c : Change) :
    (∃ e, g.Takes c (g.apply c).1 e)
      ∨ (g.apply c).1 = g ∧ ∀ e, (g.apply c).2 ≠ .ok (some e) := by
  by_cases h : ∃ e, (g.apply c).2 = .ok (some e)
  · obtain ⟨e, he⟩ := h
    exact .inl ⟨e, apply_eq_some_iff.1 (Prod.ext rfl he)⟩
  · have hidle : ∀ e, (g.apply c).2 ≠ .ok (some e) := fun e he => h ⟨e, he⟩
    exact .inr ⟨hg.apply_eq (r := (g.apply c).2) rfl hidle, hidle⟩

theorem Coherent.apply (hg : g.Coherent) {c : Change} (horderly : g.Orderly c) :
    (g.apply c).1.Coherent := by
  obtain ⟨e, h⟩ | ⟨h, _⟩ := hg.takes_or_eq c
  · exact hg.takes h horderly
  · rw [h]
    exact hg

/-! ## §5. Requests. -/

/-- The graph after several changes, those that fail left out. -/
def applied (g : Graph) (changes : List Change) : Graph :=
  changes.foldl (fun g c => (g.apply c).1) g

theorem orderly_of_ne {c : Change} (h : ∀ id, c ≠ .removeNode id) : g.Orderly c :=
  fun id _ hc _ => absurd hc (h id)

/-- Each of several changes is orderly on the graph that it finds. -/
def OrderlyAll (g : Graph) : List Change → Prop
  | [] => True
  | c :: rest => g.Orderly c ∧ (g.apply c).1.OrderlyAll rest

theorem orderlyAll_of_ne {changes : List Change}
    (h : ∀ c ∈ changes, ∀ id, c ≠ .removeNode id) : g.OrderlyAll changes := by
  induction changes generalizing g with
  | nil => trivial
  | cons c rest ih =>
    exact ⟨orderly_of_ne (h c List.mem_cons_self), ih fun d hd => h d (List.mem_cons_of_mem _ hd)⟩

theorem OrderlyAll.append {cs ds : List Change} (hc : g.OrderlyAll cs)
    (hd : (g.applied cs).OrderlyAll ds) : g.OrderlyAll (cs ++ ds) := by
  induction cs generalizing g with
  | nil => exact hd
  | cons c rest ih => exact ⟨hc.1, ih hc.2 hd⟩

/-- Orderly changes keep a graph coherent wherever they are interrupted. -/
theorem Coherent.applied_of_orderlyAll (hg : g.Coherent) {changes : List Change}
    (h : g.OrderlyAll changes) (n : Nat) : (g.applied (changes.take n)).Coherent := by
  induction changes generalizing g n with
  | nil =>
    rw [List.take_nil]
    exact hg
  | cons c rest ih =>
    cases n with
    | zero => exact hg
    | succ n => exact ih (hg.apply h.1) h.2 n

theorem Takes.removeEdge_found {id : Value} {e : Event} (h : g.Takes (.removeEdge id) g' e) :
    ∃ k ends, id.key? = some k ∧ g.edges.get? k = some ends := by
  cases h with
  | removeEdge key found _ => exact ⟨_, _, key, found⟩

/-- Afterwards the edge is not in the table, whether it was there or not. -/
theorem Coherent.edges_apply_removeEdge (hg : g.Coherent) (id : Identifier) :
    (g.apply (.removeEdge id.value)).1.edges = g.edges.erase id.key := by
  cases hget : g.edges.get? id.key with
  | some ends =>
    obtain ⟨name, hmem, hname⟩ := Catalog.get?_eq_some_iff.1 hget
    have htakes := Takes.removeEdge id.key?_value hget (hg.linked_of_mem hmem)
    rw [apply_eq_some_iff.2 htakes]
  | none =>
    -- the id is unknown, also to the table
    have hsame : (g.apply (.removeEdge id.value)).1 = g := by
      obtain ⟨e, h⟩ | ⟨h, _⟩ := hg.takes_or_eq (.removeEdge id.value)
      · obtain ⟨k, ends, hk, hends⟩ := h.removeEdge_found
        rw [id.key?_value] at hk
        injection hk with hk
        rw [← hk, hget] at hends
        exact absurd hends (by simp)
      · exact h
    rw [hsame, Catalog.erase_of_get?_eq_none hget]

theorem Coherent.entries_applied_removeEdge (hg : g.Coherent) (ids : List Identifier) :
    (g.applied (ids.map (.removeEdge ·.value))).edges.entries
      = g.edges.entries.filter fun e => ids.all fun id => e.1.key != id.key := by
  induction ids generalizing g with
  | nil => simp [Graph.applied]
  | cons id rest ih =>
    have hc := hg.apply (c := .removeEdge id.value) (orderly_of_ne (by simp))
    have hstep : g.applied ((id :: rest).map (.removeEdge ·.value))
        = (g.apply (.removeEdge id.value)).1.applied (rest.map (.removeEdge ·.value)) := rfl
    rw [hstep, ih hc, hg.edges_apply_removeEdge, Catalog.entries_erase, List.filter_filter]
    apply List.filter_congr
    intro e _
    rw [List.all_cons, Bool.and_comm]

/-- A node whose edges have been removed has none. -/
theorem Coherent.incident_applied_eq_nil (hg : g.Coherent) (k : Key) :
    (g.applied ((g.incident k).map (.removeEdge ·.value))).incident k = [] := by
  unfold incident
  rw [List.map_eq_nil_iff, List.filter_eq_nil_iff]
  intro e he htouches
  rw [← incident, hg.entries_applied_removeEdge, List.mem_filter, List.all_eq_true] at he
  have hmem : e.1 ∈ g.incident k := by
    unfold incident
    exact List.mem_map_of_mem (List.mem_filter.2 ⟨he.1, htouches⟩)
  exact absurd (he.2 e.1 hmem) (by simp)

theorem not_removeNode_of_mem_settings {c d : Change} {attributes : Attributes}
    (h : d ∈ c.settings attributes) (id : Value) : d ≠ .removeNode id := by
  rintro rfl
  cases c <;> simp [Change.settings] at h

/-- Any request but the removal of a node is one change, and then the settings of
attributes. -/
theorem plan_of_ne_removeNode {c : Change} (hc : ∀ id, c ≠ .removeNode id)
    (attributes : Attributes) : g.plan c attributes = .ok (c :: c.settings attributes) := by
  cases c with
  | removeNode id => exact absurd rfl (hc id)
  | _ => rfl

/-- All changes of a request are orderly: a node goes when its edges are gone. -/
theorem Coherent.orderlyAll_plan (hg : g.Coherent) {c : Change} {attributes : Attributes}
    {changes : List Change} (hplan : g.plan c attributes = .ok changes) :
    g.OrderlyAll changes := by
  by_cases hnode : ∃ id, c = .removeNode id
  · obtain ⟨id, rfl⟩ := hnode
    simp only [plan, bind_eq_ok_iff, pure_eq_ok_iff] at hplan
    obtain ⟨k, hk, rfl⟩ := hplan
    have hkey := (nodeKey_eq_ok_iff.1 hk).1
    -- first the edges, then the node, which has none by then
    refine OrderlyAll.append (orderlyAll_of_ne fun d hd id' heq => ?_) ⟨?_, trivial⟩
    · obtain ⟨e, _, rfl⟩ := List.mem_map.1 hd
      exact absurd heq (by simp)
    · intro id' k' heq hk'
      injection heq with heq
      rw [← heq, hkey] at hk'
      injection hk' with hk'
      rw [← hk']
      exact hg.incident_applied_eq_nil k
  · have hplan' := plan_of_ne_removeNode (g := g) (fun id h => hnode ⟨id, h⟩) attributes
    have hchanges : changes = c :: c.settings attributes := Except.ok.inj (hplan.symm.trans hplan')
    apply orderlyAll_of_ne
    intro d hd id heq
    rw [hchanges, List.mem_cons] at hd
    obtain rfl | hd := hd
    · exact hnode ⟨id, heq⟩
    · exact not_removeNode_of_mem_settings hd id heq

/-- **A request keeps a graph coherent wherever it is interrupted.** -/
theorem Coherent.applied_take (hg : g.Coherent) {c : Change} {attributes : Attributes}
    {changes : List Change} (hplan : g.plan c attributes = .ok changes) (n : Nat) :
    (g.applied (changes.take n)).Coherent :=
  hg.applied_of_orderlyAll (hg.orderlyAll_plan hplan) n

/-! ## §6. Reachable graphs. -/

/-- The graphs that requests lead to.  A request may be interrupted after any
number of its changes: a sink may fail. -/
inductive Reachable : Graph → Prop where
  | empty (directed : Bool) : Reachable (Graph.empty directed)
  | request {g : Graph} {c : Change} {attributes : Attributes} {changes : List Change} (n : Nat)
      (before : Reachable g) (planned : g.plan c attributes = .ok changes) :
      Reachable (g.applied (changes.take n))

theorem Reachable.coherent (h : g.Reachable) : g.Coherent := by
  induction h with
  | empty directed => exact coherent_empty directed
  | request n before planned ih => exact ih.applied_take planned n

/-- A change that removes no node is a request by itself. -/
theorem Reachable.apply (h : g.Reachable) {c : Change} (hc : ∀ id, c ≠ .removeNode id) :
    (g.apply c).1.Reachable := .request 1 h (plan_of_ne_removeNode hc .empty)

theorem Reachable.applied (h : g.Reachable) {changes : List Change}
    (hchanges : ∀ c ∈ changes, ∀ id, c ≠ .removeNode id) : (g.applied changes).Reachable := by
  induction changes generalizing g with
  | nil => exact h
  | cons c rest ih =>
    have hstep := h.apply (hchanges c List.mem_cons_self)
    exact ih hstep fun d hd => hchanges d (List.mem_cons_of_mem _ hd)

/-! ## §7. What coherence says. -/

/-- The edge table and the network agree, edge by edge and link by link. -/
structure StoresAgree (g : Graph) : Prop where
  /-- The ends of an edge are nodes, and a link joins them. -/
  backed : ∀ e ∈ g.edges.entries, g.nodes.contains e.2.source.key = true
    ∧ g.nodes.contains e.2.target.key = true
    ∧ g.linked e.2.source.key e.2.target.key = true
  /-- Each link joins the pair of exactly one edge. -/
  owned : ∀ l ∈ g.links, ∃! e, e ∈ g.edges.entries ∧ e.2.SamePair g.directed l.endpoints
  /-- No two edges join one pair. -/
  distinct : ∀ e ∈ g.edges.entries, ∀ f ∈ g.edges.entries,
    e.2.SamePair g.directed f.2 → e = f
  /-- No two links join one pair. -/
  simple : g.links.Pairwise fun l m => ¬l.endpoints.SamePair g.directed m.endpoints
  size_eq : g.edges.size = g.links.length
  /-- The attributes of every listed edge can be read. -/
  readable : ∀ ref, ∀ v ∈ g.views ref, ∃ a, g.edgeAttributes v.id = .ok a

theorem Coherent.toStoresAgree (hg : g.Coherent) : g.StoresAgree where
  backed := by
    intro e he
    obtain ⟨hs, ht⟩ := hg.ends_mem e he
    exact ⟨hs, ht, hg.linked_of_mem he⟩
  owned := by
    intro l hl
    obtain ⟨e, he, hends⟩ := hg.exists_entry hl
    refine ⟨e, ⟨he, by rw [hends]; exact Endpoints.samePair_refl _ _⟩, ?_⟩
    rintro f ⟨hf, hsame⟩
    rw [← hends] at hsame
    exact hg.eq_of_samePair hf he hsame
  distinct := fun e he f hf h => hg.eq_of_samePair he hf h
  simple := by
    have hmap : (g.links.map Link.endpoints).Pairwise fun e f => ¬e.SamePair g.directed f := by
      rw [hg.aligned, List.pairwise_map]
      exact hg.apart
    exact List.pairwise_map.1 hmap
  size_eq := by
    have hlength := congrArg List.length hg.aligned
    rw [List.length_map, List.length_map] at hlength
    exact hlength.symm
  readable := by
    intro ref v hv
    obtain ⟨e, he, rfl⟩ := List.mem_map.1 hv
    exact hg.edgeAttributes_of_mem he

end Graph
end EvolvingGraph
