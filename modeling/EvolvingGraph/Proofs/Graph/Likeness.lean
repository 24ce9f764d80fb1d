/-
  EvolvingGraph.Proofs.Graph.Likeness
  ───────────────────────────────────
  **GRAPHS THAT DIFFER IN THE ATTRIBUTES OF THEIR LINKS ONLY.**

  Two graphs have the same nodes and edges, and between each pair the same link
  but for its attributes; those are related in some way that is left open.  They
  may read alike under some names, or be listed in the same order.  A write to
  both graphs, or to one, keeps the graphs related if it keeps the attributes
  related that are written.

  Main statements:
    * `Like.setAttribute` — the same write to both graphs;
    * `Like.of_setAttribute` — a write to one of them;
    * `Like.spanningIds_eq` — graphs that read alike make the same choice.
-/
import EvolvingGraph.Proofs.Delivery.Pairing
import EvolvingGraph.Proofs.Marking.Painting

namespace EvolvingGraph

/-! ## §1. Attributes that read alike. -/

namespace Catalog

/-- Under the names that are looked at, two catalogs read alike. -/
def AgreeOn {α : Type} (seen : Key → Prop) (c c' : Catalog α) : Prop :=
  ∀ k, seen k → c'.get? k = c.get? k

variable {α : Type} {seen : Key → Prop} {c c' : Catalog α}

theorem AgreeOn.insert (h : AgreeOn seen c c') (name : Identifier) (a : α) :
    AgreeOn seen (c.insert name a) (c'.insert name a) := by
  intro k hk
  by_cases hname : k = name.key
  · rw [hname, get?_insert_self, get?_insert_self]
  · rw [get?_insert_of_ne c name a hname, get?_insert_of_ne c' name a hname, h k hk]

theorem AgreeOn.insert_unseen (h : AgreeOn seen c c') {name : Identifier} (hname : ¬seen name.key)
    (a : α) : AgreeOn seen c (c'.insert name a) := by
  intro k hk
  rw [get?_insert_of_ne c' name a (fun heq => hname (heq ▸ hk)), h k hk]

/-- Catalogs that read alike have equally many entries. -/
theorem AgreeOn.size_eq (h : AgreeOn (fun _ => True) c c') : c'.size = c.size := by
  have hle : ∀ d d' : Catalog α, (∀ k, d'.get? k = d.get? k) → d.size ≤ d'.size := by
    intro d d' hread
    have hsub : d.entries.map (·.1.key) ⊆ d'.entries.map (·.1.key) := by
      intro k hk
      obtain ⟨e, he, rfl⟩ := List.mem_map.1 hk
      obtain ⟨name, hname, hkey⟩ := get?_eq_some_iff.1 ((hread e.1.key).trans (get?_of_mem he))
      exact List.mem_map.2 ⟨(name, e.2), hname, hkey⟩
    have hlength := (List.subperm_of_subset d.nodup hsub).length_le
    rw [List.length_map, List.length_map] at hlength
    exact hlength
  exact Nat.le_antisymm (hle c' c fun k => (h k trivial).symm) (hle c c' fun k => h k trivial)

/-- Catalogs with the same names in the same order that read alike are the same. -/
theorem ext_of_identifiers (hnames : c'.identifiers = c.identifiers)
    (hread : AgreeOn (fun _ => True) c c') : c' = c := by
  apply ext
  apply List.ext_getElem
  · have hlength := congrArg List.length hnames
    simpa [identifiers] using hlength
  · intro i hi hi'
    have hname : c'.entries[i].1 = c.entries[i].1 := by
      have hget := List.getElem_of_eq hnames (by simpa [identifiers] using hi)
      simpa [identifiers] using hget
    have hvalue := hread c.entries[i].1.key trivial
    rw [get?_of_mem (List.getElem_mem hi'), ← hname, get?_of_mem (List.getElem_mem hi)] at hvalue
    exact Prod.ext hname (Option.some.inj hvalue)

end Catalog

/-! ## §2. Links of one pair. -/

theorem Link.joins_congr {l : Link} {directed : Bool} {a b x y : Key}
    (hxy : l.joins directed x y = true) (hab : l.joins directed a b = true) (m : Link) :
    m.joins directed a b = m.joins directed x y := by
  unfold joins at *
  cases directed <;> grind

namespace Network

theorem joins_of_found {n : Network} {x y : Key} {l : Link} (h : n.link? x y = some l) :
    l.joins n.directed x y = true := by
  have hjoins := List.find?_some h
  exact hjoins

/-- What is found between a pair once the link between some pair has been given
other attributes. -/
theorem attributes_modifyLink (n : Network) (a b x y : Key) (c : Attributes) :
    ((n.modifyLink a b fun _ => c).link? x y).map (·.attributes)
      = (n.link? x y).map fun l => if l.joins n.directed a b then c else l.attributes := by
  rw [Graph.link?_modifyLink, Option.map_map]
  congr 1
  funext l
  simp only [Function.comp]
  split <;> rfl

end Network

namespace Graph

/-! ## §3. Like graphs. -/

/-- A graph is another one but for the attributes of its links; those are related. -/
structure Like (related : Attributes → Attributes → Prop) (g g' : Graph) : Prop where
  directed : g'.directed = g.directed
  nodes : g'.nodes = g.nodes
  edges : g'.edges = g.edges
  endpoints : g'.links.map Link.endpoints = g.links.map Link.endpoints
  links : ∀ a b, Option.Rel related ((g.link? a b).map (·.attributes))
    ((g'.link? a b).map (·.attributes))

variable {related : Attributes → Attributes → Prop} {g g' g'' : Graph}

namespace Like

theorem refl (h : ∀ a b l, g.link? a b = some l → related l.attributes l.attributes) :
    Like related g g := by
  refine ⟨rfl, rfl, rfl, rfl, fun a b => ?_⟩
  cases hl : g.link? a b with
  | none => exact .none
  | some l => exact .some (h a b l hl)

theorem mono {related' : Attributes → Attributes → Prop} (h : Like related g g')
    (himp : ∀ a a', related a a' → related' a a') : Like related' g g' := by
  refine ⟨h.directed, h.nodes, h.edges, h.endpoints, fun a b => ?_⟩
  have hlink := h.links a b
  revert hlink
  generalize (g.link? a b).map (·.attributes) = x
  generalize (g'.link? a b).map (·.attributes) = x'
  rintro (hrelated | _)
  · exact .some (himp _ _ hrelated)
  · exact .none

theorem sameShape (h : Like related g g') : g.SameShape g' :=
  ⟨h.directed, by rw [h.nodes], h.edges, h.endpoints⟩

theorem endpoints_eq (h : Like related g g') (id : Value) : g'.endpoints id = g.endpoints id := by
  unfold Graph.endpoints
  rw [h.edges]

theorem view_eq (h : Like related g g') (ref : GraphRef) (id : Value) :
    g'.view ref id = g.view ref id := by
  unfold Graph.view
  rw [h.endpoints_eq]

/-- The attributes of an edge are related, or there are none in either graph. -/
theorem edgeAttributes (h : Like related g g') (id : Value) :
    EndAlike Eq related (g.edgeAttributes id) (g'.edgeAttributes id) := by
  unfold Graph.edgeAttributes
  rw [h.endpoints_eq]
  refine (EndAlike.of_eq fun _ => rfl).bind ?_
  rintro ends _ rfl
  have hlink := h.links ends.source.key ends.target.key
  rcases hl : g.link? ends.source.key ends.target.key with _ | l <;>
    rcases hl' : g'.link? ends.source.key ends.target.key with _ | l' <;>
    rw [hl, hl'] at hlink <;> cases hlink
  · exact .error rfl
  · next hrelated => exact .ok hrelated

/-! ## §4. Writing. -/

/-- Related attributes are put on the link of one pair in both graphs. -/
theorem modifyLink (h : Like related g g') (a b : Key) {c c' : Attributes} (hc : related c c') :
    Like related { g with toNetwork := g.modifyLink a b fun _ => c }
      { g' with toNetwork := g'.modifyLink a b fun _ => c' } := by
  refine ⟨h.directed, h.nodes, h.edges, ?_, fun x y => ?_⟩
  · exact (map_endpoints_modifyLink _ _ _ _).trans
      (h.endpoints.trans (map_endpoints_modifyLink _ _ _ _).symm)
  · show Option.Rel related (((g.modifyLink a b fun _ => c).link? x y).map _)
      (((g'.modifyLink a b fun _ => c').link? x y).map _)
    rw [Network.attributes_modifyLink, Network.attributes_modifyLink, h.directed]
    have hlink := h.links x y
    rcases hl : g.link? x y with _ | l <;> rcases hl' : g'.link? x y with _ | l' <;>
      rw [hl, hl'] at hlink <;> cases hlink
    · exact .none
    · next hrelated =>
      -- both links join the pair that is asked for, so both are written or neither is
      have hjoins := Network.joins_of_found hl
      have hjoins' := Network.joins_of_found hl'
      rw [h.directed] at hjoins'
      simp only [Option.map_some]
      by_cases hab : l.joins g.directed a b = true
      · rw [if_pos hab, if_pos ((Link.joins_congr hjoins hab l').trans hjoins')]
        exact .some hc
      · rw [if_neg hab, if_neg fun hab' => hab ((Link.joins_congr hjoins' hab' l).trans hjoins)]
        exact .some hrelated

/-- The same attribute is written in both graphs, or it is written in neither. -/
theorem setAttribute (h : Like related g g')
    (hwrite : ∀ a a' name v, related a a' → related (a.insert name v) (a'.insert name v))
    (id name v : Value) : EndAlike Eq (fun x x' => Like related x.1 x'.1)
      (g.setAttribute .edge id name v) (g'.setAttribute .edge id name v) := by
  have hput : ∀ a a', related a a' → EndAlike Eq (Like related) (g.putAttributes .edge id a)
      (g'.putAttributes .edge id a') := by
    intro a a' ha
    show EndAlike Eq _ (g.endpoints id >>= _) (g'.endpoints id >>= _)
    rw [h.endpoints_eq]
    refine (EndAlike.of_eq fun _ => rfl).bind ?_
    rintro ends _ rfl
    exact .ok (h.modifyLink _ _ ha)
  unfold Graph.setAttribute
  refine EndAlike.bind (h.edgeAttributes id) ?_
  intro a a' ha
  refine (EndAlike.of_eq fun _ => rfl).bind ?_
  rintro key _ rfl
  exact (hput _ _ (hwrite a a' key v ha)).bind fun _ _ hx => .ok hx

/-- An attribute is written in the second graph. -/
theorem of_setAttribute (h : Like related g g') {name : Identifier} {v : Value}
    (hkeep : ∀ a a', related a a' → related a (a'.insert name v)) {id : Value}
    {r : Graph × Option Event} (hset : g'.setAttribute .edge id name.value v = .ok r) :
    Like related g r.1 := by
  obtain ⟨c, hc, key, hkey, graph, hput, rfl⟩ := setAttribute_eq_ok_iff.1 hset
  obtain rfl : key = name := by
    have := Identifier.ofValue?_eq_some_iff.2 hkey
    rw [Identifier.ofValue?_eq_some_iff.2 rfl] at this
    exact (Option.some.inj this).symm
  obtain ⟨ends, hends, rfl⟩ := putAttributes_edge_eq_ok_iff.1 hput
  obtain ⟨ends', l₀, hends', hl₀, rfl⟩ := edgeAttributes_eq_ok_iff.1 hc
  obtain rfl : ends' = ends := Except.ok.inj (hends'.symm.trans hends)
  refine ⟨h.directed, h.nodes, h.edges, ?_, fun x y => ?_⟩
  · exact (map_endpoints_modifyLink _ _ _ _).trans h.endpoints
  · show Option.Rel related _ (((g'.modifyLink _ _ fun _ => _).link? x y).map _)
    rw [Network.attributes_modifyLink]
    have hlink := h.links x y
    rcases hl : g.link? x y with _ | l <;> rcases hl' : g'.link? x y with _ | l' <;>
      rw [hl, hl'] at hlink <;> cases hlink
    · exact .none
    · next hrelated =>
      simp only [Option.map_some]
      split
      · next hab =>
        -- the link that is asked for is the one that is written
        have hsame : g'.link? x y = g'.link? ends'.source.key ends'.target.key := by
          have hpair := Link.joins_congr (Network.joins_of_found hl') hab
          unfold Network.link?
          congr 1
          funext m
          exact (hpair m).symm
        rw [hl', hl₀] at hsame
        rw [← Option.some.inj hsame]
        exact .some (hkeep _ _ hrelated)
      · exact .some hrelated

/-- An attribute is written in the second graph, or the attempt fails. -/
theorem apply_setAttribute (h : Like related g g') {name : Identifier} {v : Value}
    (hkeep : ∀ a a', related a a' → related a (a'.insert name v)) (id : Value) :
    Like related g (g'.apply (.setAttribute .edge id name.value v)).1 := by
  show Like related g (Outcome.ofExcept g' _).1
  cases hset : g'.setAttribute .edge id name.value v with
  | error e => exact h
  | ok r => exact h.of_setAttribute hkeep hset

/-! ## §5. Graphs that read alike. -/

/-- Graphs that differ under one name only read alike if all links have the same
value under this name. -/
theorem of_written {k : Key} {v : Value} (h : Like (Catalog.AgreeOn (· ≠ k)) g g')
    (hv : ∀ a b l, g.link? a b = some l → l.attributes.get? k = some v)
    (hv' : ∀ a b l, g'.link? a b = some l → l.attributes.get? k = some v) :
    Like (Catalog.AgreeOn fun _ => True) g g' := by
  refine ⟨h.directed, h.nodes, h.edges, h.endpoints, fun a b => ?_⟩
  have hlink := h.links a b
  rcases hl : g.link? a b with _ | l <;> rcases hl' : g'.link? a b with _ | l' <;>
    rw [hl, hl'] at hlink <;> cases hlink
  · exact .none
  · next hagree =>
    refine .some fun j _ => ?_
    by_cases hj : j = k
    · rw [hj, hv a b l hl, hv' a b l' hl']
    · exact hagree j hj

theorem readAttribute_eq (h : Like (Catalog.AgreeOn fun _ => True) g g')
    (id name default : Value) :
    g'.readAttribute .edge id name default = g.readAttribute .edge id name default := by
  apply EndAlike.eq
  unfold Graph.readAttribute
  refine EndAlike.bind (h.edgeAttributes id) ?_
  intro a a' ha
  refine (EndAlike.of_eq fun _ => rfl).bind ?_
  rintro k _ rfl
  rw [ha k trivial]
  exact .ok rfl

/-- **An algorithm makes the same choice on graphs that read alike, or fails for
the same reason.** -/
theorem spanningIds_eq (h : Like (Catalog.AgreeOn fun _ => True) g g') (algorithm : Algorithm)
    (mode : Forest.Mode) (name : Value) :
    g'.spanningIds algorithm mode name = g.spanningIds algorithm mode name := by
  have hweight : ∀ id, g'.edgeWeight id name = g.edgeWeight id name := by
    intro id
    unfold edgeWeight
    rw [h.readAttribute_eq]
  have hbundle : g'.bundleEdge name = g.bundleEdge name := by
    funext bundles e
    unfold bundleEdge
    simp only [hweight]
  unfold spanningIds weightedEdges choose
  rw [hbundle, h.edges, h.nodes]

/-- Graphs that read alike differ in nothing if their attributes have the same
names in the same order as those of a third one. -/
theorem exact_of_identifiers
    (hfirst : Like (fun a a' => a'.identifiers = a.identifiers) g g')
    (hsecond : Like (fun a a' => a'.identifiers = a.identifiers) g g'')
    (h : Like (Catalog.AgreeOn fun _ => True) g' g'') : Like Eq g' g'' := by
  refine ⟨h.directed, h.nodes, h.edges, h.endpoints, fun a b => ?_⟩
  have hlink := h.links a b
  have hnames := hfirst.links a b
  have hnames' := hsecond.links a b
  revert hlink hnames hnames'
  generalize (g.link? a b).map (·.attributes) = x
  generalize (g'.link? a b).map (·.attributes) = x'
  generalize (g''.link? a b).map (·.attributes) = x''
  rintro (hread | _)
  · rintro (hnames | _) (hnames' | _)
    exact .some (Catalog.ext_of_identifiers (hnames'.trans hnames.symm) hread).symm
  · intros
    exact .none

/-- Graphs that differ in nothing are the same, if one is coherent. -/
theorem eq_of_coherent (hg : g.Coherent) (h : Like Eq g g') : g' = g := by
  have hg' := hg.of_sameShape h.sameShape
  have hfound : ∀ {graph : Graph}, graph.Coherent → ∀ l ∈ graph.links,
      graph.link? l.source.key l.target.key = some l := by
    intro graph hgraph l hl
    obtain ⟨e, he, hends⟩ := hgraph.exists_entry hl
    obtain ⟨m, hm, hm', hfind⟩ := hgraph.link?_of_mem he
    obtain rfl := List.inj_on_of_nodup_map hgraph.nodup_endpoints hm hl (hm'.trans hends)
    rw [hends] at hfind
    exact hfind
  have hlinks : g'.links = g.links := by
    have hlength := congrArg List.length h.endpoints
    rw [List.length_map, List.length_map] at hlength
    refine List.ext_getElem hlength fun i hi' hi => ?_
    have hends : g'.links[i].endpoints = g.links[i].endpoints := by
      have hget := List.getElem_of_eq h.endpoints (by simpa using hi')
      simpa using hget
    have hsource : g'.links[i].source = g.links[i].source := congrArg Endpoints.source hends
    have htarget : g'.links[i].target = g.links[i].target := congrArg Endpoints.target hends
    have hlink := h.links g.links[i].source.key g.links[i].target.key
    rw [hfound hg _ (List.getElem_mem hi), ← hsource, ← htarget,
      hfound hg' _ (List.getElem_mem hi')] at hlink
    cases hlink with
    | some hattributes =>
      cases hl : g.links[i]
      cases hl' : g'.links[i]
      simp_all
  obtain ⟨⟨_, _, _⟩, _⟩ := g
  obtain ⟨⟨_, _, _⟩, _⟩ := g'
  obtain rfl := h.directed
  obtain rfl := h.nodes
  obtain rfl := h.edges
  obtain rfl := hlinks
  rfl

end Like

/-- Once all edges have been written, all links have the value. -/
theorem Painted.get?_link {name : Identifier} {v : Value} (hg : g.Coherent)
    (h : Painted g g' (writing name v g.edges.identifiers)) {a b : Key} {l : Link}
    (hl : g'.link? a b = some l) : l.attributes.get? name.key = some v := by
  have hg' := hg.of_sameShape h.sameShape
  have hmem : l ∈ g'.links := List.mem_of_find?_eq_some hl
  obtain ⟨e, he, hends⟩ := hg'.exists_entry hmem
  obtain ⟨m, hm, hm', hfind⟩ := hg'.link?_of_mem he
  obtain rfl := List.inj_on_of_nodup_map hg'.nodup_endpoints hm hmem (hm'.trans hends)
  have hread : g'.edgeAttributes e.1.value = .ok m.attributes :=
    edgeAttributes_eq_ok_iff.2 ⟨e.2, m, Coherent.endpoints_of_mem he, hfind, rfl⟩
  rw [h.edges] at he
  obtain ⟨c, hc⟩ := hg.edgeAttributes_of_mem he
  rw [h.attributes e he c hc] at hread
  have hwritten : e.1.key ∈ g.edges.identifiers.map (·.key) :=
    List.mem_map_of_mem (List.mem_map_of_mem he)
  rw [← Except.ok.inj hread, writing, if_pos hwritten, Catalog.get?_insert_self]

end Graph
end EvolvingGraph
