/-
  EvolvingGraph.Proofs.Forest.Components
  ──────────────────────────────────────
  **HOW MANY COMPONENTS EDGES LEAVE.**

  Which nodes are joined can be kept as a labelling: equal labels for joined
  nodes.  One more edge changes nothing about the components if its ends have
  one label, and unites two of them otherwise.  So edges without a cycle and
  their components count the nodes together, and no set of edges without a
  cycle is larger than one that joins at least as much.

  Main statements:
    * `Labels.merge` — the labelling after one more edge;
    * `Acyclic.length_add_componentCount` — edges and components of a forest;
    * `Acyclic.length_le` — a forest is no larger than edges that join as much.
-/
import EvolvingGraph.Proofs.Forest.Walk

namespace EvolvingGraph.Forest

variable {V E : Type} {ends : E → Sym2 V} {es fs : List E} {e : E} {a b : V} {nodes : List V}

/-! ## §1. Components. -/

/-- The nodes that are joined to a node. -/
def component (ends : E → Sym2 V) (es : List E) (a : V) : Set V := {b | Joined ends es a b}

theorem component_eq_iff : component ends es a = component ends es b ↔ Joined ends es a b := by
  constructor
  · intro h
    have hb : b ∈ component ends es b := Joined.refl ends es b
    rw [← h] at hb
    exact hb
  · intro h
    ext x
    exact ⟨fun hx => h.symm.trans hx, fun hx => h.trans hx⟩

/-- The number of components into which some nodes fall. -/
noncomputable def componentCount (ends : E → Sym2 V) (es : List E) (nodes : List V) : Nat :=
  (component ends es '' {a | a ∈ nodes}).ncard

/-- The nodes that are joined to some node of a set. -/
def widened (ends : E → Sym2 V) (es : List E) (C : Set V) : Set V :=
  {b | ∃ a ∈ C, Joined ends es a b}

theorem widened_component (h : ∀ a b, Joined ends es a b → Joined ends fs a b) (a : V) :
    widened ends fs (component ends es a) = component ends fs a := by
  ext b
  constructor
  · rintro ⟨c, hac, hcb⟩
    exact (h a c hac).trans hcb
  · exact fun hab => ⟨a, .refl ends es a, hab⟩

/-- Edges that join more leave fewer components. -/
theorem componentCount_le (h : ∀ a b, Joined ends es a b → Joined ends fs a b) :
    componentCount ends fs nodes ≤ componentCount ends es nodes := by
  -- the components of the one graph are images of those of the other
  have himage : component ends fs '' {a | a ∈ nodes}
      = widened ends fs '' (component ends es '' {a | a ∈ nodes}) := by
    rw [Set.image_image]
    exact Set.image_congr fun a _ => (widened_component h a).symm
  unfold componentCount
  rw [himage]
  exact Set.ncard_image_le ((List.finite_toSet nodes).image _)

/-- There is one component exactly if there is a node and all nodes are joined. -/
theorem componentCount_eq_one_iff : componentCount ends es nodes = 1
    ↔ nodes ≠ [] ∧ ∀ a ∈ nodes, ∀ b ∈ nodes, Joined ends es a b := by
  unfold componentCount
  rw [Set.ncard_eq_one]
  constructor
  · rintro ⟨C, hC⟩
    have hsame : ∀ a ∈ nodes, component ends es a = C := fun a ha =>
      Set.eq_of_mem_singleton (hC ▸ Set.mem_image_of_mem _ ha)
    refine ⟨?_, fun a ha b hb => component_eq_iff.1 ((hsame a ha).trans (hsame b hb).symm)⟩
    rintro rfl
    exact Set.singleton_ne_empty C (by simpa using hC.symm)
  · rintro ⟨hnodes, hjoined⟩
    obtain ⟨a, ha⟩ := List.exists_mem_of_ne_nil nodes hnodes
    refine ⟨component ends es a, Set.eq_singleton_iff_unique_mem.2 ⟨⟨a, ha, rfl⟩, ?_⟩⟩
    rintro C ⟨b, hb, rfl⟩
    exact component_eq_iff.2 (hjoined b hb a ha)

/-- All ends of the edges are among the nodes. -/
def Within (ends : E → Sym2 V) (nodes : List V) (es : List E) : Prop :=
  ∀ e ∈ es, ∀ a ∈ ends e, a ∈ nodes

theorem Within.mono (h : Within ends nodes fs) (hsub : es ⊆ fs) : Within ends nodes es :=
  fun e he => h e (hsub he)

/-! ## §2. Labels. -/

/-- Equal labels for joined nodes, different ones for others. -/
def Labels (ends : E → Sym2 V) (es : List E) (label : V → V) : Prop :=
  ∀ a b, label a = label b ↔ Joined ends es a b

theorem labels_nil : Labels ends [] id := fun _ _ => joined_nil_iff.symm

variable [DecidableEq V] {label : V → V}

/-- After one more edge, the label of its first end gives way to that of its second. -/
theorem Labels.merge (h : Labels ends es label) (he : ends e = s(a, b)) :
    Labels ends (e :: es) fun k => if label k = label a then label b else label k := by
  intro x y
  show (if label x = label a then label b else label x)
    = (if label y = label a then label b else label y) ↔ _
  rw [joined_cons_iff he, ← h x y, ← h x a, ← h b y, ← h x b, ← h a y]
  -- what counts is whose label is the one that gives way
  by_cases hx : label x = label a <;> by_cases hy : label y = label a
  · simp [hx, hy]
  · rw [if_pos hx, if_neg hy]
    constructor
    · exact fun hby => .inr (.inl ⟨hx, hby⟩)
    · rintro (hxy | ⟨_, hby⟩ | ⟨_, hay⟩)
      · exact absurd (hxy.symm.trans hx) hy
      · exact hby
      · exact absurd hay.symm hy
  · rw [if_neg hx, if_pos hy]
    constructor
    · exact fun hxb => .inr (.inr ⟨hxb, hy.symm⟩)
    · rintro (hxy | ⟨hxa, _⟩ | ⟨hxb, _⟩)
      · exact absurd (hxy.trans hy) hx
      · exact absurd hxa hx
      · exact hxb
  · rw [if_neg hx, if_neg hy]
    constructor
    · exact .inl
    · rintro (hxy | ⟨hxa, _⟩ | ⟨_, hay⟩)
      · exact hxy
      · exact absurd hxa hx
      · exact absurd hay.symm hy

/-- The components are counted by their labels. -/
theorem Labels.componentCount_eq (h : Labels ends es label) :
    componentCount ends es nodes = (nodes.toFinset.image label).card := by
  have hcoe : ((nodes.toFinset.image label : Finset V) : Set V) = label '' {a | a ∈ nodes} := by
    ext x
    simp
  rw [componentCount, ← Set.ncard_coe_finset, hcoe]
  -- both count the nodes up to the same equivalence
  refine Set.ncard_congr (fun C hC => label hC.choose) ?_ ?_ ?_
  · intro C hC
    exact ⟨_, hC.choose_spec.1, rfl⟩
  · intro C D hC hD hlabel
    have hjoined := (h _ _).1 hlabel
    rw [← hC.choose_spec.2, ← hD.choose_spec.2]
    exact component_eq_iff.2 hjoined
  · rintro x ⟨a, ha, rfl⟩
    have hC : component ends es a ∈ component ends es '' {a | a ∈ nodes} := ⟨a, ha, rfl⟩
    exact ⟨_, hC, (h _ _).2 (component_eq_iff.1 hC.choose_spec.2)⟩

theorem exists_labels (ends : E → Sym2 V) (es : List E) : ∃ label, Labels ends es label := by
  induction es with
  | nil => exact ⟨id, labels_nil⟩
  | cons e es ih =>
    obtain ⟨label, hlabel⟩ := ih
    obtain ⟨a, b, he⟩ := exists_ends ends e
    exact ⟨_, hlabel.merge he⟩

/-! ## §3. Counting. -/

theorem componentCount_nil (h : nodes.Nodup) : componentCount ends [] nodes = nodes.length := by
  rw [labels_nil.componentCount_eq, Finset.image_id, List.toFinset_card_of_nodup h]

theorem componentCount_cons_of_joined (he : ends e = s(a, b)) (hab : Joined ends es a b) :
    componentCount ends (e :: es) nodes = componentCount ends es nodes := by
  obtain ⟨label, hlabel⟩ := exists_labels ends es
  -- the label that gives way is the one that it gives way to
  have hsame : (fun k => if label k = label a then label b else label k) = label := by
    funext k
    split
    · next hk => exact ((hlabel a b).2 hab).symm.trans hk.symm
    · rfl
  rw [(hlabel.merge he).componentCount_eq, hlabel.componentCount_eq, hsame]

theorem componentCount_cons_of_not_joined (he : ends e = s(a, b)) (ha : a ∈ nodes)
    (hb : b ∈ nodes) (hab : ¬Joined ends es a b) :
    componentCount ends (e :: es) nodes + 1 = componentCount ends es nodes := by
  obtain ⟨label, hlabel⟩ := exists_labels ends es
  have hne : label b ≠ label a := fun h => hab ((hlabel a b).1 h.symm)
  -- one label is gone, that of the first end, and no other
  have herase : nodes.toFinset.image (fun k => if label k = label a then label b else label k)
      = (nodes.toFinset.image label).erase (label a) := by
    ext x
    simp only [Finset.mem_image, List.mem_toFinset, Finset.mem_erase]
    constructor
    · rintro ⟨k, hk, rfl⟩
      by_cases hka : label k = label a
      · rw [if_pos hka]
        exact ⟨hne, b, hb, rfl⟩
      · rw [if_neg hka]
        exact ⟨hka, k, hk, rfl⟩
    · rintro ⟨hx, k, hk, rfl⟩
      exact ⟨k, hk, if_neg hx⟩
  have hmem : label a ∈ nodes.toFinset.image label :=
    Finset.mem_image_of_mem label (List.mem_toFinset.2 ha)
  rw [(hlabel.merge he).componentCount_eq, hlabel.componentCount_eq, herase]
  exact Finset.card_erase_add_one hmem

/-- Edges without a cycle and the components that they leave count the nodes. -/
theorem Acyclic.length_add_componentCount (h : Acyclic ends es) (hes : es.Nodup)
    (hwithin : Within ends nodes es) (hnodes : nodes.Nodup) :
    es.length + componentCount ends es nodes = nodes.length := by
  induction es with
  | nil => rw [componentCount_nil hnodes, List.length_nil, Nat.zero_add]
  | cons e es ih =>
    obtain ⟨a, b, he⟩ := exists_ends ends e
    obtain ⟨hfresh, hes⟩ := List.nodup_cons.1 hes
    obtain ⟨hab, hacyclic⟩ := (acyclic_cons_iff he hfresh).1 h
    have hends := hwithin e List.mem_cons_self
    rw [he] at hends
    -- the edge joins two components of the others: one edge more, one component fewer
    have hcount := componentCount_cons_of_not_joined he (hends a (Sym2.mem_mk_left a b))
      (hends b (Sym2.mem_mk_right a b)) hab
    have hrest := ih hacyclic hes (hwithin.mono (List.subset_cons_self e es))
    rw [List.length_cons]
    omega

/-- Edges and the components that they leave are never fewer than the nodes. -/
theorem length_le_length_add_componentCount (hwithin : Within ends nodes es)
    (hnodes : nodes.Nodup) : nodes.length ≤ es.length + componentCount ends es nodes := by
  induction es with
  | nil => rw [componentCount_nil hnodes, List.length_nil, Nat.zero_add]
  | cons e es ih =>
    obtain ⟨a, b, he⟩ := exists_ends ends e
    have hrest := ih (hwithin.mono (List.subset_cons_self e es))
    have hends := hwithin e List.mem_cons_self
    rw [he] at hends
    rw [List.length_cons]
    -- an edge takes away one component at most
    by_cases hab : Joined ends es a b
    · rw [componentCount_cons_of_joined he hab]
      omega
    · have hcount := componentCount_cons_of_not_joined he (hends a (Sym2.mem_mk_left a b))
        (hends b (Sym2.mem_mk_right a b)) hab
      omega

/-- Edges without a cycle are no more than edges that join all their ends. -/
theorem Acyclic.length_le (h : Acyclic ends es) (hes : es.Nodup) (hwithin : Within ends nodes es)
    (hwithin' : Within ends nodes fs) (hnodes : nodes.Nodup)
    (hjoined : ∀ e ∈ es, ∀ a b, ends e = s(a, b) → Joined ends fs a b) :
    es.length ≤ fs.length := by
  have hcount := h.length_add_componentCount hes hwithin hnodes
  have hcount' := length_le_length_add_componentCount hwithin' hnodes
  have hle : componentCount ends fs nodes ≤ componentCount ends es nodes :=
    componentCount_le fun a b hab => hab.of_forall_joined hjoined
  omega

end EvolvingGraph.Forest
