/-
  EvolvingGraph.Proofs.Forest.Growth
  ──────────────────────────────────
  **TREES GROWN FROM NODES MAKE A BEST FOREST, WHATEVER IS LEFT OPEN.**

  From the nodes reached, an edge with the most wanted weight is taken that
  leads on; when none leads on, growth goes on from any node that has not been
  reached.  The relation `Growth` leaves open which of several equal edges is
  taken and from which node growth goes on.  What carries the proof is known for
  each bound on the grades: edges inside the nodes reached, and the ends reached
  of all edges that lead on, are joined by edges taken within the bound.

  Main statements:
    * `Grown.take`, `Grown.restart` — what one step of growth keeps;
    * `Growth.isBestForest` — grown trees make a best forest;
    * `growth_prim` — the builder grows trees in one of these ways.
-/
import EvolvingGraph.Proofs.Forest.Scan
import EvolvingGraph.Forest.Prim

namespace EvolvingGraph.Forest

variable {mode : Mode} {edges chosen rest : List WeightedEdge} {nodes : List Key}
  {reached : Set Key} {e f : WeightedEdge} {u v x y : Key}

/-! ## §1. Growth. -/

/-- An edge leads from a node reached to one that is not. -/
structure Leads (reached : Set Key) (e : WeightedEdge) (u v : Key) : Prop where
  ends : e.ends = s(u, v)
  left : u ∈ reached
  right : v ∉ reached

/-- The ways to grow on from the nodes reached, with the edges taken on the way. -/
inductive Growth (mode : Mode) (edges : List WeightedEdge) (nodes : List Key) :
    Set Key → List WeightedEdge → Prop where
  | done {reached : Set Key} (all : ∀ k ∈ nodes, k ∈ reached) : Growth mode edges nodes reached []
  | take {reached : Set Key} {e : WeightedEdge} {u v : Key} {rest : List WeightedEdge}
      (offered : e ∈ edges) (leads : Leads reached e u v)
      (best : ∀ f ∈ edges, ∀ x y, Leads reached f x y → e.grade mode ≤ f.grade mode)
      (more : Growth mode edges nodes (insert v reached) rest) :
      Growth mode edges nodes reached (e :: rest)
  | restart {reached : Set Key} {k : Key} {rest : List WeightedEdge}
      (stuck : ∀ f ∈ edges, ∀ x y, ¬Leads reached f x y) (start : k ∈ nodes) (new : k ∉ reached)
      (more : Growth mode edges nodes (insert k reached) rest) :
      Growth mode edges nodes reached rest

/-! ## §2. What is known while trees grow. -/

/-- What is known of the nodes reached and the edges chosen so far. -/
structure Grown (mode : Mode) (edges : List WeightedEdge) (reached : Set Key)
    (chosen : List WeightedEdge) : Prop where
  offered : chosen ⊆ edges
  closed : ∀ e ∈ chosen, ∀ a ∈ e.ends, a ∈ reached
  nodup : chosen.Nodup
  acyclic : Acyclic WeightedEdge.ends chosen
  /-- Edges inside are joined by edges chosen within any bound that they keep. -/
  inside : ∀ t, ∀ f ∈ edges, f.grade mode ≤ t → ∀ x y, f.ends = s(x, y) → x ∈ reached →
    y ∈ reached → Joined WeightedEdge.ends (upTo (·.grade mode) t chosen) x y
  /-- So are the ends reached of any two edges that lead on. -/
  border : ∀ t, ∀ f ∈ edges, ∀ g ∈ edges, f.grade mode ≤ t → g.grade mode ≤ t →
    ∀ x x' y y', Leads reached f x x' → Leads reached g y y' →
    Joined WeightedEdge.ends (upTo (·.grade mode) t chosen) x y

namespace Grown

theorem empty (mode : Mode) (edges : List WeightedEdge) : Grown mode edges ∅ [] where
  offered := List.nil_subset edges
  closed := by simp
  nodup := List.nodup_nil
  acyclic := acyclic_nil
  inside := fun _ _ _ _ x _ _ hx => absurd hx (Set.notMem_empty x)
  border := fun _ _ _ _ _ _ _ x _ _ _ hf => absurd hf.left (Set.notMem_empty x)

/-- A walk along chosen edges stays among the nodes reached. -/
theorem mem_of_joined (h : Grown mode edges reached chosen) (hu : u ∈ reached)
    (huv : Joined WeightedEdge.ends chosen u v) : v ∈ reached := by
  obtain ⟨walk, hwalk, hmem⟩ := huv
  induction hwalk with
  | nil => exact hu
  | @cons a b c e walk first more ih =>
    have hb : b ∈ e.ends := by
      rw [first]
      exact Sym2.mem_mk_right a b
    exact ih (h.closed e (hmem e List.mem_cons_self) b hb)
      fun d hd => hmem d (List.mem_cons_of_mem _ hd)

/-- An edge that leads on is not among the chosen ones. -/
theorem not_mem_of_leads (h : Grown mode edges reached chosen) (hlead : Leads reached e u v) :
    e ∉ chosen := by
  intro he
  apply hlead.right
  apply h.closed e he
  rw [hlead.ends]
  exact Sym2.mem_mk_right u v

/-- An edge that leads on after one more node has been reached led on before,
or starts at the new node. -/
theorem leads_of_leads_insert (hlead : Leads (insert v reached) f x y) :
    x = v ∨ Leads reached f x y := by
  obtain hx | hx := Set.mem_insert_iff.1 hlead.left
  · exact .inl hx
  · exact .inr ⟨hlead.ends, hx, fun hy => hlead.right (Set.mem_insert_of_mem v hy)⟩

/-- **An edge with the most wanted weight may be taken.** -/
theorem take (h : Grown mode edges reached chosen) (he : e ∈ edges) (hlead : Leads reached e u v)
    (hbest : ∀ f ∈ edges, ∀ x y, Leads reached f x y → e.grade mode ≤ f.grade mode) :
    Grown mode edges (insert v reached) (e :: chosen) := by
  have hfresh := h.not_mem_of_leads hlead
  have hmore : ∀ t, upTo (·.grade mode) t chosen ⊆ upTo (·.grade mode) t (e :: chosen) :=
    fun t => upTo_subset_upTo le_rfl (List.subset_cons_self e chosen)
  -- an end reached of an edge that led on before is joined to the new node
  have hborder : ∀ t, ∀ f ∈ edges, f.grade mode ≤ t → ∀ x y, Leads reached f x y →
      Joined WeightedEdge.ends (upTo (·.grade mode) t (e :: chosen)) x v := by
    intro t f hf hft x y hfx
    have het : e.grade mode ≤ t := (hbest f hf x y hfx).trans hft
    have hxu := h.border t f hf e he hft het x y u v hfx hlead
    exact (hxu.mono (hmore t)).trans (.of_mem (mem_upTo.2 ⟨List.mem_cons_self, het⟩) hlead.ends)
  -- the new node may be either end of an edge that is inside now
  refine ⟨?_, ?_, List.nodup_cons.2 ⟨hfresh, h.nodup⟩, ?_, ?_, ?_⟩
  · exact List.cons_subset.2 ⟨he, h.offered⟩
  · intro d hd a ha
    obtain rfl | hd := List.mem_cons.1 hd
    · rw [hlead.ends, Sym2.mem_iff] at ha
      obtain rfl | rfl := ha
      · exact Set.mem_insert_of_mem v hlead.left
      · exact Set.mem_insert a reached
    · exact Set.mem_insert_of_mem v (h.closed d hd a ha)
  · refine (acyclic_cons_iff hlead.ends hfresh).2 ⟨fun huv => ?_, h.acyclic⟩
    exact hlead.right (h.mem_of_joined hlead.left huv)
  · intro t f hf hft x y hends hx hy
    obtain hxv | hx := Set.mem_insert_iff.1 hx <;> obtain hyv | hy := Set.mem_insert_iff.1 hy
    · rw [hxv, hyv]
      exact .refl _ _ v
    · rw [hxv] at hends ⊢
      exact (hborder t f hf hft y v ⟨hends.trans Sym2.eq_swap, hy, hlead.right⟩).symm
    · rw [hyv] at hends ⊢
      exact hborder t f hf hft x v ⟨hends, hx, hlead.right⟩
    · exact (h.inside t f hf hft x y hends hx hy).mono (hmore t)
  -- every end reached is joined to the new node, and so any two are
  · have hnew : ∀ t, ∀ f ∈ edges, f.grade mode ≤ t → ∀ x y, Leads (insert v reached) f x y →
        Joined WeightedEdge.ends (upTo (·.grade mode) t (e :: chosen)) x v := by
      intro t f hf hft x y hfx
      obtain rfl | hfx := leads_of_leads_insert hfx
      · exact .refl _ _ x
      · exact hborder t f hf hft x y hfx
    intro t f hf g hg hft hgt x x' y y' hfx hgy
    exact (hnew t f hf hft x x' hfx).trans (hnew t g hg hgt y y' hgy).symm

/-- When no edge leads on, growth may go on anywhere. -/
theorem restart (h : Grown mode edges reached chosen)
    (hstuck : ∀ f ∈ edges, ∀ x y, ¬Leads reached f x y) (hv : v ∉ reached) :
    Grown mode edges (insert v reached) chosen where
  offered := h.offered
  closed := fun d hd a ha => Set.mem_insert_of_mem v (h.closed d hd a ha)
  nodup := h.nodup
  acyclic := h.acyclic
  inside := by
    intro t f hf hft x y hends hx hy
    obtain hxv | hx := Set.mem_insert_iff.1 hx <;> obtain hyv | hy := Set.mem_insert_iff.1 hy
    · rw [hxv, hyv]
      exact .refl _ _ v
    · rw [hxv] at hends
      exact absurd ⟨hends.trans Sym2.eq_swap, hy, hv⟩ (hstuck f hf y v)
    · rw [hyv] at hends
      exact absurd ⟨hends, hx, hv⟩ (hstuck f hf x v)
    · exact h.inside t f hf hft x y hends hx hy
  border := by
    intro t f hf g hg _ _ x x' y y' hfx hgy
    -- whatever leads on now starts at the new node
    have hx := (leads_of_leads_insert hfx).resolve_right (hstuck f hf x x')
    have hy := (leads_of_leads_insert hgy).resolve_right (hstuck g hg y y')
    rw [hx, hy]
    exact .refl _ _ v

/-- When all nodes are reached, the edges chosen are a best forest. -/
theorem isBestForest (h : Grown mode edges reached chosen)
    (hwithin : Within WeightedEdge.ends nodes edges) (hall : ∀ k ∈ nodes, k ∈ reached) :
    IsBestForest WeightedEdge.ends (·.grade mode) edges chosen where
  subset := h.offered
  nodup := h.nodup
  acyclic := h.acyclic
  bottleneck := by
    intro f hf x y hends
    have hmem := hwithin f hf
    rw [hends] at hmem
    exact h.inside _ f hf le_rfl x y hends (hall x (hmem x (Sym2.mem_mk_left x y)))
      (hall y (hmem y (Sym2.mem_mk_right x y)))

end Grown

/-- **Grown trees make a best forest.** -/
theorem Growth.isBestForest_append (h : Growth mode edges nodes reached rest)
    (hwithin : Within WeightedEdge.ends nodes edges) (hgrown : Grown mode edges reached chosen) :
    IsBestForest WeightedEdge.ends (·.grade mode) edges (chosen.reverse ++ rest) := by
  -- what was chosen so far grows at the front, what is still to come is at the back
  induction h generalizing chosen with
  | done all =>
    rw [List.append_nil]
    apply (hgrown.isBestForest hwithin all).of_mem_iff (fun _ => Iff.rfl)
    · exact fun e => List.mem_reverse
    · exact List.nodup_reverse.2 hgrown.nodup
  | take offered leads best more ih =>
    have hmore := ih (hgrown.take offered leads best)
    rw [List.reverse_cons, List.append_assoc] at hmore
    exact hmore
  | restart stuck start new more ih => exact ih (hgrown.restart stuck new)

theorem Growth.isBestForest (h : Growth mode edges nodes ∅ chosen)
    (hwithin : Within WeightedEdge.ends nodes edges) :
    IsBestForest WeightedEdge.ends (·.grade mode) edges chosen :=
  h.isBestForest_append hwithin (.empty mode edges)

/-! ## §3. The builder. -/

/-- The nodes of a list, as a set. -/
def members (nodes : List Key) : Set Key := {k | k ∈ nodes}

@[simp] theorem mem_members {k : Key} {nodes : List Key} : k ∈ members nodes ↔ k ∈ nodes := Iff.rfl

theorem members_cons (k : Key) (nodes : List Key) :
    members (k :: nodes) = insert k (members nodes) := by
  ext x
  simp

/-- The two ends of an edge that leads on are one more node. -/
theorem members_cons_ends {nodes : List Key} (h : Leads (members nodes) e u v) :
    members (e.a :: e.b :: nodes) = insert v (members nodes) := by
  have hu := Set.insert_eq_of_mem h.left
  have hends := h.ends
  rw [WeightedEdge.ends, Sym2.eq_iff] at hends
  rw [members_cons, members_cons]
  obtain ⟨ha, hb⟩ | ⟨ha, hb⟩ := hends
  · rw [ha, hb, Set.insert_comm, hu]
  · rw [ha, hb, hu]

theorem leadsOn_iff {nodes : List Key} :
    leadsOn nodes e = true ↔ ∃ u v, Leads (members nodes) e u v := by
  unfold leadsOn
  constructor
  · intro h
    cases ha : nodes.contains e.a <;> cases hb : nodes.contains e.b <;>
      rw [ha, hb] at h <;> simp at h
    · exact ⟨e.b, e.a, Sym2.eq_swap, List.contains_iff_mem.1 hb,
        fun hm => by rw [List.contains_iff_mem.2 hm] at ha; exact absurd ha (by simp)⟩
    · exact ⟨e.a, e.b, rfl, List.contains_iff_mem.1 ha,
        fun hm => by rw [List.contains_iff_mem.2 hm] at hb; exact absurd hb (by simp)⟩
  · rintro ⟨u, v, hends, hu, hv⟩
    have hu' : nodes.contains u = true := List.contains_iff_mem.2 hu
    have hv' : nodes.contains v = false := by
      rw [Bool.eq_false_iff, ne_eq, List.contains_iff_mem]
      exact hv
    rw [WeightedEdge.ends, Sym2.eq_iff] at hends
    obtain ⟨rfl, rfl⟩ | ⟨rfl, rfl⟩ := hends <;> rw [hu', hv'] <;> rfl

theorem best?_eq_none {es : List WeightedEdge} (h : best? mode es = none) : es = [] := by
  cases es with
  | nil => rfl
  | cons e rest =>
    unfold best? at h
    split at h
    · exact absurd h (by simp)
    · split at h <;> exact absurd h (by simp)

theorem best?_grade_le {es : List WeightedEdge} (h : best? mode es = some e) :
    ∀ f ∈ es, e.grade mode ≤ f.grade mode := by
  induction es generalizing e with
  | nil => simp
  | cons d rest ih =>
    intro f hf
    unfold best? at h
    split at h
    · next hnone =>
      rw [best?_eq_none hnone, List.mem_singleton] at hf
      injection h with h
      rw [hf, h]
    · next g hg =>
      have hrest := ih hg
      split at h
      · next hpref =>
        injection h with h
        have hdg : d.grade mode ≤ g.grade mode := Mode.prefers_iff_grade.1 hpref
        obtain rfl | hf := List.mem_cons.1 hf
        · rw [h]
        · rw [← h]
          exact hdg.trans (hrest f hf)
      · next hpref =>
        injection h with h
        have hgd : g.grade mode ≤ d.grade mode := by
          obtain hle | hle := Int.le_total (d.grade mode) (g.grade mode)
          · exact absurd (Mode.prefers_iff_grade.2 hle) hpref
          · exact hle
        rw [← h]
        obtain rfl | hf := List.mem_cons.1 hf
        · exact hgd
        · exact hrest f hf

/-- Every step of growth leaves fewer nodes to be reached. -/
theorem length_filter_not_mem_lt {reached reached' : List Key} (hsub : reached ⊆ reached')
    (hv : v ∈ nodes) (hnew : v ∉ reached) (hreached : v ∈ reached') :
    (nodes.filter (!reached'.contains ·)).length < (nodes.filter (!reached.contains ·)).length := by
  have hfilter : nodes.filter (!reached'.contains ·)
      = (nodes.filter (!reached.contains ·)).filter (!reached'.contains ·) := by
    rw [List.filter_filter]
    apply List.filter_congr
    intro k _
    cases hk : reached'.contains k with
    | true => rfl
    | false =>
      have hk' : reached.contains k = false := by
        rw [Bool.eq_false_iff, ne_eq, List.contains_iff_mem] at hk ⊢
        exact fun h => hk (hsub h)
      rw [hk']
      rfl
  rw [hfilter]
  refine List.length_filter_lt_length_iff_exists.2 ⟨v, List.mem_filter.2 ⟨hv, ?_⟩, ?_⟩
  · simpa using hnew
  · simpa using hreached

theorem forall_mem_of_filter_eq_nil {reached : List Key}
    (h : nodes.filter (!reached.contains ·) = []) : ∀ k ∈ nodes, k ∈ members reached := by
  intro k hk
  rw [List.filter_eq_nil_iff] at h
  have hin := h k hk
  rw [Bool.not_eq_true, Bool.not_eq_false', List.contains_iff_mem] at hin
  exact hin

/-- Growth does not end before all nodes are reached. -/
theorem growth_grow (hwithin : Within WeightedEdge.ends nodes edges) (steps : Nat)
    (reached : List Key) (hsteps : (nodes.filter (!reached.contains ·)).length ≤ steps) :
    Growth mode edges nodes (members reached) (grow mode edges nodes steps reached) := by
  -- the bound on the steps never falls below the number of nodes left
  induction steps generalizing reached with
  | zero =>
    have hnil := List.eq_nil_of_length_eq_zero (Nat.le_zero.1 hsteps)
    exact .done (forall_mem_of_filter_eq_nil hnil)
  | succ steps ih =>
    unfold grow
    split
    · next e hbest =>
      have hmem := best?_mem hbest
      obtain ⟨u, v, hlead⟩ := leadsOn_iff.1 (frontier_subset hmem)
      have he : e ∈ edges := (List.mem_filter.1 hmem).1
      have hnode : v ∈ nodes := by
        apply hwithin e he
        rw [hlead.ends]
        exact Sym2.mem_mk_right u v
      have hreached : v ∈ members (e.a :: e.b :: reached) := by
        rw [members_cons_ends hlead]
        exact Set.mem_insert v _
      have hless := length_filter_not_mem_lt (fun k hk => by simp [hk]) hnode hlead.right hreached
      refine .take he hlead ?_ ?_
      · intro f hf x y hfx
        exact best?_grade_le hbest f (List.mem_filter.2 ⟨hf, leadsOn_iff.2 ⟨x, y, hfx⟩⟩)
      · rw [← members_cons_ends hlead]
        exact ih _ (by omega)
    · next hbest =>
      have hstuck : ∀ f ∈ edges, ∀ x y, ¬Leads (members reached) f x y := by
        intro f hf x y hfx
        have hfrontier : f ∈ frontier reached edges :=
          List.mem_filter.2 ⟨hf, leadsOn_iff.2 ⟨x, y, hfx⟩⟩
        rw [best?_eq_none hbest] at hfrontier
        exact absurd hfrontier List.not_mem_nil
      split
      · next start hfind =>
        have hnew : start ∉ reached := by simpa using List.find?_some hfind
        have hstart := List.mem_of_find?_eq_some hfind
        have hless := length_filter_not_mem_lt (List.subset_cons_self start reached) hstart hnew
          List.mem_cons_self
        refine .restart hstuck hstart hnew ?_
        rw [← members_cons]
        exact ih _ (by omega)
      · next hfind =>
        refine .done fun k hk => ?_
        rw [List.find?_eq_none] at hfind
        simpa using hfind k hk

/-- The builder grows trees until every node is reached. -/
theorem growth_prim (hwithin : Within WeightedEdge.ends nodes edges) :
    Growth mode edges nodes ∅ (prim mode edges nodes) := by
  have hgrow : Growth mode edges nodes (members []) (grow mode edges nodes nodes.length []) :=
    growth_grow hwithin nodes.length [] (List.length_filter_le _ _)
  have hempty : members [] = ∅ := by
    ext k
    simp
  rw [hempty] at hgrow
  exact hgrow

end EvolvingGraph.Forest
