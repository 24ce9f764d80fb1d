/-
  EvolvingGraph.Proofs.Graph.Listing
  ──────────────────────────────────
  **THE ORDER IN WHICH A NETWORK LISTS ITS LINKS.**

  A network lists its links node by node: each link at the first node at which
  it is met, turned so that this node comes first.  With or without direction
  this is one sweep over the nodes, which takes the links it meets and leaves
  the others for later (`Network.sweep`).  The sweep loses nothing and repeats
  nothing; and links that are kept in the order in which they are listed are
  listed in that order again.

  Main statements:
    * `listing_eq_sweep` — the listing is the sweep;
    * `sweep_perm` — each link is listed once, turned one way or the other;
    * `sweep_sweep` — a listing is listed as it is.
-/
import EvolvingGraph.Proofs.Graph.Coherence

namespace EvolvingGraph

/-! ## §1. Links met at a node. -/

namespace Link

/-- A link met at a node leaves it. -/
def leaving (l : Link) (node : Identifier) : Link := ⟨node, l.far node.key, l.attributes⟩

/-- A link as it is listed at its source. -/
def asListed (l : Link) : Network.Listed where
  source := l.source.value
  target := l.target.value
  sourceKey := l.source.key
  targetKey := l.target.key
  attributes := l.attributes

/-- Where a link is met: at its source, or, without direction, at either end. -/
def isMetAt (l : Link) (directed : Bool) (k : Key) : Bool :=
  if directed then l.source.key == k else l.touches k

/-- A link with the same ends and other attributes. -/
def mapAttributes (f : Attributes → Attributes) (l : Link) : Link :=
  { l with attributes := f l.attributes }

/-- One link is the other, up to the order of its ends where that does not matter. -/
structure Turned (directed : Bool) (l m : Link) : Prop where
  samePair : l.endpoints.SamePair directed m.endpoints
  attributes_eq : l.attributes = m.attributes

variable {directed : Bool} {l : Link} {node : Identifier} {k : Key}

theorem isMetAt_source (directed : Bool) (l : Link) :
    l.isMetAt directed l.source.key = true := by
  cases directed <;> simp [isMetAt, touches]

theorem far_source (l : Link) : l.far l.source.key = l.target := if_pos rfl

theorem leaving_leaving (l : Link) (node : Identifier) :
    (l.leaving node).leaving node = l.leaving node := by
  have hfar : (l.leaving node).far node.key = l.far node.key := far_source (l.leaving node)
  exact congrArg (Link.mk node · l.attributes) hfar

theorem turned_leaving (h : l.isMetAt directed node.key = true) :
    Turned directed (l.leaving node) l := by
  refine ⟨?_, rfl⟩
  by_cases hsource : l.source.key = node.key
  · refine .inl ⟨hsource.symm, ?_⟩
    show (l.far node.key).key = _
    rw [far, if_pos hsource]
    rfl
  · -- it is met at its target, so it has no direction
    cases directed with
    | true => exact absurd (by simpa [isMetAt] using h) hsource
    | false =>
      have htarget : l.target.key = node.key := by simpa [isMetAt, touches, hsource] using h
      refine .inr ⟨rfl, htarget.symm, ?_⟩
      show (l.far node.key).key = _
      rw [far, if_neg hsource]
      rfl

/-- Turned, a link is met where it was met before, but for the node it leaves. -/
theorem isMetAt_leaving (h : l.isMetAt directed node.key = true) (hk : node.key ≠ k)
    (hl : l.isMetAt directed k = false) : (l.leaving node).isMetAt directed k = false := by
  cases directed with
  | true => simpa [isMetAt, leaving] using hk
  | false =>
    simp only [isMetAt, touches, Bool.false_eq_true, if_false, Bool.or_eq_false_iff,
      beq_eq_false_iff_ne] at hl ⊢
    refine ⟨hk, ?_⟩
    show (l.far node.key).key ≠ k
    unfold far
    split
    · exact hl.2
    · exact hl.1

end Link

/-! ## §2. Lists that go together. -/

section Alongside

variable {α β : Type} {r : α → β → Prop} {xs : List α} {ys : List β}

/-- In lists that go together everything has its counterpart. -/
theorem exists_of_forall₂ (hall : List.Forall₂ r xs ys) {a : α} (ha : a ∈ xs) :
    ∃ b ∈ ys, r a b := by
  induction hall with
  | nil => exact absurd ha List.not_mem_nil
  | @cons a' b' xs ys hab hrest ih =>
    obtain rfl | ha := List.mem_cons.1 ha
    · exact ⟨b', List.mem_cons_self, hab⟩
    · obtain ⟨b, hb, hr⟩ := ih ha
      exact ⟨b, List.mem_cons_of_mem _ hb, hr⟩

/-- In lists that go together one thing is compared with another of the other list. -/
theorem forall₂_mem (hall : List.Forall₂ r xs ys) :
    List.Forall₂ (fun a b => a ∈ xs ∧ b ∈ ys ∧ r a b) xs ys := by
  obtain ⟨hlength, hget⟩ := List.forall₂_iff_get.1 hall
  exact List.forall₂_iff_get.2 ⟨hlength, fun i hx hy =>
    ⟨List.get_mem _ _, List.get_mem _ _, hget i hx hy⟩⟩

/-- What two things that go together have in common, their lists have in common. -/
theorem map_eq_of_forall₂ {γ : Type} {f : α → γ} {f' : β → γ} (hall : List.Forall₂ r xs ys)
    (h : ∀ a b, r a b → f a = f' b) : xs.map f = ys.map f' := by
  rw [← List.forall₂_eq_eq_eq, List.forall₂_map_left_iff, List.forall₂_map_right_iff]
  exact hall.imp h

/-- What holds of any two of a list holds of any two of a list that goes with it. -/
theorem pairwise_of_forall₂ {s : α → α → Prop} {t : β → β → Prop}
    (h : ∀ a b a' b', r a b → r a' b' → t b b' → s a a') (hall : List.Forall₂ r xs ys)
    (hys : ys.Pairwise t) : xs.Pairwise s := by
  induction hall with
  | nil => exact List.Pairwise.nil
  | @cons a b xs ys hab hrest ih =>
    obtain ⟨hb, hys⟩ := List.pairwise_cons.1 hys
    refine List.pairwise_cons.2 ⟨fun a' ha' => ?_, ih hys⟩
    obtain ⟨b', hb', hab'⟩ := exists_of_forall₂ hrest ha'
    exact h a b a' b' hab hab' (hb b' hb')

end Alongside

namespace Network

variable {directed : Bool} {links : List Link} {nodes : List Identifier}

/-! ## §3. The sweep. -/

/-- The links met at each of the given nodes that were not met before. -/
def sweep (directed : Bool) (links : List Link) : List Identifier → List Link
  | [] => []
  | node :: rest =>
    (links.filter (·.isMetAt directed node.key)).map (·.leaving node)
      ++ sweep directed (links.filter (!·.isMetAt directed node.key)) rest

theorem listUndirected_eq_sweep (links : List Link) (nodes : List Identifier) :
    listUndirected links nodes = (sweep false links nodes).map Link.asListed := by
  induction nodes generalizing links with
  | nil => rfl
  | cons node rest ih =>
    rw [listUndirected, sweep, List.map_append, List.map_map, ih]
    rfl

/-- A link leaves one node only, so those that were met need not be kept out. -/
theorem listDirected_filter {node : Identifier} (h : node.key ∉ nodes.map (·.key))
    (links : List Link) :
    listDirected (links.filter (!·.isMetAt true node.key)) nodes = listDirected links nodes := by
  unfold listDirected
  rw [List.flatMap_def, List.flatMap_def]
  refine congrArg List.flatten (List.map_congr_left fun other hother => ?_)
  refine congrArg (List.map (listedAt other)) ?_
  rw [List.filter_filter]
  refine List.filter_congr fun l _ => ?_
  by_cases hl : l.source.key = other.key
  · have hne : other.key ≠ node.key := fun heq => h (List.mem_map.2 ⟨other, hother, heq⟩)
    simp [Link.isMetAt, hl, hne]
  · simp [hl]

theorem listDirected_eq_sweep (links : List Link) (h : (nodes.map (·.key)).Nodup) :
    listDirected links nodes = (sweep true links nodes).map Link.asListed := by
  induction nodes generalizing links with
  | nil => rfl
  | cons node rest ih =>
    obtain ⟨hne, hrest⟩ := List.nodup_cons.1 h
    rw [sweep, List.map_append, ← ih _ hrest, listDirected_filter hne, List.map_map]
    rfl

/-- **A network lists its links in one sweep over its nodes.** -/
theorem listing_eq_sweep (n : Network) :
    n.listing = (sweep n.directed n.links n.nodes.identifiers).map Link.asListed := by
  unfold listing
  split
  · next hd =>
    rw [hd]
    exact listDirected_eq_sweep n.links n.nodes.nodup_keys
  · next hd =>
    rw [Bool.eq_false_iff.2 hd]
    exact listUndirected_eq_sweep n.links _

/-! ## §4. What the sweep finds. -/

/-- **Each link that is met anywhere is listed once, turned one way or the other.** -/
theorem sweep_perm (h : ∀ l ∈ links, ∃ node ∈ nodes, l.isMetAt directed node.key = true) :
    ∃ found, found.Perm links
      ∧ List.Forall₂ (Link.Turned directed) (sweep directed links nodes) found := by
  induction nodes generalizing links with
  | nil =>
    have hnil : links = [] := List.eq_nil_iff_forall_not_mem.2 fun l hl => by simpa using h l hl
    subst hnil
    exact ⟨[], .refl _, .nil⟩
  | cons node rest ih =>
    have hlater : ∀ l ∈ links.filter (!·.isMetAt directed node.key),
        ∃ other ∈ rest, l.isMetAt directed other.key = true := by
      intro l hl
      obtain ⟨hl, hmet⟩ := List.mem_filter.1 hl
      obtain ⟨other, hother, hmet'⟩ := h l hl
      obtain rfl | hother := List.mem_cons.1 hother
      · rw [hmet'] at hmet
        exact absurd hmet (by simp)
      · exact ⟨other, hother, hmet'⟩
    obtain ⟨found, hperm, hturned⟩ := ih hlater
    refine ⟨links.filter (·.isMetAt directed node.key) ++ found,
      (hperm.append_left _).trans (List.filter_append_perm _ _), ?_⟩
    refine List.rel_append (List.forall₂_map_left_iff.2 ?_) hturned
    exact List.forall₂_same.2 fun l hl => Link.turned_leaving (List.mem_filter.1 hl).2

theorem isMetAt_of_mem_sweep {k : Key} (hk : k ∉ nodes.map (·.key))
    (h : ∀ l ∈ links, l.isMetAt directed k = false) {l : Link}
    (hl : l ∈ sweep directed links nodes) : l.isMetAt directed k = false := by
  induction nodes generalizing links with
  | nil => exact absurd hl List.not_mem_nil
  | cons node rest ih =>
    rw [List.map_cons, List.mem_cons, not_or] at hk
    rw [sweep, List.mem_append] at hl
    obtain hl | hl := hl
    · obtain ⟨m, hm, rfl⟩ := List.mem_map.1 hl
      obtain ⟨hm, hmet⟩ := List.mem_filter.1 hm
      exact Link.isMetAt_leaving hmet (Ne.symm hk.1) (h m hm)
    · exact ih hk.2 (fun m hm => h m (List.mem_of_mem_filter hm)) hl

/-- What passes a test comes before what does not: the test takes them apart. -/
theorem filter_append_eq {α : Type} {p : α → Bool} {xs ys : List α} (hxs : ∀ x ∈ xs, p x = true)
    (hys : ∀ y ∈ ys, p y = false) :
    (xs ++ ys).filter p = xs ∧ (xs ++ ys).filter (!p ·) = ys := by
  constructor
  · rw [List.filter_append, List.filter_eq_self.2 hxs,
      List.filter_eq_nil_iff.2 fun y hy => by simp [hys y hy], List.append_nil]
  · rw [List.filter_append, List.filter_eq_nil_iff.2 fun x hx => by simp [hxs x hx],
      List.filter_eq_self.2 fun y hy => by simp [hys y hy], List.nil_append]

/-- **Links in the order of a listing are listed in that order.** -/
theorem sweep_sweep (h : (nodes.map (·.key)).Nodup) (links : List Link) :
    sweep directed (sweep directed links nodes) nodes = sweep directed links nodes := by
  induction nodes generalizing links with
  | nil => rfl
  | cons node rest ih =>
    obtain ⟨hne, hrest⟩ := List.nodup_cons.1 h
    have hhere : ∀ l ∈ (links.filter (·.isMetAt directed node.key)).map (·.leaving node),
        l.isMetAt directed node.key = true := by
      intro l hl
      obtain ⟨m, -, rfl⟩ := List.mem_map.1 hl
      exact Link.isMetAt_source directed (m.leaving node)
    have hlater : ∀ l ∈ sweep directed (links.filter (!·.isMetAt directed node.key)) rest,
        l.isMetAt directed node.key = false :=
      fun l hl => isMetAt_of_mem_sweep hne
        (fun m hm => by simpa using (List.mem_filter.1 hm).2) hl
    -- the links met here are those that were met here before
    obtain ⟨hmet, hleft⟩ := filter_append_eq hhere hlater
    rw [sweep, sweep, hmet, hleft, ih hrest, List.map_map]
    refine congrArg (· ++ _) (List.map_congr_left fun l _ => ?_)
    exact l.leaving_leaving node

/-- The order of a listing has nothing to do with the attributes. -/
theorem sweep_map (f : Attributes → Attributes) (links : List Link) (nodes : List Identifier) :
    sweep directed (links.map (·.mapAttributes f)) nodes
      = (sweep directed links nodes).map (·.mapAttributes f) := by
  induction nodes generalizing links with
  | nil => rfl
  | cons node rest ih =>
    have hfilter : ∀ p : Link → Bool, (∀ l, p (l.mapAttributes f) = p l) →
        (links.map (·.mapAttributes f)).filter p = (links.filter p).map (·.mapAttributes f) :=
      fun p hp => by
        rw [List.filter_map]
        exact congrArg _ (List.filter_congr fun l _ => hp l)
    rw [sweep, hfilter _ fun l => rfl, hfilter _ fun l => rfl, ih, sweep, List.map_append,
      List.map_map, List.map_map]
    rfl

end Network
end EvolvingGraph
