/-
  EvolvingGraph.Proofs.Graph.Search
  ─────────────────────────────────
  **A SEARCH FROM ONE NODE TELLS WHETHER A GRAPH IS CONNECTED.**

  A graph search begins at a node and takes up, one at a time, nodes that are new
  and adjacent to one it has found.  Which of them it takes next is left open:
  depth first, breadth first and any mixture are searches.  A search that can take
  up no more has found the nodes that paths lead to from its start, each once; so
  it is enough to count them, wherever it began.

  The search that `Network.isConnected` makes goes round by round, as many rounds
  as there are nodes.  A round that finds nothing new is the last one that counts,
  and each round before it finds one node at least, so the rounds suffice.

  Main statements:
    * `Search.joined`, `Exhausts.mem_iff` — what a search finds, and what an exhaustive one does;
    * `exhausts_reachWithin` — going round by round is an exhaustive search;
    * `Exhausts.length_eq_iff` — to count what is found is to decide connectedness;
    * `Coherent.isConnected_iff` — and so does `isConnected`.
-/
import EvolvingGraph.Proofs.Forest.Candidates

namespace EvolvingGraph

/-- A list from which repetitions are taken has none. -/
theorem nodup_eraseDups {α : Type} [DecidableEq α] : (as : List α) → as.eraseDups.Nodup
  | [] => List.nodup_nil
  | a :: as => by
    rw [List.eraseDups_cons, List.nodup_cons, List.mem_eraseDups]
    exact ⟨by simp, nodup_eraseDups (as.filter fun b => !b == a)⟩
termination_by as => as.length
decreasing_by exact Nat.lt_succ_of_le (List.length_filter_le _ _)

/-- The ends of a link, in no order. -/
def Link.ends (l : Link) : Sym2 Key := s(l.source.key, l.target.key)

namespace Network

variable {n : Network} {start a b : Key} {found nodes : List Key}

/-! ## §1. Searches. -/

/-- Two nodes are connected as a pair, in one order or the other. -/
def Adjacent (n : Network) (a b : Key) : Prop := n.linked a b = true ∨ n.linked b a = true

theorem adjacent_iff : n.Adjacent a b ↔ ∃ l ∈ n.links, l.ends = s(a, b) := by
  unfold Adjacent linked link?
  rw [List.find?_isSome, List.find?_isSome]
  constructor
  · rintro (⟨l, hl, hjoins⟩ | ⟨l, hl, hjoins⟩)
    · refine ⟨l, hl, ?_⟩
      simp only [Link.joins, Bool.or_eq_true, Bool.and_eq_true, beq_iff_eq] at hjoins
      exact Sym2.eq_iff.2 (hjoins.imp id fun h => ⟨h.1.2, h.2⟩)
    · refine ⟨l, hl, ?_⟩
      simp only [Link.joins, Bool.or_eq_true, Bool.and_eq_true, beq_iff_eq] at hjoins
      exact Sym2.eq_iff.2 (hjoins.symm.imp (fun h => ⟨h.1.2, h.2⟩) id)
  · rintro ⟨l, hl, hends⟩
    -- the order of the pair is that in which the link was made
    obtain ⟨hs, ht⟩ | ⟨hs, ht⟩ := Sym2.eq_iff.1 hends
    · exact .inl ⟨l, hl, by simp [Link.joins, hs, ht]⟩
    · exact .inr ⟨l, hl, by simp [Link.joins, hs, ht]⟩

/-- What a search from a node has found so far, in the order in which it was
found.  The node itself is the first; each other one is new when it is taken up,
and adjacent to one that was found before. -/
inductive Search (n : Network) (start : Key) : List Key → Prop where
  | start : Search n start [start]
  | visit {found : List Key} {a b : Key} (before : Search n start found) (mem : a ∈ found)
      (adjacent : n.Adjacent a b) (fresh : b ∉ found) : Search n start (found ++ [b])

/-- A search that has nothing left to take up. -/
structure Exhausts (n : Network) (start : Key) (found : List Key) : Prop where
  search : n.Search start found
  closed : ∀ a ∈ found, ∀ b, n.Adjacent a b → b ∈ found

namespace Search

theorem nodup (h : n.Search start found) : found.Nodup := by
  induction h with
  | start => exact List.nodup_singleton start
  | visit before mem adjacent fresh ih =>
    refine List.nodup_append.2 ⟨ih, List.nodup_singleton _, ?_⟩
    intro a ha b hb heq
    rw [List.mem_singleton] at hb
    exact fresh (hb ▸ heq ▸ ha)

theorem start_mem (h : n.Search start found) : start ∈ found := by
  induction h with
  | start => exact List.mem_singleton_self start
  | visit before mem adjacent fresh ih => exact List.mem_append_left _ ih

/-- **Links lead from the start to whatever is found.** -/
theorem joined (h : n.Search start found) :
    ∀ b ∈ found, Forest.Joined Link.ends n.links start b := by
  induction h with
  | start =>
    intro b hb
    rw [List.mem_singleton.1 hb]
    exact .refl _ _ start
  | @visit found a c before mem adjacent fresh ih =>
    intro b hb
    obtain hb | hb := List.mem_append.1 hb
    · exact ih b hb
    · -- the new node is one link away from a node that links lead to
      obtain ⟨l, hl, hends⟩ := adjacent_iff.1 adjacent
      rw [List.mem_singleton.1 hb]
      exact (ih a mem).trans (.of_mem hl hends)

/-- Several nodes can be taken up in a row. -/
theorem append (h : n.Search start found) {new : List Key} (hnodup : new.Nodup)
    (hfresh : ∀ b ∈ new, b ∉ found) (hadjacent : ∀ b ∈ new, ∃ a ∈ found, n.Adjacent a b) :
    n.Search start (found ++ new) := by
  induction new generalizing found with
  | nil =>
    rw [List.append_nil]
    exact h
  | cons b new ih =>
    obtain ⟨hb, hnodup⟩ := List.nodup_cons.1 hnodup
    obtain ⟨a, ha, hab⟩ := hadjacent b List.mem_cons_self
    have hvisit := h.visit ha hab (hfresh b List.mem_cons_self)
    rw [List.append_cons]
    refine ih hvisit hnodup ?_ ?_
    · intro c hc hmem
      obtain hmem | hmem := List.mem_append.1 hmem
      · exact hfresh c (List.mem_cons_of_mem b hc) hmem
      · exact hb (List.mem_singleton.1 hmem ▸ hc)
    · intro c hc
      obtain ⟨d, hd, hdc⟩ := hadjacent c (List.mem_cons_of_mem b hc)
      exact ⟨d, List.mem_append_left _ hd, hdc⟩

/-- Where links are between nodes, a search finds nodes only. -/
theorem subset_nodes (h : n.Search start found) (hstart : start ∈ nodes)
    (hwithin : Forest.Within Link.ends nodes n.links) : found ⊆ nodes := by
  induction h with
  | start => exact List.cons_subset.2 ⟨hstart, List.nil_subset _⟩
  | @visit found a b before mem adjacent fresh ih =>
    obtain ⟨l, hl, hends⟩ := adjacent_iff.1 adjacent
    have hb : b ∈ nodes := hwithin l hl b (hends ▸ Sym2.mem_mk_right a b)
    exact List.append_subset.2 ⟨ih, List.cons_subset.2 ⟨hb, List.nil_subset _⟩⟩

end Search

namespace Exhausts

/-- **What an exhaustive search finds is what links lead to.** -/
theorem mem_iff (h : n.Exhausts start found) :
    b ∈ found ↔ Forest.Joined Link.ends n.links start b := by
  constructor
  · exact h.search.joined b
  · rintro ⟨walk, hwalk, hlinks⟩
    -- along a walk that begins among what was found, nothing else is come upon
    have hfound := h.search.start_mem
    generalize start = a at hwalk hfound
    induction hwalk with
    | nil a => exact hfound
    | @cons a c d l walk first rest ih =>
      have hac : n.Adjacent a c := adjacent_iff.2 ⟨l, hlinks l List.mem_cons_self, first⟩
      exact ih (fun l hl => hlinks l (List.mem_cons_of_mem _ hl)) (h.closed a hfound c hac)

/-- All nodes are found if as many are found as there are. -/
theorem length_eq_iff (h : n.Exhausts start found) (hnodes : nodes.Nodup) (hstart : start ∈ nodes)
    (hwithin : Forest.Within Link.ends nodes n.links) :
    found.length = nodes.length
      ↔ ∀ b ∈ nodes, Forest.Joined Link.ends n.links start b := by
  have hsub := h.search.subset_nodes hstart hwithin
  constructor
  · intro hlength b hb
    have hperm := (List.subperm_of_subset h.search.nodup hsub).perm_of_length_le hlength.ge
    exact h.mem_iff.1 (hperm.mem_iff.2 hb)
  · intro hjoined
    have hsup : nodes ⊆ found := fun b hb => h.mem_iff.2 (hjoined b hb)
    exact le_antisymm (List.subperm_of_subset h.search.nodup hsub).length_le
      (List.subperm_of_subset hnodes hsup).length_le

end Exhausts

/-! ## §2. Going round by round. -/

theorem mem_neighbours : b ∈ n.neighbours found ↔ ∃ a ∈ found, n.Adjacent a b := by
  unfold neighbours
  simp only [List.mem_flatMap, List.mem_append, adjacent_iff]
  constructor
  · rintro ⟨l, hl, hb | hb⟩
    · split at hb
      · next hs => exact ⟨_, List.contains_iff_mem.1 hs, l, hl, by simp_all [Link.ends]⟩
      · cases hb
    · split at hb
      · next ht =>
        exact ⟨_, List.contains_iff_mem.1 ht, l, hl, by simp_all [Link.ends, Sym2.eq_swap]⟩
      · cases hb
  · rintro ⟨a, ha, l, hl, hends⟩
    refine ⟨l, hl, ?_⟩
    obtain ⟨hs, ht⟩ | ⟨hs, ht⟩ := Sym2.eq_iff.1 hends
    · left
      simp [hs, ht, ha]
    · right
      simp [hs, ht, ha]

/-- What a round finds. -/
def fresh (n : Network) (found : List Key) : List Key :=
  (n.neighbours found).eraseDups.filter (!found.contains ·)

theorem reachWithin_succ (n : Network) (steps : Nat) (found : List Key) :
    n.reachWithin (steps + 1) found = n.reachWithin steps (found ++ n.fresh found) := rfl

theorem mem_fresh : b ∈ n.fresh found ↔ (∃ a ∈ found, n.Adjacent a b) ∧ b ∉ found := by
  unfold fresh
  rw [List.mem_filter, List.mem_eraseDups, mem_neighbours]
  simp

/-- A round goes on with the search. -/
theorem Search.round (h : n.Search start found) : n.Search start (found ++ n.fresh found) := by
  apply h.append ((nodup_eraseDups _).filter _)
  · exact fun b hb => (mem_fresh.1 hb).2
  · exact fun b hb => (mem_fresh.1 hb).1

/-- When a round finds nothing, nothing is left. -/
theorem Search.exhausts_of_fresh_eq_nil (h : n.Search start found) (hfresh : n.fresh found = []) :
    n.Exhausts start found := by
  refine ⟨h, fun a ha b hab => ?_⟩
  by_contra hb
  have hmem : b ∈ n.fresh found := mem_fresh.2 ⟨⟨a, ha, hab⟩, hb⟩
  rw [hfresh] at hmem
  cases hmem

/-- After a round that finds nothing, none does. -/
theorem reachWithin_of_fresh_eq_nil (hfresh : n.fresh found = []) (steps : Nat) :
    n.reachWithin steps found = found := by
  induction steps with
  | zero => rfl
  | succ steps ih =>
    rw [reachWithin_succ, hfresh, List.append_nil]
    exact ih

/-- **A search goes on round by round until nothing is left,** given a round for
each node that it has not found. -/
theorem Search.exhausts_reachWithin (h : n.Search start found) (hstart : start ∈ nodes)
    (hwithin : Forest.Within Link.ends nodes n.links) {steps : Nat}
    (hsteps : nodes.length ≤ found.length + steps) :
    n.Exhausts start (n.reachWithin steps found) := by
  induction steps generalizing found with
  | zero =>
    -- all nodes have been found, so there is no other one that could be adjacent
    have hsub := h.subset_nodes hstart hwithin
    have hperm := (List.subperm_of_subset h.nodup hsub).perm_of_length_le hsteps
    refine ⟨h, fun a ha b hab => hperm.mem_iff.2 ?_⟩
    obtain ⟨l, hl, hends⟩ := adjacent_iff.1 hab
    exact hwithin l hl b (hends ▸ Sym2.mem_mk_right a b)
  | succ steps ih =>
    by_cases hfresh : n.fresh found = []
    · rw [reachWithin_of_fresh_eq_nil hfresh]
      exact h.exhausts_of_fresh_eq_nil hfresh
    · have hpos : 0 < (n.fresh found).length := List.length_pos_iff.2 hfresh
      rw [reachWithin_succ]
      refine ih h.round ?_
      rw [List.length_append]
      omega

end Network

/-! ## §3. Connected graphs. -/

namespace Graph

variable {g : Graph} {start a b : Key} {found : List Key}

/-- There is a node, and edges lead from each node to each other one, whatever
their direction. -/
structure Connected (g : Graph) : Prop where
  nonempty : g.nodeKeys ≠ []
  joined : ∀ a ∈ g.nodeKeys, ∀ b ∈ g.nodeKeys,
    Forest.Joined EdgeEntry.ends g.edges.entries a b

namespace Coherent

/-- Links lead where edges lead. -/
theorem joined_links_iff (hg : g.Coherent) : Forest.Joined Link.ends g.links a b
    ↔ Forest.Joined EdgeEntry.ends g.edges.entries a b := by
  constructor
  · intro h
    refine h.of_forall_joined fun l hl a b hends => ?_
    obtain ⟨e, he, hsame⟩ := hg.exists_entry hl
    have hends' : EdgeEntry.ends e = s(a, b) := by
      rw [← hends, EdgeEntry.ends, hsame]
      rfl
    exact .of_mem he hends'
  · intro h
    refine h.of_forall_joined fun e he a b hends => ?_
    obtain ⟨l, hl, hsame⟩ := hg.exists_link he
    have hends' : l.ends = s(a, b) := by
      rw [← hends, EdgeEntry.ends, ← hsame]
      rfl
    exact .of_mem hl hends'

theorem within_links (hg : g.Coherent) : Forest.Within Link.ends g.nodeKeys g.links := by
  intro l hl a ha
  obtain ⟨e, he, hsame⟩ := hg.exists_entry hl
  have hends : l.ends = EdgeEntry.ends e := by
    rw [EdgeEntry.ends, hsame]
    rfl
  exact hg.within e he a (hends ▸ ha)

/-- To be connected, it is enough that edges lead from one node to all others. -/
theorem connected_iff_of_mem (hstart : start ∈ g.nodeKeys) :
    g.Connected ↔ ∀ b ∈ g.nodeKeys, Forest.Joined EdgeEntry.ends g.edges.entries start b := by
  constructor
  · exact fun h => h.joined start hstart
  · intro h
    exact ⟨List.ne_nil_of_mem hstart, fun a ha b hb => (h a ha).symm.trans (h b hb)⟩

/-- There is an exhaustive search from each node. -/
theorem exhausts_reachWithin (hg : g.Coherent) (hstart : start ∈ g.nodeKeys) :
    g.Exhausts start (g.reachWithin g.nodes.size [start]) := by
  refine Network.Search.exhausts_reachWithin .start hstart hg.within_links ?_
  rw [g.length_nodeKeys]
  omega

/-- **A graph is connected if an exhaustive search from any node finds as many
nodes as there are.** -/
theorem length_eq_size_iff (hg : g.Coherent) (hstart : start ∈ g.nodeKeys)
    (h : g.Exhausts start found) : found.length = g.nodes.size ↔ g.Connected := by
  rw [← g.length_nodeKeys, h.length_eq_iff g.nodup_nodeKeys hstart hg.within_links,
    connected_iff_of_mem hstart]
  exact forall₂_congr fun b _ => hg.joined_links_iff

/-- **Connectedness is decided by the search from the first node.** -/
theorem isConnected_iff (hg : g.Coherent) : g.isConnected = true ↔ g.Connected := by
  unfold Network.isConnected
  cases hnodes : g.nodes.identifiers with
  | nil =>
    have hempty : g.nodeKeys = [] := by
      unfold nodeKeys
      rw [hnodes]
      rfl
    exact ⟨fun h => absurd h (by simp), fun h => absurd hempty h.nonempty⟩
  | cons first rest =>
    have hkeys : g.nodeKeys = (first :: rest).map (·.key) := by
      unfold nodeKeys
      rw [hnodes]
    have hfirst : first.key ∈ g.nodeKeys := by
      rw [hkeys]
      exact List.mem_cons_self
    have hsearch := hg.exhausts_reachWithin hfirst
    show ((first :: rest).all fun node =>
      (g.reachWithin g.nodes.size [first.key]).contains node.key) = true ↔ _
    rw [connected_iff_of_mem hfirst, hkeys, List.all_eq_true]
    simp only [List.contains_iff_mem, hsearch.mem_iff, hg.joined_links_iff, List.forall_mem_map]

end Coherent
end Graph
end EvolvingGraph
