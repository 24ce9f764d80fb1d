/-
  EvolvingGraph.Proofs.Delivery.Removal
  ─────────────────────────────────────
  **A NODE IS REMOVED WHILE SINKS REACT.**

  The removal of a node is settled when it is asked for: first the edges go that
  are at the node then, and then the node.  Each of these changes is reported, and
  a sink that is told may change the graph.  The edges that are listed are all gone
  when it is the node's turn; only one that has been added meanwhile can still be
  there.  It then loses its link with the node, and its id stays.

  Main statements:
    * `Happens.upholds_storesAgree` — where no node goes that has edges, edge table and
      network agree at the end;
    * `Happens.orderly_removal` — the node that is removed has no edges by then, if
      none is added to it meanwhile.
-/
import EvolvingGraph.Proofs.Delivery.Copying
import EvolvingGraph.Proofs.Graph.Stores

namespace EvolvingGraph

/-! ## §1. Orderly removals. -/

namespace Account

variable {g : GraphRef} {a : Account}

theorem Orderly.allMade (h : a.Orderly g) :
    a.AllMade g fun before change _ => before.Orderly change := by
  induction a with
  | nothing => trivial
  | making x before change audience event inside rest ih ih' =>
    exact ⟨h.1, ih h.2.1, ih' h.2.2⟩
  | telling x r event result inside rest ih ih' => exact ⟨ih h.1, ih' h.2⟩
  | writing receipt rest ih => exact ih h
  | cut rest ih => exact ih h

/-- Within the changes of one request, no node goes that has edges. -/
def InsideOrderly (g : GraphRef) : Account → Prop
  | nothing => True
  | making _ _ _ _ _ inside rest | telling _ _ _ _ inside rest =>
    inside.Orderly g ∧ rest.InsideOrderly g
  | writing _ rest | cut rest => rest.InsideOrderly g

end Account

/-! ## §2. Agreement. -/

namespace Happens

variable {task : Task} {w w' : World} {a : Account} {result : Except Error Unit} {g : GraphRef}

/-- **Where no node goes that has edges, edge table and network agree at the end.** -/
theorem upholds_storesAgree (h : Happens task w a result w') (hw : w.Upholds g Graph.StoresAgree)
    (horderly : a.Orderly g) : w'.Upholds g Graph.StoresAgree :=
  h.keeps ⟨fun hagree hkind htakes => hagree.takes htakes hkind,
    fun hagree happly hr => hagree.apply_eq happly hr ▸ hagree⟩ hw horderly.allMade

/-- Where no edge is added at a node, no more edges are at it. -/
theorem idsAt_subset (h : Happens task w a result w') {n : Value} {k : Key}
    (hk : n.key? = some k) {ids : List Key} (hw : w.Upholds g fun graph => graph.idsAt k ⊆ ids)
    (hmade : ∀ event ∈ a.made g, ¬event.JoinsTo n) :
    w'.Upholds g fun graph => graph.idsAt k ⊆ ids :=
  h.keeps ⟨fun hsub hkind htakes => List.Subset.trans (htakes.idsAt_subset hk hkind) hsub,
    fun hsub happly hr => List.Subset.trans (Graph.idsAt_subset_of_idle happly hr k) hsub⟩ hw
    (Account.allMade_of_made hmade)

/-! ## §3. The removal of a node. -/

/-- The node comes last.  If the edges at it are among those that are listed and none
is added to it, it has no edges when it goes. -/
theorem orderly_removal {n : Value} {k : Key} (hk : n.key? = some k) {ids : List Identifier}
    (h : Happens (.changes g (ids.map (.removeEdge ·.value) ++ [.removeNode n])) w a (.ok ()) w')
    (hw : w.Upholds g fun graph => graph.idsAt k ⊆ ids.map (·.key))
    (hmade : ∀ event ∈ a.made g, ¬event.JoinsTo n) (hinside : a.InsideOrderly g) :
    a.Orderly g := by
  induction ids generalizing w a with
  | nil =>
    cases h with
    | idle outcome rest =>
      cases rest
      trivial
    | made takes round rest =>
      cases rest
      refine ⟨fun _ id j heq hj => ?_, hinside.1, trivial⟩
      obtain rfl : n = id := Change.removeNode.inj heq
      obtain rfl : k = j := Option.some.inj (hk.symm.trans hj)
      exact Graph.incident_eq_nil_iff.2 (List.subset_nil.1 hw.2)
  | cons id ids ih =>
    cases h with
    | idle outcome rest => exact absurd outcome (Graph.apply_removeEdge_ne_idle _ _ _)
    | made takes round rest =>
      simp only [Account.made, if_pos, List.mem_append] at hmade
      refine ⟨fun _ => Graph.orderly_of_ne (by simp), hinside.1, ih rest ?_
        (fun e he => hmade e (.inr he)) hinside.2⟩
      -- the edge is gone, and it is not added again
      refine round.idsAt_subset hk (World.upholds_put_self hw.1 fun j hj => ?_)
        fun e he => hmade e (.inl (.inr he))
      have hunjoined := hmade _ (.inl (.inl (List.mem_singleton.2 rfl)))
      have hlisted : j ∈ id.key :: ids.map (·.key) := hw.2 (takes.idsAt_subset hk hunjoined hj)
      obtain rfl | hmem := List.mem_cons.1 hlisted
      · exact absurd hj (takes.not_mem_idsAt k)
      · exact hmem

end Happens
end EvolvingGraph
