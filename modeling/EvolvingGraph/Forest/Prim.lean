/-
  EvolvingGraph.Forest.Prim
  ─────────────────────────
  **A SPANNING FOREST GROWN FROM A NODE.**

  A tree is grown from a node: of all edges that lead from a node reached to
  one not reached, one with the most wanted weight is taken, the first of those
  that come into question.  When no edge leads on, a new tree is begun at the
  first node that has not been reached.

  Main statements:
    * `best?_mem` — the chosen edge is one of those offered;
    * `frontier_subset` — every edge of the frontier leads on.
-/
import EvolvingGraph.Forest.Basic

namespace EvolvingGraph.Forest

/-- Whether an edge leads from a node reached to one that is not. -/
def leadsOn (reached : List Key) (e : WeightedEdge) : Bool :=
  reached.contains e.a != reached.contains e.b

/-- The edges that lead on from the nodes reached. -/
def frontier (reached : List Key) (edges : List WeightedEdge) : List WeightedEdge :=
  edges.filter (leadsOn reached)

theorem frontier_subset {reached : List Key} {edges : List WeightedEdge} {e : WeightedEdge}
    (h : e ∈ frontier reached edges) : leadsOn reached e = true := (List.mem_filter.1 h).2

/-- The first of the edges with the most wanted weight. -/
def best? (mode : Mode) : List WeightedEdge → Option WeightedEdge
  | [] => none
  | e :: rest =>
    match best? mode rest with
    | none => some e
    | some f => if mode.prefers e.weight f.weight then some e else some f

theorem best?_mem {mode : Mode} {edges : List WeightedEdge} {e : WeightedEdge}
    (h : best? mode edges = some e) : e ∈ edges := by
  induction edges generalizing e with
  | nil => simp [best?] at h
  | cons f rest ih =>
    unfold best? at h
    split at h
    · simp_all
    · next g hg =>
      split at h
      · simp_all
      · exact List.mem_cons_of_mem _ (ih (by rw [hg]; exact h))

/-- Reach `steps` more nodes, and list the edges taken on the way. -/
def grow (mode : Mode) (edges : List WeightedEdge) (nodes : List Key) :
    (steps : Nat) → (reached : List Key) → List WeightedEdge
  | 0, _ => []
  | steps + 1, reached =>
    match best? mode (frontier reached edges) with
    | some e => e :: grow mode edges nodes steps (e.a :: e.b :: reached)
    | none =>
      match nodes.find? (!reached.contains ·) with
      | some start => grow mode edges nodes steps (start :: reached)
      | none => []

/-- The edges of the trees grown until every node is reached. -/
def prim (mode : Mode) (edges : List WeightedEdge) (nodes : List Key) : List WeightedEdge :=
  grow mode edges nodes nodes.length []

end EvolvingGraph.Forest
