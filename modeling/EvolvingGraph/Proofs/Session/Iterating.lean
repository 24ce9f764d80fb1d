/-
  EvolvingGraph.Proofs.Session.Iterating
  ──────────────────────────────────────
  **GOING THROUGH THE EDGES OF A GRAPH WHILE IT CHANGES.**

  An iterator over edges takes down the ids that are there when it is first pulled.
  From then on anything may happen between two pulls: edges go, others come, and one
  that has gone comes back, perhaps between other nodes.  No pull fails.  What is given
  is an edge that is there at that moment, as it is then, and the edges are given in the
  order of the ids; one that is left out was gone when its turn had come.

  When its turn has come can be seen from outside: an id is reached in the first pull
  that gives none of the ids before it.  What the iterator remembers (`World.HasLeft`) is
  not spoken of in the end.

  Main statements:
    * `World.HasLeft.pullsFrom` — one pull, from the ids that are left;
    * `PullsAmid.goesThrough` — all pulls, whatever happens in between;
    * `GoesThrough.gives_reached` — an id that is there when it is reached is given;
    * `edges_iterate_safely` — what comes of all pulls, from the first one on.
-/
import EvolvingGraph.Proofs.Generation.Turns
import EvolvingGraph.Proofs.Graph.Effect
import EvolvingGraph.Proofs.Session.Keeping

namespace EvolvingGraph

/-! ## §1. One pull. -/

/-- The id of the edge that a value is a view of. -/
def Value.viewedId? : Value → Option Value
  | .edge _ id _ _ => some id
  | _ => none

namespace Graph

variable {graph : Graph} {g : GraphRef} {id : Identifier} {e : EdgeView}

/-- The view of an edge of the graph shows the ends that the edge has there. -/
theorem view_value_eq_ok_iff : graph.view g id.value = .ok e ↔ ∃ ends,
    graph.edges.get? id.key = some ends ∧ e = ⟨g, id.value, ends.source.value, ends.target.value⟩ := by
  have hends : ∀ ends, graph.endpoints id.value = .ok ends ↔ graph.edges.get? id.key = some ends := by
    simp [endpoints_eq_ok_iff, id.key?_value]
  simp only [view, bind_eq_ok_iff, pure_eq_ok_iff, hends, eq_comm (a := e)]

theorem viewedId?_of_view (h : graph.view g id.value = .ok e) :
    e.toValue.viewedId? = some id.value := by
  obtain ⟨ends, -, rfl⟩ := view_value_eq_ok_iff.1 h
  rfl

end Graph

section Pulls

variable {hooksOf : GeneratorRef → Hooks} {g : GraphRef} {c : CursorRef} {w : World}
  {ids : List Identifier} {s : CursorState}

/-- Edges that are gone are passed over, up to one that is there; or all are gone. -/
theorem pullListing_cases (g : GraphRef) (ids : List Identifier) (w : World) :
    (∃ gone id rest e, ids = gone ++ id :: rest
      ∧ (∀ i ∈ gone, (w.objectAt g).graph.edges.contains i.key = false)
      ∧ (w.objectAt g).graph.view g id.value = .ok e
      ∧ (pullListing g everyEdge ids).exec w = (.ok (some (e.toValue, .edgesLeft g rest)), w))
    ∨ ((∀ i ∈ ids, (w.objectAt g).graph.edges.contains i.key = false)
      ∧ (pullListing g everyEdge ids).exec w = (.ok none, w)) := by
  induction ids with
  | nil => exact .inr ⟨nofun, rfl⟩
  | cons id rest ih =>
    cases hthere : (w.objectAt g).graph.edges.contains id.key with
    | true =>
      obtain ⟨ends, hends⟩ := Catalog.contains_iff_get?.1 hthere
      have hview := (Graph.view_value_eq_ok_iff (g := g)).2 ⟨ends, hends, rfl⟩
      refine .inl ⟨[], id, rest, _, rfl, nofun, hview, ?_⟩
      simp [pullListing, everyEdge, hthere, hview]
    | false =>
      have hskip : (pullListing g everyEdge (id :: rest)).exec w
          = (pullListing g everyEdge rest).exec w := by
        rw [pullListing]
        simp [hthere]
      rw [hskip]
      obtain ⟨gone, next, rest', e, rfl, hgone, hview, hexec⟩ | ⟨hgone, hexec⟩ := ih
      · exact .inl ⟨id :: gone, next, rest', e, rfl, List.forall_mem_cons.2 ⟨hthere, hgone⟩, hview,
          hexec⟩
      · exact .inr ⟨List.forall_mem_cons.2 ⟨hthere, hgone⟩, hexec⟩

/-- An iterator over the edges of a graph has been pulled and has some ids left. -/
inductive World.HasLeft (w : World) (g : GraphRef) (c : CursorRef) : List Identifier → Prop where
  | midway {ids : List Identifier} (state : w.cursorAt c = ⟨.edges g, .edgesLeft g ids⟩) :
      HasLeft w g c ids
  | finished (state : w.cursorAt c = ⟨.edges g, .finished⟩) : HasLeft w g c []

/-- The next pull gives the first edge that is there, of some ids, and leaves the ids after
it; or, if all these edges are gone, it stops. -/
def World.PullsFrom (hooksOf : GeneratorRef → Hooks) (w : World) (g : GraphRef) (c : CursorRef)
    (ids : List Identifier) : Prop :=
  (∃ gone id rest e v, ids = gone ++ id :: rest
    ∧ (∀ i ∈ gone, (w.objectAt g).graph.edges.contains i.key = false)
    ∧ (w.objectAt g).graph.view g id.value = .ok e
    ∧ (nextItem hooksOf c).exec w = (.ok (some e.toValue), v) ∧ v.HasLeft g c rest)
  ∨ ((∀ i ∈ ids, (w.objectAt g).graph.edges.contains i.key = false)
    ∧ ∃ v, (nextItem hooksOf c).exec w = (.ok none, v) ∧ v.HasLeft g c [])

theorem pullsFrom_of_pullFrom (hc : w.cursorAt c = ⟨.edges g, s⟩) (hbusy : s ≠ .busy)
    (hfinished : s ≠ .finished) (hpull : (pullFrom hooksOf (.edges g) s).exec (w.withCursor c .busy)
      = (pullListing g everyEdge ids).exec (w.withCursor c .busy)) :
    w.PullsFrom hooksOf g c ids := by
  have hbusied : (w.withCursor c .busy).cursorAt c = ⟨.edges g, .busy⟩ := by
    rw [World.cursorAt_withCursor_self (by rw [hc]; nofun), hc]
  have hafter (state : CursorState) :
      ((w.withCursor c .busy).withCursor c state).cursorAt c = ⟨.edges g, state⟩ := by
    rw [World.cursorAt_withCursor_self (by rw [hbusied]; nofun), hbusied]
  unfold World.PullsFrom
  rw [exec_nextItem hc hbusy hfinished, exec_whileBusy, hpull]
  obtain ⟨gone, id, rest, e, rfl, hgone, hview, hexec⟩ | ⟨hgone, hexec⟩ :=
    pullListing_cases g ids (w.withCursor c .busy)
  · rw [hexec]
    exact .inl ⟨gone, id, rest, e, _, rfl, hgone, hview, rfl, .midway (hafter _)⟩
  · rw [hexec]
    exact .inr ⟨hgone, _, rfl, .finished (hafter _)⟩

/-- The first pull looks at all edges that are there. -/
theorem pullsFrom_of_fresh (hc : w.cursorAt c = ⟨.edges g, .fresh⟩) :
    w.PullsFrom hooksOf g c (w.objectAt g).graph.edges.identifiers :=
  pullsFrom_of_pullFrom hc nofun nofun rfl

/-- Later ones look at the ids that are left. -/
theorem World.HasLeft.pullsFrom (h : w.HasLeft g c ids) : w.PullsFrom hooksOf g c ids := by
  cases h with
  | midway state => exact pullsFrom_of_pullFrom state nofun nofun rfl
  | finished state =>
    refine .inr ⟨nofun, w, ?_, .finished state⟩
    unfold nextItem
    rw [Run.exec_bind, Run.exec_cursorAt, state]
    rfl

theorem World.HasLeft.of_cursorAt_eq {v : World} (h : w.HasLeft g c ids)
    (spared : v.cursorAt c = w.cursorAt c) : v.HasLeft g c ids := by
  cases h with
  | midway state => exact .midway (spared.trans state)
  | finished state => exact .finished (spared.trans state)

end Pulls

/-! ## §2. Pulls with anything in between. -/

/-- A pull of an iterator: the graph at that moment, and the answer. -/
structure EdgePull where
  graph : Graph
  answer : Except Error (Option Value)

/-- The id of the edge that a pull gives, if it gives one. -/
def EdgePull.id? (p : EdgePull) : Option Value :=
  match p.answer with
  | .ok (some v) => v.viewedId?
  | _ => none

/-- The ids of the edges that pulls give, in order. -/
def givenIds (pulls : List EdgePull) : List Value := pulls.filterMap EdgePull.id?

/-- Pulls of an iterator, one after the other.  In between anything may happen that leaves
the iterator to its owner. -/
inductive PullsAmid (hooksOf : GeneratorRef → Hooks) (g : GraphRef) (c : CursorRef) :
    World → List EdgePull → World → Prop where
  | done (w : World) : PullsAmid hooksOf g c w [] w
  | pulled {w w' : World} {pulls : List EdgePull}
      (after : PullsAmid hooksOf g c ((nextItem hooksOf c).exec w).2 pulls w') :
      PullsAmid hooksOf g c w
        (⟨(w.objectAt g).graph, ((nextItem hooksOf c).exec w).1⟩ :: pulls) w'
  | elsewhere {w v w' : World} {pulls : List EdgePull} (spared : v.cursorAt c = w.cursorAt c)
      (after : PullsAmid hooksOf g c v pulls w') : PullsAmid hooksOf g c w pulls w'

/-- Pulls go through ids: each one passes over those whose edges are gone and gives the
first edge that is there, as it is then; if there is none, this pull stops, and so do all
later ones. -/
inductive GoesThrough (g : GraphRef) : List Identifier → List EdgePull → Prop where
  | rest (ids : List Identifier) : GoesThrough g ids []
  | gives {gone ids : List Identifier} {id : Identifier} {graph : Graph} {e : EdgeView}
      {pulls : List EdgePull} (skipped : ∀ i ∈ gone, graph.edges.contains i.key = false)
      (view : graph.view g id.value = .ok e) (after : GoesThrough g ids pulls) :
      GoesThrough g (gone ++ id :: ids) (⟨graph, .ok (some e.toValue)⟩ :: pulls)
  | stops {ids : List Identifier} {graph : Graph} {pulls : List EdgePull}
      (skipped : ∀ i ∈ ids, graph.edges.contains i.key = false) (after : GoesThrough g [] pulls) :
      GoesThrough g ids (⟨graph, .ok none⟩ :: pulls)

namespace PullsAmid

variable {hooksOf : GeneratorRef → Hooks} {g : GraphRef} {c : CursorRef} {w w' : World}
  {ids : List Identifier} {first : EdgePull} {pulls : List EdgePull}

/-- One pull, and what is known of those after it. -/
theorem goesThrough_cons (h : w.PullsFrom hooksOf g c ids)
    (hafter : ∀ {rest}, ((nextItem hooksOf c).exec w).2.HasLeft g c rest →
      GoesThrough g rest pulls) :
    GoesThrough g ids (⟨(w.objectAt g).graph, ((nextItem hooksOf c).exec w).1⟩ :: pulls) := by
  obtain ⟨gone, id, rest, e, v, rfl, hgone, hview, hexec, hleft⟩ | ⟨hgone, v, hexec, hleft⟩ := h
  · rw [hexec] at hafter ⊢
    exact .gives hgone hview (hafter hleft)
  · rw [hexec] at hafter ⊢
    exact .stops hgone (hafter hleft)

/-- Once it has been pulled, an iterator goes through the ids that it has left. -/
theorem goesThrough_of_hasLeft (h : PullsAmid hooksOf g c w pulls w')
    (hleft : w.HasLeft g c ids) : GoesThrough g ids pulls := by
  induction h generalizing ids with
  | done w => exact .rest ids
  | pulled after ih => exact goesThrough_cons hleft.pullsFrom ih
  | elsewhere spared after ih => exact ih (hleft.of_cursorAt_eq spared)

/-- **From its first pull on, an iterator goes through the ids that were there then.** -/
theorem goesThrough (h : PullsAmid hooksOf g c w (first :: pulls) w')
    (hc : w.cursorAt c = ⟨.edges g, .fresh⟩) :
    GoesThrough g first.graph.edges.identifiers (first :: pulls) := by
  generalize hall : first :: pulls = all at h ⊢
  induction h with
  | done w => cases hall
  | pulled after ih =>
    obtain ⟨rfl, rfl⟩ := List.cons.inj hall
    exact goesThrough_cons (pullsFrom_of_fresh hc) after.goesThrough_of_hasLeft
  | elsewhere spared after ih => exact ih (spared.trans hc) hall

end PullsAmid

/-! ## §3. What is given. -/

namespace EdgePull

/-- A pull gives an edge, as the edge is at that moment. -/
def Gives (g : GraphRef) (p : EdgePull) (id : Identifier) : Prop :=
  ∃ e, p.graph.view g id.value = .ok e ∧ p.answer = .ok (some e.toValue)

/-- A pull gets to what comes after some ids: the pulls before it have each given one of
these ids, and it gives none of them. -/
def GetsPast (p : EdgePull) (before : List EdgePull) (passed : List Identifier) : Prop :=
  (∀ q ∈ before, ∃ i ∈ passed, q.id? = some i.value) ∧ ∀ i ∈ passed, p.id? ≠ some i.value

variable {g : GraphRef} {p : EdgePull} {id : Identifier}

theorem Gives.id?_eq (h : p.Gives g id) : p.id? = some id.value := by
  obtain ⟨e, hview, hanswer⟩ := h
  unfold EdgePull.id?
  rw [hanswer]
  exact Graph.viewedId?_of_view hview

end EdgePull

theorem Identifier.key_eq_of_value_eq {i j : Identifier} (h : i.value = j.value) :
    i.key = j.key := by
  have hkey := i.key?_value
  rw [h, j.key?_value] at hkey
  exact (Option.some.inj hkey).symm

/-- Where one member of a list stands, as seen from another one. -/
theorem append_cons_cases {α : Type} {xs ys xs' ys' : List α} {a b : α}
    (h : xs ++ a :: ys = xs' ++ b :: ys') :
    (xs' = xs ∧ b = a) ∨ (∃ zs, xs' = xs ++ a :: zs ∧ ys = zs ++ b :: ys')
      ∨ ∃ zs, xs = xs' ++ b :: zs := by
  obtain ⟨as, rfl, has⟩ | ⟨bs, rfl, hbs⟩ := List.append_eq_append_iff.1 h
  · cases as with
    | nil => exact .inl ⟨List.append_nil xs, (List.cons.inj has).1.symm⟩
    | cons x as =>
      obtain ⟨rfl, rfl⟩ := List.cons.inj has
      exact .inr (.inl ⟨as, rfl, rfl⟩)
  · cases bs with
    | nil => exact .inl ⟨(List.append_nil xs').symm, (List.cons.inj hbs).1⟩
    | cons x bs =>
      obtain ⟨rfl, -⟩ := List.cons.inj hbs
      exact .inr (.inr ⟨bs, rfl⟩)

namespace GoesThrough

variable {g : GraphRef} {ids : List Identifier} {pulls : List EdgePull}

/-- No pull fails: it gives an edge that is there, or nothing. -/
theorem answers (h : GoesThrough g ids pulls) {p : EdgePull} (hp : p ∈ pulls) :
    (∃ id ∈ ids, p.Gives g id) ∨ p.answer = .ok none := by
  induction h with
  | rest ids => cases hp
  | gives skipped view after ih =>
    obtain rfl | hp := List.mem_cons.1 hp
    · exact .inl ⟨_, by simp, _, view, rfl⟩
    · refine (ih hp).imp_left fun ⟨id, hid, hgives⟩ => ⟨id, ?_, hgives⟩
      exact List.mem_append_right _ (List.mem_cons_of_mem _ hid)
  | stops skipped after ih =>
    obtain rfl | hp := List.mem_cons.1 hp
    · exact .inr rfl
    · exact .inr ((ih hp).resolve_left fun ⟨_, hid, _⟩ => List.not_mem_nil hid)

/-- The edges are given in the order of the ids. -/
theorem sublist (h : GoesThrough g ids pulls) :
    (givenIds pulls).Sublist (ids.map (·.value)) := by
  induction h with
  | rest ids => exact List.nil_sublist _
  | @gives gone ids id graph e pulls skipped view after ih =>
    have hid : EdgePull.id? ⟨graph, .ok (some e.toValue)⟩ = some id.value :=
      EdgePull.Gives.id?_eq ⟨e, view, rfl⟩
    unfold givenIds
    rw [List.filterMap_cons_some hid, List.map_append]
    exact (ih.cons_cons _).trans (List.sublist_append_right _ _)
  | stops skipped after ih => exact ih.trans (List.nil_sublist _)

/-- What later pulls give comes after what has been passed already. -/
theorem getsPast_of_later {p : EdgePull} {before after : List EdgePull}
    (h : GoesThrough g ids (before ++ p :: after)) (gone : List Identifier)
    {passed : List Identifier}
    (hapart : ∀ i ∈ gone, ∀ j ∈ ids, i.key ≠ j.key) (hpast : p.GetsPast before (gone ++ passed)) :
    p.GetsPast before passed := by
  refine ⟨fun q hq => ?_, fun i hi => hpast.2 i (List.mem_append_right _ hi)⟩
  obtain ⟨i, hi, hvalue⟩ := hpast.1 q hq
  obtain ⟨j, hj, hgives⟩ | hnone := h.answers (List.mem_append_left _ hq)
  · have hkey : i.key = j.key :=
      Identifier.key_eq_of_value_eq (Option.some.inj (hvalue.symm.trans hgives.id?_eq))
    obtain hi | hi := List.mem_append.1 hi
    · exact absurd hkey (hapart i hi j hj)
    · exact ⟨i, hi, hvalue⟩
  · simp [EdgePull.id?, hnone] at hvalue

/-- **An id whose edge is there when it is reached is given.** -/
theorem gives_reached (h : GoesThrough g ids pulls)
    (hnodup : ids.Pairwise fun i j => i.key ≠ j.key) {passed rest : List Identifier}
    {id : Identifier} {before after : List EdgePull} {p : EdgePull}
    (hids : ids = passed ++ id :: rest) (hpulls : pulls = before ++ p :: after)
    (hpast : p.GetsPast before passed) (hthere : p.graph.edges.contains id.key = true) :
    p.Gives g id := by
  -- on the pulls: an id is reached in the first one, or by those after it
  induction h generalizing passed before with
  | rest ids => simp at hpulls
  | @gives gone ids id' graph e pulls skipped view later ih =>
    have hgives : EdgePull.Gives g ⟨graph, .ok (some e.toValue)⟩ id' := ⟨e, view, rfl⟩
    obtain ⟨-, hlater, hapart⟩ := List.pairwise_append.1 hnodup
    obtain ⟨hapart', hlater⟩ := List.pairwise_cons.1 hlater
    cases before with
    | nil =>
      obtain ⟨rfl, rfl⟩ := List.cons.inj hpulls
      obtain ⟨rfl, rfl⟩ | ⟨zs, rfl, -⟩ | ⟨zs, rfl⟩ := append_cons_cases hids
      · exact hgives
      · -- what is given would be an id that the pull gets past
        exact absurd hgives.id?_eq (hpast.2 id' (by simp))
      · -- the id has been passed over, but its edge is there
        rw [skipped id (by simp)] at hthere
        cases hthere
    | cons q before =>
      obtain ⟨rfl, rfl⟩ := List.cons.inj hpulls
      obtain ⟨i, hi, hvalue⟩ := hpast.1 _ List.mem_cons_self
      have hnotGone : i ∉ gone := fun hgone => hapart i hgone id' List.mem_cons_self
        (Identifier.key_eq_of_value_eq (Option.some.inj (hvalue.symm.trans hgives.id?_eq)))
      obtain ⟨rfl, rfl⟩ | ⟨zs, rfl, rfl⟩ | ⟨zs, rfl⟩ := append_cons_cases hids
      · exact absurd hi hnotGone
      · -- the ids up to the one that is given do not come again
        refine ih hlater rfl rfl (later.getsPast_of_later (gone ++ [id']) ?_ ?_)
        · intro i hi j hj
          obtain hi | hi := List.mem_append.1 hi
          · exact hapart i hi j (List.mem_cons_of_mem _ hj)
          · rw [List.mem_singleton.1 hi]
            exact hapart' j hj
        · rw [List.append_assoc, List.singleton_append]
          exact ⟨fun q hq => hpast.1 q (List.mem_cons_of_mem _ hq), hpast.2⟩
      · exact absurd (List.mem_append_left _ hi) hnotGone
  | @stops ids graph pulls skipped later ih =>
    cases before with
    | nil =>
      obtain ⟨rfl, rfl⟩ := List.cons.inj hpulls
      rw [skipped id (by simp [hids])] at hthere
      cases hthere
    | cons q before =>
      -- a pull that stops has given nothing
      obtain ⟨rfl, rfl⟩ := List.cons.inj hpulls
      obtain ⟨i, -, hvalue⟩ := hpast.1 _ List.mem_cons_self
      cases hvalue

/-- Once a pull has stopped, all later ones do. -/
theorem stays_stopped (h : GoesThrough g ids pulls) {before after : List EdgePull} {p q : EdgePull}
    (hpulls : pulls = before ++ p :: after) (hp : p.answer = .ok none) (hq : q ∈ after) :
    q.answer = .ok none := by
  induction h generalizing before with
  | rest ids => simp at hpulls
  | gives skipped view later ih =>
    cases before with
    | nil =>
      obtain ⟨rfl, rfl⟩ := List.cons.inj hpulls
      cases hp
    | cons r before => exact ih (List.cons.inj hpulls).2
  | stops skipped later ih =>
    refine (later.answers ?_).resolve_left fun ⟨_, hid, _⟩ => List.not_mem_nil hid
    cases before with
    | nil =>
      obtain ⟨rfl, rfl⟩ := List.cons.inj hpulls
      exact hq
    | cons r before =>
      obtain ⟨rfl, rfl⟩ := List.cons.inj hpulls
      simp [hq]

/-- An edge that is there at every pull is given, at the latest before a pull stops. -/
theorem gives_of_always_there (h : GoesThrough g ids pulls) {id : Identifier} (hid : id ∈ ids)
    (hthere : ∀ p ∈ pulls, p.graph.edges.contains id.key = true)
    (hstops : ∃ p ∈ pulls, p.answer = .ok none) : ∃ p ∈ pulls, p.Gives g id := by
  induction h with
  | rest ids =>
    obtain ⟨p, hp, -⟩ := hstops
    cases hp
  | @gives gone ids id' graph e pulls skipped view later ih =>
    obtain hid | hid := List.mem_append.1 hid
    · have hgone := skipped id hid
      rw [hthere _ List.mem_cons_self] at hgone
      cases hgone
    · obtain rfl | hid := List.mem_cons.1 hid
      · exact ⟨_, List.mem_cons_self, e, view, rfl⟩
      · obtain ⟨p, hp, hnone⟩ := hstops
        obtain rfl | hp := List.mem_cons.1 hp
        · cases hnone
        · obtain ⟨q, hq, hgives⟩ := ih hid (fun q hq => hthere q (List.mem_cons_of_mem _ hq))
            ⟨p, hp, hnone⟩
          exact ⟨q, List.mem_cons_of_mem _ hq, hgives⟩
  | stops skipped later ih =>
    have hgone := skipped id hid
    rw [hthere _ List.mem_cons_self] at hgone
    cases hgone

end GoesThrough

/-- What pulls of an iterator over edges come to, from the ids that were there at the first
one. -/
structure IteratesSafely (g : GraphRef) (ids : List Identifier) (pulls : List EdgePull) :
    Prop where
  /-- No pull fails: each one gives an edge that is there, as it is then, or nothing. -/
  answers : ∀ p ∈ pulls, (∃ id ∈ ids, p.Gives g id) ∨ p.answer = .ok none
  /-- Once a pull has given nothing, all later ones do so. -/
  stopped : ∀ before p after, pulls = before ++ p :: after → p.answer = .ok none →
    ∀ q ∈ after, q.answer = .ok none
  /-- The edges come in the order of the ids, and no other edges come. -/
  inOrder : (givenIds pulls).Sublist (ids.map (·.value))
  /-- No edge comes twice, not even under another spelling of its id. -/
  once : ((givenIds pulls).map Value.key?).Nodup
  /-- An id whose edge is there when the iterator gets to it is given. -/
  reached : ∀ passed id rest before p after, ids = passed ++ id :: rest →
    pulls = before ++ p :: after → p.GetsPast before passed →
    p.graph.edges.contains id.key = true → p.Gives g id
  /-- An edge that is there at every pull is given, at the latest before a pull stops. -/
  complete : ∀ id ∈ ids, (∀ p ∈ pulls, p.graph.edges.contains id.key = true) →
    (∃ p ∈ pulls, p.answer = .ok none) → ∃ p ∈ pulls, p.Gives g id

theorem Catalog.pairwise_identifiers {α : Type} (c : Catalog α) :
    c.identifiers.Pairwise fun i j => i.key ≠ j.key := by
  have hnodup := c.nodup
  rw [List.Nodup, List.pairwise_map] at hnodup
  exact List.pairwise_map.2 hnodup

/-- **Edges can be gone through whatever happens to the graph meanwhile.** -/
theorem edges_iterate_safely {hooksOf : GeneratorRef → Hooks} {g : GraphRef} {c : CursorRef}
    {w w' : World} {first : EdgePull} {pulls : List EdgePull}
    (hc : w.cursorAt c = ⟨.edges g, .fresh⟩)
    (h : PullsAmid hooksOf g c w (first :: pulls) w') :
    IteratesSafely g first.graph.edges.identifiers (first :: pulls) := by
  have hgoes := h.goesThrough hc
  have hapart := first.graph.edges.pairwise_identifiers
  refine ⟨fun p hp => hgoes.answers hp, fun before p after hpulls hp q hq =>
    hgoes.stays_stopped hpulls hp hq, hgoes.sublist, ?_,
    fun passed id rest before p after hids hpulls hpast hthere =>
      hgoes.gives_reached hapart hids hpulls hpast hthere,
    fun id hid hthere hstops => hgoes.gives_of_always_there hid hthere hstops⟩
  refine (hgoes.sublist.map Value.key?).nodup ?_
  rw [List.map_map, List.Nodup, List.pairwise_map]
  refine hapart.imp fun {i j} hij hkey => hij ?_
  simpa [i.key?_value, j.key?_value] using hkey

/-! ## §4. Requests between pulls. -/

open Run Session

section Requests

variable {host : Host} {hooksOf : GeneratorRef → Hooks} {g : GraphRef} {c : CursorRef} {w : World}

/-- Make requests to a graph, whether they fail or not. -/
def requestAll (host : Host) (g : GraphRef) (w : World) (changes : List Change) : World :=
  changes.foldl (fun w change => ((perform host g change .empty).exec w).2) w

/-- Make some requests and pull the iterator, and do this again and again. -/
def pullAfterEach (host : Host) (hooksOf : GeneratorRef → Hooks) (g : GraphRef) (c : CursorRef)
    (w : World) : List (List Change) → List EdgePull × World
  | [] => ([], w)
  | changes :: rest =>
    let v := requestAll host g w changes
    let after := pullAfterEach host hooksOf g c ((nextItem hooksOf c).exec v).2 rest
    (⟨(v.objectAt g).graph, ((nextItem hooksOf c).exec v).1⟩ :: after.1, after.2)

/-- Requests leave an iterator alone, unless a sink that is told of them does not. -/
theorem cursorAt_requestAll (hspares : ∀ x s sender event,
      Keeps (fun w => w.cursorAt c = x) (host.notify s sender event))
    (w : World) (changes : List Change) :
    (requestAll host g w changes).cursorAt c = w.cursorAt c := by
  have hgraph : ∀ x g graph, Keeps (fun w => w.cursorAt c = x) (World.setGraph g graph) :=
    fun x g graph => ⟨fun w hw => hw⟩
  have hcommit : ∀ x change, Keeps (fun w => w.cursorAt c = x) (commit host g change) := by
    intro x change
    have := hgraph x
    have := hspares x
    exact keeps_commit_of_setGraph g change
  have hperform : ∀ x change, Keeps (fun w => w.cursorAt c = x) (perform host g change .empty) := by
    intro x change
    have := hcommit x
    unfold perform
    infer_instance
  unfold requestAll
  induction changes generalizing w with
  | nil => rfl
  | cons change changes ih => exact (ih _).trans ((hperform _ change).after w rfl)

theorem PullsAmid.of_pullAfterEach (hspares : ∀ x s sender event,
      Keeps (fun w => w.cursorAt c = x) (host.notify s sender event))
    (w : World) (requests : List (List Change)) :
    PullsAmid hooksOf g c w (pullAfterEach host hooksOf g c w requests).1
      (pullAfterEach host hooksOf g c w requests).2 := by
  induction requests generalizing w with
  | nil => exact .done w
  | cons changes rest ih => exact .elsewhere (cursorAt_requestAll hspares w changes) (.pulled (ih _))

end Requests

namespace Iterating

/-- Four nodes, joined one after the other by three edges. -/
def threeEdges : Graph := (Graph.empty false).applied
  [.addNode (.int 1), .addNode (.int 2), .addNode (.int 3), .addNode (.int 4),
    .addEdge (.str "a") (.int 1) (.int 2), .addEdge (.str "b") (.int 2) (.int 3),
    .addEdge (.str "c") (.int 3) (.int 4)]

/-- An iterator over the edges of the graph. -/
def stage : World :=
  { World.initial with
    graphs := ⟨[⟨"g", ⟨.str "G", []⟩, threeEdges⟩]⟩
    cursors := ⟨[⟨.edges ⟨0⟩, .fresh⟩]⟩ }

/-- After the first pull, edge "b" goes, edge "c" comes back between other nodes, and
there is a new edge; after the second pull, everything goes. -/
def requests : List (List Change) :=
  [[], [.removeEdge (.str "b"), .removeEdge (.str "c"), .addEdge (.str "d") (.int 2) (.int 4),
    .addEdge (.str "c") (.int 4) (.int 1)], [.clear], []]

end Iterating

open Iterating in
/-- What is gone is left out, what has come back is given as it is then, and what is new
is not given. -/
theorem edges_iterate_safely_requests :
    let pulls := (pullAfterEach (hostOfDepth 0) (hooksOf (hostOfDepth 0)) ⟨0⟩ ⟨0⟩ stage requests).1
    IteratesSafely ⟨0⟩ threeEdges.edges.identifiers pulls
    ∧ pulls.map EdgePull.answer = [.ok (some (.edge ⟨0⟩ (.str "a") (.int 1) (.int 2))),
      .ok (some (.edge ⟨0⟩ (.str "c") (.int 4) (.int 1))), .ok none, .ok none] := by
  refine ⟨?_, rfl⟩
  exact edges_iterate_safely (w := stage) rfl
    (PullsAmid.of_pullAfterEach (fun _ _ _ _ => .of_reads (.throw _)) stage requests)

end EvolvingGraph
