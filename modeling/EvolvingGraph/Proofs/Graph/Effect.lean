/-
  EvolvingGraph.Proofs.Graph.Effect
  ─────────────────────────────────
  **WHAT A CHANGE DOES WHEN IT TAKES EFFECT.**

  `Graph.apply` says what comes of a change by running checks one after the
  other.  `Graph.Takes` says the same as a relation: under which conditions a
  change takes effect, which graph it leaves, and which event reports it.
  Everything that is proved about changes later goes by cases on this relation
  and opens no check again.

  Main statements:
    * `apply_eq_some_iff` — a change reports an event exactly if it takes effect;
    * `Takes.asChange` — a follower of the event makes the same change.
-/
import EvolvingGraph.Proofs.Catalog
import EvolvingGraph.Graph.Basic

namespace EvolvingGraph

/-! ## §1. Computations that succeed, and where one fails. -/

section Success

variable {α β : Type}

@[simp] theorem bind_eq_ok_iff {x : Except Error α} {f : α → Except Error β} {b : β} :
    (x >>= f) = .ok b ↔ ∃ a, x = .ok a ∧ f a = .ok b := by
  cases x <;> simp [bind, Except.bind]

@[simp] theorem map_eq_ok_iff {x : Except Error α} {f : α → β} {b : β} :
    (f <$> x) = .ok b ↔ ∃ a, x = .ok a ∧ f a = b := by
  cases x <;> simp [Functor.map, Except.map]

@[simp] theorem discard_eq_ok_iff {x : Except Error α} {u : PUnit} :
    discard x = .ok u ↔ ∃ a, x = .ok a := by
  cases x <;> simp [discard, Functor.mapConst, Except.map]

@[simp] theorem pure_eq_ok_iff {a b : α} : (pure a : Except Error α) = .ok b ↔ a = b := by
  simp [pure, Except.pure]

@[simp] theorem throw_ne_ok {e : Error} {a : α} : (throw e : Except Error α) ≠ .ok a := by
  simp [throw, throwThe, MonadExceptOf.throw]

theorem mapM_eq_ok {f : α → Except Error β} {g : α → β} {xs : List α}
    (h : ∀ x ∈ xs, f x = .ok (g x)) : xs.mapM f = .ok (xs.map g) := by
  induction xs with
  | nil => rfl
  | cons x xs ih =>
    rw [List.mapM_cons, h x List.mem_cons_self, ih fun y hy => h y (List.mem_cons_of_mem _ hy)]
    rfl

theorem foldlM_congr {f f' : β → α → Except Error β} {xs : List α}
    (h : ∀ a ∈ xs, ∀ b, f b a = f' b a) {b : β} : xs.foldlM f b = xs.foldlM f' b := by
  rw [List.foldlM_eq_foldl, List.foldlM_eq_foldl]
  exact List.foldl_ext _ _ _ fun x a ha => congrArg (x >>= ·) (funext (h a ha))

/-- What each step of a computation keeps, the whole keeps. -/
theorem foldlM_keeps {kept : β → Prop} {f : β → α → Except Error β}
    (hstep : ∀ b a b', kept b → f b a = .ok b' → kept b') {xs : List α} {b b' : β}
    (hb : kept b) (h : xs.foldlM f b = .ok b') : kept b' := by
  induction xs generalizing b with
  | nil =>
    obtain rfl := pure_eq_ok_iff.1 h
    exact hb
  | cons x xs ih =>
    rw [List.foldlM_cons] at h
    obtain ⟨b'', hx, h⟩ := bind_eq_ok_iff.1 h
    exact ih (hstep b x b'' hb hx) h

/-- What is not so of all is not so of one for the first time. -/
theorem exists_first_failure {p : α → Prop} {xs : List α} (h : ¬∀ x ∈ xs, p x) :
    ∃ before x after, xs = before ++ x :: after ∧ ¬p x ∧ ∀ y ∈ before, p y := by
  induction xs with
  | nil => exact absurd (fun _ hx => absurd hx List.not_mem_nil) h
  | cons x xs ih =>
    by_cases hx : p x
    · obtain ⟨before, y, after, rfl, hy, hbefore⟩ :=
        ih fun hall => h (List.forall_mem_cons.2 ⟨hx, hall⟩)
      exact ⟨x :: before, y, after, rfl, hy, List.forall_mem_cons.2 ⟨hx, hbefore⟩⟩
    · exact ⟨[], x, xs, rfl, hx, fun _ hy => absurd hy List.not_mem_nil⟩

end Success

/-! ## §2. Names. -/

theorem Identifier.ofValue?_eq_some_iff {v : Value} {name : Identifier} :
    Identifier.ofValue? v = some name ↔ name.value = v := by
  unfold ofValue?
  constructor
  · intro h
    split at h
    · injection h with h
      rw [← h]
    · exact absurd h (by simp)
  · rintro rfl
    have hkey := name.key?_value
    split
    · next k hk =>
      rw [hkey] at hk
      injection hk with hk
      subst hk
      rfl
    · next hk => rw [hkey] at hk; exact absurd hk (by simp)

/-- A value as a name. -/
def Value.asName (v : Value) : Identifier := (Identifier.ofValue? v).getD default

theorem Value.asName_value {v : Value} {k : Key} (h : v.key? = some k) : v.asName.value = v := by
  unfold asName
  cases hname : Identifier.ofValue? v with
  | none => exact absurd (Identifier.ofValue?_eq_none_iff.1 hname) (by simp [h])
  | some name => exact Identifier.ofValue?_eq_some_iff.1 hname

theorem Value.asName_key {v : Value} {k : Key} (h : v.key? = some k) : v.asName.key = k := by
  have hkey := v.asName.key?_value
  rw [asName_value h, h] at hkey
  exact (Option.some.inj hkey).symm

namespace Graph

theorem identify_eq_ok_iff {v : Value} {name : Identifier} :
    identify v = .ok name ↔ name.value = v := by
  rw [← Identifier.ofValue?_eq_some_iff]
  unfold identify
  split <;> simp_all

theorem keyOf_eq_ok_iff {v : Value} {k : Key} : keyOf v = .ok k ↔ v.key? = some k := by
  unfold keyOf
  split <;> simp_all

@[simp] theorem keyOf_value (name : Identifier) : keyOf name.value = .ok name.key :=
  keyOf_eq_ok_iff.2 name.key?_value

theorem nodeKey_eq_ok_iff {g : Graph} {v : Value} {k : Key} :
    g.nodeKey v = .ok k ↔ v.key? = some k ∧ g.nodes.contains k = true := by
  unfold nodeKey
  split
  · next j hj =>
    split
    · next hc =>
      simp only [Except.ok.injEq, hj, Option.some.injEq]
      exact ⟨fun h => ⟨h, h ▸ hc⟩, fun h => h.1⟩
    · next hc =>
      simp only [reduceCtorEq, hj, Option.some.injEq, false_iff, not_and]
      rintro rfl
      exact hc
  · next hj => simp [hj]

theorem nodeKey_value_eq_ok_iff {g : Graph} {name : Identifier} {k : Key} :
    g.nodeKey name.value = .ok k ↔ name.key = k ∧ g.nodes.contains k = true := by
  simp [nodeKey_eq_ok_iff, name.key?_value]

theorem endpoints_eq_ok_iff {g : Graph} {v : Value} {ends : Endpoints} :
    g.endpoints v = .ok ends ↔ ∃ k, v.key? = some k ∧ g.edges.get? k = some ends := by
  unfold endpoints
  cases hk : v.key? with
  | none => simp [keyOf, hk, bind, Except.bind]
  | some k =>
    simp only [keyOf_eq_ok_iff.2 hk, bind, Except.bind]
    cases hg : g.edges.get? k <;> simp [hg, pure, Except.pure, throw, throwThe, MonadExceptOf.throw]

theorem edgeAttributes_eq_ok_iff {g : Graph} {v : Value} {a : Attributes} :
    g.edgeAttributes v = .ok a ↔ ∃ ends l, g.endpoints v = .ok ends
      ∧ g.link? ends.source.key ends.target.key = some l ∧ l.attributes = a := by
  unfold edgeAttributes
  cases he : g.endpoints v with
  | error e => simp [bind, Except.bind]
  | ok ends =>
    cases hl : g.link? ends.source.key ends.target.key <;>
      simp [hl, bind, Except.bind, pure, Except.pure, throw, throwThe, MonadExceptOf.throw]

/-! ## §3. Putting attributes. -/

/-- Putting attributes succeeds on exactly the elements that have some. -/
theorem putAttributes_node_eq_ok_iff {g g' : Graph} {v : Value} {a : Attributes} :
    g.putAttributes .node v a = .ok g' ↔ ∃ k, g.nodeKey v = .ok k
      ∧ g' = { g with nodes := g.nodes.modify k fun _ => a } := by
  unfold putAttributes
  cases hk : g.nodeKey v <;> simp [bind, Except.bind, pure, Except.pure, eq_comm]

theorem putAttributes_edge_eq_ok_iff {g g' : Graph} {v : Value} {a : Attributes} :
    g.putAttributes .edge v a = .ok g' ↔ ∃ ends, g.endpoints v = .ok ends
      ∧ g' = { g with toNetwork :=
          g.modifyLink ends.source.key ends.target.key fun _ => a } := by
  unfold putAttributes
  cases hk : g.endpoints v <;> simp [bind, Except.bind, pure, Except.pure, eq_comm]

/-! ## §4. Single changes that succeed. -/

theorem addNode_eq_ok_iff {g : Graph} {id : Value} {r : Graph × Option Event} :
    g.addNode id = .ok r ↔ ∃ name : Identifier, name.value = id
      ∧ g.nodes.contains name.key = false ∧ id.isNull = false
      ∧ ({ g with nodes := g.nodes.insert name .empty }, some (.nodeAdded id)) = r := by
  unfold addNode
  rw [bind_eq_ok_iff]
  apply exists_congr
  intro name
  rw [identify_eq_ok_iff]
  apply and_congr_right
  rintro rfl
  cases hc : g.nodes.contains name.key <;> cases hz : name.value.isNull <;> simp

theorem removeNode_eq_ok_iff {g : Graph} {id : Value} {r : Graph × Option Event} :
    g.removeNode id = .ok r ↔ ∃ k, id.key? = some k ∧ g.nodes.contains k = true
      ∧ ({ g with toNetwork := g.eraseNode k }, some (.nodeRemoved id)) = r := by
  unfold removeNode
  rw [bind_eq_ok_iff]
  apply exists_congr
  intro k
  rw [keyOf_eq_ok_iff]
  apply and_congr_right
  intro hk
  cases hc : g.nodes.contains k <;> simp

theorem addEdge_eq_ok_iff {g : Graph} {id source target : Value} {r : Graph × Option Event} :
    g.addEdge id source target = .ok r ↔ ∃ name s t : Identifier, name.value = id
      ∧ s.value = source ∧ t.value = target ∧ g.edges.contains name.key = false
      ∧ g.nodes.contains s.key = true ∧ g.nodes.contains t.key = true
      ∧ g.linked s.key t.key = false
      ∧ ({ g with
          toNetwork := g.connect s t
          edges := g.edges.insert name ⟨s, t⟩ }, some (.edgeAdded id source target)) = r := by
  unfold addEdge
  simp only [bind_eq_ok_iff, identify_eq_ok_iff]
  apply exists_congr
  intro name
  cases hc : g.edges.contains name.key with
  | true => simp
  | false =>
    constructor
    · rintro ⟨rfl, h⟩
      simp only [Bool.false_eq_true, if_false, discard_eq_ok_iff, bind_eq_ok_iff,
        identify_eq_ok_iff] at h
      obtain ⟨_, ⟨j, hs⟩, _, ⟨k, ht⟩, s, rfl, t, rfl, h⟩ := h
      rw [nodeKey_value_eq_ok_iff] at hs ht
      obtain ⟨rfl, hs⟩ := hs
      obtain ⟨rfl, ht⟩ := ht
      cases hl : g.linked s.key t.key with
      | true => simp [hl] at h
      | false => exact ⟨s, t, rfl, rfl, rfl, rfl, hs, ht, hl, by simpa [hl] using h⟩
    · rintro ⟨s, t, rfl, rfl, rfl, _, hs, ht, hl, rfl⟩
      have hs' := nodeKey_value_eq_ok_iff.2 ⟨rfl, hs⟩
      have ht' := nodeKey_value_eq_ok_iff.2 ⟨rfl, ht⟩
      refine ⟨rfl, ?_⟩
      simp only [Bool.false_eq_true, if_false, discard_eq_ok_iff, bind_eq_ok_iff,
        identify_eq_ok_iff]
      exact ⟨⟨⟩, ⟨_, hs'⟩, ⟨⟩, ⟨_, ht'⟩, s, rfl, t, rfl, by simp [hl]⟩

theorem setAttribute_eq_ok_iff {g : Graph} {on : ElementKind} {id key value : Value}
    {r : Graph × Option Event} :
    g.setAttribute on id key value = .ok r ↔ ∃ a, g.attributesOf on id = .ok a
      ∧ ∃ name : Identifier, name.value = key
      ∧ ∃ g', g.putAttributes on id (a.insert name value) = .ok g'
      ∧ (g', some (.attributeChanged on id key ((a.get? name.key).getD .null) value)) = r := by
  unfold setAttribute
  simp only [bind_eq_ok_iff, identify_eq_ok_iff, pure_eq_ok_iff]

theorem removeAttribute_eq_ok_iff {g : Graph} {on : ElementKind} {id key : Value}
    {r : Graph × Option Event} :
    g.removeAttribute on id key = .ok r ↔ ∃ a, g.attributesOf on id = .ok a
      ∧ ∃ k, key.key? = some k
      ∧ ((a.get? k = none ∧ (g, none) = r)
        ∨ ∃ old, a.get? k = some old ∧ ∃ g', g.putAttributes on id (a.erase k) = .ok g'
          ∧ (g', some (.attributeRemoved on id key old)) = r) := by
  unfold removeAttribute
  simp only [bind_eq_ok_iff, keyOf_eq_ok_iff]
  apply exists_congr
  intro a
  apply and_congr_right
  intro _
  apply exists_congr
  intro k
  apply and_congr_right
  intro _
  cases ha : a.get? k <;> simp

/-! ## §5. The relation. -/

/-- A change takes effect on a graph: the graph it leaves, and the event that
reports it. -/
inductive Takes (g : Graph) : Change → Graph → Event → Prop where
  | addNode {name : Identifier} (fresh : g.nodes.contains name.key = false)
      (named : name.value.isNull = false) :
      Takes g (.addNode name.value) { g with nodes := g.nodes.insert name .empty }
        (.nodeAdded name.value)
  | removeNode {id : Value} {k : Key} (key : id.key? = some k)
      (present : g.nodes.contains k = true) :
      Takes g (.removeNode id) { g with toNetwork := g.eraseNode k } (.nodeRemoved id)
  | addEdge {name source target : Identifier} (fresh : g.edges.contains name.key = false)
      (source_mem : g.nodes.contains source.key = true)
      (target_mem : g.nodes.contains target.key = true)
      (apart : g.linked source.key target.key = false) :
      Takes g (.addEdge name.value source.value target.value)
        { g with
          toNetwork := g.connect source target
          edges := g.edges.insert name ⟨source, target⟩ }
        (.edgeAdded name.value source.value target.value)
  | removeEdge {id : Value} {k : Key} {ends : Endpoints} (key : id.key? = some k)
      (found : g.edges.get? k = some ends)
      (linked : g.linked ends.source.key ends.target.key = true) :
      Takes g (.removeEdge id)
        { g with
          edges := g.edges.erase k
          toNetwork := g.disconnect ends.source.key ends.target.key }
        (.edgeRemoved id)
  | setAttribute {on : ElementKind} {id value : Value} {name : Identifier} {a : Attributes}
      {g' : Graph} (read : g.attributesOf on id = .ok a)
      (put : g.putAttributes on id (a.insert name value) = .ok g') :
      Takes g (.setAttribute on id name.value value) g'
        (.attributeChanged on id name.value ((a.get? name.key).getD .null) value)
  | removeAttribute {on : ElementKind} {id name old : Value} {k : Key} {a : Attributes}
      {g' : Graph} (read : g.attributesOf on id = .ok a) (key : name.key? = some k)
      (found : a.get? k = some old) (put : g.putAttributes on id (a.erase k) = .ok g') :
      Takes g (.removeAttribute on id name) g' (.attributeRemoved on id name old)
  | clear : Takes g .clear (empty g.directed) .cleared

theorem ofExcept_eq_ok_iff {g g' : Graph} {x : Except Error (Graph × Option Event)}
    {r : Option Event} : Outcome.ofExcept g x = (g', .ok r) ↔ x = .ok (g', r) := by
  unfold Outcome.ofExcept
  cases x with
  | error e => simp
  | ok r => simp [Prod.ext_iff]

/-- A change reports an event exactly if it takes effect. -/
theorem apply_eq_some_iff {g g' : Graph} {c : Change} {e : Event} :
    g.apply c = (g', .ok (some e)) ↔ g.Takes c g' e := by
  cases c with
  | addNode id =>
    show Outcome.ofExcept g _ = _ ↔ _
    rw [ofExcept_eq_ok_iff, addNode_eq_ok_iff]
    constructor
    · rintro ⟨name, rfl, hc, hz, h⟩
      cases h
      exact .addNode hc hz
    · intro h
      cases h with
      | addNode hc hz => exact ⟨_, rfl, hc, hz, rfl⟩
  | removeNode id =>
    show Outcome.ofExcept g _ = _ ↔ _
    rw [ofExcept_eq_ok_iff, removeNode_eq_ok_iff]
    constructor
    · rintro ⟨k, hk, hc, h⟩
      cases h
      exact .removeNode hk hc
    · intro h
      cases h with
      | removeNode hk hc => exact ⟨_, hk, hc, rfl⟩
  | addEdge id source target =>
    show Outcome.ofExcept g _ = _ ↔ _
    rw [ofExcept_eq_ok_iff, addEdge_eq_ok_iff]
    constructor
    · rintro ⟨name, s, t, rfl, rfl, rfl, hn, hs, ht, hl, h⟩
      cases h
      exact .addEdge hn hs ht hl
    · intro h
      cases h with
      | addEdge hn hs ht hl => exact ⟨_, _, _, rfl, rfl, rfl, hn, hs, ht, hl, rfl⟩
  | removeEdge id =>
    show g.removeEdge id = _ ↔ _
    constructor
    · intro h
      unfold removeEdge at h
      split at h
      · simp at h
      · split at h
        · next k ends hk hends =>
          obtain ⟨j, hj, hget⟩ := endpoints_eq_ok_iff.1 hends
          rw [keyOf_eq_ok_iff] at hk
          rw [hj] at hk
          injection hk with hk
          subst hk
          cases hl : g.linked ends.source.key ends.target.key with
          | true =>
            simp only [hl, if_true, Prod.mk.injEq, Except.ok.injEq, Option.some.injEq] at h
            obtain ⟨rfl, rfl⟩ := h
            exact .removeEdge hj hget hl
          | false => simp [hl] at h
        · simp at h
        · simp at h
    · intro h
      cases h with
      | @removeEdge _ k ends hk hget hl =>
        -- the table is not empty: the edge is in it
        have hsize : g.edges.size ≠ 0 := by
          obtain ⟨name, hmem, _⟩ := Catalog.get?_eq_some_iff.1 hget
          exact List.length_pos_of_mem hmem |>.ne'
        have hends : g.endpoints id = .ok ends := endpoints_eq_ok_iff.2 ⟨k, hk, hget⟩
        unfold removeEdge
        simp [hsize, keyOf_eq_ok_iff.2 hk, hends, hl]
  | setAttribute on id key value =>
    show Outcome.ofExcept g _ = _ ↔ _
    rw [ofExcept_eq_ok_iff, setAttribute_eq_ok_iff]
    constructor
    · rintro ⟨a, ha, name, rfl, g'', hput, h⟩
      cases h
      exact .setAttribute ha hput
    · intro h
      cases h with
      | setAttribute ha hput => exact ⟨_, ha, _, rfl, _, hput, rfl⟩
  | removeAttribute on id key =>
    show Outcome.ofExcept g _ = _ ↔ _
    rw [ofExcept_eq_ok_iff, removeAttribute_eq_ok_iff]
    constructor
    · rintro ⟨a, ha, k, hk, ⟨_, h⟩ | ⟨old, hold, g'', hput, h⟩⟩
      · cases h
      · cases h
        exact .removeAttribute ha hk hold hput
    · intro h
      cases h with
      | removeAttribute ha hk hold hput =>
        exact ⟨_, ha, _, hk, .inr ⟨_, hold, _, hput, rfl⟩⟩
  | clear =>
    rw [apply_clear]
    constructor
    · intro h
      cases h
      exact .clear
    · intro h
      cases h
      rfl

/-- A change that is made without an event removes an attribute that is not there. -/
theorem absent_of_apply_eq_none {g g' : Graph} {c : Change} (h : g.apply c = (g', .ok none)) :
    ∃ on id name a k, c = .removeAttribute on id name ∧ g.attributesOf on id = .ok a
      ∧ name.key? = some k ∧ a.get? k = none := by
  cases c with
  | addNode id =>
    obtain ⟨_, _, _, _, heq⟩ := addNode_eq_ok_iff.1 (ofExcept_eq_ok_iff.1 h)
    exact absurd (congrArg Prod.snd heq) (by simp)
  | removeNode id =>
    obtain ⟨_, _, _, heq⟩ := removeNode_eq_ok_iff.1 (ofExcept_eq_ok_iff.1 h)
    exact absurd (congrArg Prod.snd heq) (by simp)
  | addEdge id source target =>
    obtain ⟨_, _, _, _, _, _, _, _, _, _, heq⟩ := addEdge_eq_ok_iff.1 (ofExcept_eq_ok_iff.1 h)
    exact absurd (congrArg Prod.snd heq) (by simp)
  | removeEdge id =>
    replace h : g.removeEdge id = (g', .ok none) := h
    unfold removeEdge at h
    split at h
    · simp at h
    · split at h
      · split at h <;> simp at h
      · simp at h
      · simp at h
  | setAttribute on id key value =>
    obtain ⟨_, _, _, _, _, _, heq⟩ := setAttribute_eq_ok_iff.1 (ofExcept_eq_ok_iff.1 h)
    exact absurd (congrArg Prod.snd heq) (by simp)
  | removeAttribute on id name =>
    obtain ⟨a, hread, k, hk, ⟨hnone, -⟩ | ⟨_, _, _, _, heq⟩⟩ :=
      removeAttribute_eq_ok_iff.1 (ofExcept_eq_ok_iff.1 h)
    · exact ⟨on, id, name, a, k, rfl, hread, hk, hnone⟩
    · exact absurd (congrArg Prod.snd heq) (by simp)
  | clear => exact absurd (Prod.mk.inj h).2 (by simp)

/-- An event leads a follower to the change that it reports. -/
theorem Takes.asChange {g g' : Graph} {c : Change} {e : Event} (h : g.Takes c g' e) :
    e.asChange = c := by
  cases h <;> rfl

end Graph
end EvolvingGraph
