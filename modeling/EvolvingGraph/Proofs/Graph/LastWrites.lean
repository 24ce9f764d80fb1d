/-
  EvolvingGraph.Proofs.Graph.LastWrites
  ─────────────────────────────────────
  **AN ATTRIBUTE IS WHAT WAS LAST SAID OF IT.**

  The attributes of an edge are kept with the link between its ends, and found by
  way of the ends that the edge table gives.  Nobody who reads them should have to
  know.  For one attribute of one element a record of changes says what to expect:
  an addition of the element leaves it unset, a setting gives it a value, and a
  removal takes the value away (`lastWritten`).  Nothing else counts: neither other
  elements, nor the pairs that edges join, nor what an element of this id had before.

  In a coherent graph each element bears the attributes of its own, so every change
  does to the attributes of an element what it says of them.

  Main statements:
    * `Coherent.bears_iff` — which attributes an element bears;
    * `Coherent.written_of_apply` — what one change does to an attribute;
    * `RecordedIn.applyAll` — what orderly changes do, one after the other;
    * `RecordedIn.readAttribute_eq` — what is read is what was last written.
-/
import EvolvingGraph.Proofs.Graph.Coherence

namespace EvolvingGraph

theorem Catalog.get?_modify {α : Type} (c : Catalog α) (f : α → α) (j k : Key) :
    (c.modify k f).get? j = if j = k then (c.get? k).map f else c.get? j := by
  unfold modify
  split
  · next name a hentry =>
    obtain ⟨hmem, rfl⟩ := entry?_eq_some_iff.1 hentry
    by_cases hj : j = name.key
    · rw [if_pos hj, hj, get?_insert_self, get?_of_mem hmem]
      rfl
    · rw [if_neg hj, get?_insert_of_ne _ _ _ hj]
  · next hnone =>
    have hget : c.get? k = none := by rw [get?, hnone, Option.map_none]
    by_cases hj : j = k
    · rw [if_pos hj, hj, hget, Option.map_none]
    · rw [if_neg hj]

/-! ## §1. What a record of changes says of an attribute. -/

/-- What a change says of an attribute of an element, if it says anything: the
value that it gets, or that it has none.  An element that is added has no
attributes yet. -/
def Change.written? (on : ElementKind) (k j : Key) : Change → Option (Option Value)
  | .addNode id => if on = .node ∧ id.key? = some k then some none else none
  | .addEdge id _ _ => if on = .edge ∧ id.key? = some k then some none else none
  | .setAttribute kind id name value =>
    if (kind = on ∧ id.key? = some k) ∧ name.key? = some j then some (some value) else none
  | .removeAttribute kind id name =>
    if (kind = on ∧ id.key? = some k) ∧ name.key? = some j then some none else none
  | .removeNode _ | .removeEdge _ | .clear => none

/-- The value that an attribute of an element has after some changes: the last one
that says something of it counts. -/
def lastWritten (on : ElementKind) (k j : Key) (record : List Change) : Option Value :=
  record.foldl (fun value c => (c.written? on k j).getD value) none

section Record

variable {on : ElementKind} {k j : Key}

theorem lastWritten_append (record changes : List Change) :
    lastWritten on k j (record ++ changes)
      = changes.foldl (fun value c => (c.written? on k j).getD value) (lastWritten on k j record) :=
  List.foldl_append

theorem lastWritten_concat (record : List Change) (c : Change) :
    lastWritten on k j (record ++ [c]) = (c.written? on k j).getD (lastWritten on k j record) :=
  lastWritten_append record [c]

/-- Changes that say nothing of an attribute can be left out. -/
theorem lastWritten_append_of_silent (record : List Change) {changes : List Change}
    (h : ∀ c ∈ changes, c.written? on k j = none) :
    lastWritten on k j (record ++ changes) = lastWritten on k j record := by
  rw [lastWritten_append]
  generalize lastWritten on k j record = value
  induction changes with
  | nil => rfl
  | cons c rest ih =>
    rw [List.foldl_cons, h c List.mem_cons_self]
    exact ih fun d hd => h d (List.mem_cons_of_mem _ hd)

end Record

namespace Graph

variable {g g' : Graph} {on : ElementKind} {k j : Key} {id : Value} {a b : Attributes}

/-! ## §2. The attributes that elements bear. -/

/-- An element of the graph has these attributes: a node those that are filed under
it, an edge those of the link between its ends. -/
def Bears (g : Graph) : ElementKind → Key → Attributes → Prop
  | .node, k, a => g.nodes.get? k = some a
  | .edge, k, a => ∃ ends, g.edges.get? k = some ends ∧ ⟨ends.source, ends.target, a⟩ ∈ g.links

/-- An element is there. -/
def HasElement (g : Graph) : ElementKind → Key → Prop
  | .node, k => g.nodes.contains k = true
  | .edge, k => g.edges.contains k = true

/-- No two links of a coherent graph have the same ends. -/
theorem Coherent.eq_of_mem_links (hg : g.Coherent) {source target : Identifier}
    (ha : ⟨source, target, a⟩ ∈ g.links) (hb : ⟨source, target, b⟩ ∈ g.links) : a = b := by
  have hlink := List.inj_on_of_nodup_map hg.nodup_endpoints ha hb rfl
  exact congrArg Link.attributes hlink

theorem Coherent.exists_bears (hg : g.Coherent) (h : g.HasElement on k) : ∃ a, g.Bears on k a := by
  cases on with
  | node => exact Catalog.contains_iff_get?.1 h
  | edge =>
    obtain ⟨ends, hends⟩ := Catalog.contains_iff_get?.1 h
    obtain ⟨name, hmem, -⟩ := Catalog.get?_eq_some_iff.1 hends
    obtain ⟨⟨source, target, a⟩, hl, rfl⟩ := hg.exists_link hmem
    exact ⟨a, _, hends, hl⟩

/-- **In a coherent graph the attributes that an element bears are those that are read.** -/
theorem Coherent.bears_iff (hg : g.Coherent) (hid : id.key? = some k) :
    g.Bears on k a ↔ g.attributesOf on id = .ok a := by
  cases on with
  | node =>
    show g.nodes.get? k = some a ↔ g.nodeAttributes id = .ok a
    unfold nodeAttributes
    rw [bind_eq_ok_iff]
    constructor
    · intro hget
      refine ⟨k, nodeKey_eq_ok_iff.2 ⟨hid, Catalog.contains_iff_get?.2 ⟨a, hget⟩⟩, ?_⟩
      rw [hget]
      rfl
    · rintro ⟨k', hk, hread⟩
      obtain ⟨hkey, hmem⟩ := nodeKey_eq_ok_iff.1 hk
      obtain rfl : k' = k := Option.some.inj (hkey.symm.trans hid)
      obtain ⟨b, hb⟩ := Catalog.contains_iff_get?.1 hmem
      rw [hb] at hread ⊢
      exact congrArg some (Except.ok.inj hread)
  | edge =>
    show (∃ ends, _) ↔ g.edgeAttributes id = .ok a
    rw [edgeAttributes_eq_ok_iff]
    constructor
    · rintro ⟨ends, hends, hmem⟩
      obtain ⟨name, hentry, -⟩ := Catalog.get?_eq_some_iff.1 hends
      obtain ⟨⟨source, target, b⟩, hl, hl', hlink⟩ := hg.link?_of_mem hentry
      subst hl'
      exact ⟨_, _, endpoints_eq_ok_iff.2 ⟨k, hid, hends⟩, hlink, hg.eq_of_mem_links hl hmem⟩
    · rintro ⟨ends, l, hends, hlink, rfl⟩
      obtain ⟨k', hk, hget⟩ := endpoints_eq_ok_iff.1 hends
      obtain rfl : k' = k := Option.some.inj (hk.symm.trans hid)
      obtain ⟨name, hentry, -⟩ := Catalog.get?_eq_some_iff.1 hget
      obtain ⟨m, hm, hm', hlink'⟩ := hg.link?_of_mem hentry
      obtain rfl : m = l := Option.some.inj (hlink'.symm.trans hlink)
      obtain rfl : m.endpoints = ends := hm'
      exact ⟨_, hget, hm⟩

/-! ## §3. One change. -/

/-- Attributes that are put on an element are borne by this element alone; all
others bear what they bore. -/
theorem Coherent.bears_putAttributes (hg : g.Coherent) {kind : ElementKind} {new : Attributes}
    (hput : g.putAttributes kind id new = .ok g') (h : g'.Bears on k a) :
    ((kind = on ∧ id.key? = some k) ∧ a = new)
      ∨ (¬(kind = on ∧ id.key? = some k) ∧ g.Bears on k a) := by
  cases kind with
  | node =>
    obtain ⟨x, hx, rfl⟩ := putAttributes_node_eq_ok_iff.1 hput
    have hid := (nodeKey_eq_ok_iff.1 hx).1
    cases on with
    | node =>
      have hget : (g.nodes.modify x fun _ => new).get? k = some a := h
      rw [Catalog.get?_modify] at hget
      by_cases hk : k = x
      · rw [if_pos hk] at hget
        obtain ⟨_, -, hnew⟩ := Option.map_eq_some_iff.1 hget
        exact .inl ⟨⟨rfl, hk ▸ hid⟩, hnew.symm⟩
      · rw [if_neg hk] at hget
        exact .inr ⟨fun hsame => hk (Option.some.inj (hsame.2.symm.trans hid)), hget⟩
    | edge => exact .inr ⟨by simp, h⟩
  | edge =>
    obtain ⟨ends, hends, rfl⟩ := putAttributes_edge_eq_ok_iff.1 hput
    obtain ⟨x, hid, hget⟩ := endpoints_eq_ok_iff.1 hends
    obtain ⟨name, hentry, rfl⟩ := Catalog.get?_eq_some_iff.1 hget
    cases on with
    | node => exact .inr ⟨by simp, h⟩
    | edge =>
      obtain ⟨ends', hget', hmem⟩ := h
      obtain ⟨name', hentry', rfl⟩ := Catalog.get?_eq_some_iff.1 hget'
      obtain ⟨l, hl, hnew⟩ := List.mem_map.1 hmem
      by_cases hjoins : l.joins g.directed ends.source.key ends.target.key = true
      · -- the link has the ends of the edge, and no other edge has these
        rw [if_pos hjoins] at hnew
        obtain ⟨hs, ht, hattributes⟩ := Link.mk.inj hnew
        have hsame : l.endpoints = ends := (hg.joins_iff hentry hl).1 hjoins
        have hends' : ends' = ends := hsame ▸ congrArg₂ Endpoints.mk hs.symm ht.symm
        have heq := hg.eq_of_samePair hentry' hentry (hends' ▸ Endpoints.samePair_refl _ _)
        refine .inl ⟨⟨rfl, ?_⟩, hattributes.symm⟩
        rw [hid]
        exact congrArg (fun e : Identifier × Endpoints => some e.1.key) heq.symm
      · rw [if_neg hjoins] at hnew
        subst hnew
        refine .inr ⟨fun hsame => hjoins ?_, ends', hget', hl⟩
        -- the link of the edge itself would have been found
        have hkey : name'.key = name.key := Option.some.inj (hsame.2.symm.trans hid)
        obtain rfl : ends' = ends :=
          congrArg Prod.snd (Catalog.eq_of_mem_of_key_eq hentry' hentry hkey)
        exact (hg.joins_iff hentry hl).2 rfl

/-- What was said of an attribute before a change, if anything, and what the change
says of it, taken together. -/
def WrittenSince (g : Graph) (c : Change) (on : ElementKind) (k j : Key) (value : Option Value) :
    Prop :=
  c.written? on k j = some value
    ∨ c.written? on k j = none ∧ ∃ b, g.Bears on k b ∧ b.get? j = value

/-- What a change of attributes does to the other attributes of its element, and to
those of other elements. -/
theorem Coherent.writtenSince_put (hg : g.Coherent) {kind : ElementKind} {old new : Attributes}
    {x : Key} {said : Option Value} {c : Change}
    (hread : g.attributesOf kind id = .ok old) (hput : g.putAttributes kind id new = .ok g')
    (hsaid : new.get? x = said) (hother : ∀ j, j ≠ x → new.get? j = old.get? j)
    (hwritten : ∀ on k j, c.written? on k j
      = if (kind = on ∧ id.key? = some k) ∧ x = j then some said else none)
    (h : g'.Bears on k a) : g.WrittenSince c on k j (a.get? j) := by
  obtain ⟨⟨rfl, hid⟩, rfl⟩ | ⟨hne, hbears⟩ := hg.bears_putAttributes hput h
  · by_cases hx : x = j
    · refine .inl ?_
      rw [hwritten, if_pos ⟨⟨rfl, hid⟩, hx⟩, ← hx, hsaid]
    · refine .inr ⟨by rw [hwritten, if_neg fun h => hx h.2], old, (hg.bears_iff hid).2 hread, ?_⟩
      exact (hother j (Ne.symm hx)).symm
  · exact .inr ⟨by rw [hwritten, if_neg fun h => hne h.1], a, hbears, rfl⟩

/-- **A change that takes effect leaves with each element what was said of it.** -/
theorem Coherent.writtenSince_takes (hg : g.Coherent) {c : Change} {event : Event}
    (h : g.Takes c g' event) (horderly : g.Orderly c) (ha : g'.Bears on k a) :
    g.WrittenSince c on k j (a.get? j) := by
  have hg' := hg.takes h horderly
  cases h with
  | @addNode name fresh named =>
    cases on with
    | node =>
      have hget : (g.nodes.insert name .empty).get? k = some a := ha
      by_cases hk : k = name.key
      · rw [hk, Catalog.get?_insert_self] at hget
        refine .inl ?_
        rw [← Option.some.inj hget]
        simp [Change.written?, name.key?_value, hk]
        rfl
      · rw [Catalog.get?_insert_of_ne _ _ _ hk] at hget
        exact .inr ⟨by simp [Change.written?, name.key?_value, Ne.symm hk], a, hget, rfl⟩
    | edge => exact .inr ⟨by simp [Change.written?], a, ha, rfl⟩
  | @removeNode id x key present =>
    refine .inr ⟨rfl, a, ?_, rfl⟩
    cases on with
    | node =>
      have hget : (g.nodes.erase x).get? k = some a := ha
      by_cases hk : k = x
      · rw [hk, Catalog.get?_erase_self] at hget
        exact absurd hget (by simp)
      · rwa [Catalog.get?_erase_of_ne _ hk] at hget
    | edge =>
      obtain ⟨ends, hends, hmem⟩ := ha
      exact ⟨ends, hends, List.mem_of_mem_filter hmem⟩
  | @addEdge name source target fresh source_mem target_mem apart =>
    cases on with
    | node => exact .inr ⟨by simp [Change.written?], a, ha, rfl⟩
    | edge =>
      obtain ⟨ends, hends, hmem⟩ := ha
      have hget : (g.edges.insert name ⟨source, target⟩).get? k = some ends := hends
      by_cases hk : k = name.key
      · -- the new edge bears the attributes of the new link
        rw [hk, Catalog.get?_insert_self] at hget
        obtain rfl := Option.some.inj hget
        have hnew : a = .empty := hg'.eq_of_mem_links hmem
          (List.mem_append_right _ (List.mem_singleton.2 rfl))
        refine .inl ?_
        rw [hnew]
        simp [Change.written?, name.key?_value, hk]
        rfl
      · -- any other edge has a link already, and no other one with its ends
        rw [Catalog.get?_insert_of_ne _ _ _ hk] at hget
        have hthere : g.HasElement .edge k := Catalog.contains_iff_get?.2 ⟨ends, hget⟩
        obtain ⟨b, ends', hget', hold⟩ := hg.exists_bears hthere
        obtain rfl : ends' = ends := Option.some.inj (hget'.symm.trans hget)
        obtain rfl : a = b := hg'.eq_of_mem_links hmem (List.mem_append_left _ hold)
        exact .inr ⟨by simp [Change.written?, name.key?_value, Ne.symm hk], a, ⟨_, hget, hold⟩, rfl⟩
  | @removeEdge id x ends key found linked =>
    refine .inr ⟨rfl, a, ?_, rfl⟩
    cases on with
    | node => exact ha
    | edge =>
      obtain ⟨ends', hends, hmem⟩ := ha
      have hget : (g.edges.erase x).get? k = some ends' := hends
      by_cases hk : k = x
      · rw [hk, Catalog.get?_erase_self] at hget
        exact absurd hget (by simp)
      · rw [Catalog.get?_erase_of_ne _ hk] at hget
        exact ⟨ends', hget, List.mem_of_mem_filter hmem⟩
  | @setAttribute kind id value name old _ read put =>
    refine hg.writtenSince_put read put (Catalog.get?_insert_self old name value)
      (fun j hj => Catalog.get?_insert_of_ne _ _ _ hj) (fun on k j => ?_) ha
    simp [Change.written?, name.key?_value]
  | @removeAttribute kind id name gone x old _ read key found put =>
    refine hg.writtenSince_put read put (Catalog.get?_erase_self old x)
      (fun j hj => Catalog.get?_erase_of_ne _ hj) (fun on k j => ?_) ha
    simp [Change.written?, key]
  | clear =>
    -- nothing is left that could bear anything
    cases on with
    | node => cases ha
    | edge =>
      obtain ⟨ends, hends, -⟩ := ha
      cases hends

/-- **Whatever a change comes to, each element has what was said of it.** -/
theorem Coherent.writtenSince_apply (hg : g.Coherent) {c : Change} {r : Option Event}
    (h : g.apply c = (g', .ok r)) (horderly : g.Orderly c) (ha : g'.Bears on k a) :
    g.WrittenSince c on k j (a.get? j) := by
  cases r with
  | some event => exact hg.writtenSince_takes (apply_eq_some_iff.1 h) horderly ha
  | none =>
    -- only the removal of an attribute that is not there comes to nothing
    obtain rfl : g' = g := hg.apply_eq h (by simp)
    obtain ⟨kind, id, name, old, x, rfl, hread, hx, hnone⟩ := absent_of_apply_eq_none h
    by_cases hsaid : (kind = on ∧ id.key? = some k) ∧ name.key? = some j
    · obtain ⟨⟨rfl, hid⟩, hj⟩ := hsaid
      obtain rfl : x = j := Option.some.inj (hx.symm.trans hj)
      obtain rfl : old = a := Except.ok.inj (hread.symm.trans ((hg.bears_iff hid).1 ha))
      exact .inl (by simp [Change.written?, hid, hj, hnone])
    · exact .inr ⟨if_neg hsaid, a, ha, rfl⟩

/-! ## §4. Records. -/

/-- Each element of the graph has, of each attribute, what a record says. -/
def RecordedIn (g : Graph) (record : List Change) : Prop :=
  ∀ on k a, g.Bears on k a → ∀ j, a.get? j = lastWritten on k j record

theorem recordedIn_empty (directed : Bool) : (empty directed).RecordedIn [] := by
  rintro (_ | _) k a ha
  · cases ha
  · obtain ⟨ends, hends, -⟩ := ha
    cases hends

theorem RecordedIn.apply {record : List Change} (h : g.RecordedIn record) (hg : g.Coherent)
    {c : Change} {r : Option Event} (happly : g.apply c = (g', .ok r)) (horderly : g.Orderly c) :
    g'.RecordedIn (record ++ [c]) := by
  intro on k a ha j
  rw [lastWritten_concat]
  obtain hsaid | ⟨hsaid, b, hb, hkept⟩ := hg.writtenSince_apply happly horderly ha (j := j)
  · rw [hsaid, Option.getD_some]
  · rw [hsaid, Option.getD_none, ← hkept]
    exact h on k b hb j

/-- **Changes that are all made leave with each element what they say of it.** -/
theorem RecordedIn.applyAll {record changes : List Change} (h : g.RecordedIn record)
    (hg : g.Coherent) (horderly : g.OrderlyAll changes) (happly : g.applyAll changes = .ok g') :
    g'.RecordedIn (record ++ changes) := by
  induction changes generalizing g record with
  | nil =>
    obtain rfl := Except.ok.inj happly
    rwa [List.append_nil]
  | cons c rest ih =>
    obtain ⟨hc, hrest⟩ := horderly
    have hafter := hg.apply hc
    rw [Graph.applyAll] at happly
    rcases hstep : g.apply c with ⟨graph, e | r⟩
    · rw [hstep] at happly
      exact absurd happly (by simp)
    · rw [hstep] at happly hrest hafter
      have hconcat := ih (h.apply hg hstep hc) hafter hrest happly
      rwa [List.append_assoc] at hconcat

/-- **What is read of an attribute is what was last written, or the default.** -/
theorem RecordedIn.readAttribute_eq {record : List Change} (h : g.RecordedIn record)
    (hg : g.Coherent) (hthere : g.HasElement on k) (hid : id.key? = some k) {name : Value}
    (hname : name.key? = some j) (default : Value) :
    g.readAttribute on id name default = .ok ((lastWritten on k j record).getD default) := by
  obtain ⟨a, ha⟩ := hg.exists_bears hthere
  unfold readAttribute
  rw [(hg.bears_iff hid).1 ha, ← h on k a ha j]
  show (keyOf name >>= fun k => pure _) = _
  rw [keyOf_eq_ok_iff.2 hname]
  rfl

end Graph
end EvolvingGraph
