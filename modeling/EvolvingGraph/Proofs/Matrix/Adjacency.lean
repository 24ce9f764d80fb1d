/-
  EvolvingGraph.Proofs.Matrix.Adjacency
  ─────────────────────────────────────
  **THE ADJACENCY MATRIX, LINK BY LINK.**

  The adjacency matrix is made from the links as they are listed, and its
  entries are sorted in the end.  So it does not matter in which order the links
  are listed, nor which way round: the matrix has the entries of all links, in
  the order of their positions.

  Main statements:
    * `entriesOf_turned` — a link has the same entries either way round;
    * `adjacency_eq` — the entries of the matrix are those of the links;
    * `adjacency_eq_error` — when there is no matrix.
-/
import EvolvingGraph.Proofs.Graph.Listing
import EvolvingGraph.Proofs.Matrix.Entries

namespace EvolvingGraph

/-! ## §1. The weights of links. -/

/-- The value that attributes give under a key, 1 where they give none. -/
def Attributes.weight (a : Attributes) (k : Key) : Value := (a.get? k).getD (.int 1)

/-- The number that attributes give under a key. -/
def Attributes.number (a : Attributes) (k : Key) : Double :=
  match (Attributes.weight a k).toDouble with
  | .ok x => x
  | .error _ => .zero

/-- Attributes give a number under a key, or nothing. -/
def Attributes.GiveNumber (a : Attributes) (k : Key) : Prop :=
  ∃ x, (Attributes.weight a k).toDouble = .ok x

theorem Attributes.GiveNumber.toDouble {a : Attributes} {k : Key} (h : GiveNumber a k) :
    (Attributes.weight a k).toDouble = .ok (Attributes.number a k) := by
  obtain ⟨x, hx⟩ := h
  unfold number
  rw [hx]

theorem Value.convert_eq_ok {v : Value} {x : Double} (h : v.toDouble = .ok x) :
    v.convert = .ok x := by
  unfold convert
  rw [h]

/-- Values that convert one by one convert together. -/
theorem Value.convertAll_eq_ok {α : Type} {xs : List α} {value : α → Value} {number : α → Double}
    (h : ∀ x ∈ xs, (value x).toDouble = .ok (number x)) :
    convertAll (xs.map value) = .ok (xs.map number) := by
  unfold convertAll
  refine (if_neg ?_).trans ?_
  · rw [Bool.not_eq_true, List.any_eq_false]
    intro v hv
    obtain ⟨x, hx, rfl⟩ := List.mem_map.1 hv
    have hx := h x hx
    cases hvalue : value x with
    | tuple items | list items =>
      rw [hvalue] at hx
      exact absurd hx (by simp [toDouble])
    | _ => simp
  · rw [List.mapM_map]
    exact mapM_eq_ok fun x hx => convert_eq_ok (h x hx)

namespace Network

variable {n : Network}

/-! ## §2. The entries of a link. -/

/-- The entries that a link contributes. -/
def linkEntries (n : Network) (k : Key) (l : Link) : List MatrixEntry :=
  n.entriesOf l.asListed (Attributes.number l.attributes k)

theorem entriesOf_congr {x y : Listed} (hsource : x.sourceKey = y.sourceKey)
    (htarget : x.targetKey = y.targetKey) (weight : Double) :
    n.entriesOf x weight = n.entriesOf y weight := by
  unfold entriesOf
  rw [hsource, htarget]

theorem entriesOf_swap {x y : Listed} (hd : n.directed = false)
    (hsource : x.sourceKey = y.targetKey) (htarget : x.targetKey = y.sourceKey) (weight : Double) :
    (n.entriesOf x weight).Perm (n.entriesOf y weight) := by
  unfold entriesOf
  simp only [hd, hsource, htarget, Bool.false_eq_true, if_false]
  by_cases hloop : n.position y.sourceKey = n.position y.targetKey
  · rw [if_pos hloop, if_pos hloop.symm, hloop]
  · rw [if_neg hloop, if_neg (Ne.symm hloop)]
    exact .swap ..

/-- The entries of a link that is no loop, or has a direction. -/
theorem entriesOf_eq {x : Listed} {i j : Nat} (hsource : n.position x.sourceKey = i)
    (htarget : n.position x.targetKey = j) (hapart : n.directed = false → i ≠ j)
    (weight : Double) :
    n.entriesOf x weight = if n.directed then [⟨i, j, weight⟩]
      else [⟨i, j, weight⟩, ⟨j, i, weight⟩] := by
  unfold entriesOf
  rw [hsource, htarget]
  cases hd : n.directed with
  | true => rfl
  | false =>
    simp only [Bool.false_eq_true, if_false]
    rw [if_neg (hapart hd)]

/-- A link has the same entries either way round. -/
theorem entriesOf_turned {l m : Link} (h : l.Turned n.directed m) (k : Key) :
    (n.linkEntries k l).Perm (n.linkEntries k m) := by
  unfold linkEntries
  rw [h.attributes_eq]
  obtain ⟨hsource, htarget⟩ | ⟨hd, hsource, htarget⟩ := h.samePair
  · rw [entriesOf_congr (x := l.asListed) (y := m.asListed) hsource htarget]
  · exact entriesOf_swap (x := l.asListed) (y := m.asListed) hd hsource htarget _

theorem flatMap_perm_of_forall₂ {α β γ : Type} {r : α → β → Prop} {f : α → List γ}
    {g : β → List γ} {xs : List α} {ys : List β} (hall : List.Forall₂ r xs ys)
    (h : ∀ a b, r a b → (f a).Perm (g b)) : (xs.flatMap f).Perm (ys.flatMap g) := by
  induction hall with
  | nil => exact .refl _
  | cons hab _ ih =>
    rw [List.flatMap_cons, List.flatMap_cons]
    exact (h _ _ hab).append ih

/-! ## §3. The matrix. -/

/-- A name that attributes are looked up by. -/
def Weighs (name : Value) (k : Key) : Prop :=
  ∀ x, weightOf name x = .ok (Attributes.weight x.attributes k)

theorem weighs_text (s : String) : Weighs (.str s) (.text s) := fun _ => rfl

theorem weighs_null : Weighs .null .null := fun _ => rfl

/-- A loop without direction is counted twice, less its own value: a link is in the way of
that if its value has no negative. -/
def HindersAt (n : Network) (k : Key) (l : Link) : Prop :=
  n.directed = false ∧ l.isLoop = true ∧ (Attributes.weight l.attributes k).isNegatable = false

section Matrix

variable {name : Value} {k : Key}

/-- A link is listed, one way round or the other, and with its attributes. -/
theorem exists_listed (hmet : ∀ l ∈ n.links, ∃ node ∈ n.nodes.identifiers,
      l.isMetAt n.directed node.key = true) :
    ∃ found, found.Perm n.links ∧ List.Forall₂ (fun (x : Listed) m =>
      ∃ l : Link, x = l.asListed ∧ l.Turned n.directed m) n.listing found := by
  obtain ⟨found, hperm, hturned⟩ := sweep_perm hmet
  refine ⟨found, hperm, ?_⟩
  rw [listing_eq_sweep]
  exact List.forall₂_map_left_iff.2 (hturned.imp fun l m h => ⟨l, rfl, h⟩)

theorem mapM_weightOf (hname : Weighs name k) : n.listing.mapM (weightOf name)
    = .ok (n.listing.map fun x => Attributes.weight x.attributes k) :=
  mapM_eq_ok fun x _ => hname x

/-- What the test for such loops finds. -/
theorem any_hinders_iff (hmet : ∀ l ∈ n.links, ∃ node ∈ n.nodes.identifiers,
      l.isMetAt n.directed node.key = true) (k : Key) :
    ((n.listing.zip (n.listing.map fun x => Attributes.weight x.attributes k)).any
        fun lw => !n.directed && lw.1.sourceKey == lw.1.targetKey && !lw.2.isNegatable) = true
      ↔ ∃ l ∈ n.links, n.HindersAt k l := by
  obtain ⟨found, hperm, hlisted⟩ := exists_listed hmet
  rw [← List.map_prod_left_eq_zip, List.any_map, List.any_eq_true]
  simp only [Function.comp, Bool.and_eq_true, Bool.not_eq_true', beq_iff_eq]
  -- whether a link is a loop is the same either way round
  have hsame : ∀ (l m : Link), l.Turned n.directed m →
      (l.source.key = l.target.key ↔ m.isLoop = true) := by
    intro l m h
    unfold Link.isLoop
    rw [beq_iff_eq]
    obtain ⟨hsource, htarget⟩ | ⟨-, hsource, htarget⟩ := h.samePair
    · exact Eq.congr hsource htarget
    · exact (Eq.congr hsource htarget).trans eq_comm
  constructor
  · rintro ⟨x, hx, ⟨hd, hloop⟩, hweight⟩
    obtain ⟨m, hm, l, rfl, hturned⟩ := exists_of_forall₂ hlisted hx
    exact ⟨m, hperm.mem_iff.1 hm, hd, (hsame l m hturned).1 hloop,
      hturned.attributes_eq ▸ hweight⟩
  · rintro ⟨m, hm, hd, hloop, hweight⟩
    obtain ⟨x, hx, l, rfl, hturned⟩ := exists_of_forall₂ hlisted.flip (hperm.mem_iff.2 hm)
    exact ⟨l.asListed, hx, ⟨hd, (hsame l m hturned).2 hloop⟩,
      (congrArg (Attributes.weight · k) hturned.attributes_eq) ▸ hweight⟩

/-- **The adjacency matrix has the entries of all links, row by row.** -/
theorem adjacency_eq (hmet : ∀ l ∈ n.links, ∃ node ∈ n.nodes.identifiers,
      l.isMetAt n.directed node.key = true) (hname : Weighs name k)
    (hnumber : ∀ l ∈ n.links, Attributes.GiveNumber l.attributes k)
    (hfree : ∀ l ∈ n.links, ¬n.HindersAt k l) :
    ∃ entries : List MatrixEntry, entries.Perm (n.links.flatMap (n.linkEntries k))
      ∧ n.adjacency name = .ok ⟨n.nodes.size, n.nodes.size,
        entries.mergeSort MatrixEntry.precedes⟩ := by
  obtain ⟨found, hperm, hlisted⟩ := exists_listed hmet
  refine ⟨n.listing.flatMap fun x => n.entriesOf x (Attributes.number x.attributes k), ?_, ?_⟩
  · have hlinks : (n.listing.flatMap fun x => n.entriesOf x (Attributes.number x.attributes k)).Perm
        (found.flatMap (n.linkEntries k)) := by
      refine flatMap_perm_of_forall₂ hlisted ?_
      rintro x m ⟨l, rfl, hturned⟩
      exact entriesOf_turned hturned k
    exact hlinks.trans (hperm.flatMap_right _)
  · have hgiven : ∀ x ∈ n.listing, Attributes.GiveNumber x.attributes k := by
      intro x hx
      obtain ⟨m, hm, l, rfl, hturned⟩ := exists_of_forall₂ hlisted hx
      show Attributes.GiveNumber l.attributes k
      exact hturned.attributes_eq ▸ hnumber m (hperm.mem_iff.1 hm)
    have hvalues := Value.convertAll_eq_ok fun x hx => (hgiven x hx).toDouble
    have hloops := Bool.eq_false_iff.2 (mt (any_hinders_iff hmet k).1 (by simpa using hfree))
    unfold adjacency
    simp only [mapM_weightOf hname, bind, Except.bind, hloops, hvalues]
    rw [← List.map_prod_left_eq_zip, List.flatMap_map]
    rfl

/-- **A loop whose value has no negative is the end of it.** -/
theorem adjacency_eq_error (hmet : ∀ l ∈ n.links, ∃ node ∈ n.nodes.identifiers,
      l.isMetAt n.directed node.key = true) (hname : Weighs name k)
    (hhinders : ∃ l ∈ n.links, n.HindersAt k l) :
    n.adjacency name = .error (.conversion .wrongType) := by
  have hloops := (any_hinders_iff hmet k).2 hhinders
  unfold adjacency
  simp only [mapM_weightOf hname, bind, Except.bind, hloops]
  rfl

end Matrix

end Network
end EvolvingGraph
