/-
  EvolvingGraph.Proofs.Forest.Walk
  ────────────────────────────────
  **WALKS ALONG EDGES WITHOUT DIRECTION, AND EDGES WITHOUT CYCLES.**

  Edges are anything that has two ends; several may have the same ends, and
  the ends of one may coincide.  Two nodes are joined by some edges if a walk
  along these leads from one to the other.  The edges have no cycle if there is
  no way back to where a walk began without using an edge twice; an edge whose
  ends coincide is such a way already.

  Main statements:
    * `joined_cons_iff` — which nodes one more edge joins;
    * `Joined.exists_trail` — no edge is needed twice;
    * `acyclic_cons_iff` — which edge can be added without a cycle.
-/
import Mathlib

namespace EvolvingGraph.Forest

variable {V E : Type} {ends : E → Sym2 V} {es fs : List E} {e : E} {a b c x y : V}

/-! ## §1. Walks. -/

theorem exists_ends (ends : E → Sym2 V) (e : E) : ∃ a b, ends e = s(a, b) := by
  obtain ⟨⟨a, b⟩, he⟩ := Quot.exists_rep (ends e)
  exact ⟨a, b, he.symm⟩

/-- A walk from one node to another, by the edges that it uses one after the other. -/
inductive Walk (ends : E → Sym2 V) : V → V → List E → Prop where
  | nil (a : V) : Walk ends a a []
  | cons {a b c : V} {e : E} {walk : List E} (first : ends e = s(a, b))
      (rest : Walk ends b c walk) : Walk ends a c (e :: walk)

namespace Walk

variable {walk walk' : List E}

theorem append (h : Walk ends a b walk) (h' : Walk ends b c walk') :
    Walk ends a c (walk ++ walk') := by
  induction h with
  | nil a => exact h'
  | cons first rest ih => exact .cons first (ih h')

/-- A walk can be walked back. -/
theorem reverse (h : Walk ends a b walk) : Walk ends b a walk.reverse := by
  induction h with
  | nil a => exact .nil a
  | cons first rest ih =>
    rw [List.reverse_cons]
    exact ih.append (.cons (first.trans Sym2.eq_swap) (.nil _))

/-- A walk can be interrupted anywhere. -/
theorem split (h : Walk ends a b (walk ++ walk')) :
    ∃ c, Walk ends a c walk ∧ Walk ends c b walk' := by
  -- the first part is taken off edge by edge, its beginning moves along
  induction walk generalizing a with
  | nil => exact ⟨a, .nil a, h⟩
  | cons e walk ih =>
    cases h with
    | cons first rest =>
      obtain ⟨c, hleft, hright⟩ := ih rest
      exact ⟨c, .cons first hleft, hright⟩

/-- A walk goes the same way along the images of its edges. -/
theorem map {E' : Type} {ends' : E' → Sym2 V} {f : E → E'} (h : Walk ends a b walk)
    (hends : ∀ e ∈ walk, ends' (f e) = ends e) : Walk ends' a b (walk.map f) := by
  induction h with
  | nil a => exact .nil a
  | @cons _ _ _ e walk first rest ih =>
    refine .cons ((hends e List.mem_cons_self).trans first) (ih ?_)
    exact fun e he => hends e (List.mem_cons_of_mem _ he)

end Walk

/-! ## §2. Joined nodes. -/

/-- A walk along the given edges leads from one node to the other. -/
def Joined (ends : E → Sym2 V) (es : List E) (a b : V) : Prop :=
  ∃ walk, Walk ends a b walk ∧ ∀ e ∈ walk, e ∈ es

namespace Joined

theorem refl (ends : E → Sym2 V) (es : List E) (a : V) : Joined ends es a a :=
  ⟨[], .nil a, by simp⟩

theorem symm (h : Joined ends es a b) : Joined ends es b a := by
  obtain ⟨walk, hwalk, hes⟩ := h
  exact ⟨walk.reverse, hwalk.reverse, fun e he => hes e (List.mem_reverse.1 he)⟩

theorem trans (h : Joined ends es a b) (h' : Joined ends es b c) : Joined ends es a c := by
  obtain ⟨walk, hwalk, hes⟩ := h
  obtain ⟨walk', hwalk', hes'⟩ := h'
  refine ⟨walk ++ walk', hwalk.append hwalk', fun e he => ?_⟩
  obtain he | he := List.mem_append.1 he
  · exact hes e he
  · exact hes' e he

theorem mono (h : Joined ends es a b) (hsub : es ⊆ fs) : Joined ends fs a b := by
  obtain ⟨walk, hwalk, hes⟩ := h
  exact ⟨walk, hwalk, fun e he => hsub (hes e he)⟩

theorem of_mem (he : e ∈ es) (hends : ends e = s(a, b)) : Joined ends es a b :=
  ⟨[e], .cons hends (.nil b), by simpa using he⟩

/-- Nodes that are joined by edges whose ends are joined are joined; the edges that
join the ends may be of another kind. -/
theorem of_forall_joined {E' : Type} {ends' : E' → Sym2 V} {fs : List E'}
    (h : Joined ends es a b)
    (hes : ∀ e ∈ es, ∀ a b, ends e = s(a, b) → Joined ends' fs a b) : Joined ends' fs a b := by
  obtain ⟨walk, hwalk, hmem⟩ := h
  induction hwalk with
  | nil a => exact refl ends' fs a
  | @cons a b c e walk first rest ih =>
    have hfirst := hes e (hmem e List.mem_cons_self) a b first
    exact hfirst.trans (ih fun e he => hmem e (List.mem_cons_of_mem _ he))

/-- No edge needs to be used twice. -/
theorem exists_trail (h : Joined ends es a b) :
    ∃ walk, Walk ends a b walk ∧ walk.Nodup ∧ ∀ e ∈ walk, e ∈ es := by
  obtain ⟨walk, hwalk, hmem⟩ := h
  induction hwalk with
  | nil a => exact ⟨[], .nil a, List.nodup_nil, by simp⟩
  | @cons a b c e walk first rest ih =>
    -- the rest has a trail; the edge is put before it, unless the trail uses it
    obtain ⟨trail, htrail, hnodup, hes⟩ := ih fun e he => hmem e (List.mem_cons_of_mem _ he)
    have he := hmem e List.mem_cons_self
    by_cases hused : e ∈ trail
    · -- the trail comes along the edge again, one way or the other
      obtain ⟨before, after, rfl⟩ := List.append_of_mem hused
      obtain ⟨u, _, hafter⟩ := htrail.split
      rw [List.nodup_append] at hnodup
      have hes' : ∀ f ∈ e :: after, f ∈ es := fun f hf => hes f (List.mem_append_right _ hf)
      cases hafter with
      | @cons _ v _ _ _ again later =>
        rw [first, Sym2.eq_iff] at again
        obtain ⟨rfl, rfl⟩ | ⟨rfl, rfl⟩ := again
        · exact ⟨e :: after, .cons first later, hnodup.2.1, hes'⟩
        · exact ⟨after, later, hnodup.2.1.of_cons, fun f hf => hes' f (List.mem_cons_of_mem _ hf)⟩
    · refine ⟨e :: trail, .cons first htrail, List.nodup_cons.2 ⟨hused, hnodup⟩, ?_⟩
      intro f hf
      obtain rfl | hf := List.mem_cons.1 hf
      · exact he
      · exact hes f hf

end Joined

theorem joined_nil_iff : Joined ends [] a b ↔ a = b := by
  constructor
  · rintro ⟨walk, hwalk, hmem⟩
    cases hwalk with
    | nil => rfl
    | cons first rest => exact absurd (hmem _ List.mem_cons_self) (by simp)
  · rintro rfl
    exact .refl ends [] a

/-- One more edge joins the nodes that are joined to its two ends. -/
theorem joined_cons_iff (he : ends e = s(a, b)) :
    Joined ends (e :: es) x y ↔ Joined ends es x y
      ∨ (Joined ends es x a ∧ Joined ends es b y) ∨ (Joined ends es x b ∧ Joined ends es a y) := by
  have hsub : es ⊆ e :: es := List.subset_cons_self e es
  have hab : Joined ends (e :: es) a b := .of_mem List.mem_cons_self he
  constructor
  · rintro ⟨walk, hwalk, hmem⟩
    induction hwalk with
    | nil x => exact .inl (.refl ends es x)
    | @cons x z y f walk first rest ih =>
      -- the first edge of the walk is the new one, walked one way or the other, or an old one
      replace ih := ih fun f hf => hmem f (List.mem_cons_of_mem _ hf)
      obtain rfl | hf := List.mem_cons.1 (hmem f List.mem_cons_self)
      · rw [he, Sym2.eq_iff] at first
        obtain ⟨rfl, rfl⟩ | ⟨rfl, rfl⟩ := first
        · obtain h | ⟨_, h⟩ | ⟨_, h⟩ := ih
          · exact .inr (.inl ⟨.refl ends es a, h⟩)
          · exact .inr (.inl ⟨.refl ends es a, h⟩)
          · exact .inl h
        · obtain h | ⟨_, h⟩ | ⟨_, h⟩ := ih
          · exact .inr (.inr ⟨.refl ends es b, h⟩)
          · exact .inl h
          · exact .inr (.inr ⟨.refl ends es b, h⟩)
      · have hxz := Joined.of_mem hf first
        obtain h | ⟨h, h'⟩ | ⟨h, h'⟩ := ih
        · exact .inl (hxz.trans h)
        · exact .inr (.inl ⟨hxz.trans h, h'⟩)
        · exact .inr (.inr ⟨hxz.trans h, h'⟩)
  · rintro (h | ⟨h, h'⟩ | ⟨h, h'⟩)
    · exact h.mono hsub
    · exact (h.mono hsub).trans (hab.trans (h'.mono hsub))
    · exact (h.mono hsub).trans (hab.symm.trans (h'.mono hsub))

/-! ## §3. No cycles. -/

/-- The given edges have no cycle: no walk along them, each used at most once,
comes back to where it began. -/
def Acyclic (ends : E → Sym2 V) (es : List E) : Prop :=
  ∀ a walk, Walk ends a a walk → walk.Nodup → (∀ e ∈ walk, e ∈ es) → walk = []

theorem acyclic_nil : Acyclic ends [] := by
  intro a walk _ _ hmem
  exact List.eq_nil_iff_forall_not_mem.2 fun e he => absurd (hmem e he) (by simp)

theorem Acyclic.mono (h : Acyclic ends fs) (hsub : es ⊆ fs) : Acyclic ends es :=
  fun a walk hwalk hnodup hmem => h a walk hwalk hnodup fun e he => hsub (hmem e he)

/-- An edge makes no cycle exactly if it joins what was not joined. -/
theorem acyclic_cons_iff (he : ends e = s(a, b)) (hfresh : e ∉ es) :
    Acyclic ends (e :: es) ↔ ¬Joined ends es a b ∧ Acyclic ends es := by
  constructor
  · intro h
    refine ⟨fun hab => ?_, h.mono (List.subset_cons_self e es)⟩
    obtain ⟨trail, htrail, hnodup, hmem⟩ := hab.symm.exists_trail
    -- with the edge in front, a trail between its ends is a cycle
    have hcycle := h a (e :: trail) (.cons he htrail)
      (List.nodup_cons.2 ⟨fun hused => hfresh (hmem e hused), hnodup⟩)
      (fun f hf => by
        obtain rfl | hf := List.mem_cons.1 hf
        · exact List.mem_cons_self
        · exact List.mem_cons_of_mem _ (hmem f hf))
    exact absurd hcycle (by simp)
  · rintro ⟨hab, hacyclic⟩ c walk hwalk hnodup hmem
    by_cases hused : e ∈ walk
    · -- the rest of the cycle would join the ends of the edge
      obtain ⟨before, after, rfl⟩ := List.append_of_mem hused
      obtain ⟨u, hbefore, hafter⟩ := hwalk.split
      rw [List.nodup_append, List.nodup_cons] at hnodup
      have hes : ∀ f ∈ before ++ e :: after, f ≠ e → f ∈ es := fun f hf hne =>
        (List.mem_cons.1 (hmem f hf)).resolve_left hne
      have hleft : ∀ f ∈ before, f ∈ es := fun f hf =>
        hes f (List.mem_append_left _ hf) (hnodup.2.2 f hf e List.mem_cons_self)
      have hright : ∀ f ∈ after, f ∈ es := fun f hf =>
        hes f (List.mem_append_right _ (List.mem_cons_of_mem _ hf))
          (fun heq => hnodup.2.1.1 (heq ▸ hf))
      cases hafter with
      | @cons _ v _ _ _ first rest =>
        have hvu : Joined ends es v u :=
          Joined.trans ⟨after, rest, hright⟩ ⟨before, hbefore, hleft⟩
        rw [he, Sym2.eq_iff] at first
        obtain ⟨rfl, rfl⟩ | ⟨rfl, rfl⟩ := first
        · exact absurd hvu.symm hab
        · exact absurd hvu hab
    · refine hacyclic c walk hwalk hnodup fun f hf => ?_
      exact (List.mem_cons.1 (hmem f hf)).resolve_left (fun heq => hused (heq ▸ hf))

/-- Edges without a cycle have no loop among them. -/
theorem Acyclic.ne_of_mem (h : Acyclic ends es) (he : e ∈ es) (hends : ends e = s(a, b)) :
    a ≠ b := by
  rintro rfl
  have hloop := h a [e] (.cons hends (.nil a)) (List.nodup_singleton e) (by simpa using he)
  exact absurd hloop (by simp)

/-! ## §4. Images. -/

section Images

variable {E' : Type} {ends' : E' → Sym2 V} {f : E → E'}

theorem Joined.map (h : Joined ends es a b) (hends : ∀ e ∈ es, ends' (f e) = ends e) :
    Joined ends' (es.map f) a b := by
  obtain ⟨walk, hwalk, hmem⟩ := h
  refine ⟨walk.map f, hwalk.map fun e he => hends e (hmem e he), fun e' he' => ?_⟩
  obtain ⟨e, he, rfl⟩ := List.mem_map.1 he'
  exact List.mem_map_of_mem (hmem e he)

/-- A walk along images comes from a walk. -/
theorem Walk.exists_of_map {walk' : List E'} (h : Walk ends' a b walk')
    (hends : ∀ e ∈ es, ends' (f e) = ends e) (hmem : ∀ e' ∈ walk', e' ∈ es.map f) :
    ∃ walk, Walk ends a b walk ∧ walk.map f = walk' ∧ ∀ e ∈ walk, e ∈ es := by
  induction h with
  | nil a => exact ⟨[], .nil a, rfl, by simp⟩
  | cons first rest ih =>
    obtain ⟨walk, hwalk, rfl, hes⟩ := ih fun e' he' => hmem e' (List.mem_cons_of_mem _ he')
    obtain ⟨e, he, rfl⟩ := List.mem_map.1 (hmem _ List.mem_cons_self)
    refine ⟨e :: walk, .cons ((hends e he).symm.trans first) hwalk, rfl, fun e' he' => ?_⟩
    obtain rfl | he' := List.mem_cons.1 he'
    · exact he
    · exact hes e' he'

theorem Acyclic.map (h : Acyclic ends es) (hends : ∀ e ∈ es, ends' (f e) = ends e) :
    Acyclic ends' (es.map f) := by
  intro a walk' hwalk' hnodup hmem
  -- the cycle is the image of one, and that one is empty
  obtain ⟨walk, hwalk, rfl, hes⟩ := hwalk'.exists_of_map hends hmem
  rw [h a walk hwalk hnodup.of_map hes]
  rfl

end Images

end EvolvingGraph.Forest
