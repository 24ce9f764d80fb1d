/-
  EvolvingGraph.Proofs.Marking.Assignments
  ────────────────────────────────────────
  **WHAT CAN BE ASSIGNED TO A TREE, AND WHAT COMES OF IT.**

  A configuration is changed by one assignment at a time.  An assignment can be
  accepted, ignored, or fail; only one that is accepted leaves another
  configuration.  Each is checked against the configuration as it is, so the
  order of the assignments matters: a builder has to be there before the strategy
  that asks for it, and each flag is compared with the other one as it is then.

  What is checked once stays true.  For the flags this is so because it does not
  matter in which order they are compared.

  Main statements:
    * `SpanningTree.valid_of_make` — what is made is valid;
    * `SpanningTree.Valid.assign` — what is assigned leaves it so;
    * `World.trees_assign` — an assignment that is not accepted changes no tree.
-/
import EvolvingGraph.Marking.Builder
import EvolvingGraph.Proofs.Generation.Calls
import EvolvingGraph.Proofs.Graph.Effect
import EvolvingGraph.Proofs.Value.Symmetry

namespace EvolvingGraph

/-! ## §1. Assignments. -/

/-- What can be assigned to a tree. -/
inductive Assignment (β : Type) where
  | flagOn (v : Value)
  | flagOff (v : Value)
  | flagAttribute (v : Value)
  | weightName (v : Value)
  | strategy (v : Value)
  | mode (v : Value)
  | builder (offered : Offered β)
  | graph (graph : Option GraphRef)

/-- Whatever is offered as something that can be called is of a kind that can. -/
def Offered.Sound {β : Type} (callable : β → Prop) (offered : Offered β) : Prop :=
  ∀ b, offered = .callable b → callable b

/-- Whatever is assigned as something that can be called is of a kind that can. -/
def Assignment.Sound {β : Type} (callable : β → Prop) : Assignment β → Prop
  | .builder offered => offered.Sound callable
  | _ => True

namespace SpanningTree

variable {β : Type}

/-- The configuration after an assignment; none if the value is ignored. -/
def assign (t : SpanningTree β) : Assignment β → Except Error (Option (SpanningTree β))
  | .flagOn v => t.setFlagOn v
  | .flagOff v => t.setFlagOff v
  | .flagAttribute v => .ok (some { t with flagAttribute := v })
  | .weightName v => .ok (some { t with weightName := v })
  | .strategy v => some <$> t.setStrategy v
  | .mode v => some <$> t.setMode v
  | .builder offered => some <$> t.setBuilder offered
  | .graph graph => .ok (some { t with graph })

/-! ## §2. Valid configurations. -/

/-- What a configuration has to be: the flags do not match, in whatever order they are
compared, strategy and mode are known ones, and the custom strategy has a builder.  The
builder is one that can be called, also as long as it is not asked for. -/
structure Valid (callable : β → Prop) (t : SpanningTree β) : Prop where
  on_off : flagsMatch t.flagOn t.flagOff ≠ .ok true
  off_on : flagsMatch t.flagOff t.flagOn ≠ .ok true
  strategy : t.strategy.name ∈ ["kruskal", "prim", "custom"]
  mode : t.mode.name ∈ ["distance", "similarity"]
  builder : t.strategy = .custom → t.builder ≠ none
  callable : ∀ b, t.builder = some b → callable b

theorem setFlagOn_eq_some {t t' : SpanningTree β} {v : Value} (h : t.setFlagOn v = .ok (some t')) :
    flagsMatch v t.flagOff = .ok false ∧ t' = { t with flagOn := v } := by
  unfold setFlagOn at h
  rcases hmatch : flagsMatch v t.flagOff with e | _ | _ <;> rw [hmatch] at h <;> cases h
  exact ⟨rfl, rfl⟩

theorem setFlagOff_eq_some {t t' : SpanningTree β} {v : Value}
    (h : t.setFlagOff v = .ok (some t')) :
    flagsMatch v t.flagOn = .ok false ∧ t' = { t with flagOff := v } := by
  unfold setFlagOff at h
  rcases hmatch : flagsMatch v t.flagOn with e | _ | _ <;> rw [hmatch] at h <;> cases h
  exact ⟨rfl, rfl⟩

theorem setMode_eq_ok {t t' : SpanningTree β} {v : Value} (h : t.setMode v = .ok t') :
    ∃ mode, t' = { t with mode } := by
  unfold setMode at h
  obtain ⟨mode, -, hset⟩ := bind_eq_ok_iff.1 h
  cases hset
  exact ⟨mode, rfl⟩

theorem setStrategy_eq_ok {t t' : SpanningTree β} {v : Value} (h : t.setStrategy v = .ok t') :
    ∃ strategy, (strategy = .custom → t.builder ≠ none) ∧ t' = { t with strategy } := by
  unfold setStrategy at h
  obtain ⟨strategy, -, hset⟩ := bind_eq_ok_iff.1 h
  split at hset
  · cases hset
  · next hmissing =>
    cases hset
    refine ⟨strategy, fun hcustom hnone => hmissing ?_, rfl⟩
    simp [hcustom, hnone]

theorem setBuilder_eq_ok {t t' : SpanningTree β} {offered : Offered β}
    (h : t.setBuilder offered = .ok t') :
    (∃ b, offered = .callable b ∧ t' = { t with builder := some b })
      ∨ t.strategy ≠ .custom ∧ t' = { t with builder := none } := by
  cases offered with
  | nothing =>
    rw [setBuilder] at h
    split at h
    · cases h
    · next hstrategy =>
      cases h
      exact .inr ⟨hstrategy, rfl⟩
  | callable b =>
    cases h
    exact .inl ⟨b, rfl, rfl⟩
  | notCallable => cases h

/-! ## §3. What is made, and what is assigned. -/

variable {callable : β → Prop}

theorem name_strategy (strategy : Strategy) : strategy.name ∈ ["kruskal", "prim", "custom"] := by
  cases strategy <;> simp [Strategy.name]

theorem name_mode (mode : Forest.Mode) : mode.name ∈ ["distance", "similarity"] := by
  cases mode <;> simp [Forest.Mode.name]

theorem Valid.setStrategy {t t' : SpanningTree β} (ht : t.Valid callable) {v : Value}
    (h : t.setStrategy v = .ok t') : t'.Valid callable := by
  obtain ⟨strategy, hbuilder, rfl⟩ := setStrategy_eq_ok h
  exact { ht with strategy := name_strategy strategy, builder := hbuilder }

theorem Valid.setBuilder {t t' : SpanningTree β} (ht : t.Valid callable) {offered : Offered β}
    (hoffered : offered.Sound callable) (h : t.setBuilder offered = .ok t') :
    t'.Valid callable := by
  obtain ⟨b, rfl, rfl⟩ | ⟨hstrategy, rfl⟩ := setBuilder_eq_ok h
  · refine { ht with builder := fun _ => Option.some_ne_none b, callable := ?_ }
    intro b' hb'
    cases hb'
    exact hoffered b rfl
  · refine { ht with builder := fun hcustom => absurd hcustom hstrategy, callable := ?_ }
    intro b hb
    cases hb

/-- **An assignment that is accepted leaves a valid configuration**, whatever the one
before was checked against. -/
theorem Valid.assign {t t' : SpanningTree β} (ht : t.Valid callable) {a : Assignment β}
    (ha : a.Sound callable) (h : t.assign a = .ok (some t')) : t'.Valid callable := by
  cases a with
  | flagOn v =>
    obtain ⟨hmatch, rfl⟩ := setFlagOn_eq_some h
    have hon : flagsMatch v t.flagOff ≠ .ok true := by
      rw [hmatch]
      simp
    exact { ht with on_off := hon, off_on := flagsMatch_ne_true_symm hmatch }
  | flagOff v =>
    obtain ⟨hmatch, rfl⟩ := setFlagOff_eq_some h
    have hoff : flagsMatch v t.flagOn ≠ .ok true := by
      rw [hmatch]
      simp
    exact { ht with on_off := flagsMatch_ne_true_symm hmatch, off_on := hoff }
  | flagAttribute v =>
    cases h
    exact { ht with }
  | weightName v =>
    cases h
    exact { ht with }
  | strategy v =>
    obtain ⟨tree, hset, ⟨⟩⟩ := map_eq_ok_iff.1 h
    exact ht.setStrategy hset
  | mode v =>
    obtain ⟨tree, hset, ⟨⟩⟩ := map_eq_ok_iff.1 h
    obtain ⟨mode, rfl⟩ := setMode_eq_ok hset
    exact { ht with mode := name_mode mode }
  | builder offered =>
    obtain ⟨tree, hset, ⟨⟩⟩ := map_eq_ok_iff.1 h
    exact ht.setBuilder ha hset
  | graph graph =>
    cases h
    exact { ht with }

/-- **What is made is valid.** -/
theorem valid_of_make {graph : Option GraphRef} {s : Settings} {offered : Offered β}
    (hoffered : offered.Sound callable) {t : SpanningTree β} (h : make graph s offered = .ok t) :
    t.Valid callable := by
  unfold make at h
  obtain ⟨same, hmatch, h⟩ := bind_eq_ok_iff.1 h
  cases same with
  | true => cases h
  | false =>
    obtain ⟨mode, -, h⟩ := bind_eq_ok_iff.1 h
    obtain ⟨built, hbuilt, h⟩ := bind_eq_ok_iff.1 h
    obtain ⟨tree, htree, h⟩ := bind_eq_ok_iff.1 h
    split at h
    · cases h
    · cases h
      -- before the builder and the strategy are set, the flags are checked and there is none
      refine Valid.setStrategy (.setBuilder ?_ hoffered hbuilt) htree
      have hon : flagsMatch s.flagOn s.flagOff ≠ .ok true := by
        rw [hmatch]
        simp
      exact ⟨hon, flagsMatch_ne_true_symm hmatch, name_strategy _, name_mode _,
        fun hcustom => (by cases hcustom), fun b hb => (by cases hb)⟩

end SpanningTree

/-! ## §4. The trees of a session. -/

/-- A builder is callable unless it stands for some other value. -/
def Builder.Callable {σ : Type} (builder : Builder σ) : Prop := ∀ v, builder.kind ≠ .notCallable v

/-- The assignment that a property stands for. -/
def TreeProperty.assignment {β : Type} (property : TreeProperty) (v : Value) : Assignment β :=
  match property with
  | .strategy => .strategy v
  | .mode => .mode v
  | .flagOn => .flagOn v
  | .flagOff => .flagOff v
  | .flagAttribute => .flagAttribute v
  | .weightAttribute => .weightName v

theorem TreeProperty.sound_assignment {β : Type} {callable : β → Prop} (property : TreeProperty)
    (v : Value) : (property.assignment v).Sound callable := by
  cases property <;> trivial

namespace World

variable (w : World) (t : TreeRef)

/-- The world with another configuration of a tree. -/
def withTree (tree : Tree) : World := { w with trees := w.trees.set t.index tree }

/-- The world with one more tree. -/
def withNewTree (tree : Tree) : World := { w with trees := w.trees.push tree }

/-- The world with the line that tells of an ignored flag.  Nothing else is ignored. -/
def ignoring : Assignment (Builder Step) → World
  | .flagOn v => w.logged (.ignoredFlagOn v)
  | .flagOff v => w.logged (.ignoredFlagOff v)
  | _ => w

/-- Whether an assignment to a tree is accepted, and the world afterwards. -/
def assign (a : Assignment (Builder Step)) : Except Error Bool × World :=
  match (w.trees.get t.index).assign a with
  | .ok (some tree) => (.ok true, w.withTree t tree)
  | .ok none => (.ok false, w.ignoring a)
  | .error e => (.error e, w)

/-- An assignment is accepted and the tree configured anew, or it leaves nothing but a
line in the log. -/
theorem assign_cases (a : Assignment (Builder Step)) :
    (∃ tree, (w.trees.get t.index).assign a = .ok (some tree)
      ∧ w.assign t a = (.ok true, w.withTree t tree))
    ∨ (w.assign t a).1 ≠ .ok true ∧ ((w.assign t a).2 = w ∨ (w.assign t a).2 = w.ignoring a) := by
  unfold assign
  rcases (w.trees.get t.index).assign a with e | _ | tree
  · exact .inr ⟨by simp, .inl rfl⟩
  · exact .inr ⟨by simp, .inr rfl⟩
  · exact .inl ⟨tree, rfl, rfl⟩

/-- An assignment that is not accepted changes no tree. -/
theorem trees_assign {a : Assignment (Builder Step)} (h : (w.assign t a).1 ≠ .ok true) :
    (w.assign t a).2.trees = w.trees := by
  obtain ⟨tree, -, haccepted⟩ | ⟨-, hsame | hignored⟩ := w.assign_cases t a
  · rw [haccepted] at h
    exact absurd rfl h
  · rw [hsame]
  · rw [hignored]
    cases a <;> rfl

end World

namespace Run

variable (t : TreeRef) (v : Value) (w : World)

theorem exec_assignFlagOn : (assignFlagOn t v).exec w = w.assign t (.flagOn v) := by
  unfold assignFlagOn World.assign SpanningTree.assign
  simp only [exec_bind, exec_tree, exec_ofExcept]
  rcases (w.trees.get t.index).setFlagOn v with e | _ | tree <;> rfl

theorem exec_assignFlagOff : (assignFlagOff t v).exec w = w.assign t (.flagOff v) := by
  unfold assignFlagOff World.assign SpanningTree.assign
  simp only [exec_bind, exec_tree, exec_ofExcept]
  rcases (w.trees.get t.index).setFlagOff v with e | _ | tree <;> rfl

theorem exec_assignProperty (property : TreeProperty) :
    (assignProperty t property v).exec w
      = ((w.assign t (property.assignment v)).1.map fun _ => (),
        (w.assign t (property.assignment v)).2) := by
  unfold assignProperty
  rw [exec_bind, exec_tree]
  cases property with
  | flagOn =>
    show (discard (assignFlagOn t v) : Run PUnit).exec w
      = ((w.assign t (.flagOn v)).1.map _, (w.assign t (.flagOn v)).2)
    rw [exec_discard, exec_assignFlagOn]
    rcases w.assign t (.flagOn v) with ⟨_ | _, _⟩ <;> rfl
  | flagOff =>
    show (discard (assignFlagOff t v) : Run PUnit).exec w
      = ((w.assign t (.flagOff v)).1.map _, (w.assign t (.flagOff v)).2)
    rw [exec_discard, exec_assignFlagOff]
    rcases w.assign t (.flagOff v) with ⟨_ | _, _⟩ <;> rfl
  | strategy =>
    unfold World.assign TreeProperty.assignment SpanningTree.assign
    simp only [exec_bind, exec_ofExcept]
    rcases (w.trees.get t.index).setStrategy v with e | tree <;> rfl
  | mode =>
    unfold World.assign TreeProperty.assignment SpanningTree.assign
    simp only [exec_bind, exec_ofExcept]
    rcases (w.trees.get t.index).setMode v with e | tree <;> rfl
  | flagAttribute => rfl
  | weightAttribute => rfl

theorem exec_assignBuilder (offered : Offered (Builder Step)) :
    (do World.setTree t (← Run.ofExcept ((← World.tree t).setBuilder offered)) : Run Unit).exec w
      = ((w.assign t (.builder offered)).1.map fun _ => (), (w.assign t (.builder offered)).2) := by
  unfold World.assign SpanningTree.assign
  simp only [exec_bind, exec_tree, exec_ofExcept]
  rcases (w.trees.get t.index).setBuilder offered with e | tree <;> rfl

theorem exec_assignGraph (graph : Option GraphRef) :
    (do World.setTree t { ← World.tree t with graph } : Run Unit).exec w
      = ((w.assign t (.graph graph)).1.map fun _ => (), (w.assign t (.graph graph)).2) := rfl

/-- What is offered as callable is. -/
theorem sound_offer {builder : Option (Builder Step)} {offered : Offered (Builder Step)}
    {w w' : World} (h : (offer builder).exec w = (.ok offered, w')) :
    offered.Sound Builder.Callable := by
  rintro b rfl
  unfold offer at h
  split at h
  · cases h
  · next given =>
    split at h
    · next v hkind =>
      rw [exec_bind] at h
      rcases hv : (evaluate v).exec w with ⟨_ | value, _⟩ <;> rw [hv] at h
      · cases h
      · by_cases hnull : value.isNull <;> simp [hnull] at h
    · next hkind =>
      cases h
      exact hkind

end Run
end EvolvingGraph
