/-
  EvolvingGraph.Proofs.Generation.Announcing
  ──────────────────────────────────────────
  **GENERATORS THAT ANNOUNCE CHANGES AND DO NOTHING ELSE.**

  The usual scripted generator announces changes, which are written out in its
  script, and perhaps fails.  As long as its sinks write down what they hear and
  do nothing else, all that is left of a hook are receipts and the place that the
  generator has reached in its script.  So its hooks are quiet.

  Main statements:
    * `GenerationScript.Announces.quiet` — the hooks of such a generator are quiet;
    * `GenerationScript.Announces.played` — what is left of a hook;
    * `GenerationScript.Announces.failure` — no hook fails for being called out of order.
-/
import EvolvingGraph.Proofs.Delivery.Passive
import EvolvingGraph.Proofs.Generation.Calls

namespace EvolvingGraph

variable {α β γ : Type}

/-! ## §1. Operations that behave. -/

namespace Run

/-- An operation keeps worlds of some kind of this kind, and does not fail in them
for being called out of order. -/
def Behaves (kept : World → Prop) (x : Run α) : Prop :=
  ∀ w, kept w → kept (x.exec w).2 ∧ ∀ e, (x.exec w).1 = .error e → e.kind ≠ .generatorState

/-- An operation gives the same in every world, and leaves it as it is. -/
def Constant (x : Run α) : Prop := ∃ a, ∀ w, x.exec w = (.ok a, w)

namespace Behaves

variable {kept : World → Prop}

theorem throw {e : Error} (he : e.kind ≠ .generatorState) :
    Behaves kept (throw e : Run α) := fun _ hw => ⟨hw, fun _ h => by cases h; exact he⟩

/-- What comes after a failure does not matter. -/
theorem throw_bind {e : Error} (he : e.kind ≠ .generatorState) (f : α → Run β) :
    Behaves kept (MonadExcept.throw e >>= f : Run β) :=
  fun _ hw => ⟨hw, fun _ h => by cases h; exact he⟩

theorem of_ok {x : Run α} (h : ∀ w, kept w → ∃ a w', x.exec w = (.ok a, w') ∧ kept w') :
    Behaves kept x := by
  intro w hw
  obtain ⟨a, w', hx, hw'⟩ := h w hw
  rw [hx]
  exact ⟨hw', nofun⟩

theorem of_constant {x : Run α} : Constant x → Behaves kept x :=
  fun ⟨a, hx⟩ => of_ok fun w hw => ⟨a, w, hx w, hw⟩

theorem bind {x : Run α} {f : α → Run β} (h : Behaves kept x) (hf : ∀ a, Behaves kept (f a)) :
    Behaves kept (x >>= f) := by
  intro w hw
  have hbehaves := h w hw
  rw [exec_bind]
  rcases hx : x.exec w with ⟨e | a, w'⟩ <;> rw [hx] at hbehaves
  · refine ⟨hbehaves.1, fun e' he' => ?_⟩
    cases he'
    exact hbehaves.2 e rfl
  · exact hf a w' hbehaves.1

theorem forM {f : γ → Run Unit} {xs : List γ} (h : ∀ x ∈ xs, Behaves kept (f x)) :
    Behaves kept (xs.forM f) := by
  induction xs with
  | nil => exact of_constant ⟨(), fun _ => rfl⟩
  | cons x xs ih =>
    exact bind (h x List.mem_cons_self) fun _ => ih fun y hy => h y (List.mem_cons_of_mem _ hy)

end Behaves
end Run

/-! ## §2. What is left of a hook. -/

namespace World

/-- The world with a generator at another place in its script. -/
def withPosition (w : World) (g : GeneratorRef) (position : Nat) : World :=
  w.withGenerator g fun x => { x with position := position }

/-- Since some world, nothing has come but receipts, and a generator has perhaps
reached another place in its script. -/
def PlayedSince (w₀ : World) (g : GeneratorRef) (w : World) : Prop :=
  ∃ position receipts, w = (w₀.withPosition g position).receive receipts

variable {w₀ w : World} {g : GeneratorRef}

@[simp] theorem generatorAt_receive (receipts : List Receipt) :
    (w.receive receipts).generatorAt g = w.generatorAt g := rfl

@[simp] theorem hasGenerator_receive (receipts : List Receipt) :
    (w.receive receipts).HasGenerator g ↔ w.HasGenerator g := Iff.rfl

@[simp] theorem hasGenerator_withPosition (position : Nat) :
    (w.withPosition g position).HasGenerator g ↔ w.HasGenerator g := hasGenerator_withGenerator _

theorem playedSince_self (w : World) (g : GeneratorRef) : w.PlayedSince g w := by
  refine ⟨(w.generatorAt g).position, [], ?_⟩
  rw [receive_nil, withPosition, withGenerator_self rfl]

namespace PlayedSince

theorem receive (h : w₀.PlayedSince g w) (receipts : List Receipt) :
    w₀.PlayedSince g (w.receive receipts) := by
  obtain ⟨position, before, rfl⟩ := h
  exact ⟨position, before ++ receipts, receive_receive ..⟩

theorem reposition (h : w₀.PlayedSince g w) (position : Nat) :
    w₀.PlayedSince g (w.withPosition g position) := by
  obtain ⟨before, receipts, rfl⟩ := h
  refine ⟨position, receipts, ?_⟩
  -- receipts and generators are written in different places
  show ((w₀.withPosition g before).withPosition g position).receive receipts = _
  unfold withPosition
  rw [withGenerator_withGenerator]

theorem generatorAt (h : w₀.PlayedSince g w) :
    ∃ position, w.generatorAt g = { w₀.generatorAt g with position := position } := by
  obtain ⟨position, receipts, rfl⟩ := h
  rw [generatorAt_receive, withPosition]
  by_cases hg : w₀.HasGenerator g
  · exact ⟨position, generatorAt_withGenerator hg _⟩
  · rw [withGenerator_of_not_hasGenerator hg]
    exact ⟨(w₀.generatorAt g).position, rfl⟩

theorem emitter_eq (h : w₀.PlayedSince g w) :
    (w.generatorAt g).emitter = (w₀.generatorAt g).emitter := by
  obtain ⟨position, hx⟩ := h.generatorAt
  rw [hx]

theorem script_eq (h : w₀.PlayedSince g w) :
    (w.generatorAt g).script = (w₀.generatorAt g).script := by
  obtain ⟨position, hx⟩ := h.generatorAt
  rw [hx]

theorem life_eq (h : w₀.PlayedSince g w) : w.life g = w₀.life g := by
  obtain ⟨position, hx⟩ := h.generatorAt
  unfold World.life
  rw [hx]

theorem recorders_eq (h : w₀.PlayedSince g w) : w.recorders = w₀.recorders := by
  obtain ⟨position, receipts, rfl⟩ := h
  rfl

theorem cursors_eq (h : w₀.PlayedSince g w) : w.cursors = w₀.cursors := by
  obtain ⟨position, receipts, rfl⟩ := h
  rfl

theorem hasGenerator_iff (h : w₀.PlayedSince g w) : w.HasGenerator g ↔ w₀.HasGenerator g := by
  obtain ⟨position, receipts, rfl⟩ := h
  rw [hasGenerator_receive, hasGenerator_withPosition]

end PlayedSince
end World

/-! ## §3. Announcing. -/

/-- Steps that announce a change which is written out, or fail. -/
inductive Step.Announces : Step → Prop where
  | change {term : ChangeTerm} (written : Run.Constant (Session.requested term))
      (as : Option String) : Announces (.change none term as)
  | fail (message : String) : Announces (.fail message)

/-- Scripts whose steps announce changes, and whose answers are written out. -/
structure GenerationScript.Announces (script : GenerationScript Step) : Prop where
  opening : ∀ s ∈ script.opening, s.Announces
  actions : ∀ entry ∈ script.entries, ∀ s ∈ entry.actions, s.Announces
  more : ∀ entry ∈ script.entries, Run.Constant (evaluate entry.more)
  closing : ∀ s ∈ script.closing, s.Announces
  tail : Run.Constant (evaluate script.tail)

/-- A generator is there, it plays a script, and its sinks do nothing but write
down what they hear. -/
structure World.Stages (host : Host) (g : GeneratorRef) (script : GenerationScript Step)
    (w : World) : Prop where
  present : w.HasGenerator g
  script_eq : (w.generatorAt g).script = script
  passive : ∀ s ∈ (w.generatorAt g).emitter.sinks, ∃ notes, Passive host w.recorders s notes

section Announcing

open Run Session

variable {host outer : Host} {g : GeneratorRef} {script : GenerationScript Step} {w₀ w : World}

theorem World.PlayedSince.stages (h : w₀.PlayedSince g w) (hw₀ : w₀.Stages host g script) :
    w.Stages host g script where
  present := h.hasGenerator_iff.2 hw₀.present
  script_eq := h.script_eq.trans hw₀.script_eq
  passive := by
    rw [h.emitter_eq, h.recorders_eq]
    exact hw₀.passive

theorem behaves_emit (hw₀ : w₀.Stages host g script) (event : Event) :
    Behaves (w₀.PlayedSince g) (emit host (w₀.generatorAt g).emitter event) := by
  refine .forM fun s hs => .of_ok fun w hw => ?_
  obtain ⟨notes, hnotes⟩ := hw₀.passive s hs
  exact ⟨(), _, hnotes _ event w hw.recorders_eq, hw.receive _⟩

theorem behaves_announce (hw₀ : w₀.Stages host g script) (c : Change) (attributes : Attributes)
    (old : Value) : Behaves (w₀.PlayedSince g) (announce host g c attributes old) := by
  unfold announce
  split
  · exact .throw_bind (e := .badArgument) (by decide) _
  · refine .forM fun c _ w hw => ?_
    rw [exec_bind, exec_generator]
    dsimp only
    rw [hw.emitter_eq]
    cases c.announcement? old with
    | some event => exact behaves_emit hw₀ event w hw
    | none => exact Behaves.throw (e := .noSuchOperation) (by decide) w hw

theorem behaves_playStep (hw₀ : w₀.Stages host g script) {s : Step} (hs : s.Announces) :
    Behaves (w₀.PlayedSince g) (playStep host (some (.sink (.generator g))) s) := by
  cases hs with
  | fail message => exact .throw (e := .scripted message) (by simp [Error.kind])
  | @change term written as =>
    have hannounce : Behaves (w₀.PlayedSince g) (silently do
        let r ← requested term
        announce host g r.change r.attributes r.old) :=
      .bind (.bind (.of_constant written) fun r => behaves_announce hw₀ _ _ _) fun _ =>
        .of_constant ⟨_, fun _ => rfl⟩
    show Behaves _ (changeObject host (.sink (.generator g)) term as)
    cases term with
    | clear => exact .throw (e := .noSuchOperation) (by decide)
    | _ => exact hannounce

theorem behaves_playAll (hw₀ : w₀.Stages host g script) {steps : List Step}
    (hsteps : ∀ s ∈ steps, s.Announces) :
    Behaves (w₀.PlayedSince g) (playAll host (some (.sink (.generator g))) steps) := by
  refine .forM fun s hs => ?_
  have hdiscard : discard (playStep host (some (.sink (.generator g))) s)
      = playStep host (some (.sink (.generator g))) s >>= fun _ => (pure () : Run Unit) := rfl
  rw [hdiscard]
  exact .bind (behaves_playStep hw₀ (hsteps s hs)) fun _ => .of_constant ⟨_, fun _ => rfl⟩

/-- Playing steps that are found in the script of the generator. -/
theorem behaves_playPart {depth : Nat} (hw₀ : w₀.Stages (hostOfDepth depth) g script)
    (part : GenerationScript Step → List Step) (hpart : ∀ s ∈ part script, s.Announces) :
    Behaves (w₀.PlayedSince g) (do
      (hostOfDepth (depth + 1)).play (some (.sink (.generator g)))
        (part (← World.generator g).script)) := by
  intro w hw
  rw [exec_bind, exec_generator]
  dsimp only
  rw [hw.script_eq, hw₀.script_eq]
  exact behaves_playAll hw₀ hpart w hw

theorem behaves_reposition (f : Nat → Nat) : Behaves (w₀.PlayedSince g)
    (World.modifyGenerator g fun x => { x with position := f x.position }) :=
  .of_ok fun w hw => ⟨⟨⟩, _, rfl, hw.reposition (f (w.generatorAt g).position)⟩

theorem behaves_playEntry {depth : Nat} (hw₀ : w₀.Stages (hostOfDepth depth) g script)
    (hscript : script.Announces) :
    Behaves (w₀.PlayedSince g) (playEntry (hostOfDepth (depth + 1)) g) := by
  have hanswer {term : Term} (hterm : Constant (evaluate term)) :
      Behaves (w₀.PlayedSince g) (do return (← evaluate term).isTruthy) :=
    .bind (.of_constant hterm) fun _ => .of_constant ⟨_, fun _ => rfl⟩
  intro w hw
  unfold playEntry
  rw [exec_bind, exec_generator]
  dsimp only
  have hscript_eq := hw.script_eq.trans hw₀.script_eq
  cases hentry : (w.generatorAt g).entryAt with
  | none =>
    dsimp only
    rw [hscript_eq]
    exact hanswer hscript.tail w hw
  | some entry =>
    have hmem : entry ∈ script.entries := by
      rw [← hscript_eq]
      exact List.mem_of_getElem? hentry
    exact Behaves.bind (behaves_reposition (· + 1)) (fun _ =>
      .bind (behaves_playAll hw₀ (hscript.actions entry hmem)) fun _ =>
        hanswer (hscript.more entry hmem)) w hw

theorem behaves_hook {depth : Nat} (hw₀ : w₀.Stages (hostOfDepth depth) g script)
    (hscript : script.Announces) (c : GeneratorCall) :
    Behaves (w₀.PlayedSince g) ((scriptHooks (hostOfDepth (depth + 1)) g).hook c) := by
  cases c with
  | begin =>
    refine .bind (.bind (behaves_reposition fun _ => 0) fun _ => ?_) fun _ =>
      .of_constant ⟨_, fun _ => rfl⟩
    exact behaves_playPart hw₀ (·.opening) hscript.opening
  | pull => exact behaves_playEntry hw₀ hscript
  | finish =>
    refine .bind ?_ fun _ => .of_constant ⟨_, fun _ => rfl⟩
    exact behaves_playPart hw₀ (·.closing) hscript.closing

end Announcing

/-! ## §4. Quiet generators. -/

namespace GenerationScript.Announces

open Session

variable {script : GenerationScript Step} {depth : Nat} {g : GeneratorRef} {w : World}

/-- **What is left of a hook are receipts and the place in the script.** -/
theorem played (hscript : script.Announces) (hw : w.Stages (hostOfDepth depth) g script)
    (c : GeneratorCall) :
    w.PlayedSince g (((scriptHooks (hostOfDepth (depth + 1)) g).hook c).exec w).2 :=
  (behaves_hook hw hscript c w (World.playedSince_self w g)).1

/-- No hook fails for being called out of order. -/
theorem failure (hscript : script.Announces) (hw : w.Stages (hostOfDepth depth) g script)
    (c : GeneratorCall) {e : Error}
    (he : (((scriptHooks (hostOfDepth (depth + 1)) g).hook c).exec w).1 = .error e) :
    e.kind ≠ .generatorState :=
  (behaves_hook hw hscript c w (World.playedSince_self w g)).2 e he

/-- **The hooks of a generator that announces changes are quiet.** -/
theorem quiet (hscript : script.Announces) (depth : Nat) (g : GeneratorRef) :
    (scriptHooks (hostOfDepth (depth + 1)) g).Quiet g
      (World.Stages (hostOfDepth depth) g script) where
  present := fun hw => hw.present
  withLife := fun {w} life hw => by
    have hemitter : (w.withLife g life).generatorAt g = { w.generatorAt g with
        phase := life.phase, stepCount := life.stepCount } :=
      World.generatorAt_withGenerator hw.present _
    refine ⟨(World.hasGenerator_withLife life).2 hw.present, ?_, ?_⟩
    · rw [hemitter]
      exact hw.script_eq
    · rw [hemitter]
      exact hw.passive
  logged := fun entry hw => ⟨hw.present, hw.script_eq, hw.passive⟩
  hook := fun c _ hw => ⟨(hscript.played hw c).stages hw, (hscript.played hw c).life_eq⟩

end GenerationScript.Announces

/-! ## §5. A generator and two recorders. -/

namespace Announcing

open Session

/-- A generator that plays a script, and two recorders, of which the first one is
attached to it. -/
def stage (script : GenerationScript Step) : World :=
  { World.initial with
    recorders := ⟨[⟨"r", []⟩, ⟨"s", []⟩]⟩
    generators := ⟨[⟨"gen", ⟨.str "G", [.recorder 0]⟩, script, 0, .notStarted, 0⟩]⟩ }

theorem stages_stage (depth : Nat) (script : GenerationScript Step) :
    (stage script).Stages (hostOfDepth (depth + 1)) ⟨0⟩ script where
  present := Nat.one_pos
  script_eq := rfl
  passive := by
    intro s hs
    rw [List.mem_singleton.1 hs]
    exact ⟨_, passive_recorder depth rfl⟩

def node (n : Int) : Step := .change none (.addNode (.value (.int n)) []) none

theorem announces_node (n : Int) : (node n).Announces := .change ⟨_, fun _ => rfl⟩ none

/-- Three steps, of which the second one fails and the third one is the last. -/
def threeSteps : GenerationScript Step where
  opening := [node 0]
  entries := [⟨[node 1], .value (.bool true)⟩, ⟨[node 2, .fail "no"], .value (.bool true)⟩,
    ⟨[node 3], .value (.bool false)⟩]
  closing := [node 4]
  tail := .value (.bool false)

theorem announces_threeSteps : threeSteps.Announces where
  opening := by simp [threeSteps, announces_node]
  actions := by simp [threeSteps, announces_node, Step.Announces.fail]
  more := by
    intro entry hentry
    obtain rfl | rfl | rfl : entry = _ ∨ entry = _ ∨ entry = _ := by
      simpa [threeSteps] using hentry
    all_goals exact ⟨_, fun _ => rfl⟩
  closing := by simp [threeSteps, announces_node]
  tail := ⟨_, fun _ => rfl⟩

end Announcing
end EvolvingGraph
