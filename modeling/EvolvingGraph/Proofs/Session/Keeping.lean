/-
  EvolvingGraph.Proofs.Session.Keeping
  ────────────────────────────────────
  **WHAT CHANGES TO GRAPHS AND CALLS TO GENERATORS KEEP, SESSIONS KEEP.**

  Whatever a step of a session asks for, it does so by changes to graphs, by
  calls to generators, by assignments to trees, by attaching and detaching sinks and
  by steps that leave the graphs, the runs of the generators, the trees and the lists
  of sinks as they are.  So to see that something holds in all worlds of a session, it
  is enough to look at these few: at what they do, and at what sinks do when they are
  told.

  Main statements:
    * `keeps_playStep` — what changes, calls and assignments keep, every step keeps;
    * `keeps_playAll`, `keeps_afterSteps` — so do any steps, one after the other;
    * `sustained_hostOfDepth` — what does not depend on what the graphs hold.
-/
import EvolvingGraph.Proofs.Delivery.Sustaining
import EvolvingGraph.Session.Player

namespace EvolvingGraph.Session

open Run

variable {kept : World → Prop}

/-! ## §1. Names and answers. -/

section Answers

instance (self : Option Object) (name : Option String) : Keeps kept (addressee self name) := by
  unfold addressee
  split
  · infer_instance
  · split <;> infer_instance

instance (name : String) : Keeps kept (sinkNamed name) := by
  unfold sinkNamed
  refine .bind inferInstance fun object => ?_
  split <;> infer_instance

instance (name : String) : Keeps kept (graphNamed name) := by
  unfold graphNamed
  refine .bind inferInstance fun object => ?_
  split <;> infer_instance

instance (g : GraphRef) : Keeps kept (labelOf g) := by
  unfold labelOf
  infer_instance

instance (v : Value) : Keeps kept (answer v) := by
  unfold answer
  infer_instance

instance (x : Run Unit) [Keeps kept x] : Keeps kept (silently x) := by
  unfold silently
  infer_instance

instance (vs : List Value) : Keeps kept (answerList vs) := by
  unfold answerList
  infer_instance

instance (names : List String) : Keeps kept (answerNames names) := by
  unfold answerNames
  infer_instance

instance [LastingUnattached kept] (as : Option String) (e : EdgeView) :
    Keeps kept (answerView as e) := by
  unfold answerView
  split <;> infer_instance

instance (g : GraphRef) : Keeps kept (summaryOf g) := by
  unfold summaryOf
  infer_instance

instance (g : GraphRef) : Keeps kept (dumpOf g) := by
  unfold dumpOf
  infer_instance

instance (object : Object) : Keeps kept (emitterOf object) := by
  unfold emitterOf
  split <;> infer_instance

end Answers

/-! ## §2. Attached sinks. -/

section Attachments

/-- A source has an emitter, and nothing else has one. -/
theorem exec_modifyEmitter (object : Object) (f : Emitter → Emitter) (w : World) :
    (∃ source, object = .sink source
      ∧ (modifyEmitter object f).exec w = (.ok (), w.withEmitter source f))
    ∨ (modifyEmitter object f).exec w = (.error .noSuchOperation, w) := by
  unfold modifyEmitter
  split
  · next g => exact .inl ⟨.graph g, rfl, rfl⟩
  · next g => exact .inl ⟨.generator g, rfl, rfl⟩
  · exact .inr rfl

theorem keeps_modifyEmitter {object : Object} {f : Emitter → Emitter}
    (h : ∀ source, object = .sink source → ∀ w, kept w → kept (w.withEmitter source f)) :
    Keeps kept (modifyEmitter object f) := by
  refine ⟨fun w hw => ?_⟩
  obtain ⟨source, hsource, hexec⟩ | hexec := exec_modifyEmitter object f w
  · rw [hexec]
    exact h source hsource w hw
  · rw [hexec]
    exact hw

variable [KeepsAttachments kept]

instance (object : Object) (s : SinkRef) : Keeps kept (modifyEmitter object (·.detach s)) :=
  keeps_modifyEmitter fun source _ _ hw => KeepsAttachments.detach source s hw

instance (object : Object) : Keeps kept (modifyEmitter object (·.detachAll)) :=
  keeps_modifyEmitter fun source _ _ hw => KeepsAttachments.detachAll source hw

instance (object : Object) (s : SinkRef) : Keeps kept (attachSink object s) := by
  unfold attachSink
  split
  · next own =>
    by_cases hself : own = s
    · simp only [if_pos hself]
      exact ⟨fun _ hw => hw⟩
    · have hattach : Keeps kept (modifyEmitter (.sink own) (·.attach s)) := by
        refine keeps_modifyEmitter fun source hsource w hw => ?_
        obtain rfl : own = source := Object.sink.inj hsource
        exact KeepsAttachments.attach hself hw
      simp only [if_neg hself]
      infer_instance
  · next hnone =>
    have hattach : Keeps kept (modifyEmitter object (·.attach s)) :=
      keeps_modifyEmitter fun source hsource => absurd hsource (hnone source)
    infer_instance

end Attachments

/-! ## §3. Requests. -/

section Requests

variable [LastingUnattached kept]

instance (g : GraphRef) (request : GraphRequest) : Keeps kept (askGraph g request) := by
  unfold askGraph
  refine .bind inferInstance fun graph => ?_
  split <;> infer_instance

instance (term : ChangeTerm) : Keeps kept (requested term) := by
  unfold requested
  split <;> infer_instance

instance (attributes : Attributes) (request : SnapshotRequest) :
    Keeps kept (askSnapshot attributes request) := by
  unfold askSnapshot
  split <;> infer_instance

instance (object : Object) (kind : IterationKind) (maxSteps : Option Term) :
    Keeps kept (sourceOf object kind maxSteps) := by
  unfold sourceOf
  split <;> infer_instance

instance (source : CursorSource) : Keeps kept (openCursor source) :=
  .of_elsewhere (fun _ => rfl) (fun _ => rfl) (fun _ => rfl) (fun _ => rfl) fun _ => rfl

instance (t : TreeRef) (ids : List Value) : Keeps kept (inGraphOrder t ids) := by
  unfold inGraphOrder
  refine .bind inferInstance fun tree => ?_
  split <;> infer_instance

instance (t : TreeRef) (sorted : Bool) (items : List TreeItem) :
    Keeps kept (idsOfItems t sorted items) := by
  unfold idsOfItems
  infer_instance

instance (t : TreeRef) : Keeps kept (markedOf t) := by
  unfold markedOf
  refine .bind inferInstance fun tree => ?_
  split <;> infer_instance

variable {host : Host} [Sustained kept host]

instance (g : GraphRef) (r : Requested) (as : Option String) :
    Keeps kept (changeGraph host g r as) := by
  unfold changeGraph
  have hmade : Keeps kept (do
      perform host g r.change r.attributes
      match r.change with
      | .addEdge id source target => answerView as ⟨g, id, source, target⟩
      | _ => answer r.added) := by
    refine .bind inferInstance fun _ => ?_
    split <;> infer_instance
  infer_instance

instance (object : Object) (term : ChangeTerm) (as : Option String) :
    Keeps kept (changeObject host object term as) := by
  unfold changeObject
  split <;> infer_instance

instance (object : Object) (event : Option EventKind) (sender : Term) (arguments : List Term) :
    Keeps kept (deliverTo host object event sender arguments) := by
  unfold deliverTo
  split
  · refine .bind inferInstance fun sender => .bind inferInstance fun arguments => ?_
    split <;> infer_instance
  · infer_instance

instance [KeepsAttachments kept] (object : Object) (request : SinkRequest) :
    Keeps kept (askSinks host object request) := by
  unfold askSinks
  split <;> infer_instance

instance (e : EdgeView) (request : ViewRequest) : Keeps kept (askView host e request) := by
  unfold askView
  refine .bind inferInstance fun graph => ?_
  cases request with
  | item name =>
    refine .bind inferInstance fun name => .bind inferInstance fun attributes =>
      .bind inferInstance fun k => ?_
    split <;> infer_instance
  | attributes as => cases as <;> infer_instance
  | weight name default =>
    refine .bind inferInstance fun name => .bind inferInstance fun default =>
      .bind inferInstance fun weight => ?_
    split <;> infer_instance
  | _ => infer_instance

/-- What does not depend on generators is kept by the calls of a session. -/
instance [∀ g f, Keeps kept (World.modifyGenerator g f)] [∀ entry, Keeps kept (World.note entry)]
    (g : GeneratorRef) : KeepsCalls kept (hooksOf host g) g := by
  unfold hooksOf
  infer_instance

instance [∀ g, KeepsCalls kept (hooksOf host g) g] (c : CursorRef) (request : CursorRequest) :
    Keeps kept (askCursor host c request) := by
  unfold askCursor
  cases request with
  | next =>
    refine .bind inferInstance fun item => ?_
    split <;> infer_instance
  | _ => infer_instance

instance [KeepsAssignments kept] (t : TreeRef) (request : TreeRequest) :
    Keeps kept (askTree host t request) := by
  unfold askTree
  cases request with
  | state =>
    refine .bind inferInstance fun tree => ?_
    cases tree.graph <;> infer_instance
  | assignGraph name => cases name <;> infer_instance
  | weight =>
    refine .bind inferInstance fun tree => ?_
    cases tree.graph <;> infer_instance
  | _ => infer_instance

instance [KeepsAttachments kept] (g : GeneratorRef) [KeepsCalls kept (hooksOf host g) g]
    (request : GeneratorRequest) : Keeps kept (askGenerator host g request) := by
  unfold askGenerator
  cases request with
  | generate sink maxSteps => cases sink <;> infer_instance
  | _ => infer_instance

end Requests

/-! ## §4. New objects. -/

section Creation

variable [LastingUnattached kept]

/-- A new graph leaves those that are there as they are. -/
instance (as : String) (id : Value) (graph : Graph) : Keeps kept (placeGraph as id graph) := by
  refine .of_keepsSinks (fun w => ⟨fun x hx => ?_, rfl⟩) (fun _ => .of_eq rfl rfl) (fun _ => rfl)
    fun w source => ?_
  · refine ⟨Heap.lt_size_push hx _, ?_⟩
    show ((w.graphs.push _).get x.index).graph = _
    rw [Heap.get_push hx]
    rfl
  · cases source with
    | graph g => exact Heap.get_push_eq (fun x : GraphObject => x.emitter.sinks) rfl
    | generator g | recorder i | silent i => rfl

instance (as : String) (reactions : List (Reaction Step)) :
    Keeps kept (placeRecorder as reactions) :=
  .of_elsewhere (fun _ => rfl) (fun _ => rfl) (fun _ => rfl) (fun _ => rfl) fun _ => rfl

instance (as : String) : Keeps kept (placeSilent as) :=
  .of_elsewhere (fun _ => rfl) (fun _ => rfl) (fun _ => rfl) (fun _ => rfl) fun _ => rfl

/-- So does a new generator. -/
instance (as : String) (id : Value) (script : GenerationScript Step) :
    Keeps kept (placeGenerator as id script) := by
  refine .of_keepsSinks (fun _ => .of_graphs_eq rfl rfl) (fun w => ⟨fun x hx => ?_, rfl⟩)
    (fun _ => rfl) fun w source => ?_
  · refine ⟨Heap.lt_size_push hx _, ?_⟩
    exact congrArg (fun x => Life.mk x.phase x.stepCount) (Heap.get_push hx _)
  · cases source with
    | generator g => exact Heap.get_push_eq (fun x : Generator => x.emitter.sinks) rfl
    | graph g | recorder i | silent i => rfl

instance (as : String) (source : CursorSource) : Keeps kept (placeCursor as source) := by
  unfold placeCursor
  infer_instance

instance (s : TreeSettings) : Keeps kept (settingsOf s) := by
  unfold settingsOf
  infer_instance

instance (settings : TreeSettings) (config : Option ConfigTerm) :
    Keeps kept (chosenSettings settings config) := by
  unfold chosenSettings
  split <;> infer_instance

instance [KeepsAssignments kept] (as : String) (graph : Option String) (settings : TreeSettings)
    (config : Option ConfigTerm) (builder : Option (Builder Step)) :
    Keeps kept (placeTree as graph settings config builder) := by
  have hplaced : ∀ g chosen w offered w', (offer builder).exec w = (.ok offered, w') →
      Keeps kept (do
        let tree ← Run.ofExcept (SpanningTree.make g chosen offered)
        let w ← get
        set { w with trees := w.trees.push tree }
        World.bind as (.tree ⟨w.trees.size⟩) : Run Unit) := by
    intro g chosen w offered w' hoffered
    refine .bind_of_ok inferInstance fun w tree w' _ htree => ⟨fun v hv => ?_⟩
    rw [exec_ofExcept] at htree
    have hmade := KeepsAssignments.make hv (sound_offer hoffered) (Prod.ext_iff.1 htree).1
    exact Keeps.after (x := World.bind as (.tree ⟨v.trees.size⟩)) _ hmade
  have hmade : ∀ g, Keeps kept (do
      let chosen ← chosenSettings settings config
      let offered ← offer builder
      let tree ← Run.ofExcept (SpanningTree.make g chosen offered)
      let w ← get
      set { w with trees := w.trees.push tree }
      World.bind as (.tree ⟨w.trees.size⟩) : Run Unit) := fun g =>
    .bind inferInstance fun chosen =>
      .bind_of_ok inferInstance fun w offered w' _ => hplaced g chosen w offered w'
  unfold placeTree
  split <;> infer_instance

instance (term : ArrayTerm) : Keeps kept (arrayOf term) := by
  unfold arrayOf
  split <;> infer_instance

instance (rows columns : Nat) (entry : Int × Int × Term) :
    Keeps kept (entryOf rows columns entry) := by
  unfold entryOf
  infer_instance

instance (ownConstructor : Bool) (options : MatrixOptions) :
    Keeps kept (readingOf ownConstructor options) := by
  unfold readingOf
  infer_instance

instance (matrix : MatrixTerm) (reading : MatrixReading) :
    Keeps kept (graphOfMatrix matrix reading) := by
  unfold graphOfMatrix
  split <;> infer_instance

instance (network : NetworkTerm) : Keeps kept (graphOfNetwork network) := by
  unfold graphOfNetwork
  split <;> infer_instance

instance (table : TableTerm) : Keeps kept (tableOf table) := by
  unfold tableOf
  split <;> infer_instance

instance (options : TableOptions) : Keeps kept (tableReadingOf options) := by
  unfold tableReadingOf
  infer_instance

instance (source : ImportTerm) : Keeps kept (importedGraph source) := by
  unfold importedGraph
  split <;> infer_instance

instance (as : String) (id : Term) (source : ImportTerm) :
    Keeps kept (placeImport as id source) := by
  unfold placeImport
  infer_instance

end Creation

/-! ## §5. Steps. -/

instance (object : Object) : Keeps kept (describeObject object) := by
  unfold describeObject
  split <;> infer_instance

section Steps

variable [LastingUnattached kept] [KeepsAssignments kept] [KeepsAttachments kept] {host : Host}
  [Sustained kept host]
  [∀ g, KeepsCalls kept (hooksOf host g) g]

/-- **What is kept by changes to graphs, by calls to generators, by assignments to trees,
by attaching and detaching sinks, and by all that leaves the graphs, the runs of
generators, the trees and the lists of sinks as they are, is kept by every step, whether
it fails or not.** -/
instance keeps_playStep (self : Option Object) (step : Step) :
    Keeps kept (playStep host self step) := by
  unfold playStep
  cases step with
  | graph on request =>
    refine .bind inferInstance fun object => ?_
    split <;> infer_instance
  | view on request =>
    refine .bind inferInstance fun object => ?_
    split <;> infer_instance
  | snapshot on request =>
    refine .bind inferInstance fun object => ?_
    split <;> infer_instance
  | cursor on request =>
    refine .bind inferInstance fun object => ?_
    split <;> infer_instance
  | tree on request =>
    refine .bind inferInstance fun object => ?_
    split <;> infer_instance
  | generator on request =>
    refine .bind inferInstance fun object => ?_
    split <;> infer_instance
  | assignBuilder on builder =>
    have hassigned : Keeps kept (do
        match ← addressee self on with
        | .tree t =>
          let offered ← offer builder
          World.setTree t (← Run.ofExcept ((← World.tree t).setBuilder offered))
        | _ => throw .noSuchOperation) := by
      refine .bind inferInstance fun object => ?_
      split <;> infer_instance
    infer_instance
  | checkSquare array =>
    have hchecked : Keeps kept (do
        match DenseMatrix.ofArray? (← arrayOf array) with
        | some m => if m.isSquare then pure () else throw .notSquare
        | none => throw .notSquare) := by
      refine .bind inferInstance fun array => ?_
      split <;> infer_instance
    infer_instance
  | _ => infer_instance

/-- So is it by any steps, one after the other. -/
instance keeps_playAll (self : Option Object) (steps : List Step) :
    Keeps kept (playAll host self steps) := by
  unfold playAll
  infer_instance

/-- The world after steps are played one after the other, whether they fail or not. -/
def afterSteps (host : Host) (steps : List Step) (w : World) : World :=
  steps.foldl (fun w step => ((playStep host none step).exec w).2) w

theorem keeps_afterSteps (steps : List Step) {w : World} (hw : kept w) :
    kept (afterSteps host steps w) := by
  unfold afterSteps
  induction steps generalizing w with
  | nil => exact hw
  | cons step rest ih => exact ih (Keeps.after w hw)

end Steps

/-! ## §6. The host of a session. -/

theorem keeps_commit_of_setGraph {host : Host} [∀ g graph, Keeps kept (World.setGraph g graph)]
    [∀ s sender event, Keeps kept (host.notify s sender event)] (g : GraphRef) (c : Change) :
    Keeps kept (commit host g c) := by
  have hemit : ∀ emitter event, Keeps kept (emit host emitter event) := keeps_emit_of_notify
  unfold commit
  refine .bind inferInstance fun object => .bind inferInstance fun _ =>
    .bind inferInstance fun event => ?_
  split <;> infer_instance

/-- **What is kept by changes and announcements as soon as sinks keep it, and by calls to
generators, by assignments to trees and by attaching and detaching sinks, is kept by the
host of a session**, however deep its steps are nested.  What is to be kept may depend on
the world in which something starts. -/
theorem sustained_hostOfDepth_of_emissions {ι : Type} (kept : ι → World → Prop)
    [∀ i, LastingUnattached (kept i)] [∀ i, KeepsAssignments (kept i)]
    [∀ i, KeepsAttachments (kept i)]
    (hcommit : ∀ host, (∀ i s sender event, Keeps (kept i) (host.notify s sender event)) →
      ∀ i g c, Keeps (kept i) (commit host g c))
    (hannounce : ∀ host, (∀ i s sender event, Keeps (kept i) (host.notify s sender event)) →
      ∀ i g c attributes old, Keeps (kept i) (announce host g c attributes old))
    (hcalls : ∀ host, (∀ i, Sustained (kept i) host) →
      ∀ i g, KeepsCalls (kept i) (hooksOf host g) g) (depth : Nat) (i : ι) :
    Sustained (kept i) (hostOfDepth depth) := by
  -- sinks and scripts are played one level further down
  induction depth generalizing i with
  | zero =>
    have hnotify : ∀ i s sender event, Keeps (kept i) ((hostOfDepth 0).notify s sender event) :=
      fun _ _ _ _ => .of_reads (.throw _)
    exact ⟨hcommit _ hnotify i, hnotify i, hannounce _ hnotify i, fun _ _ => .of_reads (.throw _)⟩
  | succ depth ih =>
    have hnotify : ∀ i s sender event,
        Keeps (kept i) ((hostOfDepth (depth + 1)).notify s sender event) := by
      intro i s sender event
      have := ih i
      show Keeps _ (deliver (hostOfDepth depth) s sender event)
      infer_instance
    refine ⟨hcommit _ hnotify i, hnotify i, hannounce _ hnotify i, fun self steps => ?_⟩
    have := ih i
    have := hcalls (hostOfDepth depth) ih i
    show Keeps _ (playAll (hostOfDepth depth) self steps)
    infer_instance

/-- **What does not depend on what the graphs hold, and is kept by calls to generators and
by assignments to trees, is kept by the host of a session.** -/
theorem sustained_hostOfDepth {ι : Type} (kept : ι → World → Prop)
    [∀ i, LastingUnassigned (kept i)] [∀ i, KeepsAssignments (kept i)]
    [∀ i g graph, Keeps (kept i) (World.setGraph g graph)]
    (hcalls : ∀ host, (∀ i, Sustained (kept i) host) →
      ∀ i g, KeepsCalls (kept i) (hooksOf host g) g) (depth : Nat) (i : ι) :
    Sustained (kept i) (hostOfDepth depth) := by
  refine sustained_hostOfDepth_of_emissions kept (fun host hnotify i => ?_)
    (fun host hnotify i => ?_) hcalls depth i
  · have := hnotify i
    exact keeps_commit_of_setGraph
  · have := hnotify i
    exact keeps_announce_of_notify

end EvolvingGraph.Session
