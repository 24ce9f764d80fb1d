/-
  EvolvingGraph.Proofs.Delivery.Account
  ─────────────────────────────────────
  **ACCOUNTS OF WHAT HAPPENS TO THE GRAPHS OF A SESSION.**

  A graph makes a change and tells its sinks, one after the other.  A sink that
  is told may do anything: make changes to the same graph, of which all sinks
  are told before the next one hears of the first change; attach and detach
  sinks; fail.  An `Account` tells who made which change, who was told of it and
  which receipts were written, in the order in which this happened, and what
  happened while a sink was told stands inside.

  Which accounts are true of a stretch of a session is said by `Happens`: a rule
  for each thing that can happen, from one world to another.  A sink that is a
  graph follows the event; a recorder writes a receipt, and does anything after
  that.  Failures are handed on as far as the emission goes, but what is done
  about them otherwise is open.

  Main statements:
    * `Account.made_append`, `Account.received_append` — one account after another;
    * `Happens.received_eq` — the receipts of an account are those that are written;
    * `Reports.happens_changes` — how a host's changes to a graph are accounted for.
-/
import EvolvingGraph.Proofs.Delivery.Sustaining

namespace EvolvingGraph

/-! ## §1. Accounts. -/

/-- What has happened in a session, in order. -/
inductive Account where
  | nothing
  /-- A graph, as it was before, has made a change and reports it to its sinks. -/
  | making (g : GraphRef) (before : Graph) (change : Change) (audience : List SinkRef)
      (event : Event) (inside rest : Account)
  /-- A sink has been told of an event of a graph. -/
  | telling (g : GraphRef) (s : SinkRef) (event : Event) (result : Except Error Unit)
      (inside rest : Account)
  /-- A recorder has written a receipt. -/
  | writing (receipt : Receipt) (rest : Account)
  /-- Steps have been nested too deeply for the next sink to be told. -/
  | cut (rest : Account)

namespace Account

/-- One account after another. -/
def append : Account → Account → Account
  | nothing, b => b
  | making g before change audience event inside rest, b =>
    making g before change audience event inside (rest.append b)
  | telling g s event result inside rest, b => telling g s event result inside (rest.append b)
  | writing receipt rest, b => writing receipt (rest.append b)
  | cut rest, b => cut (rest.append b)

/-- The events of the changes that a graph has made, in the order of the changes. -/
def made (g : GraphRef) : Account → List Event
  | nothing => []
  | making x _ _ _ event inside rest =>
    (if x = g then [event] else []) ++ inside.made g ++ rest.made g
  | telling _ _ _ _ inside rest => inside.made g ++ rest.made g
  | writing _ rest | cut rest => rest.made g

/-- The events of a graph that a sink has been told of, in the order in which it
was told. -/
def received (g : GraphRef) (s : SinkRef) : Account → List Event
  | nothing => []
  | making _ _ _ _ _ inside rest => inside.received g s ++ rest.received g s
  | telling x r event _ inside rest =>
    (if x = g ∧ r = s then [event] else []) ++ inside.received g s ++ rest.received g s
  | writing _ rest | cut rest => rest.received g s

/-- The receipts that have been written. -/
def receipts : Account → List Receipt
  | nothing => []
  | making _ _ _ _ _ inside rest | telling _ _ _ _ inside rest => inside.receipts ++ rest.receipts
  | writing receipt rest => receipt :: rest.receipts
  | cut rest => rest.receipts

/-- Whenever a sink is told of an event of a graph, it does not fail. -/
def NeverFails (g : GraphRef) (s : SinkRef) : Account → Prop
  | nothing => True
  | making _ _ _ _ _ inside rest => inside.NeverFails g s ∧ rest.NeverFails g s
  | telling x r _ result inside rest =>
    (x = g → r = s → result = .ok ()) ∧ inside.NeverFails g s ∧ rest.NeverFails g s
  | writing _ rest | cut rest => rest.NeverFails g s

variable {g : GraphRef} {s : SinkRef}

@[simp] theorem made_append (a b : Account) : (a.append b).made g = a.made g ++ b.made g := by
  induction a with
  | nothing => rfl
  | making x before change audience event inside rest _ ih => simp [append, made, ih]
  | telling x r event result inside rest _ ih => simp [append, made, ih]
  | writing receipt rest ih => simp [append, made, ih]
  | cut rest ih => simp [append, made, ih]

@[simp] theorem received_append (a b : Account) :
    (a.append b).received g s = a.received g s ++ b.received g s := by
  induction a with
  | nothing => rfl
  | making x before change audience event inside rest _ ih => simp [append, received, ih]
  | telling x r event result inside rest _ ih => simp [append, received, ih]
  | writing receipt rest ih => simp [append, received, ih]
  | cut rest ih => simp [append, received, ih]

@[simp] theorem receipts_append (a b : Account) :
    (a.append b).receipts = a.receipts ++ b.receipts := by
  induction a with
  | nothing => rfl
  | making x before change audience event inside rest _ ih => simp [append, receipts, ih]
  | telling x r event result inside rest _ ih => simp [append, receipts, ih]
  | writing receipt rest ih => simp [append, receipts, ih]
  | cut rest ih => simp [append, receipts, ih]

@[simp] theorem neverFails_append (a b : Account) :
    (a.append b).NeverFails g s ↔ a.NeverFails g s ∧ b.NeverFails g s := by
  induction a with
  | nothing => simp [append, NeverFails]
  | making x before change audience event inside rest _ ih =>
    simp [append, NeverFails, ih, and_assoc]
  | telling x r event result inside rest _ ih => simp [append, NeverFails, ih, and_assoc]
  | writing receipt rest ih => simp [append, NeverFails, ih]
  | cut rest ih => simp [append, NeverFails, ih]

end Account

/-! ## §2. What can happen. -/

/-- What is under way in a stretch of a session. -/
inductive Task where
  /-- Anything at all. -/
  | anything
  /-- A graph makes changes, until one fails. -/
  | changes (g : GraphRef) (changes : List Change)
  /-- Sinks are told of an event of a graph, until one fails. -/
  | round (g : GraphRef) (sender : Value) (event : Event) (sinks : List SinkRef)
  /-- A sink does something with an event. -/
  | reaction (s : SinkRef) (sender : Value) (event : Event)

/-- What is under way leads from one world to another, with a result, and this
account of it is true. -/
inductive Happens : Task → World → Account → Except Error Unit → World → Prop where
  | rest (w : World) : Happens .anything w .nothing (.ok ()) w
  | elsewhere {w v w' : World} {a : Account} (before : Happens .anything w a (.ok ()) v)
      (same : v.KeepsGraphs w') : Happens .anything w a (.ok ()) w'
  | written {w v : World} {a : Account} (before : Happens .anything w a (.ok ()) v)
      (receipt : Receipt) :
      Happens .anything w (a.append (.writing receipt .nothing)) (.ok ()) (v.receive [receipt])
  | request {w v w' : World} {a b : Account} {g : GraphRef} {cs : List Change}
      {result : Except Error Unit} (before : Happens .anything w a (.ok ()) v)
      (changes : Happens (.changes g cs) v b result w') :
      Happens .anything w (a.append b) (.ok ()) w'
  | unchanged (g : GraphRef) (w : World) : Happens (.changes g []) w .nothing (.ok ()) w
  | refused {w : World} {g : GraphRef} {c : Change} {cs : List Change} {graph : Graph} {e : Error}
      (outcome : (w.objectAt g).graph.apply c = (graph, .error e)) :
      Happens (.changes g (c :: cs)) w .nothing (.error e) (w.put g graph)
  | idle {w w' : World} {g : GraphRef} {c : Change} {cs : List Change} {graph : Graph}
      {a : Account} {result : Except Error Unit}
      (outcome : (w.objectAt g).graph.apply c = (graph, .ok none))
      (rest : Happens (.changes g cs) (w.put g graph) a result w') :
      Happens (.changes g (c :: cs)) w a result w'
  | made {w v w' : World} {g : GraphRef} {c : Change} {cs : List Change} {graph : Graph}
      {event : Event} {inside a : Account} {result : Except Error Unit}
      (takes : (w.objectAt g).graph.Takes c graph event)
      (round : Happens (.round g (w.objectAt g).emitter.id event (w.objectAt g).emitter.sinks)
        (w.put g graph) inside (.ok ()) v)
      (rest : Happens (.changes g cs) v a result w') :
      Happens (.changes g (c :: cs)) w (.making g (w.objectAt g).graph c
        (w.objectAt g).emitter.sinks event inside a) result w'
  | broken {w v : World} {g : GraphRef} {c : Change} {cs : List Change} {graph : Graph}
      {event : Event} {inside : Account} {e : Error}
      (takes : (w.objectAt g).graph.Takes c graph event)
      (round : Happens (.round g (w.objectAt g).emitter.id event (w.objectAt g).emitter.sinks)
        (w.put g graph) inside (.error e) v) :
      Happens (.changes g (c :: cs)) w (.making g (w.objectAt g).graph c
        (w.objectAt g).emitter.sinks event inside .nothing) (.error e) v
  | allTold (g : GraphRef) (sender : Value) (event : Event) (w : World) :
      Happens (.round g sender event []) w .nothing (.ok ()) w
  | told {w v w' : World} {g : GraphRef} {sender : Value} {event : Event} {s : SinkRef}
      {sinks : List SinkRef} {inside a : Account} {result : Except Error Unit}
      (reaction : Happens (.reaction s sender event) w inside (.ok ()) v)
      (rest : Happens (.round g sender event sinks) v a result w') :
      Happens (.round g sender event (s :: sinks)) w (.telling g s event (.ok ()) inside a) result
        w'
  | failed {w v : World} {g : GraphRef} {sender : Value} {event : Event} {s : SinkRef}
      {sinks : List SinkRef} {inside : Account} {e : Error}
      (reaction : Happens (.reaction s sender event) w inside (.error e) v) :
      Happens (.round g sender event (s :: sinks)) w (.telling g s event (.error e) inside .nothing)
        (.error e) v
  | tooDeep (g : GraphRef) (sender : Value) (event : Event) (s : SinkRef) (sinks : List SinkRef)
      (w : World) : Happens (.round g sender event (s :: sinks)) w (.cut .nothing)
        (.error .nestingTooDeep) w
  | follows {w w' : World} {g : GraphRef} {sender : Value} {event : Event} {cs : List Change}
      {a : Account} {result : Except Error Unit}
      (planned : (w.objectAt g).graph.plan event.asChange .empty = .ok cs)
      (changes : Happens (.changes g cs) w a result w') :
      Happens (.reaction (.graph g) sender event) w a result w'
  | refuses {w : World} {g : GraphRef} {sender : Value} {event : Event} {e : Error}
      (planned : (w.objectAt g).graph.plan event.asChange .empty = .error e) :
      Happens (.reaction (.graph g) sender event) w .nothing (.error e) w
  | records {w w' : World} {i : Nat} {sender : Value} {event : Event} {a : Account}
      (result : Except Error Unit)
      (doings : Happens .anything (w.receive [⟨(w.recorders.get i).label, sender, event⟩]) a
        (.ok ()) w') :
      Happens (.reaction (.recorder i) sender event) w
        (.writing ⟨(w.recorders.get i).label, sender, event⟩ a) result w'
  | ignores (i : Nat) (sender : Value) (event : Event) (w : World) :
      Happens (.reaction (.silent i) sender event) w .nothing (.ok ()) w
  | cannot (g : GeneratorRef) (sender : Value) (event : Event) (w : World) :
      Happens (.reaction (.generator g) sender event) w .nothing (.error .noSuchOperation) w

/-- **The receipts of an account are those that are written.** -/
theorem Happens.received_eq {task : Task} {w w' : World} {a : Account}
    {result : Except Error Unit} (h : Happens task w a result w') :
    w'.received = w.received ++ a.receipts := by
  induction h with
  | elsewhere before same ih => exact same.received.trans ih
  | written before receipt ih =>
    show _ ++ [receipt] = _
    simp [ih, Account.receipts]
  | request before changes ih ih' => simp [ih, ih']
  | idle outcome rest ih => exact ih
  | made takes round rest ih ih' =>
    rw [ih', ih]
    exact List.append_assoc ..
  | broken takes round ih =>
    rw [ih]
    simp [Account.receipts, World.put]
  | told reaction rest ih ih' =>
    rw [ih', ih]
    exact List.append_assoc ..
  | failed reaction ih => simp [Account.receipts, ih]
  | follows planned changes ih => exact ih
  | records result doings ih =>
    rw [ih]
    exact List.append_assoc ..
  | _ => simp [Account.receipts, World.put]

/-! ## §3. Hosts that are accounted for. -/

/-- Whatever a sink does under a host, there is an account of it, or steps are
nested too deeply. -/
def Reports (host : Host) : Prop :=
  ∀ s sender event w, (host.notify s sender event).exec w = (.error .nestingTooDeep, w)
    ∨ ∃ a, Happens (.reaction s sender event) w a ((host.notify s sender event).exec w).1
      ((host.notify s sender event).exec w).2

namespace Reports

variable {host : Host}

/-- An emission is a round. -/
theorem happens_round (h : Reports host) (g : GraphRef) (sender : Value) (event : Event)
    (sinks : List SinkRef) (w : World) :
    ∃ a, Happens (.round g sender event sinks) w a
      ((sinks.forM fun s => host.notify s sender event).exec w).1
      ((sinks.forM fun s => host.notify s sender event).exec w).2 := by
  induction sinks generalizing w with
  | nil => exact ⟨_, .allTold g sender event w⟩
  | cons s sinks ih =>
    rw [Run.exec_forM_cons]
    obtain hdeep | ⟨inside, hreaction⟩ := h s sender event w
    · rw [hdeep]
      exact ⟨_, .tooDeep g sender event s sinks w⟩
    · rcases hexec : (host.notify s sender event).exec w with ⟨e | _, v⟩ <;>
        rw [hexec] at hreaction
      · exact ⟨_, .failed hreaction⟩
      · obtain ⟨a, hrest⟩ := ih v
        exact ⟨_, .told hreaction hrest⟩

/-- **Changes to a graph, with all that comes of them.** -/
theorem happens_changes (h : Reports host) (g : GraphRef) (cs : List Change) (w : World) :
    ∃ a, Happens (.changes g cs) w a ((cs.forM (commit host g)).exec w).1
      ((cs.forM (commit host g)).exec w).2 := by
  induction cs generalizing w with
  | nil => exact ⟨_, .unchanged g w⟩
  | cons c cs ih =>
    rw [Run.exec_forM_cons, exec_commit]
    rcases happly : (w.objectAt g).graph.apply c with ⟨graph, e | _ | event⟩
    · exact ⟨_, .refused happly⟩
    · obtain ⟨a, hrest⟩ := ih (w.put g graph)
      exact ⟨a, .idle happly hrest⟩
    · have htakes := Graph.apply_eq_some_iff.1 happly
      obtain ⟨inside, hround⟩ := h.happens_round g (w.objectAt g).emitter.id event
        (w.objectAt g).emitter.sinks (w.put g graph)
      simp only
      unfold emit
      rcases hexec : ((w.objectAt g).emitter.sinks.forM fun s =>
        host.notify s (w.objectAt g).emitter.id event).exec (w.put g graph) with ⟨e | _, v⟩ <;>
        rw [hexec] at hround
      · exact ⟨_, .broken htakes hround⟩
      · obtain ⟨a, hrest⟩ := ih v
        exact ⟨_, .made htakes hround hrest⟩

/-- A graph that is told of an event follows it. -/
theorem happens_follow (h : Reports host) (g : GraphRef) (sender : Value) (event : Event)
    (w : World) : ∃ a, Happens (.reaction (.graph g) sender event) w a
      ((follow host g event).exec w).1 ((follow host g event).exec w).2 := by
  unfold follow
  rw [exec_perform, accepts_empty, if_pos rfl]
  cases hplan : (w.objectAt g).graph.plan event.asChange .empty with
  | error e => exact ⟨_, .refuses hplan⟩
  | ok cs =>
    obtain ⟨a, hchanges⟩ := h.happens_changes g cs w
    exact ⟨a, .follows hplan hchanges⟩

end Reports
end EvolvingGraph
