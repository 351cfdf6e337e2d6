import ReasonGraph.Engine.Run

/-! Calls under guard. A watch looks at every edge that is about to be read and may halt the
call; so may a number of passes that is none. What was written until then stays. Under a
guard that halts nothing, calls answer as they do without one. -/

namespace ReasonGraph
variable {α η : Type}

/-- Tells why a rule must not be asked about some evidence, if it must not. -/
abbrev Watch (α η : Type) := Evidence α → Rule α → Option η

structure Halted (α η : Type) where
  ledger : Ledger α
  cause : η

structure Guard (α η : Type) where
  passes : Except η Nat
  watch : Watch α η

def Guard.open (passes : Nat) : Guard α η := ⟨.ok passes, fun _ _ => none⟩

namespace Setting
variable [Quantity α]

def watchOne (s : Setting α) (w : Watch α η) (p : Progress α) (h : Hop α × Rule α) :
    Except (Halted α η) (Progress α) :=
  match (h.1.evidence? s.config s.graph p.ledger.states).bind fun e => w e h.2 with
  | some cause => .error ⟨p.ledger, cause⟩
  | none => .ok (s.readOne p h)

def watchAll (s : Setting α) (w : Watch α η) : List (Hop α × Rule α) → Progress α →
    Except (Halted α η) (Progress α)
  | [], p => .ok p
  | h :: rest, p => (s.watchOne w p h).bind (s.watchAll w rest)

def fullPassUnder (s : Setting α) (w : Watch α η) (l : Ledger α) :
    Except (Halted α η) (Ledger α × Bool) :=
  (s.watchAll w s.hops ⟨l, false, []⟩).map fun p => (p.ledger, p.changed)

def expandUnder (s : Setting α) (w : Watch α η) : Nat → List String → List String →
    Ledger α × Bool → Except (Halted α η) (Ledger α × Bool)
  | 0, _, _, done => .ok done
  | steps + 1, queue, unexpanded, (l, changed) =>
    match queue.dropWhile fun id => !unexpanded.contains id with
    | [] => .ok (l, changed)
    | id :: rest => (s.watchAll w (s.hopsAt id) ⟨l, false, []⟩).bind fun p =>
      s.expandUnder w steps (rest ++ p.reached) (unexpanded.erase id)
        (p.ledger, changed || p.changed)

def passFromUnder (s : Setting α) (w : Watch α η) (id : String) (l : Ledger α) :
    Except (Halted α η) (Ledger α × Bool) :=
  s.expandUnder w s.graph.ids.length [id] s.graph.ids (l, false)

theorem watchAll_open (s : Setting α) (hops : List (Hop α × Rule α)) (p : Progress α) :
    s.watchAll (fun _ _ => (none : Option η)) hops p = .ok (hops.foldl s.readOne p) := by
  induction hops generalizing p with
  | nil => rfl
  | cons h rest ih =>
    have hone : s.watchOne (fun _ _ => (none : Option η)) p h = .ok (s.readOne p h) := by
      simp [watchOne]
    simp only [watchAll, hone, Except.bind, List.foldl_cons]
    exact ih (s.readOne p h)

theorem fullPassUnder_open (s : Setting α) (l : Ledger α) :
    s.fullPassUnder (fun _ _ => (none : Option η)) l = .ok (s.fullPass l) := by
  simp [fullPassUnder, fullPass, read, watchAll_open, Except.map]

theorem expandUnder_open (s : Setting α) (steps : Nat) (queue unexpanded : List String)
    (done : Ledger α × Bool) :
    s.expandUnder (fun _ _ => (none : Option η)) steps queue unexpanded done =
      .ok (s.expand steps queue unexpanded done) := by
  induction steps generalizing queue unexpanded done with
  | zero => rfl
  | succ steps ih =>
    obtain ⟨l, changed⟩ := done
    simp only [expandUnder, expand]
    cases queue.dropWhile fun id => !unexpanded.contains id with
    | nil => rfl
    | cons id rest => simp only [watchAll_open, Except.bind, ih, read]

theorem passFromUnder_open (s : Setting α) (id : String) (l : Ledger α) :
    s.passFromUnder (fun _ _ => (none : Option η)) id l = .ok (s.passFrom id l) :=
  s.expandUnder_open _ _ _ _

end Setting

def settleUnder (pass : Ledger α → Except (Halted α η) (Ledger α × Bool)) :
    Nat → Ledger α → Except (Halted α η) (Settled α)
  | 0, l => .ok ⟨l, false, 0⟩
  | cap + 1, l => (pass l).bind fun
    | (next, false) => .ok ⟨next, true, 1⟩
    | (next, true) => (settleUnder pass cap next).map fun rest =>
      { rest with iterations := rest.iterations + 1 }

theorem settleUnder_eq {under : Ledger α → Except (Halted α η) (Ledger α × Bool)}
    {pass : Ledger α → Ledger α × Bool} (h : ∀ l, under l = .ok (pass l)) (cap : Nat)
    (l : Ledger α) : settleUnder under cap l = .ok (settle pass cap l) := by
  induction cap generalizing l with
  | zero => rfl
  | succ cap ih =>
    obtain ⟨next, changed, hpass⟩ : ∃ next changed, pass l = (next, changed) := ⟨_, _, rfl⟩
    cases changed with
    | false => simp only [settleUnder, settle, h, hpass, Except.bind]
    | true => simp only [settleUnder, settle, h, hpass, ih, Except.bind, Except.map]

def Guard.settle (g : Guard α η) (pass : Ledger α → Except (Halted α η) (Ledger α × Bool))
    (l : Ledger α) : Except (Halted α η) (Settled α) :=
  match g.passes with
  | .error cause => .error ⟨l, cause⟩
  | .ok cap => settleUnder pass cap l

inductive Refusal (η : Type) where
  | rejected (r : Rejection)
  | halted (cause : η)

namespace Engine
variable [Quantity α]

def conclude (e : Engine α) :
    Except (Halted α η) (Settled α) → Engine α × Except (Refusal η) (Result α)
  | .error h => ({ e with ledger := h.ledger }, .error (.halted h.cause))
  | .ok s => ({ e with ledger := s.ledger }, .ok s.result)

def runUnder (e : Engine α) (g : Guard α η) (nodes : List (Node α)) (edges : List (Edge α))
    (overrides : Overrides α) : Engine α × Except (Refusal η) (Result α) :=
  let graph := Snapshot.ofLists nodes edges
  match e.seed graph.nodes overrides with
  | (e, some r) => (e, .error (.rejected r))
  | (e, none) =>
    e.conclude (g.settle ((e.setting graph).fullPassUnder g.watch) (e.noteCycles graph))

def updateUnder (e : Engine α) (g : Guard α η) (id : String) (logic : LogicState)
    (nodes : List (Node α)) (edges : List (Edge α)) :
    Engine α × Except (Refusal η) (Result α) :=
  let graph := Snapshot.ofLists nodes edges
  let seeded := { e.ledger with states := e.ledger.states.complete graph.nodes.values }
  match graph.nodes.get? id, seeded.states.get? id with
  | some n, some current =>
    match e.config.admit .edit n logic with
    | .error r => ({ e with ledger := seeded }, .error (.rejected r))
    | .ok () =>
      e.conclude (g.settle ((e.setting graph).passFromUnder g.watch id)
        (assert seeded id current logic))
  | _, _ => ({ e with ledger := seeded }, .ok (Settled.mk seeded true 0).result)

def editUnder (e : Engine α) (g : Guard α η) (id : String) (v : Value)
    (nodes : List (Node α)) (edges : List (Edge α)) :
    Engine α × Except (Refusal η) (Result α) :=
  match v.text?.bind LogicState.ofName? with
  | none => (e, .error (.rejected (.notAVerdict v)))
  | some logic => e.updateUnder g id logic nodes edges

theorem seed_config (e : Engine α) (nodes : OrderedMap (Node α)) (overrides : Overrides α) :
    (e.seed nodes overrides).1.config = e.config := rfl

theorem runUnder_open (e : Engine α) (nodes : List (Node α)) (edges : List (Edge α))
    (overrides : Overrides α) :
    e.runUnder (.open e.config.passes : Guard α η) nodes edges overrides =
      ((e.run nodes edges overrides).1,
        (e.run nodes edges overrides).2.mapError Refusal.rejected) := by
  have hconfig := e.seed_config (Snapshot.ofLists nodes edges).nodes overrides
  simp only [runUnder, run]
  cases hseed : e.seed (Snapshot.ofLists nodes edges).nodes overrides with
  | mk seeded rejection =>
    rw [hseed] at hconfig
    replace hconfig : seeded.config = e.config := hconfig
    cases rejection with
    | some _ => rfl
    | none =>
      simp only [Guard.open, Guard.settle, ← hconfig,
        settleUnder_eq (Setting.fullPassUnder_open _)]
      rfl

theorem updateUnder_open (e : Engine α) (id : String) (logic : LogicState)
    (nodes : List (Node α)) (edges : List (Edge α)) :
    e.updateUnder (.open e.config.passes : Guard α η) id logic nodes edges =
      ((e.update id logic nodes edges).1,
        (e.update id logic nodes edges).2.mapError Refusal.rejected) := by
  cases hnode : (Snapshot.ofLists nodes edges).nodes.get? id with
  | none => simp only [updateUnder, update, hnode]; rfl
  | some n =>
    cases hstate : OrderedMap.get?
        (e.ledger.states.complete (Snapshot.ofLists nodes edges).nodes.values) id with
    | none => simp only [updateUnder, update, hnode, hstate]; rfl
    | some current =>
      cases hadmit : e.config.admit .edit n logic with
      | error _ => simp only [updateUnder, update, hnode, hstate, hadmit]; rfl
      | ok _ =>
        simp only [updateUnder, update, hnode, hstate, hadmit, Guard.open, Guard.settle,
          settleUnder_eq (Setting.passFromUnder_open _ id)]
        rfl

theorem editUnder_open (e : Engine α) (id : String) (v : Value) (nodes : List (Node α))
    (edges : List (Edge α)) :
    e.editUnder (.open e.config.passes : Guard α η) id v nodes edges =
      ((e.edit id v nodes edges).1,
        (e.edit id v nodes edges).2.mapError Refusal.rejected) := by
  unfold editUnder edit
  cases v.text?.bind LogicState.ofName? with
  | none => rfl
  | some logic => exact e.updateUnder_open id logic nodes edges

end Engine
end ReasonGraph
