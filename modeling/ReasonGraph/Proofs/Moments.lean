import ReasonGraph.Proofs.Halting
import ReasonGraph.Proofs.Bounds

/-! What an engine holds, at every moment of every call. A call forgets what was, or seeds nodes one
after another, or notes cycles, or asserts a verdict, and then reads edges one after another; it may
be refused or halted in between. What each of these writes keeps, the engine keeps from the first
call on. So it is with confidences between 0 and 100. -/

namespace ReasonGraph

/-- A call with everything it is given. Its guard stands for whatever may halt it. -/
inductive Request (α η : Type) where
  | run (guard : Guard α η) (nodes : List (Node α)) (edges : List (Edge α))
    (overrides : Overrides α)
  | prepare (nodes : List (Node α)) (overrides : Overrides α)
  | edit (guard : Guard α η) (id : String) (v : Value) (nodes : List (Node α))
    (edges : List (Edge α))
  | clear

namespace Request
variable {α η : Type}

def nodes : Request α η → List (Node α)
  | run _ nodes _ _ => nodes
  | prepare nodes _ => nodes
  | edit _ _ _ nodes _ => nodes
  | clear => []

def overrides : Request α η → Overrides α
  | run _ _ _ overrides => overrides
  | prepare _ overrides => overrides
  | edit _ _ _ _ _ => ∅
  | clear => ∅

end Request

namespace Engine
variable {α η : Type} [Quantity α]

def obey (e : Engine α) : Request α η → Engine α
  | .run guard nodes edges overrides => (e.runUnder guard nodes edges overrides).1
  | .prepare nodes overrides => (e.prepare nodes overrides).1
  | .edit guard id v nodes edges => (e.editUnder guard id v nodes edges).1
  | .clear => e.clear

def obeyAll (e : Engine α) (calls : List (Request α η)) : Engine α := calls.foldl obey e

/-- The ledgers a call may pass through: what the engine held; the seeds of the nodes so far, of all
nodes or of those that had no state; and what some readings left, from the start of a run or from
the opening of an update. -/
inductive Meets (e : Engine α) : Request α η → Ledger α → Prop
  | held (call : Request α η) : Meets e call e.ledger
  | cleared : Meets e .clear ∅
  | prepared {nodes : List (Node α)} {overrides : Overrides α} {before : List (Node α)}
    (hbefore : before <+: (Snapshot.nodeMap nodes).values) :
    Meets e (.prepare nodes overrides)
      { (∅ : Ledger α) with states := (Table.seed e.config overrides before ∅).1 }
  | seeded {guard : Guard α η} {nodes : List (Node α)} {edges : List (Edge α)}
    {overrides : Overrides α} {before : List (Node α)}
    (hbefore : before <+: (Snapshot.nodeMap nodes).values) :
    Meets e (.run guard nodes edges overrides)
      { (∅ : Ledger α) with states := (Table.seed e.config overrides before ∅).1 }
  | ran {guard : Guard α η} {nodes : List (Node α)} {edges : List (Edge α)}
    {overrides : Overrides α} {seeds : Table α} {read : List (Hop α × Rule α)}
    (hseeds : (e.prepare nodes overrides).2 = .ok seeds)
    (hread : read <+: settleTrail (e.setting (.ofLists nodes edges)).fullPass
      (fun _ => (e.setting (.ofLists nodes edges)).hops) guard.cap
      (e.start nodes edges overrides)) :
    Meets e (.run guard nodes edges overrides)
      ((e.setting (.ofLists nodes edges)).after (e.start nodes edges overrides) read)
  | completed {guard : Guard α η} {id : String} {v : Value} {nodes : List (Node α)}
    {edges : List (Edge α)} {before : List (Node α)}
    (hbefore : before <+: (Snapshot.nodeMap nodes).values) :
    Meets e (.edit guard id v nodes edges)
      { e.ledger with states := e.ledger.states.complete before }
  | spread {guard : Guard α η} {id : String} {v : Value} {logic : LogicState}
    {nodes : List (Node α)} {edges : List (Edge α)} {n : Node α} {read : List (Hop α × Rule α)}
    (hlogic : v.text?.bind LogicState.ofName? = some logic)
    (hnode : (Snapshot.nodeMap nodes).get? id = some n)
    (hallowed : e.config.admit .edit n logic = .ok ())
    (hread : read <+: settleTrail ((e.setting (.ofLists nodes edges)).passFrom id)
      (fun l => ((e.setting (.ofLists nodes edges)).visitsFrom id l).flatMap
        (e.setting (.ofLists nodes edges)).hopsAt) guard.cap (e.opening id logic nodes)) :
    Meets e (.edit guard id v nodes edges)
      ((e.setting (.ofLists nodes edges)).after (e.opening id logic nodes) read)

theorem prepare_ledger (e : Engine α) (nodes : List (Node α)) (overrides : Overrides α) :
    (e.prepare nodes overrides).1.ledger = { (∅ : Ledger α) with
      states := (Table.seed e.config overrides (Snapshot.nodeMap nodes).values ∅).1 } := by
  rw [prepare, seed_eq]
  cases (Table.seed e.config overrides (Snapshot.nodeMap nodes).values ∅).2 <;> rfl

theorem obey_meets (e : Engine α) (call : Request α η) : e.Meets call (e.obey call).ledger := by
  cases call with
  | run guard nodes edges overrides =>
    cases hprepare : (e.prepare nodes overrides).2 with
    | error r =>
      rw [obey, runUnder_of_refused hprepare, prepare_ledger]
      exact .seeded (List.prefix_refl _)
    | ok seeds =>
      obtain ⟨read, hread, hleft, -⟩ := runUnder_ledger hprepare guard edges
      rw [obey, hleft]
      exact .ran hprepare hread
  | prepare nodes overrides =>
    rw [obey, prepare_ledger]
    exact .prepared (List.prefix_refl _)
  | edit guard id v nodes edges =>
    rw [obey, editUnder]
    cases hlogic : v.text?.bind LogicState.ofName? with
    | none => exact .held _
    | some logic =>
      rcases e.updateUnder_ledger guard id logic nodes edges with
        hkept | ⟨⟨n, hnode, hallowed⟩, read, hread, hleft⟩
      · simp only [hkept]
        exact .completed (List.prefix_refl _)
      · simp only [hleft]
        exact .spread hlogic hnode hallowed hread
  | clear => exact .cleared

/-- A call writes to a ledger in these ways only, and each of them keeps a property. -/
structure Keeps (e : Engine α) (call : Request α η) (P : Ledger α → Prop) : Prop where
  empty : P ∅
  seeded : ∀ l n s, P l → n ∈ call.nodes → n.seedFrom e.config call.overrides = .ok s →
    P { l with states := l.states.insert n.id s }
  noted : ∀ l cycles, P l → P { l with cycles }
  asserted : ∀ l id s logic, P l → l.states.get? id = some s → P (assert l id s logic)
  written : ∀ (s : Setting α) l h c, P l → s.change? l.states h = some c → P (l.write c)

namespace Keeps
variable {e : Engine α} {call : Request α η} {P : Ledger α → Prop}

theorem seeding (hkeeps : e.Keeps call P) {ns : List (Node α)} (hns : ∀ n ∈ ns, n ∈ call.nodes)
    {l : Ledger α} (hl : P l) :
    P { l with states := (Table.seed e.config call.overrides ns l.states).1 } :=
  Table.seed_induction (P := fun t => P { l with states := t })
    (fun t n hn s ht hs => hkeeps.seeded { l with states := t } n s ht (hns n hn) hs) hl

theorem completing (hkeeps : e.Keeps call P) (hnone : call.overrides = ∅) {ns : List (Node α)}
    (hns : ∀ n ∈ ns, n ∈ call.nodes) {l : Ledger α} (hl : P l) :
    P { l with states := l.states.complete ns } := by
  suffices h : ∀ t : Table α, P { l with states := t } →
      P { l with states := t.complete ns } from h l.states hl
  clear hl
  induction ns with
  | nil => exact fun t ht => ht
  | cons n rest ih =>
    intro t ht
    rw [Table.complete, List.foldl_cons]
    refine ih (fun n' hn' => hns n' (List.mem_cons_of_mem n hn')) _ ?_
    split
    · exact ht
    · refine hkeeps.seeded { l with states := t } n n.staticSeed ht (hns n List.mem_cons_self) ?_
      rw [hnone]
      rfl

theorem opening (hkeeps : e.Keeps call P) (hnone : call.overrides = ∅) {nodes : List (Node α)}
    (hnodes : ∀ n ∈ nodes, n ∈ call.nodes) (id : String) (logic : LogicState) (hl : P e.ledger) :
    P (e.opening id logic nodes) := by
  have hcomplete : P (e.complete nodes).ledger :=
    hkeeps.completing hnone (fun n hn => hnodes n (Snapshot.mem_values_nodeMap hn)) hl
  simp only [Engine.opening]
  split
  · split
    · exact hcomplete
    · exact hkeeps.asserted _ _ _ _ hcomplete (by assumption)
  · exact hcomplete

theorem starting (hkeeps : e.Keeps call P) {nodes : List (Node α)} (edges : List (Edge α))
    (hnodes : ∀ n ∈ nodes, n ∈ call.nodes) : P (e.start nodes edges call.overrides) := by
  have hseeded : P (e.prepare nodes call.overrides).1.ledger := by
    rw [prepare_ledger]
    exact hkeeps.seeding (fun n hn => hnodes n (Snapshot.mem_values_nodeMap hn)) hkeeps.empty
  rw [start, noteCycles]
  split
  · exact hkeeps.noted _ _ hseeded
  · exact hseeded

theorem reading (hkeeps : e.Keeps call P) (s : Setting α) {l : Ledger α} (hl : P l)
    (hops : List (Hop α × Rule α)) : P (s.after l hops) :=
  s.after_induction (fun l h _ c hl hc => hkeeps.written s l h c hl hc) hl

end Keeps

theorem Meets.of_keeps {e : Engine α} {call : Request α η} {P : Ledger α → Prop}
    (hkeeps : e.Keeps call P) (he : P e.ledger) {l : Ledger α} (h : e.Meets call l) : P l := by
  cases h with
  | held => exact he
  | cleared => exact hkeeps.empty
  | prepared hbefore =>
    exact hkeeps.seeding (fun n hn => Snapshot.mem_values_nodeMap (hbefore.subset hn)) hkeeps.empty
  | seeded hbefore =>
    exact hkeeps.seeding (fun n hn => Snapshot.mem_values_nodeMap (hbefore.subset hn)) hkeeps.empty
  | ran hseeds hread => exact hkeeps.reading _ (hkeeps.starting _ fun n hn => hn) _
  | completed hbefore =>
    exact hkeeps.completing rfl (fun n hn => Snapshot.mem_values_nodeMap (hbefore.subset hn)) he
  | spread hlogic hnode hallowed hread =>
    exact hkeeps.reading _ (hkeeps.opening rfl (fun n hn => hn) _ _ he) _

theorem obeyAll_of_keeps {P : Ledger α → Prop} {e : Engine α} (he : P e.ledger)
    {calls : List (Request α η)} (hkeeps : ∀ (e : Engine α), ∀ call ∈ calls, e.Keeps call P) :
    P (e.obeyAll calls).ledger := by
  induction calls generalizing e with
  | nil => exact he
  | cons call rest ih =>
    rw [obeyAll, List.foldl_cons]
    exact ih ((e.obey_meets call).of_keeps (hkeeps e call List.mem_cons_self) he)
      fun e call' hcall => hkeeps e call' (List.mem_cons_of_mem call hcall)

end Engine

theorem Quantity.InRange.isNaN {x : Float} (h : Quantity.InRange x) : x.isNaN = false := by
  have hlow : (0.0 : Float).toModel.unpack.le x.toModel.unpack = true := of_decide_eq_true h.1
  change x.toModel.unpack.isNaN = false
  cases hx : x.toModel.unpack with
  | notANumber =>
    rw [hx] at hlow
    cases hlow
  | infinity | zero | finite => rfl

variable {α η : Type} [Quantity α]

structure Ledger.InRange (l : Ledger α) : Prop where
  states : l.states.InRange
  events : ∀ ev ∈ l.events,
    Quantity.InRange ev.oldConfidence ∧ Quantity.InRange ev.newConfidence

def Request.InRange (call : Request α η) : Prop := Node.InRange call.nodes call.overrides

theorem Request.InRange.keeps [Quantity.IsOrdered α] {call : Request α η} (hcall : call.InRange)
    (e : Engine α) : e.Keeps call Ledger.InRange where
  empty := ⟨.empty, fun _ hev => absurd hev List.not_mem_nil⟩
  seeded _ _ _ hl hn hs := ⟨hl.states.insert (hcall.seedFrom hn hs), hl.events⟩
  noted _ _ hl := ⟨hl.states, hl.events⟩
  asserted l id s _ hl hs := ⟨hl.states.insert (hl.states id s hs), hl.events⟩
  written s l h c hl hc := by
    obtain ⟨e, p, he, -, -, -, rfl⟩ := Hop.change?_eq_some hc
    have htarget := (Hop.evidence?_shows he).2.1
    have hnew := Quantity.clamp_inRange p.confidence
    refine ⟨hl.states.insert hnew, fun ev hev => ?_⟩
    rcases List.mem_append.1 hev with hev | hev
    · exact hl.events ev hev
    · obtain rfl := List.mem_singleton.1 hev
      exact ⟨hl.states _ _ htarget, hnew⟩

namespace Engine

theorem meets_inRange [Quantity.IsOrdered α] (config : Config α) (registry : Registry α)
    {calls : List (Request α η)} (hcalls : ∀ call ∈ calls, call.InRange) {call : Request α η}
    (hcall : call.InRange) {l : Ledger α}
    (hl : ((new config registry).obeyAll calls).Meets call l) : l.InRange :=
  hl.of_keeps (hcall.keeps _) <| obeyAll_of_keeps (hcall.keeps (new config registry)).empty
    fun e call hmem => (hcalls call hmem).keeps e

/-- After any calls that were given confidences from 0 to 100, whichever of them were refused or
halted, the next one leaves a ledger that it meets; and in every ledger that it meets, each
confidence of a state, and each that an event tells, is a number from 0 to 100. The rules may
propose anything. -/
theorem confidence_inRange (config : Config Float) (registry : Registry Float)
    {calls : List (Request Float η)} (hcalls : ∀ call ∈ calls, call.InRange)
    {call : Request Float η} (hcall : call.InRange) :
    let e := (new config registry).obeyAll calls
    e.Meets call (e.obey call).ledger ∧ ∀ l, e.Meets call l →
      (∀ id s, l.states.get? id = some s →
        0.0 ≤ s.confidence ∧ s.confidence ≤ 100.0 ∧ s.confidence.isNaN = false) ∧
      ∀ ev ∈ l.events,
        (0.0 ≤ ev.oldConfidence ∧ ev.oldConfidence ≤ 100.0 ∧ ev.oldConfidence.isNaN = false) ∧
        (0.0 ≤ ev.newConfidence ∧ ev.newConfidence ≤ 100.0 ∧ ev.newConfidence.isNaN = false) := by
  intro e
  refine ⟨e.obey_meets call, fun l hl => ?_⟩
  obtain ⟨hstates, hevents⟩ := meets_inRange config registry hcalls hcall hl
  refine ⟨fun id s hs => ?_, fun ev hev => ?_⟩
  · obtain hrange := hstates id s hs
    exact ⟨hrange.1, hrange.2, hrange.isNaN⟩
  · obtain ⟨hold, hnew⟩ := hevents ev hev
    exact ⟨⟨hold.1, hold.2, hold.isNaN⟩, ⟨hnew.1, hnew.2, hnew.isNaN⟩⟩

theorem confidence_inRange_wild :
    let drift : Rule Float := ⟨.text "drift", "Drift", "drift", "", true,
      fun e => some ⟨.holds, if e.reversed then 0.0 / 0.0 else 1.0 / 0.0, [], none, true, ""⟩,
      fun _ => false⟩
    let nodes : List (Node Float) := [⟨"a", .fact, "", 90.0⟩, ⟨"b", .fact, "", 20.0⟩]
    let edges : List (Edge Float) := [⟨"ab", "a", "b", "drift", 1.0⟩]
    let watch : Watch Float Unit := fun e _ => if e.reversed then some () else none
    let calls : List (Request Float Unit) := [.run (.open 1) nodes edges ∅]
    let call : Request Float Unit := .edit ⟨.ok 1, watch⟩ "a" (.text "false") nodes edges
    let left := ((new .standard (Registry.empty.insert drift)).obeyAll calls).obey call
    (left.ledger.states.entries.map fun entry => entry.2.confidence) = [0.0, 100.0] ∧
      (left.ledger.events.map fun ev => (ev.oldConfidence, ev.newConfidence)) =
        [(20.0, 100.0), (90.0, 0.0)] ∧
      ∀ ev ∈ left.ledger.events, 0.0 ≤ ev.newConfidence ∧ ev.newConfidence ≤ 100.0 := by
  intro drift nodes edges watch calls call left
  have hrange : Node.InRange nodes (∅ : Overrides Float) :=
    ⟨by decide +kernel, fun _ _ _ hgiven => by cases hgiven⟩
  have hcalls : ∀ call ∈ calls, call.InRange := fun call hcall =>
    List.mem_singleton.1 hcall ▸ hrange
  have hcall : call.InRange := hrange
  obtain ⟨hmeets, hmoments⟩ :=
    confidence_inRange .standard (Registry.empty.insert drift) hcalls hcall
  refine ⟨by decide +kernel, by decide +kernel, fun ev hev => ?_⟩
  obtain ⟨hlow, hhigh, -⟩ := ((hmoments left.ledger hmeets).2 ev hev).2
  exact ⟨hlow, hhigh⟩

end Engine
end ReasonGraph
