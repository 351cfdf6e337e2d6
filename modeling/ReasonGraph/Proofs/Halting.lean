import ReasonGraph.Engine.Guard
import ReasonGraph.Proofs.Passes

/-! What a halted call leaves behind. A watch looks at an edge before it is read, so a call that is
halted has read a first part of what it would have read, and left the ledger that this part leaves.
Guarded calls are cut out of unguarded ones: each outcome is the plain one, or an error with the
ledger after a first part of the trail, and this composes as the calls do. -/

namespace ReasonGraph
variable {α η : Type}

def Guard.cap (g : Guard α η) : Nat :=
  match g.passes with
  | .ok cap => cap
  | .error _ => 0

variable [Quantity α]

namespace Setting

/-- Outcomes of something that reads along a trail: what it gives unguarded, or an error somewhere
on the trail. -/
inductive Outcome {γ : Type} (s : Setting α) (l : Ledger α) (trail : List (Hop α × Rule α))
    (plain : γ) : Except (Halted α η) γ → Prop
  | finished : Outcome s l trail plain (.ok plain)
  | halted {read : List (Hop α × Rule α)} (hread : read <+: trail) (cause : η) :
    Outcome s l trail plain (.error ⟨s.after l read, cause⟩)

namespace Outcome
variable {γ δ : Type} {s : Setting α} {l : Ledger α} {trail later : List (Hop α × Rule α)}
  {plain : γ} {x : Except (Halted α η) γ}

theorem map (h : s.Outcome l trail plain x) (f : γ → δ) :
    s.Outcome l trail (f plain) (x.map f) := by
  cases h with
  | finished => exact .finished
  | halted hread cause => exact .halted hread cause

theorem bind (h : s.Outcome l trail plain x) {f : γ → Except (Halted α η) δ} {plain' : δ}
    (hf : s.Outcome (s.after l trail) later plain' (f plain)) :
    s.Outcome l (trail ++ later) plain' (x.bind f) := by
  cases h with
  | halted hread cause => exact .halted (hread.trans (List.prefix_append trail later)) cause
  | finished =>
    change s.Outcome l (trail ++ later) plain' (f plain)
    revert hf
    generalize f plain = y
    rintro (_ | @⟨read, hread, cause⟩)
    · exact .finished
    · rw [← after_append]
      exact .halted ((List.prefix_append_right_inj trail).2 hread) cause

end Outcome

theorem watchOne_outcome (s : Setting α) (w : Watch α η) (p : Progress α) (h : Hop α × Rule α) :
    s.Outcome p.ledger [h] (s.readOne p h) (s.watchOne w p h) := by
  rw [watchOne]
  split
  · exact .halted (List.nil_prefix) _
  · exact .finished

theorem watchAll_outcome (s : Setting α) (w : Watch α η) (hops : List (Hop α × Rule α))
    (p : Progress α) :
    s.Outcome p.ledger hops (hops.foldl s.readOne p) (s.watchAll w hops p) := by
  induction hops generalizing p with
  | nil => exact .finished
  | cons h rest ih =>
    have hone : s.after p.ledger [h] = (s.readOne p h).ledger :=
      (s.foldl_readOne_ledger [h] p).symm
    exact (s.watchOne_outcome w p h).bind (hone ▸ ih (s.readOne p h))

theorem fullPassUnder_outcome (s : Setting α) (w : Watch α η) (l : Ledger α) :
    s.Outcome l s.hops (s.fullPass l) (s.fullPassUnder w l) :=
  (s.watchAll_outcome w s.hops ⟨l, false, []⟩).map fun p => (p.ledger, p.changed)

theorem expandUnder_outcome (s : Setting α) (w : Watch α η) (steps : Nat)
    (queue unexpanded : List String) (l : Ledger α) (changed : Bool) :
    s.Outcome l ((s.visits steps queue unexpanded l).flatMap s.hopsAt)
      (s.expand steps queue unexpanded (l, changed))
      (s.expandUnder w steps queue unexpanded (l, changed)) := by
  induction steps generalizing queue unexpanded l changed with
  | zero => exact .finished
  | succ steps ih =>
    rw [visits, expand, expandUnder]
    cases queue.dropWhile fun id => !unexpanded.contains id with
    | nil => exact .finished
    | cons id rest =>
      refine (s.watchAll_outcome w (s.hopsAt id) ⟨l, false, []⟩).bind ?_
      rw [← s.read_ledger l (s.hopsAt id)]
      exact ih _ _ _ _

theorem passFromUnder_outcome (s : Setting α) (w : Watch α η) (id : String) (l : Ledger α) :
    s.Outcome l ((s.visitsFrom id l).flatMap s.hopsAt) (s.passFrom id l)
      (s.passFromUnder w id l) :=
  s.expandUnder_outcome w _ _ _ l false

theorem settleUnder_outcome {s : Setting α} {pass : Ledger α → Ledger α × Bool}
    {under : Ledger α → Except (Halted α η) (Ledger α × Bool)}
    {trail : Ledger α → List (Hop α × Rule α)}
    (hledger : ∀ l, (pass l).1 = s.after l (trail l))
    (hpass : ∀ l, s.Outcome l (trail l) (pass l) (under l)) (cap : Nat) (l : Ledger α) :
    s.Outcome l (settleTrail pass trail cap l) (settle pass cap l) (settleUnder under cap l) := by
  induction cap generalizing l with
  | zero => exact .finished
  | succ cap ih =>
    have hfirst := hpass l
    have hafter := hledger l
    rw [settleTrail, settle, settleUnder]
    rcases hnext : pass l with ⟨next, changed⟩
    rw [hnext] at hfirst hafter
    cases changed with
    | false =>
      rw [← List.append_nil (trail l)]
      exact hfirst.bind .finished
    | true =>
      refine hfirst.bind ?_
      rw [← hafter]
      exact (ih next).map fun rest => { rest with iterations := rest.iterations + 1 }

end Setting

/-- A guard halts a call on the trail of the passes that it lets the call begin. -/
theorem Guard.settle_outcome {s : Setting α} {pass : Ledger α → Ledger α × Bool} (g : Guard α η)
    {under : Ledger α → Except (Halted α η) (Ledger α × Bool)}
    {trail : Ledger α → List (Hop α × Rule α)}
    (hledger : ∀ l, (pass l).1 = s.after l (trail l))
    (hpass : ∀ l, s.Outcome l (trail l) (pass l) (under l)) (l : Ledger α) :
    s.Outcome l (settleTrail pass trail g.cap l) (ReasonGraph.settle pass g.cap l)
      (g.settle under l) := by
  rw [Guard.settle, Guard.cap]
  cases g.passes with
  | error cause => exact .halted List.nil_prefix cause
  | ok cap => exact Setting.settleUnder_outcome hledger hpass cap l

namespace Engine

theorem conclude_outcome (e : Engine α) {s : Setting α} {l : Ledger α}
    {trail : List (Hop α × Rule α)} {plain : Settled α} (hplain : plain.ledger = s.after l trail)
    {x : Except (Halted α η) (Settled α)} (h : s.Outcome l trail plain x) :
    ∃ read, read <+: trail ∧ (e.conclude x).1 = { e with ledger := s.after l read } ∧
      ∀ r, (e.conclude x).2 = .ok r → read = trail ∧ r = plain.result := by
  cases h with
  | finished =>
    refine ⟨trail, List.prefix_refl trail, ?_, fun r hr => ⟨rfl, (Except.ok.inj hr).symm⟩⟩
    rw [conclude, hplain]
  | @halted read hread cause => exact ⟨read, hread, rfl, fun _ hr => by cases hr⟩

theorem runUnder_of_refused {e : Engine α} {nodes : List (Node α)} {overrides : Overrides α}
    {r : Rejection} (h : (e.prepare nodes overrides).2 = .error r) (g : Guard α η)
    (edges : List (Edge α)) : e.runUnder g nodes edges overrides =
      ((e.prepare nodes overrides).1, .error (.rejected r)) := by
  cases hseed : e.seed (Snapshot.nodeMap nodes) overrides with
  | mk seeded rejection =>
    simp only [prepare, hseed] at h ⊢
    cases rejection with
    | none => cases h
    | some stop =>
      cases h
      simp only [runUnder, Snapshot.ofLists, hseed]

omit [Quantity α] in
theorem conclude_of_same {e e' : Engine α} (hconfig : e'.config = e.config)
    (hregistry : e'.registry = e.registry) (x : Except (Halted α η) (Settled α)) :
    e'.conclude x = e.conclude x := by
  cases x <;> simp only [conclude, hconfig, hregistry]

theorem runUnder_of_accepted {e : Engine α} {nodes : List (Node α)} {overrides : Overrides α}
    {seeds : Table α} (h : (e.prepare nodes overrides).2 = .ok seeds) (g : Guard α η)
    (edges : List (Edge α)) : e.runUnder g nodes edges overrides =
      e.conclude (g.settle ((e.setting (.ofLists nodes edges)).fullPassUnder g.watch)
        (e.start nodes edges overrides)) := by
  cases hseed : e.seed (Snapshot.nodeMap nodes) overrides with
  | mk seeded rejection =>
    cases rejection with
    | some r =>
      simp only [prepare, hseed] at h
      cases h
    | none =>
      obtain ⟨hconfig, hregistry⟩ := seed_setting hseed
      have hsetting : ∀ g, seeded.setting g = e.setting g := by
        intro g
        simp only [setting, hconfig, hregistry]
      simp only [runUnder, start, Snapshot.ofLists, hseed, prepare_of_seeded hseed, hsetting,
        conclude_of_same hconfig hregistry]

theorem accepted_of_runUnder {e : Engine α} {g : Guard α η} {nodes : List (Node α)}
    {edges : List (Edge α)} {overrides : Overrides α} {r : Result α}
    (h : (e.runUnder g nodes edges overrides).2 = .ok r) :
    ∃ seeds, (e.prepare nodes overrides).2 = .ok seeds := by
  cases hprepare : (e.prepare nodes overrides).2 with
  | ok seeds => exact ⟨seeds, rfl⟩
  | error stop =>
    rw [runUnder_of_refused hprepare] at h
    cases h

theorem runUnder_ledger {e : Engine α} {nodes : List (Node α)} {overrides : Overrides α}
    {seeds : Table α} (h : (e.prepare nodes overrides).2 = .ok seeds) (g : Guard α η)
    (edges : List (Edge α)) :
    let s := e.setting (.ofLists nodes edges)
    let l := e.start nodes edges overrides
    let trail := settleTrail s.fullPass (fun _ => s.hops) g.cap l
    ∃ read, read <+: trail ∧
      (e.runUnder g nodes edges overrides).1 = { e with ledger := s.after l read } ∧
      ∀ r, (e.runUnder g nodes edges overrides).2 = .ok r →
        read = trail ∧ r = (settle s.fullPass g.cap l).result := by
  rw [runUnder_of_accepted h]
  exact e.conclude_outcome (Setting.settle_fullPass_ledger _ _ _)
    (g.settle_outcome (Setting.fullPass_ledger _) (Setting.fullPassUnder_outcome _ g.watch) _)

theorem updateUnder_cases (e : Engine α) (g : Guard α η) (id : String) (logic : LogicState)
    (nodes : List (Node α)) (edges : List (Edge α)) :
    ((e.updateUnder g id logic nodes edges).1 = e.complete nodes) ∨
      (∃ n, (Snapshot.nodeMap nodes).get? id = some n ∧ e.config.admit .edit n logic = .ok ()) ∧
        e.updateUnder g id logic nodes edges =
          e.conclude (g.settle ((e.setting (.ofLists nodes edges)).passFromUnder g.watch id)
            (e.opening id logic nodes)) := by
  cases hn : (Snapshot.nodeMap nodes).get? id with
  | none => exact .inl (by simp only [updateUnder, Snapshot.ofLists, hn]; rfl)
  | some n =>
    cases hs : OrderedMap.get? (e.ledger.states.complete (Snapshot.nodeMap nodes).values) id with
    | none => exact .inl (by simp only [updateUnder, Snapshot.ofLists, hn, hs]; rfl)
    | some current =>
      cases ha : e.config.admit .edit n logic with
      | error r => exact .inl (by simp only [updateUnder, Snapshot.ofLists, hn, hs, ha]; rfl)
      | ok _ =>
        refine .inr ⟨⟨n, rfl, ha⟩, ?_⟩
        simp only [updateUnder, opening, complete, Snapshot.ofLists, hn, hs, ha]

theorem updateUnder_ledger (e : Engine α) (g : Guard α η) (id : String) (logic : LogicState)
    (nodes : List (Node α)) (edges : List (Edge α)) :
    ((e.updateUnder g id logic nodes edges).1 = e.complete nodes) ∨
      (∃ n, (Snapshot.nodeMap nodes).get? id = some n ∧ e.config.admit .edit n logic = .ok ()) ∧
        let s := e.setting (.ofLists nodes edges)
        let l := e.opening id logic nodes
        ∃ read, read <+: settleTrail (s.passFrom id)
            (fun l => (s.visitsFrom id l).flatMap s.hopsAt) g.cap l ∧
          (e.updateUnder g id logic nodes edges).1 = { e with ledger := s.after l read } := by
  rcases e.updateUnder_cases g id logic nodes edges with hkept | ⟨hadmitted, hspread⟩
  · exact .inl hkept
  · refine .inr ⟨hadmitted, ?_⟩
    intro s l
    have hplain := @settle_ledger _ _ _ s (s.passFrom id)
      (fun l => (s.visitsFrom id l).flatMap s.hopsAt) (fun h => [h])
      (fun l => by rw [List.flatMap_singleton', s.passFrom_ledger]) g.cap l
    rw [List.flatMap_singleton'] at hplain
    obtain ⟨read, hread, hleft, -⟩ := e.conclude_outcome hplain
      (g.settle_outcome (s.passFrom_ledger id) (fun l => s.passFromUnder_outcome g.watch id l) l)
    exact ⟨read, hread, hspread ▸ hleft⟩

end Engine
end ReasonGraph
