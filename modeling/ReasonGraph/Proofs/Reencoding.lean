import ReasonGraph.Proofs.Passes
import ReasonGraph.Proofs.Rewriting

/-! Two ways to write a strength. A percentage says full strength where strength is read as a
multiplier, and its hundredth where it is read as a fraction; dependency and mutual conflict read no
strength. So old graphs can be written anew, edge by edge, and whatever calls an engine is given, it
answers them as it did. Two graphs whose edges are read alike are no different to a pass, and what is
no different to a pass is no different to a call. -/

namespace ReasonGraph
variable {α : Type} [Quantity α]

namespace Strength

/-- What the strength of an edge of a relation may be replaced with. -/
inductive Reencodes : String → α → α → Prop where
  | same (relation : String) (s : α) : Reencodes relation s s
  | full {r : Relation} (hr : r = .causes ∨ r = .achieves) {s : α} (hs : isPercentage s = true) :
    Reencodes r.name s 1.0
  | hundredth {r : Relation} (hr : r = .supports ∨ r = .hinders) {s : α}
    (hs : isPercentage s = true) (hless : isPercentage (s / 100.0) = false) :
    Reencodes r.name s (s / 100.0)
  | unread {r : Relation} (hr : r = .depends ∨ r = .conflicts) (s s' : α) : Reencodes r.name s s'

theorem multiplier_one : multiplier (1.0 : α) = 1.0 := by
  unfold multiplier
  split <;> rfl

end Strength

def Relation.ReadsAlike (s s' : α) : Relation → Prop
  | .causes | .achieves => Strength.multiplier s' = Strength.multiplier s
  | .supports | .hinders => Strength.fraction s' = Strength.fraction s
  | .depends | .conflicts => True

theorem Strength.Reencodes.readsAlike {r : Relation} {s s' : α} (h : Reencodes r.name s s') :
    r.ReadsAlike s s' := by
  generalize hrel : r.name = relation at h
  cases h with
  | same => cases r <;> first | rfl | trivial
  | full hr hs =>
    obtain rfl := Relation.name_injective hrel
    have halike : multiplier (1.0 : α) = multiplier s :=
      multiplier_one.trans (multiplier_of_isPercentage hs).symm
    rcases hr with rfl | rfl <;> exact halike
  | hundredth hr hs hless =>
    obtain rfl := Relation.name_injective hrel
    have halike : fraction (s / 100.0) = fraction s :=
      (fraction_of_not_isPercentage hless).trans (fraction_of_isPercentage hs).symm
    rcases hr with rfl | rfl <;> exact halike
  | unread hr =>
    obtain rfl := Relation.name_injective hrel
    rcases hr with rfl | rfl <;> trivial

def Edge.withStrength (e : Edge α) (strength : α) : Edge α := { e with strength }

theorem Rule.inference_withStrength {r : Relation} {e : Evidence α} {strength : α}
    (h : r.ReadsAlike e.edge.strength strength) :
    inference r { e with edge := e.edge.withStrength strength } = inference r e := by
  cases r with
  | depends => rfl
  | conflicts => rfl
  | causes | achieves | supports | hinders =>
    simp only [Relation.ReadsAlike] at h
    simp only [inference, causation, effect, contrapositive, achievement, support, hindrance,
      Edge.withStrength, h]
    rfl

def Edge.Reencodes (e e' : Edge α) : Prop :=
  ∃ strength, e' = e.withStrength strength ∧ Strength.Reencodes e.relation e.strength strength

namespace Setting
variable {s s' : Setting α}

theorem change?_withStrength {t : Table α} {edge : Edge α} {strength : α} {reversed : Bool}
    {r : Relation} (h : r.ReadsAlike edge.strength strength) :
    s.change? t (⟨edge.withStrength strength, reversed⟩, .builtin r) =
      s.change? t (⟨edge, reversed⟩, .builtin r) := by
  have hsource : Hop.source ⟨edge.withStrength strength, reversed⟩ = Hop.source ⟨edge, reversed⟩ :=
    rfl
  have htarget : Hop.target ⟨edge.withStrength strength, reversed⟩ = Hop.target ⟨edge, reversed⟩ :=
    rfl
  simp only [change?, Hop.change?, Hop.evidence?, hsource, htarget]
  cases s.graph.nodes.get? (Hop.source ⟨edge, reversed⟩) with
  | none => rfl
  | some sourceNode =>
  cases s.graph.nodes.get? (Hop.target ⟨edge, reversed⟩) with
  | none => rfl
  | some targetNode =>
  cases t.get? (Hop.source ⟨edge, reversed⟩) with
  | none => rfl
  | some source =>
  cases t.get? (Hop.target ⟨edge, reversed⟩) with
  | none => rfl
  | some target =>
  have hinference := Rule.inference_withStrength (r := r) (e := ⟨sourceNode, source, targetNode,
    target, edge, s.graph.nodes, s.graph.edges, t, s.graph.incoming, s.config, reversed⟩) h
  simp only [Option.bind_eq_bind, Option.bind_some, Rule.builtin, floored, hinference]
  rfl

namespace Rewrites
variable {nodes : List (Node α)} {edges edges' : List (Edge α)}
  (hs : Rewrites Edge.Reencodes nodes edges edges' s s')
include hs

theorem reencoded {edge edge' : Edge α} (hedge : edge.Reencodes edge') {rule : Rule α}
    (hrule : s.registry.get? edge.relation = some rule) (reversed : Bool) :
    s.Agree s' (⟨edge, reversed⟩, rule) (⟨edge', reversed⟩, rule) := by
  intro t
  obtain ⟨strength, rfl, hstrength⟩ := hedge
  rw [hs.registry] at hrule
  obtain ⟨r, hrel, rfl⟩ := Registry.get?_builtin.1 hrule
  rw [hrel] at hstrength
  rw [change?_withStrength hstrength.readsAlike]
  refine hs.agree ?_ _ r t
  -- other achievers are found by their ends and their relation, and told apart by id
  rintro _ _ _ _ ⟨_, rfl, -⟩
  rfl

theorem forward {edge edge' : Edge α} (hedge : edge.Reencodes edge') :
    Option.Rel (s.Agree s') (s.registry.forward? edge) (s'.registry.forward? edge') := by
  have hagree := fun rule (hrule : s.registry.get? edge.relation = some rule) =>
    hs.reencoded hedge hrule false
  obtain ⟨strength, rfl, -⟩ := hedge
  rw [Registry.forward?, Registry.forward?, hs.registry', ← hs.registry]
  simp only [Edge.withStrength] at hagree ⊢
  cases hrule : s.registry.get? edge.relation with
  | none => exact .none
  | some rule => exact .some (hagree rule hrule)

theorem backward {edge edge' : Edge α} (hedge : edge.Reencodes edge') :
    Option.Rel (s.Agree s') (s.registry.backward? edge) (s'.registry.backward? edge') := by
  have hagree := fun rule (hrule : s.registry.get? edge.relation = some rule) =>
    hs.reencoded hedge hrule true
  obtain ⟨strength, rfl, -⟩ := hedge
  rw [Registry.backward?, Registry.backward?, hs.registry', ← hs.registry]
  simp only [Edge.withStrength] at hagree ⊢
  cases hrule : s.registry.get? edge.relation with
  | none => exact .none
  | some rule =>
    rw [Option.filter_some]
    split
    · exact .some (hagree rule hrule)
    · exact .none

theorem hops : List.Forall₂ (s.Agree s') s.hops s'.hops := by
  have toList : ∀ {x y : Option (Hop α × Rule α)}, Option.Rel (s.Agree s') x y →
      List.Forall₂ (s.Agree s') x.toList y.toList := by
    intro x y hxy
    cases hxy with
    | none => exact .nil
    | some hagree => exact .cons hagree .nil
  have hedges := hs.rewritten
  rw [Setting.hops, Setting.hops, hs.graph, hs.graph']
  exact List.rel_flatMap hedges fun _ _ hedge =>
    List.rel_append (toList (hs.forward hedge)) (toList (hs.backward hedge))

theorem hopsAt (id : String) : List.Forall₂ (s.Agree s') (s.hopsAt id) (s'.hopsAt id) := by
  have hleaving : List.Forall₂ Edge.Reencodes (s.graph.edgesFrom id) (s'.graph.edgesFrom id) := by
    rw [hs.graph, hs.graph', Snapshot.edgesFrom_ofLists, Snapshot.edgesFrom_ofLists]
    refine List.rel_filter (fun _ _ hedge => ?_) hs.rewritten
    obtain ⟨_, rfl, -⟩ := hedge
    rfl
  have hentering : List.Forall₂ Edge.Reencodes (s.graph.edgesInto id) (s'.graph.edgesInto id) := by
    rw [hs.graph, hs.graph', Snapshot.edgesInto_ofLists, Snapshot.edgesInto_ofLists]
    refine List.rel_filter (fun _ _ hedge => ?_) hs.rewritten
    obtain ⟨_, rfl, -⟩ := hedge
    rfl
  exact List.rel_append (List.rel_filterMap (R := Edge.Reencodes) (fun _ _ => hs.forward) hleaving)
    (List.rel_filterMap (R := Edge.Reencodes) (fun _ _ => hs.backward) hentering)

end Rewrites
end Setting

theorem Engine.chains_cycles {nodes : List (Node α)} {edges edges' : List (Edge α)}
    (hedges : List.Forall₂ Edge.Reencodes edges edges') :
    (chains (.ofLists nodes edges')).cycles = (chains (.ofLists nodes edges)).cycles := by
  have hnext : (chains (.ofLists nodes edges')).next = (chains (.ofLists nodes edges)).next := by
    funext id
    have htargets : List.Forall₂ Eq ((chains (.ofLists nodes edges)).next id)
        ((chains (.ofLists nodes edges')).next id) := by
      refine List.rel_map ?_ (List.rel_filter ?_ hedges) <;>
        · rintro _ _ ⟨_, rfl, -⟩
          rfl
    rw [List.forall₂_eq_eq_eq] at htargets
    exact htargets.symm
  rw [Links.cycles, Links.cycles, hnext]
  rfl

/-- A call of an engine, over a graph of its own: a run, or an edit of one verdict. -/
inductive Call (α : Type) where
  | run (nodes : List (Node α)) (edges : List (Edge α)) (overrides : Overrides α)
  | edit (id : String) (v : Value) (nodes : List (Node α)) (edges : List (Edge α))

inductive Call.Reencodes : Call α → Call α → Prop where
  | run (nodes : List (Node α)) {edges edges' : List (Edge α)} (overrides : Overrides α)
    (hedges : List.Forall₂ Edge.Reencodes edges edges') :
    Reencodes (.run nodes edges overrides) (.run nodes edges' overrides)
  | edit (id : String) (v : Value) (nodes : List (Node α)) {edges edges' : List (Edge α)}
    (hedges : List.Forall₂ Edge.Reencodes edges edges') :
    Reencodes (.edit id v nodes edges) (.edit id v nodes edges')

namespace Engine

def answer (e : Engine α) : Call α → Engine α × Except Rejection (Result α)
  | .run nodes edges overrides => e.run nodes edges overrides
  | .edit id v nodes edges => e.edit id v nodes edges

def answers (e : Engine α) : List (Call α) → Engine α × List (Except Rejection (Result α))
  | [] => (e, [])
  | call :: rest =>
    let (next, outcome) := e.answer call
    let (last, outcomes) := next.answers rest
    (last, outcome :: outcomes)

section
variable {e : Engine α} (hregistry : e.registry = .builtin) {edges edges' : List (Edge α)}
  (hedges : List.Forall₂ Edge.Reencodes edges edges')
include hregistry hedges

theorem setting_reencoded (nodes : List (Node α)) :
    Setting.Rewrites Edge.Reencodes nodes edges edges' (e.setting (.ofLists nodes edges))
      (e.setting (.ofLists nodes edges')) :=
  ⟨rfl, rfl, rfl, hregistry, hregistry, hedges⟩

theorem run_reencoded (nodes : List (Node α)) (overrides : Overrides α) :
    e.run nodes edges' overrides = e.run nodes edges overrides := by
  cases hseeds : (e.prepare nodes overrides).2 with
  | error r => rw [run_of_refused hseeds, run_of_refused hseeds]
  | ok seeds =>
    have hstart : e.start nodes edges' overrides = e.start nodes edges overrides := by
      rw [start, start, noteCycles, noteCycles, chains_cycles hedges]
    have hpass := Setting.fullPass_congr (setting_reencoded hregistry hedges nodes).hops
    rw [run_of_accepted hseeds, run_of_accepted hseeds]
    simp only [hstart, hpass]

theorem update_reencoded (id : String) (logic : LogicState) (nodes : List (Node α)) :
    e.update id logic nodes edges' = e.update id logic nodes edges := by
  have hnodes : (Snapshot.ofLists nodes edges').nodes = (Snapshot.ofLists nodes edges).nodes := rfl
  have hids : (e.setting (.ofLists nodes edges')).graph.ids =
      (e.setting (.ofLists nodes edges)).graph.ids := rfl
  have hpass := Setting.passFrom_congr hids (setting_reencoded hregistry hedges nodes).hopsAt
  simp only [update, hnodes, hpass]

theorem edit_reencoded (id : String) (v : Value) (nodes : List (Node α)) :
    e.edit id v nodes edges' = e.edit id v nodes edges := by
  unfold edit
  cases v.text?.bind LogicState.ofName? with
  | none => rfl
  | some logic => exact update_reencoded hregistry hedges id logic nodes

end

theorem answer_registry (e : Engine α) (call : Call α) :
    (e.answer call).1.registry = e.registry := by
  cases call with
  | run nodes edges overrides => exact e.run_registry nodes edges overrides
  | edit id v nodes edges =>
    simp only [answer, edit]
    split
    · rfl
    · exact e.update_registry id _ nodes edges

/-- Graphs whose strengths are written anew are answered as before. -/
theorem answers_reencoded {e : Engine α} (hregistry : e.registry = .builtin)
    {calls calls' : List (Call α)} (hcalls : List.Forall₂ Call.Reencodes calls calls') :
    e.answers calls' = e.answers calls := by
  induction hcalls generalizing e with
  | nil => rfl
  | @cons call call' _ _ hfirst _ ih =>
    have hsame : e.answer call' = e.answer call := by
      cases hfirst with
      | run nodes overrides hedges => exact run_reencoded hregistry hedges nodes overrides
      | edit id v nodes hedges => exact edit_reencoded hregistry hedges id v nodes
    have hnext : (e.answer call).1.registry = .builtin :=
      (e.answer_registry call).trans hregistry
    simp only [answers, hsame, ih hnext]

theorem answers_reencoded_percentages :
    let e : Engine Float := .new .standard .builtin
    let nodes : List (Node Float) := [⟨"a", .fact, "", 90.0⟩, ⟨"x", .conclusion, "", 50.0⟩,
      ⟨"y", .goal, "", 50.0⟩, ⟨"z", .conclusion, "", 80.0⟩]
    let edges : List (Edge Float) := [⟨"s", "a", "x", "supports", 70.0⟩,
      ⟨"c", "x", "y", "causes", 150.0⟩, ⟨"h", "y", "z", "hinders", 90.0⟩,
      ⟨"d", "z", "x", "depends", 60.0⟩]
    let edges' : List (Edge Float) := [⟨"s", "a", "x", "supports", 0.7⟩,
      ⟨"c", "x", "y", "causes", 1.0⟩, ⟨"h", "y", "z", "hinders", 0.9⟩,
      ⟨"d", "z", "x", "depends", 1.0⟩]
    let calls : List (Call Float) := [.run nodes edges ∅, .edit "x" (.text "true") nodes edges]
    let calls' : List (Call Float) := [.run nodes edges' ∅, .edit "x" (.text "true") nodes edges']
    List.Forall₂ Call.Reencodes calls calls' ∧ e.answers calls' = e.answers calls ∧
      (e.answers calls).2.map (fun outcome => outcome.toOption.map (·.events.length)) =
        [some 9, some 12] := by
  intro e nodes edges edges' calls calls'
  have hsupport : Strength.Reencodes Relation.supports.name (70.0 : Float) 0.7 := by
    have hshare : (0.7 : Float) = 70.0 / 100.0 := by decide +kernel
    rw [hshare]
    exact .hundredth (.inl rfl) (by decide +kernel) (by decide +kernel)
  have hhindrance : Strength.Reencodes Relation.hinders.name (90.0 : Float) 0.9 := by
    have hshare : (0.9 : Float) = 90.0 / 100.0 := by decide +kernel
    rw [hshare]
    exact .hundredth (.inr rfl) (by decide +kernel) (by decide +kernel)
  have hcause : Strength.Reencodes Relation.causes.name (150.0 : Float) 1.0 :=
    .full (.inl rfl) (by decide +kernel)
  have hdependency : Strength.Reencodes Relation.depends.name (60.0 : Float) 1.0 :=
    .unread (.inl rfl) 60.0 1.0
  have hedges : List.Forall₂ Edge.Reencodes edges edges' :=
    .cons ⟨0.7, rfl, hsupport⟩ (.cons ⟨1.0, rfl, hcause⟩
      (.cons ⟨0.9, rfl, hhindrance⟩ (.cons ⟨1.0, rfl, hdependency⟩ .nil)))
  have hcalls : List.Forall₂ Call.Reencodes calls calls' :=
    .cons (.run nodes ∅ hedges) (.cons (.edit "x" (.text "true") nodes hedges) .nil)
  exact ⟨hcalls, answers_reencoded rfl hcalls, by decide +kernel⟩

end Engine
end ReasonGraph
