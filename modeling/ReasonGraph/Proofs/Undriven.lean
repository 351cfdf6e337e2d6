import ReasonGraph.Proofs.Forgetting

/-! What the drivers of a state matter for. To assert of a node the verdict that it has takes away
its drivers and nothing else. What the node implies for others stays as it was, and a reading that
had nothing to say to it has nothing to say now: drivers only matter where an achievement is
withdrawn from a target that it drove. -/

namespace ReasonGraph
variable {α : Type}

def NodeState.undriven (s : NodeState α) : NodeState α := { s with derivedFrom := [] }

def Table.Alike (t t' : Table α) (id : String) : Prop :=
  (t.get? id).map NodeState.undriven = (t'.get? id).map NodeState.undriven

theorem Table.Alike.get? {t t' : Table α} {id : String} (h : t.Alike t' id) {a : NodeState α}
    (ha : t.get? id = some a) :
    ∃ drivers, t'.get? id = some { a with derivedFrom := drivers } := by
  rw [Alike, ha] at h
  cases ha' : t'.get? id with
  | none =>
    rw [ha'] at h
    cases h
  | some a' =>
    rw [ha'] at h
    have hsame : a.undriven = a'.undriven := Option.some.inj h
    refine ⟨a'.derivedFrom, ?_⟩
    obtain ⟨_, _, _, _, _⟩ := a
    obtain ⟨_, _, _, _, _⟩ := a'
    simp only [NodeState.undriven, NodeState.mk.injEq] at hsame
    obtain ⟨rfl, rfl, rfl, -, rfl⟩ := hsame
    rfl

variable [Quantity α]

namespace Rule
variable {r : Relation} {e : Evidence α}

theorem inference_source (r : Relation) (e : Evidence α) (drivers : List String) :
    inference r { e with source := { e.source with derivedFrom := drivers } } = inference r e := by
  cases r <;> rfl

end Rule

omit [Quantity α] in
theorem Hop.evidence?_alike {h : Hop α} {config : Config α} {g : Snapshot α} {t t' : Table α}
    {e : Evidence α} (he : h.evidence? config g t = some e) (hsource : t.Alike t' h.source)
    {target : NodeState α} (htarget : t'.get? h.target = some target) :
    ∃ drivers, h.evidence? config g t' = some { e with
      source := { e.source with derivedFrom := drivers }, target, states := t' } := by
  obtain ⟨sourceNode, targetNode, a, b, hsn, htn, ha, -, rfl⟩ := evidence?_eq_some he
  obtain ⟨drivers, ha'⟩ := hsource.get? ha
  exact ⟨drivers, by simp only [evidence?, hsn, htn, ha', htarget]; rfl⟩

namespace Setting
variable {s : Setting α} {nodes : List (Node α)} {edges : List (Edge α)} {t t' : Table α}
  {h : Hop α} {r : Relation}

theorem inference_alike (hg : s.graph = .ofLists nodes edges) {e : Evidence α}
    (he : h.evidence? s.config s.graph t = some e) (hother : r = .achieves →
      t'.achievedOtherwise edges h = t.achievedOtherwise edges h)
    (target : NodeState α) (drivers : List String) :
    Rule.inference r { e with
        source := { e.source with derivedFrom := drivers }, target, states := t' } =
      Rule.inference r { e with target } := by
  have hid : e.targetNode.id = h.target := by
    obtain ⟨_, _, _, _, -, htn, -, -, rfl⟩ := Hop.evidence?_eq_some he
    rw [hg] at htn
    exact (Snapshot.nodeMap_get? htn).2
  have hindex : e.incoming = Snapshot.fileAll Edge.target e.edges := by
    obtain ⟨_, _, _, _, -, -, -, -, rfl⟩ := Hop.evidence?_eq_some he
    rw [hg]
    rfl
  have hedges : e.edges = edges ∧ e.edge = h.edge ∧ e.states = t := by
    obtain ⟨_, _, _, _, -, -, -, -, rfl⟩ := Hop.evidence?_eq_some he
    rw [hg]
    exact ⟨rfl, rfl, rfl⟩
  have hsource := Rule.inference_source r { e with target, states := t' } drivers
  rw [hsource]
  refine Rule.inference_elsewhere rfl fun hr _ => ?_
  have hsame := hother hr
  rw [Rule.hasOtherAchiever_eq (e := { e with target, states := t' }) hindex,
    Rule.hasOtherAchiever_eq (e := { e with target }) hindex]
  simp only [hid, hedges.1, hedges.2.1, hedges.2.2]
  exact hsame

theorem change?_alike (hg : s.graph = .ofLists nodes edges) (hother : r = .achieves →
      t'.achievedOtherwise edges h = t.achievedOtherwise edges h)
    (hsource : t.Alike t' h.source) (htarget : t'.get? h.target = t.get? h.target) {c : Change α}
    (hc : s.change? t (h, .builtin r) = some c) : s.change? t' (h, .builtin r) = some c := by
  obtain ⟨e, p, he, hp, hwanted, hmoves, rfl⟩ := Hop.change?_eq_some hc
  obtain ⟨hheard, hinfer⟩ := floored_eq_some hp
  have hb : t'.get? h.target = some e.target := by
    obtain ⟨_, _, _, _, -, -, -, hb, rfl⟩ := Hop.evidence?_eq_some he
    exact htarget.trans hb
  obtain ⟨drivers, he'⟩ := Hop.evidence?_alike he hsource hb
  rw [← inference_alike hg he hother e.target drivers] at hinfer
  simp only [change?, Hop.change?, he', Rule.builtin, floored, hheard, if_false, hinfer,
    Option.bind_eq_bind, Option.bind_some, hwanted, hmoves, Bool.or_self, Bool.false_eq_true]

end Setting
end ReasonGraph
