import ReasonGraph.Proofs.Bounds
import ReasonGraph.Proofs.View

/-! What a converged run guarantees of every edge. Where no reading changes anything, a rule
proposes no verdict but the one that stands, so the verdicts at the two ends of an edge agree with
the relation that joins them. -/

namespace ReasonGraph
variable {α : Type}

namespace NodeState

/-- The verdict is the one asked for, or given up for a conflict. -/
def Yields (s : NodeState α) (verdict : LogicState) : Prop :=
  s.logic = verdict ∨ s.logic = .conflict

variable [Quantity α]

def IsHeard (s : NodeState α) (floor : α) : Prop := ¬s.confidence < floor

def Excludes (a : NodeState α) (floor : α) (id : String) (b : NodeState α) : Prop :=
  a.IsHeard floor → (a.logic = .holds → b.Yields .fails) ∧
    (a.logic = .conflict → id ∈ a.partners.getD [] → b.logic ≠ .holds)

end NodeState

def Stands (verdict : LogicState) (p : Option (Proposal α)) : Prop :=
  ∀ q, p = some q → q.logic = verdict

namespace Stands
variable {verdict logic : LogicState} {e : Evidence α} {confidence : α} {reason : String}

@[simp] theorem propose : Stands verdict (e.propose logic confidence reason) ↔ logic = verdict := by
  simp [Stands, Evidence.propose]

@[simp] theorem contest {partners : List String} :
    Stands verdict (e.contest partners confidence reason) ↔ .conflict = verdict := by
  simp [Stands, Evidence.contest]

end Stands

theorem Hop.evidence?_of_mem (h : Hop α) (config : Config α) {nodes : List (Node α)}
    (edges : List (Edge α)) {t : Table α} (ht : ∀ id, id ∈ t.keys ↔ id ∈ nodes.map Node.id)
    (hsource : h.source ∈ nodes.map Node.id) (htarget : h.target ∈ nodes.map Node.id) :
    ∃ sourceNode targetNode a b, sourceNode.id = h.source ∧ targetNode.id = h.target ∧
      t.get? h.source = some a ∧ t.get? h.target = some b ∧
      h.evidence? config (.ofLists nodes edges) t =
        some ⟨sourceNode, a, targetNode, b, h.edge, Snapshot.nodeMap nodes, edges, t,
          Snapshot.fileAll Edge.target edges, config, h.reversed⟩ := by
  obtain ⟨sourceNode, hs⟩ := OrderedMap.mem_keys_iff.1 (Snapshot.mem_keys_nodeMap.2 hsource)
  obtain ⟨targetNode, htn⟩ := OrderedMap.mem_keys_iff.1 (Snapshot.mem_keys_nodeMap.2 htarget)
  obtain ⟨a, ha⟩ := OrderedMap.mem_keys_iff.1 ((ht _).2 hsource)
  obtain ⟨b, hb⟩ := OrderedMap.mem_keys_iff.1 ((ht _).2 htarget)
  refine ⟨sourceNode, targetNode, a, b, (Snapshot.nodeMap_get? hs).2,
    (Snapshot.nodeMap_get? htn).2, ha, hb, ?_⟩
  simp only [evidence?, Snapshot.ofLists, hs, htn, ha, hb]
  rfl

theorem Hop.exists_evidence (h : Hop α) (config : Config α) {nodes : List (Node α)}
    (edges : List (Edge α)) {t : Table α} (ht : ∀ id, id ∈ t.keys ↔ id ∈ nodes.map Node.id)
    (hsource : h.source ∈ nodes.map Node.id) (htarget : h.target ∈ nodes.map Node.id) :
    ∃ e, h.evidence? config (.ofLists nodes edges) t = some e ∧ e.sourceNode.id = h.source ∧
      e.targetNode.id = h.target ∧ t.get? h.source = some e.source ∧
      t.get? h.target = some e.target ∧ e.reversed = h.reversed := by
  obtain ⟨_, _, _, _, hsid, htid, ha, hb, he⟩ := h.evidence?_of_mem config edges ht hsource htarget
  exact ⟨_, he, hsid, htid, ha, hb, rfl⟩

variable [Quantity α]

/-- What an edge of a relation asks of the states of its source and its target. -/
def Relation.Kept (r : Relation) (floor : α) (edges : List (Edge α)) (t : Table α)
    (edge : Edge α) (a b : NodeState α) : Prop :=
  match r with
  | .depends => a.IsHeard floor →
    (a.logic = .fails → b.Yields .fails) ∧ (a.logic = .conflict → b.logic = .conflict)
  | .supports => True
  | .achieves => a.IsHeard floor → (a.logic = .holds → b.Yields .holds) ∧
    (a.logic = .fails → edge.source ∈ b.derivedFrom →
      t.achievedOtherwise edges ⟨edge, false⟩ = false → b.Yields .unknown)
  | .hinders => a.IsHeard floor → a.logic = .holds → (0.8 : α) < Strength.fraction edge.strength →
    (70.0 : α) < a.confidence → b.Yields .fails
  | .causes => (a.IsHeard floor → a.logic = .holds → b.Yields .holds) ∧
    (b.IsHeard floor → b.logic = .fails → a.Yields .fails)
  | .conflicts => a.Excludes floor edge.target b ∧ b.Excludes floor edge.source a

namespace Rule
variable {e : Evidence α}

theorem dependency_stands (h : Stands e.target.logic (dependency e)) :
    (e.source.logic = .fails → e.target.Yields .fails) ∧
      (e.source.logic = .conflict → e.target.logic = .conflict) := by
  constructor
  · intro hs
    cases ht : e.target.logic <;> simp [dependency, hs, ht, NodeState.Yields] at h ⊢
  · intro hs
    cases ht : e.target.logic <;> simp [dependency, hs, ht] at h ⊢

theorem achievement_stands (h : Stands e.target.logic (achievement e)) :
    (e.source.logic = .holds → e.target.Yields .holds) ∧
      (e.source.logic = .fails → e.sourceNode.id ∈ e.target.derivedFrom →
        hasOtherAchiever e = false → e.target.Yields .unknown) := by
  constructor
  · intro hs
    cases ht : e.target.logic <;> simp [achievement, hs, ht, NodeState.Yields] at h ⊢
  · intro hs hmem hother
    cases ht : e.target.logic <;>
      simp [achievement, hs, ht, hmem, hother, NodeState.Yields, Stands] at h ⊢

theorem hindrance_stands (h : Stands e.target.logic (hindrance e))
    (hs : e.source.logic = .holds) (hstrong : (0.8 : α) < Strength.fraction e.edge.strength)
    (hsure : (70.0 : α) < e.source.confidence) : e.target.Yields .fails := by
  cases ht : e.target.logic <;> simp [hindrance, hs, ht, hstrong, hsure, NodeState.Yields] at h ⊢

theorem effect_stands (h : Stands e.target.logic (causation e)) (hforward : e.reversed = false)
    (hs : e.source.logic = .holds) : e.target.Yields .holds := by
  cases ht : e.target.logic <;> simp [causation, effect, hforward, hs, ht, NodeState.Yields] at h ⊢

theorem contrapositive_stands (h : Stands e.target.logic (causation e))
    (hbackward : e.reversed = true) (hs : e.source.logic = .fails) : e.target.Yields .fails := by
  cases ht : e.target.logic <;>
    simp [causation, contrapositive, hbackward, hs, ht, NodeState.Yields] at h ⊢

theorem mutualConflict_stands (h : Stands e.target.logic (mutualConflict e)) :
    (e.source.logic = .holds → e.target.Yields .fails) ∧
      (e.source.logic = .conflict → e.targetNode.id ∈ e.source.partners.getD [] →
        e.target.logic ≠ .holds) := by
  constructor
  · intro hs
    cases ht : e.target.logic <;>
      simp [mutualConflict, standsAgainst, hs, ht, NodeState.Yields] at h ⊢
  · intro hs hmem ht
    simp [mutualConflict, standsAgainst, hs, ht, hmem] at h

end Rule

theorem Setting.change?_of_moves {s : Setting α} {t : Table α} {h : Hop α} {r : Relation}
    {e : Evidence α} (he : h.evidence? s.config s.graph t = some e)
    (hheard : e.source.IsHeard s.config.floor) {p : Proposal α} (hp : Rule.inference r e = some p)
    (hwanted : p.isUnwanted s.config = false) (hmoves : e.target.logic ≠ p.logic) :
    s.change? t (h, .builtin r) = some (p.change h e.target) := by
  obtain ⟨-, -, hconfig, -⟩ := Hop.evidence?_shows he
  have hpropose : (Rule.builtin r).propagate e = some p := by
    rw [← hconfig] at hheard
    simp only [Rule.builtin, floored]
    rw [if_neg hheard, hp]
  have hloud : p.isQuiet e.target = false := by simp [Proposal.isQuiet, hmoves]
  simp [change?, Hop.change?, he, hpropose, hwanted, hloud]

theorem Setting.inference_of_change {s : Setting α} {t : Table α} {h : Hop α} {r : Relation}
    {e : Evidence α} (he : h.evidence? s.config s.graph t = some e) {c : Change α}
    (hc : s.change? t (h, .builtin r) = some c) :
    ∃ p, Rule.inference r e = some p ∧ p.isUnwanted s.config = false ∧ c = p.change h e.target := by
  obtain ⟨e', p, he', hp, hwanted, -, rfl⟩ := Hop.change?_eq_some hc
  obtain rfl : e' = e := Option.some.inj (he'.symm.trans he)
  exact ⟨p, (floored_eq_some hp).2, hwanted, rfl⟩

structure Setting.HearsAll (s : Setting α) (relations : List Relation) (nodes : List (Node α))
    (edges : List (Edge α)) : Prop where
  graph : s.graph = .ofLists nodes edges
  registry : s.registry = .builtin
  floor : s.config.floor = 0.0
  relation : ∀ e ∈ edges, ∃ r ∈ relations, e.relation = r.name

namespace Setting.HearsAll
variable {s : Setting α} {relations : List Relation} {nodes : List (Node α)}
  {edges : List (Edge α)}

theorem rule (hs : s.HearsAll relations nodes edges) {h : Hop α × Rule α} (hh : h ∈ s.hops) :
    h.1.edge ∈ edges ∧ ∃ r ∈ relations, h.1.edge.relation = r.name ∧ h.2 = .builtin r ∧
      (h.1.reversed = true → Rule.isMutual r = true) := by
  obtain ⟨hedge, -, hmutual⟩ := mem_hops.1 hh
  have hrelation : ∀ edge ∈ s.graph.edges, ∃ r ∈ relations, edge.relation = r.name := by
    rw [hs.graph]
    exact hs.relation
  obtain ⟨r, hr, hrel, hrule⟩ := rule_among hs.registry hrelation hh
  rw [hs.graph] at hedge
  rw [hrule] at hmutual
  exact ⟨hedge, r, hr, hrel, hrule, hmutual⟩

theorem isHeard [Quantity.IsStrict α] (hs : s.HearsAll relations nodes edges) {t : Table α}
    (ht : t.InRange) {id : String} {a : NodeState α} (ha : t.get? id = some a) :
    a.IsHeard s.config.floor := by
  rw [NodeState.IsHeard, hs.floor]
  exact (ht id a ha).not_lt_zero

end Setting.HearsAll

theorem Setting.stands_of_quiet {s : Setting α} (hdetect : s.config.detectsConflicts = true)
    {t : Table α} {h : Hop α} {r : Relation} (hquiet : s.change? t (h, .builtin r) = none)
    {e : Evidence α} (he : h.evidence? s.config s.graph t = some e)
    (hheard : e.source.IsHeard s.config.floor) : Stands e.target.logic (Rule.inference r e) := by
  intro p hp
  by_contra hmoves
  have hwanted : p.isUnwanted s.config = false := by simp [Proposal.isUnwanted, hdetect]
  have hchange := change?_of_moves he hheard hp hwanted (Ne.symm hmoves)
  rw [hquiet] at hchange
  cases hchange

namespace Engine

theorem run_quiet {e : Engine α} {nodes : List (Node α)} {edges : List (Edge α)}
    {overrides : Overrides α} {r : Result α} (hrun : (e.run nodes edges overrides).2 = .ok r)
    (hconverged : r.converged = true) {h : Hop α × Rule α}
    (hh : h ∈ (e.setting (.ofLists nodes edges)).hops) :
    (e.setting (.ofLists nodes edges)).change? r.states h = none := by
  obtain ⟨seeded, -, rfl⟩ := run_ok hrun
  obtain ⟨last, hlast⟩ := settle_converged hconverged
  obtain ⟨hsame, hquiet⟩ := Setting.fullPass_quiet hlast
  rw [Settled.result, hsame]
  exact hquiet h hh

theorem run_stands {e : Engine α} (hregistry : e.registry = .builtin)
    (hdetect : e.config.detectsConflicts = true) {nodes : List (Node α)} {edges : List (Edge α)}
    {overrides : Overrides α} {r : Result α} (hrun : (e.run nodes edges overrides).2 = .ok r)
    (hconverged : r.converged = true) {h : Hop α} (hedge : h.edge ∈ edges) {rel : Relation}
    (hrel : h.edge.relation = rel.name) (hmutual : h.reversed = true → Rule.isMutual rel = true)
    {v : Evidence α}
    (hv : h.evidence? e.config (.ofLists nodes edges) r.states = some v)
    (hheard : v.source.IsHeard e.config.floor) : Stands v.target.logic (Rule.inference rel v) := by
  have hrule : e.registry.get? h.edge.relation = some (Rule.builtin rel) := by
    rw [hregistry, hrel]
    exact Registry.get?_builtin_name rel
  have hhop : (h, Rule.builtin rel) ∈ (e.setting (.ofLists nodes edges)).hops :=
    Setting.mem_hops.2 ⟨hedge, hrule, hmutual⟩
  exact Setting.stands_of_quiet hdetect (run_quiet hrun hconverged hhop) hv hheard

/-- A converged run that looks for conflicts keeps every edge between its nodes. -/
theorem converged_run_kept {e : Engine α} (hregistry : e.registry = .builtin)
    (hdetect : e.config.detectsConflicts = true) {nodes : List (Node α)} {edges : List (Edge α)}
    {overrides : Overrides α} {r : Result α} (hrun : (e.run nodes edges overrides).2 = .ok r)
    (hconverged : r.converged = true) {edge : Edge α} (hedge : edge ∈ edges)
    (hsource : edge.source ∈ nodes.map Node.id) (htarget : edge.target ∈ nodes.map Node.id)
    {rel : Relation} (hrel : edge.relation = rel.name) :
    ∃ a b, r.states.get? edge.source = some a ∧ r.states.get? edge.target = some b ∧
      rel.Kept e.config.floor edges r.states edge a b := by
  have hkeys : ∀ id, id ∈ r.states.keys ↔ id ∈ nodes.map Node.id := fun id => mem_keys_run hrun
  obtain ⟨sourceNode, targetNode, a, b, hsid, htid, ha, hb, hforward⟩ :=
    (Hop.mk edge false).evidence?_of_mem e.config edges hkeys hsource htarget
  obtain ⟨targetNode', sourceNode', b', a', -, hsid', hb', ha', hbackward⟩ :=
    (Hop.mk edge true).evidence?_of_mem e.config edges hkeys htarget hsource
  obtain rfl : b = b' := Option.some.inj (hb.symm.trans hb')
  obtain rfl : a = a' := Option.some.inj (ha.symm.trans ha')
  refine ⟨a, b, ha, hb, ?_⟩
  have hahead : a.IsHeard e.config.floor → Stands b.logic (Rule.inference rel _) :=
    run_stands hregistry hdetect hrun hconverged hedge hrel (by simp) hforward
  have hback : Rule.isMutual rel = true → b.IsHeard e.config.floor →
      Stands a.logic (Rule.inference rel _) := fun hmutual =>
    run_stands hregistry hdetect hrun hconverged hedge hrel (fun _ => hmutual) hbackward
  cases rel with
  | depends => exact fun hheard => Rule.dependency_stands (hahead hheard)
  | supports => trivial
  | achieves =>
    intro hheard
    obtain ⟨hholds, hfails⟩ := Rule.achievement_stands (hahead hheard)
    refine ⟨hholds, fun hs hmem hother => hfails hs (hsid ▸ hmem) ?_⟩
    rw [Rule.hasOtherAchiever_eq rfl]
    simp only [htid]
    exact hother
  | hinders =>
    intro hheard hs hstrong hsure
    exact Rule.hindrance_stands (hahead hheard) hs hstrong hsure
  | causes =>
    constructor
    · exact fun hheard => Rule.effect_stands (hahead hheard) rfl
    · exact fun hheard => Rule.contrapositive_stands (hback rfl hheard) rfl
  | conflicts =>
    constructor
    · intro hheard
      have hasked := Rule.mutualConflict_stands (hahead hheard)
      simp only [htid] at hasked
      exact hasked
    · intro hheard
      have hasked := Rule.mutualConflict_stands (hback rfl hheard)
      simp only [hsid'] at hasked
      exact hasked

theorem converged_run_kept_causes :
    let e : Engine Float := .new .standard .builtin
    let nodes : List (Node Float) :=
      [⟨"rain", .fact, "", 90.0⟩, ⟨"wet", .conclusion, "", 50.0⟩, ⟨"dry", .conclusion, "", 85.0⟩]
    let edge : Edge Float := ⟨"rw", "rain", "wet", "causes", 1.0⟩
    let edges := [edge, ⟨"wd", "wet", "dry", "conflicts", 1.0⟩]
    ∃ r, (e.run nodes edges ∅).2 = .ok r ∧ r.converged = true ∧ r.events.length = 3 ∧
      ∃ a b, r.states.get? edge.source = some a ∧ r.states.get? edge.target = some b ∧
        Relation.causes.Kept e.config.floor edges r.states edge a b := by
  intro e nodes edge edges
  have hcall : ∃ r, (e.run nodes edges ∅).2 = .ok r ∧ r.converged = true ∧ r.events.length = 3 :=
    ⟨_, rfl, by decide +kernel, by decide +kernel⟩
  obtain ⟨r, hrun, hconverged, hlength⟩ := hcall
  exact ⟨r, hrun, hconverged, hlength, converged_run_kept rfl rfl hrun hconverged
    List.mem_cons_self (by decide) (by decide) rfl⟩

end Engine
end ReasonGraph
