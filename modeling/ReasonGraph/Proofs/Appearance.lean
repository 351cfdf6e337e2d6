import ReasonGraph.Proofs.Orientation
import ReasonGraph.Proofs.Resumption
import ReasonGraph.Proofs.Roster

/-! What nodes look like. Rules are shown the nodes at both ends of an edge, but of a node they use the
id, to tell drivers and partners, and the label, to tell reasons. The kind is asked when an override
asserts a verdict, and the confidence that a node brings along counts for its seed, unless the
override gives a verdict and a confidence. So nodes with other titles, of other kinds and, where both
are overridden, with another confidence of their own make for the same run in other words. -/

namespace ReasonGraph
variable {α : Type}

/-- The same node but for its title and its kind, and for its confidence if an override gives the
verdict and the confidence that count. -/
structure Node.Resembles (overrides : Overrides α) (n n' : Node α) : Prop where
  id : n'.id = n.id
  confidence : n'.confidence = n.confidence ∨ ∃ o, overrides.get? n.id = some (.ok o) ∧
    o.logic.isSome = true ∧ o.confidence.isSome = true

def Proposal.mute (p : Proposal α) : Proposal α := { p with reason := "" }

/-- Two proposals that differ in their reasons only, or two that are not made. -/
def Proposal.Echoes (p p' : Option (Proposal α)) : Prop := p'.map mute = p.map mute

def Evidence.withNodes (e : Evidence α) (source target : Node α) (nodes : OrderedMap (Node α)) :
    Evidence α :=
  { e with sourceNode := source, targetNode := target, nodes }

namespace Proposal.Echoes
variable {e : Evidence α} {source target : Node α} {nodes : OrderedMap (Node α)}

theorem none : Echoes (Option.none : Option (Proposal α)) Option.none := rfl

theorem ite {c : Prop} [Decidable c] {p q p' q' : Option (Proposal α)} (hp : Echoes p p')
    (hq : Echoes q q') : Echoes (if c then p else q) (if c then p' else q') := by
  split
  · exact hp
  · exact hq

theorem propose (hsource : source.id = e.sourceNode.id) {logic : LogicState} {confidence : α}
    {reason reason' : String} : Echoes (e.propose logic confidence reason)
      ((e.withNodes source target nodes).propose logic confidence reason') := by
  simp [Echoes, Evidence.propose, Evidence.drivers, Evidence.withNodes, mute, hsource]

theorem contest (hsource : source.id = e.sourceNode.id) {partners partners' : List String}
    (hpartners : partners' = partners) {confidence : α} {reason reason' : String} :
    Echoes (e.contest partners confidence reason)
      ((e.withNodes source target nodes).contest partners' confidence reason') := by
  simp [Echoes, Evidence.contest, Evidence.drivers, Evidence.withNodes, mute, hsource, hpartners]

end Proposal.Echoes

theorem Snapshot.nodeMap_rel {R : Node α → Node α → Prop} (hid : ∀ n n', R n n' → n'.id = n.id)
    {nodes nodes' : List (Node α)} (h : List.Forall₂ R nodes nodes') :
    (nodeMap nodes').keys = (nodeMap nodes).keys ∧
      ∀ id, Option.Rel R ((nodeMap nodes).get? id) ((nodeMap nodes').get? id) := by
  suffices hsuffix : ∀ m m' : OrderedMap (Node α),
      (m'.keys = m.keys ∧ ∀ id, Option.Rel R (m.get? id) (m'.get? id)) →
      let left := (nodes.map fun n => (n.id, n)).foldl (fun m e => m.insert e.1 e.2) m
      let left' := (nodes'.map fun n => (n.id, n)).foldl (fun m e => m.insert e.1 e.2) m'
      left'.keys = left.keys ∧ ∀ id, Option.Rel R (left.get? id) (left'.get? id) from
    hsuffix ∅ ∅ ⟨rfl, fun _ => .none⟩
  induction h with
  | nil => exact fun m m' hm => hm
  | @cons n n' _ _ hfirst _ ih =>
    intro m m' hm
    obtain ⟨hkeys, hlook⟩ := hm
    refine ih (m.insert n.id n) (m'.insert n'.id n') ⟨?_, fun id => ?_⟩
    · rw [OrderedMap.keys_insert, OrderedMap.keys_insert, hid _ _ hfirst, hkeys]
    · rw [OrderedMap.get?_insert, OrderedMap.get?_insert, hid _ _ hfirst]
      split
      · exact .some hfirst
      · exact hlook id

variable [Quantity α]

theorem Node.Resembles.seed_eq {overrides : Overrides α} {n n' : Node α}
    (h : n.Resembles overrides n') {config : Config α} {s s' : NodeState α}
    (hs : n.seedFrom config overrides = .ok s) (hs' : n'.seedFrom config overrides = .ok s') :
    s' = s := by
  obtain ⟨hid, hconfidence⟩ := h
  rw [seedFrom] at hs hs'
  rw [hid] at hs'
  cases hgiven : overrides.get? n.id with
  | none =>
    simp only [hgiven] at hs hs'
    have hsame : n'.confidence = n.confidence := by
      refine hconfidence.resolve_right ?_
      rintro ⟨o, ho, -⟩
      rw [hgiven] at ho
      cases ho
    rw [seed_eq_ok hs, seed_eq_ok hs', hid, hsame]
  | some given =>
    cases given with
    | error issues =>
      simp only [hgiven] at hs
      cases hs
    | ok o =>
      simp only [hgiven] at hs hs'
      rw [seed_eq_ok hs, seed_eq_ok hs', hid]
      rcases hconfidence with hsame | ⟨o', ho', hlogic, hnumber⟩
      · rw [hsame]
      · rw [hgiven, Option.some.injEq, Except.ok.injEq] at ho'
        subst ho'
        obtain ⟨logic, hlogic⟩ := Option.isSome_iff_exists.1 hlogic
        obtain ⟨number, hnumber⟩ := Option.isSome_iff_exists.1 hnumber
        rw [hlogic, hnumber]
        rfl

namespace Rule
variable {e : Evidence α} {source target : Node α} (nodes : OrderedMap (Node α))
  (hsource : source.id = e.sourceNode.id)

section
include hsource

theorem dependency_withNodes (target : Node α) :
    Proposal.Echoes (dependency e) (dependency (e.withNodes source target nodes)) := by
  refine .ite .none (.ite (.contest hsource ?_) (.ite (.propose hsource) .none))
  change (if (e.source.partners.getD []).isEmpty then [source.id] else _) = _
  rw [hsource]
  rfl

theorem support_withNodes (target : Node α) :
    Proposal.Echoes (support e) (support (e.withNodes source target nodes)) :=
  .ite .none (.ite (.ite (.propose hsource) .none) (.ite (.ite (.propose hsource) .none) .none))

theorem hindrance_withNodes (target : Node α) :
    Proposal.Echoes (hindrance e) (hindrance (e.withNodes source target nodes)) :=
  .ite .none (.ite (.propose hsource) (.ite (.propose hsource) .none))

theorem causation_withNodes (target : Node α) :
    Proposal.Echoes (causation e) (causation (e.withNodes source target nodes)) := by
  have partner : [source.id] = [e.sourceNode.id] := congrArg (fun id => [id]) hsource
  have back : Proposal.Echoes (contrapositive e)
      (contrapositive (e.withNodes source target nodes)) :=
    .ite .none (.ite (.contest hsource partner) (.ite (.propose hsource) .none))
  have ahead : Proposal.Echoes (effect e) (effect (e.withNodes source target nodes)) :=
    .ite .none (.ite (.contest hsource partner) (.ite (.propose hsource) .none))
  exact .ite .none (.ite back ahead)

variable (htarget : target.id = e.targetNode.id)
include htarget

theorem achievement_withNodes :
    Proposal.Echoes (achievement e) (achievement (e.withNodes source target nodes)) := by
  have hother : hasOtherAchiever (e.withNodes source target nodes) = hasOtherAchiever e := by
    simp only [hasOtherAchiever, Evidence.edgesInto, Evidence.withNodes, htarget]
    rfl
  simp only [achievement, hother]
  refine .ite .none (.ite (.ite (.propose hsource) .none) (.ite ?_ .none))
  simp only [Evidence.withNodes, hsource]
  exact .ite rfl .none

theorem mutualConflict_withNodes :
    Proposal.Echoes (mutualConflict e) (mutualConflict (e.withNodes source target nodes)) := by
  have hagainst : standsAgainst (e.withNodes source target nodes) = standsAgainst e := by
    simp only [standsAgainst, Evidence.withNodes, htarget]
    rfl
  simp only [mutualConflict, hagainst]
  exact .ite .none (.ite (.contest hsource (congrArg (fun id => [id]) hsource))
    (.ite (.propose hsource) .none))

theorem inference_withNodes (r : Relation) :
    Proposal.Echoes (inference r e) (inference r (e.withNodes source target nodes)) := by
  cases r with
  | depends => exact dependency_withNodes nodes hsource target
  | supports => exact support_withNodes nodes hsource target
  | achieves => exact achievement_withNodes nodes hsource htarget
  | hinders => exact hindrance_withNodes nodes hsource target
  | causes => exact causation_withNodes nodes hsource target
  | conflicts => exact mutualConflict_withNodes nodes hsource htarget

end

end Rule

theorem Proposal.change_alike {p p' : Proposal α} (h : p'.mute = p.mute) (hop : Hop α)
    (target : NodeState α) :
    (p.change hop target).Alike Event.mute ConflictRecord.nodes (p'.change hop target) := by
  obtain ⟨logic, confidence, derivedFrom, partners, spreads, reason⟩ := p
  obtain ⟨logic', confidence', derivedFrom', partners', spreads', reason'⟩ := p'
  simp only [mute, mk.injEq] at h
  obtain ⟨rfl, rfl, rfl, rfl, rfl, -⟩ := h
  refine ⟨rfl, rfl, rfl, ?_⟩
  simp only [change, writtenPartners, Option.map_map, Function.comp_def]

theorem Proposal.Echoes.change? {p p' : Option (Proposal α)} (h : Echoes p p') (config : Config α)
    (hop : Hop α) (target : NodeState α) :
    Option.Rel (Change.Alike Event.mute ConflictRecord.nodes)
      (p.bind fun p => if p.isUnwanted config || p.isQuiet target then Option.none
        else some (p.change hop target))
      (p'.bind fun p => if p.isUnwanted config || p.isQuiet target then Option.none
        else some (p.change hop target)) := by
  rw [Echoes] at h
  cases p with
  | none =>
    rw [Option.map_none, Option.map_eq_none_iff] at h
    subst h
    exact .none
  | some p =>
    rw [Option.map_some, Option.map_eq_some_iff] at h
    obtain ⟨p', rfl, hmute⟩ := h
    -- The filters read a proposal's verdict and confidence, which muting keeps.
    have hunwanted : p'.mute.isUnwanted config = p.mute.isUnwanted config := by rw [hmute]
    have hquiet : p'.mute.isQuiet target = p.mute.isQuiet target := by rw [hmute]
    change p'.isUnwanted config = p.isUnwanted config at hunwanted
    change p'.isQuiet target = p.isQuiet target at hquiet
    simp only [Option.bind_some, hunwanted, hquiet]
    split
    · exact .none
    · exact .some (change_alike hmute hop target)

namespace Setting
variable {s s' : Setting α}

theorem change?_withNodes (hconfig : s'.config = s.config)
    (hedges : s'.graph.edges = s.graph.edges) (hincoming : s'.graph.incoming = s.graph.incoming)
    {R : Node α → Node α → Prop} (hid : ∀ n n', R n n' → n'.id = n.id)
    (hnodes : ∀ id, Option.Rel R (s.graph.nodes.get? id) (s'.graph.nodes.get? id)) (t : Table α)
    (h : Hop α) (r : Relation) :
    Option.Rel (Change.Alike Event.mute ConflictRecord.nodes) (s.change? t (h, .builtin r))
      (s'.change? t (h, .builtin r)) := by
  have hsource := hnodes h.source
  have htarget := hnodes h.target
  simp only [change?, Hop.change?, Hop.evidence?, hconfig, hedges, hincoming]
  generalize s.graph.nodes.get? h.source = sourceNode at hsource ⊢
  generalize s'.graph.nodes.get? h.source = sourceNode' at hsource ⊢
  generalize s.graph.nodes.get? h.target = targetNode at htarget ⊢
  generalize s'.graph.nodes.get? h.target = targetNode' at htarget ⊢
  cases hsource with
  | none => exact .none
  | some hsource =>
  cases htarget with
  | none => exact .none
  | some htarget =>
  rename_i sourceNode sourceNode' targetNode targetNode'
  cases t.get? h.source with
  | none => exact .none
  | some source =>
  cases t.get? h.target with
  | none => exact .none
  | some target =>
  let e : Evidence α := ⟨sourceNode, source, targetNode, target, h.edge, s.graph.nodes,
    s.graph.edges, t, s.graph.incoming, s.config, h.reversed⟩
  let e' := e.withNodes sourceNode' targetNode' s'.graph.nodes
  have hsaid : Proposal.Echoes ((Rule.builtin r).propagate e) ((Rule.builtin r).propagate e') :=
    .ite .none
      (Rule.inference_withNodes s'.graph.nodes (hid _ _ hsource) (hid _ _ htarget) r)
  exact hsaid.change? s.config h target

end Setting

namespace Engine

/-- What nodes look like does not sway inference. With other titles, of other kinds and, where an
override gives verdict and confidence, with other confidences of their own, the same nodes end with
the same states after as many passes, converged or not, with the same cycles, and with the same
events and conflicts but for the reasons that are told. -/
theorem run_resembles {e : Engine α} (hregistry : e.registry = .builtin)
    {overrides : Overrides α} {nodes nodes' : List (Node α)}
    (hnodes : List.Forall₂ (Node.Resembles overrides) nodes nodes') {seeds seeds' : Table α}
    (haccepted : (e.prepare nodes overrides).2 = .ok seeds)
    (haccepted' : (e.prepare nodes' overrides).2 = .ok seeds') (edges : List (Edge α)) :
    ∃ r r', (e.run nodes edges overrides).2 = .ok r ∧ (e.run nodes' edges overrides).2 = .ok r' ∧
      r'.states = r.states ∧ r'.converged = r.converged ∧ r'.iterations = r.iterations ∧
      r'.cycles = r.cycles ∧ r'.events.map Event.mute = r.events.map Event.mute ∧
      r'.conflicts.map ConflictRecord.nodes = r.conflicts.map ConflictRecord.nodes := by
  let s := e.setting (.ofLists nodes edges)
  let s' := e.setting (.ofLists nodes' edges)
  have hconfig : s'.config = s.config := rfl
  have hedges : s'.graph.edges = s.graph.edges := rfl
  have hincoming : s'.graph.incoming = s.graph.incoming := rfl
  obtain ⟨hkeys, hfound⟩ := Snapshot.nodeMap_rel (fun _ _ hn => hn.id) hnodes
  have hseeds := seeds_alike haccepted haccepted' hfound fun _ _ _ _ hn => hn.seed_eq
  have hparallel : s.Parallels Event.mute ConflictRecord.nodes s' :=
    .of_builtin hregistry rfl rfl
      (Setting.change?_withNodes hconfig hedges hincoming (fun _ _ hn => hn.id) hfound)
  obtain ⟨r, r', hrun, hrun', hstates, hevents, hconflicts, hconverged, hiterations⟩ :=
    run_parallel haccepted haccepted' hseeds hparallel
  have hlisted : r'.states.keys = r.states.keys := by
    rw [keys_of_run hrun, keys_of_run hrun', hkeys]
  have hchains : chains (.ofLists nodes' edges) = chains (.ofLists nodes edges) := by
    have hids : (Snapshot.ofLists nodes' edges).ids = (Snapshot.ofLists nodes edges).ids := hkeys
    rw [chains, chains, hids]
    rfl
  refine ⟨r, r', hrun, hrun', OrderedMap.ext_get? hlisted hstates, hconverged, hiterations, ?_,
    hevents, hconflicts⟩
  rw [(run_cycles hrun).2, (run_cycles hrun').2, hchains]

theorem run_resembles_retitled :
    let e : Engine Float := .new .standard .builtin
    let nodes : List (Node Float) := [⟨"a", .fact, "rain", 90.0⟩, ⟨"b", .fact, "picnic", 40.0⟩]
    let nodes' : List (Node Float) := [⟨"a", .goal, "storm", 90.0⟩, ⟨"b", .fact, "stroll", 10.0⟩]
    let overrides : Overrides Float := .ofList [("b", .ok ⟨some .holds, some 85.0, none⟩)]
    let edges : List (Edge Float) := [⟨"ab", "a", "b", "conflicts", 1.0⟩]
    List.Forall₂ (Node.Resembles overrides) nodes nodes' ∧
      ∃ r r', (e.run nodes edges overrides).2 = .ok r ∧
        (e.run nodes' edges overrides).2 = .ok r' ∧
        r.events.map Event.target = ["b", "a"] ∧
        r'.events.map Event.reason ≠ r.events.map Event.reason ∧ r'.states = r.states ∧
        r'.events.map Event.mute = r.events.map Event.mute := by
  intro e nodes nodes' overrides edges
  have hnodes : List.Forall₂ (Node.Resembles overrides) nodes nodes' :=
    .cons ⟨rfl, .inl rfl⟩ (.cons ⟨rfl, .inr ⟨_, rfl, rfl, rfl⟩⟩ .nil)
  obtain ⟨r, r', hrun, hrun', hstates, -, -, -, hevents, -⟩ := run_resembles (e := e) rfl hnodes
    (show (e.prepare nodes overrides).2 = .ok _ from rfl)
    (show (e.prepare nodes' overrides).2 = .ok _ from rfl) edges
  have hcheck : (e.run nodes edges overrides).2.toOption.all
      (fun r => r.events.map Event.target = ["b", "a"]) = true := by decide +kernel
  have hwords : (e.run nodes' edges overrides).2.toOption.map (·.events.map Event.reason) ≠
      (e.run nodes edges overrides).2.toOption.map (·.events.map Event.reason) := by decide +kernel
  rw [hrun] at hcheck hwords
  rw [hrun'] at hwords
  simp only [Except.toOption, Option.all_some, decide_eq_true_eq] at hcheck
  refine ⟨hnodes, r, r', hrun, hrun', hcheck, fun hsame => hwords ?_, hstates, hevents⟩
  exact congrArg some hsame

end Engine
end ReasonGraph
