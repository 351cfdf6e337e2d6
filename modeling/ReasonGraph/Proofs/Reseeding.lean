import ReasonGraph.Proofs.Admission
import ReasonGraph.Proofs.Forgetting
import ReasonGraph.Proofs.Grounding
import ReasonGraph.Proofs.Readback
import ReasonGraph.Proofs.Standing

/-! The states of a run as the overrides of another. A state that is given back loses its conflict
partners and nothing else, and without partners no rule finds more to do than with them, so a run
that came to rest is at rest again at once. But a run may leave a verdict that cannot be asserted:
a fact that is unknown, or a conflict at something that is no conclusion. -/

namespace ReasonGraph

theorem NodeKind.admits_eq_false_iff {k : NodeKind} {verdict : LogicState} :
    k.admits verdict = false ↔
      k = .fact ∧ verdict = .unknown ∨ k ≠ .conclusion ∧ verdict = .conflict := by
  cases k <;> cases verdict <;> decide

variable {α : Type}

def NodeState.unpartnered (s : NodeState α) : NodeState α := { s with partners := none }

theorem Table.toOverrides_get? (t : Table α) (id : String) :
    t.toOverrides.get? id = (t.get? id).map fun s => .ok s.toOverride :=
  OrderedMap.get?_ofList_entries_map t (fun s => Except.ok s.toOverride) id

variable [Quantity α]

namespace Setting
variable {s : Setting α} {t t' : Table α} {h : Hop α} {r : Relation}

theorem quiet_unpartnered {nodes : List (Node α)} {edges : List (Edge α)}
    (hg : s.graph = .ofLists nodes edges)
    (ht : ∀ id, t'.get? id = (t.get? id).map NodeState.unpartnered)
    (hquiet : s.change? t (h, .builtin r) = none) : s.change? t' (h, .builtin r) = none := by
  have hlogic : ∀ id, (t'.get? id).map NodeState.logic = (t.get? id).map NodeState.logic := by
    intro id
    rw [ht, Option.map_map]
    rfl
  refine quiet_of_drops hg (fun _ => Table.achievedOtherwise_of_logic hlogic edges h) ?_ ?_ hquiet
  · rw [ht]
    exact NodeState.rel_map (fun s => .intro (List.nil_subset _)) _
  · rw [ht]
    exact NodeState.rel_map (fun s => .intro (List.Subset.refl _)) _

theorem after_nodeId {hops : List (Hop α × Rule α)} {l : Ledger α}
    (hl : ∀ id state, l.states.get? id = some state → state.nodeId = id) :
    ∀ id state, (s.after l hops).states.get? id = some state → state.nodeId = id := by
  refine s.after_induction (P := fun now => ∀ id state, now.states.get? id = some state →
    state.nodeId = id) (fun now h _ c hnow hc id state hstate => ?_) hl
  obtain ⟨e, p, he, -, -, -, rfl⟩ := Hop.change?_eq_some hc
  rw [Ledger.write_get?] at hstate
  split at hstate
  · rename_i htarget
    cases hstate
    obtain ⟨-, hb, -⟩ := Hop.evidence?_shows he
    exact (hnow _ _ hb).trans htarget
  · exact hnow id state hstate

def Turned (s : Setting α) (log : List (Event α)) (id : String) (verdict : LogicState) : Prop :=
  ∃ t, ∃ h ∈ s.hops, ∃ c, s.change? t h = some c ∧ c.event ∈ log ∧ c.event.target = id ∧
    c.event.oldLogic ≠ verdict ∧ c.event.newLogic = verdict

theorem Turned.mono {log log' : List (Event α)} {id : String} {verdict : LogicState}
    (hturned : s.Turned log id verdict) (hlog : log ⊆ log') : s.Turned log' id verdict := by
  obtain ⟨t, h, hh, c, hc, hevent, hrest⟩ := hturned
  exact ⟨t, h, hh, c, hc, hlog hevent, hrest⟩

theorem after_turned {hops : List (Hop α × Rule α)} (hhops : ∀ h ∈ hops, h ∈ s.hops)
    {l : Ledger α} {id : String} {state : NodeState α}
    (hstate : (s.after l hops).states.get? id = some state) :
    (∃ before, l.states.get? id = some before ∧ before.logic = state.logic) ∨
      s.Turned (s.after l hops).events id state.logic := by
  refine s.after_induction (P := fun now => ∀ id state, now.states.get? id = some state →
    (∃ before, l.states.get? id = some before ∧ before.logic = state.logic) ∨
      s.Turned now.events id state.logic)
    (fun now h hh c hnow hc id state hstate => ?_) (fun _ state h => .inl ⟨state, h, rfl⟩)
    id state hstate
  have hlater : now.events ⊆ (now.write c).events := List.subset_append_left _ _
  obtain ⟨e, p, he, -, -, -, rfl⟩ := Hop.change?_eq_some hc
  rw [Ledger.write_get?] at hstate
  split at hstate
  · rename_i htarget
    cases hstate
    by_cases hstood : e.target.logic = p.logic
    · -- the verdict stood, so the event that counts is an earlier one
      obtain ⟨-, hb, -⟩ := Hop.evidence?_shows he
      have hsame : (p.change h.1 e.target).entry.logic = e.target.logic := hstood.symm
      rw [← htarget, hsame]
      exact (hnow _ _ hb).imp_right fun hturned => hturned.mono hlater
    · exact .inr ⟨now.states, h, hhops h hh, _, hc, by simp, htarget, hstood, rfl⟩
  · exact (hnow id state hstate).imp_right fun hturned => hturned.mono hlater

theorem achieves_of_unknown (hregistry : s.registry = .builtin) {h : Hop α × Rule α}
    (hh : h ∈ s.hops) {c : Change α} (hc : s.change? t h = some c)
    (hold : c.event.oldLogic ≠ .unknown) (hnew : c.event.newLogic = .unknown) :
    c.event.relation = Relation.achieves.name := by
  obtain ⟨r, hrule, hrel⟩ := rule_of_mem_hops hregistry hh
  obtain ⟨e, p, he, hp, -, -, rfl⟩ := Hop.change?_eq_some hc
  rw [hrule] at hp
  have hwarrants := Rule.inference_warrants (floored_eq_some hp).2
  have hverdict : p.logic = .unknown := hnew
  generalize p.logic = verdict at hwarrants hverdict
  cases hwarrants with
  | kept => exact absurd hverdict hold
  | withdrawn _ hway => exact hway ▸ hrel
  | _ => cases hverdict

end Setting

namespace Engine
variable {e e' : Engine α} {nodes : List (Node α)} {edges : List (Edge α)}
  {overrides : Overrides α} {r : Result α}

theorem run_nodeId (hrun : (e.run nodes edges overrides).2 = .ok r) {id : String}
    {state : NodeState α} (hstate : r.states.get? id = some state) : state.nodeId = id := by
  obtain ⟨seeds, haccepted⟩ := accepted_of_run hrun
  rw [(run_result hrun).1, run_eq_after haccepted] at hstate
  refine Setting.after_nodeId (fun id state hstate => ?_) id state hstate
  rw [start_states, prepare_states] at hstate
  refine Table.seed_induction (P := fun t => ∀ id state, t.get? id = some state →
    state.nodeId = id) (fun t n _ seed ht hseed id state hstate => ?_)
    (fun _ _ h => by cases h) id state hstate
  rw [OrderedMap.get?_insert] at hstate
  split at hstate
  · rename_i hid
    cases hstate
    exact (Node.seedFrom_nodeId hseed).trans hid
  · exact ht id state hstate

theorem run_get? (hrun : (e.run nodes edges overrides).2 = .ok r) {n : Node α}
    (hn : n ∈ (Snapshot.nodeMap nodes).values) : ∃ state, r.states.get? n.id = some state := by
  have hid : n.id ∈ nodes.map Node.id := List.mem_map_of_mem (Snapshot.mem_values_nodeMap hn)
  exact OrderedMap.mem_keys_iff.1 ((mem_keys_run hrun).2 hid)

theorem seedFrom_toOverrides_eq_error_iff {config : Config α} {t : Table α} {n : Node α}
    {state : NodeState α} (hstate : t.get? n.id = some state) {x : Rejection} :
    n.seedFrom config t.toOverrides = .error x ↔ config.checksKinds = true ∧
      n.kind.admits state.logic = false ∧
        x = .notAdmitted (.initial n.id) n.kind n.id state.logic := by
  rw [Node.seedFrom_eq_error_iff, Table.toOverrides_get?, hstate]
  simp [NodeState.toOverride]

theorem seedFrom_toOverrides_ok_iff {config : Config α} {t : Table α} {n : Node α}
    {state : NodeState α} (hstate : t.get? n.id = some state) :
    (∃ seed, n.seedFrom config t.toOverrides = .ok seed) ↔
      (config.checksKinds = true → n.kind.admits state.logic = true) := by
  cases hseed : n.seedFrom config t.toOverrides with
  | error x =>
    obtain ⟨hchecks, hnot, -⟩ := (seedFrom_toOverrides_eq_error_iff hstate).1 hseed
    simp [hchecks, hnot]
  | ok seed =>
    refine ⟨fun _ hchecks => ?_, fun _ => ⟨seed, rfl⟩⟩
    by_contra hnot
    have hrefused := (seedFrom_toOverrides_eq_error_iff hstate).2
      ⟨hchecks, Bool.eq_false_iff.2 hnot, rfl⟩
    rw [hseed] at hrefused
    cases hrefused

theorem seedFrom_toOverrides_eq_ok {config : Config α} {t : Table α} {n : Node α}
    {state seed : NodeState α} (hstate : t.get? n.id = some state) (hid : state.nodeId = n.id)
    (h : n.seedFrom config t.toOverrides = .ok seed) : seed = state.unpartnered := by
  rw [Node.seedFrom, Table.toOverrides_get?, hstate] at h
  rw [Node.seed_eq_ok h, ← hid]
  rfl

theorem prepare_toOverrides (hrun : (e.run nodes edges overrides).2 = .ok r) {seeds : Table α}
    (haccepted : (e'.prepare nodes r.states.toOverrides).2 = .ok seeds) (id : String) :
    seeds.get? id = (r.states.get? id).map NodeState.unpartnered := by
  have hseeded := prepare_isSeeded haccepted
  by_cases hid : id ∈ (Snapshot.nodeMap nodes).keys
  · rw [← Snapshot.map_id_values_nodeMap] at hid
    obtain ⟨n, hn, rfl⟩ := List.mem_map.1 hid
    obtain ⟨state, hstate⟩ := run_get? hrun hn
    obtain ⟨seed, hseed, hfrom⟩ := hseeded.get? hn
    rw [hstate, hseed, seedFrom_toOverrides_eq_ok hstate (run_nodeId hrun hstate) hfrom]
    rfl
  · have hseeds : seeds.get? id = none := by
      rw [OrderedMap.get?_eq_none_iff, hseeded.keys, Snapshot.map_id_values_nodeMap]
      exact hid
    have hstates : r.states.get? id = none := by
      rw [OrderedMap.get?_eq_none_iff, mem_keys_run hrun, ← Snapshot.mem_keys_nodeMap]
      exact hid
    rw [hseeds, hstates]
    rfl

theorem run_turned (hrun : (e.run nodes edges ∅).2 = .ok r) {n : Node α}
    (hn : n ∈ (Snapshot.nodeMap nodes).values) {state : NodeState α}
    (hstate : r.states.get? n.id = some state) :
    LogicState.infer n.confidence = state.logic ∨
      (e.setting (.ofLists nodes edges)).Turned r.events n.id state.logic := by
  obtain ⟨seeds, haccepted⟩ := accepted_of_run hrun
  obtain ⟨hstates, hevents⟩ := run_result hrun
  rw [hstates, run_eq_after haccepted] at hstate
  rw [hevents, run_eq_after haccepted]
  refine (Setting.after_turned (fun h hh => mem_hops_of_mem_runTrail hh) hstate).imp_left fun ⟨before, hbefore, hsame⟩ => ?_
  rw [start_seeds haccepted] at hbefore
  obtain ⟨seed, hseed, hfrom⟩ := (prepare_isSeeded haccepted).get? hn
  obtain rfl := Option.some.inj (hbefore.symm.trans hseed)
  cases hfrom
  exact hsame

/-- The states of a run as overrides of another under the same configuration. They are accepted just
if no fact ended unknown and nothing but conclusions in conflict, or kinds are not checked, and a
refusal names such a node. In a run of its own such a fact was seeded unknown or lost an
achievement, and such a conflict is the run's own finding. -/
theorem run_accepts_result_iff (hregistry : e.registry = .builtin) (hconfig : e'.config = e.config)
    (hrun : (e.run nodes edges ∅).2 = .ok r) :
    ((∃ again, (e'.run nodes edges r.states.toOverrides).2 = .ok again) ↔
      (e.config.checksKinds = true → ∀ n ∈ (Snapshot.nodeMap nodes).values, ∀ state,
        r.states.get? n.id = some state → n.kind.admits state.logic = true)) ∧
    (∀ x, (e'.run nodes edges r.states.toOverrides).2 = .error x →
      ∃ n ∈ (Snapshot.nodeMap nodes).values, ∃ state, r.states.get? n.id = some state ∧
        n.kind.admits state.logic = false ∧
        x = .notAdmitted (.initial n.id) n.kind n.id state.logic) ∧
    (∀ n ∈ (Snapshot.nodeMap nodes).values, ∀ state, r.states.get? n.id = some state →
      n.kind.admits state.logic = false →
      n.kind = .fact ∧ state.logic = .unknown ∧ (LogicState.infer n.confidence = .unknown ∨
        ∃ event ∈ r.events, event.target = n.id ∧ event.newLogic = .unknown ∧
          event.relation = Relation.achieves.name) ∨
      n.kind ≠ .conclusion ∧ state.logic = .conflict ∧
        ∃ event ∈ r.events, event.target = n.id ∧ event.newLogic = .conflict) := by
  refine ⟨?_, fun x hx => ?_, fun n hn state hstate hrefused => ?_⟩
  · rw [run_accepted_iff, hconfig]
    constructor
    · intro haccepted hchecks n hn state hstate
      exact (seedFrom_toOverrides_ok_iff hstate).1 (haccepted n hn) hchecks
    · intro hadmits n hn
      obtain ⟨state, hstate⟩ := run_get? hrun hn
      exact (seedFrom_toOverrides_ok_iff hstate).2 fun hchecks => hadmits hchecks n hn state hstate
  · obtain ⟨before, n, after, hsplit, -, hrefused⟩ := refused_at ((run_eq_error_iff edges).1 hx)
    have hn : n ∈ (Snapshot.nodeMap nodes).values := by simp [hsplit]
    obtain ⟨state, hstate⟩ := run_get? hrun hn
    obtain ⟨-, hnot, hwhy⟩ := (seedFrom_toOverrides_eq_error_iff hstate).1 hrefused
    exact ⟨n, hn, state, hstate, hnot, hwhy⟩
  · have hturned := run_turned hrun hn hstate
    rcases NodeKind.admits_eq_false_iff.1 hrefused with ⟨hfact, hunknown⟩ | ⟨hkind, hconflict⟩
    · refine .inl ⟨hfact, hunknown, ?_⟩
      rw [hunknown] at hturned
      rcases hturned with hseed | ⟨t, h, hh, c, hc, hevent, htarget, hold, hnew⟩
      · exact .inl hseed
      · exact .inr ⟨c.event, hevent, htarget, hnew,
          Setting.achieves_of_unknown hregistry hh hc hold hnew⟩
    · refine .inr ⟨hkind, hconflict, ?_⟩
      rw [hconflict] at hturned
      rcases hturned with hseed | ⟨_, _, _, c, _, hevent, htarget, _, hnew⟩
      · exact absurd hseed (LogicState.infer_ne_conflict _)
      · exact ⟨c.event, hevent, htarget, hnew⟩

theorem run_accepts_result_iff_rain :
    let e : Engine Float := .new .standard .builtin
    let nodes : List (Node Float) := [⟨"rain", .fact, "", 90.0⟩, ⟨"wet", .goal, "", 50.0⟩]
    let edges : List (Edge Float) := [⟨"rw", "rain", "wet", "causes", 1.0⟩]
    ∃ r, (e.run nodes edges ∅).2 = .ok r ∧ r.events.length = 1 ∧
      ∃ again, (e.run nodes edges r.states.toOverrides).2 = .ok again := by
  intro e nodes edges
  obtain ⟨r, hrun⟩ : ∃ r, (e.run nodes edges ∅).2 = .ok r := ⟨_, rfl⟩
  have hholds : ∀ entry ∈ r.states.entries, entry.2.logic = .holds := by
    cases hrun
    decide +kernel
  have hadmits : ∀ n ∈ (Snapshot.nodeMap nodes).values, ∀ state,
      r.states.get? n.id = some state → n.kind.admits state.logic = true := by
    intro n _ state hstate
    rw [hholds _ (OrderedMap.mem_of_find hstate)]
    exact n.kind.admits_of_holds
  refine ⟨r, hrun, ?_, (run_accepts_result_iff rfl rfl hrun).1.2 fun _ => hadmits⟩
  cases hrun
  decide +kernel

/-- So the states of a run are not always accepted as overrides: a fact of middling confidence is
seeded unknown, two facts that exclude each other end in conflict, and neither is taken back. -/
theorem result_not_accepted :
    let e : Engine Float := .new .standard .builtin
    let doubtful : List (Node Float) := [⟨"a", .fact, "", 50.0⟩]
    let certain : List (Node Float) := [⟨"a", .fact, "", 90.0⟩, ⟨"b", .fact, "", 85.0⟩]
    let edges : List (Edge Float) := [⟨"ab", "a", "b", "conflicts", 1.0⟩]
    (∃ r, (e.run doubtful [] ∅).2 = .ok r ∧
      ∃ x, (e.run doubtful [] r.states.toOverrides).2 = .error x ∧
        x.message = "initial_states[a]: fact node 'a' cannot be set to unknown") ∧
    ∃ r, (e.run certain edges ∅).2 = .ok r ∧
      ∃ x, (e.run certain edges r.states.toOverrides).2 = .error x ∧
        x.message = "initial_states[a]: fact node 'a' cannot be set to conflict" := by
  intro e doubtful certain edges
  have hrefused : ∀ (answer : Except Rejection (Result Float)) (message : String),
      (match answer with | .ok _ => "" | .error x => x.message) = message → message ≠ "" →
        ∃ x, answer = .error x ∧ x.message = message := by
    rintro (x | r) message hmessage hne
    · exact ⟨x, rfl, hmessage⟩
    · exact absurd hmessage.symm hne
  exact ⟨⟨_, rfl, hrefused _ _ (by decide +kernel) (by decide)⟩,
    _, rfl, hrefused _ _ (by decide +kernel) (by decide)⟩

/-- Given back the states of a run that came to rest, as they are or written out, a run under the
same configuration is at rest at once, unless they are refused: it makes one pass without an event
or a conflict and leaves every state as it was, but for the partners, which are gone. -/
theorem reseeded_run_rests {e e' : Engine Float} {nodes : List (Node Float)}
    {edges : List (Edge Float)} {overrides given : Overrides Float} {r again : Result Float}
    (hregistry : e.registry = .builtin) (hregistry' : e'.registry = .builtin)
    (hconfig : e'.config = e.config) (hrange : Node.InRange nodes overrides)
    (hrun : (e.run nodes edges overrides).2 = .ok r) (hconverged : r.converged = true)
    (hgiven : given = r.states.toOverrides ∨ ∃ write, Schema.Writes write ∧ given =
      Schema.overrides (r.states.entries.map fun entry => (entry.1, write entry.2)))
    (hagain : (e'.run nodes edges given).2 = .ok again) :
    again.events = [] ∧ again.conflicts = [] ∧ again.converged = true ∧ again.iterations = 1 ∧
      again.cycles = r.cycles ∧
      ∀ id, again.states.get? id = (r.states.get? id).map NodeState.unpartnered := by
  have hinRange : r.states.InRange := by
    rw [(run_result hrun).1]
    exact e.run_inRange edges hrange
  obtain rfl : given = r.states.toOverrides := by
    rcases hgiven with h | ⟨write, hwrite, h⟩
    · exact h
    · exact h.trans (Schema.overrides_of_writes hwrite hinRange)
  obtain ⟨seeds, hseeds⟩ := accepted_of_run hagain
  have hsetting : e'.setting (.ofLists nodes edges) = e.setting (.ofLists nodes edges) := by
    rw [setting, setting, hconfig, hregistry, hregistry']
  let l := e'.start nodes edges r.states.toOverrides
  have hstates : ∀ id, l.states.get? id = (r.states.get? id).map NodeState.unpartnered := by
    rw [start_states, prepare_given hseeds]
    exact prepare_toOverrides hrun hseeds
  have hquiet : ∀ h ∈ (e.setting (.ofLists nodes edges)).hops,
      (e.setting (.ofLists nodes edges)).change? l.states h = none := by
    intro h hh
    obtain ⟨relation, hrule, -⟩ := Setting.rule_of_mem_hops hregistry hh
    have hbefore := run_quiet hrun hconverged hh
    rw [show h = (h.1, .builtin relation) from Prod.ext rfl hrule] at hbefore ⊢
    exact Setting.quiet_unpartnered rfl hstates hbefore
  have hsettled : settle (e.setting (.ofLists nodes edges)).fullPass e.config.passes l =
      ⟨l, true, 1⟩ :=
    settle_of_quiet (passes_pos hrun hconverged) (Setting.fullPass_of_quiet hquiet)
  have hcycles : again.cycles = r.cycles := by
    rw [(run_cycles hrun).2, (run_cycles hagain).2, hconfig]
  rw [run_of_accepted hseeds] at hagain
  obtain rfl := Except.ok.inj hagain
  simp only [hsetting, hconfig] at hcycles ⊢
  rw [hsettled] at hcycles ⊢
  exact ⟨(noteCycles_events _ _).trans (prepare_events _ _ _), start_conflicts _ _ _ _, rfl, rfl,
    hcycles, hstates⟩

theorem reseeded_run_rests_conflict :
    let e : Engine Float := .new .standard .builtin
    let nodes : List (Node Float) :=
      [⟨"a", .conclusion, "", 90.0⟩, ⟨"b", .conclusion, "", 85.0⟩, ⟨"c", .conclusion, "", 50.0⟩]
    let edges : List (Edge Float) :=
      [⟨"ab", "a", "b", "conflicts", 1.0⟩, ⟨"ac", "a", "c", "depends", 1.0⟩]
    ∃ r again, (e.run nodes edges ∅).2 = .ok r ∧ r.events.length = 3 ∧
      r.states.values.map NodeState.partners = [some ["b"], some ["a"], some ["b"]] ∧
      (e.run nodes edges (Schema.overrides
        (r.states.entries.map fun entry => (entry.1, Schema.dump entry.2)))).2 = .ok again ∧
      again.events = [] ∧ again.iterations = 1 ∧
      ∀ id, again.states.get? id = (r.states.get? id).map NodeState.unpartnered := by
  intro e nodes edges
  have hrange : Node.InRange nodes ∅ := ⟨by decide +kernel, fun _ _ _ h => by cases h⟩
  let dumped := fun r : Result Float =>
    Schema.overrides (r.states.entries.map fun entry => (entry.1, Schema.dump entry.2))
  have hcheck : (e.run nodes edges ∅).2.toOption.any (fun r => r.converged = true ∧
      r.events.length = 3 ∧ r.states.values.map NodeState.partners = [some ["b"], some ["a"],
        some ["b"]] ∧ (e.run nodes edges (dumped r)).2.isOk = true) = true := by
    decide +kernel
  cases hrun : (e.run nodes edges ∅).2 with
  | error x =>
    rw [hrun] at hcheck
    cases hcheck
  | ok r =>
    rw [hrun] at hcheck
    obtain ⟨hconverged, hevents, hpartners, hanswers⟩ := of_decide_eq_true hcheck
    cases hagain : (e.run nodes edges (dumped r)).2 with
    | error x =>
      rw [hagain] at hanswers
      cases hanswers
    | ok again =>
      obtain ⟨hnone, -, -, hiterations, -, hstates⟩ :=
        reseeded_run_rests rfl rfl rfl hrange hrun hconverged
          (.inr ⟨_, Schema.writes_dump, rfl⟩) hagain
      exact ⟨r, again, rfl, hevents, hpartners, hagain, hnone, hiterations, hstates⟩

end Engine
end ReasonGraph
