import ReasonGraph.Proofs.Stickiness

/-! What entitles an event to its place in the log. Rules may be registered that nobody knows, but as
long as none of them hears a source below the floor, every event of a call is made by an edge of the
snapshot and a rule that is registered for it, between two nodes, out of a source that was confident
enough at that moment, and it changes its target for real. -/

namespace ReasonGraph
variable {α : Type} [Quantity α]

def Rule.IsFloored (r : Rule α) : Prop := ∃ infer, r.propagate = floored infer

theorem Rule.isFloored_builtin (r : Relation) : (Rule.builtin r : Rule α).IsFloored := ⟨_, rfl⟩

/-- The snapshot and the registry entitle the event to be logged where the nodes have these readings.
Its edge is one of the snapshot, with a rule for its relation, and is read backwards only if the rule
reads both ways. Both ends are nodes, the source is not below the floor, and the event moves the
verdict or moves the confidence by 1 or more. -/
structure Event.IsLicensed (ev : Event α) (registry : Registry α) (floor : α)
    (nodes : List (Node α)) (edges : List (Edge α)) (readings : String → Option (Reading α)) :
    Prop where
  edge : ∃ edge ∈ edges, edge.id = ev.edge ∧ edge.relation = ev.relation ∧
    (ev.source, ev.target) =
      (if ev.reversed then (edge.target, edge.source) else (edge.source, edge.target)) ∧
    ∃ rule, registry.get? edge.relation = some rule ∧
      (ev.reversed = true → rule.bidirectional = true)
  ends : ev.source ∈ nodes.map Node.id ∧ ev.target ∈ nodes.map Node.id
  heard : ∃ source, readings ev.source = some source ∧ ¬source.confidence < floor
  real : ev.newLogic ≠ ev.oldLogic ∨ ¬Quantity.gap ev.oldConfidence ev.newConfidence < 1.0

def IsLicensedLog (registry : Registry α) (floor : α) (nodes : List (Node α))
    (edges : List (Edge α)) (readings : String → Option (Reading α)) (log : List (Event α)) : Prop :=
  ∀ earlier ev later, log = earlier ++ ev :: later →
    ev.IsLicensed registry floor nodes edges (replay readings earlier)

namespace Setting
variable {s : Setting α} {nodes : List (Node α)} {edges : List (Edge α)}
  (hg : s.graph = .ofLists nodes edges)
  (hfloored : ∀ tag rule, s.registry.get? tag = some rule → rule.IsFloored)
include hg hfloored

theorem change?_licensed {h : Hop α × Rule α} (hh : h ∈ s.hops) {t : Table α} {c : Change α}
    (hc : s.change? t h = some c) :
    c.event.IsLicensed s.registry s.config.floor nodes edges t.readings := by
  obtain ⟨hedge, hrule, hmutual⟩ := mem_hops.1 hh
  obtain ⟨infer, hpropagate⟩ := hfloored _ _ hrule
  have hends := ends_of_change hg hc
  obtain ⟨e, p, he, hp, -, hloud, rfl⟩ := Hop.change?_eq_some hc
  obtain ⟨hsource, -, hconfig, -⟩ := Hop.evidence?_shows he
  rw [hpropagate] at hp
  have hheard := (floored_eq_some hp).1
  rw [hg] at hedge
  constructor
  · refine ⟨h.1.edge, hedge, rfl, rfl, ?_, h.2, hrule, hmutual⟩
    change (h.1.source, h.1.target) = if h.1.reversed then _ else _
    unfold Hop.source Hop.target
    split <;> rfl
  · exact hends
  · refine ⟨e.source.reading, ?_, hconfig ▸ hheard⟩
    change (t.get? h.1.source).map _ = _
    rw [hsource]
    rfl
  · change p.logic ≠ e.target.logic ∨
      ¬Quantity.gap e.target.confidence (Quantity.clamp p.confidence) < 1.0
    by_cases hlogic : p.logic = e.target.logic
    · right
      simpa [Proposal.isQuiet, hlogic] using hloud
    · exact .inl hlogic

theorem after_licensed {hops : List (Hop α × Rule α)} (hhops : ∀ h ∈ hops, h ∈ s.hops)
    (l : Ledger α) : ∃ log, (s.after l hops).events = l.events ++ log ∧
      IsLicensedLog s.registry s.config.floor nodes edges l.states.readings log := by
  obtain ⟨log, hlog⟩ := s.after_continues l hops
  refine ⟨log, hlog.appended, ?_⟩
  rintro earlier ev later rfl
  obtain ⟨read, h, c, hh, hreplayed, hc, rfl⟩ := moment_of_event hlog.appended
  rw [hreplayed]
  exact change?_licensed hg hfloored (hhops h hh) hc

end Setting

namespace Engine
variable {e : Engine α} (hfloored : ∀ tag rule, e.registry.get? tag = some rule → rule.IsFloored)
  (nodes : List (Node α)) (edges : List (Edge α))
include hfloored

theorem run_licensed (overrides : Overrides α) :
    IsLicensedLog e.registry e.config.floor nodes edges
      (e.prepare nodes overrides).1.ledger.states.readings
      (e.run nodes edges overrides).1.ledger.events := by
  cases hprepared : (e.prepare nodes overrides).2 with
  | error r =>
    rw [run_of_refused hprepared, prepare_events]
    intro earlier ev later hsplit
    simp at hsplit
  | ok seeds =>
    obtain ⟨log, hlog, hlicensed⟩ := Setting.after_licensed
      (s := e.setting (.ofLists nodes edges)) rfl hfloored
      (fun h (hh : h ∈ e.runTrail nodes edges overrides) => mem_hops_of_mem_runTrail hh)
      (e.start nodes edges overrides)
    rw [start_events, List.nil_append] at hlog
    rw [start_states] at hlicensed
    rw [run_eq_after hprepared, hlog]
    exact hlicensed

theorem update_licensed (id : String) (logic : LogicState) :
    ∃ log, (e.update id logic nodes edges).1.ledger.events = e.ledger.events ++ log ∧
      IsLicensedLog e.registry e.config.floor nodes edges
        (e.opening id logic nodes).states.readings log := by
  obtain ⟨hops, hhops, hledger⟩ := e.update_eq_after id logic nodes edges
  obtain ⟨log, hlog, hlicensed⟩ :=
    Setting.after_licensed rfl hfloored hhops (e.opening id logic nodes)
  rw [opening_events, ← hledger] at hlog
  exact ⟨log, hlog, hlicensed⟩

/-- Whatever floored rules are registered, every event that a call appends is licensed by the snapshot
and by the events of the call before it, counted from the seeded or the edited table. What a call
answers with shows the log. -/
theorem calls_licensed :
    (∀ overrides,
      let call := e.run nodes edges overrides
      IsLicensedLog e.registry e.config.floor nodes edges
          (e.prepare nodes overrides).1.ledger.states.readings call.1.ledger.events ∧
        ∀ r, call.2 = .ok r → r.events = call.1.ledger.events) ∧
    ∀ id logic,
      let call := e.update id logic nodes edges
      (∃ log, call.1.ledger.events = e.ledger.events ++ log ∧
        IsLicensedLog e.registry e.config.floor nodes edges
          (e.opening id logic nodes).states.readings log) ∧
        ∀ r, call.2 = .ok r → r.events = call.1.ledger.events := by
  constructor
  · intro overrides call
    exact ⟨run_licensed hfloored nodes edges overrides, fun _ hr => (run_result hr).2⟩
  · intro id logic call
    exact ⟨update_licensed hfloored nodes edges id logic, fun _ hr => (update_result hr).2⟩

omit hfloored in
theorem calls_licensed_echo :
    let echo : Rule Float :=
      { Rule.builtin .causes with
        relation := .text "echoes"
        propagate := floored fun e =>
          if e.source.logic = .holds then e.propose .holds e.source.confidence "echoed" else none }
    let e : Engine Float := .new { Config.standard with floor := 20.0 } (Registry.builtin.insert echo)
    let nodes : List (Node Float) :=
      [⟨"a", .goal, "", 90.0⟩, ⟨"b", .goal, "", 50.0⟩, ⟨"c", .goal, "", 10.0⟩]
    let edges : List (Edge Float) :=
      [⟨"ba", "b", "a", "echoes", 1.0⟩, ⟨"cb", "c", "b", "supports", 1.0⟩]
    (∃ r, (e.run nodes edges ∅).2 = .ok r ∧ r.events.map Event.reversed = [true] ∧
      IsLicensedLog e.registry 20.0 nodes edges (e.prepare nodes ∅).1.ledger.states.readings
        r.events) ∧
    ∃ r, (e.update "b" .holds nodes edges).2 = .ok r ∧ r.events.map Event.reversed = [false] ∧
      IsLicensedLog e.registry 20.0 nodes edges (e.opening "b" .holds nodes).states.readings
        r.events := by
  intro echo e nodes edges
  have hfloored : ∀ tag rule, e.registry.get? tag = some rule → rule.IsFloored := by
    intro tag rule hrule
    have hfound : (Registry.builtin.insert echo).get? tag = some rule := hrule
    rw [Registry.get?_insert] at hfound
    split at hfound
    · cases hfound
      exact ⟨_, rfl⟩
    · obtain ⟨r, -, rfl⟩ := Registry.get?_builtin.1 hfound
      exact Rule.isFloored_builtin r
  obtain ⟨hruns, hupdates⟩ := calls_licensed hfloored nodes edges
  obtain ⟨hlicensed, hresult⟩ := hruns ∅
  obtain ⟨⟨log, hlog, hedited⟩, hshown⟩ := hupdates "b" .holds
  constructor
  · rw [← hresult _ rfl] at hlicensed
    exact ⟨_, rfl, by decide +kernel, hlicensed⟩
  · obtain ⟨r, hr, hevents⟩ : ∃ r, (e.update "b" .holds nodes edges).2 = .ok r ∧
        r.events.map Event.reversed = [false] := ⟨_, rfl, by decide +kernel⟩
    have hsame : r.events = log := (hshown r hr).trans hlog
    exact ⟨r, hr, hevents, hsame ▸ hedited⟩

end Engine
end ReasonGraph
