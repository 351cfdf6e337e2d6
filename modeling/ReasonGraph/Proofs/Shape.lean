import ReasonGraph.Proofs.Moments
import ReasonGraph.Proofs.Admission
import ReasonGraph.Proofs.Precedence

/-! The shape of the state table. Every state is filed under its own id, and only a conflict has
partners, whatever was called before and however it ended. A run that answers leaves one state for
each id of its nodes, in the order in which the ids appear first; each was seeded from the last
node of that id, and since then only the events of the run moved it. -/

namespace ReasonGraph

namespace Snapshot
variable {α : Type}

theorem keys_nodeMap (nodes : List (Node α)) :
    (nodeMap nodes).keys = (nodes.map Node.id).eraseDups := by
  rw [nodeMap, OrderedMap.keys_ofList, List.map_map]
  rfl

theorem nodeMap_get?_last {before after : List (Node α)} {n : Node α}
    (hlast : n.id ∉ after.map Node.id) :
    (nodeMap (before ++ n :: after)).get? n.id = some n := by
  have hkeys : n.id ∉ (after.map fun n => (n.id, n)).map Prod.fst := by
    rwa [List.map_map]
  rw [nodeMap, OrderedMap.ofList, List.map_append, List.foldl_append, List.map_cons,
    List.foldl_cons, OrderedMap.foldl_insert_of_not_mem hkeys, OrderedMap.get?_insert_self]

end Snapshot

/-- Every state is filed under the id of its node, and has partners in a conflict only. -/
def Table.IsShaped {α : Type} (t : Table α) : Prop :=
  ∀ id s, t.get? id = some s → s.nodeId = id ∧ (s.partners ≠ none → s.logic = .conflict)

theorem Table.IsShaped.insert {α : Type} {t : Table α} (ht : t.IsShaped) {id : String}
    {s : NodeState α} (hid : s.nodeId = id) (hpartners : s.partners ≠ none → s.logic = .conflict) :
    Table.IsShaped (t.insert id s) := by
  intro j s' hs'
  rw [OrderedMap.get?_insert] at hs'
  split at hs'
  · rename_i hj
    obtain rfl := Option.some.inj hs'
    exact ⟨hid.trans hj, hpartners⟩
  · exact ht j s' hs'

variable {α η : Type} [Quantity α]

omit [Quantity α] in
theorem Proposal.logic_of_writtenPartners {p : Proposal α} (h : p.writtenPartners ≠ none) :
    p.logic = .conflict := by
  by_contra hlogic
  exact h (if_neg hlogic)

namespace Engine

theorem keeps_isShaped (e : Engine α) (call : Request α η) :
    e.Keeps call fun l => l.states.IsShaped where
  empty _ _ hs := by cases hs
  seeded _ _ _ hl _ hs :=
    hl.insert (Node.seedFrom_nodeId hs) fun h => absurd (Node.seedFrom_partners hs) h
  noted _ _ hl := hl
  asserted _ id s _ hl hs := Table.IsShaped.insert hl (hl id s hs).1 fun h => absurd rfl h
  written s l h c hl hc := by
    obtain ⟨e, p, he, -, -, -, rfl⟩ := Hop.change?_eq_some hc
    have htarget := (Hop.evidence?_shows he).2.1
    exact Table.IsShaped.insert hl (hl _ _ htarget).1 Proposal.logic_of_writtenPartners

theorem obey_config (e : Engine α) (call : Request α η) : (e.obey call).config = e.config := by
  cases call with
  | run guard nodes edges overrides =>
    rw [obey]
    cases hprepare : (e.prepare nodes overrides).2 with
    | error r => rw [runUnder_of_refused hprepare, prepare_config]
    | ok seeds =>
      obtain ⟨read, -, hleft, -⟩ := runUnder_ledger hprepare guard edges
      rw [hleft]
  | prepare nodes overrides => exact e.prepare_config nodes overrides
  | edit guard id v nodes edges =>
    rw [obey, editUnder]
    cases v.text?.bind LogicState.ofName? with
    | none => rfl
    | some logic =>
      rcases e.updateUnder_ledger guard id logic nodes edges with hkept | ⟨-, read, -, hleft⟩
      · simp only [hkept, complete]
      · simp only [hleft]
  | clear => rfl

theorem obeyAll_config (e : Engine α) (calls : List (Request α η)) :
    (e.obeyAll calls).config = e.config := by
  induction calls generalizing e with
  | nil => rfl
  | cons call rest ih => exact (ih (e.obey call)).trans (e.obey_config call)

theorem runUnder_states {e : Engine α} {guard : Guard α η} {nodes : List (Node α)}
    {edges : List (Edge α)} {overrides : Overrides α} {r : Result α}
    (h : (e.runUnder guard nodes edges overrides).2 = .ok r) :
    r.states = (e.runUnder guard nodes edges overrides).1.ledger.states ∧
      r.states.keys = (nodes.map Node.id).eraseDups ∧
      ∃ seeds, (e.prepare nodes overrides).2 = .ok seeds ∧ Audit seeds r.states r.events := by
  obtain ⟨seeds, hseeds⟩ := accepted_of_runUnder h
  obtain ⟨read, -, hleft, hanswer⟩ := runUnder_ledger hseeds guard edges
  obtain ⟨rfl, rfl⟩ := hanswer r h
  rw [Settled.result, Setting.settle_fullPass_ledger, hleft]
  obtain ⟨log, happended, haudited⟩ := (e.setting (.ofLists nodes edges)).after_continues
    (e.start nodes edges overrides)
    (settleTrail (e.setting (.ofLists nodes edges)).fullPass
      (fun _ => (e.setting (.ofLists nodes edges)).hops) guard.cap (e.start nodes edges overrides))
  rw [start_events, List.nil_append] at happended
  rw [start_seeds hseeds] at haudited
  refine ⟨rfl, ?_, seeds, hseeds, ?_⟩
  · rw [Setting.after_keys, start_seeds hseeds, (prepare_isSeeded hseeds).keys,
      Snapshot.map_id_values_nodeMap, Snapshot.keys_nodeMap]
  · rw [happended]
    exact haudited

/-- After any calls, whichever of them were refused or halted and whatever the rules proposed: each
state is filed under the id of its node and has partners in a conflict only. A run that then answers
leaves one state for each id of its nodes, in the order in which the ids appear first. Each state
was seeded from the last node of its id, and differs from that seed by the events of the run. -/
theorem obeyAll_isShaped (config : Config α) (registry : Registry α)
    (calls : List (Request α η)) :
    let e := (new config registry).obeyAll calls
    (∀ id s, (id, s) ∈ e.ledger.states.entries →
      s.nodeId = id ∧ (s.partners ≠ none → s.logic = .conflict)) ∧
    ∀ (guard : Guard α η) nodes edges overrides r,
      (e.runUnder guard nodes edges overrides).2 = .ok r →
      r.states = (e.runUnder guard nodes edges overrides).1.ledger.states ∧
      r.states.keys = (nodes.map Node.id).eraseDups ∧
      ∃ seeds : Table α, Audit seeds r.states r.events ∧ seeds.keys = r.states.keys ∧
        ∀ before n after, nodes = before ++ n :: after → n.id ∉ after.map Node.id →
          ∃ seed, n.seedFrom config overrides = .ok seed ∧ seeds.get? n.id = some seed := by
  intro e
  have hshaped : e.ledger.states.IsShaped :=
    obeyAll_of_keeps (P := fun l => l.states.IsShaped)
      (keeps_isShaped (new config registry) (.clear : Request α η)).empty
      fun e call _ => e.keeps_isShaped call
  refine ⟨fun id s hs => hshaped id s (OrderedMap.get?_of_mem hs), ?_⟩
  intro guard nodes edges overrides r hr
  obtain ⟨hleft, hkeys, seeds, hseeds, haudited⟩ := runUnder_states hr
  have hseedkeys : seeds.keys = r.states.keys := by
    rw [(prepare_isSeeded hseeds).keys, hkeys, Snapshot.map_id_values_nodeMap,
      Snapshot.keys_nodeMap]
  refine ⟨hleft, hkeys, seeds, haudited, hseedkeys, ?_⟩
  rintro before n after rfl hlast
  obtain ⟨seed, hseed, hfrom⟩ := seed_of_node hseeds (Snapshot.nodeMap_get?_last hlast)
  rw [obeyAll_config] at hfrom
  exact ⟨seed, hfrom, hseed⟩

omit [Quantity α] in
theorem exists_ok_of_isSome {answer : Except (Refusal η) (Result α)}
    (h : answer.toOption.isSome = true) : ∃ r, answer = .ok r := by
  cases answer with
  | ok r => exact ⟨r, rfl⟩
  | error _ => cases h

theorem obeyAll_isShaped_twice :
    let nodes : List (Node Rat) :=
      [⟨"a", .fact, "", 10.0⟩, ⟨"b", .fact, "", 85.0⟩, ⟨"a", .fact, "", 90.0⟩]
    let edges : List (Edge Rat) := [⟨"ab", "a", "b", "conflicts", 1.0⟩]
    let calls : List (Request Rat Unit) := [.run (.open 5) nodes edges ∅,
      .edit (.open 5) "a" (.text "false") nodes edges,
      .run ⟨.ok 5, fun _ _ => some ()⟩ nodes edges ∅]
    let e := (new .standard .builtin).obeyAll calls
    ∃ r, (e.runUnder (.open 5 : Guard Rat Unit) nodes edges ∅).2 = .ok r ∧
      r.states.keys = ["a", "b"] ∧
      (r.states.get? "a").map NodeState.partners = some (some ["b"]) ∧
      ∃ seeds : Table Rat, Audit seeds r.states r.events ∧
        (seeds.get? "a").map NodeState.confidence = some 90.0 := by
  intro nodes edges calls e
  have hanswers : (e.runUnder (.open 5 : Guard Rat Unit) nodes edges ∅).2.toOption.isSome =
      true := by
    decide +kernel
  obtain ⟨-, hruns⟩ := obeyAll_isShaped .standard .builtin calls
  obtain ⟨r, hr⟩ := exists_ok_of_isSome hanswers
  obtain ⟨hleft, hkeys, seeds, haudited, -, hlast⟩ := hruns _ nodes edges ∅ r hr
  obtain ⟨seed, hseed, hfound⟩ := hlast [⟨"a", .fact, "", 10.0⟩, ⟨"b", .fact, "", 85.0⟩]
    ⟨"a", .fact, "", 90.0⟩ [] rfl List.not_mem_nil
  refine ⟨r, hr, hkeys, ?_, seeds, haudited, ?_⟩
  · rw [hleft]
    decide +kernel
  · rw [hfound, ← Except.ok.inj hseed]
    rfl

end Engine
end ReasonGraph
