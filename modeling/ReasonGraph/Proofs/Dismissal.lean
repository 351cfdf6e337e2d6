import ReasonGraph.Proofs.Admission
import ReasonGraph.Engine.Guard

/-! Edits that come to nothing. What is no verdict is refused before anything is looked at. Otherwise
the nodes that have no state are seeded first; then an id that names no node ends the call with an
answer, and a verdict that the kind of the node does not admit refuses it. In none of these cases is
a pass made, so what the engine held stays as it was. -/

namespace ReasonGraph
variable {α η : Type} [Quantity α]

namespace Table

/-- The entries that a table lacks of some nodes: the seed of every node that has no state. -/
def missing (t : Table α) (ns : List (Node α)) : List (String × NodeState α) :=
  (ns.filter fun n => !t.contains n.id).map fun n => (n.id, n.staticSeed)

theorem entries_complete (t : Table α) {ns : List (Node α)} (hns : (ns.map Node.id).Nodup) :
    (t.complete ns).entries = t.entries ++ t.missing ns := by
  unfold Table.complete
  induction ns generalizing t with
  | nil => simp [missing]
  | cons n rest ih =>
    obtain ⟨hfirst, hrest⟩ := List.nodup_cons.1 hns
    rw [List.foldl_cons, ih _ hrest]
    by_cases held : t.contains n.id = true
    · rw [if_pos held]
      simp [missing, held]
    · have hnew : n.id ∉ t.keys := fun hmem => held ((OrderedMap.contains_iff t n.id).2 hmem)
      -- the new entry is not that of a later node
      have hlater : ∀ n' ∈ rest, (t.insert n.id n.staticSeed).contains n'.id = t.contains n'.id := by
        intro n' hn'
        have hne : n.id ≠ n'.id := fun heq => hfirst (heq ▸ List.mem_map_of_mem hn')
        rw [OrderedMap.contains, OrderedMap.get?_insert, if_neg hne, OrderedMap.contains]
      rw [if_neg held, OrderedMap.entries_insert hnew, List.append_assoc, missing, missing,
        List.filter_cons, if_pos (by simp [held]), List.map_cons,
        List.filter_congr fun n' hn' => by rw [hlater n' hn']]
      rfl

end Table

namespace Engine

theorem complete_entries (e : Engine α) (nodes : List (Node α)) :
    (e.complete nodes).ledger.states.entries =
      e.ledger.states.entries ++ e.ledger.states.missing (Snapshot.nodeMap nodes).values := by
  refine Table.entries_complete _ ?_
  rw [Snapshot.map_id_values_nodeMap]
  exact (Snapshot.nodeMap nodes).nodup_keys

/-- The ways in which an edit comes to nothing: what it leaves then, and what it answers. -/
inductive TurnsAway (e : Engine α) (id : String) (v : Value) (nodes : List (Node α)) :
    Engine α → Except Rejection (Result α) → Prop
  | unread (hunread : v.text?.bind LogicState.ofName? = none) :
    TurnsAway e id v nodes e (.error (.notAVerdict v))
  | absent {logic : LogicState} (hread : v.text?.bind LogicState.ofName? = some logic)
    (habsent : (Snapshot.nodeMap nodes).get? id = none) :
    TurnsAway e id v nodes (e.complete nodes)
      (.ok (Settled.mk (e.complete nodes).ledger true 0).result)
  | refused {logic : LogicState} {n : Node α}
    (hread : v.text?.bind LogicState.ofName? = some logic)
    (hnode : (Snapshot.nodeMap nodes).get? id = some n) (hchecks : e.config.checksKinds = true)
    (hkind : n.kind.admits logic = false) :
    TurnsAway e id v nodes (e.complete nodes) (.error (.notAdmitted .edit n.kind n.id logic))

variable {e : Engine α} {id : String} {v : Value} {nodes : List (Node α)} {edges : List (Edge α)}

namespace TurnsAway
variable {left : Engine α} {answer : Except Rejection (Result α)}

theorem keeps (h : e.TurnsAway id v nodes left answer) :
    left.config = e.config ∧ left.registry = e.registry ∧
      left.ledger.states.entries = e.ledger.states.entries ++
        (if v.text?.bind LogicState.ofName? = none then []
          else e.ledger.states.missing (Snapshot.nodeMap nodes).values) ∧
      left.ledger.events = e.ledger.events ∧ left.ledger.conflicts = e.ledger.conflicts ∧
      left.ledger.cycles = e.ledger.cycles := by
  cases h with
  | unread hunread => exact ⟨rfl, rfl, by simp [hunread], rfl, rfl, rfl⟩
  | absent hread _ => exact ⟨rfl, rfl, by simp [hread, complete_entries], rfl, rfl, rfl⟩
  | refused hread _ _ _ => exact ⟨rfl, rfl, by simp [hread, complete_entries], rfl, rfl, rfl⟩

theorem answer_eq_error_iff (h : e.TurnsAway id v nodes left answer) {r : Rejection} :
    answer = .error r ↔
      v.text?.bind LogicState.ofName? = none ∧ r = .notAVerdict v ∨
      ∃ logic n, v.text?.bind LogicState.ofName? = some logic ∧
        (Snapshot.nodeMap nodes).get? id = some n ∧ e.config.checksKinds = true ∧
        n.kind.admits logic = false ∧ r = .notAdmitted .edit n.kind n.id logic := by
  cases h with
  | unread hunread => simp [hunread, @eq_comm _ r]
  | absent hread habsent => simp [hread, habsent]
  | refused hread hnode hchecks hkind => simp [hread, hnode, hchecks, hkind, @eq_comm _ r]

theorem answer_of_absent (h : e.TurnsAway id v nodes left answer)
    (habsent : (Snapshot.nodeMap nodes).get? id = none)
    (hread : v.text?.bind LogicState.ofName? ≠ none) :
    answer = .ok (Settled.mk left.ledger true 0).result := by
  cases h with
  | unread hunread => exact absurd hunread hread
  | absent _ _ => rfl
  | refused _ hnode _ _ => cases hnode.symm.trans habsent

end TurnsAway

theorem update_of_absent (habsent : (Snapshot.nodeMap nodes).get? id = none) (logic : LogicState)
    (edges : List (Edge α)) :
    e.update id logic nodes edges =
        (e.complete nodes, .ok (Settled.mk (e.complete nodes).ledger true 0).result) ∧
      ∀ g : Guard α η, e.updateUnder g id logic nodes edges =
        (e.complete nodes, .ok (Settled.mk (e.complete nodes).ledger true 0).result) := by
  constructor
  · simp only [update, Snapshot.ofLists, habsent]
    rfl
  · intro g
    simp only [updateUnder, Snapshot.ofLists, habsent]
    rfl

theorem update_of_refused {n : Node α} (hnode : (Snapshot.nodeMap nodes).get? id = some n)
    {logic : LogicState} {r : Rejection} (hrefused : e.config.admit .edit n logic = .error r)
    (edges : List (Edge α)) :
    e.update id logic nodes edges = (e.complete nodes, .error r) ∧
      ∀ g : Guard α η, e.updateUnder g id logic nodes edges =
        (e.complete nodes, .error (.rejected r)) := by
  have hid : id ∈ (Snapshot.nodeMap nodes).values.map Node.id := by
    rw [Snapshot.map_id_values_nodeMap]
    exact OrderedMap.mem_keys_iff.2 ⟨n, hnode⟩
  obtain ⟨current, hcurrent⟩ :=
    OrderedMap.mem_keys_iff.1 (Table.mem_keys_complete (t := e.ledger.states).2 (.inl hid))
  constructor
  · simp only [update, Snapshot.ofLists, hnode, hcurrent, hrefused]
    rfl
  · intro g
    simp only [updateUnder, Snapshot.ofLists, hnode, hcurrent, hrefused]
    rfl

theorem turnsAway_of
    (h : (∃ r, (e.edit id v nodes edges).2 = .error r) ∨ id ∉ nodes.map Node.id) :
    e.TurnsAway id v nodes (e.edit id v nodes edges).1 (e.edit id v nodes edges).2 ∧
      ∀ g : Guard α η, e.editUnder g id v nodes edges =
        ((e.edit id v nodes edges).1, (e.edit id v nodes edges).2.mapError .rejected) := by
  cases hread : v.text?.bind LogicState.ofName? with
  | none =>
    simp only [edit, editUnder, hread]
    exact ⟨.unread hread, fun _ => rfl⟩
  | some logic =>
    simp only [edit, editUnder, hread] at h ⊢
    cases hnode : (Snapshot.nodeMap nodes).get? id with
    | none =>
      obtain ⟨hplain, hunder⟩ := update_of_absent (e := e) hnode logic edges
      rw [hplain]
      exact ⟨.absent hread hnode, hunder⟩
    | some n =>
      have hid : id ∈ nodes.map Node.id :=
        Snapshot.mem_keys_nodeMap.1 (OrderedMap.mem_keys_iff.2 ⟨n, hnode⟩)
      cases hasked : e.config.admit .edit n logic with
      | ok _ =>
        -- an admitted edit is answered
        obtain ⟨-, -, -, hspread⟩ := update_of_admitted hnode hasked edges
        rcases h with ⟨r, hr⟩ | hout
        · rw [hspread] at hr
          cases hr
        · exact absurd hid hout
      | error r =>
        obtain ⟨hplain, hunder⟩ := update_of_refused (e := e) hnode hasked edges
        obtain ⟨hchecks, hkind, rfl⟩ := Config.admit_eq_error_iff.1 hasked
        rw [hplain]
        exact ⟨.refused hread hnode hchecks hkind, hunder⟩

/-- An edit that is refused, or by an id that names no node, loses nothing, whatever the engine held
and whatever guards the call. Every state stays as it was and where it was, and the events, the
conflicts and the cycles are the same. New are only seeds, of the nodes that had no state, and none
at all if the value is no verdict. The edit is refused just for that, or for a verdict that the kind
of the node does not admit; else it is answered, without a pass, by what the engine then holds. -/
theorem edit_loses_nothing
    (h : (∃ r, (e.edit id v nodes edges).2 = .error r) ∨ id ∉ nodes.map Node.id) :
    let left := (e.edit id v nodes edges).1
    let answer := (e.edit id v nodes edges).2
    let verdict := v.text?.bind LogicState.ofName?
    (left.config = e.config ∧ left.registry = e.registry ∧
      left.ledger.states.entries = e.ledger.states.entries ++
        (if verdict = none then [] else e.ledger.states.missing (Snapshot.nodeMap nodes).values) ∧
      left.ledger.events = e.ledger.events ∧ left.ledger.conflicts = e.ledger.conflicts ∧
      left.ledger.cycles = e.ledger.cycles) ∧
    (∀ r, answer = .error r ↔
      verdict = none ∧ r = .notAVerdict v ∨
      ∃ logic n, verdict = some logic ∧ (Snapshot.nodeMap nodes).get? id = some n ∧
        e.config.checksKinds = true ∧ n.kind.admits logic = false ∧
        r = .notAdmitted .edit n.kind n.id logic) ∧
    (id ∉ nodes.map Node.id → verdict ≠ none → ∃ r, answer = .ok r ∧ r.converged = true ∧
      r.iterations = 0 ∧ r = (Settled.mk left.ledger true 0).result) ∧
    ∀ g : Guard α η, e.editUnder g id v nodes edges = (left, answer.mapError .rejected) := by
  intro left answer verdict
  obtain ⟨hturned, hunder⟩ := turnsAway_of (η := η) h
  refine ⟨hturned.keeps, fun r => hturned.answer_eq_error_iff, fun hout hread => ?_, hunder⟩
  have habsent : (Snapshot.nodeMap nodes).get? id = none :=
    (OrderedMap.get?_eq_none_iff _ id).2 fun hkey => hout (Snapshot.mem_keys_nodeMap.1 hkey)
  exact ⟨_, hturned.answer_of_absent habsent hread, rfl, rfl, rfl⟩

theorem edit_loses_nothing_changed :
    let a : Node Float := ⟨"a", .fact, "", 90.0⟩
    let e := ((Engine.new .standard .builtin).run [a, ⟨"b", .fact, "", 85.0⟩]
      [⟨"ab", "a", "b", "conflicts", 1.0⟩] ∅).1
    let nodes : List (Node Float) := [a, ⟨"c", .goal, "", 30.0⟩]
    let refused := e.edit "a" (.text "unknown") nodes []
    let stray := e.edit "b" (.text "false") nodes []
    (∃ r, refused.2 = .error r) ∧ "b" ∉ nodes.map Node.id ∧
      (e.ledger.states.keys = ["a", "b"] ∧ e.ledger.events.length = 2) ∧
      (refused.1.ledger.states.keys = ["a", "b", "c"] ∧
        e.ledger.states.entries <+: refused.1.ledger.states.entries ∧
        refused.1.ledger.events = e.ledger.events) ∧
      e.ledger.states.entries <+: stray.1.ledger.states.entries ∧
      ∃ r, stray.2 = .ok r ∧ r.converged = true ∧ r.iterations = 0 ∧ r.events = e.ledger.events := by
  intro a e nodes refused stray
  have hheld : e.ledger.states.keys = ["a", "b"] ∧ e.ledger.events.length = 2 := by decide +kernel
  have hseeded : refused.1.ledger.states.keys = ["a", "b", "c"] := by decide +kernel
  have hchecks : e.config.checksKinds = true := by decide +kernel
  -- from here on no more of the run is needed
  clear_value e
  have hadmit : e.config.admit .edit a .unknown = .error (.notAdmitted .edit .fact "a" .unknown) :=
    Config.admit_eq_error_iff.2 ⟨hchecks, rfl, rfl⟩
  have hrefused : ∃ r, refused.2 = .error r :=
    ⟨_, congrArg Prod.snd (update_of_refused (η := Unit) rfl hadmit []).1⟩
  have hout : "b" ∉ nodes.map Node.id := by decide
  obtain ⟨⟨-, -, hstates, hevents, -⟩, -⟩ :=
    @edit_loses_nothing Float Unit _ e "a" (.text "unknown") nodes [] (.inl hrefused)
  obtain ⟨⟨-, -, hstates', hevents', -⟩, -, hanswer, -⟩ :=
    @edit_loses_nothing Float Unit _ e "b" (.text "false") nodes [] (.inr hout)
  obtain ⟨r, hr, hconverged, hiterations, hshows⟩ := hanswer hout (by decide)
  refine ⟨hrefused, hout, hheld, ⟨hseeded, ⟨_, hstates.symm⟩, hevents⟩, ⟨_, hstates'.symm⟩,
    r, hr, hconverged, hiterations, ?_⟩
  rw [hshows]
  exact hevents'

end Engine
end ReasonGraph
