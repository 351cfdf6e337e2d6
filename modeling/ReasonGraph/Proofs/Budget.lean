import ReasonGraph.Proofs.Admission
import ReasonGraph.Proofs.Ascent
import ReasonGraph.Proofs.Indifference
import ReasonGraph.Report.Explain
import Mathlib.Algebra.Order.BigOperators.Group.Finset
import Mathlib.Data.Rat.Floor

/-! How long strict relations can keep a run busy, when numbers are exact. A strict rule writes a
verdict further up, or that what holds holds with more confidence. An event that does the latter
adds 1 at least to a confidence that ends at 100, so no node is written more than 103 times: once to
hold, a hundred times to hold more firmly, once to fail and once to be in conflict. No loop of
causes, however it amplifies, gets around that, and a run that may take a pass for every such write
and one more ends by itself. -/

namespace ReasonGraph

section
variable {α : Type} [Quantity α]

theorem Rule.inference_advances {r : Relation} (hr : r ∈ Relation.strict) {e : Evidence α}
    {p : Proposal α} (h : inference r e = some p) :
    e.target.logic.rank < p.logic.rank ∨
      e.target.logic = .holds ∧ p.logic = .holds ∧ e.target.confidence < p.confidence := by
  have repeated : e.target.logic = p.logic →
      e.target.logic = .holds ∧ e.target.confidence < p.confidence := by
    intro same
    cases r with
    | depends =>
      cases hs : e.source.logic <;> cases ht : e.target.logic <;>
        simp [inference, dependency, Evidence.propose, Evidence.contest, hs, ht] at h
      all_goals simp [← h, ht] at same
    | causes =>
      cases hv : e.reversed <;> cases hs : e.source.logic <;> cases ht : e.target.logic <;>
        simp [inference, causation, effect, contrapositive, Evidence.propose, Evidence.contest, hv,
          hs, ht] at h
      case false.holds.holds =>
        obtain ⟨raised, rfl⟩ := h
        simp [Quantity.greatest, raised]
      all_goals simp [← h, ht] at same
    | conflicts =>
      cases hs : e.source.logic <;> cases ht : e.target.logic <;>
        simp [inference, mutualConflict, standsAgainst, Evidence.propose, Evidence.contest, hs,
          ht] at h
      case conflict.holds => simp [← h.2, ht] at same
      all_goals simp [← h, ht] at same
    | supports => simp [Relation.strict] at hr
    | achieves => simp [Relation.strict] at hr
    | hinders => simp [Relation.strict] at hr
  have lifted : e.target.logic.rank ≤ p.logic.rank := by
    refine inference_lifts e (fun achieves => ?_) p h
    simp [achieves, Relation.strict] at hr
  rcases Nat.lt_or_eq_of_le lifted with up | level
  · exact .inl up
  · have same := LogicState.rank_injective level
    obtain ⟨holds, raised⟩ := repeated same
    exact .inr ⟨holds, same ▸ holds, raised⟩

end

namespace Quantity

theorem inRange_rat {x : Rat} : InRange x ↔ 0 ≤ x ∧ x ≤ 100 := by norm_num [InRange]

theorem gap_of_le {x y : Rat} (h : x ≤ y) : gap x y = y - x := by
  unfold gap
  split
  · norm_num
  · rename_i hle
    have : y ≤ x := by
      norm_num at hle
      exact hle
    rw [le_antisymm h this]

theorem clamp_of_inRange {x : Rat} (h : InRange x) : clamp x = x := by
  obtain ⟨hzero, hhundred⟩ := inRange_rat.1 h
  rcases clamp_cases x with ⟨hx, -⟩ | ⟨hx, hlow⟩ | ⟨hx, hhigh⟩ <;> rw [hx]
  · norm_num at hlow ⊢
    exact le_antisymm hzero hlow
  · norm_num at hhigh ⊢
    exact le_antisymm hhigh hhundred

theorem le_clamp {x y : Rat} (hx : InRange x) (h : x ≤ y) : x ≤ clamp y := by
  rcases clamp_cases y with ⟨hy, -⟩ | ⟨hy, hlow⟩ | ⟨hy, -⟩ <;> rw [hy]
  · exact h
  · have := (inRange_rat.1 hx).1
    norm_num at hlow
    linarith
  · exact hx.2

end Quantity

/-- How many of the writes that a node can take are used up where it has this state. -/
def NodeState.spent (s : NodeState Rat) : Nat :=
  match s.logic with
  | .unknown => 0
  | .holds => if Quantity.InRange s.confidence then ⌊s.confidence⌋₊ + 1 else 0
  | .fails => 102
  | .conflict => 103

def Table.spent (t : Table Rat) (id : String) : Nat := ((t.get? id).map NodeState.spent).getD 0

theorem Table.spent_of_get? {t : Table Rat} {id : String} {state : NodeState Rat}
    (h : t.get? id = some state) : t.spent id = state.spent := by simp [spent, h]

theorem Table.spent_le {t : Table Rat} {bound : Nat}
    (h : ∀ id state, t.get? id = some state → state.spent ≤ bound) (id : String) :
    t.spent id ≤ bound := by
  cases hid : t.get? id with
  | none => simp [spent, hid]
  | some state =>
    rw [spent_of_get? hid]
    exact h id state hid

namespace NodeState
variable {s s' : NodeState Rat}

theorem spent_of_holds (h : s.logic = .holds) :
    s.spent = if Quantity.InRange s.confidence then ⌊s.confidence⌋₊ + 1 else 0 := by
  simp only [spent, h]

theorem spent_le_of_holds (h : s.logic = .holds) : s.spent ≤ 101 := by
  rw [spent_of_holds h]
  split
  · rename_i hrange
    have : ⌊s.confidence⌋₊ ≤ 100 := Nat.floor_le_of_le (by exact_mod_cast (Quantity.inRange_rat.1 hrange).2)
    omega
  · omega

theorem spent_le (s : NodeState Rat) : s.spent ≤ 103 := by
  cases h : s.logic with
  | holds => exact (spent_le_of_holds h).trans (by decide)
  | _ => simp [spent, h]

theorem spent_lt_of_rank (hrange : Quantity.InRange s'.confidence)
    (h : s.logic.rank < s'.logic.rank) : s.spent < s'.spent := by
  have below : s.logic = .holds → s.spent ≤ 101 := spent_le_of_holds
  cases hs : s.logic <;> cases hs' : s'.logic <;> simp [hs, hs', LogicState.rank] at h
  case unknown.holds =>
    rw [spent_of_holds hs', if_pos hrange]
    simp [spent, hs]
  case holds.fails =>
    have := below hs
    simp only [spent, hs', hs] at this ⊢
    omega
  case holds.conflict =>
    have := below hs
    simp only [spent, hs', hs] at this ⊢
    omega
  all_goals simp [spent, hs, hs']

theorem spent_lt_of_raised {x : Rat} (hs : s.logic = .holds) (hs' : s'.logic = .holds)
    (hclamped : s'.confidence = Quantity.clamp x) (hraised : s.confidence < x)
    (hgap : ¬Quantity.gap s.confidence (Quantity.clamp x) < 1.0) : s.spent < s'.spent := by
  rw [spent_of_holds hs, spent_of_holds hs', hclamped, if_pos (Quantity.clamp_inRange x)]
  split
  · rename_i hrange
    have hle := Quantity.le_clamp hrange hraised.le
    rw [Quantity.gap_of_le hle] at hgap
    have hfloor : (⌊s.confidence⌋₊ : Rat) ≤ s.confidence :=
      Nat.floor_le (Quantity.inRange_rat.1 hrange).1
    have hnext : ⌊s.confidence⌋₊ + 1 ≤ ⌊Quantity.clamp x⌋₊ := by
      refine Nat.le_floor ?_
      push_cast
      norm_num at hgap
      linarith
    omega
  · omega

end NodeState

/-- No node was written more often than its state accounts for. -/
def Ledger.IsWithinBudget (l : Ledger Rat) : Prop :=
  ∀ id, l.events.countP (·.target = id) ≤ l.states.spent id

namespace Ledger.IsWithinBudget
variable {l : Ledger Rat}

theorem of_no_events (h : l.events = []) : l.IsWithinBudget := fun id => by simp [h]

theorem at_most (hl : l.IsWithinBudget) (id : String) :
    l.events.countP (·.target = id) ≤ 103 :=
  (hl id).trans (Table.spent_le (fun _ state _ => state.spent_le) id)

theorem target_mem (hl : l.IsWithinBudget) {ev : Event Rat} (hev : ev ∈ l.events) :
    ev.target ∈ l.states.keys := by
  by_contra absent
  have unpaid : l.states.spent ev.target = 0 := by
    rw [Table.spent, (OrderedMap.get?_eq_none_iff _ _).2 absent]
    rfl
  have written : 0 < l.events.countP (·.target = ev.target) :=
    List.countP_pos_iff.2 ⟨ev, hev, by simp⟩
  have := hl ev.target
  omega

theorem write (hl : l.IsWithinBudget) {c : Change Rat}
    (hused : l.states.spent c.event.target < c.entry.spent) : (l.write c).IsWithinBudget := by
  intro id
  have sofar := hl id
  rw [Ledger.write_events, List.countP_append, List.countP_singleton, Table.spent,
    Ledger.write_get?]
  by_cases hid : c.event.target = id
  · rw [hid] at hused
    simp only [hid, decide_true, if_true, Option.map_some, Option.getD_some]
    omega
  · simp only [hid, decide_false, if_false]
    exact sofar

theorem length_le_of (hl : l.IsWithinBudget) {bound : Nat}
    (hbound : ∀ id, l.states.spent id ≤ bound) :
    l.events.length ≤ bound * l.states.size := by
  let targets := l.events.map Event.target
  have among : targets.toFinset ⊆ l.states.keys.toFinset := by
    intro id hid
    obtain ⟨ev, hev, rfl⟩ := List.mem_map.1 (List.mem_toFinset.1 hid)
    exact List.mem_toFinset.2 (hl.target_mem hev)
  have each : ∀ id ∈ targets.toFinset, targets.count id ≤ bound := by
    intro id _
    rw [List.count, List.countP_map]
    exact (hl id).trans (hbound id)
  calc l.events.length
      = ∑ id ∈ targets.toFinset, targets.count id := by
        rw [List.sum_toFinset_count_eq_length, List.length_map]
    _ ≤ targets.toFinset.card * bound := Finset.sum_le_card_nsmul _ _ _ each
    _ ≤ l.states.size * bound := by
        refine Nat.mul_le_mul_right _ ((Finset.card_le_card among).trans ?_)
        exact (List.toFinset_card_le _).trans (List.length_map _).le
    _ = bound * l.states.size := Nat.mul_comm _ _

theorem length_le (hl : l.IsWithinBudget) : l.events.length ≤ 103 * l.states.size :=
  hl.length_le_of (Table.spent_le fun _ state _ => state.spent_le)

end Ledger.IsWithinBudget

namespace Setting
variable {s : Setting Rat}

theorem spent_of_change {h : Hop Rat × Rule Rat} {r : Relation} (hrule : h.2 = .builtin r)
    (hr : r ∈ Relation.strict) {t : Table Rat} {c : Change Rat} (hc : s.change? t h = some c) :
    t.spent c.event.target < c.entry.spent := by
  obtain ⟨e, p, he, hp, -, hloud, rfl⟩ := Hop.change?_eq_some hc
  obtain ⟨-, htarget, -⟩ := Hop.evidence?_shows he
  rw [hrule] at hp
  rw [Proposal.change_target, Table.spent, htarget]
  rcases Rule.inference_advances hr (floored_eq_some hp).2 with up | ⟨holds, again, raised⟩
  · exact NodeState.spent_lt_of_rank (Quantity.clamp_inRange p.confidence) up
  · refine NodeState.spent_lt_of_raised holds again rfl raised fun quiet => ?_
    simp [Proposal.isQuiet, holds, again, quiet] at hloud

theorem after_isWithinBudget {hops : List (Hop Rat × Rule Rat)}
    (hops_strict : ∀ h ∈ hops, ∃ r ∈ Relation.strict, h.2 = Rule.builtin r) {l : Ledger Rat}
    (hl : l.IsWithinBudget) : (s.after l hops).IsWithinBudget := by
  refine s.after_induction (fun now h hh c paid hc => ?_) hl
  obtain ⟨r, hr, hrule⟩ := hops_strict h hh
  exact paid.write (spent_of_change hrule hr hc)

end Setting

namespace Engine

/-- Over strict relations and in exact numbers a run writes each node at most 103 times, whatever the
overrides, the decay, the floor and the strengths are and however the edges turn back on themselves.
So it takes hardly more passes than the nodes can take writes, and converges where it may take as
many. -/
theorem strict_run_budget {e : Engine Rat} (hregistry : e.registry = .builtin)
    {nodes : List (Node Rat)} {edges : List (Edge Rat)}
    (hstrict : ∀ edge ∈ edges, ∃ r ∈ Relation.strict, edge.relation = r.name)
    {overrides : Overrides Rat} {seeds : Table Rat}
    (haccepted : (e.prepare nodes overrides).2 = .ok seeds) :
    let size := (Snapshot.nodeMap nodes).size
    ∃ r, (e.run nodes edges overrides).2 = .ok r ∧
      (∀ id, (r.eventsFor id).length ≤ 103) ∧
      r.iterations ≤ 103 * size + 1 ∧
      (103 * size + 1 ≤ e.config.passes → r.converged = true) := by
  intro size
  let s := e.setting (.ofLists nodes edges)
  let l := e.start nodes edges overrides
  let settled := settle s.fullPass e.config.passes l
  have hrun : (e.run nodes edges overrides).2 = .ok settled.result :=
    congrArg Prod.snd (run_of_accepted haccepted edges)
  have hevents : l.events = [] := start_events e nodes edges overrides
  have hwithin : settled.ledger.IsWithinBudget := by
    have hl : l.IsWithinBudget := fun id => by simp [hevents]
    have hhops : ∀ h ∈ settleTrail s.fullPass (fun _ => s.hops) e.config.passes l,
        ∃ r ∈ Relation.strict, h.2 = Rule.builtin r := by
      intro h hh
      obtain ⟨_, hmem⟩ := mem_of_mem_settleTrail hh
      obtain ⟨r, hrule, hrel⟩ := Setting.rule_of_mem_hops hregistry hmem
      obtain ⟨r', hr', hrel'⟩ := hstrict _ (Setting.mem_hops.1 hmem).1
      obtain rfl := Relation.name_injective (hrel.symm.trans hrel')
      exact ⟨r, hr', hrule⟩
    have := Setting.after_isWithinBudget (s := s) hhops hl
    rwa [← Setting.settle_fullPass_ledger] at this
  have hsize : settled.ledger.states.size = size := by
    have hkeys : settled.ledger.states.keys = (Snapshot.nodeMap nodes).keys := by
      rw [Setting.settle_fullPass_ledger, Setting.after_keys, start_seeds haccepted,
        (prepare_isSeeded haccepted).keys, Snapshot.map_id_values_nodeMap]
    have hlength := congrArg List.length hkeys
    rwa [OrderedMap.keys, OrderedMap.keys, List.length_map, List.length_map] at hlength
  have hbusy : settled.iterations ≤ 103 * size + if settled.converged then 1 else 0 := by
    have hlogged := s.settle_fullPass_iterations_le e.config.passes l
    rw [hevents, List.length_nil, Nat.zero_add] at hlogged
    exact hlogged.trans (Nat.add_le_add_right (hsize ▸ hwithin.length_le) _)
  refine ⟨settled.result, hrun, fun id => ?_, ?_, fun hpasses => ?_⟩
  · rw [Result.eventsFor, ← List.countP_eq_length_filter]
    exact hwithin.at_most id
  · exact hbusy.trans (Nat.add_le_add_left (by split <;> decide) _)
  · by_contra hnot
    have hopen : settled.converged = false := Bool.eq_false_iff.2 hnot
    have hall : settled.iterations = e.config.passes := settle_exhausted hopen
    rw [hopen] at hbusy
    simp only [Bool.false_eq_true, if_false] at hbusy
    omega

theorem strict_run_budget_spent :
    let e : Engine Rat := .new { Config.standard with passes := 310 } .builtin
    let nodes : List (Node Rat) :=
      [⟨"x", .goal, "", 50⟩, ⟨"s", .fact, "", 100⟩, ⟨"f", .fact, "", 10⟩]
    let cause (i : Nat) : Edge Rat := ⟨"c", "s", "x", "causes", i / 100⟩
    let edges : List (Edge Rat) :=
      (List.range 101).map cause ++ [⟨"d", "f", "x", "depends", 1⟩, cause 100]
    let overrides : Overrides Rat := .ofList [("x", .ok ⟨none, some 0, none⟩)]
    (∀ edge ∈ edges, ∃ r ∈ Relation.strict, edge.relation = r.name) ∧
      (∃ seeds, (e.prepare nodes overrides).2 = .ok seeds) ∧
      103 * (Snapshot.nodeMap nodes).size + 1 ≤ e.config.passes ∧
      ∃ r, (e.run nodes edges overrides).2 = .ok r ∧ (r.eventsFor "x").length = 103 ∧
        (∀ id, (r.eventsFor id).length ≤ 103) ∧ r.converged = true := by
  intro e nodes cause edges overrides
  have hstrict : ∀ edge ∈ edges, ∃ r ∈ Relation.strict, edge.relation = r.name := by
    decide +kernel
  have hpasses : 103 * (Snapshot.nodeMap nodes).size + 1 ≤ e.config.passes := by decide
  have hcheck : (e.run nodes edges overrides).2.toOption.all
      (fun r => (r.eventsFor "x").length = 103) = true := by decide +kernel
  have haccepted : ∃ seeds, (e.prepare nodes overrides).2 = .ok seeds := ⟨_, rfl⟩
  obtain ⟨seeds, hseeds⟩ := haccepted
  obtain ⟨r, hrun, heach, -, hconverged⟩ := strict_run_budget rfl hstrict hseeds
  rw [hrun] at hcheck
  refine ⟨hstrict, ⟨seeds, hseeds⟩, hpasses, r, hrun, ?_, heach, hconverged hpasses⟩
  simpa [Except.toOption] using hcheck

end Engine
end ReasonGraph
