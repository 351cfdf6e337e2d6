import ReasonGraph.Proofs.Bounds
import ReasonGraph.Proofs.Budget
import ReasonGraph.Proofs.Grounding

/-! What support, achievement and causation build up, when numbers are exact. Where nothing fails
and nothing is in conflict, the rules of these relations have one thing to say: that the target
holds, with no less confidence than it has. So nothing ever comes to fail, what holds holds on, and
confidence only grows. A node that holds already is written again only to raise it by 1 or more, so
101 writes are enough for every node, and a run that may take a pass for each and one more ends by
itself, around whatever loops the edges go. -/

namespace ReasonGraph

/-- The relations that can only hand on truth where nothing fails. -/
def Relation.constructive : List Relation := [supports, achieves, causes]

def Table.IsBright {α : Type} (t : Table α) : Prop :=
  ∀ id state, t.get? id = some state → state.logic = .unknown ∨ state.logic = .holds

/-- Whoever has a state keeps one of no less confidence, and what holds holds on. -/
def Table.GrowsTo (t later : Table Rat) : Prop :=
  ∀ id state, t.get? id = some state → ∃ grown, later.get? id = some grown ∧
    state.confidence ≤ grown.confidence ∧ (state.logic = .holds → grown.logic = .holds)

theorem Table.GrowsTo.refl (t : Table Rat) : t.GrowsTo t :=
  fun _ state hstate => ⟨state, hstate, le_rfl, id⟩

namespace Quantity

theorem le_greatest (x y : Rat) : x ≤ greatest x y := by
  unfold greatest
  split
  · exact le_of_lt ‹x < y›
  · exact le_rfl

theorem lt_greatest {x y : Rat} (h : x < y) : x < greatest x y := by
  rwa [greatest, if_pos h]

end Quantity

namespace Rule
variable {e : Evidence Rat} {p : Proposal Rat}

theorem support_grows (hsource : e.source.logic = .holds)
    (htarget : e.target.logic = .unknown ∨ e.target.logic = .holds) (h : support e = some p) :
    p.logic = .holds ∧ e.target.confidence < p.confidence := by
  have hopen : e.target.logic ≠ .conflict := by
    intro hconflict
    simp [hconflict] at htarget
  simp only [support, if_neg hopen, hsource, if_true] at h
  split at h
  · rename_i hmoved
    cases h
    constructor
    · rcases htarget with ht | ht <;> simp [ht]
    · norm_num at hmoved ⊢
      linarith
  · cases h

theorem achievement_grows (hsource : e.source.logic = .holds)
    (htarget : e.target.logic = .unknown ∨ e.target.logic = .holds) (h : achievement e = some p) :
    p.logic = .holds ∧ e.target.confidence ≤ p.confidence ∧
      (e.target.logic = .holds → e.target.confidence < p.confidence) := by
  have hopen : e.target.logic ≠ .conflict := by
    intro hconflict
    simp [hconflict] at htarget
  simp only [achievement, if_neg hopen, hsource, if_true] at h
  split at h
  · rename_i hmoves
    cases h
    refine ⟨rfl, Quantity.le_greatest _ _, fun hholds => Quantity.lt_greatest ?_⟩
    exact hmoves.resolve_left (not_not.2 hholds)
  · cases h

theorem causation_grows (hsource : e.source.logic = .holds)
    (htarget : e.target.logic = .unknown ∨ e.target.logic = .holds) (h : causation e = some p) :
    p.logic = .holds ∧ e.target.confidence ≤ p.confidence ∧
      (e.target.logic = .holds → e.target.confidence < p.confidence) := by
  have hopen : e.target.logic ≠ .conflict ∧ e.target.logic ≠ .fails := by
    rcases htarget with ht | ht <;> simp [ht]
  simp only [causation, if_neg hopen.1] at h
  split at h
  · simp [contrapositive, hsource] at h
  · simp only [effect, hsource, ne_eq, not_true_eq_false, if_false, if_neg hopen.2] at h
    split at h
    · rename_i hmoves
      cases h
      refine ⟨rfl, Quantity.le_greatest _ _, fun hholds => Quantity.lt_greatest ?_⟩
      exact hmoves.resolve_left (not_not.2 hholds)
    · cases h

theorem inference_grows {r : Relation} (hr : r ∈ Relation.constructive)
    (hsource : e.source.logic = .unknown ∨ e.source.logic = .holds)
    (htarget : e.target.logic = .unknown ∨ e.target.logic = .holds) (h : inference r e = some p) :
    p.logic = .holds ∧ e.target.confidence ≤ p.confidence ∧
      (e.target.logic = .holds → e.target.confidence < p.confidence) := by
  rcases hsource with hunknown | hholds
  · rw [inference_of_unknown r hunknown] at h
    cases h
  cases r with
  | supports =>
    obtain ⟨hlogic, hraised⟩ := support_grows hholds htarget h
    exact ⟨hlogic, hraised.le, fun _ => hraised⟩
  | achieves => exact achievement_grows hholds htarget h
  | causes => exact causation_grows hholds htarget h
  | depends => simp [Relation.constructive] at hr
  | conflicts => simp [Relation.constructive] at hr
  | hinders => simp [Relation.constructive] at hr

end Rule

structure Change.Grows (t : Table Rat) (c : Change Rat) : Prop where
  holds : c.entry.logic = .holds
  raised : ∀ state, t.get? c.event.target = some state → state.confidence ≤ c.entry.confidence
  spends : t.spent c.event.target < c.entry.spent

/-- Nothing in the table fails, all its confidences are in range, and they account for the log. -/
structure Ledger.IsGrowing (l : Ledger Rat) : Prop where
  bright : l.states.IsBright
  inRange : l.states.InRange
  within : l.IsWithinBudget

namespace Setting
variable {s : Setting Rat}

theorem grows_of_change {h : Hop Rat × Rule Rat} {r : Relation} (hrule : h.2 = .builtin r)
    (hr : r ∈ Relation.constructive) {t : Table Rat} (hbright : t.IsBright) (hrange : t.InRange)
    {c : Change Rat} (hc : s.change? t h = some c) : c.Grows t := by
  obtain ⟨e, p, he, hp, -, hloud, rfl⟩ := Hop.change?_eq_some hc
  obtain ⟨hsource, htarget, -⟩ := Hop.evidence?_shows he
  rw [hrule] at hp
  obtain ⟨hlogic, hraised, hagain⟩ := Rule.inference_grows hr (hbright _ _ hsource)
    (hbright _ _ htarget) (floored_eq_some hp).2
  constructor
  · exact hlogic
  · intro state hstate
    rw [Proposal.change_target, htarget] at hstate
    obtain rfl := Option.some.inj hstate
    exact Quantity.le_clamp (hrange _ _ htarget) hraised
  · rw [Proposal.change_target, Table.spent_of_get? htarget]
    rcases hbright _ _ htarget with hunknown | hholds
    · refine NodeState.spent_lt_of_rank (Quantity.clamp_inRange p.confidence) ?_
      rw [hunknown]
      change _ < p.logic.rank
      rw [hlogic]
      decide
    · refine NodeState.spent_lt_of_raised hholds hlogic rfl (hagain hholds) fun quiet => ?_
      simp [Proposal.isQuiet, hholds, hlogic, quiet] at hloud

end Setting

namespace Ledger

theorem IsGrowing.write {l : Ledger Rat} (hl : l.IsGrowing) {c : Change Rat}
    (hc : c.Grows l.states) (hrange : Quantity.InRange c.entry.confidence) :
    (l.write c).IsGrowing where
  bright id state hstate := by
    rw [write_get?] at hstate
    split at hstate
    · obtain rfl := Option.some.inj hstate
      exact .inr hc.holds
    · exact hl.bright id state hstate
  inRange := hl.inRange.insert hrange
  within := hl.within.write hc.spends

theorem growsTo_write {t : Table Rat} {l : Ledger Rat} (hl : t.GrowsTo l.states) {c : Change Rat}
    (hc : c.Grows l.states) : t.GrowsTo (l.write c).states := by
  intro id state hstate
  obtain ⟨grown, hgrown, hraised, hholds⟩ := hl id state hstate
  by_cases hid : c.event.target = id
  · subst hid
    refine ⟨c.entry, ?_, hraised.trans (hc.raised grown hgrown), fun _ => hc.holds⟩
    rw [write_get?, if_pos rfl]
  · refine ⟨grown, ?_, hraised, hholds⟩
    rw [write_get?, if_neg hid]
    exact hgrown

theorem IsGrowing.spent_le {l : Ledger Rat} (hl : l.IsGrowing) (id : String) :
    l.states.spent id ≤ 101 := by
  refine Table.spent_le (fun id state hstate => ?_) id
  rcases hl.bright id state hstate with hunknown | hholds
  · simp [NodeState.spent, hunknown]
  · exact NodeState.spent_le_of_holds hholds

end Ledger

theorem Setting.after_grows {s : Setting Rat} {hops : List (Hop Rat × Rule Rat)}
    (hhops : ∀ h ∈ hops, ∃ r ∈ Relation.constructive, h.2 = Rule.builtin r) {l : Ledger Rat}
    (hl : l.IsGrowing) :
    (s.after l hops).IsGrowing ∧ l.states.GrowsTo (s.after l hops).states := by
  refine s.after_induction (P := fun now => now.IsGrowing ∧ l.states.GrowsTo now.states)
    (fun now h hh c hnow hc => ?_) ⟨hl, .refl _⟩
  obtain ⟨hgrowing, hgrown⟩ := hnow
  obtain ⟨r, hr, hrule⟩ := hhops h hh
  have hgrows := grows_of_change hrule hr hgrowing.bright hgrowing.inRange hc
  have hrange : Quantity.InRange c.entry.confidence := by
    obtain ⟨e, p, -, -, -, -, rfl⟩ := Hop.change?_eq_some hc
    exact Quantity.clamp_inRange p.confidence
  exact ⟨hgrowing.write hgrows hrange, Ledger.growsTo_write hgrown hgrows⟩

namespace Engine

/-- Support, achievement and causation among nodes that hold or are unknown, in exact numbers and
under any decay, floor and strengths. At no moment of a run does anything fail or come into
conflict, from one moment to a later one no confidence falls and what holds holds on, no node is
written more than 101 times, and the run converges where it may take a pass for each write and one
more. -/
theorem constructive_run_grows {e : Engine Rat} (hregistry : e.registry = .builtin)
    {nodes : List (Node Rat)} {edges : List (Edge Rat)}
    (hconstructive : ∀ edge ∈ edges, ∃ r ∈ Relation.constructive, edge.relation = r.name)
    {overrides : Overrides Rat} (hrange : Node.InRange nodes overrides) {seeds : Table Rat}
    (haccepted : (e.prepare nodes overrides).2 = .ok seeds) (hbright : seeds.IsBright) :
    let size := (Snapshot.nodeMap nodes).size
    let s := e.setting (.ofLists nodes edges)
    let l := e.start nodes edges overrides
    let trail := e.runTrail nodes edges overrides
    ∃ r, (e.run nodes edges overrides).2 = .ok r ∧
      (l.states = seeds ∧ r.states = (s.moment l trail trail.length).states) ∧
      (∀ n, (s.moment l trail n).states.IsBright) ∧
      (∀ n m, n ≤ m → (s.moment l trail n).states.GrowsTo (s.moment l trail m).states) ∧
      (∀ id, (r.eventsFor id).length ≤ 101) ∧
      r.iterations ≤ 101 * size + 1 ∧
      (101 * size + 1 ≤ e.config.passes → r.converged = true) := by
  intro size s l trail
  have hseeds : l.states = seeds := start_seeds haccepted edges
  have hhops : ∀ h ∈ trail, ∃ r ∈ Relation.constructive, h.2 = Rule.builtin r := by
    intro h hh
    obtain ⟨r, hr, -, hrule⟩ :=
      Setting.rule_among hregistry hconstructive (mem_hops_of_mem_runTrail hh)
    exact ⟨r, hr, hrule⟩
  have hstart : l.IsGrowing := by
    refine ⟨hseeds ▸ hbright, ?_, .of_no_events (start_events e nodes edges overrides)⟩
    rw [start_states]
    exact e.prepare_inRange hrange
  have hgrowing : ∀ n, (s.moment l trail n).IsGrowing := fun n =>
    (Setting.after_grows (fun h hh => hhops h (List.mem_of_mem_take hh)) hstart).1
  obtain ⟨r, hrun⟩ : ∃ r, (e.run nodes edges overrides).2 = .ok r :=
    ⟨_, congrArg Prod.snd (run_of_accepted haccepted edges)⟩
  obtain ⟨hstates, hevents⟩ := run_result hrun
  rw [run_eq_moment haccepted] at hstates hevents
  have hend := hgrowing trail.length
  have hsize : r.states.size = size := by
    have hlength := congrArg List.length (keys_of_run hrun)
    rwa [OrderedMap.keys, OrderedMap.keys, List.length_map, List.length_map] at hlength
  have hfew : r.events.length ≤ 101 * size := by
    rw [hevents, ← hsize, hstates]
    exact hend.within.length_le_of hend.spent_le
  refine ⟨r, hrun, ⟨hseeds, hstates⟩, fun n => (hgrowing n).bright, fun n m hle => ?_, fun id => ?_,
    run_of_few_events hrun hfew⟩
  · rw [s.moment_later l trail hle]
    refine (Setting.after_grows (fun h hh => hhops h ?_) (hgrowing n)).2
    exact List.mem_of_mem_take (List.mem_of_mem_drop hh)
  · rw [Result.eventsFor, ← List.countP_eq_length_filter, hevents]
    exact (hend.within id).trans (hend.spent_le id)

theorem constructive_run_grows_spent :
    let e : Engine Rat := .new { Config.standard with passes := 203 } .builtin
    let nodes : List (Node Rat) := [⟨"x", .goal, "", 50⟩, ⟨"s", .fact, "", 100⟩]
    let cause (i : Nat) : Edge Rat := ⟨"c", "s", "x", "causes", i / 100⟩
    let edges : List (Edge Rat) := (List.range 101).map cause ++
      [⟨"u", "x", "s", "supports", 1⟩, ⟨"a", "s", "x", "achieves", 1⟩]
    let overrides : Overrides Rat := .ofList [("x", .ok ⟨none, some 0, none⟩)]
    (∀ edge ∈ edges, ∃ r ∈ Relation.constructive, edge.relation = r.name) ∧
      Node.InRange nodes overrides ∧
      (∃ seeds, (e.prepare nodes overrides).2 = .ok seeds ∧ seeds.IsBright) ∧
      101 * (Snapshot.nodeMap nodes).size + 1 ≤ e.config.passes ∧
      ∃ r, (e.run nodes edges overrides).2 = .ok r ∧ (r.eventsFor "x").length = 101 ∧
        (∀ id, (r.eventsFor id).length ≤ 101) ∧ r.converged = true := by
  intro e nodes cause edges overrides
  have hconstructive : ∀ edge ∈ edges, ∃ r ∈ Relation.constructive, edge.relation = r.name := by
    decide +kernel
  have hrange : Node.InRange nodes overrides := by
    refine ⟨by decide +kernel, fun id o confidence ho hconfidence => ?_⟩
    obtain ⟨rfl, rfl⟩ : id = "x" ∧ o = ⟨none, some 0, none⟩ := by
      simpa [overrides] using OrderedMap.mem_ofList (OrderedMap.mem_of_find ho)
    obtain rfl := Option.some.inj hconfidence
    decide +kernel
  obtain ⟨seeds, hseeds⟩ : ∃ seeds, (e.prepare nodes overrides).2 = .ok seeds := ⟨_, rfl⟩
  have hbright : seeds.IsBright := by
    have listed : ∀ entry ∈ seeds.entries,
        entry.2.logic = .unknown ∨ entry.2.logic = .holds := by
      cases hseeds
      decide +kernel
    exact fun id state hstate => listed (id, state) (OrderedMap.mem_of_find hstate)
  have hpasses : 101 * (Snapshot.nodeMap nodes).size + 1 ≤ e.config.passes := by decide
  have hcheck : (e.run nodes edges overrides).2.toOption.all
      (fun r => (r.eventsFor "x").length = 101) = true := by decide +kernel
  obtain ⟨r, hrun, -, -, -, heach, -, hconverges⟩ :=
    constructive_run_grows rfl hconstructive hrange hseeds hbright
  rw [hrun] at hcheck
  refine ⟨hconstructive, hrange, ⟨seeds, hseeds, hbright⟩, hpasses, r, hrun, ?_, heach,
    hconverges hpasses⟩
  simpa [Except.toOption] using hcheck

end Engine
end ReasonGraph
