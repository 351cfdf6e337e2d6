import ReasonGraph.Proofs.Stickiness

/-! Which way verdicts move. Without achievement nothing is ever withdrawn: a rule leaves the
verdict of its target or moves it up, from unknown to true, from true to false, from anything to a
conflict. Every such move uses up a part of a way that is three steps long, so a call moves the
verdict of a node three times at most, however many passes it makes. -/

namespace ReasonGraph
variable {α : Type}

def LogicState.rank : LogicState → Nat
  | unknown => 0
  | holds => 1
  | fails => 2
  | conflict => 3

namespace LogicState

theorem rank_injective {a b : LogicState} (h : a.rank = b.rank) : a = b := by
  cases a <;> cases b <;> first | rfl | cases h

theorem rank_le_conflict (a : LogicState) : a.rank ≤ conflict.rank := by cases a <;> decide

end LogicState

def Event.Rises (ev : Event α) : Prop :=
  ev.newLogic = ev.oldLogic ∨ ev.oldLogic.rank < ev.newLogic.rank

/-- Whether an event moves the verdict of a node. -/
def Event.turns (id : String) (ev : Event α) : Bool :=
  ev.target = id && ev.oldLogic ≠ ev.newLogic

def Table.height (t : Table α) (id : String) : Nat :=
  ((t.get? id).map fun state => state.logic.rank).getD 0

namespace Table

theorem height_of_get? {t : Table α} {id : String} {state : NodeState α}
    (h : t.get? id = some state) : t.height id = state.logic.rank := by simp [height, h]

theorem height_le (t : Table α) (id : String) : t.height id ≤ 3 := by
  cases h : t.get? id with
  | none => simp [height, h]
  | some state =>
    rw [height_of_get? h]
    exact state.logic.rank_le_conflict

end Table

theorem Ledger.height_write (l : Ledger α) (c : Change α) (id : String) :
    (l.write c).states.height id =
      if c.event.target = id then c.entry.logic.rank else l.states.height id := by
  rw [Table.height, write_get?]
  split <;> rfl

/-- What was logged between two ledgers only moves verdicts up, and no node is moved more often than
it came up. -/
structure Ledger.Climbs (before after : Ledger α) (log : List (Event α)) : Prop where
  continues : before.Continues after log
  rises : ∀ ev ∈ log, ev.Rises
  paid : ∀ id, log.countP (·.turns id) + before.states.height id ≤ after.states.height id

namespace Ledger.Climbs
variable {a b c : Ledger α} {xs ys : List (Event α)}

theorem refl (l : Ledger α) : l.Climbs l [] := ⟨.refl l, by simp, by simp⟩

theorem trans (hab : a.Climbs b xs) (hbc : b.Climbs c ys) : a.Climbs c (xs ++ ys) where
  continues := hab.continues.trans hbc.continues
  rises ev hev := (List.mem_append.1 hev).elim (hab.rises ev) (hbc.rises ev)
  paid id := by
    have first := hab.paid id
    have second := hbc.paid id
    rw [List.countP_append]
    omega

theorem of_same {a' : Ledger α} (h : a.Climbs b xs) (hstates : a'.states = a.states)
    (hevents : a'.events = a.events) : a'.Climbs b xs := by
  refine ⟨⟨?_, ?_⟩, h.rises, ?_⟩
  · rw [hevents, h.continues.appended]
  · rw [hstates]
    exact h.continues.audited
  · rw [hstates]
    exact h.paid

theorem at_most_three (h : a.Climbs b xs) (id : String) : xs.countP (·.turns id) ≤ 3 := by
  have paid := h.paid id
  have top := b.states.height_le id
  omega

end Ledger.Climbs

def Lifts (verdict : LogicState) (p : Option (Proposal α)) : Prop :=
  ∀ q, p = some q → verdict.rank ≤ q.logic.rank

namespace Lifts
variable {verdict logic : LogicState} {e : Evidence α} {confidence : α} {reason : String}

@[simp] theorem none : Lifts verdict (Option.none : Option (Proposal α)) := by simp [Lifts]

@[simp] theorem propose :
    Lifts verdict (e.propose logic confidence reason) ↔ verdict.rank ≤ logic.rank := by
  simp [Lifts, Evidence.propose]

@[simp] theorem contest {partners : List String} :
    Lifts verdict (e.contest partners confidence reason) := by
  simp [Lifts, Evidence.contest, verdict.rank_le_conflict]

theorem ite {c : Prop} [Decidable c] {p q : Option (Proposal α)} (hp : c → Lifts verdict p)
    (hq : ¬c → Lifts verdict q) : Lifts verdict (if c then p else q) := by
  split
  · exact hp ‹c›
  · exact hq ‹¬c›

end Lifts

variable [Quantity α]

namespace Rule
variable (e : Evidence α)

theorem dependency_lifts : Lifts e.target.logic (dependency e) := by
  unfold dependency
  cases ht : e.target.logic <;> cases hs : e.source.logic <;> simp [LogicState.rank]

theorem causation_lifts : Lifts e.target.logic (causation e) := by
  unfold causation effect contrapositive
  cases ht : e.target.logic <;> cases hs : e.source.logic <;> cases e.reversed <;>
    simp [LogicState.rank]
  exact .ite (fun _ => by simp) (fun _ => by simp)

theorem mutualConflict_lifts : Lifts e.target.logic (mutualConflict e) := by
  unfold mutualConflict
  cases ht : e.target.logic <;> cases hs : e.source.logic <;>
    simp [standsAgainst, hs, LogicState.rank]
  exact .ite (fun _ => by simp) (fun _ => by simp)

theorem support_lifts : Lifts e.target.logic (support e) := by
  have promoted : e.target.logic.rank ≤
      (if e.target.logic = .unknown then .holds else e.target.logic).rank := by
    cases e.target.logic <;> decide
  refine .ite (fun _ => .none) fun _ => .ite (fun _ => ?raised) fun _ => .ite (fun _ => ?lowered)
    fun _ => .none
  case raised => exact .ite (fun _ => Lifts.propose.2 promoted) fun _ => .none
  case lowered => exact .ite (fun _ => Lifts.propose.2 Nat.le.refl) fun _ => .none

theorem hindrance_lifts : Lifts e.target.logic (hindrance e) := by
  refine .ite (fun _ => .none) fun hopen => ?_
  have refuted : e.target.logic.rank ≤ LogicState.fails.rank := by
    cases ht : e.target.logic with
    | conflict => exact absurd (.inr ht) hopen
    | _ => decide
  refine .ite (fun _ => Lifts.propose.2 refuted) fun _ => .ite (fun _ => ?lowered) fun _ => .none
  case lowered =>
    rw [Lifts.propose]
    split
    · exact refuted
    · exact Nat.le.refl

/-- No rule but that of achievement ever proposes a verdict that is further down. -/
theorem inference_lifts {r : Relation} (hr : r ≠ .achieves) :
    Lifts e.target.logic (inference r e) := by
  cases r with
  | depends => exact dependency_lifts e
  | supports => exact support_lifts e
  | achieves => exact absurd rfl hr
  | hinders => exact hindrance_lifts e
  | causes => exact causation_lifts e
  | conflicts => exact mutualConflict_lifts e

end Rule

namespace Setting
variable {s : Setting α} {l : Ledger α}

theorem change?_lifts {h : Hop α × Rule α} {r : Relation} (hrule : h.2 = .builtin r)
    (hr : r ≠ .achieves) {t : Table α} {c : Change α} (hc : s.change? t h = some c) :
    t.height c.event.target = c.event.oldLogic.rank ∧ c.entry.logic = c.event.newLogic ∧
      c.event.oldLogic.rank ≤ c.event.newLogic.rank := by
  obtain ⟨e, p, he, hp, -, -, rfl⟩ := Hop.change?_eq_some hc
  obtain ⟨-, htarget, -⟩ := Hop.evidence?_shows he
  rw [hrule] at hp
  refine ⟨?_, rfl, Rule.inference_lifts e hr p (floored_eq_some hp).2⟩
  rw [Proposal.change_target, Table.height_of_get? htarget]
  rfl

theorem write_climbs {h : Hop α × Rule α} {r : Relation} (hrule : h.2 = .builtin r)
    (hr : r ≠ .achieves) {c : Change α} (hc : s.change? l.states h = some c) :
    l.Climbs (l.write c) [c.event] := by
  obtain ⟨before, after, lifted⟩ := change?_lifts hrule hr hc
  refine ⟨write_continues hc, ?_, ?_⟩
  · intro ev hev
    rw [List.mem_singleton.1 hev]
    by_cases still : c.event.newLogic = c.event.oldLogic
    · exact .inl still
    · refine .inr (Nat.lt_of_le_of_ne lifted fun level => still ?_)
      exact (LogicState.rank_injective level).symm
  · intro id
    rw [Ledger.height_write, List.countP_singleton]
    by_cases hid : c.event.target = id
    · rw [if_pos hid, ← hid, before, after]
      split
      · rename_i turned
        have moved : c.event.oldLogic.rank ≠ c.event.newLogic.rank := fun level => by
          simp [Event.turns, LogicState.rank_injective level] at turned
        omega
      · omega
    · simp [Event.turns, hid]

theorem after_climbs {hops : List (Hop α × Rule α)}
    (hops_rise : ∀ h ∈ hops, ∃ r, h.2 = Rule.builtin r ∧ r ≠ .achieves) (l : Ledger α) :
    ∃ log, l.Climbs (s.after l hops) log := by
  refine s.after_induction (P := fun now => ∃ log, l.Climbs now log) ?_ ⟨[], .refl l⟩
  rintro now h hh c ⟨log, climbs⟩ hc
  obtain ⟨r, hrule, hr⟩ := hops_rise h hh
  exact ⟨log ++ [c.event], climbs.trans (write_climbs hrule hr hc)⟩

theorem mem_hops_rise (hregistry : s.registry = .builtin)
    (hnone : ∀ edge ∈ s.graph.edges, edge.relation ≠ Relation.achieves.name) {h : Hop α × Rule α}
    (hh : h ∈ s.hops) : ∃ r, h.2 = Rule.builtin r ∧ r ≠ .achieves := by
  obtain ⟨r, hrule, hrel⟩ := rule_of_mem_hops hregistry hh
  refine ⟨r, hrule, ?_⟩
  rintro rfl
  exact hnone _ (mem_hops.1 hh).1 hrel

end Setting

namespace Engine
variable {e : Engine α} {nodes : List (Node α)} {edges : List (Edge α)}

section
variable (hregistry : e.registry = .builtin)
  (hnone : ∀ edge ∈ edges, edge.relation ≠ Relation.achieves.name)
include hregistry hnone

theorem readings_climb (l : Ledger α) {hops : List (Hop α × Rule α)}
    (hhops : ∀ h ∈ hops, h ∈ (e.setting (.ofLists nodes edges)).hops) :
    ∃ log, l.Climbs ((e.setting (.ofLists nodes edges)).after l hops) log :=
  Setting.after_climbs (fun h hh => Setting.mem_hops_rise hregistry hnone (hhops h hh)) l

theorem run_climbs (nodes : List (Node α)) (overrides : Overrides α) :
    let after := (e.run nodes edges overrides).1.ledger
    (e.prepare nodes overrides).1.ledger.Climbs after after.events := by
  intro after
  obtain ⟨log, climbs⟩ : ∃ log, (e.prepare nodes overrides).1.ledger.Climbs after log := by
    cases seeding : (e.prepare nodes overrides).2 with
    | error r =>
      have stopped : after = (e.prepare nodes overrides).1.ledger :=
        congrArg (fun call => call.1.ledger) (run_of_refused seeding edges)
      exact ⟨[], stopped ▸ .refl _⟩
    | ok seeds =>
      obtain ⟨log, climbs⟩ := readings_climb hregistry hnone (e.start nodes edges overrides)
        fun h (hh : h ∈ e.runTrail nodes edges overrides) => mem_hops_of_mem_runTrail hh
      rw [← run_eq_after seeding edges] at climbs
      exact ⟨log, climbs.of_same (e.start_states nodes edges overrides).symm
        (noteCycles_events _ _).symm⟩
  have logged := climbs.continues.appended
  rw [prepare_events, List.nil_append] at logged
  exact logged ▸ climbs

theorem update_climbs (nodes : List (Node α)) (id : String) (logic : LogicState) :
    let after := (e.update id logic nodes edges).1.ledger
    ∃ log, after.events = e.ledger.events ++ log ∧
      (e.opening id logic nodes).Climbs after log := by
  intro after
  obtain ⟨log, climbs⟩ : ∃ log, (e.opening id logic nodes).Climbs after log := by
    rcases e.update_cases id logic nodes edges with ⟨outcome, hupdate, -⟩ | hupdate
    · have stopped : after = e.opening id logic nodes :=
        congrArg (fun call => call.1.ledger) hupdate
      exact ⟨[], stopped ▸ .refl _⟩
    · have spread : after = _ := (congrArg (fun call => call.1.ledger) hupdate).trans
        (Setting.settle_passFrom_ledger _ _ _ _)
      rw [spread]
      refine readings_climb hregistry hnone _ fun h hh => ?_
      obtain ⟨visited, -, hat⟩ := List.mem_flatMap.1 hh
      exact ((Setting.mem_hopsAt rfl).1 hat).1
  refine ⟨log, ?_, climbs⟩
  rw [climbs.continues.appended, opening_events]

end

/-- Without achievement the verdicts of a call only move up, whether it is a run or an update and
however it ends. Every event leaves the verdict that its target had or moves it up, and the events
of a call move the verdict of no node more than three times. -/
theorem calls_climb (hregistry : e.registry = .builtin) (nodes : List (Node α))
    (hnone : ∀ edge ∈ edges, edge.relation ≠ Relation.achieves.name) :
    (∀ overrides,
      let after := (e.run nodes edges overrides).1.ledger
      (e.prepare nodes overrides).1.ledger.Climbs after after.events ∧
        ∀ id, after.events.countP (·.turns id) ≤ 3) ∧
    ∀ id logic,
      let after := (e.update id logic nodes edges).1.ledger
      ∃ log, after.events = e.ledger.events ++ log ∧
        (e.opening id logic nodes).Climbs after log ∧ ∀ m, log.countP (·.turns m) ≤ 3 := by
  constructor
  · intro overrides after
    have climbs := run_climbs hregistry hnone nodes overrides
    exact ⟨climbs, climbs.at_most_three⟩
  · intro id logic after
    obtain ⟨log, logged, climbs⟩ := update_climbs hregistry hnone nodes id logic
    exact ⟨log, logged, climbs, climbs.at_most_three⟩

theorem calls_climb_all_the_way :
    let e : Engine Float := .new .standard .builtin
    let nodes : List (Node Float) := [⟨"a", .fact, "", 90.0⟩, ⟨"x", .conclusion, "", 50.0⟩]
    let edges : List (Edge Float) := [⟨"s", "a", "x", "supports", 1.0⟩,
      ⟨"h", "a", "x", "hinders", 1.0⟩, ⟨"c", "a", "x", "causes", 1.0⟩]
    let ran := (e.run nodes edges ∅).1.ledger
    let updated := (e.update "a" .holds nodes edges).1.ledger
    (∀ edge ∈ edges, edge.relation ≠ Relation.achieves.name) ∧
      ((e.prepare nodes ∅).1.ledger.Climbs ran ran.events ∧
        ran.events.countP (·.turns "x") = 3) ∧
      (e.opening "a" .holds nodes).Climbs updated updated.events ∧
        updated.events.countP (·.turns "x") = 3 := by
  intro e nodes edges ran updated
  have hnone : ∀ edge ∈ edges, edge.relation ≠ Relation.achieves.name := by decide
  obtain ⟨hrun, hupdate⟩ := calls_climb (e := e) rfl nodes hnone
  obtain ⟨log, logged, climbs, -⟩ := hupdate "a" .holds
  refine ⟨hnone, ⟨(hrun ∅).1, by decide +kernel⟩, ?_, by decide +kernel⟩
  rwa [logged]

end Engine
end ReasonGraph
