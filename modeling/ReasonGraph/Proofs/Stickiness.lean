import ReasonGraph.Proofs.Passes
import ReasonGraph.Proofs.Settlement

/-! A conflict is final. The engine would write over it, but no rule of a known relation proposes
anything for a target in conflict, so throughout a call the entry of such a node stays as it is.
While nobody looks for conflicts none comes up either: a proposed conflict is dropped before
anything is written. -/

namespace ReasonGraph
variable {α : Type}

def Table.InConflict (t : Table α) (id : String) : Prop :=
  ∃ state, t.get? id = some state ∧ state.logic = .conflict

structure Ledger.BringsNoConflict (before after : Ledger α) : Prop where
  states : ∀ id, after.states.InConflict id ↔ before.states.InConflict id
  events : ∃ log, after.events = before.events ++ log ∧ ∀ ev ∈ log, ev.newLogic ≠ .conflict
  records : after.conflicts = before.conflicts

theorem Ledger.BringsNoConflict.refl (l : Ledger α) : l.BringsNoConflict l :=
  ⟨fun _ => Iff.rfl, ⟨[], by simp⟩, rfl⟩

theorem Ledger.write_get?_of_conflict {l : Ledger α} {c : Change α}
    (hopen : ¬l.states.InConflict c.event.target) {id : String} {state : NodeState α}
    (hstate : l.states.get? id = some state) (hlogic : state.logic = .conflict) :
    (l.write c).states.get? id = some state := by
  have hne : c.event.target ≠ id := fun heq => hopen (heq ▸ ⟨state, hstate, hlogic⟩)
  rw [write_get?, if_neg hne]
  exact hstate

variable [Quantity α]

theorem Rule.inference_of_conflict (r : Relation) {e : Evidence α}
    (h : e.target.logic = .conflict) : inference r e = none := by
  cases r <;> simp [inference, dependency, support, achievement, hindrance, causation,
    mutualConflict, h]

namespace Setting
variable {s : Setting α} {l before : Ledger α} {trail : List (Hop α × Rule α)}

/-- The ledger after the first readings of a trail. -/
def moment (s : Setting α) (l : Ledger α) (trail : List (Hop α × Rule α)) (n : Nat) : Ledger α :=
  s.after l (trail.take n)

theorem moment_later (s : Setting α) (l : Ledger α) (trail : List (Hop α × Rule α)) {n m : Nat}
    (h : n ≤ m) :
    s.moment l trail m = s.after (s.moment l trail n) ((trail.take m).drop n) := by
  have hsplit := List.take_append_drop n (trail.take m)
  rw [List.take_take, Nat.min_eq_left h] at hsplit
  rw [moment, moment, ← after_append, hsplit]

theorem change?_target_open {h : Hop α × Rule α} {r : Relation} (hrule : h.2 = .builtin r)
    {t : Table α} {c : Change α} (hc : s.change? t h = some c) :
    ¬t.InConflict c.event.target := by
  intro hconflict
  obtain ⟨state, hstate, hlogic⟩ := hconflict
  obtain ⟨e, p, he, hp, -, -, rfl⟩ := Hop.change?_eq_some hc
  obtain ⟨-, htarget, -⟩ := Hop.evidence?_shows he
  rw [Proposal.change_target, htarget, Option.some.injEq] at hstate
  have hopen : e.target.logic = .conflict := hstate ▸ hlogic
  rw [hrule] at hp
  have hsilent := (floored_eq_some hp).2
  rw [Rule.inference_of_conflict r hopen] at hsilent
  cases hsilent

theorem after_of_conflict (hknown : ∀ h ∈ trail, ∃ r, h.2 = Rule.builtin r) {id : String}
    {state : NodeState α} (hstate : l.states.get? id = some state)
    (hlogic : state.logic = .conflict) : (s.after l trail).states.get? id = some state := by
  refine s.after_induction (P := fun l => l.states.get? id = some state)
    (fun l h hh c hl hc => ?_) hstate
  obtain ⟨r, hrule⟩ := hknown h hh
  exact Ledger.write_get?_of_conflict (change?_target_open hrule hc) hl hlogic

theorem write_bringsNoConflict (hdetect : s.config.detectsConflicts = false)
    {h : Hop α × Rule α} {r : Relation} (hrule : h.2 = .builtin r) {c : Change α}
    (hl : before.BringsNoConflict l) (hc : s.change? l.states h = some c) :
    before.BringsNoConflict (l.write c) := by
  have htarget := change?_target_open hrule hc
  obtain ⟨e, p, -, -, hwanted, -, rfl⟩ := Hop.change?_eq_some hc
  have hlogic : p.logic ≠ .conflict := by simpa [Proposal.isUnwanted, hdetect] using hwanted
  constructor
  · intro id
    rw [← hl.states id]
    by_cases hid : h.1.target = id
    · subst hid
      constructor
      · rintro ⟨state, hstate, hconflict⟩
        rw [Ledger.write_get?, if_pos (p.change_target h.1 e.target)] at hstate
        cases hstate
        exact absurd hconflict hlogic
      · exact fun hconflict => absurd hconflict htarget
    · have hne : (p.change h.1 e.target).event.target ≠ id := hid
      simp only [Table.InConflict, Ledger.write_get?, if_neg hne]
  · obtain ⟨log, happended, hlog⟩ := hl.events
    refine ⟨log ++ [(p.change h.1 e.target).event], ?_, ?_⟩
    · rw [Ledger.write_events, happended, List.append_assoc]
    · intro ev hev
      rcases List.mem_append.1 hev with hearlier | hlast
      · exact hlog ev hearlier
      · rw [List.mem_singleton.1 hlast]
        exact hlogic
  · have hnone : (p.change h.1 e.target).conflict = none := by
      simp [Proposal.change, Proposal.writtenPartners, hlogic]
    rw [Ledger.write_conflicts, hnone, hl.records]
    simp

/-- What becomes of conflicts along a trail of readings: an entry in conflict stays from its moment
on, and while nobody looks for conflicts there are no others than at the start. -/
structure KeepsConflicts (s : Setting α) (l : Ledger α) (trail : List (Hop α × Rule α)) :
    Prop where
  kept : ∀ n m, n ≤ m → ∀ id state, (s.moment l trail n).states.get? id = some state →
    state.logic = .conflict → (s.moment l trail m).states.get? id = some state
  closed : s.config.detectsConflicts = false → ∀ n, l.BringsNoConflict (s.moment l trail n)

theorem keepsConflicts_of_known (hknown : ∀ h ∈ trail, ∃ r, h.2 = Rule.builtin r) :
    s.KeepsConflicts l trail := by
  constructor
  · intro n m hle id state hstate hlogic
    rw [s.moment_later l trail hle]
    refine after_of_conflict (fun h hh => hknown h ?_) hstate hlogic
    exact List.mem_of_mem_take (List.mem_of_mem_drop hh)
  · intro hdetect n
    refine s.after_induction (P := fun after => l.BringsNoConflict after)
      (fun l h hh c hl hc => ?_) (.refl l)
    obtain ⟨r, hrule⟩ := hknown h (List.mem_of_mem_take hh)
    exact write_bringsNoConflict hdetect hrule hl hc

theorem known_of_mem_hops (hregistry : s.registry = .builtin) {h : Hop α × Rule α}
    (hh : h ∈ s.hops) : ∃ r, h.2 = Rule.builtin r :=
  (rule_of_mem_hops hregistry hh).imp fun _ hrule => hrule.1

end Setting

omit [Quantity α] in
theorem mem_of_mem_settleTrail {β : Type} {pass : Ledger α → Ledger α × Bool}
    {trail : Ledger α → List β} {cap : Nat} {l : Ledger α} {x : β}
    (h : x ∈ settleTrail pass trail cap l) : ∃ l', x ∈ trail l' := by
  induction cap generalizing l with
  | zero => cases h
  | succ cap ih =>
    rw [settleTrail] at h
    split at h
    · exact ⟨l, h⟩
    · rcases List.mem_append.1 h with hfirst | hlater
      · exact ⟨l, hfirst⟩
      · exact ih hlater

namespace Engine

/-- All readings of a run, in order. -/
def runTrail (e : Engine α) (nodes : List (Node α)) (edges : List (Edge α))
    (overrides : Overrides α) : List (Hop α × Rule α) :=
  let s := e.setting (.ofLists nodes edges)
  settleTrail s.fullPass (fun _ => s.hops) e.config.passes (e.start nodes edges overrides)

theorem run_eq_after {e : Engine α} {nodes : List (Node α)} {overrides : Overrides α}
    {seeds : Table α} (h : (e.prepare nodes overrides).2 = .ok seeds) (edges : List (Edge α)) :
    (e.run nodes edges overrides).1.ledger = (e.setting (.ofLists nodes edges)).after
      (e.start nodes edges overrides) (e.runTrail nodes edges overrides) := by
  rw [run_of_accepted h]
  exact Setting.settle_fullPass_ledger _ _ _

theorem mem_hops_of_mem_runTrail {e : Engine α} {nodes : List (Node α)} {edges : List (Edge α)}
    {overrides : Overrides α} {h : Hop α × Rule α} (hh : h ∈ e.runTrail nodes edges overrides) :
    h ∈ (e.setting (.ofLists nodes edges)).hops :=
  (mem_of_mem_settleTrail hh).elim fun _ hmem => hmem

theorem run_eq_moment {e : Engine α} {nodes : List (Node α)} {overrides : Overrides α}
    {seeds : Table α} (h : (e.prepare nodes overrides).2 = .ok seeds) (edges : List (Edge α)) :
    (e.run nodes edges overrides).1.ledger = (e.setting (.ofLists nodes edges)).moment
      (e.start nodes edges overrides) (e.runTrail nodes edges overrides)
      (e.runTrail nodes edges overrides).length := by
  rw [Setting.moment, List.take_length]
  exact run_eq_after h edges

theorem mem_hops_of_mem_trail {e : Engine α} {id : String} {logic : LogicState}
    {nodes : List (Node α)} {edges : List (Edge α)} {h : Hop α × Rule α}
    (hh : h ∈ e.trail id logic nodes edges) : h ∈ (e.setting (.ofLists nodes edges)).hops := by
  obtain ⟨_, -, hat⟩ := List.mem_flatMap.1 hh
  exact ((Setting.mem_hopsAt rfl).1 hat).1

theorem update_eq_after (e : Engine α) (id : String) (logic : LogicState) (nodes : List (Node α))
    (edges : List (Edge α)) : ∃ hops, (∀ h ∈ hops, h ∈ (e.setting (.ofLists nodes edges)).hops) ∧
      (e.update id logic nodes edges).1.ledger =
        (e.setting (.ofLists nodes edges)).after (e.opening id logic nodes) hops := by
  rcases e.update_cases id logic nodes edges with ⟨outcome, hupdate, -⟩ | hupdate
  · exact ⟨[], by simp, by rw [hupdate, Setting.after_nil]⟩
  · refine ⟨e.trail id logic nodes edges, fun h hh => mem_hops_of_mem_trail hh, ?_⟩
    rw [hupdate]
    exact Setting.settle_passFrom_ledger _ _ _ _

/-- Under the known rules a call reads its trail from its first ledger on, and keeps all conflicts
on the way, whether it is a run or an update. -/
theorem calls_keep_conflicts {e : Engine α} (hregistry : e.registry = .builtin)
    (nodes : List (Node α)) (edges : List (Edge α)) :
    let s := e.setting (.ofLists nodes edges)
    (∀ overrides seeds, (e.prepare nodes overrides).2 = .ok seeds →
      let l := e.start nodes edges overrides
      let trail := e.runTrail nodes edges overrides
      (e.run nodes edges overrides).1.ledger = s.moment l trail trail.length ∧
        s.KeepsConflicts l trail) ∧
    ∀ id logic r, id ∈ nodes.map Node.id → (e.update id logic nodes edges).2 = .ok r →
      let l := e.opening id logic nodes
      let trail := e.trail id logic nodes edges
      (e.update id logic nodes edges).1.ledger = s.moment l trail trail.length ∧
        s.KeepsConflicts l trail := by
  intro s
  have hbuiltin : s.registry = .builtin := hregistry
  constructor
  · intro overrides seeds haccepted l trail
    refine ⟨?_, Setting.keepsConflicts_of_known fun h hh => ?_⟩
    · rw [Setting.moment, List.take_length]
      exact run_eq_after haccepted edges
    · obtain ⟨_, hmem⟩ := mem_of_mem_settleTrail hh
      exact Setting.known_of_mem_hops hbuiltin hmem
  · intro id logic r hid hupdate l trail
    refine ⟨?_, Setting.keepsConflicts_of_known fun h hh => ?_⟩
    · rw [Setting.moment, List.take_length]
      rw [update_spread hid hupdate]
      exact Setting.settle_passFrom_ledger _ _ _ _
    · obtain ⟨visited, -, hat⟩ := List.mem_flatMap.1 hh
      exact Setting.known_of_mem_hops hbuiltin ((Setting.mem_hopsAt rfl).1 hat).1

theorem calls_keep_conflicts_pair :
    let e : Engine Float := .new .standard .builtin
    let nodes : List (Node Float) := [⟨"a", .fact, "", 90.0⟩, ⟨"b", .fact, "", 85.0⟩]
    let edges : List (Edge Float) := [⟨"ab", "a", "b", "conflicts", 1.0⟩]
    let s := e.setting (.ofLists nodes edges)
    (∃ state, (s.moment (e.start nodes edges ∅) (e.runTrail nodes edges ∅) 1).states.get? "b" =
        some state ∧ state.logic = .conflict ∧
      (e.run nodes edges ∅).1.ledger.states.get? "b" = some state) ∧
    ∃ state, (s.moment (e.opening "a" .holds nodes) (e.trail "a" .holds nodes edges) 1).states.get?
        "b" = some state ∧ state.logic = .conflict ∧
      (e.update "a" .holds nodes edges).1.ledger.states.get? "b" = some state := by
  intro e nodes edges s
  obtain ⟨hrun, hupdate⟩ := calls_keep_conflicts (e := e) rfl nodes edges
  obtain ⟨hran, hkept⟩ := hrun ∅ _ (show (e.prepare nodes ∅).2 = .ok _ from rfl)
  obtain ⟨hedited, hheld⟩ := hupdate "a" .holds _ (by decide) rfl
  have hfirst : ((s.moment (e.start nodes edges ∅) (e.runTrail nodes edges ∅) 1).states.get?
      "b").any (·.logic = .conflict) = true := by decide +kernel
  have hsecond : ((s.moment (e.opening "a" .holds nodes) (e.trail "a" .holds nodes edges)
      1).states.get? "b").any (·.logic = .conflict) = true := by decide +kernel
  have hran' : 1 ≤ (e.runTrail nodes edges ∅).length := by decide +kernel
  have hedited' : 1 ≤ (e.trail "a" .holds nodes edges).length := by decide +kernel
  rw [Option.any_eq_true] at hfirst hsecond
  obtain ⟨state, hstate, hlogic⟩ := hfirst
  obtain ⟨state', hstate', hlogic'⟩ := hsecond
  rw [decide_eq_true_eq] at hlogic hlogic'
  refine ⟨⟨state, hstate, hlogic, ?_⟩, state', hstate', hlogic', ?_⟩
  · rw [hran]
    exact hkept.kept 1 _ hran' "b" state hstate hlogic
  · rw [hedited]
    exact hheld.kept 1 _ hedited' "b" state' hstate' hlogic'

end Engine
end ReasonGraph
