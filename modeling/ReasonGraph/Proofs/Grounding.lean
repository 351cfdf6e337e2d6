import ReasonGraph.Proofs.Clash
import ReasonGraph.Proofs.Stickiness
import Mathlib.Logic.Relation

/-! Where truth comes from. A rule proposes that its target holds only if it did already, or if the
source holds and supports, achieves or causes it. So whatever holds at some moment of a run is at
the end of a chain of such edges that begins at a node seeded to hold: no cycle, no conflict and no
backward reading makes truth out of nothing. Where nothing is known at all, nothing happens. -/

namespace ReasonGraph
variable {α : Type}

/-- An edge that hands on truth: the first node supports, achieves or causes the second. -/
def HandsOn (nodes : List (Node α)) (edges : List (Edge α)) (a b : String) : Prop :=
  a ∈ nodes.map Node.id ∧ b ∈ nodes.map Node.id ∧ ∃ edge ∈ edges, edge.source = a ∧
    edge.target = b ∧ ∃ r : Relation, edge.relation = r.name ∧
      (r = .supports ∨ r = .achieves ∨ r = .causes)

/-- A chain of such edges leads to the node from one that holds in the table. -/
def Grounded (nodes : List (Node α)) (edges : List (Edge α)) (t : Table α) (id : String) : Prop :=
  ∃ first, t.holds first = true ∧ Relation.ReflTransGen (HandsOn nodes edges) first id

/-- How a rule comes to a verdict on its target: it keeps the one that stands, refutes the target or
finds a conflict, hands on the truth of the source, or withdraws an achievement. -/
inductive Rule.Warrants (r : Relation) (e : Evidence α) : LogicState → Prop where
  | kept : Warrants r e e.target.logic
  | refuted : Warrants r e .fails
  | contested : Warrants r e .conflict
  | handed (hsource : e.source.logic = .holds)
      (hway : r = .supports ∨ r = .achieves ∨ r = .causes ∧ e.reversed = false) :
      Warrants r e .holds
  | withdrawn (hsource : e.source.logic = .fails) (hway : r = .achieves) : Warrants r e .unknown

variable [Quantity α]

namespace Rule

theorem inference_warrants {r : Relation} {e : Evidence α} {p : Proposal α}
    (h : inference r e = some p) : Warrants r e p.logic := by
  cases r with
  | depends =>
    simp only [inference, dependency] at h
    split at h
    · cases h
    split at h
    · cases h
      exact .contested
    split at h
    · cases h
      exact .refuted
    · cases h
  | supports =>
    simp only [inference, support] at h
    split at h
    · cases h
    split at h
    · rename_i hsource
      split at h
      · cases h
        simp only
        split
        · exact .handed hsource (.inl rfl)
        · exact .kept
      · cases h
    · repeat' split at h
      all_goals cases h
      exact .kept
  | achieves =>
    simp only [inference, achievement] at h
    split at h
    · cases h
    split at h
    · rename_i hsource
      split at h
      · cases h
        exact .handed hsource (.inr (.inl rfl))
      · cases h
    split at h
    · rename_i hsource
      split at h
      · cases h
        exact .withdrawn hsource rfl
      · cases h
    · cases h
  | hinders =>
    simp only [inference, hindrance] at h
    split at h
    · cases h
    split at h
    · cases h
      exact .refuted
    split at h
    · cases h
      change Warrants .hinders e (ite _ _ _)
      split
      · exact .refuted
      · exact .kept
    · cases h
  | causes =>
    simp only [inference, causation] at h
    split at h
    · cases h
    split at h
    · simp only [contrapositive] at h
      repeat' split at h
      all_goals cases h
      · exact .contested
      · exact .refuted
    · rename_i hforward
      simp only [effect] at h
      split at h
      · cases h
      rename_i hsource
      repeat' split at h
      all_goals cases h
      · exact .contested
      · exact .handed (not_not.1 hsource) (.inr (.inr ⟨rfl, Bool.eq_false_iff.2 hforward⟩))
  | conflicts =>
    simp only [inference, mutualConflict] at h
    repeat' split at h
    all_goals cases h
    · exact .contested
    · exact .refuted

theorem inference_of_unknown (r : Relation) {e : Evidence α} (h : e.source.logic = .unknown) :
    inference r e = none := by
  cases r <;> simp [inference, dependency, support, achievement, hindrance, causation, effect,
    contrapositive, mutualConflict, standsAgainst, h]

end Rule

namespace Setting
variable {s : Setting α} {nodes : List (Node α)} {edges : List (Edge α)} {seeds : Table α}

theorem handsOn_of_change (hg : s.graph = .ofLists nodes edges) (hregistry : s.registry = .builtin)
    {h : Hop α × Rule α} (hh : h ∈ s.hops) {t : Table α} {c : Change α}
    (hc : s.change? t h = some c) (hholds : c.entry.logic = .holds) :
    t.holds c.event.target = true ∨
      ∃ source, t.holds source = true ∧ HandsOn nodes edges source c.event.target := by
  obtain ⟨r, hrule, hrel⟩ := rule_of_mem_hops hregistry hh
  obtain ⟨hedge, -, hmutual⟩ := mem_hops.1 hh
  obtain ⟨hsourceMem, htargetMem⟩ := ends_of_change hg hc
  obtain ⟨e, p, he, hp, -, -, rfl⟩ := Hop.change?_eq_some hc
  obtain ⟨hsource, htarget, -, hreversed⟩ := Hop.evidence?_shows he
  rw [hrule] at hp hmutual
  rw [hg] at hedge
  have hwarrants := Rule.inference_warrants (floored_eq_some hp).2
  generalize hverdict : p.logic = verdict at hwarrants
  cases hwarrants with
  | kept => exact .inl (Table.holds_iff.2 ⟨e.target, htarget, hverdict ▸ hholds⟩)
  | refuted => cases hverdict.symm.trans hholds
  | contested => cases hverdict.symm.trans hholds
  | withdrawn => cases hverdict.symm.trans hholds
  | handed hsourceHolds hway =>
    refine .inr ⟨h.1.source, Table.holds_iff.2 ⟨e.source, hsource, hsourceHolds⟩, ?_⟩
    -- support and achievement are never read backwards
    have hforward : h.1.reversed = false := by
      rcases hway with rfl | rfl | ⟨-, hforward⟩
      · exact Bool.eq_false_iff.2 fun hback => by cases hmutual hback
      · exact Bool.eq_false_iff.2 fun hback => by cases hmutual hback
      · exact hreversed ▸ hforward
    refine ⟨hsourceMem, htargetMem, h.1.edge, hedge, ?_, ?_, r, hrel, ?_⟩
    · simp [Hop.source, hforward]
    · simp [Proposal.change_target, Hop.target, hforward]
    · exact hway.imp_right (Or.imp_right And.left)

theorem after_grounded (hg : s.graph = .ofLists nodes edges) (hregistry : s.registry = .builtin)
    {hops : List (Hop α × Rule α)} (hhops : ∀ h ∈ hops, h ∈ s.hops) {l : Ledger α}
    (hl : ∀ id, l.states.holds id = true → Grounded nodes edges seeds id) (id : String)
    (hid : (s.after l hops).states.holds id = true) : Grounded nodes edges seeds id := by
  refine s.after_induction
    (P := fun now => ∀ id, now.states.holds id = true → Grounded nodes edges seeds id) ?_ hl id hid
  intro now h hh c hnow hc id hid
  obtain ⟨state, hstate, hholds⟩ := Table.holds_iff.1 hid
  rw [Ledger.write_get?] at hstate
  split at hstate
  · rename_i htarget
    obtain rfl := Option.some.inj hstate
    subst htarget
    rcases handsOn_of_change hg hregistry (hhops h hh) hc hholds with hheld | ⟨_, hsource, hedge⟩
    · exact hnow _ hheld
    · obtain ⟨first, hfirst, hchain⟩ := hnow _ hsource
      exact ⟨first, hfirst, hchain.tail hedge⟩
  · exact hnow id (Table.holds_iff.2 ⟨state, hstate, hholds⟩)

theorem change?_of_unknown (hregistry : s.registry = .builtin) {t : Table α} {h : Hop α × Rule α}
    (ht : ∀ state, t.get? h.1.source = some state → state.logic = .unknown) (hh : h ∈ s.hops) :
    s.change? t h = none := by
  rw [Option.eq_none_iff_forall_not_mem]
  intro c hc
  obtain ⟨r, hrule, -⟩ := rule_of_mem_hops hregistry hh
  obtain ⟨e, p, he, hp, -⟩ := Hop.change?_eq_some hc
  obtain ⟨hsource, -⟩ := Hop.evidence?_shows he
  rw [hrule] at hp
  have hsaid := (floored_eq_some hp).2
  rw [Rule.inference_of_unknown r (ht _ hsource)] at hsaid
  cases hsaid

end Setting

namespace Engine

/-- Truth is grounded. At every moment of a run, from the seeds on to what the run leaves, what
holds is led to by a chain of edges that hand on truth, from a node seeded to hold. So if none is,
nothing ever holds, and if nothing is known the first pass a run makes is its last, without an
event. -/
theorem run_grounded {e : Engine α} (hregistry : e.registry = .builtin) {nodes : List (Node α)}
    {overrides : Overrides α} {seeds : Table α}
    (haccepted : (e.prepare nodes overrides).2 = .ok seeds) (edges : List (Edge α)) :
    let s := e.setting (.ofLists nodes edges)
    let l := e.start nodes edges overrides
    let trail := e.runTrail nodes edges overrides
    (l.states = seeds ∧ (e.run nodes edges overrides).1.ledger = s.moment l trail trail.length) ∧
    (∀ n id, (s.moment l trail n).states.holds id = true → Grounded nodes edges seeds id) ∧
    ((∀ id, seeds.holds id = false) → ∀ n id, (s.moment l trail n).states.holds id = false) ∧
    ((∀ id seed, seeds.get? id = some seed → seed.logic = .unknown) → 0 < e.config.passes →
      ∃ r, (e.run nodes edges overrides).2 = .ok r ∧ r.converged = true ∧ r.iterations = 1 ∧
        r.events = []) := by
  intro s l trail
  have hseeds : l.states = seeds :=
    (start_states e nodes edges overrides).trans (prepare_given haccepted)
  have hgrounded : ∀ n id, (s.moment l trail n).states.holds id = true →
      Grounded nodes edges seeds id := by
    intro n id hid
    refine Setting.after_grounded rfl hregistry (fun h hh => ?_) (fun id hid => ?_) id hid
    · exact (mem_of_mem_settleTrail (List.mem_of_mem_take hh)).elim fun _ hmem => hmem
    · exact ⟨id, hseeds ▸ hid, .refl⟩
  refine ⟨⟨hseeds, ?_⟩, hgrounded, fun hnone n id => ?_, fun hunknown hpasses => ?_⟩
  · rw [Setting.moment, List.take_length]
    exact run_eq_after haccepted edges
  · rw [Bool.eq_false_iff]
    intro hid
    obtain ⟨first, hfirst, -⟩ := hgrounded n id hid
    rw [hnone first] at hfirst
    cases hfirst
  · have hquiet : ∀ h ∈ s.hops, s.change? l.states h = none := fun h hh =>
      Setting.change?_of_unknown hregistry (hseeds ▸ hunknown _) hh
    have hsettled : settle s.fullPass e.config.passes l = ⟨l, true, 1⟩ :=
      settle_of_quiet hpasses (Setting.fullPass_of_quiet hquiet)
    refine ⟨_, congrArg Prod.snd (run_of_accepted haccepted edges), ?_⟩
    change (settle s.fullPass e.config.passes l).result.converged = true ∧ _
    rw [hsettled]
    exact ⟨rfl, rfl, (noteCycles_events _ _).trans (prepare_events _ _ _)⟩

theorem run_grounded_chain :
    let e : Engine Float := .new .standard .builtin
    let known : Node Float := ⟨"rain", .fact, "", 90.0⟩
    let others : List (Node Float) :=
      [⟨"wet", .assumption, "", 50.0⟩, ⟨"grown", .goal, "", 50.0⟩, ⟨"sold", .goal, "", 50.0⟩]
    let edges : List (Edge Float) :=
      [⟨"rw", "rain", "wet", "supports", 1.0⟩, ⟨"wg", "wet", "grown", "achieves", 1.0⟩,
        ⟨"gs", "grown", "sold", "causes", 1.0⟩]
    (∃ seeds, (e.prepare (known :: others) ∅).2 = .ok seeds ∧ seeds.holds "sold" = false ∧
      (e.run (known :: others) edges ∅).1.ledger.states.holds "sold" = true ∧
      Grounded (known :: others) edges seeds "sold") ∧
    (∃ seeds, (e.prepare others ∅).2 = .ok seeds ∧
      (∀ id seed, seeds.get? id = some seed → seed.logic = .unknown) ∧
      ∃ r, (e.run others edges ∅).2 = .ok r ∧ r.converged = true ∧ r.iterations = 1 ∧
        r.events = []) := by
  intro e known others edges
  obtain ⟨seeds, haccepted⟩ : ∃ seeds, (e.prepare (known :: others) ∅).2 = .ok seeds := ⟨_, rfl⟩
  obtain ⟨unknowns, hunknowns⟩ : ∃ seeds, (e.prepare others ∅).2 = .ok seeds := ⟨_, rfl⟩
  have hall : ∀ entry ∈ unknowns.entries, entry.2.logic = .unknown := by
    cases hunknowns
    decide +kernel
  have hunknown : ∀ id seed, unknowns.get? id = some seed → seed.logic = .unknown :=
    fun id seed hseed => hall (id, seed) (OrderedMap.mem_of_find hseed)
  have hheld : (e.run (known :: others) edges ∅).1.ledger.states.holds "sold" = true := by
    decide +kernel
  obtain ⟨⟨-, hend⟩, hgrounded, -⟩ := run_grounded rfl haccepted edges
  have hchain := hgrounded _ "sold" (hend ▸ hheld)
  refine ⟨⟨seeds, haccepted, ?_, hheld, hchain⟩,
    unknowns, hunknowns, hunknown, (run_grounded rfl hunknowns edges).2.2.2 hunknown (by decide)⟩
  cases haccepted
  decide +kernel

end Engine
end ReasonGraph
