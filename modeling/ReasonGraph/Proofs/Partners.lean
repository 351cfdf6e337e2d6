import ReasonGraph.Proofs.Provenance
import ReasonGraph.Proofs.Docket

/-! With whom a node is in conflict. A contradiction names the node at the other end of its edge,
and what depends on a conflict takes over whom the conflict is with. So each conflict that comes up
in a run has one partner, and that partner is found by going back along dependencies to where the
contradiction was. Where the dependencies lead back to the partner, it is handed its own name. -/

namespace ReasonGraph
variable {α : Type}

/-- Two nodes that can contradict each other: an edge of causation or mutual conflict joins them. -/
def MayClash (edges : List (Edge α)) (a b : String) : Prop :=
  ∃ edge ∈ edges, (edge.relation = Relation.causes.name ∨
      edge.relation = Relation.conflicts.name) ∧
    (edge.source = a ∧ edge.target = b ∨ edge.source = b ∧ edge.target = a)

def Underlies (edges : List (Edge α)) (a b : String) : Prop :=
  ∃ edge ∈ edges, edge.relation = Relation.depends.name ∧ edge.source = a ∧ edge.target = b

/-- How a node comes to its partner: it is reached by dependencies from a node that clashes with the
partner, or that depends on the partner, which was seeded in conflict with nobody. -/
def TracesTo (edges : List (Edge α)) (seeds : Table α) (id partner : String) : Prop :=
  ∃ origin, (MayClash edges partner origin ∨
      Underlies edges partner origin ∧ seeds.InConflict partner) ∧
    Relation.ReflTransGen (Underlies edges) origin id

theorem TracesTo.inherit {edges : List (Edge α)} {seeds : Table α} {a b partner : String}
    (h : TracesTo edges seeds a partner) (hab : Underlies edges a b) :
    TracesTo edges seeds b partner :=
  h.imp fun _ ⟨hfirst, hchain⟩ => ⟨hfirst, hchain.tail hab⟩

namespace Ledger

def Opposes (now : Ledger α) (partner id : String) : Prop :=
  ∃ state, now.states.get? id = some state ∧ state.logic = .conflict ∧
    state.partners = some [partner]

/-- Whom an event of conflict gives its target as a partner: its source, or, if the target depends
on the source, the partner of the source, if it has one. -/
def Gives (now : Ledger α) (ev : Event α) (partner : String) : Prop :=
  if ev.relation = Relation.depends.name then
    ∃ source, now.states.get? ev.source = some source ∧ source.logic = .conflict ∧
      source.partners.getD [ev.source] = [partner]
  else partner = ev.source

/-- The target of an event depends on the source, and the source has the target as its partner. -/
def HandsBack (now : Ledger α) (ev : Event α) : Prop :=
  ev.relation = Relation.depends.name ∧ now.Opposes ev.target ev.source

variable {now : Ledger α} {c : Change α}

theorem Opposes.write (hopen : ¬now.states.InConflict c.event.target) {partner id : String}
    (h : now.Opposes partner id) : (now.write c).Opposes partner id := by
  obtain ⟨state, hstate, hlogic, hpartners⟩ := h
  exact ⟨state, write_get?_of_conflict hopen hstate hlogic, hlogic, hpartners⟩

theorem Gives.write (hopen : ¬now.states.InConflict c.event.target) {ev : Event α}
    {partner : String} (h : now.Gives ev partner) : (now.write c).Gives ev partner := by
  unfold Gives at h ⊢
  split at h
  · rename_i hrel
    rw [if_pos hrel]
    obtain ⟨source, hsource, hlogic, hpartners⟩ := h
    exact ⟨source, write_get?_of_conflict hopen hsource hlogic, hlogic, hpartners⟩
  · rename_i hrel
    rwa [if_neg hrel]

theorem Gives.handsBack_iff {ev : Event α} {partner : String} (h : now.Gives ev partner)
    (hapart : ev.source ≠ ev.target) : partner = ev.target ↔ now.HandsBack ev := by
  unfold Gives at h
  split at h
  · rename_i hrel
    obtain ⟨source, hsource, hlogic, hpartners⟩ := h
    constructor
    · rintro rfl
      refine ⟨hrel, source, hsource, hlogic, ?_⟩
      cases hgiven : source.partners with
      | none =>
        rw [hgiven] at hpartners
        exact absurd (List.singleton_inj.1 hpartners) hapart
      | some given =>
        rw [hgiven] at hpartners
        exact congrArg some hpartners
    · rintro ⟨-, source', hsource', -, hpartners'⟩
      cases hsource.symm.trans hsource'
      rw [hpartners'] at hpartners
      exact (List.singleton_inj.1 hpartners).symm
  · rename_i hrel
    rw [h]
    exact ⟨fun heq => absurd heq hapart, fun hback => absurd hback.1 hrel⟩

/-- Whom the events and records of conflict name. An event of conflict left its target in conflict
with one partner, a node, and that is the target itself just if the target was handed its own name
back. Then it clashed with a node that underlies it. A record lists a target and its partner. -/
structure PairsOff (now : Ledger α) (nodes : List (Node α)) (edges : List (Edge α)) : Prop where
  paired : ∀ ev ∈ now.events, ev.newLogic = .conflict → ∃ partner ∈ nodes.map Node.id,
    now.Opposes partner ev.target ∧ now.Gives ev partner ∧
      (partner = ev.target ↔ now.HandsBack ev)
  ring : ∀ ev ∈ now.events, ev.newLogic = .conflict → now.HandsBack ev →
    ∃ other ≠ ev.target, MayClash edges ev.target other ∧
      Relation.TransGen (Underlies edges) other ev.target
  recorded : ∀ record ∈ now.conflicts, ∃ ev ∈ now.events, ev.newLogic = .conflict ∧
    ∃ partner, now.Opposes partner ev.target ∧ record.nodes = [ev.target, partner]

end Ledger

structure Setting.Pairs (nodes : List (Node α)) (edges : List (Edge α)) (seeds : Table α)
    (now : Ledger α) : Prop where
  seeded : ∀ id, seeds.InConflict id → now.states.InConflict id
  states : ∀ id state, now.states.get? id = some state → state.logic = .conflict →
    seeds.InConflict id ∧ state.partners = none ∨
      ¬seeds.InConflict id ∧ ∃ partner ∈ nodes.map Node.id, state.partners = some [partner] ∧
        TracesTo edges seeds id partner
  events : ∀ ev ∈ now.events, ev.newLogic = .conflict → ∃ partner,
    now.Opposes partner ev.target ∧ now.Gives ev partner
  records : ∀ record ∈ now.conflicts, ∃ ev ∈ now.events, ev.newLogic = .conflict ∧
    ∃ partner, now.Opposes partner ev.target ∧ record.nodes = [ev.target, partner]

variable [Quantity α]

theorem Rule.inference_partners {r : Relation} {e : Evidence α} {p : Proposal α}
    (h : inference r e = some p) (hconflict : p.logic = .conflict) :
    (r = .depends ∧ e.source.logic = .conflict ∧ p.partners =
        some (if (e.source.partners.getD []).isEmpty then [e.sourceNode.id]
          else e.source.partners.getD [])) ∨
      (r = .causes ∨ r = .conflicts) ∧ p.partners = some [e.sourceNode.id] := by
  have hopen : e.target.logic ≠ .conflict := by
    intro hclosed
    rw [inference_of_conflict r hclosed] at h
    cases h
  cases r with
  | depends =>
    simp only [inference, dependency, Evidence.contest, Evidence.propose] at h
    repeat' split at h
    all_goals cases h
    · exact .inl ⟨rfl, ‹_›, by rw [if_pos ‹_›]⟩
    · exact .inl ⟨rfl, ‹_›, by rw [if_neg ‹_›]⟩
    · cases hconflict
  | causes =>
    simp only [inference, causation, contrapositive, effect] at h
    repeat' split at h
    all_goals cases h
    all_goals first
      | exact .inr ⟨.inl rfl, rfl⟩
      | cases hconflict
  | conflicts =>
    simp only [inference, mutualConflict] at h
    repeat' split at h
    all_goals cases h
    · exact .inr ⟨.inr rfl, rfl⟩
    · cases hconflict
  | supports =>
    simp only [inference, support] at h
    repeat' split at h
    all_goals cases h
    all_goals simp_all
  | achieves =>
    simp only [inference, achievement] at h
    repeat' split at h
    all_goals cases h
    all_goals cases hconflict
  | hinders =>
    simp only [inference, hindrance] at h
    repeat' split at h
    all_goals cases h
    all_goals simp_all

namespace Setting
variable {s : Setting α} {nodes : List (Node α)} {edges : List (Edge α)} {seeds : Table α}
  {now : Ledger α} {h : Hop α × Rule α} {c : Change α}

/-- A change to a conflict takes over that of a node that underlies the target, or it comes from a
clash with the source. -/
theorem change?_partners (hg : s.graph = .ofLists nodes edges) (hregistry : s.registry = .builtin)
    (hh : h ∈ s.hops) {t : Table α} (hc : s.change? t h = some c)
    (hconflict : c.event.newLogic = .conflict) :
    (c.event.relation = Relation.depends.name ∧ Underlies edges c.event.source c.event.target ∧
      ∃ source, t.get? c.event.source = some source ∧ source.logic = .conflict ∧
        c.entry.partners = some (if (source.partners.getD []).isEmpty then [c.event.source]
          else source.partners.getD [])) ∨
      c.event.relation ≠ Relation.depends.name ∧ MayClash edges c.event.source c.event.target ∧
        c.entry.partners = some [c.event.source] := by
  obtain ⟨r, hrule, hrel⟩ := rule_of_mem_hops hregistry hh
  have hedge := (mem_hops.1 hh).1
  obtain ⟨e, p, he, hp, -, -, rfl⟩ := Hop.change?_eq_some hc
  rw [hrule] at hp
  rw [hg] at hedge he
  obtain ⟨hsource, -, -⟩ := Hop.evidence?_shows he
  have hid := (Hop.evidence?_ids he).1
  have hwritten : (p.change h.1 e.target).entry.partners = some (p.partners.getD []) :=
    if_pos hconflict
  have hnamed := Rule.inference_partners (floored_eq_some hp).2 hconflict
  rw [hid] at hnamed
  rcases hnamed with ⟨rfl, hlogic, hpartners⟩ | ⟨hclash, hpartners⟩
  · have hforward := forward_of_mem_hops hregistry hh hrel rfl
    refine .inl ⟨hrel, ⟨h.1.edge, hedge, hrel, ?_, ?_⟩, e.source, hsource, hlogic, ?_⟩
    · simp [Proposal.change, Hop.source, hforward]
    · simp [Proposal.change, Hop.target, hforward]
    · rw [hwritten, hpartners]
      rfl
  · refine .inr ⟨?_, ⟨h.1.edge, hedge, ?_, ?_⟩, ?_⟩
    · intro hdepends
      obtain rfl := Relation.name_injective (hrel.symm.trans hdepends)
      rcases hclash with hclash | hclash <;> cases hclash
    · rcases hclash with rfl | rfl
      · exact .inl hrel
      · exact .inr hrel
    · cases hr : h.1.reversed <;> simp [Proposal.change, Hop.source, Hop.target, hr]
    · rw [hwritten, hpartners]
      rfl

theorem Pairs.given (hg : s.graph = .ofLists nodes edges) (hregistry : s.registry = .builtin)
    (hnow : Pairs nodes edges seeds now) (hh : h ∈ s.hops)
    (hc : s.change? now.states h = some c) (hconflict : c.event.newLogic = .conflict) :
    ∃ partner ∈ nodes.map Node.id, c.entry.partners = some [partner] ∧
      TracesTo edges seeds c.event.target partner ∧ now.Gives c.event partner := by
  have hnode : c.event.source ∈ nodes.map Node.id := by
    obtain ⟨_, _, -, -, -, -, rfl⟩ := Hop.change?_eq_some hc
    exact (ends_of_change hg hc).1
  rcases change?_partners hg hregistry hh hc hconflict with
    ⟨hrel, hunder, source, hsource, hlogic, hpartners⟩ | ⟨hrel, hclash, hpartners⟩
  · have hgives : ∀ partner, source.partners.getD [c.event.source] = [partner] →
        now.Gives c.event partner := fun partner hgiven => by
      rw [Ledger.Gives, if_pos hrel]
      exact ⟨source, hsource, hlogic, hgiven⟩
    rcases hnow.states _ source hsource hlogic with
      ⟨hseeded, hnone⟩ | ⟨-, partner, hmem, hsome, htrace⟩
    · refine ⟨c.event.source, hnode, ?_, ⟨c.event.target, .inr ⟨hunder, hseeded⟩, .refl⟩, ?_⟩
      · rw [hpartners, hnone]
        rfl
      · exact hgives _ (by rw [hnone]; rfl)
    · refine ⟨partner, hmem, ?_, htrace.inherit hunder, ?_⟩
      · rw [hpartners, hsome]
        rfl
      · exact hgives _ (by rw [hsome]; rfl)
  · refine ⟨c.event.source, hnode, hpartners, ⟨c.event.target, .inl hclash, .refl⟩, ?_⟩
    rw [Ledger.Gives, if_neg hrel]

theorem Pairs.write (hg : s.graph = .ofLists nodes edges) (hregistry : s.registry = .builtin)
    (hnow : Pairs nodes edges seeds now) (hh : h ∈ s.hops)
    (hc : s.change? now.states h = some c) : Pairs nodes edges seeds (now.write c) := by
  obtain ⟨r, hrule⟩ := known_of_mem_hops hregistry hh
  have hopen := change?_target_open hrule hc
  obtain ⟨htold, hrecord, -⟩ := change?_records hc
  have hgiven := hnow.given hg hregistry hh hc
  have hheld : (now.write c).states.get? c.event.target = some c.entry := by
    rw [Ledger.write_get?, if_pos rfl]
  constructor
  · intro id hseeded
    obtain ⟨state, hstate, hlogic⟩ := hnow.seeded id hseeded
    exact ⟨state, Ledger.write_get?_of_conflict hopen hstate hlogic, hlogic⟩
  · intro id state hstate hlogic
    rw [Ledger.write_get?] at hstate
    split at hstate
    · rename_i hid
      cases hstate
      obtain ⟨partner, hmem, hpartners, htrace, -⟩ := hgiven (htold ▸ hlogic)
      rw [← hid]
      exact .inr ⟨fun hseeded => hopen (hnow.seeded _ hseeded), partner, hmem, hpartners, htrace⟩
    · exact hnow.states id state hstate hlogic
  · intro ev hev hconflict
    rcases List.mem_append.1 hev with hearlier | hlast
    · obtain ⟨partner, hopposes, hgives⟩ := hnow.events ev hearlier hconflict
      exact ⟨partner, hopposes.write hopen, hgives.write hopen⟩
    · obtain rfl := List.mem_singleton.1 hlast
      obtain ⟨partner, -, hpartners, -, hgives⟩ := hgiven hconflict
      exact ⟨partner, ⟨c.entry, hheld, htold.trans hconflict, hpartners⟩, hgives.write hopen⟩
  · intro record hrecorded
    rcases List.mem_append.1 hrecorded with hearlier | hlast
    · obtain ⟨ev, hev, hconflict, partner, hopposes, hnodes⟩ := hnow.records record hearlier
      exact ⟨ev, List.mem_append_left _ hev, hconflict, partner, hopposes.write hopen, hnodes⟩
    · rw [Option.mem_toList.1 hlast, Option.map_some] at hrecord
      split at hrecord
      · rename_i hconflict
        obtain ⟨partner, -, hpartners, -, -⟩ := hgiven hconflict
        refine ⟨c.event, by simp, hconflict, partner,
          ⟨c.entry, hheld, htold.trans hconflict, hpartners⟩, ?_⟩
        rw [Option.some.inj hrecord, Change.parties, hpartners]
        rfl
      · cases hrecord

theorem after_pairs (hg : s.graph = .ofLists nodes edges) (hregistry : s.registry = .builtin)
    {hops : List (Hop α × Rule α)} (hhops : ∀ h ∈ hops, h ∈ s.hops) {l : Ledger α}
    (hl : Pairs nodes edges seeds l) : Pairs nodes edges seeds (s.after l hops) :=
  s.after_induction (P := Pairs nodes edges seeds)
    (fun _ h hh _ hnow hc => hnow.write hg hregistry (hhops h hh) hc) hl

omit [Quantity α] in
theorem Pairs.ring (hnow : Pairs nodes edges seeds now)
    (hloops : ∀ edge ∈ edges, edge.source ≠ edge.target) {id : String}
    (hself : now.Opposes id id) :
    ∃ other ≠ id, MayClash edges id other ∧ Relation.TransGen (Underlies edges) other id := by
  obtain ⟨state, hstate, hlogic, hpartners⟩ := hself
  rcases hnow.states id state hstate hlogic with
    ⟨-, hnone⟩ | ⟨hfresh, partner, -, hsome, origin, hfirst, hchain⟩
  · cases hnone.symm.trans hpartners
  · obtain rfl : partner = id := by simpa using hsome.symm.trans hpartners
    have hclash := hfirst.resolve_right fun hseeded => hfresh hseeded.2
    have hne : origin ≠ partner := by
      rintro rfl
      obtain ⟨edge, hedge, -, hends⟩ := hclash
      exact hloops edge hedge (hends.elim (fun h => h.1.trans h.2.symm) fun h => h.1.trans h.2.symm)
    exact ⟨origin, hne, hclash,
      (Relation.reflTransGen_iff_eq_or_transGen.1 hchain).resolve_left (Ne.symm hne)⟩

omit [Quantity α] in
theorem Pairs.pairsOff (hnow : Pairs nodes edges seeds now)
    (hloops : ∀ edge ∈ edges, edge.source ≠ edge.target)
    (hapart : ∀ ev ∈ now.events, ev.source ≠ ev.target) : now.PairsOff nodes edges := by
  refine ⟨fun ev hev hconflict => ?_, fun ev hev hconflict hback => ?_, hnow.records⟩ <;>
    obtain ⟨partner, hopposes, hgives⟩ := hnow.events ev hev hconflict
  · obtain ⟨state, hstate, hlogic, hpartners⟩ := id hopposes
    refine ⟨partner, ?_, hopposes, hgives, hgives.handsBack_iff (hapart ev hev)⟩
    rcases hnow.states _ state hstate hlogic with ⟨-, hnone⟩ | ⟨-, partner', hmem, hsome, -⟩
    · cases hnone.symm.trans hpartners
    · obtain rfl : partner' = partner := by simpa using hsome.symm.trans hpartners
      exact hmem
  · obtain rfl := (hgives.handsBack_iff (hapart ev hev)).2 hback
    exact hnow.ring hloops hopposes

end Setting

namespace Engine
variable {e : Engine α} {nodes : List (Node α)} {edges : List (Edge α)} {overrides : Overrides α}

theorem start_pairs {seeds : Table α} (haccepted : (e.prepare nodes overrides).2 = .ok seeds)
    (edges : List (Edge α)) :
    Setting.Pairs nodes edges seeds (e.start nodes edges overrides) := by
  have hseeds := start_seeds haccepted edges
  constructor
  · rw [hseeds]
    exact fun _ hseeded => hseeded
  · intro id state hstate hlogic
    rw [hseeds] at hstate
    refine .inl ⟨⟨state, hstate, hlogic⟩, ?_⟩
    rw [← prepare_given haccepted] at hstate
    exact prepare_partners hstate
  · simp [start_events]
  · simp [start_conflicts]

/-- In a run over a graph without loops each conflict that comes up is with one node, which is
another one unless a dependency hands a node its own name. At every moment events, records and
states agree on it, and a node that is handed its own name clashed with one that it depends on in
turn. -/
theorem run_pairs_off (hregistry : e.registry = .builtin)
    (hloops : ∀ edge ∈ edges, edge.source ≠ edge.target) {seeds : Table α}
    (haccepted : (e.prepare nodes overrides).2 = .ok seeds) :
    let s := e.setting (.ofLists nodes edges)
    let l := e.start nodes edges overrides
    let trail := e.runTrail nodes edges overrides
    (∃ r, (e.run nodes edges overrides).2 = .ok r ∧
      r = (Settled.mk (s.moment l trail trail.length) r.converged r.iterations).result) ∧
    ∀ n, (s.moment l trail n).PairsOff nodes edges := by
  intro s l trail
  constructor
  · have hrun := congrArg Prod.snd (run_of_accepted haccepted edges)
    have hshown := run_shows hrun
    rw [run_eq_moment haccepted] at hshown
    exact ⟨_, hrun, hshown⟩
  · intro n
    have hcredits := moment_credits hregistry nodes edges overrides n
    have hpairs : Setting.Pairs nodes edges seeds (s.moment l trail n) :=
      Setting.after_pairs rfl hregistry
        (fun h hh => mem_hops_of_mem_runTrail (List.mem_of_mem_take hh))
        (start_pairs haccepted edges)
    refine hpairs.pairsOff hloops fun ev hev hself => ?_
    obtain ⟨edge, hedge, hends⟩ := hcredits.loop_of_self rfl hev hself
    exact hloops edge hedge (hends.1.trans hends.2.symm)

theorem run_pairs_off_ring :
    let e : Engine Float := .new .standard .builtin
    let nodes : List (Node Float) :=
      [⟨"a", .fact, "", 90.0⟩, ⟨"b", .fact, "", 10.0⟩, ⟨"c", .goal, "", 50.0⟩]
    let edges : List (Edge Float) := [⟨"ab", "a", "b", "causes", 1.0⟩,
      ⟨"bc", "b", "c", "depends", 1.0⟩, ⟨"ca", "c", "a", "depends", 1.0⟩]
    let now := (e.setting (.ofLists nodes edges)).moment (e.start nodes edges ∅)
      (e.runTrail nodes edges ∅) (e.runTrail nodes edges ∅).length
    (∀ edge ∈ edges, edge.source ≠ edge.target) ∧ now.PairsOff nodes edges ∧
      now.conflicts.map (·.nodes) = [["b", "a"], ["c", "a"], ["a", "a"]] ∧
      ∃ other ≠ "a", MayClash edges "a" other ∧
        Relation.TransGen (Underlies edges) other "a" := by
  intro e nodes edges now
  have hloops : ∀ edge ∈ edges, edge.source ≠ edge.target := by decide
  have hpairs := (run_pairs_off (e := e) rfl hloops
    (show (e.prepare nodes ∅).2 = .ok _ from rfl)).2
  have hback : now.events.any (fun ev => ev.target = "a" && ev.newLogic = .conflict &&
      ev.relation = Relation.depends.name && ev.source = "c") = true := by decide +kernel
  have hthird : (now.states.get? "c").any (fun state => state.logic = .conflict &&
      state.partners = some ["a"]) = true := by decide +kernel
  obtain ⟨ev, hev, hcheck⟩ := List.any_eq_true.1 hback
  obtain ⟨state, hstate, hstands⟩ := (Option.any_eq_true _ _).1 hthird
  simp only [Bool.and_eq_true, decide_eq_true_eq] at hcheck hstands
  obtain ⟨⟨⟨htarget, hconflict⟩, hrel⟩, hsource⟩ := hcheck
  have hring := (hpairs _).ring ev hev hconflict
    ⟨hrel, state, hsource ▸ hstate, hstands.1, htarget ▸ hstands.2⟩
  rw [htarget] at hring
  exact ⟨hloops, hpairs _, by decide +kernel, hring⟩

/-- So a node may be its own partner: what was in conflict with it underlies it. -/
theorem cause_opposes_itself :
    let e : Engine Float := .new .standard .builtin
    let nodes : List (Node Float) := [⟨"a", .fact, "", 90.0⟩, ⟨"b", .fact, "", 10.0⟩]
    let edges : List (Edge Float) :=
      [⟨"ab", "a", "b", "causes", 1.0⟩, ⟨"ba", "b", "a", "depends", 1.0⟩]
    (∀ edge ∈ edges, edge.source ≠ edge.target) ∧
    ∃ r state, (e.run nodes edges ∅).2 = .ok r ∧ r.converged = true ∧
      (∃ ev ∈ r.events, ev.target = "a" ∧ ev.newLogic = .conflict) ∧
      r.states.get? "a" = some state ∧ state.logic = .conflict ∧ state.partners = some ["a"] ∧
      r.conflicts.map (·.nodes) = [["b", "a"], ["a", "a"]] := by
  intro e nodes edges
  obtain ⟨r, hrun, hconverged, hevents, hstates, hconflicts⟩ : ∃ r,
      (e.run nodes edges ∅).2 = .ok r ∧ r.converged = true ∧
      r.events.any (fun ev => ev.target = "a" && ev.newLogic = .conflict) = true ∧
      (r.states.get? "a").any (fun state => state.logic = .conflict &&
        state.partners = some ["a"]) = true ∧
      r.conflicts.map (·.nodes) = [["b", "a"], ["a", "a"]] := ⟨_, rfl, by decide +kernel⟩
  obtain ⟨ev, hev, hcheck⟩ := List.any_eq_true.1 hevents
  obtain ⟨state, hstate, hstands⟩ := (Option.any_eq_true _ _).1 hstates
  simp only [Bool.and_eq_true, decide_eq_true_eq] at hcheck hstands
  exact ⟨by decide, r, state, hrun, hconverged, ⟨ev, hev, hcheck⟩, hstate, hstands.1, hstands.2,
    hconflicts⟩

end Engine
end ReasonGraph
