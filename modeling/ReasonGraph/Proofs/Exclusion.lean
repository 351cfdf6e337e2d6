import ReasonGraph.Proofs.Clash
import ReasonGraph.Proofs.Passes
import ReasonGraph.Proofs.Standing

/-! What a run makes of exclusions alone. An edge that is a clash when it is read puts its ends in
conflict with each other, and every other edge at most refutes what was unknown. So the first pass
pairs off the statements that hold, and no later pass has anything to add to the pairs. -/

namespace ReasonGraph
variable {α : Type} [Quantity α]

/-- A graph of exclusions alone, read by an engine that looks for conflicts and hears every
source. -/
structure Setting.OnlyExcludes (s : Setting α) (nodes : List (Node α)) (edges : List (Edge α)) :
    Prop where
  graph : s.graph = .ofLists nodes edges
  registry : s.registry = .builtin
  detects : s.config.detectsConflicts = true
  floor : s.config.floor = 0.0
  relation : ∀ e ∈ edges, e.relation = Relation.conflicts.name

namespace Setting
variable {s : Setting α} {nodes : List (Node α)} {edges : List (Edge α)}

theorem OnlyExcludes.change?_cases (hs : s.OnlyExcludes nodes edges) {now : Table α} {h : Hop α}
    {c : Change α} (hc : s.change? now (h, .builtin .conflicts) = some c) :
    ∃ a b, now.get? h.source = some a ∧ now.get? h.target = some b ∧
      ((b.logic = .holds ∧
          (a.logic = .holds ∨ a.logic = .conflict ∧ h.target ∈ a.partners.getD [])) ∨
        (b.logic = .unknown ∧ c.entry.logic = .fails)) := by
  obtain ⟨e, p, he, hp, -, -, rfl⟩ := Hop.change?_eq_some hc
  obtain ⟨sourceNode, targetNode, a, b, -, htargetNode, ha, hb, rfl⟩ := Hop.evidence?_eq_some he
  rw [hs.graph] at htargetNode
  have hid : targetNode.id = h.target := (Snapshot.nodeMap_get? htargetNode).2
  refine ⟨a, b, ha, hb, ?_⟩
  have hinfer := (floored_eq_some hp).2
  simp only [Rule.inference, Rule.mutualConflict, Rule.standsAgainst, Evidence.contest,
    Evidence.propose, hid] at hinfer
  cases hlogic : b.logic with
  | holds =>
    refine .inl ⟨rfl, ?_⟩
    cases hsource : a.logic <;> simp [hlogic, hsource] at hinfer ⊢
    exact hinfer.1
  | unknown =>
    refine .inr ⟨rfl, ?_⟩
    cases hsource : a.logic <;> simp [hlogic, hsource] at hinfer
    rw [← hinfer]
    rfl
  | fails => simp [hlogic] at hinfer
  | conflict => simp [hlogic] at hinfer

theorem OnlyExcludes.readings (hs : s.OnlyExcludes nodes edges) {e : Edge α} (he : e ∈ edges) :
    s.registry.readings e =
      [(⟨e, false⟩, .builtin .conflicts), (⟨e, true⟩, .builtin .conflicts)] := by
  rw [hs.registry]
  exact Registry.readings_conflicts (hs.relation e he)

variable [Quantity.IsStrict α]

theorem OnlyExcludes.change?_contest (hs : s.OnlyExcludes nodes edges) {now : Table α}
    (hkeys : ∀ id, id ∈ now.keys ↔ id ∈ nodes.map Node.id) (hrange : now.InRange) {h : Hop α}
    {a b : NodeState α} (ha : now.get? h.source = some a) (hb : now.get? h.target = some b)
    (hholds : b.logic = .holds)
    (hagainst : a.logic = .holds ∨ a.logic = .conflict ∧ h.target ∈ a.partners.getD []) :
    ∃ c, s.change? now (h, .builtin .conflicts) = some c ∧ c.entry.logic = .conflict ∧
      c.entry.partners = some [h.source] := by
  have hsource : h.source ∈ nodes.map Node.id := (hkeys _).1 (OrderedMap.mem_keys_iff.2 ⟨a, ha⟩)
  have htarget : h.target ∈ nodes.map Node.id := (hkeys _).1 (OrderedMap.mem_keys_iff.2 ⟨b, hb⟩)
  obtain ⟨sourceNode, targetNode, a', b', hsid, htid, ha', hb', hevidence⟩ :=
    h.evidence?_of_mem s.config edges hkeys hsource htarget
  obtain rfl : a = a' := Option.some.inj (ha.symm.trans ha')
  obtain rfl : b = b' := Option.some.inj (hb.symm.trans hb')
  have hheard : ¬a.confidence < s.config.floor := by
    rw [hs.floor]
    exact (hrange _ a ha).not_lt_zero
  rw [← hs.graph] at hevidence
  have hstands : Rule.standsAgainst (α := α) ⟨sourceNode, a, targetNode, b, h.edge,
      Snapshot.nodeMap nodes, edges, now, Snapshot.fileAll Edge.target edges, s.config,
      h.reversed⟩ = true := by
    simpa [Rule.standsAgainst, htid] using hagainst
  simp only [change?, Hop.change?, hevidence, Rule.builtin, floored, hheard, if_false,
    Rule.inference, Rule.mutualConflict, hholds, hstands, Evidence.contest, reduceCtorEq, and_self,
    if_true, Option.bind_eq_bind, Option.bind_some, Proposal.isUnwanted, Proposal.isQuiet,
    hs.detects]
  simp [Proposal.change, Proposal.writtenPartners, hsid]

theorem OnlyExcludes.step_contest (hs : s.OnlyExcludes nodes edges) {l : Ledger α}
    (hkeys : ∀ id, id ∈ l.states.keys ↔ id ∈ nodes.map Node.id) (hrange : l.states.InRange)
    {h : Hop α} {a b : NodeState α} (ha : l.states.get? h.source = some a)
    (hb : l.states.get? h.target = some b) (hholds : b.logic = .holds)
    (hagainst : a.logic = .holds ∨ a.logic = .conflict ∧ h.target ∈ a.partners.getD []) :
    (∃ state, (s.step l (h, .builtin .conflicts)).states.get? h.target = some state ∧
        state.logic = .conflict ∧ state.partners = some [h.source]) ∧
      ∀ id, id ≠ h.target →
        (s.step l (h, .builtin .conflicts)).states.get? id = l.states.get? id := by
  obtain ⟨c, hc, hconflict, hpartners⟩ :=
    hs.change?_contest hkeys hrange ha hb hholds hagainst
  have htarget : c.event.target = h.target := change?_target hc
  rw [step_of_some hc]
  refine ⟨⟨c.entry, ?_, hconflict, hpartners⟩, fun id hid => ?_⟩
  · rw [Ledger.write_get?, if_pos htarget]
  · rw [Ledger.write_get?, htarget, if_neg fun h => hid h.symm]

omit [Quantity.IsStrict α] in
theorem OnlyExcludes.step_of_conflict (hs : s.OnlyExcludes nodes edges) {l : Ledger α} {h : Hop α}
    {state : NodeState α} (hstate : l.states.get? h.target = some state)
    (hconflict : state.logic = .conflict) : s.step l (h, .builtin .conflicts) = l := by
  rcases s.step_cases l (h, .builtin .conflicts) with ⟨-, hstep⟩ | ⟨c, hc, -⟩
  · exact hstep
  · obtain ⟨_, b, -, hb, hmoved⟩ := hs.change?_cases hc
    rw [hstate, Option.some.injEq] at hb
    rw [← hb, hconflict] at hmoved
    simp at hmoved

theorem OnlyExcludes.embroils_loop (hs : s.OnlyExcludes nodes edges) {e : Edge α} {l : Ledger α}
    (hkeys : ∀ id, id ∈ l.states.keys ↔ id ∈ nodes.map Node.id) (hrange : l.states.InRange)
    {a : NodeState α} (ha : l.states.get? e.source = some a) (hholds : a.logic = .holds)
    (hloop : e.source = e.target) :
    e.Embroils l.states (s.after l
      [(⟨e, false⟩, .builtin .conflicts), (⟨e, true⟩, .builtin .conflicts)]).states := by
  have htarget : l.states.get? e.target = some a := hloop ▸ ha
  obtain ⟨⟨y, hy, hyconflict, hypartners⟩, hrest⟩ :=
    hs.step_contest hkeys hrange (h := ⟨e, false⟩) ha htarget hholds (.inl hholds)
  simp only [Hop.source_forward, Hop.target_forward] at hy hypartners hrest
  have hsame : (s.step l (⟨e, false⟩, .builtin .conflicts)).states.get? e.source = some y := by
    rw [hloop]
    exact hy
  simp only [after_cons, after_nil]
  rw [hs.step_of_conflict (h := ⟨e, true⟩) hsame hyconflict]
  refine ⟨fun id hid => ?_, fun id hid => hrest id fun heq => ?_⟩
  · have hends : id = e.target ∧ e.across id = e.source := by
      rcases Edge.meets_iff.1 hid with rfl | rfl <;> simp [Edge.across, hloop]
    obtain ⟨rfl, hacross⟩ := hends
    exact ⟨y, hy, hyconflict, by rw [hacross, hypartners]⟩
  · rw [heq, e.meets_target] at hid
    cases hid

/-- Read both ways between two statements that hold, an exclusion puts each in conflict with the
other. The second reading goes on from the conflict that the first one wrote. -/
theorem OnlyExcludes.embroils_two (hs : s.OnlyExcludes nodes edges) {e : Edge α} {l : Ledger α}
    (hkeys : ∀ id, id ∈ l.states.keys ↔ id ∈ nodes.map Node.id) (hrange : l.states.InRange)
    {a b : NodeState α} (ha : l.states.get? e.source = some a)
    (hb : l.states.get? e.target = some b) (haholds : a.logic = .holds)
    (hbholds : b.logic = .holds) (hapart : e.source ≠ e.target) :
    e.Embroils l.states (s.after l
      [(⟨e, false⟩, .builtin .conflicts), (⟨e, true⟩, .builtin .conflicts)]).states := by
  have hnext := s.after_inRange hrange [(⟨e, false⟩, .builtin .conflicts)]
  have hseated := s.after_keys l [(⟨e, false⟩, .builtin .conflicts)]
  simp only [after_cons, after_nil] at hnext hseated ⊢
  obtain ⟨⟨y, hy, hyconflict, hypartners⟩, hrest⟩ :=
    hs.step_contest hkeys hrange (h := ⟨e, false⟩) ha hb hbholds (.inl haholds)
  simp only [Hop.source_forward, Hop.target_forward] at hy hypartners hrest
  have hkeys' : ∀ id, id ∈ (s.step l (⟨e, false⟩, .builtin .conflicts)).states.keys ↔
      id ∈ nodes.map Node.id := by
    rw [hseated]
    exact hkeys
  obtain ⟨⟨x, hx, hxconflict, hxpartners⟩, hrest'⟩ :=
    hs.step_contest hkeys' hnext (h := ⟨e, true⟩) hy ((hrest e.source hapart).trans ha) haholds
      (.inr ⟨hyconflict, by rw [hypartners]; simp⟩)
  simp only [Hop.source_backward, Hop.target_backward] at hx hxpartners hrest'
  refine ⟨fun id hid => ?_, fun id hid => ?_⟩
  · rcases Edge.meets_iff.1 hid with rfl | rfl
    · exact ⟨x, hx, hxconflict, by rw [hxpartners, Edge.across, if_pos rfl]⟩
    · refine ⟨y, ?_, hyconflict, by rw [hypartners, Edge.across, if_neg hapart]⟩
      rw [hrest' e.target hapart.symm]
      exact hy
  · have hunmet : e.source ≠ id ∧ e.target ≠ id :=
      not_or.1 fun hend => Bool.false_ne_true (hid.symm.trans (Edge.meets_iff.2 hend))
    rw [hrest' id hunmet.1.symm, hrest id hunmet.2.symm]

theorem OnlyExcludes.after_readings (hs : s.OnlyExcludes nodes edges) {e : Edge α} (he : e ∈ edges)
    {l : Ledger α} (hkeys : ∀ id, id ∈ l.states.keys ↔ id ∈ nodes.map Node.id)
    (hrange : l.states.InRange) {a b : NodeState α} (ha : l.states.get? e.source = some a)
    (hb : l.states.get? e.target = some b) (haholds : a.logic = .holds)
    (hbholds : b.logic = .holds) :
    e.Embroils l.states (s.after l (s.registry.readings e)).states := by
  rw [hs.readings he]
  by_cases hloop : e.source = e.target
  · exact hs.embroils_loop hkeys hrange ha haholds hloop
  · exact hs.embroils_two hkeys hrange ha hb haholds hbholds hloop

end Setting

namespace Paired
variable {s : Setting α} {nodes : List (Node α)} {edges found : List (Edge α)} {t : Table α}
  {l : Ledger α} {e : Edge α} [Quantity.IsStrict α]

omit [Quantity.IsStrict α] in
theorem seated {now : Table α} (hp : Paired t found now)
    (ht : ∀ id, id ∈ t.keys ↔ id ∈ nodes.map Node.id) :
    ∀ id, id ∈ now.keys ↔ id ∈ nodes.map Node.id := by
  intro id
  rw [hp.keys]
  exact ht id

theorem write_of_not_isClash (hp : Paired t found l.states) (hs : s.OnlyExcludes nodes edges)
    (hnot : isClash t found e = false) {h : Hop α} (hedge : h.edge = e) {c : Change α}
    (hc : s.change? l.states (h, .builtin .conflicts) = some c) :
    Paired t found (l.write c).states := by
  obtain ⟨a, b, ha, hb, ⟨hholds, hagainst⟩ | ⟨hunknown, hfails⟩⟩ := hs.change?_cases hc
  · exfalso
    obtain ⟨htarget, hfree⟩ := hp.free_of_holds hb hholds
    rcases hagainst with hsource | ⟨hconflict, hpartner⟩
    · obtain ⟨hsource, hfree'⟩ := hp.free_of_holds ha hsource
      rw [Bool.eq_false_iff] at hnot
      apply hnot
      subst hedge
      cases hway : h.reversed with
      | false =>
        simp only [Hop.source, Hop.target, hway] at hsource htarget hfree hfree'
        exact isClash_iff.2 ⟨hsource, htarget, fun f hf => ⟨hfree' f hf, hfree f hf⟩⟩
      | true =>
        simp only [Hop.source, Hop.target, hway] at hsource htarget hfree hfree'
        exact isClash_iff.2 ⟨htarget, hsource, fun f hf => ⟨hfree f hf, hfree' f hf⟩⟩
    · obtain ⟨f, hf, -, hacross⟩ := hp.exists_clash
        (Table.accuses_iff.2 ⟨a, ha, hconflict, hpartner⟩)
      have hmeets := f.meets_across h.source
      rw [hacross, hfree f hf] at hmeets
      cases hmeets
  · have hunheld : t.holds h.target = false := by
      rw [Bool.eq_false_iff]
      intro hheld
      by_cases htaken : ∃ f ∈ found, f.meets h.target = true
      · obtain ⟨f, hf, hmeets⟩ := htaken
        obtain ⟨state, hstate, hconflict, -⟩ := hp.taken _ hheld f hf hmeets
        rw [hb, Option.some.injEq] at hstate
        rw [← hstate, hunknown] at hconflict
        cases hconflict
      · obtain ⟨state, hstate, hholds⟩ := hp.holds_of_free hheld fun f hf =>
          Bool.eq_false_iff.2 fun hmeets => htaken ⟨f, hf, hmeets⟩
        rw [hb, Option.some.injEq] at hstate
        rw [← hstate, hunknown] at hholds
        cases hholds
    obtain ⟨_, p, -, -, -, -, rfl⟩ := Hop.change?_eq_some hc
    exact hp.refute (OrderedMap.mem_keys_iff.2 ⟨b, hb⟩) hunheld hfails
      (Quantity.clamp_inRange p.confidence)

theorem after_readings (hp : Paired t found l.states) (hs : s.OnlyExcludes nodes edges)
    (ht : ∀ id, id ∈ t.keys ↔ id ∈ nodes.map Node.id) (he : e ∈ edges) :
    Paired t (clash t found e) (s.after l (s.registry.readings e)).states := by
  unfold clash
  split
  · rename_i hclash
    obtain ⟨hsource, htarget, hfree⟩ := isClash_iff.1 hclash
    obtain ⟨a, ha, haholds⟩ := hp.holds_of_free hsource fun f hf => (hfree f hf).1
    obtain ⟨b, hb, hbholds⟩ := hp.holds_of_free htarget fun f hf => (hfree f hf).2
    exact hp.join hclash ((s.after_keys l _).trans hp.keys) (s.after_inRange hp.inRange _)
      (hs.after_readings he (hp.seated ht) hp.inRange ha hb haholds hbholds)
  · rename_i hnot
    refine s.after_induction (P := fun l => Paired t found l.states) (fun l h hh c hl hc => ?_) hp
    rw [hs.readings he] at hh
    have hreading : h = (⟨h.1.edge, h.1.reversed⟩, .builtin .conflicts) ∧ h.1.edge = e := by
      simp only [List.mem_cons, List.not_mem_nil, or_false] at hh
      rcases hh with rfl | rfl
      · exact ⟨rfl, rfl⟩
      · exact ⟨rfl, rfl⟩
    rw [hreading.1] at hc
    exact hl.write_of_not_isClash hs (Bool.eq_false_iff.2 hnot) hreading.2 hc

theorem after_edges (hp : Paired t found l.states) (hs : s.OnlyExcludes nodes edges)
    (ht : ∀ id, id ∈ t.keys ↔ id ∈ nodes.map Node.id) {part : List (Edge α)}
    (hpart : ∀ e ∈ part, e ∈ edges) :
    Paired t (part.foldl (clash t) found)
      (s.after l (part.flatMap s.registry.readings)).states := by
  induction part generalizing found l with
  | nil => exact hp
  | cons e rest ih =>
    have he : e ∈ edges := hpart e List.mem_cons_self
    rw [List.flatMap_cons, Setting.after_append, List.foldl_cons]
    exact ih (hp.after_readings hs ht he) fun e' he' => hpart e' (List.mem_cons_of_mem e he')

theorem afterPasses (hp : Paired t [] l.states) (hs : s.OnlyExcludes nodes edges)
    (ht : ∀ id, id ∈ t.keys ↔ id ∈ nodes.map Node.id) (n : Nat) :
    Paired t (clashes t edges) (ReasonGraph.afterPasses s.fullPass (n + 1) l).states := by
  have hhops : s.hops = edges.flatMap s.registry.readings := by
    rw [Setting.hops, hs.graph]
    rfl
  induction n with
  | zero =>
    rw [afterPasses_succ, Setting.fullPass_ledger, hhops]
    exact hp.after_edges hs ht fun _ he => he
  | succ n ih =>
    rw [afterPasses_succ, Setting.fullPass_ledger, hhops, ← foldl_clash_clashes]
    exact ih.after_edges hs ht fun _ he => he

end Paired

namespace Engine

theorem prepare_paired {e : Engine α} {nodes : List (Node α)} {overrides : Overrides α}
    (hrange : Node.InRange nodes overrides) :
    let seeds := (e.prepare nodes overrides).1.ledger.states
    Paired seeds [] seeds where
  keys := rfl
  inRange := e.prepare_inRange hrange
  free := fun _ _ _ => rfl
  taken := fun _ _ _ hf => by cases hf
  other := by
    intro id hnot state hstate
    refine ⟨fun hholds => ?_, fun _ => prepare_partners hstate⟩
    rw [Table.holds_iff.2 ⟨state, hstate, hholds⟩] at hnot
    cases hnot

/-- In a graph of exclusions a converged run pairs off the statements that hold. Two that exclude
each other are in conflict with each other in the end just if they became a pair. -/
theorem run_pairs [Quantity.IsStrict α] {e : Engine α} (hregistry : e.registry = .builtin)
    (hdetect : e.config.detectsConflicts = true) (hfloor : e.config.floor = 0.0)
    {nodes : List (Node α)} {edges : List (Edge α)}
    (hrelation : ∀ edge ∈ edges, edge.relation = Relation.conflicts.name)
    {overrides : Overrides α} (hrange : Node.InRange nodes overrides) {r : Result α}
    (hrun : (e.run nodes edges overrides).2 = .ok r) (hconverged : r.converged = true) :
    ∃ seeds, (e.prepare nodes overrides).2 = .ok seeds ∧
      Paired seeds (clashes seeds edges) r.states ∧
      ∀ edge ∈ edges, seeds.holds edge.source = true → seeds.holds edge.target = true →
        (r.states.AreMutual edge.source edge.target ↔
          ∃ c ∈ clashes seeds edges,
            c.meets edge.source = true ∧ c.across edge.source = edge.target) := by
  obtain ⟨seeds, hseeds⟩ := accepted_of_run hrun
  have hs : (e.setting (.ofLists nodes edges)).OnlyExcludes nodes edges :=
    ⟨rfl, hregistry, hdetect, hfloor, hrelation⟩
  have hgiven : (e.start nodes edges overrides).states = seeds :=
    (start_states e nodes edges overrides).trans (prepare_given hseeds)
  have hstart : Paired seeds [] (e.start nodes edges overrides).states := by
    have hprepared : let seeds := (e.prepare nodes overrides).1.ledger.states
        Paired seeds [] seeds := prepare_paired hrange
    rw [prepare_given hseeds] at hprepared
    rw [hgiven]
    exact hprepared
  have hseated : ∀ id, id ∈ seeds.keys ↔ id ∈ nodes.map Node.id := by
    intro id
    rw [← prepare_given hseeds]
    exact mem_keys_prepare hseeds
  have hpaired : Paired seeds (clashes seeds edges) r.states := by
    rw [run_of_accepted hseeds] at hrun
    obtain rfl := Except.ok.inj hrun
    have hpasses : 0 < e.config.passes := by
      rw [Nat.pos_iff_ne_zero]
      intro hzero
      rw [hzero] at hconverged
      cases hconverged
    let pass := (e.setting (.ofLists nodes edges)).fullPass
    have hpositive : 0 < (settle pass e.config.passes (e.start nodes edges overrides)).iterations :=
      settle_iterations_pos hpasses _
    obtain ⟨n, hn⟩ := Nat.exists_eq_succ_of_ne_zero hpositive.ne'
    rw [Settled.result, settle_afterPasses, hn]
    exact hstart.afterPasses hs hseated n
  refine ⟨seeds, hseeds, hpaired, fun edge _ hsource htarget => ?_⟩
  exact hpaired.areMutual_iff hsource htarget

theorem run_pairs_row :
    let e : Engine Float := .new .standard .builtin
    let nodes : List (Node Float) :=
      [⟨"a", .fact, "", 90.0⟩, ⟨"b", .fact, "", 85.0⟩, ⟨"c", .fact, "", 80.0⟩]
    let edges : List (Edge Float) :=
      [⟨"ab", "a", "b", "conflicts", 1.0⟩, ⟨"bc", "b", "c", "conflicts", 1.0⟩]
    ∃ r, (e.run nodes edges ∅).2 = .ok r ∧ r.converged = true ∧
      ∃ seeds, (e.prepare nodes ∅).2 = .ok seeds ∧ Paired seeds (clashes seeds edges) r.states ∧
        ∀ edge ∈ edges, seeds.holds edge.source = true → seeds.holds edge.target = true →
          (r.states.AreMutual edge.source edge.target ↔
            ∃ c ∈ clashes seeds edges,
              c.meets edge.source = true ∧ c.across edge.source = edge.target) := by
  intro e nodes edges
  have hrange : Node.InRange nodes ∅ := ⟨by decide +kernel, fun _ _ _ h => by cases h⟩
  have hcall : ∃ r, (e.run nodes edges ∅).2 = .ok r ∧ r.converged = true :=
    ⟨_, rfl, by decide +kernel⟩
  obtain ⟨r, hrun, hconverged⟩ := hcall
  exact ⟨r, hrun, hconverged, run_pairs rfl rfl rfl (by decide) hrange hrun hconverged⟩

/-- So two statements that hold when they are seeded and exclude each other need not end in
conflict: the last of the three in a row holds to the end. -/
theorem converged_row_not_mutual :
    let e : Engine Float := .new .standard .builtin
    let nodes : List (Node Float) :=
      [⟨"a", .fact, "", 90.0⟩, ⟨"b", .fact, "", 85.0⟩, ⟨"c", .fact, "", 80.0⟩]
    let edges : List (Edge Float) :=
      [⟨"ab", "a", "b", "conflicts", 1.0⟩, ⟨"bc", "b", "c", "conflicts", 1.0⟩]
    ∃ seeds r, (e.prepare nodes ∅).2 = .ok seeds ∧ (e.run nodes edges ∅).2 = .ok r ∧
      r.converged = true ∧ seeds.holds "b" = true ∧ seeds.holds "c" = true ∧
      r.states.holds "c" = true ∧ ¬r.states.AreMutual "b" "c" := by
  intro e nodes edges
  exact ⟨_, _, rfl, rfl, by decide +kernel, by decide +kernel, by decide +kernel,
    by decide +kernel, by decide +kernel⟩

end Engine
end ReasonGraph
