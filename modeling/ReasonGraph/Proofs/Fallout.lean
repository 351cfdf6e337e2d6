import ReasonGraph.Proofs.Standing
import ReasonGraph.Proofs.Stickiness
import ReasonGraph.Proofs.Bounds
import Mathlib.Data.Finset.Card
import Mathlib.Data.Finset.Dedup
import Mathlib.Logic.Relation

/-! What a failure brings down. In a graph without support and achievement where nothing holds, the
only thing that can happen is that something unknown fails: what depends on a failure, and what
would have caused one. The failures then spread along these edges and nowhere else. Each pass that
goes on brings down another node, so there are no more passes than nodes. -/

namespace ReasonGraph
variable {α : Type}

/-- An edge by which the failure of one node brings down another: the other depends on it, or would
cause it. -/
def BringsDown (nodes : List (Node α)) (edges : List (Edge α)) (a b : String) : Prop :=
  a ∈ nodes.map Node.id ∧ b ∈ nodes.map Node.id ∧ ∃ edge ∈ edges,
    edge.relation = Relation.depends.name ∧ edge.source = a ∧ edge.target = b ∨
      edge.relation = Relation.causes.name ∧ edge.target = a ∧ edge.source = b

theorem bringsDown_iff {nodes : List (Node α)} {edges : List (Edge α)} {a b : String} :
    BringsDown nodes edges a b ↔ a ∈ nodes.map Node.id ∧ b ∈ nodes.map Node.id ∧
      ∃ (h : Hop α) (r : Relation), h.edge ∈ edges ∧ h.edge.relation = r.name ∧ h.source = a ∧
        h.target = b ∧ (r = .depends ∧ h.reversed = false ∨ r = .causes ∧ h.reversed = true) := by
  refine and_congr_right fun _ => and_congr_right fun _ => ⟨?_, ?_⟩
  · rintro ⟨edge, hedge, ⟨hrel, hsource, htarget⟩ | ⟨hrel, htarget, hsource⟩⟩
    · exact ⟨⟨edge, false⟩, .depends, hedge, hrel, hsource, htarget, .inl ⟨rfl, rfl⟩⟩
    · exact ⟨⟨edge, true⟩, .causes, hedge, hrel, htarget, hsource, .inr ⟨rfl, rfl⟩⟩
  · rintro ⟨⟨edge, reversed⟩, r, hedge, hrel, rfl, rfl, ⟨rfl, rfl⟩ | ⟨rfl, rfl⟩⟩
    · exact ⟨edge, hedge, .inl ⟨hrel, rfl, rfl⟩⟩
    · exact ⟨edge, hedge, .inr ⟨hrel, rfl, rfl⟩⟩

/-- A chain of such edges leads to the node from one that fails in the table. -/
def Falls (nodes : List (Node α)) (edges : List (Edge α)) (t : Table α) (id : String) : Prop :=
  ∃ first state, t.get? first = some state ∧ state.logic = .fails ∧
    Relation.ReflTransGen (BringsDown nodes edges) first id

def Table.IsDim (t : Table α) : Prop :=
  ∀ id state, t.get? id = some state → state.logic = .unknown ∨ state.logic = .fails

namespace Table

def failing (t : Table α) : Finset String :=
  t.keys.toFinset.filter fun id => (t.get? id).any (·.logic = .fails) = true

theorem mem_failing {t : Table α} {id : String} :
    id ∈ t.failing ↔ ∃ state, t.get? id = some state ∧ state.logic = .fails := by
  rw [failing, Finset.mem_filter, List.mem_toFinset, OrderedMap.mem_keys_iff, Option.any_eq_true]
  simp only [decide_eq_true_eq]
  exact ⟨fun h => h.2, fun ⟨state, hstate, hfails⟩ => ⟨⟨state, hstate⟩, state, hstate, hfails⟩⟩

end Table

/-- Going from one ledger to another only brought down what falls. A state is the one there was, or
it is of a node that was unknown and now fails, and for each of these one event was logged. -/
structure Ledger.Fallout (nodes : List (Node α)) (edges : List (Edge α)) (l now : Ledger α) :
    Prop where
  keys : now.states.keys = l.states.keys
  entries : ∀ id state, now.states.get? id = some state → l.states.get? id = some state ∨
    state.logic = .fails ∧ Falls nodes edges l.states id ∧
      ∃ seed, l.states.get? id = some seed ∧ seed.logic = .unknown
  conflicts : now.conflicts = l.conflicts
  counted : now.events.length + l.states.failing.card =
    l.events.length + now.states.failing.card

namespace Ledger.Fallout
variable {nodes : List (Node α)} {edges : List (Edge α)} {l now : Ledger α}

theorem refl (l : Ledger α) : l.Fallout nodes edges l := ⟨rfl, fun _ _ h => .inl h, rfl, rfl⟩

theorem isDim (h : l.Fallout nodes edges now) (hdim : l.states.IsDim) : now.states.IsDim := by
  intro id state hstate
  rcases h.entries id state hstate with hsame | ⟨hfails, -⟩
  · exact hdim id state hsame
  · exact .inr hfails

theorem falls (h : l.Fallout nodes edges now) {id : String} {state : NodeState α}
    (hstate : now.states.get? id = some state) (hfails : state.logic = .fails) :
    Falls nodes edges l.states id := by
  rcases h.entries id state hstate with hsame | ⟨-, hfalls, -⟩
  · exact ⟨id, state, hsame, hfails, .refl⟩
  · exact hfalls

theorem kept (h : l.Fallout nodes edges now) {id : String} {seed : NodeState α}
    (hseed : l.states.get? id = some seed)
    (hsafe : seed.logic = .fails ∨ ¬Falls nodes edges l.states id) :
    now.states.get? id = some seed := by
  have hkey : id ∈ now.states.keys := h.keys ▸ OrderedMap.mem_keys_iff.2 ⟨seed, hseed⟩
  obtain ⟨state, hstate⟩ := OrderedMap.mem_keys_iff.1 hkey
  rcases h.entries id state hstate with hsame | ⟨-, hfalls, seed', hseed', hunknown⟩
  · rw [hstate, ← hsame, hseed]
  · rw [hseed, Option.some.injEq] at hseed'
    rcases hsafe with hfails | hnot
    · rw [hseed', hunknown] at hfails
      cases hfails
    · exact absurd hfalls hnot

theorem write (h : l.Fallout nodes edges now) {c : Change α} {source : String} {a b : NodeState α}
    (ha : now.states.get? source = some a) (hafails : a.logic = .fails)
    (hb : now.states.get? c.event.target = some b) (hbunknown : b.logic = .unknown)
    (hfails : c.entry.logic = .fails) (hnone : c.conflict = none)
    (hedge : BringsDown nodes edges source c.event.target) :
    l.Fallout nodes edges (now.write c) := by
  have hkey : c.event.target ∈ now.states.keys := OrderedMap.mem_keys_iff.2 ⟨b, hb⟩
  obtain ⟨first, seed, hseed, hseedFails, hchain⟩ := h.falls ha hafails
  constructor
  · rw [← h.keys]
    exact (OrderedMap.keys_insert _ _ _).trans (if_pos hkey)
  · intro id state hstate
    rw [write_get?] at hstate
    split at hstate
    · rename_i hid
      obtain rfl := Option.some.inj hstate
      refine .inr ⟨hfails, ⟨first, seed, hseed, hseedFails, hid ▸ hchain.tail hedge⟩, ?_⟩
      rcases h.entries _ b hb with hsame | ⟨hbfails, -⟩
      · exact ⟨b, hid ▸ hsame, hbunknown⟩
      · rw [hbunknown] at hbfails
        cases hbfails
    · exact h.entries id state hstate
  · rw [write_conflicts, hnone, h.conflicts]
    simp
  · have fresh : c.event.target ∉ now.states.failing := by
      rw [Table.mem_failing]
      rintro ⟨state, hstate, hlogic⟩
      rw [hb, Option.some.injEq] at hstate
      rw [← hstate, hbunknown] at hlogic
      cases hlogic
    have grown : (now.write c).states.failing = insert c.event.target now.states.failing := by
      ext id
      rw [Finset.mem_insert, Table.mem_failing, Table.mem_failing, write_get?]
      by_cases hid : c.event.target = id
      · simp [hid, hfails]
      · simp [hid, Ne.symm hid]
    have counted := h.counted
    rw [grown, Finset.card_insert_of_notMem fresh, write_events, List.length_append,
      List.length_singleton]
    omega

end Ledger.Fallout

variable [Quantity α]

/-- The relations that lift nothing: along them a node comes to hold only where another does. -/
def Relation.destructive : List Relation := [depends, causes, conflicts, hinders]

theorem Rule.inference_dim {r : Relation} (hr : r ∈ Relation.destructive) {e : Evidence α}
    {p : Proposal α} (hsource : e.source.logic = .unknown ∨ e.source.logic = .fails)
    (htarget : e.target.logic = .unknown ∨ e.target.logic = .fails)
    (h : inference r e = some p) :
    e.source.logic = .fails ∧ e.target.logic = .unknown ∧ p.logic = .fails ∧
      (r = .depends ∨ r = .causes ∧ e.reversed = true) := by
  cases r with
  | depends =>
    rcases hsource with hs | hs <;> rcases htarget with ht | ht <;>
      simp [inference, dependency, Evidence.propose, hs, ht] at h
    simp [hs, ht, ← h]
  | causes =>
    cases hway : e.reversed <;> rcases hsource with hs | hs <;> rcases htarget with ht | ht <;>
      simp [inference, causation, effect, contrapositive, Evidence.propose, hway, hs, ht] at h
    simp [hs, ht, ← h]
  | conflicts =>
    rcases hsource with hs | hs <;> rcases htarget with ht | ht <;>
      simp [inference, mutualConflict, hs, ht] at h
  | hinders => rcases hsource with hs | hs <;> simp [inference, hindrance, hs] at h
  | supports => simp [Relation.destructive] at hr
  | achieves => simp [Relation.destructive] at hr

theorem Rule.inference_fails {r : Relation} {e : Evidence α}
    (hway : r = .depends ∨ r = .causes ∧ e.reversed = true) (hsource : e.source.logic = .fails)
    (htarget : e.target.logic = .unknown) :
    ∃ p, inference r e = some p ∧ p.logic = .fails := by
  rcases hway with rfl | ⟨rfl, hreversed⟩
  · simp [inference, dependency, Evidence.propose, hsource, htarget]
  · simp [inference, causation, contrapositive, Evidence.propose, hreversed, hsource, htarget]

namespace Setting.HearsAll
variable {s : Setting α} {nodes : List (Node α)} {edges : List (Edge α)} {l now : Ledger α}

theorem fallout_write (hs : s.HearsAll Relation.destructive nodes edges) (hl : l.states.IsDim)
    (hnow : l.Fallout nodes edges now) {h : Hop α × Rule α} (hh : h ∈ s.hops) {c : Change α}
    (hc : s.change? now.states h = some c) : l.Fallout nodes edges (now.write c) := by
  obtain ⟨hedge, r, hr, hrel, hrule, hmutual⟩ := hs.rule hh
  obtain ⟨hsourceMem, htargetMem⟩ := ends_of_change hs.graph hc
  obtain ⟨e, p, he, hp, -, -, rfl⟩ := Hop.change?_eq_some hc
  obtain ⟨ha, hb, -, hway⟩ := Hop.evidence?_shows he
  have hdim : now.states.IsDim := hnow.isDim hl
  rw [hrule] at hp
  obtain ⟨hafails, hbunknown, hfails, hback⟩ := Rule.inference_dim hr
    (hdim _ e.source ha) (hdim _ e.target hb) (floored_eq_some hp).2
  have hdown : BringsDown nodes edges h.1.source h.1.target := by
    refine bringsDown_iff.2 ⟨hsourceMem, htargetMem, h.1, r, hedge, hrel, rfl, rfl, ?_⟩
    rcases hback with rfl | ⟨rfl, hreversed⟩
    · exact .inl ⟨rfl, Bool.eq_false_iff.2 fun hreversed => by cases hmutual hreversed⟩
    · exact .inr ⟨rfl, hway ▸ hreversed⟩
  have hnone : (p.change h.1 e.target).conflict = none := by
    simp [Proposal.change, Proposal.writtenPartners, hfails]
  exact hnow.write ha hafails hb hbunknown hfails hnone hdown

theorem fallout_after (hs : s.HearsAll Relation.destructive nodes edges) (hl : l.states.IsDim)
    {hops : List (Hop α × Rule α)} (hhops : ∀ h ∈ hops, h ∈ s.hops) :
    l.Fallout nodes edges (s.after l hops) :=
  s.after_induction (P := fun now => l.Fallout nodes edges now)
    (fun _ h hh _ hnow hc => hs.fallout_write hl hnow (hhops h hh) hc) (.refl l)

theorem fallout_closed [Quantity.IsStrict α] (hs : s.HearsAll Relation.destructive nodes edges)
    {t : Table α} (hseated : ∀ id, id ∈ t.keys ↔ id ∈ nodes.map Node.id) (hdim : t.IsDim)
    (hrange : t.InRange) (hquiet : ∀ h ∈ s.hops, s.change? t h = none) {a b : String}
    (hdown : BringsDown nodes edges a b) (ha : a ∈ t.failing) : b ∈ t.failing := by
  obtain ⟨hamem, hbmem, h, r, hedge, hrel, rfl, rfl, hway⟩ := bringsDown_iff.1 hdown
  obtain ⟨state, hstate, hfails⟩ := Table.mem_failing.1 ha
  obtain ⟨e, he, -, -, hsource, htarget, hreversed⟩ :=
    h.exists_evidence s.config edges hseated hamem hbmem
  rw [← hs.graph] at he
  obtain rfl : e.source = state := Option.some.inj (hsource.symm.trans hstate)
  have hread : (h, Rule.builtin r) ∈ s.hops := by
    refine mem_hops.2 ⟨?_, ?_, fun hreversed => ?_⟩
    · rw [hs.graph]
      exact hedge
    · rw [hs.registry, hrel]
      exact Registry.get?_builtin_name r
    · rcases hway with ⟨-, hforward⟩ | ⟨rfl, -⟩
      · rw [hforward] at hreversed
        cases hreversed
      · rfl
  rcases hdim _ e.target htarget with hunknown | hdown
  · exfalso
    obtain ⟨p, hp, hlogic⟩ := Rule.inference_fails
      (hway.imp (·.1) fun h => ⟨h.1, hreversed.trans h.2⟩) hfails hunknown
    have hmoves := change?_of_moves he (hs.isHeard hrange hsource) hp
      (by simp [Proposal.isUnwanted, hlogic]) (by simp [hunknown, hlogic])
    rw [hquiet _ hread] at hmoves
    cases hmoves
  · exact Table.mem_failing.2 ⟨e.target, htarget, hdown⟩

end Setting.HearsAll

namespace Ledger.Fallout
variable {nodes : List (Node α)} {edges : List (Edge α)} {l now : Ledger α}

omit [Quantity α] in
/-- There are fewer events than nodes: if nothing failed before nothing is brought down, and else
there is a node that need not be. -/
theorem events_lt (h : l.Fallout nodes edges now)
    (hseated : ∀ id, id ∈ l.states.keys ↔ id ∈ nodes.map Node.id) :
    now.events.length < l.events.length + max 1 (Snapshot.nodeMap nodes).size := by
  have counted := h.counted
  have bounded : now.states.failing.card ≤ (Snapshot.nodeMap nodes).size := by
    have within : now.states.failing ⊆ (Snapshot.nodeMap nodes).keys.toFinset := by
      intro id hid
      obtain ⟨state, hstate, -⟩ := Table.mem_failing.1 hid
      rw [List.mem_toFinset, Snapshot.mem_keys_nodeMap, ← hseated, ← h.keys]
      exact OrderedMap.mem_keys_iff.2 ⟨state, hstate⟩
    calc now.states.failing.card ≤ (Snapshot.nodeMap nodes).keys.toFinset.card :=
          Finset.card_le_card within
      _ ≤ (Snapshot.nodeMap nodes).keys.length := List.toFinset_card_le _
      _ = (Snapshot.nodeMap nodes).size := List.length_map _
  by_cases hnone : l.states.failing = ∅
  · have still : now.states.failing = ∅ := by
      rw [Finset.eq_empty_iff_forall_notMem] at hnone ⊢
      intro id hid
      obtain ⟨state, hstate, hfails⟩ := Table.mem_failing.1 hid
      obtain ⟨first, seed, hseed, hseedFails, -⟩ := h.falls hstate hfails
      exact hnone first (Table.mem_failing.2 ⟨seed, hseed, hseedFails⟩)
    rw [hnone, still] at counted
    omega
  · have some : 0 < l.states.failing.card :=
      Finset.card_pos.2 (Finset.nonempty_iff_ne_empty.2 hnone)
    omega

end Ledger.Fallout

namespace Engine
variable [Quantity.IsStrict α]

/-- Where nothing holds and nothing is in conflict, along relations that lift nothing, a run that is
given a pass for each node settles. At no moment does anything come to hold or into conflict. In the
end just those nodes fail to which a failure leads, and all others have their seeds. -/
theorem run_fallout {e : Engine α} (hregistry : e.registry = .builtin)
    (hfloor : e.config.floor = 0.0) {nodes : List (Node α)} {edges : List (Edge α)}
    (hrelation : ∀ edge ∈ edges, ∃ r ∈ Relation.destructive, edge.relation = r.name)
    {overrides : Overrides α} (hrange : Node.InRange nodes overrides) {seeds : Table α}
    (haccepted : (e.prepare nodes overrides).2 = .ok seeds) (hdim : seeds.IsDim)
    (hpasses : max 1 (Snapshot.nodeMap nodes).size ≤ e.config.passes) :
    let s := e.setting (.ofLists nodes edges)
    let l := e.start nodes edges overrides
    let trail := e.runTrail nodes edges overrides
    ∃ r, (e.run nodes edges overrides).2 = .ok r ∧
      r.converged = true ∧ r.iterations ≤ max 1 (Snapshot.nodeMap nodes).size ∧
      r.states = (s.moment l trail trail.length).states ∧
      (∀ n, (s.moment l trail n).states.IsDim) ∧ r.conflicts = [] ∧
      (∀ id, (∃ state, r.states.get? id = some state ∧ state.logic = .fails) ↔
        Falls nodes edges seeds id) ∧
      ∀ id seed, seeds.get? id = some seed → seed.logic = .fails ∨ ¬Falls nodes edges seeds id →
        r.states.get? id = some seed := by
  intro s l trail
  let settled := settle s.fullPass e.config.passes l
  have hs : s.HearsAll Relation.destructive nodes edges := ⟨rfl, hregistry, hfloor, hrelation⟩
  have hrun : e.run nodes edges overrides =
      ({ e with ledger := settled.ledger }, .ok settled.result) := run_of_accepted haccepted edges
  have hseeds : l.states = seeds :=
    (start_states e nodes edges overrides).trans (prepare_given haccepted)
  have hseated : ∀ id, id ∈ l.states.keys ↔ id ∈ nodes.map Node.id := by
    intro id
    rw [start_states]
    exact mem_keys_prepare haccepted
  have hread : ∀ n, ∀ h ∈ trail.take n, h ∈ s.hops := fun n h hh =>
    (mem_of_mem_settleTrail (List.mem_of_mem_take hh)).elim fun _ hmem => hmem
  have hfallout : ∀ n, l.Fallout nodes edges (s.moment l trail n) := fun n =>
    hs.fallout_after (hseeds ▸ hdim) (hread n)
  have hledger : settled.ledger = s.moment l trail trail.length := by
    rw [Setting.moment, List.take_length]
    exact Setting.settle_fullPass_ledger _ _ _
  have hend : l.Fallout nodes edges settled.ledger := hledger ▸ hfallout trail.length
  have hfew : settled.ledger.events.length < l.events.length + _ := hend.events_lt hseated
  have hpassed : l.events.length + settled.iterations ≤
      settled.ledger.events.length + if settled.converged then 1 else 0 :=
    s.settle_fullPass_iterations_le e.config.passes l
  have hconverged : settled.converged = true := by
    by_contra hnot
    have hexhausted : settled.iterations = e.config.passes :=
      settle_exhausted (Bool.eq_false_iff.2 hnot)
    rw [if_neg hnot] at hpassed
    omega
  rw [if_pos hconverged] at hpassed
  have hquiet : ∀ h ∈ s.hops, s.change? settled.ledger.states h = none := fun h hh =>
    run_quiet (congrArg Prod.snd hrun) hconverged hh
  have hfinal : ∀ id, id ∈ settled.ledger.states.failing ↔ Falls nodes edges seeds id := by
    intro id
    constructor
    · intro hid
      obtain ⟨state, hstate, hfails⟩ := Table.mem_failing.1 hid
      exact hseeds ▸ hend.falls hstate hfails
    · rintro ⟨first, seed, hseed, hfails, hchain⟩
      induction hchain with
      | refl =>
        exact Table.mem_failing.2 ⟨seed, hend.kept (hseeds ▸ hseed) (.inl hfails), hfails⟩
      | tail _ hdown ih =>
        refine hs.fallout_closed (fun id => ?_) (hend.isDim (hseeds ▸ hdim)) ?_ hquiet hdown ih
        · rw [hend.keys, hseated]
        · have hrun_range := e.run_inRange edges hrange
          rwa [hrun] at hrun_range
  refine ⟨settled.result, congrArg Prod.snd hrun, hconverged, ?_, congrArg Ledger.states hledger,
    fun n => (hfallout n).isDim (hseeds ▸ hdim), hend.conflicts.trans (start_conflicts e _ _ _),
    fun id => ?_, fun id seed hseed hsafe => hend.kept (hseeds ▸ hseed) (hseeds ▸ hsafe)⟩
  · change settled.iterations ≤ _
    omega
  · rw [← hfinal, Table.mem_failing]
    rfl

theorem run_fallout_row :
    let e : Engine Float := .new { Config.standard with passes := 3 } .builtin
    let nodes : List (Node Float) :=
      [⟨"a", .fact, "", 10.0⟩, ⟨"b", .action, "", 50.0⟩, ⟨"c", .goal, "", 50.0⟩]
    let edges : List (Edge Float) :=
      [⟨"cb", "c", "b", "causes", 1.0⟩, ⟨"ab", "a", "b", "depends", 1.0⟩]
    let seeds := (e.prepare nodes ∅).1.ledger.states
    seeds.IsDim ∧ max 1 (Snapshot.nodeMap nodes).size = 3 ∧
      ∃ r, (e.run nodes edges ∅).2 = .ok r ∧ r.converged = true ∧ r.iterations = 3 ∧
        r.conflicts = [] ∧ Falls nodes edges seeds "c" ∧
        ∃ state, r.states.get? "c" = some state ∧ state.logic = .fails := by
  intro e nodes edges seeds
  have hdim : seeds.IsDim := by
    have listed : ∀ entry ∈ seeds.entries,
        entry.2.logic = .unknown ∨ entry.2.logic = .fails := by decide +kernel
    exact fun id state hstate => listed (id, state) (OrderedMap.mem_of_find hstate)
  have hrange : Node.InRange nodes ∅ := ⟨by decide +kernel, fun _ _ _ h => by cases h⟩
  have hrelation : ∀ edge ∈ edges, ∃ r ∈ Relation.destructive, edge.relation = r.name := by decide
  have haccepted : (e.prepare nodes ∅).2 = .ok seeds := rfl
  obtain ⟨r, hrun, hconverged, -, -, -, hconflicts, hfails, -⟩ :=
    run_fallout (e := e) rfl rfl hrelation hrange haccepted hdim (by decide)
  have hcheck : (e.run nodes edges ∅).2.toOption.all (·.iterations = 3) = true := by
    decide +kernel
  rw [hrun] at hcheck
  have hthree : r.iterations = 3 := by simpa [Except.toOption] using hcheck
  have hab : BringsDown nodes edges "a" "b" :=
    ⟨by decide, by decide, ⟨"ab", "a", "b", "depends", 1.0⟩, by simp [edges], .inl ⟨rfl, rfl, rfl⟩⟩
  have hbc : BringsDown nodes edges "b" "c" :=
    ⟨by decide, by decide, ⟨"cb", "c", "b", "causes", 1.0⟩, by simp [edges], .inr ⟨rfl, rfl, rfl⟩⟩
  have hdown : Falls nodes edges seeds "c" :=
    ⟨"a", _, rfl, by decide +kernel, .tail (.single hab) hbc⟩
  exact ⟨hdim, by decide, r, hrun, hconverged, hthree, hconflicts, hdown, (hfails "c").2 hdown⟩

end Engine
end ReasonGraph
