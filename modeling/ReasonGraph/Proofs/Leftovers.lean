import ReasonGraph.Proofs.Provenance
import ReasonGraph.Proofs.Confinement
import ReasonGraph.Proofs.Clash

/-! What is left of nodes that are gone. A table outlives the graph, so it may hold states of ids
that are no nodes any more. An edge that ends in such an id is not read. But an achievement is not
withdrawn while another edge achieves its target from a source that holds, and nobody asks whether
that source is a node. So two engines that agree on the nodes do the same in an update, reading by
reading, unless one of them withdraws what the other takes to be held up by a leftover. -/

namespace ReasonGraph
variable {α : Type}

theorem OrderedMap.get?_erase_of_not_mem {β : Type} (m : OrderedMap β) {k : String}
    {ids : List String} (hk : k ∉ ids) : ∀ j ∈ ids, (m.erase k).get? j = m.get? j := by
  intro j hj
  have hne : k ≠ j := fun heq => hk (heq ▸ hj)
  rw [get?_erase, if_neg hne]

/-- By a table, what an event withdraws is held up: another edge achieves it from a source that
holds there, though it is no node. -/
def Event.IsHeldUp (ev : Event α) (t : Table α) (nodes : List (Node α)) (edges : List (Edge α)) :
    Prop :=
  ev.isWithdrawal = true ∧ ∃ edge ∈ edges, edge.relation = Relation.achieves.name ∧
    edge.target = ev.target ∧ edge.id ≠ ev.edge ∧ edge.source ∉ nodes.map Node.id ∧
    t.holds edge.source = true

namespace Ledger

/-- One ledger was reached from another by events and conflicts that were added. -/
structure Adds (before after : Ledger α) (log : List (Event α)) (records : List ConflictRecord) :
    Prop where
  events : after.events = before.events ++ log
  conflicts : after.conflicts = before.conflicts ++ records

def Unopposed (t : Table α) (nodes : List (Node α)) (edges : List (Edge α))
    (before after : Ledger α) : Prop :=
  ∀ log, after.events = before.events ++ log → ∀ ev ∈ log, ¬ev.IsHeldUp t nodes edges

theorem Adds.unique {before after : Ledger α} {log log' : List (Event α)}
    {records records' : List ConflictRecord} (h : before.Adds after log records)
    (h' : before.Adds after log' records') : log = log' ∧ records = records' :=
  ⟨List.append_cancel_left (h.events.symm.trans h'.events),
    List.append_cancel_left (h.conflicts.symm.trans h'.conflicts)⟩

theorem Adds.unopposed_iff {before after : Ledger α} {log : List (Event α)}
    {records : List ConflictRecord} (h : before.Adds after log records) {t : Table α}
    {nodes : List (Node α)} {edges : List (Edge α)} :
    Unopposed t nodes edges before after ↔ ∀ ev ∈ log, ¬ev.IsHeldUp t nodes edges := by
  refine ⟨fun hfree => hfree log h.events, fun hfree log' hlog' => ?_⟩
  rwa [← List.append_cancel_left (h.events.symm.trans hlog')]

theorem Unopposed.earlier {t : Table α} {nodes : List (Node α)} {edges : List (Edge α)}
    {before now after : Ledger α} (h : Unopposed t nodes edges before after)
    (hlater : now.events <+: after.events) : Unopposed t nodes edges before now := by
  obtain ⟨later, hlater⟩ := hlater
  intro log hlog ev hev
  refine h (log ++ later) ?_ ev (List.mem_append_left _ hev)
  rw [← hlater, hlog, List.append_assoc]

theorem Unopposed.write {t : Table α} {nodes : List (Node α)} {edges : List (Edge α)}
    {before now : Ledger α} {log : List (Event α)} {records : List ConflictRecord}
    (h : Unopposed t nodes edges before now) (hadds : before.Adds now log records) {c : Change α}
    (hc : ¬c.event.IsHeldUp t nodes edges) : Unopposed t nodes edges before (now.write c) := by
  intro log' hlog' ev hev
  obtain rfl : log' = log ++ [c.event] := by
    rw [write_events, hadds.events, List.append_assoc] at hlog'
    exact (List.append_cancel_left hlog').symm
  rcases List.mem_append.1 hev with hearlier | hlast
  · exact h log hadds.events ev hearlier
  · rwa [List.mem_singleton.1 hlast]

/-- Two ledgers that came from two others side by side: they agree on the nodes, each still has what
it was left with of other ids, and the same was added to both. -/
structure InStep (nodes : List (Node α)) (before before' now now' : Ledger α) : Prop where
  states : ∀ m ∈ nodes.map Node.id, now'.states.get? m = now.states.get? m
  left : ∀ m ∉ nodes.map Node.id, now.states.get? m = before.states.get? m
  left' : ∀ m ∉ nodes.map Node.id, now'.states.get? m = before'.states.get? m
  added : ∃ log records, before.Adds now log records ∧ before'.Adds now' log records

namespace InStep
variable {nodes : List (Node α)} {edges : List (Edge α)} {before before' now now' : Ledger α}

theorem symm (h : InStep nodes before before' now now') : InStep nodes before' before now' now where
  states m hm := (h.states m hm).symm
  left := h.left'
  left' := h.left
  added := h.added.imp fun _ h => h.imp fun _ h => h.symm

theorem write (h : InStep nodes before before' now now') {c : Change α}
    (hc : c.event.target ∈ nodes.map Node.id) :
    InStep nodes before before' (now.write c) (now'.write c) where
  states m hm := by rw [write_get?, write_get?, h.states m hm]
  left m hm := by
    have hne : c.event.target ≠ m := fun heq => hm (heq ▸ hc)
    rw [write_get?, if_neg hne, h.left m hm]
  left' m hm := by
    have hne : c.event.target ≠ m := fun heq => hm (heq ▸ hc)
    rw [write_get?, if_neg hne, h.left' m hm]
  added := by
    obtain ⟨log, records, hadds, hadds'⟩ := h.added
    refine ⟨log ++ [c.event], records ++ c.conflict.toList, ⟨?_, ?_⟩, ?_, ?_⟩
    · rw [write_events, hadds.events, List.append_assoc]
    · rw [write_conflicts, hadds.conflicts, List.append_assoc]
    · rw [write_events, hadds'.events, List.append_assoc]
    · rw [write_conflicts, hadds'.conflicts, List.append_assoc]

theorem not_isHeldUp (h : InStep nodes before before' now now') {c : Change α} {t : Table α}
    {after : Ledger α} (hfair : Unopposed t nodes edges before after)
    (hlater : (now.write c).events <+: after.events) : ¬c.event.IsHeldUp t nodes edges := by
  obtain ⟨log, records, hadds, -⟩ := h.added
  refine hfair.earlier hlater (log ++ [c.event]) ?_ c.event (by simp)
  rw [write_events, hadds.events, List.append_assoc]

end InStep
end Ledger

variable [Quantity α]

theorem Rule.achievement_lost {e : Evidence α} {p : Proposal α}
    (h : inference .achieves e = some p) (hfails : e.source.logic = .fails) :
    e.sourceNode.id ∈ e.target.derivedFrom ∧ hasOtherAchiever e = false := by
  simp only [inference, achievement, hfails, reduceCtorEq, if_false, if_true] at h
  split at h
  · cases h
  split at h
  · rename_i hlost
    simpa using hlost
  · cases h

namespace Setting
variable {s : Setting α} {nodes : List (Node α)} {edges : List (Edge α)} {h : Hop α × Rule α}
  {t t' : Table α} {c : Change α}

theorem change?_edge (hc : s.change? t h = some c) : c.event.edge = h.1.edge.id := by
  obtain ⟨_, _, -, -, -, -, rfl⟩ := Hop.change?_eq_some hc
  rfl

theorem achievement_of_withdrawal (hg : s.graph = .ofLists nodes edges)
    (hregistry : s.registry = .builtin) (hh : h ∈ s.hops) (hc : s.change? t h = some c)
    (hwithdraws : c.event.isWithdrawal = true) :
    ∃ e p, h.1.evidence? s.config s.graph t = some e ∧ Rule.inference .achieves e = some p ∧
      e.source.logic = .fails := by
  obtain ⟨r, hrule, hrel⟩ := rule_of_mem_hops hregistry hh
  obtain ⟨-, hrelation, source, -, hsource, -, hiff, -⟩ := change?_credit hg hregistry hh hc
  obtain ⟨hachieves, hfails⟩ := hiff.1 hwithdraws
  obtain rfl : r = .achieves :=
    Relation.name_injective (hrel.symm.trans (hrelation.symm.trans hachieves))
  obtain ⟨e, p, he, hp, -, -, rfl⟩ := Hop.change?_eq_some hc
  rw [hrule] at hp
  have hshown := (Hop.evidence?_shows he).1
  rw [hsource, Option.some.injEq] at hshown
  exact ⟨e, p, he, (floored_eq_some hp).2, hshown ▸ hfails⟩

theorem unachieved_of_withdrawal (hg : s.graph = .ofLists nodes edges)
    (hregistry : s.registry = .builtin) (hh : h ∈ s.hops) (hc : s.change? t h = some c)
    (hwithdraws : c.event.isWithdrawal = true) : t.achievedOtherwise edges h.1 = false := by
  obtain ⟨e, p, he, hp, hfails⟩ := achievement_of_withdrawal hg hregistry hh hc hwithdraws
  have hnone := (Rule.achievement_lost hp hfails).2
  rw [hg] at he
  rwa [Hop.hasOtherAchiever_eq he] at hnone

theorem change?_of_agree (hg : s.graph = .ofLists nodes edges) (hregistry : s.registry = .builtin)
    (hh : h ∈ s.hops) (hsource : t'.get? h.1.source = t.get? h.1.source)
    (htarget : t'.get? h.1.target = t.get? h.1.target) (hc : s.change? t h = some c)
    (hfree : c.event.isWithdrawal = true → t'.achievedOtherwise edges h.1 = false) :
    s.change? t' h = some c := by
  obtain ⟨hop, rule⟩ := h
  obtain ⟨r, rfl, hrel⟩ := rule_of_mem_hops hregistry hh
  have hedges : s.graph.edges = edges := by rw [hg]; rfl
  rw [← hc]
  refine change?_congr hg hg rfl rfl rfl hsource htarget ?_
  rintro rfl source hheld hfails
  obtain ⟨-, hrelation, source', -, hsource', -, hiff, -⟩ := change?_credit hg hregistry hh hc
  obtain rfl : source = source' := Option.some.inj (hheld.symm.trans hsource')
  have hwithdraws := hiff.2 ⟨hrelation.trans hrel, hfails⟩
  rw [hedges, hfree hwithdraws, unachieved_of_withdrawal hg hregistry hh hc hwithdraws]

theorem not_isHeldUp_of_left (hg : s.graph = .ofLists nodes edges)
    (hregistry : s.registry = .builtin) (hh : h ∈ s.hops) (hc : s.change? t h = some c)
    (hleft : ∀ m ∉ nodes.map Node.id, t.get? m = t'.get? m) :
    ¬c.event.IsHeldUp t' nodes edges := by
  rintro ⟨hwithdraws, edge, hedge, hrel, hinto, hother, hgone, hheld⟩
  obtain ⟨source, hsource, hholds⟩ := Table.holds_iff.1 hheld
  rw [← hleft _ hgone] at hsource
  rw [change?_target hc] at hinto
  have hachieved : t.achievedOtherwise edges h.1 = true := Table.achievedOtherwise_eq_true.2
    ⟨edge, hedge, hinto, change?_edge hc ▸ hother, hrel, source, hsource, hholds⟩
  rw [unachieved_of_withdrawal hg hregistry hh hc hwithdraws] at hachieved
  cases hachieved

variable {before before' now now' : Ledger α}

theorem change?_inStep (hg : s.graph = .ofLists nodes edges) (hregistry : s.registry = .builtin)
    (hstep : Ledger.InStep nodes before before' now now') (hh : h ∈ s.hops)
    (hc : s.change? now.states h = some c) (hfree : ¬c.event.IsHeldUp before'.states nodes edges) :
    s.change? now'.states h = some c := by
  obtain ⟨hsource, htarget⟩ := ends_of_change hg hc
  refine change?_of_agree hg hregistry hh (hstep.states _ hsource) (hstep.states _ htarget) hc
    fun hwithdraws => Bool.eq_false_iff.2 fun hachieved => ?_
  have hnone := unachieved_of_withdrawal hg hregistry hh hc hwithdraws
  obtain ⟨edge, hedge, hinto, hother, hrel, source, hheld, hholds⟩ :=
    Table.achievedOtherwise_eq_true.1 hachieved
  by_cases hnode : edge.source ∈ nodes.map Node.id
  · rw [hstep.states _ hnode] at hheld
    rw [Table.achievedOtherwise_eq_true.2
      ⟨edge, hedge, hinto, hother, hrel, source, hheld, hholds⟩] at hnone
    cases hnone
  · rw [hstep.left' _ hnode] at hheld
    exact hfree ⟨hwithdraws, edge, hedge, hrel, hinto.trans (change?_target hc).symm,
      change?_edge hc ▸ hother, hnode, Table.holds_iff.2 ⟨source, hheld, hholds⟩⟩

theorem passFrom_prefix (s : Setting α) (id : String) (cap : Nat) (l : Ledger α) :
    (s.passFrom id l).1.events <+: (settle (s.passFrom id) (cap + 1) l).ledger.events := by
  rw [settle]
  rcases s.passFrom id l with ⟨next, changed⟩
  cases changed with
  | false => exact List.prefix_refl _
  | true =>
    simp only
    rw [settle_passFrom_ledger]
    exact s.events_prefix _ _

section
variable (hg : s.graph = .ofLists nodes edges) (hregistry : s.registry = .builtin)
include hg hregistry

theorem foldl_readOne_inStep {hops : List (Hop α × Rule α)} (hhops : ∀ h ∈ hops, h ∈ s.hops)
    {p p' : Progress α} (hstep : Ledger.InStep nodes before before' p.ledger p'.ledger)
    (hchanged : p'.changed = p.changed) (hreached : p'.reached = p.reached)
    (hfree : Ledger.Unopposed before'.states nodes edges before (hops.foldl s.readOne p).ledger)
    (hfree' : Ledger.Unopposed before.states nodes edges before'
      (hops.foldl s.readOne p').ledger) :
    let q := hops.foldl s.readOne p
    let q' := hops.foldl s.readOne p'
    Ledger.InStep nodes before before' q.ledger q'.ledger ∧ q'.changed = q.changed ∧
      q'.reached = q.reached := by
  induction hops generalizing p p' with
  | nil => exact ⟨hstep, hchanged, hreached⟩
  | cons h rest ih =>
    have hh := hhops h List.mem_cons_self
    have hrest := fun h' hh' => hhops h' (List.mem_cons_of_mem h hh')
    rw [List.foldl_cons] at hfree hfree'
    rw [List.foldl_cons, List.foldl_cons]
    cases hc : s.change? p.ledger.states h with
    | some c =>
      rw [readOne_of_some hc] at hfree ⊢
      have hlater := hfree
      rw [foldl_readOne_ledger] at hlater
      have hsame := change?_inStep hg hregistry hstep hh hc
        (hstep.not_isHeldUp hlater (s.events_prefix _ _))
      rw [readOne_of_some hsame] at hfree' ⊢
      have htarget := (ends_of_change hg hc).2
      rw [← change?_target hc] at htarget
      refine ih hrest (hstep.write htarget) rfl ?_ hfree hfree'
      simp only [hreached]
    | none =>
      cases hc' : s.change? p'.ledger.states h with
      | none =>
        rw [readOne_of_none hc] at hfree ⊢
        rw [readOne_of_none hc'] at hfree' ⊢
        exact ih hrest hstep hchanged hreached hfree hfree'
      | some c =>
        -- the other would have changed something alone
        rw [readOne_of_some hc', foldl_readOne_ledger] at hfree'
        have hsame := change?_inStep hg hregistry hstep.symm hh hc'
          (hstep.symm.not_isHeldUp hfree' (s.events_prefix _ _))
        cases hc.symm.trans hsame

theorem read_inStep {hops : List (Hop α × Rule α)} (hhops : ∀ h ∈ hops, h ∈ s.hops)
    (hstep : Ledger.InStep nodes before before' now now')
    (hfree : Ledger.Unopposed before'.states nodes edges before (s.read now hops).ledger)
    (hfree' : Ledger.Unopposed before.states nodes edges before' (s.read now' hops).ledger) :
    let q := s.read now hops
    let q' := s.read now' hops
    Ledger.InStep nodes before before' q.ledger q'.ledger ∧ q'.changed = q.changed ∧
      q'.reached = q.reached :=
  foldl_readOne_inStep hg hregistry hhops hstep rfl rfl hfree hfree'

theorem expand_inStep (steps : Nat) (queue unexpanded : List String) (changed : Bool)
    (hstep : Ledger.InStep nodes before before' now now')
    (hfree : Ledger.Unopposed before'.states nodes edges before
      (s.expand steps queue unexpanded (now, changed)).1)
    (hfree' : Ledger.Unopposed before.states nodes edges before'
      (s.expand steps queue unexpanded (now', changed)).1) :
    let done := s.expand steps queue unexpanded (now, changed)
    let done' := s.expand steps queue unexpanded (now', changed)
    Ledger.InStep nodes before before' done.1 done'.1 ∧ done'.2 = done.2 := by
  induction steps generalizing queue unexpanded changed now now' with
  | zero => exact ⟨hstep, rfl⟩
  | succ steps ih =>
    simp only [expand] at hfree hfree' ⊢
    cases hq : queue.dropWhile fun id => !unexpanded.contains id with
    | nil => exact ⟨hstep, rfl⟩
    | cons id rest =>
      simp only [hq] at hfree hfree' ⊢
      have hearlier := hfree
      have hearlier' := hfree'
      rw [expand_ledger] at hearlier hearlier'
      obtain ⟨hnext, hchanged, hreached⟩ := read_inStep hg hregistry
        (fun h hh => ((mem_hopsAt hg).1 hh).1) hstep (hearlier.earlier (s.events_prefix _ _))
        (hearlier'.earlier (s.events_prefix _ _))
      simp only [hchanged, hreached] at hfree hfree' ⊢
      exact ih _ _ _ hnext hfree hfree'

theorem settle_inStep (id : String) (cap : Nat)
    (hstep : Ledger.InStep nodes before before' now now')
    (hfree : Ledger.Unopposed before'.states nodes edges before
      (settle (s.passFrom id) cap now).ledger)
    (hfree' : Ledger.Unopposed before.states nodes edges before'
      (settle (s.passFrom id) cap now').ledger) :
    let done := settle (s.passFrom id) cap now
    let done' := settle (s.passFrom id) cap now'
    Ledger.InStep nodes before before' done.ledger done'.ledger ∧
      done'.converged = done.converged ∧ done'.iterations = done.iterations := by
  induction cap generalizing now now' with
  | zero => exact ⟨hstep, rfl, rfl⟩
  | succ cap ih =>
    have hpass := expand_inStep hg hregistry _ _ _ false hstep
      (hfree.earlier (s.passFrom_prefix id cap now))
      (hfree'.earlier (s.passFrom_prefix id cap now'))
    simp only [settle] at hfree hfree' ⊢
    change Ledger.InStep nodes before before' (s.passFrom id now).1 (s.passFrom id now').1 ∧
      (s.passFrom id now').2 = (s.passFrom id now).2 at hpass
    rcases hp : s.passFrom id now with ⟨next, changed⟩
    rcases hp' : s.passFrom id now' with ⟨next', changed'⟩
    rw [hp, hp'] at hpass
    rw [hp] at hfree
    rw [hp'] at hfree'
    obtain ⟨hnext, rfl⟩ := hpass
    cases changed' with
    | false => exact ⟨hnext, rfl, rfl⟩
    | true =>
      obtain ⟨hlast, hconverged, hiterations⟩ := ih hnext hfree hfree'
      exact ⟨hlast, hconverged, congrArg (· + 1) hiterations⟩

theorem after_unopposed {hops : List (Hop α × Rule α)} (hhops : ∀ h ∈ hops, h ∈ s.hops)
    (hl : Ledger.InStep nodes before before now now)
    (hfree : Ledger.Unopposed before.states nodes edges before now) :
    Ledger.Unopposed before.states nodes edges before (s.after now hops) := by
  refine (s.after_induction (P := fun l => Ledger.InStep nodes before before l l ∧
    Ledger.Unopposed before.states nodes edges before l) (fun l h hh c hnow hc => ?_)
    ⟨hl, hfree⟩).2
  obtain ⟨hstep, hso⟩ := hnow
  have htarget := (ends_of_change hg hc).2
  rw [← change?_target hc] at htarget
  obtain ⟨log, records, hadds, -⟩ := hstep.added
  exact ⟨hstep.write htarget, hso.write hadds
    (not_isHeldUp_of_left hg hregistry (hhops h hh) hc hstep.left)⟩

end

end Setting

namespace Engine
variable {e e' : Engine α} {nodes : List (Node α)} {id : String} {n : Node α} {logic : LogicState}

theorem opening_inStep (hconfig : e'.config = e.config)
    (hagree : ∀ m ∈ nodes.map Node.id, e'.ledger.states.get? m = e.ledger.states.get? m)
    (hn : (Snapshot.nodeMap nodes).get? id = some n)
    (hallowed : e.config.admit .edit n logic = .ok ()) :
    Ledger.InStep nodes e.ledger e'.ledger (e.opening id logic nodes)
      (e'.opening id logic nodes) := by
  have hid : id ∈ nodes.map Node.id :=
    Snapshot.mem_keys_nodeMap.1 (OrderedMap.mem_keys_iff.2 ⟨n, hn⟩)
  have hleft : ∀ e : Engine α, ∀ m ∉ nodes.map Node.id,
      (e.opening id logic nodes).states.get? m = e.ledger.states.get? m := by
    intro e m hm
    have hgone : (Snapshot.nodeMap nodes).get? m = none :=
      (OrderedMap.get?_eq_none_iff _ m).2 fun hkey => hm (Snapshot.mem_keys_nodeMap.1 hkey)
    have hne : m ≠ id := fun heq => hm (heq ▸ hid)
    rw [e.opening_get? hne, hgone]
    simp
  refine ⟨fun m hm => ?_, hleft e, hleft e', [], [], ⟨?_, ?_⟩, ?_, ?_⟩
  · by_cases hedited : m = id
    · subst hedited
      obtain ⟨current, hcurrent, hopening, -⟩ := update_of_admitted hn hallowed []
      obtain ⟨current', hcurrent', hopening', -⟩ := update_of_admitted hn (hconfig ▸ hallowed) []
      rw [complete_get?] at hcurrent hcurrent'
      rw [hagree m hm, hcurrent, Option.some.injEq] at hcurrent'
      rw [hopening, hopening', hcurrent']
      simp only [assert, OrderedMap.get?_insert, if_true]
    · rw [opening_get? _ hedited, opening_get? _ hedited, hagree m hm]
  all_goals simp [opening_events, opening_conflicts]

theorem update_adds (e : Engine α) (id : String) (logic : LogicState) (nodes : List (Node α))
    (edges : List (Edge α)) :
    ∃ log records, e.ledger.Adds (e.update id logic nodes edges).1.ledger log records := by
  obtain ⟨hops, -, hledger⟩ := e.update_eq_after id logic nodes edges
  rw [hledger]
  obtain ⟨log, hlog⟩ := Setting.after_continues (e.setting (.ofLists nodes edges))
    (e.opening id logic nodes) hops
  obtain ⟨records, hrecords⟩ := Setting.after_conflicts (e.setting (.ofLists nodes edges))
    (e.opening id logic nodes) hops
  refine ⟨log, records, ?_, ?_⟩
  · rw [← e.opening_events id logic nodes]
    exact hlog.appended
  · rw [← e.opening_conflicts id logic nodes]
    exact hrecords

theorem update_unopposed (hregistry : e.registry = .builtin)
    (hn : (Snapshot.nodeMap nodes).get? id = some n)
    (hallowed : e.config.admit .edit n logic = .ok ()) (edges : List (Edge α)) :
    Ledger.Unopposed e.ledger.states nodes edges e.ledger
      (e.update id logic nodes edges).1.ledger := by
  obtain ⟨hops, hhops, hledger⟩ := e.update_eq_after id logic nodes edges
  rw [hledger]
  refine Setting.after_unopposed rfl hregistry hhops
    (opening_inStep rfl (fun _ _ => rfl) hn hallowed) fun log hlog ev hev => ?_
  rw [opening_events] at hlog
  rw [List.self_eq_append_right.1 hlog] at hev
  cases hev

theorem update_inStep (hregistry : e.registry = .builtin)
    (hregistry' : e'.registry = .builtin) (hconfig : e'.config = e.config)
    (hagree : ∀ m ∈ nodes.map Node.id, e'.ledger.states.get? m = e.ledger.states.get? m)
    (hn : (Snapshot.nodeMap nodes).get? id = some n)
    (hallowed : e.config.admit .edit n logic = .ok ()) (edges : List (Edge α))
    (hfree : Ledger.Unopposed e'.ledger.states nodes edges e.ledger
      (e.update id logic nodes edges).1.ledger)
    (hfree' : Ledger.Unopposed e.ledger.states nodes edges e'.ledger
      (e'.update id logic nodes edges).1.ledger) :
    Ledger.InStep nodes e.ledger e'.ledger (e.update id logic nodes edges).1.ledger
        (e'.update id logic nodes edges).1.ledger ∧
      ∀ r r', (e.update id logic nodes edges).2 = .ok r →
        (e'.update id logic nodes edges).2 = .ok r' →
        r'.converged = r.converged ∧ r'.iterations = r.iterations := by
  have hsetting : e'.setting (.ofLists nodes edges) = e.setting (.ofLists nodes edges) := by
    rw [setting, setting, hconfig, hregistry, hregistry']
  obtain ⟨-, -, -, hupdate⟩ := update_of_admitted hn hallowed edges
  obtain ⟨-, -, -, hupdate'⟩ := update_of_admitted hn (hconfig ▸ hallowed) edges
  simp only [hsetting, hconfig] at hupdate'
  rw [hupdate] at hfree ⊢
  rw [hupdate'] at hfree' ⊢
  obtain ⟨hstep, hconverged, hiterations⟩ := Setting.settle_inStep rfl hregistry id
    e.config.passes (opening_inStep hconfig hagree hn hallowed) hfree hfree'
  refine ⟨hstep, fun r r' hr hr' => ?_⟩
  cases hr
  cases hr'
  exact ⟨hconverged, hiterations⟩

/-- Two engines that agree on the nodes answer an admitted edit alike, with the same states of all
nodes, events and conflicts, just if neither withdraws an achievement that, by the other's table, is
held up by a source that is no node. -/
theorem update_despite_leftovers (hregistry : e.registry = .builtin)
    (hregistry' : e'.registry = .builtin) (hconfig : e'.config = e.config)
    (hagree : ∀ m ∈ nodes.map Node.id, e'.ledger.states.get? m = e.ledger.states.get? m)
    (hn : (Snapshot.nodeMap nodes).get? id = some n)
    (hallowed : e.config.admit .edit n logic = .ok ()) (edges : List (Edge α)) :
    let call := e.update id logic nodes edges
    let call' := e'.update id logic nodes edges
    ∃ r r' log log' records records', call.2 = .ok r ∧ call'.2 = .ok r' ∧
      r = (Settled.mk call.1.ledger r.converged r.iterations).result ∧
      r' = (Settled.mk call'.1.ledger r'.converged r'.iterations).result ∧
      e.ledger.Adds call.1.ledger log records ∧ e'.ledger.Adds call'.1.ledger log' records' ∧
      ((∀ m ∈ nodes.map Node.id, r'.states.get? m = r.states.get? m) ∧ log' = log ∧
          records' = records ↔
        (∀ ev ∈ log, ¬ev.IsHeldUp e'.ledger.states nodes edges) ∧
          ∀ ev ∈ log', ¬ev.IsHeldUp e.ledger.states nodes edges) ∧
      (log' = log → r'.converged = r.converged ∧ r'.iterations = r.iterations) := by
  intro call call'
  have hallowed' : e'.config.admit .edit n logic = .ok () := hconfig ▸ hallowed
  obtain ⟨-, -, -, hupdate⟩ := update_of_admitted hn hallowed edges
  obtain ⟨-, -, -, hupdate'⟩ := update_of_admitted hn hallowed' edges
  have hanswer := congrArg Prod.snd hupdate
  have hanswer' := congrArg Prod.snd hupdate'
  have hshown := update_shows hanswer
  have hshown' := update_shows hanswer'
  obtain ⟨log, records, hadds⟩ := e.update_adds id logic nodes edges
  obtain ⟨log', records', hadds'⟩ := e'.update_adds id logic nodes edges
  have hown := hadds.unopposed_iff.1 (update_unopposed hregistry hn hallowed edges)
  have hown' := hadds'.unopposed_iff.1 (update_unopposed hregistry' hn hallowed' edges)
  have hstep := fun hfree hfree' => update_inStep hregistry hregistry' hconfig hagree hn hallowed
    edges (hadds.unopposed_iff.2 hfree) (hadds'.unopposed_iff.2 hfree')
  refine ⟨_, _, log, log', records, records', hanswer, hanswer', hshown, hshown', hadds, hadds',
    ⟨?_, ?_⟩, ?_⟩
  · rintro ⟨-, rfl, -⟩
    exact ⟨hown', hown⟩
  · rintro ⟨hfree, hfree'⟩
    obtain ⟨hstates, -, -, both, records₂, hboth, hboth'⟩ := (hstep hfree hfree').1
    obtain ⟨rfl, rfl⟩ := hadds.unique hboth
    obtain ⟨rfl, rfl⟩ := hadds'.unique hboth'
    rw [hshown, hshown']
    exact ⟨hstates, rfl, rfl⟩
  · rintro rfl
    exact (hstep hown' hown).2 _ _ hanswer hanswer'

theorem update_despite_leftovers_failed :
    let a : Node Float := ⟨"a", .action, "", 90.0⟩
    let g : Node Float := ⟨"g", .goal, "", 50.0⟩
    let z : Node Float := ⟨"z", .action, "", 10.0⟩
    let edges : List (Edge Float) :=
      [⟨"ag", "a", "g", "achieves", 1.0⟩, ⟨"zg", "z", "g", "achieves", 1.0⟩]
    let e := ((Engine.new .standard .builtin).run [a, g, z] edges ∅).1
    let e' := { e with ledger := { e.ledger with states := e.ledger.states.erase "z" } }
    (e.ledger.states.get? "z").map NodeState.logic = some .fails ∧
      e'.ledger.states.get? "z" = none ∧
      ∃ r r', (e.update "a" .fails [a, g] edges).2 = .ok r ∧
        (e'.update "a" .fails [a, g] edges).2 = .ok r' ∧
        (r.states.get? "g").map NodeState.logic = some .unknown ∧
        r'.states.get? "g" = r.states.get? "g" ∧ r'.iterations = r.iterations := by
  intro a g z edges e e'
  have hgone : e'.ledger.states.get? "z" = none := by
    simp only [e', OrderedMap.get?_erase, if_true]
  have hagree : ∀ m ∈ [a, g].map Node.id,
      e'.ledger.states.get? m = e.ledger.states.get? m :=
    e.ledger.states.get?_erase_of_not_mem (by decide)
  have hfree : ∀ t : Table Float, t.holds "z" = false → ∀ ev : Event Float,
      ¬ev.IsHeldUp t [a, g] edges := by
    rintro t hz ev ⟨-, edge, hedge, -, -, -, hnode, hheld⟩
    rcases List.mem_pair.1 hedge with rfl | rfl
    · exact absurd (by decide) hnode
    · exact absurd hheld (by rw [hz]; decide)
  have hn : (Snapshot.nodeMap [a, g]).get? "a" = some a := rfl
  have hallowed : e.config.admit .edit a .fails = .ok () :=
    (e.config.admit_eq_ok_iff _ _ _).2 fun _ => a.kind.admits_of_fails
  have hregistry : e.registry = .builtin := run_registry ..
  have hregistry' : e'.registry = .builtin := hregistry
  have hconfig : e'.config = e.config := rfl
  have hz : e.ledger.states.holds "z" = false := by decide +kernel
  have hz' : e'.ledger.states.holds "z" = false := by rw [Table.holds, hgone]; rfl
  obtain ⟨r, r', log, log', _, _, hanswer, hanswer', -, -, -, -, hsame, hends⟩ :=
    update_despite_leftovers hregistry hregistry' hconfig hagree hn hallowed edges
  obtain ⟨hstates, hlog, -⟩ := hsame.2 ⟨fun ev _ => hfree _ hz' ev, fun ev _ => hfree _ hz ev⟩
  have hunknown : (r.states.get? "g").map NodeState.logic = some .unknown := by
    rw [(update_result hanswer).1]
    decide +kernel
  exact ⟨by decide +kernel, hgone, r, r', hanswer, hanswer', hunknown,
    hstates "g" (by decide), (hends hlog).2⟩

/-- So what is gone may have a say: an action that was left out holds the goal up, by an edge that
is not read, and where it is forgotten the goal is lost. -/
theorem leftover_holds_goal_up :
    let a : Node Float := ⟨"a", .action, "", 90.0⟩
    let g : Node Float := ⟨"g", .goal, "", 50.0⟩
    let z : Node Float := ⟨"z", .action, "", 85.0⟩
    let edges : List (Edge Float) :=
      [⟨"ag", "a", "g", "achieves", 1.0⟩, ⟨"zg", "z", "g", "achieves", 1.0⟩]
    let e := ((Engine.new .standard .builtin).run [a, g, z] edges ∅).1
    let e' := { e with ledger := { e.ledger with states := e.ledger.states.erase "z" } }
    (∀ m ∈ [a, g].map Node.id, e'.ledger.states.get? m = e.ledger.states.get? m) ∧
      ∃ r r', (e.update "a" .fails [a, g] edges).2 = .ok r ∧
        (e'.update "a" .fails [a, g] edges).2 = .ok r' ∧
        (r.states.get? "g").map NodeState.logic = some .holds ∧
        (r'.states.get? "g").map NodeState.logic = some .unknown ∧
        r.events.length = 1 ∧ r'.events.length = 2 := by
  intro a g z edges e e'
  have hn : (Snapshot.nodeMap [a, g]).get? "a" = some a := rfl
  have hanswers : ∀ e : Engine Float, ∃ r, (e.update "a" .fails [a, g] edges).2 = .ok r := by
    intro e
    have hallowed : e.config.admit .edit a .fails = .ok () :=
      (e.config.admit_eq_ok_iff _ _ _).2 fun _ => a.kind.admits_of_fails
    obtain ⟨-, -, -, hupdate⟩ := update_of_admitted hn hallowed edges
    exact ⟨_, congrArg Prod.snd hupdate⟩
  obtain ⟨r, hanswer⟩ := hanswers e
  obtain ⟨r', hanswer'⟩ := hanswers e'
  obtain ⟨hstates, hevents⟩ := update_result hanswer
  obtain ⟨hstates', hevents'⟩ := update_result hanswer'
  have hkept : (r.states.get? "g").map NodeState.logic = some .holds ∧ r.events.length = 1 := by
    rw [hstates, hevents]
    decide +kernel
  have hlost : (r'.states.get? "g").map NodeState.logic = some .unknown ∧
      r'.events.length = 2 := by
    rw [hstates', hevents']
    decide +kernel
  exact ⟨e.ledger.states.get?_erase_of_not_mem (by decide), r, r', hanswer, hanswer', hkept.1,
    hlost.1, hkept.2, hlost.2⟩

end Engine
end ReasonGraph
