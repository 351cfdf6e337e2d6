import ReasonGraph.Proofs.Trail

/-! Which ids have a state, and what a seed is. Seeding gives a state to every node and to nothing
else, and readings only write where a state stands, so throughout a run exactly the nodes have
states. -/

namespace ReasonGraph
variable {α : Type}

namespace Snapshot

theorem nodeMap_entry {nodes : List (Node α)} {e : String × Node α}
    (h : e ∈ (nodeMap nodes).entries) : e.2 ∈ nodes ∧ e.2.id = e.1 := by
  obtain ⟨n, hn, rfl⟩ := List.mem_map.1 (OrderedMap.mem_ofList h)
  exact ⟨hn, rfl⟩

theorem nodeMap_get? {nodes : List (Node α)} {id : String} {n : Node α}
    (h : (nodeMap nodes).get? id = some n) : n ∈ nodes ∧ n.id = id :=
  nodeMap_entry (OrderedMap.mem_of_find h)

theorem mem_keys_nodeMap {nodes : List (Node α)} {id : String} :
    id ∈ (nodeMap nodes).keys ↔ id ∈ nodes.map Node.id := by
  rw [nodeMap, OrderedMap.mem_keys_ofList, List.map_map]
  rfl

theorem mem_values_nodeMap {nodes : List (Node α)} {n : Node α}
    (h : n ∈ (nodeMap nodes).values) : n ∈ nodes := by
  obtain ⟨e, he, rfl⟩ := List.mem_map.1 h
  exact (nodeMap_entry he).1

theorem map_id_values_nodeMap (nodes : List (Node α)) :
    (nodeMap nodes).values.map Node.id = (nodeMap nodes).keys := by
  rw [OrderedMap.values, OrderedMap.keys, List.map_map]
  exact List.map_congr_left fun e he => (nodeMap_entry he).2

end Snapshot

theorem Hop.evidence?_ids {h : Hop α} {config : Config α} {nodes : List (Node α)}
    {edges : List (Edge α)} {t : Table α} {e : Evidence α}
    (he : h.evidence? config (.ofLists nodes edges) t = some e) :
    e.sourceNode.id = h.source ∧ e.targetNode.id = h.target := by
  obtain ⟨_, _, _, _, hsource, htarget, -, -, rfl⟩ := evidence?_eq_some he
  exact ⟨(Snapshot.nodeMap_get? hsource).2, (Snapshot.nodeMap_get? htarget).2⟩

namespace Engine

theorem noteCycles_states (e : Engine α) (g : Snapshot α) :
    (e.noteCycles g).states = e.ledger.states := by
  unfold noteCycles
  split <;> rfl

theorem noteCycles_events (e : Engine α) (g : Snapshot α) :
    (e.noteCycles g).events = e.ledger.events := by
  unfold noteCycles
  split <;> rfl

end Engine

variable [Quantity α]

theorem Node.seed_eq_ok {n : Node α} {config : Config α} {o : Override α} {s : NodeState α}
    (h : n.seed config o = .ok s) :
    s = ⟨n.id, o.logic.getD (.infer n.confidence), o.confidence.getD n.confidence,
      o.derivedFrom.getD [], none⟩ := by
  obtain ⟨logic, confidence, derivedFrom⟩ := o
  cases logic with
  | none => cases h; rfl
  | some logic =>
    simp only [seed, bind, Except.bind] at h
    split at h
    · cases h
    · cases h
      rfl

theorem Node.seed_partners {n : Node α} {config : Config α} {o : Override α} {s : NodeState α}
    (h : n.seed config o = .ok s) : s.partners = none := by
  rw [seed_eq_ok h]

theorem Node.seedFrom_partners {n : Node α} {config : Config α} {overrides : Overrides α}
    {s : NodeState α} (h : n.seedFrom config overrides = .ok s) : s.partners = none := by
  rw [Node.seedFrom] at h
  split at h
  · exact Node.seed_partners h
  · exact Node.seed_partners h
  · cases h

theorem Node.seedFrom_nodeId {n : Node α} {config : Config α} {overrides : Overrides α}
    {s : NodeState α} (h : n.seedFrom config overrides = .ok s) : s.nodeId = n.id := by
  rw [Node.seedFrom] at h
  split at h
  · rw [Node.seed_eq_ok h]
  · rw [Node.seed_eq_ok h]
  · cases h

theorem Table.mem_keys_seed {config : Config α} {overrides : Overrides α} {ns : List (Node α)}
    {t t' : Table α} (h : Table.seed config overrides ns t = (t', none)) {id : String} :
    id ∈ t'.keys ↔ id ∈ ns.map Node.id ∨ id ∈ t.keys := by
  induction ns generalizing t with
  | nil =>
    obtain ⟨rfl, -⟩ := Prod.mk.inj h
    simp
  | cons n rest ih =>
    rw [Table.seed] at h
    cases hn : n.seedFrom config overrides with
    | error r => rw [hn] at h; cases h
    | ok state =>
      rw [hn] at h
      rw [ih h, OrderedMap.mem_keys_insert, List.map_cons, List.mem_cons, or_left_comm, or_assoc]

theorem Table.seed_induction {config : Config α} {overrides : Overrides α} {P : Table α → Prop}
    {ns : List (Node α)} (hinsert : ∀ t, ∀ n ∈ ns, ∀ s, P t →
      n.seedFrom config overrides = .ok s → P (t.insert n.id s))
    {t : Table α} (ht : P t) : P (Table.seed config overrides ns t).1 := by
  induction ns generalizing t with
  | nil => exact ht
  | cons n rest ih =>
    rw [Table.seed]
    cases hn : n.seedFrom config overrides with
    | error r => exact ht
    | ok s =>
      exact ih (fun t n' hn' => hinsert t n' (List.mem_cons_of_mem n hn'))
        (hinsert t n List.mem_cons_self s ht hn)

theorem Table.mem_keys_complete {t : Table α} {nodes : List (Node α)} {id : String} :
    id ∈ (t.complete nodes).keys ↔ id ∈ nodes.map Node.id ∨ id ∈ t.keys := by
  unfold Table.complete
  induction nodes generalizing t with
  | nil => simp
  | cons n rest ih =>
    rw [List.foldl_cons, ih, List.map_cons, List.mem_cons]
    split
    · rename_i hn
      rw [OrderedMap.contains_iff] at hn
      constructor
      · exact fun h => h.imp_left .inr
      · rintro ((rfl | h) | h)
        · exact .inr hn
        · exact .inl h
        · exact .inr h
    · rw [OrderedMap.mem_keys_insert, or_left_comm, or_assoc]

theorem Table.complete_of_seated {t : Table α} {ns : List (Node α)}
    (h : ∀ n ∈ ns, n.id ∈ t.keys) : t.complete ns = t := by
  unfold Table.complete
  induction ns with
  | nil => rfl
  | cons n rest ih =>
    have hseated : t.contains n.id = true :=
      (OrderedMap.contains_iff t n.id).2 (h n List.mem_cons_self)
    rw [List.foldl_cons, if_pos hseated]
    exact ih fun n' hn' => h n' (List.mem_cons_of_mem n hn')

theorem Setting.write_keys {s : Setting α} {l : Ledger α} {h : Hop α × Rule α} {c : Change α}
    (hc : s.change? l.states h = some c) : (l.write c).states.keys = l.states.keys := by
  obtain ⟨e, p, he, -, -, -, rfl⟩ := Hop.change?_eq_some hc
  obtain ⟨_, _, _, target, -, -, -, htarget, -⟩ := Hop.evidence?_eq_some he
  have hmem : h.1.target ∈ l.states.keys := OrderedMap.mem_keys_iff.2 ⟨target, htarget⟩
  exact (OrderedMap.keys_insert l.states h.1.target _).trans (if_pos hmem)

theorem Setting.ends_of_change {s : Setting α} {nodes : List (Node α)} {edges : List (Edge α)}
    (hg : s.graph = .ofLists nodes edges) {t : Table α} {h : Hop α × Rule α} {c : Change α}
    (hc : s.change? t h = some c) :
    h.1.source ∈ nodes.map Node.id ∧ h.1.target ∈ nodes.map Node.id := by
  obtain ⟨e, _, he, -⟩ := Hop.change?_eq_some hc
  obtain ⟨_, _, _, _, hsource, htarget, -⟩ := Hop.evidence?_eq_some he
  rw [hg] at hsource htarget
  exact ⟨Snapshot.mem_keys_nodeMap.1 (OrderedMap.mem_keys_iff.2 ⟨_, hsource⟩),
    Snapshot.mem_keys_nodeMap.1 (OrderedMap.mem_keys_iff.2 ⟨_, htarget⟩)⟩

theorem Setting.after_induction {s : Setting α} {P : Ledger α → Prop}
    {hops : List (Hop α × Rule α)}
    (hwrite : ∀ l, ∀ h ∈ hops, ∀ c, P l → s.change? l.states h = some c → P (l.write c))
    {l : Ledger α} (hl : P l) : P (s.after l hops) := by
  induction hops generalizing l with
  | nil => exact hl
  | cons h rest ih =>
    refine ih (fun l h' hh' => hwrite l h' (List.mem_cons_of_mem _ hh')) ?_
    rcases s.step_cases l h with ⟨-, hstep⟩ | ⟨c, hc, hstep⟩
    · rwa [hstep]
    · rw [hstep]
      exact hwrite l h List.mem_cons_self c hl hc

theorem Setting.after_keys (s : Setting α) (l : Ledger α) (hops : List (Hop α × Rule α)) :
    (s.after l hops).states.keys = l.states.keys :=
  s.after_induction (P := fun l' => l'.states.keys = l.states.keys)
    (fun _ _ _ _ hl hc => (write_keys hc).trans hl) rfl

theorem Setting.after_conflicts (s : Setting α) (l : Ledger α) (hops : List (Hop α × Rule α)) :
    ∃ more, (s.after l hops).conflicts = l.conflicts ++ more := by
  refine s.after_induction (P := fun l' => ∃ more, l'.conflicts = l.conflicts ++ more)
    (fun l' _ _ c hl _ => ?_) ⟨[], by simp⟩
  obtain ⟨more, hmore⟩ := hl
  exact ⟨more ++ c.conflict.toList, by rw [Ledger.write_conflicts, hmore, List.append_assoc]⟩

theorem Setting.after_cycles (s : Setting α) (l : Ledger α) (hops : List (Hop α × Rule α)) :
    (s.after l hops).cycles = l.cycles :=
  s.after_induction (P := fun l' => l'.cycles = l.cycles) (fun _ _ _ _ hl _ => hl) rfl

namespace Engine

theorem seed_eq (e : Engine α) (nodes : OrderedMap (Node α)) (overrides : Overrides α) :
    e.seed nodes overrides =
      ({ e with ledger := { (∅ : Ledger α) with
          states := (Table.seed e.config overrides nodes.values ∅).1 } },
        (Table.seed e.config overrides nodes.values ∅).2) := rfl

theorem mem_keys_seed {e seeded : Engine α} {nodes : List (Node α)} {overrides : Overrides α}
    (h : e.seed (Snapshot.nodeMap nodes) overrides = (seeded, none)) {id : String} :
    id ∈ seeded.ledger.states.keys ↔ id ∈ nodes.map Node.id := by
  rw [seed_eq] at h
  rcases hseed : Table.seed e.config overrides (Snapshot.nodeMap nodes).values ∅ with ⟨t, stop⟩
  rw [hseed] at h
  obtain ⟨rfl, rfl⟩ := Prod.mk.inj h
  simp only [Table.mem_keys_seed hseed, Snapshot.map_id_values_nodeMap, Snapshot.mem_keys_nodeMap,
    OrderedMap.keys_empty, List.not_mem_nil, or_false]

theorem prepare_of_seeded {e seeded : Engine α} {nodes : List (Node α)} {overrides : Overrides α}
    (h : e.seed (Snapshot.nodeMap nodes) overrides = (seeded, none)) :
    e.prepare nodes overrides = (seeded, .ok seeded.ledger.states) := by
  simp only [prepare, h]

theorem prepare_states (e : Engine α) (nodes : List (Node α)) (overrides : Overrides α) :
    (e.prepare nodes overrides).1.ledger.states =
      (Table.seed e.config overrides (Snapshot.nodeMap nodes).values ∅).1 := by
  rw [prepare, seed_eq]
  cases (Table.seed e.config overrides (Snapshot.nodeMap nodes).values ∅).2 <;> rfl

theorem prepare_conflicts (e : Engine α) (nodes : List (Node α)) (overrides : Overrides α) :
    (e.prepare nodes overrides).1.ledger.conflicts = [] := by
  rw [prepare, seed_eq]
  cases (Table.seed e.config overrides (Snapshot.nodeMap nodes).values ∅).2 <;> rfl

theorem prepare_cycles (e : Engine α) (nodes : List (Node α)) (overrides : Overrides α) :
    (e.prepare nodes overrides).1.ledger.cycles = [] := by
  rw [prepare, seed_eq]
  cases (Table.seed e.config overrides (Snapshot.nodeMap nodes).values ∅).2 <;> rfl

theorem prepare_config (e : Engine α) (nodes : List (Node α)) (overrides : Overrides α) :
    (e.prepare nodes overrides).1.config = e.config := by
  rw [prepare, seed_eq]
  cases (Table.seed e.config overrides (Snapshot.nodeMap nodes).values ∅).2 <;> rfl

theorem prepare_partners {e : Engine α} {nodes : List (Node α)} {overrides : Overrides α}
    {id : String} {state : NodeState α}
    (h : (e.prepare nodes overrides).1.ledger.states.get? id = some state) :
    state.partners = none := by
  rw [prepare_states] at h
  refine Table.seed_induction (P := fun t => ∀ id state, t.get? id = some state →
    state.partners = none) (fun t n _ seed ht hseed id state hstate => ?_)
    (fun _ _ h => by cases h) id state h
  rw [OrderedMap.get?_insert] at hstate
  split at hstate
  · cases hstate
    exact Node.seedFrom_partners hseed
  · exact ht id state hstate

theorem prepare_given {e : Engine α} {nodes : List (Node α)} {overrides : Overrides α}
    {seeds : Table α} (h : (e.prepare nodes overrides).2 = .ok seeds) :
    (e.prepare nodes overrides).1.ledger.states = seeds := by
  cases hseed : e.seed (Snapshot.nodeMap nodes) overrides with
  | mk seeded rejection =>
    simp only [prepare, hseed] at h ⊢
    cases rejection with
    | some r => cases h
    | none => exact Except.ok.inj h

theorem mem_keys_prepare {e : Engine α} {nodes : List (Node α)} {overrides : Overrides α}
    {seeds : Table α} (h : (e.prepare nodes overrides).2 = .ok seeds) {id : String} :
    id ∈ (e.prepare nodes overrides).1.ledger.states.keys ↔ id ∈ nodes.map Node.id := by
  cases hseed : e.seed (Snapshot.nodeMap nodes) overrides with
  | mk seeded rejection =>
    cases rejection with
    | some r =>
      simp only [prepare, hseed] at h
      cases h
    | none =>
      rw [prepare_of_seeded hseed]
      exact mem_keys_seed hseed

theorem mem_keys_run {e : Engine α} {nodes : List (Node α)} {edges : List (Edge α)}
    {overrides : Overrides α} {r : Result α} (h : (e.run nodes edges overrides).2 = .ok r)
    {id : String} : id ∈ r.states.keys ↔ id ∈ nodes.map Node.id := by
  obtain ⟨seeded, hseed, rfl⟩ := run_ok h
  rw [Settled.result, Setting.settle_fullPass_ledger, Setting.after_keys, noteCycles_states,
    mem_keys_seed hseed]

theorem update_spread {e : Engine α} {id : String} {logic : LogicState} {nodes : List (Node α)}
    {edges : List (Edge α)} {r : Result α} (hid : id ∈ nodes.map Node.id)
    (h : (e.update id logic nodes edges).2 = .ok r) :
    e.update id logic nodes edges =
      let s := settle ((e.setting (.ofLists nodes edges)).passFrom id) e.config.passes
        (e.opening id logic nodes)
      ({ e with ledger := s.ledger }, .ok s.result) := by
  rcases e.update_cases id logic nodes edges with ⟨outcome, hupdate, hr⟩ | hupdate
  · rw [hupdate] at h
    have hvalues : id ∈ (Snapshot.nodeMap nodes).values.map Node.id := by
      rwa [Snapshot.map_id_values_nodeMap, Snapshot.mem_keys_nodeMap]
    rcases (hr r h).2 with hnone | hnone
    · exact absurd (Snapshot.mem_keys_nodeMap.2 hid) ((OrderedMap.get?_eq_none_iff _ id).1 hnone)
    · exact absurd (Table.mem_keys_complete.2 (.inl hvalues))
        ((OrderedMap.get?_eq_none_iff _ id).1 hnone)
  · exact hupdate

theorem update_of_admitted {e : Engine α} {nodes : List (Node α)} {id : String} {n : Node α}
    {logic : LogicState} (hn : (Snapshot.nodeMap nodes).get? id = some n)
    (hallowed : e.config.admit .edit n logic = .ok ()) (edges : List (Edge α)) :
    ∃ current, (e.complete nodes).ledger.states.get? id = some current ∧
      e.opening id logic nodes = assert (e.complete nodes).ledger id current logic ∧
      e.update id logic nodes edges =
        let s := settle ((e.setting (.ofLists nodes edges)).passFrom id) e.config.passes
          (e.opening id logic nodes)
        ({ e with ledger := s.ledger }, .ok s.result) := by
  have hid : id ∈ (Snapshot.nodeMap nodes).values.map Node.id := by
    rw [Snapshot.map_id_values_nodeMap]
    exact OrderedMap.mem_keys_iff.2 ⟨n, hn⟩
  obtain ⟨current, hcurrent⟩ :=
    OrderedMap.mem_keys_iff.1 (Table.mem_keys_complete (t := e.ledger.states).2 (.inl hid))
  have hseeded : (e.complete nodes).ledger.states.get? id = some current := hcurrent
  refine ⟨current, hseeded, by simp only [opening, hn, hseeded, hallowed], ?_⟩
  simp only [update, opening, Snapshot.ofLists, hn, hcurrent, hseeded, hallowed]
  rfl

theorem update_of_seated {e : Engine α} {nodes : List (Node α)}
    (hseated : ∀ id ∈ nodes.map Node.id, id ∈ e.ledger.states.keys) {id : String} {n : Node α}
    (hn : (Snapshot.nodeMap nodes).get? id = some n) {current : NodeState α}
    (hcurrent : e.ledger.states.get? id = some current) {logic : LogicState}
    (hallowed : e.config.admit .edit n logic = .ok ()) (edges : List (Edge α)) :
    e.update id logic nodes edges =
      let s := settle ((e.setting (.ofLists nodes edges)).passFrom id) e.config.passes
        (assert e.ledger id current logic)
      ({ e with ledger := s.ledger }, .ok s.result) := by
  have hcomplete : (e.complete nodes).ledger = e.ledger := by
    have hsame : e.ledger.states.complete (Snapshot.nodeMap nodes).values = e.ledger.states := by
      refine Table.complete_of_seated fun n hn => hseated n.id ?_
      exact List.mem_map_of_mem (Snapshot.mem_values_nodeMap hn)
    rw [complete, hsame]
  obtain ⟨current', hcurrent', hopening, hupdate⟩ := update_of_admitted hn hallowed edges
  rw [hcomplete] at hcurrent' hopening
  obtain rfl : current = current' := Option.some.inj (hcurrent.symm.trans hcurrent')
  rw [hupdate, hopening]

theorem update_ok {e : Engine α} {id : String} {logic : LogicState} {nodes : List (Node α)}
    {edges : List (Edge α)} {r : Result α} (hid : id ∈ nodes.map Node.id)
    (h : (e.update id logic nodes edges).2 = .ok r) :
    r = (settle ((e.setting (.ofLists nodes edges)).passFrom id) e.config.passes
      (e.opening id logic nodes)).result := by
  rw [update_spread hid h] at h
  exact (Except.ok.inj h).symm

end Engine
end ReasonGraph
