import ReasonGraph.Proofs.Stickiness
import ReasonGraph.Proofs.Tandem
import Mathlib.Data.List.Perm.Basic

/-! The order in which nodes are listed. Nodes of different ids are found under their ids whatever
their order is. Inference goes by the order of the edges and looks nodes and states up by id, so a run
over the nodes in another order makes the same changes at the same moments. Only the order in which
the states are kept, and with it the search for cycles, goes by the order of the nodes. -/

namespace ReasonGraph
variable {α : Type}

namespace Snapshot
variable {nodes nodes' : List (Node α)}

theorem nodeMap_get?_iff (hids : (nodes.map Node.id).Nodup) {id : String} {n : Node α} :
    (nodeMap nodes).get? id = some n ↔ n ∈ nodes ∧ n.id = id := by
  constructor
  · exact nodeMap_get?
  · rintro ⟨hn, rfl⟩
    have hkeys : ((∅ : OrderedMap (Node α)).keys ++
        (nodes.map fun n => (n.id, n)).map Prod.fst).Nodup := by
      rw [OrderedMap.keys_empty, List.nil_append, List.map_map]
      exact hids
    have hentries : (nodeMap nodes).entries = nodes.map fun n => (n.id, n) :=
      OrderedMap.entries_foldl_insert hkeys
    refine OrderedMap.get?_of_mem ?_
    rw [hentries]
    exact List.mem_map_of_mem hn

theorem nodeMap_get?_of_perm (hids : (nodes.map Node.id).Nodup) (hperm : nodes.Perm nodes')
    (id : String) : (nodeMap nodes').get? id = (nodeMap nodes).get? id := by
  have hids' : (nodes'.map Node.id).Nodup := (hperm.map Node.id).nodup_iff.1 hids
  ext n
  rw [nodeMap_get?_iff hids, nodeMap_get?_iff hids', hperm.mem_iff]

end Snapshot

theorem Table.achievedOtherwise_of_get? {t t' : Table α} (h : ∀ id, t'.get? id = t.get? id)
    (edges : List (Edge α)) (hop : Hop α) :
    t'.achievedOtherwise edges hop = t.achievedOtherwise edges hop := by
  simp only [achievedOtherwise, h]

variable [Quantity α]

theorem Setting.change?_of_get? {s s' : Setting α} {nodes nodes' : List (Node α)}
    {edges : List (Edge α)} (hg : s.graph = .ofLists nodes edges)
    (hg' : s'.graph = .ofLists nodes' edges) (hconfig : s'.config = s.config)
    (hnodes : ∀ id, (Snapshot.nodeMap nodes').get? id = (Snapshot.nodeMap nodes).get? id)
    {t t' : Table α} (ht : ∀ id, t'.get? id = t.get? id) (h : Hop α) (r : Relation) :
    s'.change? t' (h, .builtin r) = s.change? t (h, .builtin r) := by
  have hfound : ∀ id, s'.graph.nodes.get? id = s.graph.nodes.get? id := by
    rw [hg, hg']
    exact hnodes
  refine change?_congr hg hg' hconfig (hfound _) (hfound _) (ht _) (ht _) fun _ _ _ _ => ?_
  rw [hg, hg']
  exact Table.achievedOtherwise_of_get? ht edges h

theorem Setting.Parallels.of_builtin {β γ : Type} {f : Event α → β} {g : ConflictRecord → γ}
    {s s' : Setting α} (hregistry : s.registry = .builtin) {nodes' : List (Node α)}
    {edges : List (Edge α)} (hg' : s'.graph = .ofLists nodes' edges) (hhops : s'.hops = s.hops)
    (hreads : ∀ (t : Table α) (h : Hop α) (r : Relation), Option.Rel (Change.Alike f g)
      (s.change? t (h, .builtin r)) (s'.change? t (h, .builtin r))) : s.Parallels f g s' := by
  refine ⟨hhops, fun h hh t t' ht => ?_⟩
  obtain ⟨hop, rule⟩ := h
  obtain ⟨r, rfl⟩ := known_of_mem_hops hregistry hh
  have hsame : s'.change? t' (hop, .builtin r) = s'.change? t (hop, .builtin r) :=
    change?_of_get? hg' hg' rfl (fun _ => rfl) ht hop r
  rw [hsame]
  exact hreads t hop r

namespace Engine
variable {e : Engine α} {nodes nodes' : List (Node α)} {overrides : Overrides α}

theorem accepted_of_get?
    (hnodes : ∀ id, (Snapshot.nodeMap nodes').get? id = (Snapshot.nodeMap nodes).get? id)
    {seeds : Table α} (haccepted : (e.prepare nodes overrides).2 = .ok seeds) :
    ∃ seeds', (e.prepare nodes' overrides).2 = .ok seeds' := by
  have heach : ∀ n ∈ (Snapshot.nodeMap nodes').values,
      ∃ s, n.seedFrom e.config overrides = .ok s := by
    intro n hn
    obtain ⟨⟨id, n'⟩, hentry, rfl⟩ := List.mem_map.1 hn
    have hfound := (hnodes id).symm.trans (OrderedMap.get?_of_mem hentry)
    obtain ⟨s, -, hseed⟩ := seed_of_node haccepted hfound
    exact ⟨s, hseed⟩
  have hnone := (Table.seed_eq_none_iff (t := ∅)).2 heach
  exact ⟨_, prepare_eq_ok_iff.2 (Prod.ext rfl hnone)⟩

/-- The order in which nodes of different ids are listed is of no account. A run over them in any
other order is accepted if the first one is, gives every id the same state, and has the same events
and conflicts; it converges or not as the first one does, after as many passes. -/
theorem run_reordered (hregistry : e.registry = .builtin) (hids : (nodes.map Node.id).Nodup)
    (hperm : nodes.Perm nodes') {seeds : Table α}
    (haccepted : (e.prepare nodes overrides).2 = .ok seeds) (edges : List (Edge α)) :
    ∃ r r', (e.run nodes edges overrides).2 = .ok r ∧ (e.run nodes' edges overrides).2 = .ok r' ∧
      (∀ id, r'.states.get? id = r.states.get? id) ∧ r'.events = r.events ∧
      r'.conflicts = r.conflicts ∧ r'.converged = r.converged ∧ r'.iterations = r.iterations := by
  let s := e.setting (.ofLists nodes edges)
  let s' := e.setting (.ofLists nodes' edges)
  have hg : s.graph = .ofLists nodes edges := rfl
  have hg' : s'.graph = .ofLists nodes' edges := rfl
  have hnodes := Snapshot.nodeMap_get?_of_perm hids hperm
  obtain ⟨seeds', haccepted'⟩ := accepted_of_get? hnodes haccepted
  have hseeds : ∀ id, seeds'.get? id = seeds.get? id := by
    refine seeds_alike (R := fun n n' => n' = n) haccepted haccepted' (fun id => ?_) ?_
    · rw [hnodes id]
      cases (Snapshot.nodeMap nodes).get? id with
      | none => exact .none
      | some n => exact .some rfl
    · rintro n _ s s' rfl hs hs'
      exact Except.ok.inj (hs'.symm.trans hs)
  have hparallel : s.Parallels id id s' := by
    refine .of_builtin hregistry hg' rfl fun t h r => ?_
    have hsame : s'.change? t (h, .builtin r) = s.change? t (h, .builtin r) :=
      Setting.change?_of_get? hg hg' rfl hnodes (fun _ => rfl) h r
    rw [hsame]
    cases s.change? t (h, .builtin r) with
    | none => exact .none
    | some c => exact .some (.refl _ _ c)
  obtain ⟨r, r', hrun, hrun', hstates, hevents, hconflicts, hconverged, hiterations⟩ :=
    run_parallel haccepted haccepted' hseeds hparallel
  rw [List.map_id, List.map_id] at hevents hconflicts
  exact ⟨r, r', hrun, hrun', hstates, hevents, hconflicts, hconverged, hiterations⟩

theorem run_reordered_pair :
    let e : Engine Float := .new .standard .builtin
    let a : Node Float := ⟨"a", .fact, "", 90.0⟩
    let b : Node Float := ⟨"b", .fact, "", 85.0⟩
    let edges : List (Edge Float) := [⟨"ab", "a", "b", "conflicts", 1.0⟩]
    ([a, b].map Node.id).Nodup ∧ [a, b].Perm [b, a] ∧
      ∃ r r', (e.run [a, b] edges ∅).2 = .ok r ∧ (e.run [b, a] edges ∅).2 = .ok r' ∧
        r.states.keys = ["a", "b"] ∧ r'.states.keys = ["b", "a"] ∧
        r.events.map Event.target = ["b", "a"] ∧ r'.events = r.events ∧
        (∀ id, r'.states.get? id = r.states.get? id) ∧ r'.conflicts = r.conflicts := by
  intro e a b edges
  have hids : ([a, b].map Node.id).Nodup := by decide
  have hperm : [a, b].Perm [b, a] := .swap b a []
  obtain ⟨r, r', hrun, hrun', hstates, hevents, hconflicts, -⟩ := run_reordered (e := e) rfl hids
    hperm (show (e.prepare [a, b] ∅).2 = .ok _ from rfl) edges
  have hcheck : (e.run [a, b] edges ∅).2.toOption.all (fun r => r.states.keys = ["a", "b"] ∧
      r.events.map Event.target = ["b", "a"]) = true := by decide +kernel
  have hcheck' : (e.run [b, a] edges ∅).2.toOption.all
      (fun r => r.states.keys = ["b", "a"]) = true := by decide +kernel
  rw [hrun] at hcheck
  rw [hrun'] at hcheck'
  simp only [Except.toOption, Option.all_some, decide_eq_true_eq] at hcheck hcheck'
  exact ⟨hids, hperm, r, r', hrun, hrun', hcheck.1, hcheck', hcheck.2, hevents, hstates,
    hconflicts⟩

end Engine
end ReasonGraph
