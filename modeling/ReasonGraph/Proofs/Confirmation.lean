import ReasonGraph.Proofs.Forgetting
import ReasonGraph.Proofs.Passes
import ReasonGraph.Proofs.Standing
import ReasonGraph.Proofs.Worklist

/-! To assert of a node what is known of it. An engine at rest stays at rest: the assertion makes the
node forget its drivers and its partners and leaves all else as it is, and where something is
forgotten rules find no more to do than before. So one assertion after another is quiet. -/

namespace ReasonGraph
variable {α : Type}

namespace NodeState

/-- What an assertion of the verdict that a state has makes of it. -/
def confirmed (s : NodeState α) : NodeState α := { s with derivedFrom := [], partners := none }

theorem confirmed_confirmed (s : NodeState α) : s.confirmed.confirmed = s.confirmed := rfl

theorem dropsPartners_confirmed (s : NodeState α) : s.DropsPartners s.confirmed :=
  .intro (List.nil_subset _)

theorem dropsDrivers_confirmed (s : NodeState α) : s.DropsDrivers s.confirmed :=
  .intro (List.nil_subset _)

end NodeState

namespace Engine
variable {e : Engine α} {nodes : List (Node α)} {edges : List (Edge α)} {id : String}
  {state : NodeState α}

theorem get?_assert (hstate : e.ledger.states.get? id = some state) (x : String) :
    (assert e.ledger id state state.logic).states.get? x =
      if id = x then (e.ledger.states.get? x).map NodeState.confirmed
      else e.ledger.states.get? x := by
  rw [assert, OrderedMap.get?_insert]
  split
  · rename_i hx
    subst hx
    rw [hstate]
    rfl
  · rfl

theorem rel_assert (hstate : e.ledger.states.get? id = some state)
    {R : NodeState α → NodeState α → Prop} (hconfirmed : ∀ s, R s s.confirmed) (hself : ∀ s, R s s)
    (x : String) : Option.Rel R (e.ledger.states.get? x)
      ((assert e.ledger id state state.logic).states.get? x) := by
  rw [get?_assert hstate]
  split
  · exact NodeState.rel_map hconfirmed _
  · have hsame := NodeState.rel_map hself (e.ledger.states.get? x)
    rwa [Option.map_id'] at hsame

theorem logic_assert (hstate : e.ledger.states.get? id = some state) (x : String) :
    ((assert e.ledger id state state.logic).states.get? x).map NodeState.logic =
      (e.ledger.states.get? x).map NodeState.logic := by
  rw [get?_assert hstate]
  split
  · rw [Option.map_map]
    rfl
  · rfl

/-- A node whose verdict may be asserted of it. -/
def MayConfirm (e : Engine α) (nodes : List (Node α)) (t : Table α) (id : String) : Prop :=
  ∃ n state, (Snapshot.nodeMap nodes).get? id = some n ∧ t.get? id = some state ∧
    e.config.admit .edit n state.logic = .ok ()

theorem MayConfirm.of_logic {t t' : Table α} (h : e.MayConfirm nodes t id)
    (ht : (t'.get? id).map NodeState.logic = (t.get? id).map NodeState.logic) :
    e.MayConfirm nodes t' id := by
  obtain ⟨n, state, hn, hstate, hallowed⟩ := h
  rw [hstate] at ht
  obtain ⟨state', hstate', hlogic⟩ := Option.map_eq_some_iff.1 ht
  exact ⟨n, state', hn, hstate', hlogic ▸ hallowed⟩

variable [Quantity α]

structure IsAtRest (e : Engine α) (nodes : List (Node α)) (edges : List (Edge α)) : Prop where
  registry : e.registry = .builtin
  passes : 0 < e.config.passes
  seated : ∀ id, id ∈ e.ledger.states.keys ↔ id ∈ nodes.map Node.id
  quiet : ∀ h ∈ (e.setting (.ofLists nodes edges)).hops,
    (e.setting (.ofLists nodes edges)).change? e.ledger.states h = none

theorem isAtRest_run {overrides : Overrides α} {r : Result α} (hregistry : e.registry = .builtin)
    (hrun : (e.run nodes edges overrides).2 = .ok r) (hconverged : r.converged = true) :
    (e.run nodes edges overrides).1.IsAtRest nodes edges := by
  have hstates := (run_result hrun).1
  have hconfig := e.run_config nodes edges overrides
  have hsetting : (e.run nodes edges overrides).1.setting (.ofLists nodes edges) =
      e.setting (.ofLists nodes edges) := by
    rw [setting, setting, hconfig, e.run_registry]
  refine ⟨(e.run_registry nodes edges overrides).trans hregistry, ?_, fun id => ?_, fun h hh => ?_⟩
  · rw [hconfig]
    exact passes_pos hrun hconverged
  · rw [← hstates]
    exact mem_keys_run hrun
  · rw [hsetting] at hh ⊢
    rw [← hstates]
    exact run_quiet hrun hconverged hh

namespace IsAtRest

theorem confirm (hrest : e.IsAtRest nodes edges)
    (hstate : e.ledger.states.get? id = some state) :
    ({ e with ledger := assert e.ledger id state state.logic } : Engine α).IsAtRest nodes edges := by
  refine ⟨hrest.registry, hrest.passes, fun x => ?_, fun h hh => ?_⟩
  · have hkeys : id ∈ e.ledger.states.keys := OrderedMap.mem_keys_iff.2 ⟨state, hstate⟩
    rw [← hrest.seated, assert, OrderedMap.keys_insert, if_pos hkeys]
  · obtain ⟨relation, hrule, -⟩ := Setting.rule_of_mem_hops hrest.registry hh
    have hbefore := hrest.quiet h hh
    rw [show h = (h.1, .builtin relation) from Prod.ext rfl hrule] at hbefore ⊢
    exact Setting.quiet_of_drops rfl
      (fun _ => Table.achievedOtherwise_of_logic (logic_assert hstate) edges h.1)
      (rel_assert hstate NodeState.dropsPartners_confirmed .refl _)
      (rel_assert hstate NodeState.dropsDrivers_confirmed .refl _) hbefore

theorem update (hrest : e.IsAtRest nodes edges) {n : Node α}
    (hn : (Snapshot.nodeMap nodes).get? id = some n)
    (hstate : e.ledger.states.get? id = some state)
    (hallowed : e.config.admit .edit n state.logic = .ok ()) :
    let l := assert e.ledger id state state.logic
    e.update id state.logic nodes edges =
      ({ e with ledger := l }, .ok (Settled.mk l true 1).result) := by
  intro l
  have hquiet : ∀ x, ∀ h ∈ (e.setting (.ofLists nodes edges)).hopsAt x,
      (e.setting (.ofLists nodes edges)).change? l.states h = none := fun x h hh =>
    (hrest.confirm hstate).quiet h ((Setting.mem_hopsAt rfl).1 hh).1
  have hsettled : settle ((e.setting (.ofLists nodes edges)).passFrom id) e.config.passes l =
      ⟨l, true, 1⟩ :=
    settle_of_quiet hrest.passes (Setting.passFrom_of_quiet hquiet id)
  rw [update_of_seated (fun x hx => (hrest.seated x).2 hx) hn hstate hallowed edges, hsettled]

theorem reassert (hrest : e.IsAtRest nodes edges) {again : List String}
    (hagain : ∀ id ∈ again, e.MayConfirm nodes e.ledger.states id) :
    let made := Engine.reassert (fun e id logic => e.update id logic nodes edges) again e
    made.stop = none ∧ made.results.map Prod.fst = again ∧
      ∀ k id result, made.results[k]? = some (id, result) →
        result.converged = true ∧ result.iterations = 1 ∧ result.events = e.ledger.events ∧
        result.conflicts = e.ledger.conflicts ∧ result.cycles = e.ledger.cycles ∧
        ∀ x, result.states.get? x = if x ∈ again.take (k + 1)
          then (e.ledger.states.get? x).map NodeState.confirmed else e.ledger.states.get? x := by
  induction again generalizing e with
  | nil => exact ⟨rfl, rfl, by simp [Engine.reassert]⟩
  | cons first rest ih =>
    obtain ⟨⟨n, state, hn, hstate, hallowed⟩, hlater⟩ := List.forall_mem_cons.1 hagain
    have hupdate := hrest.update hn hstate hallowed
    have hget := get?_assert hstate
    obtain ⟨hstop, hids, hresults⟩ := ih (hrest.confirm hstate) fun id hid =>
      (hlater id hid).of_logic (logic_assert hstate id)
    rw [Engine.reassert]
    simp only [hstate, hupdate]
    refine ⟨hstop, congrArg (first :: ·) hids, fun k id result hresult => ?_⟩
    cases k with
    | zero =>
      obtain ⟨rfl, rfl⟩ := Prod.mk.inj (Option.some.inj hresult)
      refine ⟨rfl, rfl, rfl, rfl, rfl, fun x => (hget x).trans ?_⟩
      simp [eq_comm]
    | succ k =>
      obtain ⟨hconverged, hiterations, hevents, hconflicts, hcycles, hstates⟩ :=
        hresults k id result hresult
      refine ⟨hconverged, hiterations, hevents, hconflicts, hcycles, fun x => ?_⟩
      rw [hstates, hget, List.take_succ_cons]
      -- to confirm a state twice is to confirm it once
      by_cases hfirst : first = x
      · simp [hfirst, Option.map_map, Function.comp_def, NodeState.confirmed_confirmed]
      · simp [hfirst, Ne.symm hfirst]

end IsAtRest

/-- After a run that converged one may assert again of one node after another the verdict that it
has, where it may be asserted. Each time inference comes to rest in one pass, nothing is logged, no
conflict is found, and of all states only the node's own is touched, which forgets its drivers and
its partners. -/
theorem run_confirmed {overrides : Overrides α} {r : Result α} (hregistry : e.registry = .builtin)
    (hrun : (e.run nodes edges overrides).2 = .ok r) (hconverged : r.converged = true)
    {again : List String} (hagain : ∀ id ∈ again, e.MayConfirm nodes r.states id) :
    let made := reassert (fun e id logic => e.update id logic nodes edges) again
      (e.run nodes edges overrides).1
    made.stop = none ∧ made.results.map Prod.fst = again ∧
      ∀ k id result, made.results[k]? = some (id, result) →
        result.converged = true ∧ result.iterations = 1 ∧ result.events = r.events ∧
        result.conflicts = r.conflicts ∧ result.cycles = r.cycles ∧
        ∀ x, result.states.get? x = if x ∈ again.take (k + 1)
          then (r.states.get? x).map NodeState.confirmed else r.states.get? x := by
  have hshows := run_shows hrun
  have hconfig := e.run_config nodes edges overrides
  have hrest := isAtRest_run hregistry hrun hconverged
  have hmay : ∀ id ∈ again, (e.run nodes edges overrides).1.MayConfirm nodes
      (e.run nodes edges overrides).1.ledger.states id := by
    intro id hid
    obtain ⟨n, state, hn, hstate, hallowed⟩ := hagain id hid
    exact ⟨n, state, hn, (run_result hrun).1 ▸ hstate, hconfig.symm ▸ hallowed⟩
  rw [hshows]
  exact hrest.reassert hmay

theorem run_confirmed_conclusions :
    let e : Engine Float := .new .standard .builtin
    let nodes : List (Node Float) :=
      [⟨"a", .conclusion, "", 90.0⟩, ⟨"b", .conclusion, "", 85.0⟩, ⟨"c", .conclusion, "", 50.0⟩,
        ⟨"d", .conclusion, "", 95.0⟩, ⟨"g", .conclusion, "", 50.0⟩]
    let edges : List (Edge Float) := [⟨"ab", "a", "b", "conflicts", 1.0⟩,
      ⟨"ac", "a", "c", "depends", 1.0⟩, ⟨"dg", "d", "g", "achieves", 1.0⟩]
    let again := ["a", "g", "c", "a", "b", "d"]
    let made := reassert (fun e id logic => e.update id logic nodes edges) again
      (e.run nodes edges ∅).1
    ∃ r last, (e.run nodes edges ∅).2 = .ok r ∧ r.converged = true ∧ r.events.length = 4 ∧
      r.states.values.map NodeState.partners = [some ["b"], some ["a"], some ["b"], none, none] ∧
      r.states.values.map NodeState.derivedFrom = [["b"], ["a"], ["a"], [], ["d"]] ∧
      made.results[5]? = some ("d", last) ∧ last.iterations = 1 ∧ last.events = r.events ∧
      ∀ x ∈ again, last.states.get? x = (r.states.get? x).map NodeState.confirmed := by
  intro e nodes edges again made
  have hcheck : (e.run nodes edges ∅).2.toOption.any (fun r => r.converged = true ∧
      r.events.length = 4 ∧
      r.states.values.map NodeState.partners = [some ["b"], some ["a"], some ["b"], none, none] ∧
      r.states.values.map NodeState.derivedFrom = [["b"], ["a"], ["a"], [], ["d"]]) = true := by
    decide +kernel
  cases hrun : (e.run nodes edges ∅).2 with
  | error x =>
    rw [hrun] at hcheck
    cases hcheck
  | ok r =>
    rw [hrun] at hcheck
    obtain ⟨hconverged, hevents, hpartners, hdrivers⟩ := of_decide_eq_true hcheck
    have hlisted : ∀ id ∈ again, id ∈ nodes.map Node.id := by decide
    have hkinds : ∀ n ∈ nodes, n.kind = .conclusion := by simp [nodes]
    have hagain : ∀ id ∈ again, e.MayConfirm nodes r.states id := by
      intro id hid
      have hnode := hlisted id hid
      obtain ⟨n, hn⟩ := OrderedMap.mem_keys_iff.1 (Snapshot.mem_keys_nodeMap.2 hnode)
      obtain ⟨state, hstate⟩ := OrderedMap.mem_keys_iff.1 ((mem_keys_run hrun).2 hnode)
      refine ⟨n, state, hn, hstate, (Config.admit_eq_ok_iff ..).2 fun _ => ?_⟩
      rw [hkinds n (Snapshot.nodeMap_get? hn).1]
      rfl
    obtain ⟨-, hids, hresults⟩ := run_confirmed rfl hrun hconverged hagain
    have hsixth : made.results[5]?.map Prod.fst = some "d" := by
      rw [← List.getElem?_map, hids]
      rfl
    obtain ⟨⟨id, last⟩, hlast, rfl⟩ := Option.map_eq_some_iff.1 hsixth
    obtain ⟨-, hiterations, hsame, -, -, hstates⟩ := hresults 5 _ last hlast
    exact ⟨r, last, rfl, hconverged, hevents, hpartners, hdrivers, hlast, hiterations, hsame,
      fun x hx => (hstates x).trans (if_pos hx)⟩

end Engine
end ReasonGraph
