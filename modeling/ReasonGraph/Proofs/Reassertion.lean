import ReasonGraph.Proofs.Shadow

/-! Asserting again what is known, node by node, instead of a run. From the seeds on every node is
given anew the verdict that it has, sources before sinks, and each time inference spreads. If the
order in which edges are read is without effect, then the assertions lead every node where the run led
it, whichever relations meet in it, forwards or backwards, into conflicts or not. Otherwise they need
not, since edges that meet in a node are read in another order. -/

namespace ReasonGraph
variable {α : Type}

namespace Setting
variable {nodes : List (Node α)} {edges : List (Edge α)} {done rest : List String} {x : String}

theorem isNext_of_ordered (hlisted : ∀ id, id ∈ done ++ x :: rest ↔ id ∈ nodes.map Node.id)
    (hordered : (done ++ x :: rest).Pairwise fun earlier later =>
      ¬(Links.whole nodes edges).Joins later earlier)
    (hnodup : (done ++ x :: rest).Nodup) (hloopless : ∀ id, ¬(Links.whole nodes edges).Joins id id) :
    IsNext nodes edges done x := by
  have hsplit : done ++ x :: rest = (done ++ [x]) ++ rest := by simp
  refine ⟨fun a b hjoins hb => ?_, fun hx => ?_⟩
  · have ha := (hlisted a).2 hjoins.mem_ids.1
    have hbefore := hordered
    rw [hsplit] at ha hbefore
    rcases List.mem_append.1 ha with hearly | hlate
    · refine (List.mem_append.1 hearly).resolve_right fun hax => ?_
      obtain rfl := List.mem_singleton.1 hax
      rcases List.mem_append.1 hb with hdone | hself
      · exact (List.pairwise_append.1 hordered).2.2 b hdone a List.mem_cons_self hjoins
      · rw [List.mem_singleton.1 hself] at hjoins
        exact hloopless a hjoins
    · exact absurd hjoins ((List.pairwise_append.1 hbefore).2.2 b hb a hlate)
  · exact (List.nodup_append.1 hnodup).2.2 x hx x List.mem_cons_self rfl

variable [Quantity α] {s : Setting α} {seeds shadow t : Table α} {e : Engine α}

theorem update_of_next (hsetting : e.setting (.ofLists nodes edges) = s)
    (hfree : e.config.checksKinds = false)
    (hseated : ∀ id, id ∈ e.ledger.states.keys ↔ id ∈ nodes.map Node.id)
    (hx : x ∈ nodes.map Node.id) :
    ∃ current, e.ledger.states.get? x = some current ∧
      e.update x current.logic nodes edges =
        let settled := settle (s.passFrom x) e.config.passes
          (Engine.assert e.ledger x current current.logic)
        ({ e with ledger := settled.ledger }, .ok settled.result) := by
  obtain ⟨current, hcurrent⟩ := OrderedMap.mem_keys_iff.1 ((hseated x).2 hx)
  obtain ⟨node, hnode⟩ := OrderedMap.mem_keys_iff.1 (Snapshot.mem_keys_nodeMap.2 hx)
  have hadmit : e.config.admit .edit node current.logic = .ok () := by
    simp [Config.admit_eq_ok_iff, hfree]
  have hupdate := Engine.update_of_seated (fun id hid => (hseated id).2 hid) hnode hcurrent hadmit
    edges
  rw [hsetting] at hupdate
  exact ⟨current, hcurrent, hupdate⟩

theorem seated_of_next (hseated : ∀ id, id ∈ e.ledger.states.keys ↔ id ∈ nodes.map Node.id)
    {current : NodeState α} (hcurrent : e.ledger.states.get? x = some current) (id : String) :
    id ∈ (settle (s.passFrom x) e.config.passes
      (Engine.assert e.ledger x current current.logic)).ledger.states.keys ↔
      id ∈ nodes.map Node.id := by
  have hx : x ∈ e.ledger.states.keys := OrderedMap.mem_keys_iff.2 ⟨current, hcurrent⟩
  rw [settle_passFrom_ledger, after_keys, ← hseated, Engine.assert, OrderedMap.keys_insert,
    if_pos hx]

/-- Asserting the rest of the nodes again goes through. If each update comes to its end, so does
inference from all of them. -/
theorem Stage.reassert (hstage : s.Stage nodes edges seeds) (done : List String)
    (hsetting : e.setting (.ofLists nodes edges) = s) (hfree : e.config.checksKinds = false)
    (hseated : ∀ id, id ∈ e.ledger.states.keys ↔ id ∈ nodes.map Node.id)
    (hlisted : ∀ id, id ∈ done ++ rest ↔ id ∈ nodes.map Node.id)
    (hordered : (done ++ rest).Pairwise fun earlier later =>
      ¬(Links.whole nodes edges).Joins later earlier)
    (hnodup : (done ++ rest).Nodup) :
    let replayed := Engine.reassert (fun e id logic => e.update id logic nodes edges) rest e
    replayed.stop = none ∧ ∀ shadow, s.Between seeds done shadow e.ledger.states →
      (∀ result ∈ replayed.results, result.2.converged = true) →
        ∃ shadow', s.Between seeds (done ++ rest) shadow' replayed.engine.ledger.states := by
  induction rest generalizing e done with
  | nil =>
    refine ⟨rfl, fun shadow hb _ => ⟨shadow, ?_⟩⟩
    rw [List.append_nil]
    exact hb
  | cons x rest ih =>
    have hx : x ∈ nodes.map Node.id := (hlisted x).1 (by simp)
    have hids : x ∈ s.graph.ids := by
      rw [hstage.graph]
      exact Snapshot.mem_keys_nodeMap.2 hx
    have hnext := isNext_of_ordered hlisted hordered hnodup hstage.loopless
    obtain ⟨current, hcurrent, hupdate⟩ := update_of_next hsetting hfree hseated hx
    have hsplit : done ++ x :: rest = done ++ [x] ++ rest := by simp
    rw [hsplit] at hlisted hordered hnodup
    rw [Engine.reassert]
    simp only [hcurrent, hupdate, hsplit]
    let settled := settle (s.passFrom x) e.config.passes
      (Engine.assert e.ledger x current current.logic)
    obtain ⟨hstop, hlater⟩ := ih (e := { e with ledger := settled.ledger }) (done ++ [x]) hsetting
      hfree (seated_of_next hseated hcurrent) hlisted hordered hnodup
    refine ⟨hstop, fun shadow hb hconverged => ?_⟩
    obtain ⟨hfirst, hrest⟩ := List.forall_mem_cons.1 hconverged
    obtain ⟨shadow', hturn, hquiet⟩ :=
      (hb.open hstage hnext.new hcurrent).settle hstage hnext hids e.config.passes
    exact hlater shadow' (hturn.close (hquiet hfirst)) hrest

end Setting

namespace Engine
variable [Quantity α]

end Engine
end ReasonGraph
