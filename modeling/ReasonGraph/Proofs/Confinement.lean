import ReasonGraph.Proofs.Stickiness
import Mathlib.Data.List.Basic
import Mathlib.Logic.Relation

/-! How far an update goes. It expands a node only if a chain of edges leads there from the edited
node, each edge having a rule and taken against its direction only if that rule is bidirectional.
Everything it writes is such a node, so what cannot be reached keeps the state it had, or gets the
seed that it would have got without any edge. -/

namespace ReasonGraph
variable {α : Type}

/-- One edge with a rule leads from a node to a node, along the edge or, if the rule is
bidirectional, against it. -/
def Registry.Leads (reg : Registry α) (nodes : List (Node α)) (edges : List (Edge α))
    (a b : String) : Prop :=
  a ∈ nodes.map Node.id ∧ b ∈ nodes.map Node.id ∧
    ∃ edge ∈ edges, ∃ rule, reg.get? edge.relation = some rule ∧
      (edge.source = a ∧ edge.target = b ∨
        rule.bidirectional = true ∧ edge.target = a ∧ edge.source = b)

/-- A chain of such edges leads from one node to another, or they are the same. -/
def Registry.Reaches (reg : Registry α) (nodes : List (Node α)) (edges : List (Edge α)) :
    String → String → Prop :=
  Relation.ReflTransGen (reg.Leads nodes edges)

theorem find?_values {ns : List (String × Node α)} (hids : ∀ e ∈ ns, e.2.id = e.1) (id : String) :
    (ns.map Prod.snd).find? (·.id = id) = OrderedMap.find id ns := by
  induction ns with
  | nil => rfl
  | cons first rest ih =>
    rw [List.map_cons, List.find?_cons, hids first List.mem_cons_self,
      ih fun e he => hids e (List.mem_cons_of_mem first he), OrderedMap.find]
    by_cases hid : first.1 = id <;> simp [hid]

namespace Registry

theorem not_reaches_of_not_node {reg : Registry α} {nodes : List (Node α)}
    {edges : List (Edge α)} {id m : String} (hid : id ∈ nodes.map Node.id)
    (hm : m ∉ nodes.map Node.id) : ¬reg.Reaches nodes edges id m := by
  intro hreaches
  rcases hreaches.cases_tail with rfl | ⟨_, -, hlast⟩
  · exact hm hid
  · exact hm hlast.2.1

end Registry

variable [Quantity α]

theorem Table.get?_complete (t : Table α) (ns : List (Node α)) (id : String) :
    (t.complete ns).get? id =
      (t.get? id).or ((ns.find? (·.id = id)).map Node.staticSeed) := by
  unfold Table.complete
  induction ns generalizing t with
  | nil => simp
  | cons n rest ih =>
    rw [List.foldl_cons, ih, List.find?_cons]
    by_cases hid : n.id = id
    · subst hid
      cases held : t.get? n.id with
      | none => simp [OrderedMap.contains, held]
      | some state => simp [OrderedMap.contains, held]
    · have same : (if t.contains n.id then t else t.insert n.id n.staticSeed).get? id =
          t.get? id := by
        split
        · rfl
        · rw [OrderedMap.get?_insert, if_neg hid]
      rw [same]
      simp [hid]

namespace Setting
variable {s : Setting α} {nodes : List (Node α)} {edges : List (Edge α)}

theorem leads_of_change (hg : s.graph = .ofLists nodes edges) {h : Hop α × Rule α}
    (hh : h ∈ s.hops) {t : Table α} {c : Change α} (hc : s.change? t h = some c) :
    s.registry.Leads nodes edges h.1.source h.1.target := by
  obtain ⟨hsource, htarget⟩ := ends_of_change hg hc
  obtain ⟨hedge, hrule, hmutual⟩ := mem_hops.1 hh
  rw [hg] at hedge
  refine ⟨hsource, htarget, h.1.edge, hedge, h.2, hrule, ?_⟩
  cases hr : h.1.reversed with
  | false => exact .inl ⟨by simp [Hop.source, hr], by simp [Hop.target, hr]⟩
  | true => exact .inr ⟨hmutual hr, by simp [Hop.source, hr], by simp [Hop.target, hr]⟩

theorem changed_of_mem_reached {hops : List (Hop α × Rule α)} {p : Progress α} {id : String}
    (hid : id ∈ (hops.foldl s.readOne p).reached) :
    id ∈ p.reached ∨ ∃ h ∈ hops, h.1.target = id ∧ ∃ t c, s.change? t h = some c := by
  induction hops generalizing p with
  | nil => exact .inl hid
  | cons h rest ih =>
    rw [List.foldl_cons] at hid
    rcases ih hid with hbefore | ⟨h', hh', found⟩
    · cases hc : s.change? p.ledger.states h with
      | none =>
        rw [readOne_of_none hc] at hbefore
        exact .inl hbefore
      | some c =>
        rw [readOne_of_some hc] at hbefore
        simp only at hbefore
        split at hbefore
        · rcases List.mem_append.1 hbefore with hearlier | hlast
          · exact .inl hearlier
          · exact .inr ⟨h, List.mem_cons_self, (List.mem_singleton.1 hlast).symm, _, c, hc⟩
        · exact .inl hbefore
    · exact .inr ⟨h', List.mem_cons_of_mem h hh', found⟩

/-- A pass outward expands nothing that cannot be reached from where it starts. The queue holds only
reachable ids: what joins it was changed by an edge of the node just expanded. -/
theorem reaches_of_mem_visits (hg : s.graph = .ofLists nodes edges) {start : String} {steps : Nat}
    {queue unexpanded : List String} {l : Ledger α}
    (hqueue : ∀ q ∈ queue, s.registry.Reaches nodes edges start q) {id : String}
    (hid : id ∈ s.visits steps queue unexpanded l) : s.registry.Reaches nodes edges start id := by
  induction steps generalizing queue unexpanded l with
  | zero => cases hid
  | succ steps ih =>
    rw [visits] at hid
    cases hdrop : queue.dropWhile fun id => !unexpanded.contains id with
    | nil => rw [hdrop] at hid; cases hid
    | cons first rest =>
      rw [hdrop] at hid
      have hsub : ∀ q ∈ first :: rest, q ∈ queue := fun q hq =>
        (List.dropWhile_sublist _).mem (hdrop ▸ hq)
      have hfirst := hqueue first (hsub first List.mem_cons_self)
      rcases List.mem_cons.1 hid with rfl | hlater
      · exact hfirst
      · refine ih (fun q hq => ?_) hlater
        rcases List.mem_append.1 hq with hrest | hreached
        · exact hqueue q (hsub q (List.mem_cons_of_mem first hrest))
        · rcases changed_of_mem_reached hreached with hnone | ⟨h, hh, rfl, t, c, hc⟩
          · cases hnone
          · obtain ⟨hhop, rfl⟩ := (mem_hopsAt hg).1 hh
            exact hfirst.tail (leads_of_change hg hhop hc)

theorem get?_settle_passFrom (hg : s.graph = .ofLists nodes edges) {start m : String}
    (hm : ¬s.registry.Reaches nodes edges start m) (cap : Nat) (l : Ledger α) :
    (settle (s.passFrom start) cap l).ledger.states.get? m = l.states.get? m := by
  rw [settle_passFrom_ledger]
  refine s.after_induction (P := fun now => now.states.get? m = l.states.get? m) ?_ rfl
  intro now h hh c hnow hc
  obtain ⟨id, hvisited, hat⟩ := List.mem_flatMap.1 hh
  obtain ⟨_, hvisits⟩ := mem_of_mem_settleTrail hvisited
  have hreached : s.registry.Reaches nodes edges start id :=
    reaches_of_mem_visits hg (fun q hq => List.mem_singleton.1 hq ▸ .refl) hvisits
  obtain ⟨hhop, rfl⟩ := (mem_hopsAt hg).1 hat
  have hne : c.event.target ≠ m := by
    rintro rfl
    rw [change?_target hc] at hm
    exact hm (hreached.tail (leads_of_change hg hhop hc))
  rw [Ledger.write_get?, if_neg hne, hnow]

end Setting

namespace Engine

theorem complete_get? (e : Engine α) (nodes : List (Node α)) (m : String) :
    (e.complete nodes).ledger.states.get? m =
      (e.ledger.states.get? m).or (((Snapshot.nodeMap nodes).get? m).map Node.staticSeed) := by
  rw [complete, Table.get?_complete, OrderedMap.values,
    find?_values fun _ he => (Snapshot.nodeMap_entry he).2]
  rfl

theorem opening_get? (e : Engine α) {id m : String} (hm : m ≠ id) (logic : LogicState)
    (nodes : List (Node α)) :
    (e.opening id logic nodes).states.get? m =
      (e.ledger.states.get? m).or (((Snapshot.nodeMap nodes).get? m).map Node.staticSeed) := by
  rw [← complete_get?]
  simp only [opening]
  split
  · split
    · rfl
    · simp only [assert]
      rw [OrderedMap.get?_insert, if_neg (Ne.symm hm)]
  · rfl

/-- An update leaves alone what cannot be reached from the edited node. There a state that was held
stays as it is, and a node that had none gets its seed; what is no node is not touched at all. What
was on record before stays on record, in front, and the cycles stay. -/
theorem update_confined {e : Engine α} {nodes : List (Node α)} {edges : List (Edge α)} {id : String}
    {logic : LogicState} {r : Result α} (hid : id ∈ nodes.map Node.id)
    (hupdate : (e.update id logic nodes edges).2 = .ok r) :
    r = (Settled.mk (e.update id logic nodes edges).1.ledger r.converged r.iterations).result ∧
    (∀ m, ¬e.registry.Reaches nodes edges id m → r.states.get? m =
      (e.ledger.states.get? m).or (((Snapshot.nodeMap nodes).get? m).map Node.staticSeed)) ∧
    (∀ m, m ∉ nodes.map Node.id → r.states.get? m = e.ledger.states.get? m) ∧
    e.ledger.events <+: r.events ∧ e.ledger.conflicts <+: r.conflicts ∧
    r.cycles = e.ledger.cycles := by
  let s := e.setting (.ofLists nodes edges)
  let l := e.opening id logic nodes
  let settled := settle (s.passFrom id) e.config.passes l
  have hspread : e.update id logic nodes edges =
      ({ e with ledger := settled.ledger }, .ok settled.result) := update_spread hid hupdate
  have hledger : settled.ledger = s.after l (e.trail id logic nodes edges) :=
    s.settle_passFrom_ledger id e.config.passes l
  obtain rfl : r = settled.result := update_ok hid hupdate
  have kept : ∀ m, ¬e.registry.Reaches nodes edges id m → settled.ledger.states.get? m =
      (e.ledger.states.get? m).or (((Snapshot.nodeMap nodes).get? m).map Node.staticSeed) := by
    intro m hm
    have away : m ≠ id := fun same => hm (same ▸ .refl)
    rw [← e.opening_get? away logic nodes]
    exact Setting.get?_settle_passFrom rfl hm e.config.passes l
  have untouched : ∀ m, m ∉ nodes.map Node.id →
      settled.ledger.states.get? m = e.ledger.states.get? m := by
    intro m hm
    have absent : (Snapshot.nodeMap nodes).get? m = none :=
      (OrderedMap.get?_eq_none_iff _ m).2 fun hkey => hm (Snapshot.mem_keys_nodeMap.1 hkey)
    rw [kept m (Registry.not_reaches_of_not_node hid hm), absent]
    simp
  obtain ⟨log, hlog⟩ := s.after_continues l (e.trail id logic nodes edges)
  obtain ⟨more, hmore⟩ := s.after_conflicts l (e.trail id logic nodes edges)
  have hcycles := s.after_cycles l (e.trail id logic nodes edges)
  have hevents := hlog.appended
  rw [← hledger, e.opening_events] at hevents
  rw [← hledger, e.opening_conflicts] at hmore
  rw [← hledger, e.opening_cycles] at hcycles
  refine ⟨?_, kept, untouched, ⟨log, hevents.symm⟩, ⟨more, hmore.symm⟩, hcycles⟩
  rw [hspread]
  rfl

theorem update_confined_downstream :
    let e₀ : Engine Float := .new .standard .builtin
    let rain : Node Float := ⟨"rain", .fact, "", 50.0⟩
    let wet : Node Float := ⟨"wet", .conclusion, "", 50.0⟩
    let season : Node Float := ⟨"season", .fact, "", 90.0⟩
    let e := (e₀.run [rain, wet, ⟨"gone", .fact, "", 90.0⟩] [] ∅).1
    let nodes := [rain, wet, season]
    let edges : List (Edge Float) :=
      [⟨"rw", "rain", "wet", "causes", 1.0⟩, ⟨"sr", "season", "rain", "supports", 1.0⟩]
    "wet" ∈ nodes.map Node.id ∧ ¬e.registry.Reaches nodes edges "wet" "season" ∧
      ∃ r, (e.update "wet" .fails nodes edges).2 = .ok r ∧ r.events.length = 1 ∧
        r.states.get? "season" = some season.staticSeed ∧
        r.states.get? "gone" = e.ledger.states.get? "gone" ∧
        e.ledger.events <+: r.events ∧ r.cycles = e.ledger.cycles := by
  intro e₀ rain wet season e nodes edges
  have hid : "wet" ∈ nodes.map Node.id := by decide
  have hclosed : ∀ m, e.registry.Reaches nodes edges "wet" m → m = "wet" ∨ m = "rain" := by
    intro m hreaches
    induction hreaches with
    | refl => exact .inl rfl
    | tail _ hlast ih =>
      obtain ⟨-, -, edge, hedge, rule, hrule, hends⟩ := hlast
      rcases List.mem_pair.1 hedge with rfl | rfl
      · rcases hends with ⟨-, rfl⟩ | ⟨-, -, rfl⟩
        · exact .inl rfl
        · exact .inr rfl
      · obtain rfl : Rule.builtin .supports = rule :=
          Option.some.inj ((Registry.get?_builtin_name .supports).symm.trans hrule)
        rcases hends with ⟨-, rfl⟩ | ⟨hmutual, -⟩
        · exact .inr rfl
        · cases hmutual
  have hfar : ¬e.registry.Reaches nodes edges "wet" "season" := fun hreaches =>
    absurd (hclosed _ hreaches) (by decide)
  have hcall : ∃ r, (e.update "wet" .fails nodes edges).2 = .ok r ∧ r.events.length = 1 :=
    ⟨_, rfl, by decide +kernel⟩
  obtain ⟨r, hupdate, hlength⟩ := hcall
  obtain ⟨-, kept, untouched, hevents, -, hcycles⟩ := update_confined hid hupdate
  refine ⟨hid, hfar, r, hupdate, hlength, ?_, untouched _ (by decide), hevents, hcycles⟩
  rw [kept _ hfar]
  rfl

end Engine
end ReasonGraph
