import ReasonGraph.Proofs.Passes
import ReasonGraph.Proofs.Rewriting

/-! What more passes do. Passes up to one cap and then up to another are passes up to the sum of both,
and once a pass was quiet no cap makes a difference. No rule of a known relation looks at the cap, and
seeding does not either, so under a higher one a run makes the same passes and perhaps more. -/

namespace ReasonGraph
variable {α : Type} {pass : Ledger α → Ledger α × Bool} {cap : Nat} {l : Ledger α}

theorem settle_add_of_converged (h : (settle pass cap l).converged = true) (more : Nat) :
    settle pass (cap + more) l = settle pass cap l := by
  induction cap generalizing l with
  | zero => cases h
  | succ cap ih =>
    rw [Nat.succ_add]
    rw [settle] at h ⊢
    rw [settle]
    cases hpass : pass l with
    | mk next changed =>
      rw [hpass] at h
      cases changed with
      | false => rfl
      | true => simp only [ih h]

/-- Passes that used up one cap go on from there under a higher one. -/
theorem settle_add_of_open (h : (settle pass cap l).converged = false) (more : Nat) :
    settle pass (cap + more) l =
      let rest := settle pass more (settle pass cap l).ledger
      { rest with iterations := cap + rest.iterations } := by
  induction cap generalizing l with
  | zero => simp [settle]
  | succ cap ih =>
    rw [Nat.succ_add]
    rw [settle] at h ⊢
    rw [settle]
    cases hpass : pass l with
    | mk next changed =>
      rw [hpass] at h
      cases changed with
      | false => cases h
      | true =>
        simp only [ih h]
        congr 1
        omega

variable [Quantity α]

theorem Table.seed_passes (config : Config α) (cap : Nat) (overrides : Overrides α)
    (ns : List (Node α)) (t : Table α) :
    Table.seed { config with passes := cap } overrides ns t = Table.seed config overrides ns t := by
  induction ns generalizing t with
  | nil => rfl
  | cons n rest ih =>
    have same : n.seedFrom { config with passes := cap } overrides = n.seedFrom config overrides :=
      rfl
    rw [Table.seed, Table.seed, same]
    cases n.seedFrom config overrides with
    | error r => rfl
    | ok s => exact ih _

namespace Setting
variable {s s' : Setting α}

theorem agree_of_passes (hgraph : s'.graph = s.graph)
    (hconfig : s'.config = { s.config with passes := s'.config.passes }) (h : Hop α)
    (r : Relation) : s.Agree s' (h, .builtin r) (h, .builtin r) := by
  intro t
  generalize s'.config.passes = cap at hconfig
  have inferred : ∀ e : Evidence α, Rule.inference r
      { e with config := { e.config with passes := cap } } = Rule.inference r e := by
    intro e
    cases r <;> rfl
  simp only [change?, Hop.change?, Hop.evidence?, hgraph, hconfig]
  cases s.graph.nodes.get? h.source with
  | none => rfl
  | some sourceNode =>
  cases s.graph.nodes.get? h.target with
  | none => rfl
  | some targetNode =>
  cases t.get? h.source with
  | none => rfl
  | some source =>
  cases t.get? h.target with
  | none => rfl
  | some target =>
    have said := inferred ⟨sourceNode, source, targetNode, target, h.edge, s.graph.nodes,
      s.graph.edges, t, s.graph.incoming, s.config, h.reversed⟩
    simp only [Option.bind_eq_bind, Option.bind_some, Rule.builtin, floored, said]
    rfl

theorem fullPass_passes (hregistry : s.registry = .builtin) (hregistry' : s'.registry = .builtin)
    (hgraph : s'.graph = s.graph)
    (hconfig : s'.config = { s.config with passes := s'.config.passes }) :
    s'.fullPass = s.fullPass := by
  have hhops : s'.hops = s.hops := by rw [hops, hops, hgraph, hregistry, hregistry']
  apply fullPass_congr
  rw [hhops, List.forall₂_same]
  intro h hh
  obtain ⟨r, hrule, -⟩ := rule_of_mem_hops hregistry hh
  rw [show h = (h.1, .builtin r) from Prod.ext rfl hrule]
  exact agree_of_passes hgraph hconfig h.1 r

theorem settle_prefix (s : Setting α) (cap : Nat) (l : Ledger α) :
    l.events <+: (settle s.fullPass cap l).ledger.events ∧
      l.conflicts <+: (settle s.fullPass cap l).ledger.conflicts := by
  rw [settle_fullPass_ledger]
  obtain ⟨more, hmore⟩ := s.after_conflicts l (settleTrail s.fullPass (fun _ => s.hops) cap l)
  exact ⟨s.events_prefix _ _, more, hmore.symm⟩

end Setting

namespace Engine
variable {e e' : Engine α} {nodes : List (Node α)} {edges : List (Edge α)}
  {overrides : Overrides α} {seeds : Table α}

section
variable (hconfig : e'.config = { e.config with passes := e'.config.passes })
include hconfig

theorem seed_passes (nodes : OrderedMap (Node α)) (overrides : Overrides α) :
    e'.seed nodes overrides =
      ({ e' with ledger := (e.seed nodes overrides).1.ledger }, (e.seed nodes overrides).2) := by
  rw [seed_eq, seed_eq, hconfig, Table.seed_passes]

theorem prepare_passes (nodes : List (Node α)) (overrides : Overrides α) :
    (e'.prepare nodes overrides).1.ledger = (e.prepare nodes overrides).1.ledger ∧
      (e'.prepare nodes overrides).2 = (e.prepare nodes overrides).2 := by
  rw [prepare, prepare, seed_passes hconfig]
  rcases e.seed (Snapshot.nodeMap nodes) overrides with ⟨seeded, _ | r⟩
  · exact ⟨rfl, rfl⟩
  · exact ⟨rfl, rfl⟩

theorem start_passes (nodes : List (Node α)) (edges : List (Edge α)) (overrides : Overrides α) :
    e'.start nodes edges overrides = e.start nodes edges overrides := by
  rw [start, start, noteCycles, noteCycles, prepare_config, prepare_config, hconfig,
    (prepare_passes hconfig nodes overrides).1]

theorem run_of_passes (hregistry : e.registry = .builtin) (hregistry' : e'.registry = .builtin)
    (haccepted : (e.prepare nodes overrides).2 = .ok seeds) (edges : List (Edge α)) :
    (e'.run nodes edges overrides).2 =
      .ok (settle (e.setting (.ofLists nodes edges)).fullPass e'.config.passes
        (e.start nodes edges overrides)).result := by
  have hpass : (e'.setting (.ofLists nodes edges)).fullPass =
      (e.setting (.ofLists nodes edges)).fullPass :=
    Setting.fullPass_passes hregistry hregistry' rfl hconfig
  have haccepted' := (prepare_passes hconfig nodes overrides).2.trans haccepted
  rw [run_of_accepted haccepted' edges, hpass, start_passes hconfig]

/-- A higher cap only takes a run further. What is on record under the lower cap begins what is on
record under the higher. If the run came to rest the answer is the same, and if it did not all its
passes are made again, with at least one more where the cap allows it. -/
theorem run_extends (hregistry : e.registry = .builtin) (hregistry' : e'.registry = .builtin)
    (hcaps : e.config.passes ≤ e'.config.passes)
    (haccepted : (e.prepare nodes overrides).2 = .ok seeds) (edges : List (Edge α)) :
    ∃ r r', (e.run nodes edges overrides).2 = .ok r ∧ (e'.run nodes edges overrides).2 = .ok r' ∧
      r.events <+: r'.events ∧ r.conflicts <+: r'.conflicts ∧
      (r.converged = true → r' = r) ∧
      (r.converged = false → e.config.passes ≤ r'.iterations ∧
        (e.config.passes < e'.config.passes → e.config.passes < r'.iterations)) := by
  let s := e.setting (.ofLists nodes edges)
  let l := e.start nodes edges overrides
  let low := settle s.fullPass e.config.passes l
  let high := settle s.fullPass e'.config.passes l
  obtain ⟨more, hmore⟩ := Nat.exists_eq_add_of_le hcaps
  refine ⟨low.result, high.result, congrArg Prod.snd (run_of_accepted haccepted edges),
    run_of_passes hconfig hregistry hregistry' haccepted edges, ?_⟩
  cases hopen : low.converged with
  | true =>
    have same : high = low := by
      change settle s.fullPass e'.config.passes l = low
      rw [hmore]
      exact settle_add_of_converged hopen more
    rw [same]
    refine ⟨List.prefix_refl _, List.prefix_refl _, fun _ => rfl, fun hnot => ?_⟩
    cases hopen.symm.trans hnot
  | false =>
    let rest := settle s.fullPass more low.ledger
    have further : high = { rest with iterations := e.config.passes + rest.iterations } := by
      change settle s.fullPass e'.config.passes l = _
      rw [hmore]
      exact settle_add_of_open hopen more
    rw [further]
    obtain ⟨hevents, hconflicts⟩ := s.settle_prefix more low.ledger
    refine ⟨hevents, hconflicts, fun hrested => ?_, fun _ => ⟨Nat.le_add_right _ _, fun hlt => ?_⟩⟩
    · cases hopen.symm.trans hrested
    · have another : 0 < rest.iterations := settle_iterations_pos (by omega) _
      exact Nat.lt_add_of_pos_right another

end

theorem run_extends_chain :
    let e : Engine Float := .new { Config.standard with passes := 1 } .builtin
    let e' : Engine Float := .new { Config.standard with passes := 3 } .builtin
    let nodes : List (Node Float) :=
      [⟨"rain", .fact, "", 90.0⟩, ⟨"wet", .conclusion, "", 50.0⟩, ⟨"slip", .conclusion, "", 50.0⟩]
    let edges : List (Edge Float) :=
      [⟨"ws", "wet", "slip", "causes", 1.0⟩, ⟨"rw", "rain", "wet", "causes", 1.0⟩]
    ∃ r r', (e.run nodes edges ∅).2 = .ok r ∧ (e'.run nodes edges ∅).2 = .ok r' ∧
      r.events <+: r'.events ∧ r.events.length = 1 ∧ r'.events.length = 2 ∧
      r.converged = false ∧ 1 < r'.iterations := by
  intro e e' nodes edges
  have hconfig : e'.config = { e.config with passes := e'.config.passes } := rfl
  have haccepted : (e.prepare nodes ∅).2 = .ok _ := rfl
  obtain ⟨r, r', hrun, hrun', hevents, -, -, hopen⟩ :=
    run_extends hconfig rfl rfl (by decide) haccepted edges
  have hcheck : (e.run nodes edges ∅).2.toOption.any
      (fun r => r.events.length = 1 ∧ r.converged = false) = true ∧
      (e'.run nodes edges ∅).2.toOption.any (fun r => r.events.length = 2) = true := by
    decide +kernel
  rw [hrun, hrun'] at hcheck
  obtain ⟨hlow, hhigh⟩ := hcheck
  obtain ⟨hone, hnot⟩ := of_decide_eq_true hlow
  exact ⟨r, r', hrun, hrun', hevents, hone, of_decide_eq_true hhigh, hnot,
    (hopen hnot).2 (by decide)⟩

end Engine
end ReasonGraph
