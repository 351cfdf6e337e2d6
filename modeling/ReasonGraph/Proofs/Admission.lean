import ReasonGraph.Proofs.Passes
import ReasonGraph.Proofs.Clash
import Mathlib.Data.List.Forall2

/-! When a call is refused and what it leaves behind. Nodes are seeded one after another, so the
first one whose override cannot be read, or asserts a verdict that its kind does not admit, refuses
the call. What the engine held is forgotten by then, and the nodes before that one have their
seeds. -/

namespace ReasonGraph
variable {α : Type}

theorem Config.admit_eq_error_iff {config : Config α} {place : Assertion} {n : Node α}
    {logic : LogicState} {r : Rejection} : config.admit place n logic = .error r ↔
      config.checksKinds = true ∧ n.kind.admits logic = false ∧
        r = .notAdmitted place n.kind n.id logic := by
  unfold Config.admit
  cases config.checksKinds <;> cases n.kind.admits logic <;> simp [eq_comm]

variable [Quantity α]

theorem Node.seed_eq_error_iff {n : Node α} {config : Config α} {o : Override α} {r : Rejection} :
    n.seed config o = .error r ↔
      ∃ logic, o.logic = some logic ∧ config.admit (.initial n.id) n logic = .error r := by
  cases hlogic : o.logic with
  | none => simp [Node.seed, hlogic, bind, Except.bind, pure, Except.pure]
  | some logic =>
    simp only [Node.seed, hlogic, bind, Except.bind, pure, Except.pure]
    cases hasked : config.admit (.initial n.id) n logic <;> simp [hasked]

theorem Node.seedFrom_eq_error_iff {n : Node α} {config : Config α} {overrides : Overrides α}
    {r : Rejection} : n.seedFrom config overrides = .error r ↔
      (∃ issues, overrides.get? n.id = some (.error issues) ∧ r = .malformed n.id issues) ∨
      ∃ o logic, overrides.get? n.id = some (.ok o) ∧ o.logic = some logic ∧
        config.checksKinds = true ∧ n.kind.admits logic = false ∧
        r = .notAdmitted (.initial n.id) n.kind n.id logic := by
  rw [Node.seedFrom]
  cases hfound : overrides.get? n.id with
  | none => simp [Node.seed_none]
  | some o =>
    cases o with
    | error issues => simp [eq_comm (a := r)]
    | ok o =>
      simp only [Node.seed_eq_error_iff, Config.admit_eq_error_iff, Option.some.injEq, reduceCtorEq,
        Except.ok.injEq, false_and, exists_false, false_or]
      constructor
      · rintro ⟨logic, h⟩
        exact ⟨o, logic, rfl, h⟩
      · rintro ⟨_, logic, rfl, h⟩
        exact ⟨logic, h⟩

namespace Table
variable {config : Config α} {overrides : Overrides α} {ns : List (Node α)} {t t' : Table α}
  {r : Rejection}

theorem seed_eq_some_iff : Table.seed config overrides ns t = (t', some r) ↔
    ∃ before n after, ns = before ++ n :: after ∧
      Table.seed config overrides before t = (t', none) ∧
      n.seedFrom config overrides = .error r := by
  constructor
  · intro h
    induction ns generalizing t with
    | nil => cases h
    | cons first rest ih =>
      rw [Table.seed] at h
      cases hfirst : first.seedFrom config overrides with
      | error stop =>
        rw [hfirst] at h
        cases h
        exact ⟨[], first, rest, rfl, rfl, hfirst⟩
      | ok s =>
        rw [hfirst] at h
        obtain ⟨before, n, after, rfl, hbefore, hn⟩ := ih h
        refine ⟨first :: before, n, after, rfl, ?_, hn⟩
        rw [Table.seed, hfirst]
        exact hbefore
  · rintro ⟨before, n, after, rfl, hbefore, hn⟩
    induction before generalizing t with
    | nil =>
      cases hbefore
      rw [List.nil_append, Table.seed, hn]
    | cons first rest ih =>
      rw [Table.seed] at hbefore
      rw [List.cons_append, Table.seed]
      cases hfirst : first.seedFrom config overrides with
      | error stop =>
        rw [hfirst] at hbefore
        cases hbefore
      | ok s =>
        rw [hfirst] at hbefore
        exact ih hbefore

theorem seed_eq_none_iff : (Table.seed config overrides ns t).2 = none ↔
    ∀ n ∈ ns, ∃ s, n.seedFrom config overrides = .ok s := by
  induction ns generalizing t with
  | nil => simp [Table.seed]
  | cons first rest ih =>
    rw [Table.seed]
    cases hfirst : first.seedFrom config overrides with
    | error stop => simp [hfirst]
    | ok s => simp [hfirst, ih]

/-- The table holds one entry for each node, in their order: the state that the node is seeded
with. -/
def IsSeeded (t : Table α) (config : Config α) (overrides : Overrides α) (ns : List (Node α)) :
    Prop :=
  List.Forall₂ (fun n entry => n.id = entry.1 ∧ n.seedFrom config overrides = .ok entry.2) ns
    t.entries

theorem IsSeeded.keys (h : t.IsSeeded config overrides ns) : t.keys = ns.map Node.id := by
  have hids : List.Forall₂ Eq (t.entries.map Prod.fst) (ns.map Node.id) :=
    List.forall₂_map_left_iff.2 (List.forall₂_map_right_iff.2 (h.flip.imp fun _ _ hn => hn.1.symm))
  rwa [List.forall₂_eq_eq_eq] at hids

theorem IsSeeded.eq (h : t.IsSeeded config overrides ns) (h' : t'.IsSeeded config overrides ns) :
    t = t' := by
  refine OrderedMap.ext ?_
  rw [IsSeeded] at h h'
  generalize t.entries = entries at h
  generalize t'.entries = entries' at h'
  induction h generalizing entries' with
  | nil =>
    cases h'
    rfl
  | cons hentry _ ih =>
    cases h' with
    | cons hentry' hrest' =>
      have hid := hentry.1.symm.trans hentry'.1
      have hstate := Except.ok.inj (hentry.2.symm.trans hentry'.2)
      rw [ih _ hrest', Prod.ext hid hstate]

theorem IsSeeded.get? (h : t.IsSeeded config overrides ns) {n : Node α} (hn : n ∈ ns) :
    ∃ s, OrderedMap.get? t n.id = some s ∧ n.seedFrom config overrides = .ok s := by
  have hentry : ∃ s, (n.id, s) ∈ t.entries ∧ n.seedFrom config overrides = .ok s := by
    rw [IsSeeded] at h
    generalize t.entries = entries at h ⊢
    induction h with
    | nil => cases hn
    | @cons first entry _ _ hentry _ ih =>
      rcases List.mem_cons.1 hn with rfl | hn
      · exact ⟨entry.2, by simp [hentry.1], hentry.2⟩
      · obtain ⟨s, hs, hseed⟩ := ih hn
        exact ⟨s, List.mem_cons_of_mem _ hs, hseed⟩
  obtain ⟨s, hs, hseed⟩ := hentry
  exact ⟨s, OrderedMap.get?_of_mem hs, hseed⟩

theorem isSeeded_seed (hns : (ns.map Node.id).Nodup)
    (h : Table.seed config overrides ns ∅ = (t', none)) : t'.IsSeeded config overrides ns := by
  suffices hsuffix : ∀ before t, t.IsSeeded config overrides before →
      ((before ++ ns).map Node.id).Nodup → Table.seed config overrides ns t = (t', none) →
      t'.IsSeeded config overrides (before ++ ns) from hsuffix [] ∅ .nil hns h
  clear hns h
  induction ns with
  | nil =>
    intro before t ht _ h
    cases h
    rwa [List.append_nil]
  | cons first rest ih =>
    intro before t ht hns h
    rw [Table.seed] at h
    cases hfirst : first.seedFrom config overrides with
    | error stop =>
      rw [hfirst] at h
      cases h
    | ok s =>
      rw [hfirst] at h
      rw [List.append_cons] at hns ⊢
      refine ih _ _ ?_ hns h
      have hnew : first.id ∉ t.keys := by
        rw [ht.keys]
        simp only [List.map_append, List.nodup_append] at hns
        exact fun hmem => hns.1.2.2 _ hmem _ (by simp) rfl
      rw [IsSeeded, OrderedMap.entries_insert hnew]
      exact List.rel_append ht (.cons ⟨rfl, hfirst⟩ .nil)

end Table

namespace Engine
variable {e : Engine α} {nodes : List (Node α)} {overrides : Overrides α} {r : Rejection}

theorem prepare_eq_ok_iff {seeds : Table α} : (e.prepare nodes overrides).2 = .ok seeds ↔
    Table.seed e.config overrides (Snapshot.nodeMap nodes).values ∅ = (seeds, none) := by
  rw [prepare, seed_eq]
  rcases Table.seed e.config overrides (Snapshot.nodeMap nodes).values ∅ with ⟨t, _ | stop⟩
  · simp
  · simp

theorem prepare_eq_error_iff : (e.prepare nodes overrides).2 = .error r ↔
    (Table.seed e.config overrides (Snapshot.nodeMap nodes).values ∅).2 = some r := by
  rw [prepare, seed_eq]
  cases (Table.seed e.config overrides (Snapshot.nodeMap nodes).values ∅).2 <;> simp

theorem run_eq_error_iff (edges : List (Edge α)) :
    (e.run nodes edges overrides).2 = .error r ↔ (e.prepare nodes overrides).2 = .error r := by
  cases hprepare : (e.prepare nodes overrides).2 with
  | ok seeds => simp [run_of_accepted hprepare edges]
  | error stop => simp [run_of_refused hprepare edges]

theorem refused_of_either {edges : List (Edge α)} (h : (e.prepare nodes overrides).2 = .error r ∨
      (e.run nodes edges overrides).2 = .error r) :
    (e.prepare nodes overrides).2 = .error r ∧
      e.run nodes edges overrides = ((e.prepare nodes overrides).1, .error r) := by
  have hrefused : (e.prepare nodes overrides).2 = .error r :=
    h.elim id (run_eq_error_iff edges).1
  exact ⟨hrefused, run_of_refused hrefused edges⟩

/-- A call is refused at the first node that is, when those before it have been seeded. -/
theorem refused_at (h : (e.prepare nodes overrides).2 = .error r) :
    ∃ before n after, (Snapshot.nodeMap nodes).values = before ++ n :: after ∧
      (e.prepare nodes overrides).1.ledger.states.IsSeeded e.config overrides before ∧
      n.seedFrom e.config overrides = .error r := by
  have hstop : Table.seed e.config overrides (Snapshot.nodeMap nodes).values ∅ =
      ((e.prepare nodes overrides).1.ledger.states, some r) :=
    Prod.ext (prepare_states e nodes overrides).symm (prepare_eq_error_iff.1 h)
  obtain ⟨before, n, after, hsplit, hbefore, hn⟩ := Table.seed_eq_some_iff.1 hstop
  have hids : (before.map Node.id).Nodup := by
    have hkeys := (Snapshot.nodeMap nodes).nodup_keys
    rw [← Snapshot.map_id_values_nodeMap, hsplit, List.map_append] at hkeys
    exact (List.nodup_append.1 hkeys).1
  exact ⟨before, n, after, hsplit, Table.isSeeded_seed hids hbefore, hn⟩

theorem run_accepted_iff (edges : List (Edge α)) :
    (∃ result, (e.run nodes edges overrides).2 = .ok result) ↔
      ∀ n ∈ (Snapshot.nodeMap nodes).values, ∃ s, n.seedFrom e.config overrides = .ok s := by
  rw [← Table.seed_eq_none_iff (t := ∅)]
  constructor
  · rintro ⟨result, hrun⟩
    obtain ⟨seeds, hseeds⟩ := accepted_of_run hrun
    exact congrArg Prod.snd (prepare_eq_ok_iff.1 hseeds)
  · intro hnone
    have haccepted := prepare_eq_ok_iff.2 (Prod.ext rfl hnone)
    exact ⟨_, congrArg Prod.snd (run_of_accepted haccepted edges)⟩

theorem prepare_isSeeded {seeds : Table α} (h : (e.prepare nodes overrides).2 = .ok seeds) :
    seeds.IsSeeded e.config overrides (Snapshot.nodeMap nodes).values := by
  have hids : ((Snapshot.nodeMap nodes).values.map Node.id).Nodup := by
    rw [Snapshot.map_id_values_nodeMap]
    exact (Snapshot.nodeMap nodes).nodup_keys
  exact Table.isSeeded_seed hids (prepare_eq_ok_iff.1 h)

theorem seed_of_node {seeds : Table α} (h : (e.prepare nodes overrides).2 = .ok seeds)
    {id : String} {n : Node α} (hn : (Snapshot.nodeMap nodes).get? id = some n) :
    ∃ s, seeds.get? id = some s ∧ n.seedFrom e.config overrides = .ok s := by
  have hvalue : n ∈ (Snapshot.nodeMap nodes).values :=
    List.mem_map.2 ⟨(id, n), OrderedMap.mem_of_find hn, rfl⟩
  have hseed := (prepare_isSeeded h).get? hvalue
  rwa [(Snapshot.nodeMap_get? hn).2] at hseed

theorem seed_of_absent {seeds : Table α} (h : (e.prepare nodes overrides).2 = .ok seeds)
    {id : String} (hn : (Snapshot.nodeMap nodes).get? id = none) : seeds.get? id = none := by
  rw [OrderedMap.get?_eq_none_iff] at hn ⊢
  rwa [(prepare_isSeeded h).keys, Snapshot.map_id_values_nodeMap]

theorem keys_of_run {edges : List (Edge α)} {result : Result α}
    (h : (e.run nodes edges overrides).2 = .ok result) :
    result.states.keys = (Snapshot.nodeMap nodes).keys := by
  obtain ⟨seeds, hseeds⟩ := accepted_of_run h
  obtain rfl := result_of_run h
  rw [Settled.result, Setting.settle_fullPass_ledger, Setting.after_keys, start_seeds hseeds,
    (prepare_isSeeded hseeds).keys, Snapshot.map_id_values_nodeMap]

/-- What a refused call leaves, whatever the engine held: the seeds of the nodes before the one that
was refused, in their order, and no event, conflict or cycle. So the engine is left as it was just
if it held exactly that. -/
theorem refused_leaves {edges : List (Edge α)} (hrefused :
      (e.prepare nodes overrides).2 = .error r ∨ (e.run nodes edges overrides).2 = .error r) :
    ∃ before n after, (Snapshot.nodeMap nodes).values = before ++ n :: after ∧
      n.seedFrom e.config overrides = .error r ∧
      ∀ left, left = (e.prepare nodes overrides).1 ∨ left = (e.run nodes edges overrides).1 →
        (left.ledger.states.IsSeeded e.config overrides before ∧ left.ledger.events = [] ∧
          left.ledger.conflicts = [] ∧ left.ledger.cycles = []) ∧
        (left.ledger = e.ledger ↔
          e.ledger.states.IsSeeded e.config overrides before ∧ e.ledger.events = [] ∧
            e.ledger.conflicts = [] ∧ e.ledger.cycles = []) := by
  obtain ⟨hrefused, hrun⟩ := refused_of_either hrefused
  obtain ⟨before, n, after, hsplit, hseeded, hn⟩ := refused_at hrefused
  refine ⟨before, n, after, hsplit, hn, fun left hleft => ?_⟩
  obtain rfl : left = (e.prepare nodes overrides).1 := by
    rcases hleft with h | h
    · exact h
    · rw [h, hrun]
  have hevents := prepare_events e nodes overrides
  have hconflicts := prepare_conflicts e nodes overrides
  have hcycles := prepare_cycles e nodes overrides
  refine ⟨⟨hseeded, hevents, hconflicts, hcycles⟩, fun hsame => ?_, fun hheld => ?_⟩
  · rw [← hsame]
    exact ⟨hseeded, hevents, hconflicts, hcycles⟩
  · obtain ⟨hstates, hevents', hconflicts', hcycles'⟩ := hheld
    have hequal := hseeded.eq hstates
    generalize (e.prepare nodes overrides).1.ledger = now at hevents hconflicts hcycles hequal ⊢
    generalize e.ledger = held at hevents' hconflicts' hcycles' hequal ⊢
    cases now
    cases held
    simp_all

theorem refused_leaves_second :
    let nodes : List (Node Float) := [⟨"a", .fact, "", 90.0⟩, ⟨"b", .fact, "", 85.0⟩]
    let edges : List (Edge Float) :=
      [⟨"ab", "a", "b", "conflicts", 1.0⟩, ⟨"aa", "a", "a", "depends", 1.0⟩]
    let e := ((Engine.new .standard .builtin).run nodes edges ∅).1
    let doubt : Overrides Float := .ofList [("b", .ok ⟨some .unknown, none, none⟩)]
    ∃ r, (e.run nodes edges doubt).2 = .error r ∧
      ∃ before n after, (Snapshot.nodeMap nodes).values = before ++ n :: after ∧
        n.seedFrom e.config doubt = .error r ∧
        (e.run nodes edges doubt).1.ledger.states.IsSeeded e.config doubt before ∧
        (e.run nodes edges doubt).1.ledger.events = [] := by
  intro nodes edges e doubt
  obtain ⟨r, hrefused⟩ : ∃ r, (e.run nodes edges doubt).2 = .error r := ⟨_, rfl⟩
  obtain ⟨before, n, after, hsplit, hn, hleft⟩ := refused_leaves (.inr hrefused)
  obtain ⟨hseeded, hevents, -⟩ := (hleft _ (.inr rfl)).1
  exact ⟨r, hrefused, before, n, after, hsplit, hn, hseeded, hevents⟩

/-- So a refused call does not leave the engine as it was. The states it held are gone, with the
events, conflicts and cycles. -/
theorem refused_run_forgets :
    let nodes : List (Node Float) := [⟨"a", .fact, "", 90.0⟩, ⟨"b", .fact, "", 85.0⟩]
    let edges : List (Edge Float) :=
      [⟨"ab", "a", "b", "conflicts", 1.0⟩, ⟨"aa", "a", "a", "depends", 1.0⟩]
    let e := ((Engine.new .standard .builtin).run nodes edges ∅).1
    let doubt : Overrides Float := .ofList [("b", .ok ⟨some .unknown, none, none⟩)]
    ∃ r, (e.run nodes edges doubt).2 = .error r ∧
      let left := (e.run nodes edges doubt).1
      (e.ledger.states.keys = ["a", "b"] ∧ left.ledger.states.keys = ["a"]) ∧
      (e.ledger.states.holds "a" = false ∧ left.ledger.states.holds "a" = true) ∧
      (e.ledger.events.length = 2 ∧ left.ledger.events.length = 0) ∧
      (e.ledger.conflicts.length = 2 ∧ left.ledger.conflicts.length = 0) ∧
      (e.ledger.cycles = [["a"]] ∧ left.ledger.cycles = []) := by
  intro nodes edges e doubt
  have hcycles : e.ledger.cycles = [["a"]] := by
    obtain ⟨r, hr⟩ : ∃ r, ((Engine.new .standard .builtin).run nodes edges ∅).2 = .ok r := ⟨_, rfl⟩
    obtain ⟨hheld, hnoted⟩ := run_cycles hr
    refine hheld.trans (hnoted.trans ?_)
    change (chains (.ofLists nodes edges)).cycles = _
    rw [Links.cycles]
    iterate 5 rw [Search.finish_of_some rfl]
    rw [Search.finish_of_none rfl]
    decide
  exact ⟨_, rfl, by decide +kernel, by decide +kernel, by decide +kernel, by decide +kernel,
    hcycles, rfl⟩

end Engine
end ReasonGraph
