import ReasonGraph.Proofs.Seating

/-! What the rules of the known relations look at. A rule sees the two ends of its edge, and a
rule of achievement moreover which other edges into the target come from a source that holds.
Nothing else in the graph or in the table sways what a reading does. -/

namespace ReasonGraph
variable {α : Type}

theorem Registry.mem_readings {reg : Registry α} {e : Edge α} {h : Hop α × Rule α} :
    h ∈ reg.readings e ↔ reg.get? e.relation = some h.2 ∧ h.1.edge = e ∧
      (h.1.reversed = true → h.2.bidirectional = true) := by
  obtain ⟨⟨edge, reversed⟩, rule⟩ := h
  simp only [readings, forward?, backward?, List.mem_append, Option.mem_toList,
    Option.map_eq_some_iff, Option.filter_eq_some_iff, Prod.mk.injEq, Hop.mk.injEq]
  constructor
  · rintro (⟨_, hget, ⟨rfl, rfl⟩, rfl⟩ | ⟨_, ⟨hget, hmutual⟩, ⟨rfl, rfl⟩, rfl⟩)
    · exact ⟨hget, rfl, by simp⟩
    · exact ⟨hget, rfl, fun _ => hmutual⟩
  · rintro ⟨hget, rfl, hmutual⟩
    cases reversed with
    | false => exact .inl ⟨rule, hget, ⟨rfl, rfl⟩, rfl⟩
    | true => exact .inr ⟨rule, ⟨hget, hmutual rfl⟩, ⟨rfl, rfl⟩, rfl⟩

theorem Setting.mem_hops {s : Setting α} {h : Hop α × Rule α} :
    h ∈ s.hops ↔ h.1.edge ∈ s.graph.edges ∧ s.registry.get? h.1.edge.relation = some h.2 ∧
      (h.1.reversed = true → h.2.bidirectional = true) := by
  simp only [hops, List.mem_flatMap, Registry.mem_readings]
  constructor
  · rintro ⟨e, he, hget, rfl, hmutual⟩
    exact ⟨he, hget, hmutual⟩
  · rintro ⟨he, hget, hmutual⟩
    exact ⟨h.1.edge, he, hget, rfl, hmutual⟩

theorem Setting.mem_hopsAt {s : Setting α} {nodes : List (Node α)} {edges : List (Edge α)}
    (hg : s.graph = .ofLists nodes edges) {id : String} {h : Hop α × Rule α} :
    h ∈ s.hopsAt id ↔ h ∈ s.hops ∧ h.1.source = id := by
  obtain ⟨⟨edge, reversed⟩, rule⟩ := h
  rw [mem_hops, hopsAt, hg, Snapshot.edgesFrom_ofLists, Snapshot.edgesInto_ofLists]
  have hedges : (Snapshot.ofLists nodes edges).edges = edges := rfl
  rw [hedges]
  simp only [Registry.forward?, Registry.backward?, List.mem_append, List.mem_filterMap,
    List.mem_filter, decide_eq_true_eq, Option.map_eq_some_iff, Option.filter_eq_some_iff,
    Prod.mk.injEq, Hop.mk.injEq]
  constructor
  · rintro (⟨_, ⟨he, hid⟩, _, hget, ⟨rfl, rfl⟩, rfl⟩ |
      ⟨_, ⟨he, hid⟩, _, ⟨hget, hmutual⟩, ⟨rfl, rfl⟩, rfl⟩)
    · exact ⟨⟨he, hget, by simp⟩, hid⟩
    · exact ⟨⟨he, hget, fun _ => hmutual⟩, hid⟩
  · rintro ⟨⟨he, hget, hmutual⟩, hid⟩
    cases reversed with
    | false => exact .inl ⟨edge, ⟨he, hid⟩, rule, hget, ⟨rfl, rfl⟩, rfl⟩
    | true => exact .inr ⟨edge, ⟨he, hid⟩, rule, ⟨hget, hmutual rfl⟩, ⟨rfl, rfl⟩, rfl⟩

def Table.achievedOtherwise (t : Table α) (edges : List (Edge α)) (h : Hop α) : Bool :=
  edges.any fun edge => edge.target = h.target && edge.id ≠ h.edge.id &&
    edge.relation = Relation.achieves.name && (t.get? edge.source).any (·.logic = .holds)

theorem Table.achievedOtherwise_eq_true {t : Table α} {edges : List (Edge α)} {h : Hop α} :
    t.achievedOtherwise edges h = true ↔ ∃ edge ∈ edges, edge.target = h.target ∧
      edge.id ≠ h.edge.id ∧ edge.relation = Relation.achieves.name ∧
      ∃ source, t.get? edge.source = some source ∧ source.logic = .holds := by
  simp only [achievedOtherwise, List.any_eq_true, Bool.and_eq_true, decide_eq_true_eq,
    Option.any_eq_true, and_assoc]

theorem Evidence.edgesInto_eq_filter {e : Evidence α}
    (h : e.incoming = Snapshot.fileAll Edge.target e.edges) (id : String) :
    e.edgesInto id = e.edges.filter fun edge => edge.target = id := by
  rw [edgesInto]
  split
  · rfl
  · rw [h, Snapshot.filed_fileAll]

theorem Rule.hasOtherAchiever_eq {e : Evidence α}
    (h : e.incoming = Snapshot.fileAll Edge.target e.edges) :
    hasOtherAchiever e = e.edges.any fun edge => edge.target = e.targetNode.id &&
      edge.id ≠ e.edge.id && edge.relation = Relation.achieves.name &&
        (e.states.get? edge.source).any (·.logic = .holds) := by
  rw [hasOtherAchiever, e.edgesInto_eq_filter h, List.any_filter]
  simp only [Bool.and_assoc]

theorem Hop.hasOtherAchiever_eq {h : Hop α} {config : Config α} {nodes : List (Node α)}
    {edges : List (Edge α)} {t : Table α} {e : Evidence α}
    (he : h.evidence? config (.ofLists nodes edges) t = some e) :
    Rule.hasOtherAchiever e = t.achievedOtherwise edges h := by
  obtain ⟨_, targetNode, _, _, -, -, -, -, rfl⟩ := evidence?_eq_some he
  have hid : targetNode.id = h.target := (evidence?_ids he).2
  rw [Rule.hasOtherAchiever_eq rfl, Table.achievedOtherwise]
  simp only [hid]
  rfl

variable [Quantity α]

namespace Registry

theorem get?_builtin_name (r : Relation) :
    (builtin : Registry α).get? r.name = some (Rule.builtin r) := by
  have hkey : ∀ r : Relation, (Rule.builtin r : Rule α).key = r.name := fun _ => rfl
  simp only [builtin, Relation.all, List.foldl_cons, List.foldl_nil, get?_insert, hkey]
  cases r <;> simp [Relation.name]

theorem get?_builtin {tag : String} {rule : Rule α} :
    (builtin : Registry α).get? tag = some rule ↔ ∃ r, tag = Relation.name r ∧
      rule = Rule.builtin r := by
  have hkey : ∀ r : Relation, (Rule.builtin r : Rule α).key = r.name := fun _ => rfl
  constructor
  · intro h
    simp only [builtin, Relation.all, List.foldl_cons, List.foldl_nil, get?_insert, hkey] at h
    repeat' split at h
    all_goals cases h
    all_goals exact ⟨_, Eq.symm ‹_ = tag›, rfl⟩
  · rintro ⟨r, rfl, rfl⟩
    exact get?_builtin_name r

theorem readings_conflicts {e : Edge α} (hrel : e.relation = Relation.conflicts.name) :
    (builtin : Registry α).readings e =
      [(⟨e, false⟩, .builtin .conflicts), (⟨e, true⟩, .builtin .conflicts)] := by
  have hrule := get?_builtin_name (α := α) .conflicts
  rw [← hrel] at hrule
  simp only [readings, forward?, backward?, hrule]
  rfl

end Registry

theorem Setting.rule_of_mem_hops {s : Setting α} (hregistry : s.registry = .builtin)
    {h : Hop α × Rule α} (hh : h ∈ s.hops) :
    ∃ r, h.2 = .builtin r ∧ h.1.edge.relation = Relation.name r := by
  obtain ⟨-, hrule, -⟩ := mem_hops.1 hh
  rw [hregistry] at hrule
  obtain ⟨r, hrel, hbuiltin⟩ := Registry.get?_builtin.1 hrule
  exact ⟨r, hbuiltin, hrel⟩

theorem Setting.rule_among {s : Setting α} (hregistry : s.registry = .builtin)
    {relations : List Relation}
    (hrelation : ∀ edge ∈ s.graph.edges, ∃ r ∈ relations, edge.relation = r.name)
    {h : Hop α × Rule α} (hh : h ∈ s.hops) :
    ∃ r ∈ relations, h.1.edge.relation = r.name ∧ h.2 = .builtin r := by
  obtain ⟨r, hrule, hrel⟩ := rule_of_mem_hops hregistry hh
  obtain ⟨r', hr, hrel'⟩ := hrelation _ (mem_hops.1 hh).1
  obtain rfl : r = r' := Relation.name_injective (hrel.symm.trans hrel')
  exact ⟨r, hr, hrel, hrule⟩

theorem Setting.forward_of_mem_hops {s : Setting α} (hregistry : s.registry = .builtin)
    {h : Hop α × Rule α} (hh : h ∈ s.hops) {r : Relation} (hrel : h.1.edge.relation = r.name)
    (hr : Rule.isMutual r = false) : h.1.reversed = false := by
  obtain ⟨-, hrule, hmutual⟩ := mem_hops.1 hh
  rw [hregistry, hrel, Registry.get?_builtin_name, Option.some.injEq] at hrule
  refine Bool.eq_false_iff.2 fun hback => ?_
  have hboth := hmutual hback
  rw [← hrule] at hboth
  cases hr.symm.trans hboth

/-- A rule looks at the rest of the graph only for other achievers, and only where the source of an
achievement fails. -/
theorem Rule.inference_elsewhere {r : Relation} {e e' : Evidence α}
    (hsame : e' = { e with nodes := e'.nodes, edges := e'.edges, states := e'.states,
                           incoming := e'.incoming })
    (hother : r = .achieves → e.source.logic = .fails →
      hasOtherAchiever e' = hasOtherAchiever e) :
    inference r e' = inference r e := by
  rw [hsame] at hother ⊢
  cases r with
  | achieves =>
    by_cases hfails : e.source.logic = .fails
    · simp only [inference, achievement, hother rfl hfails]
      rfl
    · simp only [inference, achievement, hfails]
      rfl
  | _ => rfl

theorem Setting.change?_congr {s s' : Setting α} {nodes nodes' : List (Node α)}
    {edges edges' : List (Edge α)} (hg : s.graph = .ofLists nodes edges)
    (hg' : s'.graph = .ofLists nodes' edges') (hconfig : s'.config = s.config)
    {t t' : Table α} {h : Hop α} {r : Relation}
    (hsourceNode : s'.graph.nodes.get? h.source = s.graph.nodes.get? h.source)
    (htargetNode : s'.graph.nodes.get? h.target = s.graph.nodes.get? h.target)
    (hsource : t'.get? h.source = t.get? h.source)
    (htarget : t'.get? h.target = t.get? h.target)
    (hother : r = .achieves → ∀ source, t.get? h.source = some source → source.logic = .fails →
      t'.achievedOtherwise s'.graph.edges h = t.achievedOtherwise s.graph.edges h) :
    s'.change? t' (h, .builtin r) = s.change? t (h, .builtin r) := by
  simp only [change?, Hop.change?, Hop.evidence?, hconfig, hsourceNode, htargetNode, hsource,
    htarget]
  cases s.graph.nodes.get? h.source with
  | none => rfl
  | some sourceNode =>
  cases hnode : s.graph.nodes.get? h.target with
  | none => rfl
  | some targetNode =>
  cases held : t.get? h.source with
  | none => rfl
  | some source =>
  cases t.get? h.target with
  | none => rfl
  | some target =>
  have hid : targetNode.id = h.target := by
    rw [hg] at hnode
    exact (Snapshot.nodeMap_get? hnode).2
  have hinference : Rule.inference r ⟨sourceNode, source, targetNode, target, h.edge,
        s'.graph.nodes, s'.graph.edges, t', s'.graph.incoming, s.config, h.reversed⟩ =
      Rule.inference r ⟨sourceNode, source, targetNode, target, h.edge,
        s.graph.nodes, s.graph.edges, t, s.graph.incoming, s.config, h.reversed⟩ := by
    refine Rule.inference_elsewhere rfl fun hr hfails => ?_
    have hindex : s.graph.incoming = Snapshot.fileAll Edge.target s.graph.edges := by rw [hg]; rfl
    have hindex' : s'.graph.incoming = Snapshot.fileAll Edge.target s'.graph.edges := by
      rw [hg']; rfl
    rw [Rule.hasOtherAchiever_eq hindex', Rule.hasOtherAchiever_eq hindex]
    simp only [hid]
    exact hother hr source held hfails
  simp only [Option.bind_eq_bind, Option.bind_some, Rule.builtin, floored, hinference]

/-- The nodes whose states a reading looks at: the two ends of its edge and, for an achievement,
the sources of the other edges that achieve its target. -/
def Setting.Reads (s : Setting α) (h : Hop α) (id : String) : Prop :=
  id = h.source ∨ id = h.target ∨ h.edge.relation = Relation.achieves.name ∧
    ∃ edge ∈ s.graph.edges, edge.target = h.target ∧ edge.id ≠ h.edge.id ∧
      edge.relation = Relation.achieves.name ∧ edge.source = id

theorem Setting.change?_frame {s : Setting α} {nodes : List (Node α)} {edges : List (Edge α)}
    (hg : s.graph = .ofLists nodes edges) {t t' : Table α} {h : Hop α} {r : Relation}
    (hrel : h.edge.relation = r.name) (hsame : ∀ id, s.Reads h id → t'.get? id = t.get? id) :
    s.change? t' (h, .builtin r) = s.change? t (h, .builtin r) := by
  refine change?_congr hg hg rfl rfl rfl (hsame _ (.inl rfl)) (hsame _ (.inr (.inl rfl))) ?_
  rintro rfl - - -
  have hother : ∀ edge ∈ s.graph.edges, edge.target = h.target → edge.id ≠ h.edge.id →
      edge.relation = Relation.achieves.name → t'.get? edge.source = t.get? edge.source :=
    fun edge hedge htarget hid hachieves =>
      hsame _ (.inr (.inr ⟨hrel, edge, hedge, htarget, hid, hachieves, rfl⟩))
  rw [Bool.eq_iff_iff, Table.achievedOtherwise_eq_true, Table.achievedOtherwise_eq_true]
  constructor
  · rintro ⟨edge, hedge, htarget, hid, hachieves, source, hsource, hholds⟩
    rw [hother edge hedge htarget hid hachieves] at hsource
    exact ⟨edge, hedge, htarget, hid, hachieves, source, hsource, hholds⟩
  · rintro ⟨edge, hedge, htarget, hid, hachieves, source, hsource, hholds⟩
    rw [← hother edge hedge htarget hid hachieves] at hsource
    exact ⟨edge, hedge, htarget, hid, hachieves, source, hsource, hholds⟩

end ReasonGraph
