import ReasonGraph.Proofs.View
import Mathlib.Data.Finset.Basic

/-! How far influence reaches. A set of nodes is secluded if no edge with a rule carries anything
into it from a node outside. A run over the whole graph then does to the set exactly what a run
over the set alone does: the two are kept side by side, reading by reading, and readings outside
the set are seen by the whole run only. -/

namespace ReasonGraph
variable {α : Type}

namespace Snapshot

theorem nodeMap_filter (p : String → Bool) (nodes : List (Node α)) :
    nodeMap (nodes.filter fun n => p n.id) = (nodeMap nodes).restrict p := by
  rw [nodeMap, nodeMap, OrderedMap.restrict_ofList, List.filter_map]
  rfl

theorem values_restrict_nodeMap (p : String → Bool) (nodes : List (Node α)) :
    ((nodeMap nodes).restrict p).values = (nodeMap nodes).values.filter fun n => p n.id := by
  rw [OrderedMap.values, OrderedMap.values, List.filter_map]
  refine congrArg _ (List.filter_congr fun e he => ?_)
  rw [Function.comp_apply, (nodeMap_entry he).2]

end Snapshot

def Edge.isWithin (e : Edge α) (S : Finset String) : Bool := e.source ∈ S && e.target ∈ S

namespace Registry

/-- The edges with a rule and both ends in a set. -/
def within (reg : Registry α) (S : Finset String) (edges : List (Edge α)) : List (Edge α) :=
  edges.filter fun e => reg.has e.relation && e.isWithin S

/-- No edge with a rule carries anything into the set from a node outside it, neither forward
nor, where the rule is bidirectional, backward. -/
structure Secludes (reg : Registry α) (nodes : List (Node α)) (edges : List (Edge α))
    (S : Finset String) : Prop where
  known : ∀ id ∈ S, id ∈ nodes.map Node.id
  closed : ∀ edge ∈ edges, ∀ rule, reg.get? edge.relation = some rule →
    edge.source ∈ nodes.map Node.id → edge.target ∈ nodes.map Node.id →
    (edge.target ∈ S → edge.source ∈ S) ∧
      (rule.bidirectional = true → edge.source ∈ S → edge.target ∈ S)

theorem readings_within (reg : Registry α) (S : Finset String) (edges : List (Edge α)) :
    (reg.within S edges).flatMap reg.readings =
      (edges.flatMap reg.readings).filter fun h => h.1.edge.isWithin S := by
  induction edges with
  | nil => rfl
  | cons e rest ih =>
    have hedge : ∀ h ∈ reg.readings e, h.1.edge = e := fun h hh => (mem_readings.1 hh).2.1
    rw [List.flatMap_cons, List.filter_append, ← ih, within, List.filter_cons]
    by_cases hkept : (reg.has e.relation && e.isWithin S) = true
    · have hall : (reg.readings e).filter (fun h => h.1.edge.isWithin S) = reg.readings e := by
        refine List.filter_eq_self.2 fun h hh => ?_
        rw [hedge h hh]
        exact (Bool.and_eq_true _ _ ▸ hkept).2
      rw [if_pos hkept, hall, List.flatMap_cons]
      rfl
    · have hnone : (reg.readings e).filter (fun h => h.1.edge.isWithin S) = [] := by
        refine List.filter_eq_nil_iff.2 fun h hh hends => hkept ?_
        rw [hedge h hh] at hends
        rw [has, (mem_readings.1 hh).1, hends]
        rfl
      rw [if_neg hkept, hnone, List.nil_append]
      rfl

end Registry

theorem Edge.isWithin_iff {h : Hop α} {S : Finset String} :
    h.edge.isWithin S = true ↔ h.source ∈ S ∧ h.target ∈ S := by
  cases hr : h.reversed <;> simp [isWithin, Hop.source, Hop.target, hr, and_comm]

structure Ledger.Alongside (S : Finset String) (nodes : List (Node α)) (whole part : Ledger α) :
    Prop where
  seated : ∀ id ∈ whole.states.keys, id ∈ nodes.map Node.id
  states : ∀ id ∈ S, part.states.get? id = whole.states.get? id
  events : part.events = whole.events.filter (·.target ∈ S)

namespace Ledger.Alongside
variable {S : Finset String} {nodes : List (Node α)} {whole part : Ledger α} {c : Change α}

theorem write_inside (h : Alongside S nodes whole part)
    (hkeys : (whole.write c).states.keys = whole.states.keys) (hc : c.event.target ∈ S) :
    Alongside S nodes (whole.write c) (part.write c) where
  seated id hid := h.seated id (hkeys ▸ hid)
  states id hid := by rw [write_get?, write_get?, h.states id hid]
  events := by simp [h.events, hc]

theorem write_outside (h : Alongside S nodes whole part)
    (hkeys : (whole.write c).states.keys = whole.states.keys) (hc : c.event.target ∉ S) :
    Alongside S nodes (whole.write c) part where
  seated id hid := h.seated id (hkeys ▸ hid)
  states id hid := by
    have hne : c.event.target ≠ id := fun heq => hc (heq ▸ hid)
    rw [write_get?, if_neg hne, h.states id hid]
  events := by simp [h.events, hc]

end Ledger.Alongside

theorem Engine.noteCycles_alongside {whole part : Engine α} {nodes : List (Node α)}
    {S : Finset String} (h : whole.ledger.Alongside S nodes part.ledger) (g g' : Snapshot α) :
    (whole.noteCycles g).Alongside S nodes (part.noteCycles g') := by
  constructor
  · rw [noteCycles_states]
    exact h.seated
  · rw [noteCycles_states, noteCycles_states]
    exact h.states
  · rw [noteCycles_events, noteCycles_events]
    exact h.events

theorem settle_induction {P : Ledger α → Prop} {pass : Ledger α → Ledger α × Bool}
    (hpass : ∀ l, P l → P (pass l).1) (cap : Nat) {l : Ledger α} (hl : P l) :
    P (settle pass cap l).ledger := by
  induction cap generalizing l with
  | zero => exact hl
  | succ cap ih =>
    have hnext := hpass l hl
    rw [settle]
    rcases hp : pass l with ⟨next, changed⟩
    rw [hp] at hnext
    cases changed with
    | false => exact hnext
    | true => exact ih hnext

/-- Repeated passes stay alongside if single passes do and a pass over the part changes something
only if the pass over the whole does. When the part has come to rest, the whole may go on. -/
theorem settle_alongside {S : Finset String} {nodes : List (Node α)}
    {pass pass' : Ledger α → Ledger α × Bool}
    (hpass : ∀ whole part, Ledger.Alongside S nodes whole part →
      Ledger.Alongside S nodes (pass whole).1 (pass' part).1 ∧
        ((pass' part).2 = true → (pass whole).2 = true))
    (hquiet : ∀ l, (pass' l).2 = false → (pass' l).1 = l) (cap : Nat) {whole part : Ledger α}
    (h : Ledger.Alongside S nodes whole part) :
    Ledger.Alongside S nodes (settle pass cap whole).ledger (settle pass' cap part).ledger := by
  induction cap generalizing whole part with
  | zero => exact h
  | succ cap ih =>
    obtain ⟨hnext, hchanged⟩ := hpass whole part h
    have hrest := hquiet part
    have hbeside := fun l hl => (hpass l part hl).1
    rw [settle, settle]
    rcases hw : pass whole with ⟨next, changed⟩
    rcases hp : pass' part with ⟨next', changed'⟩
    rw [hw, hp] at hnext hchanged
    rw [hp] at hrest hbeside
    cases changed' with
    | true =>
      obtain rfl : changed = true := hchanged rfl
      exact ih hnext
    | false =>
      obtain rfl : next' = part := hrest rfl
      cases changed with
      | false => exact hnext
      | true =>
        exact settle_induction (P := fun l => Ledger.Alongside S nodes l next') hbeside cap hnext

variable [Quantity α]

def Setting.known (config : Config α) (nodes : List (Node α)) (edges : List (Edge α)) :
    Setting α := ⟨config, .builtin, .ofLists nodes edges⟩

def Setting.knownWithin (S : Finset String) (config : Config α) (nodes : List (Node α))
    (edges : List (Edge α)) : Setting α :=
  known config (nodes.filter fun n => n.id ∈ S) (Registry.builtin.within S edges)

theorem Setting.hops_knownWithin (S : Finset String) (config : Config α) (nodes : List (Node α))
    (edges : List (Edge α)) :
    (knownWithin S config nodes edges).hops =
      (known config nodes edges).hops.filter fun h => h.1.edge.isWithin S :=
  Registry.readings_within _ S edges

section
variable {config : Config α} {nodes : List (Node α)} {edges : List (Edge α)} {S : Finset String}
  {whole part : Ledger α} (hS : (Registry.builtin (α := α)).Secludes nodes edges S)
include hS

theorem Registry.Secludes.source_mem {h : Hop α × Rule α}
    (hh : h ∈ (Setting.known config nodes edges).hops) (hsource : h.1.source ∈ nodes.map Node.id)
    (htarget : h.1.target ∈ nodes.map Node.id) (ht : h.1.target ∈ S) : h.1.source ∈ S := by
  obtain ⟨⟨edge, reversed⟩, rule⟩ := h
  obtain ⟨hedge, hrule, hmutual⟩ := Setting.mem_hops.1 hh
  cases reversed with
  | false => exact (hS.closed edge hedge rule hrule hsource htarget).1 ht
  | true => exact (hS.closed edge hedge rule hrule htarget hsource).2 (hmutual rfl) ht

theorem achievedOtherwise_within (hp : whole.Alongside S nodes part) {h : Hop α}
    (ht : h.target ∈ S) :
    part.states.achievedOtherwise (Registry.builtin.within S edges) h =
      whole.states.achievedOtherwise edges h := by
  rw [Bool.eq_iff_iff, Table.achievedOtherwise_eq_true, Table.achievedOtherwise_eq_true]
  constructor
  · rintro ⟨edge, hedge, htarget, hid, hrel, source, hsource, hholds⟩
    simp only [Registry.within, List.mem_filter, Bool.and_eq_true, Edge.isWithin,
      decide_eq_true_eq] at hedge
    exact ⟨edge, hedge.1, htarget, hid, hrel, source, hp.states _ hedge.2.2.1 ▸ hsource, hholds⟩
  · rintro ⟨edge, hedge, htarget, hid, hrel, source, hsource, hholds⟩
    have hrule : (Registry.builtin (α := α)).get? edge.relation = some (.builtin .achieves) := by
      rw [hrel]
      exact Registry.get?_builtin_name _
    have hseated := hp.seated _ (OrderedMap.mem_keys_iff.2 ⟨source, hsource⟩)
    rw [← htarget] at ht
    have hmem := (hS.closed edge hedge _ hrule hseated (hS.known _ ht)).1 ht
    refine ⟨edge, ?_, htarget, hid, hrel, source, (hp.states _ hmem).trans hsource, hholds⟩
    simp [Registry.within, Registry.has, hrule, Edge.isWithin, hedge, hmem, ht]

theorem Setting.change?_within (hp : whole.Alongside S nodes part) {h : Hop α × Rule α}
    (hh : h ∈ (known config nodes edges).hops) (hin : h.1.edge.isWithin S = true) :
    (knownWithin S config nodes edges).change? part.states h =
      (known config nodes edges).change? whole.states h := by
  obtain ⟨hop, rule⟩ := h
  obtain ⟨r, rfl, -⟩ := rule_of_mem_hops rfl hh
  obtain ⟨hsource, htarget⟩ := Edge.isWithin_iff.1 hin
  have hnode : ∀ id ∈ S, (Snapshot.nodeMap (nodes.filter fun n => n.id ∈ S)).get? id =
      (Snapshot.nodeMap nodes).get? id := by
    intro id hid
    rw [Snapshot.nodeMap_filter (fun id => id ∈ S), OrderedMap.get?_restrict,
      if_pos (by simpa using hid)]
  have hwhole : (known config nodes edges).graph = .ofLists nodes edges := rfl
  have hpart : (knownWithin S config nodes edges).graph =
    .ofLists (nodes.filter fun n => n.id ∈ S) (Registry.builtin.within S edges) := rfl
  exact change?_congr hwhole hpart rfl (hnode _ hsource) (hnode _ htarget) (hp.states _ hsource)
    (hp.states _ htarget) fun _ _ _ _ => achievedOtherwise_within hS hp htarget

theorem Setting.change?_outside {t : Table α} {h : Hop α × Rule α}
    (hh : h ∈ (known config nodes edges).hops) (hout : h.1.edge.isWithin S = false)
    {c : Change α} (hc : (known config nodes edges).change? t h = some c) :
    c.event.target ∉ S := by
  intro ht
  rw [change?_target hc] at ht
  have hgraph : (known config nodes edges).graph = .ofLists nodes edges := rfl
  have hends := ends_of_change hgraph hc
  have hs := hS.source_mem hh hends.1 hends.2 ht
  rw [Edge.isWithin_iff.2 ⟨hs, ht⟩] at hout
  cases hout

theorem Setting.foldl_readOne_alongside {hops : List (Hop α × Rule α)}
    (hhops : ∀ h ∈ hops, h ∈ (known config nodes edges).hops) {p p' : Progress α}
    (hp : p.ledger.Alongside S nodes p'.ledger) (hchanged : p'.changed = true → p.changed = true) :
    let q := hops.foldl (known config nodes edges).readOne p
    let q' := (hops.filter fun h => h.1.edge.isWithin S).foldl
      (knownWithin S config nodes edges).readOne p'
    q.ledger.Alongside S nodes q'.ledger ∧ (q'.changed = true → q.changed = true) := by
  induction hops generalizing p p' with
  | nil => exact ⟨hp, hchanged⟩
  | cons h rest ih =>
    have hh := hhops h List.mem_cons_self
    have hrest := fun h' hh' => hhops h' (List.mem_cons_of_mem h hh')
    rw [List.foldl_cons, List.filter_cons]
    by_cases hin : h.1.edge.isWithin S = true
    · have hsame := change?_within hS hp hh hin
      rw [if_pos hin, List.foldl_cons]
      cases hc : (known config nodes edges).change? p.ledger.states h with
      | none =>
        rw [readOne_of_none hc, readOne_of_none (hsame.trans hc)]
        exact ih hrest hp hchanged
      | some c =>
        rw [readOne_of_some hc, readOne_of_some (hsame.trans hc)]
        refine ih hrest (hp.write_inside (write_keys hc) ?_) fun _ => rfl
        rw [change?_target hc]
        exact (Edge.isWithin_iff.1 hin).2
    · rw [if_neg hin]
      cases hc : (known config nodes edges).change? p.ledger.states h with
      | none =>
        rw [readOne_of_none hc]
        exact ih hrest hp hchanged
      | some c =>
        rw [readOne_of_some hc]
        exact ih hrest (hp.write_outside (write_keys hc)
          (change?_outside hS hh (by simpa using hin) hc)) fun _ => rfl

theorem Setting.fullPass_alongside (hp : whole.Alongside S nodes part) :
    let pass := (known config nodes edges).fullPass whole
    let pass' := (knownWithin S config nodes edges).fullPass part
    pass.1.Alongside S nodes pass'.1 ∧ (pass'.2 = true → pass.2 = true) := by
  simp only [fullPass, read, hops_knownWithin]
  exact foldl_readOne_alongside hS (fun _ hh => hh) (p := ⟨whole, false, []⟩) hp (by simp)

theorem Setting.settle_within (config : Config α) (cap : Nat)
    (hp : whole.Alongside S nodes part) :
    (settle (known config nodes edges).fullPass cap whole).ledger.Alongside S nodes
      (settle (knownWithin S config nodes edges).fullPass cap part).ledger :=
  settle_alongside (fun _ _ => fullPass_alongside hS)
    (fun _ hl => (fullPass_quiet (Prod.ext rfl hl)).1) cap hp

end

theorem Table.seed_within {config : Config α} {overrides : Overrides α} {S : Finset String}
    {ns : List (Node α)} {whole part t : Table α} (hpart : ∀ id ∈ S, part.get? id = whole.get? id)
    (h : Table.seed config overrides ns whole = (t, none)) :
    ∃ t', Table.seed config (overrides.restrict fun id => id ∈ S)
        (ns.filter fun n => n.id ∈ S) part = (t', none) ∧ ∀ id ∈ S, t'.get? id = t.get? id := by
  induction ns generalizing whole part with
  | nil =>
    obtain ⟨rfl, -⟩ := Prod.mk.inj h
    exact ⟨part, rfl, hpart⟩
  | cons n rest ih =>
    rw [Table.seed] at h
    cases hn : n.seedFrom config overrides with
    | error r => rw [hn] at h; cases h
    | ok state =>
      rw [hn] at h
      rw [List.filter_cons]
      by_cases hin : n.id ∈ S
      · have hsame : n.seedFrom config (overrides.restrict fun id => id ∈ S) = .ok state := by
          rw [← hn, Node.seedFrom, Node.seedFrom, OrderedMap.get?_restrict,
            if_pos (by simpa using hin)]
        rw [if_pos (by simpa using hin), Table.seed, hsame]
        refine ih (fun id hid => ?_) h
        rw [OrderedMap.get?_insert, OrderedMap.get?_insert, hpart id hid]
      · rw [if_neg (by simpa using hin)]
        refine ih (fun id hid => ?_) h
        have hne : n.id ≠ id := fun heq => hin (heq ▸ hid)
        rw [OrderedMap.get?_insert, if_neg hne, hpart id hid]

namespace Engine

theorem seed_within {e seeded : Engine α} {nodes : List (Node α)} {overrides : Overrides α}
    (S : Finset String) (h : e.seed (Snapshot.nodeMap nodes) overrides = (seeded, none)) :
    ∃ seeded', e.seed (Snapshot.nodeMap (nodes.filter fun n => n.id ∈ S))
        (overrides.restrict fun id => id ∈ S) = (seeded', none) ∧
      seeded.ledger.Alongside S nodes seeded'.ledger := by
  have hkeys : ∀ id, id ∈ seeded.ledger.states.keys → id ∈ nodes.map Node.id :=
    fun _ => (mem_keys_seed h).1
  rw [seed_eq] at h
  rcases hwhole : Table.seed e.config overrides (Snapshot.nodeMap nodes).values ∅ with ⟨t, stop⟩
  rw [hwhole] at h
  obtain ⟨rfl, rfl⟩ := Prod.mk.inj h
  obtain ⟨t', hpart, hstates⟩ := Table.seed_within (S := S) (fun _ _ => rfl) hwhole
  rw [seed_eq, Snapshot.nodeMap_filter (fun id => id ∈ S), Snapshot.values_restrict_nodeMap, hpart]
  exact ⟨_, rfl, hkeys, hstates, rfl⟩

/-- What a run does to a secluded set, a run over the set alone does: the same states, and the
same events in the same order. -/
theorem run_within {e : Engine α} (hregistry : e.registry = .builtin) {nodes : List (Node α)}
    {edges : List (Edge α)} {overrides : Overrides α} {S : Finset String}
    (hS : e.registry.Secludes nodes edges S) {r : Result α}
    (hrun : (e.run nodes edges overrides).2 = .ok r) :
    ∃ r', (e.run (nodes.filter fun n => n.id ∈ S) (e.registry.within S edges)
        (overrides.restrict fun id => id ∈ S)).2 = .ok r' ∧
      (∀ id ∈ S, r'.states.get? id = r.states.get? id) ∧
      r'.events = r.events.filter (·.target ∈ S) := by
  rw [hregistry] at hS ⊢
  obtain ⟨seeded, hseed, rfl⟩ := run_ok hrun
  obtain ⟨part, hpart, hseeded⟩ := seed_within S hseed
  obtain ⟨hconfig, hpartRegistry⟩ := seed_setting hpart
  have hwhole : e.setting (.ofLists nodes edges) = Setting.known e.config nodes edges := by
    rw [setting, hregistry]
    rfl
  have hinside : part.setting (.ofLists (nodes.filter fun n => n.id ∈ S)
      (Registry.builtin.within S edges)) = Setting.knownWithin S e.config nodes edges := by
    rw [setting, hconfig, hpartRegistry, hregistry]
    rfl
  have hnoted := noteCycles_alongside hseeded (.ofLists nodes edges)
    (.ofLists (nodes.filter fun n => n.id ∈ S) (Registry.builtin.within S edges))
  have hsettled := Setting.settle_within hS e.config e.config.passes hnoted
  rw [run_of_seeded hpart, hwhole]
  simp only [hinside, hconfig]
  exact ⟨_, rfl, hsettled.states, hsettled.events⟩

theorem run_within_upstream :
    let e : Engine Float := .new .standard .builtin
    let nodes : List (Node Float) :=
      [⟨"rain", .fact, "", 90.0⟩, ⟨"wet", .conclusion, "", 50.0⟩, ⟨"slip", .conclusion, "", 50.0⟩]
    let edges : List (Edge Float) :=
      [⟨"rw", "rain", "wet", "achieves", 1.0⟩, ⟨"ws", "wet", "slip", "supports", 1.0⟩]
    let S : Finset String := {"rain", "wet"}
    e.registry.Secludes nodes edges S ∧ ∃ r r', (e.run nodes edges ∅).2 = .ok r ∧
      r.events.length = 3 ∧ (e.run (nodes.filter fun n => n.id ∈ S) (e.registry.within S edges)
        ((∅ : Overrides Float).restrict fun id => id ∈ S)).2 = .ok r' ∧
      (∀ id ∈ S, r'.states.get? id = r.states.get? id) ∧
      r'.events = r.events.filter (·.target ∈ S) := by
  intro e nodes edges S
  have hS : e.registry.Secludes nodes edges S := by
    refine ⟨by decide, fun edge hedge rule hrule _ _ => ?_⟩
    rcases List.mem_pair.1 hedge with rfl | rfl
    · exact ⟨by decide, fun _ => by decide⟩
    · obtain rfl : Rule.builtin .supports = rule :=
        Option.some.inj ((Registry.get?_builtin_name .supports).symm.trans hrule)
      exact ⟨by decide, by decide⟩
  have hcall : ∃ r, (e.run nodes edges ∅).2 = .ok r ∧ r.events.length = 3 :=
    ⟨_, rfl, by decide +kernel⟩
  obtain ⟨r, hrun, hlength⟩ := hcall
  obtain ⟨r', hrun', hstates, hevents⟩ := run_within rfl hS hrun
  exact ⟨hS, r, r', hrun, hlength, hrun', hstates, hevents⟩

end Engine
end ReasonGraph
