import ReasonGraph.Proofs.Linearity
import ReasonGraph.Proofs.Passes
import ReasonGraph.Proofs.Rewriting

/-! Which end of a mutual conflict comes first. Such an edge is read forwards and then backwards, and
the second reading sees what the first one wrote. What it makes of that is what it would have made of
the states before: each of two statements that both hold has the other as its partner and the lower
of the two confidences, whichever of them was put in conflict first. So an edge that is written the
other way round makes the same two changes in the other order, and a run ends as it would have. -/

namespace ReasonGraph
variable {α : Type}

def Edge.swapped (e : Edge α) : Edge α := { e with source := e.target, target := e.source }

/-- What an edge may be replaced with: itself or, if it is a mutual conflict, the edge written the other
way round. -/
def Edge.Reorients (e e' : Edge α) : Prop :=
  e' = e ∨ e.relation = Relation.conflicts.name ∧ e' = e.swapped

theorem Edge.swapped_of_loop {e : Edge α} (h : e.source = e.target) : e.swapped = e := by
  obtain ⟨id, source, target, relation, strength⟩ := e
  cases h
  rfl

namespace Event

def mute (ev : Event α) : Event α := { ev with reason := "" }

def flip (turned : Bool) (ev : Event α) : Event α := { ev with reversed := ev.reversed ^^ turned }

end Event

namespace Hop

def back (h : Hop α) : Hop α := ⟨h.edge, !h.reversed⟩

def swapped (h : Hop α) : Hop α := ⟨h.edge.swapped, !h.reversed⟩

@[simp] theorem source_back (h : Hop α) : h.back.source = h.target := by
  obtain ⟨edge, reversed⟩ := h
  cases reversed <;> rfl

@[simp] theorem target_back (h : Hop α) : h.back.target = h.source := by
  obtain ⟨edge, reversed⟩ := h
  cases reversed <;> rfl

@[simp] theorem source_swapped (h : Hop α) : h.swapped.source = h.source := by
  obtain ⟨edge, reversed⟩ := h
  cases reversed <;> rfl

@[simp] theorem target_swapped (h : Hop α) : h.swapped.target = h.target := by
  obtain ⟨edge, reversed⟩ := h
  cases reversed <;> rfl

end Hop

def Evidence.back (e : Evidence α) : Evidence α :=
  { e with
    sourceNode := e.targetNode
    source := e.target
    targetNode := e.sourceNode
    target := e.source
    reversed := !e.reversed }

namespace Hop
variable {h : Hop α} {config : Config α} {g : Snapshot α} {t : Table α} {e : Evidence α}

theorem evidence?_back (he : h.evidence? config g t = some e) :
    h.back.evidence? config g t = some e.back := by
  obtain ⟨_, _, _, _, hsourceNode, htargetNode, hsource, htarget, rfl⟩ := evidence?_eq_some he
  simp only [evidence?, source_back, target_back, hsourceNode, htargetNode, hsource, htarget]
  rfl

theorem evidence?_back_insert (he : h.evidence? config g t = some e) (hends : h.source ≠ h.target)
    (written : NodeState α) : h.back.evidence? config g (t.insert h.target written) =
      some { e.back with source := written, states := t.insert h.target written } := by
  obtain ⟨_, _, source, _, hsourceNode, htargetNode, hsource, -, rfl⟩ := evidence?_eq_some he
  have hkept : OrderedMap.get? (t.insert h.target written) h.source = some source := by
    rw [OrderedMap.get?_insert, if_neg (Ne.symm hends), hsource]
  simp only [evidence?, source_back, target_back, hsourceNode, htargetNode, hkept,
    OrderedMap.get?_insert_self]
  rfl

end Hop

variable [Quantity α]

def Proposal.clamped (p : Proposal α) : Proposal α :=
  { p with confidence := Quantity.clamp p.confidence }

/-- Where mutual conflict implies something one way, it implies the other way what it would have
implied before that was written. -/
theorem Rule.mutualConflict_undisturbed [Quantity.IsLinear α] {e : Evidence α}
    (hsource : Quantity.InRange e.source.confidence) (htarget : Quantity.InRange e.target.confidence)
    {p : Proposal α} (hp : floored mutualConflict e = some p) {written : NodeState α}
    (hlogic : written.logic = p.logic) (hconfidence : written.confidence = Quantity.clamp p.confidence)
    (hpartners : written.partners = p.writtenPartners) (states : Table α) :
    (floored mutualConflict { e.back with source := written, states }).map Proposal.clamped =
      (floored mutualConflict e.back).map Proposal.clamped := by
  obtain ⟨hfloor, hp⟩ := floored_eq_some hp
  -- of the three pairs of verdicts for which the rule speaks, only two that hold let it answer back
  cases hs : e.source.logic <;> cases ht : e.target.logic <;>
    simp [mutualConflict, standsAgainst, Evidence.contest, Evidence.propose, hs, ht] at hp
  case holds.holds =>
    obtain rfl := hp
    have hsame : Quantity.clamp (Quantity.least written.confidence e.source.confidence) =
        Quantity.clamp (Quantity.least e.target.confidence e.source.confidence) := by
      rw [hconfidence]
      exact Quantity.clamp_least hsource htarget
    have hsilent : written.confidence < e.config.floor ↔ e.target.confidence < e.config.floor := by
      rw [hconfidence]
      exact Quantity.clamp_least_lt_iff hsource htarget hfloor
    have hagainst : written.partners = some [e.sourceNode.id] := hpartners
    by_cases hquiet : e.target.confidence < e.config.floor
    · simp [floored, Evidence.back, hsilent, hquiet]
    · simp [floored, Evidence.back, hsilent, hquiet, mutualConflict, standsAgainst, Evidence.contest,
        Evidence.drivers, Evidence.sourceLabel, Evidence.targetLabel, Proposal.clamped, hs, ht,
        hlogic, hagainst, hsame]
  case holds.unknown =>
    obtain rfl := hp
    simp [floored, mutualConflict, standsAgainst, Evidence.back, hs, ht, hlogic]
  case conflict.holds => simp [floored, mutualConflict, Evidence.back, hs]

namespace Proposal

theorem isQuiet_clamped [Quantity.IsLinear α] (p : Proposal α) (target : NodeState α) :
    p.clamped.isQuiet target = p.isQuiet target := by
  rw [isQuiet, clamped, Quantity.clamp_clamp]
  rfl

theorem change_clamped [Quantity.IsLinear α] (p : Proposal α) (h : Hop α) (target : NodeState α) :
    p.clamped.change h target = p.change h target := by
  simp only [change, clamped, Quantity.clamp_clamp]
  rfl

end Proposal

theorem Hop.change?_eq_bind [Quantity.IsLinear α] {h : Hop α} {rule : Rule α} {config : Config α}
    {g : Snapshot α} {t : Table α} {e : Evidence α} (he : h.evidence? config g t = some e) :
    h.change? rule config g t = ((rule.propagate e).map Proposal.clamped).bind fun p =>
      if p.isUnwanted config || p.isQuiet e.target then none else some (p.change h e.target) := by
  simp only [change?, he, Option.bind_eq_bind, Option.bind_some]
  cases rule.propagate e with
  | none => rfl
  | some p =>
    simp only [Option.map_some, Option.bind_some, Proposal.isQuiet_clamped, Proposal.change_clamped]
    rfl

structure Change.Echoes (c c' : Change α) : Prop where
  entry : c'.entry = c.entry
  event : c'.event.mute = (c.event.flip true).mute

namespace Setting
variable {s s' : Setting α}

theorem change?_undisturbed [Quantity.IsLinear α] {t : Table α} (ht : t.InRange) {h : Hop α}
    (hends : h.source ≠ h.target) {c : Change α}
    (hc : s.change? t (h, .builtin .conflicts) = some c) :
    s.change? (t.insert c.event.target c.entry) (h.back, .builtin .conflicts) =
      s.change? t (h.back, .builtin .conflicts) := by
  obtain ⟨e, p, he, hp, -, -, rfl⟩ := Hop.change?_eq_some hc
  obtain ⟨hsource, htarget, -⟩ := Hop.evidence?_shows he
  have hsame : ((Rule.builtin .conflicts).propagate { e.back with
        source := (p.change h e.target).entry
        states := t.insert h.target (p.change h e.target).entry }).map Proposal.clamped =
      ((Rule.builtin .conflicts).propagate e.back).map Proposal.clamped :=
    Rule.mutualConflict_undisturbed (ht _ _ hsource) (ht _ _ htarget) hp rfl rfl rfl _
  rw [Proposal.change_target, change?, change?,
    Hop.change?_eq_bind (Hop.evidence?_back_insert he hends _),
    Hop.change?_eq_bind (Hop.evidence?_back he), hsame]

theorem change?_swapped {nodes : List (Node α)} {edges edges' : List (Edge α)}
    (hs : s.Rewrites Edge.Reorients nodes edges edges' s') (t : Table α) (h : Hop α) :
    Option.Rel Change.Echoes (s.change? t (h, .builtin .conflicts))
      (s'.change? t (h.swapped, .builtin .conflicts)) := by
  have hseen : h.swapped.evidence? s'.config s'.graph t =
      (h.evidence? s.config s.graph t).map fun e => { e with
        edge := h.edge.swapped
        edges := s'.graph.edges
        incoming := s'.graph.incoming
        reversed := !h.reversed } := by
    simp only [Hop.evidence?, Hop.source_swapped, Hop.target_swapped, hs.nodes_eq, hs.config]
    cases s.graph.nodes.get? h.source <;> cases s.graph.nodes.get? h.target <;>
      cases t.get? h.source <;> cases t.get? h.target <;> rfl
  simp only [change?, Hop.change?, hseen]
  cases h.evidence? s.config s.graph t with
  | none => exact .none
  | some e =>
    have hsame : (Rule.builtin .conflicts).propagate { e with
        edge := h.edge.swapped
        edges := s'.graph.edges
        incoming := s'.graph.incoming
        reversed := !h.reversed } = (Rule.builtin .conflicts).propagate e := rfl
    simp only [Option.map_some, Option.bind_eq_bind, Option.bind_some, hsame, hs.config]
    cases (Rule.builtin .conflicts).propagate e with
    | none => exact .none
    | some p =>
      simp only [Option.bind_some]
      split
      · exact .none
      · refine .some ⟨rfl, ?_⟩
        simp only [Proposal.change, Event.mute, Event.flip, Hop.source_swapped, Hop.target_swapped]
        simp [Hop.swapped, Edge.swapped]

theorem writeAll_inRange [Quantity.IsOrdered α] (s : Setting α) {t : Table α} (ht : t.InRange)
    (hops : List (Hop α × Rule α)) : (t.writeAll (s.changes t hops)).InRange := by
  have hafter := s.after_inRange (l := ⟨t, [], [], []⟩) ht hops
  rwa [(s.after_changes _ hops).1] at hafter

/-- What is logged when edges are read one after another, edge by edge. -/
def edgewise (s : Setting α) : Table α → List (Edge α) → List (Edge α × List (Event α))
  | _, [] => []
  | t, e :: rest =>
    let changes := s.changes t (s.registry.readings e)
    (e, changes.map Change.event) :: s.edgewise (t.writeAll changes) rest

theorem edgewise_events (s : Setting α) (t : Table α) (edges : List (Edge α)) :
    (s.edgewise t edges).flatMap Prod.snd =
      (s.changes t (edges.flatMap s.registry.readings)).map Change.event := by
  induction edges generalizing t with
  | nil => rfl
  | cons e rest ih =>
    rw [edgewise, List.flatMap_cons, List.flatMap_cons, changes_append, List.map_append, ih]

theorem changes_both [Quantity.IsLinear α] {t : Table α} (ht : t.InRange) {h : Hop α}
    (hends : h.source ≠ h.target) :
    s.changes t [(h, .builtin .conflicts), (h.back, .builtin .conflicts)] =
      (s.change? t (h, .builtin .conflicts)).toList ++
        (s.change? t (h.back, .builtin .conflicts)).toList := by
  simp only [changes, List.append_nil]
  cases hc : s.change? t (h, .builtin .conflicts) with
  | none => rfl
  | some c =>
    refine congrArg (fun second : Option (Change α) => [c] ++ second.toList) ?_
    exact change?_undisturbed ht hends hc

end Setting

/-- What is logged when an edge is read, and what is logged when it is written as another one: the
same in some order, but for the reasons and, where the ends were exchanged, the direction. -/
def Edge.Echoes (e e' : Edge α) (log log' : List (Event α)) : Prop :=
  (log'.map Event.mute).Perm (log.map fun ev => (ev.flip (e.source ≠ e'.source)).mute)

def Edge.EchoesAll (log log' : List (Edge α × List (Event α))) : Prop :=
  List.Forall₂ (fun block block' => block.1.Echoes block'.1 block.2 block'.2) log log'

omit [Quantity α] in
theorem Edge.EchoesAll.length_eq {log log' : List (Edge α × List (Event α))}
    (h : EchoesAll log log') : (log'.flatMap Prod.snd).length = (log.flatMap Prod.snd).length := by
  induction h with
  | nil => rfl
  | cons hfirst _ ih =>
    have hlength := List.Perm.length_eq hfirst
    rw [List.length_map, List.length_map] at hlength
    rw [List.flatMap_cons, List.flatMap_cons, List.length_append, List.length_append, hlength, ih]

omit [Quantity α] in
theorem Table.writeAll_echoes {t : Table α} {c c' d d' : Option (Change α)}
    (hc : Option.Rel Change.Echoes c c') (hd : Option.Rel Change.Echoes d d')
    (hkeys : ∀ x ∈ c, x.event.target ∈ t.keys)
    (hends : ∀ x ∈ c, ∀ y ∈ d, x.event.target ≠ y.event.target) :
    t.writeAll (d'.toList ++ c'.toList) = t.writeAll (c.toList ++ d.toList) ∧
      ((d'.toList ++ c'.toList).map fun x => x.event.mute).Perm
        ((c.toList ++ d.toList).map fun x => (x.event.flip true).mute) := by
  have hwritten : ∀ {x x' : Option (Change α)}, Option.Rel Change.Echoes x x' → ∀ t : Table α,
      t.writeAll x'.toList = t.writeAll x.toList := by
    intro x x' hx t
    cases hx with
    | none => rfl
    | some hecho =>
      have htarget := congrArg Event.target hecho.event
      simp only [Event.mute, Event.flip] at htarget
      simp [writeAll, hecho.entry, htarget]
  have hlogged : ∀ {x x' : Option (Change α)}, Option.Rel Change.Echoes x x' →
      (x'.toList.map fun x => x.event.mute) = x.toList.map fun x => (x.event.flip true).mute := by
    intro x x' hx
    cases hx with
    | none => rfl
    | some hecho => exact congrArg (fun ev => [ev]) hecho.event
  constructor
  · rw [writeAll_append, hwritten hd, hwritten hc, writeAll_append]
    cases c with
    | none => rfl
    | some x =>
      cases d with
      | none => rfl
      | some y => exact OrderedMap.insert_comm (hends x rfl y rfl) (hkeys x rfl) _ _
  · rw [List.map_append, List.map_append, hlogged hc, hlogged hd]
    exact List.perm_append_comm

namespace Setting.Rewrites
variable {s s' : Setting α} {nodes : List (Node α)} {edges edges' : List (Edge α)}
  (hs : s.Rewrites Edge.Reorients nodes edges edges' s')
include hs

theorem changes_kept {t : Table α} {hops : List (Hop α × Rule α)}
    (hhops : ∀ h ∈ hops, ∃ r, h.2 = Rule.builtin r) : s'.changes t hops = s.changes t hops := by
  induction hops generalizing t with
  | nil => rfl
  | cons h rest ih =>
    obtain ⟨hop, rule⟩ := h
    obtain ⟨r, rfl⟩ := hhops _ List.mem_cons_self
    have hsame : s'.change? t (hop, .builtin r) = s.change? t (hop, .builtin r) := by
      refine hs.agree ?_ hop r t
      -- no mutual conflict achieves anything
      rintro t h e _ (rfl | ⟨hrel, rfl⟩)
      · rfl
      · simp [Table.achievedOtherwise, Edge.swapped, hrel, Relation.name]
    simp only [changes, hsame]
    rw [ih fun h hh => hhops h (List.mem_cons_of_mem _ hh)]

theorem readings_kept (e : Edge α) (t : Table α) :
    s'.changes t (s'.registry.readings e) = s.changes t (s.registry.readings e) := by
  rw [hs.registry, hs.registry']
  refine hs.changes_kept fun h hh => ?_
  obtain ⟨hrule, -⟩ := Registry.mem_readings.1 hh
  obtain ⟨r, -, hbuiltin⟩ := Registry.get?_builtin.1 hrule
  exact ⟨r, hbuiltin⟩

variable [Quantity.IsLinear α] {t : Table α}

theorem readings_swapped {e : Edge α} (hrel : e.relation = Relation.conflicts.name)
    (hends : e.source ≠ e.target) (ht : t.InRange) :
    let changes := s.changes t (s.registry.readings e)
    let changes' := s'.changes t (s'.registry.readings e.swapped)
    t.writeAll changes' = t.writeAll changes ∧
      (changes'.map fun c => c.event.mute).Perm
        (changes.map fun c => (c.event.flip true).mute) := by
  intro changes changes'
  let h : Hop α := ⟨e, false⟩
  let forward := s.change? t (h, .builtin .conflicts)
  let backward := s.change? t (h.back, .builtin .conflicts)
  have hchanges : changes = forward.toList ++ backward.toList := by
    simp only [changes, hs.registry, Registry.readings_conflicts hrel]
    exact changes_both ht hends
  have hchanges' : changes' = (s'.change? t (h.back.swapped, .builtin .conflicts)).toList ++
      (s'.change? t (h.swapped, .builtin .conflicts)).toList := by
    have hrel' : e.swapped.relation = Relation.conflicts.name := hrel
    simp only [changes', hs.registry', Registry.readings_conflicts hrel']
    exact changes_both (h := h.back.swapped) ht (Ne.symm hends)
  have hkeys : ∀ c ∈ forward, c.event.target ∈ t.keys := by
    intro c hc
    obtain ⟨_, _, he, -, -, -, rfl⟩ := Hop.change?_eq_some hc
    exact OrderedMap.mem_keys_iff.2 ⟨_, (Hop.evidence?_shows he).2.1⟩
  have hapart : ∀ c ∈ forward, ∀ d ∈ backward, c.event.target ≠ d.event.target := by
    intro c hc d hd
    rw [change?_target hc, change?_target hd]
    exact Ne.symm hends
  rw [hchanges, hchanges']
  exact Table.writeAll_echoes (change?_swapped hs t h) (change?_swapped hs t h.back) hkeys hapart

theorem readings_reoriented {e e' : Edge α} (he : e.Reorients e') (ht : t.InRange) :
    let changes := s.changes t (s.registry.readings e)
    let changes' := s'.changes t (s'.registry.readings e')
    t.writeAll changes' = t.writeAll changes ∧
      e.Echoes e' (changes.map Change.event) (changes'.map Change.event) := by
  intro changes changes'
  have kept : e' = e → t.writeAll changes' = t.writeAll changes ∧
      e.Echoes e' (changes.map Change.event) (changes'.map Change.event) := by
    rintro rfl
    have hsame : changes' = changes := hs.readings_kept e' t
    rw [hsame]
    exact ⟨rfl, by simp [Edge.Echoes, Event.flip]⟩
  rcases he with hkept | ⟨hrel, hswapped⟩
  · exact kept hkept
  by_cases hends : e.source = e.target
  · exact kept (hswapped.trans (Edge.swapped_of_loop hends))
  subst hswapped
  obtain ⟨hwritten, hlogged⟩ := hs.readings_swapped hrel hends ht
  have hturned : decide (e.source ≠ e.swapped.source) = true := decide_eq_true hends
  refine ⟨hwritten, ?_⟩
  rw [Edge.Echoes, List.map_map, List.map_map, hturned]
  exact hlogged

theorem edgewise_reoriented {part part' : List (Edge α)} (hpart : List.Forall₂ Edge.Reorients part part')
    (ht : t.InRange) :
    t.writeAll (s'.changes t (part'.flatMap s'.registry.readings)) =
        t.writeAll (s.changes t (part.flatMap s.registry.readings)) ∧
      Edge.EchoesAll (s.edgewise t part) (s'.edgewise t part') := by
  induction hpart generalizing t with
  | nil => exact ⟨rfl, .nil⟩
  | @cons e e' rest rest' he _ ih =>
    obtain ⟨hstates, hechoes⟩ := hs.readings_reoriented he ht
    obtain ⟨hrest, hlater⟩ := ih (s.writeAll_inRange ht (s.registry.readings e))
    simp only [List.flatMap_cons, changes_append, Table.writeAll_append, edgewise, hstates]
    exact ⟨hrest, .cons hechoes hlater⟩

theorem fullPass_reoriented {l l' : Ledger α} (hstates : l'.states = l.states)
    (hl : l.states.InRange) :
    (s'.fullPass l').1.states = (s.fullPass l).1.states ∧
      (s'.fullPass l').2 = (s.fullPass l).2 := by
  have hhops : s.hops = edges.flatMap s.registry.readings := by
    rw [hops, hs.graph]
    rfl
  have hhops' : s'.hops = edges'.flatMap s'.registry.readings := by
    rw [hops, hs.graph']
    rfl
  obtain ⟨hleft, hechoes⟩ := hs.edgewise_reoriented hs.rewritten hl
  obtain ⟨hafter, hevents⟩ := s.after_changes l s.hops
  obtain ⟨hafter', hevents'⟩ := s'.after_changes l' s'.hops
  have hlogs := hechoes.length_eq
  have hlength : (s'.changes l.states s'.hops).length = (s.changes l.states s.hops).length := by
    rwa [edgewise_events, edgewise_events, List.length_map, List.length_map, ← hhops,
      ← hhops'] at hlogs
  constructor
  · rw [fullPass_ledger, fullPass_ledger, hafter, hafter', hhops, hhops', hstates, hleft]
  · rw [Bool.eq_iff_iff, fullPass_changed_iff, fullPass_changed_iff, fullPass_ledger,
      fullPass_ledger, hevents, hevents', hstates]
    simp [hlength]

theorem settle_reoriented {cap : Nat} {l l' : Ledger α} (hstates : l'.states = l.states)
    (hl : l.states.InRange) :
    let settled := settle s.fullPass cap l
    let settled' := settle s'.fullPass cap l'
    settled'.ledger.states = settled.ledger.states ∧ settled'.converged = settled.converged ∧
      settled'.iterations = settled.iterations := by
  intro settled settled'
  let R := fun now now' : Ledger α => now'.states = now.states ∧ now.states.InRange
  have hpass : ∀ now now', R now now' →
      R (s.fullPass now).1 (s'.fullPass now').1 ∧ (s'.fullPass now').2 = (s.fullPass now).2 := by
    intro now now' hnow
    obtain ⟨hnext, hchanged⟩ := hs.fullPass_reoriented hnow.1 hnow.2
    refine ⟨⟨hnext, ?_⟩, hchanged⟩
    rw [fullPass_ledger]
    exact s.after_inRange hnow.2 s.hops
  obtain ⟨hlast, hcounts⟩ := settle_tandem hpass cap (show R l l' from ⟨hstates, hl⟩)
  exact ⟨hlast.1, hcounts⟩

end Setting.Rewrites

omit [Quantity α] in
theorem forall₂_rounds {R : Edge α → Edge α → Prop} {edges edges' : List (Edge α)}
    (h : List.Forall₂ R edges edges') (n : Nat) :
    List.Forall₂ R (rounds n edges) (rounds n edges') := by
  induction n with
  | zero => exact .nil
  | succ n ih =>
    rw [rounds_succ, rounds_succ]
    exact List.rel_append h ih

namespace Engine

theorem run_edgewise {e : Engine α} {nodes : List (Node α)} {overrides : Overrides α}
    {seeds : Table α} (haccepted : (e.prepare nodes overrides).2 = .ok seeds)
    {edges : List (Edge α)} {r : Result α} (hrun : (e.run nodes edges overrides).2 = .ok r) :
    r.events = ((e.setting (.ofLists nodes edges)).edgewise seeds
      (rounds r.iterations edges)).flatMap Prod.snd := by
  let s := e.setting (.ofLists nodes edges)
  let l := e.start nodes edges overrides
  obtain rfl := result_of_run hrun
  have hhops : ∀ n, rounds n s.hops = (rounds n edges).flatMap s.registry.readings := by
    intro n
    rw [flatMap_rounds]
    rfl
  have hseeds : l.states = seeds := start_seeds haccepted edges
  have hleft : (settle s.fullPass e.config.passes l).ledger =
      s.after l (rounds (settle s.fullPass e.config.passes l).iterations s.hops) := by
    rw [settle_afterPasses, Setting.afterPasses_fullPass]
  have hevents := congrArg Ledger.events hleft
  rw [(s.after_changes l _).2, hhops, ← Setting.edgewise_events, hseeds, start_events,
    List.nil_append] at hevents
  exact hevents

/-- Which end of a mutual conflict comes first is of no account for a run. Any of the edges of such
relations may be written the other way round: the states are the same, the run converges or not as it
did, after as many passes, and edge by edge it logs the same events in some order, told of the other
direction where the ends of the edge were exchanged. -/
theorem run_reoriented [Quantity.IsLinear α] {e : Engine α} (hregistry : e.registry = .builtin)
    {nodes : List (Node α)} {edges edges' : List (Edge α)}
    (hedges : List.Forall₂ Edge.Reorients edges edges') {overrides : Overrides α}
    (hrange : Node.InRange nodes overrides) {seeds : Table α}
    (haccepted : (e.prepare nodes overrides).2 = .ok seeds) :
    ∃ r r', (e.run nodes edges overrides).2 = .ok r ∧ (e.run nodes edges' overrides).2 = .ok r' ∧
      r'.states = r.states ∧ r'.converged = r.converged ∧ r'.iterations = r.iterations ∧
      let log := (e.setting (.ofLists nodes edges)).edgewise seeds (rounds r.iterations edges)
      let log' := (e.setting (.ofLists nodes edges')).edgewise seeds (rounds r.iterations edges')
      r.events = log.flatMap Prod.snd ∧ r'.events = log'.flatMap Prod.snd ∧
        Edge.EchoesAll log log' := by
  let s := e.setting (.ofLists nodes edges)
  let s' := e.setting (.ofLists nodes edges')
  have hs : s.Rewrites Edge.Reorients nodes edges edges' s' :=
    ⟨rfl, rfl, rfl, hregistry, hregistry, hedges⟩
  have hseeds : seeds.InRange := prepare_given haccepted ▸ e.prepare_inRange hrange
  have hstart := start_seeds haccepted edges
  have hstart' := start_seeds haccepted edges'
  let settled := settle s.fullPass e.config.passes (e.start nodes edges overrides)
  let settled' := settle s'.fullPass e.config.passes (e.start nodes edges' overrides)
  obtain ⟨hstates, hconverged, hiterations⟩ : settled'.ledger.states = settled.ledger.states ∧
      settled'.converged = settled.converged ∧ settled'.iterations = settled.iterations :=
    hs.settle_reoriented (hstart'.trans hstart.symm) (hstart.symm ▸ hseeds)
  have hrun : (e.run nodes edges overrides).2 = .ok settled.result :=
    congrArg Prod.snd (run_of_accepted haccepted edges)
  have hrun' : (e.run nodes edges' overrides).2 = .ok settled'.result :=
    congrArg Prod.snd (run_of_accepted haccepted edges')
  have hevents' : settled'.result.events =
      (s'.edgewise seeds (rounds settled'.iterations edges')).flatMap Prod.snd :=
    run_edgewise haccepted hrun'
  rw [hiterations] at hevents'
  exact ⟨settled.result, settled'.result, hrun, hrun', hstates, hconverged, hiterations,
    run_edgewise haccepted hrun, hevents',
    (hs.edgewise_reoriented (forall₂_rounds hedges settled.iterations) hseeds).2⟩

theorem run_reoriented_pair :
    let e : Engine Float := .new .standard .builtin
    let nodes : List (Node Float) :=
      [⟨"a", .fact, "", 90.0⟩, ⟨"b", .fact, "", 85.0⟩, ⟨"c", .conclusion, "", 50.0⟩]
    let edge : Edge Float := ⟨"ab", "a", "b", "conflicts", 1.0⟩
    let dependency : Edge Float := ⟨"bc", "b", "c", "depends", 1.0⟩
    let read (r : Result Float) := r.events.map fun ev => (ev.target, ev.reversed)
    List.Forall₂ Edge.Reorients [edge, dependency] [edge.swapped, dependency] ∧
      Node.InRange nodes ∅ ∧
      ∃ r r', (e.run nodes [edge, dependency] ∅).2 = .ok r ∧
        (e.run nodes [edge.swapped, dependency] ∅).2 = .ok r' ∧
        read r = [("b", false), ("a", true), ("c", false)] ∧
        read r' = [("a", false), ("b", true), ("c", false)] ∧
        r'.states = r.states ∧ r'.converged = r.converged ∧ r'.iterations = r.iterations := by
  intro e nodes edge dependency read
  have hedges : List.Forall₂ Edge.Reorients [edge, dependency] [edge.swapped, dependency] :=
    .cons (.inr ⟨rfl, rfl⟩) (.cons (.inl rfl) .nil)
  have hrange : Node.InRange nodes ∅ := ⟨by decide +kernel, fun _ _ _ h => by cases h⟩
  have hcheck : (e.run nodes [edge, dependency] ∅).2.toOption.all
      (fun r => read r = [("b", false), ("a", true), ("c", false)]) = true := by decide +kernel
  have hcheck' : (e.run nodes [edge.swapped, dependency] ∅).2.toOption.all
      (fun r => read r = [("a", false), ("b", true), ("c", false)]) = true := by decide +kernel
  let seeds := (e.prepare nodes ∅).1.ledger.states
  have haccepted : (e.prepare nodes ∅).2 = .ok seeds := rfl
  obtain ⟨r, r', hrun, hrun', hstates, hconverged, hiterations, -⟩ :=
    run_reoriented rfl hedges hrange haccepted
  rw [hrun] at hcheck
  rw [hrun'] at hcheck'
  have hread : read r = [("b", false), ("a", true), ("c", false)] := by
    simpa [Except.toOption] using hcheck
  have hread' : read r' = [("a", false), ("b", true), ("c", false)] := by
    simpa [Except.toOption] using hcheck'
  exact ⟨hedges, hrange, r, r', hrun, hrun', hread, hread', hstates, hconverged, hiterations⟩

/-- A statement that excludes itself is read forwards either way, since its edge has no other way to be
written: exchanging the ends turns no event. -/
theorem swapped_loop_not_turned :
    let e : Engine Float := .new .standard .builtin
    let nodes : List (Node Float) := [⟨"a", .fact, "", 90.0⟩]
    let edge : Edge Float := ⟨"aa", "a", "a", "conflicts", 1.0⟩
    edge.relation = Relation.conflicts.name ∧
      ∃ r r', (e.run nodes [edge] ∅).2 = .ok r ∧ (e.run nodes [edge.swapped] ∅).2 = .ok r' ∧
        r.events.map (·.reversed) = [false] ∧ r'.events.map (·.reversed) = [false] ∧
        ¬(r'.events.map Event.mute).Perm (r.events.map fun ev => (ev.flip true).mute) := by
  intro e nodes edge
  have hrun : ∃ r, (e.run nodes [edge] ∅).2 = .ok r ∧ r.events.map (·.reversed) = [false] :=
    ⟨_, rfl, by decide +kernel⟩
  have hloop : edge.swapped = edge := rfl
  obtain ⟨r, hrun, hread⟩ := hrun
  refine ⟨rfl, r, r, hrun, hloop ▸ hrun, hread, hread, fun hperm => ?_⟩
  have hturned : (r.events.map Event.reversed).Perm ((r.events.map Event.reversed).map (!·)) := by
    have hflags := hperm.map Event.reversed
    simpa [Function.comp_def, Event.mute, Event.flip] using hflags
  rw [hread] at hturned
  exact absurd hturned (by decide)

end Engine
end ReasonGraph
