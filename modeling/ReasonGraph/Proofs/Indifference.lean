import ReasonGraph.Proofs.Passes
import ReasonGraph.Proofs.Standing

/-! Where numbers do not count. Along dependency, causation and mutual conflict the verdicts follow
from verdicts and conflict partners alone. What confidences, strengths and the decay can do is to
have a verdict that stands written once more, so a run may need more passes for them, but it reads
the same verdicts off the same edges. A ledger without its numbers is an outline, and on outlines a
run goes through a course of its own in which no number occurs. -/

namespace ReasonGraph
variable {α β : Type}

/-- A verdict and, in a conflict, with whom: what a state says besides numbers. -/
structure Ruling where
  logic : LogicState
  partners : Option (List String)
deriving DecidableEq

namespace Ruling

def plain (logic : LogicState) : Ruling := ⟨logic, none⟩

def contested (partners : List String) : Ruling := ⟨.conflict, some partners⟩

end Ruling

def NodeState.ruling (s : NodeState α) : Ruling := ⟨s.logic, s.partners⟩

def Table.ruling? (t : Table α) (id : String) : Option Ruling := (t.get? id).map NodeState.ruling

structure Arc where
  relation : String
  source : String
  target : String
deriving DecidableEq

def Edge.arc (e : Edge α) : Arc := ⟨e.relation, e.source, e.target⟩

structure Way where
  relation : String
  source : String
  target : String
  reversed : Bool

def Hop.way (h : Hop α) : Way := ⟨h.edge.relation, h.source, h.target, h.reversed⟩

def Arc.ways (a : Arc) : List Way :=
  match Relation.ofName? a.relation with
  | none => []
  | some r => ⟨a.relation, a.source, a.target, false⟩ ::
    if Rule.isMutual r then [⟨a.relation, a.target, a.source, true⟩] else []

namespace Relation

/-- The relations whose verdicts follow from verdicts. -/
def strict : List Relation := [depends, causes, conflicts]

def imposes? (w : Way) (source target : Ruling) : Relation → Option Ruling
  | .depends =>
    match source.logic, target.logic with
    | _, .conflict => none
    | .conflict, _ =>
      let inherited := source.partners.getD []
      some (.contested (if inherited.isEmpty then [w.source] else inherited))
    | .fails, .fails => none
    | .fails, _ => some (.plain .fails)
    | _, _ => none
  | .causes =>
    match w.reversed, source.logic, target.logic with
    | false, .holds, .fails => some (.contested [w.source])
    | false, .holds, .unknown => some (.plain .holds)
    | true, .fails, .holds => some (.contested [w.source])
    | true, .fails, .unknown => some (.plain .fails)
    | _, _, _ => none
  | .conflicts =>
    match source.logic, target.logic with
    | .holds, .holds => some (.contested [w.source])
    | .conflict, .holds =>
      if w.target ∈ source.partners.getD [] then some (.contested [w.source]) else none
    | .holds, .unknown => some (.plain .fails)
    | _, _ => none
  | _ => none

end Relation

/-- What a table and a list of conflicts say besides numbers. -/
structure Outline where
  rulings : String → Option Ruling
  conflicts : List (List String)

namespace Outline

def imposes? (detects : Bool) (o : Outline) (w : Way) : Option Ruling := do
  let r ← Relation.ofName? w.relation
  let source ← o.rulings w.source
  let target ← o.rulings w.target
  (r.imposes? w source target).filter fun c => c.logic ≠ .conflict || detects

def write (o : Outline) (id : String) (c : Ruling) : Outline where
  rulings := fun k => if id = k then some c else o.rulings k
  conflicts := o.conflicts ++ (c.partners.map (id :: ·)).toList

def read (detects : Bool) (o : Outline) (w : Way) : Outline :=
  match o.imposes? detects w with
  | none => o
  | some c => o.write w.target c

theorem write_same {o : Outline} {id : String} {logic : LogicState}
    (h : o.rulings id = some (.plain logic)) : o.write id (.plain logic) = o := by
  have hrulings : (fun k => if id = k then some (Ruling.plain logic) else o.rulings k) =
      o.rulings := by
    funext k
    split
    · rename_i hk
      rw [← hk, h]
    · rfl
  rw [write, hrulings]
  simp [Ruling.plain]

end Outline

def Ledger.outline (l : Ledger α) : Outline where
  rulings := l.states.ruling?
  conflicts := l.conflicts.map (·.nodes)

theorem Ledger.outline_imposes? {l : Ledger α} {h : Hop α} {r : Relation}
    (hrel : h.edge.relation = r.name) {a b : NodeState α} (ha : l.states.get? h.source = some a)
    (hb : l.states.get? h.target = some b) (detects : Bool) : l.outline.imposes? detects h.way =
      (r.imposes? h.way a.ruling b.ruling).filter fun c => c.logic ≠ .conflict || detects := by
  simp [Outline.imposes?, outline, Table.ruling?, Hop.way, hrel, Relation.ofName?_name, ha, hb]

namespace Proposal

def ruling (p : Proposal α) : Ruling := ⟨p.logic, p.writtenPartners⟩

variable {e : Evidence α} {logic : LogicState} {partners : List String} {confidence : α}
  {reason : String}

theorem map_ruling_propose (h : logic ≠ .conflict) :
    (e.propose logic confidence reason).map ruling = some (.plain logic) := by
  simp [Evidence.propose, ruling, writtenPartners, Ruling.plain, h]

theorem map_ruling_contest :
    (e.contest partners confidence reason).map ruling = some (.contested partners) := rfl

theorem filter_ruling (p : Proposal α) (config : Config α) :
    (some p.ruling).filter (fun c => c.logic ≠ .conflict || config.detectsConflicts) =
      if p.isUnwanted config then none else some p.ruling := by
  have hpassed : (decide (p.ruling.logic ≠ .conflict) || config.detectsConflicts) =
      !p.isUnwanted config := by
    by_cases h : p.logic = .conflict <;> simp [ruling, isUnwanted, h]
  rw [Option.filter_some, hpassed]
  cases p.isUnwanted config <;> rfl

end Proposal

theorem Relation.imposes?_moves {r : Relation} {w : Way} {a b c : Ruling}
    (h : r.imposes? w a b = some c) : c.logic ≠ b.logic := by
  cases r <;> cases hb : b.logic <;> cases ha : a.logic <;> cases hw : w.reversed <;>
    simp [imposes?, ha, hb, hw] at h
  all_goals first | simp [← h, Ruling.plain, Ruling.contested] | simp [← h.2, Ruling.contested]

variable [Quantity α] [Quantity β]

/-- Whatever the numbers, a strict rule proposes what its relation imposes, or else at most that
what holds holds. -/
theorem Rule.inference_ruling {r : Relation} (hr : r ∈ Relation.strict) {e : Evidence α} {w : Way}
    (hsource : w.source = e.sourceNode.id) (htarget : w.target = e.targetNode.id)
    (hway : w.reversed = e.reversed) :
    (inference r e).map Proposal.ruling = r.imposes? w e.source.ruling e.target.ruling ∨
      r.imposes? w e.source.ruling e.target.ruling = none ∧ e.target.logic = .holds ∧
        (inference r e).map Proposal.ruling = some (.plain .holds) := by
  cases r with
  | depends =>
    left
    cases hs : e.source.logic <;> cases ht : e.target.logic <;>
      simp [inference, dependency, Relation.imposes?, NodeState.ruling,
        Proposal.map_ruling_propose, Proposal.map_ruling_contest, hs, ht, hsource]
  | causes =>
    cases hr : e.reversed <;> cases hs : e.source.logic <;> cases ht : e.target.logic
    -- only here a number is asked: a cause may raise the confidence of an effect that holds
    case false.holds.holds =>
      let carried := e.carry (e.source.confidence * Strength.multiplier e.edge.strength)
      by_cases hraised : e.target.confidence < carried
      · right
        simp [inference, causation, effect, Relation.imposes?, NodeState.ruling,
          Proposal.map_ruling_propose, hway, hr, hs, ht, carried, hraised]
      · left
        simp [inference, causation, effect, Relation.imposes?, NodeState.ruling, hway, hr, hs, ht,
          carried, hraised]
    all_goals
      left
      simp [inference, causation, effect, contrapositive, Relation.imposes?, NodeState.ruling,
        Proposal.map_ruling_propose, Proposal.map_ruling_contest, hway, hr, hs, ht, hsource]
  | conflicts =>
    left
    cases hs : e.source.logic <;> cases ht : e.target.logic
    case conflict.holds =>
      by_cases hnamed : e.targetNode.id ∈ e.source.partners.getD [] <;>
        simp [inference, mutualConflict, standsAgainst, Relation.imposes?, NodeState.ruling,
          Proposal.map_ruling_contest, hs, ht, hsource, htarget, hnamed]
    all_goals
      simp [inference, mutualConflict, standsAgainst, Relation.imposes?, NodeState.ruling,
        Proposal.map_ruling_propose, Proposal.map_ruling_contest, hs, ht, hsource]
  | supports => simp [Relation.strict] at hr
  | achieves => simp [Relation.strict] at hr
  | hinders => simp [Relation.strict] at hr

structure Table.IsRegular (nodes : List (Node α)) (t : Table α) : Prop where
  seated : ∀ id, id ∈ t.keys ↔ id ∈ nodes.map Node.id
  inRange : t.InRange
  plain : ∀ id state, t.get? id = some state → state.logic ≠ .conflict → state.partners = none

theorem Setting.after_isRegular [Quantity.IsOrdered α] (s : Setting α) {nodes : List (Node α)}
    {l : Ledger α} (hl : l.states.IsRegular nodes) (hops : List (Hop α × Rule α)) :
    (s.after l hops).states.IsRegular nodes where
  seated := by
    rw [s.after_keys]
    exact hl.seated
  inRange := s.after_inRange hl.inRange hops
  plain := by
    refine s.after_induction (P := fun l => ∀ id state, l.states.get? id = some state →
      state.logic ≠ .conflict → state.partners = none) (fun l h _ c hl hc id state => ?_) hl.plain
    obtain ⟨e, p, -, -, -, -, rfl⟩ := Hop.change?_eq_some hc
    rw [Ledger.write_get?]
    split
    · rintro ⟨⟩ hlogic
      exact if_neg hlogic
    · exact hl id state

theorem Setting.outline_write {s : Setting α} {l : Ledger α} {h : Hop α × Rule α} {c : Change α}
    (hc : s.change? l.states h = some c) :
    (l.write c).outline = l.outline.write h.1.way.target c.entry.ruling := by
  obtain ⟨e, p, -, -, -, -, rfl⟩ := Hop.change?_eq_some hc
  have hrulings : (l.write (p.change h.1 e.target)).states.ruling? =
      fun id => if h.1.target = id then some p.ruling else l.states.ruling? id := by
    funext id
    rw [Table.ruling?, Ledger.write_get?, Proposal.change_target]
    split <;> rfl
  have hconflicts : (p.change h.1 e.target).conflict.toList.map (·.nodes) =
      (p.ruling.partners.map (h.1.target :: ·)).toList := by
    simp only [Proposal.change, Proposal.ruling]
    cases p.writtenPartners <;> rfl
  simp only [Ledger.outline, Outline.write, Ledger.write_conflicts, List.map_append, hconflicts,
    hrulings]
  rfl

theorem Ledger.imposes?_of_dangling {l : Ledger α} {nodes : List (Node α)}
    (hl : l.states.IsRegular nodes) {h : Hop α}
    (hends : ¬(h.source ∈ nodes.map Node.id ∧ h.target ∈ nodes.map Node.id)) (detects : Bool) :
    l.outline.imposes? detects h.way = none := by
  have hunseated : ∀ id, id ∉ nodes.map Node.id → l.outline.rulings id = none := by
    intro id hid
    have hmissing : l.states.get? id = none :=
      (OrderedMap.get?_eq_none_iff _ id).2 fun hkey => hid ((hl.seated id).1 hkey)
    simp [Ledger.outline, Table.ruling?, hmissing]
  have hmissing : l.outline.rulings h.way.source = none ∨ l.outline.rulings h.way.target = none :=
    (not_and_or.1 hends).imp (hunseated _) (hunseated _)
  cases hr : Relation.ofName? h.way.relation with
  | none => simp [Outline.imposes?, hr]
  | some r => rcases hmissing with hnone | hnone <;> simp [Outline.imposes?, hr, hnone]

namespace Setting.HearsAll
variable [Quantity.IsStrict α] {s : Setting α} {nodes : List (Node α)} {edges : List (Edge α)}
  {l : Ledger α}

theorem imposes?_of_quiet (hs : s.HearsAll Relation.strict nodes edges)
    (hl : l.states.IsRegular nodes) {h : Hop α × Rule α} (hh : h ∈ s.hops)
    (hquiet : s.change? l.states h = none) :
    l.outline.imposes? s.config.detectsConflicts h.1.way = none := by
  obtain ⟨hop, rule⟩ := h
  obtain ⟨-, r, hr, hrel, rfl, -⟩ := hs.rule hh
  by_cases hends : hop.source ∈ nodes.map Node.id ∧ hop.target ∈ nodes.map Node.id
  · obtain ⟨e, he, hsource, htarget, ha, hb, hway⟩ :=
      hop.exists_evidence s.config edges hl.seated hends.1 hends.2
    rw [← hs.graph] at he
    rw [Ledger.outline_imposes? hrel ha hb]
    rcases Rule.inference_ruling (w := hop.way) hr hsource.symm htarget.symm hway.symm with
      hsame | ⟨hnone, -⟩
    · rw [← hsame]
      cases hp : Rule.inference r e with
      | none => rfl
      | some p =>
        rw [hp] at hsame
        rw [Option.map_some, Proposal.filter_ruling, ite_eq_left_iff]
        intro hwanted
        have hmoves : e.target.logic ≠ p.logic := (Relation.imposes?_moves hsame.symm).symm
        have hchange := change?_of_moves he (hs.isHeard hl.inRange ha) hp
          (Bool.eq_false_iff.2 hwanted) hmoves
        rw [hquiet] at hchange
        cases hchange
    · rw [hnone]
      rfl
  · exact Ledger.imposes?_of_dangling hl hends _

omit [Quantity.IsStrict α] in
theorem imposes?_of_change (hs : s.HearsAll Relation.strict nodes edges)
    (hl : l.states.IsRegular nodes) {h : Hop α × Rule α} (hh : h ∈ s.hops) {c : Change α}
    (hc : s.change? l.states h = some c) :
    l.outline.imposes? s.config.detectsConflicts h.1.way = some c.entry.ruling ∨
      l.outline.imposes? s.config.detectsConflicts h.1.way = none ∧
        c.entry.ruling = .plain .holds ∧
        l.outline.rulings h.1.way.target = some (.plain .holds) := by
  obtain ⟨hop, rule⟩ := h
  obtain ⟨-, r, hr, hrel, rfl, -⟩ := hs.rule hh
  obtain ⟨hsourceMem, htargetMem⟩ := ends_of_change hs.graph hc
  obtain ⟨e, he, hsource, htarget, ha, hb, hway⟩ :=
    hop.exists_evidence s.config edges hl.seated hsourceMem htargetMem
  rw [← hs.graph] at he
  obtain ⟨p, hp, hwanted, rfl⟩ := inference_of_change he hc
  rw [Ledger.outline_imposes? hrel ha hb]
  rcases Rule.inference_ruling (w := hop.way) hr hsource.symm htarget.symm hway.symm with
    hsame | ⟨hnone, hholds, hstands⟩
  · left
    rw [← hsame, hp, Option.map_some, Proposal.filter_ruling, hwanted]
    rfl
  · right
    rw [hp, Option.map_some, Option.some.injEq] at hstands
    have hpartners := hl.plain _ _ hb (by simp [hholds])
    refine ⟨by rw [hnone]; rfl, hstands, ?_⟩
    simp [Ledger.outline, Table.ruling?, Hop.way, hb, NodeState.ruling, Ruling.plain, hholds,
      hpartners]

theorem outline_step (hs : s.HearsAll Relation.strict nodes edges) (hl : l.states.IsRegular nodes)
    {h : Hop α × Rule α} (hh : h ∈ s.hops) :
    (s.step l h).outline = l.outline.read s.config.detectsConflicts h.1.way := by
  rcases s.step_cases l h with ⟨hquiet, hstep⟩ | ⟨c, hc, hstep⟩
  · rw [hstep, Outline.read, hs.imposes?_of_quiet hl hh hquiet]
  · rw [hstep, outline_write hc, Outline.read]
    rcases hs.imposes?_of_change hl hh hc with himposed | ⟨hnone, hagain, hstood⟩
    · rw [himposed]
    · rw [hnone, hagain, Outline.write_same hstood]

theorem outline_after (hs : s.HearsAll Relation.strict nodes edges) (hl : l.states.IsRegular nodes)
    {hops : List (Hop α × Rule α)} (hhops : ∀ h ∈ hops, h ∈ s.hops) :
    (s.after l hops).outline =
      (hops.map (·.1.way)).foldl (Outline.read s.config.detectsConflicts) l.outline := by
  induction hops generalizing l with
  | nil => rfl
  | cons h rest ih =>
    have hstep := hs.outline_step hl (hhops h List.mem_cons_self)
    have hnext : (s.step l h).states.IsRegular nodes := s.after_isRegular hl [h]
    rw [after_cons, ih hnext fun h' hh' => hhops h' (List.mem_cons_of_mem h hh'), hstep]
    rfl

end Setting.HearsAll

theorem Registry.map_way_readings {edge : Edge α} {r : Relation} (hrel : edge.relation = r.name) :
    (Registry.builtin.readings edge).map (·.1.way) = edge.arc.ways := by
  have hmutual : (Rule.builtin r : Rule α).bidirectional = Rule.isMutual r := rfl
  simp only [readings, forward?, backward?, hrel, get?_builtin_name, Edge.arc, Arc.ways,
    Relation.ofName?_name]
  cases h : Rule.isMutual r <;> simp [Hop.way, hrel, hmutual, h]

theorem Setting.HearsAll.map_way_hops {s : Setting α} {relations : List Relation}
    {nodes : List (Node α)} {edges : List (Edge α)} (hs : s.HearsAll relations nodes edges) :
    s.hops.map (·.1.way) = (edges.map Edge.arc).flatMap Arc.ways := by
  have hhops : s.hops = edges.flatMap s.registry.readings := by
    rw [hops, hs.graph]
    rfl
  rw [hhops, List.map_flatMap, List.flatMap_map, List.flatMap_def, List.flatMap_def]
  refine congrArg List.flatten (List.map_congr_left fun edge hedge => ?_)
  obtain ⟨r, -, hrel⟩ := hs.relation edge hedge
  rw [hs.registry]
  exact Registry.map_way_readings hrel

namespace Engine

theorem start_isRegular {e : Engine α} {nodes : List (Node α)} {overrides : Overrides α}
    {seeds : Table α} (haccepted : (e.prepare nodes overrides).2 = .ok seeds)
    (hrange : Node.InRange nodes overrides) (edges : List (Edge α)) :
    (e.start nodes edges overrides).states.IsRegular nodes := by
  rw [start_states]
  exact ⟨fun id => mem_keys_prepare haccepted, e.prepare_inRange hrange,
    fun _ _ hstate _ => prepare_partners hstate⟩

theorem run_outline [Quantity.IsStrict α] {e : Engine α} (hregistry : e.registry = .builtin)
    (hfloor : e.config.floor = 0.0) {nodes : List (Node α)} {edges : List (Edge α)}
    (hrelation : ∀ edge ∈ edges, ∃ r ∈ Relation.strict, edge.relation = r.name)
    {overrides : Overrides α} (hrange : Node.InRange nodes overrides) {seeds : Table α}
    (haccepted : (e.prepare nodes overrides).2 = .ok seeds) :
    ∃ r, (e.run nodes edges overrides).2 = .ok r ∧
      ⟨r.states.ruling?, r.conflicts.map (·.nodes)⟩ =
        (rounds e.config.passes ((edges.map Edge.arc).flatMap Arc.ways)).foldl
          (Outline.read e.config.detectsConflicts)
          ⟨fun id => (seeds.get? id).map fun seed => .plain seed.logic, []⟩ := by
  have hs : (e.setting (.ofLists nodes edges)).HearsAll Relation.strict nodes edges :=
    ⟨rfl, hregistry, hfloor, hrelation⟩
  have hrun := congrArg Prod.snd (run_of_accepted haccepted edges)
  refine ⟨_, hrun, ?_⟩
  have hseeds : (e.start nodes edges overrides).outline =
      ⟨fun id => (seeds.get? id).map fun seed => .plain seed.logic, []⟩ := by
    have hrulings : (e.start nodes edges overrides).states.ruling? =
        fun id => (seeds.get? id).map fun seed => Ruling.plain seed.logic := by
      funext id
      rw [Table.ruling?, start_states, ← prepare_given haccepted]
      refine Option.map_congr fun state hstate => ?_
      rw [NodeState.ruling, prepare_partners hstate]
      rfl
    rw [Ledger.outline, hrulings, start_conflicts]
    rfl
  have houtline := hs.outline_after (start_isRegular haccepted hrange edges) fun _ hh =>
    mem_of_mem_rounds (n := e.config.passes) hh
  rw [← Setting.settle_fullPass_padded, map_rounds, hs.map_way_hops, hseeds] at houtline
  exact houtline

variable [Quantity.IsStrict α] [Quantity.IsStrict β]

/-- Along strict relations two runs that may take as many passes, seed the same verdicts and read the
same arcs end with the same verdicts, the same partners and the same conflicts on record, whatever
their confidences, strengths and decays, and however many passes each of them took. They need not
even compute with one kind of number. -/
theorem runs_agree {e : Engine α} {e' : Engine β} (hregistry : e.registry = .builtin)
    (hregistry' : e'.registry = .builtin) (hfloor : e.config.floor = 0.0)
    (hfloor' : e'.config.floor = 0.0) (hpasses : e.config.passes = e'.config.passes)
    (hdetects : e.config.detectsConflicts = e'.config.detectsConflicts)
    {nodes : List (Node α)} {nodes' : List (Node β)} {edges : List (Edge α)}
    {edges' : List (Edge β)} (harcs : edges.map Edge.arc = edges'.map Edge.arc)
    (hstrict : ∀ edge ∈ edges, ∃ r ∈ Relation.strict, edge.relation = r.name)
    {overrides : Overrides α} {overrides' : Overrides β} (hrange : Node.InRange nodes overrides)
    (hrange' : Node.InRange nodes' overrides') {seeds : Table α} {seeds' : Table β}
    (haccepted : (e.prepare nodes overrides).2 = .ok seeds)
    (haccepted' : (e'.prepare nodes' overrides').2 = .ok seeds')
    (hseeds : ∀ id, (seeds.get? id).map NodeState.logic = (seeds'.get? id).map NodeState.logic) :
    ∃ r r', (e.run nodes edges overrides).2 = .ok r ∧
      (e'.run nodes' edges' overrides').2 = .ok r' ∧
      (∀ id, r.states.ruling? id = r'.states.ruling? id) ∧
      r.conflicts.map (·.nodes) = r'.conflicts.map (·.nodes) := by
  have hstrict' : ∀ edge ∈ edges', ∃ r ∈ Relation.strict, edge.relation = r.name := by
    intro edge hedge
    have harc : edge.arc ∈ edges.map Edge.arc := harcs ▸ List.mem_map_of_mem hedge
    obtain ⟨other, hother, heq⟩ := List.mem_map.1 harc
    obtain ⟨r, hr, hrel⟩ := hstrict other hother
    exact ⟨r, hr, (congrArg Arc.relation heq).symm.trans hrel⟩
  have hplain : (fun id => (seeds.get? id).map fun seed => Ruling.plain seed.logic) =
      fun id => (seeds'.get? id).map fun seed => Ruling.plain seed.logic := by
    funext id
    have hseed := congrArg (Option.map Ruling.plain) (hseeds id)
    rwa [Option.map_map, Option.map_map] at hseed
  obtain ⟨r, hrun, houtline⟩ := run_outline hregistry hfloor hstrict hrange haccepted
  obtain ⟨r', hrun', houtline'⟩ := run_outline hregistry' hfloor' hstrict' hrange' haccepted'
  have hsame : (⟨r.states.ruling?, r.conflicts.map (·.nodes)⟩ : Outline) =
      ⟨r'.states.ruling?, r'.conflicts.map (·.nodes)⟩ := by
    rw [houtline, houtline', hpasses, harcs, hdetects, hplain]
  refine ⟨r, r', hrun, hrun', fun id => ?_, congrArg Outline.conflicts hsame⟩
  exact congrFun (congrArg Outline.rulings hsame) id

theorem runs_agree_loop :
    let e : Engine Float := .new .standard .builtin
    let e' : Engine Rat := .new { Config.standard with decay := 0.9 } .builtin
    let nodes : List (Node Float) := [⟨"a", .fact, "", 90.0⟩, ⟨"b", .fact, "", 85.0⟩,
      ⟨"c", .conclusion, "", 50.0⟩, ⟨"d", .goal, "", 80.0⟩]
    let nodes' : List (Node Rat) := [⟨"a", .fact, "", 80⟩, ⟨"b", .fact, "", 95⟩,
      ⟨"c", .conclusion, "", 40⟩, ⟨"d", .goal, "", 80⟩]
    let edges : List (Edge Float) := [⟨"bc", "b", "c", "depends", 1.0⟩,
      ⟨"ab", "a", "b", "conflicts", 1.0⟩, ⟨"dd", "d", "d", "causes", 1.0⟩]
    let edges' : List (Edge Rat) := [⟨"bc", "b", "c", "depends", 0.5⟩,
      ⟨"ab", "a", "b", "conflicts", 0.5⟩, ⟨"dd", "d", "d", "causes", 1.2⟩]
    ∃ r r', (e.run nodes edges ∅).2 = .ok r ∧ (e'.run nodes' edges' ∅).2 = .ok r' ∧
      r.iterations = 3 ∧ r'.iterations = 4 ∧
      r'.conflicts.map (·.nodes) = [["b", "a"], ["a", "b"], ["c", "a"]] ∧
      (∀ id, r.states.ruling? id = r'.states.ruling? id) ∧
      r.conflicts.map (·.nodes) = r'.conflicts.map (·.nodes) := by
  intro e e' nodes nodes' edges edges'
  have hcheck : (e.run nodes edges ∅).2.toOption.all (·.iterations = 3) = true := by
    decide +kernel
  have hcheck' : (e'.run nodes' edges' ∅).2.toOption.all (fun r => r.iterations = 4 ∧
      r.conflicts.map (·.nodes) = [["b", "a"], ["a", "b"], ["c", "a"]]) = true := by
    decide +kernel
  have hrange : Node.InRange nodes ∅ := ⟨by decide +kernel, fun _ _ _ h => by cases h⟩
  have hrange' : Node.InRange nodes' ∅ := ⟨by decide +kernel, fun _ _ _ h => by cases h⟩
  let seeds := (e.prepare nodes ∅).1.ledger.states
  let seeds' := (e'.prepare nodes' ∅).1.ledger.states
  have hseeds : ∀ id,
      (seeds.get? id).map NodeState.logic = (seeds'.get? id).map NodeState.logic := by
    have hlisted : seeds.entries.map (fun entry => (entry.1, entry.2.logic)) =
        seeds'.entries.map fun entry => (entry.1, entry.2.logic) := by decide +kernel
    intro id
    rw [OrderedMap.map_get?, OrderedMap.map_get?, hlisted]
  have hregistry : e.registry = .builtin := rfl
  have hregistry' : e'.registry = .builtin := rfl
  have harcs : edges.map Edge.arc = edges'.map Edge.arc := rfl
  have hstrict : ∀ edge ∈ edges, ∃ r ∈ Relation.strict, edge.relation = r.name := by decide
  have haccepted : (e.prepare nodes ∅).2 = .ok seeds := rfl
  have haccepted' : (e'.prepare nodes' ∅).2 = .ok seeds' := rfl
  obtain ⟨r, r', hrun, hrun', hsame⟩ := runs_agree hregistry hregistry' rfl rfl rfl rfl harcs
    hstrict hrange hrange' haccepted haccepted' hseeds
  rw [hrun] at hcheck
  rw [hrun'] at hcheck'
  have hthree : r.iterations = 3 := by simpa [Except.toOption] using hcheck
  obtain ⟨hfour, hfound⟩ : r'.iterations = 4 ∧ _ := by simpa [Except.toOption] using hcheck'
  exact ⟨r, r', hrun, hrun', hthree, hfour, hfound, hsame⟩

end Engine
end ReasonGraph
