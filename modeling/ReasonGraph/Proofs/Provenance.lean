import ReasonGraph.Proofs.Stickiness
import ReasonGraph.Report.Explain
import Mathlib.Data.List.Induction

/-! Who drove a state. The drivers that a state names are those that the log accounts for: the ones
given with its seed, then one for each event that wrote it, except that a withdrawn achievement takes
its driver away. So nobody is named without a cause or twice, and the last one to write a node is
named, unless what it did was to withdraw. -/

namespace ReasonGraph
variable {α : Type}

/-- The drivers given to a node along with its first state. -/
def Overrides.drivers (overrides : Overrides α) (id : String) : List String :=
  match overrides.get? id with
  | some (.ok given) => given.derivedFrom.getD []
  | _ => []

namespace Event

def isWithdrawal (ev : Event α) : Bool :=
  ev.relation = Relation.achieves.name && ev.newLogic = .unknown

/-- The drivers of a node after an event wrote it. -/
def credit (drivers : List String) (ev : Event α) : List String :=
  if ev.isWithdrawal then drivers.filter (· ≠ ev.source) else addDriver drivers ev.source

theorem nodup_credit {drivers : List String} (h : drivers.Nodup) (ev : Event α) :
    (credit drivers ev).Nodup := by
  unfold credit
  split
  · exact h.filter _
  · exact nodup_addDriver h

theorem source_mem_credit {drivers : List String} {ev : Event α} :
    ev.source ∈ credit drivers ev ↔ ev.isWithdrawal = false := by
  unfold credit
  split
  · rename_i h
    simp [h]
  · rename_i h
    simp [mem_addDriver, h]

theorem mem_credit_of_ne {drivers : List String} {ev : Event α} {d : String} (h : ev.source ≠ d) :
    d ∈ credit drivers ev ↔ d ∈ drivers := by
  unfold credit
  split <;> simp [mem_addDriver, h.symm]

theorem nodup_credited {drivers : List String} (h : drivers.Nodup) (log : List (Event α)) :
    (log.foldl credit drivers).Nodup := by
  induction log generalizing drivers with
  | nil => exact h
  | cons ev rest ih => exact ih (nodup_credit h ev)

/-- Of all events with one source the last decides whether it is a driver. -/
theorem mem_credited_iff {drivers : List String} {log : List (Event α)} {d : String} :
    d ∈ log.foldl credit drivers ↔
      match (log.filter (·.source = d)).getLast? with
      | none => d ∈ drivers
      | some ev => ev.isWithdrawal = false := by
  induction log using List.reverseRecOn with
  | nil => rfl
  | append_singleton log ev ih =>
    rw [List.foldl_append, List.filter_append]
    by_cases h : ev.source = d
    · subst h
      simpa using source_mem_credit
    · simpa [h] using (mem_credit_of_ne h).trans ih

theorem mem_of_mem_credited {drivers : List String} {log : List (Event α)} {d : String}
    (h : d ∈ log.foldl credit drivers) : d ∈ drivers ∨ ∃ ev ∈ log, ev.source = d := by
  rw [mem_credited_iff] at h
  cases hlast : (log.filter (·.source = d)).getLast? with
  | none =>
    rw [hlast] at h
    exact .inl h
  | some ev =>
    have hmem := List.mem_of_getLast? hlast
    rw [List.mem_filter, decide_eq_true_eq] at hmem
    exact .inr ⟨ev, hmem⟩

/-- Whether the last of all events with one source took back what the others gave. -/
def takenBack (log : List (Event α)) (d : String) : Bool :=
  (log.filter (·.source = d)).getLast?.any isWithdrawal

theorem credited_eq_nil_iff {log : List (Event α)} :
    log.foldl credit [] = [] ↔ ∀ ev ∈ log, takenBack log ev.source = true := by
  rw [List.eq_nil_iff_forall_not_mem]
  refine ⟨fun hnone ev hev => ?_, fun hall d hd => ?_⟩
  · have hnot := hnone ev.source
    rw [mem_credited_iff] at hnot
    cases hlast : (log.filter (·.source = ev.source)).getLast? with
    | none =>
      rw [List.getLast?_eq_none_iff, List.filter_eq_nil_iff] at hlast
      exact absurd (decide_eq_true rfl) (hlast ev hev)
    | some last =>
      rw [hlast] at hnot
      rw [takenBack, hlast]
      simpa using hnot
  · obtain ⟨ev, hev, rfl⟩ := (mem_of_mem_credited hd).resolve_left List.not_mem_nil
    obtain ⟨last, hlast, hwithdraws⟩ := (Option.any_eq_true _ _).1 (hall ev hev)
    rw [mem_credited_iff, hlast] at hd
    exact Bool.noConfusion (hwithdraws.symm.trans hd)

theorem isWithdrawal_iff {ev : Event α} :
    ev.isWithdrawal = true ↔ ev.relation = Relation.achieves.name ∧ ev.newLogic = .unknown := by
  simp [isWithdrawal]

theorem takenBack_last {log : List (Event α)} {ev : Event α} (h : log.getLast? = some ev) :
    takenBack log ev.source = ev.isWithdrawal := by
  obtain ⟨earlier, rfl⟩ := List.getLast?_eq_some_iff.1 h
  simp [takenBack, List.filter_append]

theorem last_mem_credited {drivers : List String} {log : List (Event α)} {ev : Event α}
    (h : log.getLast? = some ev) :
    ev.source ∈ log.foldl credit drivers ↔ ev.isWithdrawal = false := by
  obtain ⟨earlier, rfl⟩ := List.getLast?_eq_some_iff.1 h
  rw [List.foldl_append]
  exact source_mem_credit

end Event

theorem replay_of_last (before : String → Option (Reading α)) {log : List (Event α)} {id : String}
    {ev : Event α} (h : (log.filter (·.target = id)).getLast? = some ev) :
    replay before log id = some ⟨ev.newLogic, ev.newConfidence⟩ := by
  induction log using List.reverseRecOn with
  | nil => cases h
  | append_singleton log last ih =>
    rw [List.filter_append] at h
    rw [replay_append]
    by_cases hid : last.target = id
    · obtain rfl : last = ev := by simpa [hid] using h
      simp [replay, hid]
    · have hearlier : (log.filter (·.target = id)).getLast? = some ev := by simpa [hid] using h
      rw [← ih hearlier]
      simp [replay, hid]

def Ledger.eventsFor (l : Ledger α) (id : String) : List (Event α) :=
  l.events.filter (·.target = id)

theorem Ledger.eventsFor_write (l : Ledger α) (c : Change α) (id : String) :
    (l.write c).eventsFor id =
      if c.event.target = id then l.eventsFor id ++ [c.event] else l.eventsFor id := by
  rw [eventsFor, write_events, List.filter_append]
  split <;> simp [eventsFor, *]

variable [Quantity α]

namespace Rule
variable {r : Relation} {e : Evidence α} {p : Proposal α}

theorem inference_drivers (h : inference r e = some p) :
    p.derivedFrom = if r = .achieves ∧ e.source.logic = .fails
      then e.target.derivedFrom.filter (· ≠ e.sourceNode.id) else e.drivers := by
  cases r with
  | achieves =>
    simp only [inference, achievement] at h
    split at h
    · cases h
    split at h
    · rename_i hholds
      split at h
      · cases h
        simp [hholds]
      · cases h
    · rename_i hfails
      repeat' split at h
      all_goals cases h
      simp_all
  | _ =>
    simp only [inference, dependency, support, hindrance, causation, effect, contrapositive,
      mutualConflict] at h
    repeat' split at h
    all_goals cases h
    all_goals rfl

theorem achievement_unknown_iff (h : inference .achieves e = some p) :
    p.logic = .unknown ↔ e.source.logic = .fails := by
  simp only [inference, achievement] at h
  repeat' split at h
  all_goals cases h
  all_goals simp_all

end Rule

/-- What the log says of who drove whom: each event was made by an edge that was read, a withdrawal
is one whose source failed, and a state names the drivers that the log credits to it. -/
structure Setting.Credits (s : Setting α) (seeds : Table α) (given : String → List String)
    (now : Ledger α) : Prop where
  audited : Audit seeds now.states now.events
  read : ∀ ev ∈ now.events, ∃ h ∈ s.hops, ev.source = h.1.source ∧ ev.target = h.1.target ∧
    ev.relation = h.1.edge.relation
  withdrawn : ∀ earlier ev later, now.events = earlier ++ ev :: later →
    (ev.isWithdrawal = true ↔ ev.relation = Relation.achieves.name ∧
      ∃ source, replay seeds.readings earlier ev.source = some source ∧ source.logic = .fails)
  drivers : ∀ id state, now.states.get? id = some state →
    state.derivedFrom = (now.eventsFor id).foldl Event.credit (given id)

namespace Setting
variable {s : Setting α} {nodes : List (Node α)} {edges : List (Edge α)}

theorem change?_credit (hg : s.graph = .ofLists nodes edges) (hregistry : s.registry = .builtin)
    {h : Hop α × Rule α} (hh : h ∈ s.hops) {t : Table α} {c : Change α}
    (hc : s.change? t h = some c) :
    c.event.source = h.1.source ∧ c.event.relation = h.1.edge.relation ∧
      ∃ source target, t.get? h.1.source = some source ∧ t.get? h.1.target = some target ∧
        (c.event.isWithdrawal = true ↔
          c.event.relation = Relation.achieves.name ∧ source.logic = .fails) ∧
        c.entry.derivedFrom = c.event.credit target.derivedFrom := by
  obtain ⟨r, hrule, hrel⟩ := rule_of_mem_hops hregistry hh
  obtain ⟨e, p, he, hp, -, -, rfl⟩ := Hop.change?_eq_some hc
  rw [hrule] at hp
  have hsays := (floored_eq_some hp).2
  obtain ⟨hsource, htarget, -⟩ := Hop.evidence?_shows he
  rw [hg] at he
  have hid := (Hop.evidence?_ids he).1
  have hachieves : h.1.edge.relation = Relation.achieves.name ↔ r = .achieves := by
    rw [hrel]
    exact ⟨Relation.name_injective, fun h => h ▸ rfl⟩
  have hwithdraws : (p.change h.1 e.target).event.isWithdrawal = true ↔
      r = .achieves ∧ e.source.logic = .fails := by
    refine Event.isWithdrawal_iff.trans ?_
    refine (and_congr_left' hachieves).trans (and_congr_right fun hr => ?_)
    subst hr
    exact Rule.achievement_unknown_iff hsays
  refine ⟨rfl, rfl, e.source, e.target, hsource, htarget, ?_, ?_⟩
  · rw [hwithdraws]
    exact and_congr_left fun _ => hachieves.symm
  · have hdrivers := Rule.inference_drivers hsays
    simp only [hid, ← hwithdraws, Evidence.drivers] at hdrivers
    exact hdrivers

theorem Credits.write (hg : s.graph = .ofLists nodes edges) (hregistry : s.registry = .builtin)
    {seeds : Table α} {given : String → List String} {now : Ledger α}
    (hnow : s.Credits seeds given now) {h : Hop α × Rule α} (hh : h ∈ s.hops) {c : Change α}
    (hc : s.change? now.states h = some c) : s.Credits seeds given (now.write c) := by
  have htarget := change?_target hc
  obtain ⟨hfrom, hrelation, source, target, hsource, hheld, hwithdraws, hdrivers⟩ :=
    change?_credit hg hregistry hh hc
  constructor
  · exact hnow.audited.trans (write_continues hc).audited
  · intro ev hev
    rcases List.mem_append.1 hev with hearlier | hlast
    · exact hnow.read ev hearlier
    · rw [List.mem_singleton.1 hlast]
      exact ⟨h, hh, hfrom, htarget, hrelation⟩
  · intro earlier ev later hsplit
    rcases append_eq_append_cons hsplit with ⟨rest, hbefore, -⟩ | ⟨rest, hbefore, hlast⟩
    · exact hnow.withdrawn earlier ev rest hbefore
    · obtain ⟨rfl, rfl⟩ : rest = [] ∧ c.event = ev := by
        cases rest with
        | nil => exact ⟨rfl, (List.cons.inj hlast).1⟩
        | cons _ _ => simp at hlast
      rw [hbefore, List.append_nil, hnow.audited.replayed, Table.readings, hfrom, hsource]
      simpa [NodeState.reading] using hwithdraws
  · intro id state hstate
    rw [Ledger.write_get?, htarget] at hstate
    rw [Ledger.eventsFor_write, htarget]
    by_cases hid : h.1.target = id
    · subst hid
      rw [if_pos rfl] at hstate ⊢
      cases hstate
      rw [List.foldl_append, ← hnow.drivers _ _ hheld]
      exact hdrivers
    · rw [if_neg hid] at hstate ⊢
      exact hnow.drivers id state hstate

theorem Credits.edge_of_withdrawal (hg : s.graph = .ofLists nodes edges)
    (hregistry : s.registry = .builtin) {seeds : Table α} {given : String → List String}
    {now : Ledger α} (hnow : s.Credits seeds given now) {ev : Event α} (hev : ev ∈ now.events)
    (h : ev.isWithdrawal = true) :
    ∃ edge ∈ edges, edge.relation = Relation.achieves.name ∧ edge.target = ev.target := by
  obtain ⟨hop, hhop, -, htarget, hrelation⟩ := hnow.read ev hev
  have hachieves := hrelation.symm.trans (Event.isWithdrawal_iff.1 h).1
  have hedge := (mem_hops.1 hhop).1
  rw [hg] at hedge
  have hforward := forward_of_mem_hops hregistry hhop hachieves rfl
  refine ⟨hop.1.edge, hedge, hachieves, ?_⟩
  rw [htarget, Hop.target, hforward]
  rfl

theorem after_credits (hg : s.graph = .ofLists nodes edges) (hregistry : s.registry = .builtin)
    {hops : List (Hop α × Rule α)} (hhops : ∀ h ∈ hops, h ∈ s.hops) {seeds : Table α}
    {given : String → List String} {l : Ledger α} (hl : s.Credits seeds given l) :
    s.Credits seeds given (s.after l hops) :=
  s.after_induction (P := s.Credits seeds given)
    (fun _ h hh _ hnow hc => hnow.write hg hregistry (hhops h hh) hc) hl

end Setting

/-- What a ledger says of the drivers of states is borne out by its log and by what was given. -/
structure Ledger.BearsOut (now : Ledger α) (seeds : Table α) (overrides : Overrides α)
    (edges : List (Edge α)) : Prop where
  named : ∀ id state, now.states.get? id = some state → ∀ d ∈ state.derivedFrom,
    d ∈ overrides.drivers id ∨ ∃ ev ∈ now.events, ev.source = d ∧ ev.target = id
  once : ∀ id state, now.states.get? id = some state → (overrides.drivers id).Nodup →
    state.derivedFrom.Nodup
  apart : ∀ id state, now.states.get? id = some state →
    (∀ edge ∈ edges, edge.source = id → edge.target ≠ id) → id ∉ overrides.drivers id →
    id ∉ state.derivedFrom
  latest : ∀ id state ev, now.states.get? id = some state →
    (now.eventsFor id).getLast? = some ev →
    (ev.source ∈ state.derivedFrom ↔ ev.isWithdrawal = false)
  withdrawn : ∀ earlier ev later, now.events = earlier ++ ev :: later →
    (ev.isWithdrawal = true ↔ ev.relation = Relation.achieves.name ∧
      ∃ source, replay seeds.readings earlier ev.source = some source ∧ source.logic = .fails)

omit [Quantity α] in
theorem Setting.Credits.eventsFor_last {s : Setting α} {seeds : Table α}
    {given : String → List String} {now : Ledger α} (h : s.Credits seeds given now) {id : String}
    {state : NodeState α} (hstate : now.states.get? id = some state) {ev : Event α}
    (hlast : (now.eventsFor id).getLast? = some ev) : state.logic = ev.newLogic := by
  have hreading := congrFun h.audited.replayed id
  rw [replay_of_last _ hlast, Table.readings, hstate] at hreading
  exact congrArg Reading.logic (Option.some.inj hreading).symm

omit [Quantity α] in
theorem Setting.Credits.loop_of_self {s : Setting α} {nodes : List (Node α)} {edges : List (Edge α)}
    (hg : s.graph = .ofLists nodes edges) {seeds : Table α} {given : String → List String}
    {now : Ledger α} (h : s.Credits seeds given now) {ev : Event α} (hev : ev ∈ now.events)
    (hself : ev.source = ev.target) :
    ∃ edge ∈ edges, edge.source = ev.target ∧ edge.target = ev.target := by
  obtain ⟨hop, hhop, hfrom, hto, -⟩ := h.read ev hev
  have hedge : hop.1.edge ∈ edges := by
    have hmem := (Setting.mem_hops.1 hhop).1
    rwa [hg] at hmem
  -- read either way, the edge has the node at both of its ends
  rw [hself] at hfrom
  refine ⟨hop.1.edge, hedge, ?_⟩
  cases hr : hop.1.reversed with
  | false => simp_all [Hop.source, Hop.target]
  | true => simp_all [Hop.source, Hop.target]

omit [Quantity α] in
theorem Setting.Credits.bearsOut {s : Setting α} {nodes : List (Node α)} {edges : List (Edge α)}
    (hg : s.graph = .ofLists nodes edges) {seeds : Table α} {overrides : Overrides α}
    {now : Ledger α} (h : s.Credits seeds overrides.drivers now) :
    now.BearsOut seeds overrides edges := by
  have hnamed : ∀ id state, now.states.get? id = some state → ∀ d ∈ state.derivedFrom,
      d ∈ overrides.drivers id ∨ ∃ ev ∈ now.events, ev.source = d ∧ ev.target = id := by
    intro id state hstate d hd
    rw [h.drivers id state hstate] at hd
    refine (Event.mem_of_mem_credited hd).imp_right fun ⟨ev, hev, hsource⟩ => ?_
    rw [Ledger.eventsFor, List.mem_filter, decide_eq_true_eq] at hev
    exact ⟨ev, hev.1, hsource, hev.2⟩
  refine ⟨hnamed, fun id state hstate hgiven => ?_, fun id state hstate hloop hgiven hself => ?_,
    fun id state ev hstate hlast => ?_, h.withdrawn⟩
  · rw [h.drivers id state hstate]
    exact Event.nodup_credited hgiven _
  · obtain ⟨ev, hev, hsource, htarget⟩ := (hnamed id state hstate id hself).resolve_left hgiven
    obtain ⟨edge, hedge, hends⟩ := h.loop_of_self hg hev (hsource.trans htarget.symm)
    rw [htarget] at hends
    exact hloop edge hedge hends.1 hends.2
  · rw [h.drivers id state hstate]
    exact Event.last_mem_credited hlast

theorem Node.seedFrom_drivers {n : Node α} {config : Config α} {overrides : Overrides α}
    {state : NodeState α} (h : n.seedFrom config overrides = .ok state) :
    state.derivedFrom = overrides.drivers n.id := by
  rw [Node.seedFrom] at h
  rw [Overrides.drivers]
  split at h <;> rename_i hgiven <;> rw [hgiven]
  · rw [Node.seed_eq_ok h]
    rfl
  · rw [Node.seed_eq_ok h]
  · cases h

namespace Engine
variable {e : Engine α} {nodes : List (Node α)} {overrides : Overrides α}

theorem prepare_drivers {id : String} {state : NodeState α}
    (h : (e.prepare nodes overrides).1.ledger.states.get? id = some state) :
    state.derivedFrom = overrides.drivers id := by
  rw [prepare_states] at h
  refine Table.seed_induction (P := fun t => ∀ id state, t.get? id = some state →
    state.derivedFrom = overrides.drivers id) (fun t n _ seed ht hseed id state hstate => ?_)
    (fun _ _ h => by cases h) id state h
  rw [OrderedMap.get?_insert] at hstate
  split at hstate
  · rename_i hid
    cases hstate
    exact hid ▸ Node.seedFrom_drivers hseed
  · exact ht id state hstate

theorem start_credits (e : Engine α) (nodes : List (Node α)) (edges : List (Edge α))
    (overrides : Overrides α) :
    (e.setting (.ofLists nodes edges)).Credits (e.prepare nodes overrides).1.ledger.states
      overrides.drivers (e.start nodes edges overrides) := by
  have hevents := e.start_events nodes edges overrides
  constructor
  · rw [hevents, start_states]
    exact .refl _
  · simp [hevents]
  · simp [hevents]
  · intro id state hstate
    rw [start_states] at hstate
    simp [Ledger.eventsFor, hevents, prepare_drivers hstate]

theorem moment_credits (hregistry : e.registry = .builtin) (nodes : List (Node α))
    (edges : List (Edge α)) (overrides : Overrides α) (n : Nat) :
    (e.setting (.ofLists nodes edges)).Credits (e.prepare nodes overrides).1.ledger.states
      overrides.drivers ((e.setting (.ofLists nodes edges)).moment (e.start nodes edges overrides)
        (e.runTrail nodes edges overrides) n) := by
  exact Setting.after_credits rfl hregistry
    (fun h hh => mem_hops_of_mem_runTrail (List.mem_of_mem_take hh))
    (e.start_credits nodes edges overrides)

theorem run_credits (hregistry : e.registry = .builtin) {seeds : Table α}
    (haccepted : (e.prepare nodes overrides).2 = .ok seeds) (edges : List (Edge α)) :
    (e.setting (.ofLists nodes edges)).Credits (e.prepare nodes overrides).1.ledger.states
      overrides.drivers (e.run nodes edges overrides).1.ledger := by
  rw [run_eq_moment haccepted]
  exact moment_credits hregistry nodes edges overrides _

/-- At every moment of a run, from the seeds to what it answers with, the drivers of a state are
borne out: each was given or is the source of an event so far, none is named twice or for itself
unless that was given, and the source of the latest event is one of them unless it withdrew. -/
theorem run_bears_out (hregistry : e.registry = .builtin) {seeds : Table α}
    (haccepted : (e.prepare nodes overrides).2 = .ok seeds) (edges : List (Edge α)) :
    let s := e.setting (.ofLists nodes edges)
    let l := e.start nodes edges overrides
    let trail := e.runTrail nodes edges overrides
    l.states = seeds ∧ l.events = [] ∧
    (∃ r, (e.run nodes edges overrides).2 = .ok r ∧
      r.states = (s.moment l trail trail.length).states ∧
      r.events = (s.moment l trail trail.length).events) ∧
    ∀ n, (s.moment l trail n).BearsOut seeds overrides edges := by
  intro s l trail
  have hseeds : (e.prepare nodes overrides).1.ledger.states = seeds := prepare_given haccepted
  have hrun := congrArg Prod.snd (run_of_accepted haccepted edges)
  have hend : (e.run nodes edges overrides).1.ledger = s.moment l trail trail.length :=
    run_eq_moment haccepted edges
  obtain ⟨hstates, hevents⟩ := run_result hrun
  refine ⟨start_seeds haccepted edges, start_events .., ⟨_, hrun, ?_, ?_⟩, fun n => ?_⟩
  · rw [hstates, hend]
  · rw [hevents, hend]
  · rw [← hseeds]
    exact (moment_credits hregistry nodes edges overrides n).bearsOut rfl

theorem run_bears_out_withdrawn :
    let e : Engine Float := .new .standard .builtin
    let nodes : List (Node Float) :=
      [⟨"a", .action, "", 90.0⟩, ⟨"g", .goal, "", 50.0⟩, ⟨"h", .fact, "", 90.0⟩]
    let edges : List (Edge Float) := [⟨"ag", "a", "g", "achieves", 1.0⟩,
      ⟨"ha", "h", "a", "hinders", 0.9⟩, ⟨"hg", "h", "g", "supports", 1.0⟩]
    let overrides : Overrides Float := .ofList [("h", .ok ⟨none, none, some ["x"]⟩)]
    let now := fun n => (e.setting (.ofLists nodes edges)).moment (e.start nodes edges overrides)
      (e.runTrail nodes edges overrides) n
    ∃ seeds, (e.prepare nodes overrides).2 = .ok seeds ∧
      (∀ n, (now n).BearsOut seeds overrides edges) ∧
      (∃ state ev, (now 4).states.get? "g" = some state ∧
        ((now 4).eventsFor "g").getLast? = some ev ∧ ev.source = "a" ∧ ev.isWithdrawal = true ∧
        "a" ∉ state.derivedFrom) ∧
      ∃ r, (e.run nodes edges overrides).2 = .ok r ∧
        r.states.values.map NodeState.derivedFrom = [["h"], ["h"], ["x"]] := by
  intro e nodes edges overrides now
  obtain ⟨seeds, haccepted⟩ : ∃ seeds, (e.prepare nodes overrides).2 = .ok seeds := ⟨_, rfl⟩
  obtain ⟨-, -, ⟨r, hrun, -, -⟩, hborne⟩ := run_bears_out (e := e) rfl haccepted edges
  obtain ⟨state, hstate⟩ : ∃ state, (now 4).states.get? "g" = some state :=
    Option.isSome_iff_exists.1 (by decide +kernel)
  have hcheck : ((now 4).eventsFor "g").getLast?.any
      (fun ev => ev.source = "a" && ev.isWithdrawal) = true := by decide +kernel
  obtain ⟨ev, hlast, hev⟩ := (Option.any_eq_true _ _).1 hcheck
  rw [Bool.and_eq_true, decide_eq_true_eq] at hev
  refine ⟨seeds, haccepted, hborne,
    ⟨state, ev, hstate, hlast, hev.1, hev.2, fun hdrives => ?_⟩, _, rfl, by decide +kernel⟩
  have hkept := ((hborne 4).latest "g" state ev hstate hlast).1 (hev.1 ▸ hdrives)
  rw [hev.2] at hkept
  cases hkept

/-- In a run to which no drivers are given a node passes for asserted just if every event that wrote
it was taken back. So a node without events does, and one with events does not unless the last of
them withdrew an achievement and left it unknown. -/
theorem run_asserted_iff (hregistry : e.registry = .builtin) {edges : List (Edge α)}
    (hgiven : ∀ id, overrides.drivers id = []) {r : Result α}
    (hrun : (e.run nodes edges overrides).2 = .ok r) {id : String} {state : NodeState α}
    (hstate : r.states.get? id = some state) :
    (state.isAsserted = true ↔
      ∀ ev ∈ r.eventsFor id, Event.takenBack (r.eventsFor id) ev.source = true) ∧
    ((state.isAsserted = true ↔ r.eventsFor id = []) ↔ r.eventsFor id = [] ∨
      ∃ ev ∈ r.eventsFor id, Event.takenBack (r.eventsFor id) ev.source = false) ∧
    (state.isAsserted = true → r.eventsFor id ≠ [] → state.logic = .unknown ∧
      ∃ edge ∈ edges, edge.relation = Relation.achieves.name ∧ edge.target = id) := by
  obtain ⟨seeds, haccepted⟩ := accepted_of_run hrun
  obtain ⟨hstates, hevents⟩ := run_result hrun
  have hcredits := run_credits hregistry haccepted edges
  generalize (e.run nodes edges overrides).1.ledger = now at hstates hevents hcredits
  rw [hstates] at hstate
  have hlog : r.eventsFor id = now.eventsFor id := by
    rw [Result.eventsFor, hevents, Ledger.eventsFor]
  have hdriven := hcredits.drivers id state hstate
  rw [hgiven, ← hlog] at hdriven
  have hasserted : state.isAsserted = true ↔
      ∀ ev ∈ r.eventsFor id, Event.takenBack (r.eventsFor id) ev.source = true := by
    rw [NodeState.isAsserted, List.isEmpty_iff, hdriven]
    exact Event.credited_eq_nil_iff
  refine ⟨hasserted, ?_, fun hshown hwritten => ?_⟩
  · rw [hasserted]
    constructor
    · intro hiff
      by_cases hall : ∀ ev ∈ r.eventsFor id, Event.takenBack (r.eventsFor id) ev.source = true
      · exact .inl (hiff.1 hall)
      · simp only [not_forall, Bool.not_eq_true, exists_prop] at hall
        exact .inr hall
    · rintro (hnone | ⟨ev, hev, hkept⟩)
      · simp [hnone]
      · refine ⟨fun hall => ?_, fun hnone => by simp [hnone]⟩
        rw [hall ev hev] at hkept
        cases hkept
  · obtain ⟨ev, hlast⟩ : ∃ ev, (r.eventsFor id).getLast? = some ev :=
      ⟨_, List.getLast?_eq_some_getLast hwritten⟩
    have hmem := List.mem_of_getLast? hlast
    have hwithdraws : ev.isWithdrawal = true := by
      rw [← Event.takenBack_last hlast]
      exact hasserted.1 hshown ev hmem
    rw [hlog] at hlast hmem
    rw [Ledger.eventsFor, List.mem_filter, decide_eq_true_eq] at hmem
    refine ⟨?_, ?_⟩
    · rw [hcredits.eventsFor_last hstate hlast]
      exact (Event.isWithdrawal_iff.1 hwithdraws).2
    · rw [← hmem.2]
      exact hcredits.edge_of_withdrawal rfl hregistry hmem.1 hwithdraws

theorem run_asserted_iff_hindered :
    let e : Engine Float := .new .standard .builtin
    let nodes : List (Node Float) :=
      [⟨"a", .action, "", 90.0⟩, ⟨"g", .goal, "", 50.0⟩, ⟨"h", .fact, "", 90.0⟩]
    let edges : List (Edge Float) :=
      [⟨"ag", "a", "g", "achieves", 1.0⟩, ⟨"ha", "h", "a", "hinders", 0.9⟩]
    (∀ id, (∅ : Overrides Float).drivers id = []) ∧
    ∃ r action goal, (e.run nodes edges ∅).2 = .ok r ∧ r.states.get? "a" = some action ∧
      r.states.get? "g" = some goal ∧
      (r.eventsFor "a").length = 1 ∧ action.isAsserted = false ∧
      (r.eventsFor "g").length = 2 ∧ goal.isAsserted = true ∧ goal.logic = .unknown := by
  intro e nodes edges
  have hgiven : ∀ id, (∅ : Overrides Float).drivers id = [] := fun _ => rfl
  obtain ⟨r, hrun, hlengths⟩ : ∃ r, (e.run nodes edges ∅).2 = .ok r ∧
      (r.eventsFor "a").length = 1 ∧ (r.eventsFor "g").length = 2 ∧
      (r.eventsFor "a").all (fun ev => !Event.takenBack (r.eventsFor "a") ev.source) = true ∧
      (r.eventsFor "g").all (fun ev => Event.takenBack (r.eventsFor "g") ev.source) = true :=
    ⟨_, rfl, by decide +kernel⟩
  obtain ⟨hone, htwo, hkept, htaken⟩ := hlengths
  obtain ⟨action, haction⟩ := OrderedMap.mem_keys_iff.1 ((mem_keys_run hrun).2
    (show "a" ∈ nodes.map Node.id by decide))
  obtain ⟨goal, hgoal⟩ := OrderedMap.mem_keys_iff.1 ((mem_keys_run hrun).2
    (show "g" ∈ nodes.map Node.id by decide))
  have hdriven := (run_asserted_iff rfl hgiven hrun haction).1
  obtain ⟨hshown, -, hleft⟩ := run_asserted_iff rfl hgiven hrun hgoal
  have hasserted : goal.isAsserted = true := hshown.2 (List.all_eq_true.1 htaken)
  refine ⟨hgiven, r, action, goal, hrun, haction, hgoal, hone, ?_, htwo, hasserted, ?_⟩
  · rw [Bool.eq_false_iff]
    intro hshown
    obtain ⟨ev, hev⟩ := List.exists_mem_of_length_pos (hone ▸ Nat.one_pos)
    have hnot := List.all_eq_true.1 hkept ev hev
    rw [hdriven.1 hshown ev hev] at hnot
    cases hnot
  · refine (hleft hasserted fun hnone => ?_).1
    rw [hnone] at htwo
    cases htwo

/-- So a state that the run inferred may pass for asserted: two events wrote the goal, and it is
shown as if nobody had. -/
theorem inferred_goal_shown_as_asserted :
    let e : Engine Float := .new .standard .builtin
    let nodes : List (Node Float) :=
      [⟨"a", .action, "", 90.0⟩, ⟨"g", .goal, "", 50.0⟩, ⟨"h", .fact, "", 90.0⟩]
    let edges : List (Edge Float) :=
      [⟨"ag", "a", "g", "achieves", 1.0⟩, ⟨"ha", "h", "a", "hinders", 0.9⟩]
    ∃ r goal, (e.run nodes edges ∅).2 = .ok r ∧ r.converged = true ∧
      r.states.get? "g" = some goal ∧ ¬(goal.isAsserted = true ↔ r.eventsFor "g" = []) := by
  intro e nodes edges
  obtain ⟨r, hrun, hconverged, hcheck⟩ : ∃ r, (e.run nodes edges ∅).2 = .ok r ∧
      r.converged = true ∧ (r.states.get? "g").any
        (fun goal => goal.isAsserted && !(r.eventsFor "g").isEmpty) = true :=
    ⟨_, rfl, by decide +kernel⟩
  obtain ⟨goal, hgoal, hboth⟩ := (Option.any_eq_true _ _).1 hcheck
  rw [Bool.and_eq_true, Bool.not_eq_true', List.isEmpty_eq_false_iff] at hboth
  exact ⟨r, goal, hrun, hconverged, hgoal, fun hiff => hboth.2 (hiff.1 hboth.1)⟩

end Engine
end ReasonGraph
