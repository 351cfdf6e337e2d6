import ReasonGraph.Proofs.Budget
import ReasonGraph.Proofs.Provenance

/-! How confident a verdict still is at the end of a chain of dependencies, in exact numbers. What
depends on a failure fails with nine tenths of its confidence, of which the decay leaves a part. What
depends on a conflict is in conflict with the whole of it: the decay is not paid there. A verdict
stays the same from event to event, so one of the two goes for a chain as a whole. -/

namespace ReasonGraph

def LogicState.share (decay : Rat) (verdict : LogicState) : Rat :=
  if verdict = .conflict then 1 else 9 / 10 * decay

namespace LogicState
variable {decay : Rat}

@[simp] theorem share_conflict (decay : Rat) : share decay .conflict = 1 := rfl

@[simp] theorem share_fails (decay : Rat) : share decay .fails = 9 / 10 * decay := rfl

theorem share_bounds (hpositive : 0 < decay) (hle : decay ≤ 1) (verdict : LogicState) :
    0 ≤ verdict.share decay ∧ verdict.share decay ≤ 1 := by
  unfold share
  split
  · norm_num
  · constructor <;> linarith

theorem share_fails_pow_le (hpositive : 0 < decay) (hle : decay ≤ 1) (k : Nat) :
    share decay .fails ^ k ≤ decay ^ k := by
  refine pow_le_pow_left₀ (share_bounds hpositive hle .fails).1 ?_ k
  rw [share_fails]
  linarith

end LogicState

namespace Event
variable {α : Type}

/-- Events of a log that hand a reading on. The first reads it, and each of the others reads what
the one before it wrote, since nothing was written there in between. The events before the last one
are listed, and those of the chain are counted. -/
inductive Chain (before : String → Option (Reading α)) (start : Reading α) :
    List (Event α) → Event α → Nat → Prop
  | first {earlier : List (Event α)} {ev : Event α}
    (hreads : replay before earlier ev.source = some start) : Chain before start earlier ev 1
  | next {earlier between : List (Event α)} {last ev : Event α} {k : Nat}
    (h : Chain before start earlier last k) (hreads : ev.source = last.target)
    (hkept : ∀ w ∈ between, w.target ≠ last.target) :
    Chain before start (earlier ++ last :: between) ev (k + 1)

/-- What a dependency makes of the reading of its source: the same verdict, which is failure or
conflict, and a share of the confidence. -/
structure Attenuates (decay : Rat) (source : Reading Rat) (ev : Event Rat) : Prop where
  verdict : ev.newLogic = source.logic
  grave : ev.newLogic = .fails ∨ ev.newLogic = .conflict
  confidence : ev.newConfidence = ev.newLogic.share decay * source.confidence

theorem Attenuates.le_iff {decay : Rat} {source : Reading Rat} {ev : Event Rat}
    (h : ev.Attenuates decay source) (hrange : Quantity.InRange source.confidence)
    (hpositive : 0 < decay) (hle : decay ≤ 1) :
    ev.newConfidence ≤ decay * source.confidence ↔
      ev.newLogic = .fails ∨ decay = 1 ∨ source.confidence = 0 := by
  obtain ⟨hzero, -⟩ := Quantity.inRange_rat.1 hrange
  rw [h.confidence]
  rcases h.grave with hfails | hconflict
  · rw [hfails, LogicState.share_fails]
    have : 0 ≤ decay * source.confidence := mul_nonneg hpositive.le hzero
    simp only [true_or, iff_true]
    linarith
  · rw [hconflict, LogicState.share_conflict, one_mul]
    simp only [reduceCtorEq, false_or]
    constructor
    · intro hpaid
      rcases hzero.eq_or_lt with hnone | hsome
      · exact .inr hnone.symm
      · exact .inl (le_antisymm hle (one_le_of_le_mul_right₀ hsome hpaid))
    · rintro (hone | hnone)
      · rw [hone, one_mul]
      · rw [hnone, mul_zero]

end Event

def AttenuatesAll (decay : Rat) (before : String → Option (Reading Rat)) (log : List (Event Rat)) :
    Prop :=
  ∀ earlier ev later, log = earlier ++ ev :: later → ∃ source,
    replay before earlier ev.source = some source ∧ Quantity.InRange source.confidence ∧
      ev.Attenuates decay source

theorem replay_cases {α : Type} {before : String → Option (Reading α)} {log : List (Event α)}
    {id : String} {reading : Reading α} (h : replay before log id = some reading) :
    before id = some reading ∨ ∃ ev ∈ log, reading = ⟨ev.newLogic, ev.newConfidence⟩ := by
  induction log using List.reverseRecOn with
  | nil => exact .inl h
  | append_singleton log last ih =>
    rw [replay_append] at h
    simp only [replay] at h
    split at h
    · exact .inr ⟨last, by simp, (Option.some.inj h).symm⟩
    · rcases ih h with hfirst | ⟨ev, hev, hwrote⟩
      · exact .inl hfirst
      · exact .inr ⟨ev, List.mem_append_left _ hev, hwrote⟩

namespace AttenuatesAll
variable {decay : Rat} {before : String → Option (Reading Rat)} {log : List (Event Rat)}

theorem of_prefix {rest : List (Event Rat)} (h : AttenuatesAll decay before (log ++ rest)) :
    AttenuatesAll decay before log := by
  rintro earlier ev later rfl
  exact h earlier ev (later ++ rest) (by simp)

/-- What a chain of events hands down keeps its verdict, and a share of its confidence for each
event. -/
theorem of_chain {start : Reading Rat} {earlier : List (Event Rat)} {ev : Event Rat} {k : Nat}
    (hchain : Event.Chain before start earlier ev k) {later : List (Event Rat)}
    (h : AttenuatesAll decay before (earlier ++ ev :: later)) :
    Quantity.InRange start.confidence ∧ ev.newLogic = start.logic ∧
      ev.newConfidence = ev.newLogic.share decay ^ k * start.confidence := by
  induction hchain generalizing later with
  | first hreads =>
    obtain ⟨source, hsource, hrange, hmade⟩ := h _ _ _ rfl
    obtain rfl : source = start := Option.some.inj (hsource.symm.trans hreads)
    rw [pow_one]
    exact ⟨hrange, hmade.verdict, hmade.confidence⟩
  | @next earlier between last ev k _ hreads hkept ih =>
    obtain ⟨source, hsource, -, hmade⟩ := h _ _ _ rfl
    rw [List.append_assoc, List.cons_append] at h
    obtain ⟨hrange, hverdict, hconfidence⟩ := ih h
    -- the source still shows what the event before wrote
    have hwritten : ((earlier ++ last :: between).filter (·.target = ev.source)).getLast? =
        some last := by
      have hnone : between.filter (fun w => decide (w.target = last.target)) = [] :=
        List.filter_eq_nil_iff.2 fun w hw => by simpa using hkept w hw
      simp [hreads, hnone]
    rw [replay_of_last before hwritten] at hsource
    obtain rfl := Option.some.inj hsource
    refine ⟨hrange, hmade.verdict.trans hverdict, ?_⟩
    rw [hmade.confidence, hmade.verdict, hconfidence, pow_succ', mul_assoc]

theorem le_iff_of_chain {start : Reading Rat} {earlier : List (Event Rat)} {ev : Event Rat}
    {k : Nat} (hchain : Event.Chain before start earlier ev k) {later : List (Event Rat)}
    (h : AttenuatesAll decay before (earlier ++ ev :: later)) (hpositive : 0 < decay)
    (hle : decay ≤ 1) : ev.newConfidence ≤ 100 * decay ^ k ↔
      ev.newLogic = .fails ∨ start.confidence ≤ 100 * decay ^ k := by
  obtain ⟨hrange, -, hconfidence⟩ := of_chain hchain h
  obtain ⟨hzero, hhundred⟩ := Quantity.inRange_rat.1 hrange
  obtain ⟨_, -, -, hmade⟩ := h _ _ _ rfl
  rw [hconfidence]
  rcases hmade.grave with hfails | hconflict
  · rw [hfails]
    simp only [true_or, iff_true]
    calc LogicState.share decay .fails ^ k * start.confidence
        ≤ decay ^ k * 100 := mul_le_mul (LogicState.share_fails_pow_le hpositive hle k) hhundred
          hzero (pow_pos hpositive k).le
      _ = 100 * decay ^ k := mul_comm _ _
  · rw [hconflict]
    simp

theorem fails_of_no_conflict (h : AttenuatesAll decay before log)
    (hfree : ∀ id reading, before id = some reading → reading.logic ≠ .conflict) :
    ∀ ev ∈ log, ev.newLogic = .fails := by
  induction log using List.reverseRecOn with
  | nil => simp
  | append_singleton log last ih =>
    have hearlier := ih h.of_prefix
    intro ev hev
    rcases List.mem_append.1 hev with hin | hlast
    · exact hearlier ev hin
    · obtain rfl := List.mem_singleton.1 hlast
      obtain ⟨source, hsource, -, hmade⟩ := h log ev [] rfl
      refine hmade.grave.resolve_right fun hconflict => ?_
      rw [hmade.verdict] at hconflict
      rcases replay_cases hsource with hseed | ⟨w, hw, rfl⟩
      · exact hfree _ _ hseed hconflict
      · cases (hearlier w hw).symm.trans hconflict

end AttenuatesAll

namespace Rule

theorem dependency_share {e : Evidence Rat} {p : Proposal Rat} (h : dependency e = some p) :
    p.logic = e.source.logic ∧ (p.logic = .fails ∨ p.logic = .conflict) ∧
      p.confidence = p.logic.share e.config.decay * e.source.confidence := by
  unfold dependency at h
  split_ifs at h with _ hconflict hfails
  · obtain rfl := Option.some.inj h
    exact ⟨hconflict.symm, .inr rfl, (one_mul _).symm⟩
  · obtain rfl := Option.some.inj h
    refine ⟨hfails.1.symm, .inl rfl, ?_⟩
    simp only [Evidence.carry, LogicState.share_fails]
    norm_num
    ring

end Rule

namespace Setting
variable {s : Setting Rat} {l : Ledger Rat} {hops : List (Hop Rat × Rule Rat)}

theorem change?_attenuates {h : Hop Rat × Rule Rat} (hrule : h.2 = .builtin .depends) {t : Table Rat}
    (ht : t.InRange) (hpositive : 0 < s.config.decay) (hle : s.config.decay ≤ 1) {c : Change Rat}
    (hc : s.change? t h = some c) : ∃ source, t.readings c.event.source = some source ∧
      Quantity.InRange source.confidence ∧ c.event.Attenuates s.config.decay source := by
  obtain ⟨e, p, he, hp, -, -, rfl⟩ := Hop.change?_eq_some hc
  obtain ⟨hsource, -, hconfig, -⟩ := Hop.evidence?_shows he
  rw [hrule] at hp
  obtain ⟨hlogic, hgrave, hshare⟩ := Rule.dependency_share (floored_eq_some hp).2
  rw [hconfig] at hshare
  have hrange := ht _ _ hsource
  obtain ⟨hzero, hhundred⟩ := Quantity.inRange_rat.1 hrange
  obtain ⟨hnonneg, hatMost⟩ := LogicState.share_bounds hpositive hle p.logic
  have hkept : Quantity.clamp p.confidence = p.confidence := by
    refine Quantity.clamp_of_inRange (Quantity.inRange_rat.2 ?_)
    rw [hshare]
    exact ⟨mul_nonneg hnonneg hzero, (mul_le_of_le_one_left hzero hatMost).trans hhundred⟩
  refine ⟨e.source.reading, ?_, hrange, hlogic, hgrave, hkept.trans hshare⟩
  change (t.get? h.1.source).map _ = _
  rw [hsource]
  rfl

theorem after_attenuates (hdepends : ∀ h ∈ hops, h.2 = .builtin .depends)
    (hl : l.states.InRange) (hpositive : 0 < s.config.decay) (hle : s.config.decay ≤ 1) :
    ∃ log, (s.after l hops).events = l.events ++ log ∧
      AttenuatesAll s.config.decay l.states.readings log := by
  obtain ⟨log, hlog⟩ := s.after_continues l hops
  refine ⟨log, hlog.appended, ?_⟩
  rintro earlier ev later rfl
  obtain ⟨read, h, c, hh, hreplayed, hc, rfl⟩ := moment_of_event hlog.appended
  rw [hreplayed]
  exact change?_attenuates (hdepends h hh) (s.after_inRange hl read) hpositive hle hc

end Setting

namespace Engine

theorem run_log_attenuates {e : Engine Rat} (hregistry : e.registry = .builtin)
    {nodes : List (Node Rat)} {edges : List (Edge Rat)}
    (hdepends : ∀ edge ∈ edges, edge.relation = Relation.depends.name)
    (hpositive : 0 < e.config.decay) (hle : e.config.decay ≤ 1) {overrides : Overrides Rat}
    (hrange : Node.InRange nodes overrides) {seeds : Table Rat}
    (haccepted : (e.prepare nodes overrides).2 = .ok seeds) :
    AttenuatesAll e.config.decay seeds.readings (e.run nodes edges overrides).1.ledger.events := by
  have hrules : ∀ h ∈ e.runTrail nodes edges overrides, h.2 = .builtin .depends := by
    intro h hh
    obtain ⟨r, hr, -, hrule⟩ := Setting.rule_among (s := e.setting (.ofLists nodes edges))
      hregistry (fun edge hedge => ⟨.depends, List.mem_singleton_self _, hdepends edge hedge⟩)
      (mem_hops_of_mem_runTrail hh)
    rw [hrule, List.mem_singleton.1 hr]
  have hstart : (e.start nodes edges overrides).states.InRange := by
    rw [start_states]
    exact e.prepare_inRange hrange
  obtain ⟨log, hlog, hattenuates⟩ := Setting.after_attenuates
    (s := e.setting (.ofLists nodes edges)) hrules hstart hpositive hle
  rw [start_events, List.nil_append] at hlog
  rw [start_seeds haccepted] at hattenuates
  rw [run_eq_after haccepted, hlog]
  exact hattenuates

theorem run_logs_no_conflict {e : Engine Rat} (hregistry : e.registry = .builtin)
    (hdetect : e.config.detectsConflicts = false) {nodes : List (Node Rat)}
    (edges : List (Edge Rat)) {overrides : Overrides Rat} {seeds : Table Rat}
    (haccepted : (e.prepare nodes overrides).2 = .ok seeds) :
    ∀ ev ∈ (e.run nodes edges overrides).1.ledger.events, ev.newLogic ≠ .conflict := by
  obtain ⟨hmoment, hkeeps⟩ := (calls_keep_conflicts hregistry nodes edges).1 overrides seeds haccepted
  obtain ⟨log, hlog, hnone⟩ := (hkeeps.closed hdetect _).events
  rw [← hmoment, start_events, List.nil_append] at hlog
  rw [hlog]
  exact hnone

/-- A run over dependencies, in exact numbers. Each event has the verdict of its source, failure or
conflict, and its confidence is at most what the decay leaves of that of its source if it is a failure,
else only if there is nothing to leave off. Over a chain of events a failure comes to nine tenths of
the decay for each of them, and so stays within the decay of them all. A conflict arrives as it set
out, however long the chain. Where nobody looks for conflicts, or nothing was seeded in conflict, all
events are failures. -/
theorem dependency_run_attenuates {e : Engine Rat} (hregistry : e.registry = .builtin)
    {nodes : List (Node Rat)} {edges : List (Edge Rat)}
    (hdepends : ∀ edge ∈ edges, edge.relation = Relation.depends.name)
    (hpositive : 0 < e.config.decay) (hle : e.config.decay ≤ 1) {overrides : Overrides Rat}
    (hrange : Node.InRange nodes overrides) {seeds : Table Rat}
    (haccepted : (e.prepare nodes overrides).2 = .ok seeds) :
    ∃ r, (e.run nodes edges overrides).2 = .ok r ∧
      (∀ earlier ev later, r.events = earlier ++ ev :: later →
        (∃ source, replay seeds.readings earlier ev.source = some source ∧
          (ev.newConfidence ≤ e.config.decay * source.confidence ↔
            ev.newLogic = .fails ∨ e.config.decay = 1 ∨ source.confidence = 0)) ∧
        ∀ start k, Event.Chain seeds.readings start earlier ev k →
          (start.logic = .fails ∨ start.logic = .conflict) ∧ ev.newLogic = start.logic ∧
          ev.newConfidence = start.logic.share e.config.decay ^ k * start.confidence ∧
          (ev.newConfidence ≤ 100 * e.config.decay ^ k ↔
            start.logic = .fails ∨ start.confidence ≤ 100 * e.config.decay ^ k)) ∧
      (e.config.detectsConflicts = false ∨
          (∀ id seed, seeds.get? id = some seed → seed.logic ≠ .conflict) →
        ∀ ev ∈ r.events, ev.newLogic = .fails) := by
  have hlog := run_log_attenuates hregistry hdepends hpositive hle hrange haccepted
  have hrun := congrArg Prod.snd (run_of_accepted haccepted edges)
  refine ⟨_, hrun, ?_, ?_⟩
  · rw [(run_result hrun).2]
    intro earlier ev later hsplit
    obtain ⟨source, hsource, hinRange, hmade⟩ := hlog earlier ev later hsplit
    refine ⟨⟨source, hsource, hmade.le_iff hinRange hpositive hle⟩, fun start k hchain => ?_⟩
    rw [hsplit] at hlog
    obtain ⟨-, hverdict, hconfidence⟩ := AttenuatesAll.of_chain hchain hlog
    rw [← hverdict]
    exact ⟨hmade.grave, rfl, hconfidence,
      AttenuatesAll.le_iff_of_chain hchain hlog hpositive hle⟩
  · rw [(run_result hrun).2]
    rintro (hdetect | hfree) ev hev
    · obtain ⟨earlier, later, hsplit⟩ := List.append_of_mem hev
      obtain ⟨_, -, -, hmade⟩ := hlog earlier ev later hsplit
      exact hmade.grave.resolve_right (run_logs_no_conflict hregistry hdetect edges haccepted ev hev)
    · refine hlog.fails_of_no_conflict (fun id reading hreading => ?_) ev hev
      obtain ⟨seed, hseed, rfl⟩ := Option.map_eq_some_iff.1 hreading
      exact hfree id seed hseed

theorem dependency_run_attenuates_overtaken :
    let e : Engine Rat := .new { Config.standard with decay := 1 / 2 } .builtin
    let nodes : List (Node Rat) := [⟨"a", .conclusion, "", 80⟩, ⟨"x", .conclusion, "", 60⟩,
      ⟨"b", .conclusion, "", 50⟩, ⟨"c", .conclusion, "", 50⟩]
    let edges : List (Edge Rat) := [⟨"ab", "a", "b", "depends", 1⟩, ⟨"bc", "b", "c", "depends", 1⟩,
      ⟨"xb", "x", "b", "depends", 1⟩]
    let overrides : Overrides Rat := .ofList
      [("a", .ok ⟨some .fails, none, none⟩), ("x", .ok ⟨some .conflict, none, none⟩)]
    let before := (e.prepare nodes overrides).1.ledger.states.readings
    (∀ edge ∈ edges, edge.relation = Relation.depends.name) ∧ (0 < e.config.decay) ∧
      e.config.decay ≤ 1 ∧ Node.InRange nodes overrides ∧
      ∃ r ab bc xb again, (e.run nodes edges overrides).2 = .ok r ∧
        r.events = [ab, bc, xb, again] ∧
        Event.Chain before ⟨.fails, 80⟩ [ab] bc 2 ∧ bc.newConfidence = (9 / 20) ^ 2 * 80 ∧
        bc.newConfidence ≤ 100 * (1 / 2) ^ 2 ∧
        Event.Chain before ⟨.conflict, 60⟩ [ab, bc, xb] again 2 ∧ again.newConfidence = 60 ∧
        ¬again.newConfidence ≤ 100 * (1 / 2) ^ 2 := by
  intro e nodes edges overrides before
  have hdepends : ∀ edge ∈ edges, edge.relation = Relation.depends.name := by decide
  have hpositive : 0 < e.config.decay := by decide +kernel
  have hle : e.config.decay ≤ 1 := by decide +kernel
  have hrange : Node.InRange nodes overrides := by
    refine ⟨by decide +kernel, fun id o confidence ho hconfidence => ?_⟩
    have hgiven := OrderedMap.mem_ofList (OrderedMap.mem_of_find ho)
    simp only [List.mem_cons, Prod.mk.injEq, Except.ok.injEq, List.not_mem_nil, or_false]
      at hgiven
    rcases hgiven with ⟨-, rfl⟩ | ⟨-, rfl⟩ <;> cases hconfidence
  have haccepted : (e.prepare nodes overrides).2 = .ok (e.prepare nodes overrides).1.ledger.states :=
    rfl
  obtain ⟨r, hrun, hchains, -⟩ :=
    dependency_run_attenuates (e := e) rfl hdepends hpositive hle hrange haccepted
  have hlog : (e.run nodes edges overrides).2.toOption.map
      (fun r => r.events.map fun ev => (ev.source, ev.target)) =
        some [("a", "b"), ("b", "c"), ("x", "b"), ("b", "c")] := by decide +kernel
  rw [hrun] at hlog
  obtain ⟨ab, _, hevents, hab, hrest⟩ := List.map_eq_cons_iff.1 (Option.some.inj hlog)
  obtain ⟨bc, _, rfl, hbc, hrest⟩ := List.map_eq_cons_iff.1 hrest
  obtain ⟨xb, _, rfl, hxb, hrest⟩ := List.map_eq_cons_iff.1 hrest
  obtain ⟨again, _, rfl, hagain, hrest⟩ := List.map_eq_cons_iff.1 hrest
  obtain rfl := List.map_eq_nil_iff.1 hrest
  simp only [Prod.mk.injEq] at hab hbc hxb hagain
  have hdecay : e.config.decay = 1 / 2 := rfl
  have hkept : ∀ last : Event Rat, ∀ w ∈ ([] : List (Event Rat)), w.target ≠ last.target := by simp
  have hfirst : replay before [] ab.source = some ⟨.fails, 80⟩ := by
    rw [hab.1]
    rfl
  have hsecond : replay before [ab, bc] xb.source = some ⟨.conflict, 60⟩ := by
    simp only [replay, hab, hbc, hxb]
    rfl
  have hfailure : Event.Chain before ⟨.fails, 80⟩ [ab] bc 2 :=
    .next (.first hfirst) (hbc.1.trans hab.2.symm) (hkept ab)
  have hconflict : Event.Chain before ⟨.conflict, 60⟩ [ab, bc, xb] again 2 :=
    .next (.first hsecond) (hagain.1.trans hxb.2.symm) (hkept xb)
  obtain ⟨-, -, htwice, hsmall⟩ := (hchains [ab] bc [xb, again] hevents).2 _ _ hfailure
  obtain ⟨-, -, hwhole, -⟩ := (hchains [ab, bc, xb] again [] hevents).2 _ _ hconflict
  rw [hdecay] at htwice hsmall hwhole
  refine ⟨hdepends, hpositive, hle, hrange, r, ab, bc, xb, again, hrun, hevents, hfailure, ?_,
    hsmall.2 (.inl rfl), hconflict, ?_, ?_⟩
  · rw [htwice]
    norm_num
  · rw [hwhole]
    norm_num
  · rw [hwhole]
    norm_num

/-- So a conflict that is handed down twice arrives with more than two hops of decay would leave of
any confidence, and with more after each hop than one hop would leave of what it had. -/
theorem conflict_pays_no_decay :
    let e : Engine Rat := .new { Config.standard with decay := 1 / 2 } .builtin
    let nodes : List (Node Rat) :=
      [⟨"a", .conclusion, "", 80⟩, ⟨"b", .conclusion, "", 50⟩, ⟨"c", .conclusion, "", 50⟩]
    let edges : List (Edge Rat) := [⟨"ab", "a", "b", "depends", 1⟩, ⟨"bc", "b", "c", "depends", 1⟩]
    let overrides : Overrides Rat := .ofList [("a", .ok ⟨some .conflict, none, none⟩)]
    let before := (e.prepare nodes overrides).1.ledger.states.readings
    (∀ edge ∈ edges, edge.relation = Relation.depends.name) ∧
      ∃ r ab bc, (e.run nodes edges overrides).2 = .ok r ∧ r.converged = true ∧
        r.events = [ab, bc] ∧ replay before [] ab.source = some ⟨.conflict, 80⟩ ∧
        ¬ab.newConfidence ≤ e.config.decay * 80 ∧
        Event.Chain before ⟨.conflict, 80⟩ [ab] bc 2 ∧
        ¬bc.newConfidence ≤ 100 * e.config.decay ^ 2 := by
  intro e nodes edges overrides before
  have hlog : (e.run nodes edges overrides).2.toOption.map
      (fun r => (r.converged, r.events.map fun ev => (ev.source, ev.target, ev.newConfidence))) =
        some (true, [("a", "b", 80), ("b", "c", 80)]) := by decide +kernel
  cases hrun : (e.run nodes edges overrides).2 with
  | error _ =>
    rw [hrun] at hlog
    cases hlog
  | ok r =>
    rw [hrun] at hlog
    obtain ⟨hconverged, hmap⟩ := Prod.mk.inj (Option.some.inj hlog)
    obtain ⟨ab, _, hevents, hab, hrest⟩ := List.map_eq_cons_iff.1 hmap
    obtain ⟨bc, _, rfl, hbc, hrest⟩ := List.map_eq_cons_iff.1 hrest
    obtain rfl := List.map_eq_nil_iff.1 hrest
    simp only [Prod.mk.injEq] at hab hbc
    have hdecay : e.config.decay = 1 / 2 := rfl
    have hfirst : replay before [] ab.source = some ⟨.conflict, 80⟩ := by
      rw [hab.1]
      rfl
    have hkept : ∀ w ∈ ([] : List (Event Rat)), w.target ≠ ab.target := by simp
    refine ⟨by decide, r, ab, bc, rfl, hconverged, hevents, hfirst, ?_,
      .next (.first hfirst) (hbc.1.trans hab.2.1.symm) hkept, ?_⟩
    · rw [hab.2.2, hdecay]
      norm_num
    · rw [hbc.2.2, hdecay]
      norm_num

end Engine
end ReasonGraph
