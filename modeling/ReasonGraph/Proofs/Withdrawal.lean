import ReasonGraph.Proofs.Leftovers

/-! What comes before a withdrawal. An achievement is taken back from a node when its source fails, when
nothing else achieves the node, and when the log credits the source with the state. Any edge from the
source may have earned it that credit and other events may have passed over the node since. So it need
not be the truth of the node that is taken back, unless truth is all that can come from the source and
nothing else can take it away. -/

namespace ReasonGraph
variable {α : Type}

theorem split_of_getLast?_filter {β : Type} {p : β → Bool} {l : List β} {x : β}
    (h : (l.filter p).getLast? = some x) :
    p x = true ∧ ∃ before since, l = before ++ x :: since ∧ ∀ y ∈ since, p y = false := by
  induction l using List.reverseRecOn with
  | nil => cases h
  | append_singleton l last ih =>
    rw [List.filter_append] at h
    cases hlast : p last with
    | true =>
      obtain rfl : last = x := by simpa [hlast] using h
      exact ⟨hlast, l, [], rfl, by simp⟩
    | false =>
      have hearlier : (l.filter p).getLast? = some x := by simpa [hlast] using h
      obtain ⟨hx, before, since, rfl, hsince⟩ := ih hearlier
      refine ⟨hx, before, since ++ [last], by simp, ?_⟩
      intro y hy
      rcases List.mem_append.1 hy with hy | hy
      · exact hsince y hy
      · rwa [List.mem_singleton.1 hy]

theorem Event.gave_of_credited {log : List (Event α)} {id d : String}
    (h : d ∈ (log.filter (·.target = id)).foldl credit []) :
    ∃ before gave since, log = before ++ gave :: since ∧ gave.source = d ∧ gave.target = id ∧
      gave.isWithdrawal = false ∧ ∀ x ∈ since, x.target = id → x.source ≠ d := by
  rw [mem_credited_iff, List.filter_filter] at h
  cases hlast : (log.filter fun ev => decide (ev.source = d) && decide (ev.target = id)).getLast?
    with
  | none =>
    rw [hlast] at h
    cases h
  | some gave =>
    rw [hlast] at h
    obtain ⟨hends, before, since, hlog, hsince⟩ := split_of_getLast?_filter hlast
    simp only [Bool.and_eq_true, decide_eq_true_eq] at hends
    refine ⟨before, gave, since, hlog, hends.1, hends.2, h, fun x hx htarget hsource => ?_⟩
    have hnot := hsince x hx
    simp [htarget, hsource] at hnot

theorem replay_holds {readings : String → Option (Reading α)} {id : String} {gave : Event α}
    {before since : List (Event α)} (htarget : gave.target = id) (hholds : gave.newLogic = .holds)
    (hkeeps : ∀ earlier x later, since = earlier ++ x :: later → x.target = id →
      (∃ reading, replay readings (before ++ gave :: earlier) id = some reading ∧
        reading.logic = .holds) → x.newLogic = .holds) :
    ∃ reading, replay readings (before ++ gave :: since) id = some reading ∧
      reading.logic = .holds := by
  induction since using List.reverseRecOn with
  | nil =>
    rw [replay_append]
    exact ⟨⟨gave.newLogic, gave.newConfidence⟩, by simp [replay, htarget], hholds⟩
  | append_singleton since last ih =>
    have hheld := ih fun earlier x later hsplit =>
      hkeeps earlier x (later ++ [last]) (by simp [hsplit])
    rw [← List.cons_append, ← List.append_assoc, replay_append]
    by_cases hid : last.target = id
    · have hlast := hkeeps since last [] rfl hid hheld
      exact ⟨⟨last.newLogic, last.newConfidence⟩, by simp [replay, hid], hlast⟩
    · simpa [replay, hid] using hheld

/-- Whether a node holds is left to one other: the edges that lead from that one to it achieve it,
what enters it from elsewhere supports or causes it, and nothing that leaves it is read backwards. -/
structure IsLeftTo (edges : List (Edge α)) (goal achiever : String) : Prop where
  own : ∀ edge ∈ edges, edge.source = achiever → edge.target = goal →
    edge.relation = Relation.achieves.name
  others : ∀ edge ∈ edges, edge.source ≠ achiever → edge.target = goal →
    ∀ r : Relation, edge.relation = r.name → r = .supports ∨ r = .causes
  back : ∀ edge ∈ edges, edge.source = goal →
    ∀ r : Relation, edge.relation = r.name → Rule.isMutual r = false

/-- How a withdrawal is accounted for by the events before it. Its source fails, its target is not in
conflict, and no other edge achieves the target from a node that holds. The last event from the source
to the target was no withdrawal, and the last event there of all left it as it is found. -/
structure Event.TakesBack (ev : Event α) (edges : List (Edge α))
    (readings : String → Option (Reading α)) (earlier : List (Event α)) : Prop where
  failing : ∃ source, replay readings earlier ev.source = some source ∧ source.logic = .fails
  loose : ev.oldLogic ≠ .conflict
  alone : ∀ edge ∈ edges, edge.relation = Relation.achieves.name → edge.target = ev.target →
    edge.id ≠ ev.edge → ∀ source, replay readings earlier edge.source = some source →
      source.logic ≠ .holds
  credited : ∃ before gave since, earlier = before ++ gave :: since ∧ gave.source = ev.source ∧
    gave.target = ev.target ∧ gave.isWithdrawal = false ∧
    ∀ x ∈ since, x.target = ev.target → x.source ≠ ev.source
  found : ∃ last, (earlier.filter (·.target = ev.target)).getLast? = some last ∧
    last.newLogic = ev.oldLogic

variable [Quantity α]

namespace Rule
variable {e : Evidence α} {p : Proposal α}

theorem achievement_holds (h : inference .achieves e = some p) (hnot : p.logic ≠ .unknown) :
    p.logic = .holds := by
  simp only [inference, achievement] at h
  repeat' split at h
  all_goals cases h
  · rfl
  · exact absurd rfl hnot

theorem inference_keeps_truth {r : Relation} (h : inference r e = some p)
    (hr : r = .supports ∨ r = .causes ∧ e.reversed = false) (htarget : e.target.logic = .holds) :
    p.logic = .holds := by
  rcases hr with rfl | ⟨rfl, hforward⟩
  · simp only [inference, support, htarget] at h
    repeat' split at h
    all_goals cases h
    all_goals rfl
  · have hopen : e.target.logic ≠ .fails := by simp [htarget]
    simp only [inference, causation, hforward, Bool.false_eq_true, if_false, effect, hopen] at h
    repeat' split at h
    all_goals cases h
    rfl

end Rule

namespace Setting
variable {s : Setting α} {nodes : List (Node α)} {edges : List (Edge α)} {h : Hop α × Rule α}
  {t : Table α} {c : Change α} {goal achiever : String}

theorem change?_found (hc : s.change? t h = some c) :
    t.readings c.event.target = some ⟨c.event.oldLogic, c.event.oldConfidence⟩ := by
  obtain ⟨e, p, he, -, -, -, rfl⟩ := Hop.change?_eq_some hc
  rw [Table.readings, Proposal.change_target, (Hop.evidence?_shows he).2.1]
  rfl

variable (hg : s.graph = .ofLists nodes edges) (hregistry : s.registry = .builtin)
  (hh : h ∈ s.hops)
include hg hregistry hh

theorem credited_of_withdrawal (hc : s.change? t h = some c)
    (hwithdraws : c.event.isWithdrawal = true) :
    ∃ source target, t.get? c.event.source = some source ∧ source.logic = .fails ∧
      t.get? c.event.target = some target ∧ c.event.source ∈ target.derivedFrom := by
  obtain ⟨e, p, he, hp, hfails⟩ := achievement_of_withdrawal hg hregistry hh hc hwithdraws
  obtain ⟨hsource, htarget, -⟩ := Hop.evidence?_shows he
  have hdrives := (Rule.achievement_lost hp hfails).1
  rw [hg] at he
  rw [(change?_credit hg hregistry hh hc).1, change?_target hc]
  exact ⟨e.source, e.target, hsource, hfails, htarget, (Hop.evidence?_ids he).1 ▸ hdrives⟩

/-- A withdrawal is accounted for by the log of the moment when it is made. -/
theorem takesBack_of_credits {seeds : Table α} {given : String → List String} {now : Ledger α}
    (hnow : s.Credits seeds given now) (hgiven : ∀ id, given id = [])
    (hc : s.change? now.states h = some c) (hwithdraws : c.event.isWithdrawal = true) :
    c.event.TakesBack edges seeds.readings now.events := by
  obtain ⟨source, target, hsource, hfails, htarget, hdrives⟩ :=
    credited_of_withdrawal hg hregistry hh hc hwithdraws
  have hfound := change?_found hc
  rw [hnow.drivers _ _ htarget, hgiven] at hdrives
  have hgave := Event.gave_of_credited hdrives
  constructor
  · rw [hnow.audited.replayed, Table.readings, hsource]
    exact ⟨source.reading, rfl, hfails⟩
  · obtain ⟨r, hrule, -⟩ := rule_of_mem_hops hregistry hh
    rw [Table.readings, htarget, Option.map_some, Option.some.injEq] at hfound
    intro hconflict
    apply change?_target_open hrule hc
    exact ⟨target, htarget, (congrArg Reading.logic hfound).trans hconflict⟩
  · intro edge hedge hachieves hinto hother source hreading hholds
    rw [hnow.audited.replayed, Table.readings, Option.map_eq_some_iff] at hreading
    obtain ⟨state, hstate, rfl⟩ := hreading
    have hnone := unachieved_of_withdrawal hg hregistry hh hc hwithdraws
    rw [Table.achievedOtherwise_eq_true.2 ⟨edge, hedge, hinto.trans (change?_target hc),
      change?_edge hc ▸ hother, hachieves, state, hstate, hholds⟩] at hnone
    cases hnone
  · exact hgave
  · obtain ⟨before, gave, since, hlog, -, hinto, -⟩ := hgave
    have hsome : now.events.filter (·.target = c.event.target) ≠ [] :=
      List.ne_nil_of_mem (List.mem_filter.2 ⟨by simp [hlog], decide_eq_true hinto⟩)
    have hlast := List.getLast?_eq_some_getLast hsome
    have hleft := replay_of_last seeds.readings hlast
    rw [hnow.audited.replayed, hfound, Option.some.injEq] at hleft
    exact ⟨_, hlast, (congrArg Reading.logic hleft).symm⟩

variable (hleft : IsLeftTo edges goal achiever) (htarget : h.1.target = goal)
include hleft htarget

theorem forward_of_isLeftTo : h.1.reversed = false ∧ h.1.edge ∈ edges ∧
    h.1.edge.source = h.1.source ∧ h.1.edge.target = goal := by
  obtain ⟨hedge, -, hmutual⟩ := mem_hops.1 hh
  obtain ⟨r, hrule, hrel⟩ := rule_of_mem_hops hregistry hh
  rw [hg] at hedge
  rw [hrule] at hmutual
  unfold Hop.target at htarget
  unfold Hop.source
  cases hreversed : h.1.reversed with
  | false =>
    rw [hreversed] at htarget
    exact ⟨rfl, hedge, rfl, htarget⟩
  | true =>
    rw [hreversed] at htarget
    have hnot := hleft.back h.1.edge hedge htarget r hrel
    cases hnot.symm.trans (hmutual hreversed)

theorem holds_of_isLeftTo (hc : s.change? t h = some c) (hsource : h.1.source = achiever)
    (hkept : c.event.isWithdrawal = false) :
    c.event.relation = Relation.achieves.name ∧ c.event.newLogic = .holds := by
  obtain ⟨-, hedge, hfrom, hinto⟩ := forward_of_isLeftTo hg hregistry hh hleft htarget
  have hachieves := hleft.own h.1.edge hedge (hfrom.trans hsource) hinto
  obtain ⟨r, hrule, hrel⟩ := rule_of_mem_hops hregistry hh
  obtain rfl : r = .achieves := Relation.name_injective (hrel.symm.trans hachieves)
  obtain ⟨e, p, he, hp, -, -, rfl⟩ := Hop.change?_eq_some hc
  rw [hrule] at hp
  refine ⟨hachieves, Rule.achievement_holds (floored_eq_some hp).2 ?_⟩
  intro hunknown
  rw [Event.isWithdrawal_iff.2 ⟨hachieves, hunknown⟩] at hkept
  cases hkept

theorem still_holds_of_isLeftTo (hc : s.change? t h = some c) (hsource : h.1.source ≠ achiever)
    (hholds : t.holds goal = true) : c.event.newLogic = .holds := by
  obtain ⟨hforward, hedge, hfrom, hinto⟩ := forward_of_isLeftTo hg hregistry hh hleft htarget
  have helse : h.1.edge.source ≠ achiever := fun heq => hsource (hfrom.symm.trans heq)
  obtain ⟨r, hrule, hrel⟩ := rule_of_mem_hops hregistry hh
  have hway := hleft.others h.1.edge hedge helse hinto r hrel
  obtain ⟨e, p, he, hp, -, -, rfl⟩ := Hop.change?_eq_some hc
  obtain ⟨-, hshown, -, hreversed⟩ := Hop.evidence?_shows he
  obtain ⟨state, hstate, hlogic⟩ := Table.holds_iff.1 hholds
  rw [htarget, hstate, Option.some.injEq] at hshown
  rw [hrule] at hp
  apply Rule.inference_keeps_truth (floored_eq_some hp).2
  · exact hway.imp_right fun hcauses => ⟨hcauses, hreversed.trans hforward⟩
  · exact hshown ▸ hlogic

end Setting

namespace Engine
variable {e : Engine α} {nodes : List (Node α)} {edges : List (Edge α)} {overrides : Overrides α}
  {r : Result α}

theorem reading_of_run (hregistry : e.registry = .builtin)
    (hrun : (e.run nodes edges overrides).2 = .ok r) {earlier later : List (Event α)}
    {ev : Event α} (hsplit : r.events = earlier ++ ev :: later) :
    ∃ now h c, (e.setting (.ofLists nodes edges)).Credits
        (e.prepare nodes overrides).1.ledger.states overrides.drivers now ∧
      now.events = earlier ∧ h ∈ (e.setting (.ofLists nodes edges)).hops ∧
      (e.setting (.ofLists nodes edges)).change? now.states h = some c ∧ c.event = ev := by
  obtain ⟨seeds, haccepted⟩ := accepted_of_run hrun
  rw [(run_result hrun).2, run_eq_after haccepted] at hsplit
  obtain ⟨read, h, unread, c, htrail, hevents, hc, hev⟩ := Setting.reading_of_event
    (l := e.start nodes edges overrides) (by rw [start_events]; exact hsplit)
  rw [start_events, List.nil_append] at hevents
  have hhops : ∀ h' ∈ read ++ h :: unread, h' ∈ (e.setting (.ofLists nodes edges)).hops := by
    intro h' hh'
    rw [← htrail] at hh'
    exact mem_hops_of_mem_runTrail hh'
  refine ⟨_, h, c, Setting.after_credits rfl hregistry (fun h' hh' => ?_)
    (e.start_credits nodes edges overrides), hevents, hhops h (by simp), hc, hev⟩
  exact hhops h' (List.mem_append_left _ hh')

theorem run_leaves_to (hregistry : e.registry = .builtin)
    (hrun : (e.run nodes edges overrides).2 = .ok r) {goal achiever : String}
    (hleft : IsLeftTo edges goal achiever) {before since later : List (Event α)} {gave : Event α}
    (hsplit : r.events = before ++ gave :: since ++ later) (hsource : gave.source = achiever)
    (htarget : gave.target = goal) (hkept : gave.isWithdrawal = false)
    (hothers : ∀ x ∈ since, x.target = goal → x.source ≠ achiever) :
    gave.relation = Relation.achieves.name ∧ gave.newLogic = .holds ∧
      ∃ reading, replay (e.prepare nodes overrides).1.ledger.states.readings
        (before ++ gave :: since) goal = some reading ∧ reading.logic = .holds := by
  have hgave : gave.relation = Relation.achieves.name ∧ gave.newLogic = .holds := by
    have hfirst : r.events = before ++ gave :: (since ++ later) := by simp [hsplit]
    obtain ⟨now, h, c, -, -, hh, hc, rfl⟩ := reading_of_run hregistry hrun hfirst
    have hfrom := (Setting.change?_credit rfl hregistry hh hc).1
    have hinto := (Setting.change?_target hc).symm.trans htarget
    exact Setting.holds_of_isLeftTo rfl hregistry hh hleft hinto hc (hfrom.symm.trans hsource) hkept
  refine ⟨hgave.1, hgave.2, replay_holds htarget hgave.2 ?_⟩
  intro earlier x rest hsince hinto hheld
  have hnext : r.events = (before ++ gave :: earlier) ++ x :: (rest ++ later) := by
    simp [hsplit, hsince]
  obtain ⟨now, h, c, hnow, hevents, hh, hc, rfl⟩ := reading_of_run hregistry hrun hnext
  have hfrom := (Setting.change?_credit rfl hregistry hh hc).1
  have helse := hothers c.event (by simp [hsince]) hinto
  rw [hfrom] at helse
  rw [Setting.change?_target hc] at hinto
  rw [← hevents, hnow.audited.replayed] at hheld
  obtain ⟨reading, hreading, hlogic⟩ := hheld
  obtain ⟨state, hstate, rfl⟩ := Option.map_eq_some_iff.1 hreading
  exact Setting.still_holds_of_isLeftTo rfl hregistry hh hleft hinto hc helse
    (Table.holds_iff.2 ⟨state, hstate, hlogic⟩)

/-- In a run to which no drivers are given every withdrawal of an achievement is accounted for by the
events before it. If it is left to the source whether the target holds, then it did so at that moment,
and an event from the source had made it hold. -/
theorem run_takes_back (hregistry : e.registry = .builtin)
    (hgiven : ∀ id, overrides.drivers id = [])
    (hrun : (e.run nodes edges overrides).2 = .ok r) {earlier later : List (Event α)}
    {ev : Event α} (hsplit : r.events = earlier ++ ev :: later)
    (hachieves : ev.relation = Relation.achieves.name) (hunknown : ev.newLogic = .unknown) :
    ev.TakesBack edges (e.prepare nodes overrides).1.ledger.states.readings earlier ∧
      (IsLeftTo edges ev.target ev.source → ev.oldLogic = .holds ∧
        ∃ gave ∈ earlier, gave.source = ev.source ∧ gave.target = ev.target ∧
          gave.relation = Relation.achieves.name ∧ gave.newLogic = .holds) := by
  obtain ⟨now, h, c, hnow, rfl, hh, hc, rfl⟩ := reading_of_run hregistry hrun hsplit
  have hback : c.event.TakesBack edges (e.prepare nodes overrides).1.ledger.states.readings
      now.events :=
    Setting.takesBack_of_credits rfl hregistry hh hnow hgiven hc
      (Event.isWithdrawal_iff.2 ⟨hachieves, hunknown⟩)
  refine ⟨hback, fun hleft => ?_⟩
  obtain ⟨before, gave, since, hlog, hsource, htarget, hkept, hothers⟩ := hback.credited
  rw [hlog] at hsplit
  obtain ⟨hrelation, hholds, reading, hreading, hheld⟩ :=
    run_leaves_to hregistry hrun hleft hsplit hsource htarget hkept hothers
  rw [← hlog, hnow.audited.replayed, Setting.change?_found hc, Option.some.injEq] at hreading
  refine ⟨?_, gave, by simp [hlog], hsource, htarget, hrelation, hholds⟩
  rw [← hheld, ← hreading]

theorem run_takes_back_hindered :
    let e : Engine Float := .new .standard .builtin
    let nodes : List (Node Float) :=
      [⟨"a", .action, "", 90.0⟩, ⟨"g", .goal, "", 50.0⟩, ⟨"h", .fact, "", 90.0⟩]
    let edges : List (Edge Float) :=
      [⟨"ag", "a", "g", "achieves", 1.0⟩, ⟨"ha", "h", "a", "hinders", 0.9⟩]
    ∃ r earlier ev later, (e.run nodes edges ∅).2 = .ok r ∧ r.events = earlier ++ ev :: later ∧
      ev.relation = Relation.achieves.name ∧ ev.newLogic = .unknown ∧
      ev.TakesBack edges (e.prepare nodes ∅).1.ledger.states.readings earlier ∧
      IsLeftTo edges ev.target ev.source ∧ ev.oldLogic = .holds ∧
      ∃ gave ∈ earlier, gave.source = "a" ∧ gave.target = "g" ∧ gave.newLogic = .holds := by
  intro e nodes edges
  obtain ⟨r, hrun, hcheck⟩ : ∃ r, (e.run nodes edges ∅).2 = .ok r ∧ r.events[2]?.any (fun ev =>
      ev.relation = "achieves" ∧ ev.newLogic = .unknown ∧ ev.source = "a" ∧ ev.target = "g") =
        true := ⟨_, rfl, by decide +kernel⟩
  obtain ⟨ev, hev, hfacts⟩ := (Option.any_eq_true _ _).1 hcheck
  obtain ⟨hachieves, hunknown, hsource, htarget⟩ := of_decide_eq_true hfacts
  obtain ⟨hlt, hat⟩ := List.getElem?_eq_some_iff.1 hev
  have hsplit : r.events = r.events.take 2 ++ ev :: r.events.drop 3 := by
    rw [← hat, List.getElem_cons_drop, List.take_append_drop]
  have hleft : IsLeftTo edges ev.target ev.source := by
    have hentered : ∀ edge ∈ edges, edge.source ≠ "a" → edge.target ≠ "g" := by decide
    have hleaves : ∀ edge ∈ edges, edge.source ≠ "g" := by decide
    rw [hsource, htarget]
    constructor
    · decide
    · exact fun edge hedge hother hinto => absurd hinto (hentered edge hedge hother)
    · exact fun edge hedge hfrom => absurd hfrom (hleaves edge hedge)
  obtain ⟨hback, hheld⟩ := run_takes_back rfl (fun _ => rfl) hrun hsplit hachieves hunknown
  obtain ⟨hold, gave, hgave, hfrom, hinto, -, hholds⟩ := hheld hleft
  exact ⟨r, _, ev, _, hrun, hsplit, hachieves, hunknown, hback, hleft, hold, gave, hgave,
    hfrom.trans hsource, hinto.trans htarget, hholds⟩

/-- A goal that depends on the action by which it is achieved fails with it. Then the failure is what
the action is credited with, and it is taken back, although the goal does not hold and the action never
achieved it. -/
theorem failure_taken_back :
    let e : Engine Float := .new .standard .builtin
    let nodes : List (Node Float) := [⟨"a", .action, "", 10.0⟩, ⟨"g", .goal, "", 90.0⟩]
    let edges : List (Edge Float) :=
      [⟨"d", "a", "g", "depends", 1.0⟩, ⟨"m", "a", "g", "achieves", 1.0⟩]
    ∃ r, (e.run nodes edges ∅).2 = .ok r ∧ r.converged = false ∧
      (∀ ev ∈ r.events, ev.newLogic ≠ .holds) ∧
      ¬∀ earlier ev later, r.events = earlier ++ ev :: later →
        ev.relation = Relation.achieves.name → ev.newLogic = .unknown →
        ev.oldLogic = .holds ∧ ∃ gave ∈ earlier, gave.source = ev.source ∧
          gave.target = ev.target ∧ gave.newLogic = .holds := by
  intro e nodes edges
  obtain ⟨r, hrun, hconverged, hnever, hcheck⟩ : ∃ r, (e.run nodes edges ∅).2 = .ok r ∧
      r.converged = false ∧ (∀ ev ∈ r.events, ev.newLogic ≠ .holds) ∧
      r.events[1]?.any (fun ev =>
        ev.relation = "achieves" ∧ ev.newLogic = .unknown ∧ ev.oldLogic = .fails) = true :=
    ⟨_, rfl, by decide +kernel⟩
  obtain ⟨ev, hev, hfacts⟩ := (Option.any_eq_true _ _).1 hcheck
  obtain ⟨hachieves, hunknown, hfailed⟩ := of_decide_eq_true hfacts
  obtain ⟨hlt, hat⟩ := List.getElem?_eq_some_iff.1 hev
  have hsplit : r.events = r.events.take 1 ++ ev :: r.events.drop 2 := by
    rw [← hat, List.getElem_cons_drop, List.take_append_drop]
  refine ⟨r, hrun, hconverged, hnever, fun hclaim => ?_⟩
  have hold := (hclaim _ ev _ hsplit hachieves hunknown).1
  rw [hfailed] at hold
  cases hold

end Engine
end ReasonGraph
