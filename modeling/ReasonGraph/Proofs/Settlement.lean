import ReasonGraph.Proofs.Worklist
import ReasonGraph.Proofs.Steadiness

/-! What a converged update has settled. Its last pass was quiet, but that pass read no more than
the edges of the edited node. The other nodes that the update changed were expanded in an earlier
pass, and what their edges have to say was settled then, unless an edge was left open: something it
looks at was changed later, or it is one that may change the same target again. -/

namespace ReasonGraph
variable {α : Type} [Quantity α]

namespace Setting
variable {s : Setting α} {nodes : List (Node α)} {edges : List (Edge α)}

theorem spreads_builtin (hg : s.graph = .ofLists nodes edges) (hregistry : s.registry = .builtin) :
    s.Spreads := by
  intro id h hh t c hc
  obtain ⟨r, hbuiltin, -⟩ := rule_of_mem_hops hregistry ((mem_hopsAt hg).1 hh).1
  obtain ⟨e, p, -, hp, -, -, rfl⟩ := Hop.change?_eq_some hc
  rw [hbuiltin] at hp
  exact Rule.inference_spreads (floored_eq_some hp).2

/-- Whether a reading may not have the last word on its edge. Something that the edge looks at was
changed afterwards, or the reading changed its target, by a gradual rule or along a loop. -/
def LeavesOpen (s : Setting α) (l : Ledger α) (before : List (Hop α × Rule α)) (h : Hop α × Rule α)
    (later : List (Hop α × Rule α)) : Prop :=
  (∃ id, s.Reads h.1 id ∧
    (s.after l (before ++ h :: later)).WritesSince (s.after l (before ++ [h])) id) ∨
  s.change? (s.after l before).states h ≠ none ∧
    (h.1.source = h.1.target ∨ h.1.IsGradual (s.after l before).states)

/-- What a trail of readings from a node on settles. It reads the edges of the start and those of
every node that it changes, the latter after a change. In the end the edges of the start are quiet,
and so is every edge that was not left open. -/
structure Settles (s : Setting α) (l : Ledger α) (start : String)
    (trail : List (Hop α × Rule α)) : Prop where
  start_quiet : ∀ h ∈ s.hopsAt start, s.change? (s.after l trail).states h = none
  changed_read : ∀ id, id ≠ start → (s.after l trail).WritesSince l id → ∀ h ∈ s.hopsAt id,
    ∃ before later, trail = before ++ h :: later ∧ (s.after l before).WritesSince l id
  read_changed : ∀ h ∈ trail, ∃ id, (id = start ∨ (s.after l trail).WritesSince l id) ∧
    h ∈ s.hopsAt id
  open_or_quiet : ∀ before h later, trail = before ++ h :: later →
    s.LeavesOpen l before h later ∨ s.change? (s.after l trail).states h = none

theorem Settles.quiet_iff {l : Ledger α} {start : String} {trail : List (Hop α × Rule α)}
    (hs : s.Settles l start trail) :
    (∀ id, id = start ∨ (s.after l trail).WritesSince l id →
      ∀ h ∈ s.hopsAt id, s.change? (s.after l trail).states h = none) ↔
    ∀ before h later, trail = before ++ h :: later → s.LeavesOpen l before h later →
      s.change? (s.after l trail).states h = none := by
  constructor
  · intro hquiet before h later hsplit _
    have hmem : h ∈ trail := hsplit ▸ List.mem_append_right before List.mem_cons_self
    obtain ⟨id, hid, hh⟩ := hs.read_changed h hmem
    exact hquiet id hid h hh
  · intro hopen id hid h hh
    by_cases hstart : id = start
    · exact hs.start_quiet h (hstart ▸ hh)
    · obtain ⟨before, later, hsplit, -⟩ :=
        hs.changed_read id hstart (hid.resolve_left hstart) h hh
      rcases hs.open_or_quiet before h later hsplit with h' | hquiet
      · exact hopen before h later hsplit h'
      · exact hquiet

variable [Quantity.IsOrdered α]

theorem change?_of_not_leavesOpen (hg : s.graph = .ofLists nodes edges)
    (hregistry : s.registry = .builtin) {l : Ledger α} (hl : l.states.InRange)
    {before later : List (Hop α × Rule α)} {h : Hop α × Rule α} (hh : h ∈ s.hops)
    (hopen : ¬s.LeavesOpen l before h later) :
    s.change? (s.after l (before ++ h :: later)).states h = none := by
  obtain ⟨hundisturbed, hrepeats⟩ := not_or.1 hopen
  obtain ⟨hop, rule⟩ := h
  obtain ⟨r, rfl, hrel⟩ := rule_of_mem_hops hregistry hh
  have hsplit : s.after l (before ++ (hop, .builtin r) :: later) =
      s.after (s.after l (before ++ [(hop, .builtin r)])) later := by
    rw [← after_append, List.append_assoc]
    rfl
  rw [hsplit] at hundisturbed ⊢
  have hsame : ∀ id, s.Reads hop id →
      (s.after (s.after l (before ++ [(hop, .builtin r)])) later).states.get? id =
        (s.after l (before ++ [(hop, .builtin r)])).states.get? id :=
    fun id hid => after_untouched fun hwritten => hundisturbed ⟨id, hid, hwritten⟩
  rw [change?_frame hg hrel hsame, after_append, after_cons, after_nil]
  rcases s.step_cases (s.after l before) (hop, .builtin r) with ⟨hc, hstep⟩ | ⟨c, hc, hstep⟩
  · rw [hstep]
    exact hc
  · rw [hstep]
    have hchanged : s.change? (s.after l before).states (hop, .builtin r) ≠ none := by simp [hc]
    obtain ⟨hends, hgradual⟩ := not_or.1 fun hor => hrepeats ⟨hchanged, hor⟩
    exact change?_write (s.after_inRange hl before) hrel hends hgradual hc

theorem settles_of_converged (hg : s.graph = .ofLists nodes edges)
    (hregistry : s.registry = .builtin) {l : Ledger α} (hl : l.states.InRange) {start : String}
    (hstart : start ∈ s.graph.ids) {cap : Nat}
    (hconverged : (settle (s.passFrom start) cap l).converged = true) :
    s.Settles l start
      ((settleTrail (s.passFrom start) (s.visitsFrom start) cap l).flatMap s.hopsAt) := by
  have hspreads := spreads_builtin hg hregistry
  constructor
  · rw [← settle_passFrom_ledger]
    obtain ⟨last, hlast⟩ := settle_converged hconverged
    obtain ⟨hsame, hquiet⟩ := passFrom_quiet hstart hlast
    rw [hsame]
    exact hquiet
  · intro id hid hwritten h hh
    rw [← settle_passFrom_ledger] at hwritten
    obtain ⟨before, later, hsplit⟩ := List.append_of_mem (mem_settleTrail hspreads hwritten)
    have hwrote := (settleTrail_written hspreads hsplit).resolve_left hid
    obtain ⟨earlier, further, hat⟩ := List.append_of_mem hh
    refine ⟨before.flatMap s.hopsAt ++ earlier, further ++ later.flatMap s.hopsAt, ?_,
      (s.after_writesSince l _ earlier id).2 (.inl hwrote)⟩
    rw [hsplit, List.flatMap_append, List.flatMap_cons, hat]
    simp only [List.append_assoc, List.cons_append]
  · intro h hh
    obtain ⟨id, hid, hat⟩ := List.mem_flatMap.1 hh
    obtain ⟨before, later, hsplit⟩ := List.append_of_mem hid
    refine ⟨id, (settleTrail_written hspreads hsplit).imp_right fun hwrote => ?_, hat⟩
    rw [hsplit, List.flatMap_append]
    exact (s.after_writesSince l _ _ id).2 (.inl hwrote)
  · intro before h later hsplit
    have hmem := hsplit ▸ List.mem_append_right before (List.mem_cons_self (a := h) (l := later))
    obtain ⟨id, -, hat⟩ := List.mem_flatMap.1 hmem
    rw [hsplit, or_iff_not_imp_left]
    exact change?_of_not_leavesOpen hg hregistry hl ((mem_hopsAt hg).1 hat).1

end Setting

namespace Engine

/-- All readings of an update, in order. -/
def trail (e : Engine α) (id : String) (logic : LogicState) (nodes : List (Node α))
    (edges : List (Edge α)) : List (Hop α × Rule α) :=
  let s := e.setting (.ofLists nodes edges)
  (settleTrail (s.passFrom id) (s.visitsFrom id) e.config.passes
    (e.opening id logic nodes)).flatMap s.hopsAt

/-- Whether every edge is quiet that is read at the edited node or at one that an event of the
update changed. -/
def LeavesQuiet (e : Engine α) (id : String) (nodes : List (Node α)) (edges : List (Edge α))
    (r : Result α) : Prop :=
  ∀ m, (m = id ∨ ∃ ev ∈ r.events.drop e.ledger.events.length, ev.target = m) →
    ∀ h ∈ (e.setting (.ofLists nodes edges)).hopsAt m,
      (e.setting (.ofLists nodes edges)).change? r.states h = none

def unsettles (e : Engine α) (id : String) (logic : LogicState) (nodes : List (Node α))
    (edges : List (Edge α)) (m : String) : Bool :=
  let s := e.setting (.ofLists nodes edges)
  (e.update id logic nodes edges).2.toOption.any fun r =>
    r.converged && (r.events.drop e.ledger.events.length).any (fun ev => ev.target = m) &&
      (s.hopsAt m).any fun h => (s.change? r.states h).isSome

theorem not_leavesQuiet_of_unsettles {e : Engine α} {id : String} {logic : LogicState}
    {nodes : List (Node α)} {edges : List (Edge α)} {m : String}
    (h : e.unsettles id logic nodes edges m = true) :
    ∃ r, (e.update id logic nodes edges).2 = .ok r ∧ r.converged = true ∧
      ¬e.LeavesQuiet id nodes edges r := by
  unfold unsettles at h
  cases hr : (e.update id logic nodes edges).2 with
  | error _ => rw [hr] at h; cases h
  | ok r =>
    rw [hr] at h
    simp only [Except.toOption, Option.any_some, Bool.and_eq_true, List.any_eq_true,
      decide_eq_true_eq] at h
    obtain ⟨⟨hconverged, hwritten⟩, hop, hhop, hloud⟩ := h
    refine ⟨r, rfl, hconverged, fun hquiet => ?_⟩
    rw [hquiet m (.inr hwritten) hop hhop] at hloud
    cases hloud

variable [Quantity.IsOrdered α]

/-- Just when a converged update after a run leaves all edges quiet at the nodes it touched: no
edge that a reading left open has more to change. -/
theorem update_leavesQuiet_iff {e₀ : Engine α} (hregistry : e₀.registry = .builtin)
    {nodes : List (Node α)} {edges : List (Edge α)} {overrides : Overrides α}
    (hrange : Node.InRange nodes overrides) {id : String} (hid : id ∈ nodes.map Node.id)
    {logic : LogicState} {r : Result α} :
    let e := (e₀.run nodes edges overrides).1
    let s := e.setting (.ofLists nodes edges)
    let l := e.opening id logic nodes
    let trail := e.trail id logic nodes edges
    (e.update id logic nodes edges).2 = .ok r → r.converged = true →
      r.states = (s.after l trail).states ∧ r.events = (s.after l trail).events ∧
        (e.LeavesQuiet id nodes edges r ↔ ∀ before h later, trail = before ++ h :: later →
          s.LeavesOpen l before h later → s.change? r.states h = none) := by
  intro e s l trail hupdate hconverged
  have hbuiltin : s.registry = .builtin := (e₀.run_registry nodes edges overrides).trans hregistry
  have hl : l.states.InRange := opening_inRange (e₀.run_inRange edges hrange) hrange.static id logic
  have hledger : (settle (s.passFrom id) e.config.passes l).ledger = s.after l trail :=
    s.settle_passFrom_ledger id e.config.passes l
  obtain rfl := update_ok hid hupdate
  have hsettles : s.Settles l id trail :=
    Setting.settles_of_converged rfl hbuiltin hl (Snapshot.mem_keys_nodeMap.2 hid) hconverged
  have hstates := congrArg Ledger.states hledger
  have hevents := congrArg Ledger.events hledger
  refine ⟨hstates, hevents, ?_⟩
  have hopening : l.events = e.ledger.events := e.opening_events id logic nodes
  have hquiet := hsettles.quiet_iff
  simp only [Ledger.WritesSince, ← hledger, hopening] at hquiet
  exact hquiet

theorem update_leavesQuiet_iff_cascade :
    let e₀ : Engine Float := .new .standard .builtin
    let nodes : List (Node Float) :=
      [⟨"n", .goal, "", 50.0⟩, ⟨"a", .goal, "", 50.0⟩, ⟨"b", .goal, "", 50.0⟩]
    let edges : List (Edge Float) :=
      [⟨"na", "n", "a", "causes", 1.0⟩, ⟨"ab", "a", "b", "causes", 1.5⟩]
    let e := (e₀.run nodes edges ∅).1
    let s := e.setting (.ofLists nodes edges)
    ∃ r, (e.update "n" .holds nodes edges).2 = .ok r ∧ r.converged = true ∧ r.events.length = 2 ∧
      (e.LeavesQuiet "n" nodes edges r ↔
        ∀ before h later, e.trail "n" .holds nodes edges = before ++ h :: later →
          s.LeavesOpen (e.opening "n" .holds nodes) before h later →
            s.change? r.states h = none) := by
  intro e₀ nodes edges e s
  have hrange : Node.InRange nodes ∅ := ⟨by decide +kernel, fun _ _ _ h => by cases h⟩
  have hcheck : (e.update "n" .holds nodes edges).2.toOption.any
      (fun r => r.converged && r.events.length = 2) = true := by decide +kernel
  cases hr : (e.update "n" .holds nodes edges).2 with
  | error _ => rw [hr] at hcheck; cases hcheck
  | ok r =>
    rw [hr] at hcheck
    obtain ⟨hconverged, hlength⟩ : r.converged = true ∧ r.events.length = 2 := by
      simpa [Except.toOption] using hcheck
    exact ⟨r, rfl, hconverged, hlength,
      (update_leavesQuiet_iff rfl hrange (by decide) hr hconverged).2.2⟩

/-- An update that converged may leave more to change: where a gradual edge moved its target, where
a change came back to a node after it was expanded, and where an edge is a loop. -/
theorem converged_update_not_quiet :
    let e₀ : Engine Float := .new .standard .builtin
    let nodes : List (Node Float) :=
      [⟨"n", .assumption, "", 50.0⟩, ⟨"a", .goal, "", 50.0⟩, ⟨"b", .goal, "", 50.0⟩]
    let first : Edge Float := ⟨"na", "n", "a", "causes", 1.0⟩
    let graphs : List (List (Edge Float)) :=
      [[first, ⟨"ab", "a", "b", "supports", 1.0⟩],
        [first, ⟨"ab", "a", "b", "causes", 1.5⟩, ⟨"ba", "b", "a", "causes", 1.0⟩],
        [first, ⟨"aa", "a", "a", "causes", 1.5⟩]]
    ∀ edges ∈ graphs,
      let run := e₀.run nodes edges ∅
      run.2.toOption.any (·.converged) = true ∧
        ∃ r, (run.1.update "n" .holds nodes edges).2 = .ok r ∧ r.converged = true ∧
          ¬run.1.LeavesQuiet "n" nodes edges r := by
  intro e₀ nodes first graphs edges hedges run
  have hcheck : ∀ edges ∈ graphs, (e₀.run nodes edges ∅).2.toOption.any (·.converged) = true ∧
      (e₀.run nodes edges ∅).1.unsettles "n" .holds nodes edges "a" = true := by decide +kernel
  obtain ⟨hrun, hunsettles⟩ := hcheck edges hedges
  exact ⟨hrun, not_leavesQuiet_of_unsettles hunsettles⟩

end Engine
end ReasonGraph
