import ReasonGraph.Proofs.Trail

/-! The log of a call accounts for everything the call did. A log is an audit of two tables if
every event names the reading its target had at that moment, if replaying the log over the first
table gives the readings of the second, and if what no event names is the same in both. One
reading of an edge is audited by the event it writes, audits follow one another, and so every
call is audited by the events it appends. -/

namespace ReasonGraph
variable {α : Type}

def Table.readings (t : Table α) (id : String) : Option (Reading α) :=
  (t.get? id).map NodeState.reading

structure Audit (before after : Table α) (log : List (Event α)) : Prop where
  told : ∀ earlier e later, log = earlier ++ e :: later →
    replay before.readings earlier e.target = some ⟨e.oldLogic, e.oldConfidence⟩
  replayed : replay before.readings log = after.readings
  untouched : ∀ id, (∀ e ∈ log, e.target ≠ id) → after.get? id = before.get? id

namespace Audit

theorem refl (t : Table α) : Audit t t [] where
  told := by
    intro earlier e later h
    simp at h
  replayed := rfl
  untouched _ _ := rfl

theorem trans {a b c : Table α} {xs ys : List (Event α)} (hab : Audit a b xs)
    (hbc : Audit b c ys) : Audit a c (xs ++ ys) where
  told := by
    intro earlier e later h
    rcases append_eq_append_cons h with ⟨rest, hxs, -⟩ | ⟨rest, rfl, hys⟩
    · exact hab.told earlier e rest hxs
    · rw [replay_append, hab.replayed]
      exact hbc.told rest e later hys
  replayed := by rw [replay_append, hab.replayed, hbc.replayed]
  untouched := by
    intro id hid
    rw [hbc.untouched id fun e he => hid e (List.mem_append_right xs he),
      hab.untouched id fun e he => hid e (List.mem_append_left ys he)]

end Audit

/-- One ledger continues another if its new events audit what is new in its table. -/
structure Ledger.Continues (before after : Ledger α) (log : List (Event α)) : Prop where
  appended : after.events = before.events ++ log
  audited : Audit before.states after.states log

namespace Ledger.Continues

theorem refl (l : Ledger α) : l.Continues l [] := ⟨by simp, Audit.refl l.states⟩

theorem trans {a b c : Ledger α} {xs ys : List (Event α)} (hab : a.Continues b xs)
    (hbc : b.Continues c ys) : a.Continues c (xs ++ ys) where
  appended := by rw [hbc.appended, hab.appended, List.append_assoc]
  audited := hab.audited.trans hbc.audited

end Ledger.Continues

variable [Quantity α]

theorem Setting.write_continues {s : Setting α} {l : Ledger α} {h : Hop α × Rule α}
    {c : Change α} (hc : s.change? l.states h = some c) : l.Continues (l.write c) [c.event] := by
  obtain ⟨e, p, he, -, -, -, rfl⟩ := Hop.change?_eq_some hc
  obtain ⟨_, _, _, target, -, -, -, htarget, rfl⟩ := Hop.evidence?_eq_some he
  refine ⟨rfl, ?_, ?_, ?_⟩
  · intro earlier e later hlog
    cases earlier with
    | nil =>
      obtain ⟨rfl, -⟩ := List.cons.inj hlog
      simp [replay, Table.readings, Proposal.change, htarget, NodeState.reading]
    | cons => simp at hlog
  · funext id
    simp only [replay, Table.readings, Ledger.write_get?]
    split <;> rfl
  · intro id hid
    rw [Ledger.write_get?, if_neg (hid _ (List.mem_singleton_self _))]

theorem Setting.step_continues (s : Setting α) (l : Ledger α) (h : Hop α × Rule α) :
    ∃ log, l.Continues (s.step l h) log := by
  rcases s.step_cases l h with ⟨-, hstep⟩ | ⟨c, hc, hstep⟩
  · rw [hstep]
    exact ⟨[], .refl l⟩
  · rw [hstep]
    exact ⟨[c.event], write_continues hc⟩

theorem Setting.after_continues (s : Setting α) (l : Ledger α) (hops : List (Hop α × Rule α)) :
    ∃ log, l.Continues (s.after l hops) log := by
  induction hops generalizing l with
  | nil => exact ⟨[], .refl l⟩
  | cons h rest ih =>
    obtain ⟨first, hfirst⟩ := s.step_continues l h
    obtain ⟨later, hlater⟩ := ih (s.step l h)
    exact ⟨first ++ later, hfirst.trans hlater⟩

/-- Every event that some readings add was written by one of them, at a moment when the table said what
the events before it had left. -/
theorem Setting.moment_of_event {s : Setting α} {l : Ledger α} {hops : List (Hop α × Rule α)}
    {earlier later : List (Event α)} {ev : Event α}
    (hsplit : (s.after l hops).events = l.events ++ (earlier ++ ev :: later)) :
    ∃ read h c, h ∈ hops ∧
      replay l.states.readings earlier = (s.after l read).states.readings ∧
      s.change? (s.after l read).states h = some c ∧ c.event = ev := by
  obtain ⟨read, h, unread, c, rfl, hread, hc, hev⟩ := reading_of_event hsplit
  obtain ⟨log, hlog⟩ := s.after_continues l read
  obtain rfl : log = earlier := List.append_cancel_left (hlog.appended.symm.trans hread)
  exact ⟨read, h, c, by simp, hlog.audited.replayed, hc, hev⟩

theorem Setting.events_prefix (s : Setting α) (l : Ledger α) (hops : List (Hop α × Rule α)) :
    l.events <+: (s.after l hops).events :=
  (s.after_continues l hops).elim fun log hlog => ⟨log, hlog.appended.symm⟩

namespace Engine

theorem prepare_events (e : Engine α) (nodes : List (Node α)) (overrides : Overrides α) :
    (e.prepare nodes overrides).1.ledger.events = [] := by
  simp only [prepare]
  rcases hseed : e.seed (Snapshot.nodeMap nodes) overrides with ⟨seeded, rejection⟩
  have hevents : seeded.ledger.events = [] := congrArg (fun x => x.1.ledger.events) hseed.symm
  cases rejection <;> exact hevents

theorem run_continues (e : Engine α) (nodes : List (Node α)) (edges : List (Edge α))
    (overrides : Overrides α) :
    ∃ log, (e.prepare nodes overrides).1.ledger.Continues
      (e.run nodes edges overrides).1.ledger log := by
  rcases hseed : e.seed (Snapshot.nodeMap nodes) overrides with ⟨seeded, rejection⟩
  cases rejection with
  | some r =>
    rw [run_of_rejected hseed]
    simp only [prepare, hseed]
    exact ⟨[], .refl _⟩
  | none =>
    rw [run_of_seeded hseed]
    simp only [prepare, hseed]
    have hnoted : seeded.ledger.Continues (seeded.noteCycles (.ofLists nodes edges)) [] := by
      unfold noteCycles
      split
      · exact ⟨by simp, .refl _⟩
      · exact .refl _
    rw [Setting.settle_fullPass_ledger]
    obtain ⟨log, hlog⟩ := Setting.after_continues (seeded.setting (.ofLists nodes edges))
      (seeded.noteCycles (.ofLists nodes edges)) _
    exact ⟨[] ++ log, hnoted.trans hlog⟩

theorem update_continues (e : Engine α) (id : String) (logic : LogicState)
    (nodes : List (Node α)) (edges : List (Edge α)) :
    ∃ log, (e.opening id logic nodes).Continues (e.update id logic nodes edges).1.ledger log := by
  rcases e.update_cases id logic nodes edges with ⟨outcome, hupdate, -⟩ | hupdate
  · rw [hupdate]
    exact ⟨[], .refl _⟩
  · rw [hupdate]
    simp only
    rw [Setting.settle_passFrom_ledger]
    exact Setting.after_continues _ _ _

theorem run_shows {e : Engine α} {nodes : List (Node α)} {edges : List (Edge α)}
    {overrides : Overrides α} {r : Result α} (h : (e.run nodes edges overrides).2 = .ok r) :
    r = (Settled.mk (e.run nodes edges overrides).1.ledger r.converged r.iterations).result := by
  rcases hseed : e.seed (Snapshot.nodeMap nodes) overrides with ⟨seeded, rejection⟩
  cases rejection with
  | some _ => rw [run_of_rejected hseed] at h; cases h
  | none =>
    rw [run_of_seeded hseed] at h ⊢
    cases h
    rfl

theorem update_shows {e : Engine α} {id : String} {logic : LogicState} {nodes : List (Node α)}
    {edges : List (Edge α)} {r : Result α} (h : (e.update id logic nodes edges).2 = .ok r) :
    r = (Settled.mk (e.update id logic nodes edges).1.ledger r.converged r.iterations).result := by
  rcases e.update_cases id logic nodes edges with ⟨outcome, hupdate, hr⟩ | hupdate
  · rw [hupdate] at h ⊢
    rw [(hr r h).1]
    rfl
  · rw [hupdate] at h ⊢
    cases h
    rfl

theorem run_result {e : Engine α} {nodes : List (Node α)} {edges : List (Edge α)}
    {overrides : Overrides α} {r : Result α} (h : (e.run nodes edges overrides).2 = .ok r) :
    r.states = (e.run nodes edges overrides).1.ledger.states ∧
      r.events = (e.run nodes edges overrides).1.ledger.events :=
  ⟨congrArg Result.states (run_shows h), congrArg Result.events (run_shows h)⟩

theorem update_result {e : Engine α} {id : String} {logic : LogicState} {nodes : List (Node α)}
    {edges : List (Edge α)} {r : Result α} (h : (e.update id logic nodes edges).2 = .ok r) :
    r.states = (e.update id logic nodes edges).1.ledger.states ∧
      r.events = (e.update id logic nodes edges).1.ledger.events :=
  ⟨congrArg Result.states (update_shows h), congrArg Result.events (update_shows h)⟩

/-- Whatever the rules and whatever the engine held, the events a call appends audit the way
from the seeded or edited table to the table it leaves, and its result shows that table and
all events held. -/
theorem calls_audited (e : Engine α) (nodes : List (Node α)) (edges : List (Edge α)) :
    (∀ overrides,
      let call := e.run nodes edges overrides
      Audit (e.prepare nodes overrides).1.ledger.states call.1.ledger.states
          call.1.ledger.events ∧
        ∀ r, call.2 = .ok r →
          r.states = call.1.ledger.states ∧ r.events = call.1.ledger.events) ∧
    (∀ id logic,
      let call := e.update id logic nodes edges
      (∃ log, call.1.ledger.events = e.ledger.events ++ log ∧
        Audit (e.opening id logic nodes).states call.1.ledger.states log) ∧
        ∀ r, call.2 = .ok r →
          r.states = call.1.ledger.states ∧ r.events = call.1.ledger.events) := by
  refine ⟨fun overrides => ⟨?_, fun _ => run_result⟩, fun id logic => ⟨?_, fun _ => update_result⟩⟩
  · obtain ⟨log, happended, haudited⟩ := e.run_continues nodes edges overrides
    rw [e.prepare_events, List.nil_append] at happended
    rw [happended]
    exact haudited
  · obtain ⟨log, happended, haudited⟩ := e.update_continues id logic nodes edges
    rw [e.opening_events] at happended
    exact ⟨log, happended, haudited⟩

theorem calls_audited_cause :
    let e : Engine Float := .new .standard .builtin
    let nodes : List (Node Float) := [⟨"rain", .fact, "", 90.0⟩, ⟨"wet", .conclusion, "", 50.0⟩]
    let edges : List (Edge Float) := [⟨"e", "rain", "wet", "causes", 1.0⟩]
    (∃ r, (e.run nodes edges ∅).2 = .ok r ∧ r.events.length = 1 ∧
      Audit (e.prepare nodes ∅).1.ledger.states r.states r.events) ∧
    ∃ r, (e.update "wet" .fails nodes edges).2 = .ok r ∧ r.events.length = 1 ∧
      Audit (e.opening "wet" .fails nodes).states r.states r.events := by
  intro e nodes edges
  obtain ⟨haudit, hresult⟩ := (e.calls_audited nodes edges).1 ∅
  obtain ⟨⟨log, hlog, hedit⟩, hedited⟩ := (e.calls_audited nodes edges).2 "wet" .fails
  constructor
  · obtain ⟨hstates, hevents⟩ := hresult _ rfl
    rw [← hstates, ← hevents] at haudit
    exact ⟨_, rfl, by decide +kernel, haudit⟩
  · obtain ⟨hstates, hevents⟩ := hedited _ rfl
    rw [← hstates] at hedit
    rw [← hevents] at hlog
    exact ⟨_, rfl, by decide +kernel, hlog ▸ hedit⟩

end Engine
end ReasonGraph
