import ReasonGraph.Proofs.Stickiness

/-! The conflicts on record. A change that puts a node in conflict adds one record, of the node and of
the partners written to it, and no other change adds any. Under the known rules a conflict is final,
so no node comes on record twice, and what its record says is what its state says in the end. -/

namespace ReasonGraph
variable {α : Type}

/-- The nodes that a change puts on record: its target, then the partners written to the target. -/
def Change.parties (c : Change α) : List String := c.event.target :: c.entry.partners.getD []

/-- One ledger came from another by changes, each written in turn. Each wrote to its target an entry
with the verdict that its event tells, and for those that told of a conflict, and for no others, a
conflict was recorded. -/
structure Ledger.Records (before after : Ledger α) (changes : List (Change α)) : Prop where
  states : after.states = before.states.writeAll changes
  events : after.events = before.events ++ changes.map (·.event)
  told : ∀ c ∈ changes, c.entry.logic = c.event.newLogic
  conflicts : after.conflicts.map (·.nodes) = before.conflicts.map (·.nodes) ++
    (changes.filter (·.event.newLogic = .conflict)).map Change.parties

namespace Ledger.Records
variable {before after : Ledger α} {changes : List (Change α)}

theorem refl (l : Ledger α) : l.Records l [] := ⟨rfl, by simp, by simp, by simp⟩

theorem trans {middle : Ledger α} {later : List (Change α)} (h : before.Records middle changes)
    (hlater : middle.Records after later) : before.Records after (changes ++ later) where
  states := by rw [Table.writeAll_append, ← h.states, hlater.states]
  events := by rw [hlater.events, h.events, List.map_append, List.append_assoc]
  told c hc := (List.mem_append.1 hc).elim (h.told c) (hlater.told c)
  conflicts := by
    rw [hlater.conflicts, h.conflicts, List.filter_append, List.map_append, List.append_assoc]

theorem write (l : Ledger α) {c : Change α} (htold : c.entry.logic = c.event.newLogic)
    (hrecord : c.conflict.map (·.nodes) =
      if c.event.newLogic = .conflict then some c.parties else none) :
    l.Records (l.write c) [c] where
  states := rfl
  events := by simp
  told c' hc' := by rw [List.mem_singleton.1 hc', htold]
  conflicts := by
    have hadded : c.conflict.toList.map (·.nodes) =
        ([c].filter (·.event.newLogic = .conflict)).map Change.parties := by
      rw [← Option.toList_map, hrecord]
      by_cases hconflict : c.event.newLogic = .conflict <;> simp [hconflict]
    rw [write_conflicts, List.map_append, hadded]

theorem of_same {before' : Ledger α} (h : before.Records after changes)
    (hstates : before'.states = before.states) (hevents : before'.events = before.events)
    (hconflicts : before'.conflicts = before.conflicts) : before'.Records after changes := by
  refine ⟨?_, ?_, h.told, ?_⟩
  · rw [hstates]
    exact h.states
  · rw [hevents]
    exact h.events
  · rw [hconflicts]
    exact h.conflicts

end Ledger.Records

def ConflictRecord.subject? (c : ConflictRecord) : Option String := c.nodes.head?

def Ledger.subjects (l : Ledger α) : List (Option String) := l.conflicts.map (·.subject?)

/-- The records of a ledger are of the conflicts that came up since some states: each is of another
node, the nodes in conflict are those on record and those that were in conflict before, none is both,
and a record lists the partners that its node has. -/
structure Ledger.AccountsFor (now : Ledger α) (seeds : Table α) : Prop where
  once : now.subjects.Nodup
  covers : ∀ id, now.states.InConflict id ↔ some id ∈ now.subjects ∨ seeds.InConflict id
  apart : ∀ id, some id ∈ now.subjects → ¬seeds.InConflict id
  stands : ∀ record ∈ now.conflicts, ∃ id state partners, record.nodes = id :: partners ∧
    now.states.get? id = some state ∧ state.logic = .conflict ∧ state.partners = some partners

namespace Ledger.AccountsFor
variable {now : Ledger α} {seeds : Table α} {c : Change α}

theorem of_no_conflicts {l : Ledger α} (h : l.conflicts = []) : l.AccountsFor l.states := by
  constructor <;> simp [subjects, h]

theorem inConflict (h : now.AccountsFor seeds) {id : String} (hid : some id ∈ now.subjects) :
    now.states.InConflict id := (h.covers id).2 (.inl hid)

theorem stands_write (h : now.AccountsFor seeds) (hopen : ¬now.states.InConflict c.event.target) :
    ∀ record ∈ now.conflicts, ∃ id state partners, record.nodes = id :: partners ∧
      (now.write c).states.get? id = some state ∧ state.logic = .conflict ∧
      state.partners = some partners := by
  intro record hrecord
  obtain ⟨id, state, partners, hnodes, hstate, hlogic, hpartners⟩ := h.stands record hrecord
  exact ⟨id, state, partners, hnodes, write_get?_of_conflict hopen hstate hlogic, hlogic, hpartners⟩

theorem write_plain (h : now.AccountsFor seeds) (hopen : ¬now.states.InConflict c.event.target)
    (hlogic : c.entry.logic ≠ .conflict) (hnone : c.conflict = none) :
    (now.write c).AccountsFor seeds := by
  have hconflicts : (now.write c).conflicts = now.conflicts := by simp [hnone]
  have hsubjects : (now.write c).subjects = now.subjects := by rw [subjects, hconflicts, subjects]
  constructor
  · rw [hsubjects]
    exact h.once
  · intro id
    rw [hsubjects, ← h.covers]
    by_cases hid : c.event.target = id
    · subst hid
      refine ⟨fun hin => ?_, fun hin => absurd hin hopen⟩
      obtain ⟨state, hstate, hconflict⟩ := hin
      rw [write_get?, if_pos rfl] at hstate
      exact absurd (Option.some.inj hstate ▸ hconflict) hlogic
    · simp only [Table.InConflict, write_get?, if_neg hid]
  · rw [hsubjects]
    exact h.apart
  · rw [hconflicts]
    exact h.stands_write hopen

theorem write_conflict (h : now.AccountsFor seeds) (hopen : ¬now.states.InConflict c.event.target)
    (hlogic : c.entry.logic = .conflict) {partners : List String}
    (hpartners : c.entry.partners = some partners) {record : ConflictRecord}
    (hrecord : c.conflict = some record) (hparties : record.nodes = c.parties) :
    (now.write c).AccountsFor seeds := by
  have hnodes : record.nodes = c.event.target :: partners := by
    rw [hparties, Change.parties, hpartners]
    rfl
  have hconflicts : (now.write c).conflicts = now.conflicts ++ [record] := by simp [hrecord]
  have hsubjects : (now.write c).subjects = now.subjects ++ [some c.event.target] := by
    rw [subjects, hconflicts, List.map_append, subjects, List.map_singleton,
      ConflictRecord.subject?, hnodes, List.head?_cons]
  have hfresh : some c.event.target ∉ now.subjects := fun hin => hopen (h.inConflict hin)
  constructor
  · rw [hsubjects, List.nodup_append]
    refine ⟨h.once, by simp, fun a ha b hb hab => hfresh ?_⟩
    rw [List.mem_singleton] at hb
    exact hb ▸ hab ▸ ha
  · intro id
    rw [hsubjects, List.mem_append, List.mem_singleton, Option.some.injEq]
    by_cases hid : c.event.target = id
    · subst hid
      have hin : (now.write c).states.InConflict c.event.target :=
        ⟨c.entry, by rw [write_get?, if_pos rfl], hlogic⟩
      simp [hin]
    · have hsame : (now.write c).states.InConflict id ↔ now.states.InConflict id := by
        simp only [Table.InConflict, write_get?, if_neg hid]
      rw [hsame, h.covers]
      simp [Ne.symm hid]
  · intro id hid
    rw [hsubjects, List.mem_append, List.mem_singleton, Option.some.injEq] at hid
    rcases hid with hearlier | rfl
    · exact h.apart id hearlier
    · exact fun hseed => hopen ((h.covers _).2 (.inr hseed))
  · intro r hr
    rw [hconflicts, List.mem_append, List.mem_singleton] at hr
    rcases hr with hearlier | rfl
    · exact h.stands_write hopen r hearlier
    · exact ⟨c.event.target, c.entry, partners, hnodes, by rw [write_get?, if_pos rfl], hlogic,
        hpartners⟩

end Ledger.AccountsFor

variable [Quantity α]

namespace Setting
variable {s : Setting α} {l : Ledger α}

theorem change?_records {t : Table α} {h : Hop α × Rule α} {c : Change α}
    (hc : s.change? t h = some c) : c.entry.logic = c.event.newLogic ∧
      (c.conflict.map (·.nodes) =
        if c.event.newLogic = .conflict then some c.parties else none) ∧
      (c.event.newLogic = .conflict → ∃ partners, c.entry.partners = some partners) := by
  obtain ⟨e, p, -, -, -, -, rfl⟩ := Hop.change?_eq_some hc
  refine ⟨rfl, ?_, fun hconflict => ⟨p.partners.getD [], if_pos hconflict⟩⟩
  by_cases hconflict : p.logic = .conflict <;>
    simp [Proposal.change, Proposal.writtenPartners, Change.parties, hconflict]

theorem after_records (s : Setting α) (l : Ledger α) (hops : List (Hop α × Rule α)) :
    l.Records (s.after l hops) (s.changes l.states hops) := by
  induction hops generalizing l with
  | nil => exact .refl l
  | cons h rest ih =>
    rw [after_cons, changes]
    rcases s.step_cases l h with ⟨hc, hstep⟩ | ⟨c, hc, hstep⟩ <;> rw [hstep, hc]
    · exact ih l
    · obtain ⟨htold, hrecord, -⟩ := change?_records hc
      exact (Ledger.Records.write l htold hrecord).trans (ih (l.write c))

theorem after_accountsFor {hops : List (Hop α × Rule α)}
    (hknown : ∀ h ∈ hops, ∃ r, h.2 = Rule.builtin r) {seeds : Table α}
    (hl : l.AccountsFor seeds) : (s.after l hops).AccountsFor seeds := by
  refine s.after_induction (P := fun now => now.AccountsFor seeds) (fun now h hh c hnow hc => ?_) hl
  obtain ⟨r, hrule⟩ := hknown h hh
  have hopen := change?_target_open hrule hc
  obtain ⟨htold, hrecord, hwritten⟩ := change?_records hc
  by_cases hconflict : c.event.newLogic = .conflict
  · rw [if_pos hconflict] at hrecord
    obtain ⟨record, hrecorded, hparties⟩ := Option.map_eq_some_iff.1 hrecord
    obtain ⟨partners, hpartners⟩ := hwritten hconflict
    exact hnow.write_conflict hopen (htold.trans hconflict) hpartners hrecorded hparties
  · rw [if_neg hconflict, Option.map_eq_none_iff] at hrecord
    exact hnow.write_plain hopen (htold ▸ hconflict) hrecord

end Setting

namespace Engine

theorem run_records {e : Engine α} {nodes : List (Node α)} {overrides : Overrides α}
    {seeds : Table α} (haccepted : (e.prepare nodes overrides).2 = .ok seeds)
    (edges : List (Edge α)) :
    let seeded := (e.prepare nodes overrides).1.ledger
    seeded.Records (e.run nodes edges overrides).1.ledger
      ((e.setting (.ofLists nodes edges)).changes seeded.states
        (e.runTrail nodes edges overrides)) := by
  have hread := (e.setting (.ofLists nodes edges)).after_records (e.start nodes edges overrides)
    (e.runTrail nodes edges overrides)
  rw [run_eq_after haccepted]
  rw [start_states] at hread
  refine hread.of_same (start_states e nodes edges overrides).symm ?_ ?_
  · rw [start_events, prepare_events]
  · rw [start_conflicts, prepare_conflicts]

theorem update_opening {e : Engine α} {id : String} {logic : LogicState} {nodes : List (Node α)}
    {edges : List (Edge α)} (h : id ∉ nodes.map Node.id ∨
      ∃ x, (e.update id logic nodes edges).2 = .error x) :
    (e.update id logic nodes edges).1.ledger = e.opening id logic nodes := by
  rcases h with hid | ⟨x, hx⟩
  · have hnone : (Snapshot.nodeMap nodes).get? id = none := by
      rw [OrderedMap.get?_eq_none_iff, Snapshot.mem_keys_nodeMap]
      exact hid
    simp only [update, opening, Snapshot.ofLists, hnone]
    rfl
  · rcases e.update_cases id logic nodes edges with ⟨outcome, hupdate, -⟩ | hupdate
    · rw [hupdate]
    · rw [hupdate] at hx
      cases hx

theorem update_records {e : Engine α} {id : String} {logic : LogicState} {nodes : List (Node α)}
    {edges : List (Edge α)} {r : Result α} (hid : id ∈ nodes.map Node.id)
    (hupdate : (e.update id logic nodes edges).2 = .ok r) :
    let opened := e.opening id logic nodes
    opened.Records (e.update id logic nodes edges).1.ledger
      ((e.setting (.ofLists nodes edges)).changes opened.states
        (e.trail id logic nodes edges)) := by
  rw [update_spread hid hupdate]
  simp only
  rw [Setting.settle_passFrom_ledger]
  exact Setting.after_records _ _ _

theorem run_accountsFor {e : Engine α} (hregistry : e.registry = .builtin) (nodes : List (Node α))
    (edges : List (Edge α)) (overrides : Overrides α) :
    (e.run nodes edges overrides).1.ledger.AccountsFor
      (e.prepare nodes overrides).1.ledger.states := by
  cases seeding : (e.prepare nodes overrides).2 with
  | error r =>
    rw [run_of_refused seeding]
    exact .of_no_conflicts (prepare_conflicts e nodes overrides)
  | ok seeds =>
    rw [run_eq_after seeding, ← start_states e nodes edges overrides]
    exact Setting.after_accountsFor
      (fun h hh => Setting.known_of_mem_hops hregistry (mem_hops_of_mem_runTrail hh))
      (.of_no_conflicts (start_conflicts e nodes edges overrides))

/-- Whatever the rules, a call records the conflicts among the changes that its readings make, in
their order, each with its node and the partners written to it, and a call that reads nothing records
nothing. Under the known rules a run records each node that came into conflict once, and its partners
in the end are those on record. -/
theorem calls_recorded (e : Engine α) (nodes : List (Node α)) (edges : List (Edge α)) :
    let s := e.setting (.ofLists nodes edges)
    (∀ overrides,
      let call := e.run nodes edges overrides
      let seeded := (e.prepare nodes overrides).1.ledger
      seeded.conflicts = [] ∧
        (∀ x, call.2 = .error x → seeded.Records call.1.ledger []) ∧
        (∀ r, call.2 = .ok r →
          seeded.Records call.1.ledger
            (s.changes seeded.states (e.runTrail nodes edges overrides)) ∧
          r = (Settled.mk call.1.ledger r.converged r.iterations).result) ∧
        (e.registry = .builtin → call.1.ledger.AccountsFor seeded.states)) ∧
    ∀ id logic,
      let call := e.update id logic nodes edges
      let opened := e.opening id logic nodes
      opened.conflicts = e.ledger.conflicts ∧
        ((id ∉ nodes.map Node.id ∨ ∃ x, call.2 = .error x) → opened.Records call.1.ledger []) ∧
        ∀ r, call.2 = .ok r →
          (id ∈ nodes.map Node.id →
            opened.Records call.1.ledger
              (s.changes opened.states (e.trail id logic nodes edges))) ∧
          r = (Settled.mk call.1.ledger r.converged r.iterations).result := by
  refine ⟨fun overrides => ⟨prepare_conflicts e nodes overrides, fun x hx => ?_, fun r hr => ?_,
    fun hregistry => run_accountsFor hregistry nodes edges overrides⟩, fun id logic =>
    ⟨e.opening_conflicts id logic nodes, fun hunread => ?_, fun r hr =>
      ⟨fun hid => update_records hid hr, update_shows hr⟩⟩⟩
  · cases hprepare : (e.prepare nodes overrides).2 with
    | ok seeds =>
      rw [run_of_accepted hprepare] at hx
      cases hx
    | error _ =>
      rw [run_of_refused hprepare]
      exact .refl _
  · obtain ⟨seeds, haccepted⟩ := accepted_of_run hr
    exact ⟨run_records haccepted edges, run_shows hr⟩
  · simp only [update_opening hunread]
    exact .refl _

theorem calls_recorded_inherited :
    let e : Engine Float := .new .standard .builtin
    let nodes : List (Node Float) := [⟨"a", .fact, "", 90.0⟩, ⟨"b", .fact, "", 85.0⟩,
      ⟨"c", .goal, "", 50.0⟩, ⟨"d", .conclusion, "", 50.0⟩, ⟨"x", .goal, "", 50.0⟩]
    let edges : List (Edge Float) := [⟨"ab", "a", "b", "conflicts", 1.0⟩,
      ⟨"bc", "b", "c", "depends", 1.0⟩, ⟨"dx", "d", "x", "depends", 1.0⟩]
    let s := e.setting (.ofLists nodes edges)
    let overrides : Overrides Float := .ofList [("d", .ok ⟨some .conflict, none, none⟩)]
    let seeded := (e.prepare nodes overrides).1.ledger
    let left := (e.run nodes edges overrides).1.ledger
    let opened := e.opening "a" .holds nodes
    let edited := s.changes opened.states (e.trail "a" .holds nodes edges)
    (∃ r, (e.run nodes edges overrides).2 = .ok r ∧
      r.conflicts.map (·.nodes) = [["b", "a"], ["a", "b"], ["c", "a"], ["x", "d"]] ∧
      seeded.Records left (s.changes seeded.states (e.runTrail nodes edges overrides)) ∧
      left.AccountsFor seeded.states ∧ seeded.states.InConflict "d" ∧
      r = (Settled.mk left r.converged r.iterations).result) ∧
    ∃ r, (e.update "a" .holds nodes edges).2 = .ok r ∧
      opened.Records (e.update "a" .holds nodes edges).1.ledger edited ∧
      (edited.filter (·.event.newLogic = .conflict)).map Change.parties =
        [["b", "a"], ["c", "a"], ["a", "b"]] := by
  intro e nodes edges s overrides seeded left opened edited
  obtain ⟨hrun, hupdate⟩ := e.calls_recorded nodes edges
  obtain ⟨-, -, hrecords, haccounts⟩ := hrun overrides
  obtain ⟨hnone, -, hedited⟩ := hupdate "a" .holds
  have hseed : (seeded.states.get? "d").any (·.logic = .conflict) = true := by decide +kernel
  have hleft : left.conflicts.map (·.nodes) = [["b", "a"], ["a", "b"], ["c", "a"], ["x", "d"]] := by
    decide +kernel
  have hupdated : (e.update "a" .holds nodes edges).1.ledger.conflicts.map (·.nodes) =
      [["b", "a"], ["c", "a"], ["a", "b"]] := by decide +kernel
  rw [Option.any_eq_true] at hseed
  obtain ⟨seed, hseed, hlogic⟩ := hseed
  obtain ⟨r, hr⟩ : ∃ r, (e.run nodes edges overrides).2 = .ok r := ⟨_, rfl⟩
  obtain ⟨r', hr'⟩ : ∃ r, (e.update "a" .holds nodes edges).2 = .ok r := ⟨_, rfl⟩
  obtain ⟨hwritten, hshows⟩ := hrecords r hr
  have hedits := (hedited r' hr').1 (by decide)
  refine ⟨⟨r, hr, ?_, hwritten, haccounts rfl, ⟨seed, hseed, of_decide_eq_true hlogic⟩, hshows⟩,
    r', hr', hedits, ?_⟩
  · rw [hshows]
    simp only [Settled.result]
    exact hleft
  · have hrecorded := hedits.conflicts
    rw [hupdated, show opened.conflicts = [] from hnone, List.map_nil, List.nil_append] at hrecorded
    exact hrecorded.symm

end Engine
end ReasonGraph
