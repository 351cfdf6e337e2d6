import ReasonGraph.Engine.Run

/-! Nothing but reading edges moves a ledger once inference has begun, so every call is one long
reading. A full pass reads all edges; a pass from a node reads the edges of the nodes it visits,
in the order of the visits. What holds of one reading holds of a call by induction on its trail. -/

namespace ReasonGraph
variable {α : Type}

theorem append_eq_append_cons {β : Type} {xs ys before later : List β} {x : β}
    (h : xs ++ ys = before ++ x :: later) :
    (∃ rest, xs = before ++ x :: rest ∧ later = rest ++ ys) ∨
      ∃ rest, before = xs ++ rest ∧ ys = rest ++ x :: later := by
  rcases List.append_eq_append_iff.1 h with hlate | ⟨rest, hxs, hlater⟩
  · exact .inr hlate
  · cases rest with
    | nil => exact .inr ⟨[], by rw [hxs]; simp, hlater.symm⟩
    | cons first rest =>
      obtain ⟨rfl, hrest⟩ := List.cons.inj hlater
      exact .inl ⟨rest, hxs, hrest⟩

theorem Hop.evidence?_eq_some {h : Hop α} {config : Config α} {g : Snapshot α}
    {states : Table α} {e : Evidence α} (he : h.evidence? config g states = some e) :
    ∃ sourceNode targetNode source target,
      g.nodes.get? h.source = some sourceNode ∧ g.nodes.get? h.target = some targetNode ∧
      states.get? h.source = some source ∧ states.get? h.target = some target ∧
      e = ⟨sourceNode, source, targetNode, target, h.edge, g.nodes, g.edges, states, g.incoming,
        config, h.reversed⟩ := by
  simp only [evidence?, Option.bind_eq_bind, Option.bind_eq_some_iff, Option.some.injEq] at he
  obtain ⟨sourceNode, h₁, targetNode, h₂, source, h₃, target, h₄, rfl⟩ := he
  exact ⟨sourceNode, targetNode, source, target, h₁, h₂, h₃, h₄, rfl⟩

theorem Hop.evidence?_shows {h : Hop α} {config : Config α} {g : Snapshot α} {states : Table α}
    {e : Evidence α} (he : h.evidence? config g states = some e) :
    states.get? h.source = some e.source ∧ states.get? h.target = some e.target ∧
      e.config = config ∧ e.reversed = h.reversed := by
  obtain ⟨_, _, _, _, -, -, hsource, htarget, rfl⟩ := evidence?_eq_some he
  exact ⟨hsource, htarget, rfl, rfl⟩

theorem settle_converged {pass : Ledger α → Ledger α × Bool} {cap : Nat} {l : Ledger α}
    (h : (settle pass cap l).converged = true) :
    ∃ last, pass last = ((settle pass cap l).ledger, false) := by
  induction cap generalizing l with
  | zero => cases h
  | succ cap ih =>
    rw [settle] at h ⊢
    rcases hnext : pass l with ⟨next, changed⟩
    rw [hnext] at h
    cases changed with
    | false => exact ⟨l, hnext⟩
    | true => exact ih h

def Table.writeAll (t : Table α) (changes : List (Change α)) : Table α :=
  changes.foldl (fun t c => t.insert c.event.target c.entry) t

theorem Table.writeAll_append (t : Table α) (xs ys : List (Change α)) :
    t.writeAll (xs ++ ys) = (t.writeAll xs).writeAll ys := List.foldl_append

variable [Quantity α]

theorem Hop.change?_eq_some {h : Hop α} {rule : Rule α} {config : Config α} {g : Snapshot α}
    {states : Table α} {c : Change α} (hc : h.change? rule config g states = some c) :
    ∃ e p, h.evidence? config g states = some e ∧ rule.propagate e = some p ∧
      p.isUnwanted config = false ∧ p.isQuiet e.target = false ∧ c = p.change h e.target := by
  simp only [change?, Option.bind_eq_bind, Option.bind_eq_some_iff] at hc
  obtain ⟨e, he, p, hp, hc⟩ := hc
  split at hc
  · cases hc
  · rename_i hneither
    simp only [Bool.or_eq_true, not_or, Bool.not_eq_true] at hneither
    exact ⟨e, p, he, hp, hneither.1, hneither.2, (Option.some.inj hc).symm⟩

namespace Setting

def change? (s : Setting α) (t : Table α) (h : Hop α × Rule α) : Option (Change α) :=
  h.1.change? h.2 s.config s.graph t

def step (s : Setting α) (l : Ledger α) (h : Hop α × Rule α) : Ledger α :=
  (l.apply s.config s.graph h.1 h.2).1

def after (s : Setting α) (l : Ledger α) (hops : List (Hop α × Rule α)) : Ledger α :=
  hops.foldl s.step l

theorem step_of_none {s : Setting α} {l : Ledger α} {h : Hop α × Rule α}
    (hc : s.change? l.states h = none) : s.step l h = l := by
  rw [step, Ledger.apply_of_none hc]

theorem step_of_some {s : Setting α} {l : Ledger α} {h : Hop α × Rule α} {c : Change α}
    (hc : s.change? l.states h = some c) : s.step l h = l.write c := by
  rw [step, Ledger.apply_of_some hc]

@[simp] theorem after_nil (s : Setting α) (l : Ledger α) : s.after l [] = l := rfl

@[simp] theorem after_cons (s : Setting α) (l : Ledger α) (h : Hop α × Rule α)
    (hops : List (Hop α × Rule α)) : s.after l (h :: hops) = s.after (s.step l h) hops := rfl

theorem after_append (s : Setting α) (l : Ledger α) (xs ys : List (Hop α × Rule α)) :
    s.after l (xs ++ ys) = s.after (s.after l xs) ys := List.foldl_append

theorem change?_target {s : Setting α} {t : Table α} {h : Hop α × Rule α} {c : Change α}
    (hc : s.change? t h = some c) : c.event.target = h.1.target := by
  obtain ⟨e, p, _, _, _, _, rfl⟩ := Hop.change?_eq_some hc
  exact p.change_target h.1 e.target

theorem step_cases (s : Setting α) (l : Ledger α) (h : Hop α × Rule α) :
    (s.change? l.states h = none ∧ s.step l h = l) ∨
      ∃ c, s.change? l.states h = some c ∧ s.step l h = l.write c := by
  cases hc : s.change? l.states h with
  | none => exact .inl ⟨rfl, step_of_none hc⟩
  | some c => exact .inr ⟨c, rfl, step_of_some hc⟩

/-- The changes that some readings make, one after another. -/
def changes (s : Setting α) : Table α → List (Hop α × Rule α) → List (Change α)
  | _, [] => []
  | t, h :: rest =>
    let first := (s.change? t h).toList
    first ++ s.changes (t.writeAll first) rest

theorem changes_append (s : Setting α) (t : Table α) (xs ys : List (Hop α × Rule α)) :
    s.changes t (xs ++ ys) = s.changes t xs ++ s.changes (t.writeAll (s.changes t xs)) ys := by
  induction xs generalizing t with
  | nil => rfl
  | cons h rest ih =>
    simp only [List.cons_append, changes, ih, Table.writeAll_append, List.append_assoc]

theorem after_changes (s : Setting α) (l : Ledger α) (hops : List (Hop α × Rule α)) :
    (s.after l hops).states = l.states.writeAll (s.changes l.states hops) ∧
      (s.after l hops).events = l.events ++ (s.changes l.states hops).map Change.event := by
  induction hops generalizing l with
  | nil => simp [changes, Table.writeAll]
  | cons h rest ih =>
    rw [after_cons, changes]
    rcases s.step_cases l h with ⟨hc, hstep⟩ | ⟨c, hc, hstep⟩ <;> rw [hstep, hc]
    · exact ih l
    · obtain ⟨hstates, hevents⟩ := ih (l.write c)
      refine ⟨hstates, ?_⟩
      rw [hevents, Ledger.write_events, List.append_assoc]
      rfl

theorem reading_of_event {s : Setting α} {l : Ledger α} {hops : List (Hop α × Rule α)}
    {earlier later : List (Event α)} {ev : Event α}
    (hsplit : (s.after l hops).events = l.events ++ (earlier ++ ev :: later)) :
    ∃ read h unread c, hops = read ++ h :: unread ∧
      (s.after l read).events = l.events ++ earlier ∧
      s.change? (s.after l read).states h = some c ∧ c.event = ev := by
  induction hops generalizing l earlier with
  | nil => simp at hsplit
  | cons h rest ih =>
    rw [after_cons] at hsplit
    rcases s.step_cases l h with ⟨hc, hstep⟩ | ⟨c, hc, hstep⟩ <;> rw [hstep] at hsplit
    · obtain ⟨read, h', unread, c, rfl, hread, hc', hev⟩ := ih hsplit
      refine ⟨h :: read, h', unread, c, rfl, ?_⟩
      rw [after_cons, hstep]
      exact ⟨hread, hc', hev⟩
    · have hwritten := (s.after_changes (l.write c) rest).2
      rw [hsplit, Ledger.write_events, List.append_assoc, List.append_cancel_left_eq] at hwritten
      cases earlier with
      | nil => exact ⟨[], h, rest, c, rfl, by simp, hc, (List.cons.inj hwritten).1.symm⟩
      | cons first earlier =>
        obtain ⟨rfl, -⟩ := List.cons.inj hwritten
        have hlater : (s.after (l.write c) rest).events =
            (l.write c).events ++ (earlier ++ ev :: later) := by
          simp [hsplit]
        obtain ⟨read, h', unread, c', rfl, hread, hc', hev⟩ := ih hlater
        refine ⟨h :: read, h', unread, c', rfl, ?_⟩
        rw [after_cons, hstep]
        exact ⟨by simp [hread], hc', hev⟩

theorem readOne_of_none {s : Setting α} {p : Progress α} {h : Hop α × Rule α}
    (hc : s.change? p.ledger.states h = none) : s.readOne p h = p := by
  simp only [readOne, Ledger.apply_of_none hc]

theorem readOne_of_some {s : Setting α} {p : Progress α} {h : Hop α × Rule α} {c : Change α}
    (hc : s.change? p.ledger.states h = some c) :
    s.readOne p h =
      ⟨p.ledger.write c, true, if c.spreads then p.reached ++ [h.1.target] else p.reached⟩ := by
  simp only [readOne, Ledger.apply_of_some hc]

theorem foldl_readOne_ledger (s : Setting α) (hops : List (Hop α × Rule α)) (p : Progress α) :
    (hops.foldl s.readOne p).ledger = s.after p.ledger hops := by
  induction hops generalizing p with
  | nil => rfl
  | cons h rest ih =>
    rw [List.foldl_cons, after_cons, ih]
    rcases s.step_cases p.ledger h with ⟨hc, hstep⟩ | ⟨c, hc, hstep⟩
    · rw [readOne_of_none hc, hstep]
    · rw [readOne_of_some hc, hstep]

theorem read_ledger (s : Setting α) (l : Ledger α) (hops : List (Hop α × Rule α)) :
    (s.read l hops).ledger = s.after l hops := s.foldl_readOne_ledger hops _

theorem fullPass_ledger (s : Setting α) (l : Ledger α) :
    (s.fullPass l).1 = s.after l s.hops := s.read_ledger l s.hops

theorem foldl_readOne_changed (s : Setting α) (hops : List (Hop α × Rule α)) {p : Progress α}
    (hp : p.changed = true) : (hops.foldl s.readOne p).changed = true := by
  induction hops generalizing p with
  | nil => exact hp
  | cons h rest ih =>
    rw [List.foldl_cons]
    cases hc : s.change? p.ledger.states h with
    | none => rw [readOne_of_none hc]; exact ih hp
    | some c => rw [readOne_of_some hc]; exact ih rfl

theorem foldl_readOne_quiet (s : Setting α) (hops : List (Hop α × Rule α)) {p : Progress α}
    (hquiet : (hops.foldl s.readOne p).changed = false) :
    hops.foldl s.readOne p = p ∧ ∀ h ∈ hops, s.change? p.ledger.states h = none := by
  induction hops generalizing p with
  | nil => exact ⟨rfl, by simp⟩
  | cons h rest ih =>
    rw [List.foldl_cons] at hquiet ⊢
    cases hc : s.change? p.ledger.states h with
    | none =>
      rw [readOne_of_none hc] at hquiet ⊢
      obtain ⟨hsame, hrest⟩ := ih hquiet
      exact ⟨hsame, List.forall_mem_cons.2 ⟨hc, hrest⟩⟩
    | some c =>
      rw [readOne_of_some hc, s.foldl_readOne_changed rest rfl] at hquiet
      cases hquiet

theorem read_quiet {s : Setting α} {l : Ledger α} {hops : List (Hop α × Rule α)}
    (hquiet : (s.read l hops).changed = false) :
    s.read l hops = ⟨l, false, []⟩ ∧ ∀ h ∈ hops, s.change? l.states h = none :=
  s.foldl_readOne_quiet hops hquiet

theorem read_of_quiet {s : Setting α} {l : Ledger α} {hops : List (Hop α × Rule α)}
    (hquiet : ∀ h ∈ hops, s.change? l.states h = none) : s.read l hops = ⟨l, false, []⟩ := by
  rw [read]
  induction hops with
  | nil => rfl
  | cons h rest ih =>
    obtain ⟨hfirst, hrest⟩ := List.forall_mem_cons.1 hquiet
    rw [List.foldl_cons, readOne_of_none hfirst, ih hrest]

theorem fullPass_quiet {s : Setting α} {l next : Ledger α}
    (h : s.fullPass l = (next, false)) :
    next = l ∧ ∀ h ∈ s.hops, s.change? l.states h = none := by
  obtain ⟨hledger, hchanged⟩ := Prod.mk.inj h
  obtain ⟨hsame, hquiet⟩ := read_quiet hchanged
  rw [hsame] at hledger
  exact ⟨hledger.symm, hquiet⟩

def visits (s : Setting α) : Nat → List String → List String → Ledger α → List String
  | 0, _, _, _ => []
  | steps + 1, queue, unexpanded, l =>
    match queue.dropWhile fun id => !unexpanded.contains id with
    | [] => []
    | id :: rest =>
      let p := s.read l (s.hopsAt id)
      id :: s.visits steps (rest ++ p.reached) (unexpanded.erase id) p.ledger

def visitsFrom (s : Setting α) (id : String) (l : Ledger α) : List String :=
  s.visits s.graph.ids.length [id] s.graph.ids l

theorem expand_ledger (s : Setting α) (steps : Nat) (queue unexpanded : List String)
    (l : Ledger α) (changed : Bool) :
    (s.expand steps queue unexpanded (l, changed)).1 =
      s.after l ((s.visits steps queue unexpanded l).flatMap s.hopsAt) := by
  induction steps generalizing queue unexpanded l changed with
  | zero => rfl
  | succ steps ih =>
    rw [expand, visits]
    cases queue.dropWhile fun id => !unexpanded.contains id with
    | nil => rfl
    | cons id rest =>
      simp only [List.flatMap_cons, after_append]
      rw [ih, ← s.read_ledger l (s.hopsAt id)]

theorem passFrom_ledger (s : Setting α) (id : String) (l : Ledger α) :
    (s.passFrom id l).1 = s.after l ((s.visitsFrom id l).flatMap s.hopsAt) :=
  s.expand_ledger _ _ _ l false

end Setting

def settleTrail {β : Type} (pass : Ledger α → Ledger α × Bool) (trail : Ledger α → List β) :
    Nat → Ledger α → List β
  | 0, _ => []
  | cap + 1, l =>
    match pass l with
    | (_, false) => trail l
    | (next, true) => trail l ++ settleTrail pass trail cap next

theorem settle_ledger {β : Type} {s : Setting α} {pass : Ledger α → Ledger α × Bool}
    (trail : Ledger α → List β) (hops : β → List (Hop α × Rule α))
    (hpass : ∀ l, (pass l).1 = s.after l ((trail l).flatMap hops)) (cap : Nat) (l : Ledger α) :
    (settle pass cap l).ledger = s.after l ((settleTrail pass trail cap l).flatMap hops) := by
  induction cap generalizing l with
  | zero => rfl
  | succ cap ih =>
    have hl := hpass l
    rw [settle, settleTrail]
    rcases hnext : pass l with ⟨next, changed⟩
    rw [hnext] at hl
    cases changed with
    | false => exact hl
    | true =>
      simp only [List.flatMap_append, Setting.after_append]
      rw [ih next, ← hl]

namespace Setting

theorem settle_fullPass_ledger (s : Setting α) (cap : Nat) (l : Ledger α) :
    (settle s.fullPass cap l).ledger =
      s.after l (settleTrail s.fullPass (fun _ => s.hops) cap l) := by
  have h := settle_ledger (s := s) (fun _ => s.hops) (fun h => [h])
    (fun l => by rw [List.flatMap_singleton', s.fullPass_ledger]) cap l
  rwa [List.flatMap_singleton'] at h

theorem settle_passFrom_ledger (s : Setting α) (id : String) (cap : Nat) (l : Ledger α) :
    (settle (s.passFrom id) cap l).ledger =
      s.after l ((settleTrail (s.passFrom id) (s.visitsFrom id) cap l).flatMap s.hopsAt) :=
  settle_ledger _ _ (s.passFrom_ledger id) cap l

end Setting

namespace Engine

theorem run_of_seeded {e seeded : Engine α} {nodes : List (Node α)} {overrides : Overrides α}
    (h : e.seed (Snapshot.nodeMap nodes) overrides = (seeded, none)) (edges : List (Edge α)) :
    e.run nodes edges overrides =
      let g := Snapshot.ofLists nodes edges
      let s := settle (seeded.setting g).fullPass seeded.config.passes (seeded.noteCycles g)
      ({ seeded with ledger := s.ledger }, .ok s.result) := by
  simp only [run, Snapshot.ofLists, h]

theorem run_of_rejected {e seeded : Engine α} {nodes : List (Node α)} {overrides : Overrides α}
    {r : Rejection} (h : e.seed (Snapshot.nodeMap nodes) overrides = (seeded, some r))
    (edges : List (Edge α)) : e.run nodes edges overrides = (seeded, .error r) := by
  simp only [run, Snapshot.ofLists, h]

theorem seed_setting {e seeded : Engine α} {nodes : OrderedMap (Node α)}
    {overrides : Overrides α} {rejection : Option Rejection}
    (h : e.seed nodes overrides = (seeded, rejection)) :
    seeded.config = e.config ∧ seeded.registry = e.registry := by
  cases h
  exact ⟨rfl, rfl⟩

theorem run_config (e : Engine α) (nodes : List (Node α)) (edges : List (Edge α))
    (overrides : Overrides α) : (e.run nodes edges overrides).1.config = e.config := by
  rcases hseed : e.seed (Snapshot.nodeMap nodes) overrides with ⟨seeded, rejection⟩
  cases rejection with
  | some r => rw [run_of_rejected hseed]; exact (seed_setting hseed).1
  | none => rw [run_of_seeded hseed]; exact (seed_setting hseed).1

theorem run_registry (e : Engine α) (nodes : List (Node α)) (edges : List (Edge α))
    (overrides : Overrides α) : (e.run nodes edges overrides).1.registry = e.registry := by
  rcases hseed : e.seed (Snapshot.nodeMap nodes) overrides with ⟨seeded, rejection⟩
  cases rejection with
  | some r => rw [run_of_rejected hseed]; exact (seed_setting hseed).2
  | none => rw [run_of_seeded hseed]; exact (seed_setting hseed).2

theorem run_ok {e : Engine α} {nodes : List (Node α)} {edges : List (Edge α)}
    {overrides : Overrides α} {r : Result α} (h : (e.run nodes edges overrides).2 = .ok r) :
    ∃ seeded, e.seed (Snapshot.nodeMap nodes) overrides = (seeded, none) ∧
      r = (settle (e.setting (.ofLists nodes edges)).fullPass e.config.passes
        (seeded.noteCycles (.ofLists nodes edges))).result := by
  rcases hseed : e.seed (Snapshot.nodeMap nodes) overrides with ⟨seeded, rejection⟩
  cases rejection with
  | some _ => rw [run_of_rejected hseed] at h; cases h
  | none =>
    obtain ⟨hconfig, hregistry⟩ := seed_setting hseed
    rw [run_of_seeded hseed] at h
    refine ⟨seeded, rfl, ?_⟩
    rw [← Except.ok.inj h]
    simp only [setting, hconfig, hregistry]

/-- The ledger from which an update goes on: every node has a state, and the edited one has the
verdict asserted of it, unless the edit was refused or names no node. -/
def opening (e : Engine α) (id : String) (logic : LogicState) (nodes : List (Node α)) :
    Ledger α :=
  let seeded := (e.complete nodes).ledger
  match (Snapshot.nodeMap nodes).get? id, seeded.states.get? id with
  | some n, some current =>
    match e.config.admit .edit n logic with
    | .error _ => seeded
    | .ok () => assert seeded id current logic
  | _, _ => seeded

theorem opening_events (e : Engine α) (id : String) (logic : LogicState)
    (nodes : List (Node α)) : (e.opening id logic nodes).events = e.ledger.events := by
  simp only [opening]
  split
  · split <;> rfl
  · rfl

theorem opening_conflicts (e : Engine α) (id : String) (logic : LogicState)
    (nodes : List (Node α)) : (e.opening id logic nodes).conflicts = e.ledger.conflicts := by
  simp only [opening]
  split
  · split <;> rfl
  · rfl

theorem opening_cycles (e : Engine α) (id : String) (logic : LogicState)
    (nodes : List (Node α)) : (e.opening id logic nodes).cycles = e.ledger.cycles := by
  simp only [opening]
  split
  · split <;> rfl
  · rfl

/-- An update spreads from its opening if the edit was admitted. Otherwise it ends there, and it
answers only if the edited node is none or has no state. -/
theorem update_cases (e : Engine α) (id : String) (logic : LogicState) (nodes : List (Node α))
    (edges : List (Edge α)) :
    (∃ outcome, e.update id logic nodes edges =
        ({ e with ledger := e.opening id logic nodes }, outcome) ∧
        ∀ r, outcome = .ok r → r = (Settled.mk (e.opening id logic nodes) true 0).result ∧
          ((Snapshot.nodeMap nodes).get? id = none ∨
            (e.complete nodes).ledger.states.get? id = none)) ∨
      e.update id logic nodes edges =
        let s := settle ((e.setting (Snapshot.ofLists nodes edges)).passFrom id) e.config.passes
          (e.opening id logic nodes)
        ({ e with ledger := s.ledger }, .ok s.result) := by
  cases hn : (Snapshot.nodeMap nodes).get? id with
  | none =>
    refine .inl ⟨_, by simp only [update, opening, Snapshot.ofLists, hn]; rfl, ?_⟩
    intro r hr
    simp only [opening, hn]
    exact ⟨(Except.ok.inj hr).symm, .inl trivial⟩
  | some n =>
    cases hs : (e.complete nodes).ledger.states.get? id with
    | none =>
      have hs' := hs
      simp only [complete] at hs'
      refine .inl ⟨_, by simp only [update, opening, Snapshot.ofLists, hn, hs, hs']; rfl, ?_⟩
      intro r hr
      simp only [opening, hn, hs]
      exact ⟨(Except.ok.inj hr).symm, .inr trivial⟩
    | some current =>
      have hs' := hs
      simp only [complete] at hs'
      cases ha : e.config.admit .edit n logic with
      | error r =>
        refine .inl ⟨.error r, ?_, by simp⟩
        simp only [update, opening, Snapshot.ofLists, hn, hs, hs', ha]
        rfl
      | ok _ =>
        refine .inr ?_
        simp only [update, opening, Snapshot.ofLists, hn, hs, hs', ha]
        rfl

theorem update_registry (e : Engine α) (id : String) (logic : LogicState) (nodes : List (Node α))
    (edges : List (Edge α)) : (e.update id logic nodes edges).1.registry = e.registry := by
  rcases e.update_cases id logic nodes edges with ⟨outcome, hupdate, -⟩ | hupdate <;> rw [hupdate]

end Engine
end ReasonGraph
