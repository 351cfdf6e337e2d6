import ReasonGraph.Proofs.Admission

/-! Two runs side by side. A reading looks states up by id, so two tables that say the same of every
id are one to it, in whatever order their entries came in. Where two graphs have the same edges, and
each edge, read over one graph and over the other, writes the same state and logs what is told alike,
two runs stay in step from pass to pass, and what they tell in the end is alike. -/

namespace ReasonGraph
variable {α β γ : Type}

structure Change.Alike (f : Event α → β) (g : ConflictRecord → γ) (c c' : Change α) : Prop where
  target : c'.event.target = c.event.target
  entry : c'.entry = c.entry
  event : f c'.event = f c.event
  conflict : c'.conflict.map g = c.conflict.map g

theorem Change.Alike.refl (f : Event α → β) (g : ConflictRecord → γ) (c : Change α) :
    c.Alike f g c := ⟨rfl, rfl, rfl, rfl⟩

structure Ledger.Alike (f : Event α → β) (g : ConflictRecord → γ) (l l' : Ledger α) : Prop where
  states : ∀ id, l'.states.get? id = l.states.get? id
  events : l'.events.map f = l.events.map f
  conflicts : l'.conflicts.map g = l.conflicts.map g

theorem Ledger.Alike.write {f : Event α → β} {g : ConflictRecord → γ} {l l' : Ledger α}
    {c c' : Change α} (hl : l.Alike f g l') (hc : c.Alike f g c') :
    (l.write c).Alike f g (l'.write c') where
  states id := by rw [write_get?, write_get?, hc.target, hc.entry, hl.states]
  events := by simp [hl.events, hc.event]
  conflicts := by
    have hrecord : c'.conflict.toList.map g = c.conflict.toList.map g := by
      rw [← Option.toList_map, ← Option.toList_map, hc.conflict]
    rw [write_conflicts, write_conflicts, List.map_append, List.map_append, hl.conflicts, hrecord]

variable [Quantity α]

namespace Setting

/-- Two settings with the same readings, which over tables that say the same make changes that are
alike. -/
structure Parallels (f : Event α → β) (g : ConflictRecord → γ) (s s' : Setting α) : Prop where
  hops : s'.hops = s.hops
  reads : ∀ h ∈ s.hops, ∀ t t' : Table α, (∀ id, t'.get? id = t.get? id) →
    Option.Rel (Change.Alike f g) (s.change? t h) (s'.change? t' h)

namespace Parallels
variable {f : Event α → β} {g : ConflictRecord → γ} {s s' : Setting α}

theorem readOne (hs : s.Parallels f g s') {h : Hop α × Rule α} (hh : h ∈ s.hops)
    {p p' : Progress α} (hp : p.ledger.Alike f g p'.ledger) (hchanged : p'.changed = p.changed) :
    (s.readOne p h).ledger.Alike f g (s'.readOne p' h).ledger ∧
      (s'.readOne p' h).changed = (s.readOne p h).changed := by
  have hreads := hs.reads h hh p.ledger.states p'.ledger.states hp.states
  generalize hc : s.change? p.ledger.states h = change at hreads
  generalize hc' : s'.change? p'.ledger.states h = change' at hreads
  cases hreads with
  | none =>
    rw [readOne_of_none hc, readOne_of_none hc']
    exact ⟨hp, hchanged⟩
  | some halike =>
    rw [readOne_of_some hc, readOne_of_some hc']
    exact ⟨hp.write halike, rfl⟩

theorem foldl_readOne (hs : s.Parallels f g s') {hops : List (Hop α × Rule α)}
    (hhops : ∀ h ∈ hops, h ∈ s.hops) {p p' : Progress α} (hp : p.ledger.Alike f g p'.ledger)
    (hchanged : p'.changed = p.changed) :
    (hops.foldl s.readOne p).ledger.Alike f g (hops.foldl s'.readOne p').ledger ∧
      (hops.foldl s'.readOne p').changed = (hops.foldl s.readOne p).changed := by
  induction hops generalizing p p' with
  | nil => exact ⟨hp, hchanged⟩
  | cons h rest ih =>
    obtain ⟨hnext, hstill⟩ := hs.readOne (hhops h List.mem_cons_self) hp hchanged
    exact ih (fun h hh => hhops h (List.mem_cons_of_mem _ hh)) hnext hstill

theorem fullPass (hs : s.Parallels f g s') (l l' : Ledger α) (hl : l.Alike f g l') :
    (s.fullPass l).1.Alike f g (s'.fullPass l').1 ∧ (s'.fullPass l').2 = (s.fullPass l).2 := by
  rw [Setting.fullPass, Setting.fullPass, read, read, hs.hops]
  exact hs.foldl_readOne (fun _ hh => hh) hl rfl

end Parallels
end Setting

namespace Engine
variable {e : Engine α} {nodes nodes' : List (Node α)} {overrides : Overrides α}
  {seeds seeds' : Table α}

theorem run_parallel {f : Event α → β} {g : ConflictRecord → γ}
    (haccepted : (e.prepare nodes overrides).2 = .ok seeds)
    (haccepted' : (e.prepare nodes' overrides).2 = .ok seeds')
    (hseeds : ∀ id, seeds'.get? id = seeds.get? id) {edges : List (Edge α)}
    (hs : (e.setting (.ofLists nodes edges)).Parallels f g (e.setting (.ofLists nodes' edges))) :
    ∃ r r', (e.run nodes edges overrides).2 = .ok r ∧ (e.run nodes' edges overrides).2 = .ok r' ∧
      (∀ id, r'.states.get? id = r.states.get? id) ∧ r'.events.map f = r.events.map f ∧
      r'.conflicts.map g = r.conflicts.map g ∧ r'.converged = r.converged ∧
      r'.iterations = r.iterations := by
  have hstart : (e.start nodes edges overrides).Alike f g (e.start nodes' edges overrides) := by
    constructor
    · rw [start_seeds haccepted, start_seeds haccepted']
      exact hseeds
    · rw [start_events, start_events]
    · rw [start_conflicts, start_conflicts]
  obtain ⟨hleft, hconverged, hiterations⟩ := settle_tandem hs.fullPass e.config.passes hstart
  exact ⟨_, _, congrArg Prod.snd (run_of_accepted haccepted edges),
    congrArg Prod.snd (run_of_accepted haccepted' edges), hleft.states, hleft.events,
    hleft.conflicts, hconverged, hiterations⟩

theorem seeds_alike {R : Node α → Node α → Prop}
    (haccepted : (e.prepare nodes overrides).2 = .ok seeds)
    (haccepted' : (e.prepare nodes' overrides).2 = .ok seeds')
    (hnodes : ∀ id,
      Option.Rel R ((Snapshot.nodeMap nodes).get? id) ((Snapshot.nodeMap nodes').get? id))
    (hR : ∀ n n' s s', R n n' → n.seedFrom e.config overrides = .ok s →
      n'.seedFrom e.config overrides = .ok s' → s' = s) (id : String) :
    seeds'.get? id = seeds.get? id := by
  have hrel := hnodes id
  generalize hn : (Snapshot.nodeMap nodes).get? id = found at hrel
  generalize hn' : (Snapshot.nodeMap nodes').get? id = found' at hrel
  cases hrel with
  | none => rw [seed_of_absent haccepted hn, seed_of_absent haccepted' hn']
  | some halike =>
    obtain ⟨s, hs, hseed⟩ := seed_of_node haccepted hn
    obtain ⟨s', hs', hseed'⟩ := seed_of_node haccepted' hn'
    rw [hs, hs', hR _ _ _ _ halike hseed hseed']

end Engine
end ReasonGraph
