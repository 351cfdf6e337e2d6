import ReasonGraph.Proofs.Extension
import ReasonGraph.Proofs.Reseeding

/-! A run that was stopped can be taken up again. A pass looks at the states and at nothing else that
a ledger holds, so what was on record before it only stands in front of what it adds. The states that
a stopped run left, given back, are taken as they are, but for the conflict partners. Where nobody has
any, the run goes on as if it had not been stopped. -/

namespace ReasonGraph

theorem OrderedMap.ext_get? {β : Type} {m m' : OrderedMap β} (hkeys : m.keys = m'.keys)
    (hget : ∀ k, m.get? k = m'.get? k) : m = m' := by
  apply OrderedMap.ext
  have hlength : m.entries.length = m'.entries.length := by
    simpa [keys] using congrArg List.length hkeys
  apply List.ext_getElem hlength
  intro i hi hi'
  have hkey : m.entries[i].1 = m'.entries[i].1 := by
    have hsame := List.getElem_of_eq hkeys (i := i) (by simpa [keys] using hi)
    simpa [keys] using hsame
  have hvalue : m.get? m.entries[i].1 = some m.entries[i].2 := get?_of_mem (List.getElem_mem hi)
  have hvalue' : m'.get? m'.entries[i].1 = some m'.entries[i].2 :=
    get?_of_mem (List.getElem_mem hi')
  rw [hkey, hget, hvalue'] at hvalue
  exact Prod.ext hkey (Option.some.inj hvalue).symm

variable {α : Type}

def Ledger.following (l earlier : Ledger α) : Ledger α :=
  { l with events := earlier.events ++ l.events, conflicts := earlier.conflicts ++ l.conflicts }

theorem Ledger.write_following (l earlier : Ledger α) (c : Change α) :
    (l.following earlier).write c = (l.write c).following earlier := by
  simp only [write, following, List.append_assoc]

theorem settle_following {pass : Ledger α → Ledger α × Bool} {earlier : Ledger α}
    (hpass : ∀ l, pass (l.following earlier) = ((pass l).1.following earlier, (pass l).2))
    (cap : Nat) (l : Ledger α) :
    settle pass cap (l.following earlier) =
      let rest := settle pass cap l
      { rest with ledger := rest.ledger.following earlier } := by
  induction cap generalizing l with
  | zero => rfl
  | succ cap ih =>
    rw [settle, settle, hpass]
    cases pass l with
    | mk next changed =>
      cases changed with
      | false => rfl
      | true => simp only [ih next]

variable [Quantity α]

namespace Setting

theorem readOne_following (s : Setting α) (earlier l : Ledger α) (changed : Bool)
    (reached : List String) (h : Hop α × Rule α) :
    s.readOne ⟨l.following earlier, changed, reached⟩ h =
      let p := s.readOne ⟨l, changed, reached⟩ h
      { p with ledger := p.ledger.following earlier } := by
  cases hc : s.change? l.states h with
  | none => rw [readOne_of_none (p := ⟨l, changed, reached⟩) hc, readOne_of_none hc]
  | some c =>
    rw [readOne_of_some (p := ⟨l, changed, reached⟩) hc, readOne_of_some hc]
    simp only [Ledger.write_following]

theorem foldl_readOne_following (s : Setting α) (earlier : Ledger α)
    (hops : List (Hop α × Rule α)) (p : Progress α) :
    hops.foldl s.readOne { p with ledger := p.ledger.following earlier } =
      let q := hops.foldl s.readOne p
      { q with ledger := q.ledger.following earlier } := by
  induction hops generalizing p with
  | nil => rfl
  | cons h rest ih => rw [List.foldl_cons, List.foldl_cons, readOne_following, ih]

theorem fullPass_following (s : Setting α) (earlier l : Ledger α) :
    s.fullPass (l.following earlier) = ((s.fullPass l).1.following earlier, (s.fullPass l).2) := by
  have hread := s.foldl_readOne_following earlier s.hops ⟨l, false, []⟩
  rw [fullPass, read, hread]
  rfl

end Setting

namespace Engine
variable {e e' : Engine α} {nodes : List (Node α)} {edges : List (Edge α)}
  {overrides : Overrides α} {r : Result α}

theorem prepare_unpaired (hrun : (e.run nodes edges overrides).2 = .ok r)
    (hfree : ∀ state ∈ r.states.values, state.partners = none) {seeds : Table α}
    (haccepted : (e'.prepare nodes r.states.toOverrides).2 = .ok seeds) : seeds = r.states := by
  obtain ⟨before, hbefore⟩ := accepted_of_run hrun
  apply OrderedMap.ext_get?
  · rw [(run_result hrun).1, run_eq_after hbefore, Setting.after_keys, start_seeds hbefore,
      (prepare_isSeeded haccepted).keys, (prepare_isSeeded hbefore).keys]
  · intro id
    rw [prepare_toOverrides hrun haccepted id]
    cases hstate : r.states.get? id with
    | none => rfl
    | some state =>
      have hnone : state.partners = none :=
        hfree state (List.mem_map_of_mem (OrderedMap.mem_of_find hstate))
      rw [Option.map_some, NodeState.unpartnered, ← hnone]

/-- Given back the states that a stopped run left without conflict partners, a run does what was left
to do, and with as many passes as both together a run of its own does all of it. -/
theorem run_goes_on {e₁ e₂ e₃ : Engine α} {r₁ r₂ : Result α} (hregistry₁ : e₁.registry = .builtin)
    (hregistry₂ : e₂.registry = .builtin) (hregistry₃ : e₃.registry = .builtin)
    (hconfig₂ : e₂.config = { e₁.config with passes := e₂.config.passes })
    (hconfig₃ : e₃.config = { e₁.config with passes := e₁.config.passes + e₂.config.passes })
    (hrun₁ : (e₁.run nodes edges overrides).2 = .ok r₁) (hopen : r₁.converged = false)
    (hfree : ∀ state ∈ r₁.states.values, state.partners = none)
    (hrun₂ : (e₂.run nodes edges r₁.states.toOverrides).2 = .ok r₂) :
    (e₃.run nodes edges overrides).2 =
      .ok { r₂ with
        events := r₁.events ++ r₂.events
        conflicts := r₁.conflicts ++ r₂.conflicts
        iterations := e₁.config.passes + r₂.iterations } := by
  let s := e₁.setting (.ofLists nodes edges)
  obtain ⟨seeds₁, haccepted₁⟩ := accepted_of_run hrun₁
  obtain ⟨seeds₂, haccepted₂⟩ := accepted_of_run hrun₂
  let stopped := settle s.fullPass e₁.config.passes (e₁.start nodes edges overrides)
  let again := e₂.start nodes edges r₁.states.toOverrides
  have hr₁ : r₁ = stopped.result := by
    rw [run_of_accepted haccepted₁] at hrun₁
    exact (Except.ok.inj hrun₁).symm
  have hpass : (e₂.setting (.ofLists nodes edges)).fullPass = s.fullPass :=
    Setting.fullPass_passes hregistry₁ hregistry₂ rfl hconfig₂
  have hr₂ : r₂ = (settle s.fullPass e₂.config.passes again).result := by
    rw [run_of_accepted haccepted₂, hpass] at hrun₂
    exact (Except.ok.inj hrun₂).symm
  -- what the stopped run left is what the second one starts from, behind its own record
  have hstates : again.states = stopped.ledger.states := by
    rw [start_seeds haccepted₂, prepare_unpaired hrun₁ hfree haccepted₂, hr₁]
    rfl
  have hcycles : again.cycles = stopped.ledger.cycles := by
    rw [Setting.settle_fullPass_ledger, Setting.after_cycles, start_cycles, start_cycles, hconfig₂]
  have hagain : stopped.ledger = again.following stopped.ledger := by
    rw [Ledger.following, start_events, start_conflicts, hstates, hcycles]
    simp
  have hconverged : stopped.converged = false := by
    rw [hr₁] at hopen
    exact hopen
  have hconfig₃' : e₃.config = { e₁.config with passes := e₃.config.passes } := by
    rw [hconfig₃]
  rw [run_of_passes hconfig₃' hregistry₁ hregistry₃ haccepted₁ edges, hconfig₃]
  simp only
  rw [settle_add_of_open hconverged, hagain, settle_following (s.fullPass_following _), hr₁, hr₂]
  rfl

/-- A run that used up its passes can be resumed from the states it left, as they are or written out,
if no node has conflict partners. With as many passes as the two together had, one run answers with
what the second of them left, and with what was on record in the first followed by the second. -/
theorem run_resumes {e₁ e₂ e₃ : Engine Float} {nodes : List (Node Float)}
    {edges : List (Edge Float)} {overrides given : Overrides Float} {r₁ r₂ : Result Float}
    (hregistry₁ : e₁.registry = .builtin) (hregistry₂ : e₂.registry = .builtin)
    (hregistry₃ : e₃.registry = .builtin)
    (hconfig₂ : e₂.config = { e₁.config with passes := e₂.config.passes })
    (hconfig₃ : e₃.config = { e₁.config with passes := e₁.config.passes + e₂.config.passes })
    (hrun₁ : (e₁.run nodes edges overrides).2 = .ok r₁) (hopen : r₁.converged = false)
    (hfree : ∀ state ∈ r₁.states.values, state.partners = none)
    (hgiven : given = r₁.states.toOverrides ∨ Node.InRange nodes overrides ∧
      ∃ write, Schema.Writes write ∧ given =
        Schema.overrides (r₁.states.entries.map fun entry => (entry.1, write entry.2)))
    (hrun₂ : (e₂.run nodes edges given).2 = .ok r₂) :
    (e₃.run nodes edges overrides).2 =
      .ok { states := r₂.states
            events := r₁.events ++ r₂.events
            conflicts := r₁.conflicts ++ r₂.conflicts
            converged := r₂.converged
            iterations := e₁.config.passes + r₂.iterations
            cycles := r₂.cycles } := by
  obtain rfl : given = r₁.states.toOverrides := by
    rcases hgiven with h | ⟨hrange, write, hwrite, h⟩
    · exact h
    · have hinRange : r₁.states.InRange := by
        rw [(run_result hrun₁).1]
        exact e₁.run_inRange edges hrange
      exact h.trans (Schema.overrides_of_writes hwrite hinRange)
  exact run_goes_on hregistry₁ hregistry₂ hregistry₃ hconfig₂ hconfig₃ hrun₁ hopen hfree hrun₂

theorem run_resumes_chain :
    let e : Nat → Engine Float := fun cap => .new { Config.standard with passes := cap } .builtin
    let nodes : List (Node Float) :=
      [⟨"rain", .fact, "", 90.0⟩, ⟨"wet", .conclusion, "", 50.0⟩, ⟨"slip", .conclusion, "", 50.0⟩]
    let edges : List (Edge Float) :=
      [⟨"ws", "wet", "slip", "causes", 1.0⟩, ⟨"rw", "rain", "wet", "causes", 1.0⟩]
    ∃ r₁ r₂ r₃, ((e 1).run nodes edges ∅).2 = .ok r₁ ∧ r₁.converged = false ∧
      ((e 2).run nodes edges (Schema.overrides
        (r₁.states.entries.map fun entry => (entry.1, Schema.dump entry.2)))).2 = .ok r₂ ∧
      ((e 3).run nodes edges ∅).2 = .ok r₃ ∧ r₁.events.length = 1 ∧ r₂.events.length = 1 ∧
      r₃.events = r₁.events ++ r₂.events ∧ r₃.states = r₂.states ∧ r₃.converged = true ∧
      r₃.iterations = 1 + r₂.iterations := by
  intro e nodes edges
  have hconfig₂ : (e 2).config = { (e 1).config with passes := (e 2).config.passes } := rfl
  have hconfig₃ : (e 3).config =
      { (e 1).config with passes := (e 1).config.passes + (e 2).config.passes } := rfl
  have hrange : Node.InRange nodes ∅ := ⟨by decide +kernel, fun _ _ _ h => by cases h⟩
  let given := fun r : Result Float =>
    Schema.overrides (r.states.entries.map fun entry => (entry.1, Schema.dump entry.2))
  have hcheck : ((e 1).run nodes edges ∅).2.toOption.any (fun r => r.converged = false ∧
      r.events.length = 1 ∧ (∀ state ∈ r.states.values, state.partners = none) ∧
        ((e 2).run nodes edges (given r)).2.toOption.any (fun again =>
          again.events.length = 1 ∧ again.converged = true) = true) = true := by
    decide +kernel
  cases hrun₁ : ((e 1).run nodes edges ∅).2 with
  | error x =>
    rw [hrun₁] at hcheck
    cases hcheck
  | ok r₁ =>
    rw [hrun₁] at hcheck
    obtain ⟨hopen, hone, hfree, hagain⟩ := of_decide_eq_true hcheck
    cases hrun₂ : ((e 2).run nodes edges (given r₁)).2 with
    | error x =>
      rw [hrun₂] at hagain
      cases hagain
    | ok r₂ =>
      rw [hrun₂] at hagain
      obtain ⟨hmore, hconverged⟩ := of_decide_eq_true hagain
      have hwhole := run_resumes rfl rfl rfl hconfig₂ hconfig₃ hrun₁ hopen hfree
        (.inr ⟨hrange, _, Schema.writes_dump, rfl⟩) hrun₂
      exact ⟨r₁, r₂, _, rfl, hopen, hrun₂, hwhole, hone, hmore, rfl, rfl, hconverged, rfl⟩

end Engine
end ReasonGraph
