import ReasonGraph.Proofs.Replay
import ReasonGraph.Proofs.Seating

/-! What the passes of a run amount to. A run stops at the first pass that changes nothing, or when
its passes are used up. A pass changes something just if it logs an event, so every pass of a run
but the quiet last one leaves an event, and after a quiet pass a further one would be quiet too:
its states are those that every edge of the quiet pass was read against. -/

namespace ReasonGraph
variable {α : Type}

section
variable {β : Type} {L : List β} {x : β} {n : Nat}

def rounds (n : Nat) (L : List β) : List β := (List.replicate n L).flatten

theorem rounds_succ (n : Nat) (L : List β) : rounds (n + 1) L = L ++ rounds n L := by
  simp [rounds, List.replicate_succ]

theorem mem_of_mem_rounds (h : x ∈ rounds n L) : x ∈ L := by
  obtain ⟨round, hround, hx⟩ := List.mem_flatten.1 h
  rwa [(List.mem_replicate.1 hround).2] at hx

theorem map_rounds {γ : Type} (f : β → γ) (n : Nat) (L : List β) :
    (rounds n L).map f = rounds n (L.map f) := by
  simp [rounds, List.map_flatten]

theorem flatMap_rounds {γ : Type} (f : β → List γ) (n : Nat) (L : List β) :
    (rounds n L).flatMap f = rounds n (L.flatMap f) := by
  induction n with
  | zero => rfl
  | succ n ih => rw [rounds_succ, rounds_succ, List.flatMap_append, ih]

end

def afterPasses (pass : Ledger α → Ledger α × Bool) : Nat → Ledger α → Ledger α
  | 0, l => l
  | n + 1, l => afterPasses pass n (pass l).1

theorem afterPasses_succ (pass : Ledger α → Ledger α × Bool) (n : Nat) (l : Ledger α) :
    afterPasses pass (n + 1) l = (pass (afterPasses pass n l)).1 := by
  induction n generalizing l with
  | zero => rfl
  | succ n ih => rw [afterPasses, ih, afterPasses]

theorem settle_afterPasses (pass : Ledger α → Ledger α × Bool) (cap : Nat) (l : Ledger α) :
    (settle pass cap l).ledger = afterPasses pass (settle pass cap l).iterations l := by
  induction cap generalizing l with
  | zero => rfl
  | succ cap ih =>
    rw [settle]
    cases hpass : pass l with
    | mk next changed =>
      cases changed with
      | false => simp [afterPasses, hpass]
      | true => simp only [afterPasses, hpass, ih next]

theorem settle_iterations_pos {pass : Ledger α → Ledger α × Bool} {cap : Nat} (hcap : 0 < cap)
    (l : Ledger α) : 0 < (settle pass cap l).iterations := by
  cases cap with
  | zero => omega
  | succ cap =>
    rw [settle]
    split <;> simp

theorem settle_exhausted {pass : Ledger α → Ledger α × Bool} {cap : Nat} {l : Ledger α}
    (h : (settle pass cap l).converged = false) : (settle pass cap l).iterations = cap := by
  induction cap generalizing l with
  | zero => rfl
  | succ cap ih =>
    rw [settle] at h ⊢
    cases hpass : pass l with
    | mk next changed =>
      rw [hpass] at h
      cases changed with
      | false => cases h
      | true => exact congrArg (· + 1) (ih h)

theorem settle_busy {pass : Ledger α → Ledger α × Bool} {cap n : Nat} {l : Ledger α}
    (hn : n < (settle pass cap l).iterations)
    (hlast : (settle pass cap l).converged = true → n + 1 ≠ (settle pass cap l).iterations) :
    (pass (afterPasses pass n l)).2 = true := by
  induction cap generalizing n l with
  | zero => cases hn
  | succ cap ih =>
    rw [settle] at hn hlast
    cases hpass : pass l with
    | mk next changed =>
      rw [hpass] at hn hlast
      cases changed with
      | false =>
        have only : n = 0 := by simpa using hn
        exact absurd (hlast rfl) (by simp [only])
      | true =>
        cases n with
        | zero => simp [afterPasses, hpass]
        | succ n =>
          have later := ih (n := n) (l := next) (by simpa using hn) fun hconverged heq =>
            hlast hconverged (by simpa using heq)
          simpa [afterPasses, hpass] using later

theorem settle_by {pass : Ledger α → Ledger α × Bool} {cap n : Nat} {l : Ledger α} (hn : n < cap)
    (h : (pass (afterPasses pass n l)).2 = false) :
    (settle pass cap l).converged = true ∧ (settle pass cap l).iterations ≤ n + 1 := by
  by_cases hlt : n < (settle pass cap l).iterations
  · by_cases hend : (settle pass cap l).converged = true ∧ n + 1 = (settle pass cap l).iterations
    · exact ⟨hend.1, hend.2 ▸ Nat.le_refl _⟩
    · have hbusy := settle_busy hlt fun hconverged heq => hend ⟨hconverged, heq⟩
      rw [h] at hbusy
      cases hbusy
  · refine ⟨?_, by omega⟩
    cases hopen : (settle pass cap l).converged with
    | true => rfl
    | false =>
      have hall := settle_exhausted hopen
      omega

theorem settle_last {pass : Ledger α → Ledger α × Bool} {cap : Nat} {l : Ledger α}
    (h : (settle pass cap l).converged = true) : ∃ n, (settle pass cap l).iterations = n + 1 ∧
      pass (afterPasses pass n l) = ((settle pass cap l).ledger, false) := by
  induction cap generalizing l with
  | zero => cases h
  | succ cap ih =>
    rw [settle] at h ⊢
    cases hpass : pass l with
    | mk next changed =>
      rw [hpass] at h
      cases changed with
      | false => exact ⟨0, rfl, hpass⟩
      | true =>
        obtain ⟨n, hn, hlast⟩ := ih h
        exact ⟨n + 1, congrArg (· + 1) hn, by rw [afterPasses, hpass]; exact hlast⟩

theorem settle_quiet {pass : Ledger α → Ledger α × Bool}
    (hquiet : ∀ {l next}, pass l = (next, false) → next = l) {cap : Nat} {l : Ledger α}
    (h : (settle pass cap l).converged = true) :
    pass (settle pass cap l).ledger = ((settle pass cap l).ledger, false) := by
  obtain ⟨last, hlast⟩ := settle_converged h
  have same := hquiet hlast
  rwa [← same] at hlast

theorem settle_tandem {R : Ledger α → Ledger α → Prop} {pass pass' : Ledger α → Ledger α × Bool}
    (hpass : ∀ l l', R l l' → R (pass l).1 (pass' l').1 ∧ (pass' l').2 = (pass l).2) (cap : Nat)
    {l l' : Ledger α} (h : R l l') :
    R (settle pass cap l).ledger (settle pass' cap l').ledger ∧
      (settle pass' cap l').converged = (settle pass cap l).converged ∧
      (settle pass' cap l').iterations = (settle pass cap l).iterations := by
  induction cap generalizing l l' with
  | zero => exact ⟨h, rfl, rfl⟩
  | succ cap ih =>
    obtain ⟨hnext, hchanged⟩ := hpass l l' h
    simp only [settle]
    rcases hp : pass l with ⟨next, changed⟩
    rcases hp' : pass' l' with ⟨next', changed'⟩
    rw [hp, hp'] at hnext hchanged
    obtain rfl : changed' = changed := hchanged
    cases changed' with
    | false => exact ⟨hnext, rfl, rfl⟩
    | true =>
      obtain ⟨hlast, hconverged, hiterations⟩ := ih hnext
      exact ⟨hlast, hconverged, congrArg (· + 1) hiterations⟩

theorem settle_of_quiet {pass : Ledger α → Ledger α × Bool} {cap : Nat} (hcap : 0 < cap)
    {l : Ledger α} (h : pass l = (l, false)) : settle pass cap l = ⟨l, true, 1⟩ := by
  cases cap with
  | zero => cases hcap
  | succ cap => rw [settle, h]

/-- Passes that stop at a quiet one leave what all of them would have left. -/
theorem settle_padded {pass : Ledger α → Ledger α × Bool}
    (hquiet : ∀ {l next}, pass l = (next, false) → next = l) (cap : Nat) (l : Ledger α) :
    (settle pass cap l).ledger = afterPasses pass cap l := by
  induction cap generalizing l with
  | zero => rfl
  | succ cap ih =>
    rw [settle, afterPasses]
    cases hpass : pass l with
    | mk next changed =>
      cases changed with
      | false =>
        obtain rfl := hquiet hpass
        have still : ∀ n, afterPasses pass n next = next := by
          intro n
          induction n with
          | zero => rfl
          | succ n ih => rw [afterPasses, hpass, ih]
        exact (still cap).symm
      | true => exact ih next

variable [Quantity α]

namespace Setting

theorem afterPasses_fullPass (s : Setting α) (n : Nat) (l : Ledger α) :
    afterPasses s.fullPass n l = s.after l (rounds n s.hops) := by
  induction n generalizing l with
  | zero => rfl
  | succ n ih => rw [afterPasses, fullPass_ledger, ih, rounds_succ, after_append]

theorem settle_fullPass_padded (s : Setting α) (cap : Nat) (l : Ledger α) :
    (settle s.fullPass cap l).ledger = s.after l (rounds cap s.hops) := by
  rw [settle_padded (fun h => (fullPass_quiet h).1), afterPasses_fullPass]

theorem after_events_le (s : Setting α) (l : Ledger α) (hops : List (Hop α × Rule α)) :
    l.events.length ≤ (s.after l hops).events.length := by
  obtain ⟨log, hlog⟩ := s.after_continues l hops
  rw [hlog.appended, List.length_append]
  omega

theorem foldl_readOne_changed_iff (s : Setting α) (hops : List (Hop α × Rule α))
    (p : Progress α) :
    (hops.foldl s.readOne p).changed = true ↔
      p.changed = true ∨ p.ledger.events.length < (s.after p.ledger hops).events.length := by
  induction hops generalizing p with
  | nil => simp
  | cons h rest ih =>
    rw [List.foldl_cons, after_cons, ih]
    cases hc : s.change? p.ledger.states h with
    | none => rw [readOne_of_none hc, step_of_none hc]
    | some c =>
      rw [readOne_of_some hc, step_of_some hc]
      have grown := s.after_events_le (p.ledger.write c) rest
      simp only [Ledger.write_events, List.length_append, List.length_singleton] at grown
      simp only [true_or, true_iff]
      exact .inr (by omega)

theorem fullPass_changed_iff (s : Setting α) (l : Ledger α) :
    (s.fullPass l).2 = true ↔ l.events.length < (s.fullPass l).1.events.length := by
  rw [fullPass_ledger]
  have h := s.foldl_readOne_changed_iff s.hops ⟨l, false, []⟩
  simpa [fullPass, read] using h

theorem fullPass_of_quiet {s : Setting α} {l : Ledger α}
    (hquiet : ∀ h ∈ s.hops, s.change? l.states h = none) : s.fullPass l = (l, false) := by
  rw [fullPass, read_of_quiet hquiet]

theorem settle_fullPass_iterations_le (s : Setting α) (cap : Nat) (l : Ledger α) :
    l.events.length + (settle s.fullPass cap l).iterations ≤
      (settle s.fullPass cap l).ledger.events.length +
        if (settle s.fullPass cap l).converged then 1 else 0 := by
  induction cap generalizing l with
  | zero => simp [settle]
  | succ cap ih =>
    have logged := s.fullPass_changed_iff l
    have grown := s.after_events_le l s.hops
    rw [← fullPass_ledger] at grown
    rw [settle]
    cases hpass : s.fullPass l with
    | mk next changed =>
      rw [hpass] at logged grown
      cases changed with
      | false => simpa using grown
      | true =>
        have later := ih next
        have more : l.events.length < next.events.length := logged.1 rfl
        simp only
        omega

end Setting

namespace Engine

/-- The ledger from which the passes of a run go on: every node seeded, the cycles noted. -/
def start (e : Engine α) (nodes : List (Node α)) (edges : List (Edge α))
    (overrides : Overrides α) : Ledger α :=
  (e.prepare nodes overrides).1.noteCycles (.ofLists nodes edges)

theorem start_states (e : Engine α) (nodes : List (Node α)) (edges : List (Edge α))
    (overrides : Overrides α) :
    (e.start nodes edges overrides).states = (e.prepare nodes overrides).1.ledger.states :=
  noteCycles_states _ _

theorem start_seeds {e : Engine α} {nodes : List (Node α)} {overrides : Overrides α}
    {seeds : Table α} (h : (e.prepare nodes overrides).2 = .ok seeds) (edges : List (Edge α)) :
    (e.start nodes edges overrides).states = seeds :=
  (e.start_states nodes edges overrides).trans (prepare_given h)

theorem start_events (e : Engine α) (nodes : List (Node α)) (edges : List (Edge α))
    (overrides : Overrides α) : (e.start nodes edges overrides).events = [] :=
  (noteCycles_events _ _).trans (e.prepare_events nodes overrides)

theorem start_conflicts (e : Engine α) (nodes : List (Node α)) (edges : List (Edge α))
    (overrides : Overrides α) : (e.start nodes edges overrides).conflicts = [] := by
  have prepared := prepare_conflicts e nodes overrides
  rw [start, noteCycles]
  split <;> exact prepared

theorem start_cycles (e : Engine α) (nodes : List (Node α)) (edges : List (Edge α))
    (overrides : Overrides α) : (e.start nodes edges overrides).cycles =
      if e.config.detectsCycles then (chains (.ofLists nodes edges)).cycles else [] := by
  rw [start, noteCycles, prepare_config]
  split
  · rfl
  · exact prepare_cycles e nodes overrides

theorem run_of_accepted {e : Engine α} {nodes : List (Node α)} {overrides : Overrides α}
    {seeds : Table α} (h : (e.prepare nodes overrides).2 = .ok seeds) (edges : List (Edge α)) :
    let s := settle (e.setting (.ofLists nodes edges)).fullPass e.config.passes
      (e.start nodes edges overrides)
    e.run nodes edges overrides = ({ e with ledger := s.ledger }, .ok s.result) := by
  cases hseed : e.seed (Snapshot.nodeMap nodes) overrides with
  | mk seeded rejection =>
    cases rejection with
    | some r =>
      simp only [prepare, hseed] at h
      cases h
    | none =>
      obtain ⟨hconfig, hregistry⟩ := seed_setting hseed
      have hsetting : ∀ g, seeded.setting g = e.setting g := by
        intro g
        simp only [setting, hconfig, hregistry]
      simp only [run_of_seeded hseed, start, prepare_of_seeded hseed, hsetting, hconfig, hregistry]

theorem run_of_refused {e : Engine α} {nodes : List (Node α)} {overrides : Overrides α}
    {r : Rejection} (h : (e.prepare nodes overrides).2 = .error r) (edges : List (Edge α)) :
    e.run nodes edges overrides = ((e.prepare nodes overrides).1, .error r) := by
  cases hseed : e.seed (Snapshot.nodeMap nodes) overrides with
  | mk seeded rejection =>
    simp only [prepare, hseed] at h ⊢
    cases rejection with
    | none => cases h
    | some stop =>
      rw [run_of_rejected hseed, Except.error.inj h]

theorem accepted_of_run {e : Engine α} {nodes : List (Node α)} {edges : List (Edge α)}
    {overrides : Overrides α} {r : Result α} (h : (e.run nodes edges overrides).2 = .ok r) :
    ∃ seeds, (e.prepare nodes overrides).2 = .ok seeds := by
  cases hseed : e.seed (Snapshot.nodeMap nodes) overrides with
  | mk seeded rejection =>
    cases rejection with
    | some stop =>
      rw [run_of_rejected hseed] at h
      cases h
    | none => exact ⟨_, congrArg Prod.snd (prepare_of_seeded hseed)⟩

theorem result_of_run {e : Engine α} {nodes : List (Node α)} {edges : List (Edge α)}
    {overrides : Overrides α} {r : Result α} (h : (e.run nodes edges overrides).2 = .ok r) :
    r = (settle (e.setting (.ofLists nodes edges)).fullPass e.config.passes
      (e.start nodes edges overrides)).result := by
  obtain ⟨seeds, hseeds⟩ := accepted_of_run h
  rw [run_of_accepted hseeds] at h
  exact (Except.ok.inj h).symm

theorem passes_pos {e : Engine α} {nodes : List (Node α)} {edges : List (Edge α)}
    {overrides : Overrides α} {r : Result α} (hrun : (e.run nodes edges overrides).2 = .ok r)
    (hconverged : r.converged = true) : 0 < e.config.passes := by
  obtain rfl := result_of_run hrun
  rw [Nat.pos_iff_ne_zero]
  intro hzero
  rw [hzero] at hconverged
  cases hconverged

/-- There are hardly more passes than events. So a run that logs few makes few passes, and converges
where it may make one more. -/
theorem run_of_few_events {e : Engine α} {nodes : List (Node α)} {edges : List (Edge α)}
    {overrides : Overrides α} {r : Result α} (hrun : (e.run nodes edges overrides).2 = .ok r)
    {bound : Nat} (hfew : r.events.length ≤ bound) :
    r.iterations ≤ bound + 1 ∧ (bound + 1 ≤ e.config.passes → r.converged = true) := by
  obtain rfl := result_of_run hrun
  let s := e.setting (.ofLists nodes edges)
  let settled := settle s.fullPass e.config.passes (e.start nodes edges overrides)
  have hbusy : settled.iterations ≤ bound + if settled.converged then 1 else 0 := by
    have hlogged := s.settle_fullPass_iterations_le e.config.passes (e.start nodes edges overrides)
    rw [start_events, List.length_nil, Nat.zero_add] at hlogged
    exact Nat.le_trans hlogged (Nat.add_le_add_right hfew _)
  cases hend : settled.converged with
  | true =>
    rw [hend, if_pos rfl] at hbusy
    exact ⟨hbusy, fun _ => hend⟩
  | false =>
    have hall : settled.iterations = e.config.passes := settle_exhausted hend
    rw [hend, if_neg Bool.false_ne_true] at hbusy
    exact ⟨Nat.le_succ_of_le hbusy, fun hpasses => by omega⟩

theorem run_cycles {e : Engine α} {nodes : List (Node α)} {edges : List (Edge α)}
    {overrides : Overrides α} {r : Result α} (hrun : (e.run nodes edges overrides).2 = .ok r) :
    (e.run nodes edges overrides).1.ledger.cycles = r.cycles ∧
      r.cycles = if e.config.detectsCycles then (chains (.ofLists nodes edges)).cycles else [] := by
  refine ⟨(congrArg Result.cycles (run_shows hrun)).symm, ?_⟩
  obtain rfl := result_of_run hrun
  rw [Settled.result, Setting.settle_fullPass_ledger, Setting.after_cycles, start_cycles]

/-- What a run reports of its passes is so, whatever the rules. If it converged, a further pass
over the states it returns changes nothing, and no edge read either way would. If it did not, all
passes were made and the last one logged an event. Every pass but the last of a converged run
logged an event. -/
theorem run_reports {e : Engine α} (hpasses : 0 < e.config.passes) {nodes : List (Node α)}
    {overrides : Overrides α} {seeds : Table α}
    (haccepted : (e.prepare nodes overrides).2 = .ok seeds) (edges : List (Edge α)) :
    let s := e.setting (.ofLists nodes edges)
    let left := (e.run nodes edges overrides).1.ledger
    let passed := fun n => afterPasses s.fullPass n (e.start nodes edges overrides)
    ∃ r, (e.run nodes edges overrides).2 = .ok r ∧
      (left = passed r.iterations ∧ r = (Settled.mk left r.converged r.iterations).result) ∧
      (1 ≤ r.iterations ∧ r.iterations ≤ e.config.passes) ∧
      (r.converged = true →
        s.fullPass left = (left, false) ∧ ∀ h ∈ s.hops, s.change? r.states h = none) ∧
      (r.converged = false → r.iterations = e.config.passes ∧
        (passed (r.iterations - 1)).events.length < (passed r.iterations).events.length) ∧
      ∀ n < r.iterations, ¬(r.converged = true ∧ n + 1 = r.iterations) →
        (passed n).events.length < (passed (n + 1)).events.length := by
  intro s left passed
  let settled := settle s.fullPass e.config.passes (e.start nodes edges overrides)
  have hrun : e.run nodes edges overrides =
      ({ e with ledger := settled.ledger }, .ok settled.result) := run_of_accepted haccepted edges
  have hleft : left = settled.ledger := congrArg (fun call => call.1.ledger) hrun
  have hpositive : 0 < settled.iterations := settle_iterations_pos hpasses _
  have hbusy : ∀ n < settled.iterations,
      ¬(settled.converged = true ∧ n + 1 = settled.iterations) →
      (passed n).events.length < (passed (n + 1)).events.length := by
    intro n hn hnot
    have hchanged := settle_busy hn fun hconverged heq => hnot ⟨hconverged, heq⟩
    change _ < (afterPasses s.fullPass (n + 1) _).events.length
    rw [afterPasses_succ]
    exact (s.fullPass_changed_iff _).1 hchanged
  refine ⟨settled.result, congrArg Prod.snd hrun, ⟨?_, ?_⟩, ⟨hpositive, ?_⟩, ?_, ?_, hbusy⟩
  · rw [hleft]
    exact settle_afterPasses s.fullPass e.config.passes _
  · rw [hleft]
    rfl
  · exact settle_iterations_le s.fullPass e.config.passes _
  · intro hconverged
    have hquiet : s.fullPass left = (left, false) := by
      rw [hleft]
      exact settle_quiet (fun h => (Setting.fullPass_quiet h).1) hconverged
    have hstates : settled.result.states = left.states := by
      rw [hleft]
      rfl
    rw [hstates]
    exact ⟨hquiet, (Setting.fullPass_quiet hquiet).2⟩
  · intro hconverged
    have hall : settled.iterations = e.config.passes := settle_exhausted hconverged
    have hnot : settled.converged ≠ true := by
      change settled.converged = false at hconverged
      simp [hconverged]
    have hlast := hbusy (settled.iterations - 1) (by omega) fun h => hnot h.1
    rw [Nat.sub_add_cancel hpositive] at hlast
    exact ⟨hall, hlast⟩

theorem run_reports_exhausted :
    let e : Engine Float := .new { Config.standard with passes := 1 } .builtin
    let nodes : List (Node Float) :=
      [⟨"rain", .fact, "", 90.0⟩, ⟨"wet", .conclusion, "", 50.0⟩, ⟨"slip", .conclusion, "", 50.0⟩]
    let edges : List (Edge Float) :=
      [⟨"ws", "wet", "slip", "causes", 1.0⟩, ⟨"rw", "rain", "wet", "causes", 1.0⟩]
    let s := e.setting (.ofLists nodes edges)
    let passed := fun n => afterPasses s.fullPass n (e.start nodes edges ∅)
    ∃ r, (e.run nodes edges ∅).2 = .ok r ∧ r.converged = false ∧ r.iterations = 1 ∧
      (passed 0).events.length < (passed 1).events.length := by
  intro e nodes edges s passed
  have hcheck : (e.run nodes edges ∅).2.toOption.all (fun r => !r.converged) = true := by
    decide +kernel
  have haccepted : (e.prepare nodes ∅).2 = .ok _ := rfl
  have hpasses : 0 < e.config.passes := by decide
  obtain ⟨r, hr, -, -, -, hexhausted, -⟩ := run_reports hpasses haccepted edges
  rw [hr] at hcheck
  have hconverged : r.converged = false := by simpa [Except.toOption] using hcheck
  obtain ⟨hiterations, hlogged⟩ := hexhausted hconverged
  have hone : r.iterations = 1 := hiterations
  rw [hone] at hlogged
  exact ⟨r, hr, hconverged, hone, hlogged⟩

end Engine
end ReasonGraph
