import ReasonGraph.Proofs.Passes
import Mathlib.Order.Filter.AtTopBot.Basic

/-! Passes that follow each other without end. Each reading has its time, and a run settles, if only
it may go on long enough, just if there is a time from which on nothing changes. A node comes to
rest if, from some time on, each change of its state takes it down in an order in which one cannot
go down forever. -/

namespace ReasonGraph
variable {α : Type} [Quantity α]

namespace Setting

def reading? (s : Setting α) (k : Nat) : Option (Hop α × Rule α) := s.hops[k % s.hops.length]?

def tick (s : Setting α) (l : Ledger α) : Nat → Ledger α
  | 0 => l
  | k + 1 => (s.reading? k).elim (s.tick l k) (s.step (s.tick l k))

def Changes (s : Setting α) (l : Ledger α) (k : Nat) (h : Hop α × Rule α) (c : Change α) : Prop :=
  s.reading? k = some h ∧ s.change? (s.tick l k).states h = some c

/-- From some time on nothing changes the state of a node. -/
def Rests (s : Setting α) (l : Ledger α) (id : String) : Prop :=
  ∀ᶠ k in Filter.atTop, ∀ h c, s.Changes l k h c → h.1.target ≠ id

/-- Again and again, however long one waits, the edge is read forwards and changes something. -/
def ActsForever (s : Setting α) (l : Ledger α) (edge : Edge α) : Prop :=
  ∃ᶠ k in Filter.atTop, ∃ h c, s.Changes l k h c ∧ h.1 = ⟨edge, false⟩

variable {s : Setting α} {l : Ledger α} {k : Nat}

theorem Changes.hop_mem {h : Hop α × Rule α} {c : Change α} (hc : s.Changes l k h c) :
    h ∈ s.hops := List.mem_of_getElem? hc.1

theorem Changes.tick_succ {h : Hop α × Rule α} {c : Change α} (hc : s.Changes l k h c) :
    s.tick l (k + 1) = (s.tick l k).write c := by
  rw [tick, hc.1, Option.elim_some, step_of_some hc.2]

theorem tick_cases (s : Setting α) (l : Ledger α) (k : Nat) :
    (∃ h c, s.Changes l k h c) ∨
      (s.tick l (k + 1) = s.tick l k ∧ ∀ h c, ¬s.Changes l k h c) := by
  cases hread : s.reading? k with
  | none =>
    refine .inr ⟨by rw [tick, hread, Option.elim_none], fun h c hc => ?_⟩
    cases hread.symm.trans hc.1
  | some h =>
    cases hc : s.change? (s.tick l k).states h with
    | some c => exact .inl ⟨h, c, hread, hc⟩
    | none =>
      refine .inr ⟨by rw [tick, hread, Option.elim_some, step_of_none hc], fun h' c hc' => ?_⟩
      obtain rfl := Option.some.inj (hread.symm.trans hc'.1)
      cases hc.symm.trans hc'.2

theorem tick_of_quiet {n m : Nat} (hnm : n ≤ m)
    (hquiet : ∀ k, n ≤ k → k < m → ∀ h c, ¬s.Changes l k h c) : s.tick l m = s.tick l n := by
  induction m, hnm using Nat.le_induction with
  | base => rfl
  | succ m hm ih =>
    rcases s.tick_cases l m with ⟨h, c, hc⟩ | ⟨hsame, -⟩
    · exact absurd hc (hquiet m hm (Nat.lt_succ_self m) h c)
    · rw [hsame, ih fun k hk hlt => hquiet k hk (Nat.lt_succ_of_lt hlt)]

theorem tick_get?_of_quiet {id : String} {n m : Nat} (hnm : n ≤ m)
    (hquiet : ∀ k, n ≤ k → k < m → ∀ h c, s.Changes l k h c → h.1.target ≠ id) :
    (s.tick l m).states.get? id = (s.tick l n).states.get? id := by
  induction m, hnm using Nat.le_induction with
  | base => rfl
  | succ m hm ih =>
    rw [← ih fun k hk hlt => hquiet k hk (Nat.lt_succ_of_lt hlt)]
    rcases s.tick_cases l m with ⟨h, c, hc⟩ | ⟨hsame, -⟩
    · have hother := hquiet m hm (Nat.lt_succ_self m) h c hc
      rw [hc.tick_succ, Ledger.write_get?, if_neg (change?_target hc.2 ▸ hother)]
    · rw [hsame]

theorem Changes.target_state {h : Hop α × Rule α} {c : Change α} (hc : s.Changes l k h c) :
    ∃ state, (s.tick l k).states.get? h.1.target = some state := by
  obtain ⟨e, -, he, -⟩ := Hop.change?_eq_some hc.2
  exact ⟨e.target, (Hop.evidence?_shows he).2.1⟩

/-- What goes down whenever a node is written is written finitely often. -/
theorem rests_of_descent {ι : Type} [Preorder ι] [WellFoundedLT ι] {id : String}
    (μ : NodeState α → ι) (hdescent : ∀ᶠ k in Filter.atTop, ∀ h c, s.Changes l k h c →
      h.1.target = id → ∀ state, (s.tick l k).states.get? id = some state →
      μ c.entry < μ state) : s.Rests l id := by
  obtain ⟨n, hn⟩ := Filter.eventually_atTop.1 hdescent
  -- By induction on the measure that the state has at some time from then on.
  suffices h : ∀ i m state, n ≤ m → (s.tick l m).states.get? id = some state → μ state = i →
      s.Rests l id by
    by_contra hrestless
    obtain ⟨m, hm, hmoves⟩ := Filter.frequently_atTop.1 (Filter.not_eventually.1 hrestless) n
    push Not at hmoves
    obtain ⟨hop, c, hc, rfl⟩ := hmoves
    obtain ⟨state, hstate⟩ := hc.target_state
    exact hrestless (h _ m state hm hstate rfl)
  intro i
  induction i using WellFoundedLT.induction with
  | ind i ih =>
    rintro m state hm hstate rfl
    by_contra hrestless
    have hmoves : ∃ k, m ≤ k ∧ ∃ h c, s.Changes l k h c ∧ h.1.target = id := by
      obtain ⟨k, hk, hmoves⟩ := Filter.frequently_atTop.1 (Filter.not_eventually.1 hrestless) m
      push Not at hmoves
      exact ⟨k, hk, hmoves⟩
    -- Until the first change the state is the one at hand.
    classical
    obtain ⟨hk, h, c, hc, rfl⟩ := Nat.find_spec hmoves
    have hbefore : (s.tick l (Nat.find hmoves)).states.get? h.1.target = some state := by
      rw [← hstate]
      refine tick_get?_of_quiet hk fun j hj hlt h' c' hc' htarget => ?_
      exact Nat.find_min hmoves hlt ⟨hj, h', c', hc', htarget⟩
    have hafter : (s.tick l (Nat.find hmoves + 1)).states.get? h.1.target = some c.entry := by
      rw [hc.tick_succ, Ledger.write_get?, if_pos (change?_target hc.2)]
    exact hrestless (ih (μ c.entry) (hn _ (hm.trans hk) h c hc rfl state hbefore) _ c.entry
      (Nat.le_succ_of_le (hm.trans hk)) hafter rfl)

omit [Quantity α] in
theorem reading?_add (s : Setting α) (n : Nat) {i : Nat} (hi : i < s.hops.length) :
    s.reading? (n * s.hops.length + i) = some s.hops[i] := by
  rw [reading?, Nat.add_comm, Nat.add_mul_mod_self_right, Nat.mod_eq_of_lt hi,
    List.getElem?_eq_getElem hi]

theorem tick_add (s : Setting α) (l : Ledger α) (n : Nat) {i : Nat} (hi : i ≤ s.hops.length) :
    s.tick l (n * s.hops.length + i) = s.after (s.tick l (n * s.hops.length)) (s.hops.take i) := by
  induction i with
  | zero => rfl
  | succ i ih =>
    rw [← Nat.add_assoc, tick, s.reading?_add n hi, Option.elim_some, ih (Nat.le_of_succ_le hi),
      List.take_succ_eq_append_getElem hi, after_append, after_cons, after_nil]

theorem afterPasses_tick (s : Setting α) (l : Ledger α) (n : Nat) :
    afterPasses s.fullPass n l = s.tick l (n * s.hops.length) := by
  induction n with
  | zero => rw [Nat.zero_mul]; rfl
  | succ n ih =>
    rw [afterPasses_succ, fullPass_ledger, ih, Nat.succ_mul, s.tick_add l n (Nat.le_refl _),
      List.take_length]

theorem fullPass_of_rest {n : Nat} (hrest : ∀ k ≥ n, ∀ h c, ¬s.Changes l k h c) :
    (s.fullPass (afterPasses s.fullPass n l)).2 = false := by
  rw [fullPass_of_quiet fun h hh => ?_]
  obtain ⟨i, hi, rfl⟩ := List.mem_iff_getElem.1 hh
  have hlate : n ≤ n * s.hops.length :=
    Nat.le_mul_of_pos_right n (Nat.zero_lt_of_lt hi)
  have hsame : s.tick l (n * s.hops.length + i) = s.tick l (n * s.hops.length) :=
    tick_of_quiet (Nat.le_add_right _ i) fun k hk _ => hrest k (hlate.trans hk)
  rw [afterPasses_tick, ← hsame, Option.eq_none_iff_forall_ne_some]
  intro c hc
  exact hrest _ (hlate.trans (Nat.le_add_right _ i)) s.hops[i] c ⟨s.reading?_add n hi, hc⟩

theorem rest_of_fullPass {n : Nat} (hquiet : (s.fullPass (afterPasses s.fullPass n l)).2 = false)
    {k : Nat} (hk : n * s.hops.length ≤ k) (h : Hop α × Rule α) (c : Change α) :
    ¬s.Changes l k h c := by
  have hall := (fullPass_quiet (Prod.ext rfl hquiet)).2
  rw [afterPasses_tick] at hall
  induction k using Nat.strong_induction_on generalizing h c with
  | _ k ih =>
    intro hc
    have hsame := tick_of_quiet hk fun j hj hlt h c => ih j hlt hj h c
    have hread := hall h hc.hop_mem
    rw [← hsame, hc.2] at hread
    cases hread

theorem settles_iff (s : Setting α) (l : Ledger α) :
    (∃ K, ∀ cap ≥ K, (settle s.fullPass cap l).converged = true) ↔
      ∀ᶠ k in Filter.atTop, ∀ h c, ¬s.Changes l k h c := by
  rw [Filter.eventually_atTop]
  constructor
  · rintro ⟨K, hK⟩
    obtain ⟨n, -, hlast⟩ := settle_last (hK K le_rfl)
    exact ⟨n * s.hops.length, fun k hk => rest_of_fullPass (congrArg Prod.snd hlast) hk⟩
  · rintro ⟨n, hn⟩
    exact ⟨n + 1, fun cap hcap => (settle_by hcap (fullPass_of_rest hn)).1⟩

end Setting

omit [Quantity α] in
theorem settle_succ_of_changed {pass : Ledger α → Ledger α × Bool} {l : Ledger α}
    (h : (pass l).2 = true) (cap : Nat) :
    (settle pass (cap + 1) l).converged = (settle pass cap (pass l).1).converged := by
  rw [settle]
  rcases hp : pass l with ⟨next, changed⟩
  rw [hp] at h
  obtain rfl : changed = true := h
  rfl

omit [Quantity α] in
theorem settle_never {pass : Ledger α → Ledger α × Bool} {P : Ledger α → Prop}
    (hpass : ∀ l, P l → P (pass l).1 ∧ (pass l).2 = true) (cap : Nat) {l : Ledger α} (hl : P l) :
    (settle pass cap l).converged = false := by
  induction cap generalizing l with
  | zero => rfl
  | succ cap ih =>
    obtain ⟨hnext, hchanged⟩ := hpass l hl
    rw [settle_succ_of_changed hchanged]
    exact ih hnext

theorem Setting.settle_of_returning {s : Setting α} {t : Table α}
    (hchanges : s.changes t s.hops ≠ []) (hreturns : t.writeAll (s.changes t s.hops) = t)
    (cap : Nat) {l : Ledger α} (hl : l.states = t) :
    (settle s.fullPass cap l).converged = false := by
  refine settle_never (P := fun l => l.states = t) (fun l hl => ?_) cap hl
  obtain ⟨hstates, hevents⟩ := s.after_changes l s.hops
  rw [← s.fullPass_ledger, hl] at hstates hevents
  refine ⟨hstates.trans hreturns, (s.fullPass_changed_iff l).2 ?_⟩
  rw [hevents, List.length_append, List.length_map]
  exact Nat.lt_add_of_pos_right (List.length_pos_iff.2 hchanges)

end ReasonGraph
