import ReasonGraph.Proofs.Drift
import ReasonGraph.Proofs.Endless
import ReasonGraph.Proofs.Extension
import ReasonGraph.Proofs.Interleaving
import Mathlib.Order.Filter.Finite

/-! When a run over a graph without cycles comes to rest, if it may go on long enough and numbers
are exact. Node by node along the edges, each comes to rest after those it hears from, unless two
edges into it oppose each other and both act again and again. Without achievement its verdict only
goes up, and where it stands all edges pull one way. Where achievement acts on and on, verdicts only
go up in another order, but for withdrawals, and each of these takes away a driver that does not
come back. -/

namespace ReasonGraph

theorem countP_addDriver {p : String → Bool} {drivers : List String} {id : String}
    (hid : p id = false) : (addDriver drivers id).countP p = drivers.countP p := by
  unfold addDriver
  split
  · rfl
  · simp [hid]

theorem countP_strike_lt {p : String → Bool} {drivers : List String} {id : String}
    (hmem : id ∈ drivers) (hid : p id = true) :
    (drivers.filter (· ≠ id)).countP p < drivers.countP p := by
  rw [List.countP_eq_countP_filter_add drivers p (· ≠ id)]
  refine Nat.lt_add_of_pos_right (List.countP_pos_iff.2 ⟨id, ?_, hid⟩)
  simp [hmem]

namespace Setting

section
variable {α : Type} [Quantity α] {s : Setting α} {l : Ledger α} {k : Nat}

structure Infers (s : Setting α) (l : Ledger α) (k : Nat) (h : Hop α) (c : Change α) (r : Relation)
    (e : Evidence α) (p : Proposal α) : Prop where
  relation : h.edge.relation = r.name
  twoWay : h.reversed = true → Rule.isMutual r = true
  edge : e.edge = h.edge
  reversed : e.reversed = h.reversed
  config : e.config = s.config
  sourceId : e.sourceNode.id = h.source
  source : (s.tick l k).states.get? h.source = some e.source
  target : (s.tick l k).states.get? h.target = some e.target
  inferred : Rule.inference r e = some p
  loud : p.logic = e.target.logic →
    ¬Quantity.gap e.target.confidence (Quantity.clamp p.confidence) < 1.0
  change : c = p.change h e.target

variable {nodes : List (Node α)} {edges : List (Edge α)}

theorem Changes.infers (hgraph : s.graph = .ofLists nodes edges) (hregistry : s.registry = .builtin)
    {h : Hop α × Rule α} {c : Change α} (hc : s.Changes l k h c) :
    ∃ r e p, s.Infers l k h.1 c r e p := by
  obtain ⟨r, hrule, hrel⟩ := rule_of_mem_hops hregistry hc.hop_mem
  obtain ⟨e, p, he, hp, -, hloud, hchange⟩ := Hop.change?_eq_some hc.2
  rw [hrule] at hp
  have hid : e.sourceNode.id = h.1.source := by
    rw [hgraph] at he
    exact (Hop.evidence?_ids he).1
  obtain ⟨_, _, _, _, -, -, hsource, htarget, rfl⟩ := Hop.evidence?_eq_some he
  refine ⟨r, _, p, hrel, fun hback => ?_, rfl, rfl, rfl, hid, hsource, htarget,
    (floored_eq_some hp).2, fun hsame hnear => ?_, hchange⟩
  · have hmutual := (mem_hops.1 hc.hop_mem).2.2 hback
    rwa [hrule] at hmutual
  · simp [Proposal.isQuiet, hsame, hnear] at hloud

/-- From a time on, what reaches a node forwards comes from sources at rest, by edges that act on
and on. -/
structure Fed (s : Setting α) (l : Ledger α) (id : String) (n : Nat) : Prop where
  steady : ∀ k ≥ n, ∀ h c, s.Changes l k h c → h.1.target = id → h.1.reversed = false →
    (s.tick l k).states.get? h.1.source = (s.tick l n).states.get? h.1.source
  acting : ∀ k ≥ n, ∀ h c, s.Changes l k h c → h.1.target = id → h.1.reversed = false →
    s.ActsForever l h.1.edge

omit [Quantity α] in
theorem eventually_edges {P : Edge α → Nat → Prop} (edges : List (Edge α))
    (h : ∀ edge ∈ edges, ∀ᶠ k in Filter.atTop, P edge k) :
    ∀ᶠ k in Filter.atTop, ∀ edge ∈ edges, P edge k :=
  (Filter.eventually_all_finite edges.finite_toSet).2 h

omit [Quantity α] in
theorem eq_of_forward {h : Hop α} (hforward : h.reversed = false) : h = ⟨h.edge, false⟩ := by
  rw [← hforward]

theorem exists_fed (hgraph : s.graph = .ofLists nodes edges) {id : String}
    (hbefore : ∀ y, (Links.whole nodes edges).Joins y id → s.Rests l y) : ∃ n, s.Fed l id n := by
  have hquiet : ∀ᶠ k in Filter.atTop, ∀ edge ∈ edges,
      (Links.whole nodes edges).Joins edge.source id →
        ∀ h c, s.Changes l k h c → h.1.target ≠ edge.source := by
    refine eventually_edges edges fun edge _ => ?_
    by_cases hjoins : (Links.whole nodes edges).Joins edge.source id
    · exact (hbefore _ hjoins).mono fun k hk _ => hk
    · exact .of_forall fun k h => absurd h hjoins
  have hspent : ∀ᶠ k in Filter.atTop, ∀ edge ∈ edges, ¬s.ActsForever l edge →
      ∀ h c, s.Changes l k h c → h.1 ≠ ⟨edge, false⟩ := by
    refine eventually_edges edges fun edge _ => ?_
    by_cases hacts : s.ActsForever l edge
    · exact .of_forall fun k h => absurd hacts h
    · exact (Filter.not_frequently.1 hacts).mono fun k hk _ h c hc heq => hk ⟨h, c, hc, heq⟩
  obtain ⟨n, hn⟩ := Filter.eventually_atTop.1 (hquiet.and hspent)
  refine ⟨n, ⟨fun k hk h c hc htarget hforward => ?_, fun k hk h c hc htarget hforward => ?_⟩⟩
  · obtain ⟨hedge, hjoins⟩ := joins_of_change hgraph hc.hop_mem hc.2
    rw [eq_of_forward hforward] at htarget ⊢
    rw [← htarget] at hn
    exact tick_get?_of_quiet hk fun j hj _ => (hn j hj).1 h.1.edge hedge hjoins
  · by_contra hacts
    exact (hn k hk).2 h.1.edge (joins_of_change hgraph hc.hop_mem hc.2).1 hacts h c hc (eq_of_forward hforward)

theorem Fed.forwards {id : String} {n : Nat} (hfed : s.Fed l id n)
    (hgraph : s.graph = .ofLists nodes edges) (hk : n ≤ k) {h : Hop α × Rule α} {c : Change α}
    (hc : s.Changes l k h c) (htarget : h.1.target = id) (hforward : h.1.reversed = false) :
    h.1.edge ∈ edges ∧ h.1.edge.target = id ∧ s.ActsForever l h.1.edge ∧
      (s.tick l n).states.get? h.1.edge.source = (s.tick l k).states.get? h.1.source := by
  have hacting := hfed.acting k hk h c hc htarget hforward
  have hsteady := hfed.steady k hk h c hc htarget hforward
  have hedge := (joins_of_change hgraph hc.hop_mem hc.2).1
  rw [eq_of_forward hforward] at htarget hsteady ⊢
  exact ⟨hedge, htarget, hacting, hsteady.symm⟩

/-- Among the edges into a node that act on and on none opposes another. -/
def AtPeace (s : Setting α) (l : Ledger α) (edges : List (Edge α)) (id : String) : Prop :=
  ∀ a ∈ edges, ∀ b ∈ edges, a.target = id → s.ActsForever l a → s.ActsForever l b → ¬a.Opposes b

theorem AtPeace.beside_achiever {id : String} (hpeace : s.AtPeace l edges id) {a b : Edge α}
    (ha : a ∈ edges) (hatarget : a.target = id) (haacts : s.ActsForever l a)
    (harel : a.relation = Relation.achieves.name) (hb : b ∈ edges) (hbtarget : b.target = id)
    (hbacts : s.ActsForever l b) {r : Relation} (hrel : b.relation = r.name) :
    r = .achieves ∨ r = .causes ∨ r = .conflicts := by
  have hab := hpeace a ha b hb hatarget haacts hbacts
  have hba := hpeace b hb a ha hbtarget hbacts haacts
  have hsame : a.target = b.target := hatarget.trans hbtarget.symm
  cases r with
  | supports => exact absurd (.achievement hsame harel (.inl hrel)) hab
  | depends => exact absurd (.achievement hsame harel (.inr hrel)) hab
  | hinders => exact absurd (.hindrance hsame.symm hrel (.inr (.inr harel))) hba
  | achieves => exact .inl rfl
  | causes => exact .inr (.inl rfl)
  | conflicts => exact .inr (.inr rfl)

def isLost (s : Setting α) (l : Ledger α) (edges : List (Edge α)) (id : String) (n : Nat)
    (source : String) : Bool :=
  edges.any (fun edge => edge.source = source && edge.target = id) &&
    ((s.tick l n).states.get? source).any fun state => state.logic = .fails

end

variable {s : Setting Rat} {l : Ledger Rat} {nodes : List (Node Rat)} {edges : List (Edge Rat)}
  {id : String} {n : Nat}

theorem Changes.entry_inRange {k : Nat} {h : Hop Rat × Rule Rat} {c : Change Rat}
    (hc : s.Changes l k h c) : Quantity.InRange c.entry.confidence := by
  obtain ⟨e, p, -, -, -, -, rfl⟩ := Hop.change?_eq_some hc.2
  exact Quantity.clamp_inRange p.confidence

theorem rests_or_inRange (s : Setting Rat) (l : Ledger Rat) (id : String) :
    s.Rests l id ∨ ∀ᶠ k in Filter.atTop, ∀ state, (s.tick l k).states.get? id = some state →
      Quantity.InRange state.confidence := by
  by_cases hmoved : ∃ k h c, s.Changes l k h c ∧ h.1.target = id
  · obtain ⟨n, h, c, hc, rfl⟩ := hmoved
    refine .inr (Filter.eventually_atTop.2 ⟨n + 1, fun k hk => ?_⟩)
    induction k, hk using Nat.le_induction with
    | base =>
      intro state hstate
      rw [hc.tick_succ, Ledger.write_get?, if_pos (change?_target hc.2)] at hstate
      exact Option.some.inj hstate ▸ hc.entry_inRange
    | succ k hk ih =>
      intro state hstate
      rcases s.tick_cases l k with ⟨h', c', hc'⟩ | ⟨hsame, -⟩
      · rw [hc'.tick_succ, Ledger.write_get?] at hstate
        split at hstate
        · exact Option.some.inj hstate ▸ hc'.entry_inRange
        · exact ih state hstate
      · exact ih state (hsame ▸ hstate)
  · exact .inl (.of_forall fun k h c hc htarget => hmoved ⟨k, h, c, hc, htarget⟩)

/-- In the states that its sources have come to rest in, some edge that acts on and on pulls a node
this way. -/
def PulledOnto (s : Setting Rat) (l : Ledger Rat) (edges : List (Edge Rat)) (id : String) (n : Nat)
    (d : Drift) : Prop :=
  ∃ edge ∈ edges, edge.target = id ∧ s.ActsForever l edge ∧
    ∃ σ, (s.tick l n).states.get? edge.source = some σ ∧ edge.Pulls s.config.decay σ d

theorem AtPeace.pulledOnto_unique (hpeace : s.AtPeace l edges id) {d d' : Drift}
    (h : s.PulledOnto l edges id n d) (h' : s.PulledOnto l edges id n d') : d = d' := by
  obtain ⟨a, ha, hatarget, haacts, σ, hσ, hapulls⟩ := h
  obtain ⟨b, hb, hbtarget, hbacts, τ, hτ, hbpulls⟩ := h'
  refine hapulls.agree hbpulls (hatarget.trans hbtarget.symm) (fun hsource => ?_)
    (hpeace a ha b hb hatarget haacts hbacts) (hpeace b hb a ha hbtarget hbacts haacts)
  rw [hsource, hτ] at hσ
  exact (Option.some.inj hσ).symm

def way (height : LogicState → Nat) (d : Drift) (state : NodeState Rat) : Lex (Nat × Nat) :=
  toLex (3 - height state.logic, d.room state.confidence)

namespace Infers
variable {k : Nat} {h : Hop Rat} {c : Change Rat} {r : Relation} {e : Evidence Rat}
  {p : Proposal Rat}

theorem way_lt (hi : s.Infers l k h c r e p) {height : LogicState → Nat} {d : Drift}
    (hheight : ∀ v, height v ≤ 3)
    (hgoes : height e.target.logic < height p.logic ∨ p.logic = e.target.logic ∧
      d.Leads e.target.confidence (Quantity.clamp p.confidence)) :
    way height d c.entry < way height d e.target := by
  rw [hi.change]
  refine Prod.Lex.toLex_lt_toLex.2 ?_
  rcases hgoes with hup | ⟨hsame, hleads⟩
  · exact .inl (Nat.sub_lt_sub_left (hup.trans_le (hheight p.logic)) hup)
  · exact .inr ⟨congrArg (3 - height ·) hsame,
      hleads.room_lt (Quantity.clamp_inRange p.confidence) (hi.loud hsame)⟩

theorem forward (hi : s.Infers l k h c r e p)
    (hone : Rule.isMutual r = true → h.reversed = false) : h.reversed = false := by
  by_contra hback
  exact hback (hone (hi.twoWay (eq_true_of_ne_false hback)))

end Infers

theorem Fed.rests_of_no_achiever (hfed : s.Fed l id n) (hgraph : s.graph = .ofLists nodes edges)
    (hregistry : s.registry = .builtin) (hpeace : s.AtPeace l edges id)
    (hnone : ∀ a ∈ edges, a.target = id → s.ActsForever l a →
      a.relation ≠ Relation.achieves.name) : s.Rests l id := by
  obtain ⟨d, hd⟩ : ∃ d, ∀ d', s.PulledOnto l edges id n d' → d' = d := by
    by_cases hany : ∃ d, s.PulledOnto l edges id n d
    · obtain ⟨d, hd⟩ := hany
      exact ⟨d, fun d' hd' => hpeace.pulledOnto_unique hd' hd⟩
    · exact ⟨.up, fun d' hd' => absurd ⟨d', hd'⟩ hany⟩
  rcases s.rests_or_inRange l id with hrests | hrange
  · exact hrests
  refine rests_of_descent (way LogicState.rank d) ?_
  filter_upwards [Filter.eventually_ge_atTop n, hrange] with k hk hrange h c hc htarget state hstate
  obtain ⟨r, e, p, hi⟩ := hc.infers hgraph hregistry
  obtain rfl : e.target = state := Option.some.inj (hi.target.symm.trans (htarget ▸ hstate))
  refine hi.way_lt LogicState.rank_le_conflict ?_
  have hrel : e.edge.relation = r.name := hi.edge ▸ hi.relation
  have hr : r ≠ .achieves := by
    rintro rfl
    obtain ⟨hedge, hinto, hacting, -⟩ :=
      hfed.forwards hgraph hk hc htarget (hi.forward fun hmutual => nomatch hmutual)
    exact hnone h.1.edge hedge hinto hacting hi.relation
  refine (Rule.inference_pulls hr hi.inferred hrel (hrange _ hstate)).imp_right ?_
  rintro ⟨hsame, hmutual, d', hpulls, hleads⟩
  obtain ⟨hedge, hinto, hacting, hsource⟩ :=
    hfed.forwards hgraph hk hc htarget (hi.forward (hi.reversed ▸ hmutual))
  rw [hi.edge, hi.config] at hpulls
  obtain rfl := hd d' ⟨h.1.edge, hedge, hinto, hacting, e.source, hsource.trans hi.source, hpulls⟩
  exact ⟨hsame, hleads⟩

theorem isLost_eq_true {y : String} : s.isLost l edges id n y = true ↔
    (∃ edge ∈ edges, edge.source = y ∧ edge.target = id) ∧
      ∃ σ, (s.tick l n).states.get? y = some σ ∧ σ.logic = .fails := by
  simp [isLost, Option.any_eq_true]

theorem Fed.isLost_iff (hfed : s.Fed l id n) (hgraph : s.graph = .ofLists nodes edges)
    (hacyclic : (Links.whole nodes edges).IsAcyclic) {k : Nat} (hk : n ≤ k) {h : Hop Rat × Rule Rat}
    {c : Change Rat} (hc : s.Changes l k h c) (htarget : h.1.target = id) {source : NodeState Rat}
    (hsource : (s.tick l k).states.get? h.1.source = some source) :
    s.isLost l edges id n h.1.source = true ↔ h.1.reversed = false ∧ source.logic = .fails := by
  obtain ⟨hedge, hjoins⟩ := joins_of_change hgraph hc.hop_mem hc.2
  rw [isLost_eq_true]
  constructor
  · rintro ⟨⟨edge, hmem, hfrom, hinto⟩, σ, hσ, hfails⟩
    have hforward : h.1.reversed = false := by
      by_contra hback
      obtain ⟨hid, hy⟩ := hjoins.mem_ids
      obtain ⟨⟨away, reversed⟩, rule⟩ := h
      obtain rfl : reversed = true := eq_true_of_ne_false hback
      have hfrom : edge.source = away.target := hfrom
      have hinto : edge.target = away.source := hinto.trans htarget.symm
      have hreturn := Links.joins_whole hmem (hfrom ▸ hy) (hinto ▸ hid)
      rw [hfrom, hinto] at hreturn
      exact hacyclic away.source (.tail (.single hjoins) hreturn)
    rw [hfed.steady k hk h c hc htarget hforward, hσ] at hsource
    exact ⟨hforward, Option.some.inj hsource ▸ hfails⟩
  · rintro ⟨hforward, hfails⟩
    rw [hfed.steady k hk h c hc htarget hforward] at hsource
    rw [eq_of_forward hforward] at htarget hsource ⊢
    exact ⟨⟨h.1.edge, hedge, rfl, htarget⟩, source, hsource, hfails⟩

/-- Where achievement acts on and on a node comes to rest too. Each withdrawal strikes out a lost
driver for good, and between withdrawals what holds is achieved, caused or contested. -/
theorem Fed.rests_of_achiever (hfed : s.Fed l id n) (hgraph : s.graph = .ofLists nodes edges)
    (hregistry : s.registry = .builtin) (hacyclic : (Links.whole nodes edges).IsAcyclic)
    (hpeace : s.AtPeace l edges id) {a : Edge Rat} (ha : a ∈ edges) (hatarget : a.target = id)
    (haacts : s.ActsForever l a) (harel : a.relation = Relation.achieves.name) :
    s.Rests l id := by
  rcases s.rests_or_inRange l id with hrests | hrange
  · exact hrests
  refine rests_of_descent (fun state => toLex
    (state.derivedFrom.countP (s.isLost l edges id n), way LogicState.height .up state)) ?_
  filter_upwards [Filter.eventually_ge_atTop n, hrange] with k hk hrange h c hc htarget state hstate
  obtain ⟨r, e, p, hi⟩ := hc.infers hgraph hregistry
  obtain rfl : e.target = state := Option.some.inj (hi.target.symm.trans (htarget ▸ hstate))
  have hr : r = .achieves ∨ r = .causes ∨ r = .conflicts := by
    -- What is read backwards causes or excludes.
    cases hback : h.1.reversed with
    | true =>
      have hmutual := hi.twoWay hback
      cases r <;> simp_all [Rule.isMutual]
    | false =>
      obtain ⟨hedge, hinto, hacting, -⟩ := hfed.forwards hgraph hk hc htarget hback
      exact hpeace.beside_achiever ha hatarget haacts harel hedge hinto hacting hi.relation
  have hlost := hfed.isLost_iff hgraph hacyclic hk hc htarget hi.source
  rw [← hi.sourceId] at hlost
  refine Prod.Lex.toLex_lt_toLex.2 ?_
  rcases Rule.inference_builds hr hi.inferred (hrange _ hstate) with ⟨rfl, hw⟩ | hup
  · have hforward : h.1.reversed = false := hi.forward (by simp [Rule.isMutual])
    left
    rw [hi.change]
    change p.derivedFrom.countP _ < _
    rw [hw.drivers]
    exact countP_strike_lt hw.drove (hlost.2 ⟨hforward, hw.fails⟩)
  · have hkept : s.isLost l edges id n e.sourceNode.id = false := by
      rw [Bool.eq_false_iff, ne_eq, hlost, not_and, ← hi.reversed]
      exact hup.firm
    have hway := hi.way_lt LogicState.height_le_conflict hup.up
    refine .inr ⟨?_, hway⟩
    rw [hi.change]
    change p.derivedFrom.countP _ = _
    rw [hup.drivers]
    exact countP_addDriver hkept

theorem rests_of_atPeace (hgraph : s.graph = .ofLists nodes edges)
    (hregistry : s.registry = .builtin) (hacyclic : (Links.whole nodes edges).IsAcyclic)
    (hpeace : ∀ id, s.AtPeace l edges id) : ∀ id ∈ nodes.map Node.id, s.Rests l id := by
  refine hacyclic.induction fun id _ hbefore => ?_
  obtain ⟨n, hfed⟩ := exists_fed hgraph hbefore
  by_cases hachieved : ∃ a ∈ edges, a.target = id ∧ s.ActsForever l a ∧
      a.relation = Relation.achieves.name
  · obtain ⟨a, ha, hatarget, haacts, harel⟩ := hachieved
    exact hfed.rests_of_achiever hgraph hregistry hacyclic (hpeace id) ha hatarget haacts harel
  · exact hfed.rests_of_no_achiever hgraph hregistry (hpeace id) fun a ha hatarget haacts harel =>
      hachieved ⟨a, ha, hatarget, haacts, harel⟩

/-- Without cycles passes settle just if no two edges that oppose each other both act on and on. -/
theorem settles_iff_atPeace (hgraph : s.graph = .ofLists nodes edges)
    (hregistry : s.registry = .builtin) (hacyclic : (Links.whole nodes edges).IsAcyclic) :
    (∃ K, ∀ cap ≥ K, (settle s.fullPass cap l).converged = true) ↔
      ¬∃ a ∈ edges, ∃ b ∈ edges, a.Opposes b ∧ s.ActsForever l a ∧ s.ActsForever l b := by
  rw [settles_iff]
  constructor
  · rintro hsettled ⟨a, -, -, -, -, hacts, -⟩
    obtain ⟨k, ⟨h, c, hc, -⟩, hquiet⟩ := (hacts.and_eventually hsettled).exists
    exact hquiet h c hc
  · intro hnone
    have hrests := rests_of_atPeace hgraph hregistry hacyclic fun id a ha b hb _ haacts hbacts
      hopposes => hnone ⟨a, ha, b, hb, hopposes, haacts, hbacts⟩
    have hall : ∀ᶠ k in Filter.atTop, ∀ id ∈ nodes.map Node.id,
        ∀ h c, s.Changes l k h c → h.1.target ≠ id :=
      (Filter.eventually_all_finite (nodes.map Node.id).finite_toSet).2 hrests
    exact hall.mono fun k hk h c hc => hk h.1.target (ends_of_change hgraph hc.2).2 h c hc rfl

end Setting

namespace Engine

def capped (e : Engine Rat) (cap : Nat) : Engine Rat :=
  { e with config := { e.config with passes := cap } }

/-- If it may make passes enough, a run comes to rest. -/
def Settles (e : Engine Rat) (nodes : List (Node Rat)) (edges : List (Edge Rat))
    (overrides : Overrides Rat) : Prop :=
  ∃ K, ∀ cap ≥ K, ∃ r,
    ((e.capped cap).run nodes edges overrides).2 = .ok r ∧ r.converged = true

theorem capped_run {e : Engine Rat} (hregistry : e.registry = .builtin) {nodes : List (Node Rat)}
    {overrides : Overrides Rat} {seeds : Table Rat}
    (haccepted : (e.prepare nodes overrides).2 = .ok seeds) (edges : List (Edge Rat)) (cap : Nat) :
    ((e.capped cap).run nodes edges overrides).2 =
      .ok (settle (e.setting (.ofLists nodes edges)).fullPass cap
        (e.start nodes edges overrides)).result :=
  have hconfig : (e.capped cap).config = { e.config with passes := cap } := rfl
  run_of_passes hconfig hregistry hregistry haccepted edges

/-- A run over a graph without cycles comes to rest if it may make passes enough, unless two edges
into one node that oppose each other both act on and on. Where no edges oppose each other it comes
to rest always. -/
theorem settles_of_isAcyclic {e : Engine Rat} (hregistry : e.registry = .builtin)
    {nodes : List (Node Rat)} {edges : List (Edge Rat)}
    (hacyclic : (Links.whole nodes edges).IsAcyclic) {overrides : Overrides Rat}
    {seeds : Table Rat} (haccepted : (e.prepare nodes overrides).2 = .ok seeds) :
    let s := e.setting (.ofLists nodes edges)
    let l := e.start nodes edges overrides
    (e.Settles nodes edges overrides ↔
      ¬∃ a ∈ edges, ∃ b ∈ edges, a.Opposes b ∧ s.ActsForever l a ∧ s.ActsForever l b) ∧
    ((∀ a ∈ edges, ∀ b ∈ edges, ¬a.Opposes b) → e.Settles nodes edges overrides) := by
  intro s l
  have hsettles : e.Settles nodes edges overrides ↔
      ∃ K, ∀ cap ≥ K, (settle s.fullPass cap l).converged = true := by
    simp [Settles, capped_run hregistry haccepted edges, Settled.result, s, l]
  have hiff := hsettles.trans (Setting.settles_iff_atPeace (s := s) rfl hregistry hacyclic)
  refine ⟨hiff, fun hnone => hiff.2 ?_⟩
  rintro ⟨a, ha, b, hb, hopposes, -⟩
  exact hnone a ha b hb hopposes

theorem settles_of_isAcyclic_plan :
    let e : Engine Rat := .new Config.standard .builtin
    let nodes : List (Node Rat) :=
      [⟨"plan", .goal, "", 50.0⟩, ⟨"walk", .action, "", 90.0⟩, ⟨"rain", .fact, "", 60.0⟩,
        ⟨"mud", .conclusion, "", 50.0⟩]
    let edges : List (Edge Rat) :=
      [⟨"wp", "walk", "plan", "achieves", 0.5⟩, ⟨"mp", "mud", "plan", "causes", 1.0⟩,
        ⟨"rm", "rain", "mud", "supports", 1.0⟩, ⟨"cm", "rain", "mud", "causes", 0.8⟩]
    let overrides : Overrides Rat := .ofList [("rain", .ok ⟨some .holds, some 95.0, none⟩)]
    (Links.whole nodes edges).IsAcyclic ∧ (∃ seeds, (e.prepare nodes overrides).2 = .ok seeds) ∧
      (∀ a ∈ edges, ∀ b ∈ edges, ¬a.Opposes b) ∧ e.Settles nodes edges overrides := by
  intro e nodes edges overrides
  have hacyclic : (Links.whole nodes edges).IsAcyclic :=
    Links.isAcyclic_of_rank (["rain", "walk", "mud", "plan"].idxOf ·) (by decide)
  have haccepted : (e.prepare nodes overrides).2 = .ok _ := rfl
  have hnone : ∀ a ∈ edges, ∀ b ∈ edges, ¬a.Opposes b := by decide +kernel
  exact ⟨hacyclic, ⟨_, haccepted⟩, hnone, (settles_of_isAcyclic rfl hacyclic haccepted).2 hnone⟩

/-- A support and a weak hindrance tug at one goal: each pass takes its confidence from 50 up to 77
and back, for as many passes as there may be. -/
theorem tug_never_settles :
    let e : Engine Rat := .new Config.standard .builtin
    let nodes : List (Node Rat) :=
      [⟨"a", .fact, "", 90.0⟩, ⟨"h", .fact, "", 90.0⟩, ⟨"b", .goal, "", 50.0⟩]
    let edges : List (Edge Rat) :=
      [⟨"ab", "a", "b", "supports", 1.0⟩, ⟨"hb", "h", "b", "hinders", 0.6⟩]
    (Links.whole nodes edges).IsAcyclic ∧ ∀ cap, ∃ r,
      ((e.capped cap).run nodes edges ∅).2 = .ok r ∧ r.converged = false := by
  intro e nodes edges
  refine ⟨Links.isAcyclic_of_rank (["a", "h", "b"].idxOf ·) (by decide), fun cap => ?_⟩
  let s := e.setting (.ofLists nodes edges)
  let l := e.start nodes edges ∅
  have haccepted : (e.prepare nodes ∅).2 = .ok _ := rfl
  refine ⟨_, capped_run rfl haccepted edges cap, ?_⟩
  change (settle s.fullPass cap l).converged = false
  cases cap with
  | zero => rfl
  | succ cap =>
    have hbusy : (s.fullPass l).2 = true := by decide +kernel
    rw [settle_succ_of_changed hbusy]
    refine Setting.settle_of_returning (t := (s.fullPass l).1.states) ?_ ?_ cap rfl
    · exact List.ne_nil_of_length_pos (by decide +kernel)
    · exact OrderedMap.ext (by decide +kernel)

end Engine
end ReasonGraph
