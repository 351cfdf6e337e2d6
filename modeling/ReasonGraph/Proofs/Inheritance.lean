import ReasonGraph.Proofs.Ascent
import ReasonGraph.Proofs.Standing
import Mathlib.Data.Finset.Card
import Mathlib.Data.Finset.Dedup
import Mathlib.Logic.Relation

/-! What dependents inherit. Where all edges are dependencies, a reading gives the dependent the
verdict of what it depends on, if that fails or is in conflict and is further up than its own. So
what has got at least as far up as failing, and what has got as far up as conflict, each spread
along the edges like the one thing there is to reach, and neither gets in the way of the other.
Every pass that does not end the spreading reaches a further node, so as many passes as there are
nodes suffice, and in whatever order the edges are listed the run ends with the same verdicts. -/

namespace ReasonGraph

def ClosedUnder {β : Type} (edge : β → β → Prop) (X : Finset β) : Prop :=
  ∀ a b, edge a b → a ∈ X → b ∈ X

theorem ClosedUnder.chain {β : Type} {edge : β → β → Prop} {X : Finset β}
    (h : ClosedUnder edge X) {a b : β} (hchain : Relation.ReflTransGen edge a b) (ha : a ∈ X) :
    b ∈ X := by
  induction hchain with
  | refl => exact ha
  | tail _ hedge ih => exact h _ _ hedge ih

/-- Sets that grow along the edges of a finite graph until they are closed are so after as many
steps as there are nodes but one. -/
theorem closedUnder_in_time {β : Type} [DecidableEq β] {edge : β → β → Prop} {U : Finset β}
    {F : Nat → Finset β} (hedge : ∀ a b, edge a b → b ∈ U) (hwithin : ∀ n, F n ⊆ U)
    (hgrow : ∀ n, F n ⊆ F (n + 1)) (hspread : ∀ n a b, edge a b → a ∈ F n → b ∈ F (n + 1))
    (hstill : ∀ n, ClosedUnder edge (F n) → F (n + 1) = F n) :
    ClosedUnder edge (F (max 1 U.card - 1)) := by
  have hcount : ∀ n, ClosedUnder edge (F n) ∨ n + 1 ≤ (F n).card := by
    intro n
    induction n with
    | zero =>
      by_cases hempty : F 0 = ∅
      · left
        intro a b _ ha
        simp [hempty] at ha
      · right
        exact Finset.card_pos.2 (Finset.nonempty_iff_ne_empty.2 hempty)
    | succ n ih =>
      by_cases hclosed : ClosedUnder edge (F n)
      · left
        rwa [hstill n hclosed]
      · right
        have hmany : n + 1 ≤ (F n).card := ih.resolve_left hclosed
        simp only [ClosedUnder, not_forall] at hclosed
        obtain ⟨a, b, hab, ha, hb⟩ := hclosed
        have hmore : F n ⊂ F (n + 1) :=
          ⟨hgrow n, fun hback => hb (hback (hspread n a b hab ha))⟩
        have := Finset.card_lt_card hmore
        omega
  rcases hcount (max 1 U.card - 1) with hclosed | hmany
  · exact hclosed
  · have hall : F (max 1 U.card - 1) = U :=
      Finset.eq_of_subset_of_card_le (hwithin _) (by omega)
    intro a b hab _
    rw [hall]
    exact hedge a b hab

variable {α : Type}

def HandsDown (nodes : List (Node α)) (edges : List (Edge α)) (a b : String) : Prop :=
  a ∈ nodes.map Node.id ∧ b ∈ nodes.map Node.id ∧ ∃ edge ∈ edges,
    edge.relation = Relation.depends.name ∧ edge.source = a ∧ edge.target = b

theorem HandsDown.of_perm {nodes : List (Node α)} {edges edges' : List (Edge α)}
    (hperm : edges.Perm edges') {a b : String} (h : HandsDown nodes edges a b) :
    HandsDown nodes edges' a b := by
  obtain ⟨ha, hb, edge, hedge, hjoins⟩ := h
  exact ⟨ha, hb, edge, hperm.mem_iff.1 hedge, hjoins⟩

/-- A chain of dependencies leads to the node from one that has the verdict in the table. -/
def Inherits (nodes : List (Node α)) (edges : List (Edge α)) (t : Table α) (verdict : LogicState)
    (id : String) : Prop :=
  ∃ first state, t.get? first = some state ∧ state.logic = verdict ∧
    Relation.ReflTransGen (HandsDown nodes edges) first id

theorem Inherits.of_perm {nodes : List (Node α)} {edges edges' : List (Edge α)}
    (hperm : edges.Perm edges') {t : Table α} {verdict : LogicState} {id : String}
    (h : Inherits nodes edges t verdict id) : Inherits nodes edges' t verdict id := by
  obtain ⟨first, state, hstate, hverdict, hchain⟩ := h
  refine ⟨first, state, hstate, hverdict, ?_⟩
  exact Relation.ReflTransGen.mono (fun _ _ hedge => hedge.of_perm hperm) _ _ hchain

/-- The states that seeds end in when dependents have inherited all there is to inherit: a conflict
if one leads to the node, else a failure if one does, and else the seed. -/
def Table.Inheritance (nodes : List (Node α)) (edges : List (Edge α)) (seeds t : Table α) : Prop :=
  ∀ id seed, seeds.get? id = some seed → ∃ state, t.get? id = some state ∧
    (Inherits nodes edges seeds .conflict id → state.logic = .conflict) ∧
    (¬Inherits nodes edges seeds .conflict id → Inherits nodes edges seeds .fails id →
      state.logic = .fails) ∧
    (¬Inherits nodes edges seeds .conflict id → ¬Inherits nodes edges seeds .fails id →
      state = seed)

theorem Table.Inheritance.logic_of_perm {nodes : List (Node α)} {edges edges' : List (Edge α)}
    (hperm : edges.Perm edges') {seeds t t' : Table α} (h : Inheritance nodes edges seeds t)
    (h' : Inheritance nodes edges' seeds t') {id : String} {seed : NodeState α}
    (hseed : seeds.get? id = some seed) :
    ∃ state state', t.get? id = some state ∧ t'.get? id = some state' ∧
      state'.logic = state.logic := by
  obtain ⟨state, hstate, hconflict, hfails, hkept⟩ := h id seed hseed
  obtain ⟨state', hstate', hconflict', hfails', hkept'⟩ := h' id seed hseed
  have hsame : ∀ verdict, Inherits nodes edges' seeds verdict id ↔
      Inherits nodes edges seeds verdict id :=
    fun _ => ⟨.of_perm hperm.symm, .of_perm hperm⟩
  simp only [hsame] at hconflict' hfails' hkept'
  refine ⟨state, state', hstate, hstate', ?_⟩
  by_cases hup : Inherits nodes edges seeds .conflict id
  · rw [hconflict hup, hconflict' hup]
  · by_cases hdown : Inherits nodes edges seeds .fails id
    · rw [hfails hup hdown, hfails' hup hdown]
    · rw [hkept hup hdown, hkept' hup hdown]

namespace Table
variable {t : Table α}

def above (t : Table α) (level : Nat) : Finset String :=
  t.keys.toFinset.filter fun id => level ≤ t.height id

theorem mem_above {level : Nat} (hlevel : 0 < level) {id : String} :
    id ∈ t.above level ↔ level ≤ t.height id := by
  rw [above, Finset.mem_filter, List.mem_toFinset, and_iff_right_iff_imp]
  intro hle
  cases hid : t.get? id with
  | none => simp [height, hid] at hle; omega
  | some state => exact OrderedMap.mem_keys_iff.2 ⟨state, hid⟩

end Table

theorem Table.exists_of_height {t : Table α} {level : Nat} (hlevel : 0 < level) {id : String}
    (h : level ≤ t.height id) : ∃ state, t.get? id = some state ∧ level ≤ state.logic.rank := by
  obtain ⟨state, hstate⟩ := OrderedMap.mem_keys_iff.1
    (List.mem_toFinset.1 (Finset.mem_filter.1 ((mem_above hlevel).2 h)).1)
  exact ⟨state, hstate, height_of_get? hstate ▸ h⟩

theorem Inherits.rank_le {nodes : List (Node α)} {edges : List (Edge α)} {seeds t : Table α}
    {verdict : LogicState} {id : String} (h : Inherits nodes edges seeds verdict id)
    (hrises : ∀ id, seeds.height id ≤ t.height id)
    (hclosed : ∀ a b, HandsDown nodes edges a b → 2 ≤ t.height a → t.height a ≤ t.height b)
    (hverdict : 2 ≤ verdict.rank) : verdict.rank ≤ t.height id := by
  obtain ⟨first, seed, hseed, rfl, hchain⟩ := h
  induction hchain with
  | refl => exact Table.height_of_get? hseed ▸ hrises first
  | tail _ hedge ih => exact ih.trans (hclosed _ _ hedge (hverdict.trans ih))

variable [Quantity α]

namespace Rule
variable {e : Evidence α} {p : Proposal α}

theorem dependency_inherits (h : dependency e = some p) :
    p.logic = e.source.logic ∧ 2 ≤ e.source.logic.rank ∧
      e.target.logic.rank < e.source.logic.rank := by
  cases hs : e.source.logic <;> cases ht : e.target.logic <;>
    simp [dependency, Evidence.propose, Evidence.contest, hs, ht] at h
  all_goals simp [← h, LogicState.rank]

theorem dependency_moves (hsource : 2 ≤ e.source.logic.rank)
    (htarget : e.target.logic.rank < e.source.logic.rank) :
    ∃ p, dependency e = some p ∧ p.logic = e.source.logic := by
  cases hs : e.source.logic <;> cases ht : e.target.logic <;>
    simp [LogicState.rank, hs, ht] at hsource htarget
  all_goals simp [dependency, Evidence.propose, Evidence.contest, hs, ht]

end Rule

namespace Setting.HearsAll
variable {s : Setting α} {nodes : List (Node α)} {edges : List (Edge α)} {l : Ledger α}
  {hops : List (Hop α × Rule α)}

theorem depends (hs : s.HearsAll [.depends] nodes edges) {h : Hop α × Rule α} (hh : h ∈ s.hops) :
    h.1.edge ∈ edges ∧ h.1.edge.relation = Relation.depends.name ∧ h.2 = .builtin .depends ∧
      h.1.reversed = false := by
  obtain ⟨hedge, r, hr, hrel, hrule, hmutual⟩ := hs.rule hh
  obtain rfl := List.mem_singleton.1 hr
  exact ⟨hedge, hrel, hrule, Bool.eq_false_iff.2 fun hback => by cases hmutual hback⟩

theorem inherits_of_change (hs : s.HearsAll [.depends] nodes edges) {h : Hop α × Rule α}
    (hh : h ∈ s.hops) {t : Table α} {c : Change α} (hc : s.change? t h = some c) :
    HandsDown nodes edges h.1.source c.event.target ∧
      c.entry.logic.rank = t.height h.1.source ∧ 2 ≤ c.entry.logic.rank ∧
      t.height c.event.target < c.entry.logic.rank := by
  obtain ⟨hedge, hrel, hrule, hforward⟩ := hs.depends hh
  obtain ⟨hsourceMem, htargetMem⟩ := ends_of_change hs.graph hc
  obtain ⟨e, p, he, hp, -, -, rfl⟩ := Hop.change?_eq_some hc
  obtain ⟨hsource, htarget, -⟩ := Hop.evidence?_shows he
  rw [hrule] at hp
  obtain ⟨hlogic, hhigh, hup⟩ := Rule.dependency_inherits (floored_eq_some hp).2
  rw [Proposal.change_target, Table.height_of_get? hsource, Table.height_of_get? htarget]
  have hentry : (p.change h.1 e.target).entry.logic = e.source.logic := hlogic
  rw [hentry]
  refine ⟨⟨hsourceMem, htargetMem, h.1.edge, hedge, hrel, ?_, ?_⟩, rfl, hhigh, hup⟩
  · simp [Hop.source, hforward]
  · simp [Hop.target, hforward]

theorem quiet_of_closed (hs : s.HearsAll [.depends] nodes edges) {t : Table α}
    (hclosed : ∀ level, 2 ≤ level → ClosedUnder (HandsDown nodes edges) (t.above level))
    {h : Hop α × Rule α} (hh : h ∈ s.hops) : s.change? t h = none := by
  rw [Option.eq_none_iff_forall_not_mem]
  intro c hc
  obtain ⟨hedge, hrank, hhigh, hup⟩ := hs.inherits_of_change hh hc
  have hpos : 0 < c.entry.logic.rank := by omega
  have hinherited := hclosed _ hhigh _ _ hedge ((Table.mem_above hpos).2 hrank.le)
  rw [Table.mem_above hpos] at hinherited
  omega

theorem after_inherited (hs : s.HearsAll [.depends] nodes edges) (hhops : ∀ h ∈ hops, h ∈ s.hops)
    {level : Nat} {id : String} (hid : level ≤ (s.after l hops).states.height id) :
    ∃ first, level ≤ l.states.height first ∧
      Relation.ReflTransGen (HandsDown nodes edges) first id := by
  refine s.after_induction (P := fun now => ∀ id, level ≤ now.states.height id →
    ∃ first, level ≤ l.states.height first ∧ Relation.ReflTransGen (HandsDown nodes edges) first id)
    (fun now h hh c hnow hc id hid => ?_) (fun id hid => ⟨id, hid, .refl⟩) id hid
  obtain ⟨hedge, hrank, -, -⟩ := hs.inherits_of_change (hhops h hh) hc
  rw [Ledger.height_write] at hid
  split at hid
  · rename_i htarget
    subst htarget
    obtain ⟨first, hfirst, hchain⟩ := hnow h.1.source (hrank ▸ hid)
    exact ⟨first, hfirst, hchain.tail hedge⟩
  · exact hnow id hid

theorem after_kept (hs : s.HearsAll [.depends] nodes edges) (hhops : ∀ h ∈ hops, h ∈ s.hops)
    {id : String} {state : NodeState α} (hstate : (s.after l hops).states.get? id = some state)
    (hlow : state.logic.rank < 2) : l.states.get? id = some state := by
  refine s.after_induction (P := fun now => ∀ state, now.states.get? id = some state →
    state.logic.rank < 2 → l.states.get? id = some state)
    (fun now h hh c hnow hc state hstate hlow => ?_) (fun _ hstate _ => hstate) state hstate hlow
  obtain ⟨-, -, hhigh, -⟩ := hs.inherits_of_change (hhops h hh) hc
  rw [Ledger.write_get?] at hstate
  split at hstate
  · obtain rfl := Option.some.inj hstate
    omega
  · exact hnow state hstate hlow

theorem height_le_after (hs : s.HearsAll [.depends] nodes edges) (hhops : ∀ h ∈ hops, h ∈ s.hops)
    (l : Ledger α) (id : String) : l.states.height id ≤ (s.after l hops).states.height id := by
  obtain ⟨log, climbs⟩ := s.after_climbs
    (fun h hh => ⟨.depends, (hs.depends (hhops h hh)).2.2.1, by decide⟩) l
  have := climbs.paid id
  omega

variable [Quantity.IsStrict α]

theorem step_inherits (hs : s.HearsAll [.depends] nodes edges)
    (hdetect : s.config.detectsConflicts = true)
    (hseated : ∀ id, id ∈ l.states.keys ↔ id ∈ nodes.map Node.id) (hrange : l.states.InRange)
    {h : Hop α × Rule α} (hh : h ∈ s.hops) (hsource : h.1.source ∈ nodes.map Node.id)
    (htarget : h.1.target ∈ nodes.map Node.id) (hhigh : 2 ≤ l.states.height h.1.source) :
    l.states.height h.1.source ≤ (s.step l h).states.height h.1.target := by
  by_cases hlow : l.states.height h.1.target < l.states.height h.1.source
  · obtain ⟨e, he, -, -, ha, hb, -⟩ :=
      h.1.exists_evidence s.config edges hseated hsource htarget
    rw [← hs.graph] at he
    rw [Table.height_of_get? ha] at hhigh hlow ⊢
    rw [Table.height_of_get? hb] at hlow
    obtain ⟨p, hp, hlogic⟩ := Rule.dependency_moves hhigh hlow
    have hmoves : e.target.logic ≠ p.logic := by
      intro heq
      rw [hlogic] at heq
      rw [heq] at hlow
      exact Nat.lt_irrefl _ hlow
    have hc : s.change? l.states (h.1, .builtin .depends) = some (p.change h.1 e.target) :=
      change?_of_moves he (hs.isHeard hrange ha) hp (by simp [Proposal.isUnwanted, hdetect]) hmoves
    obtain ⟨hop, rule⟩ := h
    obtain rfl : rule = .builtin .depends := (hs.depends hh).2.2.1
    rw [step_of_some hc, Ledger.height_write, if_pos (p.change_target hop e.target)]
    exact (congrArg LogicState.rank hlogic).ge
  · have hread : ∀ read ∈ [h], read ∈ s.hops := by simpa using hh
    have hrises := hs.height_le_after hread l h.1.target
    rw [after_cons, after_nil] at hrises
    omega

theorem pass_inherits (hs : s.HearsAll [.depends] nodes edges)
    (hdetect : s.config.detectsConflicts = true)
    (hseated : ∀ id, id ∈ l.states.keys ↔ id ∈ nodes.map Node.id) (hrange : l.states.InRange)
    {a b : String} (hedge : HandsDown nodes edges a b) (hhigh : 2 ≤ l.states.height a) :
    l.states.height a ≤ (s.after l s.hops).states.height b := by
  obtain ⟨ha, hb, edge, hmem, hrel, rfl, rfl⟩ := hedge
  have hread : (⟨edge, false⟩, .builtin .depends) ∈ s.hops := by
    refine mem_hops.2 ⟨?_, ?_, fun hback => by cases hback⟩
    · rw [hs.graph]
      exact hmem
    · rw [hs.registry, hrel]
      exact Registry.get?_builtin_name .depends
  obtain ⟨before, later, hsplit⟩ := List.append_of_mem hread
  have hbefore : ∀ h ∈ before, h ∈ s.hops := fun h hh => by simp [hsplit, hh]
  have hlater : ∀ h ∈ later, h ∈ s.hops := fun h hh => by simp [hsplit, hh]
  have hearlier := hs.height_le_after hbefore l edge.source
  have hstep := hs.step_inherits (l := s.after l before) hdetect
    (fun id => by rw [s.after_keys, hseated]) (s.after_inRange hrange before) hread ha hb
    (hhigh.trans hearlier)
  have hrest := hs.height_le_after hlater
    (s.step (s.after l before) (⟨edge, false⟩, .builtin .depends)) edge.target
  rw [hsplit, after_append, after_cons]
  exact hearlier.trans (hstep.trans hrest)

theorem passes_inherit (hs : s.HearsAll [.depends] nodes edges)
    (hdetect : s.config.detectsConflicts = true)
    (hseated : ∀ id, id ∈ l.states.keys ↔ id ∈ nodes.map Node.id) (hrange : l.states.InRange)
    {level : Nat} (hlevel : 2 ≤ level) :
    ClosedUnder (HandsDown nodes edges)
      ((afterPasses s.fullPass (max 1 (Snapshot.nodeMap nodes).size - 1) l).states.above level) := by
  let ids := (Snapshot.nodeMap nodes).keys.toFinset
  have hcard : ids.card = (Snapshot.nodeMap nodes).size := by
    rw [List.toFinset_card_of_nodup (Snapshot.nodeMap nodes).nodup_keys]
    exact List.length_map _
  have hmem : ∀ t : Table α, ∀ id, id ∈ t.above level ↔ level ≤ t.height id :=
    fun t id => Table.mem_above (by omega)
  have hpassed : ∀ n, afterPasses s.fullPass (n + 1) l =
      s.after (afterPasses s.fullPass n l) s.hops := by
    intro n
    rw [afterPasses_succ, fullPass_ledger]
  have hseats : ∀ n id, id ∈ (afterPasses s.fullPass n l).states.keys ↔ id ∈ nodes.map Node.id := by
    intro n id
    rw [afterPasses_fullPass, s.after_keys, hseated]
  have hranges : ∀ n, (afterPasses s.fullPass n l).states.InRange := by
    intro n
    rw [afterPasses_fullPass]
    exact s.after_inRange hrange _
  rw [← hcard]
  refine closedUnder_in_time (F := fun n => (afterPasses s.fullPass n l).states.above level)
    ?_ ?_ ?_ ?_ ?_
  · intro a b hedge
    exact List.mem_toFinset.2 (Snapshot.mem_keys_nodeMap.2 hedge.2.1)
  · intro n id hid
    have hkey := List.mem_toFinset.1 (Finset.mem_filter.1 hid).1
    exact List.mem_toFinset.2 (Snapshot.mem_keys_nodeMap.2 ((hseats n id).1 hkey))
  · intro n id hid
    rw [hmem] at hid
    rw [hmem, hpassed]
    exact hid.trans (hs.height_le_after (fun _ hh => hh) _ id)
  · intro n a b hedge ha
    rw [hmem] at ha
    rw [hmem, hpassed]
    exact ha.trans (hs.pass_inherits hdetect (hseats n) (hranges n) hedge (hlevel.trans ha))
  · intro n hclosed
    ext id
    rw [hmem, hmem, hpassed]
    constructor
    · intro hid
      obtain ⟨first, hfirst, hchain⟩ := hs.after_inherited (fun _ hh => hh) hid
      rw [← hmem]
      exact hclosed.chain hchain ((hmem _ _).2 hfirst)
    · intro hid
      exact hid.trans (hs.height_le_after (fun _ hh => hh) _ id)

theorem inheritance_of_quiet (hs : s.HearsAll [.depends] nodes edges)
    (hdetect : s.config.detectsConflicts = true)
    (hseated : ∀ id, id ∈ l.states.keys ↔ id ∈ nodes.map Node.id) (hrange : l.states.InRange)
    (hhops : ∀ h ∈ hops, h ∈ s.hops) (hquiet : s.after (s.after l hops) s.hops = s.after l hops) :
    Table.Inheritance nodes edges l.states (s.after l hops).states := by
  intro id seed hseed
  have hkeys : (s.after l hops).states.keys = l.states.keys := s.after_keys l hops
  have hkey : id ∈ (s.after l hops).states.keys := hkeys ▸ OrderedMap.mem_keys_iff.2 ⟨seed, hseed⟩
  obtain ⟨state, hstate⟩ := OrderedMap.mem_keys_iff.1 hkey
  have hclosed : ∀ a b, HandsDown nodes edges a b → 2 ≤ (s.after l hops).states.height a →
      (s.after l hops).states.height a ≤ (s.after l hops).states.height b := by
    intro a b hedge ha
    have hpass := hs.pass_inherits (l := s.after l hops) hdetect
      (fun id => by rw [hkeys, hseated]) (s.after_inRange hrange hops) hedge ha
    rwa [hquiet] at hpass
  have hreached : ∀ verdict, 2 ≤ verdict.rank → Inherits nodes edges l.states verdict id →
      verdict.rank ≤ state.logic.rank := by
    intro verdict hverdict hinherits
    rw [← Table.height_of_get? hstate]
    exact hinherits.rank_le (hs.height_le_after hhops l) hclosed hverdict
  have hcame : ∀ level, 2 ≤ level → level ≤ state.logic.rank →
      ∃ verdict, level ≤ verdict.rank ∧ Inherits nodes edges l.states verdict id := by
    intro level hlevel hle
    rw [← Table.height_of_get? hstate] at hle
    obtain ⟨first, hfirst, hchain⟩ := hs.after_inherited hhops hle
    obtain ⟨origin, horigin, hrank⟩ := Table.exists_of_height (by omega) hfirst
    exact ⟨origin.logic, hrank, first, origin, horigin, rfl, hchain⟩
  have htop : ∀ verdict : LogicState, 3 ≤ verdict.rank → verdict = .conflict := by
    intro verdict htop
    cases verdict <;> simp [LogicState.rank] at htop ⊢
  refine ⟨state, hstate, fun hconflict => ?_, fun hnot hfails => ?_, fun hnot hnone => ?_⟩
  · exact htop _ (hreached .conflict (by decide) hconflict)
  · have hlow : ¬3 ≤ state.logic.rank := by
      intro hhigh
      obtain ⟨verdict, hverdict, hinherits⟩ := hcame 3 (by decide) hhigh
      exact hnot (htop verdict hverdict ▸ hinherits)
    have hhigh : 2 ≤ state.logic.rank := hreached .fails (by decide) hfails
    exact LogicState.rank_injective (Nat.le_antisymm (Nat.lt_succ_iff.1 (not_le.1 hlow)) hhigh)
  · have hlow : state.logic.rank < 2 := by
      rw [← not_le]
      intro hhigh
      obtain ⟨verdict, hverdict, hinherits⟩ := hcame 2 le_rfl hhigh
      cases verdict with
      | unknown => simp [LogicState.rank] at hverdict
      | holds => simp [LogicState.rank] at hverdict
      | fails => exact hnone hinherits
      | conflict => exact hnot hinherits
    exact Option.some.inj ((hs.after_kept hhops hstate hlow).symm.trans hseed)

end Setting.HearsAll

namespace Engine
variable [Quantity.IsStrict α]

theorem run_inheritance {e : Engine α} (hregistry : e.registry = .builtin)
    (hdetect : e.config.detectsConflicts = true) (hfloor : e.config.floor = 0.0)
    {nodes : List (Node α)} {edges : List (Edge α)}
    (hdepends : ∀ edge ∈ edges, edge.relation = Relation.depends.name)
    {overrides : Overrides α} (hrange : Node.InRange nodes overrides) {seeds : Table α}
    (haccepted : (e.prepare nodes overrides).2 = .ok seeds)
    (hpasses : max 1 (Snapshot.nodeMap nodes).size ≤ e.config.passes) :
    ∃ r, (e.run nodes edges overrides).2 = .ok r ∧ r.converged = true ∧
      r.iterations ≤ max 1 (Snapshot.nodeMap nodes).size ∧
      Table.Inheritance nodes edges seeds r.states := by
  let s := e.setting (.ofLists nodes edges)
  let l := e.start nodes edges overrides
  let settled := settle s.fullPass e.config.passes l
  have hs : s.HearsAll [.depends] nodes edges :=
    ⟨rfl, hregistry, hfloor, fun edge hedge => ⟨.depends, by simp, hdepends edge hedge⟩⟩
  have hrun : e.run nodes edges overrides =
      ({ e with ledger := settled.ledger }, .ok settled.result) := run_of_accepted haccepted edges
  have hseeds : l.states = seeds := start_seeds haccepted edges
  have hseated : ∀ id, id ∈ l.states.keys ↔ id ∈ nodes.map Node.id := by
    intro id
    rw [start_states]
    exact mem_keys_prepare haccepted
  have hinRange : l.states.InRange := by
    rw [start_states]
    exact e.prepare_inRange hrange
  have hquiet : (s.fullPass
      (afterPasses s.fullPass (max 1 (Snapshot.nodeMap nodes).size - 1) l)).2 = false := by
    rw [Setting.fullPass_of_quiet fun h hh => hs.quiet_of_closed
      (fun level hlevel => hs.passes_inherit hdetect hseated hinRange hlevel) hh]
  obtain ⟨hconverged, hfew⟩ : settled.converged = true ∧ settled.iterations ≤ _ :=
    settle_by (by omega) hquiet
  have hleft : settled.ledger = s.after l (e.runTrail nodes edges overrides) :=
    s.settle_fullPass_ledger e.config.passes l
  have hstill : s.after settled.ledger s.hops = settled.ledger := by
    rw [← s.fullPass_ledger]
    exact congrArg Prod.fst (settle_quiet (fun h => (Setting.fullPass_quiet h).1) hconverged)
  refine ⟨settled.result, congrArg Prod.snd hrun, hconverged, ?_, ?_⟩
  · exact hfew.trans (by omega)
  · change Table.Inheritance nodes edges seeds settled.ledger.states
    rw [hleft] at hstill ⊢
    rw [← hseeds]
    exact hs.inheritance_of_quiet hdetect hseated hinRange
      (fun h hh => mem_hops_of_mem_runTrail hh) hstill

/-- Dependency, with a pass allowed for each node. The run settles within that many passes, whatever
the seeds and whatever loops there are. A node ends in conflict if a chain of dependencies leads to
it from one seeded so, else it fails if a chain leads to it from one seeded to fail, and else its
seed is what it ends with. So however the edges are listed, the verdicts in the end are the same. -/
theorem run_inherits {e : Engine α} (hregistry : e.registry = .builtin)
    (hdetect : e.config.detectsConflicts = true) (hfloor : e.config.floor = 0.0)
    {nodes : List (Node α)} {edges : List (Edge α)}
    (hdepends : ∀ edge ∈ edges, edge.relation = Relation.depends.name)
    {overrides : Overrides α} (hrange : Node.InRange nodes overrides) {seeds : Table α}
    (haccepted : (e.prepare nodes overrides).2 = .ok seeds)
    (hpasses : max 1 (Snapshot.nodeMap nodes).size ≤ e.config.passes) :
    ∃ r, (e.run nodes edges overrides).2 = .ok r ∧ r.converged = true ∧
      r.iterations ≤ max 1 (Snapshot.nodeMap nodes).size ∧
      Table.Inheritance nodes edges seeds r.states ∧
      ∀ edges', edges.Perm edges' → ∃ r', (e.run nodes edges' overrides).2 = .ok r' ∧
        ∀ id, (r'.states.get? id).map NodeState.logic = (r.states.get? id).map NodeState.logic := by
  obtain ⟨r, hrun, hconverged, hfew, hinherits⟩ :=
    run_inheritance hregistry hdetect hfloor hdepends hrange haccepted hpasses
  refine ⟨r, hrun, hconverged, hfew, hinherits, fun edges' hperm => ?_⟩
  obtain ⟨r', hrun', -, -, hinherits'⟩ := run_inheritance hregistry hdetect hfloor
    (fun edge hedge => hdepends edge (hperm.mem_iff.2 hedge)) hrange haccepted hpasses
  refine ⟨r', hrun', fun id => ?_⟩
  cases hseed : seeds.get? id with
  | some seed =>
    obtain ⟨state, state', hstate, hstate', hsame⟩ := hinherits.logic_of_perm hperm hinherits' hseed
    rw [hstate, hstate', Option.map_some, Option.map_some, hsame]
  | none =>
    have hout : id ∉ nodes.map Node.id := by
      rw [← mem_keys_prepare haccepted, prepare_given haccepted]
      exact (OrderedMap.get?_eq_none_iff _ _).1 hseed
    have hnone := (OrderedMap.get?_eq_none_iff r.states id).2 fun hmem =>
      hout ((mem_keys_run hrun).1 hmem)
    have hnone' := (OrderedMap.get?_eq_none_iff r'.states id).2 fun hmem =>
      hout ((mem_keys_run hrun').1 hmem)
    rw [hnone, hnone']

theorem run_inherits_loop :
    let e : Engine Float := .new { Config.standard with passes := 4, checksKinds := false } .builtin
    let nodes : List (Node Float) := [⟨"a", .fact, "", 50.0⟩, ⟨"b", .fact, "", 50.0⟩,
      ⟨"c", .fact, "", 50.0⟩, ⟨"d", .fact, "", 90.0⟩]
    let edges : List (Edge Float) := [⟨"cd", "c", "d", "depends", 1.0⟩,
      ⟨"bc", "b", "c", "depends", 1.0⟩, ⟨"ab", "a", "b", "depends", 1.0⟩,
      ⟨"da", "d", "a", "depends", 1.0⟩]
    let overrides : Overrides Float := .ofList
      [("a", .ok ⟨some .conflict, none, none⟩), ("c", .ok ⟨some .fails, none, none⟩)]
    let seeds := (e.prepare nodes overrides).1.ledger.states
    (∀ edge ∈ edges, edge.relation = Relation.depends.name) ∧
      max 1 (Snapshot.nodeMap nodes).size = 4 ∧
      ∃ r, (e.run nodes edges overrides).2 = .ok r ∧ r.converged = true ∧ r.iterations = 4 ∧
        Inherits nodes edges seeds .conflict "d" ∧
        (∃ state, r.states.get? "d" = some state ∧ state.logic = .conflict) ∧
        ∃ r', (e.run nodes edges.reverse overrides).2 = .ok r' ∧
          (r'.states.get? "d").map NodeState.logic = (r.states.get? "d").map NodeState.logic := by
  intro e nodes edges overrides seeds
  have hdepends : ∀ edge ∈ edges, edge.relation = Relation.depends.name := by decide
  have hrange : Node.InRange nodes overrides := by
    refine ⟨by decide +kernel, fun id o confidence ho hconfidence => ?_⟩
    have hgiven := OrderedMap.mem_ofList (OrderedMap.mem_of_find ho)
    simp only [List.mem_cons, Prod.mk.injEq, Except.ok.injEq, List.not_mem_nil, or_false]
      at hgiven
    rcases hgiven with ⟨-, rfl⟩ | ⟨-, rfl⟩ <;> cases hconfidence
  have haccepted : (e.prepare nodes overrides).2 = .ok seeds := rfl
  obtain ⟨r, hrun, hconverged, -, hinherits, hreordered⟩ :=
    run_inherits (e := e) rfl rfl rfl hdepends hrange haccepted (by decide)
  have hcheck : (e.run nodes edges overrides).2.toOption.all (·.iterations = 4) = true := by
    decide +kernel
  rw [hrun] at hcheck
  have hfour : r.iterations = 4 := by simpa [Except.toOption] using hcheck
  have hab : HandsDown nodes edges "a" "b" :=
    ⟨by decide, by decide, ⟨"ab", "a", "b", "depends", 1.0⟩, by simp [edges], rfl, rfl, rfl⟩
  have hbc : HandsDown nodes edges "b" "c" :=
    ⟨by decide, by decide, ⟨"bc", "b", "c", "depends", 1.0⟩, by simp [edges], rfl, rfl, rfl⟩
  have hcd : HandsDown nodes edges "c" "d" :=
    ⟨by decide, by decide, ⟨"cd", "c", "d", "depends", 1.0⟩, by simp [edges], rfl, rfl, rfl⟩
  have hd : Inherits nodes edges seeds .conflict "d" :=
    ⟨"a", _, rfl, by decide +kernel, ((Relation.ReflTransGen.single hab).tail hbc).tail hcd⟩
  obtain ⟨state, hstate, hconflict, -⟩ := hinherits "d" _ rfl
  obtain ⟨r', hrun', hsame⟩ := hreordered edges.reverse edges.reverse_perm.symm
  exact ⟨hdepends, by decide, r, hrun, hconverged, hfour, hd, ⟨state, hstate, hconflict hd⟩, r',
    hrun', hsame "d"⟩

end Engine
end ReasonGraph
