import ReasonGraph.Proofs.Grounding
import ReasonGraph.Proofs.Precedence
import ReasonGraph.Proofs.Provenance
import ReasonGraph.Proofs.Standing

/-! Reading edges in other orders. A run reads them in the order of the list, over and over, and other
orders lead to other tables. They keep to the list only at first: between nodes that nothing drove yet,
an edge into a node is read before the edges that are listed later and lead on from there. The tables
that arise are closed under such readings, so of a small graph they can be listed. Where they agree on
what they come to rest at, no reading awakes an edge that was quiet, and no node that inference moves
against the edges or into a conflict is moved twice, the order of reading is without effect. -/

namespace ReasonGraph
variable {α : Type}

namespace Table

def isAsserted (t : Table α) (id : String) : Bool := (t.get? id).all NodeState.isAsserted

def write (t : Table α) (c : Change α) : Table α := t.insert c.event.target c.entry

theorem isAsserted_eq_false {t : Table α} {id : String} :
    t.isAsserted id = false ↔ ∃ a, t.get? id = some a ∧ a.derivedFrom ≠ [] := by
  rw [isAsserted]
  cases t.get? id with
  | none => simp
  | some a => simp [NodeState.isAsserted]

theorem isAsserted_congr {t t' : Table α} {id : String} (h : t'.get? id = t.get? id) :
    t'.isAsserted id = t.isAsserted id := by rw [isAsserted, isAsserted, h]

end Table

variable [Quantity α]

namespace Rule

theorem achievement_driven {e : Evidence α} {p : Proposal α} (h : achievement e = some p)
    (hfails : e.source.logic = .fails) : e.target.derivedFrom ≠ [] := fun hnone => by
  simp [achievement, hfails, hnone] at h

theorem inference_drives {r : Relation} {e : Evidence α} {p : Proposal α}
    (h : inference r e = some p) :
    p.derivedFrom ≠ [] ∨ p.logic = .unknown ∧ e.target.derivedFrom ≠ [] := by
  have hdrivers := inference_drivers h
  by_cases hwithdrawn : r = .achieves ∧ e.source.logic = .fails
  · obtain ⟨rfl, hfails⟩ := hwithdrawn
    exact .inr ⟨(achievement_unknown_iff h).2 hfails, achievement_driven h hfails⟩
  · rw [if_neg hwithdrawn] at hdrivers
    rw [hdrivers]
    exact .inl (List.ne_nil_of_mem e.source_mem_drivers)

end Rule

namespace Setting
variable {s : Setting α} {nodes : List (Node α)} {edges : List (Edge α)} {seeds t t' : Table α}
  {h g : Hop α × Rule α} {c : Change α}

theorem get?_write (hc : s.change? t h = some c) (id : String) :
    (t.write c).get? id = if h.1.target = id then some c.entry else t.get? id := by
  rw [Table.write, OrderedMap.get?_insert, change?_target hc]

theorem get?_write_of_ne (hc : s.change? t h = some c) {id : String} (hid : h.1.target ≠ id) :
    (t.write c).get? id = t.get? id := by rw [get?_write hc, if_neg hid]

theorem get?_write_self (hc : s.change? t h = some c) :
    (t.write c).get? h.1.target = some c.entry := by rw [get?_write hc, if_pos rfl]

theorem joins_of_change (hg : s.graph = .ofLists nodes edges) (hh : h ∈ s.hops) (hc : s.change? t h = some c) :
    h.1.edge ∈ edges ∧ (Links.whole nodes edges).Joins h.1.edge.source h.1.edge.target := by
  obtain ⟨hsource, htarget⟩ := ends_of_change hg hc
  have hedge := (mem_hops.1 hh).1
  rw [hg] at hedge
  refine ⟨hedge, ?_⟩
  obtain ⟨⟨edge, reversed⟩, rule⟩ := h
  cases reversed with
  | false => exact Links.joins_whole hedge hsource htarget
  | true => exact Links.joins_whole hedge htarget hsource

theorem joins_of_forward (hg : s.graph = .ofLists nodes edges) (hh : h ∈ s.hops)
    (hforward : h.1.reversed = false) (hc : s.change? t h = some c) :
    (Links.whole nodes edges).Joins h.1.source h.1.target := by
  have hjoins := (joins_of_change hg hh hc).2
  obtain ⟨⟨edge, reversed⟩, rule⟩ := h
  obtain rfl : reversed = false := hforward
  exact hjoins

theorem change?_drives (hregistry : s.registry = .builtin) (hh : h ∈ s.hops)
    (hc : s.change? t h = some c) :
    c.entry.derivedFrom ≠ [] ∨ c.entry.logic = .unknown ∧ t.isAsserted h.1.target = false := by
  obtain ⟨r, hrule, -⟩ := rule_of_mem_hops hregistry hh
  obtain ⟨e, p, he, hp, -, -, rfl⟩ := Hop.change?_eq_some hc
  obtain ⟨-, htarget, -⟩ := Hop.evidence?_shows he
  rw [hrule] at hp
  exact (Rule.inference_drives (floored_eq_some hp).2).imp_right (And.imp_right fun hdrove =>
    Table.isAsserted_eq_false.2 ⟨_, htarget, hdrove⟩)

theorem unknown_of_write (hregistry : s.registry = .builtin) (hh : h ∈ s.hops)
    (hc : s.change? t h = some c) (hundriven : (t.write c).isAsserted h.1.target = true) :
    c.entry.logic = .unknown := by
  refine ((change?_drives hregistry hh hc).resolve_left fun hdriven => ?_).1
  rw [Table.isAsserted_eq_false.2 ⟨_, get?_write_self hc, hdriven⟩] at hundriven
  cases hundriven

/-- Into a node that nothing drove an edge looks no further than its ends. -/
theorem change?_of_ends (hg : s.graph = .ofLists nodes edges) (hregistry : s.registry = .builtin)
    (hh : h ∈ s.hops) (hsource : t'.get? h.1.source = t.get? h.1.source)
    (htarget : t'.get? h.1.target = t.get? h.1.target)
    (hundriven : t.isAsserted h.1.target = true) (hc : s.change? t' h = some c) :
    s.change? t h = some c := by
  obtain ⟨hop, rule⟩ := h
  obtain ⟨r, rfl, -⟩ := rule_of_mem_hops hregistry hh
  rw [← hc]
  refine (change?_congr hg hg rfl rfl rfl hsource htarget ?_).symm
  -- an achievement looks further only to withdraw what it drove
  rintro rfl source hheld hfails
  obtain ⟨e, p, he, hp, -⟩ := Hop.change?_eq_some hc
  obtain ⟨hshown, hended, -⟩ := Hop.evidence?_shows he
  obtain rfl : source = e.source := Option.some.inj (hheld.symm.trans (hsource.symm.trans hshown))
  have hdriven := Rule.achievement_driven (floored_eq_some hp).2 hfails
  rw [Table.isAsserted_eq_false.2 ⟨_, htarget.symm.trans hended, hdriven⟩] at hundriven
  cases hundriven

/-- A reading waits for the edges into its source that come before it: where nothing drove their
ends, they have nothing to say. -/
def isDue (s : Setting α) (t : Table α) (before : List (Hop α × Rule α)) (h : Hop α × Rule α) :
    Bool :=
  before.all fun g => g.1.reversed || g.1.target != h.1.source || !t.isAsserted g.1.source ||
    !t.isAsserted g.1.target || (s.change? t g).isNone

theorem isDue_iff {before : List (Hop α × Rule α)} :
    s.isDue t before h = true ↔ ∀ g ∈ before, g.1.reversed = false → g.1.target = h.1.source →
      t.isAsserted g.1.source = true → t.isAsserted g.1.target = true → s.change? t g = none := by
  simp [isDue, or_iff_not_imp_left]

/-- Due at one of the places where the reading is listed. -/
def InTurn (s : Setting α) (t : Table α) (h : Hop α × Rule α) : Prop :=
  ∃ i, s.hops[i]? = some h ∧ s.isDue t (s.hops.take i) h = true

theorem InTurn.mem (hturn : s.InTurn t h) : h ∈ s.hops := by
  obtain ⟨i, hi, -⟩ := hturn
  exact List.mem_of_getElem? hi

theorem inTurn_of_mem (hh : h ∈ s.hops) (hearlier : ∀ g ∈ s.hops, g.1.reversed = false →
      g.1.target = h.1.source → t.isAsserted g.1.source = true → t.isAsserted h.1.source = true →
      s.change? t g = none) : s.InTurn t h := by
  obtain ⟨i, hi⟩ := List.mem_iff_getElem?.1 hh
  refine ⟨i, hi, isDue_iff.2 fun g hg hforward hends hsource htarget => ?_⟩
  exact hearlier g (List.mem_of_mem_take hg) hforward hends hsource (hends ▸ htarget)

theorem inTurn_of_source (hh : h ∈ s.hops) (hdriven : t.isAsserted h.1.source = false) :
    s.InTurn t h :=
  inTurn_of_mem hh fun _ _ _ _ _ hundriven => by
    rw [hdriven] at hundriven
    cases hundriven

/-- The tables that arise from the seeds when edges are read in turn, in whatever order. -/
inductive Arises (s : Setting α) (seeds : Table α) : Table α → Prop
  | seeded : Arises s seeds seeds
  | read {t : Table α} {h : Hop α × Rule α} {c : Change α} (ht : Arises s seeds t)
    (hturn : s.InTurn t h) (hc : s.change? t h = some c) : Arises s seeds (t.write c)

structure Happens (s : Setting α) (seeds t : Table α) (h : Hop α × Rule α) (c : Change α) :
    Prop where
  arises : s.Arises seeds t
  turn : s.InTurn t h
  change : s.change? t h = some c

theorem Happens.mem (hc : s.Happens seeds t h c) : h ∈ s.hops := hc.turn.mem

theorem Happens.next (hc : s.Happens seeds t h c) : s.Arises seeds (t.write c) :=
  .read hc.arises hc.turn hc.change

/-- The nodes that may be moved otherwise than along the edges: backwards, into a conflict, or by such
a node. -/
inductive Strays (s : Setting α) (seeds : Table α) : String → Prop
  | back {t : Table α} {h : Hop α × Rule α} {c : Change α} (hc : s.Happens seeds t h c)
    (hbackward : h.1.reversed = true) : Strays s seeds h.1.target
  | clash {t : Table α} {h : Hop α × Rule α} {c : Change α} (hc : s.Happens seeds t h c)
    (hconflict : c.entry.logic = .conflict) : Strays s seeds h.1.target
  | on {t : Table α} {h : Hop α × Rule α} {c : Change α} (hc : s.Happens seeds t h c)
    (hsource : Strays s seeds h.1.source) : Strays s seeds h.1.target

/-- No edge has anything to say. -/
def IsAtRest (s : Setting α) (t : Table α) : Prop := ∀ h ∈ s.hops, s.change? t h = none

instance (s : Setting α) (t : Table α) : Decidable (s.IsAtRest t) :=
  inferInstanceAs (Decidable (∀ h ∈ s.hops, s.change? t h = none))

/-- The order in which edges are read is without effect. Whatever comes to rest reads the same; an
edge that was quiet stays so until its source moves; and a node that may stray is moved only while
nothing drove it yet. -/
structure IsOrderFree (s : Setting α) (seeds : Table α) : Prop where
  one : ∀ t t', s.Arises seeds t → s.Arises seeds t' → s.IsAtRest t → s.IsAtRest t' →
    ∀ id, t.readings id = t'.readings id
  lasting : ∀ t g c h, s.Happens seeds t g c → h ∈ s.hops → g.1.target ≠ h.1.source →
    s.change? t h = none → s.change? (t.write c) h = none
  once : ∀ t h c, s.Happens seeds t h c → s.Strays seeds h.1.target →
    t.isAsserted h.1.target = true

theorem Arises.partnered (hregistry : s.registry = .builtin)
    (hseeds : ∀ id a, seeds.get? id = some a → a.partners = none) (ht : s.Arises seeds t)
    {id : String} {a : NodeState α} (ha : t.get? id = some a) (hpartners : a.partners ≠ none) :
    s.Strays seeds id ∧ t.isAsserted id = false ∧ a.logic = .conflict := by
  induction ht with
  | seeded => exact absurd (hseeds id a ha) hpartners
  | @read t h c ht hturn hc ih =>
    rw [get?_write hc] at ha
    by_cases hid : h.1.target = id
    · rw [if_pos hid, Option.some.injEq] at ha
      subst hid ha
      have hconflict : c.entry.logic = .conflict := by
        obtain ⟨e, p, -, -, -, -, rfl⟩ := Hop.change?_eq_some hc
        by_contra hlogic
        exact hpartners (if_neg hlogic)
      have hdriven : c.entry.derivedFrom ≠ [] := by
        refine (change?_drives hregistry hturn.mem hc).resolve_right fun hunknown => ?_
        rw [hconflict] at hunknown
        cases hunknown.1
      exact ⟨.clash ⟨ht, hturn, hc⟩ hconflict,
        Table.isAsserted_eq_false.2 ⟨_, get?_write_self hc, hdriven⟩, hconflict⟩
    · rw [if_neg hid] at ha
      rw [Table.isAsserted_congr (get?_write_of_ne hc hid)]
      exact ih ha

/-- Between nodes that nothing drove, an edge that was read in this pass has nothing to say but to a
target that was made unknown. -/
def IsHeard (s : Setting α) (t : Table α) (g : Hop α × Rule α) : Prop :=
  t.isAsserted g.1.source = true → t.isAsserted g.1.target = true → s.change? t g ≠ none →
    ∃ a, t.get? g.1.target = some a ∧ a.logic = .unknown

theorem isHeard_of_write (hregistry : s.registry = .builtin) (hh : h ∈ s.hops)
    (hc : s.change? t h = some c) : s.IsHeard (t.write c) h := fun _ hundriven _ =>
  ⟨_, get?_write_self hc, unknown_of_write hregistry hh hc hundriven⟩

theorem IsHeard.write (hg : s.graph = .ofLists nodes edges) (hregistry : s.registry = .builtin)
    (hh : h ∈ s.hops) (hc : s.change? t h = some c) (hgm : g ∈ s.hops) (hheard : s.IsHeard t g) :
    s.IsHeard (t.write c) g := by
  intro hsource htarget hacts
  obtain ⟨d, hd⟩ := Option.ne_none_iff_exists'.1 hacts
  by_cases hend : h.1.target = g.1.target
  · rw [← hend] at htarget ⊢
    exact ⟨_, get?_write_self hc, unknown_of_write hregistry hh hc htarget⟩
  by_cases hbegin : h.1.target = g.1.source
  · -- its source is unknown now
    rw [← hbegin] at hsource
    have hunknown := unknown_of_write hregistry hh hc hsource
    refine absurd (change?_of_unknown hregistry (fun a ha => ?_) hgm) hacts
    rw [← hbegin, get?_write_self hc] at ha
    exact Option.some.inj ha ▸ hunknown
  · have hbegin' := get?_write_of_ne hc hbegin
    have hend' := get?_write_of_ne hc hend
    rw [Table.isAsserted_congr hbegin'] at hsource
    rw [Table.isAsserted_congr hend'] at htarget
    rw [hend']
    refine hheard hsource htarget (Option.ne_none_iff_exists'.2 ⟨d, ?_⟩)
    exact change?_of_ends hg hregistry hgm hbegin' hend' htarget hd

theorem inTurn_of_heard (hregistry : s.registry = .builtin) {before rest : List (Hop α × Rule α)}
    (hsplit : s.hops = before ++ h :: rest) (hbefore : ∀ g ∈ before, s.IsHeard t g)
    (hc : s.change? t h = some c) : s.InTurn t h := by
  refine ⟨before.length, by simp [hsplit], isDue_iff.2 fun g hg _ hends hsource htarget => ?_⟩
  rw [hsplit, List.take_left] at hg
  by_contra hacts
  -- what is still said left the source of the reading unknown
  obtain ⟨a, ha, hunknown⟩ := hbefore g hg hsource htarget hacts
  have hnone := change?_of_unknown hregistry (h := h) (fun b hb => by
    rw [← hends, ha] at hb
    exact Option.some.inj hb ▸ hunknown) (by simp [hsplit])
  rw [hc] at hnone
  cases hnone

section
variable {l : Ledger α} (hg : s.graph = .ofLists nodes edges) (hregistry : s.registry = .builtin)
include hg hregistry

theorem Arises.pass {before rest : List (Hop α × Rule α)} (hl : s.Arises seeds l.states)
    (hsplit : s.hops = before ++ rest) (hbefore : ∀ g ∈ before, s.IsHeard l.states g) :
    s.Arises seeds (s.after l rest).states := by
  induction rest generalizing l before with
  | nil => exact hl
  | cons h rest ih =>
    have hmem : ∀ g ∈ before ++ [h], g ∈ s.hops := fun g hgm => by
      rw [hsplit, List.append_cons]
      exact List.mem_append_left _ hgm
    obtain ⟨hearlier, hh⟩ := List.forall_mem_append.1 hmem
    rw [List.forall_mem_singleton] at hh
    have hnext : s.hops = (before ++ [h]) ++ rest := by rw [hsplit, List.append_cons]
    rw [after_cons]
    rcases s.step_cases l h with ⟨hquiet, hstep⟩ | ⟨c, hc, hstep⟩
    · rw [hstep]
      refine ih hl hnext (List.forall_mem_append.2 ⟨hbefore, List.forall_mem_singleton.2 ?_⟩)
      exact fun _ _ hacts => absurd hquiet hacts
    · rw [hstep]
      refine ih (hl.read (inTurn_of_heard hregistry hsplit hbefore hc) hc) hnext
        (List.forall_mem_append.2 ⟨fun g hgm => ?_, List.forall_mem_singleton.2 ?_⟩)
      · exact (hbefore g hgm).write hg hregistry hh hc (hearlier g hgm)
      · exact isHeard_of_write hregistry hh hc

theorem Arises.rounds (hl : s.Arises seeds l.states) (n : Nat) :
    s.Arises seeds (s.after l (rounds n s.hops)).states := by
  induction n generalizing l with
  | zero => exact hl
  | succ n ih =>
    rw [rounds_succ, after_append]
    exact ih (hl.pass hg hregistry (List.nil_append _).symm (by simp))

end

def moves (s : Setting α) (t : Table α) : List ((Hop α × Rule α) × Change α) :=
  s.hops.zipIdx.filterMap fun (h, i) =>
    if s.isDue t (s.hops.take i) h then (s.change? t h).map (h, ·) else none

theorem mem_moves : (h, c) ∈ s.moves t ↔ s.InTurn t h ∧ s.change? t h = some c := by
  simp only [moves, List.mem_filterMap, Option.ite_none_right_eq_some, Option.map_eq_some_iff,
    Prod.mk.injEq, List.mem_zipIdx_iff_getElem?]
  constructor
  · rintro ⟨⟨h, i⟩, hi, hdue, c, hc, rfl, rfl⟩
    exact ⟨⟨i, hi, hdue⟩, hc⟩
  · rintro ⟨⟨i, hi, hdue⟩, hc⟩
    exact ⟨(h, i), hi, hdue, c, hc, rfl, rfl⟩

/-- A list of tables that no reading leads out of, with the nodes that may stray. What the tables at
rest show is the same, and no reading of one of them awakes an edge or moves a straying node twice. -/
structure Closes (s : Setting α) (seeds : Table α) (tables : List (Table α))
    (stray : List String) (shown : List (String × Reading α)) : Prop where
  seeded : seeds ∈ tables
  next : ∀ t ∈ tables, ∀ m ∈ s.moves t, t.write m.2 ∈ tables
  strays : ∀ t ∈ tables, ∀ m ∈ s.moves t,
    m.1.1.reversed = true ∨ m.2.entry.logic = .conflict ∨ m.1.1.source ∈ stray →
      m.1.1.target ∈ stray
  one : ∀ t ∈ tables, s.IsAtRest t → t.entries.map (fun e => (e.1, e.2.reading)) = shown
  lasting : ∀ t ∈ tables, ∀ m ∈ s.moves t, ∀ h ∈ s.hops, m.1.1.target ≠ h.1.source →
    s.change? t h = none → s.change? (t.write m.2) h = none
  once : ∀ t ∈ tables, ∀ m ∈ s.moves t, m.1.1.target ∈ stray → t.isAsserted m.1.1.target = true

namespace Closes
variable {tables : List (Table α)} {stray : List String} {shown : List (String × Reading α)}

instance [DecidableEq α] : Decidable (s.Closes seeds tables stray shown) :=
  decidable_of_iff (seeds ∈ tables ∧ (∀ t ∈ tables, ∀ m ∈ s.moves t, t.write m.2 ∈ tables) ∧
      (∀ t ∈ tables, ∀ m ∈ s.moves t,
        m.1.1.reversed = true ∨ m.2.entry.logic = .conflict ∨ m.1.1.source ∈ stray →
          m.1.1.target ∈ stray) ∧
      (∀ t ∈ tables, s.IsAtRest t → t.entries.map (fun e => (e.1, e.2.reading)) = shown) ∧
      (∀ t ∈ tables, ∀ m ∈ s.moves t, ∀ h ∈ s.hops, m.1.1.target ≠ h.1.source →
        s.change? t h = none → s.change? (t.write m.2) h = none) ∧
      ∀ t ∈ tables, ∀ m ∈ s.moves t, m.1.1.target ∈ stray → t.isAsserted m.1.1.target = true)
    ⟨fun ⟨h₁, h₂, h₃, h₄, h₅, h₆⟩ => ⟨h₁, h₂, h₃, h₄, h₅, h₆⟩,
      fun ⟨h₁, h₂, h₃, h₄, h₅, h₆⟩ => ⟨h₁, h₂, h₃, h₄, h₅, h₆⟩⟩

theorem mem_tables (hs : s.Closes seeds tables stray shown) (ht : s.Arises seeds t) :
    t ∈ tables := by
  induction ht with
  | seeded => exact hs.seeded
  | read _ hturn hc ih => exact hs.next _ ih _ (mem_moves.2 ⟨hturn, hc⟩)

theorem move (hs : s.Closes seeds tables stray shown) (hc : s.Happens seeds t h c) :
    t ∈ tables ∧ (h, c) ∈ s.moves t :=
  ⟨hs.mem_tables hc.arises, mem_moves.2 ⟨hc.turn, hc.change⟩⟩

end Closes
end Setting

namespace Engine

end Engine
end ReasonGraph
