import ReasonGraph.Proofs.Confirmation
import ReasonGraph.Proofs.Interleaving
import ReasonGraph.Proofs.Settlement
import ReasonGraph.Proofs.Undriven

/-! Nodes asserted one after another, sources before sinks, with inference spreading from each. Beside
the table of the engine goes a shadow that takes the same changes and no assertions, so it is one of
the tables that arise when edges are read in some order. An assertion takes drivers and partners away
from the table and leaves them to the shadow. No reading tells the difference, if the order of
reading is without effect: where drivers are missing the node is moved no more, and where partners
are missing the edges from the node are quiet. A pass from a node expands whatever it moved, so that
is so again when the pass is over. -/

namespace ReasonGraph
variable {α : Type}

theorem Table.isAsserted_eq_true {t : Table α} {id : String} (h : t.isAsserted id = true)
    {a : NodeState α} (ha : t.get? id = some a) : a.derivedFrom = [] := by
  rw [isAsserted, ha] at h
  simpa [NodeState.isAsserted] using h

variable [Quantity α]

namespace Setting
variable {s : Setting α} {nodes : List (Node α)} {edges : List (Edge α)}
  {seeds shadow t : Table α} {h : Hop α × Rule α} {c : Change α}

def QuietAt (s : Setting α) (t : Table α) (id : String) : Prop :=
  ∀ h ∈ s.hops, h.1.source = id → s.change? t h = none

structure Stage (s : Setting α) (nodes : List (Node α)) (edges : List (Edge α))
    (seeds : Table α) : Prop where
  graph : s.graph = .ofLists nodes edges
  registry : s.registry = .builtin
  loopless : ∀ id, ¬(Links.whole nodes edges).Joins id id
  unpartnered : ∀ id a, seeds.get? id = some a → a.partners = none
  free : s.IsOrderFree seeds

/-- What an assertion took away the shadow has still, and nothing else is different. -/
structure Shadows (s : Setting α) (seeds : Table α) (asserted : List String)
    (shadow t : Table α) : Prop where
  arises : s.Arises seeds shadow
  same : ∀ id, t.get? id = shadow.get? id ∨
    id ∈ asserted ∧ t.get? id = (shadow.get? id).map NodeState.confirmed
  alike : ∀ id, shadow.Alike t id ∨ s.QuietAt shadow id

namespace Shadows
variable {asserted : List String}

theorem rel (hs : s.Shadows seeds asserted shadow t) {R : NodeState α → NodeState α → Prop}
    (hself : ∀ a, R a a) (hconfirmed : ∀ a, R a a.confirmed) (id : String) :
    Option.Rel R (shadow.get? id) (t.get? id) := by
  rcases hs.same id with hsame | ⟨-, hsame⟩ <;> rw [hsame]
  · have hrefl := NodeState.rel_map hself (shadow.get? id)
    rwa [Option.map_id'] at hrefl
  · exact NodeState.rel_map hconfirmed _

theorem map_get? (hs : s.Shadows seeds asserted shadow t) {β : Type} {f : NodeState α → β}
    (hf : ∀ a, f a.confirmed = f a) (id : String) : (t.get? id).map f = (shadow.get? id).map f := by
  rcases hs.same id with hsame | ⟨-, hsame⟩ <;> rw [hsame]
  rw [Option.map_map]
  exact congrArg (Option.map · _) (funext hf)

theorem readings (hs : s.Shadows seeds asserted shadow t) (id : String) :
    t.readings id = shadow.readings id := hs.map_get? (fun _ => rfl) id

theorem change?_eq (hs : s.Shadows seeds asserted shadow t) (hstage : s.Stage nodes edges seeds)
    (hh : h ∈ s.hops) (htarget : ∀ c, s.change? shadow h = some c →
      t.get? h.1.target = shadow.get? h.1.target) : s.change? t h = s.change? shadow h := by
  obtain ⟨hop, rule⟩ := h
  obtain ⟨r, rfl, -⟩ := rule_of_mem_hops hstage.registry hh
  have hother := Table.achievedOtherwise_of_logic (hs.map_get? (f := NodeState.logic) fun _ => rfl)
    edges hop
  cases hc : s.change? shadow (hop, .builtin r) with
  | none =>
    exact quiet_of_drops hstage.graph (fun _ => hother)
      (hs.rel .refl NodeState.dropsPartners_confirmed _)
      (hs.rel .refl NodeState.dropsDrivers_confirmed _) hc
  | some c =>
    have halike := (hs.alike hop.source).resolve_right fun hquiet => by
      rw [hquiet _ hh rfl] at hc
      cases hc
    exact change?_alike hstage.graph (fun _ => hother) halike (htarget c hc) hc

end Shadows

theorem Stage.ends_ne (hstage : s.Stage nodes edges seeds) (hh : h ∈ s.hops)
    (hc : s.change? shadow h = some c) : h.1.target ≠ h.1.source := by
  have hjoins := (joins_of_change hstage.graph hh hc).2
  obtain ⟨⟨edge, reversed⟩, rule⟩ := h
  intro hloop
  cases reversed with
  | false =>
    rw [show edge.target = edge.source from hloop] at hjoins
    exact hstage.loopless _ hjoins
  | true =>
    rw [show edge.source = edge.target from hloop] at hjoins
    exact hstage.loopless _ hjoins

theorem Stage.driven_of_strays (hstage : s.Stage nodes edges seeds) (hc : s.Happens seeds shadow h c)
    (hstrays : s.Strays seeds h.1.target) : (shadow.write c).isAsserted h.1.target = false := by
  have hbefore := hstage.free.once _ _ _ hc hstrays
  refine Table.isAsserted_eq_false.2 ⟨_, get?_write_self hc.change, ?_⟩
  refine (change?_drives hstage.registry hc.mem hc.change).resolve_right fun hunknown => ?_
  rw [hbefore] at hunknown
  cases hunknown.2

theorem QuietAt.write (hstage : s.Stage nodes edges seeds) (hc : s.Happens seeds shadow h c)
    {id : String} (hid : h.1.target ≠ id) (hquiet : s.QuietAt shadow id) :
    s.QuietAt (shadow.write c) id := fun g hg hsource =>
  hstage.free.lasting _ _ _ _ hc hg (hsource ▸ hid) (hquiet g hg hsource)

theorem Shadows.write {asserted : List String} {l : Ledger α} (hstage : s.Stage nodes edges seeds)
    (hs : s.Shadows seeds asserted shadow l.states) (hc : s.Happens seeds shadow h c)
    (hmade : s.change? l.states h = some c) :
    s.Shadows seeds asserted (shadow.write c) (l.write c).states := by
  have htable : ∀ id, (l.write c).states.get? id =
      if h.1.target = id then some c.entry else l.states.get? id := fun id =>
    get?_write hmade id
  refine ⟨hc.next, fun id => ?_, fun id => ?_⟩
  · rw [htable, get?_write hc.change]
    split
    · exact .inl rfl
    · exact hs.same id
  · by_cases hid : h.1.target = id
    · left
      rw [Table.Alike, htable, get?_write hc.change, if_pos hid, if_pos hid]
    · rw [Table.Alike, htable, if_neg hid, get?_write_of_ne hc.change hid]
      exact (hs.alike id).imp_right fun hquiet => hquiet.write hstage hc hid

/-- The nodes whose edges are quiet between two assertions: those that were asserted, and those that
strayed. -/
def Matters (s : Setting α) (seeds : Table α) (done : List String) (shadow : Table α)
    (id : String) : Prop :=
  id ∈ done ∨ s.Strays seeds id ∧ shadow.isAsserted id = false

theorem Matters.congr {done : List String} {shadow' : Table α} {id : String}
    (hsame : shadow'.get? id = shadow.get? id) :
    s.Matters seeds done shadow' id ↔ s.Matters seeds done shadow id := by
  rw [Matters, Matters, Table.isAsserted_congr hsame]

structure Between (s : Setting α) (seeds : Table α) (done : List String) (shadow t : Table α) :
    Prop where
  shadows : s.Shadows seeds done shadow t
  quiet : ∀ id, s.Matters seeds done shadow id → s.QuietAt shadow id

structure Turn (s : Setting α) (seeds : Table α) (done : List String) (x : String)
    (shadow t : Table α) : Prop where
  shadows : s.Shadows seeds (done ++ [x]) shadow t
  quiet : ∀ id, id ≠ x → s.Matters seeds done shadow id → s.QuietAt shadow id

structure Moved (s : Setting α) (seeds : Table α) (done : List String) (shadow : Table α)
    (id : String) : Prop where
  strays : id ∈ done → s.Strays seeds id
  driven : s.Strays seeds id → shadow.isAsserted id = false
  unknown : shadow.isAsserted id = true → ∃ a, shadow.get? id = some a ∧ a.logic = .unknown

theorem Moved.congr {done : List String} {shadow' : Table α} {id : String}
    (hsame : shadow'.get? id = shadow.get? id) (hm : s.Moved seeds done shadow id) :
    s.Moved seeds done shadow' id := by
  refine ⟨hm.strays, fun hstrays => ?_, fun hasserted => ?_⟩
  · rw [Table.isAsserted_congr hsame]
    exact hm.driven hstrays
  · rw [Table.isAsserted_congr hsame] at hasserted
    rw [hsame]
    exact hm.unknown hasserted

/-- The turn of a node comes once, and after that of every node before it. -/
structure IsNext (nodes : List (Node α)) (edges : List (Edge α)) (done : List String)
    (x : String) : Prop where
  before : ∀ a b, (Links.whole nodes edges).Joins a b → b ∈ done ++ [x] → a ∈ done
  new : x ∉ done

/-- A pass on its way from the asserted node: it reads at one node, others are queued, and some were
not expanded yet. What was moved is quiet once it was expanded. -/
structure Passing (s : Setting α) (seeds : Table α) (done : List String) (x : String)
    (reading : String) (queue unexpanded : List String) (shadow t : Table α) : Prop where
  shadows : s.Shadows seeds (done ++ [x]) shadow t
  quiet : ∀ id, id ≠ x → id ≠ reading → s.Matters seeds done shadow id →
    s.QuietAt shadow id ∨ id ∈ queue ∧ id ∈ unexpanded
  reader : reading ≠ x → s.Moved seeds done shadow reading
  moved : ∀ id ∈ queue, id ≠ x → s.Moved seeds done shadow id
  fresh : ∀ id ∈ s.graph.ids, id ≠ x → s.Strays seeds id → shadow.isAsserted id = true →
    id ∈ unexpanded

namespace Passing
variable {done queue unexpanded : List String} {x reading : String}

section
variable (hstage : s.Stage nodes edges seeds) (hnext : IsNext nodes edges done x)
  (hp : s.Passing seeds done x reading queue unexpanded shadow t)
include hstage hnext hp

theorem happens (hh : h ∈ s.hops) (hsource : h.1.source = reading)
    (hc : s.change? shadow h = some c) : s.Happens seeds shadow h c := by
  refine ⟨hp.shadows.arises, inTurn_of_mem hh fun g hg hforward hends hbegin hdriven => ?_, hc⟩
  rw [Option.eq_none_iff_forall_ne_some]
  intro d hd
  by_cases hx : reading = x
  · -- an edge into the asserted node comes from one that was asserted before
    have hjoins := joins_of_forward hstage.graph hg hforward hd
    rw [hends, hsource, hx] at hjoins
    have hdone := hnext.before _ _ hjoins (by simp)
    have hne : g.1.source ≠ x := fun heq => hnext.new (heq ▸ hdone)
    rcases hp.quiet _ hne (hx ▸ hne) (.inl hdone) with hquiet | ⟨hqueued, -⟩
    · rw [hquiet g hg rfl] at hd
      cases hd
    · have hmoved := hp.moved _ hqueued hne
      rw [hmoved.driven (hmoved.strays hdone)] at hbegin
      cases hbegin
  · rw [hsource] at hdriven
    obtain ⟨a, ha, hunknown⟩ := (hp.reader hx).unknown hdriven
    rw [change?_of_unknown hstage.registry (fun b hb => ?_) hh] at hc
    · cases hc
    · rw [hsource, ha] at hb
      exact Option.some.inj hb ▸ hunknown

theorem strays_target (hc : s.Happens seeds shadow h c) (hsource : h.1.source = reading)
    (htarget : h.1.target ∈ done ++ [x]) : s.Strays seeds h.1.target := by
  by_cases hbackward : h.1.reversed = true
  · exact .back hc hbackward
  · rw [Bool.not_eq_true] at hbackward
    have hjoins := joins_of_forward hstage.graph hc.mem hbackward hc.change
    have hdone := hnext.before _ _ hjoins htarget
    rw [hsource] at hdone
    have hne : reading ≠ x := fun heq => hnext.new (heq ▸ hdone)
    exact .on hc (hsource ▸ (hp.reader hne).strays hdone)

theorem change?_eq (hh : h ∈ s.hops) (hsource : h.1.source = reading) :
    s.change? t h = s.change? shadow h := by
  refine hp.shadows.change?_eq hstage hh fun c hc => ?_
  have hhappens := hp.happens hstage hnext hh hsource hc
  rcases hp.shadows.same h.1.target with hsame | ⟨hasserted, hsame⟩
  · exact hsame
  -- an asserted node that is moved has no drivers and no partners to lose
  have hbefore := hstage.free.once _ _ _ hhappens
    (hp.strays_target hstage hnext hhappens hsource hasserted)
  rw [hsame]
  cases hb : shadow.get? h.1.target with
  | none => rfl
  | some b =>
    have hdrivers := Table.isAsserted_eq_true hbefore hb
    have hpartners : b.partners = none := by
      by_contra hsome
      have hdriven := (hhappens.arises.partnered hstage.registry hstage.unpartnered hb hsome).2.1
      rw [hbefore] at hdriven
      cases hdriven
    rw [Option.map_some, NodeState.confirmed, ← hdrivers, ← hpartners]

end

theorem write {l : Ledger α} (hstage : s.Stage nodes edges seeds)
    (hnext : IsNext nodes edges done x)
    (hp : s.Passing seeds done x reading queue unexpanded shadow l.states)
    (hsource : h.1.source = reading) (hc : s.Happens seeds shadow h c)
    (hmade : s.change? l.states h = some c) :
    s.Passing seeds done x reading (queue ++ [h.1.target]) unexpanded (shadow.write c)
      (l.write c).states := by
  have hstrays := hp.strays_target hstage hnext hc hsource
  have hstill : ∀ id, h.1.target ≠ id → (shadow.write c).get? id = shadow.get? id := fun id hid =>
    get?_write_of_ne hc.change hid
  have hself : s.Moved seeds done (shadow.write c) h.1.target := by
    refine ⟨fun hdone => hstrays (List.mem_append_left _ hdone), hstage.driven_of_strays hc,
      fun hasserted => ⟨c.entry, get?_write_self hc.change, ?_⟩⟩
    exact unknown_of_write hstage.registry hc.mem hc.change hasserted
  refine ⟨hp.shadows.write hstage hc hmade, ?_, ?_, ?_, ?_⟩
  · intro id hx hreading hmatters
    by_cases hid : h.1.target = id
    · subst hid
      have hstrays' : s.Strays seeds h.1.target := by
        rcases hmatters with hdone | ⟨hstrays', -⟩
        · exact hstrays (List.mem_append_left _ hdone)
        · exact hstrays'
      have hmem : h.1.target ∈ s.graph.ids := by
        rw [hstage.graph]
        exact Snapshot.mem_keys_nodeMap.2 (ends_of_change hstage.graph hc.change).2
      exact .inr ⟨by simp, hp.fresh _ hmem hx hstrays' (hstage.free.once _ _ _ hc hstrays')⟩
    · rw [Matters.congr (hstill id hid)] at hmatters
      refine (hp.quiet id hx hreading hmatters).imp (fun hquiet => hquiet.write hstage hc hid) ?_
      exact fun hqueued => ⟨List.mem_append_left _ hqueued.1, hqueued.2⟩
  · have hne : h.1.target ≠ reading := hsource ▸ hstage.ends_ne hc.mem hc.change
    exact fun hx => (hp.reader hx).congr (hstill _ hne)
  · intro id hqueued hx
    by_cases hid : h.1.target = id
    · exact hid ▸ hself
    · have hold : id ∈ queue := by simpa [Ne.symm hid] using hqueued
      exact (hp.moved id hold hx).congr (hstill id hid)
  · intro id hmem hx hstrays' hasserted
    by_cases hid : h.1.target = id
    · rw [← hid] at hstrays' hasserted
      rw [hself.driven hstrays'] at hasserted
      cases hasserted
    · rw [Table.isAsserted_congr (hstill id hid)] at hasserted
      exact hp.fresh id hmem hx hstrays' hasserted

/-- What a straying node was read for once is quiet. -/
theorem quiet_of_read (hstage : s.Stage nodes edges seeds) (hc : s.Happens seeds shadow h c)
    (hstrays : s.Strays seeds h.1.source) (hdriven : shadow.isAsserted h.1.source = false) :
    s.change? (shadow.write c) h = none := by
  have hsame := get?_write_of_ne hc.change (hstage.ends_ne hc.mem hc.change)
  rw [Option.eq_none_iff_forall_ne_some]
  intro c' hc'
  rw [← Table.isAsserted_congr hsame] at hdriven
  have honce := hstage.free.once _ _ _ ⟨hc.next, inTurn_of_source hc.mem hdriven, hc'⟩ (.on hc hstrays)
  rw [hstage.driven_of_strays hc (.on hc hstrays)] at honce
  cases honce

/-- Reading at a node keeps to what a pass does, and leaves nothing to say at a node that matters. -/
theorem read (hstage : s.Stage nodes edges seeds) (hnext : IsNext nodes edges done x)
    {hops : List (Hop α × Rule α)} (hhops : ∀ h ∈ hops, h ∈ s.hops ∧ h.1.source = reading)
    {p : Progress α}
    (hp : s.Passing seeds done x reading (queue ++ p.reached) unexpanded shadow p.ledger.states) :
    let after := hops.foldl s.readOne p
    ∃ shadow', s.Passing seeds done x reading (queue ++ after.reached) unexpanded shadow'
        after.ledger.states ∧ shadow'.get? reading = shadow.get? reading ∧
      (reading ≠ x → s.Matters seeds done shadow reading → ∀ h ∈ s.hops, h.1.source = reading →
        h ∈ hops ∨ s.change? shadow h = none → s.change? shadow' h = none) := by
  induction hops generalizing p shadow with
  | nil => exact ⟨shadow, hp, rfl, fun _ _ h _ _ hquiet => hquiet.resolve_left List.not_mem_nil⟩
  | cons h rest ih =>
    obtain ⟨hh, hsource⟩ := hhops h List.mem_cons_self
    have hrest := fun g hg => hhops g (List.mem_cons_of_mem h hg)
    have hboth := hp.change?_eq hstage hnext hh hsource
    rw [List.foldl_cons]
    cases hc : s.change? shadow h with
    | none =>
      rw [hc] at hboth
      rw [readOne_of_none hboth]
      obtain ⟨shadow', hp', hsame, hquiet⟩ := ih hrest hp
      refine ⟨shadow', hp', hsame, fun hx hmatters g hg hat hread => ?_⟩
      refine hquiet hx hmatters g hg hat ?_
      rcases hread with hmem | hstill
      · rcases List.mem_cons.1 hmem with rfl | hmem
        · exact .inr hc
        · exact .inl hmem
      · exact .inr hstill
    | some c =>
      rw [hc] at hboth
      have hhappens := hp.happens hstage hnext hh hsource hc
      have hspreads : c.spreads = true := by
        obtain ⟨id, hat⟩ : ∃ id, h ∈ s.hopsAt id := ⟨_, (mem_hopsAt hstage.graph).2 ⟨hh, rfl⟩⟩
        exact spreads_builtin hstage.graph hstage.registry id h hat _ _ hc
      have hwritten := hp.write hstage hnext hsource hhappens hboth
      rw [List.append_assoc] at hwritten
      have hne : h.1.target ≠ reading := hsource ▸ hstage.ends_ne hh hc
      have hstill := get?_write_of_ne hc hne
      rw [readOne_of_some hboth, if_pos hspreads]
      obtain ⟨shadow', hp', hsame, hquiet⟩ := ih hrest (p := ⟨p.ledger.write c, true, _⟩) hwritten
      refine ⟨shadow', hp', hsame.trans hstill, fun hx hmatters g hg hat hread => ?_⟩
      refine hquiet hx ((Matters.congr hstill).2 hmatters) g hg hat ?_
      rcases hread with hmem | hbefore
      · rcases List.mem_cons.1 hmem with rfl | hmem
        · have hmoved := hp.reader hx
          have hstrays : s.Strays seeds reading := hmatters.elim hmoved.strays And.left
          exact .inr (quiet_of_read hstage hhappens (hsource ▸ hstrays)
            (hsource ▸ hmoved.driven hstrays))
        · exact .inl hmem
      · exact .inr (hstage.free.lasting _ _ _ _ hhappens hg (hat ▸ hne) hbefore)

theorem enter {id : String} {rest : List String}
    (hp : s.Passing seeds done x x queue unexpanded shadow t)
    (hdrop : (queue.dropWhile fun id => !unexpanded.contains id) = id :: rest) :
    id ∈ unexpanded ∧ s.Passing seeds done x id rest (unexpanded.erase id) shadow t := by
  have hsub : ∀ q ∈ id :: rest, q ∈ queue := fun q hq =>
    (List.dropWhile_sublist _).mem (hdrop ▸ hq)
  have hid : id ∈ unexpanded := by
    have hfirst := List.head?_dropWhile_not (fun id => !unexpanded.contains id) queue
    rw [hdrop] at hfirst
    simpa using hfirst
  refine ⟨hid, hp.shadows, fun z hx hreading hmatters => ?_,
    hp.moved id (hsub id List.mem_cons_self),
    fun z hz => hp.moved z (hsub z (List.mem_cons_of_mem id hz)),
    fun z hmem hx hstrays hasserted => ?_⟩
  · refine (hp.quiet z hx hx hmatters).imp_right fun hqueued => ?_
    have hkept := mem_skipped hqueued.2 hqueued.1
    rw [hdrop] at hkept
    exact ⟨(List.mem_cons.1 hkept).resolve_left hreading,
      (List.mem_erase_of_ne hreading).2 hqueued.2⟩
  · have hne : z ≠ id := by
      rintro rfl
      rw [(hp.moved z (hsub z List.mem_cons_self) hx).driven hstrays] at hasserted
      cases hasserted
    exact (List.mem_erase_of_ne hne).2 (hp.fresh z hmem hx hstrays hasserted)

theorem leave (hp : s.Passing seeds done x reading queue unexpanded shadow t)
    (hquiet : reading ≠ x → s.Matters seeds done shadow reading → s.QuietAt shadow reading) :
    s.Passing seeds done x x queue unexpanded shadow t := by
  refine ⟨hp.shadows, fun id hx _ hmatters => ?_, absurd rfl, hp.moved, hp.fresh⟩
  by_cases hid : id = reading
  · exact .inl (hid ▸ hquiet (hid ▸ hx) (hid ▸ hmatters))
  · exact hp.quiet id hx hid hmatters

theorem finish (hp : s.Passing seeds done x x queue unexpanded shadow t)
    (hdone : ∀ id ∈ queue, id ∉ unexpanded) : s.Turn seeds done x shadow t :=
  ⟨hp.shadows, fun id hx hmatters => (hp.quiet id hx hx hmatters).resolve_right fun hqueued =>
    hdone id hqueued.1 hqueued.2⟩

theorem expand (hstage : s.Stage nodes edges seeds) (hnext : IsNext nodes edges done x)
    {steps : Nat} {l : Ledger α} (changed : Bool) (hsteps : unexpanded.length ≤ steps)
    (hp : s.Passing seeds done x x queue unexpanded shadow l.states) :
    ∃ shadow', s.Turn seeds done x shadow'
      (s.expand steps queue unexpanded (l, changed)).1.states := by
  induction steps generalizing queue unexpanded shadow l changed with
  | zero =>
    have hnone : unexpanded = [] := List.length_eq_zero_iff.1 (Nat.le_zero.1 hsteps)
    exact ⟨shadow, hp.finish (by simp [hnone])⟩
  | succ steps ih =>
    rw [Setting.expand]
    cases hdrop : queue.dropWhile fun id => !unexpanded.contains id with
    | nil =>
      refine ⟨shadow, hp.finish fun id hqueued hid => ?_⟩
      have hkept := mem_skipped hid hqueued
      rw [hdrop] at hkept
      cases hkept
    | cons id rest =>
      obtain ⟨hid, hentered⟩ := hp.enter hdrop
      have hstart : s.Passing seeds done x id (rest ++ []) (unexpanded.erase id) shadow l.states :=
        (List.append_nil rest).symm ▸ hentered
      obtain ⟨shadow', hread, hsame, hquiet⟩ := read (p := ⟨l, false, []⟩) hstage hnext
        (fun h hh => (mem_hopsAt hstage.graph).1 hh) hstart
      refine ih _ ?_ (hread.leave fun hx hmatters h hh hat => ?_)
      · rw [List.length_erase_of_mem hid]
        omega
      · exact hquiet hx ((Matters.congr hsame).1 hmatters) h hh hat
          (.inl ((mem_hopsAt hstage.graph).2 ⟨hh, hat⟩))

end Passing

namespace Turn
variable {done : List String} {x : String} {l : Ledger α}

theorem passing (ht : s.Turn seeds done x shadow t) :
    s.Passing seeds done x x [x] s.graph.ids shadow t :=
  ⟨ht.shadows, fun id hx _ hmatters => .inl (ht.quiet id hx hmatters), absurd rfl,
    fun _ hqueued hx => absurd (List.mem_singleton.1 hqueued) hx, fun _ hmem _ _ _ => hmem⟩

theorem pass (hstage : s.Stage nodes edges seeds) (hnext : IsNext nodes edges done x)
    (ht : s.Turn seeds done x shadow l.states) :
    ∃ shadow', s.Turn seeds done x shadow' (s.passFrom x l).1.states :=
  ht.passing.expand hstage hnext false le_rfl

theorem settle (hstage : s.Stage nodes edges seeds) (hnext : IsNext nodes edges done x)
    (hx : x ∈ s.graph.ids) (cap : Nat) (ht : s.Turn seeds done x shadow l.states) :
    let settled := ReasonGraph.settle (s.passFrom x) cap l
    ∃ shadow', s.Turn seeds done x shadow' settled.ledger.states ∧
      (settled.converged = true → s.QuietAt shadow' x) := by
  induction cap generalizing l shadow with
  | zero => exact ⟨shadow, ht, by simp [ReasonGraph.settle]⟩
  | succ cap ih =>
    obtain ⟨shadow', ht'⟩ := ht.pass hstage hnext
    rw [ReasonGraph.settle]
    rcases hpass : s.passFrom x l with ⟨next, changed⟩
    rw [hpass] at ht'
    cases changed with
    | false =>
      obtain ⟨hsame, hquiet⟩ := passFrom_quiet hx hpass
      refine ⟨shadow', ht', fun _ h hh hat => ?_⟩
      rw [← ht'.passing.change?_eq hstage hnext hh hat, hsame]
      exact hquiet h ((mem_hopsAt hstage.graph).2 ⟨hh, hat⟩)
    | true => exact ih ht'

theorem close (ht : s.Turn seeds done x shadow t) (hquiet : s.QuietAt shadow x) :
    s.Between seeds (done ++ [x]) shadow t := by
  refine ⟨ht.shadows, fun id hmatters => ?_⟩
  by_cases hid : id = x
  · exact hid ▸ hquiet
  · refine ht.quiet id hid (hmatters.imp_left fun hdone => ?_)
    simpa [hid] using hdone

end Turn

theorem Between.open (hstage : s.Stage nodes edges seeds) {done : List String} {x : String}
    {e : Engine α} (hb : s.Between seeds done shadow e.ledger.states) (hx : x ∉ done)
    {current : NodeState α} (hcurrent : e.ledger.states.get? x = some current) :
    s.Turn seeds done x shadow (Engine.assert e.ledger x current current.logic).states := by
  have hget := Engine.get?_assert hcurrent
  have hmine : e.ledger.states.get? x = shadow.get? x :=
    (hb.shadows.same x).resolve_right fun h => hx h.1
  refine ⟨⟨hb.shadows.arises, fun id => ?_, fun id => ?_⟩,
    fun id _ hmatters => hb.quiet id hmatters⟩
  · rw [hget]
    split
    · rename_i hid
      subst hid
      rw [hmine]
      exact .inr ⟨by simp, rfl⟩
    · exact (hb.shadows.same id).imp_right fun h => ⟨List.mem_append_left _ h.1, h.2⟩
  · by_cases hid : x = id
    · subst hid
      by_cases hpartners : current.partners = none
      · left
        rw [Table.Alike, hget, if_pos rfl, ← hmine, hcurrent]
        simp only [Option.map_some, NodeState.undriven, NodeState.confirmed, hpartners]
      · obtain ⟨hstrays, hdriven, -⟩ := hb.shadows.arises.partnered hstage.registry
          hstage.unpartnered (hmine.symm.trans hcurrent) hpartners
        exact .inr (hb.quiet x (.inr ⟨hstrays, hdriven⟩))
    · rw [Table.Alike, hget, if_neg hid]
      exact hb.shadows.alike id

end Setting
end ReasonGraph
