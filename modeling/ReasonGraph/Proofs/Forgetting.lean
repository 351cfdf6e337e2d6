import ReasonGraph.Proofs.View

/-! What may be forgotten of a state. No rule asks for the drivers of a source or for the partners of
a target. Drivers matter where an achievement is withdrawn from a target that it drove, and partners
where a source in conflict stands against a target that it names. So where partners of the source
and drivers of the target are forgotten, rules find less to do and never more: what they propose
still, they proposed before, with the same verdict and the same confidence. -/

namespace ReasonGraph
variable {α : Type}

namespace NodeState

def remember (s : NodeState α) (drivers : List String) (partners : Option (List String)) :
    NodeState α :=
  { s with derivedFrom := drivers, partners }

/-- The second state names no partner that the first does not name, whatever its drivers are. -/
inductive DropsPartners (s : NodeState α) : NodeState α → Prop
  | intro {drivers : List String} {partners : Option (List String)}
      (hpartners : partners.getD [] ⊆ s.partners.getD []) : DropsPartners s (s.remember drivers partners)

inductive DropsDrivers (s : NodeState α) : NodeState α → Prop
  | intro {drivers : List String} {partners : Option (List String)}
      (hdrivers : drivers ⊆ s.derivedFrom) : DropsDrivers s (s.remember drivers partners)

theorem DropsPartners.refl (s : NodeState α) : s.DropsPartners s := .intro (List.Subset.refl _)

theorem DropsDrivers.refl (s : NodeState α) : s.DropsDrivers s := .intro (List.Subset.refl _)

theorem rel_map {R : NodeState α → NodeState α → Prop} {f : NodeState α → NodeState α}
    (h : ∀ s, R s (f s)) (s : Option (NodeState α)) : Option.Rel R s (s.map f) := by
  cases s with
  | none => exact .none
  | some s => exact .some (h s)

end NodeState

namespace Proposal

/-- What is proposed second is proposed first, with the same verdict and the same confidence. -/
def Covers (p p' : Option (Proposal α)) : Prop :=
  ∀ q', p' = some q' → ∃ q, p = some q ∧ q.logic = q'.logic ∧ q.confidence = q'.confidence

namespace Covers
variable {p p' q q' : Option (Proposal α)} {e e' : Evidence α}

theorem none : Covers p .none := fun _ h => nomatch h

theorem ite {c : Prop} [Decidable c] (hp : Covers p p') (hq : Covers q q') :
    Covers (if c then p else q) (if c then p' else q') := by
  split
  · exact hp
  · exact hq

theorem ite_right {c' : Prop} [Decidable c'] (hp : c' → Covers p p') (hq : ¬c' → Covers p q') :
    Covers p (if c' then p' else q') := by
  split
  · exact hp ‹_›
  · exact hq ‹_›

theorem propose {logic : LogicState} {confidence : α} {reason reason' : String} :
    Covers (e.propose logic confidence reason) (e'.propose logic confidence reason') := by
  rintro _ ⟨⟩
  exact ⟨_, rfl, rfl, rfl⟩

theorem contest {partners partners' : List String} {confidence : α} {reason reason' : String} :
    Covers (e.contest partners confidence reason) (e'.contest partners' confidence reason') := by
  rintro _ ⟨⟩
  exact ⟨_, rfl, rfl, rfl⟩

end Covers
end Proposal

theorem Table.achievedOtherwise_of_logic {t t' : Table α}
    (ht : ∀ id, (t'.get? id).map NodeState.logic = (t.get? id).map NodeState.logic)
    (edges : List (Edge α)) (h : Hop α) :
    t'.achievedOtherwise edges h = t.achievedOtherwise edges h := by
  have hholds : ∀ (t : Table α) id, (t.get? id).any (fun s => decide (s.logic = .holds)) =
      ((t.get? id).map NodeState.logic).any fun verdict => decide (verdict = .holds) := by
    intro t id
    rw [Option.any_map]
  simp only [achievedOtherwise, hholds, ht]

theorem Rule.standsAgainst_of_holds {e : Evidence α} (h : e.source.logic = .holds) :
    standsAgainst e = true := by
  simp [standsAgainst, h]

variable [Quantity α]

namespace Rule
open Proposal
variable {e : Evidence α} {a b : NodeState α} {t : Table α}

section
variable (ha : e.source.DropsPartners a) (hb : e.target.DropsDrivers b)
include ha hb

theorem dependency_covers :
    Covers (dependency e) (dependency { e with source := a, target := b, states := t }) := by
  obtain ⟨-⟩ := ha
  obtain ⟨-⟩ := hb
  exact .ite .none (.ite .contest (.ite .propose .none))

theorem support_covers :
    Covers (support e) (support { e with source := a, target := b, states := t }) := by
  obtain ⟨-⟩ := ha
  obtain ⟨-⟩ := hb
  exact .ite .none (.ite (.ite .propose .none) (.ite (.ite .propose .none) .none))

theorem hindrance_covers :
    Covers (hindrance e) (hindrance { e with source := a, target := b, states := t }) := by
  obtain ⟨-⟩ := ha
  obtain ⟨-⟩ := hb
  exact .ite .none (.ite .propose (.ite .propose .none))

theorem causation_covers :
    Covers (causation e) (causation { e with source := a, target := b, states := t }) := by
  obtain ⟨-⟩ := ha
  obtain ⟨-⟩ := hb
  exact .ite .none (.ite (.ite .none (.ite .contest (.ite .propose .none)))
    (.ite .none (.ite .contest (.ite .propose .none))))

theorem achievement_covers
    (hother : hasOtherAchiever { e with source := a, target := b, states := t } =
      hasOtherAchiever e) :
    Covers (achievement e) (achievement { e with source := a, target := b, states := t }) := by
  obtain ⟨-⟩ := ha
  obtain @⟨drivers, _, hdrivers⟩ := hb
  have hwithdraws : (drivers.contains e.sourceNode.id && !hasOtherAchiever e) = true →
      (e.target.derivedFrom.contains e.sourceNode.id && !hasOtherAchiever e) = true := by
    simp only [Bool.and_eq_true, List.contains_iff_mem]
    exact fun h => ⟨hdrivers h.1, h.2⟩
  simp only [achievement, hother]
  refine .ite .none (.ite (.ite .propose .none)
    (.ite (.ite_right (fun hdrove => ?_) fun _ => .none) .none))
  rw [if_pos (hwithdraws hdrove)]
  rintro _ ⟨⟩
  exact ⟨_, rfl, rfl, rfl⟩

theorem mutualConflict_covers :
    Covers (mutualConflict e) (mutualConflict { e with source := a, target := b, states := t }) := by
  obtain @⟨drivers, partners, hpartners⟩ := ha
  obtain ⟨-⟩ := hb
  have hstands : (decide (e.source.logic = .holds) || (decide (e.source.logic = .conflict) &&
      (partners.getD []).contains e.targetNode.id)) = true → standsAgainst e = true := by
    simp only [standsAgainst, Bool.or_eq_true, Bool.and_eq_true, List.contains_iff_mem]
    exact Or.imp_right fun h => ⟨h.1, hpartners h.2⟩
  refine .ite .none (.ite_right (fun hboth => ?_) fun hnot =>
    .ite_right (fun hrefutes => ?_) fun _ => .none)
  · have hboth' : e.target.logic = .holds ∧ standsAgainst e = true := ⟨hboth.1, hstands hboth.2⟩
    rw [if_pos hboth']
    exact .contest
  · have hrefutes' : e.source.logic = .holds ∧ e.target.logic ≠ .fails := hrefutes
    have hnot' : ¬(e.target.logic = .holds ∧ standsAgainst e = true) := fun hboth =>
      hnot ⟨hboth.1, standsAgainst_of_holds hrefutes.1⟩
    rw [if_neg hnot', if_pos hrefutes']
    exact .propose

theorem inference_covers {r : Relation} (hother : r = .achieves →
      hasOtherAchiever { e with source := a, target := b, states := t } = hasOtherAchiever e) :
    Covers (inference r e) (inference r { e with source := a, target := b, states := t }) := by
  cases r with
  | depends => exact dependency_covers ha hb
  | supports => exact support_covers ha hb
  | achieves => exact achievement_covers ha hb (hother rfl)
  | hinders => exact hindrance_covers ha hb
  | causes => exact causation_covers ha hb
  | conflicts => exact mutualConflict_covers ha hb

end
end Rule

namespace Setting
variable {s : Setting α} {nodes : List (Node α)} {edges : List (Edge α)} {t t' : Table α}
  {h : Hop α} {r : Relation}

/-- A reading that does nothing still does nothing where its source lost partners and its target
lost drivers. -/
theorem quiet_of_drops (hg : s.graph = .ofLists nodes edges) (hother : r = .achieves →
      t'.achievedOtherwise edges h = t.achievedOtherwise edges h)
    (hsource : Option.Rel NodeState.DropsPartners (t.get? h.source) (t'.get? h.source))
    (htarget : Option.Rel NodeState.DropsDrivers (t.get? h.target) (t'.get? h.target))
    (hquiet : s.change? t (h, .builtin r) = none) : s.change? t' (h, .builtin r) = none := by
  rw [Option.eq_none_iff_forall_ne_some]
  intro c hc
  obtain ⟨e', p, he', hp, hwanted, hmoves, -⟩ := Hop.change?_eq_some hc
  obtain ⟨hheard, hsays⟩ := floored_eq_some hp
  have hlook' := Hop.hasOtherAchiever_eq (hg ▸ he')
  obtain ⟨sourceNode, targetNode, a', b', hsn, htn, ha', hb', rfl⟩ := Hop.evidence?_eq_some he'
  rw [ha'] at hsource
  rw [hb'] at htarget
  generalize ha : t.get? h.source = before at hsource
  generalize hb : t.get? h.target = before' at htarget
  obtain @⟨a, _, hsource⟩ := hsource
  obtain @⟨b, _, htarget⟩ := htarget
  -- the evidence before, in which nothing was lost
  let e : Evidence α := ⟨sourceNode, a, targetNode, b, h.edge, s.graph.nodes, s.graph.edges, t,
    s.graph.incoming, s.config, h.reversed⟩
  have he : h.evidence? s.config s.graph t = some e := by
    simp only [Hop.evidence?, hsn, htn, ha, hb]
    rfl
  have hlook := Hop.hasOtherAchiever_eq (hg ▸ he)
  obtain ⟨q, hq, hlogic, hconfidence⟩ := Rule.inference_covers (r := r) (e := e) (t := t')
    hsource htarget (fun hr => hlook'.trans ((hother hr).trans hlook.symm)) p hsays
  have hsays' : floored (Rule.inference r) e = some q := by
    have hheard' : ¬a.confidence < s.config.floor := by
      obtain ⟨-⟩ := hsource
      exact hheard
    exact (if_neg hheard').trans hq
  have hwanted' : q.isUnwanted s.config = false := by
    rw [← hwanted, Proposal.isUnwanted, Proposal.isUnwanted, hlogic]
  have hmoves' : q.isQuiet b = false := by
    obtain ⟨-⟩ := htarget
    rw [← hmoves, Proposal.isQuiet, Proposal.isQuiet, hlogic, hconfidence]
    rfl
  simp only [change?, Hop.change?, he, Rule.builtin, Option.bind_eq_bind, Option.bind_some,
    hsays'] at hquiet
  simp [e, hwanted', hmoves'] at hquiet

end Setting
end ReasonGraph
