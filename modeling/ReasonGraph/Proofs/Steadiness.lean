import ReasonGraph.Proofs.Bounds
import ReasonGraph.Proofs.View

/-! What becomes of a reading that is made twice. Most rules say at once all that they have to say:
read again after its proposal was written, the edge is quiet. Support and weak hindrance are
gradual, they move the target a little further each time. -/

namespace ReasonGraph
variable {α : Type} [Quantity α]

/-- Whether a reading would move the target by a share of the source's confidence, and so might
move it again. -/
def Rule.isGradual (r : Relation) (e : Evidence α) : Bool :=
  match r with
  | .supports => true
  | .hinders => ¬((0.8 : α) < Strength.fraction e.edge.strength ∧ (70.0 : α) < e.source.confidence)
  | _ => false

theorem Rule.inference_spreads {r : Relation} {e : Evidence α} {p : Proposal α}
    (h : inference r e = some p) : p.spreads = true := by
  have hpropose : ∀ {logic confidence reason},
      e.propose logic confidence reason = some p → p.spreads = true := fun h => by cases h; rfl
  have hcontest : ∀ {partners confidence reason},
      e.contest partners confidence reason = some p → p.spreads = true := fun h => by cases h; rfl
  cases r <;> simp only [inference, dependency, support, achievement, hindrance, causation, effect,
    contrapositive, mutualConflict] at h
  all_goals repeat' split at h
  all_goals first
    | exact hpropose h
    | exact hcontest h
    | cases h
  all_goals rfl

structure Evidence.Follows (e' e : Evidence α) (p : Proposal α) : Prop where
  sourceNode : e'.sourceNode = e.sourceNode
  source : e'.source = e.source
  edge : e'.edge = e.edge
  config : e'.config = e.config
  reversed : e'.reversed = e.reversed
  logic : e'.target.logic = p.logic
  confidence : e'.target.confidence = Quantity.clamp p.confidence
  derivedFrom : e'.target.derivedFrom = p.derivedFrom

theorem Evidence.Follows.carry {e e' : Evidence α} {p : Proposal α} (hf : e'.Follows e p) (x : α) :
    e'.carry x = e.carry x := by
  rw [Evidence.carry, Evidence.carry, hf.config]

def IsRest (target : NodeState α) (o : Option (Proposal α)) : Prop :=
  ∀ q, o = some q → q.isQuiet target = true

theorem IsRest.none (target : NodeState α) : IsRest target none := by
  intro q h
  cases h

theorem IsRest.propose {e : Evidence α} {logic : LogicState} {confidence : α}
    (hlogic : e.target.logic = logic)
    (hgap : Quantity.gap e.target.confidence (Quantity.clamp confidence) < 1.0) (reason : String) :
    IsRest e.target (e.propose logic confidence reason) := by
  intro q h
  cases h
  simp [Proposal.isQuiet, hlogic, hgap]

namespace Rule
variable {e e' : Evidence α} {p : Proposal α}

theorem dependency_steady (h : dependency e = some p) (hf : e'.Follows e p) :
    dependency e' = none := by
  rw [dependency] at h
  split at h
  · cases h
  split at h
  · cases h
    have hconflict : e'.target.logic = .conflict := hf.logic
    rw [dependency, if_pos hconflict]
  · rename_i hsource
    split at h
    · cases h
      have hfails : e'.target.logic = .fails := hf.logic
      simp [dependency, hfails, hf.source, hsource]
    · cases h

theorem contrapositive_steady (h : causation e = some p) (hf : e'.Follows e p)
    (hbackward : e.reversed = true) : causation e' = none := by
  rw [causation] at h
  split at h
  · cases h
  rw [contrapositive] at h
  split at h
  · cases h
  split at h
  · cases h
    have hconflict : e'.target.logic = .conflict := hf.logic
    rw [causation, if_pos hconflict]
  split at h
  · cases h
    have hfails : e'.target.logic = .fails := hf.logic
    simp [causation, contrapositive, hfails, hf.reversed, hbackward]
  · cases h

theorem mutualConflict_steady (h : mutualConflict e = some p) (hf : e'.Follows e p) :
    mutualConflict e' = none := by
  rw [mutualConflict] at h
  split at h
  · cases h
  split at h
  · cases h
    have hconflict : e'.target.logic = .conflict := hf.logic
    rw [mutualConflict, if_pos hconflict]
  split at h
  · cases h
    have hfails : e'.target.logic = .fails := hf.logic
    simp [mutualConflict, hfails]
  · cases h

variable [Quantity.IsOrdered α]

theorem raise_steady {x c : α} (hx : Quantity.InRange x) (hholds : e.target.logic = .holds)
    (hraised : e.target.confidence = Quantity.clamp (Quantity.greatest x c)) (reason : String) :
    IsRest e.target (if e.target.confidence < c then
      e.propose .holds (Quantity.greatest e.target.confidence c) reason else none) := by
  split
  · rename_i hlt
    refine .propose hholds ?_ reason
    rw [hraised] at hlt ⊢
    exact Quantity.gap_raised hx hlt
  · exact .none _

theorem effect_steady (hrange : Quantity.InRange e.target.confidence) (h : causation e = some p)
    (hf : e'.Follows e p) (hforward : e.reversed = false) : IsRest e'.target (causation e') := by
  rw [causation] at h
  split at h
  · cases h
  simp only [hforward, Bool.false_eq_true, if_false, effect] at h
  split at h
  · cases h
  rename_i hsource
  split at h
  · cases h
    have hconflict : e'.target.logic = .conflict := hf.logic
    rw [causation, if_pos hconflict]
    exact .none _
  split at h
  · cases h
    have hholds : e'.target.logic = .holds := hf.logic
    have hagain := raise_steady hrange hholds hf.confidence
      (e'.sourceLabel ++ " causes " ++ e'.targetLabel)
    rw [← hf.carry, ← hf.source, ← hf.edge] at hagain
    rw [← hf.source] at hsource
    simpa [causation, effect, hf.reversed, hforward, hsource, hholds] using hagain
  · cases h

theorem achievement_steady (hrange : Quantity.InRange e.target.confidence)
    (h : achievement e = some p) (hf : e'.Follows e p) : IsRest e'.target (achievement e') := by
  rw [achievement] at h
  split at h
  · cases h
  split at h
  · rename_i hsource
    split at h
    · cases h
      have hholds : e'.target.logic = .holds := hf.logic
      have hagain := raise_steady hrange hholds hf.confidence
        (e'.sourceLabel ++ " achieves " ++ e'.targetLabel)
      rw [← hf.carry, ← hf.source, ← hf.edge] at hagain
      rw [← hf.source] at hsource
      simpa [achievement, hsource, hholds] using hagain
    · cases h
  split at h
  · rename_i hsource
    split at h
    · cases h
      have hunknown : e'.target.logic = .unknown := hf.logic
      have hreleased : e'.target.derivedFrom.contains e'.sourceNode.id = false := by
        rw [hf.derivedFrom, hf.sourceNode]
        simp
      rw [← hf.source] at hsource
      simp only [achievement, hunknown, hsource, hreleased]
      exact .none _
    · cases h
  · cases h

theorem hindrance_steady (h : hindrance e = some p) (hf : e'.Follows e p)
    (hstrong : (0.8 : α) < Strength.fraction e.edge.strength ∧ (70.0 : α) < e.source.confidence) :
    IsRest e'.target (hindrance e') := by
  rw [hindrance] at h
  split at h
  · cases h
  rename_i hsource
  cases h
  have hfails : e'.target.logic = .fails := hf.logic
  have hgap : Quantity.gap e'.target.confidence (Quantity.clamp
      (e'.carry (e'.source.confidence * Strength.fraction e'.edge.strength))) < 1.0 := by
    rw [hf.confidence, hf.carry, hf.source, hf.edge]
    exact Quantity.gap_clamp_self _
  have hquiet := IsRest.propose hfails hgap
    (e'.sourceLabel ++ " strongly hinders " ++ e'.targetLabel)
  rw [← hf.source, ← hf.edge] at hstrong
  rw [← hf.source] at hsource
  simpa [hindrance, hfails, not_or.1 hsource, hstrong] using hquiet

theorem inference_steady {r : Relation} (hgradual : isGradual r e = false)
    (hrange : Quantity.InRange e.target.confidence) (h : inference r e = some p)
    (hf : e'.Follows e p) : IsRest e'.target (inference r e') := by
  cases r with
  | depends =>
    have hnone : inference .depends e' = none := dependency_steady h hf
    exact hnone ▸ .none _
  | supports => cases hgradual
  | achieves => exact achievement_steady hrange h hf
  | hinders =>
    have hstrong := of_decide_eq_false hgradual
    exact hindrance_steady h hf (not_not.1 hstrong)
  | causes =>
    cases hreversed : e.reversed with
    | false => exact effect_steady hrange h hf hreversed
    | true =>
      have hnone : inference .causes e' = none := contrapositive_steady h hf hreversed
      exact hnone ▸ .none _
  | conflicts =>
    have hnone : inference .conflicts e' = none := mutualConflict_steady h hf
    exact hnone ▸ .none _

end Rule

def Hop.IsGradual (h : Hop α) (t : Table α) : Prop :=
  h.edge.relation = Relation.supports.name ∨
    h.edge.relation = Relation.hinders.name ∧ ∃ a, t.get? h.source = some a ∧
      ¬((0.8 : α) < Strength.fraction h.edge.strength ∧ (70.0 : α) < a.confidence)

theorem Hop.isGradual_eq_false {h : Hop α} {t : Table α} (hgradual : ¬h.IsGradual t)
    {r : Relation} (hrel : h.edge.relation = r.name) {e : Evidence α} (hedge : e.edge = h.edge)
    (hsource : t.get? h.source = some e.source) : Rule.isGradual r e = false := by
  cases r with
  | supports => exact absurd (.inl hrel) hgradual
  | hinders =>
    refine decide_eq_false fun hnot => hgradual (.inr ⟨hrel, e.source, hsource, ?_⟩)
    rwa [← hedge]
  | _ => rfl

namespace Setting
variable {s : Setting α}

theorem change?_of_rest {h : Hop α} {rule : Rule α} {t : Table α} {e : Evidence α}
    (he : h.evidence? s.config s.graph t = some e) (hrest : IsRest e.target (rule.propagate e)) :
    s.change? t (h, rule) = none := by
  simp only [change?, Hop.change?, he, Option.bind_eq_bind, Option.bind_some]
  cases hp : rule.propagate e with
  | none => rfl
  | some p => simp [hrest p hp]

variable [Quantity.IsOrdered α]

theorem change?_write {l : Ledger α} (hl : l.states.InRange) {h : Hop α} {r : Relation}
    (hrel : h.edge.relation = r.name) (hends : h.source ≠ h.target)
    (hgradual : ¬h.IsGradual l.states) {c : Change α}
    (hc : s.change? l.states (h, .builtin r) = some c) :
    s.change? (l.write c).states (h, .builtin r) = none := by
  obtain ⟨e, p, he, hp, -, -, rfl⟩ := Hop.change?_eq_some hc
  obtain ⟨sourceNode, targetNode, a, b, hsn, htn, ha, hb, he'⟩ := Hop.evidence?_eq_some he
  simp only at hsn htn ha hb he' hp
  obtain ⟨-, hinference⟩ := floored_eq_some hp
  have hedge : e.edge = h.edge := by rw [he']
  have hsource : e.source = a := by rw [he']
  have htarget : e.target = b := by rw [he']
  have hsteady : Rule.isGradual r e = false :=
    h.isGradual_eq_false hgradual hrel hedge (hsource ▸ ha)
  -- what the rule sees next: the entry written in place of the target's
  let next : Evidence α :=
    { e with
      target := (p.change h e.target).entry
      states := (l.write (p.change h e.target)).states }
  have hfollows : next.Follows e p := ⟨rfl, rfl, rfl, rfl, rfl, rfl, rfl, rfl⟩
  have hnext : h.evidence? s.config s.graph (l.write (p.change h e.target)).states = some next := by
    simp only [Hop.evidence?, Ledger.write_get?, Proposal.change_target, if_neg hends.symm, hsn,
      htn, ha, if_true, next, he']
    rfl
  refine change?_of_rest hnext ?_
  have hrange : Quantity.InRange e.target.confidence := htarget ▸ hl _ _ hb
  have hrest := Rule.inference_steady hsteady hrange hinference hfollows
  intro q hq
  exact hrest q (floored_eq_some hq).2

end Setting
end ReasonGraph
