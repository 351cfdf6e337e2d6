import ReasonGraph.Rule.Strict
import ReasonGraph.Rule.Graded
import ReasonGraph.Rule.Achievement

/-! The rules of the six known relations. -/

namespace ReasonGraph.Rule
variable {α : Type} [Quantity α]

def inference : Relation → Evidence α → Option (Proposal α)
  | .depends => dependency
  | .supports => support
  | .achieves => achievement
  | .hinders => hindrance
  | .causes => causation
  | .conflicts => mutualConflict

/-- Whether a relation's rule takes a confidence across the edge. -/
def weighing : Relation → Evidence α → Bool
  | .depends, e => e.source.logic = .fails ∧ e.target.logic ≠ .fails ∧ e.target.logic ≠ .conflict
  | .supports, e =>
    e.target.logic ≠ .conflict ∧ (e.source.logic = .holds ∨ e.source.logic = .fails)
  | .achieves, e | .hinders, e => e.source.logic = .holds ∧ e.target.logic ≠ .conflict
  | .causes, e =>
    if e.reversed then e.source.logic = .fails ∧ e.target.logic = .unknown
    else e.source.logic = .holds ∧ e.target.logic ≠ .fails ∧ e.target.logic ≠ .conflict
  | .conflicts, e => e.source.logic = .holds ∧ e.target.logic = .unknown

theorem inference_withDecay {r : Relation} {e : Evidence α} (decay : α)
    (h : weighing r e = false) : inference r (e.withDecay decay) = inference r e := by
  obtain ⟨sn, s, tn, t, edge, nodes, edges, states, incoming, config, reversed⟩ := e
  obtain ⟨sid, sl, sc, sd, sp⟩ := s
  obtain ⟨tid, tl, tc, td, tp⟩ := t
  cases r <;> cases sl <;> cases tl <;> cases reversed <;>
    first | rfl | exact absurd h (by simp [weighing])

def isMutual : Relation → Bool
  | .causes | .conflicts => true
  | _ => false

def familyName : Relation → String
  | .depends => "DependsRule"
  | .supports => "SupportsRule"
  | .achieves => "AchievesRule"
  | .hinders => "HindersRule"
  | .causes => "CausesRule"
  | .conflicts => "ConflictsRule"

def title : Relation → String
  | .depends => "dependency"
  | .supports => "support"
  | .achieves => "achievement"
  | .hinders => "hindrance"
  | .causes => "causation"
  | .conflicts => "mutual conflict"

def summary : Relation → String
  | .depends => "If the node depended on is false, the dependent cannot be true"
  | .supports => "A true raises B's confidence; A false lowers it"
  | .achieves => "If the action holds, its goal or constraint is satisfied"
  | .hinders => "A true lowers B's confidence, or makes B false when strong"
  | .causes => "A true makes B true; B false makes A false"
  | .conflicts => "A true makes B false; A and B cannot both be true"

def builtin (r : Relation) : Rule α where
  relation := .member (.relation r)
  family := familyName r
  name := title r
  description := summary r
  bidirectional := isMutual r
  propagate := floored (inference r)
  weighs := weighing r

end ReasonGraph.Rule
