import ReasonGraph.LogicState

/-! A reasoning graph: statements of six kinds, joined by relations that carry a strength.
A relation is a plain tag, so a graph may use relations beyond the six known ones. -/

namespace ReasonGraph

inductive NodeKind where
  | goal
  | action
  | fact
  | assumption
  | constraint
  | conclusion
deriving DecidableEq, Inhabited

namespace NodeKind

def all : List NodeKind := [goal, action, fact, assumption, constraint, conclusion]

def name : NodeKind → String
  | goal => "goal"
  | action => "action"
  | fact => "fact"
  | assumption => "assumption"
  | constraint => "constraint"
  | conclusion => "conclusion"

def ofName? (s : String) : Option NodeKind := all.find? (·.name = s)

theorem ofName?_name (k : NodeKind) : ofName? k.name = some k := by
  cases k <;> decide

/-- The verdicts that may be asserted of a kind: a fact holds or fails, only a conclusion
may be asserted to be in conflict. -/
def admits : NodeKind → LogicState → Bool
  | conclusion, _ => true
  | fact, .unknown => false
  | _, .conflict => false
  | _, _ => true

theorem admits_of_holds (k : NodeKind) : k.admits .holds = true := by cases k <;> rfl

theorem admits_of_fails (k : NodeKind) : k.admits .fails = true := by cases k <;> rfl

end NodeKind

inductive Relation where
  | depends
  | supports
  | achieves
  | hinders
  | causes
  | conflicts
deriving DecidableEq, Inhabited

namespace Relation

def all : List Relation := [depends, supports, achieves, hinders, causes, conflicts]

def name : Relation → String
  | depends => "depends"
  | supports => "supports"
  | achieves => "achieves"
  | hinders => "hinders"
  | causes => "causes"
  | conflicts => "conflicts"

def ofName? (s : String) : Option Relation := all.find? (·.name = s)

theorem ofName?_name (r : Relation) : ofName? r.name = some r := by
  cases r <;> decide

theorem name_injective {r s : Relation} (h : r.name = s.name) : r = s := by
  have hr := ofName?_name r
  rw [h, ofName?_name s] at hr
  exact (Option.some.inj hr).symm

end Relation

structure Node (α : Type) where
  id : String
  kind : NodeKind
  title : String
  confidence : α

def Node.label {α : Type} (n : Node α) : String := if n.title = "" then n.id else n.title

structure Edge (α : Type) where
  id : String
  source : String
  target : String
  relation : String
  strength : α

end ReasonGraph
