import ReasonGraph.Quantity

/-! The four verdicts on a statement, how a bare confidence is read as one, and how each is
shown to a user. -/

namespace ReasonGraph

inductive LogicState where
  | holds
  | fails
  | unknown
  | conflict
deriving DecidableEq, Inhabited

namespace LogicState

def all : List LogicState := [holds, fails, unknown, conflict]

def name : LogicState → String
  | holds => "true"
  | fails => "false"
  | unknown => "unknown"
  | conflict => "conflict"

def ofName? (s : String) : Option LogicState := all.find? (·.name = s)

theorem ofName?_name (s : LogicState) : ofName? s.name = some s := by
  cases s <;> decide

/-- At 80 and above a statement is taken to hold, at 20 and below to fail. -/
def infer {α : Type} [Quantity α] (confidence : α) : LogicState :=
  if (80.0 : α) ≤ confidence then holds
  else if confidence ≤ 20.0 then fails
  else unknown

theorem infer_ne_conflict {α : Type} [Quantity α] (confidence : α) :
    infer confidence ≠ conflict := by
  unfold infer
  split
  · simp
  · split <;> simp

def label : LogicState → String
  | holds => "True"
  | fails => "False"
  | unknown => "Unknown"
  | conflict => "Conflict"

def color : LogicState → String
  | holds => "#22c55e"
  | fails => "#ef4444"
  | unknown => "#6b7280"
  | conflict => "#f59e0b"

end LogicState
end ReasonGraph
