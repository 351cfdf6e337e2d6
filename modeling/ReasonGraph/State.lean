import ReasonGraph.OrderedMap
import ReasonGraph.LogicState

/-! The state of a node: its verdict, how confident the verdict is, which nodes drove it and,
in a conflict, with whom. A state that nothing drove was asserted. When a state was last written is
not kept: no rule and no call looks at a clock. -/

namespace ReasonGraph

structure NodeState (α : Type) where
  nodeId : String
  logic : LogicState
  confidence : α
  derivedFrom : List String
  partners : Option (List String)
deriving DecidableEq

abbrev Table (α : Type) := OrderedMap (NodeState α)

structure Override (α : Type) where
  logic : Option LogicState
  confidence : Option α
  derivedFrom : Option (List String)

def Override.none {α : Type} : Override α := ⟨.none, .none, .none⟩

/-- Any state can be given back as an override; its partners are then forgotten. -/
def NodeState.toOverride {α : Type} (s : NodeState α) : Override α :=
  ⟨some s.logic, some s.confidence, some s.derivedFrom⟩

def NodeState.isAsserted {α : Type} (s : NodeState α) : Bool := s.derivedFrom.isEmpty

def addDriver (drivers : List String) (id : String) : List String :=
  if id ∈ drivers then drivers else drivers ++ [id]

theorem mem_addDriver {drivers : List String} {id x : String} :
    x ∈ addDriver drivers id ↔ x ∈ drivers ∨ x = id := by
  unfold addDriver
  split
  · rename_i h
    constructor
    · exact .inl
    · rintro (hx | rfl)
      · exact hx
      · exact h
  · simp

theorem nodup_addDriver {drivers : List String} {id : String} (h : drivers.Nodup) :
    (addDriver drivers id).Nodup := by
  unfold addDriver
  split
  · exact h
  · rename_i hid
    rw [List.nodup_append]
    refine ⟨h, by simp, fun a ha b hb hab => hid ?_⟩
    simp only [List.mem_singleton] at hb
    exact hb ▸ hab ▸ ha

end ReasonGraph
