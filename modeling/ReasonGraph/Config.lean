import ReasonGraph.Quantity

/-! What a caller tunes: how many passes a call may take, how much confidence is lost on
every edge, below which confidence a source stays silent, and three switches. -/

namespace ReasonGraph

structure Config (α : Type) where
  passes : Nat
  decay : α
  floor : α
  detectsConflicts : Bool
  detectsCycles : Bool
  checksKinds : Bool

/-- A hundred passes, no loss, no floor, everything switched on. -/
def Config.standard {α : Type} [Quantity α] : Config α := ⟨100, 1.0, 0.0, true, true, true⟩

end ReasonGraph
