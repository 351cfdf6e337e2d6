import ReasonGraph.Quantity

/-! An edge's strength was once written as a percentage and is now a multiplier; a number
above 2 can only be the former. A relation reads strength either as a multiplier, where a
percentage counts as 1, or as a fraction of full strength, where it keeps its meaning. -/

namespace ReasonGraph.Strength
variable {α : Type} [Quantity α]

def isPercentage (strength : α) : Bool := (2.0 : α) < strength

def multiplier (strength : α) : α := if isPercentage strength then 1.0 else strength

def fraction (strength : α) : α :=
  if isPercentage strength then strength / 100.0 else strength

theorem multiplier_of_isPercentage {s : α} (h : isPercentage s = true) :
    multiplier s = 1.0 := by simp [multiplier, h]

theorem fraction_of_isPercentage {s : α} (h : isPercentage s = true) :
    fraction s = s / 100.0 := by simp [fraction, h]

theorem fraction_of_not_isPercentage {s : α} (h : isPercentage s = false) :
    fraction s = s := by simp [fraction, h]

end ReasonGraph.Strength
