/-! Confidences, strengths and decay are one kind of number. Inference uses the four
operations, the two comparisons and decimal literals, and nothing else, so one text of the
rules runs on binary floats and is exact on rationals. A comparison with a number that is
not ordered, such as the float NaN, is simply false; the choices below say which argument
is then kept. -/

namespace ReasonGraph

class Quantity (α : Type) extends
    Add α, Sub α, Mul α, Div α, LT α, LE α, OfScientific α where
  decideLt : DecidableLT α
  decideLe : DecidableLE α

instance Quantity.instDecidableLt {α : Type} [Quantity α] (a b : α) : Decidable (a < b) := Quantity.decideLt a b
instance Quantity.instDecidableLe {α : Type} [Quantity α] (a b : α) : Decidable (a ≤ b) := Quantity.decideLe a b

instance Quantity.instFloat : Quantity Float where
  decideLt := Float.decLt
  decideLe := Float.decLe

instance Quantity.instRat : Quantity Rat where
  decideLt := inferInstance
  decideLe := inferInstance

namespace Quantity
variable {α : Type} [Quantity α]

/-- The smaller of two, the first unless the second is strictly below it. -/
def least (x y : α) : α := if y < x then y else x

def greatest (x y : α) : α := if x < y then y else x

theorem least_eq_or (x y : α) : least x y = x ∨ least x y = y := by
  unfold least; split
  · exact .inr rfl
  · exact .inl rfl

/-- Brings a number into the range 0 to 100. An unordered number becomes 0. -/
def clamp (x : α) : α := least 100.0 (greatest 0.0 x)

def gap (x y : α) : α := if x - y < 0.0 then 0.0 - (x - y) else x - y

end Quantity
end ReasonGraph
