import ReasonGraph.Proofs.Bounds
import Mathlib

/-! Confidences as a line. Between 0 and 100 any two numbers compare, and above 0 two that are level are
one number: a float is given by its class, its exponent and its mantissa, and only the two zeros share a
place. What is written was clamped, which makes one zero of the two, so whatever is written of two
numbers, which of them came first does not show. -/

namespace ReasonGraph

/-- Numbers between 0 and 100 compare with each other, and of those above 0 no two are level. -/
class Quantity.IsLinear (α : Type) [Quantity α] : Prop extends Quantity.IsStrict α where
  total {a b : α} : InRange a → InRange b → a ≤ b ∨ b ≤ a
  antisymm {a b : α} : 0.0 < a → a ≤ b → b ≤ a → a = b

instance Quantity.isLinearRat : Quantity.IsLinear Rat where
  total {a b} _ _ := le_total a b
  antisymm _ := le_antisymm

namespace FloatOrder
open Float.Model

theorem rank_injective {a b : UnpackedFloat} {x : ℤ ×ₗ ℤ ×ₗ ℤ} (ha : rank a = some x)
    (hb : rank b = some x) (hx : toLex (0, toLex (0, 0)) < x) : a = b := by
  have hsame : rank a = rank b := ha.trans hb.symm
  rcases a with (_ | _) | _ | (_ | _) | ⟨_ | _, m, e, hm⟩ <;>
    rcases b with (_ | _) | _ | (_ | _) | ⟨_ | _, m', e', hm'⟩ <;>
      simp [rank] at hsame <;> try rfl
  case zero.negative.zero.positive | zero.positive.zero.negative =>
    cases ha
    exact absurd hx (lt_irrefl _)
  case finite.negative.finite.negative | finite.positive.finite.positive =>
    obtain ⟨rfl, rfl⟩ := hsame
    rfl

theorem unpack_injective {a b : Float} (h : a.toModel.unpack = b.toModel.unpack) : a = b := by
  have hbits := (UnpackedFloat.unpack_inj_of_valid a.toModel.valid b.toModel.valid).1 h
  exact Float.toBits_inj.1 (UInt64.toBitVec_inj.1 hbits)

end FloatOrder

instance Quantity.isLinearFloat : Quantity.IsLinear Float where
  total ha hb := by
    obtain ⟨-, x, -, hx, -⟩ := FloatOrder.le_iff.1 ha.1
    obtain ⟨-, y, -, hy, -⟩ := FloatOrder.le_iff.1 hb.1
    rcases le_total x y with h | h
    · exact .inl (FloatOrder.le_iff.2 ⟨x, y, hx, hy, h⟩)
    · exact .inr (FloatOrder.le_iff.2 ⟨y, x, hy, hx, h⟩)
  antisymm hpositive hab hba := by
    obtain ⟨x, y, hx, hy, hxy⟩ := FloatOrder.le_iff.1 hab
    obtain ⟨y', x', hy', hx', hyx⟩ := FloatOrder.le_iff.1 hba
    obtain rfl : x = x' := Option.some.inj (hx.symm.trans hx')
    obtain rfl : y = y' := Option.some.inj (hy.symm.trans hy')
    obtain ⟨zero, x', hzero, hx', hbelow⟩ := FloatOrder.lt_iff.1 hpositive
    obtain rfl : x = x' := Option.some.inj (hx.symm.trans hx')
    have hplace : FloatOrder.rank (0.0 : Float).toModel.unpack =
        some (toLex (0, toLex (0, 0))) := by decide +kernel
    obtain rfl := Option.some.inj (hplace.symm.trans hzero)
    obtain rfl : x = y := le_antisymm hxy hyx
    exact FloatOrder.unpack_injective (FloatOrder.rank_injective hx hy hbelow)

namespace Quantity
variable {α : Type} [Quantity α] [IsLinear α] {x y : α}

theorem clamp_clamp (x : α) : clamp (clamp x) = clamp x := by
  have hzero := IsOrdered.zero_lt_hundred (α := α)
  rcases clamp_cases x with ⟨h, -⟩ | ⟨h, -⟩ | ⟨h, -⟩ <;> rw [h]
  · exact h
  · simp [clamp, least, greatest, IsStrict.lt_irrefl, hzero]
  · simp [clamp, least, greatest, IsStrict.lt_irrefl, hzero]

theorem clamp_congr (hx : InRange x) (hy : InRange y) (hxy : ¬x < y) (hyx : ¬y < x) :
    clamp x = clamp y := by
  have hle : x ≤ y ∧ y ≤ x := by
    rcases IsLinear.total hx hy with h | h
    · exact ⟨h, IsOrdered.le_of_not_lt h hxy⟩
    · exact ⟨IsOrdered.le_of_not_lt h hyx, h⟩
  by_cases hpositive : 0.0 < x
  · rw [IsLinear.antisymm hpositive hle.1 hle.2]
  · have hzero := IsOrdered.zero_lt_hundred (α := α)
    have hneither : ¬0.0 < y := fun h =>
      hxy (IsOrdered.lt_of_le_of_lt (IsOrdered.le_of_not_lt hx.1 hpositive) h)
    simp [clamp, least, greatest, hpositive, hneither, hzero]

theorem clamp_least (hx : InRange x) (hy : InRange y) :
    clamp (least (clamp (least x y)) x) = clamp (least y x) := by
  by_cases hyx : y < x
  · have hxy : ¬x < y := fun h =>
      IsStrict.lt_irrefl x (IsOrdered.lt_of_le_of_lt (IsOrdered.le_of_lt h) hyx)
    have habove : ¬x < clamp y := by
      rcases clamp_cases y with ⟨h, -⟩ | ⟨h, -⟩ | ⟨h, hhigh⟩ <;> rw [h]
      · exact hxy
      · exact hx.not_lt_zero
      · exact fun hlow => hhigh (IsOrdered.lt_of_le_of_lt (IsOrdered.le_of_lt hyx) hlow)
    rw [least, least, if_pos hyx, if_neg habove, least, if_neg hxy, clamp_clamp]
  · have hkept : clamp (least (clamp x) x) = clamp x := by
      rcases least_eq_or (clamp x) x with h | h <;> rw [h]
      exact clamp_clamp x
    rw [least.eq_def x y, if_neg hyx, hkept, least]
    split
    · rfl
    · rename_i hxy
      exact clamp_congr hx hy hxy hyx

theorem clamp_lt_iff {c : α} (hx : InRange x) : clamp x < c ↔ x < c := by
  refine ⟨lt_of_clamp_lt hx, fun h => ?_⟩
  rcases clamp_cases x with ⟨hclamp, -⟩ | ⟨hclamp, -⟩ | ⟨hclamp, hhigh⟩ <;> rw [hclamp]
  · exact h
  · exact IsOrdered.lt_of_le_of_lt hx.1 h
  · exact IsOrdered.lt_of_le_of_lt (IsOrdered.le_of_not_lt hx.2 hhigh) h

theorem clamp_least_lt_iff {floor : α} (hx : InRange x) (hy : InRange y) (hfloor : ¬x < floor) :
    clamp (least x y) < floor ↔ y < floor := by
  rw [least]
  split
  · exact clamp_lt_iff hy
  · rename_i hyx
    have hle : x ≤ y := (IsLinear.total hx hy).elim id fun h => IsOrdered.le_of_not_lt h hyx
    rw [clamp_lt_iff hx]
    exact ⟨fun h => absurd h hfloor, fun h => absurd (IsOrdered.lt_of_le_of_lt hle h) hfloor⟩

end Quantity

end ReasonGraph
