import ReasonGraph.Proofs.Seating
import Mathlib.Data.Prod.Lex
import Mathlib.Data.Rat.Init
import Mathlib.Tactic.NormNum
import Mathlib.Algebra.Order.Field.Rat

/-! What inference relies on about its numbers, beyond what it computes with them. Floats are not a
linear order, since some are not ordered at all, but those between 0 and 100 behave like one: a
float is placed in the order by its class, then by its exponent, then by its mantissa. Confidences
between 0 and 100 stay there, since whatever is written was clamped. -/

namespace ReasonGraph

/-- Comparisons compose, and a number between 0 and 100 has no distance to itself. -/
class Quantity.IsOrdered (α : Type) [Quantity α] : Prop where
  le_of_lt {a b : α} : a < b → a ≤ b
  le_of_not_lt {a b : α} : a ≤ b → ¬a < b → b ≤ a
  lt_of_le_of_lt {a b c : α} : a ≤ b → b < c → a < c
  zero_le_zero : (0.0 : α) ≤ 0.0
  zero_lt_hundred : (0.0 : α) < 100.0
  hundred_le_hundred : (100.0 : α) ≤ 100.0
  gap_self {a : α} : 0.0 ≤ a → a ≤ 100.0 → gap a a < 1.0

instance Quantity.isOrderedRat : Quantity.IsOrdered Rat where
  le_of_lt := Rat.le_of_lt
  le_of_not_lt _ := Rat.not_lt.1
  lt_of_le_of_lt := lt_of_le_of_lt
  zero_le_zero := Rat.le_refl
  zero_lt_hundred := by norm_num
  hundred_le_hundred := Rat.le_refl
  gap_self _ _ := by norm_num [Quantity.gap]

namespace FloatOrder
open Float.Model

def rank : UnpackedFloat → Option (ℤ ×ₗ ℤ ×ₗ ℤ)
  | .notANumber => none
  | .infinity .negative => some (toLex (-2, toLex (0, 0)))
  | .finite .negative m e _ => some (toLex (-1, toLex (-e, -(m : ℤ))))
  | .zero _ => some (toLex (0, toLex (0, 0)))
  | .finite .positive m e _ => some (toLex (1, toLex (e, (m : ℤ))))
  | .infinity .positive => some (toLex (2, toLex (0, 0)))

theorem unpacked_lt_iff {a b : UnpackedFloat} :
    a.lt b = true ↔ ∃ x y, rank a = some x ∧ rank b = some y ∧ x < y := by
  rcases a with (_ | _) | _ | (_ | _) | ⟨_ | _, m, e, hm⟩ <;>
    rcases b with (_ | _) | _ | (_ | _) | ⟨_ | _, m', e', hm'⟩ <;>
      dsimp only [UnpackedFloat.lt, UnpackedFloat.compare, rank] <;>
      simp [Prod.Lex.toLex_lt_toLex, Ordering.then_eq_lt, Ordering.then_eq_gt, Int.compare_eq_lt,
        Int.compare_eq_gt, Nat.compare_eq_lt, Nat.compare_eq_gt]
  all_goals first | omega | decide

theorem unpacked_le_iff {a b : UnpackedFloat} :
    a.le b = true ↔ ∃ x y, rank a = some x ∧ rank b = some y ∧ x ≤ y := by
  rcases a with (_ | _) | _ | (_ | _) | ⟨_ | _, m, e, hm⟩ <;>
    rcases b with (_ | _) | _ | (_ | _) | ⟨_ | _, m', e', hm'⟩ <;>
      dsimp only [UnpackedFloat.le, UnpackedFloat.compare, rank] <;>
      simp [Prod.Lex.toLex_le_toLex, Ordering.isLE_iff_eq_lt_or_eq_eq,
        Ordering.isGE_iff_eq_gt_or_eq_eq, Ordering.then_eq_lt, Ordering.then_eq_gt,
        Ordering.then_eq_eq, Int.compare_eq_lt, Int.compare_eq_gt, Nat.compare_eq_lt,
        Nat.compare_eq_gt]
  all_goals first | omega | decide

theorem lt_iff {a b : Float} : a < b ↔ ∃ x y, rank a.toModel.unpack = some x ∧
    rank b.toModel.unpack = some y ∧ x < y := by
  rw [← unpacked_lt_iff]
  exact decide_eq_true_iff

theorem le_iff {a b : Float} : a ≤ b ↔ ∃ x y, rank a.toModel.unpack = some x ∧
    rank b.toModel.unpack = some y ∧ x ≤ y := by
  rw [← unpacked_le_iff]
  exact decide_eq_true_iff

theorem unpacked_sub_self {a : UnpackedFloat} (hnumber : a ≠ .notANumber)
    (hfinite : ∀ s, a ≠ .infinity s) : UnpackedFloat.sub .binary64 a a = .zero .positive := by
  cases a with
  | notANumber => exact absurd rfl hnumber
  | infinity s => exact absurd rfl (hfinite s)
  | zero s => cases s <;> rfl
  | finite s m e hm =>
    dsimp only [UnpackedFloat.sub]
    rw [Int.sub_self]
    rfl

theorem sub_self {a : Float} (hzero : 0.0 ≤ a) (hhundred : a ≤ 100.0) :
    a - a = .ofModel (pack (.zero .positive)) := by
  have hlow : (0.0 : Float).toModel.unpack.le a.toModel.unpack = true := of_decide_eq_true hzero
  have hhigh : a.toModel.unpack.le (100.0 : Float).toModel.unpack = true :=
    of_decide_eq_true hhundred
  have hsub := unpacked_sub_self (a := a.toModel.unpack) (fun h => ?_) fun s h => ?_
  · exact congrArg (fun u => Float.ofModel (pack u)) hsub
  · rw [h] at hhigh
    cases hhigh
  · rw [h] at hlow hhigh
    cases s with
    | negative => exact absurd hlow (by decide +kernel)
    | positive => exact absurd hhigh (by decide +kernel)

end FloatOrder

instance Quantity.isOrderedFloat : Quantity.IsOrdered Float where
  le_of_lt h := by
    obtain ⟨x, y, hx, hy, hxy⟩ := FloatOrder.lt_iff.1 h
    exact FloatOrder.le_iff.2 ⟨x, y, hx, hy, hxy.le⟩
  le_of_not_lt h hnot := by
    obtain ⟨x, y, hx, hy, -⟩ := FloatOrder.le_iff.1 h
    have hle : y ≤ x := not_lt.1 fun hlt => hnot (FloatOrder.lt_iff.2 ⟨x, y, hx, hy, hlt⟩)
    exact FloatOrder.le_iff.2 ⟨y, x, hy, hx, hle⟩
  lt_of_le_of_lt hab hbc := by
    obtain ⟨x, y, hx, hy, hxy⟩ := FloatOrder.le_iff.1 hab
    obtain ⟨y', z, hy', hz, hyz⟩ := FloatOrder.lt_iff.1 hbc
    obtain rfl : y = y' := Option.some.inj (hy.symm.trans hy')
    exact FloatOrder.lt_iff.2 ⟨x, z, hx, hz, hxy.trans_lt hyz⟩
  zero_le_zero := by decide +kernel
  zero_lt_hundred := by decide +kernel
  hundred_le_hundred := by decide +kernel
  gap_self hzero hhundred := by
    rw [Quantity.gap, FloatOrder.sub_self hzero hhundred]
    decide +kernel

/-- Moreover nothing is below itself. -/
class Quantity.IsStrict (α : Type) [Quantity α] : Prop extends Quantity.IsOrdered α where
  lt_irrefl (a : α) : ¬a < a

instance Quantity.isStrictRat : Quantity.IsStrict Rat where
  lt_irrefl _ := Rat.lt_irrefl

instance Quantity.isStrictFloat : Quantity.IsStrict Float where
  lt_irrefl a h := by
    obtain ⟨x, y, hx, hy, hxy⟩ := FloatOrder.lt_iff.1 h
    obtain rfl : x = y := Option.some.inj (hx.symm.trans hy)
    exact lt_irrefl x hxy

namespace Quantity
variable {α : Type} [Quantity α]

def InRange (x : α) : Prop := 0.0 ≤ x ∧ x ≤ 100.0

instance (x : α) : Decidable (InRange x) := inferInstanceAs (Decidable (_ ∧ _))

theorem InRange.not_lt_zero [IsStrict α] {x : α} (h : InRange x) : ¬x < 0.0 :=
  fun hx => IsStrict.lt_irrefl _ (IsOrdered.lt_of_le_of_lt h.1 hx)

variable [IsOrdered α]

theorem clamp_cases (x : α) :
    (clamp x = x ∧ 0.0 < x ∧ x < 100.0) ∨ (clamp x = 0.0 ∧ ¬0.0 < x) ∨
      (clamp x = 100.0 ∧ ¬x < 100.0) := by
  have hzero := IsOrdered.zero_lt_hundred (α := α)
  by_cases hlow : 0.0 < x
  · by_cases hhigh : x < 100.0
    · exact .inl ⟨by simp [clamp, least, greatest, hlow, hhigh], hlow, hhigh⟩
    · exact .inr (.inr ⟨by simp [clamp, least, greatest, hlow, hhigh], hhigh⟩)
  · exact .inr (.inl ⟨by simp [clamp, least, greatest, hlow, hzero], hlow⟩)

theorem clamp_inRange (x : α) : InRange (clamp x) := by
  have hzero := IsOrdered.zero_lt_hundred (α := α)
  rcases clamp_cases x with ⟨h, hlow, hhigh⟩ | ⟨h, -⟩ | ⟨h, -⟩ <;> rw [h]
  · exact ⟨IsOrdered.le_of_lt hlow, IsOrdered.le_of_lt hhigh⟩
  · exact ⟨IsOrdered.zero_le_zero, IsOrdered.le_of_lt hzero⟩
  · exact ⟨IsOrdered.le_of_lt hzero, IsOrdered.hundred_le_hundred⟩

theorem gap_clamp_self (x : α) : gap (clamp x) (clamp x) < 1.0 :=
  IsOrdered.gap_self (clamp_inRange x).1 (clamp_inRange x).2

theorem lt_of_clamp_lt {x c : α} (hx : InRange x) (h : clamp x < c) : x < c := by
  rcases clamp_cases x with ⟨hclamp, -⟩ | ⟨hclamp, hlow⟩ | ⟨hclamp, -⟩ <;> rw [hclamp] at h
  · exact h
  · exact IsOrdered.lt_of_le_of_lt (IsOrdered.le_of_not_lt hx.1 hlow) h
  · exact IsOrdered.lt_of_le_of_lt hx.2 h

/-- A number raised to another and clamped is not moved by raising it there again. -/
theorem gap_raised {x c : α} (hx : InRange x) (h : clamp (greatest x c) < c) :
    gap (clamp (greatest x c)) (clamp (greatest (clamp (greatest x c)) c)) < 1.0 := by
  by_cases hlt : x < c
  · have hraised : greatest x c = c := if_pos hlt
    rw [hraised] at h ⊢
    rw [greatest, if_pos h]
    exact gap_clamp_self c
  · have hkept : greatest x c = x := if_neg hlt
    rw [hkept] at h
    exact absurd (lt_of_clamp_lt hx h) hlt

end Quantity

variable {α : Type} [Quantity α]

def Table.InRange (t : Table α) : Prop :=
  ∀ id s, t.get? id = some s → Quantity.InRange s.confidence

structure Node.InRange (nodes : List (Node α)) (overrides : Overrides α) : Prop where
  static : ∀ n ∈ nodes, Quantity.InRange n.confidence
  given : ∀ id o confidence, overrides.get? id = some (.ok o) → o.confidence = some confidence →
    Quantity.InRange confidence

namespace Table

theorem InRange.empty : Table.InRange (∅ : Table α) := by
  intro id s h
  cases h

theorem InRange.insert {t : Table α} (ht : t.InRange) {id : String} {s : NodeState α}
    (hs : Quantity.InRange s.confidence) : Table.InRange (t.insert id s) := by
  intro j s' h
  rw [OrderedMap.get?_insert] at h
  split at h
  · cases h
    exact hs
  · exact ht j s' h

theorem InRange.complete {nodes : List (Node α)} {t : Table α} (ht : t.InRange)
    (hnodes : ∀ n ∈ nodes, Quantity.InRange n.confidence) : (t.complete nodes).InRange := by
  unfold Table.complete
  induction nodes generalizing t with
  | nil => exact ht
  | cons n rest ih =>
    rw [List.foldl_cons]
    refine ih ?_ fun n' hn' => hnodes n' (List.mem_cons_of_mem n hn')
    split
    · exact ht
    · exact ht.insert (hnodes n List.mem_cons_self)

end Table

theorem Node.seed_confidence {n : Node α} {config : Config α} {o : Override α} {s : NodeState α}
    (h : n.seed config o = .ok s) : s.confidence = o.confidence.getD n.confidence := by
  rw [seed_eq_ok h]

theorem Node.InRange.seedFrom {nodes : List (Node α)} {overrides : Overrides α}
    (hrange : Node.InRange nodes overrides) {n : Node α} (hn : n ∈ nodes) {config : Config α}
    {s : NodeState α} (h : n.seedFrom config overrides = .ok s) :
    Quantity.InRange s.confidence := by
  have hstatic := hrange.static n hn
  rw [Node.seedFrom] at h
  split at h
  · rw [Node.seed_confidence h]
    exact hstatic
  · rename_i o ho
    rw [Node.seed_confidence h]
    cases hc : o.confidence with
    | none => exact hstatic
    | some confidence => exact hrange.given n.id o confidence ho hc
  · cases h

theorem Node.InRange.seed {nodes : List (Node α)} {overrides : Overrides α}
    (hrange : Node.InRange nodes overrides) {config : Config α} {ns : List (Node α)}
    (hns : ∀ n ∈ ns, n ∈ nodes) {t : Table α} (ht : t.InRange) :
    (Table.seed config overrides ns t).1.InRange :=
  Table.seed_induction (fun _ n hn _ ht hs => ht.insert (hrange.seedFrom (hns n hn) hs)) ht

theorem Engine.prepare_inRange (e : Engine α) {nodes : List (Node α)} {overrides : Overrides α}
    (hrange : Node.InRange nodes overrides) :
    (e.prepare nodes overrides).1.ledger.states.InRange := by
  rw [prepare_states]
  exact hrange.seed (fun _ => Snapshot.mem_values_nodeMap) .empty

theorem Engine.opening_inRange {e : Engine α} (he : e.ledger.states.InRange) {nodes : List (Node α)}
    (hnodes : ∀ n ∈ nodes, Quantity.InRange n.confidence) (id : String) (logic : LogicState) :
    (e.opening id logic nodes).states.InRange := by
  have hcomplete : (e.complete nodes).ledger.states.InRange :=
    he.complete fun n hn => hnodes n (Snapshot.mem_values_nodeMap hn)
  simp only [opening]
  split
  · rename_i n current _ hcurrent
    split
    · exact hcomplete
    · exact hcomplete.insert (hcomplete id current hcurrent)
  · exact hcomplete

variable [Quantity.IsOrdered α]

theorem Setting.after_inRange (s : Setting α) {l : Ledger α} (hl : l.states.InRange)
    (hops : List (Hop α × Rule α)) : (s.after l hops).states.InRange := by
  refine s.after_induction (P := fun l => l.states.InRange) (fun l h _ c hl hc => ?_) hl
  obtain ⟨e, p, -, -, -, -, rfl⟩ := Hop.change?_eq_some hc
  exact hl.insert (Quantity.clamp_inRange p.confidence)

namespace Engine

theorem run_inRange (e : Engine α) {nodes : List (Node α)} (edges : List (Edge α))
    {overrides : Overrides α} (hrange : Node.InRange nodes overrides) :
    (e.run nodes edges overrides).1.ledger.states.InRange := by
  rcases hseed : e.seed (Snapshot.nodeMap nodes) overrides with ⟨seeded, rejection⟩
  have hseeded : seeded.ledger.states.InRange := by
    rw [seed_eq] at hseed
    rw [← (Prod.mk.inj hseed).1]
    exact hrange.seed (fun _ => Snapshot.mem_values_nodeMap) .empty
  cases rejection with
  | some r => rw [run_of_rejected hseed]; exact hseeded
  | none =>
    rw [run_of_seeded hseed]
    simp only
    rw [Setting.settle_fullPass_ledger]
    refine Setting.after_inRange _ ?_ _
    rw [noteCycles_states]
    exact hseeded

end Engine
end ReasonGraph
