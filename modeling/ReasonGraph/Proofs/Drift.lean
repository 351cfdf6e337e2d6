import ReasonGraph.Proofs.Growth

/-! Which way an edge pulls, when numbers are exact. A rule other than that of achievement moves the
verdict of its target up, or it lets the verdict stand and takes the confidence up, or down, or to
one number, as the edge and the state of its source tell. Two edges into one node pull the same way
unless they oppose each other. The rule of achievement may take a verdict back, but only from a
target that has the failing source among its drivers, and the source is then no driver any more. -/

namespace ReasonGraph

section
variable {α : Type} [Quantity α]

/-- One edge can undo over and over what another does to their target. -/
inductive Edge.Opposes (a b : Edge α) : Prop
  /-- What one supporter or cause adds another supporter takes off again. -/
  | support (htarget : a.target = b.target) (ha : a.relation = Relation.supports.name)
    (hb : b.relation = Relation.supports.name ∨ b.relation = Relation.causes.name)
    (hsource : a.source ≠ b.source)
  /-- A hindrance takes off what support, causation or achievement add. -/
  | hindrance (htarget : a.target = b.target) (ha : a.relation = Relation.hinders.name)
    (hb : b.relation = Relation.supports.name ∨ b.relation = Relation.causes.name ∨
      b.relation = Relation.achieves.name)
  /-- A strong hindrance sets the confidence, and another one sets it otherwise or lowers it. -/
  | rivalry (htarget : a.target = b.target) (ha : a.relation = Relation.hinders.name)
    (hb : b.relation = Relation.hinders.name) (hstrong : 0.8 < Strength.fraction a.strength)
    (hother : a.source ≠ b.source ∨ a.strength ≠ b.strength)
  /-- Achievement makes hold, or takes back, what support lowers or dependency refutes. -/
  | achievement (htarget : a.target = b.target) (ha : a.relation = Relation.achieves.name)
    (hb : b.relation = Relation.supports.name ∨ b.relation = Relation.depends.name)

theorem Edge.opposes_iff {a b : Edge α} : a.Opposes b ↔ a.target = b.target ∧
    (a.relation = Relation.supports.name ∧
        (b.relation = Relation.supports.name ∨ b.relation = Relation.causes.name) ∧
        a.source ≠ b.source ∨
      a.relation = Relation.hinders.name ∧
        (b.relation = Relation.supports.name ∨ b.relation = Relation.causes.name ∨
          b.relation = Relation.achieves.name) ∨
      a.relation = Relation.hinders.name ∧ b.relation = Relation.hinders.name ∧
        0.8 < Strength.fraction a.strength ∧ (a.source ≠ b.source ∨ a.strength ≠ b.strength) ∨
      a.relation = Relation.achieves.name ∧
        (b.relation = Relation.supports.name ∨ b.relation = Relation.depends.name)) := by
  constructor
  · intro h
    cases h with
    | support htarget ha hb hsource => exact ⟨htarget, .inl ⟨ha, hb, hsource⟩⟩
    | hindrance htarget ha hb => exact ⟨htarget, .inr (.inl ⟨ha, hb⟩)⟩
    | rivalry htarget ha hb hstrong hother =>
      exact ⟨htarget, .inr (.inr (.inl ⟨ha, hb, hstrong, hother⟩))⟩
    | achievement htarget ha hb => exact ⟨htarget, .inr (.inr (.inr ⟨ha, hb⟩))⟩
  · rintro ⟨htarget, ⟨ha, hb, hsource⟩ | ⟨ha, hb⟩ | ⟨ha, hb, hstrong, hother⟩ | ⟨ha, hb⟩⟩
    · exact .support htarget ha hb hsource
    · exact .hindrance htarget ha hb
    · exact .rivalry htarget ha hb hstrong hother
    · exact .achievement htarget ha hb

instance [DecidableEq α] (a b : Edge α) : Decidable (a.Opposes b) :=
  decidable_of_iff _ Edge.opposes_iff.symm

end

namespace Quantity

theorem gap_of_ge {x y : Rat} (h : y ≤ x) : gap x y = x - y := by
  have hle : ¬x - y < 0.0 := by
    norm_num
    exact h
  rw [gap, if_neg hle]

theorem clamp_le {x y : Rat} (hx : InRange x) (h : y ≤ x) : clamp y ≤ x := by
  rcases clamp_cases y with ⟨hy, -⟩ | ⟨hy, -⟩ | ⟨hy, hhigh⟩ <;> rw [hy]
  · exact h
  · exact hx.1
  · norm_num at hhigh ⊢
    linarith

end Quantity

/-- Which way confidence is taken: up, down, or to one number. -/
inductive Drift where
  | up
  | down
  | onto (v : Rat)

namespace Drift

def Leads : Drift → Rat → Rat → Prop
  | up, c, c' => c ≤ c'
  | down, c, c' => c' ≤ c
  | onto v, _, c' => c' = v

def room : Drift → Rat → Nat
  | up, c => ⌊100 - c⌋₊
  | down, c => ⌊c⌋₊
  | onto v, c => if c = v then 0 else 1

theorem floor_lt_floor {x y : Rat} (hx : 0 ≤ x) (h : x + 1 ≤ y) : ⌊x⌋₊ < ⌊y⌋₊ := by
  rw [← Nat.add_one_le_iff, ← Nat.floor_add_one hx]
  exact Nat.floor_mono h

theorem Leads.room_lt {d : Drift} {c c' : Rat} (h : d.Leads c c') (hc' : Quantity.InRange c')
    (hfar : ¬Quantity.gap c c' < 1.0) : d.room c' < d.room c := by
  have hrange := Quantity.inRange_rat.1 hc'
  cases d with
  | up =>
    rw [Quantity.gap_of_le h] at hfar
    norm_num at hfar
    exact floor_lt_floor (by linarith) (by linarith)
  | down =>
    rw [Quantity.gap_of_ge h] at hfar
    norm_num at hfar
    exact floor_lt_floor hrange.1 (by linarith)
  | onto v =>
    obtain rfl : c' = v := h
    have hne : c ≠ c' := by
      rintro rfl
      rw [Quantity.gap_of_le le_rfl] at hfar
      norm_num at hfar
    rw [room, room, if_pos rfl, if_neg hne]
    exact Nat.one_pos

end Drift

namespace Edge

inductive Pulls (decay : Rat) (source : NodeState Rat) (edge : Edge Rat) : Drift → Prop
  | raises (hrel : edge.relation = Relation.supports.name ∨ edge.relation = Relation.causes.name)
    (hsource : source.logic = .holds) : Pulls decay source edge .up
  | undermines (hrel : edge.relation = Relation.supports.name) (hsource : source.logic = .fails) :
    Pulls decay source edge .down
  | overrules (hrel : edge.relation = Relation.hinders.name)
    (hstrong : 0.8 < Strength.fraction edge.strength) (hsure : 70.0 < source.confidence) :
    Pulls decay source edge
      (.onto (Quantity.clamp (source.confidence * Strength.fraction edge.strength * decay)))
  | lowers (hrel : edge.relation = Relation.hinders.name)
    (hweak : ¬(0.8 < Strength.fraction edge.strength ∧ 70.0 < source.confidence)) :
    Pulls decay source edge .down

variable {decay : Rat} {σ τ : NodeState Rat} {a b : Edge Rat} {d d' : Drift}

theorem same_of_not_opposes (htarget : a.target = b.target)
    (ha : a.relation = Relation.hinders.name) (hb : b.relation = Relation.hinders.name)
    (hstrong : 0.8 < Strength.fraction a.strength) (hab : ¬a.Opposes b) :
    a.source = b.source ∧ a.strength = b.strength := by
  constructor <;> by_contra hne
  · exact hab (.rivalry htarget ha hb hstrong (.inl hne))
  · exact hab (.rivalry htarget ha hb hstrong (.inr hne))

theorem source_of_not_opposes (htarget : a.target = b.target)
    (ha : a.relation = Relation.supports.name)
    (hb : b.relation = Relation.supports.name ∨ b.relation = Relation.causes.name)
    (hab : ¬a.Opposes b) : a.source = b.source := by
  by_contra hne
  exact hab (.support htarget ha hb hne)

theorem ne_hinders (h : a.relation = Relation.supports.name ∨ a.relation = Relation.causes.name) :
    a.relation ≠ Relation.hinders.name := by
  rcases h with h | h <;> rw [h] <;> decide

theorem Pulls.raising (h : a.Pulls decay σ d) (hrel : a.relation ≠ Relation.hinders.name) :
    a.relation = Relation.supports.name ∨ a.relation = Relation.causes.name := by
  cases h with
  | raises hr => exact hr
  | undermines hr => exact .inl hr
  | overrules hr => exact absurd hr hrel
  | lowers hr => exact absurd hr hrel

theorem Pulls.agree (ha : a.Pulls decay σ d) (hb : b.Pulls decay τ d')
    (htarget : a.target = b.target) (hsame : a.source = b.source → σ = τ)
    (hab : ¬a.Opposes b) (hba : ¬b.Opposes a) : d = d' := by
  -- Hindrances meet hindrances only.
  have hinder : a.relation = Relation.hinders.name ↔ b.relation = Relation.hinders.name := by
    constructor <;> intro hr <;> by_contra hne
    · exact hab (.hindrance htarget hr ((hb.raising hne).imp_right .inl))
    · exact hba (.hindrance htarget.symm hr ((ha.raising hne).imp_right .inl))
  cases ha with
  | raises hra hsa =>
    have hplain : b.relation ≠ Relation.hinders.name := mt hinder.2 (ne_hinders hra)
    cases hb with
    | raises => rfl
    | undermines hrb hsb =>
      have hst := hsame (source_of_not_opposes htarget.symm hrb hra hba).symm
      cases hsa.symm.trans (hst ▸ hsb)
    | overrules hrb => exact absurd hrb hplain
    | lowers hrb => exact absurd hrb hplain
  | undermines hra hsa =>
    have hplain : b.relation ≠ Relation.hinders.name := mt hinder.2 (ne_hinders (.inl hra))
    cases hb with
    | raises hrb hsb =>
      have hst := hsame (source_of_not_opposes htarget hra hrb hab)
      cases hsa.symm.trans (hst ▸ hsb)
    | undermines => rfl
    | overrules hrb => exact absurd hrb hplain
    | lowers hrb => exact absurd hrb hplain
  | overrules hra hstrong hsure =>
    have hrb := hinder.1 hra
    obtain ⟨hsource, hstrength⟩ := same_of_not_opposes htarget hra hrb hstrong hab
    have hst := hsame hsource
    cases hb with
    | raises hr => exact absurd hrb (ne_hinders hr)
    | undermines hr => exact absurd hrb (ne_hinders (.inl hr))
    | overrules => rw [hst, hstrength]
    | lowers _ hweak => exact absurd ⟨hstrength ▸ hstrong, hst ▸ hsure⟩ hweak
  | lowers hra hweak =>
    have hrb := hinder.1 hra
    cases hb with
    | raises hr => exact absurd hrb (ne_hinders hr)
    | undermines hr => exact absurd hrb (ne_hinders (.inl hr))
    | overrules _ hstrong hsure =>
      obtain ⟨hsource, hstrength⟩ := same_of_not_opposes htarget.symm hrb hra hstrong hba
      have hst := hsame hsource.symm
      exact absurd ⟨hstrength ▸ hstrong, hst ▸ hsure⟩ hweak
    | lowers => rfl

end Edge

namespace Rule
variable {e : Evidence Rat} {p : Proposal Rat}

theorem support_pulls (h : support e = some p) (hrel : e.edge.relation = Relation.supports.name)
    (hrange : Quantity.InRange e.target.confidence) :
    ∃ d, e.edge.Pulls e.config.decay e.source d ∧
      d.Leads e.target.confidence (Quantity.clamp p.confidence) := by
  unfold support at h
  obtain ⟨-, h⟩ := Option.ite_none_left_eq_some.1 h
  by_cases hholds : e.source.logic = .holds
  · rw [if_pos hholds] at h
    obtain ⟨hmoved, h⟩ := Option.ite_none_right_eq_some.1 h
    obtain rfl := Option.some.inj h
    refine ⟨.up, .raises (.inl hrel) hholds, Quantity.le_clamp hrange ?_⟩
    norm_num at hmoved ⊢
    linarith
  · rw [if_neg hholds] at h
    obtain ⟨hfails, h⟩ := Option.ite_none_right_eq_some.1 h
    obtain ⟨hmoved, h⟩ := Option.ite_none_right_eq_some.1 h
    obtain rfl := Option.some.inj h
    refine ⟨.down, .undermines hrel hfails, Quantity.clamp_le hrange ?_⟩
    norm_num at hmoved ⊢
    linarith

theorem hindrance_pulls (h : hindrance e = some p)
    (hrel : e.edge.relation = Relation.hinders.name)
    (hrange : Quantity.InRange e.target.confidence) :
    ∃ d, e.edge.Pulls e.config.decay e.source d ∧
      d.Leads e.target.confidence (Quantity.clamp p.confidence) := by
  unfold hindrance at h
  obtain ⟨-, h⟩ := Option.ite_none_left_eq_some.1 h
  by_cases hstrong : 0.8 < Strength.fraction e.edge.strength ∧ 70.0 < e.source.confidence
  · rw [if_pos hstrong] at h
    obtain rfl := Option.some.inj h
    exact ⟨_, .overrules hrel hstrong.1 hstrong.2, rfl⟩
  · rw [if_neg hstrong] at h
    obtain ⟨hmoved, h⟩ := Option.ite_none_right_eq_some.1 h
    obtain rfl := Option.some.inj h
    refine ⟨.down, .lowers hrel hstrong, Quantity.clamp_le hrange ?_⟩
    norm_num at hmoved ⊢
    linarith

theorem strict_stands {r : Relation} (hr : r ∈ Relation.strict) (h : inference r e = some p)
    (hsame : p.logic = e.target.logic) :
    r = .causes ∧ e.reversed = false ∧ e.source.logic = .holds := by
  cases r with
  | depends =>
    cases hs : e.source.logic <;> cases ht : e.target.logic <;>
      simp [inference, dependency, Evidence.propose, Evidence.contest, hs, ht] at h
    all_goals simp [← h, ht] at hsame
  | causes =>
    cases hv : e.reversed <;> cases hs : e.source.logic <;> cases ht : e.target.logic <;>
      simp [inference, causation, effect, contrapositive, Evidence.propose, Evidence.contest, hv,
        hs, ht] at h
    case false.holds.holds => exact ⟨rfl, rfl, rfl⟩
    all_goals simp [← h, ht] at hsame
  | conflicts =>
    cases hs : e.source.logic <;> cases ht : e.target.logic <;>
      simp [inference, mutualConflict, standsAgainst, Evidence.propose, Evidence.contest, hs,
        ht] at h
    case conflict.holds => simp [← h.2, ht] at hsame
    all_goals simp [← h, ht] at hsame
  | supports | achieves | hinders => simp [Relation.strict] at hr

theorem strict_pulls {r : Relation} (hr : r ∈ Relation.strict) (h : inference r e = some p)
    (hrel : e.edge.relation = r.name) (hrange : Quantity.InRange e.target.confidence)
    (hsame : p.logic = e.target.logic) :
    e.reversed = false ∧ ∃ d, e.edge.Pulls e.config.decay e.source d ∧
      d.Leads e.target.confidence (Quantity.clamp p.confidence) := by
  obtain ⟨rfl, hforward, hholds⟩ := strict_stands hr h hsame
  refine ⟨hforward, .up, .raises (.inr hrel) hholds, ?_⟩
  rcases inference_advances hr h with hup | ⟨-, -, hraised⟩
  · rw [hsame] at hup
    exact absurd hup (Nat.lt_irrefl _)
  · exact Quantity.le_clamp hrange hraised.le

/-- A rule other than that of achievement takes the verdict of its target up, or it lets the verdict
stand and takes the confidence where the edge pulls it. It does the latter only read forwards. -/
theorem inference_pulls {r : Relation} (hr : r ≠ .achieves) (h : inference r e = some p)
    (hrel : e.edge.relation = r.name) (hrange : Quantity.InRange e.target.confidence) :
    e.target.logic.rank < p.logic.rank ∨ p.logic = e.target.logic ∧
      (isMutual r = true → e.reversed = false) ∧
      ∃ d, e.edge.Pulls e.config.decay e.source d ∧
        d.Leads e.target.confidence (Quantity.clamp p.confidence) := by
  rcases Nat.lt_or_eq_of_le (inference_lifts e hr p h) with hup | hlevel
  · exact .inl hup
  have hsame := (LogicState.rank_injective hlevel).symm
  refine .inr ⟨hsame, ?_⟩
  have hstrict : r ∈ Relation.strict → _ := fun hr => strict_pulls hr h hrel hrange hsame
  cases r with
  | supports => exact ⟨fun hmutual => (nomatch hmutual), support_pulls h hrel hrange⟩
  | hinders => exact ⟨fun hmutual => (nomatch hmutual), hindrance_pulls h hrel hrange⟩
  | achieves => exact absurd rfl hr
  | depends | causes | conflicts =>
    obtain ⟨hforward, hpulls⟩ := hstrict (by decide)
    exact ⟨fun _ => hforward, hpulls⟩

end Rule

def LogicState.height : LogicState → Nat
  | unknown => 0
  | fails => 1
  | holds => 2
  | conflict => 3

theorem LogicState.height_le_conflict (v : LogicState) : v.height ≤ conflict.height := by
  cases v <;> decide

/-- What achieves, causes or excludes a target takes its verdict up in this order, or lets it stand
and raises it. It makes its source a driver, and what fails drives nothing forwards. -/
structure Rule.Advances (e : Evidence Rat) (p : Proposal Rat) : Prop where
  drivers : p.derivedFrom = e.drivers
  firm : e.reversed = false → e.source.logic ≠ .fails
  up : e.target.logic.height < p.logic.height ∨
    p.logic = e.target.logic ∧ Drift.up.Leads e.target.confidence (Quantity.clamp p.confidence)

structure Rule.Withdraws (e : Evidence Rat) (p : Proposal Rat) : Prop where
  fails : e.source.logic = .fails
  drove : e.sourceNode.id ∈ e.target.derivedFrom
  drivers : p.derivedFrom = e.target.derivedFrom.filter (· ≠ e.sourceNode.id)

namespace Rule
variable {e : Evidence Rat} {p : Proposal Rat}

theorem achievement_advances (h : achievement e = some p)
    (hrange : Quantity.InRange e.target.confidence) : Withdraws e p ∨ Advances e p := by
  unfold achievement at h
  obtain ⟨hopen, h⟩ := Option.ite_none_left_eq_some.1 h
  by_cases hholds : e.source.logic = .holds
  · rw [if_pos hholds] at h
    obtain ⟨-, h⟩ := Option.ite_none_right_eq_some.1 h
    obtain rfl := Option.some.inj h
    refine .inr ⟨rfl, fun _ => by simp [hholds], ?_⟩
    cases ht : e.target.logic with
    | holds => exact .inr ⟨rfl, Quantity.le_clamp hrange (Quantity.le_greatest _ _)⟩
    | conflict => exact absurd ht hopen
    | unknown | fails => exact .inl (by simp [LogicState.height])
  · rw [if_neg hholds] at h
    obtain ⟨hfails, h⟩ := Option.ite_none_right_eq_some.1 h
    obtain ⟨hdrove, h⟩ := Option.ite_none_right_eq_some.1 h
    obtain rfl := Option.some.inj h
    rw [Bool.and_eq_true, List.contains_iff_mem] at hdrove
    exact .inl ⟨hfails, hdrove.1, rfl⟩

theorem causation_advances (h : causation e = some p)
    (hrange : Quantity.InRange e.target.confidence) : Advances e p := by
  unfold causation effect contrapositive at h
  cases hv : e.reversed <;> cases hs : e.source.logic <;> cases ht : e.target.logic <;>
    simp [Evidence.propose, Evidence.contest, hv, hs, ht] at h
  case false.holds.holds =>
    obtain ⟨-, rfl⟩ := h
    exact ⟨rfl, fun _ => by simp [hs],
      .inr ⟨ht.symm, Quantity.le_clamp hrange (Quantity.le_greatest _ _)⟩⟩
  all_goals
    subst h
    exact ⟨rfl, by simp [hv, hs], .inl (by simp [ht, LogicState.height])⟩

theorem mutualConflict_advances (h : mutualConflict e = some p) : Advances e p := by
  unfold mutualConflict standsAgainst at h
  cases hs : e.source.logic <;> cases ht : e.target.logic <;>
    simp [Evidence.propose, Evidence.contest, hs, ht] at h
  case conflict.holds =>
    obtain ⟨-, rfl⟩ := h
    exact ⟨rfl, by simp [hs], .inl (by simp [ht, LogicState.height])⟩
  all_goals
    subst h
    exact ⟨rfl, by simp [hs], .inl (by simp [ht, LogicState.height])⟩

theorem inference_builds {r : Relation} (hr : r = .achieves ∨ r = .causes ∨ r = .conflicts)
    (h : inference r e = some p) (hrange : Quantity.InRange e.target.confidence) :
    r = .achieves ∧ Withdraws e p ∨ Advances e p := by
  rcases hr with rfl | rfl | rfl
  · exact (achievement_advances h hrange).imp_left fun hw => ⟨rfl, hw⟩
  · exact .inr (causation_advances h hrange)
  · exact .inr (mutualConflict_advances h)

end Rule
end ReasonGraph
