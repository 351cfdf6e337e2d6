import ReasonGraph.Graph.Basic

/-! Links between listed ids: the edges of selected relations with both ends in a list. The
other edges do not exist for the questions asked here. -/

namespace ReasonGraph

structure Links (α : Type) where
  ids : List String
  edges : List (Edge α)
  selects : String → Bool

namespace Links
variable {α : Type}

def counts (l : Links α) (e : Edge α) : Bool :=
  l.selects e.relation && l.ids.contains e.source && l.ids.contains e.target

def next (l : Links α) (id : String) : List String :=
  (l.edges.filter fun e => l.counts e && e.source = id).map Edge.target

def degree (l : Links α) (id : String) : Nat :=
  (l.edges.filter fun e => l.counts e && e.target = id).length

def Joins (l : Links α) (a b : String) : Prop :=
  ∃ e ∈ l.edges, l.counts e = true ∧ e.source = a ∧ e.target = b

theorem mem_next {l : Links α} {a b : String} : b ∈ l.next a ↔ l.Joins a b := by
  simp only [next, Joins, List.mem_map, List.mem_filter, Bool.and_eq_true, decide_eq_true_eq]
  constructor
  · rintro ⟨e, ⟨he, hc, ha⟩, hb⟩
    exact ⟨e, he, hc, ha, hb⟩
  · rintro ⟨e, he, hc, ha, hb⟩
    exact ⟨e, ⟨he, hc, ha⟩, hb⟩

theorem Joins.mem_ids {l : Links α} {a b : String} (h : l.Joins a b) :
    a ∈ l.ids ∧ b ∈ l.ids := by
  obtain ⟨e, _, hc, rfl, rfl⟩ := h
  simp only [counts, Bool.and_eq_true, List.contains_iff_mem] at hc
  exact ⟨hc.1.2, hc.2⟩

end Links
end ReasonGraph
