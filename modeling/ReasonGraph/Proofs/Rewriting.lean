import ReasonGraph.Proofs.View
import Mathlib.Data.List.Forall2

/-! One graph in the place of another. Nothing is asked of a graph but its nodes and what its edges do
when they are read, so two graphs whose edges, one by one, are read alike are no different to a pass. -/

namespace ReasonGraph
variable {α : Type}

theorem Table.achievedOtherwise_congr {R : Edge α → Edge α → Prop} {t : Table α} {h : Hop α}
    {edges edges' : List (Edge α)} (hedges : List.Forall₂ R edges edges')
    (hR : ∀ e e', R e e' → t.achievedOtherwise [e'] h = t.achievedOtherwise [e] h) :
    t.achievedOtherwise edges' h = t.achievedOtherwise edges h := by
  simp only [achievedOtherwise, List.any_cons, List.any_nil, Bool.or_false] at hR ⊢
  induction hedges with
  | nil => rfl
  | cons hfirst _ ih => rw [List.any_cons, List.any_cons, hR _ _ hfirst, ih]

variable [Quantity α]

namespace Setting
variable {s s' : Setting α}

def Agree (s s' : Setting α) (h h' : Hop α × Rule α) : Prop :=
  ∀ t, s'.change? t h' = s.change? t h

theorem foldl_readOne_congr {hops hops' : List (Hop α × Rule α)}
    (hagree : List.Forall₂ (s.Agree s') hops hops') (p : Progress α) :
    hops'.foldl s'.readOne p = hops.foldl s.readOne p := by
  induction hagree generalizing p with
  | nil => rfl
  | @cons h h' _ _ hfirst _ ih =>
    have hsame := hfirst p.ledger.states
    rw [List.foldl_cons, List.foldl_cons, ih]
    cases hc : s.change? p.ledger.states h with
    | none => rw [readOne_of_none hc, readOne_of_none (hsame.trans hc)]
    | some c =>
      have htarget : h'.1.target = h.1.target :=
        (change?_target (hsame.trans hc)).symm.trans (change?_target hc)
      rw [readOne_of_some hc, readOne_of_some (hsame.trans hc), htarget]

theorem fullPass_congr (hagree : List.Forall₂ (s.Agree s') s.hops s'.hops) :
    s'.fullPass = s.fullPass := by
  funext l
  simp only [fullPass, read, foldl_readOne_congr hagree]

theorem expand_congr (hagree : ∀ id, List.Forall₂ (s.Agree s') (s.hopsAt id) (s'.hopsAt id))
    (steps : Nat) (queue unexpanded : List String) (done : Ledger α × Bool) :
    s'.expand steps queue unexpanded done = s.expand steps queue unexpanded done := by
  induction steps generalizing queue unexpanded done with
  | zero => rfl
  | succ steps ih =>
    simp only [expand, read, foldl_readOne_congr (hagree _), ih]

theorem passFrom_congr (hids : s'.graph.ids = s.graph.ids)
    (hagree : ∀ id, List.Forall₂ (s.Agree s') (s.hopsAt id) (s'.hopsAt id)) :
    s'.passFrom = s.passFrom := by
  funext id l
  simp only [passFrom, hids, expand_congr hagree]

/-- The known rules over one graph and over another, whose edges stand in the place of its own. -/
structure Rewrites (R : Edge α → Edge α → Prop) (nodes : List (Node α))
    (edges edges' : List (Edge α)) (s s' : Setting α) : Prop where
  graph : s.graph = .ofLists nodes edges
  graph' : s'.graph = .ofLists nodes edges'
  config : s'.config = s.config
  registry : s.registry = .builtin
  registry' : s'.registry = .builtin
  rewritten : List.Forall₂ R edges edges'

namespace Rewrites
variable {R : Edge α → Edge α → Prop} {nodes : List (Node α)} {edges edges' : List (Edge α)}
  (hs : Rewrites R nodes edges edges' s s')
include hs

theorem nodes_eq : s'.graph.nodes = s.graph.nodes := by
  rw [hs.graph, hs.graph']
  rfl

theorem agree (hR : ∀ (t : Table α) h e e', R e e' →
    t.achievedOtherwise [e'] h = t.achievedOtherwise [e] h) (h : Hop α) (r : Relation) :
    s.Agree s' (h, .builtin r) (h, .builtin r) := by
  intro t
  have hachieved : t.achievedOtherwise s'.graph.edges h = t.achievedOtherwise s.graph.edges h := by
    rw [hs.graph, hs.graph']
    exact Table.achievedOtherwise_congr hs.rewritten (hR t h)
  exact change?_congr hs.graph hs.graph' hs.config (by rw [hs.nodes_eq]) (by rw [hs.nodes_eq]) rfl
    rfl fun _ _ _ _ => hachieved

end Rewrites
end Setting
end ReasonGraph
