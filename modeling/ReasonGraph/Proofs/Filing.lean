import ReasonGraph.Proofs.View
import ReasonGraph.Proofs.Precedence

/-! The files of a graph against a search through its edges. The edges come in one after another, and
each is put into two files and noted if it dangles. What stands in a file under an id in the end is what
a search for that end finds, in the same order, so a rule that looks an id up decides as one that
searches. -/

namespace ReasonGraph
variable {α : Type}

/-- The files of distinct names have nothing twice: together they hold what is filed under any of
the names. -/
theorem flatMap_filter_perm {β : Type} (key : β → String) (xs : List β) {names : List String}
    (hnames : names.Nodup) :
    (names.flatMap fun name => xs.filter fun x => key x = name).Perm
      (xs.filter fun x => key x ∈ names) := by
  induction names with
  | nil => simp
  | cons first rest ih =>
    obtain ⟨hfirst, hrest⟩ := List.nodup_cons.1 hnames
    have hown : (xs.filter fun x => key x ∈ first :: rest).filter (fun x => key x = first) =
        xs.filter fun x => key x = first := by
      rw [List.filter_filter]
      exact List.filter_congr fun x _ => by by_cases hx : key x = first <;> simp [hx]
    have hothers : (xs.filter fun x => key x ∈ first :: rest).filter (fun x => !(key x = first)) =
        xs.filter fun x => key x ∈ rest := by
      rw [List.filter_filter]
      refine List.filter_congr fun x _ => ?_
      by_cases hx : key x = first
      · simp [hx, hfirst]
      · simp [hx]
    have hsplit := List.filter_append_perm (fun x => decide (key x = first))
      (xs.filter fun x => key x ∈ first :: rest)
    rw [hown, hothers] at hsplit
    exact ((ih hrest).append_left _).trans hsplit

namespace Snapshot

/-- What is kept of a graph while its edges come in. -/
structure Files (α : Type) where
  outgoing : OrderedMap (List (Edge α))
  incoming : OrderedMap (List (Edge α))
  dangling : List String

namespace Files

def empty : Files α := ⟨∅, ∅, []⟩

def add (known : OrderedMap (Node α)) (f : Files α) (e : Edge α) : Files α where
  outgoing := file Edge.source f.outgoing e
  incoming := file Edge.target f.incoming e
  dangling := if joins known e then f.dangling else f.dangling ++ [e.id]

theorem foldl_add (known : OrderedMap (Node α)) (edges : List (Edge α)) (f : Files α) :
    edges.foldl (add known) f =
      ⟨edges.foldl (file Edge.source) f.outgoing, edges.foldl (file Edge.target) f.incoming,
        f.dangling ++ (edges.filter fun e => !joins known e).map Edge.id⟩ := by
  induction edges generalizing f with
  | nil => simp
  | cons e rest ih =>
    rw [List.foldl_cons, ih]
    by_cases he : joins known e = true <;> simp [add, he]

end Files

theorem keys_fileAll (key : Edge α → String) (edges : List (Edge α)) :
    (fileAll key edges).keys = (edges.map key).eraseDups := by
  induction edges using List.reverseRecOn with
  | nil => rfl
  | append_singleton earlier e ih =>
    rw [fileAll, List.foldl_append, List.foldl_cons, List.foldl_nil, ← fileAll, file,
      OrderedMap.keys_insert, ih, List.map_append, List.map_singleton, List.eraseDups_append]
    by_cases he : key e ∈ earlier.map key
    · rw [if_pos (List.mem_eraseDups.2 he), List.removeAll,
        List.filter_cons_of_neg (by simpa using he), List.filter_nil, List.eraseDups_nil,
        List.append_nil]
    · rw [if_neg fun h => he (List.mem_eraseDups.1 h), List.removeAll,
        List.filter_cons_of_pos (by simpa using he), List.filter_nil, List.eraseDups_cons,
        List.filter_nil, List.eraseDups_nil]

theorem joins_nodeMap {nodes : List (Node α)} {e : Edge α} :
    joins (nodeMap nodes) e = true ↔
      e.source ∈ nodes.map Node.id ∧ e.target ∈ nodes.map Node.id := by
  rw [joins, Bool.and_eq_true, OrderedMap.contains_iff, OrderedMap.contains_iff,
    mem_keys_nodeMap, mem_keys_nodeMap]

end Snapshot

namespace Evidence

def placed (e : Evidence α) (g : Snapshot α) : Evidence α :=
  { e with edges := g.edges, incoming := g.incoming }

def unindexed (e : Evidence α) : Evidence α := { e with incoming := ∅ }

theorem edgesInto_unindexed (e : Evidence α) (id : String) :
    e.unindexed.edgesInto id = e.edges.filter fun edge => edge.target = id := rfl

theorem edgesInto_placed (e : Evidence α) (nodes : List (Node α)) (edges : List (Edge α))
    (id : String) :
    (e.placed (.ofLists nodes edges)).edgesInto id = edges.filter fun edge => edge.target = id :=
  edgesInto_eq_filter rfl id

theorem hasOtherAchiever_unindexed (e : Evidence α) (nodes : List (Node α))
    (edges : List (Edge α)) :
    Rule.hasOtherAchiever (e.placed (.ofLists nodes edges)).unindexed =
      Rule.hasOtherAchiever (e.placed (.ofLists nodes edges)) := by
  have hsame := fun id =>
    ((e.placed (.ofLists nodes edges)).edgesInto_unindexed id).trans
      (e.edgesInto_placed nodes edges id).symm
  rw [Rule.hasOtherAchiever, hsame]
  rfl

end Evidence

namespace Snapshot
variable [Quantity α]

/-- The files of a graph agree with a search. Filing the edges one after another gives the files of
the graph; an id has a file from its first edge on, and in it are, in the order of the list, the edges
that leave it, and in the other those that enter it. Whatever a rule is shown in the graph, it finds
the same edges into an id by the index and by a search, and proposes the same without the index. An
edge dangles just if an end of it is the id of no node. -/
theorem files_agree_with_search (nodes : List (Node α)) (edges : List (Edge α)) :
    let g := ofLists nodes edges
    edges.foldl (Files.add g.nodes) .empty = ⟨g.outgoing, g.incoming, g.dangling⟩ ∧
      (g.outgoing.keys = (edges.map Edge.source).eraseDups ∧
        g.incoming.keys = (edges.map Edge.target).eraseDups) ∧
      (∀ id, g.edgesFrom id = (edges.filter fun e => e.source = id) ∧
        g.edgesInto id = edges.filter fun e => e.target = id) ∧
      (∀ (h : Hop α) (config : Config α) (t : Table α),
        (h.evidence? config g t).map (·.placed g) = h.evidence? config g t) ∧
      (∀ (e : Evidence α) (id : String),
        (e.placed g).edgesInto id = (edges.filter fun edge => edge.target = id) ∧
          (e.placed g).unindexed.edgesInto id = (e.placed g).edgesInto id) ∧
      (∀ (e : Evidence α) (r : Relation),
        (Rule.builtin r).propagate (e.placed g).unindexed =
          (Rule.builtin r).propagate (e.placed g)) ∧
      g.dangling = (edges.filter fun e =>
        ¬(e.source ∈ nodes.map Node.id ∧ e.target ∈ nodes.map Node.id)).map Edge.id := by
  intro g
  refine ⟨Files.foldl_add g.nodes edges .empty,
    ⟨keys_fileAll Edge.source edges, keys_fileAll Edge.target edges⟩,
    fun id => ⟨edgesFrom_ofLists nodes edges id, edgesInto_ofLists nodes edges id⟩,
    fun h config t => ?_,
    fun e id => ⟨e.edgesInto_placed nodes edges id, ?_⟩, fun e r => ?_, ?_⟩
  · cases he : h.evidence? config g t with
    | none => rfl
    | some e =>
      obtain ⟨_, _, _, _, -, -, -, -, rfl⟩ := Hop.evidence?_eq_some he
      rfl
  · rw [e.edgesInto_placed nodes edges id, Evidence.edgesInto_unindexed]
    rfl
  · have hsame : Rule.inference r (e.placed g).unindexed = Rule.inference r (e.placed g) :=
      Rule.inference_elsewhere rfl fun _ _ => e.hasOtherAchiever_unindexed nodes edges
    simp only [Rule.builtin, floored, hsame]
    rfl
  · have hdangles : ∀ e ∈ edges, (!joins (nodeMap nodes) e) =
        decide ¬(e.source ∈ nodes.map Node.id ∧ e.target ∈ nodes.map Node.id) := fun e _ => by
      rw [Bool.eq_iff_iff, Bool.not_eq_true', decide_eq_true_iff, ← joins_nodeMap,
        Bool.not_eq_true]
    exact congrArg (List.map Edge.id) (List.filter_congr hdangles)

example :
    let g : Snapshot Rat := ofLists [⟨"plan", .action, "", 90⟩, ⟨"goal", .goal, "", 50⟩]
      [⟨"first", "plan", "goal", "achieves", 1⟩, ⟨"loop", "goal", "goal", "supports", 1⟩,
        ⟨"lost", "goal", "nowhere", "causes", 1⟩, ⟨"again", "plan", "goal", "achieves", 1⟩]
    (g.edgesInto "goal").map Edge.id = ["first", "loop", "again"] ∧
      (g.edgesInto "nowhere").map Edge.id = ["lost"] ∧ g.edgesInto "plan" = [] ∧
      g.dangling = ["lost"] := by
  decide

end Snapshot
end ReasonGraph
