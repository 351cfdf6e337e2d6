import ReasonGraph.OrderedMap
import ReasonGraph.Graph.Basic

/-! One graph as it stands while inference runs over it. Nodes are filed by id, edges by
the node they leave and by the node they enter, each file in the order of the edge list.
An edge with an end that is no node dangles. -/

namespace ReasonGraph

structure Snapshot (α : Type) where
  nodes : OrderedMap (Node α)
  edges : List (Edge α)
  outgoing : OrderedMap (List (Edge α))
  incoming : OrderedMap (List (Edge α))
  dangling : List String

namespace Snapshot
variable {α : Type}

def filed (index : OrderedMap (List (Edge α))) (id : String) : List (Edge α) :=
  (index.get? id).getD []

def file (key : Edge α → String) (index : OrderedMap (List (Edge α))) (e : Edge α) :
    OrderedMap (List (Edge α)) :=
  index.insert (key e) (filed index (key e) ++ [e])

def fileAll (key : Edge α → String) (edges : List (Edge α)) : OrderedMap (List (Edge α)) :=
  edges.foldl (file key) ∅

/-- Of two nodes with one id the later counts, at the place of the earlier. -/
def nodeMap (nodes : List (Node α)) : OrderedMap (Node α) :=
  OrderedMap.ofList (nodes.map fun n => (n.id, n))

def joins (nodes : OrderedMap (Node α)) (e : Edge α) : Bool :=
  nodes.contains e.source && nodes.contains e.target

def ofLists (nodes : List (Node α)) (edges : List (Edge α)) : Snapshot α :=
  let known := nodeMap nodes
  { nodes := known
    edges := edges
    outgoing := fileAll Edge.source edges
    incoming := fileAll Edge.target edges
    dangling := (edges.filter fun e => !joins known e).map Edge.id }

def ids (g : Snapshot α) : List String := g.nodes.keys

def edgesFrom (g : Snapshot α) (id : String) : List (Edge α) := filed g.outgoing id

def edgesInto (g : Snapshot α) (id : String) : List (Edge α) := filed g.incoming id

theorem filed_file (key : Edge α → String) (index : OrderedMap (List (Edge α)))
    (e : Edge α) (id : String) :
    filed (file key index e) id =
      if key e = id then filed index id ++ [e] else filed index id := by
  unfold file
  unfold filed
  rw [OrderedMap.get?_insert]
  by_cases h : key e = id
  · simp [h]
  · simp [h]

theorem filed_foldl_file (key : Edge α → String) (index : OrderedMap (List (Edge α)))
    (edges : List (Edge α)) (id : String) :
    filed (edges.foldl (file key) index) id =
      filed index id ++ edges.filter fun e => key e = id := by
  induction edges generalizing index with
  | nil => simp
  | cons e rest ih =>
    simp only [List.foldl_cons, ih, filed_file, List.filter_cons, decide_eq_true_eq]
    split <;> simp

theorem filed_fileAll (key : Edge α → String) (edges : List (Edge α)) (id : String) :
    filed (fileAll key edges) id = edges.filter fun e => key e = id :=
  filed_foldl_file key ∅ edges id

theorem edgesFrom_ofLists (nodes : List (Node α)) (edges : List (Edge α)) (id : String) :
    (ofLists nodes edges).edgesFrom id = edges.filter fun e => e.source = id :=
  filed_fileAll Edge.source edges id

theorem edgesInto_ofLists (nodes : List (Node α)) (edges : List (Edge α)) (id : String) :
    (ofLists nodes edges).edgesInto id = edges.filter fun e => e.target = id :=
  filed_fileAll Edge.target edges id

theorem ids_nodup (g : Snapshot α) : g.ids.Nodup := g.nodes.nodup_keys

end Snapshot
end ReasonGraph
