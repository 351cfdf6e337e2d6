import ReasonGraph.OrderedMap
import ReasonGraph.Graph.Links

/-! Ids ordered from sources to sinks. An id is released once every link into it comes from
an id already placed; what is left over stands on or behind a cycle and is placed last, in
the order given. -/

namespace ReasonGraph

/-- How many links into each id are still waited for, the ids released, and those placed. -/
structure Sorting where
  waiting : OrderedMap Int
  released : List String
  placed : List String

namespace Sorting

def pending (waiting : OrderedMap Int) : Nat :=
  waiting.entries.countP fun e => 0 < e.2

def release (s : Sorting) (id : String) : Sorting :=
  let left := (s.waiting.get? id).getD 0 - 1
  { s with
    waiting := s.waiting.insert id left
    released := if left = 0 then s.released ++ [id] else s.released }

def step? (next : String → List String) (s : Sorting) : Option Sorting :=
  match s.released with
  | [] => none
  | id :: rest => some ((next id).foldl release { s with released := rest, placed := s.placed ++ [id] })

theorem countP_put_sub_one (id : String) (l : List (String × Int)) (left : Int)
    (hleft : left = (OrderedMap.find id l).getD 0 - 1) :
    (OrderedMap.put id left l).countP (fun e => decide (0 < e.2)) +
      (if left = 0 then 1 else 0) ≤ l.countP (fun e => decide (0 < e.2)) := by
  induction l with
  | nil => simp_all [OrderedMap.find, OrderedMap.put]
  | cons e rest ih =>
    obtain ⟨k, n⟩ := e
    by_cases h : k = id
    · simp only [OrderedMap.find, h, if_true, Option.getD_some] at hleft
      simp only [OrderedMap.put, h, if_true, List.countP_cons, decide_eq_true_eq]
      repeat' split
      all_goals omega
    · simp only [OrderedMap.find, h, if_false] at hleft
      have ih := ih hleft
      simp only [OrderedMap.put, h, if_false, List.countP_cons] at ih ⊢
      omega

theorem release_decreases (s : Sorting) (id : String) :
    pending (s.release id).waiting + ((s.release id).released.length - s.released.length) ≤
      pending s.waiting ∧ s.released.length ≤ (s.release id).released.length := by
  have h := countP_put_sub_one id s.waiting.entries _ rfl
  by_cases hl : (OrderedMap.find id s.waiting.entries).getD 0 - 1 = 0
  · simp_all [release, pending, OrderedMap.insert, OrderedMap.get?]
  · simp_all [release, pending, OrderedMap.insert, OrderedMap.get?]

theorem foldl_release_decreases (targets : List String) (s : Sorting) :
    pending (targets.foldl release s).waiting +
        ((targets.foldl release s).released.length - s.released.length) ≤ pending s.waiting ∧
      s.released.length ≤ (targets.foldl release s).released.length := by
  induction targets generalizing s with
  | nil => simp
  | cons id rest ih =>
    have h₁ := release_decreases s id
    have h₂ := ih (s.release id)
    simp only [List.foldl_cons]
    omega

theorem step?_decreases {next : String → List String} {s t : Sorting}
    (h : s.step? next = some t) :
    pending t.waiting < pending s.waiting ∨
      (pending t.waiting = pending s.waiting ∧ t.released.length < s.released.length) := by
  obtain ⟨waiting, released, placed⟩ := s
  cases released with
  | nil => simp [step?] at h
  | cons id rest =>
    simp only [step?, Option.some.injEq] at h
    subst h
    have hd := foldl_release_decreases (next id) ⟨waiting, rest, placed ++ [id]⟩
    simp only [List.length_cons] at hd ⊢
    omega

def finish (next : String → List String) (s : Sorting) : Sorting :=
  match _step : s.step? next with
  | none => s
  | some t => finish next t
termination_by (pending s.waiting, s.released.length)
decreasing_by
  have hd := step?_decreases _step
  rcases hd with hlt | ⟨heq, hlt⟩
  · exact Prod.Lex.left _ _ hlt
  · rw [heq]
    exact Prod.Lex.right _ hlt

end Sorting

namespace Links
variable {α : Type}

def unsorted (l : Links α) : Sorting where
  waiting := OrderedMap.ofList (l.ids.map fun id => (id, (l.degree id : Int)))
  released := l.ids.filter fun id => l.degree id = 0
  placed := []

/-- Sources before sinks. An id that is listed twice and waits for nothing is placed twice. -/
def sorted (l : Links α) : List String :=
  let done := l.unsorted.finish l.next
  if done.placed.length < l.unsorted.waiting.size then
    done.placed ++ l.ids.filter fun id => !done.placed.contains id
  else done.placed

end Links
end ReasonGraph
