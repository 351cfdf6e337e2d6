import ReasonGraph.Proofs.Precedence
import Mathlib.Data.List.Permutation

/-! What the order of ids comes to on any graph, with cycles or without. First come the ids that are
not on or behind a cycle, each behind whatever links to it, and the rest keeps its order. What was
released once is placed before all that is released later, so where nothing links to anything the
order given stays. -/

namespace ReasonGraph

theorem idxOf_lt_of_pairwise {R : String → String → Prop} {ids : List String}
    (hordered : ids.Pairwise fun earlier later => ¬R later earlier) {a b : String}
    (ha : a ∈ ids) (hb : b ∈ ids) (hne : a ≠ b) (h : R a b) : ids.idxOf a < ids.idxOf b := by
  by_contra hnot
  have hlt : ids.idxOf b < ids.idxOf a := by
    have hdiffer : ids.idxOf a ≠ ids.idxOf b := fun heq => hne ((List.idxOf_inj ha).1 heq)
    omega
  have hnone := List.pairwise_iff_getElem.1 hordered _ _ (List.idxOf_lt_length_of_mem hb)
    (List.idxOf_lt_length_of_mem ha) hlt
  rw [List.getElem_idxOf, List.getElem_idxOf] at hnone
  exact hnone h

namespace Sorting

theorem release_extends (s : Sorting) (id : String) : s.released <+: (s.release id).released := by
  simp only [release]
  split
  · exact List.prefix_append _ _
  · exact List.prefix_refl _

theorem foldl_release_extends (targets : List String) (s : Sorting) :
    s.released <+: (targets.foldl release s).released := by
  induction targets generalizing s with
  | nil => exact List.prefix_refl _
  | cons first rest ih => exact (s.release_extends first).trans (ih (s.release first))

theorem step?_extends {next : String → List String} {s t : Sorting} (h : s.step? next = some t) :
    s.placed ++ s.released <+: t.placed ++ t.released := by
  obtain ⟨waiting, released, placed⟩ := s
  cases released with
  | nil => cases h
  | cons id rest =>
    obtain rfl := Option.some.inj h
    rw [foldl_release_placed, List.append_cons, List.prefix_append_right_inj]
    exact foldl_release_extends (next id) ⟨waiting, rest, placed ++ [id]⟩

theorem finish_extends (next : String → List String) (s : Sorting) :
    s.placed ++ s.released <+: (s.finish next).placed := by
  induction s using Sorting.finish.induct next with
  | case1 s hstep =>
    rw [finish_of_none hstep]
    cases hreleased : s.released with
    | nil => simp
    | cons id rest => simp [step?, hreleased] at hstep
  | case2 s t hstep ih =>
    rw [finish_of_some hstep]
    exact (step?_extends hstep).trans ih

end Sorting

namespace Links
variable {α : Type} {l : Links α}

theorem mem_left_over (hids : l.ids.Nodup) {id : String} :
    id ∈ (l.ids.filter fun id => !l.front.contains id) ↔ id ∈ l.ids ∧ l.IsBehind id := by
  rw [List.mem_filter, Bool.not_eq_true', ← Bool.not_eq_true, List.contains_iff_mem,
    mem_front_iff hids]
  refine and_congr_right fun hid => ?_
  rw [not_and_not_right]
  exact ⟨fun h => h hid, fun h _ => h⟩

theorem sorted_perm (hids : l.ids.Nodup) : l.sorted.Perm l.ids := by
  have hfront : l.front.Perm (l.ids.filter fun id => l.front.contains id) := by
    refine (List.perm_ext_iff_of_nodup (front_nodup hids) (hids.filter _)).2 fun id => ?_
    rw [List.mem_filter, List.contains_iff_mem, mem_front_iff hids]
    exact ⟨fun h => ⟨h.1, h⟩, fun h => h.2⟩
  rw [sorted_eq hids]
  exact (hfront.append_right _).trans (List.filter_append_perm _ _)

theorem sorted_forward (hids : l.ids.Nodup) {a b : String} (hjoins : l.Joins a b)
    (ha : ¬l.IsBehind a) : l.sorted.idxOf a < l.sorted.idxOf b := by
  have hfirst : a ∈ l.front := (mem_front_iff hids).2 ⟨hjoins.mem_ids.1, ha⟩
  have hne : a ≠ b := by
    rintro rfl
    exact ha ⟨a, .single hjoins, .refl⟩
  rw [sorted_eq hids, List.idxOf_append_of_mem hfirst]
  by_cases hb : b ∈ l.front
  · rw [List.idxOf_append_of_mem hb]
    exact idxOf_lt_of_pairwise (front_ordered hids) hfirst hb hne hjoins
  · rw [List.idxOf_append_of_notMem hb]
    have := List.idxOf_lt_length_of_mem hfirst
    omega

theorem sorted_of_no_links (hids : l.ids.Nodup) (hnone : ∀ a b, ¬l.Joins a b) :
    l.sorted = l.ids := by
  have hall : l.unsorted.released = l.ids := List.filter_eq_self.2 fun id _ =>
    decide_eq_true (degree_eq_zero_iff.2 fun p => hnone p id)
  have hbegins : l.ids <+: l.front := by
    have h := l.unsorted.finish_extends l.next
    rwa [hall] at h
  have hback : l.ids.filter (fun id => !l.front.contains id) = [] := by
    simpa using fun id hid => hbegins.subset hid
  have hsub : l.front ⊆ l.ids := fun id hid => ((mem_front_iff hids).1 hid).1
  have hlength : l.front.length ≤ l.ids.length := ((front_nodup hids).subperm hsub).length_le
  rw [sorted_eq hids, hback, List.append_nil]
  exact (hbegins.eq_of_length_le hlength).symm

/-- The order of distinct ids, whatever links join them. First come the ids that are not on or
behind a cycle, then the others as they were listed. A link from one of the first goes forward, so
all do where there is no cycle, and without links nothing moves. -/
theorem sorted_splits (hids : l.ids.Nodup) :
    l.sorted.Perm l.ids ∧
    (∃ front back, l.sorted = front ++ back ∧
      (∀ id, id ∈ front ↔ id ∈ l.ids ∧ ¬l.IsBehind id) ∧
      (∀ id, id ∈ back ↔ id ∈ l.ids ∧ l.IsBehind id) ∧ back.Sublist l.ids) ∧
    (∀ a b, l.Joins a b → ¬l.IsBehind a → l.sorted.idxOf a < l.sorted.idxOf b) ∧
    (l.IsAcyclic → ∀ a b, l.Joins a b → l.sorted.idxOf a < l.sorted.idxOf b) ∧
    ((∀ a b, ¬l.Joins a b) → l.sorted = l.ids) := by
  refine ⟨sorted_perm hids, ⟨l.front, _, sorted_eq hids, fun id => mem_front_iff hids,
    fun id => mem_left_over hids, List.filter_sublist⟩,
    fun a b hjoins ha => sorted_forward hids hjoins ha,
    fun hacyclic a b hjoins => sorted_forward hids hjoins (hacyclic.not_isBehind a),
    sorted_of_no_links hids⟩

theorem sorted_splits_circle : ∃ l : Links Rat,
    l.ids = ["d", "e", "c", "f", "b", "a"] ∧ l.sorted = ["a", "f", "e", "d", "c", "b"] ∧
      l.sorted.Perm l.ids ∧ l.sorted.idxOf "a" < l.sorted.idxOf "b" := by
  let l : Links Rat := ⟨["d", "e", "c", "f", "b", "a"], [⟨"bc", "b", "c", "depends", 1⟩,
    ⟨"cb", "c", "b", "causes", 1⟩, ⟨"cd", "c", "d", "supports", 1⟩,
    ⟨"ab", "a", "b", "depends", 1⟩, ⟨"af", "a", "f", "depends", 1⟩,
    ⟨"fa", "a", "f", "depends", 1⟩, ⟨"fe", "f", "e", "hinders", 1⟩], fun _ => true⟩
  have hids : l.ids.Nodup := by decide
  have hsorted : l.sorted = ["a", "f", "e", "d", "c", "b"] := by cbv
  obtain ⟨hperm, -, hforward, -⟩ := sorted_splits hids
  have hjoins : l.Joins "a" "b" := mem_next.1 (by decide)
  have hfirst : ¬l.IsBehind "a" := not_isBehind_of_degree (by decide)
  exact ⟨l, rfl, hsorted, hperm, hforward "a" "b" hjoins hfirst⟩

end Links
end ReasonGraph
