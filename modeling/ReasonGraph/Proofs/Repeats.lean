import ReasonGraph.Proofs.Circuits
import ReasonGraph.Proofs.Remainder

/-! What becomes of the order when ids are listed more than once. The links are the same, and an id
waits for as many of them. But an id that waits for none is released as often as it is listed, and
each time it is placed the links from it are taken off once more. What is left over comes as often
as it is listed too. So repetitions do no harm just where each of them waits for a link, and is on
or behind no cycle. -/

namespace ReasonGraph

namespace OrderedMap
variable {β : Type}

theorem entries_ofList_map (ids : List String) (f : String → β) :
    (ofList (ids.map fun id => (id, f id))).entries = ids.eraseDups.map fun id => (id, f id) := by
  have hkeys : (ofList (ids.map fun id => (id, f id))).keys = ids.eraseDups := by
    rw [keys_ofList, List.map_map]
    exact congrArg List.eraseDups (List.map_id ids)
  rw [← hkeys, keys, List.map_map]
  refine (List.map_id _).symm.trans (List.map_congr_left fun entry hentry => ?_)
  obtain ⟨id, -, rfl⟩ := List.mem_map.1 (mem_ofList hentry)
  rfl

theorem ofList_eraseDups (ids : List String) (f : String → β) :
    ofList (ids.eraseDups.map fun id => (id, f id)) = ofList (ids.map fun id => (id, f id)) := by
  have hkeys : (ids.eraseDups.map fun id => (id, f id)).map Prod.fst = ids.eraseDups := by
    rw [List.map_map]
    exact List.map_id _
  have hnodup : ((∅ : OrderedMap β).keys ++ (ids.eraseDups.map fun id => (id, f id)).map
      Prod.fst).Nodup := hkeys.symm ▸ Search.nodup_eraseDups ids
  exact ext ((entries_foldl_insert hnodup).trans (entries_ofList_map ids f).symm)

end OrderedMap

theorem filter_eraseDups {p : String → Bool} (ids : List String)
    (honce : ∀ id, p id = true → ids.count id ≤ 1) : ids.eraseDups.filter p = ids.filter p := by
  have hnodup : (ids.filter p).Nodup := by
    refine List.nodup_iff_count_le_one.2 fun id => ?_
    by_cases hid : p id = true
    · rw [List.count_filter hid]
      exact honce id hid
    · rw [List.count_eq_zero_of_not_mem fun hmem => hid (List.mem_filter.1 hmem).2]
      exact Nat.zero_le 1
  rw [← Search.eraseDups_filter, Search.eraseDups_of_nodup hnodup]

namespace Links
variable {α : Type} {l : Links α} {id : String}

/-- The same links between ids that are listed once, each where it was listed first. -/
def distinct (l : Links α) : Links α := { l with ids := l.ids.eraseDups }

theorem nodup_distinct (l : Links α) : l.distinct.ids.Nodup := Search.nodup_eraseDups l.ids

theorem mem_distinct : id ∈ l.distinct.ids ↔ id ∈ l.ids := List.mem_eraseDups

theorem distinct_counts (l : Links α) : l.distinct.counts = l.counts := by
  funext e
  simp [counts, distinct]

theorem distinct_next (l : Links α) : l.distinct.next = l.next := by
  funext id
  rw [next, next, distinct_counts]
  rfl

theorem distinct_degree (l : Links α) : l.distinct.degree = l.degree := by
  funext id
  rw [degree, degree, distinct_counts]
  rfl

theorem distinct_joins (l : Links α) : l.distinct.Joins = l.Joins := by
  funext a b
  rw [Joins, Joins, distinct_counts]
  rfl

theorem distinct_isBehind (l : Links α) : l.distinct.IsBehind id ↔ l.IsBehind id := by
  rw [IsBehind, IsBehind, distinct_joins]

/-- Whatever is listed more than once waits for a link. -/
def RepeatsWait (l : Links α) : Prop := ∀ id, 1 < l.ids.count id → 0 < l.degree id

theorem RepeatsWait.unsorted (h : l.RepeatsWait) : l.distinct.unsorted = l.unsorted := by
  have honce : ∀ id, decide (l.degree id = 0) = true → l.ids.count id ≤ 1 := by
    intro id hid
    by_contra hmore
    have := h id (by omega)
    have := of_decide_eq_true hid
    omega
  rw [Links.unsorted, Links.unsorted, distinct_degree]
  congr 1
  · exact OrderedMap.ofList_eraseDups l.ids _
  · exact filter_eraseDups l.ids honce

theorem RepeatsWait.front (h : l.RepeatsWait) : l.distinct.front = l.front := by
  rw [Links.front, Links.front, h.unsorted, distinct_next]

theorem RepeatsWait.sorted (h : l.RepeatsWait) :
    l.sorted = l.front ++ l.ids.filter fun id => !l.front.contains id := by
  rw [Links.sorted]
  split
  · rfl
  · rename_i hfull
    have hdistinct : l.distinct.sorted = l.front := by
      rw [Links.sorted, h.unsorted, distinct_next]
      exact if_neg hfull
    have hall : ∀ id ∈ l.ids, id ∈ l.front := by
      intro id hid
      have hmem := (sorted_perm l.nodup_distinct).mem_iff.2 (mem_distinct.2 hid)
      rwa [hdistinct] at hmem
    have hnone : l.ids.filter (fun id => !l.front.contains id) = [] := by simpa using hall
    rw [hnone, List.append_nil]
    rfl

theorem RepeatsWait.mem_front_iff (h : l.RepeatsWait) :
    id ∈ l.front ↔ id ∈ l.ids ∧ ¬l.IsBehind id := by
  rw [← h.front, Links.mem_front_iff l.nodup_distinct, mem_distinct, distinct_isBehind]

theorem count_sorted_of_degree (h : l.degree id = 0) : l.ids.count id ≤ l.sorted.count id := by
  have hreleased : l.unsorted.released.count id = l.ids.count id :=
    List.count_filter (decide_eq_true h)
  have hfront : l.unsorted.released.Sublist l.front := (l.unsorted.finish_extends l.next).sublist
  have hsorted : l.front.Sublist l.sorted := by
    rw [Links.sorted]
    split
    · exact List.sublist_append_left _ _
    · exact List.Sublist.refl _
  rw [← hreleased]
  exact (hfront.trans hsorted).count_le id

theorem RepeatsWait.count_sorted (h : l.RepeatsWait) (hbehind : l.IsBehind id) :
    l.ids.count id ≤ l.sorted.count id := by
  have hout : id ∉ l.front := fun hmem => (h.mem_front_iff.1 hmem).2 hbehind
  rw [h.sorted, List.count_append, List.count_filter (by simpa using hout)]
  exact Nat.le_add_left _ _

structure ReleasesRepeats (l : Links α) : Prop where
  waits : l.RepeatsWait
  free : ∀ id, 1 < l.ids.count id → ¬l.IsBehind id

theorem ReleasesRepeats.sorted_distinct (h : l.ReleasesRepeats) :
    l.sorted = l.distinct.sorted := by
  have honce : ∀ id, (!l.front.contains id) = true → l.ids.count id ≤ 1 := by
    intro id hid
    by_contra hmore
    have hlisted : id ∈ l.ids := List.count_pos_iff.1 (by omega)
    have hmem := h.waits.mem_front_iff.2 ⟨hlisted, h.free id (by omega)⟩
    simp [hmem] at hid
  rw [h.waits.sorted, sorted_eq l.nodup_distinct, h.waits.front, distinct,
    filter_eraseDups l.ids honce]

/-- An order without repetitions shows that each repeated id was released in time. -/
theorem releasesRepeats_of_nodup (h : l.sorted.Nodup) : l.ReleasesRepeats := by
  have hmost : ∀ id, l.sorted.count id ≤ 1 := List.nodup_iff_count_le_one.1 h
  have hwait : l.RepeatsWait := by
    intro id hmore
    by_contra hnone
    have hplaced := count_sorted_of_degree (l := l) (show l.degree id = 0 by omega)
    exact absurd (hplaced.trans (hmost id)) (by omega)
  refine ⟨hwait, fun id hmore hbehind => ?_⟩
  have hplaced := hwait.count_sorted hbehind
  exact absurd (hplaced.trans (hmost id)) (by omega)

/-- Repetitions do not show in the order, and do not come back in it, just where each repeated id
waits for a link and is on or behind no cycle. There every id is placed once, and the links of a
graph without cycles go forward. -/
theorem sorted_eq_distinct_iff (l : Links α) :
    (l.sorted = l.distinct.sorted ↔ l.ReleasesRepeats) ∧ (l.sorted.Nodup ↔ l.ReleasesRepeats) ∧
    (l.ReleasesRepeats → (∀ id ∈ l.ids, l.sorted.count id = 1) ∧
      (l.IsAcyclic → ∀ a b, l.Joins a b → l.sorted.idxOf a < l.sorted.idxOf b)) := by
  have hperm : l.distinct.sorted.Perm l.distinct.ids := sorted_perm l.nodup_distinct
  have honce : l.distinct.sorted.Nodup := hperm.nodup_iff.2 l.nodup_distinct
  refine ⟨⟨fun heq => releasesRepeats_of_nodup (heq ▸ honce), ReleasesRepeats.sorted_distinct⟩,
    ⟨releasesRepeats_of_nodup, fun h => h.sorted_distinct ▸ honce⟩, fun h => ?_⟩
  rw [h.sorted_distinct]
  refine ⟨fun id hid => ?_, fun hacyclic a b hjoins => ?_⟩
  · exact List.count_eq_one_of_mem honce (hperm.mem_iff.2 (mem_distinct.2 hid))
  · exact sorted_forward l.nodup_distinct (l.distinct_joins.symm ▸ hjoins)
      fun hbehind => hacyclic.not_isBehind a (l.distinct_isBehind.1 hbehind)

theorem sorted_eq_distinct_iff_waiting : ∃ l : Links Rat, l.ids = ["b", "a", "b"] ∧
    l.sorted = l.distinct.sorted ∧ l.sorted.count "b" = 1 := by
  let l : Links Rat := ⟨["b", "a", "b"], [⟨"ab", "a", "b", "causes", 1⟩], fun _ => true⟩
  have hacyclic : l.IsAcyclic :=
    isAcyclic_of_rank (fun id => ["a", "b"].idxOf id) (by decide)
  have hwaits : ∀ id ∈ l.ids, 1 < l.ids.count id → 0 < l.degree id := by decide
  obtain ⟨heq, -, honce⟩ := sorted_eq_distinct_iff l
  have hreleases : l.ReleasesRepeats :=
    ⟨fun id hmore => hwaits id (List.count_pos_iff.1 (by omega)) hmore,
      fun id _ => hacyclic.not_isBehind id⟩
  exact ⟨l, rfl, heq.2 hreleases, (honce hreleases).1 "b" (by decide)⟩

/-- Listed twice and waiting for nothing, `a` is placed twice, and its one link into `c` is taken
for both. So `c` is placed before `d`, which links to it too. -/
theorem sorted_eq_distinct_backward : ∃ l : Links Rat,
    l.ids = ["a", "a", "b", "d", "c"] ∧ l.IsAcyclic ∧ l.Joins "d" "c" ∧
      l.sorted = ["a", "a", "b", "c", "d"] ∧ l.distinct.sorted = ["a", "b", "d", "c"] := by
  refine ⟨⟨["a", "a", "b", "d", "c"], [⟨"ac", "a", "c", "causes", 1⟩,
    ⟨"bd", "b", "d", "causes", 1⟩, ⟨"dc", "d", "c", "causes", 1⟩], fun _ => true⟩, rfl, ?_,
    mem_next.1 (by decide), by cbv, by cbv⟩
  exact isAcyclic_of_rank (fun id => ["a", "b", "d", "c"].idxOf id) (by decide)

example : (⟨["a", "a", "b"], [⟨"bb", "b", "b", "causes", 1⟩], fun _ => true⟩ :
    Links Rat).sorted = ["a", "a"] := by cbv

end Links
end ReasonGraph
