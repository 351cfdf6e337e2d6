import ReasonGraph.Graph.Order
import Mathlib.Data.Fintype.EquivFin

/-! What the order of ids is good for. An id waits for as many links as come to it from ids not
placed yet, and is released when none is left, so it is placed behind everything that links to it.
What is never released waits for something that is never released either, and without a cycle there
is no such thing. -/

namespace ReasonGraph

namespace OrderedMap
variable {β : Type}

theorem foldl_insert_of_not_mem {l : List (String × β)} {m : OrderedMap β} {k : String}
    (hk : k ∉ l.map Prod.fst) :
    (l.foldl (fun m e => m.insert e.1 e.2) m).get? k = m.get? k := by
  induction l generalizing m with
  | nil => rfl
  | cons first rest ih =>
    rw [List.map_cons, List.mem_cons, not_or] at hk
    rw [List.foldl_cons, ih hk.2, get?_insert, if_neg fun h => hk.1 h.symm]

theorem get?_ofList_map {ids : List String} (hids : ids.Nodup) (f : String → β) {id : String}
    (hid : id ∈ ids) : (ofList (ids.map fun id => (id, f id))).get? id = some (f id) := by
  suffices h : ∀ m : OrderedMap β, ((ids.map fun id => (id, f id)).foldl
      (fun m e => m.insert e.1 e.2) m).get? id = some (f id) from h ∅
  induction ids with
  | nil => cases hid
  | cons first rest ih =>
    intro m
    obtain ⟨hfirst, hrest⟩ := List.nodup_cons.1 hids
    rw [List.map_cons, List.foldl_cons]
    rcases List.mem_cons.1 hid with rfl | hid
    · have hout : id ∉ (rest.map fun id => (id, f id)).map Prod.fst := by simpa using hfirst
      rw [foldl_insert_of_not_mem hout, get?_insert_self]
    · exact ih hrest hid _

theorem keys_foldl_insert (l : List (String × β)) (m : OrderedMap β) :
    (l.foldl (fun m e => m.insert e.1 e.2) m).keys =
      m.keys ++ ((l.map Prod.fst).filter fun k => k ∉ m.keys).eraseDups := by
  induction l generalizing m with
  | nil => simp
  | cons first rest ih =>
    rw [List.foldl_cons, ih, keys_insert, List.map_cons]
    by_cases hfirst : first.1 ∈ m.keys
    · rw [if_pos hfirst, List.filter_cons_of_neg (by simpa using hfirst)]
    · have hrest : ∀ k ∈ rest.map Prod.fst, decide (k ∉ m.keys ++ [first.1]) =
          (!k == first.1 && decide (k ∉ m.keys)) := by
        intro k _
        by_cases hk : k = first.1 <;> simp [hk]
      rw [if_neg hfirst, List.filter_cons_of_pos (by simpa using hfirst), List.eraseDups_cons,
        List.append_assoc, List.filter_filter, List.filter_congr hrest]
      rfl

theorem keys_ofList (l : List (String × β)) : (ofList l).keys = (l.map Prod.fst).eraseDups := by
  rw [ofList, keys_foldl_insert, keys_empty]
  simp

end OrderedMap

namespace Sorting

theorem foldl_release_placed (targets : List String) (s : Sorting) :
    (targets.foldl release s).placed = s.placed := by
  induction targets generalizing s with
  | nil => rfl
  | cons first rest ih => exact ih (s.release first)

theorem release_waiting {s : Sorting} {first id : String} {n : Int}
    (h : s.waiting.get? id = some n) :
    (s.release first).waiting.get? id = some (if first = id then n - 1 else n) := by
  by_cases hsame : first = id
  · subst hsame
    simp [release, h]
  · simp [release, OrderedMap.get?_insert, hsame, h]

theorem foldl_release_waiting {targets : List String} {s : Sorting} {id : String} {n : Int}
    (h : s.waiting.get? id = some n) :
    (targets.foldl release s).waiting.get? id = some (n - targets.count id) := by
  induction targets generalizing s n with
  | nil => simpa using h
  | cons first rest ih =>
    rw [List.foldl_cons, ih (release_waiting h)]
    by_cases hsame : first = id
    · rw [if_pos hsame, hsame, List.count_cons_self]
      congr 1
      omega
    · rw [if_neg hsame, List.count_cons_of_ne hsame]

theorem foldl_release_opened {targets : List String} {s : Sorting} (hs : ∀ id ∈ targets, ∃ n : Int,
      s.waiting.get? id = some n ∧ (targets.count id : Int) ≤ n) :
    ∃ opened, (targets.foldl release s).released = s.released ++ opened ∧ opened.Nodup ∧
      ∀ id, id ∈ opened ↔ id ∈ targets ∧ s.waiting.get? id = some (targets.count id : Int) := by
  induction targets generalizing s with
  | nil => simp
  | cons first rest ih =>
    obtain ⟨n, hn, hcount⟩ := hs first List.mem_cons_self
    rw [List.count_cons_self] at hcount
    have hself : (s.release first).waiting.get? first = some (n - 1) := by
      rw [release_waiting hn, if_pos rfl]
    have hother : ∀ id, id ≠ first →
        (s.release first).waiting.get? id = s.waiting.get? id := fun id hne =>
      (OrderedMap.get?_insert _ _ _ _).trans (if_neg hne.symm)
    have hrest : ∀ id ∈ rest, ∃ n : Int,
        (s.release first).waiting.get? id = some n ∧ (rest.count id : Int) ≤ n := by
      intro id hid
      by_cases hsame : id = first
      · subst hsame
        exact ⟨n - 1, hself, by omega⟩
      · obtain ⟨n', hn', hcount'⟩ := hs id (List.mem_cons_of_mem first hid)
        rw [List.count_cons_of_ne fun h => hsame h.symm] at hcount'
        exact ⟨n', (hother id hsame).trans hn', hcount'⟩
    obtain ⟨opened, hreleased, hnodup, hopened⟩ := ih hrest
    have hmem : ∀ id, id ≠ first → (id ∈ opened ↔
        id ∈ first :: rest ∧ s.waiting.get? id = some ((first :: rest).count id : Int)) := by
      intro id hne
      rw [hopened, hother id hne, List.count_cons_of_ne hne.symm, List.mem_cons]
      simp [hne]
    rw [List.foldl_cons]
    by_cases hlast : n - 1 = 0
    · -- the first id is opened now, so it is not listed again
      have hgone : first ∉ rest := List.count_eq_zero.1 (by omega)
      refine ⟨first :: opened, ?_, ?_, fun id => ?_⟩
      · rw [hreleased]
        simp [release, hn, hlast]
      · exact List.nodup_cons.2 ⟨fun h => hgone ((hopened first).1 h).1, hnodup⟩
      · by_cases hsame : id = first
        · subst hsame
          have hcount' : rest.count id = 0 := List.count_eq_zero.2 hgone
          simp only [List.mem_cons_self, true_and, true_iff, hn, List.count_cons_self]
          congr 1
          omega
        · rw [List.mem_cons, hmem id hsame]
          simp [hsame]
    · refine ⟨opened, ?_, hnodup, fun id => ?_⟩
      · rw [hreleased]
        simp [release, hn, hlast]
      · by_cases hsame : id = first
        · subst hsame
          rw [hopened, hself, hn, List.count_cons_self]
          simp only [List.mem_cons_self, true_and, Option.some.injEq]
          constructor
          · rintro ⟨-, hlinks⟩
            omega
          · intro hlinks
            exact ⟨List.count_pos_iff.1 (by omega), by omega⟩
        · exact hmem id hsame

theorem finish_of_none {next : String → List String} {s : Sorting} (h : s.step? next = none) :
    s.finish next = s := by
  rw [finish, h]

theorem finish_of_some {next : String → List String} {s t : Sorting}
    (h : s.step? next = some t) : s.finish next = t.finish next := by
  rw [finish, h]

end Sorting

namespace Links
variable {α : Type} {l : Links α}

/-- The links into an id from ids not placed yet. -/
def arrears (l : Links α) (placed : List String) (id : String) : Nat :=
  (l.edges.filter fun e => l.counts e && e.target = id && !placed.contains e.source).length

theorem arrears_nil (l : Links α) (id : String) : l.arrears [] id = l.degree id := by
  simp [arrears, degree]

theorem arrears_eq_zero_iff {placed : List String} {id : String} :
    l.arrears placed id = 0 ↔ ∀ p, l.Joins p id → p ∈ placed := by
  rw [arrears, List.length_eq_zero_iff, List.filter_eq_nil_iff]
  constructor
  · rintro h p ⟨e, he, hcounts, rfl, rfl⟩
    by_contra hp
    exact h e he (by simp [hcounts, hp])
  · intro h e he hwaiting
    simp only [Bool.and_eq_true, decide_eq_true_eq, Bool.not_eq_true', List.contains_eq_mem,
      decide_eq_false_iff_not] at hwaiting
    exact hwaiting.2 (h e.source ⟨e, he, hwaiting.1.1, rfl, hwaiting.1.2⟩)

theorem degree_eq_zero_iff {id : String} : l.degree id = 0 ↔ ∀ p, ¬l.Joins p id := by
  rw [← arrears_nil, arrears_eq_zero_iff]
  exact forall_congr' fun p => imp_congr_right fun _ => iff_false_intro List.not_mem_nil

theorem arrears_placed {placed : List String} {x : String} (hx : x ∉ placed) (id : String) :
    l.arrears (placed ++ [x]) id + (l.next x).count id = l.arrears placed id := by
  rw [arrears, arrears, next, List.count, List.countP_map, List.countP_filter,
    ← List.countP_eq_length_filter, ← List.countP_eq_length_filter]
  induction l.edges with
  | nil => rfl
  | cons e rest ih =>
    simp only [List.countP_cons, ← ih]
    by_cases hsource : e.source = x
    · subst hsource
      by_cases hcounts : l.counts e = true <;> by_cases htarget : e.target = id <;>
        simp [hcounts, htarget, hx]
      all_goals omega
    · by_cases hcounts : l.counts e = true <;> by_cases htarget : e.target = id <;>
        by_cases hplaced : e.source ∈ placed <;>
        simp [hcounts, htarget, hsource, hplaced]
      all_goals omega

/-- A sorting under way: each id waits for its arrears, those without are released or placed, and
no id is placed before one that links to it. -/
structure Sifts (l : Links α) (s : Sorting) : Prop where
  waiting : ∀ id ∈ l.ids, s.waiting.get? id = some (l.arrears s.placed id : Int)
  opened : ∀ id, id ∈ s.placed ++ s.released ↔ id ∈ l.ids ∧ l.arrears s.placed id = 0
  nodup : (s.placed ++ s.released).Nodup
  ordered : s.placed.Pairwise fun earlier later => ¬l.Joins later earlier

theorem sifts_unsorted (hids : l.ids.Nodup) : l.Sifts l.unsorted where
  waiting := by
    intro id hid
    rw [unsorted, OrderedMap.get?_ofList_map hids _ hid, arrears_nil]
  opened := by
    intro id
    simp [unsorted, arrears_nil]
  nodup := by simpa [unsorted] using hids.filter _
  ordered := by simp [unsorted]

theorem Sifts.step_opens {s t : Sorting} (hs : l.Sifts s) (h : s.step? l.next = some t) :
    ∃ x rest opened, s.released = x :: rest ∧ t.placed = s.placed ++ [x] ∧
      t.released = rest ++ opened ∧ opened.Nodup ∧
      (∀ id, l.arrears (s.placed ++ [x]) id + (l.next x).count id = l.arrears s.placed id) ∧
      (∀ id ∈ l.ids, t.waiting.get? id = some (l.arrears t.placed id : Int)) ∧
      ∀ id, id ∈ opened ↔ id ∈ l.next x ∧ l.arrears s.placed id = (l.next x).count id := by
  obtain ⟨waiting, released, placed⟩ := s
  cases released with
  | nil => cases h
  | cons x rest =>
    have hx : x ∉ placed := by
      intro hmem
      exact (List.nodup_append.1 hs.nodup).2.2 x hmem x List.mem_cons_self rfl
    have hheld : ∀ id ∈ l.ids, waiting.get? id = some (l.arrears placed id : Int) := hs.waiting
    have hsettled := l.arrears_placed hx
    have htargets : ∀ id ∈ l.next x, ∃ n : Int,
        waiting.get? id = some n ∧ ((l.next x).count id : Int) ≤ n := by
      intro id hid
      have hcount := hsettled id
      exact ⟨_, hheld id (mem_next.1 hid).mem_ids.2, by omega⟩
    obtain ⟨opened, hreleased, hnew, hmem⟩ :=
      Sorting.foldl_release_opened (s := ⟨waiting, rest, placed ++ [x]⟩) htargets
    have hplaced := Sorting.foldl_release_placed (l.next x) ⟨waiting, rest, placed ++ [x]⟩
    obtain rfl := Option.some.inj h
    refine ⟨x, rest, opened, rfl, hplaced, hreleased, hnew, hsettled, fun id hid => ?_,
      fun id => ?_⟩
    · have hcount := hsettled id
      rw [hplaced, Sorting.foldl_release_waiting (s := ⟨waiting, rest, placed ++ [x]⟩)
        (hheld id hid)]
      congr 1
      dsimp only
      omega
    · rw [hmem]
      refine and_congr_right fun hid => ?_
      rw [hheld id (mem_next.1 hid).mem_ids.2, Option.some.injEq, Int.natCast_inj]

theorem Sifts.step {s t : Sorting} (hs : l.Sifts s) (h : s.step? l.next = some t) : l.Sifts t := by
  obtain ⟨x, rest, opened, hfirst, hplaced, hreleased, hnew, hsettled, hwaiting, hopens⟩ :=
    hs.step_opens h
  obtain ⟨-, hopened, hnodup, hordered⟩ := hs
  rw [hfirst] at hopened hnodup
  refine ⟨hwaiting, fun id => ?_, ?_, ?_⟩
  · have hinto : id ∈ s.placed ++ [x] ++ (rest ++ opened) ↔
        id ∈ s.placed ++ x :: rest ∨ id ∈ opened := by
      simp only [List.mem_append, List.mem_cons, List.not_mem_nil, or_false, or_assoc]
    have hcount := hsettled id
    rw [hplaced, hreleased, hinto, hopened, hopens]
    constructor
    · rintro (⟨hid, hzero⟩ | ⟨hid, hall⟩)
      · exact ⟨hid, by omega⟩
      · exact ⟨(mem_next.1 hid).mem_ids.2, by omega⟩
    · rintro ⟨hid, hzero⟩
      by_cases hlisted : id ∈ l.next x
      · exact .inr ⟨hlisted, by omega⟩
      · have hnone := List.count_eq_zero.2 hlisted
        exact .inl ⟨hid, by omega⟩
  · have hapart : ∀ a ∈ s.placed ++ x :: rest, ∀ b ∈ opened, a ≠ b := by
      rintro a ha b hb rfl
      obtain ⟨hlisted, hall⟩ := (hopens a).1 hb
      have hzero := ((hopened a).1 ha).2
      have hpos := List.count_pos_iff.2 hlisted
      omega
    have hsame : s.placed ++ [x] ++ (rest ++ opened) = s.placed ++ x :: rest ++ opened := by simp
    rw [hplaced, hreleased, hsame]
    exact List.nodup_append.2 ⟨hnodup, hnew, hapart⟩
  · rw [hplaced]
    refine List.pairwise_append.2 ⟨hordered, by simp, fun a ha b hb hjoins => ?_⟩
    rw [List.mem_singleton.1 hb] at hjoins
    have hzero := ((hopened a).1 (List.mem_append_left _ ha)).2
    -- what links to a placed id is placed, but this one is only released
    have hx := arrears_eq_zero_iff.1 hzero x hjoins
    exact (List.nodup_append.1 hnodup).2.2 x hx x List.mem_cons_self rfl

theorem Sifts.finish {s : Sorting} (hs : l.Sifts s) :
    l.Sifts (s.finish l.next) ∧ (s.finish l.next).released = [] := by
  induction s using Sorting.finish.induct l.next with
  | case1 s hstep =>
    rw [Sorting.finish_of_none hstep]
    refine ⟨hs, ?_⟩
    cases hreleased : s.released with
    | nil => rfl
    | cons id rest => simp [Sorting.step?, hreleased] at hstep
  | case2 s t hstep ih =>
    rw [Sorting.finish_of_some hstep]
    exact ih (hs.step hstep)

/-- No chain of links leads from an id back to it. -/
def IsAcyclic (l : Links α) : Prop := ∀ id, ¬Relation.TransGen l.Joins id id

theorem isAcyclic_of_rank (rank : String → Nat) (h : ∀ e ∈ l.edges, rank e.source < rank e.target) :
    l.IsAcyclic := by
  have hjoins : ∀ a b, l.Joins a b → rank a < rank b := by
    rintro a b ⟨e, he, -, rfl, rfl⟩
    exact h e he
  intro id hcycle
  have hgrows : ∀ b, Relation.TransGen l.Joins id b → rank id < rank b := by
    intro b hb
    induction hb with
    | single hjoin => exact hjoins _ _ hjoin
    | tail _ hjoin ih => exact ih.trans (hjoins _ _ hjoin)
  exact (hgrows id hcycle).false

/-- On a cycle, or where links from a cycle lead. -/
def IsBehind (l : Links α) (id : String) : Prop :=
  ∃ y, Relation.TransGen l.Joins y y ∧ Relation.ReflTransGen l.Joins y id

theorem isBehind_iff {id : String} : l.IsBehind id ↔ ∃ p, l.Joins p id ∧ l.IsBehind p := by
  constructor
  · rintro ⟨y, hcycle, hleads⟩
    obtain ⟨p, hp, hjoins⟩ := Relation.TransGen.tail'_iff.1 (hcycle.trans_left hleads)
    exact ⟨p, hjoins, y, hcycle, hp⟩
  · rintro ⟨p, hjoins, y, hcycle, hp⟩
    exact ⟨y, hcycle, hp.tail hjoins⟩

theorem not_isBehind_of_degree {id : String} (h : l.degree id = 0) : ¬l.IsBehind id := by
  intro hbehind
  obtain ⟨p, hjoins, -⟩ := isBehind_iff.1 hbehind
  exact degree_eq_zero_iff.1 h p hjoins

theorem IsAcyclic.not_isBehind (h : l.IsAcyclic) (id : String) : ¬l.IsBehind id :=
  fun ⟨y, hcycle, _⟩ => h y hcycle

theorem ahead_induction {P : String → Prop}
    (hstep : ∀ id ∈ l.ids, ¬l.IsBehind id → (∀ p, l.Joins p id → P p) → P id) :
    ∀ id ∈ l.ids, ¬l.IsBehind id → P id := by
  let Before (a b : {id // id ∈ l.ids}) : Prop :=
    Relation.TransGen l.Joins a b ∧ ¬l.IsBehind b
  have htrans : IsTrans _ Before :=
    ⟨fun _ _ _ hab hbc => ⟨Relation.TransGen.trans hab.1 hbc.1, hbc.2⟩⟩
  have hirrefl : Std.Irrefl Before := ⟨fun a ha => ha.2 ⟨a, ha.1, .refl⟩⟩
  have hwell : WellFounded Before := Finite.wellFounded_of_trans_of_irrefl Before
  intro id hid
  refine hwell.induction (C := fun a => ¬l.IsBehind a → P a) ⟨id, hid⟩ fun a ih ha => ?_
  refine hstep a a.2 ha fun p hjoins => ih ⟨p, hjoins.mem_ids.1⟩ ⟨.single hjoins, ha⟩ ?_
  exact fun hp => ha (isBehind_iff.2 ⟨p, hjoins, hp⟩)

/-- Without cycles the links can be followed backwards only so long. -/
theorem IsAcyclic.induction (h : l.IsAcyclic) {P : String → Prop}
    (hstep : ∀ id ∈ l.ids, (∀ p, l.Joins p id → P p) → P id) : ∀ id ∈ l.ids, P id :=
  fun id hid => ahead_induction (fun x hx _ => hstep x hx) id hid (h.not_isBehind id)

theorem Sifts.step_free {s t : Sorting} (hs : l.Sifts s) (h : s.step? l.next = some t)
    (hfree : ∀ id ∈ s.placed ++ s.released, ¬l.IsBehind id) :
    ∀ id ∈ t.placed ++ t.released, ¬l.IsBehind id := by
  intro id hid hbehind
  obtain ⟨p, hjoins, hp⟩ := isBehind_iff.1 hbehind
  obtain ⟨x, rest, opened, hfirst, hplaced, -⟩ := hs.step_opens h
  have hmem := arrears_eq_zero_iff.1 (((hs.step h).opened id).1 hid).2 p hjoins
  refine hfree p ?_ hp
  rw [hplaced, List.mem_append, List.mem_singleton] at hmem
  rw [hfirst, List.mem_append, List.mem_cons]
  exact hmem.imp_right .inl

theorem Sifts.finish_free {s : Sorting} (hs : l.Sifts s)
    (hfree : ∀ id ∈ s.placed ++ s.released, ¬l.IsBehind id) :
    ∀ id ∈ (s.finish l.next).placed, ¬l.IsBehind id := by
  induction s using Sorting.finish.induct l.next with
  | case1 s hstep =>
    rw [Sorting.finish_of_none hstep]
    exact fun id hid => hfree id (List.mem_append_left _ hid)
  | case2 s t hstep ih =>
    rw [Sorting.finish_of_some hstep]
    exact ih (hs.step hstep) (hs.step_free hstep hfree)

def front (l : Links α) : List String := (l.unsorted.finish l.next).placed

theorem mem_front_iff (hids : l.ids.Nodup) {id : String} :
    id ∈ l.front ↔ id ∈ l.ids ∧ ¬l.IsBehind id := by
  have hstart := l.sifts_unsorted hids
  obtain ⟨hs, hdone⟩ := hstart.finish
  have hfree : ∀ id ∈ l.unsorted.placed ++ l.unsorted.released, ¬l.IsBehind id := by
    intro id hid
    exact not_isBehind_of_degree (of_decide_eq_true (List.mem_filter.1 hid).2)
  have hopened : ∀ id, id ∈ l.front ↔ id ∈ l.ids ∧ l.arrears l.front id = 0 := by
    intro id
    have hmem := hs.opened id
    rwa [hdone, List.append_nil] at hmem
  refine ⟨fun hid => ⟨((hopened id).1 hid).1, hstart.finish_free hfree id hid⟩, fun hid => ?_⟩
  refine ahead_induction (P := (· ∈ l.front)) (fun x hx _ hbefore => ?_) id hid.1 hid.2
  exact (hopened x).2 ⟨hx, arrears_eq_zero_iff.2 hbefore⟩

theorem front_nodup (hids : l.ids.Nodup) : l.front.Nodup := by
  obtain ⟨hs, hdone⟩ := (l.sifts_unsorted hids).finish
  have hnodup := hs.nodup
  rwa [hdone, List.append_nil] at hnodup

theorem front_ordered (hids : l.ids.Nodup) :
    l.front.Pairwise fun earlier later => ¬l.Joins later earlier :=
  (l.sifts_unsorted hids).finish.1.ordered

theorem sorted_eq (hids : l.ids.Nodup) :
    l.sorted = l.front ++ l.ids.filter fun id => !l.front.contains id := by
  have hsize : l.unsorted.waiting.size = l.ids.length := by
    let counted := l.ids.map fun id => (id, (l.degree id : Int))
    have hkeys : counted.map Prod.fst = l.ids := by
      rw [List.map_map]
      exact List.map_id l.ids
    have hentries : (OrderedMap.ofList counted).entries = counted :=
      OrderedMap.entries_foldl_insert (m := ∅) (hkeys.symm ▸ hids)
    rw [OrderedMap.size, unsorted, hentries, List.length_map]
  rw [sorted]
  split
  · rfl
  · rename_i hfull
    have hsub : l.front ⊆ l.ids := fun id hid => ((mem_front_iff hids).1 hid).1
    have hlength : l.ids.length ≤ l.front.length := hsize ▸ Nat.le_of_not_lt hfull
    have hperm : l.front.Perm l.ids :=
      ((front_nodup hids).subperm hsub).perm_of_length_le hlength
    have hnone : l.ids.filter (fun id => !l.front.contains id) = [] := by
      simpa using fun id hid => hperm.mem_iff.2 hid
    rw [hnone, List.append_nil]
    rfl

def whole (nodes : List (Node α)) (edges : List (Edge α)) : Links α :=
  ⟨nodes.map Node.id, edges, fun _ => true⟩

theorem joins_whole {nodes : List (Node α)} {edges : List (Edge α)} {edge : Edge α}
    (hedge : edge ∈ edges) (hsource : edge.source ∈ nodes.map Node.id)
    (htarget : edge.target ∈ nodes.map Node.id) :
    (whole nodes edges).Joins edge.source edge.target := by
  refine ⟨edge, hedge, ?_, rfl, rfl⟩
  simp only [counts, whole, Bool.true_and, Bool.and_eq_true, List.contains_iff_mem]
  exact ⟨hsource, htarget⟩

end Links
end ReasonGraph
