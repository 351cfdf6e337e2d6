import ReasonGraph.Graph.Cycle
import Mathlib.Data.List.Chain

/-! Every cycle the search finds is one. The trail is a walk along the links without a repeated
id, and what is ahead of a stop are links from it. So a link back onto the trail closes the part of
the trail from the id it returns to, and that part is a circuit. The search moves in five ways, and
each keeps this. -/

namespace ReasonGraph

namespace Links
variable {α : Type}

/-- A walk that meets no id twice before it is back where it began. -/
structure IsCircuit (l : Links α) (c : List String) : Prop where
  nodup : c.Nodup
  listed : c ⊆ l.ids
  closed : ∃ first rest, c = first :: rest ∧ (c ++ [first]).IsChain l.Joins

theorem IsCircuit.ne_nil {l : Links α} {c : List String} (h : l.IsCircuit c) : c ≠ [] := by
  obtain ⟨first, rest, rfl, -⟩ := h.closed
  exact List.cons_ne_nil first rest

theorem IsCircuit.joins {l : Links α} {way : List String} (h : l.IsCircuit way) {i : Nat}
    (hi : i < way.length) :
    ∃ a b, way[i]? = some a ∧ way[(i + 1) % way.length]? = some b ∧ l.Joins a b := by
  obtain ⟨first, rest, hc, hchain⟩ := h.closed
  have hlink := List.isChain_iff_getElem.1 hchain i (by simp; omega)
  rw [List.getElem_append_left hi] at hlink
  refine ⟨_, _, List.getElem?_eq_getElem hi, ?_, hlink⟩
  rcases Nat.lt_or_ge (i + 1) way.length with hlt | hge
  · rw [Nat.mod_eq_of_lt hlt, List.getElem?_eq_getElem hlt, List.getElem_append_left hlt]
  · have hlast : i + 1 = way.length := by omega
    rw [List.getElem_append_right hge]
    simp [hlast, hc]

end Links

namespace Search
variable {α : Type} {next : String → List String} {s t : Search}

@[simp] theorem path_nil {unvisited : List String} {found : List (List String)} :
    path ⟨unvisited, [], found⟩ = [] := rfl

@[simp] theorem path_cons {unvisited : List String} {stop : Stop} {rest : List Stop}
    {found : List (List String)} :
    path ⟨unvisited, stop :: rest, found⟩ = (rest.map Stop.id).reverse ++ [stop.id] := by
  simp [path]

/-- A step, by what it does to the trail. -/
inductive Moves (next : String → List String) : Search → Search → Prop
  | root {id : String} {rest : List String} {found : List (List String)} :
    Moves next ⟨id :: rest, [], found⟩ ⟨rest, [⟨id, next id⟩], found⟩
  | leave {unvisited : List String} {id : String} {rest : List Stop}
      {found : List (List String)} :
    Moves next ⟨unvisited, ⟨id, []⟩ :: rest, found⟩ ⟨unvisited, rest, found⟩
  | close {unvisited : List String} {id b : String} {ahead : List String} {rest : List Stop}
      {found : List (List String)} (hb : b ∈ (rest.map Stop.id).reverse ++ [id]) :
    Moves next ⟨unvisited, ⟨id, b :: ahead⟩ :: rest, found⟩
      ⟨unvisited, ⟨id, ahead⟩ :: rest, found ++ [loopFrom b ((rest.map Stop.id).reverse ++ [id])]⟩
  | enter {unvisited : List String} {id b : String} {ahead : List String} {rest : List Stop}
      {found : List (List String)} (hb : b ∉ (rest.map Stop.id).reverse ++ [id])
      (hnew : b ∈ unvisited) :
    Moves next ⟨unvisited, ⟨id, b :: ahead⟩ :: rest, found⟩
      ⟨unvisited.erase b, ⟨b, next b⟩ :: ⟨id, ahead⟩ :: rest, found⟩
  | pass {unvisited : List String} {id b : String} {ahead : List String} {rest : List Stop}
      {found : List (List String)} (hb : b ∉ (rest.map Stop.id).reverse ++ [id])
      (hold : b ∉ unvisited) :
    Moves next ⟨unvisited, ⟨id, b :: ahead⟩ :: rest, found⟩ ⟨unvisited, ⟨id, ahead⟩ :: rest, found⟩

theorem moves_of_step? (h : s.step? next = some t) : Moves next s t := by
  obtain ⟨unvisited, trail, found⟩ := s
  cases trail with
  | nil =>
    cases unvisited with
    | nil => cases h
    | cons id rest =>
      cases h
      exact .root
  | cons stop rest =>
    obtain ⟨id, ahead⟩ := stop
    cases ahead with
    | nil =>
      cases h
      exact .leave
    | cons b ahead =>
      simp only [step?, path_cons] at h
      split at h
      case isTrue hb =>
        cases h
        exact .close hb
      case isFalse hb =>
        split at h
        case isTrue hnew =>
          cases h
          exact .enter hb hnew
        case isFalse hold =>
          cases h
          exact .pass hb hold

theorem finish_induction {P : Search → Prop} (hstart : P s)
    (hmove : ∀ {s t : Search}, Moves next s t → P s → P t) : P (s.finish next) := by
  induction s using Search.finish.induct next with
  | case1 s hstep => rwa [finish_of_none hstep]
  | case2 s t hstep ih =>
    rw [finish_of_some hstep]
    exact ih (hmove (moves_of_step? hstep) hstart)

structure OnLinks (l : Links α) (s : Search) : Prop where
  distinct : (s.path ++ s.unvisited).Nodup
  listed : s.path ++ s.unvisited ⊆ l.ids
  walk : s.path.IsChain l.Joins
  ahead : ∀ stop ∈ s.trail, ∀ b ∈ stop.ahead, l.Joins stop.id b
  circuits : ∀ c ∈ s.found, l.IsCircuit c

theorem loopFrom_eq_cons {id : String} {path : List String} (hid : id ∈ path) :
    ∃ older rest, path = older ++ id :: rest ∧ loopFrom id path = id :: rest := by
  obtain ⟨older, rest, hsplit, hfirst⟩ := List.eq_append_cons_of_mem hid
  refine ⟨older, rest, hsplit, ?_⟩
  have hdrop : ∀ x ∈ older, decide (x ≠ id) = true := fun x hx =>
    decide_eq_true fun h => hfirst (h ▸ hx)
  rw [loopFrom, hsplit, List.dropWhile_append_of_pos hdrop, List.dropWhile_cons_of_neg (by simp)]

theorem getLast?_loopFrom {id b : String} {before : List String} (hb : b ∈ before ++ [id]) :
    (loopFrom b (before ++ [id])).getLast? = some id := by
  obtain ⟨older, rest, hsplit, hloop⟩ := loopFrom_eq_cons hb
  rw [hloop, ← List.getLast?_append_of_ne_nil older (List.cons_ne_nil b rest), ← hsplit,
    List.getLast?_concat]

theorem isCircuit_loopFrom {l : Links α} {id b : String} {before : List String}
    (hb : b ∈ before ++ [id]) (hnodup : (before ++ [id]).Nodup) (hlisted : before ++ [id] ⊆ l.ids)
    (hwalk : (before ++ [id]).IsChain l.Joins) (hback : l.Joins id b) :
    l.IsCircuit (loopFrom b (before ++ [id])) := by
  have hlast := getLast?_loopFrom hb
  obtain ⟨older, rest, hsplit, hloop⟩ := loopFrom_eq_cons hb
  have hsuffix : b :: rest <:+ before ++ [id] := ⟨older, hsplit.symm⟩
  rw [hloop] at hlast ⊢
  refine ⟨hnodup.sublist hsuffix.sublist, fun x hx => hlisted (hsuffix.subset hx),
    b, rest, rfl, ?_⟩
  refine (hwalk.suffix hsuffix).append (List.isChain_singleton b) fun x hx y hy => ?_
  obtain rfl : id = x := by simpa [hlast] using hx
  obtain rfl : b = y := by simpa using hy
  exact hback

theorem nodup_eraseDups : (ids : List String) → ids.eraseDups.Nodup
  | [] => .nil
  | id :: rest => by
    rw [List.eraseDups_cons, List.nodup_cons]
    exact ⟨by simp, nodup_eraseDups _⟩
termination_by ids => ids.length
decreasing_by exact Nat.lt_succ_of_le (List.length_filter_le _ rest)

theorem eraseDups_filter (p : String → Bool) : (ids : List String) →
    (ids.filter p).eraseDups = ids.eraseDups.filter p
  | [] => rfl
  | id :: rest => by
    have ih := eraseDups_filter p (rest.filter fun x => !x == id)
    rw [List.filter_filter] at ih
    rw [List.eraseDups_cons]
    by_cases hid : p id = true
    · rw [List.filter_cons_of_pos hid, List.filter_cons_of_pos hid, List.eraseDups_cons,
        List.filter_filter, ← ih]
      refine congrArg (fun others => id :: List.eraseDups others) ?_
      exact List.filter_congr fun x _ => Bool.and_comm _ _
    · rw [List.filter_cons_of_neg hid, List.filter_cons_of_neg hid, ← ih]
      refine congrArg List.eraseDups (List.filter_congr fun x _ => ?_)
      by_cases hx : x = id
      · subst hx
        simp [hid]
      · simp [hx]
termination_by ids => ids.length
decreasing_by exact Nat.lt_succ_of_le (List.length_filter_le _ rest)

theorem eraseDups_of_nodup {ids : List String} (h : ids.Nodup) : ids.eraseDups = ids := by
  induction ids with
  | nil => rfl
  | cons id rest ih =>
    obtain ⟨hid, hrest⟩ := List.nodup_cons.1 h
    have hall : ∀ x ∈ rest, (!x == id) = true := by
      intro x hx
      have hne : x ≠ id := fun hsame => hid (hsame ▸ hx)
      simpa using hne
    rw [List.eraseDups_cons, List.filter_eq_self.2 hall, ih hrest]

theorem onLinks_start (l : Links α) : OnLinks l l.start where
  distinct := nodup_eraseDups l.ids
  listed _ hid := List.mem_eraseDups.1 hid
  walk := .nil
  ahead _ hstop := absurd hstop List.not_mem_nil
  circuits _ hc := absurd hc List.not_mem_nil

theorem ahead_tail {l : Links α} {id b : String} {ahead : List String} {rest : List Stop}
    (h : ∀ stop ∈ (⟨id, b :: ahead⟩ : Stop) :: rest, ∀ x ∈ stop.ahead, l.Joins stop.id x) :
    ∀ stop ∈ (⟨id, ahead⟩ : Stop) :: rest, ∀ x ∈ stop.ahead, l.Joins stop.id x := by
  rw [List.forall_mem_cons] at h ⊢
  exact ⟨fun x hx => h.1 x (List.mem_cons_of_mem b hx), h.2⟩

/-- Each of the five moves keeps the search on the links. -/
theorem OnLinks.move {l : Links α} (h : OnLinks l s) (hmove : Moves l.next s t) : OnLinks l t := by
  obtain ⟨hdistinct, hlisted, hwalk, hahead, hcircuits⟩ := h
  cases hmove with
  | @root id rest found =>
    refine ⟨hdistinct, hlisted, List.isChain_singleton id, fun stop hstop b hb => ?_, hcircuits⟩
    obtain rfl := List.mem_singleton.1 hstop
    exact Links.mem_next.1 hb
  | @leave unvisited id rest found =>
    rw [path_cons] at hdistinct hlisted hwalk
    have hsub : List.Sublist ((rest.map Stop.id).reverse ++ unvisited)
        ((rest.map Stop.id).reverse ++ [id] ++ unvisited) :=
      (List.sublist_append_left _ [id]).append_right unvisited
    exact ⟨hdistinct.sublist hsub, fun x hx => hlisted (hsub.subset hx), hwalk.left_of_append,
      fun stop hstop => hahead stop (List.mem_cons_of_mem _ hstop), hcircuits⟩
  | @close unvisited id b ahead rest found hb =>
    rw [path_cons] at hdistinct hlisted hwalk
    refine ⟨by rwa [path_cons], by rwa [path_cons], by rwa [path_cons], ahead_tail hahead,
      fun c hc => ?_⟩
    rcases List.mem_append.1 hc with hc | hc
    · exact hcircuits c hc
    · obtain rfl := List.mem_singleton.1 hc
      exact isCircuit_loopFrom hb (List.nodup_append.1 hdistinct).1
        (fun x hx => hlisted (List.mem_append_left _ hx)) hwalk
        (hahead _ List.mem_cons_self b List.mem_cons_self)
  | @enter unvisited id b ahead rest found hb hnew =>
    rw [path_cons] at hdistinct hlisted hwalk
    -- The id entered moves from the unvisited ids to the end of the path.
    have hperm : ((rest.map Stop.id).reverse ++ [id] ++ [b] ++ unvisited.erase b).Perm
        ((rest.map Stop.id).reverse ++ [id] ++ unvisited) := by
      rw [List.append_assoc _ [b]]
      exact (List.perm_cons_erase hnew).symm.append_left _
    have hlink : l.Joins id b := hahead _ List.mem_cons_self b List.mem_cons_self
    have hpath : path ⟨unvisited.erase b, ⟨b, l.next b⟩ :: ⟨id, ahead⟩ :: rest, found⟩ =
        (rest.map Stop.id).reverse ++ [id] ++ [b] := by
      rw [path_cons, List.map_cons, List.reverse_cons]
    refine ⟨?_, ?_, ?_, List.forall_mem_cons.2 ⟨fun x hx => Links.mem_next.1 hx,
      ahead_tail hahead⟩, hcircuits⟩
    · rw [hpath]
      exact hperm.nodup_iff.2 hdistinct
    · rw [hpath]
      exact fun x hx => hlisted (hperm.subset hx)
    · rw [hpath]
      refine hwalk.append (List.isChain_singleton b) fun x hx y hy => ?_
      obtain rfl : id = x := by simpa using hx
      obtain rfl : b = y := by simpa using hy
      exact hlink
  | @pass unvisited id b ahead rest found hb hold =>
    exact ⟨by simpa using hdistinct, by simpa using hlisted, by simpa using hwalk,
      ahead_tail hahead, hcircuits⟩

theorem onLinks_finish (l : Links α) : OnLinks l (l.start.finish l.next) :=
  finish_induction (onLinks_start l) fun hmove h => h.move hmove

end Search

/-- Every cycle found is one: it has an id, all its ids are listed and no two are the same, and from
each there is a selected edge to the one after it, from the last to the first. -/
theorem Links.cycles_sound {α : Type} (l : Links α) {cycle : List String} (hc : cycle ∈ l.cycles) :
    cycle ≠ [] ∧ cycle.Nodup ∧ (∀ id ∈ cycle, id ∈ l.ids) ∧
      ∀ i < cycle.length, ∃ e ∈ l.edges, l.selects e.relation = true ∧
        cycle[i]? = some e.source ∧ cycle[(i + 1) % cycle.length]? = some e.target := by
  have hcircuit : l.IsCircuit cycle := (Search.onLinks_finish l).circuits cycle hc
  refine ⟨hcircuit.ne_nil, hcircuit.nodup, fun id hid => hcircuit.listed hid, fun i hi => ?_⟩
  obtain ⟨_, _, hsource, htarget, e, he, hcounts, rfl, rfl⟩ := hcircuit.joins hi
  simp only [Links.counts, Bool.and_eq_true] at hcounts
  exact ⟨e, he, hcounts.1.1, hsource, htarget⟩

theorem Links.cycles_sound_repeated : ∃ l : Links Rat,
    l.ids = ["a", "b", "a", "c"] ∧ l.cycles = [["a", "b"], ["c"]] ∧
      (∃ e ∈ l.edges, l.selects e.relation = true ∧ e.source = "a" ∧ e.target = "b") ∧
      ∃ e ∈ l.edges, l.selects e.relation = true ∧ e.source = "b" ∧ e.target = "a" := by
  have hcycles : (⟨["a", "b", "a", "c"], [⟨"ab", "a", "b", "depends", 1⟩,
      ⟨"ax", "a", "x", "depends", 1⟩, ⟨"bc", "b", "c", "supports", 1⟩,
      ⟨"ba", "b", "a", "causes", 1⟩, ⟨"cc", "c", "c", "causes", 1⟩],
      isImplication⟩ : Links Rat).cycles = [["a", "b"], ["c"]] := by cbv
  have hsound := (Links.cycles_sound _ (hcycles ▸ List.mem_cons_self)).2.2.2
  obtain ⟨e, he, hselected, hsource, htarget⟩ := hsound 0 (by decide)
  obtain ⟨e', he', hselected', hsource', htarget'⟩ := hsound 1 (by decide)
  exact ⟨_, rfl, hcycles,
    ⟨e, he, hselected, (Option.some.inj hsource).symm, (Option.some.inj htarget).symm⟩,
    ⟨e', he', hselected', (Option.some.inj hsource').symm, (Option.some.inj htarget').symm⟩⟩

end ReasonGraph
