import ReasonGraph.Proofs.Filing
import ReasonGraph.Proofs.Passes

/-! How much a pass reads. A pass outward from a node takes one id after another off a queue that
grows while it is drained, and ends nonetheless: an id is expanded once, so an edge is read once in
each direction, and nothing is queued but the target of a change that a reading made. From there the
number of the events is bounded, of a pass and of a call. -/

namespace ReasonGraph
variable {α : Type}

def Registry.readsBack (reg : Registry α) (e : Edge α) : Bool :=
  (reg.get? e.relation).any (·.bidirectional)

def edgesRead (reversed : Bool) (hops : List (Hop α × Rule α)) : List (Edge α) :=
  (hops.filter fun h => h.1.reversed = reversed).map fun h => h.1.edge

/-- At most so many events come in between two ledgers, and none is lost. -/
def Ledger.Appends (before after : Ledger α) (most : Nat) : Prop :=
  ∃ new, after.events = before.events ++ new ∧ new.length ≤ most

namespace Ledger.Appends
variable {a b c : Ledger α} {m n : Nat}

theorem refl (l : Ledger α) : l.Appends l 0 := ⟨[], by simp, Nat.le_refl 0⟩

theorem trans (hab : a.Appends b m) (hbc : b.Appends c n) : a.Appends c (m + n) := by
  obtain ⟨xs, hxs, hm⟩ := hab
  obtain ⟨ys, hys, hn⟩ := hbc
  refine ⟨xs ++ ys, by rw [hys, hxs, List.append_assoc], ?_⟩
  rw [List.length_append]
  exact Nat.add_le_add hm hn

theorem mono (h : a.Appends b m) (hmn : m ≤ n) : a.Appends b n := by
  obtain ⟨new, hnew, hm⟩ := h
  exact ⟨new, hnew, hm.trans hmn⟩

theorem length_le (h : a.Appends b m) : b.events.length ≤ a.events.length + m := by
  obtain ⟨new, hnew, hm⟩ := h
  rw [hnew, List.length_append]
  omega

end Ledger.Appends

theorem settle_appends {pass : Ledger α → Ledger α × Bool} {most : Nat}
    (hpass : ∀ l : Ledger α, l.Appends (pass l).1 most) (cap : Nat) (l : Ledger α) :
    l.Appends (settle pass cap l).ledger ((settle pass cap l).iterations * most) := by
  induction cap generalizing l with
  | zero => exact (Ledger.Appends.refl l).mono (Nat.zero_le _)
  | succ cap ih =>
    have hfirst := hpass l
    rw [settle]
    cases hnext : pass l with
    | mk next changed =>
      rw [hnext] at hfirst
      cases changed with
      | false => exact hfirst.mono (by simp)
      | true => exact (hfirst.trans (ih next)).mono (by simp only [Nat.succ_mul]; omega)

namespace Setting
variable {s : Setting α} {nodes : List (Node α)} {edges : List (Edge α)}

theorem hopsAt_perm (hg : s.graph = .ofLists nodes edges) (id : String) :
    (s.hopsAt id).Perm (s.hops.filter fun h => h.1.source = id) := by
  have hforward : ∀ e : Edge α, (s.registry.forward? e).toList.filter (fun h => h.1.source = id) =
      (if e.source = id then s.registry.forward? e else none).toList := fun e => by
    cases hrule : s.registry.get? e.relation <;> by_cases hid : e.source = id <;>
      simp [Registry.forward?, hrule, hid]
  have hbackward : ∀ e : Edge α, (s.registry.backward? e).toList.filter (fun h => h.1.source = id) =
      (if e.target = id then s.registry.backward? e else none).toList := fun e => by
    cases hrule : (s.registry.get? e.relation).filter (·.bidirectional) <;>
      by_cases hid : e.target = id <;> simp [Registry.backward?, hrule, hid]
  have hhops : s.hops.filter (fun h => h.1.source = id) = edges.flatMap fun e =>
      (if e.source = id then s.registry.forward? e else none).toList ++
        (if e.target = id then s.registry.backward? e else none).toList := by
    have hedges : s.graph.edges = edges := by rw [hg]; rfl
    rw [hops, hedges, List.filter_flatMap]
    refine congrArg edges.flatMap (funext fun e => ?_)
    rw [Registry.readings, List.filter_append, hforward, hbackward]
  rw [hhops, hopsAt, hg, Snapshot.edgesFrom_ofLists, Snapshot.edgesInto_ofLists,
    List.filterMap_filter, List.filterMap_filter, List.filterMap_eq_flatMap_toList,
    List.filterMap_eq_flatMap_toList]
  simpa only [decide_eq_true_eq] using List.flatMap_append_perm edges _ _

theorem subperm_hops (hg : s.graph = .ofLists nodes edges) {ids : List String}
    (hids : ids.Nodup) : (ids.flatMap s.hopsAt).Subperm s.hops := by
  have hparts : (ids.flatMap s.hopsAt).Perm
      (ids.flatMap fun id => s.hops.filter fun h => h.1.source = id) :=
    List.Perm.flatMap_left _ fun id _ => hopsAt_perm hg id
  have hwhole := flatMap_filter_perm (fun h : Hop α × Rule α => h.1.source) s.hops hids
  exact (hparts.trans hwhole).subperm.trans List.filter_sublist.subperm

end Setting

theorem edgesRead_subperm {xs ys : List (Hop α × Rule α)} (h : xs.Subperm ys) (reversed : Bool) :
    (edgesRead reversed xs).Subperm (edgesRead reversed ys) := by
  obtain ⟨zs, hperm, hsub⟩ := h.filter fun h => h.1.reversed = reversed
  exact ⟨_, hperm.map _, hsub.map _⟩

theorem length_edgesRead (hops : List (Hop α × Rule α)) :
    (edgesRead false hops).length + (edgesRead true hops).length = hops.length := by
  have hback : ∀ h ∈ hops, decide (h.1.reversed = true) = !decide (h.1.reversed = false) :=
    fun h _ => by cases h.1.reversed <;> rfl
  rw [edgesRead, edgesRead, List.length_map, List.length_map, List.filter_congr hback,
    ← List.length_append, (List.filter_append_perm _ hops).length_eq]

namespace Registry

theorem edgesRead_readings (reg : Registry α) (e : Edge α) :
    edgesRead false (reg.readings e) = (if reg.has e.relation then [e] else []) ∧
      edgesRead true (reg.readings e) = if reg.readsBack e then [e] else [] := by
  cases hrule : reg.get? e.relation with
  | none => simp [edgesRead, readings, forward?, backward?, has, readsBack, hrule]
  | some r =>
    cases hback : r.bidirectional <;>
      simp [edgesRead, readings, forward?, backward?, has, readsBack, hrule, hback, Option.filter]

end Registry

namespace Setting

def unexpanded (s : Setting α) (expanded : List String) : List String :=
  s.graph.ids.filter fun id => id ∉ expanded

theorem unexpanded_concat (s : Setting α) (expanded : List String) (id : String) :
    s.unexpanded (expanded ++ [id]) = (s.unexpanded expanded).erase id := by
  rw [unexpanded, unexpanded, (s.graph.ids_nodup.filter _).erase_eq_filter, List.filter_filter]
  refine List.filter_congr fun x _ => ?_
  by_cases hx : x = id <;> simp [hx]

theorem edgesRead_hops (s : Setting α) :
    edgesRead false s.hops = (s.graph.edges.filter fun e => s.registry.has e.relation) ∧
      edgesRead true s.hops = s.graph.edges.filter s.registry.readsBack := by
  rw [hops]
  induction s.graph.edges with
  | nil => exact ⟨rfl, rfl⟩
  | cons e rest ih =>
    obtain ⟨hforward, hbackward⟩ := s.registry.edgesRead_readings e
    simp only [edgesRead, List.flatMap_cons, List.filter_append, List.map_append,
      List.filter_cons] at hforward hbackward ih ⊢
    rw [hforward, hbackward, ih.1, ih.2]
    constructor <;> split <;> rfl

theorem length_hops_le (s : Setting α) :
    s.hops.length ≤ s.graph.edges.length + s.graph.edges.countP s.registry.readsBack := by
  obtain ⟨hforward, hbackward⟩ := s.edgesRead_hops
  rw [← length_edgesRead, hforward, hbackward, List.countP_eq_length_filter]
  exact Nat.add_le_add_right (List.length_filter_le _ _) _

end Setting

/-- A pass outward from a node between two turns: the ids queued, those expanded, the latest last,
the readings made so far, and what they left. -/
structure Traversal (α : Type) where
  queue : List String
  expanded : List String
  read : List (Hop α × Rule α)
  ledger : Ledger α
  changed : Bool

def Traversal.start (id : String) (l : Ledger α) : Traversal α := ⟨[id], [], [], l, false⟩

variable [Quantity α]

namespace Setting

def turn? (s : Setting α) (w : Traversal α) : Option (Traversal α) :=
  match w.queue with
  | [] => none
  | id :: rest =>
    if id ∈ w.expanded then some { w with queue := rest }
    else
      let p := s.read w.ledger (s.hopsAt id)
      some
        { queue := rest ++ p.reached
          expanded := w.expanded ++ [id]
          read := w.read ++ s.hopsAt id
          ledger := p.ledger
          changed := w.changed || p.changed }

def turns (s : Setting α) : Nat → Traversal α → Option (Traversal α)
  | 0, w => some w
  | n + 1, w => (s.turn? w).bind (s.turns n)

variable {s : Setting α} {nodes : List (Node α)} {edges : List (Edge α)}

theorem turn?_eq_none_iff {w : Traversal α} : s.turn? w = none ↔ w.queue = [] := by
  obtain ⟨queue, expanded, read, l, changed⟩ := w
  cases queue with
  | nil => simp [turn?]
  | cons id rest =>
    by_cases hid : id ∈ expanded <;> simp [turn?, hid]

theorem turn?_eq_some {w w' : Traversal α} (h : s.turn? w = some w') :
    ∃ id rest, w.queue = id :: rest ∧
      ((id ∈ w.expanded ∧ w' = { w with queue := rest }) ∨
        (id ∉ w.expanded ∧
          w' = { queue := rest ++ (s.read w.ledger (s.hopsAt id)).reached
                 expanded := w.expanded ++ [id]
                 read := w.read ++ s.hopsAt id
                 ledger := (s.read w.ledger (s.hopsAt id)).ledger
                 changed := w.changed || (s.read w.ledger (s.hopsAt id)).changed })) := by
  obtain ⟨queue, expanded, read, l, changed⟩ := w
  cases queue with
  | nil => cases h
  | cons id rest =>
    refine ⟨id, rest, rfl, ?_⟩
    by_cases hid : id ∈ expanded
    · simp only [turn?, if_pos hid, Option.some.injEq] at h
      exact .inl ⟨hid, h.symm⟩
    · simp only [turn?, if_neg hid, Option.some.injEq] at h
      exact .inr ⟨hid, h.symm⟩

theorem length_changes_le (s : Setting α) (t : Table α) (hops : List (Hop α × Rule α)) :
    (s.changes t hops).length ≤ hops.length := by
  induction hops generalizing t with
  | nil => exact Nat.le_refl 0
  | cons h rest ih =>
    have hrest := ih (t.writeAll (s.change? t h).toList)
    rw [changes, List.length_append, List.length_cons, Option.length_toList]
    split
    · omega
    · omega

theorem after_appends (s : Setting α) (l : Ledger α) (hops : List (Hop α × Rule α)) :
    l.Appends (s.after l hops) hops.length :=
  ⟨_, (s.after_changes l hops).2, by
    rw [List.length_map]
    exact s.length_changes_le l.states hops⟩

theorem length_reached_le (s : Setting α) (hops : List (Hop α × Rule α)) (p : Progress α) :
    (hops.foldl s.readOne p).reached.length + p.ledger.events.length ≤
      p.reached.length + (hops.foldl s.readOne p).ledger.events.length := by
  induction hops generalizing p with
  | nil => exact Nat.le_refl _
  | cons h rest ih =>
    have hrest := ih (s.readOne p h)
    rw [List.foldl_cons]
    cases hc : s.change? p.ledger.states h with
    | none =>
      rw [readOne_of_none hc] at hrest ⊢
      exact hrest
    | some c =>
      have hone : (if c.spreads then p.reached ++ [h.1.target] else p.reached).length ≤
          p.reached.length + 1 := by
        cases c.spreads <;> simp
      rw [readOne_of_some hc] at hrest ⊢
      simp only [Ledger.write_events, List.length_append, List.length_singleton] at hrest
      omega

/-- What holds of a pass after some turns: no id was expanded twice, what was read is what is read at
the ids expanded, the ledger is what that left, and every turn was paid by the start or by a change. -/
structure IsSound (s : Setting α) (l : Ledger α) (taken : Nat) (w : Traversal α) : Prop where
  expanded : w.expanded.Nodup
  read : w.read = w.expanded.flatMap s.hopsAt
  ledger : w.ledger = s.after l w.read
  paid : w.queue.length + taken + l.events.length ≤ 1 + w.ledger.events.length

theorem isSound_start (s : Setting α) (id : String) (l : Ledger α) :
    s.IsSound l 0 (.start id l) where
  expanded := .nil
  read := rfl
  ledger := rfl
  paid := by simp [Traversal.start]

theorem IsSound.turn {l : Ledger α} {taken : Nat} {w w' : Traversal α}
    (h : s.IsSound l taken w) (hturn : s.turn? w = some w') : s.IsSound l (taken + 1) w' := by
  obtain ⟨hexpanded, hread, hledger, hpaid⟩ := h
  obtain ⟨id, rest, hqueue, ⟨-, rfl⟩ | ⟨hnew, rfl⟩⟩ := turn?_eq_some hturn
  · rw [hqueue, List.length_cons] at hpaid
    exact ⟨hexpanded, hread, hledger, by simp only; omega⟩
  · have hreached := s.length_reached_le (s.hopsAt id) ⟨w.ledger, false, []⟩
    rw [hqueue, List.length_cons] at hpaid
    constructor
    · rw [List.nodup_append_comm]
      exact List.nodup_cons.2 ⟨hnew, hexpanded⟩
    · simp [hread]
    · rw [s.read_ledger, after_append, ← hledger]
    · simp only [List.length_append]
      simp only [List.length_nil] at hreached
      rw [Setting.read]
      omega

/-- So there are hardly more turns than there are readings in the graph. -/
theorem IsSound.taken_le (hg : s.graph = .ofLists nodes edges) {l : Ledger α} {taken : Nat}
    {w : Traversal α} (h : s.IsSound l taken w) :
    w.read.Subperm s.hops ∧ w.queue.length + taken ≤ s.hops.length + 1 := by
  have hread : w.read.Subperm s.hops := by
    rw [h.read]
    exact subperm_hops hg h.expanded
  have hwritten := (s.after_appends l w.read).length_le
  rw [← h.ledger] at hwritten
  have hlength := hread.length_le
  have hpaid := h.paid
  exact ⟨hread, by omega⟩

theorem exists_turns (hg : s.graph = .ofLists nodes edges) {l : Ledger α} {taken : Nat}
    {w : Traversal α} (h : s.IsSound l taken w) :
    ∃ more done, s.turns more w = some done ∧ s.turn? done = none ∧
      s.IsSound l (taken + more) done := by
  induction hleft : s.hops.length + 1 - taken generalizing taken w with
  | zero =>
    have hqueue : w.queue = [] := by
      have hall := (h.taken_le hg).2
      exact List.length_eq_zero_iff.1 (by omega)
    exact ⟨0, w, rfl, turn?_eq_none_iff.2 hqueue, h⟩
  | succ left ih =>
    cases hturn : s.turn? w with
    | none => exact ⟨0, w, rfl, hturn, h⟩
    | some w' =>
      obtain ⟨more, done, hdone, hend, hsound⟩ := ih (h.turn hturn) (by omega)
      refine ⟨more + 1, done, by rw [turns, hturn, Option.bind_some, hdone], hend, ?_⟩
      rwa [Nat.add_comm more, ← Nat.add_assoc]

theorem expand_skip {id : String} {unexpanded : List String} (hid : id ∉ unexpanded)
    (steps : Nat) (rest : List String) (done : Ledger α × Bool) :
    s.expand steps (id :: rest) unexpanded done = s.expand steps rest unexpanded done := by
  cases steps with
  | zero => rfl
  | succ steps => rw [expand, expand, List.dropWhile_cons_of_pos (by simpa using hid)]

theorem read_of_not_mem (hg : s.graph = .ofLists nodes edges) {id : String}
    (hid : id ∉ s.graph.ids) (l : Ledger α) : s.read l (s.hopsAt id) = ⟨l, false, []⟩ := by
  refine read_of_quiet fun h hh => ?_
  have hsource : s.graph.nodes.get? h.1.source = none := by
    rw [((mem_hopsAt hg).1 hh).2]
    exact (OrderedMap.get?_eq_none_iff _ _).2 hid
  simp [change?, Hop.change?, Hop.evidence?, hsource]

theorem expand_of_turns (hg : s.graph = .ofLists nodes edges) {n steps : Nat}
    {w done : Traversal α} (hdone : s.turns n w = some done) (hend : s.turn? done = none)
    (hsteps : (s.unexpanded w.expanded).length ≤ steps) :
    s.expand steps w.queue (s.unexpanded w.expanded) (w.ledger, w.changed) =
      (done.ledger, done.changed) := by
  induction n generalizing w steps with
  | zero =>
    obtain rfl := Option.some.inj hdone
    rw [turn?_eq_none_iff.1 hend]
    cases steps <;> rfl
  | succ n ih =>
    obtain ⟨w', hturn, hrest⟩ := Option.bind_eq_some_iff.1 hdone
    obtain ⟨id, rest, hqueue, ⟨hold, rfl⟩ | ⟨hnew, rfl⟩⟩ := turn?_eq_some hturn <;> rw [hqueue]
    · rw [expand_skip (by simp [unexpanded, hold])]
      exact ih hrest hsteps
    by_cases hid : id ∈ s.graph.ids
    · have hmem : id ∈ s.unexpanded w.expanded := by simp [unexpanded, hid, hnew]
      have hlength := List.length_erase_of_mem hmem
      have hpos := List.length_pos_of_mem hmem
      obtain ⟨steps, rfl⟩ : ∃ k, steps = k + 1 := ⟨steps - 1, by omega⟩
      have hfewer : (s.unexpanded (w.expanded ++ [id])).length ≤ steps := by
        rw [unexpanded_concat]
        omega
      have hlater := ih hrest hfewer
      rw [unexpanded_concat] at hlater
      rw [expand, List.dropWhile_cons_of_neg (by simpa using hmem)]
      exact hlater
    · -- only the start can be no node, and nothing is read there
      have hmem : id ∉ s.unexpanded w.expanded := by simp [unexpanded, hid]
      have hnothing := read_of_not_mem hg hid w.ledger
      have hsame : s.unexpanded (w.expanded ++ [id]) = s.unexpanded w.expanded := by
        rw [unexpanded_concat, List.erase_of_not_mem hmem]
      have hlater := ih hrest (hsame ▸ hsteps)
      simp only [hsame, hnothing, List.append_nil, Bool.or_false] at hlater
      rw [expand_skip hmem]
      exact hlater

theorem passFrom_ends (hg : s.graph = .ofLists nodes edges) (start : String) (l : Ledger α) :
    ∃ taken done, s.turns taken (.start start l) = some done ∧ done.queue = [] ∧
      s.IsSound l taken done ∧ taken ≤ s.hops.length + 1 ∧
      s.passFrom start l = (done.ledger, done.changed) := by
  obtain ⟨taken, done, hdone, hend, hsound⟩ := exists_turns hg (s.isSound_start start l)
  rw [Nat.zero_add] at hsound
  have hfew := (hsound.taken_le hg).2
  have hall : s.unexpanded [] = s.graph.ids := by simp [unexpanded]
  have hsteps : (s.unexpanded (Traversal.start start l).expanded).length ≤ s.graph.ids.length := by
    rw [Traversal.start, hall]
  have hexpand := expand_of_turns hg hdone hend hsteps
  simp only [Traversal.start, hall] at hexpand
  exact ⟨taken, done, hdone, turn?_eq_none_iff.1 hend, hsound, by omega, hexpand⟩

theorem passes_append (hg : s.graph = .ofLists nodes edges) (l : Ledger α) :
    (∀ start, l.Appends (s.passFrom start l).1
      (edges.length + edges.countP s.registry.readsBack)) ∧
      l.Appends (s.fullPass l).1 (edges.length + edges.countP s.registry.readsBack) := by
  have hmost := s.length_hops_le
  have hedges : s.graph.edges = edges := by rw [hg]; rfl
  rw [hedges] at hmost
  refine ⟨fun start => ?_, ?_⟩
  · obtain ⟨taken, done, -, -, hsound, -, hpass⟩ := passFrom_ends hg start l
    have hread := (hsound.taken_le hg).1.length_le
    rw [hpass, hsound.ledger]
    exact (s.after_appends l done.read).mono (hread.trans hmost)
  · rw [fullPass_ledger]
    exact (s.after_appends l s.hops).mono hmost

end Setting

namespace Engine

/-- A pass reads an edge at most once in each direction. Outward from any id the queue runs empty,
after not many more turns than there are edges to be read; no id was expanded twice, what was read is
what is read at the ids expanded, and forwards as backwards each edge was read no more often than it
is listed. A full pass reads the edges in the order of the list. So either kind of pass accepts at
most so many changes as there are edges, and once more those read backwards too, and a call logs no
more than that for each of its passes. -/
theorem passes_read_once (e : Engine α) (nodes : List (Node α)) (edges : List (Edge α))
    (l : Ledger α) (start : String) :
    let s := e.setting (.ofLists nodes edges)
    let most := edges.length + edges.countP s.registry.readsBack
    (∃ taken done, taken ≤ most + 1 ∧ s.turns taken (.start start l) = some done ∧
        done.queue = [] ∧ done.expanded.Nodup ∧ done.read = done.expanded.flatMap s.hopsAt ∧
        (edgesRead false done.read).Subperm edges ∧
        (edgesRead true done.read).Subperm (edges.filter s.registry.readsBack) ∧
        done.ledger = s.after l done.read ∧
        s.passFrom start l = (done.ledger, done.changed)) ∧
      (edgesRead false s.hops = (edges.filter fun edge => s.registry.has edge.relation) ∧
        edgesRead true s.hops = edges.filter s.registry.readsBack) ∧
      l.Appends (s.passFrom start l).1 most ∧ l.Appends (s.fullPass l).1 most ∧
      (∀ logic r, (e.update start logic nodes edges).2 = .ok r →
        ∃ new, r.events = e.ledger.events ++ new ∧ new.length ≤ r.iterations * most) ∧
      ∀ overrides r, (e.run nodes edges overrides).2 = .ok r →
        r.events.length ≤ r.iterations * most := by
  intro s most
  have hg : s.graph = .ofLists nodes edges := rfl
  have hpasses := fun l => Setting.passes_append hg l
  refine ⟨?_, s.edgesRead_hops, (hpasses l).1 start, (hpasses l).2, fun logic r hr => ?_,
    fun overrides r hr => ?_⟩
  · obtain ⟨taken, done, hdone, hempty, hsound, htaken, hpass⟩ := Setting.passFrom_ends hg start l
    have hread := (hsound.taken_le hg).1
    obtain ⟨hforward, hbackward⟩ := s.edgesRead_hops
    refine ⟨taken, done, htaken.trans (Nat.succ_le_succ s.length_hops_le), hdone, hempty,
      hsound.expanded, hsound.read, ?_, ?_, hsound.ledger, hpass⟩
    · exact (hforward ▸ edgesRead_subperm hread false).trans List.filter_sublist.subperm
    · exact hbackward ▸ edgesRead_subperm hread true
  · have hopening := e.opening_events start logic nodes
    rcases e.update_cases start logic nodes edges with ⟨outcome, hupdate, hanswer⟩ | hupdate
    · rw [hupdate] at hr
      obtain ⟨rfl, -⟩ := hanswer r hr
      exact ⟨[], by rw [List.append_nil]; exact hopening, Nat.zero_le _⟩
    · rw [hupdate] at hr
      obtain rfl := Except.ok.inj hr
      rw [← hopening]
      exact settle_appends (fun l => (hpasses l).1 start) e.config.passes _
  · obtain rfl := result_of_run hr
    have hfew := (settle_appends (fun l => (hpasses l).2) e.config.passes
      (e.start nodes edges overrides)).length_le
    rwa [start_events, List.length_nil, Nat.zero_add] at hfew

theorem passes_read_once_requeued :
    let e : Engine Rat := .new Config.standard .builtin
    let nodes : List (Node Rat) := [⟨"plan", .fact, "", 60⟩, ⟨"outcome", .conclusion, "", 50⟩]
    let edges : List (Edge Rat) := [⟨"first", "plan", "outcome", "supports", 1⟩,
      ⟨"second", "plan", "outcome", "supports", 1⟩, ⟨"back", "outcome", "plan", "causes", 1⟩]
    let s := e.setting (.ofLists nodes edges)
    let l := e.opening "plan" .holds nodes
    (∃ w, s.turns 1 (.start "plan" l) = some w ∧ w.queue = ["outcome", "outcome"]) ∧
      (∃ w, s.turns 2 (.start "plan" l) = some w ∧ w.queue = ["outcome", "plan"]) ∧
      (∃ taken done, taken ≤ 5 ∧ s.turns taken (.start "plan" l) = some done ∧
        done.queue = [] ∧ done.expanded.Nodup) ∧
      ∃ r, (e.update "plan" .holds nodes edges).2 = .ok r ∧ r.iterations = 3 ∧
        r.events.length = 5 ∧ r.events.length ≤ 3 * 4 := by
  intro e nodes edges s l
  have hmost : edges.length + edges.countP s.registry.readsBack = 4 := by decide +kernel
  have hcall : ∃ r, (e.update "plan" .holds nodes edges).2 = .ok r ∧ r.iterations = 3 ∧
      r.events.length = 5 := by
    have hcheck : (e.update "plan" .holds nodes edges).2.toOption.any
        (fun r => r.iterations = 3 ∧ r.events.length = 5) = true := by decide +kernel
    cases hr : (e.update "plan" .holds nodes edges).2 with
    | error _ => rw [hr] at hcheck; cases hcheck
    | ok r =>
      rw [hr] at hcheck
      exact ⟨r, rfl, of_decide_eq_true hcheck⟩
  have hqueues : (s.turns 1 (.start "plan" l)).map Traversal.queue = some ["outcome", "outcome"] ∧
      (s.turns 2 (.start "plan" l)).map Traversal.queue = some ["outcome", "plan"] := by
    decide +kernel
  obtain ⟨w₁, hw₁, hqueue₁⟩ := Option.map_eq_some_iff.1 hqueues.1
  obtain ⟨w₂, hw₂, hqueue₂⟩ := Option.map_eq_some_iff.1 hqueues.2
  obtain ⟨r, hr, hiterations, hlogged⟩ := hcall
  obtain ⟨⟨taken, done, htaken, hdone, hempty, hexpanded, -⟩, -, -, -, hupdate, -⟩ :=
    passes_read_once e nodes edges l "plan"
  obtain ⟨new, hnew, hfew⟩ := hupdate .holds r hr
  have hnone : e.ledger.events = [] := rfl
  rw [hnone, List.nil_append] at hnew
  refine ⟨⟨w₁, hw₁, hqueue₁⟩, ⟨w₂, hw₂, hqueue₂⟩,
    ⟨taken, done, htaken.trans (Nat.succ_le_succ hmost.le), hdone, hempty, hexpanded⟩,
    r, hr, hiterations, hlogged, ?_⟩
  calc r.events.length
    _ = new.length := by rw [hnew]
    _ ≤ r.iterations * (edges.length + edges.countP s.registry.readsBack) := hfew
    _ = 3 * 4 := by rw [hiterations, hmost]

end Engine
end ReasonGraph
