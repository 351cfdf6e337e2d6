import ReasonGraph.Proofs.Circuits
import ReasonGraph.Proofs.Precedence
import ReasonGraph.Proofs.Filing
import Mathlib.Data.Finset.Basic

/-! The books of the search for cycles. While it walks the links the search keeps four records side by
side: the path, the ids marked as being on it, for each of them the links not followed yet, and the ids
visited at all. Each turn of its loops writes to several of them, and takes for granted that they fit
together. They do, so no turn ever looks for something that is not there, and the turns can be counted
beforehand. -/

namespace ReasonGraph

namespace Links
variable {α : Type}

def addLink (l : Links α) (links : OrderedMap (List String)) (e : Edge α) :
    OrderedMap (List String) :=
  if l.selects e.relation && links.contains e.source && links.contains e.target then
    links.insert e.source ((links.get? e.source).getD [] ++ [e.target])
  else links

def successors (l : Links α) : OrderedMap (List String) :=
  l.edges.foldl l.addLink (OrderedMap.ofList (l.ids.map fun id => (id, [])))

theorem get?_successors (l : Links α) (id : String) :
    l.successors.get? id = if id ∈ l.ids then some (l.next id) else none := by
  rw [successors, next]
  induction l.edges using List.reverseRecOn generalizing id with
  | nil =>
    by_cases hid : id ∈ l.ids
    · have hkey : id ∈ (OrderedMap.ofList (l.ids.map fun id => (id, ([] : List String)))).keys := by
        rw [OrderedMap.mem_keys_ofList, List.map_map]
        exact List.mem_map_of_mem hid
      obtain ⟨ahead, hahead⟩ := OrderedMap.mem_keys_iff.1 hkey
      obtain ⟨_, -, hentry⟩ := List.mem_map.1 (OrderedMap.mem_ofList (OrderedMap.mem_of_find hahead))
      obtain ⟨rfl, rfl⟩ := Prod.mk.inj hentry
      rw [if_pos hid]
      exact hahead
    · rw [if_neg hid, List.foldl_nil, OrderedMap.get?_eq_none_iff, OrderedMap.mem_keys_ofList,
        List.map_map]
      exact fun hkey => hid (by simpa using hkey)
  | append_singleton earlier e ih =>
    have hlisted : ∀ x, (earlier.foldl l.addLink (OrderedMap.ofList (l.ids.map fun id =>
        (id, [])))).contains x = l.ids.contains x := by
      intro x
      rw [OrderedMap.contains, ih]
      by_cases hx : x ∈ l.ids <;> simp [hx]
    rw [List.foldl_append, List.foldl_cons, List.foldl_nil, addLink, hlisted, hlisted, ← counts,
      List.filter_append, List.map_append]
    cases hcounts : l.counts e with
    | false =>
      rw [if_neg Bool.false_ne_true, ih, List.filter_cons_of_neg (by simp [hcounts]),
        List.filter_nil, List.map_nil, List.append_nil]
    | true =>
      have hsource : e.source ∈ l.ids := by
        simp only [counts, Bool.and_eq_true, List.contains_iff_mem] at hcounts
        exact hcounts.1.2
      rw [if_pos rfl, OrderedMap.get?_insert, ih, ih, if_pos hsource, Option.getD_some]
      by_cases hid : e.source = id
      · subst hid
        simp [hsource, hcounts]
      · simp [hid]

end Links

/-- What the search may look for in vain. -/
inductive Slip where
  | unlistedId (id : String)
  | notOnPath (id : String)
  | notMarked (id : String)
  | pathEmpty

/-- The books between two turns: the ids at which no search was begun yet, those visited, those marked
as on the path, the path, for each id of the path the links not followed yet, and the cycles found. -/
structure Books where
  roots : List String
  visited : Finset String
  marked : Finset String
  path : List String
  pending : List (List String)
  cycles : List (List String)

namespace Books

def start (ids : List String) : Books := ⟨ids, ∅, ∅, [], [], []⟩

def IsDone (b : Books) : Prop := b.roots = [] ∧ b.pending = []

/-- One turn of the outer loop if no link is pending, and else one of the inner loop. -/
def turn (links : OrderedMap (List String)) (b : Books) : Except Slip Books :=
  match b.pending.getLast? with
  | none =>
    match b.roots with
    | [] => .ok b
    | root :: rest =>
      if root ∈ b.visited then .ok { b with roots := rest }
      else
        match links.get? root with
        | none => .error (.unlistedId root)
        | some ahead => .ok
          { b with
            roots := rest
            visited := insert root b.visited
            marked := insert root b.marked
            path := [root]
            pending := [ahead] }
  | some [] =>
    match b.path.getLast? with
    | none => .error .pathEmpty
    | some id =>
      if id ∈ b.marked then .ok
        { b with
          marked := b.marked.erase id
          path := b.path.dropLast
          pending := b.pending.dropLast }
      else .error (.notMarked id)
  | some (id :: ahead) =>
    let pending := b.pending.dropLast ++ [ahead]
    if id ∈ b.marked then
      match b.path.idxOf? id with
      | none => .error (.notOnPath id)
      | some i => .ok { b with pending, cycles := b.cycles ++ [b.path.drop i] }
    else if id ∈ b.visited then .ok { b with pending }
    else
      match links.get? id with
      | none => .error (.unlistedId id)
      | some further => .ok
        { b with
          visited := insert id b.visited
          marked := insert id b.marked
          path := b.path ++ [id]
          pending := pending ++ [further] }

def Enters (id : String) (b b' : Books) : Prop := b'.path = b.path ++ [id]

structure IsKept {α : Type} (l : Links α) (b : Books) : Prop where
  distinct : b.path.Nodup
  marked : b.marked = b.path.toFinset
  visited : b.marked ⊆ b.visited
  level : b.pending.length = b.path.length
  walk : b.path.IsChain l.Joins

end Books

namespace Search
variable {α : Type} {l : Links α} {roots : List String} {visited : Finset String} {s t : Search}

def books (s : Search) (roots : List String) (visited : Finset String) : Books where
  roots := roots
  visited := visited
  marked := s.path.toFinset
  path := s.path
  pending := (s.trail.map Stop.ahead).reverse
  cycles := s.found

/-- A search has come as far as its books say: not visited are, in the order of their first mention,
the ids left to begin with that were not visited. -/
structure IsAt (l : Links α) (roots : List String) (visited : Finset String) (s : Search) : Prop where
  onLinks : OnLinks l s
  unvisited : s.unvisited = (roots.filter fun id => id ∉ visited).eraseDups
  visited : ∀ id, id ∈ visited ↔ id ∈ l.ids ∧ id ∉ s.unvisited
  ends : s.finish l.next = l.start.finish l.next

theorem isAt_start (l : Links α) : IsAt l l.ids ∅ l.start where
  onLinks := onLinks_start l
  unvisited := by simp [Links.start]
  visited := by simp [Links.start]
  ends := rfl

def turnsLeft (next : String → List String) (roots : List String) (s : Search) : Nat :=
  roots.length + s.work + ((s.unvisited.flatMap next).length + s.unvisited.length)

theorem mem_path_listed (h : OnLinks l s) {id : String} (hid : id ∈ s.path) :
    id ∈ l.ids ∧ id ∉ s.unvisited :=
  ⟨h.listed (List.mem_append_left _ hid), fun hnew =>
    (List.nodup_append.1 h.distinct).2.2 id hid id hnew rfl⟩

theorem IsAt.isKept (h : IsAt l roots visited s) : (s.books roots visited).IsKept l where
  distinct := (List.nodup_append.1 h.onLinks.distinct).1
  marked := rfl
  visited := fun id hid => (h.visited id).2 (mem_path_listed h.onLinks (List.mem_toFinset.1 hid))
  level := by simp [books, path]
  walk := h.onLinks.walk

theorem IsAt.isDone_iff (h : IsAt l roots visited s) :
    (s.books roots visited).IsDone ↔ turnsLeft l.next roots s = 0 := by
  obtain ⟨unvisited, trail, found⟩ := s
  constructor
  · rintro ⟨hroots, hpending⟩
    obtain rfl : roots = [] := hroots
    obtain rfl : trail = [] := by simpa [books] using hpending
    obtain rfl : unvisited = [] := h.unvisited
    rfl
  · intro hnone
    have hroots : roots.length = 0 := by
      rw [turnsLeft] at hnone
      omega
    cases trail with
    | nil => exact ⟨List.length_eq_zero_iff.1 hroots, rfl⟩
    | cons stop rest =>
      simp only [turnsLeft, work, remaining] at hnone
      omega

theorem step?_of_moves {next : String → List String} (h : Moves next s t) :
    s.step? next = some t := by
  cases h with
  | root => rfl
  | leave => rfl
  | close hb => simp [step?, hb]
  | enter hb hnew => simp [step?, hb, hnew]
  | pass hb hold => simp [step?, hb, hold]

theorem IsAt.stays (h : IsAt l roots visited s) (hmove : Moves l.next s t)
    (hsame : t.unvisited = s.unvisited) : IsAt l roots visited t where
  onLinks := h.onLinks.move hmove
  unvisited := hsame.trans h.unvisited
  visited := by rw [hsame]; exact h.visited
  ends := by rw [← finish_of_some (step?_of_moves hmove), h.ends]

theorem IsAt.visits (h : IsAt l roots visited s) (hmove : Moves l.next s t) {id : String}
    (hid : id ∈ s.unvisited) (hgone : t.unvisited = s.unvisited.erase id) :
    IsAt l roots (insert id visited) t where
  onLinks := h.onLinks.move hmove
  unvisited := by
    -- what has no repetitions loses an id by one more test
    rw [hgone, (List.nodup_append.1 h.onLinks.distinct).2.1.erase_eq_filter, h.unvisited,
      ← eraseDups_filter, List.filter_filter]
    refine congrArg List.eraseDups (List.filter_congr fun x _ => ?_)
    by_cases hx : x = id <;> simp [hx]
  visited := by
    have hnodup := (List.nodup_append.1 h.onLinks.distinct).2.1
    have hlisted := h.onLinks.listed (List.mem_append_right _ hid)
    intro x
    rw [Finset.mem_insert, h.visited, hgone, hnodup.mem_erase_iff]
    by_cases hx : x = id
    · subst hx
      simp [hlisted]
    · simp [hx]
  ends := by rw [← finish_of_some (step?_of_moves hmove), h.ends]

theorem IsAt.skip {root : String} {rest : List String} (h : IsAt l (root :: rest) visited s)
    (hroot : root ∈ visited) : IsAt l rest visited s where
  onLinks := h.onLinks
  unvisited := by rw [h.unvisited, List.filter_cons_of_neg (by simp [hroot])]
  visited := h.visited
  ends := h.ends

theorem length_flatMap_erase (next : String → List String) {unvisited : List String} {id : String}
    (hid : id ∈ unvisited) :
    (unvisited.flatMap next).length + unvisited.length =
      ((unvisited.erase id).flatMap next).length + (unvisited.erase id).length +
        ((next id).length + 1) := by
  have hperm := List.perm_cons_erase hid
  rw [hperm.length_eq, (hperm.flatMap_right next).length_eq, List.flatMap_cons,
    List.length_append, List.length_cons]
  omega

theorem toFinset_concat (path : List String) (id : String) :
    (path ++ [id]).toFinset = insert id path.toFinset := by
  ext x
  simp

theorem books_cons (unvisited : List String) (id : String) (ahead : List String)
    (rest : List Stop) (found : List (List String)) :
    books ⟨unvisited, ⟨id, ahead⟩ :: rest, found⟩ roots visited =
      ⟨roots, visited, ((rest.map Stop.id).reverse ++ [id]).toFinset,
        (rest.map Stop.id).reverse ++ [id], (rest.map Stop.ahead).reverse ++ [ahead], found⟩ := by
  rw [books, path_cons, List.map_cons, List.reverse_cons]

theorem exists_idxOf? {id : String} {path : List String} (hid : id ∈ path) :
    ∃ i, path.idxOf? id = some i ∧ path.drop i = loopFrom id path := by
  have hlt : path.findIdx (· == id) < path.length :=
    List.findIdx_lt_length_of_exists ⟨id, hid, beq_self_eq_true id⟩
  refine ⟨_, List.findIdx?_eq_some_iff_findIdx_eq.2 ⟨hlt, rfl⟩, ?_⟩
  have htest : (fun x => !decide (x ≠ id)) = (· == id) := by
    funext x
    by_cases hx : x = id <;> simp [hx]
  rw [loopFrom, List.dropWhile_eq_drop_findIdx_not, htest]

/-- The next turn of the books slips nowhere. It is a move of the search, or passes over an id to begin
with, or everything is done. -/
def Advances (l : Links α) (roots : List String) (visited : Finset String) (s : Search) : Prop :=
  ∃ roots' visited' t, (s.books roots visited).turn l.successors = .ok (t.books roots' visited') ∧
    IsAt l roots' visited' t ∧ (t = s ∨ Moves l.next s t) ∧
    turnsLeft l.next roots' t = turnsLeft l.next roots s - 1

theorem IsAt.successors (h : IsAt l roots visited s) {id : String} (hid : id ∈ s.unvisited) :
    l.successors.get? id = some (l.next id) := by
  rw [Links.get?_successors, if_pos (h.onLinks.listed (List.mem_append_right _ hid))]

theorem IsAt.advances_root {unvisited : List String} {found : List (List String)}
    (h : IsAt l roots visited ⟨unvisited, [], found⟩) :
    Advances l roots visited ⟨unvisited, [], found⟩ := by
  cases roots with
  | nil =>
    have hnone := h.isDone_iff.1 ⟨rfl, rfl⟩
    exact ⟨[], visited, _, rfl, h, .inl rfl, by rw [hnone]⟩
  | cons root rest =>
    by_cases hroot : root ∈ visited
    · refine ⟨rest, visited, _, ?_, h.skip hroot, .inl rfl, ?_⟩
      · simp [Books.turn, books, hroot]
      · simp only [turnsLeft, List.length_cons]
        omega
    · -- the search goes by what is not visited, and the root comes first there too
      obtain ⟨others, rfl⟩ : ∃ others, unvisited = root :: others := by
        have hunvisited := h.unvisited
        rw [List.filter_cons_of_pos (by simpa using hroot), List.eraseDups_cons] at hunvisited
        exact ⟨_, hunvisited⟩
      have hmove : Moves l.next ⟨root :: others, [], found⟩
          ⟨others, [⟨root, l.next root⟩], found⟩ := .root
      have hnext := h.visits hmove List.mem_cons_self
        (List.erase_cons_head root others).symm
      refine ⟨rest, insert root visited, _, ?_, hnext.skip (Finset.mem_insert_self root visited),
        .inr hmove, ?_⟩
      · simp [Books.turn, books, hroot, h.successors List.mem_cons_self, path]
      · simp only [turnsLeft, work, remaining, List.length_cons, List.flatMap_cons,
          List.length_append]
        omega

theorem IsAt.advances_leave {unvisited : List String} {id : String} {rest : List Stop}
    {found : List (List String)} (h : IsAt l roots visited ⟨unvisited, ⟨id, []⟩ :: rest, found⟩) :
    Advances l roots visited ⟨unvisited, ⟨id, []⟩ :: rest, found⟩ := by
  refine ⟨roots, visited, _, ?_, h.stays .leave rfl, .inr .leave, ?_⟩
  · -- the id is on the path once, so unmarking it leaves just the rest of the path marked
    have hnodup := h.isKept.distinct
    rw [books_cons] at hnodup
    have hbefore : id ∉ (rest.map Stop.id).reverse := fun hid =>
      (List.nodup_append.1 hnodup).2.2 id hid id List.mem_cons_self rfl
    have hmarked : ((rest.map Stop.id).reverse ++ [id]).toFinset.erase id =
        (rest.map Stop.id).reverse.toFinset := by
      rw [toFinset_concat, Finset.erase_insert fun hid => hbefore (List.mem_toFinset.1 hid)]
    have hid : id ∈ ((rest.map Stop.id).reverse ++ [id]).toFinset := by simp
    rw [books_cons]
    simp only [Books.turn, List.getLast?_concat, if_pos hid, hmarked, List.dropLast_concat]
    rfl
  · simp only [turnsLeft, work, remaining, List.length_nil]
    omega

/-- A link back onto the path closes a cycle, a link to what is not visited is gone along, and any
other is passed over. -/
theorem IsAt.advances_link {unvisited : List String} {id b : String} {ahead : List String}
    {rest : List Stop} {found : List (List String)}
    (h : IsAt l roots visited ⟨unvisited, ⟨id, b :: ahead⟩ :: rest, found⟩) :
    Advances l roots visited ⟨unvisited, ⟨id, b :: ahead⟩ :: rest, found⟩ := by
  have hlisted : b ∈ l.ids :=
    (h.onLinks.ahead _ List.mem_cons_self b List.mem_cons_self).mem_ids.2
  by_cases hb : b ∈ (rest.map Stop.id).reverse ++ [id]
  · refine ⟨roots, visited, _, ?_, h.stays (.close hb) rfl, .inr (.close hb), ?_⟩
    · obtain ⟨i, hplace, hloop⟩ := exists_idxOf? hb
      rw [books_cons, books_cons]
      simp only [Books.turn, List.getLast?_concat, List.dropLast_concat, List.mem_toFinset,
        if_pos hb, hplace, hloop]
    · simp only [turnsLeft, work, remaining, List.length_cons]
      omega
  by_cases hnew : b ∈ unvisited
  · have hmove : Moves l.next ⟨unvisited, ⟨id, b :: ahead⟩ :: rest, found⟩
        ⟨unvisited.erase b, ⟨b, l.next b⟩ :: ⟨id, ahead⟩ :: rest, found⟩ := .enter hb hnew
    refine ⟨roots, insert b visited, _, ?_, h.visits hmove hnew rfl, .inr hmove, ?_⟩
    · have hunseen : b ∉ visited := fun hseen => ((h.visited b).1 hseen).2 hnew
      rw [books_cons, books_cons, List.map_cons, List.map_cons, List.reverse_cons,
        List.reverse_cons, toFinset_concat ((rest.map Stop.id).reverse ++ [id]) b]
      simp only [Books.turn, List.getLast?_concat, List.dropLast_concat, List.mem_toFinset,
        if_neg hb, if_neg hunseen, h.successors hnew]
    · have hfewer := length_flatMap_erase l.next hnew
      simp only [turnsLeft, work, remaining, List.length_cons]
      omega
  · refine ⟨roots, visited, _, ?_, h.stays (.pass hb hnew) rfl, .inr (.pass hb hnew), ?_⟩
    · have hseen : b ∈ visited := (h.visited b).2 ⟨hlisted, hnew⟩
      rw [books_cons, books_cons]
      simp only [Books.turn, List.getLast?_concat, List.dropLast_concat, List.mem_toFinset,
        if_neg hb, if_pos hseen]
    · simp only [turnsLeft, work, remaining, List.length_cons]
      omega

theorem IsAt.advances (h : IsAt l roots visited s) : Advances l roots visited s := by
  obtain ⟨unvisited, trail, found⟩ := s
  match trail with
  | [] => exact h.advances_root
  | ⟨id, []⟩ :: rest => exact h.advances_leave
  | ⟨id, b :: ahead⟩ :: rest => exact h.advances_link

theorem Moves.unvisited_subset {next : String → List String} (h : Moves next s t) :
    t.unvisited ⊆ s.unvisited := by
  cases h with
  | root => exact List.subset_cons_self _ _
  | enter => exact List.erase_subset
  | leave | close | pass => exact List.Subset.refl _

theorem Moves.mem_unvisited {next : String → List String} (h : Moves next s t) {id : String}
    (henters : t.path = s.path ++ [id]) : id ∈ s.unvisited := by
  cases h with
  | root =>
    obtain ⟨rfl, -⟩ := List.cons.inj henters
    exact List.mem_cons_self
  | enter hb hnew =>
    rw [path_cons, path_cons, List.map_cons, List.reverse_cons] at henters
    obtain ⟨rfl, -⟩ := List.cons.inj (List.append_cancel_left henters)
    exact hnew
  | leave | close | pass =>
    have hlength := congrArg List.length henters
    simp [path] at hlength

theorem IsAt.enters {roots' : List String} {visited' : Finset String}
    (h : IsAt l roots visited s) (h' : IsAt l roots' visited' t)
    (hmove : t = s ∨ Moves l.next s t) {id : String}
    (henters : t.path = s.path ++ [id]) : id ∉ visited ∧ id ∈ visited' := by
  have hon : id ∈ t.path := henters ▸ List.mem_append_right _ List.mem_cons_self
  refine ⟨fun hseen => ?_, (h'.visited id).2 (mem_path_listed h'.onLinks hon)⟩
  obtain rfl | hmove := hmove
  · simpa using congrArg List.length henters
  · exact ((h.visited id).1 hseen).2 (hmove.mem_unvisited henters)

theorem IsAt.visited_subset {roots' : List String} {visited' : Finset String}
    (h : IsAt l roots visited s) (h' : IsAt l roots' visited' t)
    (hmove : t = s ∨ Moves l.next s t) : visited ⊆ visited' := by
  intro id hid
  obtain ⟨hlisted, hold⟩ := (h.visited id).1 hid
  refine (h'.visited id).2 ⟨hlisted, fun hnew => hold ?_⟩
  obtain rfl | hmove := hmove
  · exact hnew
  · exact hmove.unvisited_subset hnew

theorem IsAt.found_eq (h : IsAt l roots visited s) (hdone : (s.books roots visited).IsDone) :
    s.found = l.cycles := by
  obtain ⟨unvisited, trail, found⟩ := s
  obtain ⟨hroots, hpending⟩ := hdone
  obtain rfl : roots = [] := hroots
  obtain rfl : trail = [] := by simpa [books] using hpending
  obtain rfl : unvisited = [] := h.unvisited
  rw [Links.cycles, ← h.ends, finish_of_none rfl]

end Search

namespace Books

def advance (links : OrderedMap (List String)) (b : Books) : Books :=
  match b.turn links with
  | .ok b' => b'
  | .error _ => b

end Books

namespace Links
variable {α : Type}

def books (l : Links α) : Nat → Books
  | 0 => .start l.ids
  | n + 1 => (l.books n).advance l.successors

/-- How many turns the search for cycles takes: one for each listed id, however often it is listed,
one to leave each id, and one for each link. -/
def turns (l : Links α) : Nat :=
  l.ids.length + (l.edges.filter l.counts).length + l.ids.eraseDups.length

theorem turnsLeft_start (l : Links α) : Search.turnsLeft l.next l.ids l.start = l.turns := by
  have hlinks : l.ids.eraseDups.flatMap l.next =
      (l.ids.eraseDups.flatMap fun id =>
        (l.edges.filter l.counts).filter fun e => e.source = id).map Edge.target := by
    rw [List.map_flatMap]
    refine congrArg l.ids.eraseDups.flatMap (funext fun id => ?_)
    rw [next, List.filter_filter]
    exact congrArg (List.map Edge.target) (List.filter_congr fun e _ => Bool.and_comm _ _)
  have hall : ∀ e ∈ l.edges.filter l.counts, decide (e.source ∈ l.ids.eraseDups) = true := by
    intro e he
    have hcounts := (List.mem_filter.1 he).2
    simp only [counts, Bool.and_eq_true, List.contains_iff_mem] at hcounts
    exact decide_eq_true (List.mem_eraseDups.2 hcounts.1.2)
  have hperm := flatMap_filter_perm Edge.source (l.edges.filter l.counts)
    (Search.nodup_eraseDups l.ids)
  rw [List.filter_eq_self.2 hall] at hperm
  simp only [Search.turnsLeft, start, Search.work, Search.remaining, turns, hlinks,
    List.length_map, hperm.length_eq]
  omega

section Running
open Search

theorem exists_isAt (l : Links α) (n : Nat) : ∃ roots visited s,
    l.books n = s.books roots visited ∧ IsAt l roots visited s ∧
      turnsLeft l.next roots s = l.turns - n := by
  induction n with
  | zero => exact ⟨l.ids, ∅, l.start, rfl, isAt_start l, l.turnsLeft_start⟩
  | succ n ih =>
    obtain ⟨roots, visited, s, hbooks, hat, hleft⟩ := ih
    obtain ⟨roots', visited', t, hturn, hat', -, hleft'⟩ := hat.advances
    refine ⟨roots', visited', t, ?_, hat', by omega⟩
    rw [books, hbooks, Books.advance, hturn]

theorem turn_books (l : Links α) (n : Nat) :
    (l.books n).turn l.successors = .ok (l.books (n + 1)) ∧
      (l.books n).visited ⊆ (l.books (n + 1)).visited ∧
      ∀ id, Books.Enters id (l.books n) (l.books (n + 1)) →
        id ∉ (l.books n).visited ∧ id ∈ (l.books (n + 1)).visited := by
  obtain ⟨roots, visited, s, hbooks, hat, -⟩ := l.exists_isAt n
  obtain ⟨roots', visited', t, hturn, hat', hmove, -⟩ := hat.advances
  rw [books, hbooks, Books.advance, hturn]
  exact ⟨rfl, hat.visited_subset hat' hmove, fun id => hat.enters hat' hmove⟩

theorem visited_mono (l : Links α) {m n : Nat} (h : m ≤ n) :
    (l.books m).visited ⊆ (l.books n).visited :=
  monotone_nat_of_le_succ (f := fun n => (l.books n).visited)
    (fun n => (l.turn_books n).2.1) h

theorem enters_unique (l : Links α) {i j : Nat} {id : String}
    (hi : Books.Enters id (l.books i) (l.books (i + 1)))
    (hj : Books.Enters id (l.books j) (l.books (j + 1))) : i = j := by
  have hbefore : ∀ n, Books.Enters id (l.books n) (l.books (n + 1)) → id ∉ (l.books n).visited :=
    fun n hn => ((l.turn_books n).2.2 id hn).1
  have hafter : ∀ n, Books.Enters id (l.books n) (l.books (n + 1)) →
      id ∈ (l.books (n + 1)).visited := fun n hn => ((l.turn_books n).2.2 id hn).2
  -- what the earlier of two turns puts on the path is visited before the later one
  rcases Nat.lt_trichotomy i j with hlt | heq | hlt
  · exact absurd (l.visited_mono hlt (hafter i hi)) (hbefore j hj)
  · exact heq
  · exact absurd (l.visited_mono hlt (hafter j hj)) (hbefore i hi)

theorem books_isDone_iff (l : Links α) (n : Nat) : (l.books n).IsDone ↔ l.turns ≤ n := by
  obtain ⟨roots, visited, s, hbooks, hat, hleft⟩ := l.exists_isAt n
  rw [hbooks, hat.isDone_iff, hleft, Nat.sub_eq_zero_iff_le]

theorem cycles_books (l : Links α) : (l.books l.turns).cycles = l.cycles := by
  have hdone := (l.books_isDone_iff l.turns).2 (Nat.le_refl _)
  obtain ⟨roots, visited, s, hbooks, hat, -⟩ := l.exists_isAt l.turns
  rw [hbooks] at hdone ⊢
  exact hat.found_eq hdone

end Running

/-- The search never slips: the links of every id it visits are there, and so is the id a link goes back
to and the id it leaves. Between any two turns the records fit together, no id is put on the path twice,
and after as many turns as counted beforehand, and not before, the books are done and hold the cycles. -/
theorem books_balance (l : Links α) :
    l.books 0 = .start l.ids ∧
      (∀ n, (l.books n).turn l.successors = .ok (l.books (n + 1))) ∧
      (∀ n, (l.books n).IsKept l) ∧
      (∀ n, (l.books n).IsDone ↔ l.turns ≤ n) ∧
      (∀ i j id, Books.Enters id (l.books i) (l.books (i + 1)) →
        Books.Enters id (l.books j) (l.books (j + 1)) → i = j) ∧
      (l.books l.turns).cycles = l.cycles := by
  refine ⟨rfl, fun n => (l.turn_books n).1, fun n => ?_, l.books_isDone_iff,
    fun i j id => l.enters_unique, l.cycles_books⟩
  obtain ⟨roots, visited, s, hbooks, hat, -⟩ := l.exists_isAt n
  exact hbooks ▸ hat.isKept

theorem books_balance_repeated :
    let l : Links Rat := ⟨["a", "b", "a", "c"], [⟨"ab", "a", "b", "depends", 1⟩,
      ⟨"ax", "a", "x", "depends", 1⟩, ⟨"bc", "b", "c", "supports", 1⟩,
      ⟨"ba", "b", "a", "causes", 1⟩, ⟨"cc", "c", "c", "causes", 1⟩], isImplication⟩
    (∀ j, Books.Enters "b" (l.books j) (l.books (j + 1)) ↔ j = 1) ∧
      ¬(l.books 9).IsDone ∧ (l.books 10).IsDone ∧
      (l.books 5).cycles = [["a", "b"]] ∧ (l.books 10).cycles = [["a", "b"], ["c"]] := by
  intro l
  have hturns : l.turns = 10 := by decide +kernel
  have hsecond : (l.books 2).path = (l.books 1).path ++ ["b"] := by decide +kernel
  have hfound : l.cycles = [["a", "b"], ["c"]] := by cbv
  obtain ⟨-, -, -, hdone, honce, hcycles⟩ := books_balance l
  rw [hturns] at hdone hcycles
  refine ⟨fun j => ⟨fun hj => honce j 1 "b" hj hsecond, ?_⟩, fun hnine => ?_,
    (hdone 10).2 (Nat.le_refl 10), by decide +kernel, hcycles.trans hfound⟩
  · rintro rfl
    exact hsecond
  · exact absurd ((hdone 9).1 hnine) (by decide)

end Links
end ReasonGraph
