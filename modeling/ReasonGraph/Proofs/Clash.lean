import ReasonGraph.Proofs.Bounds

/-! Graphs in which statements only exclude each other. The first edge that is read between two
statements that hold puts both in conflict, and from then on neither holds against anyone else. So
a run pairs off the statements that hold, along the edges in the order of the list, and each ends
in conflict with its pair alone. One that finds no pair holds to the end, even next to statements
that held when it was seeded. -/

namespace ReasonGraph
variable {α : Type}

def Table.holds (t : Table α) (id : String) : Bool := (t.get? id).any (·.logic = .holds)

theorem Table.holds_iff {t : Table α} {id : String} :
    t.holds id = true ↔ ∃ state, t.get? id = some state ∧ state.logic = .holds := by
  simp [holds, Option.any_eq_true]

def Table.accuses (t : Table α) (a b : String) : Bool :=
  (t.get? a).any fun state => state.logic = .conflict && (state.partners.getD []).contains b

/-- Both are in conflict and each names the other. -/
def Table.AreMutual (t : Table α) (a b : String) : Prop :=
  t.accuses a b = true ∧ t.accuses b a = true

instance (t : Table α) (a b : String) : Decidable (t.AreMutual a b) :=
  inferInstanceAs (Decidable (_ ∧ _))

theorem Table.accuses_iff {t : Table α} {a b : String} :
    t.accuses a b = true ↔
      ∃ state, t.get? a = some state ∧ state.logic = .conflict ∧ b ∈ state.partners.getD [] := by
  simp [accuses, Option.any_eq_true]

namespace Edge

def meets (e : Edge α) (id : String) : Bool := e.source = id || e.target = id

def across (e : Edge α) (id : String) : String := if e.source = id then e.target else e.source

theorem meets_iff {e : Edge α} {id : String} :
    e.meets id = true ↔ e.source = id ∨ e.target = id := by
  simp [meets]

theorem meets_source (e : Edge α) : e.meets e.source = true := meets_iff.2 (.inl rfl)

theorem meets_target (e : Edge α) : e.meets e.target = true := meets_iff.2 (.inr rfl)

theorem meets_across {e : Edge α} (id : String) : e.meets (e.across id) = true := by
  unfold across
  split
  · exact e.meets_target
  · exact e.meets_source

theorem across_across {e : Edge α} {id : String} (h : e.meets id = true) :
    e.across (e.across id) = id := by
  rcases meets_iff.1 h with rfl | rfl
  · unfold across
    simp only [if_true, ite_eq_right_iff]
    exact Eq.symm
  · unfold across
    by_cases hloop : e.source = e.target <;> simp [hloop]

end Edge

/-- Whether an edge puts its ends in conflict after some others did: both hold and none of the
others took either. -/
def isClash (t : Table α) (found : List (Edge α)) (e : Edge α) : Bool :=
  t.holds e.source && t.holds e.target &&
    found.all fun f => !f.meets e.source && !f.meets e.target

def clash (t : Table α) (found : List (Edge α)) (e : Edge α) : List (Edge α) :=
  if isClash t found e then found ++ [e] else found

def clashes (t : Table α) (edges : List (Edge α)) : List (Edge α) := edges.foldl (clash t) []

theorem isClash_iff {t : Table α} {found : List (Edge α)} {e : Edge α} :
    isClash t found e = true ↔ t.holds e.source = true ∧ t.holds e.target = true ∧
      ∀ f ∈ found, f.meets e.source = false ∧ f.meets e.target = false := by
  simp [isClash, and_assoc]

theorem not_isClash_clash (t : Table α) (found : List (Edge α)) (e : Edge α) :
    isClash t (clash t found e) e = false := by
  by_cases h : isClash t found e = true
  · rw [clash, if_pos h, Bool.eq_false_iff]
    intro hagain
    have hfree := (isClash_iff.1 hagain).2.2 e (by simp)
    rw [e.meets_source] at hfree
    cases hfree.1
  · rw [clash, if_neg h]
    exact Bool.eq_false_iff.2 h

theorem isClash_of_append {t : Table α} {found more : List (Edge α)} {e : Edge α}
    (h : isClash t (found ++ more) e = true) : isClash t found e = true := by
  obtain ⟨hsource, htarget, hfree⟩ := isClash_iff.1 h
  exact isClash_iff.2 ⟨hsource, htarget, fun f hf => hfree f (List.mem_append_left more hf)⟩

theorem foldl_clash_prefix (t : Table α) (edges found : List (Edge α)) :
    ∃ more, edges.foldl (clash t) found = found ++ more := by
  induction edges generalizing found with
  | nil => exact ⟨[], by simp⟩
  | cons e rest ih =>
    obtain ⟨more, hmore⟩ := ih (clash t found e)
    rw [List.foldl_cons, hmore, clash]
    split
    · exact ⟨e :: more, by simp⟩
    · exact ⟨more, rfl⟩

theorem not_isClash_foldl {t : Table α} {edges found : List (Edge α)} {e : Edge α}
    (he : e ∈ edges) : isClash t (edges.foldl (clash t) found) e = false := by
  induction edges generalizing found with
  | nil => cases he
  | cons first rest ih =>
    rw [List.foldl_cons]
    rcases List.mem_cons.1 he with rfl | hrest
    · obtain ⟨more, hmore⟩ := foldl_clash_prefix t rest (clash t found e)
      rw [hmore, Bool.eq_false_iff]
      intro hagain
      have := isClash_of_append hagain
      rw [not_isClash_clash] at this
      cases this
    · exact ih hrest

theorem foldl_clash_of_not {t : Table α} {edges found : List (Edge α)}
    (h : ∀ e ∈ edges, isClash t found e = false) : edges.foldl (clash t) found = found := by
  induction edges with
  | nil => rfl
  | cons e rest ih =>
    have hsame : clash t found e = found := by
      rw [clash, h e List.mem_cons_self]
      rfl
    rw [List.foldl_cons, hsame]
    exact ih fun e' he' => h e' (List.mem_cons_of_mem e he')

theorem foldl_clash_clashes (t : Table α) (edges : List (Edge α)) :
    edges.foldl (clash t) (clashes t edges) = clashes t edges :=
  foldl_clash_of_not fun _ he => not_isClash_foldl he

structure Edge.Embroils (e : Edge α) (now next : Table α) : Prop where
  ends : ∀ id, e.meets id = true →
    ∃ state, next.get? id = some state ∧ state.logic = .conflict ∧
      state.partners = some [e.across id]
  rest : ∀ id, e.meets id = false → next.get? id = now.get? id

variable [Quantity α]

/-- The states after some edges were read, when these are the clashes found among them: the ends
of each clash are in conflict with each other alone, and whatever else held holds on as it was. -/
structure Paired (t : Table α) (found : List (Edge α)) (now : Table α) : Prop where
  keys : now.keys = t.keys
  inRange : now.InRange
  free : ∀ id, t.holds id = true → (∀ f ∈ found, f.meets id = false) → now.get? id = t.get? id
  taken : ∀ id, t.holds id = true → ∀ f ∈ found, f.meets id = true →
    ∃ state, now.get? id = some state ∧ state.logic = .conflict ∧
      state.partners = some [f.across id]
  other : ∀ id, t.holds id = false → ∀ state, now.get? id = some state →
    state.logic ≠ .holds ∧ (state.logic = .conflict → state.partners = none)

namespace Paired
variable {t now : Table α} {found : List (Edge α)} {id : String} {state : NodeState α}

theorem free_of_holds (hp : Paired t found now) (hstate : now.get? id = some state)
    (hholds : state.logic = .holds) :
    t.holds id = true ∧ ∀ f ∈ found, f.meets id = false := by
  have hheld : t.holds id = true := by
    by_contra hnot
    exact (hp.other id (Bool.eq_false_iff.2 hnot) state hstate).1 hholds
  refine ⟨hheld, fun f hf => Bool.eq_false_iff.2 fun hmeets => ?_⟩
  obtain ⟨taken, htaken, hconflict, -⟩ := hp.taken id hheld f hf hmeets
  rw [hstate, Option.some.injEq] at htaken
  rw [← htaken, hholds] at hconflict
  cases hconflict

theorem holds_of_free (hp : Paired t found now) (hheld : t.holds id = true)
    (hfree : ∀ f ∈ found, f.meets id = false) :
    ∃ state, now.get? id = some state ∧ state.logic = .holds := by
  obtain ⟨state, hstate, hholds⟩ := Table.holds_iff.1 hheld
  exact ⟨state, (hp.free id hheld hfree).trans hstate, hholds⟩

theorem exists_clash (hp : Paired t found now) {partner : String}
    (haccuses : now.accuses id partner = true) :
    ∃ f ∈ found, f.meets id = true ∧ f.across id = partner := by
  obtain ⟨state, hstate, hconflict, hpartner⟩ := Table.accuses_iff.1 haccuses
  by_contra hnone
  have hunmet : ∀ f ∈ found, t.holds id = true → f.meets id = false := by
    intro f hf hheld
    rw [Bool.eq_false_iff]
    intro hmeets
    obtain ⟨taken, htaken, -, hpartners⟩ := hp.taken id hheld f hf hmeets
    obtain rfl : state = taken := Option.some.inj (hstate.symm.trans htaken)
    rw [hpartners] at hpartner
    exact hnone ⟨f, hf, hmeets, (List.mem_singleton.1 hpartner).symm⟩
  by_cases hheld : t.holds id = true
  · obtain ⟨still, hstill, hholds⟩ := hp.holds_of_free hheld fun f hf => hunmet f hf hheld
    rw [hstate, Option.some.injEq] at hstill
    rw [← hstill, hconflict] at hholds
    cases hholds
  · have hnopartners := (hp.other id (Bool.eq_false_iff.2 hheld) state hstate).2 hconflict
    rw [hnopartners] at hpartner
    cases hpartner

theorem accuses_of_clash (hp : Paired t found now) (hheld : t.holds id = true) {c : Edge α}
    (hc : c ∈ found) (hmeets : c.meets id = true) : now.accuses id (c.across id) = true := by
  obtain ⟨state, hstate, hconflict, hpartners⟩ := hp.taken id hheld c hc hmeets
  exact Table.accuses_iff.2 ⟨state, hstate, hconflict, by simp [hpartners]⟩

/-- Two statements that held are in conflict with each other just if a clash joins them. -/
theorem areMutual_iff (hp : Paired t found now) {a b : String}
    (ha : t.holds a = true) (hb : t.holds b = true) :
    now.AreMutual a b ↔ ∃ c ∈ found, c.meets a = true ∧ c.across a = b := by
  constructor
  · intro hmutual
    exact hp.exists_clash hmutual.1
  · rintro ⟨c, hc, hmeets, rfl⟩
    have hback := hp.accuses_of_clash hb hc (c.meets_across a)
    rw [Edge.across_across hmeets] at hback
    exact ⟨hp.accuses_of_clash ha hc hmeets, hback⟩

theorem refute (hp : Paired t found now) (hid : id ∈ now.keys) (hheld : t.holds id = false)
    (hfails : state.logic = .fails) (hrange : Quantity.InRange state.confidence) :
    Paired t found (now.insert id state) where
  keys := by
    rw [OrderedMap.keys_insert, if_pos hid]
    exact hp.keys
  inRange := hp.inRange.insert hrange
  free := by
    intro other hother hfree
    have hne : id ≠ other := by
      rintro rfl
      rw [hheld] at hother
      cases hother
    rw [OrderedMap.get?_insert, if_neg hne]
    exact hp.free other hother hfree
  taken := by
    intro other hother f hf hmeets
    have hne : id ≠ other := by
      rintro rfl
      rw [hheld] at hother
      cases hother
    rw [OrderedMap.get?_insert, if_neg hne]
    exact hp.taken other hother f hf hmeets
  other := by
    intro other hother found hfound
    rw [OrderedMap.get?_insert] at hfound
    by_cases hsame : id = other
    · rw [if_pos hsame] at hfound
      cases hfound
      simp [hfails]
    · rw [if_neg hsame] at hfound
      exact hp.other other hother found hfound

theorem join (hp : Paired t found now) {e : Edge α} (hclash : isClash t found e = true)
    {next : Table α} (hkeys : next.keys = t.keys) (hrange : next.InRange)
    (hembroils : e.Embroils now next) : Paired t (found ++ [e]) next where
  keys := hkeys
  inRange := hrange
  free := by
    intro id hheld hfree
    rw [hembroils.rest id (hfree e (by simp))]
    exact hp.free id hheld fun f hf => hfree f (List.mem_append_left _ hf)
  taken := by
    intro id hheld f hf hmeets
    rcases List.mem_append.1 hf with hf | hf
    · have hfree := (isClash_iff.1 hclash).2.2 f hf
      have hapart : e.meets id = false := by
        rw [Bool.eq_false_iff]
        intro hid
        rcases Edge.meets_iff.1 hid with rfl | rfl
        · rw [hfree.1] at hmeets
          cases hmeets
        · rw [hfree.2] at hmeets
          cases hmeets
      rw [hembroils.rest id hapart]
      exact hp.taken id hheld f hf hmeets
    · obtain rfl := List.mem_singleton.1 hf
      exact hembroils.ends id hmeets
  other := by
    intro id hheld state hstate
    obtain ⟨hsource, htarget, -⟩ := isClash_iff.1 hclash
    have hapart : e.meets id = false := by
      rw [Bool.eq_false_iff]
      intro hid
      rcases Edge.meets_iff.1 hid with rfl | rfl
      · rw [hheld] at hsource
        cases hsource
      · rw [hheld] at htarget
        cases htarget
    rw [hembroils.rest id hapart] at hstate
    exact hp.other id hheld state hstate

end Paired

end ReasonGraph
