import ReasonGraph.Graph.Links

/-! Cycles found by one depth-first search. The search walks a trail; a link back onto the
trail closes a cycle, a link to an id not yet visited extends it, and any other link is
passed over. Each step visits an id or uses up a link or shortens the trail, so the search
ends. -/

namespace ReasonGraph

structure Stop where
  id : String
  ahead : List String

structure Search where
  unvisited : List String
  trail : List Stop
  found : List (List String)

namespace Search

def path (s : Search) : List String := (s.trail.map Stop.id).reverse

def loopFrom (id : String) (path : List String) : List String := path.dropWhile (· ≠ id)

def remaining : List Stop → Nat
  | [] => 0
  | stop :: rest => stop.ahead.length + 1 + remaining rest

def work (s : Search) : Nat := remaining s.trail

def step? (next : String → List String) (s : Search) : Option Search :=
  match s.trail with
  | [] =>
    match s.unvisited with
    | [] => none
    | root :: rest => some ⟨rest, [⟨root, next root⟩], s.found⟩
  | ⟨_, []⟩ :: rest => some { s with trail := rest }
  | ⟨id, b :: ahead⟩ :: rest =>
    let passed : Search := { s with trail := ⟨id, ahead⟩ :: rest }
    if b ∈ passed.path then some { passed with found := s.found ++ [loopFrom b passed.path] }
    else if b ∈ s.unvisited then
      some { passed with
        unvisited := s.unvisited.erase b
        trail := ⟨b, next b⟩ :: passed.trail }
    else some passed

theorem step?_decreases {next : String → List String} {s t : Search}
    (h : s.step? next = some t) :
    t.unvisited.length < s.unvisited.length ∨
      (t.unvisited.length = s.unvisited.length ∧ t.work < s.work) := by
  obtain ⟨unvisited, trail, found⟩ := s
  cases trail with
  | nil =>
    cases unvisited with
    | nil => simp [step?] at h
    | cons root rest =>
      simp only [step?, Option.some.injEq] at h
      subst h
      exact .inl (by simp)
  | cons stop rest =>
    obtain ⟨id, ahead⟩ := stop
    cases ahead with
    | nil =>
      simp only [step?, Option.some.injEq] at h
      subst h
      exact .inr ⟨rfl, by simp [work, remaining]⟩
    | cons b ahead =>
      simp only [step?] at h
      split at h
      · simp only [Option.some.injEq] at h
        subst h
        exact .inr ⟨rfl, by simp [work, remaining]⟩
      · split at h
        · rename_i hb
          simp only [Option.some.injEq] at h
          subst h
          have hlen := List.length_erase_of_mem hb
          have hpos := List.length_pos_of_mem hb
          exact .inl (by simp only; omega)
        · simp only [Option.some.injEq] at h
          subst h
          exact .inr ⟨rfl, by simp [work, remaining]⟩

def finish (next : String → List String) (s : Search) : Search :=
  match _step : s.step? next with
  | none => s
  | some t => finish next t
termination_by (s.unvisited.length, s.work)
decreasing_by
  have hd := step?_decreases _step
  rcases hd with hlt | ⟨heq, hlt⟩
  · exact Prod.Lex.left _ _ hlt
  · rw [heq]
    exact Prod.Lex.right _ hlt

theorem finish_of_none {next : String → List String} {s : Search} (h : s.step? next = none) :
    s.finish next = s := by
  rw [finish, h]

theorem finish_of_some {next : String → List String} {s t : Search}
    (h : s.step? next = some t) : s.finish next = t.finish next := by
  rw [finish, h]

end Search

namespace Links
variable {α : Type}

def start (l : Links α) : Search := ⟨l.ids.eraseDups, [], []⟩

/-- The cycles in the order in which the search closes them, each from the id it returns to. -/
def cycles (l : Links α) : List (List String) := (l.start.finish l.next).found

end Links

/-- Only dependency and causation form chains that must not return to themselves. -/
def isImplication (relation : String) : Bool :=
  relation = Relation.depends.name || relation = Relation.causes.name

end ReasonGraph
