/-! Maps from names to values that remember the order in which names came in. Writing to a
name that is present keeps its place; a name that was erased comes back at the end. -/

namespace ReasonGraph

structure OrderedMap (β : Type) where
  entries : List (String × β)
  keys_nodup : (entries.map Prod.fst).Nodup
deriving DecidableEq

namespace OrderedMap
variable {β : Type}

def empty : OrderedMap β := ⟨[], by simp⟩

instance : EmptyCollection (OrderedMap β) := ⟨empty⟩
instance : Inhabited (OrderedMap β) := ⟨empty⟩

def keys (m : OrderedMap β) : List String := m.entries.map Prod.fst

def values (m : OrderedMap β) : List β := m.entries.map Prod.snd

def size (m : OrderedMap β) : Nat := m.entries.length

def isEmpty (m : OrderedMap β) : Bool := m.entries.isEmpty

theorem nodup_keys (m : OrderedMap β) : m.keys.Nodup := m.keys_nodup

@[simp] theorem keys_empty : (∅ : OrderedMap β).keys = [] := rfl

def find (k : String) : List (String × β) → Option β
  | [] => none
  | (k', v) :: rest => if k' = k then some v else find k rest

def get? (m : OrderedMap β) (k : String) : Option β := find k m.entries

def contains (m : OrderedMap β) (k : String) : Bool := (m.get? k).isSome

@[simp] theorem get?_empty (k : String) : (∅ : OrderedMap β).get? k = none := rfl

theorem find_eq_none_iff (k : String) (l : List (String × β)) :
    find k l = none ↔ k ∉ l.map Prod.fst := by
  induction l with
  | nil => simp [find]
  | cons e rest ih =>
    obtain ⟨k', v⟩ := e
    by_cases h : k' = k
    · simp [find, h]
    · simp [find, h, ih, Ne.symm h]

theorem get?_eq_none_iff (m : OrderedMap β) (k : String) :
    m.get? k = none ↔ k ∉ m.keys := find_eq_none_iff k m.entries

theorem contains_iff (m : OrderedMap β) (k : String) : m.contains k = true ↔ k ∈ m.keys := by
  have h := get?_eq_none_iff m k
  unfold contains
  cases hk : m.get? k with
  | none => simpa using h.1 hk
  | some v =>
    simp only [Option.isSome_some, true_iff]
    by_cases hm : k ∈ m.keys
    · exact hm
    · simp [h.2 hm] at hk

theorem mem_keys_iff {m : OrderedMap β} {k : String} : k ∈ m.keys ↔ ∃ v, m.get? k = some v := by
  have h := get?_eq_none_iff m k
  cases hk : m.get? k with
  | none => simpa using h.1 hk
  | some v =>
    refine ⟨fun _ => ⟨v, rfl⟩, fun _ => ?_⟩
    by_cases hm : k ∈ m.keys
    · exact hm
    · rw [h.2 hm] at hk
      cases hk

def put (k : String) (v : β) : List (String × β) → List (String × β)
  | [] => [(k, v)]
  | (k', w) :: rest => if k' = k then (k, v) :: rest else (k', w) :: put k v rest

theorem put_keys (k : String) (v : β) (l : List (String × β)) :
    (put k v l).map Prod.fst =
      if k ∈ l.map Prod.fst then l.map Prod.fst else l.map Prod.fst ++ [k] := by
  induction l with
  | nil => simp [put]
  | cons e rest ih =>
    obtain ⟨k', w⟩ := e
    by_cases h : k' = k
    · simp [put, h]
    · simp only [put, h, if_false, List.map_cons, ih, List.mem_cons, Ne.symm h, false_or]
      split <;> simp

theorem put_nodup {k : String} {v : β} {l : List (String × β)}
    (h : (l.map Prod.fst).Nodup) : ((put k v l).map Prod.fst).Nodup := by
  rw [put_keys]
  split
  · exact h
  · rename_i hk
    rw [List.nodup_append]
    exact ⟨h, by simp, fun a ha b hb => by
      simp only [List.mem_singleton] at hb
      intro hab
      exact hk (hb ▸ hab ▸ ha)⟩

theorem find_put (k j : String) (v : β) (l : List (String × β)) :
    find j (put k v l) = if k = j then some v else find j l := by
  induction l with
  | nil => simp [put, find]
  | cons e rest ih =>
    obtain ⟨k', w⟩ := e
    by_cases h : k' = k
    · subst h
      by_cases hj : k' = j <;> simp [put, find, hj]
    · by_cases hj : k' = j
      · subst hj
        simp [put, find, h, Ne.symm h]
      · simp [put, find, h, hj, ih]

theorem mem_put {k : String} {v : β} {l : List (String × β)} {e : String × β}
    (h : e ∈ put k v l) : e = (k, v) ∨ e ∈ l := by
  induction l with
  | nil => exact .inl (List.mem_singleton.1 h)
  | cons first rest ih =>
    obtain ⟨k', w⟩ := first
    by_cases hk : k' = k
    · rw [put, if_pos hk, List.mem_cons] at h
      exact h.imp_right (List.mem_cons_of_mem _)
    · rw [put, if_neg hk, List.mem_cons] at h
      rcases h with rfl | h
      · exact .inr List.mem_cons_self
      · exact (ih h).imp_right (List.mem_cons_of_mem _)

theorem mem_of_find {k : String} {v : β} {l : List (String × β)} (h : find k l = some v) :
    (k, v) ∈ l := by
  induction l with
  | nil => cases h
  | cons first rest ih =>
    obtain ⟨k', w⟩ := first
    by_cases hk : k' = k
    · rw [find, if_pos hk, Option.some.injEq] at h
      rw [hk, h]
      exact List.mem_cons_self
    · rw [find, if_neg hk] at h
      exact List.mem_cons_of_mem _ (ih h)

theorem find_of_mem {k : String} {v : β} {l : List (String × β)} (hl : (l.map Prod.fst).Nodup)
    (h : (k, v) ∈ l) : find k l = some v := by
  induction l with
  | nil => cases h
  | cons first rest ih =>
    obtain ⟨hfirst, hrest⟩ := List.nodup_cons.1 hl
    rcases List.mem_cons.1 h with rfl | hmem
    · exact if_pos rfl
    · have hne : first.1 ≠ k := fun heq => hfirst (heq ▸ List.mem_map_of_mem hmem)
      rw [find, if_neg hne]
      exact ih hrest hmem

theorem get?_of_mem {m : OrderedMap β} {k : String} {v : β} (h : (k, v) ∈ m.entries) :
    m.get? k = some v :=
  find_of_mem m.keys_nodup h

theorem map_get? {γ : Type} (m : OrderedMap β) (f : β → γ) (k : String) :
    (m.get? k).map f = find k (m.entries.map fun entry => (entry.1, f entry.2)) := by
  rw [get?]
  induction m.entries with
  | nil => rfl
  | cons first rest ih =>
    rw [List.map_cons, find, find]
    split
    · rfl
    · exact ih

/-- Writes a value under a name, in place if the name is present and at the end if not. -/
def insert (m : OrderedMap β) (k : String) (v : β) : OrderedMap β :=
  ⟨put k v m.entries, put_nodup m.keys_nodup⟩

theorem get?_insert (m : OrderedMap β) (k j : String) (v : β) :
    (m.insert k v).get? j = if k = j then some v else m.get? j :=
  find_put k j v m.entries

@[simp] theorem get?_insert_self (m : OrderedMap β) (k : String) (v : β) :
    (m.insert k v).get? k = some v := by simp [get?_insert]

theorem keys_insert (m : OrderedMap β) (k : String) (v : β) :
    (m.insert k v).keys = if k ∈ m.keys then m.keys else m.keys ++ [k] :=
  put_keys k v m.entries

theorem mem_keys_insert {m : OrderedMap β} {k j : String} {v : β} :
    j ∈ (m.insert k v).keys ↔ j = k ∨ j ∈ m.keys := by
  rw [keys_insert]
  by_cases hk : k ∈ m.keys
  · rw [if_pos hk]
    exact ⟨.inr, fun h => h.elim (fun hj => hj ▸ hk) id⟩
  · rw [if_neg hk, List.mem_append, List.mem_singleton, or_comm]

theorem put_of_not_mem {k : String} {l : List (String × β)} (h : k ∉ l.map Prod.fst) (v : β) :
    put k v l = l ++ [(k, v)] := by
  induction l with
  | nil => rfl
  | cons first rest ih =>
    rw [List.map_cons, List.mem_cons, not_or] at h
    rw [put, if_neg (Ne.symm h.1), ih h.2, List.cons_append]

theorem entries_insert {m : OrderedMap β} {k : String} (h : k ∉ m.keys) (v : β) :
    (m.insert k v).entries = m.entries ++ [(k, v)] :=
  put_of_not_mem h v

def erase (m : OrderedMap β) (k : String) : OrderedMap β :=
  ⟨m.entries.filter fun e => e.1 ≠ k,
    m.keys_nodup.sublist (List.Sublist.map _ List.filter_sublist)⟩

theorem keys_erase (m : OrderedMap β) (k : String) :
    (m.erase k).keys = m.keys.filter (· ≠ k) := by
  simp [keys, erase, List.filter_map, Function.comp_def]

theorem find_filter (k j : String) (l : List (String × β)) :
    find j (l.filter fun e => e.1 ≠ k) = if k = j then none else find j l := by
  induction l with
  | nil => simp [find]
  | cons e rest ih =>
    obtain ⟨k', w⟩ := e
    by_cases h : k' = k
    · subst h
      by_cases hj : k' = j <;> simp_all [find]
    · by_cases hj : k' = j
      · subst hj
        simp [find, h, Ne.symm h]
      · simp_all [find]

theorem get?_erase (m : OrderedMap β) (k j : String) :
    (m.erase k).get? j = if k = j then none else m.get? j :=
  find_filter k j m.entries

def restrict (m : OrderedMap β) (p : String → Bool) : OrderedMap β :=
  ⟨m.entries.filter fun e => p e.1,
    m.keys_nodup.sublist (List.Sublist.map _ List.filter_sublist)⟩

theorem find_restricted (p : String → Bool) (k : String) (l : List (String × β)) :
    find k (l.filter fun e => p e.1) = if p k then find k l else none := by
  induction l with
  | nil => simp [find]
  | cons e rest ih =>
    obtain ⟨k', v⟩ := e
    by_cases hk : k' = k
    · subst hk
      by_cases hp : p k' = true <;> simp [find, hp, ih]
    · by_cases hp : p k' = true <;> simp [find, hk, hp, ih]

theorem get?_restrict (m : OrderedMap β) (p : String → Bool) (k : String) :
    (m.restrict p).get? k = if p k then m.get? k else none :=
  find_restricted p k m.entries

theorem filter_put (p : String → Bool) (k : String) (v : β) (l : List (String × β)) :
    (put k v l).filter (fun e => p e.1) =
      if p k then put k v (l.filter fun e => p e.1) else l.filter fun e => p e.1 := by
  induction l with
  | nil => by_cases hp : p k = true <;> simp [put, hp]
  | cons e rest ih =>
    obtain ⟨k', w⟩ := e
    by_cases hk : k' = k
    · subst hk
      by_cases hp : p k' = true <;> simp [put, hp]
    · by_cases hp : p k' = true <;> by_cases hp' : p k = true <;> simp [put, hk, hp, hp', ih]

theorem ext {m m' : OrderedMap β} (h : m.entries = m'.entries) : m = m' := by
  cases m
  cases m'
  cases h
  rfl

theorem put_comm {j k : String} (hjk : j ≠ k) {l : List (String × β)}
    (hj : j ∈ l.map Prod.fst) (v w : β) : put j v (put k w l) = put k w (put j v l) := by
  induction l with
  | nil => cases hj
  | cons e rest ih =>
    obtain ⟨k', x⟩ := e
    by_cases hkj : k' = j
    · subst hkj
      simp [put, hjk]
    · have hrest : j ∈ rest.map Prod.fst :=
        (List.mem_cons.1 hj).elim (fun h => absurd h.symm hkj) id
      by_cases hkk : k' = k
      · subst hkk
        simp [put, hkj]
      · simp [put, hkj, hkk, ih hrest]

/-- Two insertions commute, unless both are of one name or of new names. -/
theorem insert_comm {m : OrderedMap β} {j k : String} (hjk : j ≠ k) (hj : j ∈ m.keys) (v w : β) :
    (m.insert k w).insert j v = (m.insert j v).insert k w :=
  ext (put_comm hjk hj v w)

theorem restrict_insert (m : OrderedMap β) (p : String → Bool) (k : String) (v : β) :
    (m.insert k v).restrict p = if p k then (m.restrict p).insert k v else m.restrict p := by
  have h := filter_put p k v m.entries
  by_cases hp : p k = true
  · rw [if_pos hp] at h ⊢
    exact ext h
  · rw [if_neg hp] at h ⊢
    exact ext h

/-- Writes the entries one after another, so of two with one name the later value stays at
the earlier place. -/
def ofList (l : List (String × β)) : OrderedMap β :=
  l.foldl (fun m e => m.insert e.1 e.2) ∅

theorem mem_foldl_insert {l : List (String × β)} {m : OrderedMap β} {e : String × β}
    (h : e ∈ (l.foldl (fun m e => m.insert e.1 e.2) m).entries) : e ∈ l ∨ e ∈ m.entries := by
  induction l generalizing m with
  | nil => exact .inr h
  | cons first rest ih =>
    rcases ih h with hrest | hm
    · exact .inl (List.mem_cons_of_mem _ hrest)
    · rcases mem_put hm with rfl | hm
      · exact .inl List.mem_cons_self
      · exact .inr hm

theorem mem_ofList {l : List (String × β)} {e : String × β} (h : e ∈ (ofList l).entries) :
    e ∈ l := by
  rcases mem_foldl_insert h with hl | hempty
  · exact hl
  · cases hempty

theorem mem_keys_foldl_insert {l : List (String × β)} {m : OrderedMap β} {k : String} :
    k ∈ (l.foldl (fun m e => m.insert e.1 e.2) m).keys ↔ k ∈ l.map Prod.fst ∨ k ∈ m.keys := by
  induction l generalizing m with
  | nil => simp
  | cons first rest ih =>
    rw [List.foldl_cons, ih, mem_keys_insert, List.map_cons, List.mem_cons, or_left_comm, or_assoc]

theorem mem_keys_ofList {l : List (String × β)} {k : String} :
    k ∈ (ofList l).keys ↔ k ∈ l.map Prod.fst := by
  rw [ofList, mem_keys_foldl_insert, keys_empty]
  simp

theorem restrict_foldl_insert (p : String → Bool) (l : List (String × β)) (m : OrderedMap β) :
    (l.foldl (fun m e => m.insert e.1 e.2) m).restrict p =
      (l.filter fun e => p e.1).foldl (fun m e => m.insert e.1 e.2) (m.restrict p) := by
  induction l generalizing m with
  | nil => rfl
  | cons e rest ih =>
    rw [List.foldl_cons, ih, restrict_insert]
    by_cases hp : p e.1 = true <;> simp [hp]

theorem restrict_ofList (p : String → Bool) (l : List (String × β)) :
    (ofList l).restrict p = ofList (l.filter fun e => p e.1) :=
  restrict_foldl_insert p l ∅

theorem entries_foldl_insert {l : List (String × β)} {m : OrderedMap β}
    (h : (m.keys ++ l.map Prod.fst).Nodup) :
    (l.foldl (fun m e => m.insert e.1 e.2) m).entries = m.entries ++ l := by
  induction l generalizing m with
  | nil => simp
  | cons first rest ih =>
    have hnew : first.1 ∉ m.keys := fun hmem =>
      (List.nodup_append.1 h).2.2 _ hmem _ List.mem_cons_self rfl
    have hkeys : (m.insert first.1 first.2).keys = m.keys ++ [first.1] := by
      rw [keys_insert, if_neg hnew]
    have hrest : ((m.insert first.1 first.2).keys ++ rest.map Prod.fst).Nodup := by
      rw [hkeys, List.append_assoc]
      exact h
    rw [List.foldl_cons, ih hrest, entries_insert hnew, List.append_assoc]
    rfl

theorem get?_ofList_entries_map {γ : Type} (m : OrderedMap β) (f : β → γ) (k : String) :
    (ofList (m.entries.map fun entry => (entry.1, f entry.2))).get? k = (m.get? k).map f := by
  have hkeys : (m.entries.map fun entry => (entry.1, f entry.2)).map Prod.fst = m.keys := by
    rw [List.map_map]
    rfl
  have hentries := entries_foldl_insert (m := ∅) (hkeys ▸ m.nodup_keys)
  rw [map_get?, get?, ofList, hentries]
  rfl

end OrderedMap
end ReasonGraph
