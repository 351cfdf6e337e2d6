import ReasonGraph.Session
import Mathlib.Data.Set.Card

/-! Who holds a relation tag, told from the calls on a registry alone: the rule registered last under
it, unless the tag was given up since. A tenure begins when a rule takes a tag that nobody holds; a
successor goes on with it. Main statement: after any calls a registry shows each tag with its holder
and nothing else, in the order in which the tenures began, and a refused registration is as good as
none. -/

namespace ReasonGraph
variable {α : Type}

namespace Registry

inductive Call (α : Type) where
  | register (c : Candidate α)
  | unregister (v : Value)
  | lookUp (v : Value)

/-- What a call says of a tag: who holds it from now on, if anybody. Most calls say nothing of it. -/
def Call.ruling (tag : String) : Call α → Option (Option (Rule α))
  | .register (.rule r) =>
    if r.relation.isTruthy = true ∧ r.key = tag then some (some r) else none
  | .register (.other _) => none
  | .unregister v => if v.plain = tag then some none else none
  | .lookUp _ => none

def holder (calls : List (Call α)) (tag : String) : Option (Rule α) :=
  (calls.filterMap (Call.ruling tag)).getLast?.join

/-- A tenure of the tag begins after so many of the calls, and has not ended. -/
structure Introduces (calls : List (Call α)) (i : Nat) (tag : String) : Prop where
  lt : i < calls.length
  vacant : holder (calls.take i) tag = none
  held : ∀ j, i < j → j ≤ calls.length → holder (calls.take j) tag ≠ none

/-- One tag has been held for longer than another. -/
def IsSenior (calls : List (Call α)) (tag tag' : String) : Prop :=
  ∃ i j, i < j ∧ Introduces calls i tag ∧ Introduces calls j tag'

theorem holder_append (calls : List (Call α)) (call : Call α) (tag : String) :
    holder (calls ++ [call]) tag = (call.ruling tag).getD (holder calls tag) := by
  unfold holder
  rw [List.filterMap_append]
  cases h : call.ruling tag <;> simp [h]

namespace Introduces
variable {calls : List (Call α)} {tag : String}

theorem append {i : Nat} (h : Introduces calls i tag) {call : Call α}
    (hheld : holder (calls ++ [call]) tag ≠ none) : Introduces (calls ++ [call]) i tag where
  lt := by
    have := h.lt
    simp only [List.length_append, List.length_singleton]
    omega
  vacant := by
    rw [List.take_append_of_le_length h.lt.le]
    exact h.vacant
  held := by
    intro j hij hj
    rw [List.length_append, List.length_singleton] at hj
    by_cases hold : j ≤ calls.length
    · rw [List.take_append_of_le_length hold]
      exact h.held j hij hold
    · rw [List.take_of_length_le (by simp; omega)]
      exact hheld

theorem last {call : Call α} (hvacant : holder calls tag = none)
    (hheld : holder (calls ++ [call]) tag ≠ none) :
    Introduces (calls ++ [call]) calls.length tag where
  lt := by simp
  vacant := by simpa using hvacant
  held := by
    intro j hij hj
    rw [List.length_append, List.length_singleton] at hj
    rw [List.take_of_length_le (by simp; omega)]
    exact hheld

end Introduces

theorem exists_introduces {calls : List (Call α)} {tag : String} (h : holder calls tag ≠ none) :
    ∃ i, Introduces calls i tag := by
  induction calls using List.reverseRecOn with
  | nil => exact absurd rfl h
  | append_singleton calls call ih =>
    by_cases hvacant : holder calls tag = none
    · exact ⟨calls.length, .last hvacant h⟩
    · obtain ⟨i, hi⟩ := ih hvacant
      exact ⟨i, hi.append h⟩

def obey (reg : Registry α) : Call α → Registry α
  | .register c => (reg.register c).toOption.getD reg
  | .unregister v => reg.erase v.plain
  | .lookUp _ => reg

theorem register_rule (reg : Registry α) (r : Rule α) :
    reg.register (.rule r) =
      if r.relation.isTruthy = true then .ok (reg.insert r) else .error (.noRelation r.family) := by
  rw [register, accept]
  split <;> rfl

theorem obey_register_rule (reg : Registry α) (r : Rule α) :
    reg.obey (.register (.rule r)) =
      if r.relation.isTruthy = true then reg.insert r else reg := by
  simp only [obey, register_rule]
  split <;> rfl

theorem obey_cases (reg : Registry α) (call : Call α) :
    (reg.obey call = reg ∧ ∀ tag, call.ruling tag = none) ∨
      (∃ r, reg.obey call = reg.insert r ∧
        ∀ tag, call.ruling tag = if r.key = tag then some (some r) else none) ∨
      ∃ gone, reg.obey call = reg.erase gone ∧
        ∀ tag, call.ruling tag = if gone = tag then some none else none := by
  cases call with
  | register c =>
    cases c with
    | other v => exact .inl ⟨rfl, fun _ => rfl⟩
    | rule r =>
      rw [obey_register_rule]
      by_cases htruthy : r.relation.isTruthy = true
      · rw [if_pos htruthy]
        exact .inr (.inl ⟨r, rfl, fun tag => by simp [Call.ruling, htruthy]⟩)
      · rw [if_neg htruthy]
        exact .inl ⟨rfl, fun tag => by simp [Call.ruling, htruthy]⟩
  | unregister v => exact .inr (.inr ⟨v.plain, rfl, fun _ => rfl⟩)
  | lookUp v => exact .inl ⟨rfl, fun _ => rfl⟩

theorem get?_obey (reg : Registry α) (call : Call α) (tag : String) :
    (reg.obey call).get? tag = (call.ruling tag).getD (reg.get? tag) := by
  rcases reg.obey_cases call with ⟨hobey, hruling⟩ | ⟨r, hobey, hruling⟩ | ⟨gone, hobey, hruling⟩
  · rw [hobey, hruling, Option.getD_none]
  · rw [hobey, hruling, get?_insert]
    split <;> rfl
  · rw [hobey, hruling, get?_erase]
    split <;> rfl

theorem keys_obey (reg : Registry α) (call : Call α) : ∃ kept fresh,
    (reg.obey call).rules.keys = kept ++ fresh ∧ kept.Sublist reg.rules.keys ∧
      (fresh = [] ∨ ∃ tag, fresh = [tag] ∧ tag ∉ reg.rules.keys) := by
  rcases reg.obey_cases call with ⟨hobey, -⟩ | ⟨r, hobey, -⟩ | ⟨gone, hobey, -⟩ <;> rw [hobey]
  · exact ⟨_, [], (List.append_nil _).symm, .refl _, .inl rfl⟩
  · have hkeys := OrderedMap.keys_insert reg.rules r.key r
    by_cases hkey : r.key ∈ reg.rules.keys
    · rw [if_pos hkey] at hkeys
      exact ⟨_, [], hkeys.trans (List.append_nil _).symm, .refl _, .inl rfl⟩
    · rw [if_neg hkey] at hkeys
      exact ⟨_, [r.key], hkeys, .refl _, .inr ⟨r.key, rfl, hkey⟩⟩
  · have hkeys := OrderedMap.keys_erase reg.rules gone
    exact ⟨_, [], hkeys.trans (List.append_nil _).symm, List.filter_sublist, .inl rfl⟩

/-- A registry shows what the calls on it say: the holder of each tag, under its own tag, and the tags
by seniority. -/
structure Mirrors (reg : Registry α) (calls : List (Call α)) : Prop where
  holders : ∀ tag, reg.get? tag = holder calls tag
  keyed : ∀ entry ∈ reg.rules.entries, entry.2.key = entry.1
  ordered : reg.rules.keys.Pairwise (IsSenior calls)

namespace Mirrors
variable {reg : Registry α} {calls : List (Call α)}

theorem empty : Mirrors (empty : Registry α) [] where
  holders _ := rfl
  keyed := by simp [Registry.empty, EmptyCollection.emptyCollection, OrderedMap.empty]
  ordered := List.Pairwise.nil

theorem mem_keys_iff (h : reg.Mirrors calls) {tag : String} :
    tag ∈ reg.rules.keys ↔ holder calls tag ≠ none := by
  rw [← h.holders, Option.ne_none_iff_exists']
  exact OrderedMap.mem_keys_iff

theorem keyed_obey (h : reg.Mirrors calls) (call : Call α) :
    ∀ entry ∈ (reg.obey call).rules.entries, entry.2.key = entry.1 := by
  intro entry hentry
  rcases reg.obey_cases call with ⟨hobey, -⟩ | ⟨r, hobey, -⟩ | ⟨gone, hobey, -⟩ <;>
    rw [hobey] at hentry
  · exact h.keyed entry hentry
  · rcases OrderedMap.mem_put hentry with rfl | hold
    · rfl
    · exact h.keyed entry hold
  · exact h.keyed entry (List.mem_of_mem_filter hentry)

theorem obey (h : reg.Mirrors calls) (call : Call α) :
    (reg.obey call).Mirrors (calls ++ [call]) where
  holders tag := by rw [get?_obey, holder_append, h.holders]
  keyed := h.keyed_obey call
  ordered := by
    obtain ⟨kept, fresh, hkeys, hkept, hfresh⟩ := reg.keys_obey call
    have hheld : ∀ tag ∈ kept ++ fresh, holder (calls ++ [call]) tag ≠ none := by
      intro tag htag
      rw [← hkeys, OrderedMap.mem_keys_iff] at htag
      rw [holder_append, ← h.holders, ← get?_obey]
      exact Option.ne_none_iff_exists'.2 htag
    have hsenior : kept.Pairwise (IsSenior (calls ++ [call])) := by
      refine (h.ordered.sublist hkept).imp_of_mem ?_
      rintro tag tag' htag htag' ⟨i, j, hij, hi, hj⟩
      exact ⟨i, j, hij, hi.append (hheld _ (List.mem_append_left _ htag)),
        hj.append (hheld _ (List.mem_append_left _ htag'))⟩
    rw [hkeys]
    rcases hfresh with rfl | ⟨tag', rfl, hnew⟩
    · rw [List.append_nil]
      exact hsenior
    · refine List.pairwise_append.2 ⟨hsenior, List.pairwise_singleton _ _, ?_⟩
      intro tag htag tag'' htag''
      obtain rfl := List.mem_singleton.1 htag''
      obtain ⟨i, hi⟩ := exists_introduces (h.mem_keys_iff.1 (hkept.subset htag))
      have hvacant : holder calls tag'' = none := by
        simpa using mt h.mem_keys_iff.2 hnew
      exact ⟨i, calls.length, hi.lt, hi.append (hheld _ (List.mem_append_left _ htag)),
        .last hvacant (hheld _ (List.mem_append_right _ htag''))⟩

theorem all_map_key (h : reg.Mirrors calls) : reg.all.map Rule.key = reg.rules.keys := by
  unfold all OrderedMap.values OrderedMap.keys
  rw [List.map_map]
  exact List.map_congr_left h.keyed

theorem mem_all_iff (h : reg.Mirrors calls) {r : Rule α} :
    r ∈ reg.all ↔ holder calls r.key = some r := by
  rw [← h.holders]
  constructor
  · intro hr
    obtain ⟨entry, hentry, rfl⟩ := List.mem_map.1 hr
    rw [h.keyed entry hentry]
    exact OrderedMap.get?_of_mem hentry
  · intro hr
    exact List.mem_map.2 ⟨(r.key, r), OrderedMap.mem_of_find hr, rfl⟩

theorem size_eq (h : reg.Mirrors calls) : reg.size = {tag | holder calls tag ≠ none}.ncard := by
  have hset : {tag | holder calls tag ≠ none} = (reg.rules.keys.toFinset : Set String) := by
    ext tag
    rw [Set.mem_ofPred_eq, ← h.mem_keys_iff, Finset.mem_coe, List.mem_toFinset]
  rw [hset, Set.ncard_coe_finset, List.toFinset_card_of_nodup reg.rules.nodup_keys]
  exact (List.length_map _).symm

end Mirrors
end Registry

namespace Session
open Registry

def ask (s : Session) : Registry.Call Float → Session
  | .register c => (s.register c).session
  | .unregister v => (s.unregister v.plain).1
  | .lookUp _ => s

def askAll (s : Session) (calls : List (Registry.Call Float)) : Session := calls.foldl ask s

theorem register_of_refused {s : Session} {c : Candidate Float} {e : RegistrationError}
    (h : s.registries.active.register c = .error e) : s.register c = ⟨s, .error e, []⟩ := by
  simp only [register, Journal.register, h, Except.map]

theorem register_of_accepted {s : Session} {c : Candidate Float} {reg : Registry Float}
    (h : s.registries.active.register c = .ok reg) :
    (s.register c).session.registries.active = reg ∧ (s.register c).outcome = .ok reg.size := by
  simp only [register, Journal.register, h, Except.map]
  split <;> exact ⟨Registries.active_setActive _ _, rfl⟩

theorem ask_active (s : Session) (call : Registry.Call Float) :
    (s.ask call).registries.active = s.registries.active.obey call := by
  cases call with
  | register c =>
    simp only [ask, obey]
    cases h : s.registries.active.register c with
    | error e =>
      rw [register_of_refused h]
      rfl
    | ok reg => exact (register_of_accepted h).1
  | unregister v => exact Registries.active_setActive _ _
  | lookUp v => rfl

theorem askAll_mirrors {s : Session} (hempty : s.registries.active = .empty)
    (calls : List (Registry.Call Float)) : (s.askAll calls).registries.active.Mirrors calls := by
  induction calls using List.reverseRecOn with
  | nil =>
    rw [askAll, List.foldl_nil, hempty]
    exact .empty
  | append_singleton calls call ih =>
    rw [askAll, List.foldl_append, List.foldl_cons, List.foldl_nil, ask_active]
    exact ih.obey call

theorem register_eq_error_iff {reg : Registry Float} {c : Candidate Float}
    {e : RegistrationError} : reg.register c = .error e ↔
      (∃ v, c = .other v ∧ e = .notARule v) ∨
        ∃ r, c = .rule r ∧ r.relation.isTruthy = false ∧ e = .noRelation r.family := by
  cases c with
  | other v => simp [Registry.register, accept, Except.map, @eq_comm _ e]
  | rule r =>
    rw [register_rule]
    cases htruthy : r.relation.isTruthy <;> simp [htruthy, @eq_comm _ e]

theorem askAll_builtin {s : Session} (hempty : s.registries.active = .empty) :
    (s.askAll (Relation.all.map fun r => .register (.rule (.builtin r)))).registries.active =
      .builtin := by
  have hobeyed : ∀ (rs : List Relation) (s : Session),
      (s.askAll (rs.map fun r => .register (.rule (.builtin r)))).registries.active =
        rs.foldl (fun reg r => reg.insert (Rule.builtin r)) s.registries.active := by
    intro rs
    induction rs with
    | nil => intro s; rfl
    | cons r rest ih =>
      intro s
      have hfirst := s.ask_active (.register (.rule (.builtin r)))
      rw [obey_register_rule, if_pos (by cases r <;> rfl)] at hfirst
      rw [List.map_cons, askAll, List.foldl_cons, ← askAll, ih, hfirst, List.foldl_cons]
  rw [hobeyed, hempty]
  rfl

/-- A registry is a map that keeps the order in which its tags came in, however a tag is written. After
any calls a tag is shown with the rule registered last under its plain text and not given up since; a
tag is there just if it has such a rule; and there are as many rules as such tags. All rules are
listed, each under the tag of its own relation, by how long the tag has been held without a break, not
by how long the rule has been there. What gives a tag up answers as a look at it. A candidate is
refused just if it is no rule or declares no relation, and that changes nothing. The known rules come
in so, one after another. -/
theorem registry_shows_holders {s : Session} (hempty : s.registries.active = .empty)
    (calls : List (Registry.Call Float)) :
    let now := s.askAll calls
    let reg := now.registries.active
    (∀ v : Value, reg.get? v.plain = holder calls v.plain ∧
      (now.unregister v.plain).2 = holder calls v.plain ∧
      (reg.has v.plain = true ↔ reg.get? v.plain ≠ none) ∧
      (reg.holds v = true ↔ ∃ tag, v.text? = some tag ∧ reg.get? tag ≠ none)) ∧
    (reg.size = {tag | holder calls tag ≠ none}.ncard ∧
      (∀ r, r ∈ reg.all ↔ holder calls r.key = some r) ∧ (reg.all.map Rule.key).Nodup ∧
      reg.all.Pairwise (fun r r' => IsSenior calls r.key r'.key) ∧
      ∀ entry ∈ reg.rules.entries, entry.1 = entry.2.relation.plain) ∧
    (∀ c e, (now.register c).outcome = .error e ↔
      (∃ v, c = .other v ∧ e = .notARule v) ∨
        ∃ r, c = .rule r ∧ r.relation.isTruthy = false ∧ e = .noRelation r.family) ∧
    (∀ c e, (now.register c).outcome = .error e →
      (now.register c).session = now ∧ (now.register c).lines = []) ∧
    (s.askAll (Relation.all.map fun r => .register (.rule (.builtin r)))).registries.active =
      .builtin := by
  intro now reg
  have hmirrors : reg.Mirrors calls := askAll_mirrors hempty calls
  have hrefused : ∀ c e, (now.register c).outcome = .error e ↔ reg.register c = .error e := by
    intro c e
    cases h : reg.register c with
    | error e' => simp [register_of_refused h]
    | ok next => simp [(register_of_accepted h).2]
  refine ⟨fun v => ⟨hmirrors.holders _, hmirrors.holders _, ?_, ?_⟩,
    ⟨hmirrors.size_eq, fun r => hmirrors.mem_all_iff, ?_, ?_, ?_⟩, ?_, ?_, askAll_builtin hempty⟩
  · rw [has, Option.isSome_iff_ne_none]
  · simp only [holds, Option.any_eq_true, has, Option.isSome_iff_ne_none]
  · rw [hmirrors.all_map_key]
    exact reg.rules.nodup_keys
  · rw [← List.pairwise_map (f := Rule.key), hmirrors.all_map_key]
    exact hmirrors.ordered
  · exact fun entry hentry => (hmirrors.keyed entry hentry).symm
  · intro c e
    rw [hrefused, register_eq_error_iff]
  · intro c e h
    rw [register_of_refused ((hrefused c e).1 h)]
    exact ⟨rfl, rfl⟩

theorem registry_shows_holders_returned :
    let s : Session := ⟨.standard, ⟨some .empty, .builtin⟩, ∅, none, .standard, ""⟩
    let successor : Rule Float := { Rule.builtin .causes with relation := .text "causes" }
    let answer : Rule Float := { Rule.builtin .causes with relation := .int 42 }
    let calls : List (Registry.Call Float) :=
      [.register (.rule (.builtin .depends)), .register (.rule (.builtin .causes)),
        .register (.rule answer), .register (.other (.text "causes")), .unregister (.text "depends"),
        .register (.rule successor), .lookUp .null, .register (.rule (.builtin .depends))]
    let reg := (s.askAll calls).registries.active
    s.registries.active = .empty ∧ reg.all.map Rule.key = ["causes", "42", "depends"] ∧
      reg.get? (Value.member (.relation .causes)).plain = some successor ∧
      ((s.askAll calls).unregister (Value.int 42).plain).2 = some answer ∧
      {tag | holder calls tag ≠ none}.ncard = 3 ∧ IsSenior calls "42" "depends" ∧
      (∃ e, ((s.askAll calls).register (.rule { successor with relation := .int 0 })).outcome =
        .error e) := by
  intro s successor answer calls reg
  have hempty : s.registries.active = .empty := rfl
  obtain ⟨hheld, ⟨hsize, -, -, hordered, -⟩, hrefused, -⟩ := registry_shows_holders hempty calls
  have hkeys : reg.all.map Rule.key = ["causes", "42", "depends"] := by decide +kernel
  refine ⟨hempty, hkeys, (hheld (.member (.relation .causes))).1.trans rfl,
    (hheld (.int 42)).2.1.trans rfl, hsize.symm.trans (by decide +kernel), ?_,
    _, (hrefused _ _).2 (.inr ⟨_, rfl, rfl, rfl⟩)⟩
  rw [← List.pairwise_map (f := Rule.key), hkeys] at hordered
  exact List.rel_of_pairwise_cons (List.pairwise_cons.1 hordered).2 (by simp)

end Session
end ReasonGraph
