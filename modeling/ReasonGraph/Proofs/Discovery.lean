import ReasonGraph.Proofs.Circuits
import ReasonGraph.Proofs.Precedence

/-! No part of a graph that goes round in circles is missed by the search. When the search leaves an
id for good, every link from it was followed: back onto the trail, which closes a cycle there, or to
an id that was left before. So if a cycle leads through the id, the first of its links either closed
a cycle or leads to an id through which a cycle leads too, and one was found around that. -/

namespace ReasonGraph

namespace Links
variable {α : Type} {l : Links α} {a b c : String} {found found' : List (List String)}

def Mutual (l : Links α) (a b : String) : Prop :=
  Relation.ReflTransGen l.Joins a b ∧ Relation.ReflTransGen l.Joins b a

theorem Mutual.symm (h : l.Mutual a b) : l.Mutual b a := ⟨h.2, h.1⟩

theorem Mutual.trans (hab : l.Mutual a b) (hbc : l.Mutual b c) : l.Mutual a c :=
  ⟨hab.1.trans hbc.1, hbc.2.trans hab.2⟩

theorem Joins.mutual (h : l.Joins a b) (hback : Relation.ReflTransGen l.Joins b a) : l.Mutual a b :=
  ⟨.single h, hback⟩

theorem mutual_of_isChain {first : String} {rest : List String}
    (h : (first :: rest ++ [first]).IsChain l.Joins) (ha : a ∈ first :: rest)
    (hb : b ∈ first :: rest) : l.Mutual a b := by
  have hfrom : ∀ x ∈ first :: rest ++ [first], Relation.ReflTransGen l.Joins first x :=
    h.induction _ _ (fun _ _ hjoins hx => hx.tail hjoins) fun _ => .refl
  have hto : ∀ x ∈ first :: rest, Relation.ReflTransGen l.Joins x first :=
    h.backwards_concat_induction _ _ (fun _ _ hjoins hy => .head hjoins hy) .refl
  have hmutual : ∀ x ∈ first :: rest, l.Mutual first x := fun x hx =>
    ⟨hfrom x (List.mem_append_left _ hx), hto x hx⟩
  exact (hmutual a ha).symm.trans (hmutual b hb)

theorem transGen_of_isChain {first : String} {rest : List String}
    (h : (first :: rest ++ [first]).IsChain l.Joins) : Relation.TransGen l.Joins first first := by
  cases rest with
  | nil => exact .single (List.isChain_cons_cons.1 h).1
  | cons next rest =>
    have hnext : next ∈ first :: next :: rest := List.mem_cons_of_mem _ List.mem_cons_self
    exact .head' (List.isChain_cons_cons.1 h).1 (mutual_of_isChain h hnext List.mem_cons_self).1

theorem IsCircuit.mutual {way : List String} (h : l.IsCircuit way) (ha : a ∈ way) (hb : b ∈ way) :
    l.Mutual a b := by
  obtain ⟨first, rest, rfl, hchain⟩ := h.closed
  exact mutual_of_isChain hchain ha hb

/-- A cycle was found in the component of an id. -/
def IsExposed (l : Links α) (found : List (List String)) (id : String) : Prop :=
  ∃ way ∈ found, way ≠ [] ∧ ∀ x ∈ way, l.Mutual id x

theorem IsExposed.mono (h : l.IsExposed found a) (hsub : found ⊆ found') :
    l.IsExposed found' a := by
  obtain ⟨way, hway, hlies⟩ := h
  exact ⟨way, hsub hway, hlies⟩

theorem IsExposed.of_mutual (h : l.IsExposed found b) (hab : l.Mutual a b) :
    l.IsExposed found a := by
  obtain ⟨way, hway, hne, hlies⟩ := h
  exact ⟨way, hway, hne, fun x hx => hab.trans (hlies x hx)⟩

end Links

namespace Search
variable {α : Type} {l : Links α} {s t : Search} {found found' : List (List String)}

/-- What became of the links that leave the stops of a trail, the latest stop first: each is still
ahead, or leads to a later stop, or a cycle was found if one leads along it. -/
def FollowsUp (l : Links α) (found : List (List String)) : List String → List Stop → Prop
  | _, [] => True
  | later, stop :: rest =>
    (∀ b, l.Joins stop.id b → b ∈ stop.ahead ∨ b ∈ later ∨
      (Relation.ReflTransGen l.Joins b stop.id → l.IsExposed found stop.id)) ∧
    FollowsUp l found (stop.id :: later) rest

theorem FollowsUp.weaken {later later' : List String} {trail : List Stop}
    (h : FollowsUp l found later trail) (hfound : found ⊆ found')
    (hlater : ∀ b ∈ later, b ∈ later' ∨ ∀ id, l.Joins id b →
      Relation.ReflTransGen l.Joins b id → l.IsExposed found' id) :
    FollowsUp l found' later' trail := by
  induction trail generalizing later later' with
  | nil => trivial
  | cons stop rest ih =>
    refine ⟨fun b hjoins => ?_, ih h.2 fun b hb => ?_⟩
    · rcases h.1 b hjoins with hahead | hmem | hfollowed
      · exact .inl hahead
      · exact .inr ((hlater b hmem).imp_right fun hgone => hgone stop.id hjoins)
      · exact .inr (.inr fun hback => (hfollowed hback).mono hfound)
    · rcases List.mem_cons.1 hb with rfl | hmem
      · exact .inl List.mem_cons_self
      · exact (hlater b hmem).imp_left (List.mem_cons_of_mem _)

/-- The state of a search that misses nothing: where it left an id on a cycle for good, a cycle was
found, and on the trail it follows up every link. -/
structure IsThorough (l : Links α) (s : Search) : Prop where
  left : ∀ id ∈ l.ids, id ∉ s.path → id ∉ s.unvisited → Relation.TransGen l.Joins id id →
    l.IsExposed s.found id
  trail : FollowsUp l s.found [] s.trail

theorem isThorough_start (l : Links α) : IsThorough l l.start where
  left _ hid _ hvisited := absurd (List.mem_eraseDups.2 hid) hvisited
  trail := trivial

theorem followsUp_tail {id b : String} {ahead later : List String} {rest : List Stop}
    (h : FollowsUp l found [] (⟨id, b :: ahead⟩ :: rest)) (hsub : found ⊆ found')
    (hlink : b ∈ later ∨ (Relation.ReflTransGen l.Joins b id → l.IsExposed found' id)) :
    FollowsUp l found' later (⟨id, ahead⟩ :: rest) := by
  refine ⟨fun x hjoins => ?_, h.2.weaken hsub fun x hx => ?_⟩
  · rcases h.1 x hjoins with hx | hnone | hfollowed
    · rcases List.mem_cons.1 hx with rfl | hahead
      · exact .inr hlink
      · exact .inl hahead
    · cases hnone
    · exact .inr (.inr fun hback => (hfollowed hback).mono hsub)
  · rw [List.mem_singleton.1 hx]
    exact .inl List.mem_cons_self

theorem isExposed_of_close {id b : String} {before : List String} (hb : b ∈ before ++ [id])
    (hcircuit : l.IsCircuit (loopFrom b (before ++ [id]))) :
    l.IsExposed (found ++ [loopFrom b (before ++ [id])]) id := by
  have hid : id ∈ loopFrom b (before ++ [id]) := List.mem_of_getLast? (getLast?_loopFrom hb)
  exact ⟨_, List.mem_append_right _ List.mem_cons_self, hcircuit.ne_nil, fun x hx =>
    hcircuit.mutual hid hx⟩

theorem IsThorough.move (h : IsThorough l s) (hs : OnLinks l s) (hmove : Moves l.next s t) :
    IsThorough l t := by
  have hcircuits := (hs.move hmove).circuits
  obtain ⟨hleft, htrail⟩ := h
  cases hmove with
  | @root id rest found =>
    refine ⟨fun x hx hpath hvisited => hleft x hx List.not_mem_nil fun hmem => ?_,
      fun b hjoins => .inl (Links.mem_next.2 hjoins), trivial⟩
    rcases List.mem_cons.1 hmem with rfl | hrest
    · exact hpath List.mem_cons_self
    · exact hvisited hrest
  | @leave unvisited id rest found =>
    -- if the id left lies on a cycle, then so does the end of one of its links
    have hexposed : ∀ b, l.Joins id b → Relation.ReflTransGen l.Joins b id →
        l.IsExposed found id := fun b hjoins hback =>
      ((htrail.1 b hjoins).resolve_left List.not_mem_nil).resolve_left List.not_mem_nil hback
    refine ⟨fun x hx hpath hvisited hcycle => ?_, htrail.2.weaken (List.Subset.refl _) ?_⟩
    · by_cases hsame : x = id
      · subst hsame
        obtain ⟨b, hjoins, hback⟩ := Relation.TransGen.head'_iff.1 hcycle
        exact hexposed b hjoins hback
      · refine hleft x hx (fun hmem => ?_) hvisited hcycle
        rw [path_cons, List.mem_append, List.mem_singleton] at hmem
        exact hmem.elim hpath hsame
    · intro b hb
      rw [List.mem_singleton.1 hb]
      refine .inr fun before hjoins hback => ?_
      have hcycle : Relation.TransGen l.Joins id id := .tail' hback hjoins
      obtain ⟨b', hjoins', hback'⟩ := Relation.TransGen.head'_iff.1 hcycle
      exact (hexposed b' hjoins' hback').of_mutual (hjoins.mutual hback)
  | @close unvisited id b ahead rest found hb =>
    have hnew : l.IsExposed (found ++ [loopFrom b ((rest.map Stop.id).reverse ++ [id])]) id :=
      isExposed_of_close hb (hcircuits _ (List.mem_append_right _ List.mem_cons_self))
    have hsub := List.subset_append_left found [loopFrom b ((rest.map Stop.id).reverse ++ [id])]
    refine ⟨fun x hx hpath hvisited hcycle => ?_, followsUp_tail htrail hsub (.inr fun _ => hnew)⟩
    rw [path_cons] at hpath hleft
    exact (hleft x hx hpath hvisited hcycle).mono hsub
  | @enter unvisited id b ahead rest found hb hnew =>
    refine ⟨fun x hx hpath hvisited => ?_, fun x hjoins => .inl (Links.mem_next.2 hjoins),
      followsUp_tail htrail (List.Subset.refl _) (.inl List.mem_cons_self)⟩
    rw [path_cons, List.map_cons, List.reverse_cons, List.mem_append, List.mem_singleton,
      not_or] at hpath
    rw [path_cons] at hleft
    exact hleft x hx hpath.1 fun hmem => hvisited ((List.mem_erase_of_ne hpath.2).2 hmem)
  | @pass unvisited id b ahead rest found hb hold =>
    have hlisted : b ∈ l.ids :=
      (hs.ahead _ List.mem_cons_self b List.mem_cons_self).mem_ids.2
    have hjoins : l.Joins id b := hs.ahead _ List.mem_cons_self b List.mem_cons_self
    rw [path_cons] at hleft
    refine ⟨by rwa [path_cons], followsUp_tail htrail (List.Subset.refl _) (.inr fun hback => ?_)⟩
    have hcycle : Relation.TransGen l.Joins b b := .tail' hback hjoins
    exact (hleft b hlisted hb hold hcycle).of_mutual (hjoins.mutual hback)

theorem isThorough_finish (l : Links α) : IsThorough l (l.start.finish l.next) :=
  (finish_induction (P := fun s => OnLinks l s ∧ IsThorough l s)
    ⟨onLinks_start l, isThorough_start l⟩ fun hmove h =>
      ⟨h.1.move hmove, h.2.move h.1 hmove⟩).2

theorem finish_done (next : String → List String) (s : Search) :
    (s.finish next).unvisited = [] ∧ (s.finish next).trail = [] := by
  induction s using Search.finish.induct next with
  | case1 s hstep =>
    rw [finish_of_none hstep]
    obtain ⟨unvisited, trail, found⟩ := s
    cases trail with
    | nil =>
      cases unvisited with
      | nil => exact ⟨rfl, rfl⟩
      | cons id rest => cases hstep
    | cons stop rest =>
      obtain ⟨id, ahead⟩ := stop
      cases ahead with
      | nil => cases hstep
      | cons b ahead =>
        simp only [step?] at hstep
        split at hstep
        · cases hstep
        · split at hstep <;> cases hstep
  | case2 s t hstep ih => rwa [finish_of_some hstep]

end Search

namespace Links
variable {α : Type} {l : Links α}

theorem isExposed_cycles {id : String} (hcycle : Relation.TransGen l.Joins id id) :
    l.IsExposed l.cycles id := by
  obtain ⟨hunvisited, htrail⟩ := Search.finish_done l.next l.start
  obtain ⟨b, hjoins, -⟩ := Relation.TransGen.head'_iff.1 hcycle
  refine (Search.isThorough_finish l).left id hjoins.mem_ids.1 ?_ ?_ hcycle
  · rw [Search.path, htrail]
    exact List.not_mem_nil
  · rw [hunvisited]
    exact List.not_mem_nil

/-- No part of a graph that goes round in circles is missed. Whatever walk along the links ends
where it began, one of the cycles found lies in the component of its ids. So no cycle is found just
if there is none. -/
theorem cycles_complete (l : Links α) :
    (∀ first rest, (first :: rest ++ [first]).IsChain l.Joins →
      ∃ found ∈ l.cycles, found ≠ [] ∧ ∀ x ∈ first :: rest, ∀ y ∈ found, l.Mutual x y) ∧
    (l.cycles = [] ↔ l.IsAcyclic) := by
  refine ⟨fun first rest hwalk => ?_, fun hnone id hcycle => ?_, fun hacyclic => ?_⟩
  · obtain ⟨found, hfound, hne, hlies⟩ := isExposed_cycles (transGen_of_isChain hwalk)
    exact ⟨found, hfound, hne, fun x hx y hy =>
      (mutual_of_isChain hwalk hx List.mem_cons_self).trans (hlies y hy)⟩
  · obtain ⟨found, hfound, -⟩ := isExposed_cycles hcycle
    rw [hnone] at hfound
    cases hfound
  · rw [List.eq_nil_iff_forall_not_mem]
    intro way hway
    obtain ⟨first, rest, rfl, hchain⟩ := ((Search.onLinks_finish l).circuits way hway).closed
    exact hacyclic first (transGen_of_isChain hchain)

theorem cycles_complete_left : ∃ l : Links Rat,
    l.cycles = [["a", "b"]] ∧ ["a", "c", "b", "a"].IsChain l.Joins ∧ l.Mutual "c" "a" ∧
      ¬l.IsAcyclic := by
  let l : Links Rat := ⟨["a", "b", "c", "a"], [⟨"ab", "a", "b", "depends", 1⟩,
    ⟨"ba", "b", "a", "causes", 1⟩, ⟨"ac", "a", "c", "depends", 1⟩,
    ⟨"cb", "c", "b", "depends", 1⟩], isImplication⟩
  have hcycles : l.cycles = [["a", "b"]] := by cbv
  have hwalk : ["a", "c", "b", "a"].IsChain l.Joins := by
    simp only [List.isChain_cons_cons, List.isChain_singleton, and_true, ← mem_next]
    decide
  obtain ⟨hfound, hnone⟩ := cycles_complete l
  obtain ⟨found, hmem, -, hmutual⟩ := hfound "a" ["c", "b"] hwalk
  rw [hcycles] at hmem
  obtain rfl := List.mem_singleton.1 hmem
  refine ⟨l, hcycles, hwalk, hmutual "c" (by decide) "a" (by decide), fun hacyclic => ?_⟩
  cases hcycles.symm.trans (hnone.2 hacyclic)

end Links
end ReasonGraph
