import ReasonGraph.Proofs.Replay
import ReasonGraph.Proofs.View

/-! Which nodes a pass outward from a node expands. It expands the node it starts from, and besides
it exactly the nodes that it writes, each of them after a write. What comes back to a node that was
expanded before does not make the pass expand it again. -/

namespace ReasonGraph
variable {α : Type}

def Ledger.WritesSince (l before : Ledger α) (id : String) : Prop :=
  ∃ e ∈ l.events.drop before.events.length, e.target = id

instance (l before : Ledger α) (id : String) : Decidable (l.WritesSince before id) :=
  inferInstanceAs (Decidable (∃ e ∈ _, _))

theorem Ledger.not_writesSince_self (l : Ledger α) (id : String) : ¬l.WritesSince l id := by
  simp [WritesSince]

namespace Ledger.Continues
variable {a b c : Ledger α} {xs ys : List (Event α)}

theorem writesSince (h : a.Continues b xs) (id : String) :
    b.WritesSince a id ↔ ∃ e ∈ xs, e.target = id := by
  rw [WritesSince, h.appended, List.drop_left]

theorem writesSince_trans (hab : a.Continues b xs) (hbc : b.Continues c ys) (id : String) :
    c.WritesSince a id ↔ b.WritesSince a id ∨ c.WritesSince b id := by
  rw [(hab.trans hbc).writesSince, hab.writesSince, hbc.writesSince]
  simp only [List.mem_append, or_and_right, exists_or]

end Ledger.Continues

theorem mem_skipped {queue unexpanded : List String} {m : String} (hm : m ∈ unexpanded)
    (h : m ∈ queue) : m ∈ queue.dropWhile fun id => !unexpanded.contains id := by
  rw [← List.takeWhile_append_dropWhile (p := fun id => !unexpanded.contains id) (l := queue),
    List.mem_append] at h
  refine h.resolve_left fun htaken => ?_
  have hall := List.all_eq_true.1 (List.all_takeWhile (l := queue)) m htaken
  simp [hm] at hall

variable [Quantity α] {s : Setting α}

namespace Setting

theorem after_writesSince (s : Setting α) (l : Ledger α) (xs ys : List (Hop α × Rule α))
    (id : String) :
    (s.after l (xs ++ ys)).WritesSince l id ↔
      (s.after l xs).WritesSince l id ∨ (s.after l (xs ++ ys)).WritesSince (s.after l xs) id := by
  obtain ⟨_, hxs⟩ := s.after_continues l xs
  obtain ⟨_, hys⟩ := s.after_continues (s.after l xs) ys
  rw [after_append]
  exact hxs.writesSince_trans hys id

theorem after_untouched {l : Ledger α} {hops : List (Hop α × Rule α)} {id : String}
    (h : ¬(s.after l hops).WritesSince l id) :
    (s.after l hops).states.get? id = l.states.get? id := by
  obtain ⟨log, hlog⟩ := s.after_continues l hops
  rw [hlog.writesSince] at h
  exact hlog.audited.untouched id fun e he heq => h ⟨e, he, heq⟩

theorem write_writesSince {l : Ledger α} {h : Hop α × Rule α} {c : Change α}
    (hc : s.change? l.states h = some c) (id : String) :
    (l.write c).WritesSince l id ↔ h.1.target = id := by
  rw [(write_continues hc).writesSince, ← change?_target hc]
  simp

theorem mem_ids_of_writesSince {l : Ledger α} {hops : List (Hop α × Rule α)} {id : String}
    (h : (s.after l hops).WritesSince l id) : id ∈ s.graph.ids := by
  induction hops generalizing l with
  | nil => exact absurd h (l.not_writesSince_self id)
  | cons hop rest ih =>
    rw [← List.singleton_append, after_writesSince] at h
    rcases h with h | h
    · rw [after_cons, after_nil] at h
      rcases s.step_cases l hop with ⟨-, hstep⟩ | ⟨c, hc, hstep⟩
      · rw [hstep] at h
        exact absurd h (l.not_writesSince_self id)
      · rw [hstep, write_writesSince hc] at h
        obtain ⟨e, _, he, -⟩ := Hop.change?_eq_some hc
        obtain ⟨_, _, _, _, -, htarget, -⟩ := Hop.evidence?_eq_some he
        exact OrderedMap.mem_keys_iff.2 ⟨_, h ▸ htarget⟩
    · exact ih h

/-- Inference goes on from every target it changes. -/
def Spreads (s : Setting α) : Prop :=
  ∀ id, ∀ h ∈ s.hopsAt id, ∀ t c, s.change? t h = some c → c.spreads = true

theorem mem_reached (hops : List (Hop α × Rule α))
    (hspreads : ∀ h ∈ hops, ∀ t c, s.change? t h = some c → c.spreads = true) (p : Progress α)
    (id : String) :
    id ∈ (hops.foldl s.readOne p).reached ↔
      id ∈ p.reached ∨ (s.after p.ledger hops).WritesSince p.ledger id := by
  induction hops generalizing p with
  | nil => simp [p.ledger.not_writesSince_self]
  | cons h rest ih =>
    have hrest := fun h' hh' => hspreads h' (List.mem_cons_of_mem h hh')
    rw [List.foldl_cons, after_cons]
    cases hc : s.change? p.ledger.states h with
    | none => rw [readOne_of_none hc, step_of_none hc, ih hrest]
    | some c =>
      obtain ⟨_, hlater⟩ := s.after_continues (p.ledger.write c) rest
      rw [readOne_of_some hc, step_of_some hc, ih hrest,
        (write_continues hc).writesSince_trans hlater, write_writesSince hc]
      simp only [hspreads h List.mem_cons_self _ c hc, if_true, List.mem_append,
        List.mem_singleton, or_assoc, eq_comm]

theorem mem_read_reached (hspreads : s.Spreads) (l : Ledger α) (id m : String) :
    m ∈ (s.read l (s.hopsAt id)).reached ↔ (s.after l (s.hopsAt id)).WritesSince l m := by
  rw [read, mem_reached _ (hspreads id)]
  simp

theorem visits_written (hspreads : s.Spreads) {start : String} {l₀ l : Ledger α}
    {log : List (Event α)} (hl : l₀.Continues l log) {steps : Nat} {queue unexpanded : List String}
    (hqueue : ∀ q ∈ queue, q = start ∨ l.WritesSince l₀ q) {before later : List String} {m : String}
    (h : s.visits steps queue unexpanded l = before ++ m :: later) :
    m = start ∨ (s.after l (before.flatMap s.hopsAt)).WritesSince l₀ m := by
  induction steps generalizing l log queue unexpanded before with
  | zero => simp [visits] at h
  | succ steps ih =>
    rw [visits] at h
    cases hdrop : queue.dropWhile fun id => !unexpanded.contains id with
    | nil => rw [hdrop] at h; simp at h
    | cons id rest =>
      have hsub : ∀ q ∈ id :: rest, q ∈ queue := fun q hq =>
        (List.dropWhile_sublist _).mem (hdrop ▸ hq)
      simp only [hdrop] at h
      cases before with
      | nil =>
        obtain ⟨rfl, -⟩ := List.cons.inj h
        exact hqueue id (hsub id List.mem_cons_self)
      | cons first before =>
        obtain ⟨rfl, hrest⟩ := List.cons.inj h
        obtain ⟨_, hread⟩ := s.after_continues l (s.hopsAt id)
        rw [← s.read_ledger l (s.hopsAt id)] at hread
        rw [List.flatMap_cons, after_append, ← s.read_ledger l (s.hopsAt id)]
        refine ih (hl.trans hread) (fun q hq => ?_) hrest
        rw [hl.writesSince_trans hread]
        rcases List.mem_append.1 hq with hq | hq
        · exact (hqueue q (hsub q (List.mem_cons_of_mem id hq))).imp_right .inl
        · rw [mem_read_reached hspreads] at hq
          rw [s.read_ledger]
          exact .inr (.inr hq)

/-- With steps for all that is unexpanded, everything queued or written gets expanded. -/
theorem mem_visits (hspreads : s.Spreads) {steps : Nat} {queue unexpanded : List String}
    (hsteps : unexpanded.length ≤ steps) {l : Ledger α} {m : String} (hm : m ∈ unexpanded)
    (h : m ∈ queue ∨
      (s.after l ((s.visits steps queue unexpanded l).flatMap s.hopsAt)).WritesSince l m) :
    m ∈ s.visits steps queue unexpanded l := by
  induction steps generalizing queue unexpanded l with
  | zero => simp_all
  | succ steps ih =>
    have hkept : m ∈ queue → m ∈ queue.dropWhile fun id => !unexpanded.contains id :=
      mem_skipped hm
    rw [visits] at h ⊢
    cases hdrop : queue.dropWhile fun id => !unexpanded.contains id with
    | nil =>
      simp only [hdrop] at h hkept
      exact absurd h fun h => h.elim (fun hq => by cases hkept hq) (l.not_writesSince_self m)
    | cons id rest =>
      simp only [hdrop, List.flatMap_cons] at h hkept
      by_cases hid : m = id
      · exact hid ▸ List.mem_cons_self
      have hhead : id ∈ unexpanded := by
        have hfirst := List.head?_dropWhile_not (fun id => !unexpanded.contains id) queue
        rw [hdrop] at hfirst
        simpa using hfirst
      have hlength : (unexpanded.erase id).length ≤ steps := by
        rw [List.length_erase_of_mem hhead]
        omega
      refine List.mem_cons_of_mem _ (ih hlength ((List.mem_erase_of_ne hid).2 hm) ?_)
      rw [List.mem_append, mem_read_reached hspreads, s.read_ledger]
      rcases h with hq | hw
      · exact .inl (.inl ((List.mem_cons.1 (hkept hq)).resolve_left hid))
      · rw [after_writesSince, s.read_ledger] at hw
        rw [← after_append]
        exact hw.imp_left .inr

theorem expand_changed (s : Setting α) (steps : Nat) (queue unexpanded : List String)
    (l : Ledger α) : (s.expand steps queue unexpanded (l, true)).2 = true := by
  induction steps generalizing queue unexpanded l with
  | zero => rfl
  | succ steps ih =>
    rw [expand]
    cases queue.dropWhile fun id => !unexpanded.contains id with
    | nil => rfl
    | cons id rest => exact ih _ _ _

theorem passFrom_quiet {start : String} (hstart : start ∈ s.graph.ids) {l next : Ledger α}
    (h : s.passFrom start l = (next, false)) :
    next = l ∧ ∀ hop ∈ s.hopsAt start, s.change? l.states hop = none := by
  obtain ⟨steps, hsteps⟩ : ∃ steps, s.graph.ids.length = steps + 1 :=
    Nat.exists_eq_add_one.2 (List.length_pos_of_mem hstart)
  have hdrop : [start].dropWhile (fun id => !s.graph.ids.contains id) = [start] := by
    simp [hstart]
  rw [passFrom, hsteps, expand, hdrop] at h
  simp only [Bool.false_or] at h
  cases hchanged : (s.read l (s.hopsAt start)).changed with
  | true =>
    rw [hchanged] at h
    exact absurd (congrArg Prod.snd h) (by rw [expand_changed]; simp)
  | false =>
    obtain ⟨hsame, hquiet⟩ := read_quiet hchanged
    rw [hsame] at h
    refine ⟨?_, hquiet⟩
    cases steps <;> exact (congrArg Prod.fst h).symm

theorem passFrom_of_quiet {l : Ledger α}
    (hquiet : ∀ id, ∀ hop ∈ s.hopsAt id, s.change? l.states hop = none) (start : String) :
    s.passFrom start l = (l, false) := by
  suffices h : ∀ steps queue unexpanded, s.expand steps queue unexpanded (l, false) = (l, false) from
    h _ _ _
  intro steps
  induction steps with
  | zero => exact fun _ _ => rfl
  | succ steps ih =>
    intro queue unexpanded
    rw [expand]
    cases queue.dropWhile fun id => !unexpanded.contains id with
    | nil => rfl
    | cons id rest =>
      simp only [read_of_quiet (hquiet id), Bool.or_false]
      exact ih _ _

theorem mem_visitsFrom (hspreads : s.Spreads) {start m : String} {l : Ledger α}
    (h : (s.passFrom start l).1.WritesSince l m) : m ∈ s.visitsFrom start l := by
  rw [passFrom_ledger] at h
  exact mem_visits hspreads Nat.le.refl (mem_ids_of_writesSince h) (.inr h)

theorem visitsFrom_written (hspreads : s.Spreads) {start m : String} {l : Ledger α}
    {before later : List String} (h : s.visitsFrom start l = before ++ m :: later) :
    m = start ∨ (s.after l (before.flatMap s.hopsAt)).WritesSince l m :=
  visits_written hspreads (.refl l) (fun _ hq => .inl (List.mem_singleton.1 hq)) h

theorem mem_settleTrail (hspreads : s.Spreads) {start m : String} {cap : Nat} {l : Ledger α}
    (h : (settle (s.passFrom start) cap l).ledger.WritesSince l m) :
    m ∈ settleTrail (s.passFrom start) (s.visitsFrom start) cap l := by
  induction cap generalizing l with
  | zero => exact absurd h (l.not_writesSince_self m)
  | succ cap ih =>
    obtain ⟨_, hfirst⟩ := s.after_continues l ((s.visitsFrom start l).flatMap s.hopsAt)
    have hpass : (s.passFrom start l).1.WritesSince l m → m ∈ s.visitsFrom start l :=
      mem_visitsFrom hspreads
    rw [← s.passFrom_ledger] at hfirst
    rw [settle] at h
    rw [settleTrail]
    rcases hp : s.passFrom start l with ⟨next, changed⟩
    rw [hp] at h hfirst hpass
    cases changed with
    | false => exact hpass h
    | true =>
      obtain ⟨_, hrest⟩ := s.after_continues next
        ((settleTrail (s.passFrom start) (s.visitsFrom start) cap next).flatMap s.hopsAt)
      rw [← settle_passFrom_ledger] at hrest
      rw [List.mem_append]
      exact ((hfirst.writesSince_trans hrest m).1 h).imp hpass ih

theorem settleTrail_written (hspreads : s.Spreads) {start m : String} {cap : Nat} {l : Ledger α}
    {before later : List String}
    (h : settleTrail (s.passFrom start) (s.visitsFrom start) cap l = before ++ m :: later) :
    m = start ∨ (s.after l (before.flatMap s.hopsAt)).WritesSince l m := by
  induction cap generalizing l before with
  | zero => simp [settleTrail] at h
  | succ cap ih =>
    have hledger := s.passFrom_ledger start l
    rw [settleTrail] at h
    rcases hp : s.passFrom start l with ⟨next, changed⟩
    rw [hp] at h hledger
    cases changed with
    | false => exact visitsFrom_written hspreads h
    | true =>
      simp only at h hledger
      rcases append_eq_append_cons h with ⟨rest, hvisits, -⟩ | ⟨rest, rfl, hrest⟩
      · exact visitsFrom_written hspreads hvisits
      · rw [List.flatMap_append, after_writesSince, after_append, ← hledger]
        exact (ih hrest).imp_right .inr

end Setting
end ReasonGraph
