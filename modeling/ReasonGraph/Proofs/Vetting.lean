import ReasonGraph.Settings
import ReasonGraph.Engine.Unchecked

/-! Two checks of the same three numbers. Settings read whatever they are given and hold it against
declared bounds; options are compared with their limits when an engine is made from them. Main
statement: of what can be read at all both accept the same, what is not ordered included, so options
made from settings are accepted, and they have the values of the settings. -/

namespace ReasonGraph

namespace Schema

namespace Checked
variable {β γ : Type}

theorem map_eq_good {f : β → γ} {c : Checked β} {x : γ} :
    f <$> c = good x ↔ ∃ b, c = good b ∧ f b = x := by
  cases c <;> simp [Functor.map, map]

theorem seq_eq_good {f : Checked (β → γ)} {c : Checked β} {x : γ} :
    f <*> c = good x ↔ ∃ g b, f = good g ∧ c = good b ∧ g b = x := by
  cases f <;> cases c <;> simp [Seq.seq, seq]

theorem seqLeft_eq_good {c : Checked β} {d : Checked γ} {x : β} :
    c <* d = good x ↔ c = good x ∧ ∃ y, d = good y := by
  cases c <;> cases d <;> simp [SeqLeft.seqLeft, seq, map]

theorem bind_eq_good {c : Checked β} {f : β → Checked γ} {x : γ} :
    c.bind f = good x ↔ ∃ b, c = good b ∧ f b = good x := by
  cases c <;> simp [bind]

theorem under_eq_good {k : Key} {c : Checked β} {x : β} : c.under k = good x ↔ c = good x := by
  cases c <;> simp [under]

theorem ite_eq_good {p : Prop} [Decidable p] {b x : β} {f : Fault} :
    (if p then good b else fault f) = good x ↔ p ∧ b = x := by
  split <;> simp [*, fault]

end Checked

theorem Fields.optional_eq_good {β : Type} {fs : Fields} {name : String} {default b : β}
    {read : Reader β} (h : fs.optional name default read = .good b) :
    b = default ∨ ∃ v, fs.lookup name = some v ∧ read v = .good b := by
  unfold Fields.optional at h
  split at h
  · cases h
    exact .inl rfl
  · rename_i v hv
    exact .inr ⟨v, hv, Checked.under_eq_good.1 h⟩

theorem Reader.percentage_eq_good {v : Value} {x : Float} :
    Reader.percentage v = .good x ↔
      Reader.number v = .good x ∧ x ≤ Float.ofNat 100 ∧ Float.ofNat 0 ≤ x := by
  simp only [percentage, atMost, atLeast, Checked.bind_eq_good, Checked.ite_eq_good,
    exists_eq_right_right]
  exact and_assoc

end Schema

open Schema

namespace Options

theorem check_eq_ok_iff {o : Options} : o.check = .ok () ↔
    checkIterations o.maxIterations = .ok () ∧ checkDecay o.decay = .ok () ∧
      checkFloor o.floor = .ok () := by
  unfold check
  cases checkIterations o.maxIterations <;> cases checkDecay o.decay <;>
    simp [bind, Except.bind]

theorem check_standard : standard.check = .ok () := rfl

theorem ofFields_fields (o : Options) : ofFields o.fields = o.check.map fun _ => o := by
  have hset : standard.setAll o.fields = .ok o := rfl
  unfold ofFields
  rw [hset]
  cases h : o.check <;> simp [bind, Except.bind, pure, Except.pure, Except.map, h]

theorem checkIterations_int {n : Int} : checkIterations (.int n) = .ok () ↔ 1 ≤ n := by
  change (if 0 < n then Except.ok () else Except.error (OptionError.notPositive (.int n))) = _ ↔ _
  split <;> simp <;> omega

theorem checkDecay_float {x : Float} :
    checkDecay (.float x) = .ok () ↔ 0.0 < x ∧ x ≤ 1.0 := by
  simp only [checkDecay, Value.number?]
  split <;> simp [*]

theorem checkFloor_float {x : Float} :
    checkFloor (.float x) = .ok () ↔ 0.0 ≤ x ∧ x ≤ 100.0 := by
  simp only [checkFloor, Value.number?]
  split <;> simp [*]

end Options

namespace Settings

theorem iterations_eq_good {v : Value} {n : Int} :
    iterations v = .good n ↔ Reader.integer v = .good n ∧ 1 ≤ n := by
  simp only [iterations, Checked.bind_eq_good, Checked.ite_eq_good, exists_eq_right_right]

theorem decayRange_eq_good {v : Value} {x : Float} :
    decayRange v = .good x ↔
      Reader.number v = .good x ∧ x ≤ Float.ofNat 1 ∧ Float.ofNat 0 < x := by
  simp only [decayRange, Reader.atMost, Reader.moreThan, Checked.bind_eq_good, Checked.ite_eq_good,
    exists_eq_right_right]
  exact and_assoc

theorem iterations_agrees {v : Value} {n : Int} (h : Reader.integer v = .good n) :
    iterations v = .good n ↔ Options.checkIterations (.int n) = .ok () := by
  rw [iterations_eq_good, Options.checkIterations_int, and_iff_right h]

theorem decayRange_agrees {v : Value} {x : Float} (h : Reader.number v = .good x) :
    decayRange v = .good x ↔ Options.checkDecay (.float x) = .ok () := by
  rw [decayRange_eq_good, Options.checkDecay_float, and_iff_right h, and_comm]
  rfl

theorem percentage_agrees {v : Value} {x : Float} (h : Reader.number v = .good x) :
    Reader.percentage v = .good x ↔ Options.checkFloor (.float x) = .ok () := by
  rw [Reader.percentage_eq_good, Options.checkFloor_float, and_iff_right h, and_comm]
  rfl

theorem check_of_read {fs : Fields} {s : Settings} (h : read fs = .good s) :
    s.options.check = .ok () := by
  -- the parts are taken off from the last one on
  obtain ⟨h₈, -⟩ := Checked.seqLeft_eq_good.1 h
  obtain ⟨_, format, h₇, -, rfl⟩ := Checked.seq_eq_good.1 h₈
  obtain ⟨_, level, h₆, -, rfl⟩ := Checked.seq_eq_good.1 h₇
  obtain ⟨_, checksKinds, h₅, -, rfl⟩ := Checked.seq_eq_good.1 h₆
  obtain ⟨_, detectsCycles, h₄, -, rfl⟩ := Checked.seq_eq_good.1 h₅
  obtain ⟨_, detectsConflicts, h₃, -, rfl⟩ := Checked.seq_eq_good.1 h₄
  obtain ⟨_, floor, h₂, hfloor, rfl⟩ := Checked.seq_eq_good.1 h₃
  obtain ⟨_, decay, h₁, hdecay, rfl⟩ := Checked.seq_eq_good.1 h₂
  obtain ⟨passes, hpasses, rfl⟩ := Checked.map_eq_good.1 h₁
  refine Options.check_eq_ok_iff.2 ⟨?_, ?_, ?_⟩
  · rcases Fields.optional_eq_good hpasses with rfl | ⟨v, -, hread⟩
    · rfl
    · exact (iterations_agrees (iterations_eq_good.1 hread).1).1 hread
  · rcases Fields.optional_eq_good hdecay with rfl | ⟨v, -, hread⟩
    · exact (Options.check_eq_ok_iff.1 Options.check_standard).2.1
    · exact (decayRange_agrees (decayRange_eq_good.1 hread).1).1 hread
  · rcases Fields.optional_eq_good hfloor with rfl | ⟨v, -, hread⟩
    · exact (Options.check_eq_ok_iff.1 Options.check_standard).2.2
    · exact (percentage_agrees (Reader.percentage_eq_good.1 hread).1).1 hread

/-- Accepted settings make a valid engine, wherever their values come from. The options made of them,
field by field, are accepted, have these values and no others, and halt no call; in force are as many
passes as were set, and the decay, the floor and the switches as they were. Either check could do the
work of the other: of what is read as an integer or as a number, whether it is ordered or not, both
accept the same. -/
theorem settings_make_options {start : String} {environment : List (String × String)}
    {values : Fields} {s : Settings} (h : gather start environment values = .good s) :
    Options.ofFields s.options.fields = .ok s.options ∧
    s.options.fields = [("max_iterations", .int s.maxIterations), ("confidence_decay", .float s.decay),
      ("min_confidence", .float s.floor), ("enable_conflict_detection", .bool s.detectsConflicts),
      ("enable_cycle_detection", .bool s.detectsCycles),
      ("enforce_node_type_states", .bool s.checksKinds)] ∧
    s.options.IsUsable ∧ (s.options.config.passes : Int) = s.maxIterations ∧
    s.options.config = ⟨s.options.config.passes, s.decay, s.floor, s.detectsConflicts,
      s.detectsCycles, s.checksKinds⟩ ∧
    (∀ v n, Reader.integer v = .good n →
      (iterations v = .good n ↔ Options.checkIterations (.int n) = .ok ())) ∧
    ∀ v x, Reader.number v = .good x →
      (decayRange v = .good x ↔ Options.checkDecay (.float x) = .ok ()) ∧
      (Reader.percentage v = .good x ↔ Options.checkFloor (.float x) = .ok ()) := by
  have hcheck : s.options.check = .ok () := check_of_read h
  obtain ⟨hpasses, -, -⟩ := Options.check_eq_ok_iff.1 hcheck
  have hpositive : 1 ≤ s.maxIterations := Options.checkIterations_int.1 hpasses
  refine ⟨?_, rfl, ⟨rfl, rfl, rfl⟩, ?_, rfl, fun v n => iterations_agrees,
    fun v x hx => ⟨decayRange_agrees hx, percentage_agrees hx⟩⟩
  · rw [Options.ofFields_fields, hcheck]
    rfl
  · exact Int.toNat_of_nonneg (by omega)

theorem settings_make_options_mixed :
    let environment := [("Solvechain_Propagation_Max_Iterations", " 250.0"),
      ("SOLVECHAIN_PROPAGATION_CONFIDENCE_DECAY", "nan")]
    let values : Fields :=
      [("Propagation_Confidence_Decay", .text "5e-1"), ("propagation_min_confidence", .bool true)]
    ∃ s, gather "SOLVECHAIN_" environment values = .good s ∧
      Options.ofFields s.options.fields = .ok s.options ∧ s.options.config.passes = 250 ∧
      s.options.config.decay = 0.5 ∧ s.options.config.floor = 1.0 := by
  intro environment values
  have hstart : "SOLVECHAIN_".toLower = "solvechain_" := by decide +kernel
  have hpasses : "Solvechain_Propagation_Max_Iterations".toLower =
      "solvechain_propagation_max_iterations" := by decide +kernel
  have hdecay : "SOLVECHAIN_PROPAGATION_CONFIDENCE_DECAY".toLower =
      "solvechain_propagation_confidence_decay" := by decide +kernel
  have hdecay' : "Propagation_Confidence_Decay".toLower = "propagation_confidence_decay" := by
    decide +kernel
  have hfloor : "propagation_min_confidence".toLower = "propagation_min_confidence" := by
    decide +kernel
  have henvironment : ofEnvironment "SOLVECHAIN_" environment =
      [("propagation_max_iterations", .text " 250.0"),
        ("propagation_confidence_decay", .text "nan")] := by
    simp only [environment, ofEnvironment, names, hstart, hpasses, hdecay, List.map_cons,
      List.map_nil, List.reverse_cons, List.reverse_nil, List.nil_append, List.cons_append,
      List.filterMap_cons, List.filterMap_nil, List.lookup_cons, List.lookup_nil,
      String.reduceAppend, String.reduceBEq, Option.map_some, Option.map_none]
  have hvalues : renamed values = [("propagation_confidence_decay", .text "5e-1"),
      ("propagation_min_confidence", .bool true)] := by
    simp only [values, renamed, names, hdecay', hfloor, List.filterMap_cons, List.filterMap_nil,
      List.find?_cons, List.find?_nil, String.reduceEq, decide_false, decide_true, Option.map_some,
      Option.map_none, List.filter_cons, List.contains_cons, String.reduceBEq]
    simp
  let fs := (OrderedMap.ofList ([("propagation_max_iterations", Value.text " 250.0"),
    ("propagation_confidence_decay", .text "nan")] ++
    [("propagation_confidence_decay", .text "5e-1"),
      ("propagation_min_confidence", .bool true)])).entries
  have hgather : gather "SOLVECHAIN_" environment values = read fs := by
    rw [gather, henvironment, hvalues]
  have hread : (read fs).toExcept.toOption.map (fun s => (s.maxIterations, s.decay, s.floor)) =
      some (250, 0.5, 1.0) := by decide +kernel
  cases h : read fs with
  | bad issues =>
    rw [h] at hread
    cases hread
  | good s =>
    rw [h] at hread
    simp only [Checked.toExcept, Except.toOption, Option.map_some, Option.some.injEq,
      Prod.mk.injEq] at hread
    obtain ⟨hmost, hhalf, hone⟩ := hread
    obtain ⟨hmade, -, -, hcount, -⟩ := settings_make_options (hgather.trans h)
    rw [hmost] at hcount
    exact ⟨s, hgather.trans h, hmade, by omega, hhalf, hone⟩

end Settings
end ReasonGraph
