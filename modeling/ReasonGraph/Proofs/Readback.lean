import ReasonGraph.Proofs.Bounds
import ReasonGraph.Schema.Record

/-! States as loose data. A table that is written out and read again fixes of every node what the
states themselves would fix, so long as confidences are in range. -/

namespace ReasonGraph

namespace Schema

theorem logic_name (s : LogicState) : logic (.text s.name) = .good s := by
  have hname : (Value.text s.name).text?.bind LogicState.ofName? = some s :=
    LogicState.ofName?_name s
  rw [logic, Reader.oneOf, hname]

theorem percentage_float {x : Float} (hx : Quantity.InRange x) :
    Reader.percentage (.float x) = .good x := by
  have hlow : Float.ofNat 0 ≤ x := hx.1
  have hhigh : x ≤ Float.ofNat 100 := hx.2
  have hnumber : Reader.number (.float x) = .good x := rfl
  rw [Reader.percentage, hnumber, Checked.bind, Reader.atMost, if_pos hhigh, Checked.bind,
    Reader.atLeast, if_pos hlow]

theorem texts_texts (ids : List String) : Reader.texts (.texts ids) = .good ids := by
  have hitems : ∀ i, Reader.items Reader.text i (ids.map .text) = .good ids := by
    induction ids with
    | nil => exact fun _ => rfl
    | cons id rest ih =>
      intro i
      rw [List.map_cons, Reader.items, ih]
      rfl
  exact hitems 0

theorem Fields.optional_of_lookup {β : Type} {fs : Fields} {name : String} {default b : β}
    {read : Reader β} {v : Value} (hv : fs.lookup name = some v) (hb : read v = .good b) :
    fs.optional name default read = .good b := by
  rw [Fields.optional, hv]
  exact congrArg (Checked.under _) hb

/-- A way to write states out as maps that tell the verdict, by its name or as a member of the
vocabulary, the confidence and the drivers, and whatever else. -/
def Writes (write : NodeState Float → Value) : Prop :=
  ∀ s, ∃ fs, write s = .map fs ∧
    (fs.lookup "logic_state" = some (.text s.logic.name) ∨
      fs.lookup "logic_state" = some (.member (.state s.logic))) ∧
    fs.lookup "confidence" = some (.float s.confidence) ∧
    fs.lookup "derived_from" = some (.texts s.derivedFrom)

theorem writes_dump : Writes dump := fun _ => ⟨_, rfl, .inl rfl, rfl, rfl⟩

theorem override_of_writes {write : NodeState Float → Value} (hwrite : Writes write)
    {s : NodeState Float} (hs : Quantity.InRange s.confidence) :
    override (write s) = .good s.toOverride := by
  obtain ⟨fs, hfs, hverdict, hconfidence, hdrivers⟩ := hwrite s
  have hlogic : Fields.optional fs "logic_state" none (Reader.nullable logic) =
      .good (some s.logic) := by
    rcases hverdict with h | h
    · exact Fields.optional_of_lookup h (congrArg (Checked.map some) (logic_name s.logic))
    · exact Fields.optional_of_lookup h (congrArg (Checked.map some) (logic_name s.logic))
  have hpercentage : Fields.optional fs "confidence" none (Reader.nullable Reader.percentage) =
      .good (some s.confidence) :=
    Fields.optional_of_lookup hconfidence (congrArg (Checked.map some) (percentage_float hs))
  have htexts : Fields.optional fs "derived_from" none (Reader.nullable Reader.texts) =
      .good (some s.derivedFrom) :=
    Fields.optional_of_lookup hdrivers (congrArg (Checked.map some) (texts_texts s.derivedFrom))
  rw [hfs]
  simp only [override]
  rw [hlogic, hpercentage, htexts]
  rfl

theorem overrides_of_writes {write : NodeState Float → Value} (hwrite : Writes write)
    {t : Table Float} (ht : t.InRange) :
    overrides (t.entries.map fun entry => (entry.1, write entry.2)) = t.toOverrides := by
  rw [overrides, Table.toOverrides, List.map_map]
  refine congrArg OrderedMap.ofList (List.map_congr_left fun entry hentry => ?_)
  rw [Function.comp_apply, override_of_writes hwrite (ht _ _ (OrderedMap.get?_of_mem hentry))]
  rfl

end Schema
end ReasonGraph
