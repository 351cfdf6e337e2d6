import ReasonGraph.Engine.Guard
import ReasonGraph.Engine.Options

/-! Options that nobody checked. One that is no number does no harm until a call needs the
number: the passes before the first pass, the floor whenever a rule is asked, the decay
whenever that rule takes a confidence across an edge. Usable options halt nothing. -/

namespace ReasonGraph

inductive Halt where
  | passes (v : Value)
  | floor (v : Value)
  | decay (v : Value)
  | decayOversized

namespace Options

def passesHalt? (o : Options) : Option Halt :=
  match o.maxIterations.number? with
  | none => some (.passes o.maxIterations)
  | some _ => none

def floorHalt? (o : Options) : Option Halt :=
  match o.floor.number? with
  | none => some (.floor o.floor)
  | some _ => none

/-- An integer beyond all floats is a number, but none to multiply by. -/
def decayHalt? (o : Options) : Option Halt :=
  match o.decay, o.decay.number? with
  | .int _, some x => if x.isInf then some .decayOversized else none
  | _, some _ => none
  | v, none => some (.decay v)

def watch (o : Options) : Watch Float Halt := fun e r =>
  match o.floorHalt? with
  | some h => some h
  | none =>
    if e.source.confidence < e.config.floor || !r.weighs e then none else o.decayHalt?

def guard (o : Options) : Guard Float Halt where
  passes := match o.passesHalt? with
    | some h => .error h
    | none => .ok o.config.passes
  watch := o.watch

structure IsUsable (o : Options) : Prop where
  passes : o.passesHalt? = none
  floor : o.floorHalt? = none
  decay : o.decayHalt? = none

theorem guard_of_isUsable {o : Options} (h : o.IsUsable) :
    o.guard = .open o.config.passes := by
  have hwatch : o.watch = fun _ _ => none := by
    funext e r
    simp [watch, h.floor, h.decay]
  simp only [guard, Guard.open, h.passes, hwatch]

theorem isUsable_standard : Options.standard.IsUsable := ⟨rfl, rfl, rfl⟩

end Options
end ReasonGraph
