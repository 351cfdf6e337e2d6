import ReasonGraph.Config
import ReasonGraph.Value.Written

/-! A configuration as the caller wrote it. Values keep the form in which they were given;
only their ranges are checked, and only when the options are made. Later writes to single
options are taken as they are, so a call may meet options that are no numbers. -/

namespace ReasonGraph

structure Options where
  maxIterations : Value
  decay : Value
  floor : Value
  detectsConflicts : Value
  detectsCycles : Value
  checksKinds : Value
deriving Inhabited

inductive Comparison where
  | below
  | atMost
  | atLeast
deriving DecidableEq

def Comparison.symbol : Comparison → String
  | below => "<"
  | atMost => "<="
  | atLeast => ">="

inductive OptionError where
  | notInteger (v : Value)
  | notPositive (v : Value)
  | decayOutOfRange (v : Value)
  | floorOutOfRange (v : Value)
  /-- A number was to be compared with something that is none. -/
  | incomparable (c : Comparison) (v : Value)
  | unknownName (name : String)
  /-- The name stands for the options themselves. -/
  | takenName (name : String)

namespace OptionError

def message : OptionError → String
  | notInteger v => "max_iterations must be an integer, got " ++ v.written
  | notPositive v => "max_iterations must be positive, got " ++ v.written
  | decayOutOfRange v => "confidence_decay must be in (0, 1], got " ++ v.written
  | floorOutOfRange v => "min_confidence must be in [0, 100], got " ++ v.written
  | incomparable c v => "not comparable by " ++ c.symbol ++ ": " ++ v.written
  | unknownName name => "no such option: " ++ name
  | takenName name => "no name for an option: " ++ name

end OptionError

namespace Options

def standard : Options where
  maxIterations := .int 100
  decay := .float 1.0
  floor := .float 0.0
  detectsConflicts := .bool true
  detectsCycles := .bool true
  checksKinds := .bool true

def set (o : Options) (name : String) (v : Value) : Except OptionError Options :=
  match name with
  | "max_iterations" => .ok { o with maxIterations := v }
  | "confidence_decay" => .ok { o with decay := v }
  | "min_confidence" => .ok { o with floor := v }
  | "enable_conflict_detection" => .ok { o with detectsConflicts := v }
  | "enable_cycle_detection" => .ok { o with detectsCycles := v }
  | "enforce_node_type_states" => .ok { o with checksKinds := v }
  | "self" => .error (.takenName name)
  | _ => .error (.unknownName name)

def setAll (o : Options) : List (String × Value) → Except OptionError Options
  | [] => .ok o
  | (name, v) :: rest => (o.set name v).bind fun o => o.setAll rest

def fields (o : Options) : List (String × Value) :=
  [("max_iterations", o.maxIterations), ("confidence_decay", o.decay),
    ("min_confidence", o.floor), ("enable_conflict_detection", o.detectsConflicts),
    ("enable_cycle_detection", o.detectsCycles), ("enforce_node_type_states", o.checksKinds)]

def checkIterations (v : Value) : Except OptionError Unit :=
  match v with
  | .int n => if 0 < n then .ok () else .error (.notPositive v)
  | _ => .error (.notInteger v)

def checkDecay (v : Value) : Except OptionError Unit :=
  match v.number? with
  | none => .error (.incomparable .below v)
  | some x => if 0.0 < x ∧ x ≤ 1.0 then .ok () else .error (.decayOutOfRange v)

def checkFloor (v : Value) : Except OptionError Unit :=
  match v.number? with
  | none => .error (.incomparable .atMost v)
  | some x => if 0.0 ≤ x ∧ x ≤ 100.0 then .ok () else .error (.floorOutOfRange v)

/-- The number of passes, the decay and the floor are checked in this order. -/
def check (o : Options) : Except OptionError Unit := do
  checkIterations o.maxIterations
  checkDecay o.decay
  checkFloor o.floor

def ofFields (fs : List (String × Value)) : Except OptionError Options := do
  let o ← standard.setAll fs
  o.check
  return o

def passes : Value → Nat
  | .int n => n.toNat
  | .bool b => if b then 1 else 0
  | .float x => if 0.0 < x then x.ceil.toUInt64.toNat else 0
  | _ => 0

/-- The configuration in force. Where an unchecked option is no number, 0 stands in for it,
and a call that needs the number halts. -/
def config (o : Options) : Config Float where
  passes := passes o.maxIterations
  decay := o.decay.number?.getD 0.0
  floor := o.floor.number?.getD 0.0
  detectsConflicts := o.detectsConflicts.isTruthy
  detectsCycles := o.detectsCycles.isTruthy
  checksKinds := o.checksKinds.isTruthy

end Options
end ReasonGraph
