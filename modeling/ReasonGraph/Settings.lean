import ReasonGraph.Engine.Options
import ReasonGraph.Schema.Reader
import ReasonGraph.OrderedMap
import ReasonGraph.Decimal.Fixed

/-! Settings of a whole process, from environment variables and from values that win over
them. Every setting is checked against its range, so the options made from settings always
pass the engine's own check. -/

namespace ReasonGraph
open Schema

structure Settings where
  maxIterations : Int
  decay : Float
  floor : Float
  detectsConflicts : Bool
  detectsCycles : Bool
  checksKinds : Bool
  logLevel : String
  logFormat : String

namespace Settings

def names : List String :=
  ["propagation_max_iterations", "propagation_confidence_decay", "propagation_min_confidence",
    "propagation_enable_conflict_detection", "propagation_enable_cycle_detection",
    "propagation_enforce_node_type_states", "log_level", "log_format"]

def iterations : Reader Int := fun v =>
  (Reader.integer v).bind fun n => if 1 ≤ n then .good n else .fault (.below 1)

def decayRange : Reader Float := fun v =>
  ((Reader.number v).bind (Reader.atMost 1)).bind (Reader.moreThan 0)

def logFormats : List String := ["json", "text"]

def format : Reader String
  | .text s => if logFormats.contains s then .good s else .fault (.notLiteral logFormats)
  | _ => .fault (.notLiteral logFormats)

def read (fs : Fields) : Checked Settings :=
  Settings.mk <$> fs.optional "propagation_max_iterations" 100 iterations
    <*> fs.optional "propagation_confidence_decay" 1.0 decayRange
    <*> fs.optional "propagation_min_confidence" 0.0 Reader.percentage
    <*> fs.optional "propagation_enable_conflict_detection" true Reader.truth
    <*> fs.optional "propagation_enable_cycle_detection" true Reader.truth
    <*> fs.optional "propagation_enforce_node_type_states" true Reader.truth
    <*> fs.optional "log_level" "INFO" Reader.text
    <*> fs.optional "log_format" "json" format
    <* fs.only names

/-- The settings among environment variables: those named, in any case, by the given start
and a setting. Of two such variables the later counts. -/
def ofEnvironment (start : String) (environment : List (String × String)) : Fields :=
  let lowered := environment.map fun e => (e.1.toLower, e.2)
  names.filterMap fun name =>
    (lowered.reverse.lookup (start.toLower ++ name)).map fun s => (name, .text s)

/-- Values for settings, named in any case; of two for one setting the first counts. What
names no setting stays as it is. -/
def renamed (values : Fields) : Fields :=
  (names.filterMap fun name =>
      (values.find? fun e => e.1.toLower = name).map fun e => (name, e.2)) ++
    values.filter fun e => !names.contains e.1.toLower

def gather (start : String) (environment : List (String × String)) (values : Fields) :
    Checked Settings :=
  read (OrderedMap.ofList (ofEnvironment start environment ++ renamed values)).entries

def options (s : Settings) : Options where
  maxIterations := .int s.maxIterations
  decay := .float s.decay
  floor := .float s.floor
  detectsConflicts := .bool s.detectsConflicts
  detectsCycles := .bool s.detectsCycles
  checksKinds := .bool s.checksKinds

/-- A floor that even a fully confident source falls below after two edges. -/
def floorUnreachable (s : Settings) : Bool := 100.0 * s.decay.pow 2.0 < s.floor

def warning? (s : Settings) : Option String :=
  if s.floorUnreachable then
    some ("propagation_min_confidence=" ++ Decimal.fixed 1 s.floor ++
      " is above what a fully confident source can reach after two hops with decay=" ++
      Decimal.fixed 2 s.decay ++ "; propagation will stop after one hop")
  else none

end Settings
end ReasonGraph
