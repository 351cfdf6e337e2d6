import ReasonGraph.OrderedMap
import ReasonGraph.Value.Basic

/-! The journal: which lines are written, in which form, and what every line carries. A line
is a record of named values; a few lines are plain text. Lines below the threshold are not
written. -/

namespace ReasonGraph

inductive Severity where
  | debug
  | info
  | warning
  | error
  | critical
deriving DecidableEq

namespace Severity

def all : List Severity := [debug, info, warning, error, critical]

def name : Severity → String
  | debug => "debug"
  | info => "info"
  | warning => "warning"
  | error => "error"
  | critical => "critical"

def ofName? : String → Option Severity
  | "warn" => some warning
  | "fatal" => some critical
  | s => all.find? (·.name = s)

def level : Severity → Nat
  | debug => 10
  | info => 20
  | warning => 30
  | error => 40
  | critical => 50

end Severity

structure Tone where
  severity : Severity
  tellsException : Bool

def Tone.ofName? : String → Option Tone
  | "exception" => some ⟨.error, true⟩
  | s => (Severity.ofName? s).map fun severity => ⟨severity, false⟩

inductive Line where
  | record (fields : OrderedMap Value)
  | plain (text : String)

inductive Form where
  | json
  | text
deriving DecidableEq

inductive Output where
  | lines (ls : List Line)
  | count (n : Nat)

inductive LineError where
  /-- A value was given under a name that the call uses for a part of its own. -/
  | takenName (name : String)
  | notText (v : Value)
  /-- A value stands where only the record of another logger may. -/
  | nameless (v : Value)

structure Journal where
  threshold : Nat
  form : Form
  context : OrderedMap Value

namespace Journal

structure Defaults where
  level : String
  format : String

def Defaults.standard : Defaults := ⟨"INFO", "json"⟩

def capital (c : Char) : Char :=
  if c.toNat = 0x131 then 'I' else if c.toNat = 0x17F then 'S' else c.toUpper

def levelNumber (name : String) : Nat :=
  match String.ofList (name.toList.map capital) with
  | "CRITICAL" | "FATAL" => 50
  | "ERROR" => 40
  | "WARNING" | "WARN" => 30
  | "DEBUG" => 10
  | "NOTSET" => 0
  | _ => 20

def formNamed (name : String) : Form := if name.toLower = "text" then .text else .json

def standard : Journal := ⟨20, .json, ∅⟩

inductive SetupError where
  | levelNotText (v : Value)
  | formatNotText (v : Value)

def chosen (given : Value) (otherwise : String) : Option String :=
  if given.isTruthy then given.text? else some otherwise

def configure (j : Journal) (standard : Defaults) (level format : Value) :
    Journal × Option SetupError :=
  match chosen level standard.level with
  | none => (j, some (.levelNotText level))
  | some level =>
    let j := { j with threshold := levelNumber level }
    match chosen format standard.format with
    | none => (j, some (.formatNotText format))
    | some format => ({ j with form := formNamed format }, none)

def bind (j : Journal) (values : List (String × Value)) : Journal :=
  { j with context := values.foldl (fun m e => m.insert e.1 e.2) j.context }

def unbind (j : Journal) (keys : List String) : Journal :=
  { j with context := keys.foldl OrderedMap.erase j.context }

def unbindAll (j : Journal) : Journal := { j with context := ∅ }

def passes (j : Journal) (s : Severity) : Bool := j.threshold ≤ s.level

def loggerName (name : String) : String := if name = "" then "root" else name

/-- The names under which a call takes parts of its own, those of a group before those of
the next. -/
def ownNames : List (List String) := [["self", "event"], ["method_name"]]

def clash? (values : List (String × Value)) : Option String :=
  (ownNames.findSome? fun names => values.find? fun e => names.contains e.1).map (·.1)

/-- What the caller gives. A line that tells of an exception asks for it, unless the caller
says whether to. -/
def given (t : Tone) (values : List (String × Value)) : List (String × Value) :=
  if t.tellsException && !values.any (·.1 = "exc_info") then
    ("exc_info", .bool true) :: values
  else values

/-- A line carries the context, the caller's values over it, and above all its own event, if
it has one, its level and its logger. -/
def carried (j : Journal) (logger : String) (t : Tone) (event : Value)
    (values : List (String × Value)) : OrderedMap Value :=
  let all := (j.bind (given t values)).context
  let told := match event with
    | .null => all
    | v => all.insert "event" v
  (told.insert "level" (.text t.severity.name)).insert "logger" (.text (loggerName logger))

/-- Under one name a line may carry the record of another logger, and is then told under
that logger's name. A loose value has no such name. -/
def fault? (fields : OrderedMap Value) : Option LineError :=
  match fields.get? "_record" with
  | none | some .null => none
  | some v => some (.nameless v)

def times : List String := ["timestamp", "execution_ms"]

def notKept : List String := times ++ ["stack_info", "exc_info"]

def record (j : Journal) (logger : String) (t : Tone) (event : Value)
    (values : List (String × Value)) : OrderedMap Value :=
  notKept.foldl OrderedMap.erase (j.carried logger t event values)

def noException : String := "NoneType: None"

def write (j : Journal) (logger : String) (t : Tone) (event : Value)
    (values : List (String × Value)) : List Line :=
  if j.passes t.severity then
    .record (j.record logger t event values) ::
      if t.tellsException then [.plain noException] else []
  else []

def writePlain (j : Journal) (s : Severity) (text : String) : List Line :=
  if j.passes s then (text.splitOn "\n").map .plain else []

end Journal
end ReasonGraph
