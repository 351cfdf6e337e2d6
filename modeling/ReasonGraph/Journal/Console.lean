import ReasonGraph.Journal.Basic

/-! Lines on a console. There a record is a text for people, and all that counts is how many
lines that text takes: one, and one for every line break that is shown as such. -/

namespace ReasonGraph.Journal

def breaks (s : String) : Nat := s.toList.count '\n'

/-- Only a text is shown with its line breaks; in any other value they are escaped. -/
def breaksOf : Value → Nat
  | .text s => breaks s
  | _ => 0

def columns : List String := ["level", "event", "logger", "logger_name"]

/-- On a console these values come last, each on lines of its own. -/
def appendices : List String := ["stack", "exception"]

def notShown : List String := ["timestamp", "stack_info", "exc_info"]

def breaksOfEntry (e : String × Value) : Nat :=
  if appendices.contains e.1 || notShown.contains e.1 then 0
  else if columns.contains e.1 then breaksOf e.2
  else breaks e.1

def appendix : Value → Except LineError String
  | .null => .ok ""
  | .text s => .ok ("\n" ++ s)
  | v => .error (.notText v)

def separator : String := "\n\n=\n"

/-- What follows the columns: a stack, then an exception, and a separator after a stack if an
exception was given or asked for. -/
def tail (fields : OrderedMap Value) : Except LineError String := do
  let value (name : String) : Value := (fields.get? name).getD .null
  let stack ← appendix (value "stack")
  let exception ← appendix (value "exception")
  let isFollowed := (value "exc_info").isTruthy || exception ≠ ""
  return stack ++ (if stack ≠ "" && isFollowed then separator else "") ++ exception

def closing (t : Tone) (tail : String) : Nat :=
  if t.tellsException && tail.toList.getLast? ≠ some '\n' then 1 else 0

def consoleLines (t : Tone) (fields : OrderedMap Value) : Except LineError Nat :=
  (tail fields).map fun tail =>
    (fields.entries.map breaksOfEntry).foldl Nat.add 1 + breaks tail + closing t tail

def say (j : Journal) (logger : String) (t : Tone) (event : Value)
    (values : List (String × Value)) : Except LineError Output :=
  let fields := j.carried logger t event values
  match clash? values, fault? fields with
  | some name, _ => .error (.takenName name)
  | none, some e => .error e
  | none, none =>
    match j.form with
    | .json => .ok (.lines (j.write logger t event values))
    | .text => (consoleLines t fields).map fun n =>
        .count (if j.passes t.severity then n else 0)

end ReasonGraph.Journal
