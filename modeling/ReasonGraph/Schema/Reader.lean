import ReasonGraph.Schema.Checked
import ReasonGraph.Value.Basic
import ReasonGraph.Decimal.Reading

/-! Readers of single values and of the fields of a record. They are lenient where nothing
is lost: a number may be written as text, a truth value as a number or a word. -/

namespace ReasonGraph.Schema

abbrev Reader (β : Type) := Value → Checked β

namespace Reader
variable {β : Type}

def text : Reader String := fun v =>
  match v.text? with
  | some s => .good s
  | none => .fault .notText

def nonemptyText : Reader String := fun v =>
  (text v).bind fun s => if s = "" then .fault .emptyText else .good s

def oneOf (names : List String) (ofName? : String → Option β) : Reader β := fun v =>
  match v.text?.bind ofName? with
  | some b => .good b
  | none => .fault (.notListed names)

/-- An integer too large for a float is no number. -/
def number : Reader Float
  | .text s => match Decimal.readFloat? s with
    | some x => .good x
    | none => .fault .unreadableNumber
  | .member _ => .fault .unreadableNumber
  | v => match v.number? with
    | some x => match v with
      | .int _ => if x.isInf then .fault .notNumber else .good x
      | _ => .good x
    | none => .fault .notNumber

def atMost (bound : Nat) (x : Float) : Checked Float :=
  if x ≤ Float.ofNat bound then .good x else .fault (.above bound)

def atLeast (bound : Nat) (x : Float) : Checked Float :=
  if Float.ofNat bound ≤ x then .good x else .fault (.below bound)

def moreThan (bound : Nat) (x : Float) : Checked Float :=
  if Float.ofNat bound < x then .good x else .fault (.notAbove bound)

/-- The upper bound is looked at first, and an unordered number fails it. -/
def percentage : Reader Float := fun v => ((number v).bind (atMost 100)).bind (atLeast 0)

/-- The numbers of a signed word of 64 bits, and of its floats those strictly between the
ends. -/
def wordBound : Int := Int.ofNat (Decimal.twoTo 63)

def isWord (n : Int) : Bool := -wordBound ≤ n && n < wordBound

def isInnerWord (n : Int) : Bool := -wordBound < n && n < wordBound

/-- A float stands for an integer only within a word; an integer has no bound. -/
def integer : Reader Int
  | .bool b => .good (if b then 1 else 0)
  | .int n => .good n
  | .float x =>
    if x.isFinite then
      match Decimal.integral? x with
      | some n => if isInnerWord n then .good n else .fault .oversized
      | none => .fault .fractional
    else .fault .notFinite
  | .text s => match Decimal.readInt s with
    | .ok n => .good n
    | .error .tooLong => .fault .oversized
    | .error .notInteger => .fault .unreadableInteger
  | .member _ => .fault .unreadableInteger
  | _ => .fault .notInteger

def integerFrom (least : Nat) : Reader Nat := fun v =>
  (integer v).bind fun n => if (least : Int) ≤ n then .good n.toNat else .fault (.below least)

def yesWords : List String := ["1", "t", "y", "on", "yes", "true"]

def noWords : List String := ["0", "f", "n", "no", "off", "false"]

def truthOfInt (n : Int) : Checked Bool :=
  if n = 0 then .good false
  else if n = 1 then .good true
  else .fault .unreadableTruthValue

/-- A number beyond a word is not even a candidate. -/
def truth : Reader Bool
  | .bool b => .good b
  | .int n => if isWord n then truthOfInt n else .fault .notTruthValue
  | .float x => match Decimal.integral? x with
    | some n => if isInnerWord n then truthOfInt n else .fault .notTruthValue
    | none => .fault .notTruthValue
  | v => match v.text? with
    | some s =>
      if yesWords.contains s.toLower then .good true
      else if noWords.contains s.toLower then .good false
      else .fault .unreadableTruthValue
    | none => .fault .notTruthValue

def nullable (read : Reader β) : Reader (Option β)
  | .null => .good none
  | v => (read v).map some

def items (read : Reader β) : Nat → List Value → Checked (List β)
  | _, [] => .good []
  | i, v :: rest => List.cons <$> (read v).under (.item i) <*> items read (i + 1) rest

def listOf (read : Reader β) : Reader (List β)
  | .list vs => items read 0 vs
  | _ => .fault .notList

def texts : Reader (List String) := listOf text

def entries (read : Reader β) : List (String × Value) → Checked (List (String × β))
  | [] => .good []
  | (k, v) :: rest =>
    List.cons <$> ((read v).under (.name k)).map (k, ·) <*> entries read rest

def mapOf (read : Reader β) : Reader (List (String × β))
  | .map fields => entries read fields
  | _ => .fault .notMap

end Reader

abbrev Fields := List (String × Value)

namespace Fields
variable {β : Type}

def required (fs : Fields) (name : String) (read : Reader β) : Checked β :=
  match fs.lookup name with
  | none => .bad [⟨[.name name], .missing⟩]
  | some v => (read v).under (.name name)

def optional (fs : Fields) (name : String) (default : β) (read : Reader β) : Checked β :=
  match fs.lookup name with
  | none => .good default
  | some v => (read v).under (.name name)

def only (fs : Fields) (names : List String) : Checked Unit :=
  match fs.filter fun f => !names.contains f.1 with
  | [] => .good ()
  | extra => .bad (extra.map fun f => ⟨[.name f.1], .extra⟩)

end Fields

def Reader.fieldsOf {β : Type} (record : String) (read : Fields → Checked β) : Reader β
  | .map fs => read fs
  | _ => .fault (.notRecord record)

end ReasonGraph.Schema
