import ReasonGraph.Rule.Builtin
import ReasonGraph.Value.Written

/-! The rules in force, one for each relation tag. A tag is compared by its plain text, so a
member of a vocabulary and its name are the same tag. A new rule takes the place of the one
it replaces. -/

namespace ReasonGraph

inductive Candidate (α : Type) where
  | rule (r : Rule α)
  | other (v : Value)

inductive RegistrationError where
  | notARule (v : Value)
  | noRelation (family : String)

def RegistrationError.message : RegistrationError → String
  | notARule v => "Not a PropagationRule: " ++ v.written
  | noRelation family => family ++ " does not declare a relation_type"

namespace Rule
variable {α : Type}

def key (r : Rule α) : String := r.relation.plain

def shown (r : Rule α) : String := r.family ++ "(relation_type=" ++ r.relation.written ++ ")"

end Rule

structure Registry (α : Type) where
  rules : OrderedMap (Rule α)

namespace Registry
variable {α : Type}

def empty : Registry α := ⟨∅⟩

def get? (reg : Registry α) (tag : String) : Option (Rule α) := reg.rules.get? tag

def has (reg : Registry α) (tag : String) : Bool := (reg.get? tag).isSome

def all (reg : Registry α) : List (Rule α) := reg.rules.values

def size (reg : Registry α) : Nat := reg.rules.size

def insert (reg : Registry α) (r : Rule α) : Registry α := ⟨reg.rules.insert r.key r⟩

theorem get?_insert (reg : Registry α) (r : Rule α) (tag : String) :
    (reg.insert r).get? tag = if r.key = tag then some r else reg.get? tag :=
  OrderedMap.get?_insert reg.rules r.key tag r

def erase (reg : Registry α) (tag : String) : Registry α := ⟨reg.rules.erase tag⟩

theorem get?_erase (reg : Registry α) (k tag : String) :
    (reg.erase k).get? tag = if k = tag then none else reg.get? tag :=
  OrderedMap.get?_erase reg.rules k tag

/-- A candidate is accepted if it is a rule that declares a relation. -/
def accept : Candidate α → Except RegistrationError (Rule α)
  | .other v => .error (.notARule v)
  | .rule r => if r.relation.isTruthy then .ok r else .error (.noRelation r.family)

def register (reg : Registry α) (c : Candidate α) : Except RegistrationError (Registry α) :=
  (accept c).map reg.insert

def replacement? (reg : Registry α) : Candidate α → Option (Rule α × Rule α)
  | .other _ => none
  | .rule r => (reg.get? r.key).map (·, r)

def holds (reg : Registry α) (v : Value) : Bool := v.text?.any reg.has

def builtin [Quantity α] : Registry α :=
  Relation.all.foldl (fun reg r => reg.insert (Rule.builtin r)) empty

end Registry
end ReasonGraph
