import ReasonGraph.Schema.Issue

/-! The outcome of checking loose data: a value, or every issue found. Parts are checked
side by side, so one bad part does not hide the issues of another. -/

namespace ReasonGraph.Schema

inductive Checked (β : Type) where
  | good (b : β)
  | bad (issues : List Issue)

namespace Checked
variable {β γ : Type}

def map (f : β → γ) : Checked β → Checked γ
  | good b => good (f b)
  | bad issues => bad issues

def seq : Checked (β → γ) → Checked β → Checked γ
  | good f, good b => good (f b)
  | good _, bad issues => bad issues
  | bad issues, good _ => bad issues
  | bad first, bad second => bad (first ++ second)

instance : Applicative Checked where
  pure := good
  map := map
  seq := fun f b => seq f (b ())

def issues : Checked β → List Issue
  | good _ => []
  | bad issues => issues

def fault (f : Fault) : Checked β := bad [⟨[], f⟩]

def under (k : Key) : Checked β → Checked β
  | good b => good b
  | bad issues => bad (issues.map (Issue.under k))

def bind (c : Checked β) (f : β → Checked γ) : Checked γ :=
  match c with
  | good b => f b
  | bad issues => bad issues

def toExcept : Checked β → Except (List Issue) β
  | good b => .ok b
  | bad issues => .error issues

end Checked
end ReasonGraph.Schema
