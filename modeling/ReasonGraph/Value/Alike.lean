import ReasonGraph.Decimal.Binary
import ReasonGraph.Value.Basic

/-! When loose values count as the same, and additions that look for one first. Numbers are
compared exactly, so an integer and the float nearest to it may differ. Main statement: on
texts, to be alike is to be equal. -/

namespace ReasonGraph.Value

def integer? : Value → Option Int
  | bool b => some (if b then 1 else 0)
  | int n => some n
  | float x => Decimal.integral? x
  | _ => none

mutual

/-- Loose equality: a truth value is a number and a member its name. -/
def alike : Value → Value → Bool
  | list xs, list ys => alikeItems xs ys
  | map xs, map ys => xs.length = ys.length && alikeFields xs ys
  | null, null => true
  | float x, float y => x == y
  | v, w =>
    match v.text?, w.text?, v.integer?, w.integer? with
    | some s, some t, _, _ => s = t
    | _, _, some m, some n => m = n
    | _, _, _, _ => false

def alikeItems : List Value → List Value → Bool
  | [], [] => true
  | v :: vs, w :: ws => alike v w && alikeItems vs ws
  | _, _ => false

def alikeFields : List (String × Value) → List (String × Value) → Bool
  | [], _ => true
  | (k, v) :: vs, ws =>
    match ws.lookup k with
    | some w => alike v w && alikeFields vs ws
    | none => false

end

theorem alike_text (s t : String) : alike (text s) (text t) = decide (s = t) := by
  simp [alike, text?]

def addOnce (items : List Value) (v : Value) : List Value :=
  if items.any (alike v) then items else items ++ [v]

/-- Lists and maps cannot be looked up in anything but a list. -/
def isKey : Value → Bool
  | list _ | map _ => false
  | _ => true

inductive AdditionError where
  | notCollection (v : Value)
  | notText (v : Value)
  | notAKey (v : Value)

def occurs (part : List Char) : List Char → Bool
  | [] => part.isEmpty
  | c :: rest => part.isPrefixOf (c :: rest) || occurs part rest

/-- The parts of a value, and another one among them. A text has its letters for parts, but
any stretch of it is found there; a map has its keys. -/
def addedOnce (whole v : Value) : Except AdditionError (List Value) :=
  match whole with
  | list items => .ok (addOnce items v)
  | map fields =>
    if v.isKey then .ok (addOnce (fields.map fun f => text f.1) v) else .error (.notAKey v)
  | _ =>
    match whole.text?, v.text? with
    | some s, some t =>
      let letters := s.toList.map fun c => text c.toString
      .ok (if occurs t.toList s.toList then letters else letters ++ [v])
    | some _, none => .error (.notText v)
    | none, _ => .error (.notCollection whole)

end ReasonGraph.Value
