import ReasonGraph.Decimal.Binary
import ReasonGraph.Text.Blank

/-! Reading numbers from text. A float may stand between blanks or may have single
underscores inside, but not both, and is rounded to the nearest. An integer may have both,
and also a sign, zeros in front and a point followed by zeros only. -/

namespace ReasonGraph.Decimal
open Text

def digitsValue (ds : List Char) : Nat :=
  ds.foldl (fun n c => 10 * n + (c.toNat - 48)) 0

def lowered (cs : List Char) : List Char := cs.map Char.toLower

/-- The float nearest to mantissa · 10^exponent. Outside the range of floats the power of
ten is not computed. -/
def nearest (mantissa : Nat) (exponent : Int) : Float :=
  let size : Int := (digits mantissa).length + exponent
  if mantissa = 0 ∨ size < -400 then 0.0
  else if 400 < size then 1.0 / 0.0
  else Float.ofScientific mantissa (exponent < 0) exponent.natAbs

def exponent? (cs : List Char) : Option Int :=
  let value (ds : List Char) : Option Nat :=
    if ds.isEmpty || !ds.all Char.isDigit then none else some (digitsValue ds)
  match cs with
  | '-' :: ds => (value ds).map fun n => -(n : Int)
  | '+' :: ds => (value ds).map Int.ofNat
  | ds => (value ds).map Int.ofNat

def unsigned? (cs : List Char) : Option Float :=
  let whole := cs.takeWhile Char.isDigit
  let afterWhole := cs.dropWhile Char.isDigit
  let (part, rest) := match afterWhole with
    | '.' :: more => (more.takeWhile Char.isDigit, more.dropWhile Char.isDigit)
    | more => ([], more)
  if whole.isEmpty && part.isEmpty then none
  else
    let mantissa := digitsValue (whole ++ part)
    match rest with
    | [] => some (nearest mantissa (-(part.length : Int)))
    | mark :: tail =>
      if mark = 'e' || mark = 'E' then
        (exponent? tail).map fun e => nearest mantissa (e - part.length)
      else none

def unsignedOrNamed? (cs : List Char) : Option Float :=
  let name := lowered cs
  if name = ['i', 'n', 'f'] || name = ['i', 'n', 'f', 'i', 'n', 'i', 't', 'y'] then
    some (1.0 / 0.0)
  else if name = ['n', 'a', 'n'] then some (0.0 / 0.0)
  else unsigned? cs

def signed? : List Char → Option Float
  | '-' :: cs => (unsignedOrNamed? cs).map fun x => -x
  | '+' :: cs => unsignedOrNamed? cs
  | cs => unsignedOrNamed? cs

/-- Underscores may separate but neither start nor end a text, nor stand side by side. -/
def ungrouped? (cs : List Char) : Option (List Char) :=
  let rec paired : List Char → Bool
    | '_' :: '_' :: _ => true
    | _ :: rest => paired rest
    | [] => false
  if cs.head? = some '_' || cs.getLast? = some '_' || !cs.contains '_' || paired cs then none
  else some (cs.filter (· ≠ '_'))

def readFloat? (s : String) : Option Float :=
  match signed? (trimBlanks s.toList) with
  | some x => some x
  | none => (ungrouped? s.toList).bind signed?

inductive IntFault where
  | notInteger
  | tooLong
deriving DecidableEq

def maxDigits : Nat := 4300

def readDigits (cs : List Char) : Except IntFault Nat :=
  let ds := cs.takeWhile Char.isDigit
  if ds.isEmpty || (ds.head? = some '0' && ds.length ≠ 1) then .error .notInteger
  else if maxDigits < ds.length then .error .tooLong
  else if ds.length ≠ cs.length then .error .notInteger
  else .ok (digitsValue ds)

def readPlainInt : List Char → Except IntFault Int
  | '-' :: ds => (readDigits ds).map fun n => -(n : Int)
  | ds => (readDigits ds).map Int.ofNat

/-- Drops zeros in front and underscores between and after them, up to a digit or a minus
sign. A zero right before a point or at the end stays. The first argument is the character
just dropped. -/
def dropZeros : Char → List Char → Option (List Char)
  | last, [] => some [last]
  | last, c :: rest =>
    if c = '0' || c = '_' then dropZeros c rest
    else if c = '.' then some (last :: '.' :: rest)
    else if c = '-' || c.isDigit then some (c :: rest)
    else none

def dropPoint (cs : List Char) : List Char :=
  match cs.dropWhile (· ≠ '.') with
  | '.' :: '0' :: rest => if rest.all (· = '0') then cs.takeWhile (· ≠ '.') else cs
  | _ => cs

def significant? : List Char → Option (List Char)
  | '0' :: cs => dropZeros '0' cs
  | c :: cs => if c.isDigit then some (c :: cs) else none
  | [] => none

def cleaned? (cs : List Char) : Option (List Char) :=
  (significant? cs).map fun cs =>
    let cs := dropPoint cs
    (ungrouped? cs).getD cs

def cleanedSigned? : List Char → Option (List Char)
  | '-' :: cs => (cleaned? cs).map ('-' :: ·)
  | '+' :: cs => cleaned? cs
  | cs => cleaned? cs

/-- Only a text that starts as a plain integer can be too long; what had to be cleaned is
then no integer. -/
def readInt (s : String) : Except IntFault Int :=
  match readPlainInt s.toList with
  | .error .notInteger =>
    ((cleanedSigned? (trimBlanks s.toList)).bind fun cs => (readPlainInt cs).toOption).elim
      (.error .notInteger) .ok
  | outcome => outcome

end ReasonGraph.Decimal
