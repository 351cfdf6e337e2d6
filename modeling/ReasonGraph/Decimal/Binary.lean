/-! The exact value of a binary float: a sign and, if the float is finite, a natural
mantissa times a power of two. Decimal output starts from this value, never from digits
already rounded. -/

namespace ReasonGraph.Decimal

def twoTo (n : Nat) : Nat := Nat.pow 2 n

def tenTo (n : Nat) : Nat := Nat.pow 10 n

inductive Magnitude where
  | nan
  | infinite
  | finite (mantissa : Nat) (exponent : Int)
deriving DecidableEq

structure Binary where
  negative : Bool
  magnitude : Magnitude
deriving DecidableEq

/-- Reads the 1 sign bit, 11 exponent bits and 52 fraction bits. The lowest exponent has no
hidden leading bit, the highest holds infinity and what is no number. -/
def Binary.ofBits (bits : Nat) : Binary :=
  let fraction : Nat := bits % twoTo 52
  let exponent : Nat := bits / twoTo 52 % twoTo 11
  { negative := bits / twoTo 63 % 2 = 1
    magnitude :=
      if exponent = 2047 then if fraction = 0 then .infinite else .nan
      else if exponent = 0 then .finite fraction (-1074)
      else .finite (fraction + twoTo 52) ((exponent : Int) - 1075) }

def Binary.ofFloat (x : Float) : Binary := .ofBits x.toBits.toNat

structure Ratio where
  num : Nat
  den : Nat
deriving DecidableEq

def Ratio.ofBinary (mantissa : Nat) (exponent : Int) : Ratio :=
  ⟨mantissa * twoTo exponent.toNat, twoTo (-exponent).toNat⟩

def Ratio.scale (r : Ratio) (places : Int) : Ratio :=
  ⟨r.num * tenTo places.toNat, r.den * tenTo (-places).toNat⟩

def integral? (x : Float) : Option Int :=
  let b := Binary.ofFloat x
  match b.magnitude with
  | .finite mantissa exponent =>
    let r := Ratio.ofBinary mantissa exponent
    if r.num % r.den = 0 then
      some (if b.negative then -((r.num / r.den : Nat) : Int) else (r.num / r.den : Nat))
    else none
  | _ => none

/-- The nearest natural number, a half to the even neighbour. -/
def Ratio.round (r : Ratio) : Nat :=
  let below := r.num / r.den
  let rest := 2 * (r.num % r.den)
  if rest < r.den ∨ (rest = r.den ∧ below % 2 = 0) then below else below + 1

def digits (n : Nat) : List Char := if n = 0 then [] else Nat.toDigits 10 n

end ReasonGraph.Decimal
