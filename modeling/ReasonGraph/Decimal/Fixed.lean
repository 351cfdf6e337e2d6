import ReasonGraph.Decimal.Binary

/-! A float with a fixed number of places after the point. The exact binary value is rounded
once, so only a value that is exactly halfway goes to the even neighbour. -/

namespace ReasonGraph.Decimal

def withPlaces (count places : Nat) : List Char :=
  let ds := digits count
  let padded := List.replicate (places + 1 - ds.length) '0' ++ ds
  padded.take (padded.length - places) ++ '.' :: padded.drop (padded.length - places)

def fixed (places : Nat) (x : Float) : String :=
  let b := Binary.ofFloat x
  let sign := if b.negative then "-" else ""
  match b.magnitude with
  | .nan => "nan"
  | .infinite => sign ++ "inf"
  | .finite mantissa exponent =>
    sign ++ String.ofList
      (withPlaces ((Ratio.ofBinary mantissa exponent).scale places).round places)

end ReasonGraph.Decimal
