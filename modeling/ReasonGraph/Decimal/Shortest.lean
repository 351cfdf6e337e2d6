import ReasonGraph.Decimal.Binary

/-! The shortest decimal that reads back as a given float. Reading rounds to nearest, so
the decimals that read back form an interval around the float, whose ends belong to it when
the mantissa is even. For one digit, two, and so on up to seventeen the two neighbours of
the float on that decimal grid are tried; the first grid that hits the interval gives the
digits, and of two hits the nearer is taken, on a tie the even one. -/

namespace ReasonGraph.Decimal

structure Interval where
  low : Nat
  value : Nat
  high : Nat
  den : Nat
  closed : Bool

/-- The float below a power of two is only half as far away as the one above it. -/
def Interval.around (mantissa : Nat) (exponent : Int) : Interval :=
  let below := if mantissa = twoTo 52 ∧ exponent ≠ -1074 then 1 else 2
  let unit := Ratio.ofBinary 1 (exponent - 2)
  { low := (4 * mantissa - below) * unit.num
    value := 4 * mantissa * unit.num
    high := (4 * mantissa + 2) * unit.num
    den := unit.den
    closed := mantissa % 2 = 0 }

def Interval.point (i : Interval) : Int :=
  if i.den ≤ i.value then (digits (i.value / i.den)).length
  else 1 - (digits ((i.den - 1) / i.value)).length

structure Grid where
  count : Nat
  places : Int

def Interval.hit? (i : Interval) (places : Int) : Option Grid :=
  let unit := i.den * tenTo (-places).toNat
  let scaled := tenTo places.toNat
  let inside (c : Nat) : Bool :=
    if i.closed then decide (i.low * scaled ≤ c * unit ∧ c * unit ≤ i.high * scaled)
    else decide (i.low * scaled < c * unit ∧ c * unit < i.high * scaled)
  let beneath := i.value * scaled / unit
  let above := beneath + 1
  let down := i.value * scaled - beneath * unit
  let up := above * unit - i.value * scaled
  if inside beneath && inside above then
    some ⟨if down < up ∨ (down = up ∧ beneath % 2 = 0) then beneath else above, places⟩
  else if inside beneath then some ⟨beneath, places⟩
  else if inside above then some ⟨above, places⟩
  else none

/-- Seventeen digits always suffice, so the last grid needs no test. -/
def Interval.shortest (i : Interval) : Grid :=
  let places (count : Nat) : Int := count - i.point
  match ((List.range 17).map fun k => places (k + 1)).findSome? i.hit? with
  | some g => g
  | none => ⟨((Ratio.mk i.value i.den).scale (places 17)).round, places 17⟩

def Grid.layout (g : Grid) : List Char × Int :=
  let all := digits g.count
  ((all.reverse.dropWhile (· = '0')).reverse, all.length - g.places)

/-- Positional from 0.0001 up to below 10^16, with at least one digit after the point. -/
def positional (ds : List Char) (point : Int) : List Char :=
  if point ≤ 0 then '0' :: '.' :: List.replicate (-point).toNat '0' ++ ds
  else
    let whole := ds.take point.toNat
    let rest := ds.drop point.toNat
    whole ++ List.replicate (point.toNat - whole.length) '0' ++
      '.' :: (if rest.isEmpty then ['0'] else rest)

/-- One digit before the point, no point if no digit follows, a signed exponent of at least
two digits. -/
def scientific (ds : List Char) (point : Int) : List Char :=
  let exponent := point - 1
  let size := Nat.toDigits 10 exponent.natAbs
  ds.take 1 ++ (if (ds.drop 1).isEmpty then [] else '.' :: ds.drop 1) ++
    'e' :: (if exponent < 0 then '-' else '+') ::
    (if size.length < 2 then '0' :: size else size)

def Grid.text (g : Grid) : List Char :=
  let (ds, point) := g.layout
  if -4 < point ∧ point ≤ 16 then positional ds point else scientific ds point

def shortest (x : Float) : String :=
  let b := Binary.ofFloat x
  let sign := if b.negative then "-" else ""
  match b.magnitude with
  | .nan => "nan"
  | .infinite => sign ++ "inf"
  | .finite 0 _ => sign ++ "0.0"
  | .finite mantissa exponent =>
    sign ++ String.ofList (Interval.around mantissa exponent).shortest.text

end ReasonGraph.Decimal
