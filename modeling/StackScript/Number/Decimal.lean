import StackScript.Number.Binary

/-!
Decimal text of floating point data. A finite datum is written with the fewest digits that read back as
the same datum, and of several such decimals with the one nearest to it; a tie goes up. Numbers from
`10 ^ 16` and below `10 ^ -4` have an exponent, all others are positional and keep one decimal.
-/
namespace StackScript

/-- The decimal `digits * 10 ^ scale`. -/
structure Decimal where
  digits : Nat
  scale : Int
deriving DecidableEq, Repr

namespace Decimal

/-- A quotient with numerator or denominator multiplied by a power of ten. -/
def scaled (num den : Nat) (k : Int) : Nat × Nat :=
  if 0 ≤ k then (num * Nat.pow 10 k.toNat, den) else (num, den * Nat.pow 10 (-k).toNat)

/-- The magnitude of a format nearest to the decimal. Exponents far beyond every format are cut off. -/
def toBinary (d : Decimal) (f : Binary) : Nat :=
  if d.digits = 0 then 0
  else if 2000 < d.scale then f.infinity
  else if d.scale < -2000 - (d.digits.log2 : Int) then 0
  else
    let (n, m) := scaled d.digits 1 d.scale
    f.ofRatio n m

/-- The reals that round to a datum, in quarters of its unit: both ends, and whether they belong to it. -/
structure Interval where
  low : Nat
  value : Nat
  high : Nat
  closed : Bool
  scale : Int

def interval (f : Binary) (m : Nat) (q : Int) : Interval where
  low := if m = Nat.pow 2 f.fraction ∧ f.least < q then 4 * m - 1 else 4 * m - 2
  value := 4 * m
  high := 4 * m + 2
  closed := m % 2 = 0
  scale := q - 2

/-- Whether `d * 10 ^ k` lies in the interval. -/
def Interval.holds (i : Interval) (d : Nat) (k : Int) : Bool :=
  let (n, m) := scaled d 1 k
  let (p, r) := Binary.scaled 1 1 i.scale
  let low := i.low * p * m
  let high := i.high * p * m
  let x := n * r
  if i.closed then low ≤ x && x ≤ high else low < x && x < high

/-- The least `k` with `num / den < 10 ^ k`, from a guess that is not above it. -/
def magnitude (num den : Nat) : Nat → Int → Int
  | 0, k => k
  | fuel + 1, k =>
    let (n, d) := scaled num den (-k)
    if n < d then k else magnitude num den fuel (k + 1)

/-- The best decimal on the grid `10 ^ k`: of the two neighbours the one that reads back, of two the nearer. -/
def Interval.onGrid (i : Interval) (num den : Nat) (k : Int) : Option Nat :=
  let (n, d) := scaled num den (-k)
  let below := n / d
  let above := below + 1
  match i.holds below k, i.holds above k with
  | true, true => some (if 2 * n < (below + above) * d then below else above)
  | true, false => some below
  | false, true => some above
  | false, false => none

/-- The first grid with a hit, from coarse to fine. -/
def search (i : Interval) (num den : Nat) : Nat → Int → Option Decimal
  | 0, _ => none
  | fuel + 1, k =>
    match i.onGrid num den k with
    | some d => some ⟨d, k⟩
    | none => search i num den fuel (k - 1)

/-- Trailing zeros of the digits moved into the scale. -/
def strip : Nat → Decimal → Decimal
  | 0, d => d
  | fuel + 1, d => if d.digits ≠ 0 ∧ d.digits % 10 = 0 then strip fuel ⟨d.digits / 10, d.scale + 1⟩ else d

/-- The fewest digits that read back as `m * 2 ^ q`. -/
def shortest (f : Binary) (m : Nat) (q : Int) : Decimal :=
  let (num, den) := Binary.scaled m 1 q
  let guess := Binary.binade num den * 30103 / 100000 - 1
  let top := magnitude num den 8 guess
  match search (interval f m q) num den 20 (top - 1) with
  | some d => strip 32 d
  | none => ⟨num, 0⟩

/-- Where the form changes: an exponent is written from `10 ^ high` and below `10 ^ low`. -/
structure Layout where
  low : Int
  high : Int

def Layout.plain : Layout := ⟨-4, 16⟩

def zeros (n : Nat) : List Char := List.replicate n '0'

def text (style : Layout) (d : Decimal) : String :=
  let ds := Nat.toDigits 10 d.digits
  let top : Int := d.scale + ds.length - 1
  if d.digits ≠ 0 ∧ (top < style.low ∨ style.high ≤ top) then
    let rest := ds.drop 1
    String.ofList (ds.take 1 ++ (if rest.isEmpty then [] else '.' :: rest)) ++ "e" ++ toString top
  else if 0 ≤ d.scale then String.ofList (ds ++ zeros d.scale.toNat) ++ ".0"
  else
    let places := (-d.scale).toNat
    let ds := zeros (places + 1 - ds.length) ++ ds
    String.ofList (ds.take (ds.length - places) ++ '.' :: ds.drop (ds.length - places))

end Decimal

namespace Binary

/-- The text of a datum. -/
def text (f : Binary) (bits : Nat) : String :=
  match f.decode bits with
  | .nan => "NaN"
  | .infinite s => if s then "-inf" else "inf"
  | .finite s m q =>
    let d := if m = 0 then ⟨0, 0⟩ else Decimal.shortest f m q
    (if s then "-" else "") ++ d.text .plain

def text32 (bits : UInt32) : String := single.text bits.toNat

def text64 (bits : UInt64) : String := double.text bits.toNat

end Binary

namespace Decimal

def digitsValue (cs : List Char) : Nat :=
  cs.foldl (fun n c => 10 * n + (c.toNat - 48)) 0

/-- Reads digits with an optional point among them. -/
def ofChars (cs : List Char) : Decimal :=
  let whole := cs.takeWhile (· ≠ '.')
  let part := (cs.dropWhile (· ≠ '.')).drop 1
  ⟨digitsValue (whole ++ part), -part.length⟩

/-- Reads a signed number with an optional exponent, or the name of an infinity or of no number. -/
def read? (f : Binary) (s : String) : Option Nat :=
  let (negative, cs) := match s.toList with
    | '-' :: r => (true, r)
    | '+' :: r => (false, r)
    | r => (false, r)
  let word := (String.ofList cs).toLower
  if word = "inf" ∨ word = "infinity" then some (f.withSign negative f.infinity)
  else if word = "nan" then some (f.withSign negative (f.infinity + f.quietBit))
  else
    let mantissa := cs.takeWhile fun c => c ≠ 'e' && c ≠ 'E'
    let tail := (cs.dropWhile fun c => c ≠ 'e' && c ≠ 'E')
    let isNumber := fun (ds : List Char) => !ds.isEmpty && ds.all fun c => '0' ≤ c && c ≤ '9'
    let power? : Option Int := match tail with
      | [] => some 0
      | _ :: '-' :: ds => if isNumber ds then some (-(digitsValue ds : Int)) else none
      | _ :: '+' :: ds => if isNumber ds then some (digitsValue ds) else none
      | _ :: ds => if isNumber ds then some (digitsValue ds) else none
    let points := mantissa.filter (· = '.')
    if points.length ≤ 1 ∧ isNumber (mantissa.filter (· ≠ '.')) then
      power?.map fun p =>
        let d := ofChars mantissa
        f.withSign negative (toBinary ⟨d.digits, d.scale + p⟩ f)
    else none

end Decimal

end StackScript
