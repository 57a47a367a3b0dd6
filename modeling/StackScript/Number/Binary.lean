import StackScript.Number.Comparison

/-!
Binary floating point. A format has a fraction and an exponent field; a datum is a bit pattern of the
format, read as a signed significand times a power of two, an infinity, or not a number. Every operation
is the exact one on rationals followed by one rounding to the nearest datum, ties to even.
-/
namespace StackScript

structure Binary where
  fraction : Nat
  exponent : Nat
deriving DecidableEq, Repr

namespace Binary

def single : Binary := ⟨23, 8⟩

def double : Binary := ⟨52, 11⟩

variable (f : Binary)

/-- The exponent of the unit in the last place of the smallest data. -/
def least : Int := 2 - Nat.pow 2 (f.exponent - 1) - f.fraction

/-- The bits of positive infinity; smaller patterns are finite, larger ones are not numbers. -/
def infinity : Nat := (Nat.pow 2 f.exponent - 1) * Nat.pow 2 f.fraction

def signBit : Nat := Nat.pow 2 (f.fraction + f.exponent)

def quietBit : Nat := Nat.pow 2 (f.fraction - 1)

/-- The pattern that an invalid operation on numbers gives. -/
def indefinite : Nat := f.signBit + f.infinity + f.quietBit

def withSign (negative : Bool) (magnitude : Nat) : Nat :=
  if negative then f.signBit + magnitude else magnitude

inductive Datum
  | finite (negative : Bool) (significand : Nat) (scale : Int)
  | infinite (negative : Bool)
  | nan
deriving DecidableEq, Repr

def decode (bits : Nat) : Datum :=
  let negative := f.signBit ≤ bits
  let magnitude := bits % f.signBit
  if magnitude < f.infinity then
    let field := magnitude / Nat.pow 2 f.fraction
    let rest := magnitude % Nat.pow 2 f.fraction
    if field = 0 then .finite negative rest f.least
    else .finite negative (rest + Nat.pow 2 f.fraction) (f.least + (field - 1 : Nat))
  else if magnitude = f.infinity then .infinite negative
  else .nan

def isNan (bits : Nat) : Bool := f.decode bits == .nan

/-- The whole number nearest to a quotient, ties to even. -/
def nearest (num den : Nat) : Nat :=
  let k := num / den
  let r := num % den
  if den < 2 * r ∨ (2 * r = den ∧ k % 2 = 1) then k + 1 else k

/-- A quotient with numerator or denominator multiplied by a power of two. -/
def scaled (num den : Nat) (q : Int) : Nat × Nat :=
  if 0 ≤ q then (num <<< q.toNat, den) else (num, den <<< (-q).toNat)

/-- The largest `e` with `2 ^ e ≤ num / den`. -/
def binade (num den : Nat) : Int :=
  let e : Int := (Nat.log2 num : Int) - Nat.log2 den
  let (n, d) := scaled num den (-e)
  if d ≤ n then e else e - 1

/-- The magnitude nearest to a non-negative rational. -/
def ofRatio (num den : Nat) : Nat :=
  if num = 0 then 0
  else
    let q := max (binade num den - f.fraction) f.least
    let (n, d) := scaled num den (-q)
    min f.infinity ((q - f.least).toNat <<< f.fraction + nearest n d)

/-- The magnitude nearest to `m * 2 ^ q`. -/
def ofDyadic (m : Nat) (q : Int) : Nat :=
  let (n, d) := scaled m 1 q
  f.ofRatio n d

def ofInt (n : Int) : Nat := f.withSign (n < 0) (f.ofRatio n.natAbs 1)

/-- The nearest datum of another format. -/
def convert (g : Binary) (bits : Nat) : Nat :=
  match f.decode bits with
  | .finite s m q => g.withSign s (g.ofDyadic m q)
  | .infinite s => g.withSign s g.infinity
  | .nan => g.withSign (f.signBit ≤ bits) (g.infinity + g.quietBit)

/-- The whole part, kept within bounds; not a number counts as zero. -/
def toInt (low high : Int) (bits : Nat) : Int :=
  match f.decode bits with
  | .finite s m q =>
    let (n, d) := scaled m 1 q
    let k : Int := (n / d : Nat)
    max low (min high (if s then -k else k))
  | .infinite s => if s then low else high
  | .nan => 0

/-! ### Arithmetic -/

def neg (a : Nat) : Nat := if f.signBit ≤ a then a - f.signBit else a + f.signBit

def quiet (bits : Nat) : Nat := bits ||| f.quietBit

/-- Not a number, and not yet quiet. -/
def signals (bits : Nat) : Bool := f.isNan bits && f.quiet bits != bits

/-- An operand that is not a number is the result, the left one first. -/
def orNan (a b : Nat) (result : Nat) : Nat :=
  if f.isNan a then f.quiet a else if f.isNan b then f.quiet b else result

/-- A significand with its sign, moved to a lower scale. -/
def aligned (s : Bool) (m : Nat) (p q : Int) : Int :=
  let k : Int := (m <<< (p - q).toNat : Nat)
  if s then -k else k

def addData : Datum → Datum → Nat
  | .finite s m p, .finite t n q =>
    let low := min p q
    let sum := aligned s m p low + aligned t n q low
    if sum = 0 then f.withSign (s && t) 0
    else f.withSign (sum < 0) (f.ofDyadic sum.natAbs low)
  | .infinite s, .infinite t => if s = t then f.withSign s f.infinity else f.indefinite
  | .infinite s, _ => f.withSign s f.infinity
  | _, .infinite t => f.withSign t f.infinity
  | .nan, _ | _, .nan => f.indefinite

def add (a b : Nat) : Nat := f.orNan a b (f.addData (f.decode a) (f.decode b))

def sub (a b : Nat) : Nat := f.orNan a b (f.addData (f.decode a) (f.decode (f.neg b)))

def mulData : Datum → Datum → Nat
  | .finite s m p, .finite t n q => f.withSign (s != t) (f.ofDyadic (m * n) (p + q))
  | .infinite s, .infinite t => f.withSign (s != t) f.infinity
  | .infinite s, .finite t m _ | .finite s m _, .infinite t =>
    if m = 0 then f.indefinite else f.withSign (s != t) f.infinity
  | .nan, _ | _, .nan => f.indefinite

def mul (a b : Nat) : Nat := f.orNan a b (f.mulData (f.decode a) (f.decode b))

def divData : Datum → Datum → Nat
  | .finite s m p, .finite t n q =>
    if n = 0 then (if m = 0 then f.indefinite else f.withSign (s != t) f.infinity)
    else
      let (num, den) := scaled m n (p - q)
      f.withSign (s != t) (f.ofRatio num den)
  | .infinite _, .infinite _ => f.indefinite
  | .infinite s, .finite t _ _ => f.withSign (s != t) f.infinity
  | .finite s _ _, .infinite t => f.withSign (s != t) 0
  | .nan, _ | _, .nan => f.indefinite

def div (a b : Nat) : Nat := f.orNan a b (f.divData (f.decode a) (f.decode b))

/-- The remainder of truncated division; it has the sign of the dividend and is exact. -/
def modData : Datum → Datum → Nat
  | .finite s m p, .finite _ n q =>
    if n = 0 then f.indefinite
    else
      let low := min p q
      let rest := (m <<< (p - low).toNat) % (n <<< (q - low).toNat)
      f.withSign s (f.ofDyadic rest low)
  | .finite s m p, .infinite _ => f.withSign s (f.ofDyadic m p)
  | _, _ => f.indefinite

def mod (a b : Nat) : Nat := f.orNan a b (f.modData (f.decode a) (f.decode b))

def isZero (bits : Nat) : Bool := bits % f.signBit == 0

def isOdd (bits : Nat) : Bool :=
  match f.decode bits with
  | .finite _ m q =>
    let (num, den) := scaled m 1 q
    num % den == 0 && num / den % 2 == 1
  | _ => false

/-- The power where an operand is not a number. A power of one and a zeroth power are one unless the other
operand signals; an odd power of what is not a number has no sign. -/
def powNan (a b : Nat) : Nat :=
  let one := f.ofRatio 1 1
  if f.isZero b then (if f.signals a then f.quiet a else one)
  else if a = one then (if f.signals b then f.quiet b else one)
  else if f.isNan a ∧ f.isOdd b then f.quiet (a % f.signBit)
  else f.orNan a b f.indefinite

/-- Powers of numbers are rounded as `power` rounds them; one that is not real is invalid. -/
def pow (power : Nat → Nat → Nat) (a b : Nat) : Nat :=
  if f.isNan a ∨ f.isNan b then f.powNan a b
  else
    let r := power a b
    if f.isNan r then f.indefinite else r

/-- The order of two data; not a number has none, and the zeros are equal. -/
def order? (a b : Nat) : Option Ordering :=
  match f.decode a, f.decode b with
  | .nan, _ | _, .nan => none
  | .infinite s, .infinite t => some (if s = t then .eq else if s then .lt else .gt)
  | .infinite s, .finite .. => some (if s then .lt else .gt)
  | .finite .., .infinite t => some (if t then .gt else .lt)
  | .finite s m p, .finite t n q =>
    let low := min p q
    some (compare (aligned s m p low) (aligned t n q low))

def test (c : Comparison) (a b : Nat) : Bool := c.ofOrdering? (f.order? a b)

theorem nearest_one (n : Nat) : nearest n 1 = n := by
  simp [nearest, Nat.mod_one]

theorem neg_neg {a : Nat} (h : a < 2 * f.signBit) : f.neg (f.neg a) = a := by
  unfold neg
  split <;> split <;> omega

end Binary

/-- Arithmetic on one float format. -/
inductive FloatOp
  | add | sub | mul | div | mod | exp
deriving DecidableEq, Repr, Inhabited

namespace FloatOp

def all : List FloatOp := [add, sub, mul, div, mod, exp]

def name : FloatOp → String
  | add => "add"
  | sub => "sub"
  | mul => "mul"
  | div => "div"
  | mod => "mod"
  | exp => "exp"

/-- The platform rounds powers; `power` is its function on bit patterns. -/
def run (f : Binary) (power : Nat → Nat → Nat) : FloatOp → Nat → Nat → Nat
  | add, a, b => f.add a b
  | sub, a, b => f.sub a b
  | mul, a, b => f.mul a b
  | div, a, b => f.div a b
  | mod, a, b => f.mod a b
  | exp, a, b => f.pow power a b

def run32 (op : FloatOp) (a b : UInt32) : UInt32 :=
  .ofNat (op.run .single (fun x y => ((Float32.ofBits (.ofNat x)).pow (Float32.ofBits (.ofNat y))).toBits.toNat)
    a.toNat b.toNat)

def run64 (op : FloatOp) (a b : UInt64) : UInt64 :=
  .ofNat (op.run .double (fun x y => ((Float.ofBits (.ofNat x)).pow (Float.ofBits (.ofNat y))).toBits.toNat)
    a.toNat b.toNat)

end FloatOp

end StackScript
