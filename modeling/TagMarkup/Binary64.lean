import TagMarkup.Text

/-! Numbers of the format binary64. A decimal is rounded to the nearest number, and a number is
written with the fewest decimal digits that are rounded back to it. Both compare exact multiples
of powers of two and ten, so no step rounds but the one that is meant to. -/

namespace TagMarkup

/-- The number `digits * 10 ^ exponent`. -/
structure Decimal where
  digits : Nat
  exponent : Int
  deriving DecidableEq, Repr

inductive Binary64
  /-- `mantissa * 2 ^ exponent`, below zero if `negative`. -/
  | finite (negative : Bool) (mantissa : Nat) (exponent : Int)
  | infinite (negative : Bool)
  | nan
  deriving DecidableEq, Repr

/-- The quotient rounded to the nearest whole number, and to the even one of two. -/
def roundQuotient (n d : Nat) : Nat :=
  let q := n / d
  let r := n % d
  if 2 * r < d then q
  else if d < 2 * r then q + 1
  else q + q % 2

namespace Decimal

def fraction (d : Decimal) : Nat × Nat :=
  (d.digits * Nat.pow 10 d.exponent.toNat, Nat.pow 10 (-d.exponent).toNat)

/-- The decimal digits of a number, with the point or as many zeros as it takes. -/
def text (d : Decimal) : Text :=
  let ds := Nat.toDigits 10 d.digits
  if 0 ≤ d.exponent then ds ++ List.replicate d.exponent.toNat '0'
  else
    let places := (-d.exponent).toNat
    if places < ds.length then ds.take (ds.length - places) ++ '.' :: ds.drop (ds.length - places)
    else '0' :: '.' :: List.replicate (places - ds.length) '0' ++ ds

end Decimal

namespace Binary64

/-- The mantissa of a number that is not too near to zero has this many binary digits. -/
def precision : Nat := 53

def leastExponent : Int := -1074

/-- The greatest exponent of a full mantissa. -/
def greatestExponent : Int := 971

/-- The fraction over a power of two, rounded. -/
def scaled (n d : Nat) (exponent : Int) : Nat :=
  roundQuotient (n * Nat.pow 2 (-exponent).toNat) (d * Nat.pow 2 exponent.toNat)

/-- The mantissa and the exponent of the number nearest to a fraction. -/
def nearest (n d : Nat) : Nat × Int :=
  let guess : Int := (n.log2 : Int) - d.log2 - (precision - 1)
  let tooFine :=
    n * Nat.pow 2 (-guess).toNat < Nat.pow 2 (precision - 1) * (d * Nat.pow 2 guess.toNat)
  let exponent := max leastExponent (if tooFine then guess - 1 else guess)
  let mantissa := scaled n d exponent
  if mantissa = Nat.pow 2 precision then (Nat.pow 2 (precision - 1), exponent + 1)
  else (mantissa, exponent)

/-- The number nearest to a decimal, unless it is too large for any. -/
def ofDecimal? (negative : Bool) (d : Decimal) : Option Binary64 :=
  let order := (Nat.toDigits 10 d.digits).length + d.exponent
  if d.digits = 0 ∨ order < -330 then some (finite negative 0 0)
  else if 310 < order then none
  else
    let (n, q) := d.fraction
    let (mantissa, exponent) := nearest n q
    if greatestExponent < exponent then none else some (finite negative mantissa exponent)

/-- Compares a decimal with `n * 2 ^ exponent`. -/
def compareDecimal (d : Decimal) (n : Nat) (exponent : Int) : Ordering :=
  let (p, q) := d.fraction
  compare (p * Nat.pow 2 (-exponent).toNat) (n * Nat.pow 2 exponent.toNat * q)

/-- The decimal is rounded to the number. The ends of the interval round to an even mantissa, and
the end below a power of two is nearer than the one above. -/
def readsBack (mantissa : Nat) (exponent : Int) (d : Decimal) : Bool :=
  let narrow := mantissa = Nat.pow 2 (precision - 1) ∧ leastExponent < exponent
  let low := compareDecimal d (if narrow then 4 * mantissa - 1 else 4 * mantissa - 2) (exponent - 2)
  let high := compareDecimal d (4 * mantissa + 2) (exponent - 2)
  let even := mantissa % 2 = 0
  (low = .gt || (even && low = .eq)) && (high = .lt || (even && high = .eq))

/-- The multiple of a power of ten that reads back as the number, if there is one. Of two, it is
the nearer, and the greater if both are as near. -/
def onGrid? (mantissa : Nat) (exponent power : Int) : Option Decimal :=
  let below := mantissa * Nat.pow 2 exponent.toNat * Nat.pow 10 (-power).toNat /
    (Nat.pow 2 (-exponent).toNat * Nat.pow 10 power.toNat)
  let middle : Decimal := ⟨10 * below + 5, power - 1⟩
  let near := if compareDecimal middle mantissa exponent = .gt then [below, below + 1]
    else [below + 1, below]
  (near.map fun digits => (⟨digits, power⟩ : Decimal)).find? (readsBack mantissa exponent)

/-- The coarsest multiple of a power of ten that reads back as the number. -/
def shortest (mantissa : Nat) (exponent : Int) : Decimal :=
  let powers := (List.range 640).map fun (i : Nat) => (309 - i : Int)
  (powers.findSome? (onGrid? mantissa exponent)).getD ⟨0, 0⟩

def isNonzero : Binary64 → Bool
  | finite _ mantissa _ => mantissa ≠ 0
  | _ => true

def text : Binary64 → Text
  | finite negative mantissa exponent =>
    let digits := if mantissa = 0 then ['0'] else (shortest mantissa exponent).text
    if negative then '-' :: digits else digits
  | infinite negative => if negative then "-inf".toList else "inf".toList
  | nan => "NaN".toList

example : (ofDecimal? false ⟨1, 23⟩).map text = some "100000000000000000000000".toList := by
  decide +kernel

example : (ofDecimal? true ⟨5, -324⟩).map text =
    some ("-0.".toList ++ List.replicate 323 '0' ++ ['5']) := by
  decide +kernel

example : ofDecimal? false ⟨17976931348623159, 292⟩ = none := by decide +kernel

end Binary64

end TagMarkup
