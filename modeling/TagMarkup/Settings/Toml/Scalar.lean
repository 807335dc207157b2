import TagMarkup.Settings.Document
import TagMarkup.Settings.Toml.Lexeme

/-! The values of a TOML file that are written without quotes: truth values, numbers, dates and
times. A date or a time is read as a text, in the one form that it has in every file. -/

namespace TagMarkup.Settings.Toml

/-- The digits of a number to a base, without the single underscores between them. -/
def digits? (base : Nat) (t : Text) : Option (List Nat) :=
  let groups := t.splitOn '_'
  if groups.any List.isEmpty then none
  else groups.flatten.mapM fun c => (hexDigit? c).filter (· < base)

def ofDigits (base : Nat) (ds : List Nat) : Nat := ds.foldl (fun n d => n * base + d) 0

/-- The digits of a decimal number without a sign, which has no leading zeros. -/
def decimalDigits? (t : Text) : Option (List Nat) :=
  (digits? 10 t).filter fun ds => ds.length ≤ 1 || ds.head? ≠ some 0

/-- Whether there is a minus sign, and what stands after the sign. -/
def signed : Text → Bool × Text
  | '-' :: rest => (true, rest)
  | '+' :: rest => (false, rest)
  | t => (false, t)

def withSign (negative : Bool) (n : Nat) : Int := if negative then -n else n

/-- A whole number that fits into 64 bits. -/
def int? (t : Text) : Option Int :=
  let n? : Option Int :=
    match t with
    | '0' :: 'x' :: ds => (digits? 16 ds).map fun ds => (ofDigits 16 ds : Int)
    | '0' :: 'o' :: ds => (digits? 8 ds).map fun ds => (ofDigits 8 ds : Int)
    | '0' :: 'b' :: ds => (digits? 2 ds).map fun ds => (ofDigits 2 ds : Int)
    | t => (decimalDigits? (signed t).2).map fun ds => withSign (signed t).1 (ofDigits 10 ds)
  n?.filter fun n => Int64.minValue.toInt ≤ n && n ≤ Int64.maxValue.toInt

/-- The text before a mark and, if there is the mark, the text after it. -/
def cutAt (isMark : Char → Bool) (t : Text) : Text × Option Text :=
  match t.span fun c => !isMark c with
  | (before, []) => (before, none)
  | (before, _ :: after) => (before, some after)

/-- The number after the letter of an exponent, which is 0 when there is no such letter. -/
def exponent? : Option Text → Option Int
  | none => some 0
  | some t => (digits? 10 (signed t).2).map fun ds => withSign (signed t).1 (ofDigits 10 ds)

/-- A number with a fraction, an exponent or both. -/
def float? (t : Text) : Option Binary64 :=
  let (negative, t) := signed t
  if t = "inf".toList then some (.infinite negative)
  else if t = "nan".toList then some .nan
  else do
    let (number, power) := cutAt (fun c => c = 'e' || c = 'E') t
    let (whole, fraction) := cutAt (· = '.') number
    if fraction.isNone ∧ power.isNone then none
    else
      let wholeDigits ← decimalDigits? whole
      let fractionDigits ← (fraction.map (digits? 10)).getD (some [])
      let exponent ← exponent? power
      let digits := ofDigits 10 (wholeDigits ++ fractionDigits)
      Binary64.ofDecimal? negative ⟨digits, exponent - fractionDigits.length⟩

/-- The number that two digits make, if it is not above `limit`. -/
def twoDigits? (limit : Nat) (a b : Char) : Option Nat :=
  if a.isDigit && b.isDigit then
    (some ((a.toNat - '0'.toNat) * 10 + (b.toNat - '0'.toNat))).filter (· ≤ limit)
  else none

def monthLength (year month : Nat) : Nat :=
  if month = 2 then
    if year % 4 = 0 ∧ (year % 100 ≠ 0 ∨ year % 400 = 0) then 29 else 28
  else if month ∈ [4, 6, 9, 11] then 30
  else 31

/-- Year, month and day of a date that there is. -/
def isDate : Text → Bool
  | [a, b, c, d, '-', e, f, '-', g, h] =>
    match twoDigits? 99 a b, twoDigits? 99 c d, twoDigits? 12 e f, twoDigits? 31 g h with
    | some century, some year, some month, some day =>
      0 < month && 0 < day && day ≤ monthLength (century * 100 + year) month
    | _, _, _, _ => false
  | _ => false

/-- The digits of a fraction of a second, of which the first nine count, without zeros at their
end. -/
def secondFraction? (t : Text) : Option Text :=
  if t ≠ [] ∧ t.all Char.isDigit then
    match ((t.take 9).reverse.dropWhile (· = '0')).reverse with
    | [] => some ['0']
    | ds => some ds
  else none

/-- A time of the day, in which the seconds may be missing. -/
def time? : Text → Option Text
  | a :: b :: ':' :: c :: d :: rest => do
    let _ ← twoDigits? 23 a b
    let _ ← twoDigits? 59 c d
    match rest with
    | [] => return [a, b, ':', c, d]
    | ':' :: e :: f :: rest =>
      let _ ← twoDigits? 60 e f
      match rest with
      | [] => return [a, b, ':', c, d, ':', e, f]
      | '.' :: digits =>
        return [a, b, ':', c, d, ':', e, f, '.'] ++ (← secondFraction? digits)
      | _ => none
    | _ => none
  | _ => none

/-- A time and how far it is ahead of universal time, if that is said. -/
def offsetTime? (t : Text) : Option Text :=
  match t.reverse with
  | 'Z' :: time | 'z' :: time => do return (← time? time.reverse) ++ ['Z']
  | d :: c :: ':' :: b :: a :: sign :: time =>
    if sign = '+' ∨ sign = '-' then do
      let hours ← twoDigits? 23 a b
      let minutes ← twoDigits? 59 c d
      let sign := if hours = 0 ∧ minutes = 0 then '+' else sign
      return (← time? time.reverse) ++ [sign, a, b, ':', c, d]
    else time? t
  | _ => time? t

/-- A date, a time, or both with a letter or a space between them. -/
def dateTime? (t : Text) : Option Text :=
  if isDate t then some t
  else
    match t.drop 10 with
    | c :: time =>
      if isDate (t.take 10) ∧ (c = 'T' ∨ c = 't' ∨ c = ' ') then
        (offsetTime? time).map fun time => t.take 10 ++ 'T' :: time
      else time? t
    | [] => time? t

/-- The value that a text without quotes stands for. -/
def scalar? (t : Text) : Option Scalar :=
  if t = "true".toList then some (.bool true)
  else if t = "false".toList then some (.bool false)
  else ((int? t).map .int).or (((float? t).map .float).or ((dateTime? t).map .text))

end TagMarkup.Settings.Toml
