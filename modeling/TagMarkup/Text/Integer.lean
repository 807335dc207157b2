import TagMarkup.Text

/-! Reading a whole number of 64 bits with a sign from its decimal digits. Digits are taken from
the left, and the first fault met decides the answer: a character that is no digit, or a digit
that carries the number out of range. -/

namespace TagMarkup.Text

inductive IntegerError
  | empty
  | invalidDigit
  | tooLarge
  | tooSmall
  deriving DecidableEq, Repr

namespace IntegerError

def message : IntegerError → String
  | empty => "cannot parse integer from empty string"
  | invalidDigit => "invalid digit found in string"
  | tooLarge => "number too large to fit in target type"
  | tooSmall => "number too small to fit in target type"

end IntegerError

def digit? (c : Char) : Option Nat := if c.isDigit then some (c.toNat - '0'.toNat) else none

/-- The number that `digits` continue from `value`, as long as no step passes `limit`. -/
def readDigits (limit : Nat) (tooBig : IntegerError) (value : Nat) :
    Text → Except IntegerError Nat
  | [] => .ok value
  | c :: rest =>
    match digit? c with
    | none => .error .invalidDigit
    | some d =>
      if value * 10 + d ≤ limit then readDigits limit tooBig (value * 10 + d) rest
      else .error tooBig

/-- A number from its digits, after an optional sign. -/
def readInteger : Text → Except IntegerError Int64
  | [] => .error .empty
  | ['+'] => .error .invalidDigit
  | ['-'] => .error .invalidDigit
  | '-' :: digits =>
    (readDigits (Nat.pow 2 63) .tooSmall 0 digits).map fun n => Int64.ofInt (-(n : Int))
  | '+' :: digits => (readDigits (Nat.pow 2 63 - 1) .tooLarge 0 digits).map fun n => Int64.ofNat n
  | digits => (readDigits (Nat.pow 2 63 - 1) .tooLarge 0 digits).map fun n => Int64.ofNat n

end TagMarkup.Text
