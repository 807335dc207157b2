import TagMarkup.Settings.Document
import TagMarkup.Settings.Toml.Lexeme

/-! The paths that the keys of a file stand for. A key such as `a.b[0]` leads to an element of an
array in a table; a key that is no path stands for itself. -/

namespace TagMarkup.Settings

/-- The index between square brackets: digits after an optional minus sign, between blanks. It fits
into 64 bits. -/
def index? (t : Text) : Option Int :=
  let t := ((t.dropWhile Toml.isBlank).reverse.dropWhile Toml.isBlank).reverse
  let (negative, digits) := match t with
    | '-' :: rest => (true, rest)
    | t => (false, t)
  if digits.isEmpty || !digits.all Char.isDigit then none
  else
    let n := digits.foldl (fun n c => n * 10 + (c.toNat - '0'.toNat)) 0
    (some (if negative then -(n : Int) else n)).filter fun i =>
      Int64.minValue.toInt ≤ i && i ≤ Int64.maxValue.toInt

/-- The steps that a text writes down: a name after a point, or an index between brackets. -/
def steps? (t : Text) : Option (List Step) :=
  match t with
  | [] => some []
  | '.' :: rest => do
    if (rest.takeWhile Toml.isBare).isEmpty then none
    else return .key (rest.takeWhile Toml.isBare) :: (← steps? (rest.dropWhile Toml.isBare))
  | '[' :: rest => do
    let i ← index? (rest.takeWhile (· ≠ ']'))
    match _ : rest.dropWhile (· ≠ ']') with
    | [] => none
    | _ :: more => return .index i :: (← steps? more)
  | _ => none
termination_by t.length
decreasing_by
  · have := (List.dropWhile_suffix Toml.isBare (l := rest)).length_le
    simp only [List.length_cons]
    omega
  · have := (List.dropWhile_suffix (· ≠ ']') (l := rest)).length_le
    simp_all only [List.length_cons]
    omega

def pathOfKey (key : Text) : List Step := (steps? ('.' :: key)).getD [.key key]

example : pathOfKey "a.b-1[ -2 ].c".toList =
    [.key "a".toList, .key "b-1".toList, .index (-2), .key "c".toList] := by decide +kernel

example : pathOfKey "a[0".toList = [.key "a[0".toList] := by decide +kernel

end TagMarkup.Settings
