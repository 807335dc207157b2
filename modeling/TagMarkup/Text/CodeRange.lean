import TagMarkup.Text

/-! Ranges of code points. A property of characters is a list of ranges, and a character has it
when one of them contains its code point. -/

namespace TagMarkup.Text

/-- The code points from `first` to `last`. -/
abbrev CodeRange := Nat × Nat

namespace CodeRange

def anyContains (ranges : List CodeRange) (c : Char) : Bool :=
  ranges.any fun (first, last) => first ≤ c.toNat && c.toNat ≤ last

/-- No range is empty, and each begins after the end of the one before, with a gap between. -/
def ascending : List CodeRange → Bool
  | [] => true
  | [r] => r.1 ≤ r.2
  | r :: s :: rest => r.1 ≤ r.2 && r.2 + 1 < s.1 && ascending (s :: rest)

def count (ranges : List CodeRange) : Nat := ranges.foldr (fun r n => r.2 + 1 - r.1 + n) 0

end CodeRange

end TagMarkup.Text
