import TagMarkup.Text.Unprintable

/-! Quoted characters and texts, as they stand in messages. Between the quotes every character
stands for itself, apart from the backslash, the quote in use, the four named controls, which take
a backslash and one character, and the unprintable characters, which are written by number. -/

namespace TagMarkup.Text

/-- The digits of a number in lower-case hexadecimal. -/
def hex (n : Nat) : Text := Nat.toDigits 16 n

/-- One character between two of the quotes `quote`. -/
def quotedChar (quote c : Char) : Text :=
  match c with
  | '\x00' => ['\\', '0']
  | '\t' => ['\\', 't']
  | '\n' => ['\\', 'n']
  | '\r' => ['\\', 'r']
  | '\\' => ['\\', '\\']
  | c =>
    if c = quote then ['\\', c]
    else if isUnprintable c then ['\\', 'u', '\x7b'] ++ hex c.toNat ++ ['\x7d']
    else [c]

def quoted (t : Text) : Text := '"' :: t.flatMap (quotedChar '"') ++ ['"']

/-- A character between single quotes. -/
def quotedSingle (c : Char) : Text := '\'' :: quotedChar '\'' c ++ ['\'']

example : quoted ['a', '"', '\'', '\\', '\n', 'é', '\u0301'] =
    "\"a\\\"'\\\\\\né\\u\x7b301\x7d\"".toList := by decide +kernel

example : quotedSingle '\'' = "'\\''".toList ∧ quotedSingle '"' = "'\"'".toList := by
  decide +kernel

end TagMarkup.Text
