import TagMarkup.Text.Extending
import TagMarkup.Text.Unassigned

/-! The characters that quoted text never shows as they are, by the properties that Unicode 17
gives them. -/

namespace TagMarkup.Text

def controls : List CodeRange := [(0x0, 0x1F), (0x7F, 0x9F)]

/-- Spaces and the separators of lines and paragraphs, the space U+0020 apart. -/
def separators : List CodeRange :=
  [(0xA0, 0xA0), (0x1680, 0x1680), (0x2000, 0x200A), (0x2028, 0x2029), (0x202F, 0x202F),
   (0x205F, 0x205F), (0x3000, 0x3000)]

/-- Characters that steer the layout of others. -/
def formatting : List CodeRange :=
  [(0xAD, 0xAD), (0x600, 0x605), (0x61C, 0x61C), (0x6DD, 0x6DD), (0x70F, 0x70F), (0x890, 0x891),
   (0x8E2, 0x8E2), (0x180E, 0x180E), (0x200B, 0x200F), (0x202A, 0x202E), (0x2060, 0x2064),
   (0x2066, 0x206F), (0xFEFF, 0xFEFF), (0xFFF9, 0xFFFB), (0x110BD, 0x110BD), (0x110CD, 0x110CD),
   (0x13430, 0x1343F), (0x1BCA0, 0x1BCA3), (0x1D173, 0x1D17A), (0xE0001, 0xE0001),
   (0xE0020, 0xE007F)]

def privateUse : List CodeRange := [(0xE000, 0xF8FF), (0xF0000, 0xFFFFD), (0x100000, 0x10FFFD)]

/-- Letters that are ignored when no font shows them: fillers of Hangul syllables. -/
def fillers : List CodeRange := [(0x115F, 0x1160), (0x3164, 0x3164), (0xFFA0, 0xFFA0)]

/-- The two sound marks that extend a grapheme, but stand in a cell of their own. -/
def soundMarks : List CodeRange := [(0xFF9E, 0xFF9F)]

/-- Nothing would be seen of the character, or it would change what stands before it. -/
def isUnprintable (c : Char) : Bool :=
  [controls, separators, formatting, privateUse, fillers, unassigned].any
      (CodeRange.anyContains · c) ||
    CodeRange.anyContains extending c && !CodeRange.anyContains soundMarks c

example : isUnprintable '\u3164' = true ∧ isUnprintable '\u1715' = true ∧
    isUnprintable '\u0378' = true ∧ isUnprintable '\uFF9E' = false ∧ isUnprintable ' ' = false := by
  decide +kernel

end TagMarkup.Text
