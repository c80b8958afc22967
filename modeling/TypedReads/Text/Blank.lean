import TypedReads.Text.Basic

/-!
# Blank code units

The blanks that `Text.trim` removes around a numeral: the ASCII controls from tab to carriage
return, the space, the no-break space, the space separators of Unicode, the line and paragraph
separators, and the byte order mark. The zero-width space and the next-line control are not
blank.
-/

namespace TypedReads

/-- Whether a code unit is blank. -/
def CodeUnit.isBlank (u : CodeUnit) : Bool :=
  (0x09 ≤ u && u ≤ 0x0D) || u == 0x20 || u == 0xA0 || u == 0x1680 ||
    (0x2000 ≤ u && u ≤ 0x200A) || u == 0x2028 || u == 0x2029 || u == 0x202F ||
    u == 0x205F || u == 0x3000 || u == 0xFEFF

/-- A text without the blanks at its two ends. -/
def Text.trim (t : Text) : Text :=
  ((t.dropWhile CodeUnit.isBlank).reverse.dropWhile CodeUnit.isBlank).reverse

end TypedReads
