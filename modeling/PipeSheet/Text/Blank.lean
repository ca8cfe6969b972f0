/-!
# PipeSheet.Text.Blank

**Blank characters are those with Unicode's `White_Space` property**, and trimming removes them
from the two ends of a text.

A text is a list of characters throughout the library: every reader of the program walks a text
from its first character to its last, so recursion on the list is recursion on the input.

* `isBlank`: the property, as ranges of code points;
* `trimStart`, `trimEnd`, `trim`: the text without its blank ends;
* `indent`: the blanks that `trimStart` removes.
-/

namespace PipeSheet.Text

/-- The code points with `White_Space`, as ranges that include both their ends. -/
def blankRanges : List (Nat × Nat) :=
  [(0x0009, 0x000D), (0x0020, 0x0020), (0x0085, 0x0085), (0x00A0, 0x00A0), (0x1680, 0x1680),
   (0x2000, 0x200A), (0x2028, 0x2029), (0x202F, 0x202F), (0x205F, 0x205F), (0x3000, 0x3000)]

/-- A character is blank when its code point lies in one of the ranges. -/
def isBlank (c : Char) : Bool :=
  blankRanges.any fun range => range.1 ≤ c.toNat && c.toNat ≤ range.2

/-- The blanks a text begins with. -/
def indent (s : List Char) : List Char :=
  s.takeWhile isBlank

/-- The text from its first character that is not blank. -/
def trimStart (s : List Char) : List Char :=
  s.dropWhile isBlank

/-- The text up to its last character that is not blank. -/
def trimEnd (s : List Char) : List Char :=
  (s.reverse.dropWhile isBlank).reverse

/-- The text without the blanks at its two ends. -/
def trim (s : List Char) : List Char :=
  trimEnd (trimStart s)

@[simp] theorem indent_append_trimStart (s : List Char) : indent s ++ trimStart s = s :=
  List.takeWhile_append_dropWhile

@[simp] theorem trimStart_nil : trimStart [] = [] := rfl

@[simp] theorem trimEnd_nil : trimEnd [] = [] := rfl

@[simp] theorem trim_nil : trim [] = [] := rfl

end PipeSheet.Text
