/-!
# Blank characters

The characters with Unicode's `White_Space` property. They decide which names count as unset, and
they are what the readers of instants and durations skip between the parts of a text.
-/

namespace VersionCatalog.Text

/-- Whether a character has Unicode's `White_Space` property. -/
def isBlank (c : Char) : Bool :=
  let n := c.toNat
  (0x09 ≤ n && n ≤ 0x0D) || n == 0x20 || n == 0x85 || n == 0xA0 || n == 0x1680 ||
    (0x2000 ≤ n && n ≤ 0x200A) || n == 0x2028 || n == 0x2029 || n == 0x202F || n == 0x205F ||
    n == 0x3000

/-- A text without the blanks it starts with. -/
def skipBlanks (cs : List Char) : List Char :=
  cs.dropWhile isBlank

/-- Whether nothing is left of a text once its blanks are taken away at both ends, that is,
whether all of it is blank. -/
def isBlankText (s : String) : Bool :=
  s.toList.all isBlank

/-! ### Small laws -/

@[simp] theorem isBlankText_empty : isBlankText "" = true := rfl

end VersionCatalog.Text
