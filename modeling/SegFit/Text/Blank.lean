/-
  White space and letter case.  Blank are the characters with the Unicode property
  White_Space; case is folded for the ASCII letters only.
-/

namespace SegFit

/-- The code points with the property White_Space. -/
def blankCodes : List Nat :=
  [0x09, 0x0A, 0x0B, 0x0C, 0x0D, 0x20, 0x85, 0xA0, 0x1680, 0x2000, 0x2001, 0x2002, 0x2003,
    0x2004, 0x2005, 0x2006, 0x2007, 0x2008, 0x2009, 0x200A, 0x2028, 0x2029, 0x202F, 0x205F,
    0x3000]

/-- Whether `c` is white space. -/
def isBlank (c : Char) : Bool :=
  blankCodes.contains c.toNat

/-- The characters without the white space before and after them. -/
def trimBlanks (cs : List Char) : List Char :=
  ((cs.dropWhile isBlank).reverse.dropWhile isBlank).reverse

/-- The text in lower case, as far as its letters are ASCII. -/
def foldCase (cs : List Char) : String :=
  String.ofList (cs.map Char.toLower)

/-- The text a setting is recognised by: no surrounding white space, no upper case. -/
def settingText (s : String) : String :=
  foldCase (trimBlanks s.toList)

end SegFit
