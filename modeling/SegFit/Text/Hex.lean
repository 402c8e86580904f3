/-
  Hexadecimal numerals: lower-case digits without leading zeros, or filled up with zeros to
  a given width.
-/

namespace SegFit

/-- The hexadecimal digits of `n`, most significant first. -/
def hexDigits (n : Nat) : List Char :=
  Nat.toDigits 16 n

/-- The digits of `n` after zeros up to `width` characters. -/
def hexDigitsFilled (width n : Nat) : List Char :=
  let digits := hexDigits n
  List.replicate (width - digits.length) '0' ++ digits

/-- The numeral of `n`, marked as hexadecimal. -/
def hex (n : Nat) : String :=
  "0x" ++ String.ofList (hexDigits n)

/-- The numeral of a word, all eight digits written. -/
def hexWord (w : UInt32) : String :=
  "0x" ++ String.ofList (hexDigitsFilled 8 w.toNat)

end SegFit
