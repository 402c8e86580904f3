/-
  Flat JSON objects in compact form: the names and values of an object in a fixed order, on
  one line without blanks.  In a string the quote, the backslash and the control characters
  below U+0020 are escaped, the latter by a letter where there is one and else by four
  lower-case hexadecimal digits; every other character stands for itself.
-/
import SegFit.Text.Hex

namespace SegFit.Json

/-- A value inside a flat object. -/
inductive Scalar where
  | null
  | nat (n : Nat)
  | text (s : String)
  deriving DecidableEq, Repr

/-- A flat object: names with their values, in order. -/
abbrev Object : Type :=
  List (String × Scalar)

/-- One character inside a string. -/
def escapeChar (c : Char) : List Char :=
  if c = '"' then ['\\', '"']
  else if c = '\\' then ['\\', '\\']
  else if c = '\x08' then ['\\', 'b']
  else if c = '\t' then ['\\', 't']
  else if c = '\n' then ['\\', 'n']
  else if c = '\x0c' then ['\\', 'f']
  else if c = '\r' then ['\\', 'r']
  else if c.toNat < 0x20 then '\\' :: 'u' :: hexDigitsFilled 4 c.toNat
  else [c]

/-- A string with its quotes. -/
def quote (s : String) : List Char :=
  '"' :: (s.toList.flatMap escapeChar ++ ['"'])

/-- A value. -/
def Scalar.render : Scalar → List Char
  | .null => ['n', 'u', 'l', 'l']
  | .nat n => Nat.toDigits 10 n
  | .text s => quote s

/-- A name with its value. -/
def renderMember (m : String × Scalar) : List Char :=
  quote m.1 ++ ':' :: m.2.render

/-- The members of an object, with commas between them. -/
def renderMembers : Object → List Char
  | [] => []
  | [m] => renderMember m
  | m :: rest => renderMember m ++ ',' :: renderMembers rest

/-- An object. -/
def render (o : Object) : List Char :=
  '\x7b' :: (renderMembers o ++ ['\x7d'])

end SegFit.Json
