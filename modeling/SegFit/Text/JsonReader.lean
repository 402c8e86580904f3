/-
  A reader of JSON texts: any value between blanks, with nested arrays and objects, all escapes
  of strings and numbers with fractions and exponents.  Each function reads from the front of a
  text and returns what it read with the rest of the text; it returns nothing where the text is
  not JSON.  Fuel bounds the nesting and the length of lists; a text has fewer of either than
  characters.
-/

namespace SegFit.Json

/-- A JSON value.  The members of an object stay in the order of the text, each as often as it
stands there. -/
inductive Value where
  | null
  | bool (b : Bool)
  | number (q : Rat)
  | text (s : String)
  | array (items : List Value)
  | object (members : List (String × Value))

/-! ## Blanks -/

/-- Whether `c` may stand between the parts of a text. -/
def isBlank (c : Char) : Bool :=
  c = ' ' || c = '\t' || c = '\n' || c = '\r'

/-- The text after its blanks. -/
def skipBlanks (text : List Char) : List Char :=
  text.dropWhile isBlank

/-- The text after its blanks and the mark `c`. -/
def readMark (c : Char) (text : List Char) : Option (List Char) :=
  match skipBlanks text with
  | [] => none
  | d :: rest => if d = c then some rest else none

/-! ## Numbers -/

/-- One digit or more. -/
def readDigits (text : List Char) : Option (List Char × List Char) :=
  match text.takeWhile Char.isDigit with
  | [] => none
  | digits => some (digits, text.dropWhile Char.isDigit)

/-- The digits of a whole number, which start with zero only if there is no other. -/
def readWhole (text : List Char) : Option (List Char × List Char) := do
  let (digits, rest) ← readDigits text
  if digits.head? = some '0' ∧ digits ≠ ['0'] then none else some (digits, rest)

/-- The digits after the point, if there is one. -/
def readFraction : List Char → Option (List Char × List Char)
  | '.' :: rest => readDigits rest
  | text => some ([], text)

/-- The exponent after its letter, 0 if there is none. -/
def readExponent : List Char → Option (Int × List Char)
  | [] => some (0, [])
  | c :: rest =>
    if c = 'e' ∨ c = 'E' then
      match rest with
      | '-' :: rest => (readDigits rest).map (Prod.map (fun ds => -Nat.ofDigitChars 10 ds 0) id)
      | '+' :: rest => (readDigits rest).map (Prod.map (fun ds => Nat.ofDigitChars 10 ds 0) id)
      | rest => (readDigits rest).map (Prod.map (fun ds => Nat.ofDigitChars 10 ds 0) id)
    else some (0, c :: rest)

/-- A number without its sign. -/
def readUnsigned (text : List Char) : Option (Rat × List Char) := do
  let (whole, rest) ← readWhole text
  let (fraction, rest) ← readFraction rest
  let (exponent, rest) ← readExponent rest
  let digits : Nat := Nat.ofDigitChars 10 (whole ++ fraction) 0
  some (digits * (10 : Rat) ^ (exponent - fraction.length), rest)

/-- A number. -/
def readNumber : List Char → Option (Rat × List Char)
  | '-' :: rest => (readUnsigned rest).map (Prod.map (-·) id)
  | text => readUnsigned text

/-! ## Strings -/

/-- The value of a hexadecimal digit. -/
def hexDigit (c : Char) : Option Nat :=
  if c.isDigit then some (c.toNat - '0'.toNat)
  else if 'a' ≤ c ∧ c ≤ 'f' then some (c.toNat - 'a'.toNat + 10)
  else if 'A' ≤ c ∧ c ≤ 'F' then some (c.toNat - 'A'.toNat + 10)
  else none

/-- The value of hexadecimal digits. -/
def hexValue (digits : List Char) : Option Nat :=
  digits.foldlM (fun n c => (16 * n + ·) <$> hexDigit c) 0

/-- What a letter after a backslash stands for. -/
def escapedLetter : Char → Option Nat
  | '"' => some '"'.toNat
  | '\\' => some '\\'.toNat
  | '/' => some '/'.toNat
  | 'b' => some 0x08
  | 'f' => some 0x0c
  | 'n' => some 0x0a
  | 'r' => some 0x0d
  | 't' => some 0x09
  | _ => none

/-- The code units of a string up to its closing quote.  A character that stands for itself
counts as one unit, also outside the basic plane. -/
def readUnits : List Char → Option (List Nat × List Char)
  | [] => none
  | '"' :: rest => some ([], rest)
  | '\\' :: 'u' :: a :: b :: c :: d :: rest => do
    let unit ← hexValue [a, b, c, d]
    (readUnits rest).map (Prod.map (unit :: ·) id)
  | '\\' :: c :: rest => do
    let unit ← escapedLetter c
    (readUnits rest).map (Prod.map (unit :: ·) id)
  | c :: rest =>
    if c.toNat < 0x20 then none else (readUnits rest).map (Prod.map (c.toNat :: ·) id)

/-- The characters of code units: a high and a low surrogate are one character together and
none apart. -/
def characters : List Nat → Option (List Char)
  | [] => some []
  | unit :: rest =>
    if unit.isValidChar then (Char.ofNat unit :: ·) <$> characters rest
    else
      match rest with
      | low :: rest =>
        if unit < 0xdc00 ∧ 0xdc00 ≤ low ∧ low < 0xe000 then
          let pair := 0x10000 + 0x400 * (unit - 0xd800) + (low - 0xdc00)
          (Char.ofNat pair :: ·) <$> characters rest
        else none
      | [] => none

/-- A string after its opening quote. -/
def readString (text : List Char) : Option (String × List Char) := do
  let (units, rest) ← readUnits text
  let cs ← characters units
  some (String.ofList cs, rest)

/-! ## Values -/

/-- What `read` reads, once or more often, with commas in between, and the mark `close`. -/
def readItems {α : Type} (read : List Char → Option (α × List Char)) (close : Char) :
    Nat → List Char → Option (List α × List Char)
  | 0, _ => none
  | fuel + 1, text => do
    let (item, rest) ← read text
    match readMark ',' rest with
    | some rest => do
      let (items, rest) ← readItems read close fuel rest
      some (item :: items, rest)
    | none => do
      let rest ← readMark close rest
      some ([item], rest)

/-- What `read` reads, any number of times, after the mark that opens a list. -/
def readList {α : Type} (read : List Char → Option (α × List Char)) (close : Char)
    (text : List Char) : Option (List α × List Char) :=
  match readMark close text with
  | some rest => some ([], rest)
  | none => readItems read close text.length text

/-- A name with what `read` reads after the colon. -/
def readMember {α : Type} (read : List Char → Option (α × List Char)) (text : List Char) :
    Option ((String × α) × List Char) := do
  let rest ← readMark '"' text
  let (name, rest) ← readString rest
  let rest ← readMark ':' rest
  let (value, rest) ← read rest
  some ((name, value), rest)

/-- A value that is nested at most `fuel` deep. -/
def readValue : Nat → List Char → Option (Value × List Char)
  | 0, _ => none
  | fuel + 1, text =>
    match skipBlanks text with
    | 'n' :: 'u' :: 'l' :: 'l' :: rest => some (.null, rest)
    | 't' :: 'r' :: 'u' :: 'e' :: rest => some (.bool true, rest)
    | 'f' :: 'a' :: 'l' :: 's' :: 'e' :: rest => some (.bool false, rest)
    | '"' :: rest => (readString rest).map (Prod.map .text id)
    | '[' :: rest => (readList (readValue fuel) ']' rest).map (Prod.map .array id)
    | '\x7b' :: rest =>
      (readList (readMember (readValue fuel)) '\x7d' rest).map (Prod.map .object id)
    | text => (readNumber text).map (Prod.map .number id)

/-- The value that a text spells. -/
def read (text : List Char) : Option Value := do
  let (value, rest) ← readValue text.length text
  if skipBlanks rest = [] then some value else none

end SegFit.Json
