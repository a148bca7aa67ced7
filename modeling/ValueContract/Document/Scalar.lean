import ValueContract.Document.Item
import ValueContract.Document.Scan

namespace ValueContract.Document

open Scan

def quote : Char := '\x22'

def apostrophe : Char := '\x27'

def isSpace (c : Char) : Bool := c = ' ' || c = '\t'

def isPlain (c : Char) : Bool := c = '\t' || (0x20 ≤ c.toNat && c.toNat ≠ 0x7F)

def spaces : Scan Unit := skip isSpace

def newline : Scan Unit := literal "\n" <|> literal "\r\n"

def comment : Scan Unit := char '#' *> skip isPlain

/-! ### Strings -/

def digitOf (c : Char) : Nat :=
  if c.isDigit then c.toNat - '0'.toNat
  else if c.isLower then c.toNat - 'a'.toNat + 10
  else c.toNat - 'A'.toNat + 10

def isHexDigit (c : Char) : Bool :=
  c.isDigit || ('a' ≤ c && c ≤ 'f') || ('A' ≤ c && c ≤ 'F')

def number (base : Nat) (digits : List Char) : Nat :=
  digits.foldl (fun n c ↦ n * base + digitOf c) 0

/-- A code point in so many hexadecimal digits; surrogates are none. -/
def codePoint (width : Nat) : Scan Char := do
  let n ← number 16 <$> exactly (next isHexDigit) width
  if n.isValidChar then return Char.ofNat n else failure

def escape : Scan Char := do
  char '\\'
  match ← next fun _ ↦ true with
  | 'b' => return '\x08'
  | 't' => return '\t'
  | 'n' => return '\n'
  | 'f' => return '\x0C'
  | 'r' => return '\r'
  | '\\' => return '\\'
  | 'u' => codePoint 4
  | 'U' => codePoint 8
  | c => if c = quote then return c else failure

def basicChar : Scan Char :=
  next (fun c ↦ isPlain c && c ≠ quote && c ≠ '\\') <|> escape

def literalChar : Scan Char :=
  next fun c ↦ isPlain c && c ≠ apostrophe

def basicString : Scan String :=
  char quote *> (String.ofList <$> many basicChar) <* char quote

def literalString : Scan String :=
  char apostrophe *> (String.ofList <$> many literalChar) <* char apostrophe

def marks (mark : Char) (least most : Nat) : Scan (List Char) :=
  (span (· = mark)).filter fun ms ↦ least ≤ ms.length && ms.length ≤ most

/-- A backslash at the end of a line takes the line end with it, and all blanks after that. -/
def continuation : Scan Unit :=
  char '\\' *> spaces *> newline *> skipMany ((Functor.discard (next isSpace)) <|> newline)

/-- A string between triple marks. A line end right after the opening is dropped, line ends are
line feeds, and up to two marks may stand inside, also right before the closing. -/
def multiLine (mark : Char) (piece : Scan (List Char)) : Scan String := do
  let _ ← exactly (char mark) 3
  let _ ← optional newline
  let pieces ← many (piece <|> (newline *> pure ['\n']) <|> marks mark 1 2)
  let closing ← marks mark 3 5
  return String.ofList (pieces.flatten ++ closing.drop 3)

def multiLineBasic : Scan String :=
  multiLine quote ((continuation *> pure []) <|> (fun c ↦ [c]) <$> basicChar)

def multiLineLiteral : Scan String :=
  multiLine apostrophe ((fun c ↦ [c]) <$> literalChar)

def string : Scan String :=
  multiLineBasic <|> basicString <|> multiLineLiteral <|> literalString

/-! ### Numbers -/

def digits (p : Char → Bool) : Scan (List Char) := do
  let first ← next p
  let others ← many (optional (char '_') *> next p)
  return first :: others

def decimalDigits : Scan (List Char) :=
  (next (· = '0') *> pure ['0']) <|> digits Char.isDigit

def sign : Scan Bool :=
  (char '-' *> pure true) <|> (char '+' *> pure false) <|> pure false

def based (lead : String) (base : Nat) (p : Char → Bool) : Scan Int := do
  literal lead
  return number base (← digits p)

def decimal : Scan Int := do
  let isNegative ← sign
  let n := number 10 (← decimalDigits)
  return if isNegative then -n else n

/-- Integers have to fit in 64 bits, with a sign. -/
def integer : Scan Int :=
  (based "0x" 16 isHexDigit <|> based "0o" 8 (fun c ↦ '0' ≤ c && c ≤ '7') <|>
    based "0b" 2 (fun c ↦ c = '0' || c = '1') <|> decimal).filter
      fun n ↦ -0x8000000000000000 ≤ n && n ≤ 0x7FFFFFFFFFFFFFFF

/-- The decimal number `m * 10 ^ e` lies beyond the largest double by half a unit or more. -/
def overflows (m : Nat) (e : Int) : Bool :=
  let size := (Nat.toDigits 10 m).length + e
  if m = 0 || size < 300 then false
  else if 320 < size then true
  else
    let limit := (Nat.pow 2 54 - 1) * Nat.pow 2 970
    let scale := Nat.pow 10 e.natAbs
    if e < 0 then limit * scale ≤ m else limit ≤ m * scale

def exponent : Scan Int := do
  let _ ← next fun c ↦ c = 'e' || c = 'E'
  let isNegative ← sign
  let n := number 10 (← digits Char.isDigit)
  return if isNegative then -n else n

/-- A float has a fraction, an exponent or both, and no positive one is too large. -/
def finiteFloat : Scan Unit := do
  let isNegative ← sign
  let whole ← decimalDigits
  let fraction ← optional (char '.' *> digits Char.isDigit)
  let exponent ← optional exponent
  let digits := whole ++ fraction.getD []
  let tooLarge :=
    overflows (number 10 digits) (exponent.getD 0 - (fraction.getD []).length)
  if (fraction.isNone && exponent.isNone) || (tooLarge && !isNegative) then failure

def float : Scan Unit :=
  finiteFloat <|> do
    let _ ← sign
    literal "inf" <|> literal "nan"

/-! ### Date-times -/

def fixed (width least most : Nat) : Scan Nat :=
  (number 10 <$> exactly (next Char.isDigit) width).filter fun n ↦ least ≤ n && n ≤ most

def daysIn (year month : Nat) : Nat :=
  if month = 2 then
    if year % 4 = 0 && (year % 100 ≠ 0 || year % 400 = 0) then 29 else 28
  else if month = 4 || month = 6 || month = 9 || month = 11 then 30
  else 31

def date : Scan Unit := do
  let year ← fixed 4 0 9999
  char '-'
  let month ← fixed 2 1 12
  char '-'
  let _ ← fixed 2 1 (daysIn year month)

def time : Scan Unit := do
  let _ ← fixed 2 0 23
  char ':'
  let _ ← fixed 2 0 59
  char ':'
  let _ ← fixed 2 0 60
  let _ ← optional (char '.' *> (span Char.isDigit).filter (!·.isEmpty))

def offset : Scan Unit :=
  Functor.discard (next fun c ↦ c = 'Z' || c = 'z') <|> do
    let _ ← next fun c ↦ c = '+' || c = '-'
    let _ ← fixed 2 0 23
    char ':'
    let _ ← fixed 2 0 59

def dateTime : Scan Unit :=
  (do
    date
    let _ ← optional do
      let _ ← next fun c ↦ c = 'T' || c = 't' || c = ' '
      time
      let _ ← optional offset) <|> time

def boolean : Scan Bool :=
  (literal "true" *> pure true) <|> (literal "false" *> pure false)

def scalar : Scan Item :=
  .text <$> string <|> (dateTime *> pure .dateTime) <|> (float *> pure .float) <|>
    .integer <$> integer <|> .boolean <$> boolean

end ValueContract.Document
