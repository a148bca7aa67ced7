import ValueContract.Document.Scalar
import ValueContract.Document.Table

namespace ValueContract.Document

open Scan

def depthLimit : Nat := 79

def keyLimit : Nat := 79

def simpleKey : Scan String :=
  basicString <|> literalString <|>
    (String.ofList <$> (span fun c ↦ c.isAlphanum || c = '-' || c = '_').filter (!·.isEmpty))

/-- A key as the path to a table and the key in it. -/
def key : Scan (List String × String) := do
  let parts ← sepBy1 (spaces *> simpleKey <* spaces) (char '.')
  match parts.getLast? with
  | some last => if parts.length ≤ keyLimit then return (parts.dropLast, last) else failure
  | none => failure

def gap : Scan Unit :=
  skipMany ((Functor.discard (next isSpace)) <|> newline <|> (comment *> newline))

def array (value : Scan Item) : Scan Item := do
  char '['
  let items ← sepBy (gap *> value <* gap) (char ',')
  if !items.isEmpty then
    let _ ← optional (char ',')
  gap
  char ']'
  return .array items

def inlinePair (value : Scan Item) : Scan (List String × String × Item) := do
  let (path, name) ← key
  char '='
  spaces
  let item ← value
  spaces
  return (path, name, item)

def inlineTable (value : Scan Item) : Scan Item := do
  char '\x7b'
  let pairs ← sepBy (inlinePair value) (char ',')
  spaces
  char '\x7d'
  match pairs.foldlM (fun t (path, name, item) ↦ Table.put .inlineDotted name item t path) [] with
  | some entries => return .table .inline entries
  | none => failure

/-- A value with at most `depth` layers of arrays and tables in braces. -/
def value : Nat → Scan Item
  | 0 => scalar
  | depth + 1 => scalar <|> array (value depth) <|> inlineTable (value depth)

def pair : Scan Clause := do
  let (path, name) ← key
  char '='
  spaces
  return .pair path name (← value depthLimit)

def header : Scan Clause := do
  let (path, name) ← char '[' *> key <* char ']'
  return .header path name

def arrayHeader : Scan Clause := do
  let (path, name) ← literal "[[" *> key <* literal "]]"
  return .arrayHeader path name

def line : Scan (Option Clause) := do
  spaces
  let clause ← optional (arrayHeader <|> header <|> pair)
  spaces
  let _ ← optional comment
  return clause

/-- A byte-order mark at the start is skipped. -/
def clauses : Scan (List Clause) := do
  let _ ← optional (char '\ufeff')
  let lines ← sepBy1 line newline
  atEnd
  return lines.filterMap id

def read (text : String) : Option Table := do
  let (clauses, _) ← clauses text.toList
  Table.ofClauses clauses

end ValueContract.Document
