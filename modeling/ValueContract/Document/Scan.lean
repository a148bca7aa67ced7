namespace ValueContract

/-- Reads a beginning of the text and leaves the rest, or fails. Of two scans joined by `<|>` the
second starts where the first did. -/
abbrev Scan := StateT (List Char) Option

namespace Scan

variable {α β : Type}

def next (p : Char → Bool) : Scan Char
  | [] => none
  | c :: rest => if p c then some (c, rest) else none

def char (c : Char) : Scan Unit := do
  let _ ← next (· = c)

def literal (text : String) : Scan Unit :=
  fun s ↦ (text.toList.isPrefixOf? s).map ((), ·)

def span (p : Char → Bool) : Scan (List Char) :=
  fun s ↦ some (s.span p)

def skip (p : Char → Bool) : Scan Unit := do
  let _ ← span p

def atEnd : Scan Unit
  | [] => some ((), [])
  | _ :: _ => none

def repeatUpTo (p : Scan α) : Nat → List Char → List α × List Char
  | 0, s => ([], s)
  | rounds + 1, s =>
    match p s with
    | none => ([], s)
    | some (a, rest) =>
      let (as, rest) := repeatUpTo p rounds rest
      (a :: as, rest)

/-- Repeats a scan as often as it succeeds. It has to read something each time, so there are no
more rounds than characters. -/
def many (p : Scan α) : Scan (List α) :=
  fun s ↦ some (repeatUpTo p s.length s)

def skipMany (p : Scan α) : Scan Unit := do
  let _ ← many p

def sepBy1 (p : Scan α) (separator : Scan β) : Scan (List α) := do
  let first ← p
  let others ← many (separator *> p)
  return first :: others

def sepBy (p : Scan α) (separator : Scan β) : Scan (List α) :=
  sepBy1 p separator <|> pure []

def exactly (p : Scan α) : Nat → Scan (List α)
  | 0 => pure []
  | count + 1 => do
    let first ← p
    let others ← exactly p count
    return first :: others

def filter (accept : α → Bool) (p : Scan α) : Scan α := do
  let a ← p
  if accept a then return a else failure

end Scan

end ValueContract
