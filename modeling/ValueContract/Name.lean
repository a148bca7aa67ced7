namespace ValueContract

inductive NameFault
  | empty
  | badStart (name : String)
  | badCharacter (name : String) (character : Char)
  deriving DecidableEq, Repr

def NameFault.message : NameFault → String
  | .empty => "identifier is empty"
  | .badStart name => s!"'{name}' must start with an ASCII letter or '_'"
  | .badCharacter name character => s!"'{name}' contains the character '{character}'"

namespace Name

def isStart (c : Char) : Bool := c.isAlpha || c == '_'

def isPart (c : Char) : Bool := c.isAlphanum || c == '_'

def isIdentifier (name : String) : Bool :=
  match name.toList with
  | [] => false
  | c :: rest => isStart c && rest.all isPart

/-- A name is echoed into generated code as it stands, so only plain ASCII identifiers are taken. -/
def fault? (name : String) : Option NameFault :=
  match name.toList with
  | [] => some .empty
  | c :: rest =>
    if isStart c then (rest.find? (!isPart ·)).map (.badCharacter name)
    else some (.badStart name)

/-- A name goes into a strictly increasing list at its place, unless it is there already. Names
are ordered by code points, which is the order of their UTF-8 bytes. -/
def insertSorted (name : String) : List String → List String
  | [] => [name]
  | other :: rest =>
    if name < other then name :: other :: rest
    else if name = other then other :: rest
    else other :: insertSorted name rest

def sorted (names : List String) : List String :=
  names.foldr insertSorted []

end Name

end ValueContract
