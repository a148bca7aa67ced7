namespace ValueContract.Text

/-- The code points of white space, as closed ranges in increasing order. -/
def blankRanges : List (Nat × Nat) :=
  [(0x09, 0x0D), (0x20, 0x20), (0x85, 0x85), (0xA0, 0xA0), (0x1680, 0x1680), (0x2000, 0x200A),
    (0x2028, 0x2029), (0x202F, 0x202F), (0x205F, 0x205F), (0x3000, 0x3000)]

def isBlankChar (c : Char) : Bool :=
  blankRanges.any fun range ↦ range.1 ≤ c.toNat && c.toNat ≤ range.2

def isBlank (text : String) : Bool :=
  text.toList.all isBlankChar

/-- A carriage return that no line feed follows is an ordinary character, also at the very end. -/
def splitLines : List Char → List (List Char)
  | [] => []
  | '\n' :: rest => [] :: splitLines rest
  | '\r' :: '\n' :: rest => [] :: splitLines rest
  | c :: rest =>
    match splitLines rest with
    | [] => [[c]]
    | line :: lines => (c :: line) :: lines

def lines (text : String) : List String :=
  (splitLines text.toList).map String.ofList

def unlines : List String → String
  | [] => ""
  | line :: lines => line ++ "\n" ++ unlines lines

def joined (separator : String) : List String → String
  | [] => ""
  | [text] => text
  | text :: texts => text ++ separator ++ joined separator texts

def repeated (text : String) : Nat → String
  | 0 => ""
  | count + 1 => text ++ repeated text count

def occursInChars (part : List Char) : List Char → Bool
  | [] => part.isEmpty
  | c :: rest => part.isPrefixOf (c :: rest) || occursInChars part rest

def occursIn (part text : String) : Bool :=
  occursInChars part.toList text.toList

def endsWith (ending text : String) : Bool :=
  ending.toList.isSuffixOf text.toList

end ValueContract.Text
