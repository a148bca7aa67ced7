namespace ValueContract.Document

inductive TableKind
  | inline
  /-- Named on the way by a dotted key in braces. -/
  | inlineDotted
  | header
  /-- Named on the way by a header. -/
  | implied
  /-- Named on the way by a dotted key. -/
  | dotted
  deriving DecidableEq, Repr

/-- Floats and date-times are recognised and not read, for nothing in a schema has either. -/
inductive Item
  | text (s : String)
  | integer (n : Int)
  | float
  | boolean (b : Bool)
  | dateTime
  | array (items : List Item)
  | table (kind : TableKind) (entries : List (String × Item))
  /-- Tables that headers of one name have opened one after the other. -/
  | tables (elements : List (List (String × Item)))
  deriving Repr

abbrev Table := List (String × Item)

namespace Item

def text? : Item → Option String
  | text s => some s
  | _ => none

def elements? : Item → Option (List Item)
  | array items => some items
  | tables elements => some (elements.map (table .header))
  | _ => none

end Item

end ValueContract.Document
