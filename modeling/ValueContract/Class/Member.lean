import ValueContract.Class.Spelling
import ValueContract.Text

namespace ValueContract

structure Line where
  depth : Nat := 0
  text : String
  deriving DecidableEq, Repr

namespace Line

def render (step : String) (line : Line) : String :=
  Text.repeated step line.depth ++ line.text

def deeper (line : Line) : Line := { line with depth := line.depth + 1 }

def document (step : String) (lines : List Line) : String :=
  Text.unlines (lines.map (render step))

def block (head : String) (body : List Line) : List Line :=
  ⟨0, head⟩ :: ⟨0, "\x7b"⟩ :: body.map deeper ++ [⟨0, "\x7d"⟩]

end Line

/-- An entity is held through a pointer that the object owns, any other field by value. -/
inductive Storage
  | owned (entity : String)
  | held (type zero : String)
  deriving DecidableEq, Repr

structure ClassField where
  name : String
  storage : Storage
  deriving DecidableEq, Repr

namespace ClassField

def isOwned (f : ClassField) : Bool :=
  match f.storage with
  | .owned _ => true
  | .held _ _ => false

def declarator (f : ClassField) : Declarator :=
  match f.storage with
  | .owned entity => .pointer entity
  | .held type _ => .value type

def declaration (f : ClassField) : String :=
  f.declarator.lead ++ f.name ++ ";"

end ClassField

inductive Comparison
  | pointees (field : String)
  | values (field : String)
  deriving DecidableEq, Repr

def Comparison.text : Comparison → String
  | pointees field => "*" ++ field ++ " == *other." ++ field
  | values field => field ++ " == other." ++ field

inductive Statement
  | setZero (field zero : String)
  | allocate (field entity : String)
  | release (field : String)
  | copyValue (field : String)
  | copyPointee (field : String)
  | returnEqual (comparisons : List Comparison)
  | returnUnequal
  | copyFromOther
  | declareClone (type : String)
  | copyToClone
  | returnClone
  | returnThis
  | returnThisIfOther
  deriving DecidableEq, Repr

namespace Statement

/-- An object without fields equals every other. -/
def conjunction : List Comparison → String
  | [] => "true"
  | comparisons => Text.joined " && " (comparisons.map (·.text))

def lines : Statement → List Line
  | setZero field zero => [⟨0, field ++ " = " ++ zero ++ ";"⟩]
  | allocate field entity => [⟨0, field ++ " = new " ++ entity ++ "();"⟩]
  | release field => [⟨0, "delete " ++ field ++ ";"⟩]
  | copyValue field => [⟨0, "other." ++ field ++ " = " ++ field ++ ";"⟩]
  | copyPointee field => [⟨0, field ++ "->copy_to(*other." ++ field ++ ");"⟩]
  | returnEqual comparisons => [⟨0, "return " ++ conjunction comparisons ++ ";"⟩]
  | returnUnequal => [⟨0, "return !(*this == other);"⟩]
  | copyFromOther => [⟨0, "other.copy_to(*this);"⟩]
  | declareClone type => [⟨0, type ++ " clone;"⟩]
  | copyToClone => [⟨0, "copy_to(clone);"⟩]
  | returnClone => [⟨0, "return clone;"⟩]
  | returnThis => [⟨0, "return *this;"⟩]
  | returnThisIfOther => Line.block "if (this == &other)" [⟨0, "return *this;"⟩]

end Statement

inductive MemberRole
  | defaultConstructor
  | copyConstructor
  | destructor
  | copyTo
  | clone
  | equality
  | inequality
  | assignment
  deriving DecidableEq, Repr

namespace MemberRole

/-- The order in which a class declares and defines its members. -/
def all : List MemberRole :=
  [defaultConstructor, copyConstructor, destructor, copyTo, clone, equality, inequality,
    assignment]

def name : MemberRole → String
  | defaultConstructor => "default_constructor"
  | copyConstructor => "copy_constructor"
  | destructor => "destructor"
  | copyTo => "copy_to"
  | clone => "clone"
  | equality => "equality"
  | inequality => "inequality"
  | assignment => "assignment"

end MemberRole

structure Member where
  role : MemberRole
  name : String
  returns : Option Declarator := none
  parameter : Option Declarator := none
  isConst : Bool := false
  /-- The default constructor runs before the body. -/
  delegates : Bool := false
  body : List Statement
  deriving DecidableEq, Repr

namespace Member

def signature (m : Member) (scope : String) : String :=
  m.returns.elim "" (·.lead) ++ scope ++ m.name ++
    m.parameter.elim "()" (fun d ↦ "(" ++ d.lead ++ "other)") ++
    (if m.isConst then " const" else "")

def declaration (m : Member) : String :=
  m.signature "" ++ ";"

def definition (m : Member) (type : String) : List Line :=
  Line.block (m.signature (type ++ "::") ++ (if m.delegates then " : " ++ type ++ "()" else ""))
    (m.body.flatMap (·.lines))

def initialise (f : ClassField) : Statement :=
  match f.storage with
  | .owned entity => .allocate f.name entity
  | .held _ zero => .setZero f.name zero

def copyField (f : ClassField) : Statement :=
  if f.isOwned then .copyPointee f.name else .copyValue f.name

def compareField (f : ClassField) : Comparison :=
  if f.isOwned then .pointees f.name else .values f.name

def contract (type : String) (fields : List ClassField) : MemberRole → Member
  | .defaultConstructor =>
    { role := .defaultConstructor, name := type, body := fields.map initialise }
  | .copyConstructor =>
    { role := .copyConstructor, name := type, parameter := some (.constReference type),
      delegates := true, body := [.copyFromOther] }
  | .destructor =>
    { role := .destructor, name := "~" ++ type,
      body := (fields.filter (·.isOwned)).map (.release ·.name) }
  | .copyTo =>
    { role := .copyTo, name := "copy_to", returns := some (.value "void"),
      parameter := some (.reference type), isConst := true, body := fields.map copyField }
  | .clone =>
    { role := .clone, name := "clone", returns := some (.value type), isConst := true,
      body := [.declareClone type, .copyToClone, .returnClone] }
  | .equality =>
    { role := .equality, name := "operator==", returns := some (.value "bool"),
      parameter := some (.constReference type), isConst := true,
      body := [.returnEqual (fields.map compareField)] }
  | .inequality =>
    { role := .inequality, name := "operator!=", returns := some (.value "bool"),
      parameter := some (.constReference type), isConst := true, body := [.returnUnequal] }
  | .assignment =>
    { role := .assignment, name := "operator=", returns := some (.reference type),
      parameter := some (.constReference type),
      body := [.returnThisIfOther, .copyFromOther, .returnThis] }

end Member

end ValueContract
