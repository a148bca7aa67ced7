import ValueContract.Entity.Basic
import ValueContract.Entity.Error
import ValueContract.Settings
import ValueContract.Text

namespace ValueContract

/-- Why a text cannot serve as a marker. A line that ends with a backslash would splice the next
line of output into the comment. -/
inductive MarkerFault
  | blank
  | splicedLine
  deriving DecidableEq, Repr

def MarkerFault.message : MarkerFault → String
  | .blank => "marker text is empty"
  | .splicedLine => "a marker line ends with a backslash"

namespace Marker

def commentLine (line : String) : String :=
  if line = "" then "//" else "// " ++ line

def commentLines (marker : String) : List String :=
  (Text.lines marker).map commentLine

def comment (marker : String) : String :=
  Text.joined "\n" (commentLines marker)

def fault? (marker : String) : Option MarkerFault :=
  if Text.isBlank marker then some .blank
  else if (Text.lines marker).any (Text.endsWith "\\") then some .splicedLine
  else none

end Marker

end ValueContract

namespace ValueContract.Reserved

def keywords : List String :=
  ["alignas", "alignof", "and", "and_eq", "asm", "auto", "bitand", "bitor", "bool", "break",
    "case", "catch", "char", "char8_t", "char16_t", "char32_t", "class", "compl", "concept",
    "const", "consteval", "constexpr", "constinit", "const_cast", "continue", "co_await",
    "co_return", "co_yield", "decltype", "default", "delete", "do", "double", "dynamic_cast",
    "else", "enum", "explicit", "export", "extern", "false", "float", "for", "friend", "goto",
    "if", "inline", "int", "long", "mutable", "namespace", "new", "noexcept", "not", "not_eq",
    "nullptr", "operator", "or", "or_eq", "private", "protected", "public", "register",
    "reinterpret_cast", "requires", "return", "short", "signed", "sizeof", "static",
    "static_assert", "static_cast", "struct", "switch", "template", "this", "thread_local",
    "throw", "true", "try", "typedef", "typeid", "typename", "union", "unsigned", "using",
    "virtual", "void", "volatile", "wchar_t", "while", "xor", "xor_eq"]

def boundNames : List String := ["copy_to", "clone", "other"]

def isKeyword (name : String) : Bool := keywords.contains name

def isReserved (name : String) : Bool := isKeyword name || boundNames.contains name

/-- A name that cannot be echoed, with the member that brings it in; none for the entity's own. -/
structure Clash where
  member : Option String
  name : String
  deriving DecidableEq, Repr

/-- A member named like its class would hide the constructor. -/
def isTaken (e : Entity) (name : String) : Bool :=
  isReserved name || name = e.name

def fieldClash? (e : Entity) (f : Field) : Option Clash :=
  if isTaken e f.name then some ⟨some f.name, f.name⟩
  else (f.ty.referenced?.filter isReserved).map (⟨some f.name, ·⟩)

/-- Parameters live in a scope of their own, where only keywords are in the way. -/
def methodClash? (e : Entity) (m : Method) : Option Clash :=
  if isTaken e m.name then some ⟨some m.name, m.name⟩
  else
    match m.parameters.find? (isKeyword ·.name) with
    | some p => some ⟨some m.name, p.name⟩
    | none => (m.references.find? isReserved).map (⟨some m.name, ·⟩)

def clash? (e : Entity) : Option Clash :=
  if isReserved e.name then some ⟨none, e.name⟩
  else
    match e.fields.findSome? (fieldClash? e) with
    | some clash => some clash
    | none => e.methods.findSome? (methodClash? e)

end ValueContract.Reserved

namespace ValueContract

inductive EmitError
  | schema (error : SchemaError)
  | unsupportedPrimitive (entity member : String) (kind : Primitive) (language : Language)
  | reservedName (entity : String) (member : Option String) (name : String) (language : Language)
  | invalidMarker (entity : String) (fault : MarkerFault)
  deriving DecidableEq, Repr

namespace EmitError

def message : EmitError → String
  | schema error => error.message
  | unsupportedPrimitive entity member kind language =>
    s!"field '{member}' of entity '{entity}' uses primitive '{kind.name}', " ++
      s!"which {language.name} output does not support"
  | reservedName entity _ name language =>
    s!"identifier '{name}' in entity '{entity}' is reserved in generated {language.name} code"
  | invalidMarker entity fault =>
    s!"generated-file marker for entity '{entity}' is unusable: {fault.message}"

def entity : EmitError → String
  | schema error => error.entity
  | unsupportedPrimitive entity _ _ _ | reservedName entity _ _ _ | invalidMarker entity _ => entity

def member? : EmitError → Option String
  | schema error => error.member?
  | unsupportedPrimitive _ member _ _ => some member
  | reservedName _ member _ _ => member
  | invalidMarker _ _ => none

end EmitError

end ValueContract
