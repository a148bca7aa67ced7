import ValueContract.Text
import ValueContract.TypeExpr

namespace ValueContract

inductive SchemaError
  | duplicateField (entity field : String)
  | duplicateEntity (entity : String)
  | duplicateMethod (entity method : String)
  | duplicateParameter (entity method parameter : String)
  | invalidName (entity : String) (member : Option String) (fault : NameFault)
  | invalidType (entity member : String) (fault : TypeFault)
  | unresolvedType (entity field target : String)
  | unresolvedMethodType (entity method target : String)
  | compositionCycle (entity : String) (path : List String)
  | unknownEntity (entity : String)
  deriving DecidableEq, Repr

namespace SchemaError

def message : SchemaError → String
  | duplicateField entity field => s!"duplicate field '{field}' in entity '{entity}'"
  | duplicateEntity entity => s!"duplicate entity '{entity}'"
  | duplicateMethod entity method =>
    s!"method '{method}' of entity '{entity}' clashes with another field or method"
  | duplicateParameter entity method parameter =>
    s!"duplicate parameter '{parameter}' in method '{method}' of entity '{entity}'"
  | invalidName entity _ fault => s!"invalid identifier in entity '{entity}': {fault.message}"
  | invalidType entity member fault =>
    s!"field '{member}' of entity '{entity}' has an invalid type: {fault.message}"
  | unresolvedType entity field target =>
    s!"field '{field}' of entity '{entity}' references unknown entity '{target}'"
  | unresolvedMethodType entity method target =>
    s!"method '{method}' of entity '{entity}' references unknown entity '{target}'"
  | compositionCycle entity path =>
    s!"entity '{entity}' is part of a composition cycle: " ++ Text.joined " -> " path
  | unknownEntity entity => s!"unknown entity '{entity}'"

/-- The entity the fault is blamed on. -/
def entity : SchemaError → String
  | duplicateField entity _ | duplicateEntity entity | duplicateMethod entity _
  | duplicateParameter entity _ _ | invalidName entity _ _ | invalidType entity _ _
  | unresolvedType entity _ _ | unresolvedMethodType entity _ _ | compositionCycle entity _
  | unknownEntity entity => entity

def member? : SchemaError → Option String
  | duplicateField _ member | duplicateMethod _ member | duplicateParameter _ member _
  | invalidType _ member _ | unresolvedType _ member _ | unresolvedMethodType _ member _ =>
    some member
  | invalidName _ member _ => member
  | duplicateEntity _ | compositionCycle _ _ | unknownEntity _ => none

end SchemaError

end ValueContract
