import ValueContract.Entity.Basic
import ValueContract.Entity.Error

namespace ValueContract.Entity

def defineFields (owner : String) (defined : List Field) :
    List (String × TypeExpr) → Except SchemaError (List Field)
  | [] => .ok defined
  | (name, ty) :: rest =>
    match Name.fault? name with
    | some fault => .error (.invalidName owner (some name) fault)
    | none =>
      if name ∈ defined.map (·.name) then .error (.duplicateField owner name)
      else defineFields owner (defined ++ [⟨name, ty, defined.length⟩]) rest

def define (name : String) (fields : List (String × TypeExpr)) : Except SchemaError Entity :=
  match Name.fault? name with
  | some fault => .error (.invalidName name none fault)
  | none => do
    let fields ← defineFields name [] fields
    return { name, fields, methods := [] }

def checkParameters (owner method : String) (seen : List String) :
    List Parameter → Except SchemaError Unit
  | [] => .ok ()
  | p :: rest =>
    match Name.fault? p.name with
    | some fault => .error (.invalidName owner (some p.name) fault)
    | none =>
      if p.name ∈ seen then .error (.duplicateParameter owner method p.name)
      else checkParameters owner method (p.name :: seen) rest

/-- Fields and methods share one scope, so a method may not take the name of either. -/
def addMethod (e : Entity) (m : Method) : Except SchemaError Entity :=
  match Name.fault? m.name with
  | some fault => .error (.invalidName e.name (some m.name) fault)
  | none =>
    if m.name ∈ e.fields.map (·.name) ∨ m.name ∈ e.methods.map (·.name) then
      .error (.duplicateMethod e.name m.name)
    else do
      checkParameters e.name m.name [] m.parameters
      return { e with methods := e.methods ++ [m] }

def withMethods (e : Entity) (methods : List Method) : Except SchemaError Entity :=
  methods.foldlM addMethod e

end ValueContract.Entity
