import ValueContract.Class.Member
import ValueContract.Class.Spelling
import ValueContract.Entity.Basic
import ValueContract.Text

namespace ValueContract

structure Returned where
  type : String
  zero : String
  deriving DecidableEq, Repr

structure CustomMethod where
  type : String
  name : String
  returned : Option Returned
  parameters : List (Declarator × String)
  deriving DecidableEq, Repr

namespace CustomMethod

def parameterList (m : CustomMethod) : String :=
  Text.joined ", " (m.parameters.map fun p ↦ p.1.lead ++ p.2)

def signatureIn (m : CustomMethod) (scope : String) : String :=
  m.returned.elim "void " (·.type ++ " ") ++ scope ++ m.name ++ "(" ++ m.parameterList ++ ")"

def declaration (m : CustomMethod) : String :=
  m.signatureIn "" ++ ";"

def signature (m : CustomMethod) : String :=
  m.signatureIn (m.type ++ "::")

def stub (m : CustomMethod) : List Line :=
  Line.block m.signature
    (⟨0, "// Hand-written implementation."⟩ ::
      m.returned.elim [] fun r ↦ [⟨0, "return " ++ r.zero ++ ";"⟩])

def definition (step : String) (m : CustomMethod) : String :=
  Line.document step m.stub

def parameterDeclarator : TypeExpr → Except Primitive Declarator
  | .entity name => .ok (.reference name)
  | ty => do return .value (← ty.spelling)

/-- Bare `void` is fine as a return type; a list of it is not. -/
def returnedOf (ty : TypeExpr) : Except Primitive (Option Returned) :=
  if ty = .primitive .void then .ok none
  else do return some ⟨← ty.spelling, ← ty.zeroSpelling⟩

def parameterOf (p : Parameter) : Except Primitive (Declarator × String) := do
  return (← parameterDeclarator p.ty, p.name)

/-- The error is a primitive kind that has no spelling. -/
def ofMethod (type : String) (m : Method) : Except Primitive CustomMethod := do
  let returned ← returnedOf m.returns
  let parameters ← m.parameters.mapM parameterOf
  return { type, name := m.name, returned, parameters }

/-- The line feeds to insert after `text` so that what follows comes after a blank line. -/
def gap (text : String) : String :=
  if text = "" || Text.endsWith "\n\n" text then ""
  else if Text.endsWith "\n" text then "\n"
  else "\n\n"

def appendStub (step text : String) (m : CustomMethod) : String :=
  if Text.occursIn m.signature text then text
  else text ++ gap text ++ m.definition step

end CustomMethod

end ValueContract
